import BlazeNet.Proofs.StoreLayout

/-!
# Compaction

A compaction that goes through leaves what appending the live chunks, in the order of their
hashes, to an empty store leaves (`exec_compactSwitch`); up to the rename of the new pack, nothing
of the store has changed (`keeps_compactRewrite`).
-/

namespace BlazeNet

open Wire FaultIo Io RustStd GameStore

variable {gameId : UInt64} {s : OpenStore} {g : Places} {live : HashSet Hash}

section Tables

theorem find?_toList (t : Index) (k : String) :
    (t.toList.find? fun e => e.1 = k).map (·.2) = t[k]? := by
  generalize hf : t.toList.find? (fun e => e.1 = k) = found
  rcases found with _ | e
  · rw [List.find?_eq_none] at hf
    rcases ht : t[k]? with _ | v
    · rfl
    · have := hf (k, v) (Std.ExtTreeMap.mem_toList_iff_getElem?_eq_some.2 ht)
      simp at this
  · have hmem := List.mem_of_find?_eq_some hf
    have hk : e.1 = k := by simpa using List.find?_some hf
    rw [← hk, Std.ExtTreeMap.mem_toList_iff_getElem?_eq_some.1 hmem]
    rfl

def eraseAll (l : List (String × UInt64)) (t : Index) : Index :=
  l.foldl (fun t e => t.erase e.1) t

theorem getElem?_eraseAll (k : String) : ∀ (l : List (String × UInt64)) (t : Index),
    (eraseAll l t)[k]? = if k ∈ l.map (·.1) then none else t[k]?
  | [], t => by simp [eraseAll]
  | e :: l, t => by
    rw [eraseAll, List.foldl_cons, ← eraseAll, getElem?_eraseAll k l, lookup_erase,
      List.map_cons]
    by_cases h₁ : k ∈ l.map (·.1)
    · rw [if_pos h₁, if_pos (List.mem_cons_of_mem _ h₁)]
    · simp only [h₁, if_false, List.mem_cons, or_false, eq_comm (a := k)]

theorem eraseAll_toList (t : Index) : eraseAll t.toList t = ∅ := by
  refine Std.ExtTreeMap.ext_getElem? fun k => ?_
  rw [getElem?_eraseAll, Std.ExtTreeMap.getElem?_empty]
  split_ifs with hk
  · rfl
  · rcases ht : t[k]? with _ | v
    · rfl
    · refine absurd (List.mem_map.2 ⟨(k, v), ?_, rfl⟩) hk
      exact Std.ExtTreeMap.mem_toList_iff_getElem?_eq_some.2 ht

theorem exec_removeAll (s : OpenStore) : ∀ (l : List (String × UInt64)) (t : Index),
    exec (removeAll l t) s = (.ok (eraseAll l t), s)
  | [], _ => rfl
  | (_, _) :: l, t => by
    simp only [removeAll, exec_bind, exec_tableRemove]
    exact exec_removeAll s l _

theorem exec_insertAll (gameId : UInt64) (s : OpenStore) : ∀ (l : List Location) (t : Index),
    exec (insertAll gameId l t) s = (.ok (insertAt gameId l t), s)
  | [], _ => rfl
  | (_, _, _) :: l, t => by
    simp only [insertAll, exec_bind, exec_tableInsert]
    exact exec_insertAll gameId s l _

end Tables

section Live

theorem hexFixed_isPrefixOf_key (gameId : UInt64) (h : Hash) :
    (hexFixed 16 gameId.toNat).isPrefixOf (key gameId h).toList := by
  rw [List.isPrefixOf_iff_prefix, key, String.toList_ofList]
  exact List.prefix_append _ _

theorem StoreLaid.filter_toList (h : StoreLaid gameId s g) :
    (s.index.toList.filter fun e => (hexFixed 16 s.self.gameId.toNat).isPrefixOf e.1.toList)
      = s.index.toList := by
  refine List.filter_eq_self.2 fun e he => ?_
  obtain ⟨k, hk⟩ := h.laid.keys e.1 e.2 (Std.ExtTreeMap.mem_toList_iff_getElem?_eq_some.1 he)
  rw [h.game, hk]
  exact hexFixed_isPrefixOf_key gameId k

/-- The locations a compaction works with are the recorded places of the live chunks. -/
theorem StoreLaid.liveLocations_eq (h : StoreLaid gameId s g) :
    liveLocations gameId s.index.toList live
      = live.elems.filterMap fun k => (g k).map fun p => (k, p.1, UInt32.ofNat p.2.length) := by
  refine List.filterMap_congr fun k _ => ?_
  have hf := find?_toList s.index (key gameId k)
  rcases hg : g k with _ | p
  · rw [h.laid.index, hg] at hf
    simp only [Option.map_none, Option.map_eq_none_iff] at hf
    simp [hf]
  · obtain ⟨v, hv, hu⟩ := h.laid.unpack_index hg
    rw [hv, Option.map_eq_some_iff] at hf
    obtain ⟨e, he, rfl⟩ := hf
    simp [he, hu]

theorem StoreLaid.liveSorted_eq (h : StoreLaid gameId s g) (live : HashSet Hash) :
    liveSorted s live
    = (live.elems.filterMap fun k => (g k).map fun p =>
        (k, p.1, UInt32.ofNat p.2.length)).mergeSort locationLe := by
  rw [liveSorted, h.filter_toList, h.game, h.liveLocations_eq]

/-- `l` lists places of `g`, each with its hash. -/
def Located (g : Places) (l : List Location) : Prop :=
  ∀ x ∈ l, ∃ p, g x.1 = some p ∧ x.2 = (p.1, UInt32.ofNat p.2.length)

theorem StoreLaid.located (h : StoreLaid gameId s g) (live : HashSet Hash) :
    Located g (liveSorted s live) := by
  intro x hx
  rw [h.liveSorted_eq, List.mem_mergeSort, List.mem_filterMap] at hx
  obtain ⟨k, -, hk⟩ := hx
  rcases hg : g k with _ | p
  · simp [hg] at hk
  · simp only [hg, Option.map_some, Option.some.injEq] at hk
    subst hk
    exact ⟨p, hg, rfl⟩

theorem map_fst_filterMap {β : Type} (f : Hash → Option β) : ∀ l : List Hash,
    (l.filterMap fun k => (f k).map fun x => (k, x)).map (·.1) = l.filter fun k => (f k).isSome
  | [] => rfl
  | k :: l => by
    rcases hk : f k with _ | x
    · simp [hk, map_fst_filterMap f l]
    · simp [hk, map_fst_filterMap f l]

theorem StoreLaid.hashes_perm (h : StoreLaid gameId s g) (live : HashSet Hash) :
    ((liveSorted s live).map (·.1)).Perm (live.elems.filter fun k => (g k).isSome) := by
  rw [h.liveSorted_eq]
  have hp := (List.mergeSort_perm (live.elems.filterMap fun k => (g k).map fun p =>
    (k, p.1, UInt32.ofNat p.2.length)) locationLe).map (·.1)
  have hm := map_fst_filterMap
    (fun k => (g k).map fun p => (p.1, UInt32.ofNat p.2.length)) live.elems
  simp only [Option.map_map, Option.isSome_map] at hm
  exact hm ▸ hp

/-- The chunks at the places of `l`. -/
def chunksOf (g : Places) (l : List Location) : List (Hash × Bytes) :=
  l.filterMap fun x => (g x.1).map fun p => (x.1, p.2)

theorem liveChunks_eq : liveChunks s live g = chunksOf g (liveSorted s live) := rfl

theorem Located.chunksOf_cons {l : List Location} {x : Location} (h : Located g (x :: l)) :
    ∃ p, g x.1 = some p ∧ x.2 = (p.1, UInt32.ofNat p.2.length)
      ∧ chunksOf g (x :: l) = (x.1, p.2) :: chunksOf g l := by
  obtain ⟨p, hp, hx⟩ := h x List.mem_cons_self
  exact ⟨p, hp, hx, by simp [chunksOf, hp]⟩

theorem Located.tail {l : List Location} {x : Location} (h : Located g (x :: l)) : Located g l :=
  fun y hy => h y (List.mem_cons_of_mem _ hy)

theorem Located.hashes : ∀ {l : List Location}, Located g l →
    (chunksOf g l).map (·.1) = l.map (·.1)
  | [], _ => rfl
  | x :: l, h => by
    obtain ⟨p, -, -, hc⟩ := h.chunksOf_cons
    rw [hc, List.map_cons, List.map_cons, h.tail.hashes]

theorem Located.relocate : ∀ {l : List Location} (o : ℕ), Located g l → relocate o l
    = ((chunksOf g l).map (·.1)).zip (placesFrom o ((chunksOf g l).map (·.2)))
  | [], _, _ => rfl
  | (k, o', n) :: l, o, h => by
    obtain ⟨p, -, hx, hc⟩ := h.chunksOf_cons
    obtain ⟨rfl, rfl⟩ := Prod.mk.injEq .. ▸ hx
    simp only [hc, GameStore.relocate, List.map_cons, placesFrom, List.zip_cons_cons]
    rw [h.tail.relocate]

theorem totalLen_relocate :
    ∀ (l : List Location) (o : ℕ), totalLen (GameStore.relocate o l) = totalLen l
  | [], _ => rfl
  | (k, o', n) :: l, o => by
    have := totalLen_relocate l (o + n.toNat)
    simp only [totalLen, GameStore.relocate, List.map_cons, List.sum_cons] at this ⊢
    rw [this]

theorem Located.copied {index : Index} {file : Bytes} {size : ℕ}
    (hlaid : Laid gameId index file size g) : ∀ {l : List Location}, Located g l →
    ((l.map (·.2)).flatMap fun r => pread file r.1 r.2.toNat) = (chunksOf g l).flatMap (·.2)
  | [], _ => rfl
  | x :: l, h => by
    obtain ⟨p, hp, hx, hc⟩ := h.chunksOf_cons
    rw [hc, List.map_cons, List.flatMap_cons, List.flatMap_cons, h.tail.copied hlaid, hx,
      toNat_ofNat_length (hlaid.fits _ p hp).2, (hlaid.bytes _ p hp).2]

theorem Located.totalLen {index : Index} {file : Bytes} {size : ℕ}
    (hlaid : Laid gameId index file size g) : ∀ {l : List Location}, Located g l →
    totalLen l = ((chunksOf g l).map (·.2.length)).sum
  | [], _ => rfl
  | x :: l, h => by
    obtain ⟨p, hp, hx, hc⟩ := h.chunksOf_cons
    have ih := h.tail.totalLen hlaid
    rw [hc]
    simp only [GameStore.totalLen, List.map_cons, List.sum_cons] at ih ⊢
    rw [ih, hx, toNat_ofNat_length (hlaid.fits _ p hp).2]

theorem chunksOf_length (hlaid : Laid gameId s.index s.pack s.self.size g) {l : List Location}
    {c : Hash × Bytes} (hc : c ∈ chunksOf g l) : c.2.length < 2 ^ 32 := by
  obtain ⟨x, -, hx⟩ := List.mem_filterMap.1 hc
  rw [Option.map_eq_some_iff] at hx
  obtain ⟨p, hp, rfl⟩ := hx
  exact (hlaid.fits _ p hp).2

end Live

section Layout

theorem packFrom_append : ∀ (ds : List Bytes) (file : Bytes), (∀ d ∈ ds, d.length < 2 ^ 32) →
    packFrom file.length ds file = file ++ ds.flatten
  | [], file, _ => by simp [packFrom]
  | d :: ds, file, h => by
    have hw : pwrite file file.length d = file ++ d := by
      rw [pwrite_of_le le_rfl, List.take_length, List.drop_eq_nil_of_le (Nat.le_add_right _ _),
        List.append_nil]
    have ih := packFrom_append ds (file ++ d) fun d' hd => h d' (List.mem_cons_of_mem _ hd)
    rw [List.length_append] at ih
    rw [packFrom, toNat_ofNat_length (h d List.mem_cons_self), hw, ih, List.flatten_cons,
      List.append_assoc]

theorem endFrom_eq : ∀ (ds : List Bytes) (o : ℕ), (∀ d ∈ ds, d.length < 2 ^ 32) →
    endFrom o ds = o + (ds.map List.length).sum
  | [], _, _ => rfl
  | d :: ds, o, h => by
    rw [endFrom, toNat_ofNat_length (h d List.mem_cons_self),
      endFrom_eq ds _ fun d' hd => h d' (List.mem_cons_of_mem _ hd), List.map_cons, List.sum_cons,
      Nat.add_assoc]

theorem freshChunks_of_nodup (gameId : UInt64) : ∀ (cs : List (Hash × Bytes)) (seen : List Hash),
    (cs.map (·.1)).Nodup → (∀ c ∈ cs, c.1 ∉ seen) → freshChunks gameId ∅ seen cs = cs
  | [], _, _, _ => rfl
  | (k, d) :: cs, seen, hn, hs => by
    rw [List.map_cons, List.nodup_cons] at hn
    rw [freshChunks, if_neg (by simpa using hs _ List.mem_cons_self),
      freshChunks_of_nodup gameId cs _ hn.2 fun c hc => ?_]
    rw [List.mem_cons, not_or]
    refine ⟨fun e => hn.1 (List.mem_map.2 ⟨c, hc, e⟩), hs c (List.mem_cons_of_mem _ hc)⟩

end Layout

section Run

/-- The store with no chunks in it. -/
def emptied (s : OpenStore) : OpenStore := ⟨{ s.self with size := 0 }, ∅, [], none⟩

variable {below : ℕ → ℕ → Bool} {space : ℕ}

theorem totalLen_perm {l l' : List Location} (h : l.Perm l') : totalLen l = totalLen l' :=
  (h.map _).sum_eq

theorem plain_tableIter (t : Index) : Plain (tableIter t) :=
  .bind (plain_dbCall _) fun _ => .bind (.each (fun _ => plain_dbCall _) _) fun _ => .pure _

theorem quiet_tableIter (t : Index) : Quiet (tableIter t) :=
  .bind (quiet_dbCall _) fun _ => .bind (.each (fun _ => quiet_dbCall _) _) fun _ => .pure _

@[simp] theorem exec_tableIter (t : Index) (s : OpenStore) :
    exec (tableIter t) s = (.ok t.toList, s) := by
  simp only [tableIter, exec_bind, exec_dbCall, exec_each_idle fun _ => exec_dbCall _ s, exec_pure]

theorem exec_compactRewrite (h : StoreLaid gameId s g) (live : HashSet Hash)
    (below : ℕ → ℕ → Bool) (space : ℕ) : exec (compactRewrite live below space) s
    = if Rewrites s live below space then
        (.ok (some ⟨s.index.toList, relocate 0 (liveSorted s live)⟩),
          { s with packCompact := some ((liveChunks s live g).flatMap (·.2)) })
      else (.ok none, s) := by
  have hsort := h.liveSorted_eq live
  have htotal : totalLen (liveLocations s.self.gameId s.index.toList live)
      = totalLen (liveSorted s live) := by
    rw [hsort, h.game, h.liveLocations_eq]
    exact (totalLen_perm (List.mergeSort_perm _ _)).symm
  unfold compactRewrite
  simp only [exec_bind, exec_get, exec_beginRead, exec_tableIter, h.filter_toList]
  rw [htotal]
  by_cases h₁ : s.self.size = 0
  · rw [if_pos h₁, if_neg fun r : Rewrites s live below space => r.1 h₁]
    rfl
  rw [if_neg h₁]
  by_cases h₂ : below (totalLen (liveSorted s live)) s.self.size = true
  · rw [if_pos h₂, if_neg fun r : Rewrites s live below space => by simp [r.2.1] at h₂]
    rfl
  rw [if_neg h₂]
  by_cases h₃ : space < totalLen (liveSorted s live)
  · rw [if_pos h₃, if_neg fun r : Rewrites s live below space => absurd r.2.2 (not_le.2 h₃)]
    rfl
  rw [if_neg h₃, if_pos ⟨h₁, by simpa using h₂, by omega⟩, h.game, h.liveLocations_eq, ← hsort]
  have hloc := h.located live
  have hcopy := exec_copyRanges (fun s : OpenStore => some s.pack) tmpPath (s := s)
    (fun _ _ => rfl) rfl ((liveSorted s live).map (·.2)) fun r hr => by
      obtain ⟨x, hx, rfl⟩ := List.mem_map.1 hr
      obtain ⟨p, hp, hx⟩ := hloc x hx
      have := h.laid.size_le
      have := (h.laid.bytes _ p hp).1
      rw [hx, toNat_ofNat_length (h.laid.fits _ p hp).2]
      right
      omega
  rw [hloc.copied h.laid, List.map_map] at hcopy
  simp only [exec_bind, exec_context_ok hcopy]
  rw [ensureCopySize, if_neg (by simp [totalLen, Function.comp_def])]
  rfl

theorem plain_compactRewrite (live : HashSet Hash) (below : ℕ → ℕ → Bool) (space : ℕ) :
    Plain (compactRewrite live below space) := by
  refine .bind .get fun s => .bind plain_beginRead fun t => .bind (plain_tableIter _) fun l => ?_
  dsimp only
  split_ifs
  · exact .pure _
  · exact .pure _
  · exact .pure _
  · refine .bind (plain_context (plain_copyRanges _ _)) fun n => .bind ?_ fun _ => .pure _
    unfold ensureCopySize
    split_ifs
    · exact .stop _
    · exact .pure _

/-- Whatever happens, the first half touches nothing but the file it writes. -/
theorem keeps_compactRewrite (live : HashSet Hash) (below : ℕ → ℕ → Bool) (space : ℕ) :
    Keeps (OnlyAt tmpPath) (compactRewrite live below space) := by
  have hr := OnlyAt.refl tmpPath
  have ht := OnlyAt.trans tmpPath
  refine .bind ht (Quiet.get.keeps hr) fun s => .bind ht (quiet_beginRead.keeps hr) fun t =>
    .bind ht ((quiet_tableIter _).keeps hr) fun l => ?_
  dsimp only
  split_ifs
  · exact (Quiet.pure _).keeps hr
  · exact (Quiet.pure _).keeps hr
  · exact (Quiet.pure _).keeps hr
  · refine .bind ht (.onErr _ (keeps_copyRanges _ _)) fun n => .bind ht ?_ fun _ =>
      (Quiet.pure _).keeps hr
    unfold ensureCopySize
    split_ifs
    · exact (Quiet.stop _).keeps hr
    · exact (Quiet.pure _).keeps hr

theorem exec_compactSwitch (h : StoreLaid gameId s g) :
    exec (compactSwitch ⟨s.index.toList, relocate 0 (liveSorted s live)⟩)
        { s with packCompact := some ((liveChunks s live g).flatMap (·.2)) }
      = (.ok (), appendedAll (emptied s) (liveChunks s live g)) := by
  have hloc := h.located live
  have hlen : ∀ c ∈ liveChunks s live g, c.2.length < 2 ^ 32 := fun c hc =>
    chunksOf_length h.laid hc
  have hlen' : ∀ d ∈ (liveChunks s live g).map (·.2), d.length < 2 ^ 32 := fun d hd => by
    obtain ⟨c, hc, rfl⟩ := List.mem_map.1 hd
    exact hlen c hc
  have hend := endFrom_eq _ 0 hlen'
  have hpack := packFrom_append _ [] hlen'
  rw [List.length_nil, List.nil_append] at hpack
  unfold compactSwitch
  simp only [exec_bind, exec_get, context, exec_onErr, exec_atomic, replacePack, reopenPack,
    Except.mapError, exec_setSize, exec_beginWrite, exec_removeAll, exec_insertAll, exec_commit]
  rw [totalLen_relocate, hloc.totalLen h.laid, eraseAll_toList, hloc.relocate,
    appendedAll_eq _ _ hlen, ← liveChunks_eq]
  simp only [emptied, hpack, hend, List.map_map, Nat.zero_add, Function.comp_def, h.linked,
    List.flatMap_def]

theorem plain_removeAll : ∀ (l : List (String × UInt64)) (t : Index), Plain (removeAll l t)
  | [], _ => .pure _
  | (_, _) :: l, _ => .bind (plain_tableRemove _ _ _) fun _ => plain_removeAll l _

theorem plain_insertAll (gameId : UInt64) : ∀ (l : List Location) (t : Index),
    Plain (insertAll gameId l t)
  | [], _ => .pure _
  | (_, _, _) :: l, _ => .bind (plain_tableInsert _ _ _ _) fun _ => plain_insertAll gameId l _

theorem plain_compactSwitch (plan : CompactPlan) : Plain (compactSwitch plan) :=
  .bind .get fun _ => .bind (plain_context (.atomic _)) fun _ =>
    .bind (plain_context (.atomic _)) fun _ => .bind (plain_setSize _) fun _ =>
      .bind plain_beginWrite fun _ => .bind (plain_removeAll _ _) fun _ =>
        .bind (plain_insertAll _ _ _) fun _ => plain_commit _ _

theorem run_compact (live : HashSet Hash) (below : ℕ → ℕ → Bool) (space : ℕ)
    (w : World AnyError OpenStore) : (GameStore.compact live below space).run w
      = match (compactRewrite live below space).run w with
        | (.ok none, w) => (.ok false, w)
        | (.ok (some plan), w) => (compactSwitch plan >>= fun _ => pure true).run w
        | (.error e, w) => (.error e, w) := by
  change (andThen _ _).run _ = _
  rw [run_andThen]
  rcases (compactRewrite live below space).run w with ⟨e | _ | plan, w⟩ <;> rfl

/-- A finished compaction leaves the live chunks laid out from the start. -/
theorem StoreLaid.compacted (h : StoreLaid gameId s g)
    (hw : Within Record.empty (liveChunks s live g)) :
    StoreLaid gameId (appendedAll (emptied s) (liveChunks s live g))
        (Record.empty.storeAll (liveChunks s live g)).places
      ∧ (appendedAll (emptied s) (liveChunks s live g)).self.size
        = (Record.empty.storeAll (liveChunks s live g)).size := by
  have hnodup : ((liveChunks s live g).map (·.1)).Nodup := by
    rw [liveChunks_eq, (h.located live).hashes]
    exact (h.hashes_perm live).nodup_iff.2 (live.nodup.filter _)
  have hempty : StoreLaid gameId (emptied s) fun _ => none := ⟨h.game, h.linked, .empty⟩
  have := StoreLaid.storeAll (liveChunks s live g) ∅ [] hempty (by simp) hw
  rw [freshChunks_of_nodup gameId _ _ hnodup (by simp)] at this
  exact ⟨this.1, this.2.1⟩

end Run

end BlazeNet

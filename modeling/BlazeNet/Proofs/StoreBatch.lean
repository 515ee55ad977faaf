import BlazeNet.Proofs.StoreRun

/-!
# A batch and its chunks one by one

A batch leaves the store that appending its chunks one by one leaves. The places it returns are
the same too, but for a new chunk that comes again: the batch repeats the place it was given, a
second append reads it out of the index, which keeps 32 bits of its offset.
-/

namespace BlazeNet

open Wire FaultIo Io RustStd GameStore

/-- `append_chunk` on the pairs of a list, in order. -/
def appendOneByOne : List (Hash × Bytes) → StoreIo (List (ℕ × UInt32))
  | [] => pure []
  | (hash, data) :: chunks => do
    let loc ← appendChunk hash data
    let locs ← appendOneByOne chunks
    pure (loc :: locs)

/-- A chunk that is new and comes again in the list starts below 4 GiB; `seen` are the hashes met
before, and the pack ends at `size`. -/
def RepeatsFit (gameId : UInt64) (table : Index) : List Hash → ℕ → List (Hash × Bytes) → Prop
  | _, _, [] => True
  | seen, size, c :: chunks =>
    if c.1 ∈ seen ∨ (table[key gameId c.1]?).isSome then RepeatsFit gameId table seen size chunks
    else (c.1 ∈ chunks.map (·.1) → size < 2 ^ 32)
      ∧ RepeatsFit gameId table (c.1 :: seen) (size + c.2.length) chunks

/-- Whatever transfers are cut up, the batch leaves the same index, pack and size as its chunks
one by one, and with a pack of at most 4 GiB it returns the same places. -/
def SameAsOneByOne (s : OpenStore) (chunks : List (Hash × Bytes)) : Prop :=
  ∀ faults faults', (∀ f ∈ faults, Benign f) → (∀ f ∈ faults', Benign f) → ∃ locs locs' w w',
    (appendChunksBatch chunks).run ⟨s, faults⟩ = (.ok locs, w)
      ∧ (appendOneByOne chunks).run ⟨s, faults'⟩ = (.ok locs', w')
      ∧ w.state = w'.state ∧ (w.state.self.size ≤ 2 ^ 32 → locs = locs')

section Places

variable (gameId : UInt64) (table : Index) (again : ℕ × UInt32 → ℕ × UInt32)

/-- The places the chunks of a list are told: `placed` are the new ones before them, and `again`
is what becomes of a place when it is told again. -/
def placesOf : List (Hash × ℕ × UInt32) → ℕ → List (Hash × Bytes) → List (ℕ × UInt32)
  | _, _, [] => []
  | placed, size, c :: chunks =>
    match placed.lookup c.1 with
    | some loc => again loc :: placesOf placed size chunks
    | none => match table[key gameId c.1]? with
      | some value => unpack value :: placesOf placed size chunks
      | none => (size, UInt32.ofNat c.2.length)
        :: placesOf ((c.1, size, UInt32.ofNat c.2.length) :: placed)
          (size + (UInt32.ofNat c.2.length).toNat) chunks

/-- What is left of a place in the index. -/
def wrapped (loc : ℕ × UInt32) : ℕ × UInt32 := (loc.1 % 2 ^ 32, loc.2)

end Places

section Batch

theorem setAll_concat (l : List (ℕ × ℕ × UInt32)) (x : ℕ × ℕ × UInt32) (out : List (ℕ × UInt32)) :
    setAll (l ++ [x]) out = (setAll l out).set x.1 x.2 := by
  simp [setAll]

theorem fillDups_concat (dups : List (ℕ × ℕ)) (d : ℕ × ℕ) (out : List (ℕ × UInt32)) :
    fillDups (dups ++ [d]) out
      = (fillDups dups out).set d.1 ((fillDups dups out).getD d.2 (0, 0)) := by
  simp [fillDups]

theorem setAll_append : ∀ (l : List (ℕ × ℕ × UInt32)) (out : List (ℕ × UInt32)) (y : ℕ × UInt32),
    (∀ x ∈ l, x.1 < out.length) → setAll l (out ++ [y]) = setAll l out ++ [y]
  | [], _, _, _ => rfl
  | x :: l, out, y, h => by
    rw [List.forall_mem_cons] at h
    rw [setAll, List.foldl_cons, ← setAll, List.set_append_left _ _ h.1,
      setAll_append l _ y (by simpa using h.2)]
    rfl

theorem length_fillDups : ∀ (dups : List (ℕ × ℕ)) (out : List (ℕ × UInt32)),
    (fillDups dups out).length = out.length
  | [], _ => rfl
  | d :: dups, out => by
    rw [fillDups, List.foldl_cons, ← fillDups, length_fillDups dups]
    simp

theorem getD_append_of_lt {out : List (ℕ × UInt32)} {i : ℕ} (h : i < out.length) (y : ℕ × UInt32) :
    (out ++ [y]).getD i (0, 0) = out.getD i (0, 0) := by
  rw [List.getD_eq_getElem?_getD, List.getElem?_append_left h, List.getD_eq_getElem?_getD]

theorem fillDups_append : ∀ (dups : List (ℕ × ℕ)) (out : List (ℕ × UInt32)) (y : ℕ × UInt32),
    (∀ d ∈ dups, d.1 < out.length ∧ d.2 < out.length) →
    fillDups dups (out ++ [y]) = fillDups dups out ++ [y]
  | [], _, _, _ => rfl
  | d :: dups, out, y, h => by
    rw [List.forall_mem_cons] at h
    rw [fillDups, List.foldl_cons, ← fillDups, getD_append_of_lt h.1.2,
      List.set_append_left _ _ h.1.1, fillDups_append dups _ y (by simpa using h.2)]
    rfl

theorem placesFrom_append : ∀ (ds : List Bytes) (o : ℕ) (d : Bytes),
    placesFrom o (ds ++ [d]) = placesFrom o ds ++ [(endFrom o ds, UInt32.ofNat d.length)]
  | [], _, _ => rfl
  | e :: ds, o, d => by simp [placesFrom, endFrom, placesFrom_append ds]

theorem endFrom_append : ∀ (ds : List Bytes) (o : ℕ) (d : Bytes),
    endFrom o (ds ++ [d]) = endFrom o ds + (UInt32.ofNat d.length).toNat
  | [], _, _ => rfl
  | e :: ds, o, d => by simp [endFrom, endFrom_append ds]

/-- The places a scan stands for, when the pack ends at `size` before anything is written. -/
def GameStore.BatchScan.outAt (scan : BatchScan) (size : ℕ) : List (ℕ × UInt32) :=
  fillDups scan.dupOfNew
    (setAll (scan.newPos.zip (placesFrom size (scan.newData.map (·.2)))) scan.out)

/-- `scan` stands for the places of `idx` chunks; `placed` are the new ones among them. -/
structure ScanTracks (size idx : ℕ) (scan : BatchScan) (placed : List (Hash × ℕ × UInt32)) :
    Prop where
  ok : ScanOk idx scan
  dups : ∀ d ∈ scan.dupOfNew, d.2 < idx
  below : ∀ h i, scan.seenNew.lookup h = some i → i < idx
  placed : ∀ h, placed.lookup h
    = (scan.seenNew.lookup h).map fun i => (scan.outAt size).getD i (0, 0)

variable {size idx : ℕ} {scan : BatchScan} {placed : List (Hash × ℕ × UInt32)}

namespace ScanTracks

theorem length_set (h : ScanTracks size idx scan placed) :
    (setAll (scan.newPos.zip (placesFrom size (scan.newData.map (·.2)))) scan.out).length
      = idx := by
  rw [length_setAll, h.ok.out]

theorem length_outAt (h : ScanTracks size idx scan placed) : (scan.outAt size).length = idx := by
  rw [BatchScan.outAt, length_fillDups, length_setAll, h.ok.out]

theorem set_append (h : ScanTracks size idx scan placed) (y : ℕ × UInt32) :
    setAll (scan.newPos.zip (placesFrom size (scan.newData.map (·.2)))) (scan.out ++ [y])
      = setAll (scan.newPos.zip (placesFrom size (scan.newData.map (·.2)))) scan.out ++ [y] := by
  refine setAll_append _ _ _ fun x hx => ?_
  rw [h.ok.out]
  exact h.ok.below _ (List.of_mem_zip hx).1

theorem fill_append (h : ScanTracks size idx scan placed) {out : List (ℕ × UInt32)}
    (hout : out.length = idx) (y : ℕ × UInt32) :
    fillDups scan.dupOfNew (out ++ [y]) = fillDups scan.dupOfNew out ++ [y] :=
  fillDups_append _ _ _ fun d hd => by
    rw [hout]
    exact ⟨(h.ok.dups d hd).2, h.dups d hd⟩

theorem outAt_dup (h : ScanTracks size idx scan placed) {first : ℕ} (hfirst : first < idx) :
    (scan.dup idx first).outAt size
      = scan.outAt size ++ [(scan.outAt size).getD first (0, 0)] := by
  have hlen := h.length_outAt
  have hfill : fillDups scan.dupOfNew
      (setAll (scan.newPos.zip (placesFrom size (scan.newData.map (·.2)))) (scan.out ++ [(0, 0)]))
      = scan.outAt size ++ [(0, 0)] := by
    rw [h.set_append, h.fill_append h.length_set, BatchScan.outAt]
  rw [BatchScan.outAt, BatchScan.dup, fillDups_concat, hfill, getD_append_of_lt (by omega),
    List.set_append_right _ _ hlen.le, hlen, Nat.sub_self]
  rfl

theorem outAt_old (h : ScanTracks size idx scan placed) (value : UInt64) :
    (scan.old value).outAt size = scan.outAt size ++ [unpack value] := by
  simp only [BatchScan.outAt, BatchScan.old, h.set_append]
  exact h.fill_append h.length_set _

theorem outAt_fresh (h : ScanTracks size idx scan placed) (hash : Hash) (data : Bytes) :
    (scan.fresh idx hash data).outAt size = scan.outAt size
      ++ [(endFrom size (scan.newData.map (·.2)), UInt32.ofNat data.length)] := by
  have hset := h.length_set
  simp only [BatchScan.outAt, BatchScan.fresh, List.map_append, List.map_cons, List.map_nil,
    placesFrom_append]
  rw [List.zip_append (by rw [length_placesFrom, List.length_map, h.ok.length]),
    List.zip_cons_cons, List.zip_nil_right, setAll_concat, h.set_append,
    List.set_append_right _ _ hset.le, hset, Nat.sub_self]
  exact h.fill_append hset _

theorem dup (h : ScanTracks size idx scan placed) {first : ℕ} (hfirst : first < idx) :
    ScanTracks size (idx + 1) (scan.dup idx first) placed where
  ok := h.ok.dup first
  dups d hd := by
    simp only [BatchScan.dup, List.mem_append, List.mem_singleton] at hd
    rcases hd with hd | rfl
    · exact (h.dups d hd).trans (Nat.lt_succ_self idx)
    · exact hfirst.trans (Nat.lt_succ_self idx)
  below k i hk := (h.below k i hk).trans (Nat.lt_succ_self idx)
  placed k := by
    rw [h.placed, h.outAt_dup hfirst]
    refine Option.map_congr fun i hi => ?_
    rw [getD_append_of_lt (by rw [h.length_outAt]; exact h.below k i hi)]

theorem old (h : ScanTracks size idx scan placed) (value : UInt64) :
    ScanTracks size (idx + 1) (scan.old value) placed where
  ok := h.ok.old value
  dups d hd := (h.dups d hd).trans (Nat.lt_succ_self idx)
  below k i hk := (h.below k i hk).trans (Nat.lt_succ_self idx)
  placed k := by
    rw [h.placed, h.outAt_old]
    refine Option.map_congr fun i hi => ?_
    rw [getD_append_of_lt (by rw [h.length_outAt]; exact h.below k i hi)]

theorem fresh (h : ScanTracks size idx scan placed) (hash : Hash) (data : Bytes) :
    ScanTracks size (idx + 1) (scan.fresh idx hash data)
      ((hash, endFrom size (scan.newData.map (·.2)), UInt32.ofNat data.length) :: placed) where
  ok := h.ok.fresh hash data
  dups d hd := (h.dups d hd).trans (Nat.lt_succ_self idx)
  below k i hk := by
    simp only [BatchScan.fresh, List.lookup_cons] at hk
    split at hk
    · cases hk
      exact Nat.lt_succ_self _
    · exact (h.below k i hk).trans (Nat.lt_succ_self idx)
  placed k := by
    rw [h.outAt_fresh]
    simp only [BatchScan.fresh, List.lookup_cons]
    split
    · rw [Option.map_some, List.getD_eq_getElem?_getD,
        List.getElem?_append_right h.length_outAt.le, h.length_outAt, Nat.sub_self]
      rfl
    · rw [h.placed]
      refine Option.map_congr fun i hi => ?_
      rw [getD_append_of_lt (by rw [h.length_outAt]; exact h.below k i hi)]

end ScanTracks

variable (gameId : UInt64) (table : Index)

/-- The scan goes on to the places of the chunks that are left. -/
theorem scanned_outAt : ∀ (chunks : List (Hash × Bytes)) {idx : ℕ} {scan : BatchScan}
    {placed : List (Hash × ℕ × UInt32)}, ScanTracks size idx scan placed →
    (scanned gameId table idx chunks scan).outAt size = scan.outAt size
      ++ placesOf gameId table id placed (endFrom size (scan.newData.map (·.2))) chunks
  | [], _, scan, _, _ => by simp [scanned, placesOf]
  | (hash, data) :: chunks, idx, scan, placed, h => by
    unfold scanned placesOf
    simp only [h.placed hash]
    rcases hl : scan.seenNew.lookup hash with _ | first
    · simp only [Option.map_none]
      rcases table[key gameId hash]? with _ | value
      · simp only
        rw [scanned_outAt chunks (h.fresh hash data), h.outAt_fresh, List.append_assoc]
        simp only [BatchScan.fresh, List.map_append, List.map_cons, List.map_nil, endFrom_append,
          List.singleton_append]
      · simp only
        rw [scanned_outAt chunks (h.old value), h.outAt_old, List.append_assoc]
        rfl
    · have hfirst := h.below hash first hl
      simp only [Option.map_some]
      rw [scanned_outAt chunks (h.dup hfirst), h.outAt_dup hfirst, List.append_assoc]
      rfl

theorem batchOut_eq (s : OpenStore) (chunks : List (Hash × Bytes)) :
    batchOut s chunks = placesOf s.self.gameId s.index id [] s.self.size chunks := by
  have h : ScanTracks s.self.size 0 ⟨[], [], [], [], []⟩ [] :=
    ⟨⟨rfl, rfl, by simp, List.Pairwise.nil, by simp⟩, by simp, by simp, by simp⟩
  exact scanned_outAt s.self.gameId s.index chunks h

end Batch

section OneByOne

/-- New chunks appended one by one, on any handle. -/
def appendedToAll (s : OpenStore) (cs : List (Hash × Bytes)) : OpenStore := cs.foldl appendedTo s

theorem appendedToAll_eq : ∀ (cs : List (Hash × Bytes)) (s : OpenStore),
    (∀ c ∈ cs, c.2.length < 2 ^ 32) → appendedToAll s cs
      = withPack s (packFrom s.self.size (cs.map (·.2)) (packFileRef.content s))
        (endFrom s.self.size (cs.map (·.2)))
        (insertAt s.self.gameId
          ((cs.map (·.1)).zip (placesFrom s.self.size (cs.map (·.2)))) s.index)
  | [], s, _ => (withPack_self s).symm
  | c :: cs, s, h => by
    rw [List.forall_mem_cons] at h
    rw [appendedToAll, List.foldl_cons, ← appendedToAll, appendedToAll_eq cs _ h.2]
    simp only [appendedTo, withPack_size, withPack_index, withPack_gameId, content_withPack,
      withPack_withPack, List.map_cons, placesFrom, endFrom, packFrom, toNat_ofNat_length h.1,
      List.zip_cons_cons]
    rfl

/-- The index says of the hashes in `placed` where they were put, of others what `table` says. -/
def Follows (gameId : UInt64) (table : Index) (placed : List (Hash × ℕ × UInt32))
    (index : Index) : Prop :=
  ∀ h, index[key gameId h]? = match placed.lookup h with
    | some loc => some (pack loc.1 loc.2)
    | none => table[key gameId h]?

theorem Follows.insert {gameId : UInt64} {table index : Index}
    {placed : List (Hash × ℕ × UInt32)} (h : Follows gameId table placed index) (hash : Hash)
    (loc : ℕ × UInt32) :
    Follows gameId table ((hash, loc) :: placed)
      (index.insert (key gameId hash) (pack loc.1 loc.2)) := by
  intro k
  rw [lookup_insert, List.lookup_cons]
  by_cases hk : k = hash
  · simp [hk]
  · rw [if_neg fun he => hk (key_inj he).symm, h k, beq_eq_false_iff_ne.2 hk]

theorem exec_appendOneByOne {gameId : UInt64} (table : Index) : ∀ (chunks : List (Hash × Bytes))
    (s : OpenStore) (placed : List (Hash × ℕ × UInt32)), s.self.gameId = gameId →
    Follows gameId table placed s.index → (∀ c ∈ chunks, c.2.length < 2 ^ 32) →
    exec (appendOneByOne chunks) s
      = (.ok (placesOf gameId table wrapped placed s.self.size chunks),
          appendedToAll s (freshChunks gameId table (placed.map (·.1)) chunks))
  | [], _, _, _, _, _ => rfl
  | (hash, data) :: chunks, s, placed, hid, h, hlen => by
    rw [List.forall_mem_cons] at hlen
    have hindex := h hash
    unfold appendOneByOne placesOf freshChunks
    rw [exec_bind, exec_appendChunkTo, hid, hindex]
    rcases hl : placed.lookup hash with _ | loc
    · have hseen : hash ∉ placed.map (·.1) := by
        rw [← lookup_isSome_iff, hl]
        simp
      rcases ht : table[key gameId hash]? with _ | value
      · have hnext := exec_appendOneByOne table chunks (appendedTo s (hash, data))
          ((hash, s.self.size, UInt32.ofNat data.length) :: placed)
          ((withPack_gameId _ _ _ _).trans hid)
          (by simpa [appendedTo, hid] using h.insert hash (s.self.size, UInt32.ofNat data.length))
          hlen.2
        simp only [exec_bind, hnext, exec_pure, toNat_ofNat_length hlen.1]
        rw [if_neg (by simp [hseen])]
        rfl
      · simp only [exec_bind, exec_appendOneByOne table chunks s placed hid h hlen.2, exec_pure]
        rw [if_pos (by simp)]
    · have hseen : hash ∈ placed.map (·.1) := lookup_isSome_iff.1 ⟨loc, hl⟩
      simp only [exec_bind, exec_appendOneByOne table chunks s placed hid h hlen.2, exec_pure]
      rw [if_pos (.inl hseen), unpack_pack]
      rfl

theorem plain_appendOneByOne : ∀ chunks : List (Hash × Bytes), Plain (appendOneByOne chunks)
  | [] => .pure _
  | (_, _) :: chunks => .bind (plain_appendChunk _ _) fun _ =>
    .bind (plain_appendOneByOne chunks) fun _ => .pure _

end OneByOne

section Compare

variable (gameId : UInt64) (table : Index)

theorem wrapped_eq_iff {loc : ℕ × UInt32} : loc = wrapped loc ↔ loc.1 < 2 ^ 32 := by
  rw [Prod.ext_iff]
  simp only [wrapped, and_true]
  omega

/-- Both ways of appending tell the same places just when every place that is told again fits. -/
theorem placesOf_wrapped_iff : ∀ (chunks : List (Hash × Bytes))
    (placed : List (Hash × ℕ × UInt32)) (size : ℕ), (∀ c ∈ chunks, c.2.length < 2 ^ 32) →
    (placesOf gameId table id placed size chunks = placesOf gameId table wrapped placed size chunks
      ↔ (∀ c ∈ chunks, ∀ loc, placed.lookup c.1 = some loc → loc.1 < 2 ^ 32)
        ∧ RepeatsFit gameId table (placed.map (·.1)) size chunks)
  | [], _, _, _ => by simp [placesOf, RepeatsFit]
  | c :: chunks, placed, size, hlen => by
    rw [List.forall_mem_cons] at hlen
    unfold placesOf RepeatsFit
    rw [List.forall_mem_cons]
    rcases hl : placed.lookup c.1 with _ | loc
    · have hseen : c.1 ∉ placed.map (·.1) := by
        rw [← lookup_isSome_iff, hl]
        simp
      rcases ht : table[key gameId c.1]? with _ | value
      · simp only [List.cons.injEq, true_and, toNat_ofNat_length hlen.1]
        rw [placesOf_wrapped_iff chunks _ _ hlen.2, if_neg (by simp [hseen])]
        simp only [reduceCtorEq, false_imp_iff, implies_true, true_and, List.map_cons]
        rw [← and_assoc]
        refine and_congr_left fun _ => ⟨fun h => ⟨fun c' hc' loc' hl' => ?_, fun hmem => ?_⟩, ?_⟩
        · refine h c' hc' loc' ?_
          have hne : c'.1 ≠ c.1 := by
            rintro he
            rw [he, hl] at hl'
            cases hl'
          rw [List.lookup_cons, beq_eq_false_iff_ne.2 hne]
          exact hl'
        · obtain ⟨c', hc', he⟩ := List.mem_map.1 hmem
          exact h c' hc' (size, UInt32.ofNat c.2.length) (by rw [he, List.lookup_cons_self])
        · rintro ⟨h, hrepeat⟩ c' hc' loc' hl'
          rw [List.lookup_cons] at hl'
          by_cases he : c'.1 = c.1
          · rw [he, beq_self_eq_true] at hl'
            cases hl'
            exact hrepeat (he ▸ List.mem_map_of_mem hc')
          · rw [beq_eq_false_iff_ne.2 he] at hl'
            exact h c' hc' loc' hl'
      · simp only [List.cons.injEq, true_and]
        rw [placesOf_wrapped_iff chunks _ _ hlen.2, if_pos (by simp)]
        simp
    · have hseen : c.1 ∈ placed.map (·.1) := lookup_isSome_iff.1 ⟨loc, hl⟩
      simp only [List.cons.injEq, id_eq, wrapped_eq_iff, Option.some.injEq, forall_eq']
      rw [placesOf_wrapped_iff chunks _ _ hlen.2, if_pos (.inl hseen), and_assoc]

variable {s : OpenStore} {chunks : List (Hash × Bytes)}

theorem exec_batch_and_one (s : OpenStore) (hlen : ∀ c ∈ chunks, c.2.length < 2 ^ 32) :
    exec (appendChunksBatch chunks) s
        = (.ok (placesOf s.self.gameId s.index id [] s.self.size chunks),
          appendedToAll s (freshChunks s.self.gameId s.index [] chunks))
      ∧ exec (appendOneByOne chunks) s
        = (.ok (placesOf s.self.gameId s.index wrapped [] s.self.size chunks),
          appendedToAll s (freshChunks s.self.gameId s.index [] chunks)) := by
  have hfresh : ∀ c ∈ freshChunks s.self.gameId s.index [] chunks, c.2.length < 2 ^ 32 :=
    fun c hc => hlen c ((freshChunks_spec _ _ chunks []).2 c hc).1
  refine ⟨?_, exec_appendOneByOne s.index chunks s [] rfl (fun h => rfl) hlen⟩
  rw [exec_appendChunksBatchTo, batchOut_eq, appendedToAll_eq _ _ hfresh]

theorem appendedToAll_size (hlen : ∀ c ∈ chunks, c.2.length < 2 ^ 32) :
    (appendedToAll s (freshChunks s.self.gameId s.index [] chunks)).self.size
      = s.self.size + newBytes s chunks := by
  have hfresh : ∀ c ∈ freshChunks s.self.gameId s.index [] chunks, c.2.length < 2 ^ 32 :=
    fun c hc => hlen c ((freshChunks_spec _ _ chunks []).2 c hc).1
  rw [appendedToAll_eq _ _ hfresh, withPack_size, endFrom_eq _ _ (List.forall_mem_map.2 hfresh),
    newBytes, List.map_map]
  rfl

/-- A batch leaves what its chunks leave one by one. It also returns the same places, with a pack
of at most 4 GiB, exactly when no new chunk that comes again in the list starts at 4 GiB, which
only one without bytes at the very end can. -/
theorem appendChunksBatch_sameAsOneByOne_iff (s : OpenStore)
    (hlen : ∀ c ∈ chunks, c.2.length < 2 ^ 32) :
    (exec (appendChunksBatch chunks) s).2 = (exec (appendOneByOne chunks) s).2
      ∧ (SameAsOneByOne s chunks ↔ (s.self.size + newBytes s chunks ≤ 2 ^ 32 →
        RepeatsFit s.self.gameId s.index [] s.self.size chunks)) := by
  obtain ⟨hbatch, hone⟩ := exec_batch_and_one s hlen
  refine ⟨by rw [hbatch, hone], ?_⟩
  have hplaces := placesOf_wrapped_iff s.self.gameId s.index chunks [] s.self.size hlen
  simp only [List.lookup_nil, reduceCtorEq, false_imp_iff, implies_true, true_and,
    List.map_nil] at hplaces
  rw [← hplaces]
  constructor
  · intro h hsize
    obtain ⟨locs, locs', w, w', hrun, hrun', -, hsame⟩ := h [] [] (by simp) (by simp)
    rw [run_nil, hbatch, Prod.mk.injEq, Except.ok.injEq] at hrun
    rw [run_nil, hone, Prod.mk.injEq, Except.ok.injEq] at hrun'
    obtain ⟨rfl, rfl⟩ := hrun
    obtain ⟨rfl, rfl⟩ := hrun'
    exact hsame (by rw [appendedToAll_size hlen]; exact hsize)
  · intro h faults faults' hb hb'
    have hrun := (plain_appendChunksBatch chunks).steady.run s hb
    have hrun' := (plain_appendOneByOne chunks).steady.run s hb'
    rw [hbatch, Prod.mk.injEq] at hrun
    rw [hone, Prod.mk.injEq] at hrun'
    refine ⟨_, _, _, _, Prod.ext hrun.1 rfl, Prod.ext hrun'.1 rfl, hrun.2.trans hrun'.2.symm, ?_⟩
    rw [hrun.2, appendedToAll_size hlen]
    exact h

end Compare

/-- A batch in a new store that meets a chunk twice, the second time with other bytes. -/
theorem appendChunksBatch_sameAsOneByOne_iff_twice :
    SameAsOneByOne (opened₀ 7) [(.fill 1, [1, 2]), (.fill 2, [3]), (.fill 1, [4])] := by
  refine (appendChunksBatch_sameAsOneByOne_iff (opened₀ 7) (by decide)).2.2 fun _ => ?_
  have hne : Hash.fill 2 ≠ Hash.fill 1 := by decide
  simp [RepeatsFit, hne, opened₀]

section Edge

/-- A pack of exactly 4 GiB. -/
theorem reach_four_gib {d : Bytes} (hd : d.length = 2 ^ 32 - 1) : ∃ s,
    (placesRun 7 [.reopen [], .call (.append (.fill 1) [1]) [], .call (.append (.fill 2) d) []]).1
        = .opened s
      ∧ s.self.gameId = 7 ∧ s.self.size = 2 ^ 32 ∧ s.index[key 7 (.fill 3)]? = none := by
  set s₁ := appended (opened₀ 7) (.fill 1, [1]) with hs₁
  have h₂ : s₁.index[key 7 (.fill 2)]? = none := by
    simp only [hs₁, appended, lookup_insert, opened₀]
    rw [if_neg (key_fill_ne (by decide)), Std.ExtTreeMap.getElem?_empty]
  refine ⟨appended s₁ (.fill 2, d), ?_, rfl, ?_, ?_⟩
  · change (runSteps 7 _ _ (([.reopen []] ++ [_]) ++ [_])).1 = _
    rw [runSteps_concat, runSteps_concat, runSteps_reopen,
      apply_append rfl Std.ExtTreeMap.getElem?_empty, ← hs₁, apply_append rfl h₂]
  · simp only [hs₁, appended, opened₀, hd]
    rfl
  · simp only [hs₁, appended, lookup_insert, opened₀]
    rw [if_neg (key_fill_ne (by decide)), if_neg (key_fill_ne (by decide)),
      Std.ExtTreeMap.getElem?_empty]

/-- A pack filled up to exactly 4 GiB, and a chunk without bytes twice in one batch: the batch
says both are at 4 GiB, one by one the second is said to be at the start. -/
theorem appendChunksBatch_differs : ∃ s,
    (placesRun 7 [.reopen [], .call (.append (.fill 1) [1]) [],
      .call (.append (.fill 2) (List.replicate (2 ^ 32 - 1) 0)) []]).1 = .opened s
    ∧ (exec (appendChunksBatch [(.fill 3, []), (.fill 3, [])]) s).1
      = .ok [(2 ^ 32, 0), (2 ^ 32, 0)]
    ∧ (exec (appendOneByOne [(.fill 3, []), (.fill 3, [])]) s).1 = .ok [(2 ^ 32, 0), (0, 0)]
    ∧ (exec (appendChunksBatch [(.fill 3, []), (.fill 3, [])]) s).2.self.size = 2 ^ 32 := by
  obtain ⟨s, hrun, hid, hsize, hnone⟩ :=
    reach_four_gib (d := List.replicate (2 ^ 32 - 1) 0) List.length_replicate
  have hshort : ∀ c ∈ [(Hash.fill 3, ([] : Bytes)), (.fill 3, [])], c.2.length < 2 ^ 32 := by simp
  obtain ⟨hbatch, hone⟩ := exec_batch_and_one s hshort
  refine ⟨s, hrun, ?_, ?_, ?_⟩
  · rw [hbatch, hid, hsize]
    simp [placesOf, hnone]
  · rw [hone, hid, hsize]
    simp [placesOf, hnone, wrapped]
  · rw [hbatch, appendedToAll_size (by simp), hsize, newBytes, hid]
    simp [freshChunks, hnone]

end Edge

end BlazeNet

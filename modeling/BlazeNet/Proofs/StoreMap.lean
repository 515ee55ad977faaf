import BlazeNet.Proofs.StoreRun

/-!
# A block store as a map

The places of a run, with the offsets forgotten, are the map that keeps the first bytes it is
given for a hash (`spec_eq_written`). A pack that stays below 4 GiB leaves no chunk without a
place the index can hold, so the layout is kept and the lookups show that map.
-/

namespace BlazeNet

open Wire FaultIo Io RustStd GameStore

variable {gameId : UInt64} {s s' : OpenStore} {g : Places} {faults : List (Fault AnyError)}
  {live : HashSet Hash} {below : ℕ → ℕ → Bool} {space : ℕ} {op : StoreOp}

section Contents

/-- The bytes of what was stored. -/
def Places.bytes (g : Places) : ChunkMap := fun h => (g h).map (·.2)

theorem bytes_store (r : Record) (c : Hash × Bytes) :
    (r.store c).places.bytes = ChunkMap.insertOnce r.places.bytes c := by
  unfold Record.store ChunkMap.insertOnce Places.bytes
  rw [Option.isSome_map]
  split_ifs
  · rfl
  · funext h
    by_cases he : h = c.1
    · simp [he]
    · simp [he]

theorem bytes_storeAll : ∀ (cs : List (Hash × Bytes)) (r : Record),
    (r.storeAll cs).places.bytes = cs.foldl ChunkMap.insertOnce r.places.bytes
  | [], _ => rfl
  | c :: cs, r => by
    rw [Record.storeAll, List.foldl_cons, ← Record.storeAll, bytes_storeAll cs, bytes_store]
    rfl

theorem foldl_insertOnce (h : Hash) : ∀ (cs : List (Hash × Bytes)) (m : ChunkMap),
    cs.foldl ChunkMap.insertOnce m h = (m h).or (cs.lookup h)
  | [], m => by simp
  | c :: cs, m => by
    rw [List.foldl_cons, foldl_insertOnce h cs, List.lookup_cons, ChunkMap.insertOnce]
    by_cases hc : h = c.1
    · subst hc
      split_ifs with hm
      · obtain ⟨d, hd⟩ := Option.isSome_iff_exists.1 hm
        simp [hd]
      · have hm : m c.1 = none := by simpa using hm
        simp [hm]
    · have hne : (h == c.1) = false := beq_eq_false_iff_ne.2 hc
      split_ifs
      · rw [hne]
      · rw [hne, Function.update_of_ne hc]

theorem lookup_chunksOf (h : Hash) : ∀ l : List Location,
    (chunksOf g l).lookup h = if h ∈ l.map (·.1) then (g h).map (·.2) else none
  | [] => rfl
  | x :: l => by
    rw [chunksOf, List.filterMap_cons, ← chunksOf, List.map_cons]
    by_cases hc : h = x.1
    · subst hc
      rcases hx : g x.1 with _ | p
      · simp [lookup_chunksOf x.1 l, hx]
      · simp
    · have hne : (h == x.1) = false := beq_eq_false_iff_ne.2 hc
      have hmem : h ∈ x.1 :: l.map (·.1) ↔ h ∈ l.map (·.1) := by simp [hc]
      rw [if_congr hmem rfl rfl, ← lookup_chunksOf h l]
      rcases hx : g x.1 with _ | p
      · rfl
      · simp [List.lookup_cons, hne]

theorem StoreLaid.bytes_compacted (h : StoreLaid gameId s g) :
    (Record.empty.storeAll (liveChunks s live g)).places.bytes
      = fun k => if k ∈ live then g.bytes k else none := by
  funext k
  rw [bytes_storeAll, foldl_insertOnce, liveChunks_eq, lookup_chunksOf]
  have hmem : k ∈ (liveSorted s live).map (·.1) ↔ k ∈ live ∧ (g k).isSome := by
    rw [(h.hashes_perm live).mem_iff, List.mem_filter, HashSet.mem_iff]
  change Option.or none _ = _
  rw [Option.none_or]
  by_cases hk : k ∈ live
  · rw [if_pos hk]
    rcases hg : g k with _ | p
    · simp [Places.bytes, hg]
    · rw [if_pos (hmem.2 ⟨hk, by simp [hg]⟩), Places.bytes, hg]
  · rw [if_neg hk, if_neg fun hm => hk (hmem.1 hm).1]

/-- The record and the map move together. -/
theorem StoreLaid.spec_eq_written (h : StoreLaid gameId s g) (op : StoreOp) (reply : StoreReply) :
    op.spec s g.bytes reply = (op.written s g reply).bytes := by
  cases op with
  | append k d => exact (bytes_store ⟨s.self.size, g⟩ (k, d)).symm
  | appendBatch cs => exact (bytes_storeAll cs ⟨s.self.size, g⟩).symm
  | compact live below space =>
    rcases reply with _ | _ | (_ | _) | _ | _ | _
    case compacted.true => exact h.bytes_compacted.symm
    all_goals rfl
  | read k => rfl
  | contains k => rfl
  | entries => rfl

theorem StoreLaid.size_compacted (h : StoreLaid gameId s g) :
    totalLen (liveSorted s live) = ((live.elems.filterMap g.bytes).map List.length).sum := by
  rw [h.liveSorted_eq live, totalLen_perm (List.mergeSort_perm _ _)]
  induction live.elems with
  | nil => rfl
  | cons k l ih =>
    rcases hk : g k with _ | p
    · simpa [Places.bytes, hk] using ih
    · simp only [totalLen, List.filterMap_cons, Places.bytes, hk, Option.map_some, List.map_cons,
        List.sum_cons] at ih ⊢
      rw [ih, toNat_ofNat_length (h.laid.fits k p hk).2]

end Contents

section Success

theorem exec_compact (h : StoreLaid gameId s g) : exec (GameStore.compact live below space) s
    = if Rewrites s live below space then
        (.ok true, appendedAll (emptied s) (liveChunks s live g))
      else (.ok false, s) := by
  unfold GameStore.compact
  rw [exec_bind, exec_compactRewrite h live below space]
  split_ifs
  · simp only [exec_bind, exec_compactSwitch h, exec_pure]
  · rfl

theorem plain_compact : Plain (GameStore.compact live below space) := by
  refine .bind (plain_compactRewrite _ _ _) fun plan => ?_
  rcases plan with _ | plan
  · exact .pure _
  · exact .bind (plain_compactSwitch plan) fun _ => .pure _

theorem plain_prog (op : StoreOp) : Plain op.prog := by
  cases op with
  | append h d => exact .bind (plain_appendChunk h d) fun _ => .pure _
  | appendBatch cs => exact .bind (plain_appendChunksBatch cs) fun _ => .pure _
  | compact live below space => exact .bind plain_compact fun _ => .pure _
  | read h => exact .bind (plain_readChunk h) fun _ => .pure _
  | contains h => exact .bind (plain_contains h) fun _ => .pure _
  | entries => exact .bind plain_entries fun _ => .pure _

theorem size_appendedAll_emptied (h : StoreLaid gameId s g) :
    (appendedAll (emptied s) (liveChunks s live g)).self.size = totalLen (liveSorted s live) := by
  have hlen : ∀ c ∈ liveChunks s live g, c.2.length < 2 ^ 32 :=
    fun c hc => chunksOf_length h.laid hc
  rw [appendedAll_eq _ _ hlen, (h.located live).totalLen h.laid]
  change endFrom 0 _ = _
  rw [endFrom_eq _ 0 fun d hd => by
    obtain ⟨c, hc, rfl⟩ := List.mem_map.1 hd
    exact hlen c hc, Nat.zero_add, List.map_map]
  rfl

/-- Every call replies, and does what its reply says. -/
theorem StoreLaid.exec_prog (h : StoreLaid gameId s g) (op : StoreOp) :
    ∃ reply s', exec op.prog s = (.ok reply, s') ∧ op.Effect g.bytes s reply s' := by
  cases op with
  | append k d =>
    have he := exec_appendChunk h.linked k d
    rw [h.game, h.laid.index] at he
    simp only [StoreOp.prog, exec_bind, he]
    rcases hg : g k with _ | p
    · exact ⟨_, _, rfl, fun hm => by simp [Places.bytes, hg] at hm⟩
    · exact ⟨_, _, rfl, fun _ => rfl⟩
  | appendBatch cs =>
    simp only [StoreOp.prog, exec_bind, exec_appendChunksBatch h.linked]
    refine ⟨_, _, rfl, fun hm => ?_⟩
    have hfresh : freshChunks s.self.gameId s.index [] cs = [] := by
      refine List.eq_nil_iff_forall_not_mem.2 fun c hc => ?_
      obtain ⟨hmem, -, hnone⟩ := (freshChunks_spec s.self.gameId s.index cs []).2 c hc
      have hsome := hm c hmem
      rw [Places.bytes, Option.isSome_map, ← h.laid.index_isSome, ← h.game, hnone] at hsome
      simp at hsome
    simp only [hfresh]
    rfl
  | compact live below space =>
    simp only [StoreOp.prog, exec_bind, exec_compact h]
    split_ifs
    · exact ⟨.compacted true, appendedAll (emptied s) (liveChunks s live g), rfl,
        (size_appendedAll_emptied h).trans h.size_compacted⟩
    · exact ⟨_, _, rfl, rfl⟩
  | read k =>
    simp only [StoreOp.prog, exec_bind, h.exec_readChunk]
    exact ⟨_, _, rfl, rfl, rfl⟩
  | contains k =>
    simp only [StoreOp.prog, exec_bind, h.shows.contains]
    exact ⟨_, _, rfl, rfl, rfl⟩
  | entries =>
    obtain ⟨items, he, -⟩ := h.shows.entries
    simp only [StoreOp.prog, exec_bind, he]
    exact ⟨_, _, rfl, rfl⟩

end Success

section Bound

theorem within_of_sum : ∀ (cs : List (Hash × Bytes)) (r : Record),
    r.size + (cs.map (·.2.length)).sum < 2 ^ 32 → Within r cs
  | [], _, _ => trivial
  | c :: cs, r, h => by
    rw [List.map_cons, List.sum_cons] at h
    refine ⟨fun _ => ⟨by omega, by omega⟩, within_of_sum cs _ ?_⟩
    unfold Record.store
    split_ifs
    · omega
    · dsimp only
      omega

theorem le_length_packFrom : ∀ (ds : List Bytes) (o : ℕ) (file : Bytes), o ≤ file.length →
    file.length ≤ (packFrom o ds file).length
  | [], _, _, _ => le_rfl
  | d :: ds, o, file, ho => by
    have hlen := length_pwrite d ho
    have hmod : (UInt32.ofNat d.length).toNat ≤ d.length := by
      rw [UInt32.toNat_ofNat']
      exact Nat.mod_le _ _
    have ih := le_length_packFrom ds (o + (UInt32.ofNat d.length).toNat)
      (pwrite file o d) (by omega)
    rw [packFrom]
    omega

/-- A batch that leaves the pack below 4 GiB gives no chunk a place past it. -/
theorem within_of_packFrom (table : Index) : ∀ (cs : List (Hash × Bytes)) (seen : List Hash)
    (r : Record) (file : Bytes), r.size ≤ file.length →
    (∀ h, (r.places h).isSome ↔ h ∈ seen ∨ (table[key gameId h]?).isSome) →
    (packFrom r.size ((freshChunks gameId table seen cs).map (·.2)) file).length < 2 ^ 32 →
    Within r cs
  | [], _, _, _, _, _, _ => trivial
  | c :: cs, seen, r, file, hfile, hknown, hlen => by
    unfold freshChunks at hlen
    by_cases hc : (r.places c.1).isSome
    · rw [if_pos ((hknown c.1).1 hc)] at hlen
      refine ⟨fun hn => by simp [hn] at hc, ?_⟩
      rw [Record.store, if_pos hc]
      exact within_of_packFrom table cs seen r file hfile hknown hlen
    · rw [if_neg (mt (hknown c.1).2 hc), List.map_cons, packFrom] at hlen
      dsimp only at hlen
      have hw := length_pwrite c.2 hfile
      have hmod : (UInt32.ofNat c.2.length).toNat ≤ c.2.length := by
        rw [UInt32.toNat_ofNat']
        exact Nat.mod_le _ _
      have hge := le_length_packFrom ((freshChunks gameId table (c.1 :: seen) cs).map (·.2))
        (r.size + (UInt32.ofNat c.2.length).toNat) (pwrite file r.size c.2) (by omega)
      have hc32 : c.2.length < 2 ^ 32 := by omega
      rw [toNat_ofNat_length hc32] at hlen hge
      refine ⟨fun _ => ⟨by omega, hc32⟩, ?_⟩
      rw [Record.store, if_neg hc]
      refine within_of_packFrom table cs (c.1 :: seen) _ (pwrite file r.size c.2) ?_ (fun k => ?_)
        hlen
      · dsimp only
        omega
      · by_cases hk : k = c.1
        · simp [hk]
        · simp [hk, hknown]

theorem StoreLaid.offsetsFit (h : StoreLaid gameId s g) (hpack : s.pack.length < 2 ^ 32)
    (hafter : (exec op.prog s).2.pack.length < 2 ^ 32) : op.OffsetsFit s g := by
  cases op with
  | append k d =>
    refine ⟨fun hg => ?_, trivial⟩
    have he := exec_appendChunk h.linked k d
    have hs := h.laid.size_le
    rw [h.game, h.laid.index, show g k = none from hg, Option.map_none] at he
    simp only [StoreOp.prog, exec_bind, he, exec_pure] at hafter
    change (pwrite s.pack s.self.size d).length < _ at hafter
    rw [length_pwrite _ hs] at hafter
    exact ⟨by dsimp only; omega, by dsimp only; omega⟩
  | appendBatch cs =>
    simp only [StoreOp.prog, exec_bind, exec_appendChunksBatch h.linked, exec_pure, h.game]
      at hafter
    exact within_of_packFrom s.index cs [] ⟨s.self.size, g⟩ s.pack h.laid.size_le h.known hafter
  | compact live below space =>
    intro hrw
    simp only [StoreOp.prog, exec_bind, exec_compact h, if_pos hrw, exec_pure] at hafter
    have hlen : ∀ c ∈ liveChunks s live g, c.2.length < 2 ^ 32 :=
      fun c hc => chunksOf_length h.laid hc
    have hp := packFrom_append ((liveChunks s live g).map (·.2)) [] fun d hd => by
      obtain ⟨c, hc, rfl⟩ := List.mem_map.1 hd
      exact hlen c hc
    rw [appendedAll_eq _ _ hlen] at hafter
    change (packFrom ([] : Bytes).length _ []).length < _ at hafter
    rw [hp, List.nil_append, List.length_flatten, List.map_map] at hafter
    refine within_of_sum _ _ ?_
    rw [Record.empty, Nat.zero_add]
    exact hafter
  | read k => trivial
  | contains k => trivial
  | entries => trivial

end Bound

section Runs

variable {γ δ : Type} {note : StoreOp → OpenStore → γ → StoreReply → γ}
  {note' : StoreOp → OpenStore → δ → StoreReply → δ}

theorem apply_fst (step : StoreStep) (sys : StoreSys) (g : γ) (d : δ) :
    (step.apply gameId note (sys, g)).1 = (step.apply gameId note' (sys, d)).1 := by
  rcases step with faults | ⟨op, faults⟩
  · rfl
  · rcases sys with dir | s
    · rfl
    · simp only [StoreStep.apply, StoreOp.call]
      rcases op.prog.run ⟨s, faults⟩ with ⟨(e | _) | reply, w⟩ <;> rfl

theorem runSteps_fst (g : γ) (d : δ) (steps : List StoreStep) :
    (runSteps gameId note g steps).1 = (runSteps gameId note' d steps).1 := by
  induction steps using List.reverseRecOn with
  | nil => rfl
  | append_singleton steps step ih =>
    rw [runSteps_concat, runSteps_concat]
    generalize hst : runSteps gameId note g steps = st at ih
    generalize hst' : runSteps gameId note' d steps = st' at ih
    rcases st with ⟨sys, g'⟩
    rcases st' with ⟨sys', d'⟩
    dsimp only at ih
    subst ih
    exact apply_fst step _ _ _

theorem reopen_benign {sys : StoreSys} (hb : ∀ f ∈ faults, Benign f) :
    ∃ s, sys.reopen gameId faults = .opened s := by
  have hrun := (plain_openStore gameId).steady.run sys.dir hb
  unfold StoreSys.reopen
  rcases hr : (openStore gameId).run ⟨sys.dir, faults⟩ with ⟨e | self, w⟩
  · rw [hr, exec_openStore] at hrun
    simp at hrun
  · exact ⟨_, rfl⟩

theorem run_benign (faults : List (Fault AnyError)) (hb : ∀ f ∈ faults, Benign f)
    {reply : StoreReply}
    (he : exec op.prog s = (.ok reply, s')) :
    ∃ w, op.prog.run ⟨s, faults⟩ = (.ok reply, w) ∧ w.state = s' := by
  have hrun := (plain_prog op).steady.run s hb
  rw [he, Prod.mk.injEq] at hrun
  exact ⟨_, Prod.ext hrun.1 rfl, hrun.2⟩

theorem apply_call_of_run {reply : StoreReply} {w : World AnyError OpenStore} (g : γ)
    (hr : op.prog.run ⟨s, faults⟩ = (.ok reply, w)) :
    (StoreStep.call op faults).apply gameId note (.opened s, g)
      = (.opened w.state, note op s g reply) := by
  rw [StoreStep.apply, StoreOp.call, hr]

/-- The bytes of a directory's pack. -/
def StoreSys.packLen (sys : StoreSys) : ℕ := (sys.dir.pack.getD []).length

/-- A step of a run that succeeds and stays below 4 GiB is addressable. -/
theorem addressable_of_benign {st : StoreSys × Places} (h : SysLaid gameId st.2 st.1)
    {step : StoreStep} (hio : step.IoSucceeds) (hbefore : st.1.packLen < 2 ^ 32)
    (hafter : (step.apply gameId StoreOp.written st).1.packLen < 2 ^ 32) :
    step.Addressable st := by
  rcases step with faults | ⟨op, faults⟩
  · trivial
  · rcases st with ⟨dir | s, g⟩
    · trivial
    · refine ⟨StoreLaid.offsetsFit h hbefore ?_, switchUndisturbed_of_benign hio⟩
      obtain ⟨reply, s', he, -⟩ := StoreLaid.exec_prog h op
      obtain ⟨w, hr, hw⟩ := run_benign faults hio he
      rw [apply_call_of_run g hr] at hafter
      rw [he, ← hw]
      exact hafter

/-- The record and the map of a run that succeeds and stays below 4 GiB. -/
theorem mapRun_laid (steps : List StoreStep) (hio : ∀ step ∈ steps, step.IoSucceeds)
    (hsize : ∀ pre, pre <+: steps → (mapRun gameId pre).1.packLen < 2 ^ 32) :
    SysLaid gameId (placesRun gameId steps).2 (mapRun gameId steps).1
      ∧ (mapRun gameId steps).2 = (placesRun gameId steps).2.bytes := by
  induction steps using List.reverseRecOn with
  | nil => exact ⟨Laid.empty, rfl⟩
  | append_singleton steps step ih =>
    obtain ⟨hlaid, hmap⟩ := ih (fun x hx => hio x (List.mem_append_left _ hx))
      fun pre hp => hsize pre (hp.trans (List.prefix_append _ _))
    have hlast : step.IoSucceeds := hio step (by simp)
    have hbefore := hsize steps (List.prefix_append _ _)
    have hafter := hsize (steps ++ [step]) (List.prefix_refl _)
    have hfst : (placesRun gameId steps).1 = (mapRun gameId steps).1 := runSteps_fst _ _ _
    have hfst' : (placesRun gameId (steps ++ [step])).1 = (mapRun gameId (steps ++ [step])).1 :=
      runSteps_fst _ _ _
    rw [← hfst] at hlaid hbefore
    rw [← hfst', placesRun, runSteps_concat, ← placesRun] at hafter
    have hnext := hlaid.apply (addressable_of_benign hlaid hlast hbefore hafter)
    refine ⟨?_, ?_⟩
    · rw [← hfst', placesRun, runSteps_concat]
      exact hnext
    · rw [mapRun, placesRun, runSteps_concat, runSteps_concat, ← mapRun, ← placesRun]
      generalize hst : mapRun gameId steps = st at hfst hmap
      generalize hst' : placesRun gameId steps = st' at hfst hmap hlaid
      rcases st with ⟨sys, m⟩
      rcases st' with ⟨sys', g⟩
      dsimp only at hfst hmap hlaid
      subst hfst hmap
      rcases step with faults | ⟨op, faults⟩
      · rfl
      · rcases sys' with dir | s
        · rfl
        · obtain ⟨reply, s', he, -⟩ := StoreLaid.exec_prog hlaid op
          obtain ⟨w, hr, hw⟩ := run_benign faults hlast he
          rw [apply_call_of_run _ hr, apply_call_of_run _ hr]
          exact StoreLaid.spec_eq_written hlaid op reply

/-- A store whose I/O succeeds and whose pack stays below 4 GiB is the map that keeps the first
bytes it is given for a hash: every call replies with the effect the map says, and after every
step the lookups show the map. -/
theorem mapRun_shows (gameId : UInt64) (steps : List StoreStep)
    (hio : ∀ step ∈ steps, step.IoSucceeds)
    (hsize : ∀ pre, pre <+: steps → (mapRun gameId pre).1.packLen < 2 ^ 32) :
    (∀ s, (mapRun gameId steps).1 = .opened s → Shows gameId s (mapRun gameId steps).2)
      ∧ (∀ pre faults, pre ++ [.reopen faults] <+: steps →
        ∃ s, (mapRun gameId (pre ++ [.reopen faults])).1 = .opened s)
      ∧ ∀ pre op faults s, pre ++ [.call op faults] <+: steps →
        (mapRun gameId pre).1 = .opened s → ∃ reply w, op.prog.run ⟨s, faults⟩ = (.ok reply, w)
          ∧ op.Effect (mapRun gameId pre).2 s reply w.state := by
  have hlaid : ∀ pre, pre <+: steps → SysLaid gameId (placesRun gameId pre).2 (mapRun gameId pre).1
      ∧ (mapRun gameId pre).2 = (placesRun gameId pre).2.bytes := fun pre hpre =>
    mapRun_laid pre (fun x hx => hio x (hpre.mem hx)) fun p hp => hsize p (hp.trans hpre)
  refine ⟨fun s hs => ?_, fun pre faults hpre => ?_, fun pre op faults s hpre hs => ?_⟩
  · obtain ⟨h, hm⟩ := hlaid steps (List.prefix_refl _)
    rw [hs] at h
    rw [hm]
    exact StoreLaid.shows h
  · rw [mapRun, runSteps_concat]
    exact reopen_benign (hio (.reopen faults) (hpre.mem (by simp)))
  · obtain ⟨h, hm⟩ := hlaid pre ((List.prefix_append _ _).trans hpre)
    rw [hs] at h
    rw [hm]
    obtain ⟨reply, s', he, heff⟩ := StoreLaid.exec_prog h op
    obtain ⟨w, hr, hw⟩ := run_benign faults (hio (.call op faults) (hpre.mem (by simp))) he
    exact ⟨reply, w, hr, hw ▸ heff⟩

/-- The compaction drops the hash that is repeated and keeps the other. -/
theorem mapRun_shows_mixed : ∃ s, (mapRun 7 mixedSteps).1 = .opened s
    ∧ exec (readChunk (.fill 1)) s = (.ok none, s)
    ∧ exec (readChunk (.fill 2)) s = (.ok (some [6, 7]), s) := by
  have hrun : (∀ pre ∈ mixedSteps.inits, (mapRun 7 pre).1.packLen < 2 ^ 32)
      ∧ (mapRun 7 mixedSteps).1.store.isSome ∧ (mapRun 7 mixedSteps).2 (.fill 1) = none
      ∧ (mapRun 7 mixedSteps).2 (.fill 2) = some [6, 7] := by decide +kernel
  obtain ⟨hsize, hopen, hone, htwo⟩ := hrun
  obtain ⟨s, hs⟩ := opened_of_store hopen
  have hshow := (mapRun_shows 7 _ mixedSteps_ioSucceeds fun pre hpre =>
    hsize pre ((List.mem_inits _ _).2 hpre)).1 s hs
  exact ⟨s, hs, by rw [hshow.read, hone], by rw [hshow.read, htwo]⟩

end Runs

end BlazeNet

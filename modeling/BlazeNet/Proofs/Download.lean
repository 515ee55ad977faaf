import BlazeNet.Download
import BlazeNet.Proofs.Peers
import BlazeNet.Proofs.Rounds
import BlazeNet.Proofs.StoreRun

/-!
# What a download leaves in the store

Every chunk of the manifest is in the store, in the batch that waits to be written, or among those
that are still to be fetched (`Covered`). An event keeps that as long as a flush that fails takes
out only chunks of the fetch that made it, since they are fetched again; when the download has
returned and the last batch is written, nothing is left but the store.
-/

namespace BlazeNet

open Wire FaultIo Io RustStd GameStore

section Batch

/-- The index has the chunk. -/
def OpenStore.Known (s : OpenStore) (hash : Hash) : Prop :=
  (s.index[key s.self.gameId hash]?).isSome

/-- The store may know more, and is the same game's. -/
structure Grown (s s' : OpenStore) : Prop where
  game : s'.self.gameId = s.self.gameId
  index : ∀ k : String, (s.index[k]?).isSome → (s'.index[k]?).isSome

theorem Grown.refl (s : OpenStore) : Grown s s := ⟨rfl, fun _ h => h⟩

theorem Grown.trans {a b c : OpenStore} (h : Grown a b) (h' : Grown b c) : Grown a c :=
  ⟨h'.game.trans h.game, fun k hk => h'.index k (h.index k hk)⟩

theorem Grown.known {s s' : OpenStore} (h : Grown s s') {hash : Hash} (hs : s.Known hash) :
    s'.Known hash := by
  rw [OpenStore.Known, h.game]
  exact h.index _ hs

/-- Everything but the pack and its handle is as it was. -/
def SameIndex (s s' : OpenStore) : Prop := s'.self.gameId = s.self.gameId ∧ s'.index = s.index

theorem SameIndex.trans (a b c : OpenStore) (h : SameIndex a b) (h' : SameIndex b c) :
    SameIndex a c := ⟨h'.1.trans h.1, h'.2.trans h.2⟩

theorem SameIndex.grown {s s' : OpenStore} (h : SameIndex s s') : Grown s s' :=
  ⟨h.1, fun k hk => by rwa [h.2]⟩

theorem sameIndex_put (b : Bytes) (s : OpenStore) : SameIndex s (packFileRef.put b s) := by
  rcases s with ⟨⟨g, _ | c, z⟩, i, p, t⟩ <;> exact ⟨rfl, rfl⟩

theorem keeps_writeExactAt (d : Bytes) (o : ℕ) : Keeps SameIndex (writeExactAt d o) := by
  intro S s
  refine wp_mono (wp_writeLoop packFileRef _ S _ s d o rfl) fun r s' h => ?_
  obtain ⟨k, rfl, -⟩ := h
  exact sameIndex_put _ s

theorem keeps_quietIndex {α : Type} {p : StoreIo α} (hp : Quiet p) : Keeps SameIndex p :=
  hp.keeps fun _ => ⟨rfl, rfl⟩

theorem keeps_setSize (n : ℕ) : Keeps SameIndex (setSize n) := fun _ _ => wp_modify ⟨rfl, rfl⟩

theorem keeps_writeNew : ∀ (ps : List (ℕ × Bytes)) (o : ℕ) (out : List (ℕ × UInt32)),
    Keeps SameIndex (writeNew ps o out)
  | [], _, _ => keeps_quietIndex (Quiet.pure _)
  | (_, d) :: ps, o, _ => Keeps.bind SameIndex.trans ((keeps_writeExactAt d o).onErr _) fun _ =>
    keeps_writeNew ps _ _

/-- A batch that does not return leaves the index as it was. -/
theorem unlessDone_appendChunksBatch_index (cs : List (Hash × Bytes)) :
    KeepsUnlessDone SameIndex (appendChunksBatch cs) := by
  refine .bind SameIndex.trans (keeps_quietIndex Quiet.get) fun s => ?_
  refine .bind SameIndex.trans (keeps_quietIndex quiet_beginRead) fun table => ?_
  refine .bind SameIndex.trans (keeps_quietIndex (quiet_scanChunks _ _ _ _ _)) fun scan => ?_
  refine .bind SameIndex.trans (keeps_writeNew _ _ _) fun r => ?_
  refine .bind SameIndex.trans (keeps_setSize _) fun _ => ?_
  split_ifs
  · exact (keeps_quietIndex (Quiet.pure _)).unlessDone
  refine .bind SameIndex.trans (keeps_quietIndex quiet_beginWrite) fun table => ?_
  refine .bind SameIndex.trans (keeps_quietIndex (quiet_insertNew _ _ _ _)) fun table => ?_
  intro S s
  refine wp_mono (allOrNothing_commit _ table _ S s) fun r s' h hr => ?_
  rw [h hr]
  exact ⟨rfl, rfl⟩

theorem isSome_insertAt (gameId : UInt64) : ∀ (l : List (Hash × ℕ × UInt32)) (table : Index)
    (k : String), ((table[k]?).isSome ∨ ∃ x ∈ l, k = key gameId x.1) →
      ((insertAt gameId l table)[k]?).isSome
  | [], table, k, h => h.resolve_right (by simp)
  | x :: l, table, k, h => by
    rw [insertAt, List.foldl_cons, ← insertAt]
    refine isSome_insertAt gameId l _ k ?_
    rw [Std.ExtTreeMap.getElem?_insert]
    by_cases hk : key gameId x.1 = k
    · exact .inl (by simp [hk])
    rcases h with h | ⟨y, hy, rfl⟩
    · exact .inl (by simp [hk, h])
    · rcases List.mem_cons.1 hy with rfl | hy
      · exact absurd rfl hk
      · exact .inr ⟨y, hy, rfl⟩

theorem mem_freshChunks (gameId : UInt64) (table : Index) : ∀ (chunks : List (Hash × Bytes))
    (seen : List Hash), ∀ c ∈ chunks, c.1 ∈ seen ∨ (table[key gameId c.1]?).isSome
      ∨ c.1 ∈ (freshChunks gameId table seen chunks).map (·.1)
  | [], _, c, hc => by simp at hc
  | (hash, data) :: chunks, seen, c, hc => by
    unfold freshChunks
    rcases List.mem_cons.1 hc with rfl | hc
    · split_ifs with h
      · exact h.imp id .inl
      · exact .inr (.inr (by simp))
    · split_ifs with h
      · exact mem_freshChunks gameId table chunks seen c hc
      · rcases mem_freshChunks gameId table chunks (hash :: seen) c hc with hs | hs | hs
        · rcases List.mem_cons.1 hs with hs | hs
          · exact .inr (.inr (by simp [hs]))
          · exact .inl hs
        · exact .inr (.inl hs)
        · exact .inr (.inr (List.mem_cons_of_mem _ hs))

/-- A batch that returns is in the index. -/
theorem known_appendChunksBatch {s s' : OpenStore} {cs : List (Hash × Bytes)}
    {out : List (ℕ × UInt32)} (h : exec (appendChunksBatch cs) s = (.ok out, s')) :
    Grown s s' ∧ ∀ c ∈ cs, s'.Known c.1 := by
  obtain ⟨hok, hnew⟩ := batchScan_spec s cs
  have hcover := mem_freshChunks s.self.gameId s.index cs []
  rw [← hnew] at hcover
  unfold appendChunksBatch at h
  simp only [exec_bind, exec_get, exec_beginRead, exec_scanChunks] at h
  rw [← batchScan] at h
  have hwrite := (keeps_writeNew ((batchScan s cs).newPos.zip ((batchScan s cs).newData.map (·.2)))
    s.self.size (batchScan s cs).out).exec s
  rcases hw : exec (writeNew ((batchScan s cs).newPos.zip ((batchScan s cs).newData.map (·.2)))
    s.self.size (batchScan s cs).out) s with ⟨e | ⟨out', offset⟩, s₁⟩ <;> rw [hw] at h hwrite
  · cases h
  obtain ⟨hgame, hindex⟩ : s₁.self.gameId = s.self.gameId ∧ s₁.index = s.index := hwrite
  simp only [exec_setSize] at h
  split_ifs at h with hempty
  · -- every chunk was known already
    have hs' := (Prod.mk.inj h).2
    have hsame : SameIndex s s' := hs' ▸ ⟨hgame, hindex⟩
    refine ⟨hsame.grown, fun c hc => ?_⟩
    rcases hcover c hc with hs | hs | hs
    · cases hs
    · exact hsame.grown.known hs
    · rw [List.isEmpty_iff.1 hempty] at hs
      cases hs
  · simp only [exec_bind, exec_beginWrite, exec_insertNew, exec_commit, exec_pure] at h
    have hs' := (Prod.mk.inj h).2
    obtain ⟨hgame', l, hl, hindex'⟩ : s'.self.gameId = s.self.gameId
        ∧ ∃ l : List (Hash × ℕ × UInt32), l.map (·.1) = (batchScan s cs).newData.map (·.1)
          ∧ s'.index = insertAt s.self.gameId l s.index := by
      have hi : insertAt s.self.gameId _ s₁.index = s'.index := congrArg OpenStore.index hs'
      refine ⟨hs' ▸ hgame, _, ?_, hi.symm.trans (congrArg (insertAt s.self.gameId _) hindex)⟩
      rw [List.map_map]
      exact List.map_fst_zip (by rw [List.length_map, hok.length])
    clear h hs' hw
    have hsome : ∀ k : String, ((s.index[k]?).isSome ∨ ∃ x ∈ l, k = key s.self.gameId x.1) →
        (s'.index[k]?).isSome := fun k hk => hindex' ▸ isSome_insertAt s.self.gameId l s.index k hk
    refine ⟨⟨hgame', fun k hk => hsome k (.inl hk)⟩, fun c hc => ?_⟩
    rw [OpenStore.Known, hgame']
    refine hsome _ ?_
    rcases hcover c hc with hs | hs | hs
    · cases hs
    · exact .inl hs
    · rw [← hl] at hs
      obtain ⟨x, hx, he⟩ := List.mem_map.1 hs
      exact .inr ⟨x, hx, by rw [he]⟩

end Batch

section Idc

/-- The chunk is in the store, or waits to be written. -/
def IdcState.Has (s : IdcState) (hash : Hash) : Prop :=
  s.store.Known hash ∨ hash ∈ s.pending.map (·.1)

theorem contains_of_known {s : OpenStore} {hash : Hash} (h : s.Known hash) :
    (exec (contains hash) s).1 = .ok true := by
  rw [exec_contains]
  exact congrArg Except.ok h

theorem appendChunksBatch_error {s : OpenStore} {cs : List (Hash × Bytes)}
    {faults : List (Fault AnyError)} {e : Stop AnyError} {w : World AnyError OpenStore}
    (h : (appendChunksBatch cs).run ⟨s, faults⟩ = (.error e, w)) : Grown s w.state :=
  SameIndex.grown
    (run_of_wp (unlessDone_appendChunksBatch_index cs (fun _ => True) s) h (by simp))

/-- A flush that is done has written what waited; one that fails has dropped it. -/
theorem flushPending_run {s : IdcState} {faults : List (Fault AnyError)}
    {r : Except (Stop AnyError) Unit} {w : World AnyError IdcState}
    (h : flushPending.run ⟨s, faults⟩ = (r, w)) :
    Grown s.store w.state.store ∧ w.state.pending = []
      ∧ (r = .ok () → ∀ hash, s.Has hash → w.state.store.Known hash) := by
  rcases hbatch : s.pending with _ | ⟨c, cs⟩
  · have hidle : flushPending.run ⟨s, faults⟩ = (.ok (), ⟨{ s with pending := [] }, faults⟩) := by
      unfold flushPending
      rw [run_bind]
      simp only [Io.get, run_bind, Io.modify, hbatch]
      rfl
    cases hidle.symm.trans h
    refine ⟨Grown.refl _, rfl, fun _ hash hhas => ?_⟩
    rcases hhas with hknown | hpending
    · exact hknown
    · rw [hbatch] at hpending
      cases hpending
  · unfold flushPending at h
    rw [run_bind] at h
    simp only [Io.get, run_bind, Io.modify, hbatch, List.isEmpty_cons, Bool.false_eq_true, if_false,
      zoom] at h
    rcases happend : (appendChunksBatch (c :: cs)).run ⟨s.store, faults⟩ with ⟨e | out, w₁⟩ <;>
      rw [happend] at h <;> cases h
    · exact ⟨appendChunksBatch_error happend, rfl, by simp⟩
    · obtain ⟨hgrown, hknown⟩ :=
        known_appendChunksBatch (exec_of_run (plain_appendChunksBatch _) happend)
      refine ⟨hgrown, rfl, fun _ hash hhas => ?_⟩
      rcases hhas with hstore | hpending
      · exact hgrown.known hstore
      · rw [hbatch] at hpending
        obtain ⟨x, hx, rfl⟩ := List.mem_map.1 hpending
        exact hknown x hx

theorem run_idcSink (s : IdcState) (hash : Hash) (data : Bytes) (faults : List (Fault AnyError)) :
    (idcSink hash data).run ⟨s, faults⟩
      = if (s.pending ++ [(hash, data)]).length ≥ idcBatchSize then
          flushPending.run ⟨⟨s.store, s.pending ++ [(hash, data)]⟩, faults⟩
        else (.ok (), ⟨⟨s.store, s.pending ++ [(hash, data)]⟩, faults⟩) := by
  unfold idcSink
  rw [run_bind]
  simp only [Io.modify, run_bind, Io.get]
  split_ifs <;> rfl

/-- A call of the sink that succeeds keeps all chunks and its own; one that fails keeps those that
were in the store. -/
theorem idcSink_run {s : IdcState} {hash : Hash} {data : Bytes} {faults : List (Fault AnyError)}
    {r : Except (Stop AnyError) Unit} {w : World AnyError IdcState}
    (h : (idcSink hash data).run ⟨s, faults⟩ = (r, w)) :
    (∀ c, s.store.Known c → w.state.store.Known c)
      ∧ (r = .ok () → w.state.Has hash ∧ ∀ c, s.Has c → w.state.Has c) := by
  have hpush : ∀ c, s.Has c → IdcState.Has ⟨s.store, s.pending ++ [(hash, data)]⟩ c := by
    rintro c (hc | hc)
    · exact .inl hc
    · exact .inr (by simpa using .inl (by simpa using hc))
  have hown : IdcState.Has ⟨s.store, s.pending ++ [(hash, data)]⟩ hash := .inr (by simp)
  rw [run_idcSink] at h
  split_ifs at h with hfull
  · obtain ⟨hgrown, -, hdone⟩ := flushPending_run h
    exact ⟨fun c hc => hgrown.known hc, fun hr =>
      ⟨.inl (hdone hr hash hown), fun c hc => .inl (hdone hr c (hpush c hc))⟩⟩
  · cases h
    exact ⟨fun c hc => hc, fun _ => ⟨hown, hpush⟩⟩

theorem keeping_idcSink (blake3 : Bytes → Hash) :
    SinkKeeps blake3 (recordSink idcSink) (fun t h => t.1.Has h) (FlushOwn blake3) where
  ok hash data t fs w _ hcall := by
    rw [run_recordSink] at hcall
    rcases hsink : (idcSink hash data).run ⟨t.1, fs⟩ with ⟨e | ⟨⟩, w₁⟩ <;> rw [hsink] at hcall <;>
      cases hcall
    exact (idcSink_run hsink).2 rfl
  err task e t hash data err w hown hdelivers hcall h hh := by
    rw [run_recordSink] at hcall
    rcases hsink : (idcSink hash data).run ⟨t.1, e.faults⟩ with ⟨e' | ⟨⟩, w₁⟩ <;>
      rw [hsink] at hcall <;> cases hcall
    obtain ⟨rest, stats, hphase, hnet, hdata⟩ := hdelivers
    rcases hh with hknown | hpending
    · exact .inl (.inl ((idcSink_run hsink).1 h hknown))
    · obtain ⟨c, hc, rfl⟩ := List.mem_map.1 hpending
      exact .inr (hown hash rest stats data hphase hnet hdata err w₁ hsink c hc)

theorem plain_idcMissing : ∀ hashes missing : List Hash, Plain (idcMissing hashes missing)
  | [], _ => .pure _
  | hash :: hashes, _ => .bind (plain_contains hash) fun found => by
    cases found
    · exact plain_idcMissing hashes _
    · exact plain_idcMissing hashes _

/-- The chunks the store does not have. -/
theorem exec_idcMissing (s : OpenStore) : ∀ hashes missing : List Hash,
    exec (idcMissing hashes missing) s = (.ok (missing
      ++ hashes.filter fun hash => !(s.index[key s.self.gameId hash]?).isSome), s)
  | [], missing => by simp [idcMissing]
  | hash :: hashes, missing => by
    rw [idcMissing, exec_bind, exec_contains]
    rcases hfound : (s.index[key s.self.gameId hash]?).isSome with _ | _
    · rw [List.filter_cons_of_pos (by rw [hfound]; rfl)]
      simp only [Bool.false_eq_true, if_false, exec_idcMissing s hashes, List.append_assoc,
        List.singleton_append]
    · rw [List.filter_cons_of_neg (by rw [hfound]; simp)]
      simp only [if_true, exec_idcMissing s hashes]

theorem reportChunks_subset : ∀ (hashes : List Hash) (outcomes : List (Except AnyError Unit)),
    ∀ hash ∈ (reportChunks hashes outcomes).2, hash ∈ hashes
  | [], _, hash, h => by simp [reportChunks] at h
  | x :: hashes, outcomes, hash, h => by
    unfold reportChunks at h
    rcases houtcome : outcomes.headD (.ok ()) with e | ⟨⟩ <;> simp only [houtcome] at h
    · exact List.mem_cons.2 (.inl (List.mem_singleton.1 h))
    · exact (List.mem_cons.1 h).elim (fun h => List.mem_cons.2 (.inl h)) fun h =>
        List.mem_cons_of_mem _ (reportChunks_subset hashes _ hash h)

/-- As long as a flush that fails takes out only chunks of the fetch that has made it, whatever
`run_idc` reports is in the store, and all chunks of the version are when it returns well. -/
theorem runIdc_reportsTrue {Sock : Type} {net : NetText Sock} {cfg : Config} {blake3 : Bytes → Hash}
    {gameId : UInt64} {assignedChunks : List Bytes} {index : GameIndex} {input : IdcInput}
    {store : OpenStore} (hown : FlushesOwn net blake3 index input store) :
    ReportsTrue net blake3 cfg gameId assignedChunks index input store := by
  intro done h
  unfold runIdc at h
  rcases hscan : (idcMissing (input.iter.order index.chunkSet) []).run ⟨store, input.scan⟩ with
    ⟨(e | _) | missing, w⟩ <;> simp only [hscan] at h
  · cases h
    exact ⟨by simp, by simp⟩
  · cases h
  have hmissing := exec_of_run (plain_idcMissing _ _) hscan
  rw [exec_idcMissing, List.nil_append, Prod.mk.injEq, Except.ok.injEq] at hmissing
  obtain ⟨hmissing, hstore⟩ := hmissing
  rcases hdownload : downloadMissing net cfg blake3 idcSink gameId (missing.mergeSort hashLe)
    (assignedChunks.filterMap Hash.ofBytes?) input.download ⟨w.state, []⟩ with
    _ | ⟨e | out, s⟩ <;> simp only [hdownload] at h
  · cases h
  · cases h
    exact ⟨by simp, by simp⟩
  have hhas : ∀ hash ∈ index.chunkSet, s.Has hash := by
    refine downloadMissing_have (keeping_idcSink blake3) (fun hash hmem => ?_)
      (hown _ w hscan) hdownload
    by_cases hknown : store.Known hash
    · exact .inr (.inl (hstore ▸ hknown))
    · refine .inl ?_
      rw [List.mem_mergeSort, ← hmissing, List.mem_filter, (input.iter.perm _).mem_iff]
      exact ⟨hmem, by rw [Bool.eq_false_of_not_eq_true hknown]; rfl⟩
  rcases hflush : flushPending.run ⟨s, input.flush⟩ with ⟨(e | _) | ⟨⟩, w'⟩ <;>
    simp only [hflush] at h <;> cases h
  · exact ⟨by simp, by simp⟩
  · have hall : ∀ hash ∈ index.chunkSet, (exec (contains hash) w'.state.store).1 = .ok true :=
      fun hash hmem => contains_of_known ((flushPending_run hflush).2.2 rfl hash (hhas hash hmem))
    refine ⟨fun _ => hall, fun hash hsent => hall hash ?_⟩
    exact List.mem_mergeSort.1 (reportChunks_subset _ _ hash hsent)

/-- An event adds one chunk to the batch at most. -/
theorem pending_step {blake3 : Bytes → Hash} {pool pool' : Pool (IdcState × List Hash)} {e : Event}
    (h : pool.step blake3 (recordSink idcSink) e = some pool') :
    pool'.shared.1.pending.length ≤ pool.shared.1.pending.length + 1 := by
  obtain ⟨-, rfl⟩ | ⟨task, phase, w, -, hrun, rfl⟩ := Pool.step_cases h
  · exact Nat.le_succ _
  have hcall : ∀ hash data r, (recordSink idcSink hash data).run ⟨pool.shared, e.faults⟩ = (r, w) →
      w.state.1.pending.length ≤ pool.shared.1.pending.length + 1 := by
    intro hash data r hsink
    rw [run_recordSink, run_idcSink] at hsink
    split_ifs at hsink with hfull
    · rcases hflush : flushPending.run
        ⟨⟨pool.shared.1.store, pool.shared.1.pending ++ [(hash, data)]⟩, e.faults⟩ with
        ⟨e' | ⟨⟩, w₁⟩ <;> rw [hflush] at hsink <;> cases hsink <;>
          simp [(flushPending_run hflush).2.1]
    · cases hsink
      simp
  obtain ⟨hstate, -⟩ | ⟨hash, data, rest, stats, -, -, -, hcalled⟩ := fetchNext_cases hrun
  · exact hstate ▸ Nat.le_succ _
  · obtain ⟨-, hsink⟩ | ⟨err, -, hsink⟩ := hcalled
    · exact hcall hash data _ hsink
    · exact hcall hash data _ hsink

theorem pending_run {blake3 : Bytes → Hash} {pool' : Pool (IdcState × List Hash)} :
    ∀ (events : List Event) (pool : Pool (IdcState × List Hash)),
      Pool.run blake3 (recordSink idcSink) events pool = some pool' →
        pool'.shared.1.pending.length ≤ pool.shared.1.pending.length + events.length
  | [], pool, h => by
    cases h
    simp
  | e :: events, pool, h => by
    simp only [Pool.run] at h
    rcases hstep : pool.step blake3 (recordSink idcSink) e with _ | pool₁ <;> rw [hstep] at h
    · cases h
    · have hrest := pending_run events pool₁ h
      have hfirst := pending_step hstep
      rw [List.length_cons]
      omega

/-- Too few events to fill a batch: nothing is flushed. -/
theorem along_few {blake3 : Bytes → Hash} : ∀ (events : List Event)
    (pool : Pool (IdcState × List Hash)),
    pool.shared.1.pending.length + events.length < idcBatchSize →
      Pool.Along blake3 (recordSink idcSink) (FlushOwn blake3) events pool
  | [], _, _ => trivial
  | e :: events, pool, h => by
    rw [List.length_cons] at h
    refine ⟨fun task _ hash rest stats data _ _ _ err w hsink => ?_, fun pool' hstep => ?_⟩
    · rw [run_idcSink, if_neg (by rw [List.length_append, List.length_singleton]; omega)] at hsink
      cases hsink
    · have hfirst := pending_step hstep
      exact along_few events pool' (by omega)

theorem roundsAlong_few {Sock : Type} {net : NetText Sock} {blake3 : Bytes → Hash} :
    ∀ (inputs : List RoundInput) (exclude : List String) (unresolved : List Hash)
      (s : IdcState × List Hash),
      s.1.pending.length + (inputs.map (·.events.length)).sum < idcBatchSize →
        RoundsAlong net blake3 (recordSink idcSink) (FlushOwn blake3) inputs exclude unresolved s
  | [], _, _, _, _ => trivial
  | input :: inputs, exclude, unresolved, s, h => by
    rw [List.map_cons, List.sum_cons] at h
    refine ⟨fun groups next _ => along_few _ _ ?_, fun r s' hround =>
      roundsAlong_few inputs _ _ _ ?_⟩
    · have hstart : (startPool (spawned groups) s).shared = s := rfl
      rw [hstart]
      omega
    · obtain ⟨groups, next, -, ⟨-, -, rfl⟩ | ⟨pool, -, hrun, -, -, -, -, rfl⟩⟩ := runRound_ok hround
      · omega
      · have hpending := pending_run _ _ hrun
        have hstart : (startPool groups s).shared = s := rfl
        rw [hstart] at hpending
        omega

end Idc

section Example

/-- A version of so many chunks of one byte each. -/
def byteChunks (n : ℕ) : GameIndex :=
  ⟨1, [⟨"a", .fill 0, (List.range n).map fun i => ⟨.fill (UInt8.ofNat i), 1⟩⟩], .fill 0⟩

def byteHash (data : Bytes) : Hash := .fill (data.headD 0)

/-- One peer has the first 63 chunks and brings them; another has the last, and the batch that its
chunk fills cannot be written. In the second round a third peer brings the last chunk. -/
def lostInput : IdcInput where
  iter := ⟨id, fun _ => List.Perm.refl _⟩
  scan := []
  download := {
    endpoint := .ok ()
    first := {
      answers := fun hash => .ok [if hash = .fill 63 then peerAt "b" "1.2.3.4:42002"
        else peerAt "a" "1.2.3.4:42001"]
      events := ⟨0, .connected, []⟩
        :: (List.range 63).map (fun i => ⟨0, .chunk [UInt8.ofNat i], []⟩)
        ++ [⟨1, .connected, []⟩, ⟨1, .chunk [63], [.fail 0 (.msg "busy")]⟩] }
    second := {
      answers := fun _ => .ok [peerAt "c" "1.2.3.4:42001"]
      events := [⟨0, .connected, []⟩, ⟨0, .chunk [63], []⟩] }
    fallback := [] }
  flush := []
  reports := []

/-- Two peers have a chunk each, and their chunks come between one another's; the second peer breaks
off, and in the second round a third one brings its chunk. -/
def twoInput : IdcInput where
  iter := lostInput.iter
  scan := []
  download := {
    endpoint := .ok ()
    first := {
      answers := fun hash => .ok [if hash = .fill 1 then peerAt "b" "1.2.3.4:42002"
        else peerAt "a" "1.2.3.4:42001"]
      events := [⟨1, .connected, []⟩, ⟨0, .connected, []⟩, ⟨1, .broken (.msg "reset"), []⟩,
        ⟨0, .chunk [0], []⟩] }
    second := {
      answers := fun _ => .ok [peerAt "c" "1.2.3.4:42001"]
      events := [⟨0, .connected, []⟩, ⟨0, .chunk [1], []⟩] }
    fallback := [] }
  flush := []
  reports := []

theorem reportChunks_nil : ∀ hashes : List Hash, reportChunks hashes [] = (.ok (), hashes)
  | [] => rfl
  | hash :: hashes => by simp [reportChunks, reportChunks_nil hashes]

theorem sorted_byteChunks {n : ℕ} (h : (byteChunks n).chunkSet.Pairwise fun a b => hashLe a b) :
    (byteChunks n).chunkSet.mergeSort hashLe = (byteChunks n).chunkSet :=
  List.mergeSort_of_pairwise h

/-- An empty store has none of the chunks. -/
theorem idcMissing_opened₀ {input : IdcInput} {hashes : List Hash} (hscan : input.scan = [])
    (horder : input.iter.order hashes = hashes) :
    (idcMissing (input.iter.order hashes) []).run ⟨opened₀ 1, input.scan⟩
      = (.ok hashes, ⟨opened₀ 1, []⟩) := by
  have hall : hashes.filter (fun hash => !((opened₀ 1).index[
      key (opened₀ 1).self.gameId hash]?).isSome) = hashes :=
    List.filter_eq_self.2 fun hash _ => by simp [opened₀]
  rw [hscan, horder, run_nil, exec_idcMissing, hall, List.nil_append]

/-- The run returns well, with both chunks in the store. -/
theorem runIdc_reportsTrue_two : ReportsTrue ⟨twoSockets, some⟩ byteHash (cafeConfig none) 1 []
      (byteChunks 2) twoInput (opened₀ 1)
    ∧ (runIdc ⟨twoSockets, some⟩ (cafeConfig none) byteHash 1 [] (byteChunks 2) twoInput
      (opened₀ 1)).map (fun done => (done.result, done.sent))
        = some (.ok (), [.fill 0, .fill 1]) := by
  constructor
  · refine runIdc_reportsTrue fun missing w _ => roundsAlong_few _ _ _ _ ?_
    simp [twoInput, idcBatchSize]
  · have hsorted := sorted_byteChunks (n := 2) (by decide +kernel)
    have hreports : twoInput.reports = [] := rfl
    unfold runIdc
    rw [idcMissing_opened₀ rfl rfl]
    simp only [hsorted, hreports, reportChunks_nil]
    decide +kernel

/-- The run returns well and reports all chunks; the store has none of the first 63. -/
theorem runIdc_reports_lost : ¬ReportsTrue ⟨twoSockets, some⟩ byteHash (cafeConfig none) 1 []
    (byteChunks 64) lostInput (opened₀ 1) := by
  have hrun : (runIdc ⟨twoSockets, some⟩ (cafeConfig none) byteHash 1 [] (byteChunks 64) lostInput
      (opened₀ 1)).map (fun done => (done.result, (exec (contains (.fill 0)) done.state.store).1))
        = some (.ok (), .ok false) := by
    have hsorted := sorted_byteChunks (n := 64) (by decide +kernel)
    have hreports : lostInput.reports = [] := rfl
    unfold runIdc
    rw [idcMissing_opened₀ rfl rfl]
    simp only [hsorted, hreports, reportChunks_nil]
    decide +kernel
  intro htrue
  obtain ⟨done, hdone, hvalue⟩ := Option.map_eq_some_iff.1 hrun
  obtain ⟨hresult, hlost⟩ := Prod.mk.inj hvalue
  have hhas := (htrue done hdone).1 hresult (.fill 0) (by decide +kernel)
  rw [hlost] at hhas
  cases hhas

end Example

end BlazeNet

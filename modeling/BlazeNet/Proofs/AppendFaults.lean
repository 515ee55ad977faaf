import BlazeNet.Proofs.CompactStop
import BlazeNet.Proofs.StoreBatch
import BlazeNet.Proofs.StoreMap

/-!
# Appends that fail

A failed append leaves bytes behind the end of the pack at most (`Tailed`), and no more of them than
it was to write. So the layout still says of every chunk where it is, also to a store that is opened
again, and the call can be repeated behind those bytes (`placesRun_append_unharmed`).
-/

namespace BlazeNet

open Wire FaultIo Io RustStd GameStore

variable {gameId : UInt64} {s s' : OpenStore} {g : Places} {op : StoreOp}
  {faults : List (Fault AnyError)}

/-- The chunks that a call is to append. -/
def StoreOp.chunks : StoreOp → List (Hash × Bytes)
  | .append hash data => [(hash, data)]
  | .appendBatch chunks => chunks
  | _ => []

def StoreOp.IsAppend : StoreOp → Prop
  | .append _ _ => True
  | .appendBatch _ => True
  | _ => False

/-- What a failed append has left of `s`: every chunk is read as before, and none of the call is
there that was not. The call can be repeated where its chunks still get places that fit, which twice
its bytes do; then every chunk of it is there, a new one with the first data the call has for it. -/
structure Unharmed (op : StoreOp) (g : Places) (s s' : OpenStore) : Prop where
  kept : ∀ h d, exec (readChunk h) s = (.ok (some d), s) →
    exec (readChunk h) s' = (.ok (some d), s')
  absent : ∀ c ∈ op.chunks, exec (contains c.1) s = (.ok false, s) →
    exec (contains c.1) s' = (.ok false, s')
  fits : s.pack.length + 2 * newBytes s op.chunks < 2 ^ 32 → op.OffsetsFit s' g
  again : op.OffsetsFit s' g → ∀ faults, (∀ f ∈ faults, Benign f) →
    ∃ reply w, op.prog.run ⟨s', faults⟩ = (.ok reply, w)
      ∧ (∀ h d, exec (readChunk h) s = (.ok (some d), s) →
        exec (readChunk h) w.state = (.ok (some d), w.state))
      ∧ ∀ c ∈ op.chunks, ∃ d, exec (readChunk c.1) w.state = (.ok (some d), w.state)
        ∧ (exec (contains c.1) s = (.ok false, s) → op.chunks.lookup c.1 = some d)

section Length

theorem length_packFrom_le : ∀ (ds : List Bytes) (o : ℕ) (file : Bytes), o ≤ file.length →
    (packFrom o ds file).length ≤ file.length + (ds.map List.length).sum
  | [], _, _, _ => le_rfl
  | d :: ds, o, file, ho => by
    have hlen := length_pwrite d ho
    have hmod : (UInt32.ofNat d.length).toNat ≤ d.length := by
      rw [UInt32.toNat_ofNat']
      exact Nat.mod_le _ _
    have ih := length_packFrom_le ds (o + (UInt32.ofNat d.length).toNat) (pwrite file o d)
      (by omega)
    rw [packFrom, List.map_cons, List.sum_cons]
    omega

/-- An append that succeeds makes the pack longer by its new bytes at most. -/
theorem StoreLaid.length_append (h : StoreLaid gameId s g) (hop : op.IsAppend) :
    (exec op.prog s).2.pack.length ≤ s.pack.length + newBytes s op.chunks := by
  have hs := h.laid.size_le
  cases op with
  | append k d =>
    have he := exec_appendChunk h.linked k d
    rcases hk : s.index[key s.self.gameId k]? with _ | v <;> rw [hk] at he
    · have hlen := length_pwrite d hs
      simp only [StoreOp.prog, exec_bind, he, exec_pure, StoreOp.chunks, newBytes_single hk]
      change (pwrite s.pack s.self.size d).length ≤ _
      omega
    · simp only [StoreOp.prog, exec_bind, he, exec_pure]
      exact Nat.le_add_right _ _
  | appendBatch cs =>
    simp only [StoreOp.prog, exec_bind, exec_appendChunksBatch h.linked, exec_pure,
      StoreOp.chunks]
    refine (length_packFrom_le _ _ _ hs).trans_eq ?_
    rw [newBytes, List.map_map]
    rfl
  | compact live below space => exact hop.elim
  | read k => exact hop.elim
  | contains k => exact hop.elim
  | entries => exact hop.elim

/-- A failed append has written a part of its new bytes behind the end of the pack at most. -/
theorem StoreLaid.append_failed (h : StoreLaid gameId s g) (hop : op.IsAppend) {e : Stop AnyError}
    {w : World AnyError OpenStore} (hrun : op.prog.run ⟨s, faults⟩ = (.error e, w)) :
    Tailed s w.state ∧ w.state.pack.length ≤ s.pack.length + newBytes s op.chunks := by
  cases op with
  | append k d =>
    rw [StoreOp.prog, run_map] at hrun
    rcases hr : (GameStore.appendChunk k d).run ⟨s, faults⟩ with ⟨e' | loc, w'⟩ <;> rw [hr] at hrun
    · obtain ⟨-, rfl⟩ := Prod.mk.inj hrun
      exact run_of_wp (unlessDone_appendChunk h.linked h.laid.size_le k d) hr (by simp)
    · cases hrun
  | appendBatch cs =>
    rw [StoreOp.prog, run_map] at hrun
    rcases hr : (appendChunksBatch cs).run ⟨s, faults⟩ with ⟨e' | locs, w'⟩ <;> rw [hr] at hrun
    · obtain ⟨-, rfl⟩ := Prod.mk.inj hrun
      exact run_of_wp (unlessDone_appendChunksBatch h.linked h.laid.size_le cs) hr (by simp)
    · cases hrun
  | compact live below space => exact hop.elim
  | read k => exact hop.elim
  | contains k => exact hop.elim
  | entries => exact hop.elim

end Length

section Again

theorem spec_append (hop : op.IsAppend) (m : ChunkMap) (reply : StoreReply) :
    op.spec s m reply = op.chunks.foldl ChunkMap.insertOnce m := by
  cases op with
  | append k d => rfl
  | appendBatch cs => rfl
  | compact live below space => exact hop.elim
  | read k => exact hop.elim
  | contains k => exact hop.elim
  | entries => exact hop.elim

/-- An append that meets no failure keeps what was there and adds its chunks. -/
theorem StoreLaid.append_done (h : StoreLaid gameId s g) (hop : op.IsAppend)
    (hfit : op.OffsetsFit s g) (hb : ∀ f ∈ faults, Benign f) :
    ∃ reply w, op.prog.run ⟨s, faults⟩ = (.ok reply, w)
      ∧ ∀ k, exec (readChunk k) w.state
        = (.ok ((g.bytes k).or (op.chunks.lookup k)), w.state) := by
  obtain ⟨reply, s₁, he, -⟩ := h.exec_prog op
  obtain ⟨w, hr, -⟩ := run_benign faults hb he
  have hlaid := h.call hfit (switchUndisturbed_of_benign hb)
  rw [StoreOp.call, hr] at hlaid
  refine ⟨reply, w, hr, fun k => ?_⟩
  have hbytes := congrFun (h.spec_eq_written op reply) k
  rw [spec_append hop, foldl_insertOnce] at hbytes
  rw [StoreLaid.exec_readChunk hlaid, hbytes]
  rfl

/-- Two layouts of the same places differ in what lies behind them. -/
theorem unharmed_of_laid (hs : StoreLaid gameId s g) (hs' : StoreLaid gameId s' g)
    (hindex : s'.index = s.index)
    (hlen : s'.pack.length ≤ s.pack.length + newBytes s op.chunks) (hop : op.IsAppend) :
    Unharmed op g s s' := by
  have hread : ∀ h d, exec (readChunk h) s = (.ok (some d), s) ↔ g.bytes h = some d := by
    intro h d
    rw [hs.exec_readChunk]
    simp [Places.bytes]
  have hcontains : ∀ h, exec (contains h) s = (.ok false, s) ↔ g.bytes h = none := by
    intro h
    rw [hs.shows.contains]
    simp [Places.bytes]
  have hnew : newBytes s' op.chunks = newBytes s op.chunks := by
    rw [newBytes, hindex, hs'.game, ← hs.game]
    rfl
  refine ⟨fun h d hd => ?_, fun c _ hc => ?_, fun hfit => ?_, fun hfit faults hb => ?_⟩
  · rw [hs'.exec_readChunk, ← (hread h d).1 hd]
    rfl
  · have hnone := (hcontains c.1).1 hc
    rw [hs'.shows.contains]
    simpa [Places.bytes] using hnone
  · have hafter := hs'.length_append hop
    rw [hnew] at hafter
    exact hs'.offsetsFit (by omega) (by omega)
  · obtain ⟨reply, w, hr, hreads⟩ := hs'.append_done hop hfit hb
    refine ⟨reply, w, hr, fun h d hd => ?_, fun c hc => ?_⟩
    · rw [hreads, (hread h d).1 hd, Option.some_or]
    · rw [hreads]
      rcases hg : g.bytes c.1 with _ | d
      · obtain ⟨d, hd⟩ := lookup_isSome_iff.2 (List.mem_map_of_mem (f := Prod.fst) hc)
        rw [Option.none_or]
        exact ⟨d, by rw [hd], fun _ => hd⟩
      · refine ⟨d, rfl, fun habsent => ?_⟩
        rw [(hcontains c.1).1 habsent] at hg
        cases hg

end Again

section Runs

/-- A store that is opened on the files of `s` has its index and its pack. -/
theorem reopen_files {s'' : OpenStore}
    (h : StoreSys.reopen gameId (.closed s.dir) faults = .opened s'') :
    s''.index = s.index ∧ s''.pack = s.pack := by
  have hkeep := keeps_openStore gameId (fun _ => True) s.dir faults fun _ _ => trivial
  unfold StoreSys.reopen at h
  rw [show StoreSys.dir (.closed s.dir) = s.dir from rfl] at h
  rcases hr : (openStore gameId).run ⟨s.dir, faults⟩ with ⟨e | self, w⟩ <;> rw [hr] at h hkeep
  · cases h
  · obtain rfl := StoreSys.opened.inj h
    exact hkeep

/-- In every run whose steps write nothing past 4 GiB and disturb no compaction after its rename, an
append that fails harms nothing, neither in the store as it is nor in one that is opened on its
files. -/
theorem placesRun_append_unharmed (gameId : UInt64) (steps : List StoreStep)
    (hsteps : ∀ pre step, pre ++ [step] <+: steps → step.Addressable (placesRun gameId pre))
    (s : OpenStore) (hs : (placesRun gameId steps).1 = .opened s) (op : StoreOp)
    (hop : op.IsAppend) (faults : List (Fault AnyError)) (e : Stop AnyError)
    (w : World AnyError OpenStore) (hrun : op.prog.run ⟨s, faults⟩ = (.error e, w)) :
    Unharmed op (placesRun gameId steps).2 s w.state
      ∧ (∃ s'', StoreSys.reopen gameId (.closed w.state.dir) [] = .opened s'')
      ∧ ∀ faults' s'', StoreSys.reopen gameId (.closed w.state.dir) faults' = .opened s'' →
        Unharmed op (placesRun gameId steps).2 s s'' := by
  have hlaid := placesRun_laid steps hsteps
  rw [hs] at hlaid
  have hlaid : StoreLaid gameId s (placesRun gameId steps).2 := hlaid
  obtain ⟨htailed, hlen⟩ := hlaid.append_failed hop hrun
  have hafter := hlaid.tailed htailed
  refine ⟨unharmed_of_laid hlaid hafter htailed.index hlen hop, reopen_benign (by simp),
    fun faults' s'' hs'' => ?_⟩
  obtain ⟨hindex, hpack⟩ := reopen_files hs''
  have hclosed : SysLaid gameId (placesRun gameId steps).2 (.closed w.state.dir) := hafter.dirLaid
  have hagain := hclosed.reopen faults'
  rw [hs''] at hagain
  exact unharmed_of_laid hlaid hagain (hindex.trans htailed.index) (by rwa [hpack]) hop

/-- A write that fails for want of space, with half of the chunk written, leaves the chunks before
it readable. -/
theorem placesRun_append_unharmed_full : ∃ s e w, (placesRun 7 mixedSteps).1 = .opened s
    ∧ (StoreOp.append (.fill 8) [6, 6]).prog.run
      ⟨s, List.replicate 3 .none ++ [.fail 1 (.msg "ENOSPC")]⟩ = (.error e, w)
    ∧ Unharmed (.append (.fill 8) [6, 6]) (placesRun 7 mixedSteps).2 s w.state := by
  have hfails : ((placesRun 7 mixedSteps).1.store.map fun s =>
      ((StoreOp.append (.fill 8) [6, 6]).prog.run
        ⟨s, List.replicate 3 .none ++ [.fail 1 (.msg "ENOSPC")]⟩).1.toBool) = some false := by
    decide +kernel
  obtain ⟨s, hs⟩ := opened_of_store (Option.isSome_map.symm.trans (congrArg Option.isSome hfails))
  rw [hs, StoreSys.store, Option.map_some, Option.some.injEq] at hfails
  rcases hr : (StoreOp.append (.fill 8) [6, 6]).prog.run
      ⟨s, List.replicate 3 .none ++ [.fail 1 (.msg "ENOSPC")]⟩ with ⟨e | reply, w⟩ <;>
    rw [hr] at hfails
  · exact ⟨s, e, w, hs, hr, (placesRun_append_unharmed 7 _ mixedSteps_addressable s hs
      (.append (.fill 8) [6, 6]) trivial _ e w hr).1⟩
  · cases hfails

end Runs

section Disturbed

/-- Two chunks, and a compaction down to the second that cannot open the new pack again. -/
def disturbedSteps : List StoreStep :=
  [.reopen [], .call (.append (.fill 1) [5]) [], .call (.append (.fill 2) [6]) [],
    .call (.compact (HashSet.empty.insert (.fill 2)) (fun _ _ => false) 1)
      (List.replicate 11 .none ++ [.fail 0 (.msg "EMFILE")])]

/-- An append that fails for want of space, on what that leaves. -/
def appendDisturbed (s : OpenStore) :
    Except (Stop AnyError) StoreReply × World AnyError OpenStore :=
  (StoreOp.append (.fill 3) [7]).prog.run ⟨s, List.replicate 3 .none ++ [.fail 0 (.msg "ENOSPC")]⟩

/-- What the chunk left alive reads before the append, whether the append is done, and whether the
chunk is read on the files it leaves. -/
def disturbedReads (s : OpenStore) : Except (Stop AnyError) (Option Bytes) × Bool × Bool :=
  let left := (appendDisturbed s).2.state
  ((exec (readChunk (.fill 2)) s).1, (appendDisturbed s).1.toBool,
    (exec (readChunk (.fill 2))
      ⟨⟨7, .linked, left.pack.length⟩, left.index, left.pack, left.packCompact⟩).1.toBool)

/-- After that compaction the live chunk is read through the handle on the old pack only, so a
failed append loses it to a store that is opened again. -/
theorem append_harms_disturbed : ∃ s e w s'', (placesRun 7 disturbedSteps).1 = .opened s
    ∧ s.pack.length < 2 ^ 32
    ∧ (StoreOp.append (.fill 3) [7]).prog.run
      ⟨s, List.replicate 3 .none ++ [.fail 0 (.msg "ENOSPC")]⟩ = (.error e, w)
    ∧ exec (readChunk (.fill 2)) s = (.ok (some [6]), s)
    ∧ StoreSys.reopen 7 (.closed w.state.dir) [] = .opened s''
    ∧ exec (readChunk (.fill 2)) s'' ≠ (.ok (some [6]), s'') := by
  have hreads : (placesRun 7 disturbedSteps).1.store.map disturbedReads
      = some (.ok (some [6]), false, false) := by decide +kernel
  have hpack : (placesRun 7 disturbedSteps).1.store.map (·.pack) = some [6] := by decide +kernel
  rcases hs : (placesRun 7 disturbedSteps).1 with dir | s <;> rw [hs] at hreads hpack
  · cases hpack
  have hpack : s.pack = [6] := Option.some.inj hpack
  have hreads : disturbedReads s = (.ok (some [6]), false, false) := Option.some.inj hreads
  simp only [disturbedReads, Prod.mk.injEq] at hreads
  obtain ⟨hbefore, hfails, hlost⟩ := hreads
  rcases hr : appendDisturbed s with ⟨e | reply, w⟩ <;> rw [hr] at hfails hlost
  · refine ⟨s, e, w, _, rfl, by rw [hpack]; decide, hr,
      Prod.ext hbefore ((quiet_readChunk _).exec s), reopen_dir 7 w.state, fun hread => ?_⟩
    dsimp only at hlost
    rw [hread] at hlost
    cases hlost
  · cases hfails

end Disturbed

end BlazeNet

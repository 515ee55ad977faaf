import BlazeNet.Proofs.StoreRun

/-!
# Compactions that stop before their commit

Up to the rename a compaction touches nothing but the file it writes. The rename puts the new pack
under the old index, and until the commit the index stays as it was (`compact_stopped`). So what the
store reads once it is opened again is what the old index says of the new pack.
-/

namespace BlazeNet

open Wire FaultIo Io RustStd GameStore

variable {s : OpenStore} {live : HashSet Hash} {below : ℕ → ℕ → Bool} {space : ℕ}
  {faults : List (Fault AnyError)}

section Rewrite

/-- A first half that goes on to the switch has written the live chunks. -/
theorem compactRewrite_ok {plan : CompactPlan} {s' : OpenStore}
    (h : exec (compactRewrite live below space) s = (.ok (some plan), s')) :
    s' = { s with packCompact := some (s.rewritten live) } := by
  unfold compactRewrite at h
  simp only [exec_bind, exec_get, exec_beginRead, exec_tableIter] at h
  split_ifs at h
  · cases h
  · cases h
  · cases h
  · obtain ⟨copied, s₁, hcopy, h⟩ := exec_bind_ok h
    have hs₁ := @copyRanges_ok _ (fun s : OpenStore => some s.pack) tmpPath s s₁ s.pack
      (fun _ _ => rfl) rfl _ _ (exec_context_eq_ok hcopy)
    obtain ⟨_, s₂, hsize, h⟩ := exec_bind_ok h
    have hs₂ : s₂ = s₁ := by
      unfold ensureCopySize at hsize
      split_ifs at hsize
      · cases hsize
      · exact (Prod.mk.inj hsize).2.symm
    rw [← (Prod.mk.inj h).2, hs₂, hs₁, OpenStore.rewritten, List.flatMap_map]
    rfl

end Rewrite

section Switch

/-- The rest of the switch leaves index and pack as they are, unless it finishes. -/
def SameDisk (s s' : OpenStore) : Prop := s'.index = s.index ∧ s'.pack = s.pack

theorem SameDisk.trans (a b c : OpenStore) (h : SameDisk a b) (h' : SameDisk b c) :
    SameDisk a c := ⟨h'.1.trans h.1, h'.2.trans h.2⟩

theorem keeps_quietDisk {α : Type} {p : StoreIo α} (hp : Quiet p) : Keeps SameDisk p :=
  hp.keeps fun _ => ⟨rfl, rfl⟩

theorem keeps_reopenPack (text : String) : Keeps SameDisk (context text (atomic reopenPack)) :=
  .onErr _ fun _ _ => wp_atomic ⟨rfl, rfl⟩ (fun _ _ _ => ⟨rfl, rfl⟩) fun _ _ => by
    split_ifs <;> exact ⟨rfl, rfl⟩

theorem quiet_removeAll : ∀ (l : List (String × UInt64)) (t : Index), Quiet (removeAll l t)
  | [], _ => .pure _
  | (_, _) :: l, _ => .bind (quiet_context (.query _)) fun _ => quiet_removeAll l _

theorem quiet_insertAll (gameId : UInt64) : ∀ (l : List Location) (t : Index),
    Quiet (insertAll gameId l t)
  | [], _ => .pure _
  | (_, _, _) :: l, _ => .bind (quiet_context (.query _)) fun _ => quiet_insertAll gameId l _

/-- What follows the rename in `compactSwitch`. -/
def afterRename (gameId : UInt64) (plan : CompactPlan) : StoreIo Unit := do
  context "重新打开块文件失败" (atomic reopenPack)
  setSize (totalLen plan.newLocations)
  let table ← beginWrite
  let table ← removeAll plan.entries table
  let table ← insertAll gameId plan.newLocations table
  commit "提交压缩事务失败" table

theorem unlessDone_afterRename (gameId : UInt64) (plan : CompactPlan) :
    KeepsUnlessDone SameDisk (afterRename gameId plan) := by
  refine .bind SameDisk.trans (keeps_reopenPack _) fun _ => ?_
  refine .bind SameDisk.trans (fun _ _ => wp_modify ⟨rfl, rfl⟩) fun _ => ?_
  refine .bind SameDisk.trans (keeps_quietDisk quiet_beginWrite) fun table => ?_
  refine .bind SameDisk.trans (keeps_quietDisk (quiet_removeAll _ _)) fun table => ?_
  refine .bind SameDisk.trans (keeps_quietDisk (quiet_insertAll _ _ _)) fun table => ?_
  intro S s
  refine wp_mono ((AllOrNothing.onErr _ (.final _)) S s) fun r s' h hr => ?_
  rw [h hr]
  exact ⟨rfl, rfl⟩

theorem compactSwitch_eq (plan : CompactPlan) (w : World AnyError OpenStore) :
    (compactSwitch plan).run w = ((context "替换块文件失败" (atomic replacePack) : StoreIo Unit)
      >>= fun _ => afterRename w.state.self.gameId plan).run w := rfl

/-- A switch that stops once its rename is made leaves the new pack under the old index. -/
theorem compactSwitch_stopped {plan : CompactPlan} {file : Bytes} {fs : List (Fault AnyError)}
    {e : Stop AnyError} {w : World AnyError OpenStore}
    (hmade : ¬ ∃ f rest, fs = f :: rest ∧ Undone f)
    (h : (compactSwitch plan).run ⟨{ s with packCompact := some file }, fs⟩ = (.error e, w)) :
    w.state.index = s.index ∧ w.state.pack = file := by
  rw [compactSwitch_eq] at h
  change (andThen _ _).run _ = _ at h
  rw [run_andThen] at h
  set renamed : OpenStore := (replacePack { s with packCompact := some file }).2 with hrenamed
  have hfiles : renamed.index = s.index ∧ renamed.pack = file := ⟨rfl, rfl⟩
  -- the rename happens, and the process may die right after it
  have hrename : (∃ fs', (context "替换块文件失败" (atomic replacePack) : StoreIo Unit).run
        ⟨{ s with packCompact := some file }, fs⟩ = (.ok (), ⟨renamed, fs'⟩))
      ∨ ∃ fs', (context "替换块文件失败" (atomic replacePack) : StoreIo Unit).run
        ⟨{ s with packCompact := some file }, fs⟩ = (.error .killed, ⟨renamed, fs'⟩) := by
    rcases fs with _ | ⟨_ | n | ⟨n, x⟩ | n, fs⟩
    · exact .inl ⟨_, rfl⟩
    · exact .inl ⟨_, rfl⟩
    · exact .inl ⟨_, rfl⟩
    · exact absurd ⟨_, _, rfl, trivial⟩ hmade
    · have hn : 0 < n := by
        rcases Nat.eq_zero_or_pos n with rfl | hn
        · exact absurd ⟨_, _, rfl, rfl⟩ hmade
        · exact hn
      refine .inr ⟨fs, ?_⟩
      simp only [context, run_onErr, atomic, call, List.headD_cons, List.tail_cons, if_pos hn]
      rfl
  rcases hrename with ⟨fs', hr⟩ | ⟨fs', hr⟩ <;> rw [hr] at h
  · have hkeep := unlessDone_afterRename s.self.gameId plan (fun _ => True) renamed fs'
      fun _ _ => trivial
    rw [show (afterRename s.self.gameId plan).run ⟨renamed, fs'⟩ = (.error e, w) from h] at hkeep
    obtain ⟨hindex, hpack⟩ := hkeep (by simp)
    exact ⟨hindex.trans hfiles.1, hpack.trans hfiles.2⟩
  · obtain ⟨-, rfl⟩ := Prod.mk.inj h
    exact hfiles

/-- Where a compaction stops, the index is the old one, and the pack the old or the new one. -/
theorem compact_stopped {e : Stop AnyError} {w : World AnyError OpenStore}
    (h : (GameStore.compact live below space).run ⟨s, faults⟩ = (.error e, w)) :
    w.state.index = s.index
      ∧ (¬ RenameMade s live below space faults → w.state.pack = s.pack)
      ∧ (RenameMade s live below space faults → w.state.pack = s.rewritten live) := by
  have hkeep := keeps_compactRewrite live below space (fun _ => True) s faults fun _ _ => trivial
  have hsound := (plain_compactRewrite live below space).sound (fun _ => True) s faults
    fun _ _ => trivial
  rw [run_compact] at h
  rcases hr : (compactRewrite live below space).run ⟨s, faults⟩ with ⟨e' | _ | plan, w₁⟩ <;>
    rw [hr] at h hkeep hsound
  · obtain ⟨-, rfl⟩ := Prod.mk.inj h
    obtain ⟨b, hb⟩ := hkeep
    have hb : w₁.state = { s with packCompact := b } := hb
    refine ⟨by rw [hb], fun _ => by rw [hb], ?_⟩
    rintro ⟨plan, w', hw', -⟩
    rw [hr] at hw'
    cases hw'
  · cases h
  · have hw₁ : w₁.state = { s with packCompact := some (s.rewritten live) } :=
      compactRewrite_ok (hsound _ rfl)
    have hmade : RenameMade s live below space faults
        ↔ ¬ ∃ f rest, w₁.faults = f :: rest ∧ Undone f := by
      constructor
      · rintro ⟨plan', w', hw', hnot⟩
        rw [hr] at hw'
        obtain ⟨-, rfl⟩ := Prod.mk.inj hw'
        exact hnot
      · exact fun hnot => ⟨plan, w₁, hr, hnot⟩
    have hswitch : (compactSwitch plan).run w₁ = (.error e, w) := by
      change (andThen _ _).run _ = _ at h
      rw [run_andThen] at h
      rcases hs : (compactSwitch plan).run w₁ with ⟨e' | u, w₂⟩ <;> rw [hs] at h
      · cases h
        rfl
      · cases h
    rcases w₁ with ⟨st, fs⟩
    dsimp only at hw₁ hmade
    subst hw₁
    by_cases hf : ∃ f rest, fs = f :: rest ∧ Undone f
    · obtain ⟨f, rest, rfl, hundone⟩ := id hf
      obtain ⟨e', w', hrun, hw'⟩ := compactSwitch_undone
        (s := { s with packCompact := some (s.rewritten live) }) plan hundone rest
      rw [hswitch] at hrun
      obtain ⟨-, rfl⟩ := Prod.mk.inj hrun
      rw [hw']
      exact ⟨rfl, fun _ => rfl, fun hm => absurd hf (hmade.1 hm)⟩
    · obtain ⟨hindex, hpack⟩ := compactSwitch_stopped hf hswitch
      exact ⟨hindex, fun hm => absurd (hmade.2 hf) hm, fun _ => hpack⟩

end Switch

section Reads

theorem reopen_dir (gameId : UInt64) (s : OpenStore) :
    StoreSys.reopen gameId (.closed s.dir) []
      = .opened ⟨⟨gameId, .linked, s.pack.length⟩, s.index, s.pack, s.packCompact⟩ := rfl

/-- Reads agree where the bytes at the places agree. -/
theorem readsKept_iff {s s' : OpenStore} (hindex : s'.index = s.index) :
    ReadsKept s s' ↔ s.SamePlaces s'.pack := by
  have hopen : (⟨⟨s.self.gameId, .linked, s'.pack.length⟩, s'.index, s'.pack, s'.packCompact⟩ :
      OpenStore).self.packFile = .linked := rfl
  have hread : ∀ hash, (exec (readChunk hash) (⟨⟨s.self.gameId, .linked, s'.pack.length⟩, s'.index,
      s'.pack, s'.packCompact⟩ : OpenStore)).1 = (exec (readChunk hash) s).1
      ↔ ∀ value, s.index[key s.self.gameId hash]? = some value →
        placeIn s'.pack value = placeIn (packFileRef.content s) value := by
    intro hash
    rw [exec_readChunk hopen, exec_readChunk_content, hindex]
    rcases s.index[key s.self.gameId hash]? with _ | value
    · simp
    · simp only [placeIn, Option.some.injEq, forall_eq']
      split_ifs <;> simp
  rw [ReadsKept]
  constructor
  · rintro ⟨s'', hs'', hreads⟩ hash value hvalue
    rw [reopen_dir] at hs''
    obtain rfl := StoreSys.opened.inj hs''
    exact (hread hash).1 (hreads hash) value hvalue
  · exact fun h => ⟨_, reopen_dir _ _, fun hash => (hread hash).2 (h hash)⟩

/-- A compaction that stops leaves every read as it was exactly when the pack that lies at its path
then holds the same bytes at the places of the old index. -/
theorem compact_stopped_reads_iff {e : Stop AnyError} {w : World AnyError OpenStore}
    (h : (GameStore.compact live below space).run ⟨s, faults⟩ = (.error e, w)) :
    ReadsKept s w.state ↔ HarmlessStop s live below space faults := by
  obtain ⟨hindex, hold, hnew⟩ := compact_stopped h
  rw [readsKept_iff hindex, HarmlessStop]
  by_cases hmade : RenameMade s live below space faults
  · simp [hnew hmade, hmade]
  · simp [hold hmade, hmade]

/-- While the store's handle is on the pack at its path, every stop before the rename is
harmless. -/
theorem harmlessStop_of_linked (hl : s.self.packFile = .linked)
    (hmade : ¬ RenameMade s live below space faults) : HarmlessStop s live below space faults :=
  ⟨fun _ _ _ _ => by rw [packFileRef_content hl], fun h => absurd h hmade⟩

end Reads

section Example

/-- A store of two chunks, the second of which is live. -/
def twoChunks : OpenStore where
  self := ⟨7, .linked, 2⟩
  index := (Std.ExtTreeMap.insert ∅ (key 7 (.fill 1)) (BlazeNet.pack 0 1)).insert
    (key 7 (.fill 2)) (BlazeNet.pack 1 1)
  pack := [5, 6]
  packCompact := none

/-- Its compaction makes ten calls before the rename, which meets `fault`. -/
def renameMeets (fault : Fault AnyError) :
    Except (Stop AnyError) Bool × World AnyError OpenStore :=
  (GameStore.compact (HashSet.empty.insert (.fill 2)) (fun _ _ => false) 1).run
    ⟨twoChunks, List.replicate 10 .none ++ [fault]⟩

theorem harmlessStop_renameFails : HarmlessStop twoChunks (HashSet.empty.insert (.fill 2))
    (fun _ _ => false) 1 (List.replicate 10 .none ++ [.fail 0 (.msg "EIO")]) := by
  refine harmlessStop_of_linked rfl ?_
  rintro ⟨plan, w, hw, hnot⟩
  have hfaults : ((compactRewrite (HashSet.empty.insert (.fill 2)) (fun _ _ => false) 1).run
      ⟨twoChunks, List.replicate 10 .none ++ [.fail 0 (.msg "EIO")]⟩).2.faults
      = [.fail 0 (.msg "EIO")] := by decide +kernel
  rw [hw] at hfaults
  exact hnot ⟨_, _, hfaults, trivial⟩

/-- A rename that fails leaves every chunk readable. -/
theorem compact_stopped_reads_renameFails : ∃ e w,
    renameMeets (.fail 0 (.msg "EIO")) = (.error e, w) ∧ ReadsKept twoChunks w.state := by
  have hstop : (renameMeets (.fail 0 (.msg "EIO"))).1.toBool = false := by decide +kernel
  rcases hr : renameMeets (.fail 0 (.msg "EIO")) with ⟨e | done, w⟩ <;> rw [hr] at hstop
  · exact ⟨e, w, rfl, (compact_stopped_reads_iff hr).2 harmlessStop_renameFails⟩
  · cases hstop

/-- A process that dies right after the rename leaves the live chunk's old place past the end of
the new pack. -/
theorem compact_killed_loses_live : ∃ w, renameMeets (.kill 1) = (.error .killed, w)
    ∧ (exec (readChunk (.fill 2)) twoChunks).1 = .ok (some [6])
    ∧ ¬ ReadsKept twoChunks w.state := by
  have hstop : (renameMeets (.kill 1)).1 = .error .killed := by decide +kernel
  have hpack : (renameMeets (.kill 1)).2.state.pack = [6] := by decide +kernel
  have hvalue : twoChunks.index[key twoChunks.self.gameId (.fill 2)]?
      = some (BlazeNet.pack 1 1) := by
    simp only [twoChunks, lookup_insert, if_true]
  rcases hr : renameMeets (.kill 1) with ⟨(e | _) | done, w⟩ <;> rw [hr] at hstop hpack
  · cases hstop
  · refine ⟨w, rfl, ?_, ?_⟩
    · rw [exec_readChunk rfl, hvalue]
      decide +kernel
    · rw [readsKept_iff (compact_stopped hr).1, hpack]
      intro hsame
      have hplace := hsame _ _ hvalue
      revert hplace
      decide +kernel
  · cases hstop

end Example

end BlazeNet

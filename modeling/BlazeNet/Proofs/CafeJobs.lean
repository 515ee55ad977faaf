import BlazeNet.CafeJobs
import BlazeNet.Lib.FsStay
import BlazeNet.Proofs.Executor
import BlazeNet.Proofs.UpdateFrame

/-!
# The blocks that a plan has counted

A cleanup goes by the age of a block alone, so it can remove one that the plan of an update has
counted as present and the merge has still to read. Where no cleanup finds a counted block too old,
they are all there until the merge has read them.
-/

namespace BlazeNet

open Wire FaultIo Io RustStd UnixFs

section Calls

variable {Q : Place → Prop}

theorem allowsReads_stays : AllowsReads (Stays Q) where
  toFrame := Stays.frame
  opens _ := stays_openFile
  reads _ := stays_readFile

theorem stays_currentManifestBytes (self : CafeStore) :
    Keeps (Stays Q) self.currentManifestBytes := by
  have hversion : Keeps (Stays Q) self.currentVersion := by
    refine Stays.frame.seq (Stays.frame.quiet quiet_isFile) fun there => ?_
    cases there
    · exact Stays.frame.pure _
    · refine Stays.frame.seq (stays_readFile.onErr _) fun bytes => ?_
      rcases fromUtf8 bytes with _ | text
      · exact Stays.frame.stop _
      · dsimp only
        rcases parseU64 (trim text.toList) with _ | version
        · exact Stays.frame.stop _
        · exact Stays.frame.pure _
  refine Stays.frame.seq hversion fun version => ?_
  rcases version with _ | version
  · exact Stays.frame.pure _
  · exact Stays.frame.seq (stays_readFile.onErr _) fun _ => Stays.frame.pure _

theorem stays_setCurrent (blake3 : Bytes → Hash) (self : CafeStore) (manifest : Bytes) :
    Keeps (Stays Q) (self.setCurrent blake3 manifest) := by
  unfold CafeStore.setCurrent
  rcases GameIndex.decode blake3 manifest with e | index
  · exact Stays.frame.stop _
  · exact Stays.frame.pure _

theorem stays_openStore (blake3 : Bytes → Hash) (dataDir : Path) (gameId : UInt64) :
    Keeps (Stays Q) (CafeStore.openStore blake3 dataDir gameId) := by
  refine Stays.frame.seq (stays_createDirAll.onErr _) fun _ =>
    Stays.frame.seq (stays_createDirAll.onErr _) fun _ =>
      Stays.frame.seq (stays_currentManifestBytes _) fun bytes => ?_
  rcases bytes with _ | bytes
  · exact Stays.frame.pure _
  · exact stays_setCurrent blake3 _ bytes

theorem stays_saveManifest (blake3 : Bytes → Hash) (self : CafeStore) (version : UInt64)
    (manifest : Bytes) : Keeps (Stays Q) (self.saveManifest blake3 version manifest) :=
  Stays.frame.seq (stays_createDirAll.onErr _) fun _ =>
    Stays.frame.seq ((stays_writeFile _).onErr _) fun _ =>
      Stays.frame.seq ((stays_writeFile _).onErr _) fun _ => stays_setCurrent blake3 self manifest

theorem quiet_collectTempHashes (temp : Path) : Quiet (collectTempHashes temp) := by
  refine Quiet.bind (quiet_readDir.onErr _) fun names => ?_
  rcases names.mapM tempHash with ⟨⟩ | hashes
  · exact Quiet.stop _
  · exact Quiet.pure _

variable (up : CafeUpdate)

theorem stays_prepare (opened : Option CafeStore) : Keeps (Stays Q) (up.prepare opened) := by
  have hold : ∀ cafe : CafeStore, Keeps (Stays Q) (do
      let oldBytes ← cafe.currentManifestBytes
      let old ← decodeOld up.blake3 oldBytes
      pure (cafe, old)) := fun cafe => by
    refine Stays.frame.seq (stays_currentManifestBytes cafe) fun bytes =>
      Stays.frame.seq ?_ fun _ => Stays.frame.pure _
    unfold decodeOld
    rcases bytes with _ | bytes
    · exact Stays.frame.pure _
    · dsimp only
      rcases GameIndex.decode up.blake3 bytes with e | index
      · exact Stays.frame.stop _
      · exact Stays.frame.pure _
  refine Stays.frame.seq (stays_createDirAll.onErr _) fun _ => ?_
  rcases opened with _ | cafe
  · exact Stays.frame.seq (stays_openStore _ _ _) fun cafe => hold cafe
  · exact Stays.frame.seq (Stays.frame.pure _) fun cafe => hold cafe

theorem stays_createNew (turn : MergeTurn) : Keeps (Stays Q) (up.createNew turn) := by
  unfold CafeUpdate.createNew
  dsimp only
  rcases parent (newPathOf (join up.game turn.entry.name)) with _ | dir
  · exact Stays.frame.stop _
  · exact Stays.frame.seq (stays_createDirAll.onErr _) fun _ =>
      Stays.frame.seq ((stays_createFile.keeps.onErr _).onErr _) fun _ =>
        Stays.frame.seq (allowsReads_stays.openOld _) fun _ => Stays.frame.pure _

theorem stays_replace (turn : MergeTurn) (written : Bytes)
    (htarget : ¬ Q (resolve (join up.game turn.entry.name)))
    (hnew : ¬ Q (resolve (newPathOf (join up.game turn.entry.name)))) :
    Keeps (Stays Q) (up.replace turn written) := by
  unfold CafeUpdate.replace
  dsimp only
  split_ifs
  · exact Stays.frame.seq (Stays.frame.quiet quiet_closeWriter).attempt fun _ =>
      Stays.frame.seq (stays_removeFile hnew).attempt fun _ => Stays.frame.stop _
  · exact Stays.frame.seq ((Stays.frame.quiet quiet_syncWriter).onErr _) fun _ =>
      Stays.frame.seq ((Stays.frame.quiet quiet_closeWriter).onErr _) fun _ =>
        Stays.frame.seq (keeps_removeOld Stays.frame (stays_removeFile htarget)) fun _ =>
          (stays_renameFile hnew).onErr _

end Calls

section KeptBlocks

variable {Q : Place → Prop} {α : Type}

/-- No block has been counted anew, and what is at a place in `Q` stays. -/
structure KeptBlocks (Q : Place → Prop) (s s' : CafeShared) : Prop where
  counted : s'.counted ⊆ s.counted
  disk : Stays Q s.disk s'.disk

theorem KeptBlocks.frame : FaultIo.Frame (KeptBlocks Q) where
  refl _ := ⟨List.Subset.refl _, Stays.frame.refl _⟩
  trans _ _ _ h h' := ⟨List.Subset.trans h'.counted h.counted,
    Stays.frame.trans _ _ _ h.disk h'.disk⟩

theorem kept_onDisk {p : FsIo α} (hp : Keeps (Stays Q) p) : Keeps (KeptBlocks Q) (onDisk p) :=
  fun S s => wp_zoom (wp_mono (hp S s.disk) fun _ _ h => ⟨List.Subset.refl _, h⟩)

theorem kept_modify {f : CafeShared → CafeShared} (hcounted : ∀ s, (f s).counted ⊆ s.counted)
    (hdisk : ∀ s, (f s).disk = s.disk) : Keeps (KeptBlocks Q) (modify f : CafeIo Unit) := fun _ s =>
  wp_modify ⟨hcounted s, by rw [hdisk]; exact Stays.frame.refl _⟩

theorem kept_forget : Keeps (KeptBlocks Q) (modify CafeShared.forget : CafeIo Unit) :=
  kept_modify (fun _ => List.nil_subset _) fun _ => rfl

/-- A step with this relation, whose next point is as `R` says. -/
theorem ensures_transact {R : CafeJob → Prop} {p : CafeIo α} {k : Except AnyError α → CafeJob}
    (hp : Keeps (KeptBlocks Q) p) (hk : ∀ r, R (k r)) :
      Ensures (KeptBlocks Q) R (transact p k) := fun S s =>
  wp_bind (wp_mono (hp.attempt S s) fun r _ h => by
    rcases r with e | a
    · exact ⟨h, by simp⟩
    · exact wp_pure ⟨h, fun j hj => Except.ok.inj hj ▸ hk a⟩)

theorem ensures_orEnd {R : CafeJob → Prop} {p : CafeIo α} {k : α → CafeJob}
    (hp : Keeps (KeptBlocks Q) p) (hk : ∀ a, R (k a)) (hend : ∀ r, R (.ended r)) :
    Ensures (KeptBlocks Q) R (CafeUpdate.orEnd p k) := fun S s =>
  wp_bind (wp_mono (hp.attempt S s) fun r s' h => by
    rcases r with e | e | a
    · exact ⟨h, by simp⟩
    · refine wp_bind (wp_mono (kept_forget (Q := Q) S s') fun r s'' h' => ?_)
      have hkept := KeptBlocks.frame.trans _ _ _ h h'
      rcases r with e' | u
      · exact ⟨hkept, by simp⟩
      · exact wp_pure ⟨hkept, fun j hj => Except.ok.inj hj ▸ hend _⟩
    · exact wp_pure ⟨h, fun j hj => Except.ok.inj hj ▸ hk a⟩)

theorem ensures_pure {R : CafeJob → Prop} {j : CafeJob} (hj : R j) :
    Ensures (KeptBlocks Q) R (pure j : CafeIo CafeJob) := fun _ s =>
  wp_pure ⟨KeptBlocks.frame.refl s, fun _ h => Except.ok.inj h ▸ hj⟩

end KeptBlocks

section Steps

variable (up : CafeUpdate) {Q : Place → Prop}

/-- No removal is next. -/
def Calm (j : CafeJob) : Prop := removal up j = none

variable {up}

/-- A step that neither counts nor follows from a block's age takes away nothing at a place in `Q`,
if what it could is elsewhere, and no removal is next. -/
theorem ensures_next {j : CafeJob} (haway : ∀ path ∈ takesAway up j, ¬ Q (resolve path))
    (hplain : match j with
      | .counting _ _ _ | .nextBlock _ _ _ _ | .removing _ _ _ _ _ => False
      | _ => True) : Ensures (KeptBlocks Q) (Calm up) (up.next j) := by
  cases j with
  | counting _ _ _ | nextBlock _ _ _ _ | removing _ _ _ _ _ => exact hplain.elim
  | cleaning =>
    refine fun S s => wp_bind (wp_get ?_)
    refine ensures_transact (kept_onDisk (Stays.frame.quiet quiet_pathExists)) (fun r => ?_) S s
    rcases r with e | _ | _ <;> exact rfl
  | listingRoot sweep =>
    refine ensures_transact (kept_onDisk (Stays.frame.quiet (quiet_readDir.onErr _))) fun r => ?_
    rcases r with e | names <;> exact rfl
  | nextGame sweep games =>
    rcases games with _ | ⟨game, games⟩
    · exact ensures_pure rfl
    · refine ensures_transact (kept_onDisk (Stays.frame.quiet quiet_isDir)) fun r => ?_
      rcases r with e | _ | _ <;> exact rfl
  | listingGame sweep game games =>
    refine ensures_transact (kept_onDisk (Stays.frame.quiet (quiet_readDir.onErr _))) fun r => ?_
    rcases r with e | names <;> exact rfl
  | swept result => exact ensures_pure rfl
  | ended result => exact ensures_pure rfl
  | preparing opened script =>
    exact ensures_orEnd (kept_onDisk (stays_prepare up opened)) (fun _ => rfl) fun _ => rfl
  | repairing cafe old temp entries repair script =>
    rcases entries with _ | ⟨entry, entries⟩
    · exact fun S s => wp_bind (wp_modify (wp_pure
        ⟨⟨List.filter_sublist.subset, Stays.frame.refl _⟩, by rintro j ⟨⟩; rfl⟩))
    · refine ensures_transact (kept_onDisk (Stays.frame.quiet quiet_isFile)) fun r => ?_
      rcases r with e | _ | _ <;> exact rfl
  | downloading ready script =>
    rcases script with ⟨_ | ⟨⟨hash, data⟩, chunks⟩, result⟩
    · refine ensures_orEnd ?_ (fun _ => rfl) fun _ => rfl
      rcases result with e | u
      · exact KeptBlocks.frame.stop _
      · exact KeptBlocks.frame.pure _
    · exact ensures_transact (kept_onDisk ((stays_writeFile data).onErr _)) fun _ => rfl
  | merging ready entries summary =>
    rcases entries with _ | ⟨entry, entries⟩
    · exact fun S s => wp_bind (wp_modify (wp_pure
        ⟨⟨List.nil_subset _, Stays.frame.refl _⟩, by rintro j ⟨⟩; rfl⟩))
    · refine ensures_transact (kept_onDisk (Stays.frame.quiet quiet_isFile)) fun r => ?_
      split_ifs <;> exact rfl
  | creating turn =>
    refine ensures_transact (kept_onDisk (stays_createNew up turn)) fun r => ?_
    rcases r with e | file <;> exact rfl
  | reading turn file chunks =>
    rcases chunks with _ | ⟨chunk, chunks⟩
    · exact ensures_pure rfl
    · refine ensures_transact (kept_onDisk (allowsReads_stays.chunkData _ _ _)) fun r => ?_
      rcases r with e | ⟨data, last⟩ <;> exact rfl
  | writing turn file data chunks =>
    refine ensures_transact
      (KeptBlocks.frame.seq (kept_onDisk (((stays_writeInto _ _).onErr _).onErr _))
      fun _ => kept_modify (fun _ => List.Subset.refl _) fun _ => rfl) fun r => ?_
    rcases r with e | u <;> exact rfl
  | replacing turn written =>
    refine ensures_transact
      (kept_onDisk (stays_replace up turn written (haway _ (by simp [takesAway]))
      (haway _ (by simp [takesAway])))) fun r => ?_
    rcases r with e | u <;> exact rfl
  | clearing turn err =>
    exact ensures_transact (kept_onDisk (stays_removeFile (haway _ (by simp [takesAway]))))
      fun _ => rfl
  | deleting ready names summary =>
    rcases names with _ | ⟨name, names⟩
    · exact ensures_pure rfl
    · refine ensures_orEnd (kept_onDisk (keeps_deleteFiles _ Stays.frame _ _ fun n hn => ?_))
        (fun _ => rfl) fun _ => rfl
      rw [List.mem_singleton.1 hn]
      exact stays_removeFile (haway _ (by simp [takesAway]))
  | saving ready summary =>
    unfold CafeUpdate.next
    dsimp only
    split_ifs
    · exact ensures_pure rfl
    · exact ensures_orEnd (kept_onDisk (stays_saveManifest _ _ _ _)) (fun _ => rfl) fun _ => rfl

/-- The place of a block that is counted at `s`. -/
def CountedAt (up : CafeUpdate) (s : CafeShared) (p : Place) : Prop :=
  ∃ h ∈ s.counted, p = resolve (tempBlock up.temp h)

theorem KeptBlocks.counted_present {s s' : CafeShared} (h : KeptBlocks (CountedAt up s) s s')
    (hs : CountedPresent up s) : CountedPresent up s' := fun hash hmem =>
  h.disk.pathExists ⟨hash, h.counted hmem, rfl⟩ (hs hash (h.counted hmem))

theorem KeptBlocks.atCounted {s s' : CafeShared} (h : KeptBlocks Q s s') {path : Path}
    (hat : AtCounted up s' path) : AtCounted up s path := by
  obtain ⟨hash, hmem, heq⟩ := hat
  exact ⟨hash, h.counted hmem, heq⟩

/-- The next point after a look at an age: a removal, if the entry is too old. -/
theorem wp_nextBlock (S : Fault AnyError → Prop) (s : CafeShared) (sweep : Sweep) (game : Name)
    (blocks games : List Name) (hage : ∀ block ∈ blocks.head?,
      AtCounted up s (up.blockPath game block) →
        sweep.now - s.modified (resolve (up.blockPath game block)) ≤ up.ttl) :
    wp S (up.next (.nextBlock sweep game blocks games)) s fun r s' => KeptBlocks Q s s'
      ∧ ∀ j, r = .ok j → ∀ path ∈ removal up j, ¬ AtCounted up s path := by
  have hcalm : ∀ {j : CafeJob}, Calm up j → ∀ path ∈ removal up j, ¬ AtCounted up s path :=
    fun hj path hr => by rw [hj] at hr; cases hr
  rcases blocks with _ | ⟨block, blocks⟩
  · exact wp_pure ⟨KeptBlocks.frame.refl s, by rintro j ⟨⟩; exact hcalm rfl⟩
  unfold CafeUpdate.next
  dsimp only
  split_ifs with hext
  · exact wp_pure ⟨KeptBlocks.frame.refl s, by rintro j ⟨⟩; exact hcalm rfl⟩
  refine wp_bind (wp_attempt (wp_onErr (wp_query ?_ (fun _ _ _ => ?_) fun _ _ => ?_)))
  · rcases hstat : s.disk.stat (up.blockPath game block) with e | node
    · exact wp_pure ⟨KeptBlocks.frame.refl s, by rintro j ⟨⟩; exact hcalm rfl⟩
    · refine wp_pure ⟨KeptBlocks.frame.refl s, ?_⟩
      rintro j ⟨⟩
      dsimp only
      split_ifs with hold
      · rintro path ⟨⟩ hat
        have := hage block rfl hat
        omega
      · exact hcalm rfl
  · exact wp_pure ⟨KeptBlocks.frame.refl s, by rintro j ⟨⟩; exact hcalm rfl⟩
  · exact ⟨KeptBlocks.frame.refl s, by simp⟩

theorem ensures_removing (sweep : Sweep) (game block : Name) (blocks games : List Name)
    (h : ¬ Q (resolve (up.blockPath game block))) :
    Ensures (KeptBlocks Q) (Calm up) (up.next (.removing sweep game block blocks games)) := by
  refine ensures_transact (kept_onDisk ((stays_removeFile h).onErr _)) fun r => ?_
  rcases r with e | u <;> exact rfl

/-- After the count, the blocks counted are those of the version that are there. -/
theorem wp_counting (S : Fault AnyError → Prop) (s : CafeShared) (cafe : CafeStore)
    (old : Option GameIndex) (script : Script) :
    wp S (up.next (.counting cafe old script)) s fun r s' => Stays (fun _ => True) s.disk s'.disk
      ∧ (s'.counted = s.counted ∨ ∀ h ∈ s'.counted, h ∈ up.index.chunkSet
        ∧ s'.disk.pathExists (tempBlock up.temp h) = true) ∧ ∀ j, r = .ok j → Calm up j := by
  have hhashes : wp S (onDisk (collectTempHashes up.temp)) s fun _ s' =>
      Stays (fun _ => True) s.disk s'.disk ∧ s'.counted = s.counted := by
    refine wp_zoom (wp_mono (quiet_collectTempHashes _ S s.disk) fun _ d hd => ?_)
    exact ⟨hd ▸ Stays.frame.refl _, rfl⟩
  refine wp_bind (wp_attempt (wp_bind (wp_mono hhashes fun r s' h => ?_)))
  obtain ⟨hdisk, hcounted⟩ := h
  rcases r with (e | _) | hashes
  · exact wp_bind (wp_modify (wp_pure ⟨hdisk, .inr (by simp [CafeShared.forget]),
      by rintro j ⟨⟩; rfl⟩))
  · exact ⟨hdisk, .inl hcounted, by simp⟩
  · refine wp_bind (wp_modify (wp_pure (wp_pure ⟨hdisk, .inr fun h hmem => ?_,
      by rintro j ⟨⟩; rfl⟩)))
    exact of_decide_eq_true (List.mem_filter.1 hmem).2

end Steps

section Run

variable {up : CafeUpdate}

/-- The counted blocks are there, and no cleanup is about to remove one. -/
structure Safe (up : CafeUpdate) (s : Jobs CafeShared CafeJob) : Prop where
  present : CountedPresent up s.shared
  apart : ∀ j ∈ s.jobs, ∀ path ∈ removal up j, ¬ AtCounted up s.shared path

/-- What a step of a job leaves to the other jobs, and where it leads. -/
structure SafeAfter (up : CafeUpdate) (s : Jobs CafeShared CafeJob)
    (r : Except (Stop AnyError) CafeJob) (s' : CafeShared) : Prop where
  present : CountedPresent up s'
  others : ∀ j ∈ s.jobs, ∀ path ∈ removal up j, ¬ AtCounted up s' path
  next : ∀ j, r = .ok j → ∀ path ∈ removal up j, ¬ AtCounted up s' path

variable {s : Jobs CafeShared CafeJob} {S : Fault AnyError → Prop}

theorem Safe.after (hs : Safe up s) {r : Except (Stop AnyError) CafeJob} {s' : CafeShared}
    (h : KeptBlocks (CountedAt up s.shared) s.shared s')
    (hnext : ∀ j, r = .ok j → ∀ path ∈ removal up j, ¬ AtCounted up s.shared path) :
    SafeAfter up s r s' where
  present := h.counted_present hs.present
  others j hj path hr hat := hs.apart j hj path hr (h.atCounted hat)
  next j hj path hr hat := hnext j hj path hr (h.atCounted hat)

theorem Safe.wp_ensures (hs : Safe up s) {p : CafeIo CafeJob}
    (h : Ensures (KeptBlocks (CountedAt up s.shared)) (Calm up) p) :
    wp S p s.shared fun r s' => SafeAfter up s r s' :=
  wp_mono (h S s.shared) fun _ _ h => hs.after h.1 fun j hj path hr => by
    rw [h.2 j hj] at hr; cases hr

/-- Each step keeps the counted blocks. -/
theorem Safe.wp_next (hs : Safe up s) {j : CafeJob} (hj : j ∈ s.jobs) (hspare : StepSpares up s j) :
    wp S (up.next j) s.shared fun r s' => SafeAfter up s r s' := by
  cases j with
  | counting cafe old script =>
    refine wp_mono (wp_counting S s.shared cafe old script) fun r s' h => ?_
    obtain ⟨hdisk, hcounted | hcounted, hcalm⟩ := h
    · exact hs.after ⟨hcounted ▸ List.Subset.refl _, hdisk.mono fun _ _ => trivial⟩
        fun j hj path hr => by rw [hcalm j hj] at hr; cases hr
    · refine ⟨fun h hmem => (hcounted h hmem).2, fun j hj path hr hat => ?_,
        fun j hj path hr => by rw [hcalm j hj] at hr; cases hr⟩
      obtain ⟨h, hmem, heq⟩ := hat
      exact hspare j hj path hr h (hcounted h hmem).1 heq
  | nextBlock sweep game blocks games =>
    refine wp_mono (wp_nextBlock S s.shared sweep game blocks games ?_) fun r s' h =>
      hs.after h.1 h.2
    rcases blocks with _ | ⟨block, blocks⟩
    · simp
    · rintro b ⟨⟩
      exact hspare
  | removing sweep game block blocks games =>
    exact hs.wp_ensures (ensures_removing sweep game block blocks games (hs.apart _ hj _ rfl))
  | cleaning | listingRoot _ | nextGame _ _ | listingGame _ _ _ | swept _ | preparing _ _
  | repairing _ _ _ _ _ _ | downloading _ _ | merging _ _ _ | creating _ | reading _ _ _
  | writing _ _ _ _ | replacing _ _ | clearing _ _ | deleting _ _ _ | saving _ _ | ended _ =>
    exact hs.wp_ensures (ensures_next hspare trivial)

theorem Safe.apply (hs : Safe up s) {m : Move AnyError Unit ℕ} (hm : Spares up s m) :
    Safe up (up.system.apply s m) := by
  have hdead : ∀ s : CafeShared, Safe up ⟨s.forget, []⟩ := fun s =>
    ⟨fun _ hmem => absurd hmem List.not_mem_nil, fun _ hj => absurd hj List.not_mem_nil⟩
  cases m with
  | start r =>
    refine ⟨hs.present, fun j hj path hr => ?_⟩
    rcases List.mem_append.1 hj with hj | hj
    · exact hs.apart j hj path hr
    · rw [List.mem_singleton.1 hj] at hr
      cases hr
  | env time => exact ⟨hs.present, hs.apart⟩
  | crash => exact hdead _
  | go i faults =>
    rcases hj : s.jobs[i]? with _ | j
    · simpa only [JobSystem.apply, hj] using hs
    have hstep := hs.wp_next (S := fun _ => True) (List.mem_of_getElem? hj) (hm j hj) faults
      fun _ _ => trivial
    simp only [JobSystem.apply, hj]
    rw [show up.system.next i j = up.next j from rfl]
    rcases hr : (up.next j).run ⟨s.shared, faults⟩ with ⟨(e | _) | j', w⟩ <;> rw [hr] at hstep
    · exact ⟨hstep.present, hstep.others⟩
    · exact hdead _
    · refine ⟨hstep.present, fun j₀ hj₀ path hremove => ?_⟩
      rcases List.mem_or_eq_of_mem_set hj₀ with hj₀ | rfl
      · exact hstep.others j₀ hj₀ path hremove
      · exact hstep.next _ rfl path hremove

theorem Safe.run : ∀ (moves : List (Move AnyError Unit ℕ)) (s : Jobs CafeShared CafeJob),
    Safe up s → up.system.Along (Spares up) s moves → Safe up (up.system.run s moves)
  | [], _, hs, _ => hs
  | _ :: moves, _, hs, h => Safe.run moves _ (hs.apply h.1) h.2

/-- Throughout a run of the update beside any number of cleanups, in which no cleanup finds a
counted block older than the ttl, or has found it so before the count, and no file name leads the
update itself to one, every block that the plan has counted as present is there until the merge has
read what it reads. -/
theorem cafeRun_countedPresent (up : CafeUpdate) (shared : CafeShared) (hnew : shared.counted = [])
    (opened : Option CafeStore) (script : Script) (moves : List (Move AnyError Unit ℕ))
    (hspares : up.system.Along (Spares up) ⟨shared, [.preparing opened script]⟩ moves) (n : ℕ) :
    CountedPresent up
      (up.system.run ⟨shared, [.preparing opened script]⟩ (moves.take n)).shared := by
  have hstart : Safe up ⟨shared, [.preparing opened script]⟩ := by
    refine ⟨fun h hmem => ?_, fun j hj path hr => ?_⟩
    · rw [hnew] at hmem
      cases hmem
    · rw [List.mem_singleton.1 hj] at hr
      cases hr
  rw [← List.take_append_drop n moves, JobSystem.along_append] at hspares
  exact (hstart.run _ _ hspares.1).present

section Example

/-- The old `a.bin` with one more chunk. -/
def longerA : GameIndex :=
  ⟨1, [⟨"a.bin", .fill 2, [⟨.fill 0, 3⟩, ⟨.fill 1, 2⟩]⟩], .fill 0⟩

/-- An update to it, at a cafe that keeps blocks for a day. -/
def updateA : CafeUpdate :=
  ⟨fun b => if b = [1, 2, 3, 8, 9] then .fill 2 else .fill 0, components "/data", 1, 2, longerA,
    longerA.encode, .same, 24⟩

/-- The old version is in place, and a block from hour 0 is left of an earlier download. -/
def cafeWithBlock (clock : ℕ) : CafeShared where
  disk := .ofList <|
    ["", "data", "data/games", "data/games/1", "data/.blazenet", "data/.blazenet/temp",
      "data/.blazenet/temp/1", "data/.blazenet/manifests", "data/.blazenet/manifests/1"].map
        (fun dir => (resolve (components dir), .dir))
    ++ [(resolve (components "data/games/1/a.bin"), .file [1, 2, 3]),
      (resolve (tempBlock updateA.temp (.fill 1)), .file [8, 9]),
      (resolve (components "data/.blazenet/manifests/1/current.version"), .file (nameBytes "1")),
      (resolve (components "data/.blazenet/manifests/1/1.gameindex"),
        .file (versionOf "a.bin").encode)]
  modified _ := 0
  clock := clock
  counted := []

/-- The update plans, a cleanup runs through, and the update goes on to its end. -/
def cleanedUpdate : List (Move AnyError Unit ℕ) :=
  List.replicate 4 (.go 0 []) ++ .start () :: List.replicate 6 (.go 1 [])
    ++ List.replicate 10 (.go 0 [])

/-- The state after the first `n` moves, with the update begun in hour `clock`. -/
def afterMoves (clock n : ℕ) : Jobs CafeShared CafeJob :=
  updateA.system.run ⟨cafeWithBlock clock, [.preparing none ⟨[], .ok ()⟩]⟩ (cleanedUpdate.take n)

/-- The chunk that an update is about to read. -/
def nextRead : CafeJob → Option Hash
  | .reading _ _ (chunk :: _) => some chunk.hash
  | _ => none

def outcome : CafeJob → Option (Except AnyError Unit)
  | .ended result => some result
  | _ => none

theorem cafeRun_countedPresent_young : CountedPresent updateA (afterMoves 20 16).shared
    ∧ (afterMoves 20 16).shared.counted = [.fill 1] :=
  ⟨cafeRun_countedPresent updateA (cafeWithBlock 20) rfl none ⟨[], .ok ()⟩ cleanedUpdate
    (by decide +kernel) 16, by decide +kernel⟩

/-- The block is there when the plan counts it and gone when the merge comes to read it. -/
theorem cafeRun_cleansCounted :
    (afterMoves 30 4).shared.counted = [.fill 1]
      ∧ CountedPresent updateA (afterMoves 30 4).shared
      ∧ (afterMoves 30 16).jobs[0]?.bind nextRead = some (.fill 1)
      ∧ (afterMoves 30 16).shared.counted = [.fill 1]
      ∧ ¬ CountedPresent updateA (afterMoves 30 16).shared
      ∧ (afterMoves 30 21).jobs[0]?.bind outcome
        = some (.error (.msg "合并失败: a.bin: 读取临时块失败")) := by
  refine ⟨by decide +kernel, by unfold CountedPresent; decide +kernel, by decide +kernel,
    by decide +kernel, by unfold CountedPresent; decide +kernel, by decide +kernel⟩

end Example

end Run

end BlazeNet

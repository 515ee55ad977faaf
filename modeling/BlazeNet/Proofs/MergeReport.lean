import BlazeNet.Proofs.Merge
import BlazeNet.Proofs.WriteFaults

/-!
# What a merge reports is so

A new file takes its target's place only if its bytes hash to what the entry says, wherever its
chunks came from; else the target keeps its content. Names that are apart keep the turns of the loop
from each other, so at its end every entry is as its turn left it and the counts are those of the
turns.
-/

namespace BlazeNet

open Wire FaultIo Io RustStd UnixFs

section Names

namespace MergeNames

variable {old new : List FileEntry} (h : MergeNames old new) {f f' : FileEntry}
include h

theorem targetOf_inj (g : Place) (hf : f ∈ old ++ new) (hf' : f' ∈ old ++ new)
    (hne : f.name ≠ f'.name) : targetOf g f ≠ targetOf g f' := fun he =>
  hne ((h.normal f hf).eq_of_placeOf (h.normal f' hf') (List.append_cancel_left he))

theorem newOf_ne (g : Place) (hf : f ∈ new) (hf' : f' ∈ old ++ new) :
    newOf (targetOf g f) ≠ targetOf g f' := fun he => by
  rw [targetOf, newOf_append (h.normal f (List.mem_append_right _ hf)).plain.ne_nil] at he
  exact h.newApart f hf f' hf' (List.append_cancel_left he)

end MergeNames

theorem join_targetOf {g : Place} {f : FileEntry} (h : NormalName f.name) :
    join (ofPlace g) f.name = ofPlace (targetOf g f) := h.plain.join_eq

theorem resolve_target {g : Place} {f : FileEntry} (h : NormalName f.name) :
    resolve (join (ofPlace g) f.name) = targetOf g f := by
  rw [join_targetOf h, resolve_ofPlace]

theorem resolve_newPath {g : Place} {f : FileEntry} (h : NormalName f.name) :
    resolve (newPathOf (join (ofPlace g) f.name)) = newOf (targetOf g f) := by
  rw [join_targetOf h, newPathOf_ofPlace, resolve_ofPlace]

theorem MergeNames.apart {old new : List FileEntry} (h : MergeNames old new) {entry : FileEntry}
    (he : entry ∈ new) (g : Place) : NamesApart (ofPlace g) entry (old ++ new) := by
  have hn := h.normal entry (List.mem_append_right _ he)
  refine ⟨?_, fun f hf => ?_⟩
  · rw [resolve_newPath hn, resolve_target hn]
    exact h.newOf_ne g he (List.mem_append_right _ he)
  · rw [resolve_newPath hn, resolve_target (h.normal f hf)]
    exact (h.newOf_ne g he hf).symm

end Names

section Assemble

variable {S : Fault AnyError → Prop} {d : Disk}

/-- Reading a chunk changes no file. -/
theorem within_chunkData (src : Sources) (last : Option (Path × Place)) (hash : Hash) :
    Keeps (UnixFs.Within fun _ => False) (src.chunkData last hash) := by
  have hreads : AllowsReads (UnixFs.Within fun _ => False) :=
    ⟨UnixFs.Within.frame, fun _ => within_openFile, fun _ => within_readFile⟩
  exact hreads.chunkData src last hash

/-- The new file holds what the loop has read. -/
theorem wpOk_writeChunks (src : Sources) (out : Place) : ∀ (chunks : List ChunkMeta)
    (last : Option (Path × Place)) {written : Bytes} {d : Disk}, d.content out = some written →
    wpOk S (src.writeChunks out chunks last written) d fun data d' => d'.content out = some data
  | [], _, _, _, hc => wpOk.pure hc
  | chunk :: chunks, last, written, d, hc => by
    refine wpOk.bind (within_chunkData src last chunk.hash).wpOk fun ⟨data, last'⟩ d₁ h₁ => ?_
    have hc₁ : d₁.content out = some written := (h₁.content out id).trans hc
    refine wpOk.bind (wpOk_writeInto hc₁ data written.length).onErr.onErr fun _ d₂ h₂ => ?_
    have hdata : pwrite written written.length data = written ++ data := by
      rw [pwrite_of_le le_rfl, List.take_length, List.drop_eq_nil_of_le (Nat.le_add_right _ _),
        List.append_nil]
    exact wpOk_writeChunks src out chunks last' (hdata ▸ h₂)

variable (blake3 : Bytes → Hash) (gameDir tempDir : Path) (entry : FileEntry)
  (oldChunks : Option (List (Hash × ℕ × UInt32))) (oldFile : Option Path)
  (globalChunks : ChunkLocation)

theorem wpOk_dropNew (newPath : Path) {Q : Unit → Disk → Prop} : wpOk S (dropNew newPath) d Q := by
  have hany : ∀ {α : Type} (p : FsIo α) d', wpOk S p d' fun _ _ => True :=
    fun _ _ _ _ _ _ => trivial
  exact (hany _ _).bind fun _ _ _ => (hany _ _).bind fun _ _ _ => wpOk.stop _

/-- A new file that is complete has the hash of its entry. -/
theorem wpOk_assembleNew :
    wpOk S (assembleNew blake3 gameDir tempDir entry oldChunks oldFile globalChunks) d fun _ d' =>
      ∃ data, blake3 data = entry.fileHash
        ∧ d'.content (resolve (newPathOf (join gameDir entry.name))) = some data := by
  unfold assembleNew
  dsimp only
  rcases parent (newPathOf (join gameDir entry.name)) with _ | up
  · exact wpOk.stop _
  have hmk : wpOk S (context "创建父目录失败" (createDirAll up)) d fun _ _ => True :=
    fun _ _ _ _ => trivial
  refine hmk.bind fun _ d₁ _ => wpOk_createFile.onErr.onErr.bind fun out d₂ h₂ => ?_
  obtain ⟨rfl, hc₂⟩ := h₂
  have hreads : AllowsReads (UnixFs.Within fun _ => False) :=
    ⟨UnixFs.Within.frame, fun _ => within_openFile, fun _ => within_readFile⟩
  refine (hreads.openOld oldFile).wpOk.bind fun oldHandle d₃ h₃ => ?_
  have hc₃ := (h₃.content _ id).trans hc₂
  refine (wpOk_writeChunks _ _ entry.chunks none hc₃).bind fun data d₄ hc₄ => ?_
  split_ifs with hhash
  · exact wpOk_dropNew _
  · have hquiet : Quiet (do
        context "同步临时文件失败" syncWriter
        context "关闭临时文件失败" closeWriter) :=
      Quiet.bind (quiet_context quiet_syncWriter) fun _ => quiet_context quiet_closeWriter
    exact wp_mono (hquiet S d₄) fun r d₅ h₅ u _ => ⟨data, not_not.1 hhash, h₅ ▸ hc₄⟩

variable {gameDir entry}

/-- So has a target that is replaced. -/
theorem wpOk_writeNewFile (hne : resolve (newPathOf (join gameDir entry.name))
      ≠ resolve (join gameDir entry.name)) :
    wpOk S (writeNewFile blake3 gameDir tempDir entry oldChunks oldFile globalChunks) d fun _ d' =>
      ∃ data, blake3 data = entry.fileHash
        ∧ d'.content (resolve (join gameDir entry.name)) = some data := by
  rw [writeNewFile_eq, prepareTarget, bind_assoc]
  refine (wpOk_assembleNew blake3 gameDir tempDir entry oldChunks oldFile
    globalChunks).bind fun _ d₁ ⟨data, hhash, hc₁⟩ => ?_
  have hremove : Keeps (UnixFs.Within (· = resolve (join gameDir entry.name)))
      (removeOld (join gameDir entry.name)) :=
        keeps_removeOld UnixFs.Within.frame (within_removeFile rfl)
  refine hremove.wpOk.bind fun _ d₂ h₂ => ?_
  have hc₂ := (h₂.content _ hne).trans hc₁
  exact wp_mono (wpOk_renameFile hc₂).onErr fun r d₃ h₃ u hu => ⟨data, hhash, h₃ u hu⟩

end Assemble

section Report

variable (blake3 : Bytes → Hash) (g : Place) (old new : List FileEntry)

instance (d : Disk) (entry : FileEntry) : Decidable (Wanting d g old entry) := by
  unfold Wanting
  infer_instance

/-- How the turn of an entry ended: merged, or failed with an error. -/
def EntrySettled (entry : FileEntry) (d d' : Disk) : Option AnyError → Prop
  | none => ∃ data, blake3 data = entry.fileHash ∧ d'.content (targetOf g entry) = some data
  | some _ => d'.content (targetOf g entry) = d.content (targetOf g entry)

/-- The counts of a merge after one more turn. -/
def MergeSummary.settle (summary : MergeSummary) (entry : FileEntry) :
    Option AnyError → MergeSummary
  | none => { summary with merged := summary.merged + 1 }
  | some err => { summary with failed := summary.failed ++ [entry.name ++ ": " ++ err.display] }

/-- A merge did what its summary says. -/
structure Reported (d d' : Disk) (summary : MergeSummary) : Prop where
  outcomes : ∃ outcomes : List (FileEntry × Option AnyError),
    outcomes.map (·.1) = new.filter (Wanting d g old)
    ∧ (∀ o ∈ outcomes, EntrySettled blake3 g o.1 d d' o.2)
    ∧ summary.merged = (outcomes.filter (·.2.isNone)).length
    ∧ summary.failed = outcomes.filterMap fun o => o.2.map fun err =>
        o.1.name ++ ": " ++ err.display
  counted : summary.merged + summary.failed.length = (new.filter (Wanting d g old)).length
  untouched : ∀ f ∈ new, ¬ Wanting d g old f →
    d'.content (targetOf g f) = d.content (targetOf g f)
  gone : ∀ f ∈ old, f.name ∉ new.map (·.name) → d'.node (targetOf g f) = none
  deleted : summary.deleted = (old.filter fun f =>
    f.name ∉ new.map (·.name) ∧ (d.content (targetOf g f)).isSome).length

end Report

section Turn

variable {blake3 : Bytes → Hash} {g : Place} {tempDir : Path} {old new : List FileEntry}
  {entry : FileEntry} {w w' : World AnyError Disk} {summary summary' : MergeSummary}

theorem needMerge_iff {b : Bool} :
    needMerge old entry b = true ↔ NeedsMerge old entry ∨ b = false := by
  unfold needMerge NeedsMerge
  rcases getFile old entry.name with _ | f <;> simp

/-- The two places of an entry. -/
theorem within_mergeEntry (hn : NormalName entry.name)
    (h : (mergeEntry blake3 (ofPlace g) tempDir old summary entry).run w = (.ok summary', w')) :
    UnixFs.Within (fun p => p = newOf (targetOf g entry) ∨ p = targetOf g entry) w.state
      w'.state := by
  have hmerge : AllowsMerge
    (UnixFs.Within fun p => p = newOf (targetOf g entry) ∨ p = targetOf g entry)
      (join (ofPlace g) entry.name) :=
    allowsMerge_within (.inl (resolve_newPath hn)) (.inr (resolve_target hn))
  have := (hmerge.mergeEntry blake3 (ofPlace g) tempDir old summary).run w.state w.faults
  rwa [h] at this

/-- A write whose rename does not fail settles its entry. -/
theorem settled_writeOrClean (hn : NormalName entry.name)
    {oldChunks : Option (List (Hash × ℕ × UInt32))} {oldFile : Option Path}
    {globalChunks : ChunkLocation} (hapart : NamesApart (ofPlace g) entry (old ++ new))
    (hsafe : RenameSafe blake3 (ofPlace g) tempDir entry oldChunks oldFile globalChunks w.state
      w.faults) {r : Except AnyError Unit}
    (h : (writeOrClean blake3 (ofPlace g) tempDir entry oldChunks oldFile globalChunks).run w
      = (.ok r, w')) :
    EntrySettled blake3 g entry w.state w'.state (match r with
      | .ok _ => none
      | .error err => some err) := by
  obtain ⟨r', w₁, hwrite, hrest⟩ := run_bind_ok h
  rw [run_attempt] at hwrite
  rcases hrun : (writeNewFile blake3 (ofPlace g) tempDir entry oldChunks oldFile globalChunks).run w
    with ⟨(e | _) | u, w₂⟩ <;> rw [hrun] at hwrite
  · -- the cleanup leaves the target
    obtain ⟨rfl, rfl⟩ : .error e = r' ∧ w₂ = w₁ := by simpa using hwrite
    obtain ⟨_, w₃, hclean, hpure⟩ := run_bind_ok hrest
    obtain ⟨rfl, rfl⟩ : .error e = r ∧ w₃ = w' := by
      have : ((.ok (.error e), w₃) : Except (Stop AnyError) (Except AnyError Unit) × _)
        = (.ok r, w') := hpure
      simpa using this
    have hkept := hapart.content_clean hrun
    rw [h, resolve_target hn] at hkept
    rw [EntrySettled, hkept, ← resolve_target hn]
    exact (hapart.content_target_iff hrun).2 hsafe
  · cases hwrite
  · obtain ⟨rfl, rfl⟩ : .ok u = r' ∧ w₂ = w₁ := by simpa using hwrite
    obtain ⟨rfl, rfl⟩ : .ok u = r ∧ w₂ = w' := by
      have : ((.ok (.ok u), w₂) : Except (Stop AnyError) (Except AnyError Unit) × _)
          = (.ok r, w') :=
        hrest
      simpa using this
    obtain ⟨data, hhash, hc⟩ := (wpOk_writeNewFile blake3 tempDir oldChunks oldFile globalChunks
      hapart.own).run hrun
    exact ⟨data, hhash, resolve_target hn ▸ hc⟩

/-- What the turn of an entry does and reports. -/
theorem settled_mergeEntry (hnames : MergeNames old new) (he : entry ∈ new) (hd : w.state.Wf)
    (hcalm : CalmEntry blake3 (ofPlace g) tempDir old entry w)
    (h : (mergeEntry blake3 (ofPlace g) tempDir old summary entry).run w = (.ok summary', w')) :
    if Wanting w.state g old entry then
      ∃ outcome, EntrySettled blake3 g entry w.state w'.state outcome
        ∧ summary' = summary.settle entry outcome
    else w'.state = w.state ∧ summary' = summary := by
  have hn := hnames.normal entry (List.mem_append_right _ he)
  rw [mergeEntry_eq] at h
  obtain ⟨b, w₁, hfile, h⟩ := run_bind_ok h
  obtain ⟨hb, hcalm⟩ : b = w.state.isFile (join (ofPlace g) entry.name) ∧ _ := by
    simpa [CalmEntry, hfile] using hcalm
  have hw₁ : w₁.state = w.state := quiet_isFile.state_run hfile
  rw [join_targetOf hn, hd.isFile_ofPlace] at hb
  have hwant : Wanting w.state g old entry ↔ needMerge old entry b = true := by
    rw [Wanting, needMerge_iff, hb, Option.isSome_eq_false_iff, Option.isNone_iff_eq_none]
  simp only [hwant]
  cases hneed : needMerge old entry b
  · rw [hneed] at h
    obtain ⟨rfl, rfl⟩ : summary = summary' ∧ w₁ = w' := by
      have : ((.ok summary, w₁) : Except (Stop AnyError) MergeSummary × _) = (.ok summary', w') := h
      simpa using this
    simpa using hw₁
  · rw [hneed] at h
    obtain ⟨r, w₂, hwrite, h⟩ := run_bind_ok h
    have hsettled := settled_writeOrClean hn (hnames.apart he g)
      (fun w₃ hw₃ _ => hcalm hneed w₃ hw₃) hwrite
    rw [hw₁] at hsettled
    rw [if_pos rfl]
    rcases r with err | _
    · obtain ⟨rfl, rfl⟩ : summary.settle entry (some err) = summary' ∧ w₂ = w' := by
        have : ((.ok (summary.settle entry (some err)), w₂) :
          Except (Stop AnyError) MergeSummary × _)
          = (.ok summary', w') := h
        simpa using this
      exact ⟨some err, hsettled, rfl⟩
    · obtain ⟨rfl, rfl⟩ : summary.settle entry none = summary' ∧ w₂ = w' := by
        have : ((.ok (summary.settle entry none), w₂) : Except (Stop AnyError) MergeSummary × _)
          = (.ok summary', w') := h
        simpa using this
      exact ⟨none, hsettled, rfl⟩

end Turn

section Loop

variable {blake3 : Bytes → Hash} {g : Place} {tempDir : Path} {old new : List FileEntry}

/-- The places that the turns of these entries can change. -/
def TurnPlace (d : Disk) (g : Place) (old entries : List FileEntry) (p : Place) : Prop :=
  ∃ f ∈ entries, Wanting d g old f ∧ (p = newOf (targetOf g f) ∨ p = targetOf g f)

theorem Wanting.congr {d d' : Disk} {f : FileEntry}
    (h : d'.content (targetOf g f) = d.content (targetOf g f)) :
    Wanting d' g old f ↔ Wanting d g old f := by rw [Wanting, Wanting, h]

theorem EntrySettled.congr {d d₁ d' d'' : Disk} {f : FileEntry} {outcome : Option AnyError}
    (h : EntrySettled blake3 g f d d' outcome)
    (hd : d.content (targetOf g f) = d₁.content (targetOf g f))
    (hd' : d''.content (targetOf g f) = d'.content (targetOf g f)) :
    EntrySettled blake3 g f d₁ d'' outcome := by
  cases outcome with
  | none =>
    obtain ⟨data, hhash, hc⟩ := h
    exact ⟨data, hhash, hd'.trans hc⟩
  | some err => exact hd'.trans (h.trans hd)

/-- The turn of one entry, with what it can change. -/
theorem turn_mergeEntry {entry : FileEntry} {w w' : World AnyError Disk}
    {summary summary' : MergeSummary} (hnames : MergeNames old new) (he : entry ∈ new)
    (hd : w.state.Wf) (hcalm : CalmEntry blake3 (ofPlace g) tempDir old entry w)
    (h : (mergeEntry blake3 (ofPlace g) tempDir old summary entry).run w = (.ok summary', w')) :
    ∃ outcomes : List (FileEntry × Option AnyError),
      outcomes.map (·.1) = [entry].filter (Wanting w.state g old)
      ∧ (∀ o ∈ outcomes, EntrySettled blake3 g o.1 w.state w'.state o.2)
      ∧ summary' = outcomes.foldl (fun s o => s.settle o.1 o.2) summary
      ∧ UnixFs.Within (TurnPlace w.state g old [entry]) w.state w'.state := by
  have hturn := settled_mergeEntry hnames he hd hcalm h
  split_ifs at hturn with hwant
  · obtain ⟨outcome, hsettled, rfl⟩ := hturn
    refine ⟨[(entry, outcome)], by simp [hwant], by simpa using hsettled, rfl, ?_⟩
    have hnormal := hnames.normal entry (List.mem_append_right _ he)
    refine (within_mergeEntry hnormal h).mono fun p hp => ?_
    exact ⟨entry, List.mem_singleton_self _, hwant, hp⟩
  · obtain ⟨hsame, rfl⟩ := hturn
    exact ⟨[], by simp [hwant], by simp, rfl, hsame ▸ UnixFs.Within.refl _⟩

/-- The turns of the loop leave each other's entries alone, so each is in the end as its own turn
left it. -/
theorem report_mergeEntries (hnames : MergeNames old new) : ∀ (entries : List FileEntry)
    {summary summary' : MergeSummary} {w w' : World AnyError Disk}, (∀ f ∈ entries, f ∈ new) →
    (entries.map (·.name)).Nodup → w.state.Wf →
    CalmEntries blake3 (ofPlace g) tempDir old entries summary w →
    (mergeEntries blake3 (ofPlace g) tempDir old entries summary).run w = (.ok summary', w') →
    ∃ outcomes : List (FileEntry × Option AnyError),
      outcomes.map (·.1) = entries.filter (Wanting w.state g old)
      ∧ (∀ o ∈ outcomes, EntrySettled blake3 g o.1 w.state w'.state o.2)
      ∧ summary' = outcomes.foldl (fun s o => s.settle o.1 o.2) summary
      ∧ UnixFs.Within (TurnPlace w.state g old entries) w.state w'.state
  | [], summary, summary', w, w', _, _, _, _, h => by
    obtain ⟨rfl, rfl⟩ : summary = summary' ∧ w = w' := by
      have : ((.ok summary, w) : Except (Stop AnyError) MergeSummary × _) = (.ok summary', w') := h
      simpa using this
    exact ⟨[], rfl, by simp, rfl, UnixFs.Within.refl _⟩
  | entry :: entries, summary, summary', w, w', hmem, hnodup, hd, hcalm, h => by
    obtain ⟨hcalm₁, hcalms⟩ := hcalm
    obtain ⟨s₁, w₁, hentry, hrest⟩ := run_bind_ok h
    have he := hmem entry List.mem_cons_self
    have hfs : ∀ f ∈ entries, f ∈ new := fun f hf => hmem f (List.mem_cons_of_mem _ hf)
    obtain ⟨hfresh, hnodup'⟩ := List.nodup_cons.1 hnodup
    have hother : ∀ f ∈ entries, f.name ≠ entry.name := fun f hf hn =>
      hfresh (List.mem_map.2 ⟨f, hf, hn⟩)
    obtain ⟨out₁, hmap₁, hset₁, rfl, hwithin₁⟩ := turn_mergeEntry hnames he hd hcalm₁ hentry
    obtain ⟨out₂, hmap₂, hset₂, rfl, hwithin₂⟩ := report_mergeEntries hnames entries hfs hnodup'
      (hwithin₁.wf hd) (hcalms _ _ hentry) hrest
    -- the entries to come are as before, and this one as its turn left it
    have hkept₁ : ∀ f ∈ entries,
        w₁.state.content (targetOf g f) = w.state.content (targetOf g f) := by
      intro f hf
      refine hwithin₁.content _ ?_
      rintro ⟨e, hmem', -, hp | hp⟩ <;> obtain rfl := List.mem_singleton.1 hmem'
      · exact hnames.newOf_ne g he (List.mem_append_right _ (hfs f hf)) hp.symm
      · exact hnames.targetOf_inj g (List.mem_append_right _ (hfs f hf))
          (List.mem_append_right _ he) (hother f hf) hp
    have hkept₂ : w'.state.content (targetOf g entry) = w₁.state.content (targetOf g entry) := by
      refine hwithin₂.content _ ?_
      rintro ⟨f, hf, -, hp | hp⟩
      · exact hnames.newOf_ne g (hfs f hf) (List.mem_append_right _ he) hp.symm
      · exact hnames.targetOf_inj g (List.mem_append_right _ he)
          (List.mem_append_right _ (hfs f hf)) (hother f hf).symm hp
    have hwant : ∀ f ∈ entries, Wanting w₁.state g old f ↔ Wanting w.state g old f :=
      fun f hf => Wanting.congr (hkept₁ f hf)
    refine ⟨out₁ ++ out₂, ?_, fun o ho => ?_, by rw [List.foldl_append], ?_⟩
    · have hrest : entries.filter (Wanting w₁.state g old)
          = entries.filter (Wanting w.state g old) :=
        List.filter_congr fun f hf => decide_eq_decide.2 (hwant f hf)
      rw [List.map_append, hmap₁, hmap₂, hrest, ← List.filter_append]
      rfl
    · rcases List.mem_append.1 ho with ho | ho
      · obtain rfl : entry = o.1 := by
          have := List.mem_filter.1 (hmap₁ ▸ List.mem_map_of_mem ho : o.1 ∈ _)
          simpa [eq_comm] using this.1
        exact (hset₁ o ho).congr rfl hkept₂
      · have hmem' : o.1 ∈ entries :=
          (List.mem_filter.1 (hmap₂ ▸ List.mem_map_of_mem ho : o.1 ∈ _)).1
        exact (hset₂ o ho).congr (hkept₁ o.1 hmem') rfl
    · refine UnixFs.Within.frame.trans _ _ _ (hwithin₁.mono ?_) (hwithin₂.mono ?_)
      · rintro p ⟨f, hf, hw⟩
        exact ⟨f, List.mem_cons.2 (.inl (List.mem_singleton.1 hf)), hw⟩
      · rintro p ⟨f, hf, hw, hp⟩
        exact ⟨f, List.mem_cons_of_mem _ hf, (hwant f hf).1 hw, hp⟩

end Loop

section Delete

variable {g : Place}

/-- What one deletion does: it was a file and is gone. -/
theorem delete_one {name : String} (hn : NormalName name) {w w' : World AnyError Disk}
    (h : (context "删除文件失败" (removeFile (join (ofPlace g) name)) : FsIo Unit).run w
      = (.ok (), w')) (hd : w.state.Wf) :
    w'.state.Wf ∧ (w.state.content (g ++ placeOf name)).isSome
      ∧ ∀ p, w'.state.node p = if p = g ++ placeOf name then none else w.state.node p := by
  have hplace : resolve (join (ofPlace g) name) = g ++ placeOf name := by
    rw [hn.plain.join_eq, resolve_ofPlace]
  have hwithin : Keeps (UnixFs.Within fun _ => True)
      (context "删除文件失败" (removeFile (join (ofPlace g) name)) : FsIo Unit) :=
    (within_removeFile trivial).onErr _
  have hwf := (hwithin.run w.state w.faults).wf hd
  rw [h] at hwf
  have hremove : wpOk (fun _ => True)
      (context "删除文件失败" (removeFile (join (ofPlace g) name)) : FsIo Unit) w.state fun _ d' =>
        (w.state.content (resolve (join (ofPlace g) name))).isSome
          ∧ ∀ q, d'.node q = if q = resolve (join (ofPlace g) name) then none else w.state.node q :=
    wpOk_removeFile.onErr
  rw [hplace] at hremove
  exact ⟨hwf, hremove.run h⟩

/-- The names are gone, each counted if there was a file. -/
theorem report_deleteFiles : ∀ (names : List String) {summary summary' : MergeSummary}
    {w w' : World AnyError Disk}, (∀ n ∈ names, NormalName n) → names.Nodup → w.state.Wf →
    CalmDeletes (ofPlace g) names w →
    (deleteFiles (ofPlace g) names summary).run w = (.ok summary', w') →
    summary' = { summary with deleted := summary.deleted
        + (names.filter fun n => (w.state.content (g ++ placeOf n)).isSome).length }
      ∧ ∀ p, w'.state.node p
        = if p ∈ names.map (fun n => g ++ placeOf n) then none else w.state.node p
  | [], summary, summary', w, w', _, _, _, _, h => by
    obtain ⟨rfl, rfl⟩ : summary = summary' ∧ w = w' := by
      have : ((.ok summary, w) : Except (Stop AnyError) MergeSummary × _) = (.ok summary', w') := h
      simpa using this
    simp
  | name :: names, summary, summary', w, w', hnormal, hnodup, hd, hcalm, h => by
    have hn := hnormal name List.mem_cons_self
    have hns : ∀ n ∈ names, NormalName n := fun n h => hnormal n (List.mem_cons_of_mem _ h)
    obtain ⟨hfresh, hnodup'⟩ := List.nodup_cons.1 hnodup
    obtain ⟨b, w₁, hexists, h⟩ := run_bind_ok h
    have hw₁ : w₁.state = w.state := quiet_pathExists.state_run hexists
    have htruth : w.state.pathExists (join (ofPlace g) name)
        = (w.state.node (g ++ placeOf name)).isSome := by
      rw [hn.plain.join_eq, hd.pathExists_ofPlace]
    -- how the places of the other names are told from this one's
    have hother : ∀ n ∈ names, g ++ placeOf n ≠ g ++ placeOf name := fun n hmem he =>
      hfresh ((hns n hmem).eq_of_placeOf hn (List.append_cancel_left he) ▸ hmem)
    unfold CalmDeletes at hcalm
    rw [hexists] at hcalm
    cases b
    · obtain ⟨hno, hcalm⟩ := hcalm
      have hnone : w.state.node (g ++ placeOf name) = none := by
        rwa [htruth, Option.isSome_eq_false_iff, Option.isNone_iff_eq_none] at hno
      obtain ⟨rfl, hnode⟩ := report_deleteFiles names hns hnodup' (hw₁ ▸ hd) hcalm h
      refine ⟨?_, fun p => ?_⟩
      · rw [hw₁, List.filter_cons_of_neg (by simp [Disk.content, hnone])]
      · rw [hnode, hw₁, List.map_cons]
        by_cases hp : p = g ++ placeOf name
        · rw [hp, hnone, ite_self, ite_self]
        · exact if_congr (by rw [List.mem_cons, or_iff_right hp]) rfl rfl
    · obtain ⟨-, hcalm⟩ := hcalm
      obtain ⟨u, w₂, hremove, h⟩ := run_bind_ok h
      obtain ⟨hd₂, hfile, hdel⟩ := delete_one hn hremove (hw₁ ▸ hd)
      rw [hw₁] at hfile hdel
      obtain ⟨rfl, hnode⟩ := report_deleteFiles names hns hnodup' hd₂ (hcalm w₂ hremove) h
      have hsame : ∀ n ∈ names, w₂.state.content (g ++ placeOf n)
          = w.state.content (g ++ placeOf n) := fun n hmem =>
        Disk.content_congr (by rw [hdel, if_neg (hother n hmem)])
      refine ⟨?_, fun p => ?_⟩
      · have hrest : (names.filter fun n => (w₂.state.content (g ++ placeOf n)).isSome)
            = names.filter fun n => (w.state.content (g ++ placeOf n)).isSome :=
          List.filter_congr fun n hmem => by rw [hsame n hmem]
        rw [hrest, List.filter_cons_of_pos (by simpa using hfile), List.length_cons]
        dsimp only
        rw [Nat.add_assoc, Nat.add_comm 1]
      · rw [hnode, hdel, List.map_cons]
        by_cases hp : p = g ++ placeOf name
        · rw [if_pos hp, ite_self, if_pos (List.mem_cons.2 (.inl hp))]
        · rw [if_neg hp]
          exact if_congr (by rw [List.mem_cons, or_iff_right hp]) rfl rfl

end Delete

section Faultless

variable {blake3 : Bytes → Hash} {g : Place} {tempDir : Path} {old new : List FileEntry}
  {entry : FileEntry} {d d' : Disk}

theorem wpOk_exec {α : Type} {p : FsIo α} {a : α} {Q : α → Disk → Prop}
    (hp : wpOk (fun _ => True) p d Q) (h : exec p d = (.ok a, d')) : Q a d' :=
  have hrun : p.run ⟨d, []⟩ = (.ok a, ⟨d', []⟩) := by rw [run_nil, h]
  wpOk.run hp hrun

theorem world_nil {α : Type} {p : FsIo α} {r : Except (Stop AnyError) α} {w : World AnyError Disk}
    (h : p.run ⟨d, []⟩ = (r, w)) : exec p d = (r, w.state) ∧ w = ⟨w.state, []⟩ := by
  rw [run_nil] at h
  obtain ⟨rfl, rfl⟩ := Prod.mk.inj h
  exact ⟨rfl, rfl⟩

/-- The old file is out of the way. -/
theorem exec_removeOld (hd : d.Wf) {place : Place} {u : Unit}
    (h : exec (removeOld (ofPlace place)) d = (.ok u, d')) : d'.node place = none := by
  unfold removeOld at h
  rw [exec_bind, exec_pathExists, hd.pathExists_ofPlace] at h
  rcases hn : d.node place with _ | n <;> rw [hn] at h
  · obtain rfl : d = d' := congrArg Prod.snd h
    exact hn
  · have hremove : wpOk (fun _ => True)
        (context "删除旧文件失败" (removeFile (ofPlace place)) : FsIo Unit) d fun _ d' =>
          (d.content (resolve (ofPlace place))).isSome
            ∧ ∀ q, d'.node q = if q = resolve (ofPlace place) then none else d.node q :=
      wpOk_removeFile.onErr
    have hdone := (wpOk_exec (a := u) hremove h).2 place
    rwa [resolve_ofPlace, if_pos rfl] at hdone

/-- Without faults the rename of a complete new file is done. -/
theorem exec_renameNew (hnames : MergeNames old new) (he : entry ∈ new) (hd : d.Wf)
    {oldChunks : Option (List (Hash × ℕ × UInt32))} {oldFile : Option Path}
    {globalChunks : ChunkLocation} {u : Unit}
    (h : exec (prepareTarget blake3 (ofPlace g) tempDir entry oldChunks oldFile globalChunks) d
      = (.ok u, d')) : ∃ d'', exec (renameNew (ofPlace g) entry) d' = (.ok (), d'') := by
  have hn := hnames.normal entry (List.mem_append_right _ he)
  obtain ⟨_, d₁, hfill, hremove⟩ := exec_bind_ok h
  obtain ⟨data, -, hc₁⟩ := wpOk_exec (wpOk_assembleNew blake3 (ofPlace g) tempDir entry oldChunks
    oldFile globalChunks) hfill
  rw [resolve_newPath hn] at hc₁
  have hfillW : AllowsFill (UnixFs.Within fun _ => True) (join (ofPlace g) entry.name) :=
    allowsFill_within trivial
  have hd₁ : d₁.Wf := by
    have hassembled := hfillW.assembleNew blake3 (ofPlace g) tempDir oldChunks oldFile globalChunks
    have := (hassembled.exec d).wf hd
    rwa [hfill] at this
  have hremoveW : Keeps (UnixFs.Within (· = targetOf g entry))
      (removeOld (join (ofPlace g) entry.name)) :=
    keeps_removeOld UnixFs.Within.frame (within_removeFile (resolve_target hn))
  have hwithin := hremoveW.exec d₁
  rw [hremove] at hwithin
  have hd' : d'.Wf := hwithin.wf hd₁
  have hc' := (hwithin.content (newOf (targetOf g entry))
    (hnames.newOf_ne g he (List.mem_append_right _ he))).trans hc₁
  rw [join_targetOf hn] at hremove
  have hgone := exec_removeOld hd₁ hremove
  -- source and target lie in one directory
  have hnode := Disk.content_eq_some.1 hc'
  obtain ⟨a, b, ha, hb⟩ := targetOf_split hn.plain g
  have hup : d'.node (targetOf g entry).dropLast = some .dir :=
    hd'.parent _ a (by rw [← ha, hnode]; simp)
  have hfind : d'.find (ofPlace (targetOf g entry)) = .ok (targetOf g entry) := by
    rw [hb]
    exact hd'.find_below hup
  rw [renameNew, join_targetOf hn, newPathOf_ofPlace]
  exact ⟨_, exec_context_ok (exec_renameFile (hd'.find_ofPlace (by simp [hnode])) hnode hfind
    (by simp [hgone]))⟩

theorem calmEntry_nil (hnames : MergeNames old new) (he : entry ∈ new) (hd : d.Wf) :
    CalmEntry blake3 (ofPlace g) tempDir old entry ⟨d, []⟩ := by
  unfold CalmEntry
  rw [run_nil, exec_isFile]
  refine ⟨rfl, fun _ w₂ hw₂ err herr => ?_⟩
  obtain ⟨hexec, hworld⟩ := world_nil hw₂
  obtain ⟨d'', hrename⟩ := exec_renameNew hnames he hd hexec
  rw [hworld, run_nil, hrename] at herr
  cases herr

theorem calmEntries_nil (hnames : MergeNames old new) : ∀ (entries : List FileEntry)
    (summary : MergeSummary) {d : Disk}, (∀ f ∈ entries, f ∈ new) → d.Wf →
      CalmEntries blake3 (ofPlace g) tempDir old entries summary ⟨d, []⟩
  | [], _, _, _, _ => trivial
  | entry :: entries, summary, d, hmem, hd => by
    have he := hmem entry List.mem_cons_self
    refine ⟨calmEntry_nil hnames he hd, fun summary' w' h => ?_⟩
    have hwithin := within_mergeEntry (hnames.normal entry (List.mem_append_right _ he)) h
    rw [(world_nil h).2]
    exact calmEntries_nil hnames entries summary' (fun f hf => hmem f (List.mem_cons_of_mem _ hf))
      (hwithin.wf hd)

theorem calmDeletes_nil : ∀ (names : List String) (d : Disk),
    CalmDeletes (ofPlace g) names ⟨d, []⟩
  | [], _ => trivial
  | name :: names, d => by
    unfold CalmDeletes
    rw [run_nil, exec_pathExists]
    rcases hb : d.pathExists (join (ofPlace g) name)
    · exact ⟨rfl, calmDeletes_nil names d⟩
    · refine ⟨rfl, fun w₂ h => ?_⟩
      rw [(world_nil h).2]
      exact calmDeletes_nil names _

/-- A run without faults is calm. -/
theorem calmMerge_nil {new : GameIndex} {old : Option GameIndex}
    (hnames : MergeNames (filesOf old) new.files) (hd : d.Wf) (iter : IterOrder String) :
    CalmMerge blake3 (ofPlace g) tempDir iter new old ⟨d, []⟩ := by
  refine ⟨calmEntries_nil hnames new.files _ (fun _ h => h) hd, fun summary w' h => ?_⟩
  rw [(world_nil h).2]
  exact calmDeletes_nil _ _

end Faultless

section Counts

variable (outcomes : List (FileEntry × Option AnyError)) (summary : MergeSummary)

theorem foldl_settle : outcomes.foldl (fun s o => s.settle o.1 o.2) summary
    = ⟨summary.merged + (outcomes.filter (·.2.isNone)).length, summary.deleted,
      summary.failed ++ outcomes.filterMap fun o => o.2.map fun err =>
        o.1.name ++ ": " ++ err.display⟩ := by
  induction outcomes generalizing summary with
  | nil => simp
  | cons o outcomes ih =>
    obtain ⟨entry, _ | err⟩ := o
    · rw [List.foldl_cons, ih]
      simp [MergeSummary.settle, Nat.add_assoc, Nat.add_comm 1]
    · rw [List.foldl_cons, ih]
      simp [MergeSummary.settle]

/-- Every turn is counted once. -/
theorem length_outcomes : (outcomes.filter (·.2.isNone)).length
    + (outcomes.filterMap fun o => o.2.map fun err => o.1.name ++ ": " ++ err.display).length
      = outcomes.length := by
  induction outcomes with
  | nil => rfl
  | cons o outcomes ih =>
    obtain ⟨entry, _ | err⟩ := o
    · simp only [List.filter_cons, Option.isNone_none, if_true, List.filterMap_cons,
        Option.map_none,
        List.length_cons]
      omega
    · simp only [List.filter_cons, Option.isNone_some, Bool.false_eq_true, if_false,
        List.filterMap_cons, Option.map_some, List.length_cons]
      omega

end Counts

/-- Where names are apart, and the merge is told truly which files there are and no rename fails, a
merge that finishes did what it reports, whatever the directories hold. -/
theorem mergeFiles_reports (blake3 : Bytes → Hash) (g : Place) (tempDir : Path)
    (iter : IterOrder String) {new : GameIndex} {old : Option GameIndex}
    (hnames : MergeNames (filesOf old) new.files) {w w' : World AnyError Disk} (hd : w.state.Wf)
    (hcalm : CalmMerge blake3 (ofPlace g) tempDir iter new old w) {summary : MergeSummary}
    (h : (mergeFiles blake3 (ofPlace g) tempDir iter new old).run w = (.ok summary, w')) :
    Reported blake3 g (filesOf old) new.files w.state w'.state summary := by
  obtain ⟨hcalmE, hcalmD⟩ := hcalm
  obtain ⟨s₁, w₁, hmerge, hdelete⟩ := run_bind_ok h
  obtain ⟨outcomes, hmap, hset, rfl, hwithin⟩ := report_mergeEntries hnames new.files
    (fun _ h => h) hnames.nodupNew hd hcalmE hmerge
  have hperm := (iter.perm (namesDifference (filesOf old) new.files)).trans
    (List.Perm.of_eq (namesDifference_eq hnames.nodupOld))
  have hmem : ∀ n, n ∈ iter.order (namesDifference (filesOf old) new.files) ↔
      ∃ f ∈ filesOf old, f.name ∉ new.files.map (·.name) ∧ f.name = n := fun n => by
    rw [hperm.mem_iff]
    simp only [List.mem_map, List.mem_filter, decide_eq_true_eq, and_assoc]
  have hnodup : (iter.order (namesDifference (filesOf old) new.files)).Nodup :=
    hperm.nodup_iff.2 ((List.filter_sublist.map _).nodup hnames.nodupOld)
  obtain ⟨rfl, hnode⟩ := report_deleteFiles _ (fun n hn => by
      obtain ⟨f, hf, -, rfl⟩ := (hmem n).1 hn
      exact hnames.normal f (List.mem_append_left _ hf)) hnodup (hwithin.wf hd)
    (hcalmD _ _ hmerge) hdelete
  -- the deletions leave the new files, and the turns left the old-only ones
  have hkept : ∀ f ∈ new.files,
      w'.state.content (targetOf g f) = w₁.state.content (targetOf g f) := by
    intro f hf
    refine Disk.content_congr ?_
    rw [hnode, if_neg]
    intro hp
    obtain ⟨n, hn, hplace⟩ := List.mem_map.1 hp
    obtain ⟨f', hf', hnew, rfl⟩ := (hmem n).1 hn
    refine hnames.targetOf_inj g (List.mem_append_left _ hf') (List.mem_append_right _ hf) ?_ hplace
    exact fun he => hnew (he ▸ List.mem_map_of_mem hf)
  have hold : ∀ f ∈ filesOf old, f.name ∉ new.files.map (·.name) →
      w₁.state.content (targetOf g f) = w.state.content (targetOf g f) := by
    intro f hf hnew
    refine hwithin.content _ ?_
    rintro ⟨e, he, -, hp | hp⟩
    · exact hnames.newOf_ne g he (List.mem_append_left _ hf) hp.symm
    · exact hnames.targetOf_inj g (List.mem_append_left _ hf) (List.mem_append_right _ he)
        (fun hn => hnew (hn ▸ List.mem_map_of_mem he)) hp
  rw [foldl_settle]
  refine ⟨⟨outcomes, hmap, fun o ho => (hset o ho).congr rfl (hkept o.1 ?_), by simp, by simp⟩, ?_,
    fun f hf hwant => ?_, fun f hf hnew => ?_, ?_⟩
  · exact (List.mem_filter.1 (hmap ▸ List.mem_map_of_mem ho : o.1 ∈ _)).1
  · rw [← hmap, List.length_map]
    simp only [zero_add, List.nil_append]
    exact length_outcomes outcomes
  · rw [hkept f hf]
    refine hwithin.content _ ?_
    rintro ⟨e, he, hwant', hp | hp⟩
    · exact hnames.newOf_ne g he (List.mem_append_right _ hf) hp.symm
    · refine hnames.targetOf_inj g (List.mem_append_right _ hf) (List.mem_append_right _ he) ?_ hp
      rintro hn
      obtain rfl := List.inj_on_of_nodup_map hnames.nodupNew hf he hn
      exact hwant hwant'
  · rw [hnode, if_pos]
    exact List.mem_map.2 ⟨f.name, (hmem _).2 ⟨f, hf, hnew, rfl⟩, rfl⟩
  · simp only [zero_add]
    rw [(hperm.filter _).length_eq, List.filter_map, List.length_map, List.filter_filter]
    refine congrArg List.length (List.filter_congr fun f hf => ?_)
    by_cases hnew : f.name ∈ new.files.map (·.name)
    · simp [hnew]
    · have hsame : w₁.state.content (g ++ placeOf f.name) = w.state.content (targetOf g f) :=
        hold f hf hnew
      simp [hnew, hsame]

theorem mergeFiles_reports_pair : MergeNames pairIndex.files joinedIndex.files ∧ pairDisk.Wf
    ∧ CalmMerge firstByte (ofPlace [['g']]) (ofPlace [['t']]) ⟨id, fun _ => .refl _⟩ joinedIndex
      (some pairIndex) ⟨pairDisk, []⟩
    ∧ ∃ summary w', (mergeFiles firstByte (ofPlace [['g']]) (ofPlace [['t']]) ⟨id, fun _ => .refl _⟩
        joinedIndex (some pairIndex)).run ⟨pairDisk, []⟩ = (.ok summary, w')
      ∧ Reported firstByte [['g']] pairIndex.files joinedIndex.files pairDisk w'.state summary := by
  have hnames : MergeNames (filesOf (some pairIndex)) joinedIndex.files := by
    refine ⟨?_, by decide, by decide, by decide⟩
    unfold NormalName
    decide
  have hd : pairDisk.Wf := Disk.wf_of_entries (by decide) (by decide)
  have hcalm : CalmMerge firstByte (ofPlace [['g']]) (ofPlace [['t']]) ⟨id, fun _ => .refl _⟩
      joinedIndex (some pairIndex) ⟨pairDisk, []⟩ := calmMerge_nil hnames hd _
  have hok : ((mergeFiles firstByte (ofPlace [['g']]) (ofPlace [['t']]) ⟨id, fun _ => .refl _⟩
      joinedIndex (some pairIndex)).run ⟨pairDisk, []⟩).1.toBool = true := by decide +kernel
  refine ⟨hnames, hd, hcalm, ?_⟩
  rcases hrun : (mergeFiles firstByte (ofPlace [['g']]) (ofPlace [['t']]) ⟨id, fun _ => .refl _⟩
    joinedIndex (some pairIndex)).run ⟨pairDisk, []⟩ with ⟨e | summary, w'⟩
  · rw [hrun] at hok
    cases hok
  · exact ⟨summary, w', rfl, mergeFiles_reports _ _ _ _ hnames hd hcalm hrun⟩

end BlazeNet

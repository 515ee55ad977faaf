import BlazeNet.Lib.FsContent
import BlazeNet.Proofs.UpdateFrame
import BlazeNet.UpdateSpec

/-!
# What is left when one file cannot be written

Until the new file is complete only its temporary path changes. The old file is then removed before
the new one is renamed, so a rename that fails leaves neither; and a temporary path that another
listed file has, or the target itself, takes that file away.
-/

namespace BlazeNet

open Wire FaultIo Io RustStd UnixFs

section Within

variable {P : Place → Prop} {target : Path}

theorem allowsFill_within (h : P (resolve (newPathOf target))) :
    AllowsFill (UnixFs.Within P) target where
  toFrame := UnixFs.Within.frame
  opens _ := within_openFile
  reads _ := within_readFile
  mkdir _ _ := within_mkdir
  create := within_createFile h
  write := within_writeInto h
  drop := within_removeFile h

theorem allowsMerge_within (h : P (resolve (newPathOf target))) (h' : P (resolve target)) :
    AllowsMerge (UnixFs.Within P) target where
  toAllowsFill := allowsFill_within h
  remove := within_removeFile h'
  rename := within_renameFile h h'

end Within

section Errors

variable (blake3 : Bytes → Hash) (gameDir tempDir : Path) (entry : FileEntry)
  (oldChunks : Option (List (Hash × ℕ × UInt32))) (oldFile : Option Path)
  (globalChunks : ChunkLocation)

theorem keepsOnErr_removeOld (target : Path) :
    KeepsOnErr (fun d d' => d' = d) (removeOld target) := by
  refine KeepsOnErr.bind FaultIo.Frame.same quiet_pathExists fun b => ?_
  cases b
  · exact Keeps.keepsOnErr (Quiet.pure _)
  · exact (keepsOnErr_sysAt _).onErr _

/-- Until the old file is removed, an error leaves all but the temporary path. -/
theorem keepsOnErr_prepareTarget :
    KeepsOnErr (UnixFs.Within (· = resolve (newPathOf (join gameDir entry.name))))
      (prepareTarget blake3 gameDir tempDir entry oldChunks oldFile globalChunks) := by
  have hfill : AllowsFill (UnixFs.Within (· = resolve (newPathOf (join gameDir entry.name))))
      (join gameDir entry.name) := allowsFill_within rfl
  refine KeepsOnErr.bind UnixFs.Within.frame
    (hfill.assembleNew blake3 gameDir tempDir oldChunks oldFile globalChunks)
      fun _ S d => wp_mono (keepsOnErr_removeOld _ S d) fun _ d' h e he => ?_
  rw [h e he]
  exact UnixFs.Within.refl d

theorem keepsOnErr_renameNew : KeepsOnErr (fun d d' => d' = d) (renameNew gameDir entry) :=
  (keepsOnErr_sysAt _).onErr _

theorem run_writeOrClean_err {w w' : World AnyError Disk} {e : AnyError}
    (h : (writeNewFile blake3 gameDir tempDir entry oldChunks oldFile globalChunks).run w
      = (.error (.err e), w')) :
    ((writeOrClean blake3 gameDir tempDir entry oldChunks oldFile globalChunks).run w).2
      = ((attempt (removeFile (newPathOf (join gameDir entry.name)) : FsIo Unit)).run w').2 := by
  rw [writeOrClean, run_bind, run_attempt, h]
  dsimp only
  rw [run_bind]
  rcases (attempt (removeFile (newPathOf (join gameDir entry.name)) : FsIo Unit)).run w' with
    ⟨e' | r, w''⟩ <;> rfl

variable {blake3 gameDir tempDir entry oldChunks oldFile globalChunks}
variable {files : List FileEntry} (h : NamesApart gameDir entry files)
include h

/-- The cleanup leaves the target. -/
theorem NamesApart.content_clean {w w' : World AnyError Disk} {e : AnyError}
    (hw : (writeNewFile blake3 gameDir tempDir entry oldChunks oldFile globalChunks).run w
      = (.error (.err e), w')) :
    ((writeOrClean blake3 gameDir tempDir entry oldChunks oldFile globalChunks).run
        w).2.state.content (resolve (join gameDir entry.name))
      = w'.state.content (resolve (join gameDir entry.name)) := by
  rw [run_writeOrClean_err _ _ _ _ _ _ _ hw]
  have hclean : Keeps (UnixFs.Within (· = resolve (newPathOf (join gameDir entry.name))))
      (attempt (removeFile (newPathOf (join gameDir entry.name)) : FsIo Unit)) :=
    Keeps.attempt (within_removeFile rfl)
  exact (hclean.run w'.state w'.faults).content _ h.own.symm

/-- Other listed files keep their content, whatever happens. -/
theorem NamesApart.content_others (d : Disk) (faults : List (Fault AnyError)) {f : FileEntry}
    (hf : f ∈ files) (hne : resolve (join gameDir f.name) ≠ resolve (join gameDir entry.name)) :
    ((writeOrClean blake3 gameDir tempDir entry oldChunks oldFile globalChunks).run
        ⟨d, faults⟩).2.state.content (resolve (join gameDir f.name))
      = d.content (resolve (join gameDir f.name)) := by
  have hmerge : AllowsMerge
    (UnixFs.Within fun p => p = resolve (newPathOf (join gameDir entry.name))
      ∨ p = resolve (join gameDir entry.name)) (join gameDir entry.name) :=
    allowsMerge_within (.inl rfl) (.inr rfl)
  refine ((hmerge.writeOrClean blake3 gameDir tempDir oldChunks oldFile globalChunks).run d
    faults).content _ ?_
  rintro (he | he)
  · exact h.others f hf he
  · exact hne he

/-- A write that returns an error has lost the target just when the rename failed after the old
file was gone. -/
theorem NamesApart.content_target_iff {d : Disk} {faults : List (Fault AnyError)}
    {e : AnyError} {w' : World AnyError Disk}
    (hw : (writeNewFile blake3 gameDir tempDir entry oldChunks oldFile globalChunks).run ⟨d, faults⟩
      = (.error (.err e), w')) :
    w'.state.content (resolve (join gameDir entry.name))
        = d.content (resolve (join gameDir entry.name))
      ↔ RenameSafe blake3 gameDir tempDir entry oldChunks oldFile globalChunks d faults := by
  have hrun := hw
  rw [writeNewFile_eq, run_bind] at hrun
  rcases hp : (prepareTarget blake3 gameDir tempDir entry oldChunks oldFile globalChunks).run
    ⟨d, faults⟩ with ⟨e' | _, w⟩ <;> rw [hp] at hrun
  · -- the rename is not reached
    obtain ⟨rfl, rfl⟩ : e' = .err e ∧ w = w' := by simpa using hrun
    have hkept := (keepsOnErr_prepareTarget blake3 gameDir tempDir entry oldChunks oldFile
      globalChunks).run hp
    refine iff_of_true (hkept.content _ h.own.symm) fun w₁ hw₁ => ?_
    rw [hp] at hw₁
    simp at hw₁
  · have hsame : w'.state = w.state := (keepsOnErr_renameNew gameDir entry).run hrun
    rw [hsame]
    constructor
    · intro hc w₁ hw₁ hne
      obtain rfl : w = w₁ := by simpa [hp] using hw₁
      exact absurd hc hne
    · intro hsafe
      by_contra hne
      exact hsafe w hp hne e (congrArg Prod.fst hrun)

end Errors

/-- With names apart, a write spares the other files, and its target where it returns an error, just
when no rename fails after the old file was removed. -/
theorem writeSpares_iff_renameSafe (blake3 : Bytes → Hash) {gameDir : Path} {entry : FileEntry}
    {files : List FileEntry} (h : NamesApart gameDir entry files) (tempDir : Path)
    (oldChunks : Option (List (Hash × ℕ × UInt32))) (oldFile : Option Path)
    (globalChunks : ChunkLocation) (d : Disk) (faults : List (Fault AnyError)) :
    WriteSpares blake3 gameDir tempDir entry oldChunks oldFile globalChunks files d faults
      ↔ RenameSafe blake3 gameDir tempDir entry oldChunks oldFile globalChunks d faults := by
  constructor
  · intro hs w hw hne err herr
    rcases hr : (renameNew gameDir entry).run w with ⟨r, w'⟩
    obtain rfl : r = .error (.err err) := by rw [← herr, hr]
    have hwrite : (writeNewFile blake3 gameDir tempDir entry oldChunks oldFile globalChunks).run
        ⟨d, faults⟩ = (.error (.err err), w') := by
      rw [writeNewFile_eq, run_bind, hw]
      exact hr
    have hkept := hs.target err (by rw [hwrite])
    rw [h.content_clean hwrite, h.content_target_iff hwrite] at hkept
    exact hkept w hw hne err herr
  · intro hsafe
    refine ⟨fun f hf hne => h.content_others d faults hf hne, fun err herr => ?_⟩
    rcases hw : (writeNewFile blake3 gameDir tempDir entry oldChunks oldFile globalChunks).run
      ⟨d, faults⟩ with ⟨r, w'⟩
    obtain rfl : r = .error (.err err) := by rw [← herr, hw]
    rw [h.content_clean hw, h.content_target_iff hw]
    exact hsafe

section Lost

/-- A game of two files, the second next to the first under the extension `new`, and one block. -/
def neighbourDisk : Disk := .ofList [([], .dir), ([['g']], .dir), ([['t']], .dir),
  ([['g'], ['a']], .file [1]), ([['g'], "a.new".toList], .file [2]),
  ([['t'], (blockName (.fill 3)).toList], .file [3])]

def lastByte (data : Bytes) : Hash := .fill (data.getLastD 0)

def newA : FileEntry := ⟨"a", .fill 3, [⟨.fill 3, 1⟩]⟩

def neighbour : FileEntry := ⟨"a.new", .fill 2, [⟨.fill 2, 1⟩]⟩

/-- The tenth call, the rename, is not permitted. -/
def renameFails : List (Fault AnyError) :=
  List.replicate 9 .none ++ [.fail 0 (.msg "Permission denied (os error 13)")]

theorem namesApart_newA : NamesApart [.normal ['g']] newA [newA] := ⟨by decide, by decide⟩

theorem writeSpares_iff_renameSafe_newA : NamesApart [.normal ['g']] newA [newA]
    ∧ (WriteSpares lastByte [.normal ['g']] [.normal ['t']] newA none none [] [newA]
      neighbourDisk []
      ↔ RenameSafe lastByte [.normal ['g']] [.normal ['t']] newA none none [] neighbourDisk []) :=
  ⟨namesApart_newA, writeSpares_iff_renameSafe lastByte namesApart_newA _ _ _ _ _ _⟩

/-- The neighbour is lost without any fault, and the old file where the rename fails. -/
theorem writeSpares_fails :
    ¬ WriteSpares lastByte [.normal ['g']] [.normal ['t']] newA none none [] [newA, neighbour]
        neighbourDisk []
    ∧ ¬ WriteSpares lastByte [.normal ['g']] [.normal ['t']] newA none none [] [newA]
        neighbourDisk renameFails := by
  constructor
  · intro h
    exact absurd (h.others neighbour (by simp) (by decide)) (by decide +kernel)
  · intro h
    have herr : ((writeNewFile lastByte [.normal ['g']] [.normal ['t']] newA none none []).run
        ⟨neighbourDisk, renameFails⟩).1
          = .error (.err (.context "原子替换失败" (.msg "Permission denied (os error 13)"))) := by
      decide +kernel
    exact absurd (h.target _ herr) (by decide +kernel)

end Lost

end BlazeNet

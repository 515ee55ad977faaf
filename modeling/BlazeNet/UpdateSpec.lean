import BlazeNet.Update
import BlazeNet.Lib.FsExec

/-!
# What an update is for

A version says what the files of a game hold: the bytes of their chunks, one after another. A merge
should turn a directory that holds the old version into one that holds the new. Files are replaced
one by one, and a chunk the old version had is read where the old version had it, so whether that
works depends on which files have been replaced by then.
-/

namespace BlazeNet

open Wire FaultIo Io RustStd UnixFs

section Versions

/-- The names on the way to a file, from the game's directory. -/
def placeOf (name : String) : Place := (components name).filterMap fun c => match c with
  | .normal n => some n
  | .parentDir => none

/-- A relative path without `..`. Its components may leave out a `/` or `/.` at its end. -/
def PlainName (name : String) : Prop :=
  isAbsolute name = false ∧ components name ≠ [] ∧ .parentDir ∉ components name

/-- A text whose pieces between slashes are all names. -/
def NormalName (name : String) : Prop :=
  ∀ piece ∈ name.toList.splitOn '/', piece ≠ [] ∧ piece ≠ ['.'] ∧ piece ≠ ['.', '.']

/-- The place next to another that a file is put together at. -/
def newOf (place : Place) : Place := match place.getLast? with
  | some name => place.dropLast ++ [fileStem name ++ '.' :: "new".toList]
  | none => place

/-- The content of a file, where `bytes` gives the chunks their bytes. -/
def contentOf (bytes : Hash → Bytes) (file : FileEntry) : Bytes :=
  file.chunks.flatMap fun c => bytes c.hash

/-- The declared lengths and hashes are true. -/
structure Consistent (blake3 : Bytes → Hash) (bytes : Hash → Bytes) (files : List FileEntry) :
    Prop where
  lengths : ∀ f ∈ files, ∀ c ∈ f.chunks, (bytes c.hash).length = c.len.toNat
  hashes : ∀ f ∈ files, f.fileHash = blake3 (contentOf bytes f)

/-- The names of two versions: normal, each a file of its own, none a directory of another, none the
temporary path of another entry. -/
structure GoodNames (old new : List FileEntry) : Prop where
  normal : ∀ f ∈ old ++ new, NormalName f.name
  nodupOld : (old.map (·.name)).Nodup
  nodupNew : (new.map (·.name)).Nodup
  prefixFree : ∀ f ∈ old ++ new, ∀ f' ∈ old ++ new,
    placeOf f.name <+: placeOf f'.name → f.name = f'.name
  newApart : ∀ f ∈ new, ∀ f' ∈ old ++ new,
    newOf (placeOf f.name) = placeOf f'.name → f'.name = f.name

/-- The files below the game's directory are those of the version. -/
structure Installed (bytes : Hash → Bytes) (d : Disk) (g : Place) (files : List FileEntry) :
    Prop where
  dir : d.node g = some .dir
  files : ∀ q, d.content (g ++ q)
    = (files.find? fun f => placeOf f.name = q).map (contentOf bytes)

/-- The place of a block in the temporary directory. -/
def blockPlace (t : Place) (hash : Hash) : Place := t ++ [(blockName hash).toList]

/-- The temporary directory, outside the game's, has these chunks. -/
structure Staged (bytes : Hash → Bytes) (d : Disk) (g t : Place) (hashes : List Hash) : Prop where
  outside : ¬ g <+: t
  blocks : ∀ h ∈ hashes, d.content (blockPlace t h) = some (bytes h)

/-- All is there for a merge: the old version is installed, and the chunks the plan asks for have
been added to those the temporary directory had. -/
structure Ready (blake3 : Bytes → Hash) (bytes : Hash → Bytes) (d : Disk) (g t : Place)
    (new : GameIndex) (old : Option GameIndex) (temp : HashSet Hash) : Prop where
  wf : d.Wf
  names : GoodNames (filesOf old) new.files
  oldTrue : Consistent blake3 bytes (filesOf old)
  newTrue : ∀ f ∈ new.files, f.fileHash = blake3 (contentOf bytes f)
  installed : Installed bytes d g (filesOf old)
  staged : Staged bytes d g t (temp.elems ++ (UpdatePlan.compute new old temp).chunksToDownload)

end Versions

section Condition

variable (bytes : Hash → Bytes) (d : Disk) (g : Place) (old : List FileEntry)

/-- The entry is new, or its hash differs from the old one. -/
def NeedsMerge (entry : FileEntry) : Prop := match getFile old entry.name with
  | none => True
  | some prev => prev.fileHash ≠ entry.fileHash

instance (entry : FileEntry) : Decidable (NeedsMerge old entry) := by
  unfold NeedsMerge
  exact match getFile old entry.name with
    | none => isTrue trivial
    | some _ => inferInstance

/-- An entry that has to be put together can be, once the entries `done` are: its temporary path is
not its own and no directory, nor is its target one; and what it reuses of another old file is still
there, or the file that has replaced it has the same bytes there. -/
structure CanMerge (done : List FileEntry) (entry : FileEntry) : Prop where
  ownNew : newOf (placeOf entry.name) ≠ placeOf entry.name
  target : d.node (g ++ placeOf entry.name) ≠ some .dir
  temporary : d.node (g ++ newOf (placeOf entry.name)) ≠ some .dir
  below : ∀ f ∈ done, NeedsMerge old f → ¬ newOf (placeOf entry.name) <+: placeOf f.name
  reuse : ∀ c ∈ entry.chunks,
    (∀ prev, getFile old entry.name = some prev → c.hash ∉ prev.chunks.map (·.hash)) →
    ∀ rel offset len, (chunkLocations old).lookup c.hash = some (rel, offset, len) →
      ∀ f ∈ done, NeedsMerge old f → f.name = rel →
        pread (contentOf bytes f) offset len.toNat = bytes c.hash

/-- Every entry can be merged in its turn, and those left as they are have their content. -/
def Mergeable (new : List FileEntry) : Prop := ∀ done entry rest, new = done ++ entry :: rest →
  (NeedsMerge old entry → CanMerge bytes d g old done entry)
    ∧ ∀ prev, getFile old entry.name = some prev → prev.fileHash = entry.fileHash →
      contentOf bytes prev = contentOf bytes entry

end Condition

/-- What a merge should do: every new file has its content, and the files only the old version has
are gone. -/
structure Updated (bytes : Hash → Bytes) (old new : List FileEntry) (d : Disk)
    (g : Place) : Prop where
  content : ∀ f ∈ new, d.content (g ++ placeOf f.name) = some (contentOf bytes f)
  removed : ∀ f ∈ old, f.name ∉ new.map (·.name) → d.node (g ++ placeOf f.name) = none

section Replacement

variable (blake3 : Bytes → Hash) (gameDir tempDir : Path) (entry : FileEntry)
  (oldChunks : Option (List (Hash × ℕ × UInt32))) (oldFile : Option Path)
  (globalChunks : ChunkLocation)

/-- `write_new_file` until the new file is complete and closed. -/
def assembleNew : FsIo Unit := do
  let newPath := newPathOf (join gameDir entry.name)
  match parent newPath with
  | none => stop (.err (.msg "缺少父目录"))
  | some up => do
    context "创建父目录失败" (createDirAll up)
    let out ← context "创建临时文件失败" (createWriter newPath)
    let oldHandle ← openOld oldFile
    let src : Sources := ⟨gameDir, tempDir, oldHandle, oldChunks, globalChunks⟩
    let data ← src.writeChunks out entry.chunks none []
    if blake3 data ≠ entry.fileHash then dropNew newPath
    else do
      context "同步临时文件失败" syncWriter
      context "关闭临时文件失败" closeWriter

/-- `write_new_file` until the old file is out of the way. -/
def prepareTarget : FsIo Unit := do
  assembleNew blake3 gameDir tempDir entry oldChunks oldFile globalChunks
  removeOld (join gameDir entry.name)

/-- The last step of `write_new_file`. -/
def renameNew (gameDir : Path) (entry : FileEntry) : FsIo Unit :=
  context "原子替换失败" (renameFile (newPathOf (join gameDir entry.name)) (join gameDir entry.name))

/-- `write_new_file` with the cleanup of `merge_files`, and what it returned. -/
def writeOrClean : FsIo (Except AnyError Unit) := do
  match ← attempt (writeNewFile blake3 gameDir tempDir entry oldChunks oldFile globalChunks) with
  | .ok () => pure (.ok ())
  | .error err => do
    let _ ← attempt (removeFile (newPathOf (join gameDir entry.name)) : FsIo Unit)
    pure (.error err)

/-- Every listed file but the target keeps its content, and so does the target if `write_new_file`
returns an error. -/
structure WriteSpares (files : List FileEntry) (d : Disk) (faults : List (Fault AnyError)) :
    Prop where
  others : ∀ f ∈ files, resolve (join gameDir f.name) ≠ resolve (join gameDir entry.name) →
    ((writeOrClean blake3 gameDir tempDir entry oldChunks oldFile globalChunks).run
      ⟨d, faults⟩).2.state.content (resolve (join gameDir f.name))
        = d.content (resolve (join gameDir f.name))
  target : ∀ err, ((writeNewFile blake3 gameDir tempDir entry oldChunks oldFile globalChunks).run
      ⟨d, faults⟩).1 = .error (.err err) →
    ((writeOrClean blake3 gameDir tempDir entry oldChunks oldFile globalChunks).run
      ⟨d, faults⟩).2.state.content (resolve (join gameDir entry.name))
        = d.content (resolve (join gameDir entry.name))

/-- The temporary path of the entry is neither its target nor another listed file. -/
structure NamesApart (files : List FileEntry) : Prop where
  own : resolve (newPathOf (join gameDir entry.name)) ≠ resolve (join gameDir entry.name)
  others : ∀ f ∈ files,
    resolve (join gameDir f.name) ≠ resolve (newPathOf (join gameDir entry.name))

/-- Once the old file is removed, the rename does not fail. -/
def RenameSafe (d : Disk) (faults : List (Fault AnyError)) : Prop := ∀ w,
  (prepareTarget blake3 gameDir tempDir entry oldChunks oldFile globalChunks).run ⟨d, faults⟩
      = (.ok (), w) →
    w.state.content (resolve (join gameDir entry.name))
        ≠ d.content (resolve (join gameDir entry.name)) →
      ∀ err, ((renameNew gameDir entry).run w).1 ≠ .error (.err err)

end Replacement

section Calm

/-- The names of two versions: normal, each once in its version, and none the temporary path of an
entry. -/
structure MergeNames (old new : List FileEntry) : Prop where
  normal : ∀ f ∈ old ++ new, NormalName f.name
  nodupOld : (old.map (·.name)).Nodup
  nodupNew : (new.map (·.name)).Nodup
  newApart : ∀ f ∈ new, ∀ f' ∈ old ++ new, newOf (placeOf f.name) ≠ placeOf f'.name

/-- What `merge_files` decides by. -/
def needMerge (old : List FileEntry) (entry : FileEntry) (targetExists : Bool) : Bool :=
  match getFile old entry.name with
  | none => true
  | some f => f.fileHash ≠ entry.fileHash ∨ !targetExists

variable (blake3 : Bytes → Hash) (gameDir tempDir : Path) (old : List FileEntry)

/-- In its turn an entry is told truly whether its file is there, and if it is written its rename
does not fail. -/
def CalmEntry (entry : FileEntry) (w : World AnyError Disk) : Prop :=
  match (isFile (join gameDir entry.name) : FsIo Bool).run w with
  | (.ok b, w₁) => b = w.state.isFile (join gameDir entry.name)
    ∧ (needMerge old entry b = true → ∀ w₂,
      (prepareTarget blake3 gameDir tempDir entry
        ((getFile old entry.name).map fun f => chunkOffsets 0 f.chunks)
        ((getFile old entry.name).map fun _ => join gameDir entry.name)
        (chunkLocations old)).run w₁ = (.ok (), w₂) →
      ∀ err, ((renameNew gameDir entry).run w₂).1 ≠ .error (.err err))
  | _ => True

def CalmEntries : List FileEntry → MergeSummary → World AnyError Disk → Prop
  | [], _, _ => True
  | entry :: entries, summary, w => CalmEntry blake3 gameDir tempDir old entry w
    ∧ ∀ summary' w', (mergeEntry blake3 gameDir tempDir old summary entry).run
      w = (.ok summary', w') →
      CalmEntries entries summary' w'

/-- The names to delete are told truly whether something is there. -/
def CalmDeletes : List String → World AnyError Disk → Prop
  | [], _ => True
  | name :: names, w => match (pathExists (join gameDir name) : FsIo Bool).run w with
    | (.ok true, w₁) => w.state.pathExists (join gameDir name) = true
      ∧ ∀ w₂, (context "删除文件失败" (removeFile (join gameDir name)) : FsIo Unit).run w₁
        = (.ok (), w₂) → CalmDeletes names w₂
    | (.ok false, w₁) => w.state.pathExists (join gameDir name) = false ∧ CalmDeletes names w₁
    | _ => True

/-- A schedule under which the merge is told truly which files there are and no rename fails. Any
other call may fail. -/
def CalmMerge (iter : IterOrder String) (new : GameIndex) (old : Option GameIndex)
    (w : World AnyError Disk) : Prop :=
  CalmEntries blake3 gameDir tempDir (filesOf old) new.files ⟨0, 0, []⟩ w
    ∧ ∀ summary w', (mergeEntries blake3 gameDir tempDir (filesOf old) new.files ⟨0, 0, []⟩).run w
        = (.ok summary, w') →
      CalmDeletes gameDir (iter.order (namesDifference (filesOf old) new.files)) w'

end Calm

end BlazeNet

import BlazeNet.UpdatePlan
import BlazeNet.CompioIo
import BlazeNet.Storage
import BlazeNet.Lib.Fs

/-!
# Merging an update into the real files

`update.rs` of the crate `agent`: each new or changed file is put together next to its target
under the extension `new`, from chunks of the old files and of the temporary directory, checked
against its hash and renamed over the target; files that only the old version has are removed.

An open file is the place it was opened at: nothing is renamed or removed while one is read.
-/

namespace BlazeNet

open Wire FaultIo Io RustStd UnixFs

instance : OsError AnyError where
  ofErrno
    | .notFound => .msg "No such file or directory (os error 2)"
    | .notDirectory => .msg "Not a directory (os error 20)"
    | .isDirectory => .msg "Is a directory (os error 21)"
    | .alreadyExists => .msg "File exists (os error 17)"
  isNotFound e := e = .msg "No such file or directory (os error 2)"
  isNotFound_ofErrno e := by cases e <;> decide

abbrev FsIo := Io AnyError Disk

/-- `path.display()`. -/
def displayPath (path : Path) : String := String.ofList <| path.flatMap fun c => '/' :: match c with
  | .parentDir => ['.', '.']
  | .normal name => name

structure MergeSummary where
  merged : ℕ
  deleted : ℕ
  failed : List String

/-- Where each chunk of a file starts, and its length. -/
def chunkOffsets : ℕ → List ChunkMeta → List (Hash × ℕ × UInt32)
  | _, [] => []
  | offset, chunk :: chunks =>
    (chunk.hash, offset, chunk.len) :: chunkOffsets (offset + chunk.len.toNat) chunks

/-- The first place of each chunk in the files of a version: the file's name, the offset there
and the length. -/
abbrev ChunkLocation := List (Hash × String × ℕ × UInt32)

def chunkLocations (files : List FileEntry) : ChunkLocation := files.flatMap fun f =>
  (chunkOffsets 0 f.chunks).map fun entry => (entry.1, f.name, entry.2)

section Temp

def blockName (hash : Hash) : String := hex hash.bytes ++ ".blk"

/-- `temp_dir.join(format!("{}.blk", hex(&hash)))`. -/
def tempBlock (tempDir : Path) (hash : Hash) : Path := join tempDir (blockName hash)

def hexDigit (b : UInt8) : Option ℕ :=
  if 48 ≤ b ∧ b ≤ 57 then some (b.toNat - 48)
  else if 97 ≤ b ∧ b ≤ 102 then some (b.toNat - 87)
  else if 65 ≤ b ∧ b ≤ 70 then some (b.toNat - 55)
  else none

/-- `u8::from_str_radix(text, 16)` of a text of two bytes. -/
def fromHexPair (a b : UInt8) : Option UInt8 :=
  if a = 43 then (hexDigit b).map UInt8.ofNat
  else do pure (UInt8.ofNat (16 * (← hexDigit a) + (← hexDigit b)))

/-- The loop of `parse_hex`. A slice that would end inside a character panics. -/
def parseHexPairs : Bytes → Except Unit (Option Bytes)
  | a :: b :: rest => match fromHexPair a b with
    | some byte => (parseHexPairs rest).map (Option.map (byte :: ·))
    | none => if (rest.head?.any fun c => 0x80 ≤ c ∧ c < 0xc0) then .error () else .ok none
  | _ => .ok (some [])

def parseHex (text : Name) : Except Unit (Option Hash) :=
  let bytes := nameBytes (String.ofList text)
  if bytes.length ≠ 64 then .ok none
  else (parseHexPairs bytes).map fun out => out.bind Hash.ofBytes?

/-- `name.strip_suffix(".blk")` and `parse_hex`. -/
def tempHash (name : Name) : Except Unit (Option Hash) :=
  if ".blk".toList.isSuffixOf name then parseHex (name.take (name.length - 4)) else .ok none

def collectTempHashes (tempDir : Path) : FsIo (HashSet Hash) := do
  let names ← context "读取临时目录失败" (readDir tempDir)
  match names.mapM tempHash with
  | .ok hashes => pure (HashSet.collect (hashes.filterMap id))
  | .error () => stop .killed

end Temp

section Writer

/-- `CompioWriter::create`. -/
def createWriter (path : Path) : FsIo Place :=
  context ("创建目标文件失败: " ++ displayPath path) (createFile path)

/-- `CompioWriter::write_owned` at the writer's offset. -/
def writeOwned (file : Place) (data : Bytes) (offset : ℕ) : FsIo Unit :=
  context "写入目标文件失败" (writeInto file data offset)

def syncWriter : FsIo Unit := context "同步目标文件失败" flushFile

def closeWriter : FsIo Unit := context "关闭目标文件失败" flushFile

end Writer

def readChunkAt (file : Place) (offset : ℕ) (len : UInt32) : FsIo Bytes :=
  readLoop (fun n at_ => context "读取块失败" (readFrom file n at_)) (.msg "读取块遇到文件末尾")
    len.toNat offset

/-- What `write_new_file` takes chunks from. -/
structure Sources where
  gameDir : Path
  tempDir : Path
  oldHandle : Option Place
  oldChunks : Option (List (Hash × ℕ × UInt32))
  globalChunks : ChunkLocation

namespace Sources

variable (src : Sources)

/-- The chunk in the old version of the file itself. -/
def own (hash : Hash) : Option (Place × ℕ × UInt32) := do
  let file ← src.oldHandle
  let chunks ← src.oldChunks
  let loc ← chunks.lookup hash
  pure (file, loc)

def readTemp (hash : Hash) : FsIo Bytes :=
  context "读取临时块失败" (UnixFs.readFile (tempBlock src.tempDir hash))

/-- The handle of a file to reuse, kept from the chunk before where it is the same file. -/
def reuse (lastGlobal : Option (Path × Place)) (path : Path) : FsIo Place :=
  match lastGlobal with
  | some (lastPath, file) =>
    if lastPath = path then pure file else context "打开复用源文件失败" (openFile path)
  | none => context "打开复用源文件失败" (openFile path)

/-- The data of one chunk, and the handle to keep. -/
def chunkData (lastGlobal : Option (Path × Place)) (hash : Hash) :
    FsIo (Bytes × Option (Path × Place)) :=
  match src.own hash with
  | some (file, offset, len) => do
    let data ← readChunkAt file offset len
    pure (data, lastGlobal)
  | none => match src.globalChunks.lookup hash with
    | some (rel, offset, len) => do
      let path := join src.gameDir rel
      if ← isFile path then do
        let file ← reuse lastGlobal path
        let data ← readChunkAt file offset len
        pure (data, some (path, file))
      else do
        let data ← src.readTemp hash
        pure (data, lastGlobal)
    | none => do
      let data ← src.readTemp hash
      pure (data, lastGlobal)

/-- The loop over the chunks; `written` is what the hasher and the new file hold so far. -/
def writeChunks (out : Place) :
    List ChunkMeta → Option (Path × Place) → Bytes → FsIo Bytes
  | [], _, written => pure written
  | chunk :: chunks, lastGlobal, written => do
    let (data, lastGlobal) ← src.chunkData lastGlobal chunk.hash
    context "写入临时文件失败" (writeOwned out data written.length)
    writeChunks out chunks lastGlobal (written ++ data)

end Sources

/-- `old_file.filter(is_file).map(File::open)`. -/
def openOld : Option Path → FsIo (Option Place)
  | none => pure none
  | some path => do
    if ← isFile path then do
      let file ← context "打开旧文件失败" (openFile path)
      pure (some file)
    else pure none

def newPathOf (target : Path) : Path := withExtension target "new".toList

def dropNew (newPath : Path) : FsIo Unit := do
  let _ ← attempt closeWriter
  let _ ← attempt (removeFile newPath : FsIo Unit)
  stop (.err (.msg "文件哈希校验失败"))

def removeOld (target : Path) : FsIo Unit := do
  if ← pathExists target then context "删除旧文件失败" (removeFile target) else pure ()

/-- The end of `write_new_file`, when the hash is right. -/
def replaceTarget (newPath target : Path) : FsIo Unit := do
  context "同步临时文件失败" syncWriter
  context "关闭临时文件失败" closeWriter
  removeOld target
  context "原子替换失败" (renameFile newPath target)

section Merge

variable (blake3 : Bytes → Hash) (gameDir tempDir : Path)

def writeNewFile (entry : FileEntry) (oldChunks : Option (List (Hash × ℕ × UInt32)))
    (oldFile : Option Path) (globalChunks : ChunkLocation) : FsIo Unit := do
  let target := join gameDir entry.name
  let newPath := newPathOf target
  match parent newPath with
  | none => stop (.err (.msg "缺少父目录"))
  | some up => do
    context "创建父目录失败" (createDirAll up)
    let out ← context "创建临时文件失败" (createWriter newPath)
    let oldHandle ← openOld oldFile
    let src : Sources := ⟨gameDir, tempDir, oldHandle, oldChunks, globalChunks⟩
    let data ← src.writeChunks out entry.chunks none []
    if blake3 data ≠ entry.fileHash then dropNew newPath else replaceTarget newPath target

/-- One turn of the first loop of `merge_files`. -/
def mergeEntry (old : List FileEntry) (summary : MergeSummary) (entry : FileEntry) :
    FsIo MergeSummary := do
  let target := join gameDir entry.name
  let targetExists ← isFile target
  let prev := getFile old entry.name
  let needMerge := match prev with
    | none => true
    | some f => f.fileHash ≠ entry.fileHash ∨ !targetExists
  if !needMerge then pure summary
  else do
    let r ← attempt (writeNewFile blake3 gameDir tempDir entry
      (prev.map fun f => chunkOffsets 0 f.chunks) (prev.map fun _ => target) (chunkLocations old))
    match r with
    | .ok () => pure { summary with merged := summary.merged + 1 }
    | .error err => do
      let _ ← attempt (removeFile (newPathOf target) : FsIo Unit)
      pure { summary with failed := summary.failed ++ [entry.name ++ ": " ++ err.display] }

def mergeEntries (old : List FileEntry) : List FileEntry → MergeSummary → FsIo MergeSummary
  | [], summary => pure summary
  | entry :: entries, summary => do
    let summary ← mergeEntry blake3 gameDir tempDir old summary entry
    mergeEntries old entries summary

def deleteFiles : List String → MergeSummary → FsIo MergeSummary
  | [], summary => pure summary
  | name :: names, summary => do
    let path := join gameDir name
    if ← pathExists path then do
      context "删除文件失败" (removeFile path)
      deleteFiles names { summary with deleted := summary.deleted + 1 }
    else deleteFiles names summary

/-- `iter` is the order in which the set of names happens to be iterated. -/
def mergeFiles (iter : IterOrder String) (new : GameIndex) (old : Option GameIndex) :
    FsIo MergeSummary := do
  let summary ← mergeEntries blake3 gameDir tempDir (filesOf old) new.files ⟨0, 0, []⟩
  deleteFiles gameDir (iter.order (namesDifference (filesOf old) new.files)) summary

end Merge

end BlazeNet

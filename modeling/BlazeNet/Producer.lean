import BlazeNet.UpdateSpec

/-!
# Making a version

The crate `producer` cuts every file of a source directory into chunks and stages the data of each
chunk once under its hash. How a file is cut is a parameter, and so is the list of the files.
-/

namespace BlazeNet

open Wire FaultIo Io RustStd UnixFs

namespace Producer

/-- How `StreamCDC` cuts the content of the file at a path. -/
abbrev StreamCdc := Path → Bytes → List Bytes

section Chunker

variable (blake3 : Bytes → Hash) (cdc : StreamCdc)

/-- `name.replace('\\', "/")`. -/
def replaceBackslash (name : String) : String :=
  String.ofList (name.toList.map fun c => if c = '\\' then '/' else c)

/-- A file is opened and read to its end. -/
def openAndRead (text : String) (path : Path) : FsIo Bytes := do
  let _ ← context ("打开文件失败: " ++ displayPath path) (openFile path)
  context text (UnixFs.readFile path)

def fileHash (path : Path) : FsIo Hash := do
  let content ← openAndRead "读取文件失败" path
  pure (blake3 content)

/-- The data of a chunk that has not been seen is staged. -/
def stageChunk (path : Path) (stageDir : Option Path) (seen : HashSet Hash) (hash : Hash)
    (data : Bytes) : FsIo (HashSet Hash) :=
  match stageDir with
  | none => pure seen
  | some dir =>
    if hash ∈ seen then pure seen
    else do
      context ("写入暂存块失败: " ++ displayPath path) (writeFile (tempBlock dir hash) data)
      pure (seen.insert hash)

/-- The loop of `chunk_file`. -/
def chunkLoop (path : Path) (stageDir : Option Path) :
    List Bytes → HashSet Hash → List ChunkMeta → FsIo (List ChunkMeta × HashSet Hash)
  | [], seen, metas => pure (metas, seen)
  | data :: rest, seen, metas => do
    let hash := blake3 data
    let seen ← stageChunk path stageDir seen hash data
    chunkLoop path stageDir rest seen (metas ++ [⟨hash, UInt32.ofNat data.length⟩])

def chunkFile (path : Path) (stageDir : Option Path) (seen : HashSet Hash) :
    FsIo (List ChunkMeta × HashSet Hash) := do
  let content ← openAndRead "FastCDC 分块失败" path
  chunkLoop blake3 path stageDir (cdc path content) seen []

/-- The loop of `run_with_config` over the files. -/
def makeEntries (sourceDir : Path) (stageDir : Option Path) :
    List String → HashSet Hash → List FileEntry → FsIo (List FileEntry × HashSet Hash)
  | [], seen, entries => pure (entries, seen)
  | rel :: files, seen, entries => do
    let full := join sourceDir rel
    let (chunks, seen) ← chunkFile blake3 cdc full stageDir seen
    let hash ← fileHash blake3 full
    makeEntries sourceDir stageDir files seen (entries ++ [⟨replaceBackslash rel, hash, chunks⟩])

end Chunker

structure Config where
  version : UInt64
  sourceDir : Path
  outputDir : Path

section Run

variable (config : Config)

def stageDir : Path := join config.outputDir "chunks"

def indexDir : Path := join config.outputDir "index"

def deltaDir : Path := join config.outputDir "delta"

def indexPath : Path := join (indexDir config) (toString config.version.toNat ++ ".gameindex")

end Run

section Tree

def stagePlace (o : Place) : Place := o ++ ["chunks".toList]

def manifestPlace (o : Place) (version : UInt64) : Place :=
  o ++ ["index".toList, (toString version.toNat ++ ".gameindex").toList]

/-- The names after the replacement are distinct normal paths, none a directory of another, and
no temporary path is another's path or a directory on the way to it. -/
structure TreeNames (names : List String) : Prop where
  normal : ∀ a ∈ names, NormalName a
  short : ∀ a ∈ names, (nameBytes a).length ≤ 65535
  nodup : names.Nodup
  prefixFree : ∀ a ∈ names, ∀ b ∈ names, placeOf a <+: placeOf b → a = b
  newFree : ∀ a ∈ names, ∀ b ∈ names, ¬ newOf (placeOf a) <+: placeOf b

/-- The pieces that the content of a file is cut into. -/
def piecesOf (cdc : StreamCdc) (s : Place) (content : String → Bytes) (rel : String) : List Bytes :=
  cdc (ofPlace (s ++ placeOf rel)) (content rel)

/-- Each file is cut into consecutive non-empty chunks. -/
def CutsFiles (cdc : StreamCdc) (s : Place) (content : String → Bytes) (files : List String) :
    Prop := ∀ rel ∈ files, (piecesOf cdc s content rel).flatten = content rel
      ∧ ∀ data ∈ piecesOf cdc s content rel, data ≠ []

/-- Different chunks of the files have different hashes. -/
def CollisionFree (blake3 : Bytes → Hash) (cdc : StreamCdc) (s : Place) (content : String → Bytes)
    (files : List String) : Prop :=
  ∀ a ∈ files.flatMap (piecesOf cdc s content), ∀ b ∈ files.flatMap (piecesOf cdc s content),
    blake3 a = blake3 b → a = b

/-- The counts fit the fields of a manifest. -/
structure CountsFit (cdc : StreamCdc) (s : Place) (content : String → Bytes)
    (files : List String) : Prop where
  count : files.length < 2 ^ 32
  chunks : ∀ rel ∈ files, (piecesOf cdc s content rel).length < 2 ^ 32

/-- A directory with nothing in it. -/
structure EmptyDir (d : Disk) (g : Place) : Prop where
  dir : d.node g = some .dir
  empty : ∀ q, q ≠ [] → d.node (g ++ q) = none

end Tree

end Producer

end BlazeNet

import BlazeNet.Producer
import BlazeNet.UpdatePlan
import BlazeNet.Lib.FsTree
import Mathlib.Data.Char
import Mathlib.Data.List.Lex
import Mathlib.Order.WithBot

/-!
# A whole production run

`run_with_config` from the lock on the output directory to the manifest and the list of differences
that it writes: the files of the source directory are found by a walk through it and sorted, cut and
staged, and compared with those of the previous version if there is one. How deep the walk can go is
bounded, as by a stack, and every directory lists its names in an order of its own. How the list of
differences is put into JSON is a parameter.
-/

namespace BlazeNet

open Wire FaultIo Io RustStd UnixFs

namespace Producer

section Listing

/-- `Path::strip_prefix`. -/
def stripPrefix (root path : Path) : Option Path :=
  if root <+: path then some (path.drop root.length) else none

/-- The order of `Component`: `..` comes before every name. -/
def componentKey : Component → WithBot Name
  | .parentDir => ⊥
  | .normal name => name

def sortKey (path : Path) : List (WithBot Name) := path.map componentKey

def sortsBefore (a b : Path) : Bool := sortKey a ≤ sortKey b

variable (iter : Path → IterOrder Name) (root : Path)

/-- The loop of `collect_files` over the names of a directory. -/
def collectEntries (collect : Path → List Path → FsIo (List Path)) (dir : Path) :
    List Name → List Path → FsIo (List Path)
  | [], files => pure files
  | name :: names, files => do
    context "读取目录项失败" (query fun _ => .ok ())
    let path := dir ++ [.normal name]
    match ← isFile path, ← isDir path with
    | true, _ => match stripPrefix root path with
      | none => stop (.err (.context "路径前缀剥离失败" (.msg "prefix not found")))
      | some rel => collectEntries collect dir names (files ++ [rel])
    | false, true => do
      let files ← collect path files
      collectEntries collect dir names files
    | false, false => collectEntries collect dir names files

/-- A walk that is deeper than the stack kills the process. -/
def collectFiles : ℕ → Path → List Path → FsIo (List Path)
  | 0, _, _ => stop .killed
  | stack + 1, dir, files => do
    let names ← context ("读取目录失败: " ++ displayPath dir) (readDir dir)
    collectEntries root (collectFiles stack) dir ((iter dir).order names) files

def listFiles (stack : ℕ) (dir : Path) : FsIo (List Path) := do
  let files ← collectFiles iter dir stack dir []
  pure (files.mergeSort sortsBefore)

end Listing

section Run

/-- `OutputLock`: the lock goes when the value is dropped, whether the run fails or not. -/
def withLock {α : Type} (lock : Path) (body : FsIo α) : FsIo α := do
  let _ ← context ("已有制作实例占用输出目录: " ++ displayPath lock) (createNewFile lock)
  let result ← attempt body
  let _ ← attempt (removeFile lock)
  match result with
  | .ok a => pure a
  | .error e => stop (.err e)

/-- What the list of differences says. -/
structure Delta where
  gameId : UInt64
  version : UInt64
  filesToDownloadCount : ℕ
  filesToUpdateCount : ℕ
  filesToDeleteCount : ℕ
  newChunkCount : ℕ
  newBytes : ℕ
  chunkHashes : List String
  deriving DecidableEq

structure FullConfig extends Config where
  gameId : UInt64
  previousDir : Option Path

/-- What a run takes from outside: the hash, the cut, the orders of the directories, the stack and
the JSON text. -/
structure Tools where
  blake3 : Bytes → Hash
  cdc : StreamCdc
  iter : Path → IterOrder Name
  stack : ℕ
  toVecPretty : Delta → Bytes

variable (tools : Tools) (config : FullConfig)

def lockPath : Path := join config.outputDir ".producer.lock"

def deltaPath : Path := join (deltaDir config.toConfig) (toString config.version.toNat ++ ".json")

/-- The version is made once its files are listed. -/
def makeVersion (files : List String) : FsIo (GameIndex × HashSet Hash) :=
  let config := config.toConfig
  if files = [] then
    stop (.err (.msg ("source_dir 下没有文件: " ++ displayPath config.sourceDir)))
  else do
    context ("创建暂存目录失败: " ++ displayPath (stageDir config)) (createDirAll (stageDir config))
    context ("创建清单目录失败: " ++ displayPath (indexDir config)) (createDirAll (indexDir config))
    context ("创建差异目录失败: " ++ displayPath (deltaDir config)) (createDirAll (deltaDir config))
    let (entries, seen) ← makeEntries tools.blake3 tools.cdc config.sourceDir
      (some (stageDir config)) files HashSet.empty []
    let index := GameIndex.build tools.blake3 entries
    context ("写入版本清单失败: " ++ displayPath (indexPath config))
      (writeFile (indexPath config) index.encode)
    pure (index, seen)

/-- The index of the previous version, from its files. -/
def previousIndex : FsIo (Option GameIndex) :=
  match config.previousDir with
  | none => pure none
  | some prev => do
    if ← isDir prev then do
      let files ← listFiles tools.iter tools.stack prev
      let (entries, _) ← makeEntries tools.blake3 tools.cdc prev none (files.map pathText)
        HashSet.empty []
      pure (some (GameIndex.build tools.blake3 entries))
    else pure none

def deltaOf (plan : UpdatePlan) : Delta :=
  ⟨config.gameId, config.version, plan.filesToDownload.length, plan.filesToUpdate.length,
    plan.filesToDelete.length, plan.chunksToDownload.length, plan.downloadBytes,
    plan.chunksToDownload.map fun hash => hex hash.bytes⟩

/-- What a run does while it holds the lock. -/
def lockedRun : FsIo (GameIndex × UpdatePlan) := do
  let files ← listFiles tools.iter tools.stack config.sourceDir
  let (index, _) ← makeVersion tools config (files.map pathText)
  let old ← previousIndex tools config
  let plan := UpdatePlan.compute index old HashSet.empty
  context ("写入差异清单失败: " ++ displayPath (deltaPath config))
    (writeFile (deltaPath config) (tools.toVecPretty (deltaOf config plan)))
  pure (index, plan)

/-- `run_with_config`, up to the upload of what is to be downloaded. -/
def runWithConfig : FsIo (GameIndex × UpdatePlan) := do
  context ("创建输出目录失败: " ++ displayPath config.outputDir) (createDirAll config.outputDir)
  withLock (lockPath config) (lockedRun tools config)

end Run

section Properties

/-- The files below a directory, sorted, whatever the order that the directories are read in. -/
def Lists (d : Disk) (dir : Place) (files : List Place) : Prop :=
  files.Pairwise (fun a b => sortKey (ofPlace a) < sortKey (ofPlace b))
    ∧ ∀ q, q ∈ files ↔ (d.content (dir ++ q)).isSome

def lockPlace (o : Place) : Place := o ++ [".producer.lock".toList]

def deltaPlace (o : Place) (version : UInt64) : Place :=
  o ++ ["delta".toList, (toString version.toNat ++ ".json").toList]

def subDirs : List String := ["chunks", "index", "delta"]

/-- What a run makes for chunks of these hashes: directories, blocks, the manifest and the list of
differences. -/
def Touched (o : Place) (version : UInt64) (hashes : List Hash) (q : Place) : Prop :=
  (∃ sub ∈ subDirs, q <+: o ++ [sub.toList]) ∨ (∃ hash ∈ hashes, q = blockPlace (stagePlace o) hash)
    ∨ q = manifestPlace o version ∨ q = deltaPlace o version

/-- Nothing at the place or below it is made or locked, whatever the chunks. -/
def Spared (o : Place) (version : UInt64) (p : Place) : Prop :=
  ∀ q, p <+: q → q ≠ lockPlace o ∧ ∀ hashes, ¬Touched o version hashes q

/-- A directory that is walked through and not written to, with no more directories in it one below
another than the stack has room for. -/
structure WalkedDir (d : Disk) (s o : Place) (version : UInt64) (stack : ℕ) : Prop where
  dir : d.node s = some .dir
  spared : Spared o version s
  shallow : ∀ q, d.node (s ++ q) = some .dir → q.length < stack

/-- A source directory with files in it, a previous version, if any, and an output directory: no
file is where a directory is made, no directory where a file is written, and no other run holds the
lock. -/
structure Site (d : Disk) (s o : Place) (previous : Option Place) (version : UInt64) (stack : ℕ) :
    Prop where
  wf : d.Wf
  named : d.Named
  source : WalkedDir d s o version stack
  nonempty : ∃ q, (d.content (s ++ q)).isSome
  previousSpared : ∀ p ∈ previous, Spared o version p
  previousWalked : ∀ p ∈ previous, d.node p = some .dir → WalkedDir d p o version stack
  ways : ∀ sub ∈ subDirs, ∀ q, q <+: o ++ [sub.toList] → d.content q = none
  blocks : ∀ hash, d.node (blockPlace (stagePlace o) hash) ≠ some .dir
  manifest : d.node (manifestPlace o version) ≠ some .dir
  delta : d.node (deltaPlace o version) ≠ some .dir
  unlocked : d.node (lockPlace o) = none

def relsOf (files : List Place) : List String := files.map fun q => pathText (ofPlace q)

/-- What the file of that name has below a directory. -/
def contentAt (d : Disk) (dir : Place) (rel : String) : Bytes :=
  (d.content (dir ++ placeOf rel)).getD []

def configOf (s o : Place) (previous : Option Place) (version gameId : UInt64) : FullConfig :=
  ⟨⟨version, ofPlace s, ofPlace o⟩, gameId, previous.map ofPlace⟩

/-- The run ends well. Wherever its manifest is decoded and merged into an empty directory, from a
temporary directory with the chunks that it has staged, the files of the source directory are there
again and nothing else. -/
def Reproduces (tools : Tools) (d : Disk) (s o : Place) (previous : Option Place)
    (version gameId : UInt64) (files : List String) : Prop :=
  ∃ made d₁, exec (runWithConfig tools (configOf s o previous version gameId)) d = (.ok made, d₁)
    ∧ ∃ manifest index, d₁.content (manifestPlace o version) = some manifest
      ∧ GameIndex.decode tools.blake3 manifest = .ok index
      ∧ ∀ (d₂ : Disk) (g t : Place) (iter : IterOrder String), d₂.Wf → EmptyDir d₂ g → ¬ g <+: t →
        (∀ hash ∈ index.chunkSet, d₂.content (blockPlace t hash)
          = d₁.content (blockPlace (stagePlace o) hash)) →
        ∃ summary d₃, exec (mergeFiles tools.blake3 (ofPlace g) (ofPlace t) iter index none) d₂
            = (.ok summary, d₃) ∧ summary.failed = []
          ∧ ∀ q, d₃.content (g ++ q)
            = (files.find? fun rel => placeOf (replaceBackslash rel) = q).map (contentAt d s)

end Properties

end Producer

end BlazeNet

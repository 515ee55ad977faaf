import BlazeNet.CafeSaves
import BlazeNet.Executor
import BlazeNet.UpdateSpec

/-!
# The tasks of a cafe, one after another

A task decodes the manifest of its version and goes through `run_cafe`, with faults of its own. One
that fails or dies leaves the disk as it is by then, and the next task finds it so. The tasks of a
game are taken to run one after another; the agent runs several tasks at once, and nothing there
keeps two of one game apart.
-/

namespace BlazeNet

open Wire FaultIo Io RustStd UnixFs

/-- A download, whatever the network brings it: all it does to the disk it does through its sink. -/
structure CafeDownload where
  run : (Hash → Bytes → FsIo Unit) → List Hash → FsIo Unit
  through : ∀ {K : Disk → Disk → Prop}, FaultIo.Frame K → ∀ {sink : Hash → Bytes → FsIo Unit},
    (∀ hash data, Keeps K (sink hash data)) → ∀ missing, Keeps K (run sink missing)

structure CafeTask where
  version : UInt64
  manifest : Bytes
  /-- The map of the game's store, where the process has it open. -/
  current : Option (Option ChunkLocation)
  download : CafeDownload
  iter : IterOrder String
  reports : List (Except AnyError Unit)
  faults : List (Fault AnyError)

section Runs

variable (blake3 : Bytes → Hash) (dataDir : Path) (gameId : UInt64)

def versionFiles (manifest : Bytes) : List FileEntry := match GameIndex.decode blake3 manifest with
  | .error _ => []
  | .ok index => index.files

namespace CafeTask

variable (t : CafeTask)

/-- `run_cafe` until `save_manifest`. -/
def beforeSave (index : GameIndex) : FsIo CafeStore := do
  let ready ← prepareCafe blake3 dataDir gameId (t.current.map (⟨gameId, dataDir, ·⟩)) index
  t.download.run (cafeSink dataDir gameId) ready.missing
  let merge ←
    mergeFiles blake3 (gameDir dataDir gameId) (tempDir dataDir gameId) t.iter index ready.old
  if merge.failed ≠ [] then stop (.err (.msg ("合并失败: " ++ "; ".intercalate merge.failed)))
  else pure ready.cafe

/-- The task from the manifest on. -/
def prog : FsIo (CafeStore × List Hash) := match GameIndex.decode blake3 t.manifest with
  | .error e => stop (.err (e.context "解析版本清单失败"))
  | .ok index => runCafe blake3 dataDir gameId t.download.run t.iter t.reports
      (t.current.map (⟨gameId, dataDir, ·⟩)) t.version index t.manifest

def run (d : Disk) : Except (Stop AnyError) (CafeStore × List Hash) × World AnyError Disk :=
  (t.prog blake3 dataDir gameId).run ⟨d, t.faults⟩

/-- The files of the task's version. -/
def files : List FileEntry := versionFiles blake3 t.manifest

end CafeTask

/-- The files of the version that the disk records as the current one. -/
def recordedFiles (d : Disk) : List FileEntry :=
  let cafe : CafeStore := ⟨gameId, dataDir, none⟩
  match (cafe.storedVersion d).bind fun version => cafe.storedManifest version d with
  | none => []
  | some manifest => versionFiles blake3 manifest

/-- A disk, and what the tasks have tried to install since the last one that returned well. -/
structure CafeHistory where
  disk : Disk
  attempts : List (List FileEntry)

namespace CafeHistory

variable (h : CafeHistory)

def step (t : CafeTask) : CafeHistory where
  disk := (t.run blake3 dataDir gameId h.disk).2.state
  attempts := match (t.run blake3 dataDir gameId h.disk).1 with
    | .ok _ => []
    | .error _ => h.attempts ++ [t.files blake3]

def after (tasks : List CafeTask) : CafeHistory := tasks.foldl (step blake3 dataDir gameId) h

/-- A file of the recorded version is missing, or its bytes hash to what the version says, or to
what one of the attempts said for its name. -/
def Sound : Prop := ∀ f ∈ recordedFiles blake3 dataDir gameId h.disk, ∀ data,
  h.disk.content (resolve (join (gameDir dataDir gameId) f.name)) = some data →
    blake3 data = f.fileHash
      ∨ ∃ files ∈ h.attempts, ∃ f' ∈ files, f'.name = f.name ∧ blake3 data = f'.fileHash

/-- The task does not take for unchanged what an attempt has been at, its names are apart from those
of the recorded version, and its save stops where it does no harm. -/
structure Careful (t : CafeTask) : Prop where
  names : MergeNames (recordedFiles blake3 dataDir gameId h.disk) (t.files blake3)
  shares : ∀ f ∈ t.files blake3, ∀ prev ∈ recordedFiles blake3 dataDir gameId h.disk,
    prev.name = f.name → prev.fileHash = f.fileHash →
      ∀ files ∈ h.attempts, ∀ f' ∈ files, f'.name = f.name → f'.fileHash = f.fileHash
  saves : ∀ index cafe w, GameIndex.decode blake3 t.manifest = .ok index →
    (t.beforeSave blake3 dataDir gameId index).run ⟨h.disk, t.faults⟩ = (.ok cafe, w) →
      cafe.StopsSafely blake3 w.state t.version t.manifest w.faults

/-- Every task of a run is careful when its turn comes. -/
def CarefulRun : CafeHistory → List CafeTask → Prop
  | _, [] => True
  | h, t :: tasks => h.Careful blake3 dataDir gameId t
    ∧ CarefulRun (h.step blake3 dataDir gameId t) tasks

end CafeHistory

/-- The file of the entry is there, and its bytes hash to what the entry says. -/
def VerifiedAt (gameDir : Path) (entry : FileEntry) (d : Disk) : Prop :=
  ∃ data, d.content (resolve (join gameDir entry.name)) = some data ∧ blake3 data = entry.fileHash

/-- The version is recorded with its manifest, and all its files are verified. -/
structure InPlace (version : UInt64) (manifest : Bytes) (d : Disk) : Prop where
  stored : (CafeStore.mk gameId dataDir none).storedVersion d = some version
  saved : (CafeStore.mk gameId dataDir none).storedManifest version d = some manifest
  files : ∀ f ∈ versionFiles blake3 manifest, VerifiedAt blake3 (gameDir dataDir gameId) f d

end Runs

end BlazeNet

import BlazeNet.CafeStore
import BlazeNet.Download

/-!
# The task executor

`run_task` of the crate `agent` reports a task running, looks its version up, runs it as the type of
the node asks, and reports how that ended. `run_cafe` compares the version with the one in place,
downloads what is missing into the temporary directory and merges it into the real files.
-/

namespace BlazeNet

open Wire FaultIo Io RustStd UnixFs

section RunTask

/-- A request of `ReportTask`. -/
structure TaskReport where
  nodeId : UInt64
  taskId : UInt64
  status : String
  error : String
  deriving DecidableEq

/-- `VersionInfo`, without the version that was asked for. -/
structure VersionInfo where
  found : Bool
  manifest : Bytes

/-- What the calls of `run_task` come to: the connection, the answer to the report of a status, the
lookup of the version, and the run of the node. -/
structure TaskCalls where
  connect : Except AnyError Unit
  reported : String → Except AnyError Unit
  version : Except AnyError VersionInfo
  runIdc : GameIndex → Except AnyError Unit
  runCafe : GameIndex → Bytes → Except AnyError Unit

/-- A run with the reports it sends. -/
abbrev TaskRun := ExceptT AnyError (StateM (List TaskReport))

variable (calls : TaskCalls)

def Agent.reportTask (nodeId taskId : UInt64) (status error : String) : TaskRun Unit := do
  modify (· ++ [⟨nodeId, taskId, status, error⟩])
  match calls.reported status with
  | .ok () => pure ()
  | .error e => throw (e.context "上报任务状态失败")

def Agent.getVersion : Except AnyError (Option Bytes) := match calls.version with
  | .ok reply => .ok (if reply.found then some reply.manifest else none)
  | .error e => .error (e.context "查询版本清单失败")

/-- `run_idc` or `run_cafe`. -/
def runNode (nodeType : NodeType) (index : GameIndex) (manifest : Bytes) : Except AnyError Unit :=
  match nodeType with
  | .idc => calls.runIdc index
  | .cafe => calls.runCafe index manifest

/-- The result of a call, as `?` passes it on. -/
def orReturn {α : Type} : Except AnyError α → TaskRun α
  | .ok a => pure a
  | .error e => throw e

def noVersionText (task : Task) : String :=
  "版本清单不存在: 游戏 " ++ toString task.gameId.toNat ++ " 版本 " ++ toString task.version.toNat

def runTask (blake3 : Bytes → Hash) (cfg : Config) (nodeId : UInt64) (task : Task) : TaskRun Unit :=
  match cfg.controlAddr with
  | none => throw (.msg "未配置控制面地址，无法执行任务")
  | some _ => do
    orReturn calls.connect
    Agent.reportTask calls nodeId task.id "running" ""
    match ← orReturn (Agent.getVersion calls) with
    | none => throw (.msg (noVersionText task))
    | some manifest => match GameIndex.decode blake3 manifest with
      | .error e => throw (e.context "解析版本清单失败")
      | .ok index => match runNode calls cfg.nodeType index manifest with
        | .ok () => Agent.reportTask calls nodeId task.id "done" ""
        | .error err => do
          let msg := err.displayChain
          tryCatch (Agent.reportTask calls nodeId task.id "failed" msg) fun _ => pure ()
          throw (.msg msg)

/-- How `run_task` returns, and the reports it has sent. -/
def runTaskOut (blake3 : Bytes → Hash) (cfg : Config) (nodeId : UInt64) (task : Task) :
    Except AnyError Unit × List TaskReport :=
  (runTask calls blake3 cfg nodeId task).run.run []

end RunTask

section Cafe

variable (blake3 : Bytes → Hash) (dataDir : Path) (gameId : UInt64)

/-- The chunks of the files of a version that are not on disk. -/
def repairChunks (gameDir : Path) : List FileEntry → HashSet Hash → FsIo (HashSet Hash)
  | [], repair => pure repair
  | entry :: entries, repair => do
    if ← isFile (join gameDir entry.name) then repairChunks gameDir entries repair
    else do
      let repair := entry.chunks.foldl (fun repair chunk => repair.insert chunk.hash) repair
      repairChunks gameDir entries repair

/-- What `run_cafe` has found out when it calls `download_missing`. -/
structure CafeReady where
  cafe : CafeStore
  old : Option GameIndex
  temp : HashSet Hash
  missing : List Hash

/-- `map(GameIndex::decode)` of the manifest in place. -/
def decodeOld : Option Bytes → FsIo (Option GameIndex)
  | none => pure none
  | some bytes => match GameIndex.decode blake3 bytes with
    | .ok index => pure (some index)
    | .error e => stop (.err (e.context "解析旧版本清单失败"))

/-- What `run_cafe` asks for, once the store of the game is open. -/
def planCafe (index : GameIndex) (cafe : CafeStore) : FsIo CafeReady := do
  let oldBytes ← cafe.currentManifestBytes
  let old ← decodeOld blake3 oldBytes
  let tempHashes ← collectTempHashes (tempDir dataDir gameId)
  let plan := UpdatePlan.compute index old tempHashes
  let repair ← repairChunks (gameDir dataDir gameId) index.files HashSet.empty
  pure ⟨cafe, old, tempHashes, ((plan.chunksToDownload ++ repair.elems).mergeSort hashLe).dedup⟩

/-- `run_cafe` up to the download; `opened` is the store of the game, where it is open already. -/
def prepareCafe (opened : Option CafeStore) (index : GameIndex) : FsIo CafeReady := do
  let temp := tempDir dataDir gameId
  context ("创建临时块目录失败: " ++ displayPath temp) (createDirAll temp)
  let cafe ← match opened with
    | some cafe => pure cafe
    | none => CafeStore.openStore blake3 dataDir gameId
  planCafe blake3 dataDir gameId index cafe

/-- The sink of `run_cafe`. -/
def cafeSink (hash : Hash) (data : Bytes) : FsIo Unit :=
  context "写入临时块失败" (writeFile (tempBlock (tempDir dataDir gameId) hash) data)

/-- `run_cafe`: the store, and the chunks it has reported. `download` is `download_missing` for the
game, `iter` the order in which the names to delete happen to be met. -/
def runCafe (download : (Hash → Bytes → FsIo Unit) → List Hash → FsIo Unit)
    (iter : IterOrder String)
    (reports : List (Except AnyError Unit)) (opened : Option CafeStore) (version : UInt64)
    (index : GameIndex) (manifest : Bytes) : FsIo (CafeStore × List Hash) := do
  let ready ← prepareCafe blake3 dataDir gameId opened index
  download (cafeSink dataDir gameId) ready.missing
  let merge ← mergeFiles blake3 (gameDir dataDir gameId) (tempDir dataDir gameId) iter
    index ready.old
  if merge.failed ≠ [] then stop (.err (.msg ("合并失败: " ++ "; ".intercalate merge.failed)))
  else do
    let cafe ← ready.cafe.saveManifest blake3 version manifest
    match reportChunks (index.chunkSet.mergeSort hashLe) reports with
    | (.ok (), sent) => pure (cafe, sent)
    | (.error e, _) => stop (.err e)

end Cafe

section Property

/-- `run_task` reports the task running, and the report is taken. -/
def ReportsRunning (calls : TaskCalls) (cfg : Config) : Prop :=
  cfg.controlAddr.isSome ∧ calls.connect = .ok () ∧ calls.reported "running" = .ok ()

/-- The version is found and its manifest can be read. -/
def VersionReadable (calls : TaskCalls) (blake3 : Bytes → Hash) : Prop :=
  ∃ manifest index, Agent.getVersion calls = .ok (some manifest)
    ∧ GameIndex.decode blake3 manifest = .ok index

def TaskReport.isTerminal (r : TaskReport) : Bool := r.status = "done" ∨ r.status = "failed"

/-- Once the task is reported running, exactly one report of its end is attempted, and it says done
only if the run has returned well. -/
def EndReported (calls : TaskCalls) (blake3 : Bytes → Hash) (cfg : Config) (nodeId : UInt64)
    (task : Task) : Prop :=
  ReportsRunning calls cfg → ∃ r : TaskReport,
    (runTaskOut calls blake3 cfg nodeId task).2.filter TaskReport.isTerminal = [r]
    ∧ r.nodeId = nodeId ∧ r.taskId = task.id
    ∧ (r.status = "done" → ∃ manifest index, Agent.getVersion calls = .ok (some manifest)
      ∧ GameIndex.decode blake3 manifest = .ok index
      ∧ runNode calls cfg.nodeType index manifest = .ok ())

/-- The directories `run_cafe` sees to before it looks at anything. -/
def cafeDirs (dataDir : Path) (gameId : UInt64) (opened : Option CafeStore) : FsIo Unit := do
  let temp := tempDir dataDir gameId
  context ("创建临时块目录失败: " ++ displayPath temp) (createDirAll temp)
  match opened with
  | some _ => pure ()
  | none => do
    context ("创建真实文件目录失败: " ++ displayPath (gameDir dataDir gameId))
      (createDirAll (gameDir dataDir gameId))
    context ("创建临时块目录失败: " ++ displayPath temp) (createDirAll temp)

/-- The store of the game, before it has read anything. -/
def cafeOf (dataDir : Path) (gameId : UInt64) (opened : Option CafeStore) : CafeStore :=
  opened.getD ⟨gameId, dataDir, none⟩

/-- A cafe that `run_cafe` finds: `d` with the directories of the game, on which the manifest in
place is that of `old`, and the blocks in the temporary directory are `temp`. -/
structure CafeState (blake3 : Bytes → Hash) (dataDir : Path) (gameId : UInt64)
    (opened : Option CafeStore) (start d : Disk) (old : Option GameIndex) (temp : HashSet Hash) :
    Prop where
  dirs : exec (cafeDirs dataDir gameId opened) start = (.ok (), d)
  old : (exec ((cafeOf dataDir gameId opened).currentManifestBytes >>= decodeOld blake3) d).1
    = .ok old
  temp : (exec (collectTempHashes (tempDir dataDir gameId)) d).1 = .ok temp

/-- The chunks asked for are those of the plan. -/
def AsksPlan (index : GameIndex) (old : Option GameIndex) (temp : HashSet Hash)
    (missing : List Hash) : Prop :=
  ∀ hash, hash ∈ missing ↔ hash ∈ (UpdatePlan.compute index old temp).chunksToDownload

end Property

end BlazeNet

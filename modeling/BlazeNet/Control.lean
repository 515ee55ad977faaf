import BlazeNet.SchedulerDb

/-!
# The requests of the scheduler

The control service (`register`, `push_task`, `report_task`, `report_chunk`, `publish_version`) and
the creation of tasks over HTTP, with the assignment of chunks to IDC nodes. Every request runs its
transactions one after another; one that fails ends the request with its status.
-/

namespace BlazeNet

open Wire FaultIo Io RustStd

inductive Code where
  | invalidArgument
  | notFound
  | internal
  deriving DecidableEq

/-- A gRPC status. -/
structure Status where
  code : Code
  message : String
  deriving DecidableEq

/-- The HTTP status codes of failed requests. -/
inductive StatusCode where
  | badRequest
  | notFound
  | internalServerError
  deriving DecidableEq

abbrev Handler (β : Type) := ExceptT β SchedIo

/-- `map_err(..)?` on a transaction. -/
def orFail {α β : Type} (err : AnyError → β) (p : SchedIo α) : Handler β α := ExceptT.mk do
  match ← attempt p with
  | .ok a => pure (.ok a)
  | .error e => pure (.error (err e))

def internal (text : String) (e : AnyError) : Status := ⟨.internal, text ++ ": " ++ e.display⟩

def storeError (_ : AnyError) : StatusCode := .internalServerError

def validNodeType (nodeType : String) : Bool :=
  nodeType = "origin" || nodeType = "idc" || nodeType = "cafe"

def taskKind (kind : String) : ℤ :=
  if kind = "DOWNLOAD" then 0
  else if kind = "UPDATE" then 1
  else if kind = "ROLLBACK" then 2
  else 0

def toProtoTask (task : TaskRecord) : Task :=
  ⟨task.id, task.gameId, task.version, taskKind task.kind, task.assignedChunks⟩

section Service

/-- Puts the event of a task at the end of its node's queue. -/
def enqueue (task : TaskRecord) (s : Sched) : Sched :=
  let queue := s.pending task.nodeId ++ [toProtoTask task]
  { s with pending := Function.update s.pending task.nodeId queue }

def pushTask (task : TaskRecord) : Handler Status Unit := do
  orFail (internal "写入任务失败") (Store.insertTask task)
  ExceptT.lift (modify (enqueue task))

structure RegisterRequest where
  nodeType : String
  endpointId : String
  addrs : List AddrRecord

structure RegisterReply where
  nodeId : UInt64
  token : String
  initialTasks : List Task

def register (nowMs : UInt64) (req : RegisterRequest) : Handler Status RegisterReply := do
  if !validNodeType req.nodeType then
    throw ⟨.invalidArgument, "node_type 必须为 origin/idc/cafe"⟩
  else do
    let id ← orFail (internal "分配节点 ID 失败") Store.nextNodeId
    let token := s!"{nowMs}-{id}"
    orFail (internal "写入节点失败") (Store.insertNode
      ⟨id, req.nodeType, req.endpointId, token, req.addrs, "online", nowMs⟩)
    let tasks ← orFail (internal "查询任务失败") (Store.tasksForNode id)
    pure ⟨id, token, (tasks.filter fun t => t.status = "queued").map toProtoTask⟩

def reportTask (taskId : UInt64) (status error : String) : Handler Status Unit := do
  let _ ← orFail (internal "更新任务失败") (Store.updateTaskStatus taskId status error)
  pure ()

def reportChunk (nodeId gameId : UInt64) (chunkHash : Bytes) : Handler Status Unit :=
  orFail (internal "块账本操作失败") (Store.recordChunkHolder nodeId gameId chunkHash)

/-- The latest version of a game follows a version published for it, if the tables allow. -/
def raiseLatest (gameId version : UInt64) : SchedIo Unit := do
  match ← attempt (Store.getGame gameId) with
  | .ok (some game) =>
    if version > game.latestVersion then do
      let _ ← attempt (Store.insertGame { game with latestVersion := version })
      pure ()
    else pure ()
  | _ => pure ()

def publishVersion (gameId version : UInt64) (manifest : Bytes) : Handler Status Unit := do
  if gameId = 0 || version = 0 then
    throw ⟨.invalidArgument, "game_id 与 version 必须大于 0"⟩
  else if manifest.isEmpty then throw ⟨.invalidArgument, "版本清单不能为空"⟩
  else do
    orFail (internal "保存版本清单失败") (Store.saveVersion gameId version manifest)
    ExceptT.lift (raiseLatest gameId version)

end Service

section Assign

variable (blake3 : Bytes → Hash)

/-- The order of `sort` on byte vectors. -/
def bytesLe (a b : Bytes) : Bool := a < b || a = b

/-- The loop of `assign_idc_chunks`: the chunks nobody holds. -/
def unheld (gameId : UInt64) : List Hash → SchedIo (List Bytes)
  | [] => pure []
  | hash :: hashes => do
    let holders ← Store.chunkHolders gameId hash.bytes
    let rest ← unheld gameId hashes
    pure (if holders.isEmpty then hash.bytes :: rest else rest)

def assignIdcChunks (gameId version : UInt64) (nodeType : String) : SchedIo (List Bytes) := do
  if nodeType ≠ "idc" then pure []
  else match ← Store.getVersion gameId version with
    | none => pure []
    | some manifest => match GameIndex.decode blake3 manifest with
      | .error e => stop (.err e)
      | .ok index => do
        let assigned ← unheld gameId index.chunkSet
        pure (assigned.mergeSort bytesLe)

structure CreateTaskRequest where
  nodeId : UInt64
  gameId : UInt64
  version : UInt64
  kind : String

/-- `push_task` as the HTTP service calls it. -/
def pushOrFail (task : TaskRecord) : Handler StatusCode Unit := ExceptT.mk do
  match ← (pushTask task).run with
  | .ok () => pure (.ok ())
  | .error _ => pure (.error .internalServerError)

def createTask (req : CreateTaskRequest) : Handler StatusCode TaskRecord := do
  if req.kind.isEmpty then throw .badRequest
  else match ← orFail storeError (Store.getNode req.nodeId) with
    | none => throw .notFound
    | some node => do
      let assignedChunks ← orFail storeError
        (assignIdcChunks blake3 req.gameId req.version node.nodeType)
      let id ← orFail storeError Store.nextTaskId
      let task : TaskRecord :=
        ⟨id, req.nodeId, req.gameId, req.version, req.kind, assignedChunks, "queued", ""⟩
      pushOrFail task
      pure task

end Assign

end BlazeNet

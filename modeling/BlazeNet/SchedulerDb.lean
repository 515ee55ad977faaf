import BlazeNet.CompioIo
import Std.Data.ExtTreeMap

/-!
# The tables of the scheduler

`Store` of the crate `scheduler` over redb: every function is one transaction, which takes effect
at its commit or not at all. A table keeps its records in the order of their keys; the JSON text a
record is kept as reads back as the record.
-/

namespace BlazeNet

open Wire FaultIo Io RustStd

structure AddrRecord where
  addr : String
  kind : String
  link : String
  deriving DecidableEq

structure NodeRecord where
  id : UInt64
  nodeType : String
  endpointId : String
  token : String
  addrs : List AddrRecord
  status : String
  lastHeartbeatMs : UInt64
  deriving DecidableEq

structure TaskRecord where
  id : UInt64
  nodeId : UInt64
  gameId : UInt64
  version : UInt64
  kind : String
  assignedChunks : List Bytes
  status : String
  error : String
  deriving DecidableEq

structure GameRecord where
  id : UInt64
  name : String
  status : String
  currentVersion : UInt64
  latestVersion : UInt64
  deriving DecidableEq

/-- A task as it is sent to a node. -/
structure Task where
  id : UInt64
  gameId : UInt64
  version : UInt64
  kind : ℤ
  assignedChunks : List Bytes
  deriving DecidableEq

/-- The tables the modelled requests use, and the events waiting to be pushed, which live in the
memory of the process. -/
structure Sched where
  nodes : Std.ExtTreeMap UInt64 NodeRecord
  tasks : Std.ExtTreeMap UInt64 TaskRecord
  counters : Std.ExtTreeMap String UInt64
  chunks : Std.ExtTreeMap String (List UInt64)
  games : Std.ExtTreeMap UInt64 GameRecord
  versions : Std.ExtTreeMap String Bytes
  pending : UInt64 → List Task

def Sched.empty : Sched := ⟨∅, ∅, ∅, ∅, ∅, ∅, fun _ => []⟩

/-- The number a counter gives out next. -/
def Sched.nextCount (s : Sched) (counter : String) : UInt64 :=
  (s.counters[counter]?.map (· + 1)).getD 1

abbrev SchedIo := Io AnyError Sched

namespace Store

def nextNodeIdKey : String := "next_node_id"

def nextTaskIdKey : String := "next_task_id"

def nextGameIdKey : String := "next_game_id"

def chunkKey (gameId : UInt64) (hash : Bytes) : String :=
  String.ofList (hexFixed 16 gameId.toNat ++ hexChars hash)

def versionKey (gameId version : UInt64) : String := s!"{gameId}:{version}"

/-- A call to the database that may fail and changes nothing yet. -/
def call (text : String) : SchedIo Unit := context text (query fun _ => .ok ())

def look {α : Type} (text : String) (f : Sched → α) : SchedIo α :=
  context text (query fun s => .ok (f s))

def commit (text : String) (f : Sched → Sched) : SchedIo Unit := context text (final f)

def nextId (counter : String) : SchedIo UInt64 := do
  call "开始写事务失败"
  call "打开计数表失败"
  let value ← look "读取计数失败" (·.counters[counter]?)
  let next := (value.map (· + 1)).getD 1
  call "写入计数失败"
  commit "提交计数事务失败" fun s => { s with counters := s.counters.insert counter next }
  pure next

def nextNodeId : SchedIo UInt64 := nextId nextNodeIdKey

def nextTaskId : SchedIo UInt64 := nextId nextTaskIdKey

def nextGameId : SchedIo UInt64 := nextId nextGameIdKey

def insertNode (node : NodeRecord) : SchedIo Unit := do
  call "开始写事务失败"
  call "打开 nodes 表失败"
  call "写入节点失败"
  commit "提交节点事务失败" fun s => { s with nodes := s.nodes.insert node.id node }

def getNode (id : UInt64) : SchedIo (Option NodeRecord) := do
  call "开始只读事务失败"
  call "打开 nodes 表失败"
  look "查询节点失败" (·.nodes[id]?)

def insertTask (task : TaskRecord) : SchedIo Unit := do
  call "开始写事务失败"
  call "打开 tasks 表失败"
  call "写入任务失败"
  commit "提交任务事务失败" fun s => { s with tasks := s.tasks.insert task.id task }

/-- `update_task_status`; a task that is not there is reported, not an error. -/
def updateTaskStatus (id : UInt64) (status error : String) : SchedIo Bool := do
  call "开始写事务失败"
  call "打开 tasks 表失败"
  match ← look "查询任务失败" (·.tasks[id]?) with
  | none => pure false
  | some task =>
    let task := { task with status := status, error := error }
    call "更新任务失败"
    commit "提交任务事务失败" fun s => { s with tasks := s.tasks.insert id task }
    pure true

/-- `list_tasks`: the records in the order of their ids, each of which may fail to be read. -/
def listTasks : SchedIo (List TaskRecord) := do
  call "开始只读事务失败"
  call "打开 tasks 表失败"
  let items ← look "遍历任务失败" (·.tasks.toList.map (·.2))
  each (fun _ => call "读取任务项失败") items
  pure items

def tasksForNode (nodeId : UInt64) : SchedIo (List TaskRecord) := do
  let tasks ← listTasks
  pure (tasks.filter fun t => t.nodeId = nodeId)

def recordChunkHolder (nodeId gameId : UInt64) (hash : Bytes) : SchedIo Unit := do
  let key := chunkKey gameId hash
  call "开始写事务失败"
  call "打开 chunks 表失败"
  let held ← look "查询块账本失败" (·.chunks[key]?)
  let holders := held.getD []
  if holders.contains nodeId then
    commit "提交块账本事务失败" id
  else do
    call "写入块账本失败"
    commit "提交块账本事务失败" fun s =>
      { s with chunks := s.chunks.insert key (holders ++ [nodeId]) }

def chunkHolders (gameId : UInt64) (hash : Bytes) : SchedIo (List UInt64) := do
  call "开始只读事务失败"
  call "打开 chunks 表失败"
  let held ← look "查询块账本失败" (·.chunks[chunkKey gameId hash]?)
  pure (held.getD [])

def insertGame (game : GameRecord) : SchedIo Unit := do
  call "开始写事务失败"
  call "打开表失败"
  call "写入记录失败"
  commit "提交事务失败" fun s => { s with games := s.games.insert game.id game }

def getGame (id : UInt64) : SchedIo (Option GameRecord) := do
  call "开始只读事务失败"
  call "打开表失败"
  look "查询记录失败" (·.games[id]?)

/-- Whether there was such a game. -/
def deleteGame (id : UInt64) : SchedIo Bool := do
  call "开始写事务失败"
  call "打开表失败"
  let found ← look "删除记录失败" (·.games[id]?.isSome)
  commit "提交事务失败" fun s => { s with games := s.games.erase id }
  pure found

def saveVersion (gameId version : UInt64) (manifest : Bytes) : SchedIo Unit := do
  call "开始写事务失败"
  call "打开 versions 表失败"
  call "写入版本清单失败"
  commit "提交版本事务失败" fun s =>
    { s with versions := s.versions.insert (versionKey gameId version) manifest }

def getVersion (gameId version : UInt64) : SchedIo (Option Bytes) := do
  call "开始只读事务失败"
  call "打开 versions 表失败"
  look "查询版本清单失败" (·.versions[versionKey gameId version]?)

end Store

end BlazeNet

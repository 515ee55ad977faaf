import BlazeNet.TaskView
import BlazeNet.WatchTasks

/-!
# The way of a task

A task is stored by `push_task`, its event is queued, drained by a `watch_loop`, sent and received;
the agent that receives it hands it to `on_task`, which reports it running and then done or failed.
The reply to a registration hands over the queued tasks of the new node as well, and `cancel_task`
looks at a task before it cancels it. Every transaction, every queue operation and every report is
a step of its own, and the steps of all requests interleave in any order. A process that dies starts
again over the same tables; the agents go on.
-/

namespace BlazeNet

open Wire FaultIo Io RustStd

section Requests

variable (blake3 : Bytes → Hash)

/-- `create_task` up to its push. -/
def prepareTask (req : CreateTaskRequest) : Handler StatusCode TaskRecord := do
  if req.kind.isEmpty then throw .badRequest
  else match ← orFail storeError (Store.getNode req.nodeId) with
    | none => throw .notFound
    | some node => do
      let assignedChunks ← orFail storeError
        (assignIdcChunks blake3 req.gameId req.version node.nodeType)
      let id ← orFail storeError Store.nextTaskId
      pure ⟨id, req.nodeId, req.gameId, req.version, req.kind, assignedChunks, "queued", ""⟩

/-- The look of `cancel_task` at the task. -/
def checkCancel (id : UInt64) : Handler StatusCode Unit := do
  let tasks ← orFail storeError Store.listTasks
  match tasks.find? fun t => t.id = id with
  | none => throw .notFound
  | some task => if task.status ≠ "queued" then throw .badRequest else pure ()

/-- The rest of `cancel_task`. -/
def applyCancel (id : UInt64) : Handler StatusCode Bool :=
  orFail storeError (Store.updateTaskStatus id "cancelled" "人工取消")

end Requests

/-- A registration that is not answered yet. -/
inductive Registration where
  | allocated (nowMs : UInt64) (req : RegisterRequest) (id : UInt64)
  | inserted (id : UInt64)

/-- The scheduler, its requests under way and the agents' work; `trace` is the writes of statuses
and the deliveries, the newest first. -/
structure TaskSys where
  watch : WatchSys
  regs : List Registration
  pushes : List Push
  cancels : List UInt64
  works : List Work
  trace : List TaskEvent

inductive TaskAct where
  | register (nowMs : UInt64) (req : RegisterRequest) (faults : List (Fault AnyError))
  | insertNode (i : ℕ) (faults : List (Fault AnyError))
  | reply (i : ℕ) (faults : List (Fault AnyError))
  | create (req : CreateTaskRequest) (faults : List (Fault AnyError))
  | push (task : TaskRecord)
  | store (i : ℕ) (faults : List (Fault AnyError))
  | enqueue (i : ℕ)
  | subscribe (nodeId : UInt64)
  | disconnect (i : ℕ)
  | drain (i : ℕ)
  | send (i : ℕ)
  | wake (i : ℕ)
  | deliver (i : ℕ)
  | check (id : UInt64) (faults : List (Fault AnyError))
  | cancel (i : ℕ) (faults : List (Fault AnyError))
  /-- A report; its answer may be lost on the way. -/
  | report (i : ℕ) (status error : String) (lost : Bool) (faults : List (Fault AnyError))
  /-- The agent goes no further with a task. -/
  | abandon (i : ℕ)
  | restart

namespace TaskSys

def init : TaskSys := ⟨.init, [], [], [], [], []⟩

def sched (s : TaskSys) : Sched := s.watch.sched

def setSched (s : TaskSys) (sched : Sched) : TaskSys :=
  { s with watch := { s.watch with sched := sched } }

/-- The process starts again over its tables. -/
def restart (s : TaskSys) : TaskSys :=
  { s with
    watch := { s.watch with
      sched := { s.watch.sched with pending := fun _ => [] }
      streams := [] }
    regs := []
    pushes := []
    cancels := [] }

/-- A part of a request runs to its answer or error, or the process dies in it. -/
def request {α β : Type} (s : TaskSys) (p : Handler β α) (faults : List (Fault AnyError))
    (next : Except β α → TaskSys → TaskSys) : TaskSys :=
  match p.run.run ⟨s.sched, faults⟩ with
  | (.ok r, w) => next r (s.setSched w.state)
  | (.error _, w) => (s.setSched w.state).restart

/-- Tasks handed to the agent of a node. -/
def hand (s : TaskSys) (nodeId : UInt64) (tasks : List Task) : TaskSys :=
  { s with
    works := s.works ++ tasks.map fun t => ⟨nodeId, t.id, .taken⟩
    trace := (tasks.map fun t => TaskEvent.handed t.id).reverse ++ s.trace }

def noteStatus (s : TaskSys) (id : UInt64) (status : String) : TaskSys :=
  { s with trace := .status id status :: s.trace }

/-- `next_node_id` of a registration. -/
def register (s : TaskSys) (nowMs : UInt64) (req : RegisterRequest)
    (faults : List (Fault AnyError)) : Option TaskSys :=
  if !validNodeType req.nodeType then none
  else some (s.request (orFail (internal "分配节点 ID 失败") Store.nextNodeId) faults fun r s =>
    match r with
    | .ok id => { s with regs := s.regs ++ [.allocated nowMs req id] }
    | .error _ => s)

def insertNode (s : TaskSys) (i : ℕ) (faults : List (Fault AnyError)) : Option TaskSys :=
  match s.regs[i]? with
  | some (.allocated nowMs req id) =>
    let node : NodeRecord :=
      ⟨id, req.nodeType, req.endpointId, s!"{nowMs}-{id}", req.addrs, "online", nowMs⟩
    some (s.request (orFail (internal "写入节点失败") (Store.insertNode node)) faults fun r s =>
      match r with
      | .ok () => { s with regs := s.regs.set i (.inserted id) }
      | .error _ => { s with regs := s.regs.eraseIdx i })
  | _ => none

/-- The tasks that the reply to a registration finds. -/
def queuedTasks (tasks : List TaskRecord) : List Task :=
  (tasks.filter fun t => t.status = "queued").map toProtoTask

def reply (s : TaskSys) (i : ℕ) (faults : List (Fault AnyError)) : Option TaskSys :=
  match s.regs[i]? with
  | some (.inserted id) =>
    some (s.request (orFail (internal "查询任务失败") (Store.tasksForNode id)) faults fun r s =>
      let s := { s with regs := s.regs.eraseIdx i }
      match r with
      | .ok tasks => s.hand id (queuedTasks tasks)
      | .error _ => s)
  | _ => none

def create (blake3 : Bytes → Hash) (s : TaskSys) (req : CreateTaskRequest)
    (faults : List (Fault AnyError)) : TaskSys :=
  s.request (prepareTask blake3 req) faults fun r s =>
    match r with
    | .ok task => { s with pushes := s.pushes ++ [⟨task, false⟩] }
    | .error _ => s

def store (s : TaskSys) (i : ℕ) (faults : List (Fault AnyError)) : Option TaskSys :=
  match s.pushes[i]? with
  | some ⟨task, false⟩ =>
    some (s.request (orFail (internal "写入任务失败") (Store.insertTask task)) faults fun r s =>
      match r with
      | .ok () => { s.noteStatus task.id task.status with pushes := s.pushes.set i ⟨task, true⟩ }
      | .error _ => { s with pushes := s.pushes.eraseIdx i })
  | _ => none

def enqueue (s : TaskSys) (i : ℕ) : Option TaskSys :=
  match s.pushes[i]? with
  | some ⟨task, true⟩ =>
    let s := s.setSched (BlazeNet.enqueue task s.sched)
    some { s with pushes := s.pushes.eraseIdx i }
  | _ => none

/-- A step of a stream. -/
def onWatch (s : TaskSys) (a : WatchAct) : Option TaskSys :=
  (s.watch.step a).map fun watch => { s with watch := watch }

/-- The client of a stream receives an event and hands it on. -/
def deliver (s : TaskSys) (i : ℕ) : Option TaskSys := do
  let st ← s.watch.streams[i]?
  let event ← st.channel.head?
  let s ← s.onWatch (.deliver i)
  pure (s.hand st.nodeId [event])

def check (s : TaskSys) (id : UInt64) (faults : List (Fault AnyError)) : TaskSys :=
  s.request (checkCancel id) faults fun r s =>
    match r with
    | .ok () => { s with cancels := s.cancels ++ [id] }
    | .error _ => s

def cancel (s : TaskSys) (i : ℕ) (faults : List (Fault AnyError)) : Option TaskSys :=
  match s.cancels[i]? with
  | some id =>
    some (s.request (applyCancel id) faults fun r s =>
      let s := { s with cancels := s.cancels.eraseIdx i }
      match r with
      | .ok true => s.noteStatus id "cancelled"
      | _ => s)
  | none => none

def setStage (s : TaskSys) (i : ℕ) (stage : Stage) : TaskSys :=
  match s.works[i]? with
  | some work => { s with works := s.works.set i { work with stage := stage } }
  | none => s

/-- A report of `run_task`: one that fails, or seems to, is its last. -/
def report (s : TaskSys) (i : ℕ) (status error : String) (lost : Bool)
    (faults : List (Fault AnyError)) : Option TaskSys :=
  match s.works[i]? with
  | none => none
  | some work => match Stage.report work.stage status with
    | none => none
    | some next =>
      let update := orFail (internal "更新任务失败")
        (Store.updateTaskStatus work.taskId status error)
      some ((s.setStage i .over).request update faults fun r s =>
        match r with
        | .ok found =>
          let s := if lost then s else s.setStage i next
          if found then s.noteStatus work.taskId status else s
        | .error _ => s)

def step (blake3 : Bytes → Hash) (s : TaskSys) : TaskAct → Option TaskSys
  | .register nowMs req faults => s.register nowMs req faults
  | .insertNode i faults => s.insertNode i faults
  | .reply i faults => s.reply i faults
  | .create req faults => some (s.create blake3 req faults)
  | .push task => some { s with pushes := s.pushes ++ [⟨task, false⟩] }
  | .store i faults => s.store i faults
  | .enqueue i => s.enqueue i
  | .subscribe nodeId => s.onWatch (.subscribe nodeId)
  | .disconnect i => s.onWatch (.disconnect i)
  | .drain i => s.onWatch (.drain i)
  | .send i => s.onWatch (.send i)
  | .wake i => s.onWatch (.wake i)
  | .deliver i => s.deliver i
  | .check id faults => some (s.check id faults)
  | .cancel i faults => s.cancel i faults
  | .report i status error lost faults => s.report i status error lost faults
  | .abandon i => some (s.setStage i .over)
  | .restart => some s.restart

def run (blake3 : Bytes → Hash) (s : TaskSys) : List TaskAct → Option TaskSys
  | [] => some s
  | a :: acts => (s.step blake3 a).bind fun s => s.run blake3 acts

/-- The events of a node that are waiting or on their way in a stream. -/
def flow (s : TaskSys) (n : UInt64) : List Task :=
  s.sched.pending n ++ (s.watch.streams.filter (·.nodeId = n)).flatMap fun st =>
    st.loop.batch ++ st.channel

/-- What becomes of the tasks, without the way it comes about. -/
def view (s : TaskSys) : TaskView :=
  ⟨s.sched.tasks, s.pushes, fun n => (s.flow n).map (·.id), s.works, s.trace⟩

/-- The ids handed to the agent of a node. -/
def handed (s : TaskSys) (n : UInt64) : List UInt64 :=
  (s.works.filter (·.nodeId = n)).map (·.taskId)

/-- Every task is handed to its agent at most once. -/
def HandedOnce (s : TaskSys) : Prop := ∀ n, (s.handed n).Nodup

end TaskSys

section Conditions

/-- A task that is pushed is queued and new, and a registration is answered only with tasks that
are neither on their way to the node nor handed to it. -/
def TaskAct.Fresh (s : TaskSys) : TaskAct → Prop
  | .create _ _ => s.view.Unused (s.sched.nextCount Store.nextTaskIdKey)
  | .push task => task.status = "queued" ∧ s.view.Unused task.id
  | .reply i _ => ∀ n, s.regs[i]? = some (.inserted n) →
    ∀ (id : UInt64) (t : TaskRecord), s.sched.tasks[id]? = some t → t.nodeId = n →
      t.status = "queued" → id ∉ s.view.onTheWay n ∧ id ∉ s.handed n
  | _ => True

/-- A task is cancelled only while it is still queued, its event is nowhere on its way, and no agent
is at work on it. -/
def TaskAct.Calm (s : TaskSys) : TaskAct → Prop
  | .cancel i _ => ∀ (id : UInt64) (t : TaskRecord), s.cancels[i]? = some id →
    s.sched.tasks[id]? = some t → t.status = "queued" ∧ id ∉ s.view.onTheWay t.nodeId
      ∧ ∀ w ∈ s.works, w.taskId = id → w.stage = .over
  | _ => True

/-- Every step of the run from `s` meets the condition. -/
def TaskSys.Through (blake3 : Bytes → Hash) (P : TaskSys → TaskAct → Prop) (s : TaskSys) :
    List TaskAct → Prop
  | [] => True
  | a :: acts => P s a ∧ ∀ s', s.step blake3 a = some s' → s'.Through blake3 P acts

end Conditions

end BlazeNet

import BlazeNet.SchedulerDb

/-!
# What becomes of the tasks

The tasks by themselves: the table, the pushes under way, the events on their way to each node, the
work of the agents, and the statuses and deliveries so far. A step adds a task, moves one further,
or loses some; only a cancellation changes a task from the outside.
-/

namespace BlazeNet

/-- A `push_task` that has not queued its event yet. -/
structure Push where
  task : TaskRecord
  stored : Bool

/-- Where `run_task` stands in its reports. -/
inductive Stage where
  | taken
  | running
  | over
  deriving DecidableEq

/-- A call of `on_task`. -/
structure Work where
  nodeId : UInt64
  taskId : UInt64
  stage : Stage
  deriving DecidableEq

/-- A write of a status, or a delivery. -/
inductive TaskEvent where
  | status (id : UInt64) (status : String)
  | handed (id : UInt64)

/-- The stage of `run_task` after a report, `none` where it does not make this report. -/
def Stage.report : Stage → String → Option Stage
  | .taken, status => if status = "running" then some .running else none
  | .running, status => if status = "done" ∨ status = "failed" then some .over else none
  | .over, _ => none

@[ext]
structure TaskView where
  tasks : Std.ExtTreeMap UInt64 TaskRecord
  pushes : List Push
  flow : UInt64 → Multiset UInt64
  works : List Work
  trace : List TaskEvent

section Trace

def lastTaskStatus (trace : List TaskEvent) (id : UInt64) : Option String :=
  trace.findSome? fun e => match e with
    | .status i text => if i = id then some text else none
    | .handed _ => none

/-- The moves a status may make: to queued, from there to running or cancelled, and from running to
done or failed. -/
def AllowedMove (old : Option String) (new : String) : Prop :=
  old = none ∧ new = "queued"
    ∨ old = some "queued" ∧ (new = "running" ∨ new = "cancelled")
    ∨ old = some "running" ∧ (new = "done" ∨ new = "failed")

/-- Every status written is an allowed move, and no cancelled task is delivered. -/
def LawfulTrace : List TaskEvent → Prop
  | [] => True
  | .status id text :: older => AllowedMove (lastTaskStatus older id) text ∧ LawfulTrace older
  | .handed id :: older => lastTaskStatus older id ≠ some "cancelled" ∧ LawfulTrace older

end Trace

namespace TaskView

/-- The id belongs to no task, stored or about to be. -/
def Unused (v : TaskView) (id : UInt64) : Prop :=
  v.tasks[id]? = none ∧ ∀ p ∈ v.pushes, p.task.id ≠ id

def onTheWay (v : TaskView) (n : UInt64) : Multiset UInt64 :=
  ((v.pushes.filter (·.task.nodeId = n)).map (·.task.id) : List UInt64) + v.flow n

def handed (v : TaskView) (n : UInt64) : Multiset UInt64 :=
  ((v.works.filter (·.nodeId = n)).map (·.taskId) : List UInt64)

/-- All copies of tasks of a node that have been or will be handed to its agent. -/
def copies (v : TaskView) (n : UInt64) : Multiset UInt64 := v.onTheWay n + v.handed n

def hand (v : TaskView) (n : UInt64) (ids : List UInt64) : TaskView :=
  { v with
    works := v.works ++ ids.map fun id => ⟨n, id, .taken⟩
    trace := (ids.map TaskEvent.handed).reverse ++ v.trace }

def setStatus (v : TaskView) (id : UInt64) (t : TaskRecord) (status error : String) : TaskView :=
  { v with
    tasks := v.tasks.insert id { t with status := status, error := error }
    trace := .status id status :: v.trace }

/-- The work goes on as before, or ends. -/
def Retires (w w' : Work) : Prop :=
  w'.nodeId = w.nodeId ∧ w'.taskId = w.taskId ∧ (w'.stage = w.stage ∨ w'.stage = .over)

inductive Step (v : TaskView) : TaskView → Prop
  /-- Nothing new; pushes, events and work may be lost. -/
  | eased {v' : TaskView} (tasks : v'.tasks = v.tasks) (pushes : v'.pushes.Sublist v.pushes)
      (flow : ∀ n, v'.flow n ≤ v.flow n) (works : List.Forall₂ Retires v.works v'.works)
      (trace : v'.trace = v.trace) : Step v v'
  | begun (task : TaskRecord) (status : task.status = "queued") (unused : v.Unused task.id) :
    Step v { v with pushes := v.pushes ++ [⟨task, false⟩] }
  | stored (i : ℕ) (task : TaskRecord) (push : v.pushes[i]? = some ⟨task, false⟩) :
    Step v { v with
      tasks := v.tasks.insert task.id task
      pushes := v.pushes.set i ⟨task, true⟩
      trace := .status task.id task.status :: v.trace }
  | queued (i : ℕ) (task : TaskRecord) (push : v.pushes[i]? = some ⟨task, true⟩) :
    Step v { v with
      pushes := v.pushes.eraseIdx i
      flow := Function.update v.flow task.nodeId (task.id ::ₘ v.flow task.nodeId) }
  | replied (n : UInt64) (ids : List UInt64) (nodup : ids.Nodup)
      (found : ∀ id ∈ ids, ∃ t, v.tasks[id]? = some t ∧ t.nodeId = n ∧ t.status = "queued")
      (apart : ∀ id ∈ ids, id ∉ v.copies n) : Step v (v.hand n ids)
  | delivered (n id : UInt64) (rest : Multiset UInt64) (flow : v.flow n = id ::ₘ rest) :
    Step v (hand { v with flow := Function.update v.flow n rest } n [id])
  | reported (i : ℕ) (w : Work) (next stage : Stage) (status error : String) (t : TaskRecord)
      (work : v.works[i]? = some w) (report : w.stage.report status = some next)
      (ended : stage = next ∨ stage = .over) (task : v.tasks[w.taskId]? = some t) :
    Step v (setStatus { v with works := v.works.set i { w with stage := stage } } w.taskId t
      status error)

end TaskView

end BlazeNet

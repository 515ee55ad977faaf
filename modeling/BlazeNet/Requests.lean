import BlazeNet.Control

/-!
# Runs of scheduler requests

Requests come one after another, each with the faults its transactions meet. A process that dies
in one of them starts again on the same tables, without the events that were waiting.
-/

namespace BlazeNet

open Wire FaultIo Io RustStd

inductive SchedReq where
  | register (nowMs : UInt64) (req : RegisterRequest)
  | createTask (req : CreateTaskRequest)
  | reportChunk (nodeId gameId : UInt64) (chunkHash : Bytes)
  | reportTask (taskId : UInt64) (status error : String)
  | publishVersion (gameId version : UInt64) (manifest : Bytes)

section Runs

variable (blake3 : Bytes → Hash)

/-- The scheduler after a handler has run, whatever it has answered. -/
def Sched.after {α β : Type} (s : Sched) (p : Handler β α) (faults : List (Fault AnyError)) :
    Sched :=
  match p.run.run ⟨s, faults⟩ with
  | (.error .killed, w) => { w.state with pending := fun _ => [] }
  | (_, w) => w.state

def Sched.handle (s : Sched) (req : SchedReq) (faults : List (Fault AnyError)) : Sched :=
  match req with
  | .register nowMs req => s.after (register nowMs req) faults
  | .createTask req => s.after (createTask blake3 req) faults
  | .reportChunk nodeId gameId hash => s.after (reportChunk nodeId gameId hash) faults
  | .reportTask taskId status error => s.after (reportTask taskId status error) faults
  | .publishVersion gameId version manifest =>
    s.after (publishVersion gameId version manifest) faults

def Sched.handleAll (s : Sched) : List (SchedReq × List (Fault AnyError)) → Sched
  | [] => s
  | (req, faults) :: reqs => (s.handle blake3 req faults).handleAll reqs

end Runs

section Assigned

def liveStatus (status : String) : Prop := status ≠ "failed" ∧ status ≠ "cancelled"

/-- A task that is not failed or cancelled. -/
def TaskRecord.Live (task : TaskRecord) : Prop := liveStatus task.status

/-- Two tasks give a chunk of the same game to different nodes. -/
def TaskRecord.Clash (t t' : TaskRecord) : Prop :=
  t.gameId = t'.gameId ∧ t.nodeId ≠ t'.nodeId ∧ ∃ b ∈ t.assignedChunks, b ∈ t'.assignedChunks

/-- Every chunk of a game is assigned to at most one node by the live tasks. -/
def Sched.AssignedOnce (s : Sched) : Prop :=
  ∀ (id id' : UInt64) (t t' : TaskRecord), s.tasks[id]? = some t → s.tasks[id']? = some t' →
    t.Live → t'.Live → ¬ t.Clash t'

variable (blake3 : Bytes → Hash)

/-- The chunks a task of the node for the version would be assigned: those of the manifest that
nobody holds yet. -/
def Sched.Unheld (s : Sched) (nodeId gameId version : UInt64) (b : Bytes) : Prop :=
  ∃ node manifest index hash, s.nodes[nodeId]? = some node ∧ node.nodeType = "idc"
    ∧ s.versions[Store.versionKey gameId version]? = some manifest
    ∧ GameIndex.decode blake3 manifest = .ok index ∧ hash ∈ index.chunkSet ∧ hash.bytes = b
    ∧ (s.chunks[Store.chunkKey gameId b]?).getD [] = []

/-- A task is created only when no live task of another node has a chunk it would be assigned,
and a failed or cancelled task comes back to life only when none has one of its chunks. -/
def SchedReq.Apart (s : Sched) : SchedReq → Prop
  | .createTask req => req.kind.isEmpty = false →
    ∀ b, s.Unheld blake3 req.nodeId req.gameId req.version b →
      ∀ (id : UInt64) (t : TaskRecord), s.tasks[id]? = some t → t.Live → t.gameId = req.gameId →
        t.nodeId ≠ req.nodeId → b ∉ t.assignedChunks
  | .reportTask taskId status _ => ∀ t : TaskRecord, s.tasks[taskId]? = some t → ¬ t.Live →
    liveStatus status → ∀ (id : UInt64) (t' : TaskRecord), s.tasks[id]? = some t' → t'.Live →
      ¬ t.Clash t'
  | _ => True

/-- Every request of the run from `s` keeps apart. -/
def Sched.ApartRun (s : Sched) : List (SchedReq × List (Fault AnyError)) → Prop
  | [] => True
  | (req, faults) :: reqs => req.Apart blake3 s ∧ (s.handle blake3 req faults).ApartRun reqs

end Assigned

end BlazeNet

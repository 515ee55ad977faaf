import BlazeNet.Keepalive
import BlazeNet.Lib.Jobs

/-!
# Heartbeats, registrations and keepalive ticks side by side

The same requests and ticks as in the runs of the keepalive loop, cut into the transactions they are
made of: a record is read in one, changed in memory and written back in another, and the
transactions of others fall in between. The clock does not go back.
-/

namespace BlazeNet

open Wire FaultIo Io RustStd

variable {Addr : Type} [DecidableEq Addr]

/-- The tables, and the time that `now_ms` reads. -/
structure NodeShared where
  sched : Sched
  clock : UInt64

abbrev NodeIo := Io AnyError NodeShared

/-- Where a job stands: what it does next, and what it keeps in its memory. A tick knows what it
meets, and the memory of the loop. -/
inductive NodeJob (Addr : Type) where
  | registering (req : RegisterRequest)
  | named (id : UInt64) (req : RegisterRequest)
  | heartbeat (nodeId : UInt64)
  | stamping (node : NodeRecord)
  | beating (node : NodeRecord)
  | ticking (t : Tick Addr) (keep : Prober Addr)
  | marking (t : Tick Addr) (keep : Prober Addr) (ids : List UInt64)
  | marked (t : Tick Addr) (keep : Prober Addr) (node : NodeRecord) (ids : List UInt64)
  | syncing (wants : List (UInt64 × String))
  | synced (node : NodeRecord) (wants : List (UInt64 × String))
  | finished

/-- What brings a new job; the memory of the loop is whatever its earlier ticks have left. -/
inductive NodeRequest (Addr : Type) where
  | register (req : RegisterRequest)
  | heartbeat (nodeId : UInt64)
  | tick (t : Tick Addr) (keep : Prober Addr)

namespace NodeJob

/-- A transaction of the store. -/
def db {α : Type} (p : SchedIo α) : NodeIo α :=
  zoom (·.sched) (fun sched s => { s with sched := sched }) p

/-- Reads a node that is to get the status `want`; `other` is for one that is not there or has
it. -/
def readFor (id : UInt64) (want : String) (found : NodeRecord → NodeJob Addr)
    (other : NodeJob Addr) : NodeIo (NodeJob Addr) :=
  transact (db (Store.getNode id)) fun r => match r with
    | .ok (some node) => if node.status ≠ want then found { node with status := want } else other
    | _ => other

variable (cfg : KeepConfig Addr)

/-- The statuses that the availability of the addresses asks for, after the probes of a tick. -/
def wantsOf (t : Tick Addr) (keep : Prober Addr) (nodes : List NodeRecord) :
    List (UInt64 × String) :=
  let addrs := cfg.metaOf nodes
  let keep := (keep.probe cfg t addrs).1
  (t.statusOrder.order addrs.entries).map fun e =>
    (e.2.1, if keep.available e.1 then "online" else "offline")

/-- The next transaction of a job, or the next step in its memory. -/
def next : NodeJob Addr → NodeIo (NodeJob Addr)
  | .registering req =>
    if !validNodeType req.nodeType then pure .finished
    else transact (db Store.nextNodeId) fun r => match r with
      | .ok id => .named id req
      | .error _ => .finished
  | .named id req => do
    let s ← get
    pure (.stamping ⟨id, req.nodeType, req.endpointId, s!"{s.clock}-{id}", req.addrs, "online", 0⟩)
  | .heartbeat nodeId => transact (db (Store.getNode nodeId)) fun r => match r with
    | .ok (some node) => .stamping node
    | _ => .finished
  | .stamping node => do
    let s ← get
    pure (.beating { node with lastHeartbeatMs := s.clock, status := "online" })
  | .beating node => transact (db (Store.insertNode node)) fun _ => .finished
  | .ticking t keep =>
    transact (db (Store.offlineNodes t.nowMs cfg.heartbeatTimeoutMs)) fun r => match r with
      | .ok ids => .marking t keep ids
      | .error _ => .marking t keep []
  | .marking t keep (id :: ids) =>
    readFor id "offline" (fun node => .marked t keep node ids) (.marking t keep ids)
  | .marked t keep node ids =>
    transact (db (Store.insertNode node)) fun _ => .marking t keep ids
  | .marking t keep [] => transact (db Store.listNodes) fun r => match r with
    | .ok nodes => .syncing (wantsOf cfg t keep nodes)
    | .error _ => .syncing (wantsOf cfg t keep [])
  | .syncing ((id, want) :: wants) =>
    readFor id want (fun node => .synced node wants) (.syncing wants)
  | .synced node wants => transact (db (Store.insertNode node)) fun _ => .syncing wants
  | .syncing [] => pure .finished
  | .finished => pure .finished

end NodeJob

/-- The scheduler's jobs on its nodes. The environment is the clock, which moves on to a later
time. -/
def nodeSystem (cfg : KeepConfig Addr) :
    JobSystem AnyError NodeShared (NodeJob Addr) (NodeRequest Addr) UInt64 where
  begin
    | .register req => .registering req
    | .heartbeat nodeId => .heartbeat nodeId
    | .tick t keep => .ticking t keep
  next _ j := j.next cfg
  env now s := if s.clock ≤ now then { s with clock := now } else s
  restart s := { s with sched := { s.sched with pending := fun _ => [] } }

/-- No job yet, over empty tables. -/
def noNodes : Jobs NodeShared (NodeJob Addr) := ⟨⟨.empty, 0⟩, []⟩

section Property

/-- The record that a job is about to write. -/
def NodeJob.holds : NodeJob Addr → Option NodeRecord
  | .beating node => some node
  | .marked _ _ node _ => some node
  | .synced node _ => some node
  | _ => none

/-- A heartbeat or a registration writes its record only while no other job holds one of the same
node with an earlier time. -/
def LatestLast (s : Jobs NodeShared (NodeJob Addr)) :
    Move AnyError (NodeRequest Addr) UInt64 → Prop
  | .go i _ => ∀ node, s.jobs[i]? = some (.beating node) → ∀ k j held, k ≠ i →
    s.jobs[k]? = some j → j.holds = some held → held.id = node.id →
      node.lastHeartbeatMs ≤ held.lastHeartbeatMs
  | _ => True

end Property

end BlazeNet

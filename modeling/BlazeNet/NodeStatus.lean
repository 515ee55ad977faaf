import BlazeNet.Keepalive

/-!
# The status of a node over a run

Ticks, heartbeats, registrations and restarts follow one another, each with the faults it meets.
None begins before the last has ended; what comes of transactions that fall between one another is
not told here, but by the steps of their jobs. A process that dies starts again over the same tables
with a fresh memory. The trace tells when a node went offline and what was heard of it since.
-/

namespace BlazeNet

open Wire FaultIo Io RustStd

variable {Addr : Type} [DecidableEq Addr]

inductive KeepAct (Addr : Type) where
  | tick (t : Tick Addr) (faults : List (Fault AnyError))
  | heartbeat (nowMs nodeId : UInt64) (faults : List (Fault AnyError))
  | register (nowMs : UInt64) (req : RegisterRequest) (faults : List (Fault AnyError))
  | restart

namespace KeepSys

def init : KeepSys Addr := ⟨.empty, .new, []⟩

/-- A fresh memory over the same tables. -/
def restart (s : KeepSys Addr) : KeepSys Addr :=
  { s with sched := { s.sched with pending := fun _ => [] }, prober := .new }

def after (s : KeepSys Addr) (p : KeepIo Addr Unit) (faults : List (Fault AnyError)) :
    KeepSys Addr :=
  match p.run ⟨s, faults⟩ with
  | (.error .killed, w) => w.state.restart
  | (_, w) => w.state

variable (cfg : KeepConfig Addr)

def step (s : KeepSys Addr) : KeepAct Addr → KeepSys Addr
  | .tick t faults => s.after (tick cfg t) faults
  | .heartbeat nowMs nodeId faults => s.after (heartbeat nowMs nodeId) faults
  | .register nowMs req faults => s.after (registerNode nowMs req) faults
  | .restart => s.restart

def run (s : KeepSys Addr) (acts : List (KeepAct Addr)) : KeepSys Addr := acts.foldl (step cfg) s

end KeepSys

section Trace

/-- The status a node was last written with. -/
def lastStatus (trace : List (NodeEvent Addr)) (id : UInt64) : Option String :=
  trace.findSome? fun e => match e with
    | .status i text => if i = id then some text else none
    | _ => none

/-- What has happened since the node last went offline. -/
def sinceOffline (trace : List (NodeEvent Addr)) (id : UInt64) : List (NodeEvent Addr) :=
  trace.takeWhile fun e => match e with
    | .status i text => !(i = id && text = "offline")
    | _ => true

/-- A heartbeat of the node, or a pong from an address of its own. -/
def Evidence (owns : UInt64 → Addr → Prop) (id : UInt64) : NodeEvent Addr → Prop
  | .heartbeat i => i = id
  | .pong addr => owns id addr
  | .status _ _ => False

/-- Whenever an offline node was written online, something had been heard of it since it went
offline. -/
def Justified (owns : UInt64 → Addr → Prop) : List (NodeEvent Addr) → Prop
  | [] => True
  | e :: older => (∀ id, e = .status id "online" → lastStatus older id = some "offline" →
      ∃ x ∈ sinceOffline older id, Evidence owns id x) ∧ Justified owns older

end Trace

section Conditions

variable (cfg : KeepConfig Addr)

/-- The address is a keepalive address of the node. -/
def KeepSys.Owns (s : KeepSys Addr) (id : UInt64) (addr : Addr) : Prop :=
  ∃ node, s.sched.nodes[id]? = some node ∧ addr ∈ (cfg.keepaliveAddrs node).map (·.1)

def Tick.TimedOut (t : Tick Addr) (node : NodeRecord) : Prop :=
  t.nowMs.toNat - node.lastHeartbeatMs.toNat > cfg.heartbeatTimeoutMs.toNat

/-- A tick finds every node with at most one keepalive address, which counts as unavailable if the
node is offline or has lost its heartbeat; a registration finds its id free. -/
def KeepAct.Careful (s : KeepSys Addr) : KeepAct Addr → Prop
  | .tick t _ => ∀ (id : UInt64) (node : NodeRecord), s.sched.nodes[id]? = some node →
    (∀ a ∈ cfg.keepaliveAddrs node, ∀ b ∈ cfg.keepaliveAddrs node, a.1 = b.1)
    ∧ (node.status = "offline" ∨ t.TimedOut cfg node →
      ∀ a ∈ cfg.keepaliveAddrs node, s.prober.available a.1 = false)
  | .register _ _ _ =>
    s.sched.nodes[s.sched.nextCount Store.nextNodeIdKey]? = none
  | _ => True

def KeepSys.CarefulRun (s : KeepSys Addr) : List (KeepAct Addr) → Prop
  | [] => True
  | a :: acts => a.Careful cfg s ∧ (s.step cfg a).CarefulRun acts

end Conditions

section Orders

variable (cfg : KeepConfig Addr) (s : KeepSys Addr)

/-- Every node is kept under its own id. -/
def KeepSys.Filed : Prop :=
  ∀ (id : UInt64) (node : NodeRecord), s.sched.nodes[id]? = some node → node.id = id

def KeepSys.statuses (id : UInt64) : Option String := s.sched.nodes[id]?.map (·.status)

/-- The map of addresses that a tick builds. -/
def KeepSys.addrMap : Meta Addr := cfg.metaOf (s.sched.nodes.toList.map (·.2))

/-- The memory of a tick when it comes to the statuses. -/
def KeepSys.probed (t : Tick Addr) : Prober Addr := (s.prober.probe cfg t (s.addrMap cfg)).1

/-- What a tick without faults leaves. -/
def KeepSys.ticked (t : Tick Addr) : KeepSys Addr := (exec (KeepSys.tick cfg t) s).2

/-- Ticks at the same time that find the same addresses of the map available, whatever orders they
go through it in. -/
def Tick.Alike (t t' : Tick Addr) : Prop :=
  t'.nowMs = t.nowMs
    ∧ ∀ e ∈ (s.addrMap cfg).entries,
    (s.probed cfg t').available e.1 = (s.probed cfg t).available e.1

/-- The statuses after a tick are those after any other such tick, and a node with an available
address is online. -/
structure Tick.Settles (t : Tick Addr) : Prop where
  same : ∀ t', t.Alike cfg s t' → (s.ticked cfg t').statuses = (s.ticked cfg t).statuses
  online : ∀ e ∈ (s.addrMap cfg).entries, (s.probed cfg t).available e.1 = true →
    (s.ticked cfg t).statuses e.2.1 = some "online"

/-- No node has an available address and an unavailable one. -/
def Tick.Agreeing (t : Tick Addr) : Prop :=
  ∀ e ∈ (s.addrMap cfg).entries, ∀ e' ∈ (s.addrMap cfg).entries, e.2.1 = e'.2.1 →
    (s.probed cfg t).available e.1 = (s.probed cfg t).available e'.1

end Orders

end BlazeNet

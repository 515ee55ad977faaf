import BlazeNet.NodeStatus

/-!
# A node that is not heard of

From some moment on nothing comes from a node, neither a heartbeat nor a pong from an address of its
own, while the loop lives on and everything else goes its way. Such a node has to end offline, once
its addresses have been pinged as often as the threshold says and the pings have grown too old.
-/

namespace BlazeNet

open Wire FaultIo Io RustStd

variable {Addr : Type} [DecidableEq Addr] (cfg : KeepConfig Addr)

namespace KeepAct

/-- The process lives through the action. -/
def Lives (s : KeepSys Addr) : KeepAct Addr → Prop
  | .tick t faults => ((KeepSys.tick cfg t).run ⟨s, faults⟩).1 ≠ .error .killed
  | .heartbeat nowMs nodeId faults =>
    ((KeepSys.heartbeat nowMs nodeId).run ⟨s, faults⟩).1 ≠ .error .killed
  | .register nowMs req faults =>
    ((KeepSys.registerNode nowMs req).run ⟨s, faults⟩).1 ≠ .error .killed
  | .restart => False

/-- The process lives on, nobody registers under the id of the node, and nothing is heard of it. -/
structure Silent (s : KeepSys Addr) (id : UInt64) (a : KeepAct Addr) : Prop where
  lives : a.Lives cfg s
  apart : ∀ nowMs req faults, a = .register nowMs req faults →
    s.sched.nextCount Store.nextNodeIdKey ≠ id
  unheard : ∀ new, (s.step cfg a).trace = new ++ s.trace → ∀ e ∈ new, ¬ Evidence (s.Owns cfg) id e

/-- A tick without faults in the slot of an address. -/
def probes (addr : Addr) : KeepAct Addr → Bool
  | .tick t faults => faults.isEmpty && cfg.addrSlot addr = t.nowSecs % cfg.intervalSecs
  | _ => false

/-- The pings of the action are sent by some time. -/
def SentBy (time : ℕ) : KeepAct Addr → Prop
  | .tick t _ => ∀ k, t.sent k ≤ time
  | _ => True

/-- How many pings the action can send. -/
def pings (s : KeepSys Addr) : KeepAct Addr → ℕ
  | .tick t _ => (cfg.due t (s.addrMap cfg)).length
  | _ => 0

end KeepAct

namespace KeepSys

def SilentRun (s : KeepSys Addr) (id : UInt64) : List (KeepAct Addr) → Prop
  | [] => True
  | a :: acts => a.Silent cfg s id ∧ (s.step cfg a).SilentRun id acts

def pings (s : KeepSys Addr) : List (KeepAct Addr) → ℕ
  | [] => 0
  | a :: acts => a.pings cfg s + (s.step cfg a).pings acts

end KeepSys

end BlazeNet

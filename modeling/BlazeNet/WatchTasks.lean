import BlazeNet.Control

/-!
# Task streams

Every `WatchTasks` call starts a `watch_loop` of its own, which takes all waiting events of its
node at once and sends them one by one into a bounded channel; the client reads the channel as long
as it is connected. Loops of one node coexist, and a loop only learns from a failed send that its
client has gone. The system steps by pushes, subscriptions, disconnections, and single steps of the
loops and clients, in any order.
-/

namespace BlazeNet

open FaultIo Io

/-- Where a `watch_loop` stands. -/
inductive LoopState where
  | draining
  | sending (events : List Task)
  /-- Waiting for a notification or the timeout. -/
  | idle
  | returned
  deriving DecidableEq

/-- One task stream: its loop, its channel, its client. -/
structure Stream where
  nodeId : UInt64
  loop : LoopState
  channel : List Task
  connected : Bool
  received : List Task
  deriving DecidableEq

/-- `mpsc::channel(128)`. -/
def channelCapacity : ℕ := 128

structure WatchSys where
  sched : Sched
  streams : List Stream
  /-- The events pushed so far, by node. -/
  pushed : UInt64 → List Task

def WatchSys.init : WatchSys := ⟨.empty, [], fun _ => []⟩

inductive WatchAct where
  | push (task : TaskRecord) (faults : List (Fault AnyError))
  | subscribe (nodeId : UInt64)
  | disconnect (i : ℕ)
  | drain (i : ℕ)
  | send (i : ℕ)
  | wake (i : ℕ)
  | deliver (i : ℕ)

/-- A step of the loop of a stream, on the queue of its node; `none` where it cannot be made. -/
def Stream.drain (st : Stream) (queue : List Task) : Option (Stream × List Task) :=
  match st.loop with
  | .draining => some ({ st with loop := .sending queue }, [])
  | _ => none

def Stream.send (st : Stream) : Option Stream :=
  match st.loop with
  | .sending [] => some { st with loop := .idle }
  | .sending (e :: es) =>
    if !st.connected then some { st with loop := .returned }
    else if st.channel.length < channelCapacity then
      some { st with loop := .sending es, channel := st.channel ++ [e] }
    else none
  | _ => none

def Stream.wake (st : Stream) : Option Stream :=
  match st.loop with
  | .idle => some { st with loop := .draining }
  | _ => none

/-- The client reads an event. -/
def Stream.deliver (st : Stream) : Option Stream :=
  match st.connected, st.channel with
  | true, e :: es => some { st with channel := es, received := st.received ++ [e] }
  | _, _ => none

/-- The client goes, and with it what lies in the channel. -/
def Stream.disconnect (st : Stream) : Option Stream :=
  if st.connected then some { st with connected := false, channel := [] } else none

def WatchSys.onStream (s : WatchSys) (i : ℕ) (f : Stream → Option Stream) : Option WatchSys := do
  let st ← s.streams[i]?
  let st ← f st
  pure { s with streams := s.streams.set i st }

/-- The push of a task: an event is there once `push_task` has returned `Ok`. -/
def WatchSys.push (s : WatchSys) (task : TaskRecord) (faults : List (Fault AnyError)) :
    Option WatchSys :=
  match (pushTask task).run.run ⟨s.sched, faults⟩ with
  | (.ok (.ok ()), w) =>
    let all := s.pushed task.nodeId ++ [toProtoTask task]
    some { s with sched := w.state, pushed := Function.update s.pushed task.nodeId all }
  | (.ok (.error _), w) => some { s with sched := w.state }
  | (.error _, _) => none

def WatchSys.step (s : WatchSys) : WatchAct → Option WatchSys
  | .push task faults => s.push task faults
  | .subscribe nodeId => some { s with streams := s.streams ++ [⟨nodeId, .draining, [], true, []⟩] }
  | .disconnect i => s.onStream i Stream.disconnect
  | .drain i => do
    let st ← s.streams[i]?
    let (st, queue) ← st.drain (s.sched.pending st.nodeId)
    pure { s with
      streams := s.streams.set i st
      sched := { s.sched with pending := Function.update s.sched.pending st.nodeId queue } }
  | .send i => s.onStream i Stream.send
  | .wake i => s.onStream i Stream.wake
  | .deliver i => s.onStream i Stream.deliver

def WatchSys.run (s : WatchSys) : List WatchAct → Option WatchSys
  | [] => some s
  | a :: acts => (s.step a).bind fun s => s.run acts

/-- The events a loop has taken and not sent yet. -/
def LoopState.batch : LoopState → List Task
  | .sending events => events
  | _ => []

/-- The events buffered in a stream whose client is connected. -/
def Stream.buffered (st : Stream) : List Task :=
  if st.connected then st.loop.batch ++ st.channel else []

/-- The events of node `n` that are accounted for: waiting, buffered for a connected client, or
received. -/
def WatchSys.accounted (s : WatchSys) (n : UInt64) : Multiset Task :=
  s.sched.pending n
    + ((s.streams.filter (·.nodeId = n)).map fun st => (st.buffered : Multiset Task)).sum
    + ((s.streams.filter (·.nodeId = n)).map fun st => (st.received : Multiset Task)).sum

def WatchSys.NoneLost (s : WatchSys) : Prop := ∀ n, (s.pushed n : Multiset Task) ≤ s.accounted n

/-- A disconnection takes no event with it, and a loop whose client has gone finds no event to
take. -/
def WatchAct.Careful (s : WatchSys) : WatchAct → Prop
  | .disconnect i => ∀ st, s.streams[i]? = some st → st.buffered = []
  | .drain i => ∀ st, s.streams[i]? = some st → st.connected = false →
    st.loop = .draining → s.sched.pending st.nodeId = []
  | _ => True

/-- Every step of the run from `s` is careful. -/
def WatchSys.CarefulRun (s : WatchSys) : List WatchAct → Prop
  | [] => True
  | a :: acts => a.Careful s ∧ ∀ s', s.step a = some s' → s'.CarefulRun acts

end BlazeNet

import BlazeNet.WatchTasks
import BlazeNet.Proofs.Control

/-!
# No event is lost while disconnections are careful

Events move from the queue of a node into the batch of a loop, into its channel, to its client;
each step moves what it takes (`WatchSys.step_accounted`). Only a client that goes while events are
on their way to it, and a loop that takes events for a client that has gone, lose any.
-/

namespace BlazeNet

open FaultIo Io

variable {s s' : WatchSys} {n : UInt64} {i : ℕ} {st st' : Stream}

section Streams

theorem set_of_getElem? {α : Type} {l : List α} {a : α} (h : l[i]? = some a) (b : α) :
    ∃ pre post, l = pre ++ a :: post ∧ l.set i b = pre ++ b :: post := by
  obtain ⟨hi, rfl⟩ := List.getElem?_eq_some_iff.1 h
  refine ⟨l.take i, l.drop (i + 1), ?_, ?_⟩
  · rw [List.getElem_cons_drop, List.take_append_drop]
  · exact List.set_eq_take_append_cons_drop .. |>.trans (if_pos hi)

/-- What a list of streams contributes for node `n`. -/
def heldBy (f : Stream → List Task) (n : UInt64) (streams : List Stream) : Multiset Task :=
  ((streams.filter (·.nodeId = n)).map fun st => (f st : Multiset Task)).sum

theorem heldBy_append (f : Stream → List Task) (l l' : List Stream) :
    heldBy f n (l ++ l') = heldBy f n l + heldBy f n l' := by
  simp [heldBy]

theorem heldBy_cons (f : Stream → List Task) (st : Stream) (l : List Stream) :
    heldBy f n (st :: l)
      = (if st.nodeId = n then (f st : Multiset Task) else 0) + heldBy f n l := by
  unfold heldBy
  by_cases h : st.nodeId = n <;> simp [h]

/-- One stream of many takes a step. -/
theorem onStream_cases {f : Stream → Option Stream} (h : s.onStream i f = some s') :
    ∃ pre st post st', s.streams = pre ++ st :: post ∧ s.streams[i]? = some st
      ∧ f st = some st' ∧ s' = { s with streams := pre ++ st' :: post } := by
  unfold WatchSys.onStream at h
  rcases hi : s.streams[i]? with _ | st
  · simp [hi] at h
  rcases hf : f st with _ | st'
  · simp [hi, hf] at h
  obtain ⟨pre, post, hs, hset⟩ := set_of_getElem? hi st'
  refine ⟨pre, st, post, st', hs, rfl, hf, ?_⟩
  simp only [hi, hf, Option.bind_eq_bind, Option.bind_some, Option.pure_def, Option.some.injEq] at h
  rw [← h, hset]

end Streams

section Steps

/-- The events of a stream, on their way and received. -/
def Stream.kept (st : Stream) : Multiset Task := (st.buffered : Multiset Task) + st.received

theorem accounted_eq (s : WatchSys) (n : UInt64) : s.accounted n
    = s.sched.pending n + (heldBy Stream.buffered n s.streams + heldBy Stream.received
      n s.streams) :=
  add_assoc _ _ _

theorem accounted_split (s : WatchSys) (pre post : List Stream) (st : Stream) (n : UInt64)
    (h : s.streams = pre ++ st :: post) : s.accounted n
      = s.sched.pending n + (if st.nodeId = n then st.kept else 0)
        + (heldBy Stream.buffered n (pre ++ post) + heldBy Stream.received n (pre ++ post)) := by
  rw [accounted_eq, h]
  simp only [heldBy_append, heldBy_cons, Stream.kept]
  split_ifs <;> abel

theorem Stream.send_kept (h : st.send = some st') :
    st'.nodeId = st.nodeId ∧ st'.kept = st.kept := by
  rcases st with ⟨node, _ | (_ | ⟨e, es⟩) | _ | _, channel, connected, received⟩
  · cases h
  · cases h
    simp [Stream.kept, Stream.buffered, LoopState.batch]
  · rcases connected with _ | _
    · cases h
      exact ⟨rfl, rfl⟩
    · simp only [Stream.send, Bool.not_true, Bool.false_eq_true, if_false] at h
      split_ifs at h
      cases h
      refine ⟨rfl, congrArg (· + (received : Multiset Task)) (Multiset.coe_eq_coe.2 ?_)⟩
      simp only [Stream.buffered, if_true, LoopState.batch, ← List.append_assoc]
      exact (List.perm_append_singleton e (es ++ channel))
  · cases h
  · cases h

theorem Stream.wake_kept (h : st.wake = some st') :
    st'.nodeId = st.nodeId ∧ st'.kept = st.kept := by
  rcases st with ⟨node, _ | _ | _ | _, channel, connected, received⟩ <;> cases h
  exact ⟨rfl, rfl⟩

theorem Stream.deliver_kept (h : st.deliver = some st') :
    st'.nodeId = st.nodeId ∧ st'.kept = st.kept := by
  rcases st with ⟨node, loop, _ | ⟨e, es⟩, _ | _, received⟩ <;> cases h
  refine ⟨rfl, ?_⟩
  simp only [Stream.kept, Stream.buffered, if_true, ← Multiset.coe_add, ← Multiset.cons_coe,
    ← Multiset.singleton_add, Multiset.coe_nil]
  abel

/-- A client that goes with nothing on its way. -/
theorem Stream.disconnect_kept (h : st.disconnect = some st') (hb : st.buffered = []) :
    st'.nodeId = st.nodeId ∧ st'.kept = st.kept := by
  unfold Stream.disconnect at h
  split_ifs at h
  cases h
  refine ⟨rfl, ?_⟩
  rw [Stream.kept, Stream.kept, hb]
  rfl

/-- A step of one stream that keeps its events keeps the account. -/
theorem onStream_accounted {f : Stream → Option Stream} (h : s.onStream i f = some s')
    (hf : ∀ st st', s.streams[i]? = some st → f st = some st' →
      st'.nodeId = st.nodeId ∧ st'.kept = st.kept) :
    s'.pushed = s.pushed ∧ ∀ n, s'.accounted n = s.accounted n := by
  obtain ⟨pre, st, post, st', hs, hi, hst, rfl⟩ := onStream_cases h
  obtain ⟨hnode, hkept⟩ := hf st st' hi hst
  refine ⟨rfl, fun n => ?_⟩
  rw [accounted_split s pre post st n hs, accounted_split _ pre post st' n rfl, hnode, hkept]

theorem drain_accounted (h : s.step (.drain i) = some s')
    (hc : WatchAct.Careful s (.drain i)) :
    s'.pushed = s.pushed ∧ ∀ n, s'.accounted n = s.accounted n := by
  simp only [WatchSys.step] at h
  rcases hi : s.streams[i]? with _ | st
  · simp [hi] at h
  rcases st with ⟨node, _ | es | _ | _, channel, connected, received⟩
  case some.draining =>
    obtain ⟨pre, post, hs, hset⟩ := set_of_getElem? hi
      ⟨node, .sending (s.sched.pending node), channel, connected, received⟩
    simp only [hi, Stream.drain, Option.bind_eq_bind, Option.bind_some, Option.pure_def,
      Option.some.injEq, hset] at h
    subst h
    refine ⟨rfl, fun n => ?_⟩
    rw [accounted_split s pre post _ n hs, accounted_split _ pre post _ n rfl]
    dsimp only
    congr 1
    by_cases hn : node = n
    · subst hn
      rw [Function.update_self, if_pos rfl, if_pos rfl]
      rcases connected with _ | _
      · have hempty := hc _ hi rfl rfl
        dsimp only at hempty
        simp [Stream.kept, Stream.buffered, hempty]
      · simp only [Stream.kept, Stream.buffered, if_true, LoopState.batch, List.nil_append,
          Multiset.coe_nil, zero_add, ← Multiset.coe_add]
        abel
    · rw [Function.update_of_ne (Ne.symm hn), if_neg hn, if_neg hn]
  all_goals simp [hi, Stream.drain] at h

/-- A careful step accounts for every event it is given. -/
theorem step_accounted {a : WatchAct} (h : s.step a = some s') (hc : a.Careful s)
    (hs : ∀ n, (s.pushed n : Multiset Task) = s.accounted n) :
    ∀ n, (s'.pushed n : Multiset Task) = s'.accounted n := by
  have move : (s'.pushed = s.pushed ∧ ∀ n, s'.accounted n = s.accounted n) →
      ∀ n, (s'.pushed n : Multiset Task) = s'.accounted n := fun hm n => by
    rw [hm.1, hm.2 n, hs n]
  cases a with
  | push task faults =>
    simp only [WatchSys.step, WatchSys.push] at h
    rcases pushTask_cases task s.sched faults with ⟨fs, hr⟩ | ⟨r, fs, hr, hne⟩
    · rw [hr] at h
      cases h
      intro n
      have hn := hs n
      rw [accounted_eq] at hn ⊢
      simp only [enqueue]
      by_cases hnode : n = task.nodeId
      · subst hnode
        rw [Function.update_self, Function.update_self, ← Multiset.coe_add, ← Multiset.coe_add, hn]
        abel
      · rw [Function.update_of_ne hnode, Function.update_of_ne hnode, hn]
    · rw [hr] at h
      rcases r with e | e | ⟨⟩
      · cases h
      · cases h
        exact hs
      · exact absurd rfl hne
  | subscribe node =>
    cases h
    refine move ⟨rfl, fun n => ?_⟩
    rw [accounted_split _ s.streams [] _ n rfl, accounted_eq, List.append_nil]
    simp [Stream.kept, Stream.buffered, LoopState.batch]
  | disconnect j =>
    exact move (onStream_accounted h fun st st' hi hst => Stream.disconnect_kept hst (hc st hi))
  | drain j => exact move (drain_accounted h hc)
  | send j => exact move (onStream_accounted h fun _ _ _ hst => Stream.send_kept hst)
  | wake j => exact move (onStream_accounted h fun _ _ _ hst => Stream.wake_kept hst)
  | deliver j => exact move (onStream_accounted h fun _ _ _ hst => Stream.deliver_kept hst)

end Steps

section Runs

theorem run_accounted : ∀ (acts : List WatchAct) (s : WatchSys), s.run acts = some s' →
    s.CarefulRun acts → (∀ n, (s.pushed n : Multiset Task) = s.accounted n) →
    ∀ n, (s'.pushed n : Multiset Task) = s'.accounted n
  | [], s, hrun, _, hs => by
    cases hrun
    exact hs
  | a :: acts, s, hrun, ⟨hcareful, hrest⟩, hs => by
    rw [WatchSys.run] at hrun
    rcases hstep : s.step a with _ | s₁
    · simp [hstep] at hrun
    · rw [hstep, Option.bind_some] at hrun
      exact run_accounted acts s₁ hrun (hrest s₁ hstep) (step_accounted hstep hcareful hs)

/-- In a run of careful steps no event is lost, in whatever order they come. -/
theorem run_noneLost (acts : List WatchAct) (hcareful : WatchSys.init.CarefulRun acts)
    (s : WatchSys) (hrun : WatchSys.init.run acts = some s) : s.NoneLost := fun n =>
  (run_accounted acts _ hrun hcareful (fun _ => rfl) n).le

/-- A task of node 1 is pushed and delivered before the client goes. -/
theorem run_noneLost_delivered :
    let task : TaskRecord := ⟨1, 1, 7, 1, "DOWNLOAD", [], "queued", ""⟩
    ∃ s, WatchSys.init.run [.push task [], .subscribe 1, .drain 0, .send 0, .send 0, .deliver 0,
        .disconnect 0] = some s ∧ s.pushed 1 = [toProtoTask task] ∧ s.NoneLost := by
  intro task
  refine ⟨_, rfl, rfl, run_noneLost [.push task [], .subscribe 1, .drain 0, .send 0, .send 0,
    .deliver 0, .disconnect 0] ⟨trivial, ?_⟩ _ rfl⟩
  rintro s₁ ⟨⟩
  refine ⟨trivial, ?_⟩
  rintro s₂ ⟨⟩
  refine ⟨?_, ?_⟩
  · rintro st ⟨⟩ ⟨⟩
  rintro s₃ ⟨⟩
  refine ⟨trivial, ?_⟩
  rintro s₄ ⟨⟩
  refine ⟨trivial, ?_⟩
  rintro s₅ ⟨⟩
  refine ⟨trivial, ?_⟩
  rintro s₆ ⟨⟩
  refine ⟨?_, fun _ _ => trivial⟩
  rintro st ⟨⟩
  rfl

/-- The loop has taken the event of a pushed task when its client goes: nobody will get it. -/
theorem run_loses_event :
    let task : TaskRecord := ⟨1, 1, 7, 1, "DOWNLOAD", [], "queued", ""⟩
    ∃ s, WatchSys.init.run [.push task [], .subscribe 1, .drain 0, .disconnect 0] = some s
      ∧ s.pushed 1 = [toProtoTask task] ∧ s.accounted 1 = 0 ∧ ¬ s.NoneLost := by
  intro task
  refine ⟨_, rfl, rfl, rfl, fun h => ?_⟩
  have h1 := h 1
  change ({toProtoTask task} : Multiset Task) ≤ 0 at h1
  simp at h1

end Runs

end BlazeNet

import BlazeNet.Control
import BlazeNet.Proofs.CopyRanges

/-!
# What the requests do to the tables

Every transaction is done or leaves the tables as they were (`AllOrNothing`), so a request is
known by what its transactions do when they go through.
-/

namespace BlazeNet

open Wire FaultIo Io RustStd

section Transactions

theorem quiet_call (text : String) : Quiet (Store.call text) := quiet_context (.query _)

theorem quiet_look {α : Type} (text : String) (f : Sched → α) : Quiet (Store.look text f) :=
  quiet_context (.query _)

theorem plain_call (text : String) : Plain (Store.call text) := plain_context (.query _)

theorem plain_look {α : Type} (text : String) (f : Sched → α) : Plain (Store.look text f) :=
  plain_context (.query _)

theorem plain_storeCommit (text : String) (f : Sched → Sched) : Plain (Store.commit text f) :=
  plain_context (.final _)

theorem allOrNothing_storeCommit (text : String) (f : Sched → Sched) :
    AllOrNothing (Store.commit text f) := .onErr _ (.final _)

theorem allOrNothing_insertTask (task : TaskRecord) : AllOrNothing (Store.insertTask task) :=
  .bind (quiet_call _) fun _ => .bind (quiet_call _) fun _ => .bind (quiet_call _) fun _ =>
    allOrNothing_storeCommit _ _

theorem plain_insertTask (task : TaskRecord) : Plain (Store.insertTask task) :=
  .bind (plain_call _) fun _ => .bind (plain_call _) fun _ => .bind (plain_call _) fun _ =>
    plain_storeCommit _ _

theorem exec_insertTask (task : TaskRecord) (s : Sched) : exec (Store.insertTask task) s
    = (.ok (), { s with tasks := s.tasks.insert task.id task }) := rfl

theorem exec_getNode (id : UInt64) (s : Sched) :
    exec (Store.getNode id) s = (.ok s.nodes[id]?, s) := rfl

theorem quiet_getNode (id : UInt64) : Quiet (Store.getNode id) :=
  .bind (quiet_call _) fun _ => .bind (quiet_call _) fun _ => quiet_look _ _

theorem plain_getNode (id : UInt64) : Plain (Store.getNode id) :=
  .bind (plain_call _) fun _ => .bind (plain_call _) fun _ => plain_look _ _

theorem allOrNothing_nextId (counter : String) : AllOrNothing (Store.nextId counter) :=
  .bind (quiet_call _) fun _ => .bind (quiet_call _) fun _ => .bind (quiet_look _ _) fun _ =>
    .bind (quiet_call _) fun _ => .bind_pure _ (allOrNothing_storeCommit _ _)

theorem plain_nextId (counter : String) : Plain (Store.nextId counter) :=
  .bind (plain_call _) fun _ => .bind (plain_call _) fun _ => .bind (plain_look _ _) fun _ =>
    .bind (plain_call _) fun _ => .bind (plain_storeCommit _ _) fun _ => .pure _

theorem exec_nextId (counter : String) (s : Sched) : exec (Store.nextId counter) s
    = (.ok (s.nextCount counter),
        { s with counters := s.counters.insert counter (s.nextCount counter) }) := rfl

theorem allOrNothing_insertNode (node : NodeRecord) : AllOrNothing (Store.insertNode node) :=
  .bind (quiet_call _) fun _ => .bind (quiet_call _) fun _ => .bind (quiet_call _) fun _ =>
    allOrNothing_storeCommit _ _

theorem plain_insertNode (node : NodeRecord) : Plain (Store.insertNode node) :=
  .bind (plain_call _) fun _ => .bind (plain_call _) fun _ => .bind (plain_call _) fun _ =>
    plain_storeCommit _ _

theorem exec_storeCall (text : String) (s : Sched) : exec (Store.call text) s = (.ok (), s) := rfl

theorem exec_storeLook {α : Type} (text : String) (f : Sched → α) (s : Sched) :
    exec (Store.look text f) s = (.ok (f s), s) := rfl

theorem allOrNothing_updateTaskStatus (id : UInt64) (status error : String) :
    AllOrNothing (Store.updateTaskStatus id status error) := by
  refine .bind (quiet_call _) fun _ => .bind (quiet_call _) fun _ => .bind (quiet_look _ _)
    fun task => ?_
  rcases task with _ | task
  · exact (Quiet.pure _).allOrNothing
  · exact .bind (quiet_call _) fun _ => .bind_pure _ (allOrNothing_storeCommit _ _)

theorem plain_updateTaskStatus (id : UInt64) (status error : String) :
    Plain (Store.updateTaskStatus id status error) := by
  refine .bind (plain_call _) fun _ => .bind (plain_call _) fun _ => .bind (plain_look _ _)
    fun task => ?_
  rcases task with _ | task
  · exact .pure _
  · exact .bind (plain_call _) fun _ => .bind (plain_storeCommit _ _) fun _ => .pure _

theorem exec_updateTaskStatus (id : UInt64) (status error : String) (s : Sched) :
    exec (Store.updateTaskStatus id status error) s = match s.tasks[id]? with
      | none => (.ok false, s)
      | some t => (.ok true,
        { s with tasks := s.tasks.insert id { t with status := status, error := error } }) := by
  simp only [Store.updateTaskStatus, exec_bind, exec_storeCall, exec_storeLook]
  rcases s.tasks[id]? with _ | t <;> rfl

theorem quiet_listTasks : Quiet Store.listTasks :=
  .bind (quiet_call _) fun _ => .bind (quiet_call _) fun _ => .bind (quiet_look _ _) fun _ =>
    .bind (.each (fun _ => quiet_call _) _) fun _ => .pure _

theorem plain_listTasks : Plain Store.listTasks :=
  .bind (plain_call _) fun _ => .bind (plain_call _) fun _ => .bind (plain_look _ _) fun _ =>
    .bind (.each (fun _ => plain_call _) _) fun _ => .pure _

theorem exec_listTasks (s : Sched) : exec Store.listTasks s
    = (.ok (s.tasks.toList.map (·.2)), s) := by
  simp only [Store.listTasks, exec_bind, exec_storeCall, exec_storeLook,
    exec_each_idle fun _ => exec_storeCall _ s, exec_pure]

theorem quiet_tasksForNode (nodeId : UInt64) : Quiet (Store.tasksForNode nodeId) :=
  .bind quiet_listTasks fun _ => .pure _

theorem plain_tasksForNode (nodeId : UInt64) : Plain (Store.tasksForNode nodeId) :=
  .bind plain_listTasks fun _ => .pure _

theorem exec_tasksForNode (nodeId : UInt64) (s : Sched) : exec (Store.tasksForNode nodeId) s
    = (.ok ((s.tasks.toList.map (·.2)).filter fun t => t.nodeId = nodeId), s) := by
  simp only [Store.tasksForNode, exec_bind, exec_listTasks, exec_pure]

end Transactions

section Handlers

variable {α β γ : Type} {s s' : Sched}

theorem run_orFail (err : AnyError → β) (p : SchedIo α) (w : World AnyError Sched) :
    (orFail err p).run.run w = match p.run w with
      | (.ok a, w') => (.ok (.ok a), w')
      | (.error (.err e), w') => (.ok (.error (err e)), w')
      | (.error .killed, w') => (.error .killed, w') := by
  change (andThen (attempt p) _).run w = _
  rw [run_andThen, run_attempt]
  rcases p.run w with ⟨(e | _) | a, w'⟩ <;> rfl

theorem run_handler_bind (p : Handler β α) (f : α → Handler β γ) (w : World AnyError Sched) :
    (p >>= f).run.run w = match p.run.run w with
      | (.ok (.ok a), w') => (f a).run.run w'
      | (.ok (.error e), w') => (.ok (.error e), w')
      | (.error e, w') => (.error e, w') := by
  change (andThen p.run _).run w = _
  rw [run_andThen]
  rcases p.run.run w with ⟨e | (e | a), w'⟩ <;> rfl

theorem exec_handler_bind (p : Handler β α) (f : α → Handler β γ) (s : Sched) :
    exec (p >>= f).run s = match exec p.run s with
      | (.ok (.ok a), s') => exec (f a).run s'
      | (.ok (.error e), s') => (.ok (.error e), s')
      | (.error e, s') => (.error e, s') := by
  change exec (andThen p.run _) s = _
  rw [exec_andThen]
  rcases exec p.run s with ⟨e | (e | a), s'⟩ <;> rfl

theorem exec_orFail {err : AnyError → β} {p : SchedIo α} {a : α} (h : exec p s = (.ok a, s')) :
    exec (orFail err p).run s = (.ok (.ok a), s') := by
  change exec (andThen (attempt p) _) s = _
  rw [exec_andThen, exec_attempt, h]
  rfl

/-- A transaction of a request goes through, or the request ends there. -/
theorem run_orFail_cases {p : SchedIo α} (hp : AllOrNothing p) (hs : Sound p) (err : AnyError → β)
    (s : Sched) (faults : List (Fault AnyError)) :
    (∃ a fs, (orFail err p).run.run ⟨s, faults⟩ = (.ok (.ok a), ⟨(exec p s).2, fs⟩)
        ∧ (exec p s).1 = .ok a)
      ∨ ∃ r fs, (orFail err p).run.run ⟨s, faults⟩ = (r, ⟨s, fs⟩) ∧ ∀ a, r ≠ .ok (.ok a) := by
  rw [run_orFail]
  rcases hp.run_cases hs s faults with ⟨a, fs, hr, ha⟩ | ⟨e | _, fs, hr⟩
  · rw [hr]
    exact .inl ⟨a, fs, rfl, ha⟩
  · rw [hr]
    exact .inr ⟨_, fs, rfl, by simp⟩
  · rw [hr]
    exact .inr ⟨_, fs, rfl, by simp⟩

/-- A handler that stops in its first part. -/
theorem run_handler_stops {p : Handler β α} {w w' : World AnyError Sched}
    {r : Except (Stop AnyError) (Except β α)} (hr : p.run.run w = (r, w'))
    (hne : ∀ a, r ≠ .ok (.ok a)) (f : α → Handler β γ) :
    ∃ r', (p >>= f).run.run w = (r', w') ∧ ∀ c, r' ≠ .ok (.ok c) := by
  rw [run_handler_bind, hr]
  rcases r with e | e | a
  · exact ⟨_, rfl, by simp⟩
  · exact ⟨_, rfl, by simp⟩
  · exact absurd rfl (hne a)

theorem run_handler_stopped {p : Handler β α} {w w' : World AnyError Sched}
    {r : Except (Stop AnyError) (Except β α)} (hr : p.run.run w = (r, w'))
    (hne : ∀ a, r ≠ .ok (.ok a)) (f : α → Handler β γ) : ((p >>= f).run.run w).2 = w' := by
  obtain ⟨r', hr', -⟩ := run_handler_stops hr hne f
  rw [hr']

section Keeps

variable {K : Sched → Sched → Prop}

theorem keeps_orFail {p : SchedIo α} (hrefl : ∀ s, K s s) (htrans : ∀ a b c, K a b → K b c → K a c)
    (err : AnyError → β) (hp : Keeps K p) : Keeps K (orFail err p).run := by
  refine Keeps.bind htrans hp.attempt fun r => ?_
  rcases r with e | a <;> exact (Quiet.pure _).keeps hrefl

theorem keeps_handler_bind {p : Handler β α} {f : α → Handler β γ} (hrefl : ∀ s, K s s)
    (htrans : ∀ a b c, K a b → K b c → K a c) (hp : Keeps K p.run)
    (hf : ∀ a, Keeps K (f a).run) : Keeps K (p >>= f).run := by
  refine Keeps.bind htrans hp fun r => ?_
  rcases r with e | a
  · exact (Quiet.pure _).keeps hrefl
  · exact hf a

end Keeps

/-- A push stores the task and queues its event, or does neither. -/
theorem pushTask_cases (task : TaskRecord) (s : Sched) (faults : List (Fault AnyError)) :
    (∃ fs, (pushTask task).run.run ⟨s, faults⟩ = (.ok (.ok ()),
        ⟨enqueue task { s with tasks := s.tasks.insert task.id task }, fs⟩))
      ∨ ∃ r fs, (pushTask task).run.run ⟨s, faults⟩ = (r, ⟨s, fs⟩) ∧ r ≠ .ok (.ok ()) := by
  rw [pushTask, run_handler_bind, run_orFail]
  rcases (allOrNothing_insertTask task).run_cases (plain_insertTask task).sound s faults
    with ⟨a, fs, hr, -⟩ | ⟨e | _, fs, hr⟩
  · rw [hr, exec_insertTask]
    exact .inl ⟨fs, rfl⟩
  · rw [hr]
    exact .inr ⟨_, fs, rfl, by simp⟩
  · rw [hr]
    exact .inr ⟨_, fs, rfl, by simp⟩

end Handlers

end BlazeNet

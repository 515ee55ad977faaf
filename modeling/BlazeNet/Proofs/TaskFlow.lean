import BlazeNet.TaskFlow
import BlazeNet.Proofs.Assign
import BlazeNet.Proofs.TaskView
import BlazeNet.Proofs.WatchTasks

/-!
# The steps of the requests, as steps of the tasks

Every step of the system is a step of its tasks, or a cancellation (`view_step`), so what holds of
the tasks along their steps holds along every interleaving of the requests.
-/

namespace BlazeNet

open Wire FaultIo Io RustStd

variable {blake3 : Bytes → Hash} {s s' : TaskSys} {i : ℕ} {faults : List (Fault AnyError)}

section Requests

variable {α β γ : Type}

/-- A transaction goes through, fails, or takes the process with it. -/
theorem request_cases {p : SchedIo α} (hp : AllOrNothing p) (hs : Sound p) (err : AnyError → β)
    (s : TaskSys) (faults : List (Fault AnyError)) (next : Except β α → TaskSys → TaskSys) :
    (∃ a, (exec p s.sched).1 = .ok a
        ∧ s.request (orFail err p) faults next = next (.ok a) (s.setSched (exec p s.sched).2))
      ∨ (∃ e, s.request (orFail err p) faults next = next (.error e) s)
      ∨ s.request (orFail err p) faults next = s.restart := by
  unfold TaskSys.request
  rcases run_orFail_cases hp hs err s.sched faults with ⟨a, fs, hr, ha⟩ | ⟨r, fs, hr, hne⟩
  · rw [hr]
    exact .inl ⟨a, ha, rfl⟩
  · rw [hr]
    rcases r with e | e | a
    · exact .inr (.inr rfl)
    · exact .inr (.inl ⟨e, rfl⟩)
    · exact absurd rfl (hne a)

/-- `create_task` is its preparation and its push. -/
theorem createTask_eq (req : CreateTaskRequest) (w : World AnyError Sched) :
    (createTask blake3 req).run.run w
      = (prepareTask blake3 req >>= fun task => pushOrFail task >>= fun _ =>
        pure task).run.run w := by
  unfold createTask prepareTask
  split_ifs
  · rfl
  · simp only [run_handler_bind]
    rcases (orFail storeError (Store.getNode req.nodeId)).run.run w with ⟨e | e | node, w₁⟩
    · rfl
    · rfl
    rcases node with _ | node
    · rfl
    simp only [run_handler_bind]
    rcases (orFail storeError (assignIdcChunks blake3 req.gameId req.version
      node.nodeType)).run.run w₁ with ⟨e | e | assigned, w₂⟩
    · rfl
    · rfl
    dsimp only
    rcases (orFail storeError Store.nextTaskId).run.run w₂ with ⟨e | e | id, w₃⟩ <;> rfl

/-- The preparation of a task gives it the next id and leaves the tasks and the queues. -/
theorem prepareTask_cases (blake3 : Bytes → Hash) (req : CreateTaskRequest) (s : Sched)
    (faults : List (Fault AnyError)) :
    (∃ task w, (prepareTask blake3 req).run.run ⟨s, faults⟩ = (.ok (.ok task), w)
        ∧ task.id = s.nextCount Store.nextTaskIdKey ∧ task.status = "queued"
        ∧ w.state.tasks = s.tasks ∧ w.state.pending = s.pending)
      ∨ ∃ r fs, (prepareTask blake3 req).run.run ⟨s, faults⟩ = (r, ⟨s, fs⟩)
        ∧ ∀ task, r ≠ .ok (.ok task) := by
  have stops : ∀ {α : Type} {p : Handler StatusCode α} {f : α → Handler StatusCode TaskRecord}
      {fs fs' : List (Fault AnyError)} {r : Except (Stop AnyError) (Except StatusCode α)},
      p.run.run ⟨s, fs⟩ = (r, ⟨s, fs'⟩) → (∀ a, r ≠ .ok (.ok a)) →
      ∃ r fs', (p >>= f).run.run ⟨s, fs⟩ = (r, ⟨s, fs'⟩) ∧ ∀ task, r ≠ .ok (.ok task) := by
    intro α p f fs fs' r hr hne
    obtain ⟨r', hr', hne'⟩ := run_handler_stops hr hne f
    exact ⟨r', fs', hr', hne'⟩
  unfold prepareTask
  split_ifs
  · exact .inr ⟨_, faults, rfl, by simp⟩
  rcases run_orFail_cases (quiet_getNode req.nodeId).allOrNothing (plain_getNode req.nodeId).sound
    storeError s faults with ⟨node, fs, hr, -⟩ | ⟨r, fs, hr, hne⟩
  swap
  · exact .inr (stops hr hne)
  rw [run_handler_bind, hr, exec_getNode]
  rcases node with _ | node
  · exact .inr ⟨_, fs, rfl, by simp⟩
  dsimp only
  have hq := quiet_assignIdcChunks blake3 req.gameId req.version node.nodeType
  rcases run_orFail_cases hq.allOrNothing (plain_assignIdcChunks _ _ _ _).sound storeError s fs
    with ⟨assigned, fs₁, hr₁, -⟩ | ⟨r, fs₁, hr₁, hne⟩
  swap
  · exact .inr (stops hr₁ hne)
  rw [run_handler_bind, hr₁, hq.exec]
  dsimp only
  rcases run_orFail_cases (allOrNothing_nextId Store.nextTaskIdKey) (plain_nextId _).sound
    storeError s fs₁ with ⟨id, fs₂, hr₂, hid⟩ | ⟨r, fs₂, hr₂, hne⟩
  swap
  · exact .inr (stops hr₂ hne)
  rw [run_handler_bind, Store.nextTaskId, hr₂]
  rw [exec_nextId] at hid
  exact .inl ⟨_, _, rfl, (Except.ok.inj hid).symm, rfl, rfl, rfl⟩

theorem quiet_checkCancel (id : UInt64) : Quiet (checkCancel id).run := by
  have htrans : ∀ a b c : Sched, b = a → c = b → c = a := fun _ _ _ h h' => h'.trans h
  refine keeps_handler_bind (K := fun s s' => s' = s) (fun _ => rfl) htrans
    (keeps_orFail (K := fun s s' => s' = s) (fun _ => rfl) htrans _ quiet_listTasks) fun tasks => ?_
  split
  · exact Quiet.pure _
  · split_ifs
    · exact Quiet.pure _
    · exact Quiet.pure _

end Requests

section Flow

variable {n : UInt64} {st st' : Stream}

/-- What a stream has of its node's events. -/
def Stream.inside (st : Stream) : List Task := st.loop.batch ++ st.channel

theorem coe_flow (s : TaskSys) (n : UInt64) : (s.flow n : Multiset Task)
    = s.sched.pending n + heldBy Stream.inside n s.watch.streams := by
  rw [TaskSys.flow, ← Multiset.coe_add]
  congr 1
  unfold heldBy
  induction s.watch.streams.filter (·.nodeId = n) with
  | nil => rfl
  | cons st l ih =>
    rw [List.flatMap_cons, List.map_cons, List.sum_cons, ← Multiset.coe_add, ih]
    rfl

/-- The flow with one stream apart. -/
theorem coe_flow_split {pre post : List Stream} (st : Stream)
    (h : s.watch.streams = pre ++ st :: post) (n : UInt64) :
    (s.flow n : Multiset Task) = s.sched.pending n
      + (if st.nodeId = n then (st.inside : Multiset Task) else 0)
      + heldBy Stream.inside n (pre ++ post) := by
  rw [coe_flow, h]
  simp only [heldBy_append, heldBy_cons]
  abel

/-- Nothing of the tasks changes but their flow, which only loses events. -/
theorem step_of_flow (htasks : s'.sched.tasks = s.sched.tasks) (hpushes : s'.pushes = s.pushes)
    (hworks : s'.works = s.works) (htrace : s'.trace = s.trace)
    (hflow : ∀ n, (s'.flow n : Multiset Task) ≤ s.flow n) : s.view.Step s'.view := by
  refine .eased htasks ?_ (fun n => ?_) ?_ htrace
  · change s'.pushes.Sublist s.pushes
    exact hpushes ▸ List.Sublist.refl s.pushes
  · exact Multiset.map_le_map (hflow n)
  · change List.Forall₂ TaskView.Retires s.works s'.works
    rw [hworks]
    exact List.forall₂_same.2 fun w _ => ⟨rfl, rfl, .inl rfl⟩

theorem step_of_same (htasks : s'.sched.tasks = s.sched.tasks)
    (hpending : s'.sched.pending = s.sched.pending) (hstreams : s'.watch.streams = s.watch.streams)
    (hpushes : s'.pushes = s.pushes) (hworks : s'.works = s.works)
    (htrace : s'.trace = s.trace) : s.view.Step s'.view := by
  refine step_of_flow htasks hpushes hworks htrace fun n => le_of_eq ?_
  rw [coe_flow, coe_flow, hpending, hstreams]

theorem step_restart (s : TaskSys) : s.view.Step s.restart.view := by
  refine .eased rfl (List.nil_sublist _) (fun n => ?_) ?_ rfl
  · exact Multiset.zero_le _
  · exact List.forall₂_same.2 fun w _ => ⟨rfl, rfl, .inl rfl⟩

/-- A stream takes a step in which it loses events at most. -/
theorem step_onStream {f : Stream → Option Stream} {watch : WatchSys}
    (h : s.watch.onStream i f = some watch)
    (hf : ∀ st st', f st = some st' →
      st'.nodeId = st.nodeId ∧ (st'.inside : Multiset Task) ≤ st.inside) :
    s.view.Step { s with watch := watch : TaskSys }.view := by
  obtain ⟨pre, st, post, st', hs, -, hst, rfl⟩ := onStream_cases h
  obtain ⟨hnode, hle⟩ := hf st st' hst
  refine step_of_flow rfl rfl rfl rfl fun n => ?_
  rw [coe_flow_split _ hs n, coe_flow_split (s := { s with watch := _ }) st' rfl n, hnode]
  change (s.sched.pending n : Multiset Task) + _ + _ ≤ _
  gcongr
  split_ifs
  · exact hle
  · exact le_rfl

theorem Stream.send_inside (h : st.send = some st') :
    st'.nodeId = st.nodeId ∧ (st'.inside : Multiset Task) ≤ st.inside := by
  rcases st with ⟨node, _ | (_ | ⟨e, es⟩) | _ | _, channel, connected, received⟩
  · cases h
  · cases h
    exact ⟨rfl, le_rfl⟩
  · rcases connected with _ | _
    · cases h
      refine ⟨rfl, Multiset.coe_le.2 ?_⟩
      exact (List.sublist_append_right _ _).subperm
    · simp only [Stream.send, Bool.not_true, Bool.false_eq_true, if_false] at h
      split_ifs at h
      cases h
      refine ⟨rfl, Multiset.coe_le.2 (List.Perm.subperm ?_)⟩
      simp only [Stream.inside, LoopState.batch, ← List.append_assoc]
      exact List.perm_append_singleton e (es ++ channel)
  · cases h
  · cases h

theorem Stream.wake_inside (h : st.wake = some st') :
    st'.nodeId = st.nodeId ∧ (st'.inside : Multiset Task) ≤ st.inside := by
  rcases st with ⟨node, _ | _ | _ | _, channel, connected, received⟩ <;> cases h
  exact ⟨rfl, le_rfl⟩

theorem Stream.disconnect_inside (h : st.disconnect = some st') :
    st'.nodeId = st.nodeId ∧ (st'.inside : Multiset Task) ≤ st.inside := by
  unfold Stream.disconnect at h
  split_ifs at h
  cases h
  refine ⟨rfl, Multiset.coe_le.2 ?_⟩
  simp only [Stream.inside, List.append_nil]
  exact (List.sublist_append_left _ _).subperm

theorem step_drain (h : s.onWatch (.drain i) = some s') : s.view.Step s'.view := by
  simp only [TaskSys.onWatch, WatchSys.step, Option.map_eq_some_iff] at h
  obtain ⟨watch, h, rfl⟩ := h
  rcases hi : s.watch.streams[i]? with _ | st
  · simp [hi] at h
  rcases st with ⟨node, _ | es | _ | _, channel, connected, received⟩
  case some.draining =>
    obtain ⟨pre, post, hs, hset⟩ := set_of_getElem? hi
      ⟨node, .sending (s.watch.sched.pending node), channel, connected, received⟩
    simp only [hi, Stream.drain, Option.bind_eq_bind, Option.bind_some, Option.pure_def,
      Option.some.injEq, hset] at h
    subst h
    refine step_of_flow rfl rfl rfl rfl fun n => le_of_eq ?_
    rw [coe_flow_split _ hs n, coe_flow_split (s := { s with watch := _ })
      ⟨node, .sending (s.watch.sched.pending node), channel, connected, received⟩ rfl n]
    congr 1
    change ((Function.update s.watch.sched.pending node [] n : List Task) : Multiset Task) + _
      = (s.watch.sched.pending n : Multiset Task) + _
    by_cases hn : node = n
    · subst hn
      rw [Function.update_self, if_pos rfl, if_pos rfl]
      simp only [Stream.inside, LoopState.batch, List.nil_append, ← Multiset.coe_add]
      exact zero_add _
    · rw [Function.update_of_ne (Ne.symm hn), if_neg hn, if_neg hn]
  all_goals simp [hi, Stream.drain] at h

theorem step_subscribe (h : s.onWatch (.subscribe n) = some s') : s.view.Step s'.view := by
  simp only [TaskSys.onWatch, WatchSys.step, Option.map_some, Option.some.injEq] at h
  subst h
  refine step_of_flow rfl rfl rfl rfl fun m => le_of_eq ?_
  rw [coe_flow, coe_flow]
  change (s.sched.pending m : Multiset Task) + heldBy _ m (s.watch.streams ++ [_]) = _
  rw [heldBy_append, heldBy_cons]
  simp [Stream.inside, LoopState.batch, heldBy]

/-- The client of a stream takes an event out of it. -/
theorem step_deliver (h : s.deliver i = some s') : s.view.Step s'.view := by
  unfold TaskSys.deliver at h
  rcases hi : s.watch.streams[i]? with _ | st
  · simp [hi] at h
  rcases hd : st.channel.head? with _ | event
  · simp [hi, hd] at h
  rcases hw : s.onWatch (.deliver i) with _ | s₁
  · simp [hi, hw] at h
  simp only [hi, hd, hw, Option.bind_eq_bind, Option.bind_some, Option.pure_def,
    Option.some.injEq] at h
  subst h
  simp only [TaskSys.onWatch, WatchSys.step, Option.map_eq_some_iff] at hw
  obtain ⟨watch, hw, rfl⟩ := hw
  obtain ⟨pre, st₁, post, st', hs, hi', hst, rfl⟩ := onStream_cases hw
  obtain rfl : st = st₁ := Option.some.inj (hi.symm.trans hi')
  rcases st with ⟨node, loop, _ | ⟨e, es⟩, _ | _, received⟩ <;> cases hst
  obtain rfl : e = event := Option.some.inj hd
  set s₁ : TaskSys := { s with watch := { s.watch with
    streams := pre ++ ⟨node, loop, es, true, received ++ [e]⟩ :: post } } with hs₁
  -- the flow of the stream's node is the event and what is left, that of the others is as it was
  have hflow : ∀ m, (s.flow m : Multiset Task)
      = if node = m then e ::ₘ (s₁.flow m : Multiset Task) else s₁.flow m := by
    intro m
    rw [coe_flow_split _ hs m, coe_flow_split (s := s₁)
      ⟨node, loop, es, true, received ++ [e]⟩ rfl m]
    change s.sched.pending m + _ + _
      = if node = m then e ::ₘ (s.sched.pending m + _ + _) else s.sched.pending m + _ + _
    split_ifs with hm
    · simp only [Stream.inside, ← Multiset.coe_add, ← Multiset.cons_coe, Multiset.add_cons,
        Multiset.cons_add]
    · rfl
  have hview : (s₁.hand node [e]).view = TaskView.hand { s.view with
      flow := Function.update s.view.flow node (s₁.view.flow node) } node [e.id] := by
    have hupdate : (s₁.hand node [e]).view.flow
        = Function.update s.view.flow node (s₁.view.flow node) := by
      funext m
      by_cases hm : m = node
      · rw [hm, Function.update_self]
        rfl
      · rw [Function.update_of_ne hm]
        have := hflow m
        rw [if_neg (Ne.symm hm)] at this
        exact congrArg (Multiset.map (·.id)) this.symm
    exact TaskView.ext rfl rfl hupdate rfl rfl
  rw [hview]
  refine .delivered node e.id _ ?_
  have := congrArg (Multiset.map Task.id) (hflow node)
  rw [if_pos rfl, Multiset.map_cons] at this
  exact this

end Flow

section Simulation

theorem mem_queuedTasks {tasks : List TaskRecord} {t : Task} (ht : t ∈ TaskSys.queuedTasks tasks) :
    ∃ r ∈ tasks, r.status = "queued" ∧ t = toProtoTask r := by
  obtain ⟨r, hr, rfl⟩ := List.mem_map.1 ht
  obtain ⟨hr, hst⟩ := List.mem_filter.1 hr
  exact ⟨r, hr, by simpa using hst, rfl⟩

/-- The reply to a registration hands over the queued tasks of the node. -/
theorem step_reply (hs : s.view.Single) (hfresh : (TaskAct.reply i faults).Fresh s)
    (h : s.reply i faults = some s') : s.view.Step s'.view := by
  unfold TaskSys.reply at h
  rcases hi : s.regs[i]? with _ | ⟨nowMs, req, n⟩ | n <;> rw [hi] at h
  · cases h
  · cases h
  cases h
  rcases request_cases (quiet_tasksForNode n).allOrNothing (plain_tasksForNode n).sound
    (internal "查询任务失败") s faults _ with ⟨tasks, ht, hr⟩ | ⟨e, hr⟩ | hr <;> rw [hr]
  rotate_left
  · exact step_of_same rfl rfl rfl rfl rfl rfl
  · exact step_restart s
  rw [exec_tasksForNode] at ht ⊢
  obtain rfl := Except.ok.inj ht
  set found := (s.sched.tasks.toList.map (·.2)).filter fun t => t.nodeId = n with hfound
  have hmem : ∀ t ∈ found, s.sched.tasks[t.id]? = some t ∧ t.nodeId = n := by
    intro t ht
    obtain ⟨ht, hn⟩ := List.mem_filter.1 ht
    obtain ⟨⟨k, t'⟩, hmem, rfl⟩ := List.mem_map.1 ht
    have hget := Std.ExtTreeMap.mem_toList_iff_getElem?_eq_some.1 hmem
    exact ⟨by rw [hs.keys k t' hget, hget], by simpa using hn⟩
  have hids : ((TaskSys.queuedTasks found).map (·.id)).Nodup := by
    have hkeys : ∀ e ∈ s.sched.tasks.toList, e.2.id = e.1 := fun e he =>
      hs.keys e.1 e.2 (Std.ExtTreeMap.mem_toList_iff_getElem?_eq_some.1 he)
    have hall : ((s.sched.tasks.toList.map (·.2)).map (·.id)).Nodup := by
      rw [List.map_map, List.map_congr_left (g := (·.1)) hkeys]
      refine List.pairwise_map.2 (s.sched.tasks.distinct_keys_toList.imp ?_)
      intro a b hab heq
      rw [heq] at hab
      exact hab Std.ReflCmp.compare_self
    have hmap : (TaskSys.queuedTasks found).map (·.id)
        = (found.filter fun t => t.status = "queued").map (·.id) := by
      rw [TaskSys.queuedTasks, List.map_map]
      rfl
    rw [hmap]
    exact hall.sublist ((List.filter_sublist.trans List.filter_sublist).map _)
  have hview : (TaskSys.hand { s with regs := s.regs.eraseIdx i } n
      (TaskSys.queuedTasks found)).view
      = s.view.hand n ((TaskSys.queuedTasks found).map (·.id)) := by
    refine TaskView.ext rfl rfl rfl ?_ ?_
    · simp [TaskSys.view, TaskSys.hand, TaskView.hand]
    · simp [TaskSys.view, TaskSys.hand, TaskView.hand, Function.comp_def]
  change s.view.Step (TaskSys.hand { s with regs := s.regs.eraseIdx i } n _).view
  rw [hview]
  refine .replied n _ hids (fun id hid => ?_) fun id hid => ?_
  · obtain ⟨t, ht, rfl⟩ := List.mem_map.1 hid
    obtain ⟨r, hr, hst, rfl⟩ := mem_queuedTasks ht
    exact ⟨r, (hmem r hr).1, (hmem r hr).2, hst⟩
  · obtain ⟨t, ht, rfl⟩ := List.mem_map.1 hid
    obtain ⟨r, hr, hst, rfl⟩ := mem_queuedTasks ht
    obtain ⟨hway, hhanded⟩ := hfresh n hi r.id r (hmem r hr).1 (hmem r hr).2 hst
    rw [TaskView.copies, Multiset.mem_add]
    rintro (hm | hm)
    · exact hway hm
    · exact hhanded (Multiset.mem_coe.1 hm)

theorem step_create {req : CreateTaskRequest} (hfresh : (TaskAct.create req faults).Fresh s) :
    s.view.Step (s.create blake3 req faults).view := by
  unfold TaskSys.create TaskSys.request
  rcases prepareTask_cases blake3 req s.sched faults
    with ⟨task, w, hr, hid, hstatus, htasks, hpending⟩ | ⟨r, fs, hr, hne⟩
  · rw [hr]
    have hview : TaskSys.view { s.setSched w.state with pushes := s.pushes ++ [⟨task, false⟩] }
        = { s.view with pushes := s.view.pushes ++ [⟨task, false⟩] } := by
      refine TaskView.ext htasks rfl ?_ rfl rfl
      funext n
      change (((w.state.pending n ++ _ : List Task).map (·.id) : List UInt64) : Multiset UInt64) = _
      rw [hpending]
      rfl
    change s.view.Step (TaskSys.view
      { s.setSched w.state with pushes := s.pushes ++ [⟨task, false⟩] })
    rw [hview]
    exact .begun task hstatus (hid ▸ hfresh)
  · rw [hr]
    rcases r with e | e | a
    · exact step_restart s
    · exact step_of_same rfl rfl rfl rfl rfl rfl
    · exact absurd rfl (hne a)

theorem step_store (h : s.store i faults = some s') : s.view.Step s'.view := by
  unfold TaskSys.store at h
  rcases hi : s.pushes[i]? with _ | ⟨task, _ | _⟩ <;> rw [hi] at h
  · cases h
  swap
  · cases h
  cases h
  rcases request_cases (allOrNothing_insertTask task) (plain_insertTask task).sound
    (internal "写入任务失败") s faults _ with ⟨u, -, hr⟩ | ⟨e, hr⟩ | hr <;> rw [hr]
  · exact .stored i task hi
  · refine .eased rfl (List.eraseIdx_sublist _ _) (fun n => le_rfl) ?_ rfl
    exact List.forall₂_same.2 fun w _ => ⟨rfl, rfl, .inl rfl⟩
  · exact step_restart s

theorem step_enqueue (h : s.enqueue i = some s') : s.view.Step s'.view := by
  unfold TaskSys.enqueue at h
  rcases hi : s.pushes[i]? with _ | ⟨task, _ | _⟩ <;> rw [hi] at h
  · cases h
  · cases h
  cases h
  have hview : TaskSys.view { s.setSched (enqueue task s.sched) with
      pushes := s.pushes.eraseIdx i } = { s.view with
        pushes := s.view.pushes.eraseIdx i
        flow := Function.update s.view.flow task.nodeId
          (task.id ::ₘ s.view.flow task.nodeId) } := by
    refine TaskView.ext rfl rfl ?_ rfl rfl
    funext n
    change (((Function.update s.sched.pending task.nodeId _ n ++ _ : List Task).map (·.id)
      : List UInt64) : Multiset UInt64) = Function.update s.view.flow task.nodeId _ n
    by_cases hn : n = task.nodeId
    · subst hn
      rw [Function.update_self, Function.update_self]
      refine Multiset.coe_eq_coe.2 ?_
      rw [List.append_assoc, List.singleton_append]
      exact List.perm_middle.map _
    · rw [Function.update_of_ne hn, Function.update_of_ne hn]
      rfl
  change s.view.Step (TaskSys.view { s.setSched (enqueue task s.sched) with
    pushes := s.pushes.eraseIdx i })
  rw [hview]
  exact .queued i task hi

theorem forall₂_set_over {works : List Work} {w : Work} (hw : works[i]? = some w) :
    List.Forall₂ TaskView.Retires works (works.set i { w with stage := .over }) := by
  refine List.forall₂_iff_get.2 ⟨by simp, fun j hj hj' => ?_⟩
  obtain ⟨hi, rfl⟩ := List.getElem?_eq_some_iff.1 hw
  simp only [List.get_eq_getElem, List.getElem_set]
  split_ifs with hij
  · subst hij
    exact ⟨rfl, rfl, .inr rfl⟩
  · exact ⟨rfl, rfl, .inl rfl⟩

theorem setStage_eq {w : Work} (hw : s.works[i]? = some w) (stage : Stage) :
    s.setStage i stage = { s with works := s.works.set i { w with stage := stage } } := by
  unfold TaskSys.setStage
  rw [hw]

/-- A work ends. -/
theorem step_abandon (s : TaskSys) (i : ℕ) : s.view.Step (s.setStage i .over).view := by
  rcases hw : s.works[i]? with _ | w
  · unfold TaskSys.setStage
    rw [hw]
    exact step_of_same rfl rfl rfl rfl rfl rfl
  · rw [setStage_eq hw]
    exact .eased rfl (List.Sublist.refl _) (fun _ => le_rfl) (forall₂_set_over hw) rfl

/-- A report writes the status it reports, or the work ends. -/
theorem step_report {status error : String} {lost : Bool} (hs : s.view.Single)
    (h : s.report i status error lost faults = some s') : s.view.Step s'.view := by
  unfold TaskSys.report at h
  rcases hw : s.works[i]? with _ | w <;> rw [hw] at h
  · cases h
  dsimp only at h
  rcases hrep : w.stage.report status with _ | next <;> rw [hrep] at h
  · cases h
  cases h
  have hsched : (s.setStage i .over).sched = s.sched := by
    rw [setStage_eq hw]
    rfl
  obtain ⟨t, ht, -⟩ := hs.known w.nodeId w.taskId
    (Multiset.mem_add.2 (.inr (TaskView.mem_handed (List.mem_of_getElem? hw))))
  have ht : s.sched.tasks[w.taskId]? = some t := ht
  rcases request_cases (allOrNothing_updateTaskStatus w.taskId status error)
    (plain_updateTaskStatus _ _ _).sound (internal "更新任务失败") (s.setStage i .over) faults _
    with ⟨found, hf, hr⟩ | ⟨e, hr⟩ | hr <;> rw [hr]
  · rw [hsched, exec_updateTaskStatus, ht] at hf ⊢
    obtain rfl := Except.ok.inj hf
    dsimp only
    rw [if_pos rfl]
    rcases lost with _ | _
    · have hi := (List.getElem?_eq_some_iff.1 hw).1
      rw [if_neg (by simp), setStage_eq hw, setStage_eq (w := { w with stage := .over })]
      · simp only [TaskSys.setSched, List.set_set]
        exact .reported i w next next status error t hw hrep (.inl rfl) ht
      · exact List.getElem?_set_self hi
    · rw [if_pos rfl, setStage_eq hw]
      exact .reported i w next .over status error t hw hrep (.inr rfl) ht
  · exact step_abandon s i
  · rw [setStage_eq hw]
    exact .eased rfl (List.nil_sublist _) (fun n => Multiset.zero_le _) (forall₂_set_over hw) rfl

theorem step_check (s : TaskSys) (id : UInt64) (faults : List (Fault AnyError)) :
    s.view.Step (s.check id faults).view := by
  have hq := Keeps.run (quiet_checkCancel id) s.sched faults
  unfold TaskSys.check TaskSys.request
  rcases hr : (checkCancel id).run.run ⟨s.sched, faults⟩ with ⟨r, state, fs⟩
  rw [hr] at hq
  obtain rfl : state = s.sched := hq
  rcases r with e | e | u
  · exact step_restart s
  · exact step_of_same rfl rfl rfl rfl rfl rfl
  · exact step_of_same rfl rfl rfl rfl rfl rfl

/-- A cancellation writes its status, if the task is there. -/
theorem step_cancel (h : s.cancel i faults = some s') : s.view.Step s'.view
    ∨ ∃ id t, s.cancels[i]? = some id ∧ s.sched.tasks[id]? = some t
      ∧ s'.view = s.view.setStatus id t "cancelled" "人工取消" := by
  unfold TaskSys.cancel at h
  rcases hi : s.cancels[i]? with _ | id <;> rw [hi] at h
  · cases h
  cases h
  rcases request_cases (allOrNothing_updateTaskStatus id "cancelled" "人工取消")
    (plain_updateTaskStatus _ _ _).sound storeError s faults _
    with ⟨found, hf, hr⟩ | ⟨e, hr⟩ | hr <;> rw [applyCancel, hr]
  · rw [exec_updateTaskStatus] at hf ⊢
    rcases ht : s.sched.tasks[id]? with _ | t <;> rw [ht] at hf
    · obtain rfl := Except.ok.inj hf
      exact .inl (step_of_same rfl rfl rfl rfl rfl rfl)
    · obtain rfl := Except.ok.inj hf
      exact .inr ⟨id, t, rfl, ht, rfl⟩
  · exact .inl (step_of_same rfl rfl rfl rfl rfl rfl)
  · exact .inl (step_restart s)

theorem step_register {nowMs : UInt64} {req : RegisterRequest}
    (h : s.register nowMs req faults = some s') : s.view.Step s'.view := by
  unfold TaskSys.register at h
  split_ifs at h
  cases h
  rcases request_cases (allOrNothing_nextId Store.nextNodeIdKey) (plain_nextId _).sound
    (internal "分配节点 ID 失败") s faults _ with ⟨id, -, hr⟩ | ⟨e, hr⟩ | hr <;>
    rw [Store.nextNodeId, hr]
  · exact step_of_same rfl rfl rfl rfl rfl rfl
  · exact step_of_same rfl rfl rfl rfl rfl rfl
  · exact step_restart s

theorem step_insertNode (h : s.insertNode i faults = some s') : s.view.Step s'.view := by
  unfold TaskSys.insertNode at h
  rcases hi : s.regs[i]? with _ | ⟨nowMs, req, n⟩ | n <;> rw [hi] at h
  · cases h
  swap
  · cases h
  cases h
  rcases request_cases (allOrNothing_insertNode _) (plain_insertNode _).sound
    (internal "写入节点失败") s faults _ with ⟨u, -, hr⟩ | ⟨e, hr⟩ | hr <;> rw [hr]
  · exact step_of_same rfl rfl rfl rfl rfl rfl
  · exact step_of_same rfl rfl rfl rfl rfl rfl
  · exact step_restart s

/-- Every step with fresh tasks is a step of the tasks, or cancels one. -/
theorem view_step {a : TaskAct} (hs : s.view.Single) (hfresh : a.Fresh s)
    (h : s.step blake3 a = some s') : s.view.Step s'.view
      ∨ ∃ i faults id t, a = .cancel i faults ∧ s.cancels[i]? = some id
        ∧ s.sched.tasks[id]? = some t ∧ s'.view = s.view.setStatus id t "cancelled" "人工取消" := by
  cases a with
  | register nowMs req faults => exact .inl (step_register h)
  | insertNode i faults => exact .inl (step_insertNode h)
  | reply i faults => exact .inl (step_reply hs hfresh h)
  | create req faults =>
    cases h
    exact .inl (step_create hfresh)
  | push task =>
    cases h
    exact .inl (.begun task hfresh.1 hfresh.2)
  | store i faults => exact .inl (step_store h)
  | enqueue i => exact .inl (step_enqueue h)
  | subscribe n => exact .inl (step_subscribe h)
  | disconnect i =>
    obtain ⟨watch, hw, rfl⟩ := Option.map_eq_some_iff.1 h
    exact .inl (step_onStream hw fun _ _ hst => Stream.disconnect_inside hst)
  | drain i => exact .inl (step_drain h)
  | send i =>
    obtain ⟨watch, hw, rfl⟩ := Option.map_eq_some_iff.1 h
    exact .inl (step_onStream hw fun _ _ hst => Stream.send_inside hst)
  | wake i =>
    obtain ⟨watch, hw, rfl⟩ := Option.map_eq_some_iff.1 h
    exact .inl (step_onStream hw fun _ _ hst => Stream.wake_inside hst)
  | deliver i => exact .inl (step_deliver h)
  | check id faults =>
    cases h
    exact .inl (step_check s id faults)
  | cancel i faults =>
    rcases step_cancel h with h | ⟨id, t, hi, ht, hv⟩
    · exact .inl h
    · exact .inr ⟨i, faults, id, t, rfl, hi, ht, hv⟩
  | report i status error lost faults => exact .inl (step_report hs h)
  | abandon i =>
    cases h
    exact .inl (step_abandon s i)
  | restart =>
    cases h
    exact .inl (step_restart s)

end Simulation

section Runs

theorem single_init : TaskSys.init.view.Single := by
  refine ⟨fun n => ?_, List.nodup_nil, by simp [TaskSys.view, TaskSys.init], ?_, ?_,
    fun n id hid => ?_,
    fun id t ht => ?_⟩
  · exact Multiset.nodup_zero
  · simp [TaskSys.view, TaskSys.init]
  · simp [TaskSys.view, TaskSys.init]
  · exact absurd hid (Multiset.notMem_zero id)
  · simp [TaskSys.view, TaskSys.init, TaskSys.sched, WatchSys.init, Sched.empty] at ht

theorem single_step {a : TaskAct} (hs : s.view.Single) (hfresh : a.Fresh s)
    (h : s.step blake3 a = some s') : s'.view.Single := by
  rcases view_step hs hfresh h with h | ⟨-, -, id, t, -, -, ht, hv⟩
  · exact hs.step h
  · rw [hv]
    exact hs.setStatus ht _ _

theorem single_run : ∀ (acts : List TaskAct) (s : TaskSys), s.view.Single →
    s.Through blake3 (fun s a => a.Fresh s) acts → s.run blake3 acts = some s' → s'.view.Single
  | [], s, hs, _, h => by
    cases h
    exact hs
  | a :: acts, s, hs, ⟨hfresh, hrest⟩, h => by
    rw [TaskSys.run] at h
    rcases hstep : s.step blake3 a with _ | s₁
    · simp [hstep] at h
    · rw [hstep, Option.bind_some] at h
      exact single_run acts s₁ (single_step hs hfresh hstep) (hrest s₁ hstep) h

theorem TaskSys.Through.mono {P Q : TaskSys → TaskAct → Prop} (h : ∀ s a, P s a → Q s a) :
    ∀ {acts : List TaskAct} {s : TaskSys}, s.Through blake3 P acts → s.Through blake3 Q acts
  | [], _, _ => trivial
  | _ :: _, _, ⟨hP, hrest⟩ => ⟨h _ _ hP, fun s' hs' => (hrest s' hs').mono h⟩

/-- In every run with fresh tasks a task is handed to its agent at most once, by the reply to its
registration and all its streams together. -/
theorem run_handedOnce (acts : List TaskAct) (s : TaskSys)
    (hfresh : TaskSys.init.Through blake3 (fun s a => a.Fresh s) acts)
    (hrun : TaskSys.init.run blake3 acts = some s) : s.HandedOnce := by
  intro n
  have h := (single_run acts _ single_init hfresh hrun).once n
  exact Multiset.coe_nodup.1 (Multiset.nodup_add.1 h).2.1

theorem lawful_init : TaskSys.init.view.Lawful := by
  refine ⟨fun id => ?_, trivial, fun n id hid => absurd hid (Multiset.notMem_zero id), ?_, ?_, ?_⟩
  · simp [TaskSys.view, TaskSys.init, TaskSys.sched, WatchSys.init, Sched.empty, lastTaskStatus,
      TaskView.statusOf]
  all_goals simp [TaskSys.view, TaskSys.init]

theorem lawful_step {a : TaskAct} (hl : s.view.Lawful) (hs : s.view.Single) (hfresh : a.Fresh s)
    (hcalm : a.Calm s) (h : s.step blake3 a = some s') : s'.view.Lawful := by
  rcases view_step hs hfresh h with h | ⟨i, faults, id, t, rfl, hi, ht, hv⟩
  · exact hl.step hs h
  · obtain ⟨hqueued, hway, hover⟩ := hcalm id t hi ht
    rw [hv]
    exact hl.cancel hs ht hqueued hway hover _

theorem lawful_run : ∀ (acts : List TaskAct) (s : TaskSys), s.view.Single → s.view.Lawful →
    s.Through blake3 (fun s a => a.Fresh s ∧ a.Calm s) acts → s.run blake3 acts = some s' →
      s'.view.Lawful
  | [], s, _, hl, _, h => by
    cases h
    exact hl
  | a :: acts, s, hs, hl, ⟨hcond, hrest⟩, h => by
    rw [TaskSys.run] at h
    rcases hstep : s.step blake3 a with _ | s₁
    · simp [hstep] at h
    · rw [hstep, Option.bind_some] at h
      exact lawful_run acts s₁ (single_step hs hcond.1 hstep)
        (lawful_step hl hs hcond.1 hcond.2 hstep) (hrest s₁ hstep) h

/-- In every run with fresh tasks and calm cancellations every status is reached by an allowed move,
and no cancelled task is delivered. -/
theorem run_lawful (acts : List TaskAct) (s : TaskSys)
    (hcond : TaskSys.init.Through blake3 (fun s a => a.Fresh s ∧ a.Calm s) acts)
    (hrun : TaskSys.init.run blake3 acts = some s) :
    LawfulTrace s.trace
      ∧ ∀ id, lastTaskStatus s.trace id = (s.sched.tasks[id]?).map (·.status) := by
  have h := lawful_run acts _ single_init lawful_init hcond hrun
  exact ⟨h.trace, h.last⟩

end Runs

section Example

def cafeRequest : RegisterRequest := ⟨"cafe", "e", []⟩

/-- A node registers; a task is created for it, delivered, and done. -/
def doneActs : List TaskAct :=
  [.register 0 cafeRequest [], .insertNode 0 [], .reply 0 [], .create ⟨1, 7, 1, "DOWNLOAD"⟩ [],
    .store 0 [], .enqueue 0, .subscribe 1, .drain 0, .send 0, .deliver 0,
    .report 0 "running" "" false [], .report 0 "done" "" false []]

theorem doneActs_through : TaskSys.init.Through (fun _ => .fill 0)
    (fun s a => a.Fresh s ∧ a.Calm s) doneActs := by
  iterate 2
    refine ⟨⟨trivial, trivial⟩, ?_⟩
    rintro _ ⟨⟩
  refine ⟨⟨?_, trivial⟩, ?_⟩
  · intro n _ id t ht
    change (∅ : Std.ExtTreeMap UInt64 TaskRecord)[id]? = some t at ht
    simp at ht
  rintro _ ⟨⟩
  refine ⟨⟨⟨rfl, by rintro p ⟨⟩⟩, trivial⟩, ?_⟩
  rintro _ ⟨⟩
  iterate 7
    refine ⟨⟨trivial, trivial⟩, ?_⟩
    rintro _ ⟨⟩
  exact ⟨⟨trivial, trivial⟩, fun _ _ => trivial⟩

theorem run_handedOnce_done : ∃ s, TaskSys.init.run (fun _ => .fill 0) doneActs = some s
    ∧ s.handed 1 = [1] ∧ s.HandedOnce :=
  ⟨_, rfl, rfl, run_handedOnce doneActs _ (doneActs_through.mono fun _ _ h => h.1) rfl⟩

theorem run_lawful_done : ∃ s, TaskSys.init.run (fun _ => .fill 0) doneActs = some s
    ∧ s.trace = [.status 1 "done", .status 1 "running", .handed 1, .status 1 "queued"]
    ∧ LawfulTrace s.trace :=
  ⟨_, rfl, rfl, (run_lawful doneActs _ doneActs_through rfl).1⟩

/-- A task created between the insertion of its node and the reply to the registration is in the
reply, and in the queue as well. -/
theorem run_hands_twice : ∃ s, TaskSys.init.run (fun _ => .fill 0)
    [.register 0 cafeRequest [], .insertNode 0 [], .create ⟨1, 7, 1, "DOWNLOAD"⟩ [], .store 0 [],
      .enqueue 0, .reply 0 [], .subscribe 1, .drain 0, .send 0, .deliver 0] = some s
    ∧ s.handed 1 = [1, 1] ∧ ¬ s.HandedOnce := by
  refine ⟨_, rfl, rfl, fun h => ?_⟩
  have h1 : ([1, 1] : List UInt64).Nodup := h 1
  exact absurd h1 (by decide)

/-- The event of a cancelled task stays in the queue, is delivered, and the task runs. -/
theorem run_delivers_cancelled : ∃ s, TaskSys.init.run (fun _ => .fill 0)
    [.push ⟨1, 1, 7, 1, "DOWNLOAD", [], "queued", ""⟩, .store 0 [], .enqueue 0, .check 1 [],
      .cancel 0 [], .subscribe 1, .drain 0, .send 0, .deliver 0,
      .report 0 "running" "" false []] = some s
    ∧ s.trace = [.status 1 "running", .handed 1, .status 1 "cancelled", .status 1 "queued"]
    ∧ ¬ LawfulTrace s.trace := by
  refine ⟨_, rfl, rfl, fun h => ?_⟩
  have hmove : AllowedMove (some "cancelled") "running" := h.1
  simp [AllowedMove] at hmove

end Example

end BlazeNet

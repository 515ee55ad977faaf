import BlazeNet.Requests
import BlazeNet.Proofs.Control
import BlazeNet.Proofs.Manifest

/-!
# Who is assigned a chunk

Only `create_task` adds to the assigned chunks, and only `report_task` can bring those of a failed
or cancelled task back (`handle_tasks`). While both keep apart from the live tasks of other nodes,
no chunk is assigned to two of them; nothing in the requests themselves sees to that.
-/

namespace BlazeNet

open Wire FaultIo Io RustStd

variable {s s' : Sched} {blake3 : Bytes → Hash} {faults : List (Fault AnyError)}

section Assignment

theorem quiet_unheld (gameId : UInt64) : ∀ hashes : List Hash, Quiet (unheld gameId hashes)
  | [] => .pure _
  | _ :: hashes => .bind (.bind (quiet_call _) fun _ => .bind (quiet_call _) fun _ =>
      .bind (quiet_look _ _) fun _ => .pure _) fun _ => .bind (quiet_unheld gameId hashes) fun _ =>
        .pure _

theorem plain_unheld (gameId : UInt64) : ∀ hashes : List Hash, Plain (unheld gameId hashes)
  | [] => .pure _
  | _ :: hashes => .bind (.bind (plain_call _) fun _ => .bind (plain_call _) fun _ =>
      .bind (plain_look _ _) fun _ => .pure _) fun _ => .bind (plain_unheld gameId hashes) fun _ =>
        .pure _

theorem exec_unheld (gameId : UInt64) (s : Sched) : ∀ hashes : List Hash,
    exec (unheld gameId hashes) s = (.ok ((hashes.filter fun h =>
      ((s.chunks[Store.chunkKey gameId h.bytes]?).getD []).isEmpty).map (·.bytes)), s)
  | [] => rfl
  | hash :: hashes => by
    have hholders : exec (Store.chunkHolders gameId hash.bytes) s
        = (.ok ((s.chunks[Store.chunkKey gameId hash.bytes]?).getD []), s) := rfl
    simp only [unheld, exec_bind, hholders, exec_unheld gameId s hashes, exec_pure,
      List.filter_cons]
    split_ifs <;> rfl

theorem quiet_assignIdcChunks (blake3 : Bytes → Hash) (gameId version : UInt64)
    (nodeType : String) :
    Quiet (assignIdcChunks blake3 gameId version nodeType) := by
  unfold assignIdcChunks
  split_ifs
  · exact .pure _
  · refine .bind (.bind (quiet_call _) fun _ => .bind (quiet_call _) fun _ => quiet_look _ _)
      fun manifest => ?_
    rcases manifest with _ | manifest
    · exact .pure _
    · dsimp only
      rcases GameIndex.decode blake3 manifest with e | index
      · exact .stop _
      · exact .bind (quiet_unheld _ _) fun _ => .pure _

theorem plain_assignIdcChunks (blake3 : Bytes → Hash) (gameId version : UInt64)
    (nodeType : String) :
    Plain (assignIdcChunks blake3 gameId version nodeType) := by
  unfold assignIdcChunks
  split_ifs
  · exact .pure _
  · refine .bind (.bind (plain_call _) fun _ => .bind (plain_call _) fun _ => plain_look _ _)
      fun manifest => ?_
    rcases manifest with _ | manifest
    · exact .pure _
    · dsimp only
      rcases GameIndex.decode blake3 manifest with e | index
      · exact .stop _
      · exact .bind (plain_unheld _ _) fun _ => .pure _

theorem exec_getVersion (gameId version : UInt64) (s : Sched) :
    exec (Store.getVersion gameId version) s
      = (.ok s.versions[Store.versionKey gameId version]?, s) := rfl

/-- What is assigned is what nobody holds. -/
theorem assigned_unheld {node : NodeRecord} {nodeId gameId version : UInt64} {assigned : List Bytes}
    (hnode : s.nodes[nodeId]? = some node)
    (h : exec (assignIdcChunks blake3 gameId version node.nodeType) s = (.ok assigned, s')) :
    ∀ b ∈ assigned, s.Unheld blake3 nodeId gameId version b := by
  unfold assignIdcChunks at h
  split_ifs at h with hidc
  · simp only [exec_pure, Prod.mk.injEq, Except.ok.injEq] at h
    simp [← h.1]
  simp only [exec_bind, exec_getVersion] at h
  rcases hversion : s.versions[Store.versionKey gameId version]? with _ | manifest <;>
    rw [hversion] at h <;> dsimp only at h
  · simp only [exec_pure, Prod.mk.injEq, Except.ok.injEq] at h
    simp [← h.1]
  rcases hdecode : GameIndex.decode blake3 manifest with e | index <;>
    rw [hdecode] at h <;> dsimp only at h
  · simp at h
  simp only [exec_bind, exec_unheld, exec_pure, Prod.mk.injEq, Except.ok.injEq] at h
  intro b hb
  rw [← h.1, List.mem_mergeSort] at hb
  obtain ⟨hash, hmem, rfl⟩ := List.mem_map.1 hb
  rw [List.mem_filter, List.isEmpty_iff] at hmem
  exact ⟨node, manifest, index, hash, hnode, not_not.1 hidc, hversion, hdecode, hmem.1, rfl, hmem.2⟩

end Assignment

section Tasks

theorem pushOrFail_cases (task : TaskRecord) (s : Sched) (faults : List (Fault AnyError)) :
    (∃ fs, (pushOrFail task).run.run ⟨s, faults⟩ = (.ok (.ok ()),
        ⟨enqueue task { s with tasks := s.tasks.insert task.id task }, fs⟩))
      ∨ ∃ r fs, (pushOrFail task).run.run ⟨s, faults⟩ = (r, ⟨s, fs⟩) ∧ ∀ a, r ≠ .ok (.ok a) := by
  change (∃ fs, (andThen (pushTask task).run _).run _ = _) ∨ ∃ r fs, (andThen _ _).run _ = _ ∧ _
  simp only [run_andThen]
  rcases pushTask_cases task s faults with ⟨fs, hr⟩ | ⟨r, fs, hr, hne⟩
  · rw [hr]
    exact .inl ⟨fs, rfl⟩
  · rw [hr]
    rcases r with e | e | ⟨⟩
    · exact .inr ⟨_, fs, rfl, by simp⟩
    · exact .inr ⟨_, fs, rfl, by simp⟩
    · exact absurd rfl hne

/-- The record of a task just created. -/
def CreateTaskRequest.record (req : CreateTaskRequest) (id : UInt64) (assigned : List Bytes) :
    TaskRecord :=
  ⟨id, req.nodeId, req.gameId, req.version, req.kind, assigned, "queued", ""⟩

/-- The creation of a task adds the task, with chunks nobody holds, or no task at all. -/
theorem createTask_tasks (blake3 : Bytes → Hash) (req : CreateTaskRequest) (s : Sched)
    (faults : List (Fault AnyError)) :
    ((createTask blake3 req).run.run ⟨s, faults⟩).2.state.tasks = s.tasks
      ∨ req.kind.isEmpty = false ∧ ∃ id assigned,
        ((createTask blake3 req).run.run ⟨s, faults⟩).2.state.tasks
          = s.tasks.insert id (req.record id assigned)
        ∧ ∀ b ∈ assigned, s.Unheld blake3 req.nodeId req.gameId req.version b := by
  unfold createTask
  rcases hkind : req.kind.isEmpty with _ | _
  swap
  · exact .inl rfl
  simp only [Bool.false_eq_true, if_false]
  rcases run_orFail_cases (quiet_getNode req.nodeId).allOrNothing (plain_getNode req.nodeId).sound
    storeError s faults with ⟨node, fs, hr, hnode⟩ | ⟨r, fs, hr, hne⟩
  swap
  · exact .inl (by rw [run_handler_stopped hr hne])
  rw [run_handler_bind, hr]
  rw [exec_getNode] at hnode ⊢
  simp only [Except.ok.injEq] at hnode
  rcases node with _ | node
  · exact .inl rfl
  dsimp only
  have hq := quiet_assignIdcChunks blake3 req.gameId req.version node.nodeType
  rcases run_orFail_cases hq.allOrNothing (plain_assignIdcChunks _ _ _ _).sound storeError s fs
    with ⟨assigned, fs₁, hr₁, hassigned⟩ | ⟨r, fs₁, hr₁, hne⟩
  swap
  · exact .inl (by rw [run_handler_stopped hr₁ hne])
  rw [run_handler_bind, hr₁, hq.exec]
  dsimp only
  rcases run_orFail_cases (allOrNothing_nextId Store.nextTaskIdKey) (plain_nextId _).sound
    storeError s fs₁ with ⟨id, fs₂, hr₂, -⟩ | ⟨r, fs₂, hr₂, hne⟩
  swap
  · exact .inl (by rw [Store.nextTaskId, run_handler_stopped hr₂ hne])
  rw [run_handler_bind, Store.nextTaskId, hr₂, exec_nextId]
  dsimp only
  rcases pushOrFail_cases (req.record id assigned)
      { s with counters := s.counters.insert _ (s.nextCount Store.nextTaskIdKey) } fs₂
    with ⟨fs₃, hr₃⟩ | ⟨r, fs₃, hr₃, hne⟩
  swap
  · exact .inl (by rw [← CreateTaskRequest.record, run_handler_stopped hr₃ hne])
  rw [← CreateTaskRequest.record, run_handler_bind, hr₃]
  have hexec : exec (assignIdcChunks blake3 req.gameId req.version node.nodeType) s
      = (.ok assigned, s) := Prod.ext hassigned (hq.exec s)
  exact .inr ⟨trivial, id, assigned, rfl, assigned_unheld hnode hexec⟩

/-- The tasks are as before. -/
def SameTasks (s s' : Sched) : Prop := s'.tasks = s.tasks

theorem SameTasks.refl (s : Sched) : SameTasks s s := rfl

theorem SameTasks.trans (a b c : Sched) (h : SameTasks a b) (h' : SameTasks b c) : SameTasks a c :=
  Eq.trans h' h

theorem keeps_storeCommit {K : Sched → Sched → Prop} (hrefl : ∀ s, K s s) (text : String)
    {f : Sched → Sched} (hf : ∀ s, K s (f s)) : Keeps K (Store.commit text f) :=
  .onErr _ fun _ s => wp_final (hf s) fun _ => hrefl s

theorem keeps_nextId (counter : String) : Keeps SameTasks (Store.nextId counter) :=
  .bind .trans ((quiet_call _).keeps .refl) fun _ => .bind .trans ((quiet_call _).keeps .refl)
    fun _ => .bind .trans ((quiet_look _ _).keeps .refl) fun _ =>
      .bind .trans ((quiet_call _).keeps .refl) fun _ =>
        .bind .trans (keeps_storeCommit .refl _ fun _ => rfl) fun _ => (Quiet.pure _).keeps .refl

theorem keeps_insertNode (node : NodeRecord) : Keeps SameTasks (Store.insertNode node) :=
  .bind .trans ((quiet_call _).keeps .refl) fun _ => .bind .trans ((quiet_call _).keeps .refl)
    fun _ => .bind .trans ((quiet_call _).keeps .refl) fun _ =>
      keeps_storeCommit .refl _ fun _ => rfl

theorem keeps_register (nowMs : UInt64) (req : RegisterRequest) :
    Keeps SameTasks (register nowMs req).run := by
  unfold register
  split_ifs
  · exact (Quiet.pure _).keeps .refl
  · exact keeps_handler_bind .refl .trans (keeps_orFail .refl .trans _ (keeps_nextId _)) fun _ =>
      keeps_handler_bind .refl .trans (keeps_orFail .refl .trans _ (keeps_insertNode _)) fun _ =>
        keeps_handler_bind .refl .trans
          (keeps_orFail .refl .trans _ ((quiet_tasksForNode _).keeps .refl)) fun _ =>
            (Quiet.pure _).keeps .refl

theorem keeps_reportChunk (nodeId gameId : UInt64) (hash : Bytes) :
    Keeps SameTasks (reportChunk nodeId gameId hash).run := by
  refine keeps_orFail .refl .trans _ (.bind .trans ((quiet_call _).keeps .refl) fun _ =>
    .bind .trans ((quiet_call _).keeps .refl) fun _ =>
      .bind .trans ((quiet_look _ _).keeps .refl) fun held => ?_)
  dsimp only
  split_ifs
  · exact keeps_storeCommit .refl _ fun _ => rfl
  · exact .bind .trans ((quiet_call _).keeps .refl) fun _ =>
      keeps_storeCommit .refl _ fun _ => rfl

theorem quiet_getGame (id : UInt64) : Quiet (Store.getGame id) :=
  .bind (quiet_call _) fun _ => .bind (quiet_call _) fun _ => quiet_look _ _

section Games

variable {K : Sched → Sched → Prop} (hrefl : ∀ s, K s s) (htrans : ∀ a b c, K a b → K b c → K a c)
  (hgames : ∀ s games, K s { s with games := games })
include hrefl htrans hgames

theorem keeps_insertGame (game : GameRecord) : Keeps K (Store.insertGame game) :=
  .bind htrans ((quiet_call _).keeps hrefl) fun _ => .bind htrans ((quiet_call _).keeps hrefl)
    fun _ => .bind htrans ((quiet_call _).keeps hrefl) fun _ =>
      keeps_storeCommit hrefl _ fun _ => hgames _ _

/-- Raising the latest version touches the games only. -/
theorem keeps_raiseLatest (gameId version : UInt64) : Keeps K (raiseLatest gameId version) := by
  refine .bind htrans ((quiet_getGame _).keeps hrefl).attempt fun r => ?_
  rcases r with e | _ | game
  · exact (Quiet.pure _).keeps hrefl
  · exact (Quiet.pure _).keeps hrefl
  · dsimp only
    split_ifs
    · exact .bind htrans (keeps_insertGame hrefl htrans hgames _).attempt fun _ =>
        (Quiet.pure _).keeps hrefl
    · exact (Quiet.pure _).keeps hrefl

end Games

theorem keeps_saveVersion (gameId version : UInt64) (manifest : Bytes) :
    Keeps SameTasks (Store.saveVersion gameId version manifest) :=
  .bind .trans ((quiet_call _).keeps .refl) fun _ => .bind .trans ((quiet_call _).keeps .refl)
    fun _ => .bind .trans ((quiet_call _).keeps .refl) fun _ =>
      keeps_storeCommit .refl _ fun _ => rfl

theorem keeps_publishVersion (gameId version : UInt64) (manifest : Bytes) :
    Keeps SameTasks (publishVersion gameId version manifest).run := by
  unfold publishVersion
  split_ifs
  · exact (Quiet.pure _).keeps .refl
  · exact (Quiet.pure _).keeps .refl
  · refine keeps_handler_bind .refl .trans
      (keeps_orFail .refl .trans _ (keeps_saveVersion _ _ _)) fun _ => ?_
    exact .bind .trans (keeps_raiseLatest .refl .trans (fun _ _ => rfl) _ _) fun _ =>
      (Quiet.pure _).keeps .refl

/-- A report changes the status of the task it names. -/
theorem reportTask_tasks (taskId : UInt64) (status error : String) (s : Sched)
    (faults : List (Fault AnyError)) :
    ((reportTask taskId status error).run.run ⟨s, faults⟩).2.state.tasks = s.tasks
      ∨ ∃ t, s.tasks[taskId]? = some t
        ∧ ((reportTask taskId status error).run.run ⟨s, faults⟩).2.state.tasks
          = s.tasks.insert taskId { t with status := status, error := error } := by
  unfold reportTask
  rcases run_orFail_cases (allOrNothing_updateTaskStatus taskId status error)
      (plain_updateTaskStatus _ _ _).sound (internal "更新任务失败") s faults
    with ⟨_, fs, hr, -⟩ | ⟨r, fs, hr, hne⟩
  · rw [run_handler_bind, hr, exec_updateTaskStatus]
    rcases ht : s.tasks[taskId]? with _ | t
    · exact .inl rfl
    · exact .inr ⟨t, rfl, rfl⟩
  · exact .inl (by rw [run_handler_stopped hr hne])

end Tasks

section Runs

theorem after_tasks {α β : Type} (p : Handler β α) (s : Sched) (faults : List (Fault AnyError)) :
    (s.after p faults).tasks = (p.run.run ⟨s, faults⟩).2.state.tasks := by
  unfold Sched.after
  rcases p.run.run ⟨s, faults⟩ with ⟨(e | _) | r, w⟩ <;> rfl

/-- What a request does to the tasks. -/
theorem handle_tasks (blake3 : Bytes → Hash) (req : SchedReq) (s : Sched)
    (faults : List (Fault AnyError)) :
    (s.handle blake3 req faults).tasks = s.tasks
      ∨ (∃ r id assigned, req = .createTask r ∧ r.kind.isEmpty = false
        ∧ (s.handle blake3 req faults).tasks = s.tasks.insert id (r.record id assigned)
        ∧ ∀ b ∈ assigned, s.Unheld blake3 r.nodeId r.gameId r.version b)
      ∨ ∃ id status error t, req = .reportTask id status error ∧ s.tasks[id]? = some t
        ∧ (s.handle blake3 req faults).tasks
          = s.tasks.insert id { t with status := status, error := error } := by
  cases req with
  | register nowMs r =>
    exact .inl ((after_tasks _ _ _).trans ((keeps_register nowMs r).run s faults))
  | createTask r =>
    rw [Sched.handle, after_tasks]
    rcases createTask_tasks blake3 r s faults with h | ⟨hk, id, assigned, h, hb⟩
    · exact .inl h
    · exact .inr (.inl ⟨r, id, assigned, rfl, hk, h, hb⟩)
  | reportChunk nodeId gameId hash =>
    exact .inl ((after_tasks _ _ _).trans ((keeps_reportChunk nodeId gameId hash).run s faults))
  | reportTask id status error =>
    rw [Sched.handle, after_tasks]
    rcases reportTask_tasks id status error s faults with h | ⟨t, ht, h⟩
    · exact .inl h
    · exact .inr (.inr ⟨id, status, error, t, rfl, ht, h⟩)
  | publishVersion gameId version manifest =>
    exact .inl ((after_tasks _ _ _).trans
      ((keeps_publishVersion gameId version manifest).run s faults))

theorem TaskRecord.Clash.symm {t t' : TaskRecord} (h : t.Clash t') : t'.Clash t :=
  let ⟨hg, hn, b, hb, hb'⟩ := h
  ⟨hg.symm, Ne.symm hn, b, hb', hb⟩

/-- A task is put in the table that clashes with no live task there. -/
theorem AssignedOnce.insert (h : s.AssignedOnce) {tasks : Std.ExtTreeMap UInt64 TaskRecord}
    {id : UInt64} {t : TaskRecord} (htasks : tasks = s.tasks.insert id t)
    (hapart : t.Live → ∀ (id' : UInt64) (t' : TaskRecord), id' ≠ id → s.tasks[id']? = some t' →
      t'.Live → ¬ t.Clash t') (hs' : s'.tasks = tasks) : s'.AssignedOnce := by
  have hlook : ∀ (k : UInt64) (u : TaskRecord), s'.tasks[k]? = some u →
      k = id ∧ u = t ∨ k ≠ id ∧ s.tasks[k]? = some u := fun k u hk => by
    rw [hs', htasks, lookup_insert] at hk
    split_ifs at hk with he
    · cases hk
      exact .inl ⟨he.symm, rfl⟩
    · exact .inr ⟨Ne.symm he, hk⟩
  intro k k' u u' hk hk' hl hl' hc
  rcases hlook k u hk with ⟨-, rfl⟩ | ⟨hne, hu⟩ <;>
    rcases hlook k' u' hk' with ⟨-, rfl⟩ | ⟨hne', hu'⟩
  · exact hc.2.1 rfl
  · exact hapart hl k' u' hne' hu' hl' hc
  · exact hapart hl' k u hne hu hl hc.symm
  · exact h k k' u u' hu hu' hl hl' hc

theorem handle_assignedOnce (h : s.AssignedOnce) {req : SchedReq} (hapart : req.Apart blake3 s) :
    (s.handle blake3 req faults).AssignedOnce := by
  rcases handle_tasks blake3 req s faults with he | ⟨r, id, assigned, rfl, hk, he, hb⟩
    | ⟨id, status, error, t, rfl, ht, he⟩
  · intro k k' t t' hk hk'
    rw [he] at hk hk'
    exact h k k' t t' hk hk'
  · refine AssignedOnce.insert h rfl (fun _ id' t' _ ht' hl' hc => ?_) he
    obtain ⟨hg, hn, b, hbm, hb'⟩ := hc
    exact hapart hk b (hb b hbm) id' t' ht' hl' hg.symm (Ne.symm hn) hb'
  · refine AssignedOnce.insert h rfl (fun hl id' t' _ ht' hl' hc => ?_) he
    by_cases hlive : t.Live
    · exact h id id' t t' ht ht' hlive hl' hc
    · exact hapart t ht hlive hl id' t' ht' hl' hc

theorem handleAll_assignedOnce : ∀ (reqs : List (SchedReq × List (Fault AnyError))) (s : Sched),
    s.AssignedOnce → s.ApartRun blake3 reqs → (s.handleAll blake3 reqs).AssignedOnce
  | [], _, h, _ => h
  | (_, _) :: reqs, _, h, hrun =>
    handleAll_assignedOnce reqs _ (handle_assignedOnce h hrun.1) hrun.2

/-- In a run of requests that keep apart no chunk is assigned to two nodes. -/
theorem requests_assignedOnce (blake3 : Bytes → Hash)
    (reqs : List (SchedReq × List (Fault AnyError))) (hrun : Sched.empty.ApartRun blake3 reqs) :
    (Sched.empty.handleAll blake3 reqs).AssignedOnce :=
  handleAll_assignedOnce reqs _ (by simp [Sched.AssignedOnce, Sched.empty]) hrun

end Runs

section TwoNodes

variable (blake3) in
/-- The chunks of a version that is there and decodes. -/
def Sched.chunksOf (s : Sched) (gameId version : UInt64) : List Bytes :=
  match (s.versions[Store.versionKey gameId version]?).map (GameIndex.decode blake3) with
  | some (.ok index) => index.chunkSet.map (·.bytes)
  | _ => []

theorem Sched.Unheld.mem_chunksOf {nodeId gameId version : UInt64} {b : Bytes}
    (h : s.Unheld blake3 nodeId gameId version b) : b ∈ s.chunksOf blake3 gameId version := by
  obtain ⟨_, manifest, index, hash, -, -, hversion, hdecode, hmem, rfl, -⟩ := h
  rw [Sched.chunksOf, hversion, Option.map_some, hdecode]
  exact List.mem_map_of_mem hmem

instance (status : String) : Decidable (liveStatus status) := inferInstanceAs (Decidable (_ ∧ _))

variable (blake3) in
/-- Enough for a request to keep apart, told from the tasks that are there. -/
def ApartFrom (s : Sched) (task : TaskRecord) : SchedReq → Prop
  | .createTask req => liveStatus task.status → task.gameId = req.gameId →
    task.nodeId ≠ req.nodeId → ∀ b ∈ s.chunksOf blake3 req.gameId req.version,
    task.assignedChunks.contains b = false
  | .reportTask _ status _ => ¬liveStatus status
  | _ => True

instance (s : Sched) (task : TaskRecord) : ∀ req, Decidable (ApartFrom blake3 s task req)
  | .createTask req => by unfold ApartFrom; infer_instance
  | .reportTask _ _ _ => by unfold ApartFrom; infer_instance
  | .register _ _ => isTrue trivial
  | .reportChunk _ _ _ => isTrue trivial
  | .publishVersion _ _ _ => isTrue trivial

theorem apart_of_tasks {req : SchedReq} (h : ∀ e ∈ s.tasks.toList, ApartFrom blake3 s e.2 req) :
    req.Apart blake3 s := by
  cases req with
  | createTask req =>
    intro _ b hb id t ht hlive hgame hnode
    have hout := h (id, t) (Std.ExtTreeMap.mem_toList_iff_getElem?_eq_some.2 ht) hlive hgame hnode b
      hb.mem_chunksOf
    simpa using hout
  | reportTask taskId status error =>
    exact fun t ht _ hstatus =>
      absurd hstatus (h (taskId, t) (Std.ExtTreeMap.mem_toList_iff_getElem?_eq_some.2 ht))
  | _ => trivial

theorem apartRun_of_tasks : ∀ (reqs : List (SchedReq × List (Fault AnyError))) (s : Sched),
    (∀ n < reqs.length, ∀ r ∈ reqs[n]?, ∀ e ∈ (s.handleAll blake3 (reqs.take n)).tasks.toList,
      ApartFrom blake3 (s.handleAll blake3 (reqs.take n)) e.2 r.1) → s.ApartRun blake3 reqs
  | [], _, _ => trivial
  | (req, faults) :: reqs, s, h =>
    ⟨apart_of_tasks (h 0 (by simp) (req, faults) rfl), apartRun_of_tasks reqs _ fun n hn r hr =>
      h (n + 1) (by simpa using hn) r hr⟩

/-- The hash function of the runs below. -/
def hash₀ (_ : Bytes) : Hash := .fill 0

/-- A version with one chunk. -/
def chunkVersion (b : UInt8) : GameIndex := .build hash₀ [⟨"a", .fill 9, [⟨.fill b, 5⟩]⟩]

/-- Two IDC nodes register, and two versions of game 7 are published. -/
def publish₀ : List (SchedReq × List (Fault AnyError)) :=
  [(.register 0 ⟨"idc", "", []⟩, []), (.register 0 ⟨"idc", "", []⟩, []),
    (.publishVersion 7 1 (chunkVersion 1).encode, []),
    (.publishVersion 7 2 (chunkVersion 2).encode, [])]

/-- Each node has a task for a version of its own; the first one fails, and its chunk is assigned to
the other node. -/
def reassign₀ : List (SchedReq × List (Fault AnyError)) :=
  [(.createTask ⟨1, 7, 1, "DOWNLOAD"⟩, []), (.createTask ⟨2, 7, 2, "DOWNLOAD"⟩, []),
    (.reportTask 1 "failed" "disk full", []), (.createTask ⟨2, 7, 1, "DOWNLOAD"⟩, [])]

theorem requests_assignedOnce_reassigned :
    (Sched.empty.handleAll hash₀ (publish₀ ++ reassign₀)).AssignedOnce
      ∧ (Sched.empty.handleAll hash₀ (publish₀ ++ reassign₀)).tasks.toList.map (·.2)
        = [⟨1, 1, 7, 1, "DOWNLOAD", [(Hash.fill 1).bytes], "failed", "disk full"⟩,
          ⟨2, 2, 7, 2, "DOWNLOAD", [(Hash.fill 2).bytes], "queued", ""⟩,
          ⟨3, 2, 7, 1, "DOWNLOAD", [(Hash.fill 1).bytes], "queued", ""⟩] :=
  ⟨requests_assignedOnce hash₀ _ (apartRun_of_tasks _ _ (by decide +kernel)), by decide +kernel⟩

/-- Two IDC nodes are given tasks for one version before either has reported a chunk: both are
assigned the same chunk. -/
theorem requests_assign_twice : ¬ (Sched.empty.handleAll hash₀
    (publish₀ ++ [(.createTask ⟨1, 7, 1, "DOWNLOAD"⟩, []),
      (.createTask ⟨2, 7, 1, "DOWNLOAD"⟩, [])])).AssignedOnce := by
  intro h
  exact h 1 2 ⟨1, 1, 7, 1, "DOWNLOAD", [(Hash.fill 1).bytes], "queued", ""⟩
    ⟨2, 2, 7, 1, "DOWNLOAD", [(Hash.fill 1).bytes], "queued", ""⟩ (by decide +kernel)
    (by decide +kernel) ⟨by decide, by decide⟩ ⟨by decide, by decide⟩
    ⟨rfl, by decide, _, List.mem_singleton_self _, List.mem_singleton_self _⟩

end TwoNodes

end BlazeNet

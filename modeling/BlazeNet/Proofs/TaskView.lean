import BlazeNet.TaskView
import BlazeNet.Lib.RustStd

/-!
# Every task is handed out once, and its status keeps the law

A task has one copy: its push under way, its event, or the work on it (`TaskView.Single`). An event
that has not been handed out is that of a queued task, and the work on a task is as far as its
status says (`TaskView.Lawful`), unless it is cancelled while a copy may still be handed out.
-/

namespace BlazeNet

open RustStd

namespace TaskView

variable {v v' : TaskView} {n id : UInt64}

section Copies

/-- Each copy belongs to a task of its own: a push to one that is not stored yet or just is, an
event or work to one in the table. -/
structure Single (v : TaskView) : Prop where
  once : ∀ n, (v.copies n).Nodup
  pushIds : (v.pushes.map (·.task.id)).Nodup
  queued : ∀ p ∈ v.pushes, p.task.status = "queued"
  unstored : ∀ p ∈ v.pushes, p.stored = false → v.tasks[p.task.id]? = none
  stored : ∀ p ∈ v.pushes, p.stored = true →
    ∃ t, v.tasks[p.task.id]? = some t ∧ t.nodeId = p.task.nodeId
  known : ∀ n, ∀ id ∈ v.flow n + v.handed n, ∃ t, v.tasks[id]? = some t ∧ t.nodeId = n
  keys : ∀ (id : UInt64) (t : TaskRecord), v.tasks[id]? = some t → t.id = id

theorem mem_copies : id ∈ v.copies n ↔
    (∃ p ∈ v.pushes, p.task.nodeId = n ∧ p.task.id = id) ∨ id ∈ v.flow n + v.handed n := by
  simp only [copies, onTheWay, Multiset.mem_add, Multiset.mem_coe, List.mem_map, List.mem_filter,
    decide_eq_true_eq, and_assoc, or_assoc]

theorem Single.unused_notMem (h : v.Single) (hid : v.Unused id) : id ∉ v.copies n := by
  rw [mem_copies]
  rintro (⟨p, hp, -, rfl⟩ | hmem)
  · exact hid.2 p hp rfl
  · obtain ⟨t, ht, -⟩ := h.known n id hmem
    rw [hid.1] at ht
    cases ht

theorem mem_handed {w : Work} (hw : w ∈ v.works) : w.taskId ∈ v.handed w.nodeId := by
  simp only [handed, Multiset.mem_coe, List.mem_map, List.mem_filter]
  exact ⟨w, ⟨hw, by simp⟩, rfl⟩

theorem handed_retires (hw : List.Forall₂ Retires v.works v'.works) (n : UInt64) :
    v'.handed n = v.handed n := by
  unfold handed
  congr 1
  generalize v.works = ws, v'.works = ws' at hw
  induction hw with
  | nil => rfl
  | @cons w w' ws ws' h _ ih =>
    simp only [List.filter_cons, h.1]
    split_ifs
    · rw [List.map_cons, List.map_cons, ih, h.2.1]
    · exact ih

/-- A work keeps its node and its task, whatever stage it is set to. -/
theorem handed_set {i : ℕ} {w : Work} (hw : v.works[i]? = some w) (stage : Stage) (n : UInt64) :
    handed { v with works := v.works.set i { w with stage := stage } } n = v.handed n := by
  unfold handed
  congr 1
  obtain ⟨hi, rfl⟩ := List.getElem?_eq_some_iff.1 hw
  have hmap : ∀ ws : List Work, (ws.filter (·.nodeId = n)).map (·.taskId)
      = ((ws.map fun w => (w.nodeId, w.taskId)).filter (·.1 = n)).map (·.2) := by
    intro ws
    simp [List.filter_map, Function.comp_def]
  rw [hmap, hmap, List.map_set]
  congr 2
  refine List.ext_getElem? fun j => ?_
  rw [List.getElem?_set]
  split_ifs with hj
  · subst hj
    simp [hi]
  · simp_all
  · rfl

theorem handed_hand (n m : UInt64) (ids : List UInt64) :
    (v.hand n ids).handed m = if n = m then v.handed m + ids else v.handed m := by
  simp only [handed, hand, List.filter_append, List.map_append]
  split_ifs with hnm
  · subst hnm
    rw [← Multiset.coe_add]
    congr 2
    simp [List.filter_map, Function.comp_def]
  · congr 1
    simp [List.filter_map, Function.comp_def, hnm]

end Copies

section Once

theorem Single.eased (h : v.Single) (tasks : v'.tasks = v.tasks)
    (pushes : v'.pushes.Sublist v.pushes) (flow : ∀ n, v'.flow n ≤ v.flow n)
    (works : List.Forall₂ Retires v.works v'.works) : v'.Single := by
  have hhanded := handed_retires works
  refine ⟨fun n => ?_, h.pushIds.sublist (pushes.map _), fun p hp => h.queued p (pushes.mem hp),
    fun p hp => ?_, fun p hp => ?_, fun n id hid => ?_, ?_⟩
  · refine Multiset.nodup_of_le ?_ (h.once n)
    unfold copies onTheWay
    rw [hhanded]
    gcongr
    · exact Multiset.coe_le.2 (((pushes.filter _).map _).subperm)
    · exact flow n
  · rw [tasks]
    exact h.unstored p (pushes.mem hp)
  · rw [tasks]
    exact h.stored p (pushes.mem hp)
  · rw [hhanded] at hid
    rw [tasks]
    refine h.known n id (Multiset.mem_of_le ?_ hid)
    gcongr
    exact flow n
  · rw [tasks]
    exact h.keys

theorem Single.begun (h : v.Single) {task : TaskRecord} (status : task.status = "queued")
    (unused : v.Unused task.id) :
    Single { v with pushes := v.pushes ++ [⟨task, false⟩] } := by
  refine ⟨fun n => ?_, ?_, fun p hp => ?_, fun p hp hs => ?_, fun p hp hs => ?_, h.known, h.keys⟩
  · have hcopies : copies { v with pushes := v.pushes ++ [⟨task, false⟩] } n
        = if task.nodeId = n then task.id ::ₘ v.copies n else v.copies n := by
      simp only [copies, onTheWay, List.filter_append, List.map_append, ← Multiset.coe_add]
      split_ifs with hn
      · simp only [List.filter_cons, hn, decide_true, if_true, List.filter_nil, List.map_cons,
          List.map_nil, Multiset.coe_singleton, ← Multiset.singleton_add]
        change _ + {task.id} + v.flow n + v.handed n = _
        abel
      · simp only [List.filter_cons, hn, decide_false, Bool.false_eq_true, if_false,
          List.filter_nil, List.map_nil, Multiset.coe_nil, add_zero]
        rfl
    rw [hcopies]
    split_ifs
    · exact Multiset.nodup_cons.2 ⟨h.unused_notMem unused, h.once n⟩
    · exact h.once n
  · rw [List.map_append, List.map_singleton, List.nodup_append]
    refine ⟨h.pushIds, List.nodup_singleton _, fun a ha b hb => ?_⟩
    obtain ⟨p, hp, rfl⟩ := List.mem_map.1 ha
    rw [List.mem_singleton.1 hb]
    exact unused.2 p hp
  · rcases List.mem_append.1 hp with hp | hp
    · exact h.queued p hp
    · rw [List.mem_singleton.1 hp]
      exact status
  · rcases List.mem_append.1 hp with hp | hp
    · exact h.unstored p hp hs
    · rw [List.mem_singleton.1 hp]
      exact unused.1
  · rcases List.mem_append.1 hp with hp | hp
    · exact h.stored p hp hs
    · rw [List.mem_singleton.1 hp] at hs
      cases hs

theorem pushTasks_set {i : ℕ} {task : TaskRecord} {old : Bool}
    (push : v.pushes[i]? = some ⟨task, old⟩) (new : Bool) :
    (v.pushes.set i ⟨task, new⟩).map Push.task = v.pushes.map Push.task := by
  rw [List.map_set]
  refine List.ext_getElem? fun j => ?_
  rw [List.getElem?_set]
  obtain ⟨hi, hget⟩ := List.getElem?_eq_some_iff.1 push
  split_ifs with hj hj'
  · subst hj
    simp [hi, hget]
  · simp [hi] at hj'
  · rfl

/-- The copies depend on the pushes only through their tasks. -/
theorem copies_pushes {pushes : List Push} (h : pushes.map Push.task = v.pushes.map Push.task) :
    copies { v with pushes := pushes } n = v.copies n := by
  have hmap : ∀ ps : List Push, (ps.filter (·.task.nodeId = n)).map (·.task.id)
      = ((ps.map Push.task).filter (·.nodeId = n)).map (·.id) := by
    intro ps
    simp [List.filter_map, Function.comp_def]
  simp only [copies, onTheWay, hmap, h]
  rfl

theorem Single.store (h : v.Single) {i : ℕ} {task : TaskRecord}
    (push : v.pushes[i]? = some ⟨task, false⟩) (trace : List TaskEvent) :
    Single { v with
      tasks := v.tasks.insert task.id task
      pushes := v.pushes.set i ⟨task, true⟩
      trace := trace } := by
  have hmem : (⟨task, false⟩ : Push) ∈ v.pushes := List.mem_of_getElem? push
  have hnew : v.tasks[task.id]? = none := h.unstored _ hmem rfl
  have htasks := pushTasks_set push true
  have hset : ∀ p ∈ v.pushes.set i ⟨task, true⟩,
      p = ⟨task, true⟩ ∨ p ∈ v.pushes ∧ p.task.id ≠ task.id := by
    intro p hp
    obtain ⟨j, hj⟩ := List.mem_iff_getElem?.1 hp
    rw [List.getElem?_set] at hj
    split_ifs at hj with hij
    · exact .inl (Option.some.inj hj).symm
    · refine .inr ⟨List.mem_of_getElem? hj, fun heq => hij ?_⟩
      have hi : i < (v.pushes.map (·.task.id)).length := by
        rw [List.length_map]
        exact (List.getElem?_eq_some_iff.1 push).1
      refine (List.getElem?_inj hi h.pushIds).1 ?_
      rw [List.getElem?_map, List.getElem?_map, push, hj, Option.map_some, Option.map_some, heq]
  have hlook : ∀ (id : UInt64) (t : TaskRecord), v.tasks[id]? = some t →
      (v.tasks.insert task.id task)[id]? = some t := by
    intro id t ht
    rw [lookup_insert, if_neg, ht]
    rintro rfl
    rw [hnew] at ht
    cases ht
  refine ⟨fun n => ?_, ?_, fun p hp => ?_, fun p hp hs => ?_, fun p hp hs => ?_, fun n id hid => ?_,
    fun id t ht => ?_⟩
  · have : copies { v with pushes := v.pushes.set i ⟨task, true⟩ } n = v.copies n :=
      copies_pushes htasks
    exact this ▸ h.once n
  · have hids := h.pushIds
    have hmap : ∀ ps : List Push, ps.map (fun p => p.task.id) = (ps.map Push.task).map (·.id) :=
      fun ps => by simp
    rw [hmap] at hids ⊢
    rwa [htasks]
  · rcases hset p hp with rfl | ⟨hp, -⟩
    · exact h.queued ⟨task, false⟩ hmem
    · exact h.queued p hp
  · rcases hset p hp with rfl | ⟨hp, hne⟩
    · cases hs
    · change (v.tasks.insert task.id task)[p.task.id]? = none
      rw [lookup_insert, if_neg (Ne.symm hne)]
      exact h.unstored p hp hs
  · rcases hset p hp with rfl | ⟨hp, hne⟩
    · exact ⟨task, by rw [lookup_insert, if_pos rfl], rfl⟩
    · obtain ⟨t, ht, hnode⟩ := h.stored p hp hs
      exact ⟨t, hlook _ _ ht, hnode⟩
  · obtain ⟨t, ht, hnode⟩ := h.known n id hid
    exact ⟨t, hlook _ _ ht, hnode⟩
  · have ht : (v.tasks.insert task.id task)[id]? = some t := ht
    rw [lookup_insert] at ht
    split_ifs at ht with hid
    · rw [← Option.some.inj ht, hid]
    · exact h.keys id t ht

theorem Single.enqueue (h : v.Single) {i : ℕ} {task : TaskRecord}
    (push : v.pushes[i]? = some ⟨task, true⟩) :
    Single { v with
      pushes := v.pushes.eraseIdx i
      flow := Function.update v.flow task.nodeId (task.id ::ₘ v.flow task.nodeId) } := by
  have hmem : (⟨task, true⟩ : Push) ∈ v.pushes := List.mem_of_getElem? push
  have hsub : ∀ p ∈ v.pushes.eraseIdx i, p ∈ v.pushes := fun p hp => List.mem_of_mem_eraseIdx hp
  have hperm : (⟨task, true⟩ :: v.pushes.eraseIdx i).Perm v.pushes := by
    obtain ⟨hi, hget⟩ := List.getElem?_eq_some_iff.1 push
    rw [← hget]
    exact List.getElem_cons_eraseIdx_perm hi
  refine ⟨fun m => ?_, h.pushIds.sublist ((List.eraseIdx_sublist _ _).map _),
    fun p hp => h.queued p (hsub p hp), fun p hp => h.unstored p (hsub p hp),
    fun p hp => h.stored p (hsub p hp), fun m id hid => ?_, h.keys⟩
  · have hids : (((v.pushes.filter (·.task.nodeId = m)).map (·.task.id) : List UInt64)
          : Multiset UInt64)
        = ↑(((⟨task, true⟩ :: v.pushes.eraseIdx i).filter (·.task.nodeId = m)).map
          (·.task.id)) :=
      Multiset.coe_eq_coe.2 ((hperm.filter _).map _).symm
    have hcopies := h.once m
    simp only [copies, onTheWay, hids] at hcopies ⊢
    refine cast (congrArg Multiset.Nodup ?_) hcopies
    change _ + v.flow m + v.handed m = _ + _ + v.handed m
    congr 1
    by_cases hm : task.nodeId = m
    · subst hm
      rw [Function.update_self, List.filter_cons, if_pos (by simp), List.map_cons,
        ← Multiset.cons_coe, Multiset.cons_add, Multiset.add_cons]
    · rw [Function.update_of_ne (Ne.symm hm), List.filter_cons, if_neg (by simpa using hm)]
  · by_cases hm : m = task.nodeId
    · subst hm
      change id ∈ Function.update v.flow task.nodeId _ task.nodeId + v.handed task.nodeId at hid
      rw [Function.update_self, Multiset.cons_add, Multiset.mem_cons] at hid
      rcases hid with rfl | hid
      · exact h.stored _ hmem rfl
      · exact h.known _ id hid
    · change id ∈ Function.update v.flow task.nodeId _ m + v.handed m at hid
      rw [Function.update_of_ne hm] at hid
      exact h.known m id hid

theorem copies_hand (n m : UInt64) (ids : List UInt64) :
    (v.hand n ids).copies m = if n = m then v.copies m + ids else v.copies m := by
  unfold copies
  rw [handed_hand]
  split_ifs
  · exact (add_assoc _ _ _).symm
  · rfl

/-- Tasks of the table with no copy yet are handed out. -/
theorem Single.hand (h : v.Single) {ids : List UInt64} (nodup : ids.Nodup)
    (found : ∀ id ∈ ids, ∃ t, v.tasks[id]? = some t ∧ t.nodeId = n)
    (apart : ∀ id ∈ ids, id ∉ v.copies n) : (v.hand n ids).Single := by
  refine ⟨fun m => ?_, h.pushIds, h.queued, h.unstored, h.stored, fun m id hid => ?_, h.keys⟩
  · rw [copies_hand]
    split_ifs with hnm
    · subst hnm
      refine Multiset.nodup_add.2 ⟨h.once n, Multiset.coe_nodup.2 nodup, ?_⟩
      rw [Multiset.disjoint_left]
      exact fun hid hids => apart _ (Multiset.mem_coe.1 hids) hid
    · exact h.once m
  · rw [handed_hand] at hid
    split_ifs at hid with hnm
    · subst hnm
      rw [← add_assoc] at hid
      rcases Multiset.mem_add.1 hid with hid | hid
      · exact h.known n id hid
      · exact found id (Multiset.mem_coe.1 hid)
    · exact h.known m id hid

/-- An event leaves the flow. -/
theorem Single.leave (h : v.Single) {rest : Multiset UInt64} (flow : v.flow n = id ::ₘ rest) :
    Single { v with flow := Function.update v.flow n rest }
      ∧ id ∉ copies { v with flow := Function.update v.flow n rest } n
      ∧ ∃ t, v.tasks[id]? = some t ∧ t.nodeId = n := by
  have hcopies : v.copies n = id ::ₘ copies { v with flow := Function.update v.flow n rest } n := by
    simp only [copies, onTheWay, flow, Function.update_self, Multiset.add_cons, Multiset.cons_add]
    rfl
  refine ⟨h.eased rfl (List.Sublist.refl _) (fun m => ?_) ?_, ?_, ?_⟩
  · change Function.update v.flow n rest m ≤ v.flow m
    by_cases hm : m = n
    · subst hm
      rw [Function.update_self, flow]
      exact Multiset.le_cons_self _ _
    · rw [Function.update_of_ne hm]
  · exact List.forall₂_same.2 fun w _ => ⟨rfl, rfl, .inl rfl⟩
  · have := h.once n
    rw [hcopies, Multiset.nodup_cons] at this
    exact this.1
  · exact h.known n id (by rw [flow, Multiset.cons_add]; exact Multiset.mem_cons_self _ _)

/-- The status of a task is written over. -/
theorem Single.setStatus (h : v.Single) {t : TaskRecord} (ht : v.tasks[id]? = some t)
    (status error : String) : (v.setStatus id t status error).Single := by
  have hlook : ∀ (k : UInt64) (u : TaskRecord), v.tasks[k]? = some u →
      ∃ u', (v.setStatus id t status error).tasks[k]? = some u' ∧ u'.nodeId = u.nodeId := by
    intro k u hu
    change ∃ u', (v.tasks.insert id _)[k]? = some u' ∧ _
    rw [lookup_insert]
    split_ifs with hk
    · subst hk
      rw [ht] at hu
      cases hu
      exact ⟨_, rfl, rfl⟩
    · exact ⟨u, hu, rfl⟩
  refine ⟨h.once, h.pushIds, h.queued, fun p hp hs => ?_, fun p hp hs => ?_, fun n k hk => ?_,
    fun k u hu => ?_⟩
  · have hnone := h.unstored p hp hs
    change (v.tasks.insert id _)[p.task.id]? = none
    rw [lookup_insert, if_neg, hnone]
    rintro rfl
    rw [ht] at hnone
    cases hnone
  · obtain ⟨u, hu, hnode⟩ := h.stored p hp hs
    obtain ⟨u', hu', hnode'⟩ := hlook _ u hu
    exact ⟨u', hu', hnode'.trans hnode⟩
  · obtain ⟨u, hu, hnode⟩ := h.known n k hk
    obtain ⟨u', hu', hnode'⟩ := hlook _ u hu
    exact ⟨u', hu', hnode'.trans hnode⟩
  · have hu : (v.tasks.insert id _)[k]? = some u := hu
    rw [lookup_insert] at hu
    split_ifs at hu with hk
    · rw [← Option.some.inj hu]
      exact (h.keys id t ht).trans hk
    · exact h.keys k u hu

theorem Single.setStage (h : v.Single) {i : ℕ} {w : Work} (hw : v.works[i]? = some w)
    (stage : Stage) : Single { v with works := v.works.set i { w with stage := stage } } := by
  have hhanded := handed_set hw stage
  refine ⟨fun n => ?_, h.pushIds, h.queued, h.unstored, h.stored, fun n id hid => ?_, h.keys⟩
  · have := h.once n
    unfold copies at this ⊢
    rwa [hhanded n]
  · rw [hhanded n] at hid
    exact h.known n id hid

/-- A step leaves one copy of each task. -/
theorem Single.step (h : v.Single) (hstep : v.Step v') : v'.Single := by
  cases hstep with
  | eased tasks pushes flow works trace => exact h.eased tasks pushes flow works
  | begun task status unused => exact h.begun status unused
  | stored i task push => exact h.store push _
  | queued i task push => exact h.enqueue push
  | replied n ids nodup found apart =>
    refine h.hand nodup (fun id hid => ?_) apart
    obtain ⟨t, ht, hnode, -⟩ := found id hid
    exact ⟨t, ht, hnode⟩
  | delivered n id rest flow =>
    obtain ⟨hs, hapart, hfound⟩ := h.leave flow
    refine hs.hand (List.nodup_singleton id) (fun k hk => ?_) fun k hk => ?_
    · rw [List.mem_singleton.1 hk]
      exact hfound
    · rw [List.mem_singleton.1 hk]
      exact hapart
  | reported i w next stage status error t work report ended task =>
    exact (h.setStage work stage).setStatus task status error

end Once

section Apart

/-- What is on its way is not at work. -/
theorem Single.onTheWay_ne (h : v.Single) (hid : id ∈ v.onTheWay n) {w : Work}
    (hw : w ∈ v.works) : w.taskId ≠ id := by
  rintro rfl
  obtain ⟨t, ht, hnode⟩ := h.known w.nodeId w.taskId (Multiset.mem_add.2 (.inr (mem_handed hw)))
  have hn : n = w.nodeId := by
    rcases Multiset.mem_add.1 hid with hp | hf
    · obtain ⟨p, hp, hpid⟩ := List.mem_map.1 (Multiset.mem_coe.1 hp)
      obtain ⟨hp, hpn⟩ := List.mem_filter.1 hp
      have hpn : p.task.nodeId = n := by simpa using hpn
      rcases hs : p.stored with _ | _
      · have := h.unstored p hp hs
        rw [hpid, ht] at this
        cases this
      · obtain ⟨u, hu, hun⟩ := h.stored p hp hs
        rw [hpid, ht] at hu
        cases hu
        rw [← hpn, ← hun, hnode]
    · obtain ⟨u, hu, hun⟩ := h.known n w.taskId (Multiset.mem_add.2 (.inl hf))
      rw [ht] at hu
      cases hu
      exact hun.symm.trans hnode
  subst hn
  have := (Multiset.nodup_add.1 (h.once w.nodeId)).2.2
  exact Multiset.disjoint_left.1 this hid (mem_handed hw)

/-- No two agents are at work on one task. -/
theorem Single.works_inj (h : v.Single) {i j : ℕ} {w w' : Work} (hi : v.works[i]? = some w)
    (hj : v.works[j]? = some w') (heq : w.taskId = w'.taskId) : i = j := by
  have hknown : ∀ u ∈ v.works, ∃ t, v.tasks[u.taskId]? = some t ∧ t.nodeId = u.nodeId :=
    fun u hu => h.known u.nodeId u.taskId (Multiset.mem_add.2 (.inr (mem_handed hu)))
  have hnode : w.nodeId = w'.nodeId := by
    obtain ⟨t, ht, hn⟩ := hknown w (List.mem_of_getElem? hi)
    obtain ⟨t', ht', hn'⟩ := hknown w' (List.mem_of_getElem? hj)
    rw [heq, ht'] at ht
    cases ht
    exact hn.symm.trans hn'
  have hpair := Multiset.coe_nodup.1 (Multiset.nodup_add.1 (h.once w.nodeId)).2.1
  rw [List.Nodup, List.pairwise_map, List.pairwise_filter] at hpair
  rw [List.pairwise_iff_getElem] at hpair
  obtain ⟨hil, rfl⟩ := List.getElem?_eq_some_iff.1 hi
  obtain ⟨hjl, rfl⟩ := List.getElem?_eq_some_iff.1 hj
  rcases Nat.lt_trichotomy i j with hlt | rfl | hlt
  · exact absurd heq (hpair i j hil hjl hlt (by simp) (by simp [hnode]))
  · rfl
  · exact absurd heq.symm (hpair j i hjl hil hlt (by simp [hnode]) (by simp))

end Apart

section Law

def statusOf (v : TaskView) (id : UInt64) : Option String := (v.tasks[id]?).map (·.status)

/-- The statuses follow the law, and every copy is as far as the status of its task. -/
structure Lawful (v : TaskView) : Prop where
  last : ∀ id, lastTaskStatus v.trace id = v.statusOf id
  trace : LawfulTrace v.trace
  flow : ∀ n, ∀ id ∈ v.flow n, v.statusOf id = some "queued"
  stored : ∀ p ∈ v.pushes, p.stored = true → v.statusOf p.task.id = some "queued"
  taken : ∀ w ∈ v.works, w.stage = .taken → v.statusOf w.taskId = some "queued"
  running : ∀ w ∈ v.works, w.stage = .running → v.statusOf w.taskId = some "running"

theorem lastTaskStatus_cons (id i : UInt64) (text : String) (trace : List TaskEvent) :
    lastTaskStatus (.status i text :: trace) id
      = if i = id then some text else lastTaskStatus trace id := by
  unfold lastTaskStatus
  rw [List.findSome?_cons]
  by_cases h : i = id <;> simp [h]

theorem lastTaskStatus_handed (id : UInt64) (trace : List TaskEvent) : ∀ ids : List UInt64,
    lastTaskStatus (ids.map TaskEvent.handed ++ trace) id = lastTaskStatus trace id
  | [] => rfl
  | _ :: ids => lastTaskStatus_handed id trace ids

theorem LawfulTrace.handed {trace : List TaskEvent} (h : LawfulTrace trace) :
    ∀ ids : List UInt64, (∀ id ∈ ids, lastTaskStatus trace id ≠ some "cancelled") →
      LawfulTrace (ids.map TaskEvent.handed ++ trace)
  | [], _ => h
  | id :: ids, hids => by
    refine ⟨?_, LawfulTrace.handed h ids fun k hk => hids k (List.mem_cons_of_mem _ hk)⟩
    exact (lastTaskStatus_handed id trace ids).symm ▸ hids id List.mem_cons_self

theorem Lawful.eased (h : v.Lawful) (tasks : v'.tasks = v.tasks)
    (pushes : v'.pushes.Sublist v.pushes) (flow : ∀ n, v'.flow n ≤ v.flow n)
    (works : List.Forall₂ Retires v.works v'.works) (trace : v'.trace = v.trace) : v'.Lawful := by
  have hstatus : ∀ id, v'.statusOf id = v.statusOf id := fun id => by
    rw [statusOf, tasks, statusOf]
  have hworks : ∀ w' ∈ v'.works, ∃ w ∈ v.works, Retires w w' := fun w' hw' => by
    obtain ⟨i, hi⟩ := List.mem_iff_getElem?.1 hw'
    obtain ⟨hlt, rfl⟩ := List.getElem?_eq_some_iff.1 hi
    have hlen := works.length_eq
    exact ⟨v.works[i], List.getElem_mem _, works.get (by omega) hlt⟩
  refine ⟨fun id => ?_, trace ▸ h.trace, fun n id hid => ?_, fun p hp hs => ?_, fun w' hw' hs => ?_,
    fun w' hw' hs => ?_⟩
  · rw [trace, hstatus, h.last]
  · rw [hstatus]
    exact h.flow n id (Multiset.mem_of_le (flow n) hid)
  · rw [hstatus]
    exact h.stored p (pushes.mem hp) hs
  · obtain ⟨w, hw, -, hid, hstage⟩ := hworks w' hw'
    rw [hstatus, hid]
    exact h.taken w hw (by rcases hstage with hst | hst <;> rw [hs] at hst <;> simp_all)
  · obtain ⟨w, hw, -, hid, hstage⟩ := hworks w' hw'
    rw [hstatus, hid]
    exact h.running w hw (by rcases hstage with hst | hst <;> rw [hs] at hst <;> simp_all)

theorem Lawful.store (h : v.Lawful) (hs : v.Single) {i : ℕ} {task : TaskRecord}
    (push : v.pushes[i]? = some ⟨task, false⟩) :
    Lawful { v with
      tasks := v.tasks.insert task.id task
      pushes := v.pushes.set i ⟨task, true⟩
      trace := .status task.id task.status :: v.trace } := by
  have hmem : (⟨task, false⟩ : Push) ∈ v.pushes := List.mem_of_getElem? push
  have hnew : v.tasks[task.id]? = none := hs.unstored _ hmem rfl
  have hqueued : task.status = "queued" := hs.queued _ hmem
  set v₁ : TaskView := { v with
      tasks := v.tasks.insert task.id task
      pushes := v.pushes.set i ⟨task, true⟩
      trace := .status task.id task.status :: v.trace } with hv₁
  have hstatus : ∀ id, v₁.statusOf id = if task.id = id then some "queued" else v.statusOf id := by
    intro id
    simp only [statusOf, hv₁, lookup_insert]
    split_ifs
    · rw [Option.map_some, hqueued]
    · rfl
  have hkeep : ∀ id, v.statusOf id = some "queued" → v₁.statusOf id = some "queued" := by
    intro id hid
    rw [hstatus, hid, ite_self]
  refine ⟨fun id => ?_, ⟨.inl ⟨?_, hqueued⟩, h.trace⟩, fun n id hid => hkeep id (h.flow n id hid),
    fun p hp hp' => ?_, fun w hw hst => hkeep _ (h.taken w hw hst), fun w hw hst => ?_⟩
  · rw [hstatus, hv₁, lastTaskStatus_cons, h.last, hqueued]
  · rw [h.last, statusOf, hnew]
    rfl
  · rcases List.mem_or_eq_of_mem_set hp with hp | rfl
    · exact hkeep _ (h.stored p hp hp')
    · rw [hstatus, if_pos rfl]
  · have hrun := h.running w hw hst
    rw [hstatus, if_neg, hrun]
    rintro heq
    rw [statusOf, ← heq, hnew] at hrun
    cases hrun

theorem Lawful.enqueue (h : v.Lawful) {i : ℕ} {task : TaskRecord}
    (push : v.pushes[i]? = some ⟨task, true⟩) :
    Lawful { v with
      pushes := v.pushes.eraseIdx i
      flow := Function.update v.flow task.nodeId (task.id ::ₘ v.flow task.nodeId) } := by
  refine ⟨h.last, h.trace, fun n id hid => ?_,
    fun p hp => h.stored p (List.mem_of_mem_eraseIdx hp), h.taken, h.running⟩
  have hid : id ∈ Function.update v.flow task.nodeId (task.id ::ₘ v.flow task.nodeId) n := hid
  by_cases hn : n = task.nodeId
  · rw [hn, Function.update_self, Multiset.mem_cons] at hid
    rcases hid with rfl | hid
    · exact h.stored _ (List.mem_of_getElem? push) rfl
    · exact h.flow _ id hid
  · rw [Function.update_of_ne hn] at hid
    exact h.flow n id hid

theorem Lawful.hand (h : v.Lawful) {ids : List UInt64}
    (queued : ∀ id ∈ ids, v.statusOf id = some "queued") : (v.hand n ids).Lawful := by
  have hworks : ∀ w ∈ (v.hand n ids).works, w ∈ v.works ∨ w.taskId ∈ ids ∧ w.stage = .taken := by
    intro w hw
    rcases List.mem_append.1 hw with hw | hw
    · exact .inl hw
    · obtain ⟨id, hid, rfl⟩ := List.mem_map.1 hw
      exact .inr ⟨hid, rfl⟩
  refine ⟨fun id => ?_, ?_, h.flow, h.stored, fun w hw hst => ?_, fun w hw hst => ?_⟩
  · rw [TaskView.hand, ← List.map_reverse, lastTaskStatus_handed]
    exact h.last id
  · rw [TaskView.hand, ← List.map_reverse]
    refine LawfulTrace.handed h.trace _ fun id hid => ?_
    rw [h.last, queued id (List.mem_reverse.1 hid)]
    simp
  · rcases hworks w hw with hw | ⟨hid, -⟩
    · exact h.taken w hw hst
    · exact queued _ hid
  · rcases hworks w hw with hw | ⟨-, hst'⟩
    · exact h.running w hw hst
    · rw [hst] at hst'
      cases hst'

/-- A status is written by an allowed move, while no other copy of the task is under way. -/
theorem Lawful.setStatus (h : v.Lawful) {t : TaskRecord} (ht : v.tasks[id]? = some t)
    {status error : String} (hmove : AllowedMove (some t.status) status)
    (hflow : ∀ n, id ∉ v.flow n) (hpush : ∀ p ∈ v.pushes, p.stored = true → p.task.id ≠ id)
    (works : List Work) (htaken : ∀ w ∈ works, w.stage = .taken → w ∈ v.works ∧ w.taskId ≠ id)
    (hrunning : ∀ w ∈ works, w.stage = .running →
      w ∈ v.works ∧ w.taskId ≠ id ∨ w.taskId = id ∧ status = "running") :
    (TaskView.setStatus { v with works := works } id t status error).Lawful := by
  set v₁ := TaskView.setStatus { v with works := works } id t status error with hv₁
  have hstatus : ∀ k, v₁.statusOf k = if id = k then some status else v.statusOf k := by
    intro k
    simp only [statusOf, hv₁, TaskView.setStatus, lookup_insert]
    split_ifs <;> rfl
  have hkeep : ∀ k, k ≠ id → v₁.statusOf k = v.statusOf k := fun k hk => by
    rw [hstatus, if_neg (Ne.symm hk)]
  refine ⟨fun k => ?_, ⟨?_, h.trace⟩, fun n k hk => ?_, fun p hp hs => ?_, fun w hw hst => ?_,
    fun w hw hst => ?_⟩
  · rw [hstatus, ← h.last]
    exact lastTaskStatus_cons k id status v.trace
  · rw [h.last, statusOf, ht]
    exact hmove
  · rw [hkeep k fun heq => hflow n (heq ▸ hk)]
    exact h.flow n k hk
  · rw [hkeep _ (hpush p hp hs)]
    exact h.stored p hp hs
  · obtain ⟨hw', hne⟩ := htaken w hw hst
    rw [hkeep _ hne]
    exact h.taken w hw' hst
  · rcases hrunning w hw hst with ⟨hw', hne⟩ | ⟨heq, hrun⟩
    · rw [hkeep _ hne]
      exact h.running w hw' hst
    · rw [hstatus, if_pos heq.symm, hrun]

theorem allowed_of_report (old : Option String) {stage next : Stage} {status : String}
    (hreport : stage.report status = some next)
    (htaken : stage = .taken → old = some "queued") (hrunning : stage = .running →
      old = some "running") : AllowedMove old status ∧ (next = .running → status = "running")
      ∧ next ≠ .taken := by
  rcases stage with _ | _ | _
  · simp only [Stage.report] at hreport
    split_ifs at hreport with hst
    cases hreport
    exact ⟨.inr (.inl ⟨htaken rfl, .inl hst⟩), fun _ => hst, by simp⟩
  · simp only [Stage.report] at hreport
    split_ifs at hreport with hst
    cases hreport
    exact ⟨.inr (.inr ⟨hrunning rfl, hst⟩), by simp, by simp⟩
  · cases hreport

theorem Lawful.report (h : v.Lawful) (hs : v.Single) {i : ℕ} {w : Work} {next stage : Stage}
    {status error : String} {t : TaskRecord} (work : v.works[i]? = some w)
    (report : w.stage.report status = some next) (ended : stage = next ∨ stage = .over)
    (task : v.tasks[w.taskId]? = some t) :
    (TaskView.setStatus { v with works := v.works.set i { w with stage := stage } } w.taskId t
      status error).Lawful := by
  have hmem := List.mem_of_getElem? work
  have hstatus : v.statusOf w.taskId = some t.status := by rw [statusOf, task, Option.map_some]
  obtain ⟨hmove, hrun, htaken⟩ := allowed_of_report (some t.status) report
    (fun hst => hstatus ▸ h.taken w hmem hst) fun hst => hstatus ▸ h.running w hmem hst
  have hset : ∀ w' ∈ v.works.set i { w with stage := stage },
      w' = { w with stage := stage } ∨ w' ∈ v.works ∧ w'.taskId ≠ w.taskId := by
    intro w' hw'
    obtain ⟨j, hj⟩ := List.mem_iff_getElem?.1 hw'
    rw [List.getElem?_set] at hj
    split_ifs at hj with hij
    · exact .inl (Option.some.inj hj).symm
    · exact .inr ⟨List.mem_of_getElem? hj, fun heq => hij (hs.works_inj hj work heq).symm⟩
  refine h.setStatus task hmove (fun n hn => ?_) (fun p hp hst heq => ?_) _ (fun w' hw' hst => ?_)
    fun w' hw' hst => ?_
  · exact hs.onTheWay_ne (Multiset.mem_add.2 (.inr hn)) hmem rfl
  · refine hs.onTheWay_ne (n := p.task.nodeId) (Multiset.mem_add.2 (.inl ?_)) hmem heq.symm
    exact List.mem_map.2 ⟨p, List.mem_filter.2 ⟨hp, by simp⟩, rfl⟩
  · rcases hset w' hw' with rfl | hw'
    · rcases ended with rfl | rfl
      · exact absurd hst htaken
      · cases hst
    · exact hw'
  · rcases hset w' hw' with rfl | hw'
    · rcases ended with rfl | rfl
      · exact .inr ⟨rfl, hrun hst⟩
      · cases hst
    · exact .inl hw'

/-- A step keeps the law. -/
theorem Lawful.step (h : v.Lawful) (hs : v.Single) (hstep : v.Step v') : v'.Lawful := by
  cases hstep with
  | eased tasks pushes flow works trace => exact h.eased tasks pushes flow works trace
  | begun task status unused =>
    refine ⟨h.last, h.trace, h.flow, fun p hp hst => ?_, h.taken, h.running⟩
    rcases List.mem_append.1 hp with hp | hp
    · exact h.stored p hp hst
    · rw [List.mem_singleton.1 hp] at hst
      cases hst
  | stored i task push => exact h.store hs push
  | queued i task push => exact h.enqueue push
  | replied n ids nodup found apart =>
    refine h.hand fun id hid => ?_
    obtain ⟨t, ht, -, hqueued⟩ := found id hid
    rw [statusOf, ht, Option.map_some, hqueued]
  | delivered n id rest flow =>
    have heased : Lawful { v with flow := Function.update v.flow n rest } := by
      refine ⟨h.last, h.trace, fun m k hk => ?_, h.stored, h.taken, h.running⟩
      have hk : k ∈ Function.update v.flow n rest m := hk
      by_cases hm : m = n
      · rw [hm, Function.update_self] at hk
        exact h.flow n k (by rw [flow]; exact Multiset.mem_cons_of_mem hk)
      · rw [Function.update_of_ne hm] at hk
        exact h.flow m k hk
    refine heased.hand fun k hk => ?_
    rw [List.mem_singleton.1 hk]
    exact h.flow n id (by rw [flow]; exact Multiset.mem_cons_self _ _)
  | reported i w next stage status error t work report ended task =>
    exact h.report hs work report ended task

/-- A queued task with no copy under way is cancelled. -/
theorem Lawful.cancel (h : v.Lawful) (hs : v.Single) {t : TaskRecord} (ht : v.tasks[id]? = some t)
    (hqueued : t.status = "queued") (hway : id ∉ v.onTheWay t.nodeId)
    (hover : ∀ w ∈ v.works, w.taskId = id → w.stage = .over) (error : String) :
    (v.setStatus id t "cancelled" error).Lawful := by
  have hmove : AllowedMove (some t.status) "cancelled" := by
    rw [hqueued]
    exact .inr (.inl ⟨rfl, .inr rfl⟩)
  refine h.setStatus ht hmove (fun n hn => ?_) (fun p hp hst heq => ?_) v.works
    (fun w hw hst => ⟨hw, fun heq => ?_⟩) fun w hw hst => .inl ⟨hw, fun heq => ?_⟩
  · obtain ⟨u, hu, hun⟩ := hs.known n id (Multiset.mem_add.2 (.inl hn))
    rw [ht] at hu
    cases hu
    exact hway (Multiset.mem_add.2 (.inr (hun ▸ hn)))
  · obtain ⟨u, hu, hun⟩ := hs.stored p hp hst
    rw [heq, ht] at hu
    cases hu
    refine hway (Multiset.mem_add.2 (.inl (List.mem_map.2 ⟨p, ?_, heq⟩)))
    exact List.mem_filter.2 ⟨hp, by simp [hun]⟩
  · have := hover w hw heq
    rw [hst] at this
    cases this
  · have := hover w hw heq
    rw [hst] at this
    cases this

end Law

end TaskView

end BlazeNet

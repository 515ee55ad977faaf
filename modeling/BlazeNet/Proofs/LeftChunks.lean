import BlazeNet.DownloadSpec
import BlazeNet.Proofs.Rounds

/-!
# Chunks that are left over

A fetch that ends with an error gives back all that it was asked for, what the sink has taken of it
included. Where no fetch of a round ends so once the sink has taken a chunk of it, nothing that the
rounds leave over has been taken (`runRounds_left`), and a fetch from the origin that fails leaves a
chunk that has not been taken in any case (`fetchOrigin_left`).
-/

namespace BlazeNet

open Wire FaultIo Io RustStd

section Fetch

/-- The sink has not taken the chunk. -/
def Untaken {σ : Type} (t : (σ × List (Hash × Bytes)) × List Hash) (hash : Hash) : Prop :=
  ∀ data, (hash, data) ∉ t.1.2

/-- What a fetch has not brought so far, where it has not ended with an error. -/
def FetchTask.left (task : FetchTask) : List Hash := match task.phase with
  | .dialing => task.hashes
  | .reading rest stats => rest ++ stats.failed
  | .finished (.ok stats) => stats.failed
  | .finished (.error _) => []

theorem left_after (endpoint : String) (hashes rest : List Hash) (stats : FetchStats) :
    FetchTask.left ⟨endpoint, hashes, .after rest stats⟩ = rest ++ stats.failed := by
  unfold FetchPhase.after
  rcases rest with _ | ⟨hash, rest⟩ <;> rfl

theorem after_ne_error (rest : List Hash) (stats : FetchStats) (err : AnyError) :
    FetchPhase.after rest stats ≠ .finished (.error err) := by
  unfold FetchPhase.after
  split_ifs <;> intro h <;> cases h

theorem after_eq_reading {rest rest' : List Hash} {stats stats' : FetchStats}
    (h : FetchPhase.after rest stats = .reading rest' stats') : stats' = stats := by
  unfold FetchPhase.after at h
  split_ifs at h
  exact (FetchPhase.reading.inj h).2.symm

/-- The sink has taken nothing of what a fetch has not brought. Where fetches that end with an error
are `late`, of these some chunk has not been taken, else none has. -/
structure FetchTask.Left {σ : Type} (late : Prop) (task : FetchTask)
    (t : (σ × List (Hash × Bytes)) × List Hash) : Prop where
  asked : task.hashes.Nodup ∧ task.hashes ≠ []
  nodup : task.left.Nodup
  sound : ∀ hash ∈ task.left, hash ∈ task.hashes
  untaken : ∀ hash ∈ task.left, Untaken t hash
  failed : ∀ err, task.phase = .finished (.error err) → ∃ hash ∈ task.hashes, Untaken t hash
  fresh : ¬late → ∀ rest stats, task.phase = .reading rest stats → stats.downloaded = 0 →
    ∀ hash ∈ task.hashes, Untaken t hash
  whole : ¬late → ∀ err, task.phase = .finished (.error err) → ∀ hash ∈ task.hashes, Untaken t hash

variable {σ : Type} {blake3 : Bytes → Hash} {sink : Hash → Bytes → Io AnyError σ Unit} {late : Prop}
  {task : FetchTask} {e : Event} {t t' : (σ × List (Hash × Bytes)) × List Hash} {phase : FetchPhase}
  {w : World AnyError ((σ × List (Hash × Bytes)) × List Hash)}

/-- What happens to other chunks makes no difference to a fetch. -/
theorem FetchTask.Left.congr (h : task.Left late t)
    (hkeeps : ∀ hash ∈ task.hashes, Untaken t hash → Untaken t' hash) : task.Left late t' where
  asked := h.asked
  nodup := h.nodup
  sound := h.sound
  untaken hash hh := hkeeps hash (h.sound hash hh) (h.untaken hash hh)
  failed err herr := (h.failed err herr).imp fun hash hh => ⟨hh.1, hkeeps hash hh.1 hh.2⟩
  fresh hlate rest stats hphase hnone hash hh :=
    hkeeps hash hh (h.fresh hlate rest stats hphase hnone hash hh)
  whole hlate err herr hash hh := hkeeps hash hh (h.whole hlate err herr hash hh)

/-- A call of the sink that fails takes nothing, and one that succeeds takes its chunk. -/
theorem untaken_of_run {hash : Hash} {data : Bytes} {faults : List (Fault AnyError)}
    {r : Except (Stop AnyError) Unit}
    (h : (recordSink (takenSink sink) hash data).run ⟨t, faults⟩ = (r, w)) (other : Hash)
    (hother : Untaken t other) (hne : r = .ok () → other ≠ hash) : Untaken w.state other := by
  rw [run_recordSink, run_takenSink] at h
  rcases hsink : (sink hash data).run ⟨t.1.1, faults⟩ with ⟨err | ⟨⟩, w'⟩ <;> rw [hsink] at h <;>
    cases h
  · exact hother
  · intro data' hmem
    rcases List.mem_append.1 hmem with hmem | hmem
    · exact hother data' hmem
    · exact hne rfl (congrArg Prod.fst (List.mem_singleton.1 hmem))

/-- A fetch that goes on with the rest of its chunks. -/
theorem FetchTask.Left.after {rest : List Hash} {stats : FetchStats} (h : task.Left late t)
    (hnodup : (rest ++ stats.failed).Nodup)
    (hleft : ∀ hash ∈ rest ++ stats.failed, hash ∈ task.hashes ∧ Untaken t' hash)
    (hfresh : ¬late → stats.downloaded = 0 → ∀ hash ∈ task.hashes, Untaken t' hash) :
    FetchTask.Left late { task with phase := .after rest stats } t' where
  asked := h.asked
  nodup := (left_after _ _ _ _).symm ▸ hnodup
  sound hash hh := (hleft hash (left_after _ _ _ _ ▸ hh)).1
  untaken hash hh := (hleft hash (left_after _ _ _ _ ▸ hh)).2
  failed err herr := absurd herr (after_ne_error rest stats err)
  fresh hlate _ _ hphase hnone := hfresh hlate (after_eq_reading hphase ▸ hnone)
  whole _ err herr := absurd herr (after_ne_error rest stats err)

/-- A fetch that ends with an error. -/
theorem FetchTask.Left.error (h : task.Left late t) {err : AnyError}
    (hsome : ∃ hash ∈ task.hashes, Untaken t' hash)
    (hall : ¬late → ∀ hash ∈ task.hashes, Untaken t' hash) :
    FetchTask.Left late { task with phase := .finished (.error err) } t' where
  asked := h.asked
  nodup := List.nodup_nil
  sound hash hh := by cases hh
  untaken hash hh := by cases hh
  failed _ _ := hsome
  fresh _ rest stats hphase := by cases hphase
  whole hlate _ _ := hall hlate

/-- What an event does to its own fetch, and to the chunks of others. -/
theorem FetchTask.Left.step (h : task.Left late t)
    (hspares : ¬late → SparesTaken blake3 (recordSink (takenSink sink)) task e t)
    (hrun : (fetchNext blake3 (recordSink (takenSink sink)) task.hashes task.phase e.net).run
      ⟨t, e.faults⟩ = (.ok phase, w)) :
    FetchTask.Left late { task with phase } w.state
      ∧ ∀ hash, hash ∉ task.hashes → Untaken t hash → Untaken w.state hash := by
  obtain ⟨hstate, hmove⟩ | ⟨hash, data, rest, stats, hphase, hdelivers, hcall⟩ :=
    fetchNext_moves hrun
  · subst hstate
    refine ⟨?_, fun _ _ hh => hh⟩
    rcases hmove with rfl | ⟨hphase, rfl⟩ | ⟨err, hbroken, rfl, hphase⟩
      | ⟨hash, rest, stats, hphase, rfl⟩
    · exact h
    · have hleft : task.left = task.hashes := by rw [FetchTask.left, hphase]
      have hall : ∀ hash ∈ task.hashes, Untaken w.state hash := fun hash hh =>
        h.untaken hash (hleft ▸ hh)
      refine h.after ?_ (fun hash hh => ?_) fun _ _ => hall
      · simpa [FetchStats.empty] using h.asked.1
      · have hmem : hash ∈ task.hashes := by simpa [FetchStats.empty] using hh
        exact ⟨hmem, hall hash hmem⟩
    · rcases hphase with hphase | ⟨hash, rest, stats, hphase⟩
      · have hleft : task.left = task.hashes := by rw [FetchTask.left, hphase]
        have hall : ∀ hash ∈ task.hashes, Untaken w.state hash := fun hash hh =>
          h.untaken hash (hleft ▸ hh)
        obtain ⟨hash, hh⟩ := List.exists_mem_of_ne_nil _ h.asked.2
        exact h.error ⟨hash, hh, hall hash hh⟩ fun _ => hall
      · have hmem : hash ∈ task.left := by simp [FetchTask.left, hphase]
        refine h.error ⟨hash, h.sound hash hmem, h.untaken hash hmem⟩ fun hlate => ?_
        exact h.fresh hlate _ _ hphase (hspares hlate _ _ hphase (.inl ⟨err, hbroken⟩))
    · have hperm : (rest ++ (stats.failed ++ [hash])).Perm task.left := by
        rw [FetchTask.left, hphase, ← List.append_assoc]
        exact List.perm_append_singleton hash _
      exact h.after (hperm.nodup_iff.2 h.nodup) (fun other hh =>
        ⟨h.sound other (hperm.subset hh), h.untaken other (hperm.subset hh)⟩)
        fun hlate hnone => h.fresh hlate _ _ hphase hnone
  · have hleft : task.left = hash :: (rest ++ stats.failed) := by rw [FetchTask.left, hphase]; rfl
    have hmem : hash ∈ task.left := by simp [hleft]
    rcases hcall with ⟨rfl, hcall⟩ | ⟨err, rfl, hcall⟩
    · have hkeeps : ∀ other, other ≠ hash → Untaken t other → Untaken w.state other :=
        fun other hne hother => untaken_of_run hcall other hother fun _ => hne
      refine ⟨?_, fun other hout hother =>
        hkeeps other (fun he => hout (he ▸ h.sound hash hmem)) hother⟩
      have hnodup := h.nodup
      rw [hleft, List.nodup_cons] at hnodup
      refine h.after hnodup.2 (fun other hh => ?_) fun _ hnone => by cases hnone
      have hmem' : other ∈ task.left := hleft ▸ List.mem_cons_of_mem _ hh
      exact ⟨h.sound other hmem',
        hkeeps other (fun he => hnodup.1 (he ▸ hh)) (h.untaken other hmem')⟩
    · have hkeeps : ∀ other, Untaken t other → Untaken w.state other :=
        fun other hother => untaken_of_run hcall other hother fun h => by cases h
      refine ⟨h.error ⟨hash, h.sound hash hmem, hkeeps hash (h.untaken hash hmem)⟩
        fun hlate other hh =>
        hkeeps other ?_, fun other _ => hkeeps other⟩
      exact h.fresh hlate _ _ hphase
        (hspares hlate _ _ hphase (.inr ⟨hash, data, hdelivers, err, w, hcall⟩)) other hh

/-- What a fetch gives back when it has ended. -/
theorem FetchTask.Left.work (h : task.Left False t) (hend : task.phase.isFinished) :
    task.work.Nodup ∧ ∀ hash ∈ task.work, hash ∈ task.hashes ∧ Untaken t hash := by
  rcases hphase : task.phase with _ | ⟨rest, stats⟩ | (err | stats)
  · rw [hphase] at hend
    cases hend
  · rw [hphase] at hend
    cases hend
  · have hwork : task.work = task.hashes := by rw [FetchTask.work, hphase]
    rw [hwork]
    exact ⟨h.asked.1, fun hash hh => ⟨hh, h.whole id err hphase hash hh⟩⟩
  · have hwork : task.work = task.left := by rw [FetchTask.work, FetchTask.left, hphase]
    rw [hwork]
    exact ⟨h.nodup, fun hash hh => ⟨h.sound hash hh, h.untaken hash hh⟩⟩

end Fetch

section Pools

variable {σ : Type} {blake3 : Bytes → Hash} {sink : Hash → Bytes → Io AnyError σ Unit} {late : Prop}
  {next : List Hash} {pool pool' : Pool ((σ × List (Hash × Bytes)) × List Hash)} {e : Event}

/-- The same of all fetches of a round, which share no chunk, and of the chunks without a source. -/
structure Pool.Left (late : Prop) (next : List Hash)
    (pool : Pool ((σ × List (Hash × Bytes)) × List Hash)) : Prop where
  tasks : ∀ task ∈ pool.tasks, task.Left late pool.shared
  unsourced : ∀ hash ∈ next, Untaken pool.shared hash
  apart : (pool.asked.flatMap Prod.snd ++ next).Nodup
  order : pool.order.Nodup
  ended : ∀ i ∈ pool.order, ∃ task, pool.tasks[i]? = some task ∧ task.phase.isFinished

theorem Pool.Left.disjoint (h : pool.Left late next) {i j : ℕ} {task other : FetchTask}
    (hi : pool.tasks[i]? = some task) (hj : pool.tasks[j]? = some other) (hne : i ≠ j) :
    task.hashes.Disjoint other.hashes := by
  have hpairs := (List.nodup_flatMap.1 (List.nodup_append.1 h.apart).1).2
  rw [Pool.asked, List.pairwise_map, List.pairwise_iff_getElem] at hpairs
  obtain ⟨hi, rfl⟩ := List.getElem?_eq_some_iff.1 hi
  obtain ⟨hj, rfl⟩ := List.getElem?_eq_some_iff.1 hj
  rcases Nat.lt_or_gt_of_ne hne with hlt | hgt
  · exact hpairs i j _ _ hlt
  · exact (hpairs j i _ _ hgt).symm

theorem Pool.Left.next_notMem (h : pool.Left late next) {task : FetchTask}
    (hmem : task ∈ pool.tasks)
    {hash : Hash} (hh : hash ∈ next) : hash ∉ task.hashes := fun hin =>
  (List.nodup_append.1 h.apart).2.2 hash
    (List.mem_flatMap.2 ⟨(task.endpoint, task.hashes), List.mem_map_of_mem hmem, hin⟩) hash hh rfl

theorem Pool.Left.step (h : pool.Left late next)
    (hspares : ¬late → ∀ task, pool.tasks[e.task]? = some task →
      SparesTaken blake3 (recordSink (takenSink sink)) task e pool.shared)
    (hstep : pool.step blake3 (recordSink (takenSink sink)) e = some pool') :
    pool'.Left late next := by
  have hasked := Pool.step_asked hstep
  obtain ⟨-, rfl⟩ | ⟨task, phase, w, htask, hrun, rfl⟩ := Pool.step_cases hstep
  · exact h
  have hmem := List.mem_of_getElem? htask
  obtain ⟨hown, hothers⟩ := (h.tasks task hmem).step (fun hlate => hspares hlate task htask) hrun
  have hin := (List.getElem?_eq_some_iff.1 htask).1
  -- a fetch that has ended stays as it is
  have hended : task.phase.isFinished → phase = task.phase := fun hend => by
    obtain ⟨-, -, hsame⟩ | ⟨hash, data, rest, stats, hphase, -⟩ := fetchNext_cases hrun
    · exact hsame hend
    · rw [hphase] at hend
      cases hend
  refine ⟨fun x hx => ?_, fun hash hh => hothers hash (h.next_notMem hmem hh) (h.unsourced hash hh),
    hasked.symm ▸ h.apart, ?_, fun i hi => ?_⟩
  · obtain ⟨j, hj⟩ := List.mem_iff_getElem?.1 hx
    dsimp only at hj
    by_cases hji : e.task = j
    · subst hji
      rw [List.getElem?_set_self hin, Option.some.injEq] at hj
      exact hj ▸ hown
    · rw [List.getElem?_set_ne hji] at hj
      refine (h.tasks x (List.mem_of_getElem? hj)).congr fun hash hh => hothers hash fun hin => ?_
      exact h.disjoint htask hj hji hin hh
  · dsimp only
    split_ifs with hnew
    · refine List.nodup_append.2 ⟨h.order, List.nodup_singleton _, fun i hi j hj he => ?_⟩
      rw [List.mem_singleton] at hj
      subst he hj
      obtain ⟨task', htask', hend⟩ := h.ended _ hi
      obtain rfl := Option.some.inj (htask.symm.trans htask')
      rw [hend] at hnew
      cases hnew
    · exact h.order
  · dsimp only at hi ⊢
    by_cases hie : e.task = i
    · subst hie
      refine ⟨_, List.getElem?_set_self hin, ?_⟩
      rcases hbefore : task.phase.isFinished with _ | _
      · rw [hbefore] at hi
        split_ifs at hi with hnew
        · simpa using hnew
        · obtain ⟨task', htask', hend⟩ := h.ended _ hi
          obtain rfl := Option.some.inj (htask.symm.trans htask')
          rw [hend] at hbefore
          cases hbefore
      · rw [hended hbefore]
        exact hbefore
    · rw [List.getElem?_set_ne hie]
      refine h.ended i ?_
      split_ifs at hi with hnew
      · exact (List.mem_append.1 hi).resolve_right fun hlast =>
          hie (List.mem_singleton.1 hlast).symm
      · exact hi

theorem Pool.Left.run : ∀ (events : List Event)
    (pool : Pool ((σ × List (Hash × Bytes)) × List Hash)), pool.Left late next →
      (¬late → Pool.Along blake3 (recordSink (takenSink sink))
        (SparesTaken blake3 (recordSink (takenSink sink))) events pool) →
      Pool.run blake3 (recordSink (takenSink sink)) events pool = some pool' → pool'.Left late next
  | [], _, h, _, hrun => Option.some.inj hrun ▸ h
  | e :: events, pool, h, halong, hrun => by
    simp only [Pool.run] at hrun
    rcases hstep : pool.step blake3 (recordSink (takenSink sink)) e with _ | pool₁ <;>
      rw [hstep] at hrun
    · cases hrun
    · exact Pool.Left.run events pool₁ (h.step (fun hlate => (halong hlate).1) hstep)
        (fun hlate => (halong hlate).2 pool₁ hstep) hrun

theorem joinTasks_fst : ∀ (tasks : List FetchTask) (next : List Hash) (exclude : List String),
    (∀ task ∈ tasks, task.phase.isFinished) →
      (joinTasks tasks next exclude).1 = next ++ tasks.flatMap FetchTask.work
  | [], next, _, _ => by simp [joinTasks]
  | task :: tasks, next, exclude, hend => by
    have hrest := fun t ht => hend t (List.mem_cons_of_mem _ ht)
    have hhead := hend task List.mem_cons_self
    unfold joinTasks
    rcases hphase : task.phase with _ | ⟨rest, stats⟩ | (err | stats) <;> rw [hphase] at hhead
    · cases hhead
    · cases hhead
    all_goals
      simp only [joinTasks_fst tasks _ _ hrest, List.flatMap_cons, List.append_assoc]
      rw [FetchTask.work, hphase]

/-- When the fetches of a round are joined, no chunk comes back twice, and none that has been
taken. -/
theorem Pool.Left.joined (h : pool.Left False next)
    (hall : pool.tasks.all (fun task => task.phase.isFinished) = true) (exclude : List String) :
    (joinTasks (pool.order.filterMap fun i => pool.tasks[i]?) next exclude).1.Nodup
      ∧ ∀ hash ∈ (joinTasks (pool.order.filterMap fun i => pool.tasks[i]?) next exclude).1,
        Untaken pool.shared hash := by
  have hjoined : ∀ task ∈ pool.order.filterMap fun i => pool.tasks[i]?, task ∈ pool.tasks := by
    intro task htask
    obtain ⟨i, -, hi⟩ := List.mem_filterMap.1 htask
    exact List.mem_of_getElem? hi
  have hend : ∀ task ∈ pool.tasks, task.phase.isFinished := fun task htask =>
    List.all_eq_true.1 hall task htask
  have hwork : ∀ task ∈ pool.tasks,
      task.work.Nodup ∧ ∀ hash ∈ task.work, hash ∈ task.hashes ∧ Untaken pool.shared hash :=
    fun task htask => (h.tasks task htask).work (hend task htask)
  rw [joinTasks_fst _ _ _ fun task htask => hend task (hjoined task htask)]
  refine ⟨List.nodup_append.2 ⟨(List.nodup_append.1 h.apart).2.1, List.nodup_flatMap.2
    ⟨fun task htask => (hwork task (hjoined task htask)).1, ?_⟩, fun hash hh other hother he => ?_⟩,
    fun hash hh => ?_⟩
  · rw [List.pairwise_filterMap]
    refine h.order.imp fun {i j} hne task htask other hother hash hh hh' => ?_
    exact h.disjoint htask hother hne ((hwork task (List.mem_of_getElem? htask)).2 hash hh).1
      ((hwork other (List.mem_of_getElem? hother)).2 hash hh').1
  · subst he
    obtain ⟨task, htask, hin⟩ := List.mem_flatMap.1 hother
    have hmem := hjoined task htask
    exact h.next_notMem hmem hh ((hwork task hmem).2 hash hin).1
  · rcases List.mem_append.1 hh with hh | hh
    · exact h.unsourced hash hh
    · obtain ⟨task, htask, hin⟩ := List.mem_flatMap.1 hh
      exact ((hwork task (hjoined task htask)).2 hash hin).2

end Pools

section Groups

variable {Sock : Type} {net : NetText Sock} {exclude : List String}

theorem perm_addToGroup (target : Target) (hash : Hash) :
    ∀ groups : List (Target × List Hash),
      ((addToGroup target hash groups).flatMap Prod.snd).Perm (hash :: groups.flatMap Prod.snd)
  | [] => .refl _
  | (t, hashes) :: groups => by
    unfold addToGroup
    split_ifs
    · simp only [List.flatMap_cons, List.append_assoc]
      exact List.perm_middle
    · simp only [List.flatMap_cons]
      exact ((perm_addToGroup target hash groups).append_left hashes).trans List.perm_middle

theorem addToGroup_nonempty (target : Target) (hash : Hash) :
    ∀ groups : List (Target × List Hash), (∀ g ∈ groups, g.2 ≠ []) →
      ∀ g ∈ addToGroup target hash groups, g.2 ≠ []
  | [], _ => by simp [addToGroup]
  | (t, hashes) :: groups, h => by
    have hrest := addToGroup_nonempty target hash groups fun g hg => h g (List.mem_cons_of_mem _ hg)
    unfold addToGroup
    split_ifs
    · rintro g (_ | ⟨_, hg⟩)
      · simp
      · exact h g (List.mem_cons_of_mem _ hg)
    · rintro g (_ | ⟨_, hg⟩)
      · exact h _ List.mem_cons_self
      · exact hrest g hg

/-- The chunks of a round are shared out: each goes to one group, or to no source, once. -/
theorem perm_groupHashes {answers : Hash → Except AnyError (List PeerEntry)}
    {groups' : List (Target × List Hash)} {next' : List Hash} :
    ∀ (hashes : List Hash) (groups : List (Target × List Hash)) (next : List Hash),
      groupHashes net answers exclude hashes groups next = .ok (groups', next') →
      (∀ g ∈ groups, g.2 ≠ []) →
        (groups'.flatMap Prod.snd ++ next').Perm (groups.flatMap Prod.snd ++ next ++ hashes)
          ∧ ∀ g ∈ groups', g.2 ≠ []
  | [], groups, next, hok, hne => by
    cases hok
    exact ⟨by simp, hne⟩
  | hash :: hashes, groups, next, hok, hne => by
    unfold groupHashes at hok
    rcases hanswer : answers hash with e | peers <;> simp only [hanswer] at hok
    · cases hok
    · rcases hpeer : choosePeer (fun id => (net.canon id).isSome) exclude peers hash
        with _ | peer <;>
        simp only [hpeer] at hok
      · obtain ⟨hperm, hgroups⟩ := perm_groupHashes hashes groups (next ++ [hash]) hok hne
        exact ⟨by simpa using hperm, hgroups⟩
      · obtain ⟨hperm, hgroups⟩ := perm_groupHashes hashes _ next hok
          (addToGroup_nonempty (targetOfPeer net peer hash) hash groups hne)
        have hadd := perm_addToGroup (targetOfPeer net peer hash) hash groups
        refine ⟨hperm.trans ?_, hgroups⟩
        rw [List.append_assoc]
        refine (hadd.append_right _).trans ?_
        rw [List.append_assoc (groups.flatMap Prod.snd), List.cons_append, ← List.append_assoc,
          ← List.append_assoc (groups.flatMap Prod.snd) next]
        exact List.perm_middle.symm

end Groups

section Rounds

variable {σ Sock : Type} {net : NetText Sock} {blake3 : Bytes → Hash}
  {sink : Hash → Bytes → Io AnyError σ Unit} {late : Prop} {exclude : List String}
  {unresolved : List Hash} {s s' : (σ × List (Hash × Bytes)) × List Hash}

theorem left_startPool {groups : List (Target × List Hash)} {next : List Hash}
    (hnodup : (groups.flatMap Prod.snd ++ next).Nodup) (hne : ∀ g ∈ groups, g.2 ≠ [])
    (huntaken : ∀ hash ∈ groups.flatMap Prod.snd ++ next, Untaken s hash) :
    (startPool groups s).Left late next where
  tasks task htask := by
    obtain ⟨g, hg, rfl⟩ := List.mem_map.1 htask
    have hg' : g.2.Nodup := (List.nodup_flatMap.1 (List.nodup_append.1 hnodup).1).1 g hg
    exact {
      asked := ⟨hg', hne g hg⟩
      nodup := hg'
      sound := fun hash hh => hh
      untaken := fun hash hh =>
        huntaken hash (List.mem_append_left _ (List.mem_flatMap.2 ⟨g, hg, hh⟩))
      failed := fun _ herr => by cases herr
      fresh := fun _ _ _ hphase => by cases hphase
      whole := fun _ _ herr => by cases herr }
  unsourced hash hh := huntaken hash (List.mem_append_right _ hh)
  apart := by
    have hasked : (startPool groups s).asked.flatMap Prod.snd = groups.flatMap Prod.snd := by
      simp [Pool.asked, startPool, List.flatMap_map]
    exact hasked.symm ▸ hnodup
  order := List.nodup_nil
  ended := fun _ h => by cases h

theorem runRound_left {input : RoundInput} (hnodup : unresolved.Nodup)
    (huntaken : ∀ hash ∈ unresolved, Untaken s hash)
    (halong : ∀ groups next,
      groupHashes net input.answers exclude unresolved [] [] = .ok (groups, next) →
        Pool.Along blake3 (recordSink (takenSink sink))
          (SparesTaken blake3 (recordSink (takenSink sink))) input.events
          (startPool (spawned groups) s))
    {r : RoundEnd} (h : runRound net blake3 (recordSink (takenSink sink)) input exclude unresolved s
      = some (.ok r, s')) :
    r.unresolved.Nodup ∧ ∀ hash ∈ r.unresolved, Untaken s' hash := by
  obtain ⟨groups, next, hgroups, hend⟩ := runRound_ok h
  obtain ⟨hperm, hne⟩ := perm_groupHashes unresolved [] [] hgroups fun _ h => by cases h
  rw [List.flatMap_nil, List.nil_append, List.nil_append] at hperm
  have hnodup' := hperm.nodup_iff.2 hnodup
  have huntaken' := fun hash hh => huntaken hash (hperm.subset hh)
  obtain ⟨rfl, rfl, rfl⟩ | ⟨pool, hspawned, hrun, hall, hr, -, -, rfl⟩ := hend
  · exact ⟨(List.nodup_append.1 hnodup').2.1,
      fun hash hh => huntaken' hash (List.mem_append_right _ hh)⟩
  · have hstart := halong groups next hgroups
    rw [hspawned] at hstart
    have hleft : (startPool groups s).Left False next := left_startPool hnodup' hne huntaken'
    have hpool := Pool.Left.run input.events _ hleft (fun _ => hstart) hrun
    rw [hr]
    exact hpool.joined hall exclude

/-- What the rounds leave over has not been taken. -/
theorem runRounds_left {unresolved' : List Hash} :
    ∀ (inputs : List RoundInput) (exclude : List String) (unresolved : List Hash)
      (s : (σ × List (Hash × Bytes)) × List Hash),
      unresolved.Nodup → (∀ hash ∈ unresolved, Untaken s hash) →
      RoundsAlong net blake3 (recordSink (takenSink sink))
        (SparesTaken blake3 (recordSink (takenSink sink))) inputs exclude unresolved s →
      runRounds net blake3 (recordSink (takenSink sink)) inputs exclude unresolved s
        = some (.ok unresolved', s') →
        unresolved'.Nodup ∧ ∀ hash ∈ unresolved', Untaken s' hash
  | [], _, _, _, hnodup, huntaken, _, h => by
    cases h
    exact ⟨hnodup, huntaken⟩
  | input :: inputs, exclude, unresolved, s, hnodup, huntaken, halong, h => by
    unfold runRounds at h
    split_ifs at h with hempty
    · cases h
      exact ⟨List.nodup_nil, fun _ hh => by cases hh⟩
    · rcases hround : runRound net blake3 (recordSink (takenSink sink)) input exclude unresolved s
        with _ | ⟨e | r, s₁⟩ <;> simp only [hround] at h
      · cases h
      · cases h
      obtain ⟨hnodup₁, huntaken₁⟩ := runRound_left hnodup huntaken halong.1 hround
      split_ifs at h with hstop
      · cases h
        exact ⟨hnodup₁, huntaken₁⟩
      · exact runRounds_left inputs r.exclude r.unresolved s₁ hnodup₁ huntaken₁
          (halong.2 r s₁ hround) h

/-- A fetch from the origin that fails leaves a chunk that has not been taken. -/
theorem fetchOrigin_left {events : List Event} {target : Target} {retry : List Hash}
    (hnodup : retry.Nodup) (hne : retry ≠ []) (huntaken : ∀ hash ∈ retry, Untaken s hash)
    {e : AnyError} {t : σ × List (Hash × Bytes)}
    (h : fetchOrigin blake3 (takenSink sink) events target retry s = some (.error e, t)) :
    ∃ hash ∈ retry, ∀ data, (hash, data) ∉ t.2 := by
  unfold fetchOrigin at h
  rcases hrun : Pool.run blake3 (recordSink (takenSink sink)) events (startPool [(target, retry)] s)
    with _ | pool <;> simp only [hrun] at h
  · cases h
  have hstart : (startPool [(target, retry)] s).Left True [] :=
    left_startPool (by simpa using hnodup) (by simpa using hne) (by simpa using huntaken)
  obtain ⟨task, htasks, hhashes, -⟩ := startPool_one hrun
  have hleft := (Pool.Left.run events _ hstart (fun hlate => absurd trivial hlate) hrun).tasks task
    (by rw [htasks]; exact List.mem_singleton_self _)
  simp only [htasks, List.head?_cons, Option.map_some] at h
  rcases hphase : task.phase with _ | ⟨rest, stats⟩ | (err | stats) <;> simp only [hphase] at h
  · cases h
  · cases h
  · cases h
    exact hhashes ▸ hleft.failed e hphase
  · split_ifs at h with hfailed
    · cases h
      have hwork : task.left = stats.failed := by rw [FetchTask.left, hphase]
      obtain ⟨hash, hh⟩ := List.exists_mem_of_ne_nil stats.failed (by simpa using hfailed)
      rw [← hwork] at hh
      exact ⟨hash, hhashes ▸ hleft.sound hash hh, hleft.untaken hash hh⟩
    · cases h

end Rounds

end BlazeNet

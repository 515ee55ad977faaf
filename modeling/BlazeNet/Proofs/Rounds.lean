import BlazeNet.Proofs.Pool

/-!
# What the rounds of a download keep

A round gives each of its chunks to one group or leaves it for the next round, and what its fetches
do not bring comes back when they are joined. So a chunk is among those unresolved until it has come
as far as the sink brings it, through both rounds and the fetch from the origin
(`runRounds_covered`, `downloadMissing_have`).
-/

namespace BlazeNet

open Wire FaultIo Io RustStd

section Groups

variable {Sock : Type} {net : NetText Sock}

theorem mem_addToGroup (target : Target) (hash : Hash) {h : Hash} :
    ∀ groups : List (Target × List Hash), (∃ g ∈ addToGroup target hash groups, h ∈ g.2)
      ↔ h = hash ∨ ∃ g ∈ groups, h ∈ g.2
  | [] => by simp [addToGroup]
  | (t, hashes) :: groups => by
    unfold addToGroup
    split_ifs
    · simp only [List.mem_cons, exists_eq_or_imp, List.mem_append, List.not_mem_nil, or_false]
      tauto
    · simp only [List.mem_cons, exists_eq_or_imp, mem_addToGroup target hash groups]
      tauto

/-- Each chunk is in a group or left over, and no other is. -/
theorem mem_groupHashes {answers : Hash → Except AnyError (List PeerEntry)} {exclude : List String}
    {groups' : List (Target × List Hash)} {next' : List Hash} {h : Hash} :
    ∀ (hashes : List Hash) (groups : List (Target × List Hash)) (next : List Hash),
      groupHashes net answers exclude hashes groups next = .ok (groups', next') →
        (((∃ g ∈ groups', h ∈ g.2) ∨ h ∈ next')
          ↔ h ∈ hashes ∨ (∃ g ∈ groups, h ∈ g.2) ∨ h ∈ next)
  | [], groups, next, hok => by
    cases hok
    simp
  | hash :: hashes, groups, next, hok => by
    unfold groupHashes at hok
    rcases hanswer : answers hash with e | peers <;> simp only [hanswer] at hok
    · cases hok
    · rcases hpeer : choosePeer (fun id => (net.canon id).isSome) exclude peers hash
        with _ | peer <;>
        simp only [hpeer] at hok
      · rw [mem_groupHashes hashes _ _ hok]
        simp only [List.mem_append, List.mem_cons, List.not_mem_nil, or_false]
        grind
      · rw [mem_groupHashes hashes _ _ hok, mem_addToGroup, List.mem_cons]
        grind

/-- What comes back when the fetches are joined. -/
theorem mem_joinTasks {h : Hash} : ∀ (tasks : List FetchTask) (next : List Hash)
    (exclude : List String), (∀ task ∈ tasks, task.phase.isFinished) →
      (h ∈ (joinTasks tasks next exclude).1 ↔ h ∈ next ∨ ∃ task ∈ tasks, h ∈ task.work)
  | [], next, exclude, _ => by simp [joinTasks]
  | task :: tasks, next, exclude, hend => by
    have hrest := fun t ht => hend t (List.mem_cons_of_mem _ ht)
    have hhead := hend task List.mem_cons_self
    unfold joinTasks
    rcases hphase : task.phase with _ | ⟨rest, stats⟩ | (e | stats) <;> rw [hphase] at hhead <;>
      try cases hhead
    all_goals
      simp only [mem_joinTasks tasks _ _ hrest, List.mem_append, List.mem_cons, exists_eq_or_imp]
      rw [FetchTask.work, hphase]
      tauto

end Groups

section Rounds

variable {τ Sock : Type} {net : NetText Sock} {blake3 : Bytes → Hash}
  {sink : Hash → Bytes → Io AnyError τ Unit} {input : RoundInput} {exclude : List String}
  {unresolved : List Hash} {s s' : τ}

/-- A round that returns has grouped its chunks. Without a group it breaks off; else all groups have
been spawned and have ended. -/
theorem runRound_ok {r : RoundEnd}
    (h : runRound net blake3 sink input exclude unresolved s = some (.ok r, s')) :
    ∃ groups next, groupHashes net input.answers exclude unresolved [] [] = .ok (groups, next)
      ∧ ((groups = [] ∧ r = ⟨next, exclude, true⟩ ∧ s' = s)
        ∨ ∃ pool, spawned groups = groups
          ∧ Pool.run blake3 sink input.events (startPool groups s) = some pool
          ∧ pool.tasks.all (fun task => task.phase.isFinished) = true
          ∧ r.unresolved
            = (joinTasks (pool.order.filterMap fun i => pool.tasks[i]?) next exclude).1
          ∧ r.exclude
            = (joinTasks (pool.order.filterMap fun i => pool.tasks[i]?) next exclude).2
          ∧ r.stop = false ∧ s' = pool.shared) := by
  unfold runRound at h
  rcases hgroups : groupHashes net input.answers exclude unresolved [] []
    with e | ⟨groups, next⟩ <;>
    simp only [hgroups] at h
  · cases h
  refine ⟨groups, next, rfl, ?_⟩
  split_ifs at h with hempty
  · cases h
    exact .inl ⟨List.isEmpty_iff.1 hempty, rfl, rfl⟩
  · obtain ⟨pool, hrun, hend⟩ := Option.bind_eq_some_iff.1 h
    unfold endRound at hend
    split_ifs at hend with hlt hall
    · cases hend
    · cases hend
      have hspawned : spawned groups = groups :=
        (List.takeWhile_prefix _).eq_of_length_le (not_lt.1 hlt)
      rw [hspawned] at hrun
      exact .inr ⟨pool, hspawned, hrun, hall, rfl, rfl, rfl, rfl⟩

variable {Have : τ → Hash → Prop} {P : FetchTask → Event → τ → Prop} {missing : List Hash}

theorem covered_startPool {groups : List (Target × List Hash)} {next : List Hash}
    (h : ∀ c ∈ missing, ((∃ g ∈ groups, c ∈ g.2) ∨ c ∈ next) ∨ Have s c) :
    Covered Have missing next (startPool groups s) where
  sound task htask c hc := by
    obtain ⟨g, -, rfl⟩ := List.mem_map.1 htask
    exact hc
  covers c hc := by
    rcases h c hc with (⟨g, hg, hcg⟩ | hcn) | hhave
    · exact .inr (.inl ⟨_, List.mem_map_of_mem hg, hcg⟩)
    · exact .inl hcn
    · exact .inr (.inr hhave)

theorem ordered_startPool (groups : List (Target × List Hash)) (s : τ) :
    (startPool groups s).Ordered := by
  intro i task htask hend
  obtain ⟨g, -, rfl⟩ := List.mem_map.1 (List.mem_of_getElem? htask)
  cases hend

theorem runRound_covered (hk : SinkKeeps blake3 sink Have P)
    (hP : ∀ groups next,
      groupHashes net input.answers exclude unresolved [] [] = .ok (groups, next) →
      Pool.Along blake3 sink P input.events (startPool (spawned groups) s))
    (hc : ∀ c ∈ missing, c ∈ unresolved ∨ Have s c) {r : RoundEnd}
    (h : runRound net blake3 sink input exclude unresolved s = some (.ok r, s')) :
    ∀ c ∈ missing, c ∈ r.unresolved ∨ Have s' c := by
  obtain ⟨groups, next, hgroups, hend⟩ := runRound_ok h
  have hc' : ∀ c ∈ missing, ((∃ g ∈ groups, c ∈ g.2) ∨ c ∈ next) ∨ Have s c := fun c hmem =>
    (hc c hmem).imp (fun hu => (mem_groupHashes unresolved [] [] hgroups).2 (.inl hu)) id
  obtain ⟨rfl, rfl, rfl⟩ | ⟨pool, hspawned, hrun, hall, hr, -, -, rfl⟩ := hend
  · exact fun c hmem => (hc' c hmem).imp (fun hu => hu.resolve_left (by simp)) id
  · have hP' := hP groups next hgroups
    rw [hspawned] at hP'
    have hpool := Covered.run hk _ _ (covered_startPool hc') hP' hrun
    have hjoined := (Pool.run_ended _ _ (ordered_startPool groups s) hrun).1.joined hall
    intro c hmem
    rw [hr, mem_joinTasks _ _ _ fun task htask =>
      List.all_eq_true.1 hall task ((hjoined task).1 htask)]
    obtain hnext | ⟨task, htask, hwork⟩ | hhave := hpool.covers c hmem
    · exact .inl (.inl hnext)
    · exact .inl (.inr ⟨task, (hjoined task).2 htask, hwork⟩)
    · exact .inr hhave

/-- After the rounds every chunk is unresolved or has come as far as `Have` says. -/
theorem runRounds_covered (hk : SinkKeeps blake3 sink Have P) {unresolved' : List Hash} :
    ∀ (inputs : List RoundInput) (exclude : List String) (unresolved : List Hash) (s : τ),
      (∀ c ∈ missing, c ∈ unresolved ∨ Have s c) →
      RoundsAlong net blake3 sink P inputs exclude unresolved s →
      runRounds net blake3 sink inputs exclude unresolved s = some (.ok unresolved', s') →
        ∀ c ∈ missing, c ∈ unresolved' ∨ Have s' c
  | [], exclude, unresolved, s, hc, _, h => by
    cases h
    exact hc
  | input :: inputs, exclude, unresolved, s, hc, hP, h => by
    unfold runRounds at h
    split_ifs at h with hempty
    · cases h
      rw [List.isEmpty_iff] at hempty
      exact hempty ▸ hc
    · rcases hround : runRound net blake3 sink input exclude unresolved s with
        _ | ⟨e | r, s₁⟩ <;> simp only [hround] at h <;> try cases h
      have hc₁ := runRound_covered hk hP.1 hc hround
      split_ifs at h with hstop
      · cases h
        exact hc₁
      · exact runRounds_covered hk inputs r.exclude r.unresolved s₁ hc₁ (hP.2 r s₁ hround) h

theorem startPool_within {groups : List (Target × List Hash)}
    (hg : ∀ g ∈ groups, ∀ h ∈ g.2, h ∈ missing)
    (s : τ) : (∀ task ∈ (startPool groups s).tasks, task.Sound)
      ∧ ∀ x ∈ (startPool groups s).asked, ∀ h ∈ x.2, h ∈ missing := by
  refine ⟨fun task htask h hh => ?_, fun x hx => ?_⟩
  · obtain ⟨g, -, rfl⟩ := List.mem_map.1 htask
    exact hh
  · obtain ⟨task, htask, rfl⟩ := List.mem_map.1 hx
    obtain ⟨g, hmem, rfl⟩ := List.mem_map.1 htask
    exact hg g hmem

/-- A round works on its chunks alone. -/
theorem runRound_within (hu : ∀ h ∈ unresolved, h ∈ missing) {r : RoundEnd}
    (h : runRound net blake3 sink input exclude unresolved s = some (.ok r, s')) :
    ∀ c ∈ r.unresolved, c ∈ missing := by
  obtain ⟨groups, next, hgroups, hend⟩ := runRound_ok h
  have hin : ∀ c, ((∃ g ∈ groups, c ∈ g.2) ∨ c ∈ next) → c ∈ missing := fun c hc =>
    hu c (by simpa using (mem_groupHashes unresolved [] [] hgroups).1 hc)
  obtain ⟨-, rfl, -⟩ | ⟨pool, -, hrun, hall, hr, -, -, -⟩ := hend
  · exact fun c hc => hin c (.inr hc)
  · obtain ⟨hordered, hasked⟩ := Pool.run_ended _ _ (ordered_startPool groups s) hrun
    have hjoined := hordered.joined hall
    obtain ⟨hsound, hwithin⟩ := startPool_within (fun g hg h hh => hin h (.inl ⟨g, hg, hh⟩)) s
    have hsound := Pool.sound_run _ _ hsound hrun
    intro c hc
    rw [hr, mem_joinTasks _ _ _ fun task htask =>
      List.all_eq_true.1 hall task ((hjoined task).1 htask)] at hc
    obtain hc | ⟨task, htask, hc⟩ := hc
    · exact hin c (.inr hc)
    · have hmem := (hjoined task).1 htask
      refine hwithin (task.endpoint, task.hashes) ?_ c (hsound task hmem c hc)
      rw [← hasked]
      exact List.mem_map_of_mem hmem

theorem runRounds_within {unresolved' : List Hash} :
    ∀ (inputs : List RoundInput) (exclude : List String) (unresolved : List Hash) (s : τ),
      (∀ h ∈ unresolved, h ∈ missing) →
      runRounds net blake3 sink inputs exclude unresolved s = some (.ok unresolved', s') →
        ∀ c ∈ unresolved', c ∈ missing
  | [], exclude, unresolved, s, hu, h => by
    cases h
    exact hu
  | input :: inputs, exclude, unresolved, s, hu, h => by
    unfold runRounds at h
    split_ifs at h with hempty
    · cases h
      simp
    · rcases hround : runRound net blake3 sink input exclude unresolved s with
        _ | ⟨e | r, s₁⟩ <;> simp only [hround] at h <;> try cases h
      split_ifs at h with hstop
      · cases h
        exact runRound_within hu hround
      · exact runRounds_within inputs r.exclude r.unresolved s₁ (runRound_within hu hround) h

/-- A round groups its own chunks. -/
theorem groups_within (hu : ∀ h ∈ unresolved, h ∈ missing) {groups : List (Target × List Hash)}
    {next : List Hash} (hgroups : groupHashes net input.answers exclude unresolved [] []
      = .ok (groups, next)) : ∀ g ∈ spawned groups, ∀ h ∈ g.2, h ∈ missing := by
  intro g hg h hh
  have hmem := (mem_groupHashes unresolved [] [] hgroups).1
    (.inl ⟨g, (List.takeWhile_prefix _).subset hg, hh⟩)
  exact hu h (by simpa using hmem)

section Calls

variable {sink' : Hash → Bytes → Io AnyError τ Unit}

theorem runRound_congr (hu : ∀ h ∈ unresolved, h ∈ missing)
    (h : ∀ hash ∈ missing, ∀ data, blake3 data = hash → sink' hash data = sink hash data) :
    runRound net blake3 sink' input exclude unresolved s
      = runRound net blake3 sink input exclude unresolved s := by
  unfold runRound
  rcases hgroups : groupHashes net input.answers exclude unresolved [] [] with e | ⟨groups, next⟩
  · rfl
  · obtain ⟨hsound, hwithin⟩ := startPool_within (groups_within hu hgroups) s
    dsimp only
    rw [Pool.run_congr h _ _ hsound hwithin]

theorem runRounds_congr
    (h : ∀ hash ∈ missing, ∀ data, blake3 data = hash → sink' hash data = sink hash data) :
    ∀ (inputs : List RoundInput) (exclude : List String) (unresolved : List Hash) (s : τ),
      (∀ h ∈ unresolved, h ∈ missing) →
      runRounds net blake3 sink' inputs exclude unresolved s
        = runRounds net blake3 sink inputs exclude unresolved s
  | [], _, _, _, _ => rfl
  | input :: inputs, exclude, unresolved, s, hu => by
    rw [runRounds, runRounds, runRound_congr hu h]
    split_ifs with hempty
    · rfl
    · rcases hround : runRound net blake3 sink input exclude unresolved s with _ | ⟨e | r, s₁⟩
      · rfl
      · rfl
      · dsimp only
        rw [runRounds_congr h inputs r.exclude r.unresolved s₁ (runRound_within hu hround)]

end Calls

theorem along_true : ∀ (events : List Event) (pool : Pool τ),
    Pool.Along blake3 sink (fun _ _ _ => True) events pool
  | [], _ => trivial
  | _ :: events, _ => ⟨fun _ _ => trivial, fun pool' _ => along_true events pool'⟩

theorem roundsAlong_true : ∀ (inputs : List RoundInput) (exclude : List String)
    (unresolved : List Hash) (s : τ),
    RoundsAlong net blake3 sink (fun _ _ _ => True) inputs exclude unresolved s
  | [], _, _, _ => trivial
  | _ :: inputs, _, _, _ => ⟨fun _ _ _ => along_true _ _, fun r s' _ =>
      roundsAlong_true inputs r.exclude r.unresolved s'⟩

end Rounds

section Download

variable {σ Sock : Type} {net : NetText Sock} {cfg : Config} {blake3 : Bytes → Hash}
  {sink : Hash → Bytes → Io AnyError σ Unit} {Have : σ × List Hash → Hash → Prop}
  {P : FetchTask → Event → σ × List Hash → Prop} {missing : List Hash}

/-- The fetch from the origin is one fetch throughout. -/
theorem startPool_one {τ : Type} {sink : Hash → Bytes → Io AnyError τ Unit} {events : List Event}
    {target : Target} {retry : List Hash} {s : τ} {pool : Pool τ}
    (h : Pool.run blake3 sink events (startPool [(target, retry)] s) = some pool) :
    ∃ task, pool.tasks = [task] ∧ task.hashes = retry ∧ task.Sound := by
  have hasked := (Pool.run_ended _ _ (ordered_startPool [(target, retry)] s) h).2
  have hsound := Pool.sound_run _ _ (fun task htask => by
    rw [List.mem_singleton.1 htask]
    exact fun h hh => hh) h
  have hlen := congrArg List.length hasked
  simp only [Pool.asked, startPool, List.length_map, List.length_cons, List.length_nil] at hlen
  obtain ⟨task, htasks⟩ := List.length_eq_one_iff.1 hlen
  simp only [Pool.asked, startPool, htasks, List.map_cons, List.map_nil, List.cons.injEq,
    Prod.mk.injEq] at hasked
  exact ⟨task, htasks, hasked.1.2, hsound task (by rw [htasks]; exact List.mem_singleton_self _)⟩

/-- A fetch from the origin that is taken for done has brought everything it was asked for. -/
theorem fetchOrigin_have (hk : SinkKeeps blake3 (recordSink sink) Have P) {events : List Event}
    {target : Target} {retry out : List Hash} {s : σ × List Hash} {s' : σ}
    (hc : ∀ c ∈ missing, c ∈ retry ∨ Have s c)
    (h : fetchOrigin blake3 sink events target retry s = some (.ok out, s')) :
    ∀ c ∈ missing, Have (s', out) c := by
  unfold fetchOrigin at h
  rcases hrun : Pool.run blake3 (recordSink sink) events (startPool [(target, retry)] s) with
    _ | pool <;> simp only [hrun] at h
  · cases h
  obtain ⟨task, htasks, -⟩ := startPool_one hrun
  simp only [htasks, List.head?_cons, Option.map_some] at h
  rcases hphase : task.phase with _ | ⟨rest, stats⟩ | (e | stats) <;> simp only [hphase] at h <;>
    try cases h
  split_ifs at h with hfailed
  · cases h
  cases h
  have hnone : stats.failed = [] := by simpa using hfailed
  have hnotFailed : ¬pool.Failed := by
    rintro ⟨x, hx, err, herr⟩
    rw [htasks, List.mem_singleton] at hx
    rw [hx, hphase] at herr
    cases herr
  have hstart : Covered Have missing [] (startPool [(target, retry)] s) :=
    covered_startPool fun c hmem =>
      (hc c hmem).imp (fun hr => .inl ⟨(target, retry), by simp, hr⟩) id
  have hcovered := Covered.run (SinkKeeps.takes hk.ok) events _ hstart
    (along_takes events _ hrun hnotFailed) hrun
  intro c hmem
  obtain hc | ⟨x, hx, hwork⟩ | hhave := hcovered.covers c hmem
  · cases hc
  · rw [htasks, List.mem_singleton] at hx
    rw [hx, FetchTask.work, hphase] at hwork
    simp only [hnone] at hwork
    cases hwork
  · exact hhave

/-- After the rounds the request is put to the origin; without one the sink is not called, and the
download ends well only if nothing is left. -/
theorem finishDownload_request (blake3 : Bytes → Hash) (sink : Hash → Bytes → Io AnyError σ Unit)
    (gameId : UInt64) (origin : Option Target) (assigned : List Hash) (fallback : List Event)
    (unresolved : List Hash) (s : σ × List Hash) :
    match originRequest origin assigned unresolved with
    | some (target, retry) =>
      finishDownload blake3 sink gameId origin assigned fallback unresolved s
        = fetchOrigin blake3 sink fallback target retry s
    | none => if unresolved.isEmpty then
        finishDownload blake3 sink gameId origin assigned fallback unresolved s
          = some (.ok s.2, s.1)
      else ∃ e,
        finishDownload blake3 sink gameId origin assigned fallback unresolved s
          = some (.error e, s.1) := by
  have hsplit : unresolved.isEmpty ↔ (unresolved.filter fun hash => hash ∉ assigned).isEmpty
      ∧ (unresolved.filter fun hash => hash ∈ assigned).isEmpty := by
    simp only [List.isEmpty_iff, List.filter_eq_nil_iff, decide_eq_true_eq, not_not]
    constructor
    · rintro rfl
      simp
    · rintro ⟨hall, hnone⟩
      exact List.eq_nil_iff_forall_not_mem.2 fun c hc => hnone c hc (hall c hc)
  unfold originRequest finishDownload finishRun
  rcases origin with _ | target
  · simp only [hsplit]
    split_ifs <;> simp_all
  · simp only [hsplit]
    split_ifs <;> simp_all

theorem finishRun_asked (blake3 : Bytes → Hash) (sink : Hash → Bytes → Io AnyError σ Unit)
    (gameId : UInt64) (origin : Option Target) (assigned : List Hash) (fallback : List Event)
    (unresolved : List Hash) (s : σ × List Hash) :
    (finishRun blake3 sink gameId origin assigned fallback unresolved s).asked
      = originRequest origin assigned unresolved := by
  unfold finishRun originRequest
  rcases origin with _ | target
  · dsimp only
    split_ifs <;> rfl
  · dsimp only
    split_ifs <;> grind

theorem finishRun_unresolved (blake3 : Bytes → Hash) (sink : Hash → Bytes → Io AnyError σ Unit)
    (gameId : UInt64) (origin : Option Target) (assigned : List Hash) (fallback : List Event)
    (unresolved : List Hash) (s : σ × List Hash) :
    (finishRun blake3 sink gameId origin assigned fallback unresolved s).unresolved
      = some unresolved := by
  unfold finishRun
  rcases origin with _ | target <;> dsimp only <;> split_ifs <;> rfl

theorem originRequest_nodup {origin : Option Target} {assigned unresolved retry : List Hash}
    {target : Target} (h : originRequest origin assigned unresolved = some (target, retry)) :
    retry.Nodup := by
  unfold originRequest at h
  rcases origin with _ | t
  · cases h
  simp only at h
  split_ifs at h
  cases h
  exact List.nodup_dedup _

theorem originRequest_ne_nil {origin : Option Target} {assigned unresolved retry : List Hash}
    {target : Target} (h : originRequest origin assigned unresolved = some (target, retry)) :
    retry ≠ [] := by
  unfold originRequest at h
  rcases origin with _ | t
  · cases h
  simp only at h
  split_ifs at h with hc
  cases h
  have hne : unresolved.filter (fun hash => hash ∈ assigned) ≠ [] := fun hnil =>
    hc.2 (by rw [hnil]; rfl)
  obtain ⟨c, hmem⟩ := List.exists_mem_of_ne_nil _ hne
  exact List.ne_nil_of_mem (List.mem_dedup.2 (List.mem_mergeSort.2 hmem))

theorem mem_originRequest {origin : Option Target} {assigned unresolved retry : List Hash}
    {target : Target} (h : originRequest origin assigned unresolved = some (target, retry)) :
    (∀ c ∈ unresolved, c ∈ assigned) ∧ ∀ c, c ∈ retry ↔ c ∈ unresolved := by
  unfold originRequest at h
  rcases origin with _ | t
  · cases h
  simp only at h
  split_ifs at h with hc
  cases h
  have hall : ∀ c ∈ unresolved, c ∈ assigned := by
    simpa [List.isEmpty_iff, List.filter_eq_nil_iff] using hc.1
  refine ⟨hall, fun c => ?_⟩
  rw [List.mem_dedup, List.mem_mergeSort, List.mem_filter, decide_eq_true_eq]
  exact and_iff_left_of_imp (hall c)

/-- When a download returns well, every chunk that was missing has come as far as `Have` says, and
so has every other that had before. -/
theorem downloadMissing_have (hk : SinkKeeps blake3 (recordSink sink) Have P) {gameId : UInt64}
    {asked assigned out : List Hash} {input : DownloadInput} {s s' : σ}
    (hc : ∀ c ∈ missing, c ∈ asked ∨ Have (s, []) c)
    (hP : RoundsAlong net blake3 (recordSink sink) P [input.first, input.second] [] asked (s, []))
    (h : downloadMissing net cfg blake3 sink gameId asked assigned input s = some (.ok out, s')) :
    ∀ c ∈ missing, Have (s', out) c := by
  unfold downloadMissing downloadRun at h
  split_ifs at h with hempty
  · rw [List.isEmpty_iff] at hempty
    cases h
    exact fun c hmem => (hc c hmem).resolve_left (by simp [hempty])
  rcases horigin : originTarget net cfg with e | origin <;> simp only [horigin] at h
  · cases h
  rcases hendpoint : input.endpoint with e | ⟨⟩ <;> simp only [hendpoint] at h
  · cases h
  rcases hrounds : runRounds net blake3 (recordSink sink) [input.first, input.second] [] asked
    (s, []) with _ | ⟨e | unresolved, s₁⟩ <;> simp only [hrounds] at h <;> try cases h
  have hc := runRounds_covered hk _ _ _ _ hc hP hrounds
  have hfinish := finishDownload_request blake3 sink gameId origin assigned
    input.fallback unresolved s₁
  rcases hrequest : originRequest origin assigned unresolved with _ | ⟨target, retry⟩ <;>
    simp only [hrequest] at hfinish
  · split_ifs at hfinish with hnone
    · cases hfinish.symm.trans h
      rw [List.isEmpty_iff] at hnone
      exact fun c hmem => (hc c hmem).resolve_left (by simp [hnone])
    · obtain ⟨e, he⟩ := hfinish
      cases he.symm.trans h
  · refine fetchOrigin_have hk (fun c hmem => (hc c hmem).imp_left ?_) (hfinish.symm.trans h)
    exact ((mem_originRequest hrequest).2 c).2

theorem run_recordSink (sink : Hash → Bytes → Io AnyError σ Unit) (hash : Hash) (data : Bytes)
    (t : σ × List Hash) (fs : List (Fault AnyError)) :
    (recordSink sink hash data).run ⟨t, fs⟩ = match (sink hash data).run ⟨t.1, fs⟩ with
      | (.ok (), w) => (.ok (), ⟨(w.state, t.2 ++ [hash]), w.faults⟩)
      | (.error e, w) => (.error e, ⟨(w.state, t.2), w.faults⟩) := by
  rw [recordSink, run_bind]
  simp only [zoom]
  rcases (sink hash data).run ⟨t.1, fs⟩ with ⟨e | ⟨⟩, w⟩ <;> rfl

theorem run_takenSink (sink : Hash → Bytes → Io AnyError σ Unit) (hash : Hash) (data : Bytes)
    (t : σ × List (Hash × Bytes)) (fs : List (Fault AnyError)) :
    (takenSink sink hash data).run ⟨t, fs⟩ = match (sink hash data).run ⟨t.1, fs⟩ with
      | (.ok (), w) => (.ok (), ⟨(w.state, t.2 ++ [(hash, data)]), w.faults⟩)
      | (.error e, w) => (.error e, ⟨(w.state, t.2), w.faults⟩) := by
  rw [takenSink, run_bind]
  simp only [zoom]
  rcases (sink hash data).run ⟨t.1, fs⟩ with ⟨e | ⟨⟩, w⟩ <;> rfl

/-- What the record shows to be taken stays taken. -/
theorem keeping_takenSink (blake3 : Bytes → Hash) (sink : Hash → Bytes → Io AnyError σ Unit) :
    SinkKeeps blake3 (recordSink (takenSink sink))
      (fun t h => ∃ data, (h, data) ∈ t.1.2 ∧ blake3 data = h) fun _ _ _ => True where
  ok hash data t fs w hdata hcall := by
    rw [run_recordSink, run_takenSink] at hcall
    rcases hsink : (sink hash data).run ⟨t.1.1, fs⟩ with ⟨e | ⟨⟩, w₁⟩ <;> rw [hsink] at hcall <;>
      cases hcall
    refine ⟨⟨data, by simp, hdata⟩, fun h => ?_⟩
    rintro ⟨data', hmem, hdata'⟩
    exact ⟨data', by simp [hmem], hdata'⟩
  err task e t hash data err w _ _ hcall h hh := by
    rw [run_recordSink, run_takenSink] at hcall
    rcases hsink : (sink hash data).run ⟨t.1.1, e.faults⟩ with ⟨e' | ⟨⟩, w₁⟩ <;>
      rw [hsink] at hcall <;> cases hcall
    exact .inl hh

section Calls

variable {sink' : Hash → Bytes → Io AnyError σ Unit}

theorem recordSink_congr {hash : Hash} {data : Bytes} (h : sink' hash data = sink hash data) :
    recordSink sink' hash data = recordSink sink hash data := by
  rw [recordSink, recordSink, h]

theorem fetchOrigin_congr {retry : List Hash} (hretry : ∀ hash ∈ retry, hash ∈ missing)
    (h : ∀ hash ∈ missing, ∀ data, blake3 data = hash → sink' hash data = sink hash data)
    (events : List Event) (target : Target) (s : σ × List Hash) :
    fetchOrigin blake3 sink' events target retry s
      = fetchOrigin blake3 sink events target retry s := by
  have hasked : ∀ g ∈ [(target, retry)], ∀ hash ∈ g.2, hash ∈ missing := fun g hg hash hh =>
    hretry hash (by rwa [List.mem_singleton.1 hg] at hh)
  obtain ⟨hsound, hwithin⟩ := startPool_within hasked s
  unfold fetchOrigin
  rw [Pool.run_congr (fun hash hh data hdata => recordSink_congr (h hash hh data hdata)) events _
    hsound hwithin]

/-- The calls of the sink are for missing chunks, with data of their hashes: a download is the same
with any sink that does the same on these. -/
theorem downloadRun_congr {gameId : UInt64} {assigned : List Hash} {input : DownloadInput} {s : σ}
    (h : ∀ hash ∈ missing, ∀ data, blake3 data = hash → sink' hash data = sink hash data) :
    downloadRun net cfg blake3 sink' gameId missing assigned input s
      = downloadRun net cfg blake3 sink gameId missing assigned input s := by
  have hrounds : runRounds net blake3 (recordSink sink') [input.first, input.second] []
    missing (s, [])
      = runRounds net blake3 (recordSink sink) [input.first, input.second] [] missing (s, []) :=
    runRounds_congr (fun hash hh data hdata => recordSink_congr (h hash hh data hdata)) _ _ _ _
      fun _ hh => hh
  unfold downloadRun
  rw [hrounds]
  split_ifs with hempty
  · rfl
  rcases originTarget net cfg with e | origin
  · rfl
  rcases input.endpoint with e | ⟨⟩
  · rfl
  rcases hrun : runRounds net blake3 (recordSink sink) [input.first, input.second] []
    missing (s, [])
    with _ | ⟨e | unresolved, s₁⟩
  · rfl
  · rfl
  · dsimp only
    have hwithin := runRounds_within _ _ _ _ (fun _ hh => hh) hrun
    unfold finishRun
    rcases origin with _ | target
    · rfl
    · dsimp only
      rw [fetchOrigin_congr (fun hash hh => hwithin hash ?_) h]
      simp only [List.mem_dedup, List.mem_mergeSort] at hh
      exact List.mem_of_mem_filter hh

end Calls

/-- What a download asks of the origin is missing and assigned, and it asks for nothing while a
chunk that is not assigned is unresolved. -/
theorem downloadRun_asks {gameId : UInt64} {assigned : List Hash} {input : DownloadInput} {s : σ} :
    (∀ target hashes, (downloadRun net cfg blake3 sink gameId missing assigned input s).asked
        = some (target, hashes) → ∀ hash ∈ hashes, hash ∈ missing ∧ hash ∈ assigned)
      ∧ ∀ unresolved, (downloadRun net cfg blake3 sink gameId missing assigned input s).unresolved
          = some unresolved → (∃ hash ∈ unresolved, hash ∉ assigned) →
        (downloadRun net cfg blake3 sink gameId missing assigned input s).asked = none := by
  unfold downloadRun
  split_ifs with hempty
  · exact ⟨by simp, by simp⟩
  rcases originTarget net cfg with e | origin
  · exact ⟨by simp, by simp⟩
  rcases input.endpoint with e | ⟨⟩
  · exact ⟨by simp, by simp⟩
  rcases hrun : runRounds net blake3 (recordSink sink) [input.first, input.second] []
    missing (s, [])
    with _ | ⟨e | unresolved, s₁⟩
  · exact ⟨by simp, by simp⟩
  · exact ⟨by simp, by simp⟩
  · have hwithin := runRounds_within _ _ _ _ (fun _ hh => hh) hrun
    dsimp only
    rw [finishRun_asked, finishRun_unresolved]
    refine ⟨fun target hashes hasked hash hh => ?_, fun unresolved' hu hblocked => ?_⟩
    · obtain ⟨hall, hmem⟩ := mem_originRequest hasked
      have hleft := (hmem hash).1 hh
      exact ⟨hwithin hash hleft, hall hash hleft⟩
    · obtain rfl := Option.some.inj hu
      obtain ⟨hash, hh, hne⟩ := hblocked
      refine Option.eq_none_iff_forall_not_mem.2 fun request hrequest => hne ?_
      exact (mem_originRequest hrequest).1 hash hh

/-- Whatever the scheduler answers, the network brings and the sink meets: when the download returns
well, the sink has taken every missing chunk; it is called for missing chunks alone, with bytes of
their hashes, since any sink that does the same on these gives the same run; and the origin is asked
only for missing chunks that are assigned, and for nothing while a chunk that is not assigned is
unresolved. -/
theorem downloadMissing_delivers (net : NetText Sock) (cfg : Config) (blake3 : Bytes → Hash)
    (sink : Hash → Bytes → Io AnyError σ Unit) (gameId : UInt64) (missing assigned : List Hash)
    (input : DownloadInput) (s : σ) :
    (∀ out s', downloadMissing net cfg blake3 (takenSink sink) gameId missing assigned input (s, [])
        = some (.ok out, s') → ∀ hash ∈ missing, ∃ data, (hash, data) ∈ s'.2 ∧ blake3 data = hash)
      ∧ (∀ sink' : Hash → Bytes → Io AnyError σ Unit,
        (∀ hash ∈ missing, ∀ data, blake3 data = hash → sink' hash data = sink hash data) →
          downloadRun net cfg blake3 sink' gameId missing assigned input s
            = downloadRun net cfg blake3 sink gameId missing assigned input s)
      ∧ (∀ target hashes, (downloadRun net cfg blake3 sink gameId missing assigned input s).asked
          = some (target, hashes) → ∀ hash ∈ hashes, hash ∈ missing ∧ hash ∈ assigned)
      ∧ ∀ unresolved, (downloadRun net cfg blake3 sink gameId missing assigned input s).unresolved
          = some unresolved → (∃ hash ∈ unresolved, hash ∉ assigned) →
        (downloadRun net cfg blake3 sink gameId missing assigned input s).asked = none :=
  ⟨fun _ _ h => downloadMissing_have (keeping_takenSink blake3 sink) (fun _ hmem => .inl hmem)
    (roundsAlong_true _ _ _ _) h, fun _ h => downloadRun_congr h, downloadRun_asks⟩

end Download

end BlazeNet

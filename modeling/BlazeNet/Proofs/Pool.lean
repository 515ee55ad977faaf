import BlazeNet.Download

/-!
# What one event does to the fetches of a round

An event moves one fetch on (`fetchNext_moves`). What the fetch has still to bring, or gives back
once it has ended, is its `work`; a chunk leaves it only by way of a call of the sink that succeeds
(`fetchNext_cases`).
From that follows what holds along all events of a round: every chunk is among the work of a fetch
or has come as far as the sink brings it (`Covered`).
-/

namespace BlazeNet

open Wire FaultIo Io

section Step

variable {τ : Type} {blake3 : Bytes → Hash} {sink : Hash → Bytes → Io AnyError τ Unit}
  {pool pool' : Pool τ} {e : Event}

/-- The fetch of the event goes on, and all others stay as they are. -/
theorem Pool.step_cases (h : pool.step blake3 sink e = some pool') :
    (pool.tasks[e.task]? = none ∧ pool' = pool)
    ∨ ∃ task phase w, pool.tasks[e.task]? = some task
      ∧ (fetchNext blake3 sink task.hashes task.phase e.net).run ⟨pool.shared, e.faults⟩
        = (.ok phase, w)
      ∧ pool' = {
          shared := w.state
          tasks := pool.tasks.set e.task { task with phase }
          order := if !task.phase.isFinished && phase.isFinished then pool.order ++ [e.task]
            else pool.order } := by
  unfold Pool.step at h
  rcases htask : pool.tasks[e.task]? with _ | task <;> simp only [htask] at h
  · exact .inl ⟨rfl, (Option.some.inj h).symm⟩
  · rcases hrun : (fetchNext blake3 sink task.hashes task.phase e.net).run ⟨pool.shared, e.faults⟩
      with ⟨e' | phase, w⟩ <;> simp only [hrun] at h
    · cases h
    · exact .inr ⟨task, phase, w, rfl, hrun, (Option.some.inj h).symm⟩

theorem Pool.step_length (h : pool.step blake3 sink e = some pool') :
    pool'.tasks.length = pool.tasks.length := by
  obtain ⟨-, rfl⟩ | ⟨task, phase, w, -, -, rfl⟩ := Pool.step_cases h
  · rfl
  · exact List.length_set

/-- Fetches behind that of the event make no difference to it. -/
theorem Pool.step_more (more : List FetchTask) (he : e.task < pool.tasks.length) :
    ({ pool with tasks := pool.tasks ++ more } : Pool τ).step blake3 sink e
      = (pool.step blake3 sink e).map fun pool' => { pool' with tasks := pool'.tasks ++ more } := by
  unfold Pool.step
  simp only [List.getElem?_append_left he, List.getElem?_eq_getElem he]
  rcases (fetchNext blake3 sink pool.tasks[e.task].hashes pool.tasks[e.task].phase e.net).run
    ⟨pool.shared, e.faults⟩ with ⟨e' | phase, w⟩
  · rfl
  · simp [List.set_append_left _ _ he]

theorem Pool.run_append (more : List Event) : ∀ (events : List Event) (pool : Pool τ),
    Pool.run blake3 sink (events ++ more) pool
      = (Pool.run blake3 sink events pool).bind (Pool.run blake3 sink more)
  | [], _ => rfl
  | e :: events, pool => by
    simp only [List.cons_append, Pool.run]
    rcases pool.step blake3 sink e with _ | pool
    · rfl
    · exact Pool.run_append more events pool

end Step

section Ended

variable {τ : Type} {blake3 : Bytes → Hash} {sink : Hash → Bytes → Io AnyError τ Unit}
  {pool pool' : Pool τ} {e : Event}

/-- What the fetches were asked for. -/
def Pool.asked (pool : Pool τ) : List (String × List Hash) :=
  pool.tasks.map fun task => (task.endpoint, task.hashes)

/-- The fetches that have ended are in the order in which they have. -/
def Pool.Ordered (pool : Pool τ) : Prop :=
  ∀ i task, pool.tasks[i]? = some task → task.phase.isFinished → i ∈ pool.order

theorem Pool.step_asked (h : pool.step blake3 sink e = some pool') : pool'.asked = pool.asked := by
  obtain ⟨-, rfl⟩ | ⟨task, phase, w, htask, -, rfl⟩ := Pool.step_cases h
  · rfl
  · obtain ⟨hi, rfl⟩ := List.getElem?_eq_some_iff.1 htask
    simp only [Pool.asked, List.map_set]
    refine List.ext_getElem (by simp) fun j hj hj' => ?_
    rw [List.getElem_set]
    split_ifs with hij
    · subst hij
      simp
    · rfl

theorem Pool.Ordered.step (ho : pool.Ordered) (h : pool.step blake3 sink e = some pool') :
    pool'.Ordered := by
  obtain ⟨-, rfl⟩ | ⟨task, phase, w, htask, -, rfl⟩ := Pool.step_cases h
  · exact ho
  intro i x hx hend
  simp only at hx ⊢
  by_cases hi : e.task = i
  · subst hi
    rw [List.getElem?_set_self (List.getElem?_eq_some_iff.1 htask).1, Option.some.injEq] at hx
    subst hx
    rcases hbefore : task.phase.isFinished with _ | _
    · simp [hend]
    · simpa using ho e.task task htask hbefore
  · rw [List.getElem?_set_ne hi] at hx
    split_ifs
    · exact List.mem_append_left _ (ho i x hx hend)
    · exact ho i x hx hend

theorem Pool.run_ended : ∀ (events : List Event) (pool : Pool τ), pool.Ordered →
    Pool.run blake3 sink events pool = some pool' → pool'.Ordered ∧ pool'.asked = pool.asked
  | [], pool, ho, h => Option.some.inj h ▸ ⟨ho, rfl⟩
  | e :: events, pool, ho, h => by
    simp only [Pool.run] at h
    rcases hstep : pool.step blake3 sink e with _ | pool₁ <;> rw [hstep] at h
    · cases h
    · obtain ⟨ho', hasked⟩ := Pool.run_ended events pool₁ (ho.step hstep) h
      exact ⟨ho', hasked.trans (Pool.step_asked hstep)⟩

/-- Once all have ended, each is joined. -/
theorem Pool.Ordered.joined (ho : pool.Ordered)
    (hend : pool.tasks.all (fun task => task.phase.isFinished) = true) (task : FetchTask) :
    task ∈ pool.order.filterMap (fun i => pool.tasks[i]?) ↔ task ∈ pool.tasks := by
  rw [List.mem_filterMap]
  constructor
  · rintro ⟨i, -, hi⟩
    exact List.mem_of_getElem? hi
  · intro htask
    obtain ⟨i, hi⟩ := List.mem_iff_getElem?.1 htask
    exact ⟨i, ho i task hi (List.all_eq_true.1 hend task htask), hi⟩

end Ended

section Work

/-- A fetch works on what it was asked for. -/
def FetchTask.Sound (task : FetchTask) : Prop := ∀ h ∈ task.work, h ∈ task.hashes

theorem work_after (endpoint : String) (hashes rest : List Hash) (stats : FetchStats) :
    FetchTask.work ⟨endpoint, hashes, .after rest stats⟩ = rest ++ stats.failed := by
  unfold FetchPhase.after
  rcases rest with _ | ⟨hash, rest⟩ <;> rfl

variable {τ : Type} {blake3 : Bytes → Hash} {sink : Hash → Bytes → Io AnyError τ Unit}

/-- How a fetch goes on: without the sink, or by a call of the sink for its next chunk. -/
theorem fetchNext_moves {task : FetchTask} {e : Event} {t : τ} {phase : FetchPhase}
    {w : World AnyError τ}
    (h : (fetchNext blake3 sink task.hashes task.phase e.net).run ⟨t, e.faults⟩ = (.ok phase, w)) :
    (w.state = t ∧ (phase = task.phase
      ∨ (task.phase = .dialing ∧ phase = .after task.hashes .empty)
      ∨ (∃ err, e.net = .broken err ∧ phase = .finished (.error err)
        ∧ (task.phase = .dialing ∨ ∃ hash rest stats, task.phase = .reading (hash :: rest) stats))
      ∨ ∃ hash rest stats, task.phase = .reading (hash :: rest) stats
        ∧ phase = .after rest { stats with failed := stats.failed ++ [hash] }))
    ∨ ∃ hash data rest stats, task.phase = .reading (hash :: rest) stats
      ∧ Delivers blake3 task e hash data
      ∧ ((phase = .after rest { stats with
            downloaded := stats.downloaded + 1, bytes := stats.bytes + data.length }
          ∧ (sink hash data).run ⟨t, e.faults⟩ = (.ok (), w))
        ∨ ∃ err, phase = .finished (.error err)
          ∧ (sink hash data).run ⟨t, e.faults⟩ = (.error (.err err), w)) := by
  obtain ⟨endpoint, hashes, phase₀⟩ := task
  obtain ⟨i, net, faults⟩ := e
  rcases phase₀ with _ | ⟨_ | ⟨hash, rest⟩, stats⟩ | result <;> rcases net with _ | err | _ | data
  all_goals try
    (cases h
     exact .inl ⟨rfl, .inl rfl⟩)
  · cases h
    exact .inl ⟨rfl, .inr (.inl ⟨rfl, rfl⟩)⟩
  · cases h
    exact .inl ⟨rfl, .inr (.inr (.inl ⟨err, rfl, rfl, .inl rfl⟩))⟩
  · cases h
    exact .inl ⟨rfl, .inr (.inr (.inl ⟨err, rfl, rfl, .inr ⟨hash, rest, stats, rfl⟩⟩))⟩
  · cases h
    exact .inl ⟨rfl, .inr (.inr (.inr ⟨hash, rest, stats, rfl, rfl⟩))⟩
  · unfold fetchNext storeChunk at h
    rw [run_bind, run_attempt] at h
    split_ifs at h with hhash
    · cases h
      exact .inl ⟨rfl, .inr (.inr (.inr ⟨hash, rest, stats, rfl, rfl⟩))⟩
    · rw [not_not] at hhash
      refine .inr ⟨hash, data, rest, stats, rfl, ⟨rest, stats, rfl, rfl, hhash⟩, ?_⟩
      rw [run_bind] at h
      rcases hrun : (sink hash data).run ⟨t, faults⟩ with ⟨(err | _) | ⟨⟩, w'⟩ <;> rw [hrun] at h
      · cases h
        exact .inr ⟨err, rfl, rfl⟩
      · cases h
      · cases h
        exact .inl ⟨rfl, rfl⟩

/-- An event makes a fetch go on without the sink; or it calls the sink for the next chunk, and the
fetch goes on to the others or ends with the error of the sink. -/
theorem fetchNext_cases {task : FetchTask} {e : Event} {t : τ} {phase : FetchPhase}
    {w : World AnyError τ}
    (h : (fetchNext blake3 sink task.hashes task.phase e.net).run ⟨t, e.faults⟩ = (.ok phase, w)) :
    (w.state = t ∧ (task.Sound → FetchTask.Sound { task with phase }
        ∧ ∀ h ∈ task.work, h ∈ FetchTask.work { task with phase })
      ∧ (task.phase.isFinished → phase = task.phase))
    ∨ ∃ hash data rest stats, task.phase = .reading (hash :: rest) stats ∧ e.net = .chunk data
      ∧ blake3 data = hash
      ∧ ((phase = .after rest { stats with
            downloaded := stats.downloaded + 1, bytes := stats.bytes + data.length }
          ∧ (sink hash data).run ⟨t, e.faults⟩ = (.ok (), w))
        ∨ ∃ err, phase = .finished (.error err)
          ∧ (sink hash data).run ⟨t, e.faults⟩ = (.error (.err err), w)) := by
  obtain ⟨hstate, rfl | ⟨hphase, rfl⟩ | ⟨err, -, rfl, hphase⟩ | ⟨hash, rest, stats, hphase, rfl⟩⟩
    | ⟨hash, data, rest, stats, hphase, ⟨_, _, -, hnet, hhash⟩, hcall⟩ := fetchNext_moves h
  · exact .inl ⟨hstate, fun hsound => ⟨hsound, fun h hh => hh⟩, fun _ => rfl⟩
  · -- the connection is up
    refine .inl ⟨hstate, fun _ => ⟨fun h hh => ?_, fun h hh => ?_⟩, fun hend => ?_⟩
    · rw [work_after] at hh
      simpa [FetchStats.empty] using hh
    · rw [FetchTask.work, hphase] at hh
      rw [work_after]
      simpa [FetchStats.empty] using hh
    · rw [hphase] at hend
      cases hend
  · -- all that it was asked for is given back
    refine .inl ⟨hstate, fun hsound => ⟨fun h hh => hh, hsound⟩, fun hend => ?_⟩
    rcases hphase with hphase | ⟨hash, rest, stats, hphase⟩ <;> rw [hphase] at hend <;> cases hend
  · -- the next chunk has failed
    have hwork : task.work = hash :: rest ++ stats.failed := by rw [FetchTask.work, hphase]
    refine .inl ⟨hstate, fun hsound => ⟨fun h hh => hsound h ?_, fun h hh => ?_⟩, fun hend => ?_⟩
    · rw [work_after] at hh
      rw [hwork]
      simp only [List.mem_append, List.mem_cons, List.not_mem_nil, or_false] at hh ⊢
      tauto
    · rw [hwork] at hh
      rw [work_after]
      simp only [List.mem_append, List.mem_cons, List.not_mem_nil, or_false] at hh ⊢
      tauto
    · rw [hphase] at hend
      cases hend
  · exact .inr ⟨hash, data, rest, stats, hphase, hnet, hhash, hcall⟩

/-- What a sink must do to a fact about chunks. A call that succeeds makes it true of its chunk; one
that fails may end it only for chunks of the fetch, which are fetched again. -/
structure SinkKeeps (blake3 : Bytes → Hash) (sink : Hash → Bytes → Io AnyError τ Unit)
    (Have : τ → Hash → Prop) (P : FetchTask → Event → τ → Prop) : Prop where
  ok : ∀ hash data t fs w, blake3 data = hash → (sink hash data).run ⟨t, fs⟩ = (.ok (), w) →
    Have w.state hash ∧ ∀ h, Have t h → Have w.state h
  err : ∀ (task : FetchTask) e t hash data err w, P task e t → Delivers blake3 task e hash data →
    (sink hash data).run ⟨t, e.faults⟩ = (.error (.err err), w) →
      ∀ h, Have t h → Have w.state h ∨ h ∈ task.hashes

end Work

section Covered

theorem mem_set_or_eq {α : Type} {l : List α} {i : ℕ} {a b x : α} (ha : l[i]? = some a)
    (hx : x ∈ l) : x ∈ l.set i b ∨ x = a := by
  obtain ⟨j, hj⟩ := List.mem_iff_getElem?.1 hx
  by_cases hij : i = j
  · subst hij
    exact .inr (Option.some.inj (hj.symm.trans ha))
  · exact .inl (List.mem_iff_getElem?.2 ⟨j, by rw [List.getElem?_set_ne hij, hj]⟩)

variable {τ : Type} {blake3 : Bytes → Hash} {sink : Hash → Bytes → Io AnyError τ Unit}
  {Have : τ → Hash → Prop} {P : FetchTask → Event → τ → Prop} {missing next : List Hash}
  {pool pool' : Pool τ} {e : Event}

/-- Each chunk has come as far as `Have` says, or is left for the next round, or is the work of a
fetch. -/
structure Covered (Have : τ → Hash → Prop) (missing next : List Hash) (pool : Pool τ) : Prop where
  sound : ∀ task ∈ pool.tasks, task.Sound
  covers : ∀ h ∈ missing, h ∈ next ∨ (∃ task ∈ pool.tasks, h ∈ task.work) ∨ Have pool.shared h

theorem Covered.step (hk : SinkKeeps blake3 sink Have P) (hc : Covered Have missing next pool)
    (hP : ∀ task, pool.tasks[e.task]? = some task → P task e pool.shared)
    (h : pool.step blake3 sink e = some pool') : Covered Have missing next pool' := by
  obtain ⟨-, rfl⟩ | ⟨task, phase, w, htask, hrun, rfl⟩ := Pool.step_cases h
  · exact hc
  have hsound := hc.sound task (List.mem_of_getElem? htask)
  have hself : ({ task with phase } : FetchTask) ∈ pool.tasks.set e.task { task with phase } :=
    List.mem_set (List.getElem?_eq_some_iff.1 htask).1 _
  have hothers : ∀ x ∈ pool.tasks, x ∈ pool.tasks.set e.task { task with phase } ∨ x = task :=
    fun x hx => mem_set_or_eq htask hx
  have hset : FetchTask.Sound { task with phase } →
      ∀ x ∈ pool.tasks.set e.task { task with phase }, x.Sound := by
    intro hnew x hx
    rcases List.mem_or_eq_of_mem_set hx with hx | rfl
    · exact hc.sound x hx
    · exact hnew
  obtain ⟨hstate, hquiet, -⟩ | ⟨hash, data, rest, stats, hphase, hnet, hdata, hcall⟩ :=
    fetchNext_cases hrun
  · -- the work of the fetch loses nothing
    obtain ⟨hnew, hwork⟩ := hquiet hsound
    refine ⟨hset hnew, fun c hh => ?_⟩
    obtain hh | ⟨x, hx, hh⟩ | hh := hc.covers c hh
    · exact .inl hh
    · refine .inr (.inl ?_)
      rcases hothers x hx with hx | rfl
      · exact ⟨x, hx, hh⟩
      · exact ⟨_, hself, hwork c hh⟩
    · exact .inr (.inr (hstate ▸ hh))
  have htaskWork : task.work = hash :: rest ++ stats.failed := by
    simp only [FetchTask.work, hphase]
  obtain ⟨rfl, hcall⟩ | ⟨err, rfl, hcall⟩ := hcall
  · -- the chunk leaves the work, and the sink has it
    have hnewWork : ∀ h, h ∈ FetchTask.work { task with phase := .after rest { stats with
        downloaded := stats.downloaded + 1, bytes := stats.bytes + data.length } }
          ↔ h ∈ rest ++ stats.failed := fun h => by rw [work_after]
    obtain ⟨hhave, hkeep⟩ := hk.ok hash data _ _ w hdata hcall
    refine ⟨hset fun c hh => hsound c ?_, fun c hh => ?_⟩
    · rw [htaskWork]
      exact List.mem_cons_of_mem _ ((hnewWork c).1 hh)
    · obtain hh | ⟨x, hx, hh⟩ | hh := hc.covers c hh
      · exact .inl hh
      · rcases hothers x hx with hx | rfl
        · exact .inr (.inl ⟨x, hx, hh⟩)
        · rw [htaskWork] at hh
          rcases List.mem_cons.1 hh with rfl | hh
          · exact .inr (.inr hhave)
          · exact .inr (.inl ⟨_, hself, (hnewWork c).2 hh⟩)
      · exact .inr (.inr (hkeep c hh))
  · -- the fetch gives back everything
    refine ⟨hset fun c hh => hh, fun c hh => ?_⟩
    obtain hh | ⟨x, hx, hh⟩ | hh := hc.covers c hh
    · exact .inl hh
    · refine .inr (.inl ?_)
      rcases hothers x hx with hx | rfl
      · exact ⟨x, hx, hh⟩
      · exact ⟨_, hself, hsound c hh⟩
    · rcases hk.err task e _ hash data err w (hP task htask)
        ⟨rest, stats, hphase, hnet, hdata⟩ hcall
        c hh with hh | hh
      · exact .inr (.inr hh)
      · exact .inr (.inl ⟨_, hself, hh⟩)

theorem Covered.run (hk : SinkKeeps blake3 sink Have P) : ∀ (events : List Event) (pool : Pool τ),
    Covered Have missing next pool → Pool.Along blake3 sink P events pool →
      Pool.run blake3 sink events pool = some pool' → Covered Have missing next pool'
  | [], pool, hc, _, h => Option.some.inj h ▸ hc
  | e :: events, pool, hc, hP, h => by
    simp only [Pool.run] at h
    rcases hstep : pool.step blake3 sink e with _ | pool₁ <;> rw [hstep] at h
    · cases h
    · exact Covered.run hk events pool₁ (hc.step hk hP.1 hstep) (hP.2 pool₁ hstep) h

/-- A fetch has ended with an error. -/
def Pool.Failed (pool : Pool τ) : Prop :=
  ∃ task ∈ pool.tasks, ∃ err, task.phase = .finished (.error err)

/-- The sink takes what the event delivers. -/
def Takes (blake3 : Bytes → Hash) (sink : Hash → Bytes → Io AnyError τ Unit) (task : FetchTask)
    (e : Event) (t : τ) : Prop :=
  ∀ hash data err w, Delivers blake3 task e hash data →
    (sink hash data).run ⟨t, e.faults⟩ ≠ (.error (.err err), w)

theorem SinkKeeps.takes (hk : ∀ hash data t fs w, blake3 data = hash →
    (sink hash data).run ⟨t, fs⟩ = (.ok (), w) →
      Have w.state hash ∧ ∀ h, Have t h → Have w.state h) :
    SinkKeeps blake3 sink Have (Takes blake3 sink) where
  ok := hk
  err _ _ _ hash data err w hP hdelivers hcall := absurd hcall (hP hash data err w hdelivers)

theorem Pool.Failed.step (hf : pool.Failed) (h : pool.step blake3 sink e = some pool') :
    pool'.Failed := by
  obtain ⟨-, rfl⟩ | ⟨task, phase, w, htask, hrun, rfl⟩ := Pool.step_cases h
  · exact hf
  obtain ⟨x, hx, err, herr⟩ := hf
  rcases mem_set_or_eq (b := { task with phase }) htask hx with hx | rfl
  · exact ⟨x, hx, err, herr⟩
  · refine ⟨_, List.mem_set (List.getElem?_eq_some_iff.1 htask).1 _, err, ?_⟩
    obtain ⟨-, -, hstays⟩ | ⟨hash, data, rest, stats, hphase, -⟩ := fetchNext_cases hrun
    · exact (hstays (by rw [herr]; rfl)).trans herr
    · rw [herr] at hphase
      cases hphase

theorem Pool.Failed.run : ∀ (events : List Event) (pool : Pool τ), pool.Failed →
    Pool.run blake3 sink events pool = some pool' → pool'.Failed
  | [], pool, hf, h => Option.some.inj h ▸ hf
  | e :: events, pool, hf, h => by
    simp only [Pool.run] at h
    rcases hstep : pool.step blake3 sink e with _ | pool₁ <;> rw [hstep] at h
    · cases h
    · exact Pool.Failed.run events pool₁ (hf.step hstep) h

/-- Where no fetch has failed in the end, the sink has taken all that it was given. -/
theorem along_takes : ∀ (events : List Event) (pool : Pool τ),
    Pool.run blake3 sink events pool = some pool' → ¬pool'.Failed →
      Pool.Along blake3 sink (Takes blake3 sink) events pool
  | [], _, _, _ => trivial
  | e :: events, pool, h, hf => by
    simp only [Pool.run] at h
    rcases hstep : pool.step blake3 sink e with _ | pool₁ <;> rw [hstep] at h
    · cases h
    refine ⟨fun task htask hash data err w hdelivers hcall => hf ?_, fun pool₂ h₂ => ?_⟩
    · refine Pool.Failed.run events pool₁ ?_ h
      obtain ⟨rest, stats, hphase, hnet, hdata⟩ := hdelivers
      have hgo : (fetchNext blake3 sink task.hashes task.phase e.net).run ⟨pool.shared, e.faults⟩
          = (.ok (.finished (.error err)), w) := by
        rw [hphase, hnet, fetchNext, run_bind, run_attempt, storeChunk, if_neg (by simp [hdata]),
          run_bind, hcall]
        rfl
      simp only [Pool.step, htask, hgo, Option.some.injEq] at hstep
      rw [← hstep]
      exact ⟨_, List.mem_set (List.getElem?_eq_some_iff.1 htask).1 _, err, rfl⟩
    · cases hstep.symm.trans h₂
      exact along_takes events pool₁ h hf

end Covered


section Within

variable {τ : Type} {blake3 : Bytes → Hash} {sink : Hash → Bytes → Io AnyError τ Unit}
  {missing : List Hash}

theorem mem_hashes_of_delivers {task : FetchTask} {e : Event} {hash : Hash} {data : Bytes}
    (hsound : task.Sound) (h : Delivers blake3 task e hash data) : hash ∈ task.hashes := by
  obtain ⟨rest, stats, hphase, -, -⟩ := h
  refine hsound hash ?_
  simp [FetchTask.work, hphase]

theorem Pool.sound_step {pool pool' : Pool τ} {e : Event} (hs : ∀ task ∈ pool.tasks, task.Sound)
    (h : pool.step blake3 sink e = some pool') : ∀ task ∈ pool'.tasks, task.Sound := by
  have hk : SinkKeeps blake3 sink (fun _ _ => True) fun _ _ _ => True :=
    ⟨fun _ _ _ _ _ _ _ => ⟨trivial, fun _ _ => trivial⟩,
      fun _ _ _ _ _ _ _ _ _ _ _ _ => .inl trivial⟩
  have hc : Covered (fun _ _ => True) [] [] pool := ⟨hs, by simp⟩
  exact (hc.step hk (fun _ _ => trivial) h).sound

theorem Pool.sound_run {pool' : Pool τ} : ∀ (events : List Event) (pool : Pool τ),
    (∀ task ∈ pool.tasks, task.Sound) → Pool.run blake3 sink events pool = some pool' →
      ∀ task ∈ pool'.tasks, task.Sound
  | [], pool, hs, h => Option.some.inj h ▸ hs
  | e :: events, pool, hs, h => by
    simp only [Pool.run] at h
    rcases hstep : pool.step blake3 sink e with _ | pool₁ <;> rw [hstep] at h
    · cases h
    · exact Pool.sound_run events pool₁ (Pool.sound_step hs hstep) h

end Within

section Calls

variable {τ : Type} {blake3 : Bytes → Hash} {sink sink' : Hash → Bytes → Io AnyError τ Unit}
  {missing : List Hash}

/-- The sink is called for the next chunk that a fetch was asked for, with data of its hash. -/
theorem fetchNext_congr {task : FetchTask} (hsound : task.Sound)
    (h : ∀ hash ∈ task.hashes, ∀ data, blake3 data = hash → sink' hash data = sink hash data)
    (net : NetEvent) : fetchNext blake3 sink' task.hashes task.phase net
      = fetchNext blake3 sink task.hashes task.phase net := by
  obtain ⟨endpoint, hashes, phase⟩ := task
  rcases phase with _ | ⟨_ | ⟨hash, rest⟩, stats⟩ | result <;> rcases net with _ | err | _ | data
  all_goals try rfl
  have hmem : hash ∈ hashes := hsound hash (by simp [FetchTask.work])
  have hstore : storeChunk blake3 sink' hash data = storeChunk blake3 sink hash data := by
    unfold storeChunk
    split_ifs with hne
    · rfl
    · rw [h hash hmem data (not_not.1 hne)]
  simp only [fetchNext, hstore]

theorem Pool.step_congr {pool : Pool τ} (hs : ∀ task ∈ pool.tasks, task.Sound)
    (ha : ∀ x ∈ pool.asked, ∀ hash ∈ x.2, hash ∈ missing)
    (h : ∀ hash ∈ missing, ∀ data, blake3 data = hash → sink' hash data = sink hash data)
    (e : Event) : pool.step blake3 sink' e = pool.step blake3 sink e := by
  unfold Pool.step
  rcases htask : pool.tasks[e.task]? with _ | task
  · rfl
  · have hmem := List.mem_of_getElem? htask
    have hasked : ∀ hash ∈ task.hashes, hash ∈ missing :=
      ha (task.endpoint, task.hashes) (List.mem_map_of_mem hmem)
    dsimp only
    rw [fetchNext_congr (hs task hmem) (fun hash hh => h hash (hasked hash hh))]

/-- A pool runs the same with a sink that is the same on the chunks its fetches were asked for. -/
theorem Pool.run_congr (h : ∀ hash ∈ missing, ∀ data, blake3 data = hash →
    sink' hash data = sink hash data) : ∀ (events : List Event) (pool : Pool τ),
      (∀ task ∈ pool.tasks, task.Sound) → (∀ x ∈ pool.asked, ∀ hash ∈ x.2, hash ∈ missing) →
        Pool.run blake3 sink' events pool = Pool.run blake3 sink events pool
  | [], _, _, _ => rfl
  | e :: events, pool, hs, ha => by
    rw [Pool.run, Pool.run, Pool.step_congr hs ha h]
    rcases hstep : pool.step blake3 sink e with _ | pool'
    · rfl
    · exact Pool.run_congr h events pool' (Pool.sound_step hs hstep)
        (by rwa [Pool.step_asked hstep])

end Calls

end BlazeNet

import BlazeNet.DownloadSpec
import BlazeNet.Proofs.Download

/-!
# Whom a chunk is fetched from when one of its peers misbehaves

The source of a chunk is picked anew in each round, and only a fetch that fails as a whole keeps its
source from being picked again. A peer that lacks the chunk, or sends other bytes, fails that chunk
alone: the hash may pick it in both rounds.
-/

namespace BlazeNet

open Wire FaultIo Io RustStd

section Groups

variable {Sock : Type} {net : NetText Sock} {answers : Hash → Except AnyError (List PeerEntry)}
  {exclude : List String}

/-- The endpoint that is picked for a chunk. -/
def Picked (net : NetText Sock) (answers : Hash → Except AnyError (List PeerEntry))
    (exclude : List String) (hash : Hash) (id : String) : Prop :=
  ∃ peers peer, answers hash = .ok peers
    ∧ choosePeer (fun id => (net.canon id).isSome) exclude peers hash = some peer
    ∧ net.canon peer.endpointId = some id

theorem Picked.unique {hash : Hash} {id id' : String} (h : Picked net answers exclude hash id)
    (h' : Picked net answers exclude hash id') : id = id' := by
  obtain ⟨peers, peer, hanswer, hpeer, hid⟩ := h
  obtain ⟨peers', peer', hanswer', hpeer', hid'⟩ := h'
  cases hanswer.symm.trans hanswer'
  cases hpeer.symm.trans hpeer'
  exact Option.some.inj (hid.symm.trans hid')

theorem Picked.usable {hash : Hash} {id : String} (h : Picked net answers exclude hash id) :
    ∃ peers, answers hash = .ok peers
      ∧ ∃ p ∈ candidates (fun id => (net.canon id).isSome) [] peers,
      net.canon p.endpointId = some id := by
  obtain ⟨peers, peer, hanswer, hpeer, hid⟩ := h
  refine ⟨peers, hanswer, peer, ?_, hid⟩
  have hmem := List.mem_of_getElem? hpeer
  simp only [candidates, List.mem_filter, Bool.and_eq_true] at hmem ⊢
  simp [hmem]

/-- Targets of one key have one endpoint, where no endpoint contains the separator. -/
theorem endpoint_of_key {target target' : Target} (h : '|' ∉ target.endpoint.toList)
    (h' : '|' ∉ target'.endpoint.toList) (hkey : target.key = target'.key) :
    target.endpoint = target'.endpoint := by
  have hbefore : ∀ a b : List Char, '|' ∉ a → (a ++ '|' :: b).takeWhile (· ≠ '|') = a := by
    intro a b ha
    have hall : ∀ c ∈ a, decide (c ≠ '|') = true := fun c hc =>
      decide_eq_true fun heq => ha (heq ▸ hc)
    rw [List.takeWhile_append_of_pos hall]
    simp
  have hlist := congrArg (fun key => key.toList.takeWhile (· ≠ '|')) hkey
  simp only [Target.key, String.toList_append, List.append_assoc] at hlist
  exact String.toList_inj.1 ((hbefore _ _ h).symm.trans (hlist.trans (hbefore _ _ h')))

theorem mem_of_addToGroup {target : Target} {hash : Hash} {g : Target × List Hash} :
    ∀ groups : List (Target × List Hash), g ∈ addToGroup target hash groups →
      (∃ g' ∈ groups, g'.1 = g.1 ∧ ∀ h ∈ g.2, h ∈ g'.2 ∨ h = hash ∧ g.1.key = target.key)
        ∨ g = (target, [hash])
  | [], hg => .inr (List.mem_singleton.1 hg)
  | (t, hashes) :: groups, hg => by
    unfold addToGroup at hg
    split_ifs at hg with hkey <;> rcases List.mem_cons.1 hg with rfl | hg
    · refine .inl ⟨_, List.mem_cons_self, rfl, fun h hh => ?_⟩
      exact (List.mem_append.1 hh).imp id fun hh => ⟨List.mem_singleton.1 hh, hkey⟩
    · exact .inl ⟨g, List.mem_cons_of_mem _ hg, rfl, fun h hh => .inl hh⟩
    · exact .inl ⟨_, List.mem_cons_self, rfl, fun h hh => .inl hh⟩
    · rcases mem_of_addToGroup groups hg with ⟨g', hg', h⟩ | h
      · exact .inl ⟨g', List.mem_cons_of_mem _ hg', h⟩
      · exact .inr h

/-- The chunks of a group are those for which its endpoint is picked. -/
theorem picked_of_groupHashes (hcanon : ∀ id c, net.canon id = some c → '|' ∉ c.toList)
    {groups' : List (Target × List Hash)} {next' : List Hash} :
    ∀ (hashes : List Hash) (groups : List (Target × List Hash)) (next : List Hash),
      groupHashes net answers exclude hashes groups next = .ok (groups', next') →
      (∀ g ∈ groups, '|' ∉ g.1.endpoint.toList
        ∧ ∀ h ∈ g.2, Picked net answers exclude h g.1.endpoint) →
      ∀ g ∈ groups', '|' ∉ g.1.endpoint.toList
        ∧ ∀ h ∈ g.2, Picked net answers exclude h g.1.endpoint
  | [], groups, next, hok, hg => by
    cases hok
    exact hg
  | hash :: hashes, groups, next, hok, hg => by
    unfold groupHashes at hok
    rcases hanswer : answers hash with e | peers <;> simp only [hanswer] at hok
    · cases hok
    rcases hpeer : choosePeer (fun id => (net.canon id).isSome) exclude peers hash with _ | peer <;>
      simp only [hpeer] at hok
    · exact picked_of_groupHashes hcanon hashes _ _ hok hg
    refine picked_of_groupHashes hcanon hashes _ _ hok fun g hmem => ?_
    obtain ⟨id, hid⟩ : ∃ id, net.canon peer.endpointId = some id := by
      have hmem := List.mem_of_getElem? hpeer
      simp only [candidates, List.mem_filter] at hmem
      exact Option.isSome_iff_exists.1 hmem.2
    have htarget : (targetOfPeer net peer hash).endpoint = id := by simp [targetOfPeer, hid]
    have hpicked : Picked net answers exclude hash id := ⟨peers, peer, hanswer, hpeer, hid⟩
    have hclean := hcanon _ _ hid
    rcases mem_of_addToGroup groups hmem with ⟨g', hg', hsame, hhashes⟩ | rfl
    · obtain ⟨hclean', hpicked'⟩ := hg g' hg'
      rw [hsame] at hclean' hpicked'
      refine ⟨hclean', fun h hh => ?_⟩
      rcases hhashes h hh with hh | ⟨rfl, hkey⟩
      · exact hpicked' h hh
      · rwa [endpoint_of_key hclean' (by rwa [htarget]) hkey, htarget]
    · rw [htarget]
      refine ⟨hclean, fun h hh => ?_⟩
      rwa [List.mem_singleton.1 hh]

/-- Only a fetch that fails as a whole has its endpoint excluded. -/
theorem mem_exclude_joinTasks {id : String} : ∀ (tasks : List FetchTask) (next : List Hash)
    (exclude : List String), id ∈ (joinTasks tasks next exclude).2
      ↔ id ∈ exclude ∨ ∃ task ∈ tasks, task.endpoint = id ∧ ∃ e, task.phase = .finished (.error e)
  | [], next, exclude => by simp [joinTasks]
  | task :: tasks, next, exclude => by
    unfold joinTasks
    rcases hphase : task.phase with _ | ⟨rest, stats⟩ | (e | stats) <;>
      simp only [mem_exclude_joinTasks tasks, List.mem_append, List.mem_cons, List.not_mem_nil,
        or_false, exists_eq_or_imp, hphase] <;> grind

end Groups

section Pool

variable {σ : Type} {blake3 : Bytes → Hash} {sink : Hash → Bytes → Io AnyError σ Unit}
  {pool pool' : Pool ((σ × List (Hash × Bytes)) × List Hash)} {e : Event} {hash : Hash}

/-- The record grows by what the event delivers, if at all. -/
theorem Pool.step_record (h : pool.step blake3 (recordSink (takenSink sink)) e = some pool') :
    pool'.shared.1.2 = pool.shared.1.2
      ∨ ∃ task hash data, pool.tasks[e.task]? = some task ∧ Delivers blake3 task e hash data
        ∧ pool'.shared.1.2 = pool.shared.1.2 ++ [(hash, data)] := by
  obtain ⟨-, rfl⟩ | ⟨task, phase, w, htask, hrun, rfl⟩ := Pool.step_cases h
  · exact .inl rfl
  obtain ⟨hstate, -⟩ | ⟨hash, data, rest, stats, hphase, hnet, hdata, hcall⟩ := fetchNext_cases hrun
  · exact .inl (by rw [hstate])
  have hdelivers : Delivers blake3 task e hash data := ⟨rest, stats, hphase, hnet, hdata⟩
  obtain ⟨-, hcall⟩ | ⟨err, -, hcall⟩ := hcall <;> rw [run_recordSink, run_takenSink] at hcall <;>
    rcases hsink : (sink hash data).run ⟨pool.shared.1.1, e.faults⟩ with ⟨e' | ⟨⟩, w₁⟩ <;>
    rw [hsink] at hcall <;> cases hcall
  · exact .inr ⟨task, hash, data, htask, hdelivers, rfl⟩
  · exact .inl rfl

theorem Taken.step (ht : Taken blake3 hash pool.shared)
    (h : pool.step blake3 (recordSink (takenSink sink)) e = some pool') :
    Taken blake3 hash pool'.shared := by
  obtain ⟨data, hmem, hdata⟩ := ht
  refine ⟨data, ?_, hdata⟩
  obtain hsame | ⟨_, _, _, _, _, hmore⟩ := Pool.step_record h
  · rwa [hsame]
  · rw [hmore]
    exact List.mem_append_left _ hmem

theorem Taken.run : ∀ (events : List Event) (pool : Pool ((σ × List (Hash × Bytes)) × List Hash)),
    Taken blake3 hash pool.shared →
      Pool.run blake3 (recordSink (takenSink sink)) events pool = some pool' →
        Taken blake3 hash pool'.shared
  | [], pool, ht, h => Option.some.inj h ▸ ht
  | e :: events, pool, ht, h => by
    simp only [Pool.run] at h
    rcases hstep : pool.step blake3 (recordSink (takenSink sink)) e
      with _ | pool₁ <;> rw [hstep] at h
    · cases h
    · exact Taken.run events pool₁ (ht.step hstep) h

/-- A chunk that only one endpoint is asked for is not taken while that endpoint does not bring
it. -/
theorem Taken.of_run {bad : String} :
    ∀ (events : List Event) (pool : Pool ((σ × List (Hash × Bytes)) × List Hash)),
      (∀ task ∈ pool.tasks, task.Sound) → (∀ x ∈ pool.asked, hash ∈ x.2 → x.1 = bad) →
      Pool.Along blake3 (recordSink (takenSink sink))
        (fun task e _ => task.endpoint = bad → ∀ data, ¬Delivers blake3 task e hash data)
        events pool →
      Pool.run blake3 (recordSink (takenSink sink)) events pool = some pool' →
      Taken blake3 hash pool'.shared → Taken blake3 hash pool.shared
  | [], pool, _, _, _, h, ht => Option.some.inj h ▸ ht
  | e :: events, pool, hs, ha, hP, h, ht => by
    simp only [Pool.run] at h
    rcases hstep : pool.step blake3 (recordSink (takenSink sink)) e
      with _ | pool₁ <;> rw [hstep] at h
    · cases h
    have ht₁ := Taken.of_run events pool₁ (Pool.sound_step hs hstep)
      (by rwa [Pool.step_asked hstep]) (hP.2 pool₁ hstep) h ht
    obtain hsame | ⟨task, c, data, htask, hdelivers, hmore⟩ := Pool.step_record hstep
    · obtain ⟨data, hmem, hdata⟩ := ht₁
      exact ⟨data, by rwa [← hsame], hdata⟩
    have hmem := List.mem_of_getElem? htask
    have hother : hash ≠ c := by
      rintro rfl
      refine hP.1 task htask (ha (task.endpoint, task.hashes) (List.mem_map_of_mem hmem) ?_) data
        hdelivers
      exact mem_hashes_of_delivers (hs task hmem) hdelivers
    obtain ⟨data', hmem', hdata'⟩ := ht₁
    rw [hmore, List.mem_append, List.mem_singleton, Prod.mk.injEq] at hmem'
    exact ⟨data', hmem'.resolve_right fun heq => hother heq.1, hdata'⟩

end Pool

section Rounds

variable {σ Sock : Type} {net : NetText Sock} {blake3 : Bytes → Hash}
  {sink : Hash → Bytes → Io AnyError σ Unit} {hash : Hash} {bad : String} {input : RoundInput}
  {exclude : List String} {unresolved : List Hash}
  {s s' : (σ × List (Hash × Bytes)) × List Hash}

/-- What a round leaves: what its fetches do, or nothing where none is spawned. -/
theorem runRound_shared {τ : Type} {sink : Hash → Bytes → Io AnyError τ Unit} {s s' : τ}
    {r : Except AnyError RoundEnd}
    (h : runRound net blake3 sink input exclude unresolved s = some (r, s')) :
    (s' = s ∧ ∀ groups next, groupHashes net input.answers exclude unresolved [] []
        = .ok (groups, next) → groups = [])
      ∨ ∃ groups next pool,
      groupHashes net input.answers exclude unresolved [] [] = .ok (groups, next)
        ∧ Pool.run blake3 sink input.events (startPool (spawned groups) s) = some pool
        ∧ s' = pool.shared := by
  unfold runRound at h
  rcases hgroups : groupHashes net input.answers exclude unresolved [] []
    with e | ⟨groups, next⟩ <;>
    simp only [hgroups] at h
  · cases h
    exact .inl ⟨rfl, fun _ _ h => by cases h⟩
  split_ifs at h with hempty
  · cases h
    refine .inl ⟨rfl, fun _ _ h => ?_⟩
    cases h
    exact List.isEmpty_iff.1 hempty
  · obtain ⟨pool, hrun, hend⟩ := Option.bind_eq_some_iff.1 h
    refine .inr ⟨groups, next, pool, rfl, hrun, ?_⟩
    unfold endRound at hend
    split_ifs at hend <;> cases hend <;> rfl

/-- A chunk of a fetch is taken when all that are asked for it serve. -/
theorem taken_of_served {groups : List (Target × List Hash)} {events : List Event}
    {pool : Pool ((σ × List (Hash × Bytes)) × List Hash)}
    (hrun : Pool.run blake3 (recordSink (takenSink sink)) events (startPool groups s) = some pool)
    (hasked : ∃ g ∈ groups, hash ∈ g.2)
    (hserved : ∀ task ∈ pool.tasks, (∃ g ∈ groups, hash ∈ g.2 ∧ task.endpoint = g.1.endpoint) →
      task.served) : Taken blake3 hash pool.shared := by
  have hstart : Covered (fun t h => ∃ data, (h, data) ∈ t.1.2 ∧ blake3 data = h) [hash] []
      (startPool groups s) := covered_startPool fun c hc => by
    rw [List.mem_singleton.1 hc]
    exact .inl (.inl hasked)
  have hpool := Covered.run (keeping_takenSink blake3 sink) _ _ hstart (along_true _ _) hrun
  obtain h | ⟨task, htask, hwork⟩ | h := hpool.covers hash (List.mem_singleton_self _)
  · cases h
  · -- the fetch was asked for the chunk, so nothing is left of its work
    have hsame := (Pool.run_ended _ _ (ordered_startPool groups s) hrun).2
    have hin : (task.endpoint, task.hashes) ∈ (startPool groups s).asked :=
      hsame ▸ List.mem_map_of_mem htask
    obtain ⟨x, hx, heq⟩ := List.mem_map.1 hin
    obtain ⟨g, hg, rfl⟩ := List.mem_map.1 hx
    obtain ⟨hendpoint, hhashes⟩ := Prod.mk.inj heq
    have hmem : hash ∈ g.2 := by
      have hwithin := hpool.sound task htask hash hwork
      rwa [← hhashes] at hwithin
    have hdone := hserved task htask ⟨g, hg, hmem, hendpoint.symm⟩
    unfold FetchTask.served at hdone
    unfold FetchTask.work at hwork
    rcases hphase : task.phase with _ | ⟨rest, stats⟩ | (e | stats) <;>
      simp only [hphase] at hdone hwork <;> try cases hdone
    rw [List.isEmpty_iff.1 hdone] at hwork
    cases hwork
  · exact h

/-- In a round a chunk is taken just when a fetch of it is spawned from another than the one that
misbehaves. -/
theorem runRound_taken (hcanon : ∀ id c, net.canon id = some c → '|' ∉ c.toList)
    (hone : OneMisbehaves net blake3 sink hash bad input exclude unresolved s)
    {r : Except AnyError RoundEnd}
    (h : runRound net blake3 (recordSink (takenSink sink)) input exclude unresolved s
      = some (r, s')) :
    Taken blake3 hash s' ↔ Taken blake3 hash s
      ∨ PicksOther net hash bad input exclude unresolved s := by
  obtain ⟨rfl, hnone⟩ | ⟨groups, next, pool, hgroups, hrun, rfl⟩ := runRound_shared h
  · refine (or_iff_left ?_).symm
    rintro ⟨groups, next, hgroups, g, hg, -⟩
    rw [hnone groups next hgroups] at hg
    cases hg
  have hpicked := picked_of_groupHashes hcanon unresolved [] [] hgroups (by simp)
  have hspawned : ∀ g ∈ spawned groups, g ∈ groups := fun g hg =>
    (List.takeWhile_prefix _).subset hg
  constructor
  · intro ht
    by_contra hcon
    obtain ⟨huntaken, hother⟩ := not_or.1 hcon
    have hbad : ∀ x ∈ (startPool (spawned groups) s).asked, hash ∈ x.2 → x.1 = bad := by
      intro x hx hmem
      obtain ⟨task, htask, rfl⟩ := List.mem_map.1 hx
      obtain ⟨g, hg, rfl⟩ := List.mem_map.1 htask
      by_contra hne
      exact hother ⟨groups, next, hgroups, g, hg, hmem, hne⟩
    have hsound : ∀ task ∈ (startPool (spawned groups) s).tasks, task.Sound := by
      intro task htask
      obtain ⟨g, -, rfl⟩ := List.mem_map.1 htask
      exact fun c hc => hc
    exact huntaken (Taken.of_run _ _ hsound hbad (hone.misbehaves groups next hgroups) hrun ht)
  · rintro (ht | ⟨groups', next', hgroups', g, hg, hmem, hne⟩)
    · exact Taken.run _ (startPool (spawned groups) s) ht hrun
    cases hgroups.symm.trans hgroups'
    have hid := (hpicked g (hspawned g hg)).2 hash hmem
    refine taken_of_served hrun ⟨g, hg, hmem⟩ fun task htask ⟨g', hg', hmem', hendpoint⟩ => ?_
    have hid' := (hpicked g' (hspawned g' hg')).2 hash hmem'
    obtain ⟨peers, hanswer, -, -, hserves⟩ := hone.others
    obtain ⟨peers', hanswer', p, hp, hcanonical⟩ := hid.usable
    cases hanswer.symm.trans hanswer'
    refine hserves p hp g.1.endpoint hcanonical hne pool ?_ task htask (hendpoint.trans ?_)
    · simp only [roundPool, hgroups, hrun]
    · exact hid'.unique hid

theorem runRounds_taken (hcanon : ∀ id c, net.canon id = some c → '|' ∉ c.toList)
    {r : Except AnyError (List Hash)} {t : (σ × List (Hash × Bytes)) × List Hash} :
    ∀ (inputs : List RoundInput) (exclude : List String) (unresolved : List Hash)
      (s : (σ × List (Hash × Bytes)) × List Hash),
      EveryRound net blake3 (recordSink (takenSink sink)) (OneMisbehaves net blake3 sink hash bad)
        inputs exclude unresolved s →
      runRounds net blake3 (recordSink (takenSink sink)) inputs exclude unresolved s = some (r, t) →
      (Taken blake3 hash t ↔ Taken blake3 hash s
        ∨ SomeRound net blake3 (recordSink (takenSink sink)) (PicksOther net hash bad)
          inputs exclude
          unresolved s)
  | [], _, _, _, _, h => by
    cases h
    simp [SomeRound]
  | input :: inputs, exclude, unresolved, s, hone, h => by
    unfold runRounds at h
    simp only [SomeRound]
    split_ifs at h with hempty
    · cases h
      simp [List.isEmpty_iff.1 hempty]
    have hne : unresolved ≠ [] := fun hnil => hempty (by rw [hnil]; rfl)
    obtain ⟨hround, hrest⟩ := hone hne
    rcases hrun : runRound net blake3 (recordSink (takenSink sink)) input exclude unresolved s with
      _ | ⟨e | r₁, s₁⟩ <;> simp only [hrun] at h
    · cases h
    · cases h
      rw [runRound_taken hcanon hround hrun]
      simp [hne]
    · have hfirst := runRound_taken hcanon hround hrun
      split_ifs at h with hstop
      · cases h
        rw [hfirst]
        simp [hne, hstop]
      · have hstop : r₁.stop = false := by simpa using hstop
        have hlater := runRounds_taken hcanon inputs r₁.exclude r₁.unresolved s₁
          (hrest r₁ s₁ hrun hstop) h
        have hnext : (∃ r s', some ((.ok r₁ : Except AnyError RoundEnd), s₁) = some (.ok r, s')
          ∧ r.stop = false
              ∧ SomeRound net blake3 (recordSink (takenSink sink)) (PicksOther net hash bad) inputs
                r.exclude r.unresolved s')
            ↔ SomeRound net blake3 (recordSink (takenSink sink)) (PicksOther net hash bad) inputs
              r₁.exclude r₁.unresolved s₁ := by
          constructor
          · rintro ⟨r', s', heq, -, hsome⟩
            cases heq
            exact hsome
          · exact fun hsome => ⟨r₁, s₁, rfl, hstop, hsome⟩
        rw [hlater, hfirst, hnext, and_iff_right hne, or_assoc]

/-- The endpoint of a fetch that has failed as a whole is not picked in the next round, under that
text of its id. -/
theorem runRound_switches {τ : Type} {sink : Hash → Bytes → Io AnyError τ Unit} {s s' : τ}
    {r : RoundEnd} {pool : Pool τ} {task : FetchTask} {e : AnyError} {isEndpoint : String → Bool}
    {peers : List PeerEntry} {peer : PeerEntry}
    (h : runRound net blake3 sink input exclude unresolved s = some (.ok r, s'))
    (hpool : roundPool net blake3 sink input exclude unresolved s = some pool)
    (htask : task ∈ pool.tasks) (hfailed : task.phase = .finished (.error e))
    (hpeer : choosePeer isEndpoint r.exclude peers hash = some peer) :
    peer.endpointId ≠ task.endpoint := by
  have hexcluded : task.endpoint ∈ r.exclude := by
    obtain ⟨groups, next, hgroups, hend⟩ := runRound_ok h
    simp only [roundPool, hgroups] at hpool
    obtain ⟨rfl, -, -⟩ | ⟨pool', hspawned, hrun, hall, -, hr, -, -⟩ := hend
    · have hnone := (Pool.run_ended _ _ (ordered_startPool _ s) hpool).2
      have hin : (task.endpoint, task.hashes) ∈ (startPool (spawned []) s).asked :=
        hnone ▸ List.mem_map_of_mem htask
      cases hin
    · rw [hspawned, hrun] at hpool
      cases hpool
      have hordered := (Pool.run_ended _ _ (ordered_startPool groups s) hrun).1
      rw [hr, mem_exclude_joinTasks]
      exact .inr ⟨task, (hordered.joined hall task).2 htask, rfl, e, hfailed⟩
  have hmem := List.mem_of_getElem? hpeer
  simp only [candidates, List.mem_filter, Bool.and_eq_true, Bool.not_eq_true',
    List.contains_eq_mem, decide_eq_false_iff_not] at hmem
  exact fun heq => hmem.1.2.2 (heq ▸ hexcluded)

/-- Where in each round one of the candidates for a chunk misbehaves and all others serve, the chunk
is taken within the rounds just when a fetch of it is spawned from one of the others. -/
theorem takenRounds_delivers_iff (net : NetText Sock) (blake3 : Bytes → Hash)
    (sink : Hash → Bytes → Io AnyError σ Unit) (missing : List Hash) (input : DownloadInput) (s : σ)
    (hash : Hash) (bad : String) (hcanon : ∀ id c, net.canon id = some c → '|' ∉ c.toList)
    (hone : EveryRound net blake3 (recordSink (takenSink sink))
      (OneMisbehaves net blake3 sink hash bad) [input.first, input.second] [] missing ((s, []), []))
    (r : Except AnyError (List Hash)) (t : (σ × List (Hash × Bytes)) × List Hash)
    (hrun : takenRounds net blake3 sink missing input s = some (r, t)) :
    Taken blake3 hash t
      ↔ SomeRound net blake3 (recordSink (takenSink sink)) (PicksOther net hash bad)
        [input.first, input.second] [] missing ((s, []), []) := by
  have hnothing : ¬Taken blake3 hash ((s, []), ([] : List Hash)) := by
    rintro ⟨data, hmem, -⟩
    cases hmem
  rw [runRounds_taken hcanon _ _ _ _ hone hrun, or_iff_right hnothing]

end Rounds

section Misbehaving

variable {σ Sock : Type} {net : NetText Sock} {blake3 : Bytes → Hash}
  {sink : Hash → Bytes → Io AnyError σ Unit} {hash : Hash} {bad : String} {input : RoundInput}
  {exclude : List String} {unresolved : List Hash} {s : (σ × List (Hash × Bytes)) × List Hash}

theorem along_noChunk {τ : Type} {sink : Hash → Bytes → Io AnyError τ Unit} :
    ∀ (events : List Event) (pool : Pool τ), (∀ e ∈ events, ∀ data, e.net ≠ .chunk data) →
      Pool.Along blake3 sink
        (fun task e _ => task.endpoint = bad → ∀ data, ¬Delivers blake3 task e hash data)
        events pool
  | [], _, _ => trivial
  | e :: events, _, hnone => by
    refine ⟨fun task _ _ data => ?_, fun pool' _ =>
      along_noChunk events pool' fun x hx => hnone x (List.mem_cons_of_mem _ hx)⟩
    rintro ⟨rest, stats, -, hnet, -⟩
    exact hnone e List.mem_cons_self data hnet

theorem along_unasked {τ : Type} {sink : Hash → Bytes → Io AnyError τ Unit} :
    ∀ (events : List Event) (pool : Pool τ), (∀ x ∈ pool.asked, x.1 ≠ bad) →
      Pool.Along blake3 sink
        (fun task e _ => task.endpoint = bad → ∀ data, ¬Delivers blake3 task e hash data)
        events pool
  | [], _, _ => trivial
  | e :: events, pool, hnone => by
    refine ⟨fun task htask hbad => ?_, fun pool' hstep =>
      along_unasked events pool' (by rwa [Pool.step_asked hstep])⟩
    exact absurd hbad (hnone _ (List.mem_map_of_mem (List.mem_of_getElem? htask)))

end Misbehaving

section Example

/-- Texts without a separator are ids. -/
def plainNet : NetText ℕ := ⟨twoSockets, fun id => if '|' ∈ id.toList then none else some id⟩

def twoPeers : List PeerEntry := [peerAt "a" "1.2.3.4:42001", peerAt "b" "1.2.3.4:42002"]

def dropSink : Hash → Bytes → Io AnyError Unit Unit := fun _ _ => pure ()

/-- The hash picks the first of two peers, which does not have the chunk, in both rounds. -/
def lackingInput : DownloadInput where
  endpoint := .ok ()
  first := ⟨fun _ => .ok twoPeers, [⟨0, .connected, []⟩, ⟨0, .noLength, []⟩]⟩
  second := ⟨fun _ => .ok twoPeers, [⟨0, .connected, []⟩, ⟨0, .noLength, []⟩]⟩
  fallback := []

/-- The first peer refuses the connection, and the second is asked in its place. -/
def refusingInput : DownloadInput where
  endpoint := .ok ()
  first := ⟨fun _ => .ok twoPeers, [⟨0, .broken (.msg "refused"), []⟩]⟩
  second := ⟨fun _ => .ok twoPeers, [⟨0, .connected, []⟩, ⟨0, .chunk [0], []⟩]⟩
  fallback := []

theorem plainNet_canon (id c : String) (h : plainNet.canon id = some c) : '|' ∉ c.toList := by
  simp only [plainNet] at h
  split_ifs at h with hc
  cases h
  exact hc

theorem mem_twoPeers {id : String} {p : PeerEntry}
    (hp : p ∈ candidates (fun id => (plainNet.canon id).isSome) [] twoPeers)
    (hid : plainNet.canon p.endpointId = some id) : id = "a" ∨ id = "b" := by
  have htwo : candidates (fun id => (plainNet.canon id).isSome) [] twoPeers = twoPeers := by
    decide +kernel
  rw [htwo] at hp
  simp only [twoPeers, List.mem_cons, List.not_mem_nil, or_false] at hp
  rcases hp with rfl | rfl
  · exact .inl (Option.some.inj (hid.symm.trans (by decide +kernel)))
  · exact .inr (Option.some.inj (hid.symm.trans (by decide +kernel)))

/-- What is left to show of two peers of which the first misbehaves. -/
theorem oneMisbehaves_twoPeers {input : RoundInput} {exclude : List String} {unresolved : List Hash}
    {s : (Unit × List (Hash × Bytes)) × List Hash} {hash : Hash}
    (hanswer : input.answers hash = .ok twoPeers)
    (hbad : Misbehaves plainNet byteHash dropSink hash "a" input exclude unresolved s)
    (hother : Serves plainNet byteHash dropSink "b" input exclude unresolved s) :
    OneMisbehaves plainNet byteHash dropSink hash "a" input exclude unresolved s where
  misbehaves := hbad
  others := by
    refine ⟨twoPeers, hanswer, by decide +kernel, by decide +kernel, fun p hp id hid hne => ?_⟩
    rw [(mem_twoPeers hp hid).resolve_left hne]
    exact hother

theorem serves_of_run {input : RoundInput} {exclude : List String} {unresolved : List Hash}
    {s : (Unit × List (Hash × Bytes)) × List Hash}
    (h : (roundPool plainNet byteHash (recordSink (takenSink dropSink)) input exclude
      unresolved s).all
      (fun pool => pool.tasks.all fun task => task.endpoint ≠ "b" || task.served) = true) :
    Serves plainNet byteHash dropSink "b" input exclude unresolved s := by
  intro pool hpool task htask hb
  rw [hpool] at h
  simpa [hb] using List.all_eq_true.1 h task htask

/-- The run ends without an error, and the chunk is not taken, though the other peer would serve. -/
theorem takenRounds_same_source :
    EveryRound plainNet byteHash (recordSink (takenSink dropSink))
        (OneMisbehaves plainNet byteHash dropSink (.fill 0) "a")
        [lackingInput.first, lackingInput.second] [] [.fill 0] (((), []), [])
      ∧ ∃ t, takenRounds plainNet byteHash dropSink [.fill 0] lackingInput ()
          = some (.ok [.fill 0], t) ∧ ¬Taken byteHash (.fill 0) t := by
  have hlacks : ∀ input ∈ [lackingInput.first, lackingInput.second],
      OneMisbehaves plainNet byteHash dropSink (.fill 0) "a" input [] [.fill 0] (((), []), []) := by
    intro input hinput
    have hsame : input = lackingInput.first := by
      simpa [lackingInput] using hinput
    subst hsame
    refine oneMisbehaves_twoPeers rfl (fun groups next _ => along_noChunk _ _ ?_)
      (serves_of_run (by decide +kernel))
    simp [lackingInput]
  refine ⟨fun _ => ⟨hlacks _ (by simp), fun r s' hrun _ _ => ?_⟩, _, rfl, ?_⟩
  · cases hrun
    exact ⟨hlacks _ (by simp), fun _ _ _ _ => trivial⟩
  · rintro ⟨data, hmem, -⟩
    cases hmem

/-- Refused by the first peer, the chunk comes from the second. -/
theorem takenRounds_delivers_refused : ∃ r t,
    takenRounds plainNet byteHash dropSink [.fill 0] refusingInput () = some (r, t)
      ∧ Taken byteHash (.fill 0) t := by
  have hone : EveryRound plainNet byteHash (recordSink (takenSink dropSink))
      (OneMisbehaves plainNet byteHash dropSink (.fill 0) "a")
      [refusingInput.first, refusingInput.second] [] [.fill 0] (((), []), []) := by
    refine fun _ => ⟨?_, fun r s' hrun _ _ => ?_⟩
    · refine oneMisbehaves_twoPeers rfl (fun groups next _ => along_noChunk _ _ ?_)
        (serves_of_run (by decide +kernel))
      simp [refusingInput]
    · cases hrun
      refine ⟨oneMisbehaves_twoPeers rfl (fun groups next hgroups => along_unasked _ _ ?_)
        (serves_of_run (by decide +kernel)), fun _ _ _ _ => trivial⟩
      cases hgroups
      decide +kernel
  refine ⟨_, _, rfl, (takenRounds_delivers_iff plainNet byteHash dropSink [.fill 0] refusingInput ()
    (.fill 0) "a" plainNet_canon hone _ _ rfl).2 ?_⟩
  have hround : runRound plainNet byteHash (recordSink (takenSink dropSink)) refusingInput.first []
      [.fill 0] (((), []), []) = some (.ok ⟨[.fill 0], ["a"], false⟩, (((), []), [])) := rfl
  refine ⟨by simp, .inr ⟨_, _, hround, rfl, by simp, .inl ⟨_, _, rfl, ?_⟩⟩⟩
  decide +kernel

end Example

end BlazeNet

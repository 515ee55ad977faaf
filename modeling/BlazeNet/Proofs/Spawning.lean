import BlazeNet.Spawning
import BlazeNet.Proofs.Peers
import BlazeNet.Proofs.Pool

/-!
# How many fetches are at work

A permit comes back as soon as its fetch is spawned, so permits do not bound the fetches at work: if
there is one permit at all, all groups can be at work at once. For what the fetches do it makes no
difference when each is spawned, and the round can be taken to start with all of them
(`run_whole`).
-/

namespace BlazeNet

open Wire FaultIo Io

variable {τ : Type} {blake3 : Bytes → Hash} {sink : Hash → Bytes → Io AnyError τ Unit}

namespace Spawner

section Steps

variable {s s' : Spawner τ} {e : Event} {group : Target × List Hash}
  {groups rest : List (Target × List Hash)}

theorem spawned_cons (hgroup : group.1.addr.isSome) :
    spawned (group :: rest) = group :: spawned rest := by
  simp [spawned, hgroup]

/-- What each step needs, and what it does. -/
theorem step_cases {st : SpawnStep} (h : s.step blake3 sink st = some s') :
    (st = .acquire ∧ s.holding = false ∧ s.rest ≠ [] ∧ s.permits ≠ 0
      ∧ s' = { s with permits := s.permits - 1, holding := true })
    ∨ (∃ group rest, st = .spawn ∧ s.holding = true ∧ s.rest = group :: rest ∧ group.1.addr.isSome
      ∧ s' = ⟨{ s.pool with tasks := s.pool.tasks ++ [dialing group] }, rest, s.permits + 1, false,
        s.lent⟩)
    ∨ (∃ e pool, st = .net e ∧ e.task < s.pool.tasks.length
      ∧ s.pool.step blake3 sink e = some pool ∧ s' = { s with pool })
    ∨ (st = .lend ∧ s.permits ≠ 0 ∧ s' = { s with permits := s.permits - 1, lent := s.lent + 1 })
    ∨ (st = .giveBack ∧ s.lent ≠ 0
      ∧ s' = { s with permits := s.permits + 1, lent := s.lent - 1 }) := by
  cases st with
  | acquire =>
    simp only [step] at h
    split_ifs at h with hc
    simp only [Bool.and_eq_true, Bool.not_eq_true', List.isEmpty_eq_false_iff,
      decide_eq_true_eq] at hc
    exact .inl ⟨rfl, hc.1.1, hc.1.2, hc.2, by simpa using h.symm⟩
  | spawn =>
    rcases hhold : s.holding with _ | _ <;> rcases hrest : s.rest with _ | ⟨group, rest⟩ <;>
      simp only [step, hhold, hrest] at h <;> try cases h
    split_ifs at h with haddr
    exact .inr (.inl ⟨group, rest, rfl, rfl, rfl, haddr, by simpa using h.symm⟩)
  | net e =>
    simp only [step] at h
    split_ifs at h with he
    obtain ⟨pool, hpool, rfl⟩ := Option.map_eq_some_iff.1 h
    exact .inr (.inr (.inl ⟨e, pool, rfl, he, hpool, rfl⟩))
  | lend =>
    simp only [step] at h
    split_ifs at h with hc
    exact .inr (.inr (.inr (.inl ⟨rfl, hc, by simpa using h.symm⟩)))
  | giveBack =>
    simp only [step] at h
    split_ifs at h with hc
    exact .inr (.inr (.inr (.inr ⟨rfl, hc, by simpa using h.symm⟩)))

end Steps

section Bound

variable {s s' : Spawner τ}

/-- The permits are all accounted for, and so are the groups; without permits nothing is spawned. -/
structure Accounted (cfg : Config) (groups : List (Target × List Hash)) (s : Spawner τ) : Prop where
  permits : s.permits + s.lent + s.holding.toNat = cfg.chunkConcurrency.toNat
  groups : s.pool.tasks.length + (spawned s.rest).length = (spawned groups).length
  none : cfg.chunkConcurrency.toNat = 0 → s.pool.tasks = []

theorem accounted_start (cfg : Config) (groups : List (Target × List Hash)) (shared : τ) :
    Accounted cfg groups (startSpawner cfg groups shared) where
  permits := by simp [startSpawner]
  groups := by simp [startSpawner]
  none _ := rfl

theorem Accounted.step {cfg : Config} {groups : List (Target × List Hash)} {st : SpawnStep}
    (hs : Accounted cfg groups s) (h : s.step blake3 sink st = some s') :
    Accounted cfg groups s' := by
  have hp := hs.permits
  have hg := hs.groups
  obtain ⟨rfl, hhold, -, hfree, rfl⟩ | ⟨group, rest, rfl, hhold, hrest, haddr, rfl⟩
    | ⟨e, pool, rfl, he, hpool, rfl⟩ | ⟨rfl, hfree, rfl⟩ | ⟨rfl, hlent, rfl⟩ := step_cases h
  · refine ⟨?_, hg, hs.none⟩
    simp only [hhold, Bool.toNat_false, Bool.toNat_true] at hp ⊢
    omega
  · refine ⟨?_, ?_, fun h0 => ?_⟩
    · simp only [hhold, Bool.toNat_false, Bool.toNat_true] at hp ⊢
      omega
    · rw [hrest, spawned_cons haddr] at hg
      simp only [List.length_append, List.length_cons, List.length_nil] at hg ⊢
      omega
    · simp only [hhold, Bool.toNat_true] at hp
      omega
  · have hlen := Pool.step_length hpool
    refine ⟨hp, ?_, fun h0 => ?_⟩
    · simp only [hlen]
      exact hg
    · rw [← List.length_eq_zero_iff, hlen, hs.none h0, List.length_nil]
  · refine ⟨?_, hg, hs.none⟩
    simp only
    omega
  · refine ⟨?_, hg, hs.none⟩
    simp only
    omega

theorem Accounted.run {cfg : Config} {groups : List (Target × List Hash)} :
    ∀ (steps : List SpawnStep) (s : Spawner τ), Accounted cfg groups s →
      Spawner.run blake3 sink steps s = some s' → Accounted cfg groups s'
  | [], s, hs, h => Option.some.inj h ▸ hs
  | st :: steps, s, hs, h => by
    simp only [Spawner.run] at h
    rcases hstep : s.step blake3 sink st with _ | s₁ <;> rw [hstep] at h
    · cases h
    · exact Accounted.run steps s₁ (hs.step hstep) h

/-- With a permit to spare, all groups are spawned one after another, while no fetch goes on. -/
theorem run_spawnAll (cfg : Config) : ∀ (groups : List (Target × List Hash)) (s : Spawner τ),
    s.rest = groups → s.holding = false → s.permits ≠ 0 →
      ∃ steps s', Spawner.run blake3 sink steps s = some s'
        ∧ s'.pool.tasks = s.pool.tasks ++ (spawned groups).map dialing
  | [], s, _, _, _ => ⟨[], s, rfl, by simp [spawned]⟩
  | group :: rest, s, hrest, hhold, hfree => by
    rcases haddr : group.1.addr.isSome with _ | _
    · exact ⟨[], s, rfl, by simp [spawned, haddr]⟩
    · obtain ⟨steps, s', hrun, htasks⟩ := run_spawnAll cfg rest
        ⟨{ s.pool with tasks := s.pool.tasks ++ [dialing group] }, rest, s.permits - 1 + 1, false,
          s.lent⟩ rfl rfl (by simp)
      refine ⟨.acquire :: .spawn :: steps, s', ?_, ?_⟩
      · simpa [Spawner.run, Spawner.step, hrest, hhold, hfree, haddr] using hrun
      · rw [htasks, spawned_cons haddr]
        simp

/-- The fetches at work never outnumber the permits, whatever the order of spawning and finishing,
just when there are no more groups to spawn than permits. -/
theorem spawner_bounded_iff (blake3 : Bytes → Hash) (sink : Hash → Bytes → Io AnyError τ Unit)
    (cfg : Config) (groups : List (Target × List Hash)) (shared : τ) :
    Bounded blake3 sink cfg groups shared
      ↔ cfg.chunkConcurrency = 0 ∨ (spawned groups).length ≤ cfg.chunkConcurrency.toNat := by
  constructor
  · intro h
    by_cases h0 : cfg.chunkConcurrency = 0
    · exact .inl h0
    · obtain ⟨steps, s, hrun, htasks⟩ := @run_spawnAll _ blake3 sink cfg groups
        (startSpawner cfg groups shared) rfl rfl fun hp => h0 (UInt32.toNat_inj.1 hp)
      have hall : s.unfinished = (spawned groups).length := by
        rw [unfinished, htasks]
        simp [startSpawner, dialing, FetchPhase.isFinished, List.countP_map, Function.comp_def]
      exact .inr (hall ▸ h steps s hrun)
  · intro h steps s hrun
    have hs := Accounted.run steps _ (accounted_start cfg groups shared) hrun
    have hle : s.unfinished ≤ s.pool.tasks.length := List.countP_le_length
    have hg := hs.groups
    rcases h with h | h
    · rw [hs.none (by simp [h])] at hle
      simpa using hle.trans (Nat.zero_le _)
    · omega

/-- Two sources with one chunk each, under a `chunk_concurrency` of one. -/
def twoGroups : List (Target × List Hash) :=
  [(⟨"a", some "1.2.3.4:42001", false⟩, [.fill 0]), (⟨"b", some "1.2.3.4:42002", false⟩, [.fill 1])]

/-- Both are spawned before either has finished. -/
theorem spawner_unbounded :
    groupHashes ⟨twoSockets, some⟩ (fun hash => .ok (if hash = .fill 0
        then [⟨1, "a", [⟨"1.2.3.4:42001", "config", ""⟩], false⟩]
        else [⟨2, "b", [⟨"1.2.3.4:42002", "config", ""⟩], false⟩])) [] [.fill 0, .fill 1] [] []
      = .ok (twoGroups, [])
    ∧ ¬Bounded (fun _ => .fill 0) (fun _ _ => pure ())
      { cafeConfig none with chunkConcurrency := 1 } twoGroups () := by
  refine ⟨by decide +kernel, fun h => ?_⟩
  have hrun : (run (fun _ => .fill 0) (fun _ _ => pure ()) [.acquire, .spawn, .acquire, .spawn]
      (startSpawner { cafeConfig none with chunkConcurrency := 1 } twoGroups ())).map unfinished
        = some 2 := by decide +kernel
  obtain ⟨s, hs, htwo⟩ := Option.map_eq_some_iff.1 hrun
  have hle := h _ s hs
  rw [htwo] at hle
  exact absurd hle (by decide)

end Bound

section Whole

variable {s s' : Spawner τ}

/-- A step leaves the whole pool as it is, or is the event that it brings. -/
theorem step_whole {st : SpawnStep} (h : s.step blake3 sink st = some s') :
    Pool.run blake3 sink (netEvents [st]) s.whole = some s'.whole := by
  obtain ⟨rfl, -, -, -, rfl⟩ | ⟨group, rest, rfl, -, hrest, haddr, rfl⟩
    | ⟨e, pool, rfl, he, hpool, rfl⟩ | ⟨rfl, -, rfl⟩ | ⟨rfl, -, rfl⟩ := step_cases h
  · rfl
  · simp [netEvents, Pool.run, whole, hrest, spawned_cons haddr]
  · have hmore := @Pool.step_more _ blake3 sink _ _
      ((spawned s.rest).map dialing) he
    simp [netEvents, Pool.run, whole, hmore, hpool]
  · rfl
  · rfl

/-- Whenever the fetches are spawned, they end up as if they had all been there from the start. -/
theorem run_whole : ∀ (steps : List SpawnStep) (s : Spawner τ),
    run blake3 sink steps s = some s' →
      Pool.run blake3 sink (netEvents steps) s.whole = some s'.whole
  | [], s, h => congrArg (Option.map whole) h
  | st :: steps, s, h => by
    simp only [run] at h
    rcases hstep : s.step blake3 sink st with _ | s₁ <;> rw [hstep] at h
    · cases h
    · have hsplit : netEvents (st :: steps) = netEvents [st] ++ netEvents steps := by
        rw [netEvents, netEvents, netEvents, ← List.filterMap_append, List.singleton_append]
      rw [hsplit, Pool.run_append, step_whole hstep]
      exact run_whole steps s₁ h

theorem startSpawner_whole (cfg : Config) (groups : List (Target × List Hash)) (shared : τ) :
    (startSpawner cfg groups shared).whole = startPool (spawned groups) shared := rfl

end Whole

end Spawner

end BlazeNet

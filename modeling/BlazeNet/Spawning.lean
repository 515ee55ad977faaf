import BlazeNet.Download

/-!
# The spawning of fetches

The second loop of a round of `download_missing`: for each group it acquires a permit of
`source_permits`, chooses the endpoint and spawns the fetch. The permit is the loop body's, so it is
dropped at the end of the body, with the fetch at work. What the fetches do meanwhile, and what the
downloads of other games do with the permits, comes in any order.
-/

namespace BlazeNet

open Wire FaultIo Io

/-- A round that spawns its groups: the fetches spawned, the groups to come, the free permits,
whether the loop holds one in `_permit`, and how many other downloads hold. -/
structure Spawner (τ : Type) where
  pool : Pool τ
  rest : List (Target × List Hash)
  permits : ℕ
  holding : Bool
  lent : ℕ

inductive SpawnStep where
  | acquire
  | spawn
  | net (e : Event)
  | lend
  | giveBack

/-- A fetch of a group, as it is spawned. -/
def dialing (group : Target × List Hash) : FetchTask := ⟨group.1.endpoint, group.2, .dialing⟩

/-- The round with nothing spawned. `TaskExecutor::new` makes a semaphore of `chunk_concurrency`. -/
def startSpawner {τ : Type} (cfg : Config) (groups : List (Target × List Hash)) (shared : τ) :
    Spawner τ where
  pool := ⟨shared, [], []⟩
  rest := groups
  permits := cfg.chunkConcurrency.toNat
  holding := false
  lent := 0

namespace Spawner

variable {τ : Type} (blake3 : Bytes → Hash) (sink : Hash → Bytes → Io AnyError τ Unit)

/-- `none` where the step is not possible, and where the round has returned. -/
def step (s : Spawner τ) : SpawnStep → Option (Spawner τ)
  | .acquire =>
    if !s.holding && !s.rest.isEmpty && s.permits ≠ 0 then
      some { s with permits := s.permits - 1, holding := true }
    else none
  | .spawn => match s.holding, s.rest with
    | true, group :: rest =>
      -- `choose_ep` fails without an address, and the round returns
      if group.1.addr.isSome then some { s with
        pool := { s.pool with tasks := s.pool.tasks ++ [dialing group] }
        rest := rest
        permits := s.permits + 1
        holding := false }
      else none
    | _, _ => none
  | .net e =>
    if e.task < s.pool.tasks.length then
      (s.pool.step blake3 sink e).map fun pool => { s with pool }
    else none
  | .lend =>
    if s.permits ≠ 0 then some { s with permits := s.permits - 1, lent := s.lent + 1 } else none
  | .giveBack =>
    if s.lent ≠ 0 then some { s with permits := s.permits + 1, lent := s.lent - 1 } else none

def run : List SpawnStep → Spawner τ → Option (Spawner τ)
  | [], s => some s
  | st :: steps, s => match s.step blake3 sink st with
    | none => none
    | some s => run steps s

/-- The fetches that are spawned and have not finished. -/
def unfinished (s : Spawner τ) : ℕ := s.pool.tasks.countP fun task => !task.phase.isFinished

/-- At every moment of every run there are no more unfinished fetches than `chunk_concurrency`. -/
def Bounded (cfg : Config) (groups : List (Target × List Hash)) (shared : τ) : Prop :=
  ∀ steps s, run blake3 sink steps (startSpawner cfg groups shared) = some s →
    s.unfinished ≤ cfg.chunkConcurrency.toNat

/-- The pool with the fetches that are still to be spawned. -/
def whole (s : Spawner τ) : Pool τ :=
  { s.pool with tasks := s.pool.tasks ++ (spawned s.rest).map dialing }

end Spawner

/-- What the network brings in these steps. -/
def netEvents (steps : List SpawnStep) : List Event := steps.filterMap fun st => match st with
  | .net e => some e
  | _ => none

end BlazeNet

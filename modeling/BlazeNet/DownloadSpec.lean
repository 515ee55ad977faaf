import BlazeNet.Download

/-!
# When a download may fail, and whom it may rely on

What an error of `download_missing` may mean, and what a chunk needs to arrive where one of the
peers that have it misbehaves.
-/

namespace BlazeNet

open Wire FaultIo Io

section Rounds

variable {τ Sock : Type} (net : NetText Sock) (blake3 : Bytes → Hash)
  (sink : Hash → Bytes → Io AnyError τ Unit)

/-- The fetches of a round when it ends or is broken off. -/
def roundPool (input : RoundInput) (exclude : List String) (unresolved : List Hash) (s : τ) :
    Option (Pool τ) := match groupHashes net input.answers exclude unresolved [] [] with
  | .error _ => none
  | .ok (groups, _) => Pool.run blake3 sink input.events (startPool (spawned groups) s)

/-- `Q` holds of some round that is run, for what the round starts with. -/
def SomeRound (Q : RoundInput → List String → List Hash → τ → Prop) :
    List RoundInput → List String → List Hash → τ → Prop
  | [], _, _, _ => False
  | input :: inputs, exclude, unresolved, s => unresolved ≠ []
    ∧ (Q input exclude unresolved s
      ∨ ∃ r s', runRound net blake3 sink input exclude unresolved s = some (.ok r, s')
        ∧ r.stop = false ∧ SomeRound Q inputs r.exclude r.unresolved s')

/-- A call of `query_peers` fails. -/
def QueryFails (input : RoundInput) (_ : List String) (unresolved : List Hash) (_ : τ) : Prop :=
  ∃ hash ∈ unresolved, ∃ e, input.answers hash = .error e

/-- By the replies of the round, a chosen peer has no socket address where the hash picks one of its
addresses. -/
def AddressFails (input : RoundInput) (exclude : List String) (unresolved : List Hash) (_ : τ) :
    Prop :=
  ∃ groups next, groupHashes net input.answers exclude unresolved [] [] = .ok (groups, next)
    ∧ ∃ g ∈ groups, g.1.addr = none

/-- A chosen address fails, and the process lives until the round is broken off for it. -/
def AddressAborts (input : RoundInput) (exclude : List String) (unresolved : List Hash) (s : τ) :
    Prop :=
  AddressFails net input exclude unresolved s
    ∧ (roundPool net blake3 sink input exclude unresolved s).isSome

/-- `Q` holds of every round that is run, for what the round starts with. -/
def EveryRound (Q : RoundInput → List String → List Hash → τ → Prop) :
    List RoundInput → List String → List Hash → τ → Prop
  | [], _, _, _ => True
  | input :: inputs, exclude, unresolved, s => unresolved ≠ [] →
    Q input exclude unresolved s
      ∧ ∀ r s', runRound net blake3 sink input exclude unresolved s = some (.ok r, s') →
        r.stop = false → EveryRound Q inputs r.exclude r.unresolved s'

/-- The event is one that ends a fetch: its connection breaks, or the sink fails for its chunk. -/
def Fails (task : FetchTask) (e : Event) (s : τ) : Prop :=
  (∃ err, e.net = .broken err)
    ∨ ∃ hash data, Delivers blake3 task e hash data
      ∧ ∃ err w, (sink hash data).run ⟨s, e.faults⟩ = (.error (.err err), w)

/-- The event does not end a fetch of which the sink has taken a chunk. -/
def SparesTaken (task : FetchTask) (e : Event) (s : τ) : Prop :=
  ∀ rest stats, task.phase = .reading rest stats → Fails blake3 sink task e s → stats.downloaded = 0

end Rounds

section Errors

variable {σ Sock : Type} (net : NetText Sock) (cfg : Config) (blake3 : Bytes → Hash)
  (sink : Hash → Bytes → Io AnyError σ Unit) (gameId : UInt64) (missing assigned : List Hash)
  (input : DownloadInput) (s : σ)

/-- The sink has not taken some missing chunk. -/
def Undelivered (missing : List Hash) (t : σ × List (Hash × Bytes)) : Prop :=
  ∃ hash ∈ missing, ∀ data, (hash, data) ∉ t.2

/-- The rounds of the download, with a sink that keeps a record. -/
def takenRounds : Option (Except AnyError (List Hash) × (σ × List (Hash × Bytes)) × List Hash) :=
  runRounds net blake3 (recordSink (takenSink sink)) [input.first, input.second] []
    missing ((s, []), [])

/-- An error means that the configured origin is invalid, that no local endpoint could be built,
that a query has failed, or that a chunk is undelivered after the rounds and the fetch from the
origin. -/
def ErrorsJustified : Prop :=
  ∀ e s', downloadMissing net cfg blake3 (takenSink sink) gameId missing assigned input (s, [])
      = some (.error e, s') →
    (∃ e', originTarget net cfg = .error e') ∨ (∃ e', input.endpoint = .error e')
    ∨ SomeRound net blake3 (recordSink (takenSink sink)) QueryFails [input.first, input.second] []
      missing ((s, []), [])
    ∨ ((∃ unresolved s₁, takenRounds net blake3 sink missing input s = some (.ok unresolved, s₁))
      ∧ Undelivered missing s')

/-- In each round that is run, no chosen address fails, and no fetch ends with an error once the
sink has taken a chunk of it. -/
structure RoundsGoWell : Prop where
  addresses : EveryRound net blake3 (recordSink (takenSink sink))
    (fun round exclude unresolved t => ¬AddressFails net round exclude unresolved t)
    [input.first, input.second] [] missing ((s, []), [])
  fetches : RoundsAlong net blake3 (recordSink (takenSink sink))
    (SparesTaken blake3 (recordSink (takenSink sink)))
    [input.first, input.second] [] missing ((s, []), [])

end Errors

section Sources

variable {σ Sock : Type} (net : NetText Sock) (blake3 : Bytes → Hash)
  (sink : Hash → Bytes → Io AnyError σ Unit)

/-- The sink has taken the chunk. -/
def Taken (hash : Hash) (t : (σ × List (Hash × Bytes)) × List Hash) : Prop :=
  ∃ data, (hash, data) ∈ t.1.2 ∧ blake3 data = hash

/-- The fetch has brought all that it was asked for. -/
def FetchTask.served (task : FetchTask) : Bool := match task.phase with
  | .finished (.ok stats) => stats.failed.isEmpty
  | _ => false

variable (hash : Hash) (bad id : String) (input : RoundInput) (exclude : List String)
  (unresolved : List Hash) (s : (σ × List (Hash × Bytes)) × List Hash)

/-- The endpoint serves all that is asked of it in the round. -/
def Serves : Prop :=
  ∀ pool,
    roundPool net blake3 (recordSink (takenSink sink)) input exclude unresolved s = some pool →
    ∀ task ∈ pool.tasks, task.endpoint = id → task.served

/-- The endpoint never brings the chunk in the round. -/
def Misbehaves : Prop :=
  ∀ groups next, groupHashes net input.answers exclude unresolved [] [] = .ok (groups, next) →
    Pool.Along blake3 (recordSink (takenSink sink))
      (fun task e _ => task.endpoint = bad → ∀ data, ¬Delivers blake3 task e hash data)
      input.events (startPool (spawned groups) s)

/-- Of two or more usable candidates for the chunk one misbehaves, and all others serve. -/
structure OneMisbehaves : Prop where
  misbehaves : Misbehaves net blake3 sink hash bad input exclude unresolved s
  others : ∃ peers, input.answers hash = .ok peers
    ∧ (∃ p ∈ candidates (fun id => (net.canon id).isSome) [] peers,
      net.canon p.endpointId = some bad)
    ∧ (∃ p ∈ candidates (fun id => (net.canon id).isSome) [] peers,
      net.canon p.endpointId ≠ some bad)
    ∧ ∀ p ∈ candidates (fun id => (net.canon id).isSome) [] peers, ∀ id,
      net.canon p.endpointId = some id → id ≠ bad →
        Serves net blake3 sink id input exclude unresolved s

/-- A fetch of the chunk is spawned in the round, and not from the endpoint. -/
def PicksOther {τ : Type} (hash : Hash) (bad : String) (input : RoundInput) (exclude : List String)
    (unresolved : List Hash) (_ : τ) : Prop :=
  ∃ groups next, groupHashes net input.answers exclude unresolved [] [] = .ok (groups, next)
    ∧ ∃ g ∈ spawned groups, hash ∈ g.2 ∧ g.1.endpoint ≠ bad

end Sources

end BlazeNet

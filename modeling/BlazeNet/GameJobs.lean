import BlazeNet.Control
import BlazeNet.Lib.Jobs

/-!
# Publishing, rolling back, deleting and creating games side by side

The requests that read or write a game's record (`publish_version` of the control service,
`rollback_game`, `delete_game` and `create_game` over HTTP), cut into their transactions. Publishing
and rolling back read the whole record, change a field of it in memory and write it back later.
-/

namespace BlazeNet

open Wire FaultIo Io RustStd

/-- The tables, and what nothing reads: the versions of each game whose `publish_version` has
replied since the game was created. -/
structure GameShared where
  sched : Sched
  completed : List (UInt64 × UInt64)

abbrev GameIo := Io AnyError GameShared

structure RollbackRequest where
  nodeId : UInt64
  version : UInt64
  deriving DecidableEq

structure CreateGameRequest where
  name : String
  id : Option UInt64
  deriving DecidableEq

/-- Where a request stands. The points of a roll back keep the record that it has read, `switching`
with the new current version; `raising` keeps it with the new latest version. -/
inductive GameJob where
  | publishing (gameId version : UInt64) (manifest : Bytes)
  | saved (gameId version : UInt64)
  | raising (gameId version : UInt64) (game : GameRecord)
  | replying (gameId version : UInt64)
  | rollingBack (gameId : UInt64) (req : RollbackRequest)
  | found (game : GameRecord) (gameId : UInt64) (req : RollbackRequest)
  | versioned (game : GameRecord) (gameId : UInt64) (req : RollbackRequest)
  | located (game : GameRecord) (gameId : UInt64) (req : RollbackRequest)
  | numbered (game : GameRecord) (task : TaskRecord)
  | pushing (game : GameRecord) (task : TaskRecord)
  | switching (game : GameRecord)
  | deleting (gameId : UInt64)
  | creating (req : CreateGameRequest)
  | absent (game : GameRecord)
  | finished
  deriving DecidableEq

inductive GameRequest where
  | publish (gameId version : UInt64) (manifest : Bytes)
  | rollback (gameId : UInt64) (req : RollbackRequest)
  | delete (gameId : UInt64)
  | create (req : CreateGameRequest)

namespace GameShared

/-- A transaction of the store. -/
def db {α : Type} (p : SchedIo α) : GameIo α :=
  zoom (·.sched) (fun sched s => { s with sched := sched }) p

def complete (gameId version : UInt64) (s : GameShared) : GameShared :=
  { s with completed := (gameId, version) :: s.completed }

/-- A game that is created has no publications yet. -/
def restartCompleted (gameId : UInt64) (s : GameShared) : GameShared :=
  { s with completed := s.completed.filter fun c => c.1 ≠ gameId }

/-- `insert_game` of `create_game`. -/
def createGame (game : GameRecord) : GameIo Unit := do
  db (Store.insertGame game)
  modify (restartCompleted game.id)

end GameShared

namespace GameJob

open GameShared

/-- A game as `create_game` makes it. -/
def newGame (id : UInt64) (name : String) : GameRecord := ⟨id, name, "uploading", 0, 0⟩

def rollbackTask (id gameId : UInt64) (req : RollbackRequest) : TaskRecord :=
  ⟨id, req.nodeId, gameId, req.version, "ROLLBACK", [], "queued", ""⟩

/-- The next transaction of a request, or the next step in its memory. -/
def next : GameJob → GameIo GameJob
  | .publishing gameId version manifest =>
    if gameId = 0 ∨ version = 0 ∨ manifest.isEmpty then pure .finished
    else transact (db (Store.saveVersion gameId version manifest)) fun r => match r with
      | .ok () => .saved gameId version
      | .error _ => .finished
  | .saved gameId version => transact (db (Store.getGame gameId)) fun r => match r with
    | .ok (some game) =>
      if version > game.latestVersion then
        .raising gameId version { game with latestVersion := version }
      else .replying gameId version
    | _ => .replying gameId version
  | .raising gameId version game =>
    transact (db (Store.insertGame game)) fun _ => .replying gameId version
  | .replying gameId version => do
    modify (complete gameId version)
    pure .finished
  | .rollingBack gameId req =>
    if req.version = 0 then pure .finished
    else transact (db (Store.getGame gameId)) fun r => match r with
      | .ok (some game) => .found game gameId req
      | _ => .finished
  | .found game gameId req =>
    transact (db (Store.getVersion gameId req.version)) fun r => match r with
      | .ok (some _) => .versioned game gameId req
      | _ => .finished
  | .versioned game gameId req => transact (db (Store.getNode req.nodeId)) fun r => match r with
    | .ok (some _) => .located game gameId req
    | _ => .finished
  | .located game gameId req => transact (db Store.nextTaskId) fun r => match r with
    | .ok id => .numbered { game with currentVersion := req.version } (rollbackTask id gameId req)
    | .error _ => .finished
  | .numbered game task => transact (db (Store.insertTask task)) fun r => match r with
    | .ok () => .pushing game task
    | .error _ => .finished
  | .pushing game task => do
    modify fun s => { s with sched := enqueue task s.sched }
    pure (.switching game)
  | .switching game => transact (db (Store.insertGame game)) fun _ => .finished
  | .deleting gameId => transact (db (Store.deleteGame gameId)) fun _ => .finished
  | .creating req =>
    if req.name.isEmpty then pure .finished
    else match req.id with
      | some id =>
        if id = 0 then pure .finished
        else transact (db (Store.getGame id)) fun r => match r with
          | .ok none => .absent (newGame id req.name)
          | _ => .finished
      | none => transact (db Store.nextGameId) fun r => match r with
        | .ok id => .absent (newGame id req.name)
        | .error _ => .finished
  | .absent game => transact (createGame game) fun _ => .finished
  | .finished => pure .finished

end GameJob

/-- The scheduler's requests on its games. The environment is all its other requests, which leave
the games alone and change the other tables in any way. -/
def gameSystem : JobSystem AnyError GameShared GameJob GameRequest Sched where
  begin
    | .publish gameId version manifest => .publishing gameId version manifest
    | .rollback gameId req => .rollingBack gameId req
    | .delete gameId => .deleting gameId
    | .create req => .creating req
  next _ j := j.next
  env others s := { s with sched := { others with games := s.sched.games } }
  restart s := { s with sched := { s.sched with pending := fun _ => [] } }

/-- No request yet, over empty tables. -/
def noGames : Jobs GameShared GameJob := ⟨⟨.empty, []⟩, []⟩

section Property

/-- The record of a game that a job has read and is going to write back. -/
def GameJob.holds : GameJob → Option GameRecord
  | .raising _ _ game => some game
  | .found game _ _ => some game
  | .versioned game _ _ => some game
  | .located game _ _ => some game
  | .numbered game _ => some game
  | .pushing game _ => some game
  | .switching game => some game
  | _ => none

/-- The latest version is already at least this one, if the game exists. -/
def GameShared.AtLeast (s : GameShared) (gameId version : UInt64) : Prop :=
  ∀ game : GameRecord, s.sched.games[gameId]? = some game → version ≤ game.latestVersion

/-- A publication raises the latest version while no other request holds a record of the game with a
lower one, and its calls to the store do not fail. A game is deleted while no request holds its
record, and created while there is none and no publication of it has yet to reply. -/
def GameCareful (s : Jobs GameShared GameJob) : Move AnyError GameRequest Sched → Prop
  | .go i faults => ∀ j, s.jobs[i]? = some j → match j with
    | .saved gameId version => (∀ f ∈ faults, Unfailing f) ∨ s.shared.AtLeast gameId version
    | .raising gameId version _ =>
      ((∀ f ∈ faults, Unfailing f) ∨ s.shared.AtLeast gameId version)
        ∧ ∀ (k : ℕ) (j' : GameJob) (held : GameRecord), k ≠ i → s.jobs[k]? = some j' →
          j'.holds = some held → held.id = gameId → version ≤ held.latestVersion
    | .deleting gameId => ∀ (k : ℕ) (j' : GameJob) (held : GameRecord), s.jobs[k]? = some j' →
      j'.holds = some held → held.id ≠ gameId
    | .absent game => s.shared.sched.games[game.id]? = none
      ∧ ∀ (k : ℕ) (version : UInt64), s.jobs[k]? ≠ some (.replying game.id version)
    | _ => True
  | _ => True

/-- What the claim says of one move: the latest version of a game that stays does not go down, a
game appears only where `create_game` writes it, and no completed publication is ahead of its
game. -/
structure GameLawful (s : Jobs GameShared GameJob) (m : Move AnyError GameRequest Sched)
    (s' : Jobs GameShared GameJob) : Prop where
  grows : ∀ (id : UInt64) (before after : GameRecord), s.shared.sched.games[id]? = some before →
    s'.shared.sched.games[id]? = some after → before.latestVersion ≤ after.latestVersion
  created : ∀ id : UInt64, s.shared.sched.games[id]? = none → s'.shared.sched.games[id]? ≠ none →
    ∃ i faults game, m = .go i faults ∧ s.jobs[i]? = some (.absent game) ∧ game.id = id
  completed : ∀ gameId version, (gameId, version) ∈ s'.shared.completed →
    s'.shared.AtLeast gameId version

end Property

end BlazeNet

import BlazeNet.Backup
import BlazeNet.GameJobs

/-!
# The requests of the administrator

The handlers of the scheduler's HTTP service that create and delete users, places, groups and games,
bind them to each other and list the places of a user. A handler runs its transactions one after
another and adds an audit record at the end, whose failure it ignores.
-/

namespace BlazeNet

open Wire FaultIo Io RustStd

abbrev Bindings := Std.ExtTreeMap String UInt64

section Bindings

def bindUp : String := "user_place"

def bindUg : String := "user_group"

def bindGp : String := "group_place"

/-- The ids that are bound to `a`; a key whose end is not a number is passed over. -/
def bindingIds (kind : String) (a : UInt64) : Io AnyError Bindings (List UInt64) := do
  let pre := s!"{kind}/{a}/"
  let items ← listTable "打开绑定表失败" "遍历绑定失败" "读取绑定失败" (·.toList)
  pure (items.filterMap fun item => (stripPrefix pre.toList item.1.toList).bind parseU64)

/-- The places of each group, into the set. -/
def insertGroupPlaces : List UInt64 → HashSet UInt64 → Io AnyError Bindings (HashSet UInt64)
  | [], places => pure places
  | group :: groups, places => do
    let ids ← bindingIds bindGp group
    insertGroupPlaces groups (ids.foldl HashSet.insert places)

def placesOfUser (userId : UInt64) : Io AnyError Bindings (List UInt64) := do
  let direct ← bindingIds bindUp userId
  let groups ← bindingIds bindUg userId
  let places ← insertGroupPlaces groups (HashSet.collect direct)
  pure (places.elems.mergeSort (· ≤ ·))

end Bindings

structure CreateUserRequest where
  username : String
  password : String
  deriving DecidableEq

structure CreatePlaceRequest where
  name : String
  region : String
  deriving DecidableEq

structure CreateGroupRequest where
  name : String
  deriving DecidableEq

structure BindRequest where
  kind : String
  a : UInt64
  b : UInt64
  deriving DecidableEq

abbrev AdminHandler := ExceptT StatusCode DbIo

namespace Admin

variable {α ν : Type}

/-- `map_err(store_error)?`. -/
def orStoreError (p : DbIo α) : AdminHandler α := ExceptT.mk do
  match ← attempt p with
  | .ok a => pure (.ok a)
  | .error e => pure (.error (storeError e))

def addAudit (timeMs : UInt64) (actor action detail : String) : DbIo UInt64 := do
  let id ← Db.onSched (Store.nextId BackupJob.nextAuditIdKey)
  Db.onAudits (insertJson id ⟨id, timeMs, actor, action, detail⟩)
  pure id

def audit (timeMs : UInt64) (action detail : String) : AdminHandler Unit := ExceptT.lift do
  let _ ← attempt (addAudit timeMs "admin" action detail)
  pure ()

/-- A record is made with the next id of a counter and written. -/
def createRecord (counter : String) (record : UInt64 → ν) (insert : ν → DbIo Unit) :
    AdminHandler ν := do
  let id ← orStoreError (Db.onSched (Store.nextId counter))
  orStoreError (insert (record id))
  pure (record id)

def deleteRecord (delete : DbIo Bool) : AdminHandler Unit := do
  if ← orStoreError delete then pure ()
  else throw .notFound

def nextUserIdKey : String := "next_user_id"

def nextPlaceIdKey : String := "next_place_id"

def nextGroupIdKey : String := "next_group_id"

def hashPassword (blake3 : Bytes → Hash) (password salt : String) : String :=
  String.ofList (hexChars (blake3 (nameBytes s!"{salt}:{password}")).bytes)

def createUser (blake3 : Bytes → Hash) (nowMs auditMs : UInt64) (req : CreateUserRequest) :
    AdminHandler UserRecord := do
  if req.username.isEmpty || req.password.isEmpty then throw .badRequest
  else do
    let salt := toString nowMs
    let user ← createRecord nextUserIdKey
      (fun id => ⟨id, req.username, hashPassword blake3 req.password salt, salt⟩)
      fun user : UserRecord => Db.onUsers (insertJson user.id user)
    audit auditMs "创建账号" s!"账号 ID {user.id}"
    pure user

def deleteUser (auditMs id : UInt64) : AdminHandler Unit := do
  deleteRecord (Db.onUsers (deleteJson id))
  audit auditMs "删除账号" s!"账号 ID {id}"

def createPlace (auditMs : UInt64) (req : CreatePlaceRequest) : AdminHandler PlaceRecord := do
  if req.name.isEmpty then throw .badRequest
  else do
    let place ← createRecord nextPlaceIdKey (fun id => ⟨id, req.name, req.region⟩)
      fun place : PlaceRecord => Db.onPlaces (insertJson place.id place)
    audit auditMs "创建场所" s!"场所 ID {place.id}"
    pure place

def deletePlace (auditMs id : UInt64) : AdminHandler Unit := do
  deleteRecord (Db.onPlaces (deleteJson id))
  audit auditMs "删除场所" s!"场所 ID {id}"

def createGroup (auditMs : UInt64) (req : CreateGroupRequest) : AdminHandler GroupRecord := do
  if req.name.isEmpty then throw .badRequest
  else do
    let group ← createRecord nextGroupIdKey (fun id => ⟨id, req.name⟩)
      fun group : GroupRecord => Db.onGroups (insertJson group.id group)
    audit auditMs "创建分组" s!"分组 ID {group.id}"
    pure group

def deleteGroup (auditMs id : UInt64) : AdminHandler Unit := do
  deleteRecord (Db.onGroups (deleteJson id))
  audit auditMs "删除分组" s!"分组 ID {id}"

/-- The kinds of bindings that a request may make. -/
def validKind (kind : String) : Bool :=
  kind = "user_place" || kind = "user_group" || kind = "group_place"

def bindRecords (auditMs : UInt64) (req : BindRequest) : AdminHandler Unit := do
  if !validKind req.kind then throw .badRequest
  else do
    orStoreError (Db.onBindings (bind req.kind req.a req.b))
    audit auditMs "建立绑定" s!"{req.kind} {req.a}/{req.b}"

def userPlaces (id : UInt64) : AdminHandler (List UInt64) :=
  orStoreError (Db.onBindings (placesOfUser id))

/-- The id of a new game: the one asked for, or the next of the counter. -/
def newGameId (req : CreateGameRequest) : AdminHandler UInt64 :=
  match req.id with
  | some id =>
    if id = 0 then throw .badRequest
    else do
      match ← orStoreError (Db.onSched (Store.getGame id)) with
      | some _ => throw .badRequest
      | none => pure id
  | none => orStoreError (Db.onSched Store.nextGameId)

def createGame (auditMs : UInt64) (req : CreateGameRequest) : AdminHandler GameRecord := do
  if req.name.isEmpty then throw .badRequest
  else do
    let id ← newGameId req
    let game := GameJob.newGame id req.name
    orStoreError (Db.onSched (Store.insertGame game))
    audit auditMs "创建游戏" s!"游戏 ID {game.id}"
    pure game

def deleteGame (auditMs id : UInt64) : AdminHandler Unit := do
  deleteRecord (Db.onSched (Store.deleteGame id))
  audit auditMs "删除游戏" s!"游戏 ID {id}"

end Admin

section Requests

inductive AdminRequest where
  | createUser (req : CreateUserRequest)
  | deleteUser (id : UInt64)
  | createPlace (req : CreatePlaceRequest)
  | deletePlace (id : UInt64)
  | createGroup (req : CreateGroupRequest)
  | deleteGroup (id : UInt64)
  | bind (req : BindRequest)
  | createGame (req : CreateGameRequest)
  | deleteGame (id : UInt64)
  deriving DecidableEq

inductive AdminReply where
  | user (user : UserRecord)
  | place (place : PlaceRecord)
  | group (group : GroupRecord)
  | game (game : GameRecord)
  | noContent
  deriving DecidableEq

/-- A request, with what its handler reads from the clock and the faults it meets. -/
structure AdminCall where
  request : AdminRequest
  nowMs : UInt64
  auditMs : UInt64
  faults : List (Fault AnyError)

variable (blake3 : Bytes → Hash)

open Admin in
def AdminCall.handler (c : AdminCall) : AdminHandler AdminReply :=
  match c.request with
  | .createUser req => do return .user (← createUser blake3 c.nowMs c.auditMs req)
  | .deleteUser id => do
    deleteUser c.auditMs id
    return .noContent
  | .createPlace req => do return .place (← createPlace c.auditMs req)
  | .deletePlace id => do
    deletePlace c.auditMs id
    return .noContent
  | .createGroup req => do return .group (← createGroup c.auditMs req)
  | .deleteGroup id => do
    deleteGroup c.auditMs id
    return .noContent
  | .bind req => do
    bindRecords c.auditMs req
    return .noContent
  | .createGame req => do return .game (← createGame c.auditMs req)
  | .deleteGame id => do
    deleteGame c.auditMs id
    return .noContent

/-- The answer to a request, none if the process dies on it. -/
def Db.reply (d : Db) (c : AdminCall) : Option (Except StatusCode AdminReply) :=
  ((c.handler blake3).run.run ⟨d, c.faults⟩).1.toOption

/-- The tables after a request; a process that dies on it starts again over them. -/
def Db.serve (d : Db) (c : AdminCall) : Db :=
  match (c.handler blake3).run.run ⟨d, c.faults⟩ with
  | (.error .killed, w) => dbSystem.restart w.state
  | (_, w) => w.state

def Db.serveAll (d : Db) (calls : List AdminCall) : Db := calls.foldl (Db.serve blake3) d

/-- Every request of the run from `d` meets `C` where it is made. -/
def Db.ServesAlong (C : Db → AdminCall → Prop) : Db → List AdminCall → Prop
  | _, [] => True
  | d, c :: calls => C d c ∧ Db.ServesAlong C (d.serve blake3 c) calls

end Requests

section References

def BindRequest.key (r : BindRequest) : String := s!"{r.kind}/{r.a}/{r.b}"

def Bound (t : Bindings) (kind : String) (a b : UInt64) : Prop :=
  (⟨kind, a, b⟩ : BindRequest).key ∈ t

instance (t : Bindings) (kind : String) (a b : UInt64) : Decidable (Bound t kind a b) :=
  inferInstanceAs (Decidable (_ ∈ t))

/-- The places that a binding names. -/
def BindRequest.placeIds (r : BindRequest) : List UInt64 :=
  if r.kind = bindUp ∨ r.kind = bindGp then [r.b] else []

/-- The groups that a binding names. -/
def BindRequest.groupIds (r : BindRequest) : List UInt64 :=
  if r.kind = bindUg then [r.b] else if r.kind = bindGp then [r.a] else []

def Named (d : Db) (r : BindRequest) : Prop :=
  (∀ p ∈ r.placeIds, p ∈ d.places) ∧ ∀ g ∈ r.groupIds, g ∈ d.groups

instance (d : Db) (r : BindRequest) : Decidable (Named d r) :=
  @instDecidableAnd _ _ (List.decidableBAll _ _) (List.decidableBAll _ _)

/-- A request that binds only what there is and deletes no place or group that a binding names. -/
def Careful (d : Db) (c : AdminCall) : Prop :=
  match c.request with
  | .bind req => Admin.validKind req.kind = true → Named d req
  | .deletePlace id => ∀ r : BindRequest, Admin.validKind r.kind = true → r.key ∈ d.bindings →
    id ∉ r.placeIds
  | .deleteGroup id => ∀ r : BindRequest, Admin.validKind r.kind = true → r.key ∈ d.bindings →
    id ∉ r.groupIds
  | _ => True

end References

section BindRuns

/-- The table of bindings, and the calls of `bind` that have returned, the first one first. -/
structure BindRun where
  table : Bindings
  bound : List BindRequest

/-- A call of `bind`, with the faults it meets. -/
def BindRun.bind (s : BindRun) (call : BindRequest × List (Fault AnyError)) : BindRun :=
  match (BlazeNet.bind call.1.kind call.1.a call.1.b).run ⟨s.table, call.2⟩ with
  | (.ok (), w) => ⟨w.state, s.bound ++ [call.1]⟩
  | (.error _, w) => ⟨w.state, s.bound⟩

def BindRun.bindAll (calls : List (BindRequest × List (Fault AnyError))) : BindRun :=
  calls.foldl BindRun.bind ⟨∅, []⟩

end BindRuns

section Games

variable (blake3 : Bytes → Hash) (d : Db) (c : AdminCall)

/-- What `create_game` promises: a game that it answers with is new, and no other record changes. -/
structure CreatesApart : Prop where
  fresh : ∀ game, d.reply blake3 c = some (.ok (.game game)) → d.sched.games[game.id]? = none
  written : ∀ game, d.reply blake3 c = some (.ok (.game game)) →
    (d.serve blake3 c).sched.games[game.id]? = some game
  others : ∀ game, d.reply blake3 c = some (.ok (.game game)) → ∀ id, id ≠ game.id →
    (d.serve blake3 c).sched.games[id]? = d.sched.games[id]?
  kept : ∀ req, c.request = .createGame req → ∀ (id : UInt64) (game : GameRecord),
    d.sched.games[id]? = some game → (d.serve blake3 c).sched.games[id]? = some game

/-- Where an id is to be given out, no game has it. -/
def NextIdFree : Prop := ∀ req, c.request = .createGame req → req.name.isEmpty = false →
  req.id = none → d.sched.games[d.sched.nextCount Store.nextGameIdKey]? = none

end Games

end BlazeNet

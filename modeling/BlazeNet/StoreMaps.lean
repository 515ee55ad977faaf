import BlazeNet.Origin
import BlazeNet.Lib.Jobs

/-!
# The maps of store handles

A process keeps the block stores it has opened in `pack_stores`, and what its data path serves in
`data_stores`, each behind a lock. Connections, IDC tasks, uploads, queries and commits look a game
up and open its store where it is missing, one step at a time: taking a lock waits until nobody has
it, and between the steps of one anybody else's can fall.
-/

namespace BlazeNet

open Wire FaultIo Io RustStd

/-- `NodeStore`; a handle is a number, the same for the clones of one `Arc`. -/
inductive NodeStore where
  | pack (store : ℕ)
  | cafe (source : ℕ)
  deriving DecidableEq

/-- The two maps, who has their locks, and the block stores that are open. -/
structure StoreMaps where
  packStores : UInt64 → Option ℕ
  dataStores : UInt64 → Option NodeStore
  packLock : Option ℕ
  dataLock : Option ℕ
  opened : List (UInt64 × ℕ)

abbrev MapsIo := Io AnyError StoreMaps

/-- Who looks a game up in `pack_stores`. -/
inductive PackUser where
  | conn
  | idc
  | upload
  | query
  | commit

/-- Where a job stands. `looking` has the lock of `data_stores`, as have `entering`, `serving` and
`leaving`; the points from `packLooking` to `unlocking` have the lock of `pack_stores`, for a
connection both. -/
inductive StoreJob where
  | conn (gameId : UInt64)
  | looking (gameId : UInt64)
  | idc (gameId : UInt64)
  | upload (gameId : UInt64)
  | query (gameId : UInt64)
  | commit (req : CommitRequest)
  | waiting (user : PackUser) (gameId : UInt64)
  | packLooking (user : PackUser) (gameId : UInt64)
  | opening (user : PackUser) (gameId : UInt64)
  | inserting (user : PackUser) (gameId : UInt64) (store : ℕ)
  | got (user : PackUser) (gameId : UInt64) (store : ℕ)
  | unlocking (user : PackUser)
  | entering (gameId : UInt64) (store : ℕ)
  | serving
  | leaving
  | cafe (gameId : UInt64) (source : ℕ)
  | cafeEntering (gameId : UInt64) (source : ℕ)
  | finished

inductive StoreRequest where
  | conn (gameId : UInt64)
  | idc (gameId : UInt64)
  | upload (gameId : UInt64)
  | query (gameId : UInt64)
  | commit (req : CommitRequest)
  | cafe (gameId : UInt64) (source : ℕ)

namespace StoreMaps

def empty : StoreMaps := ⟨fun _ => none, fun _ => none, none, none, []⟩

/-- `pack_stores.lock().await` of job `i`. -/
def lockPack (i : ℕ) (locked wait : StoreJob) : MapsIo StoreJob := do
  let s ← get
  if s.packLock.isNone then do
    modify fun s => { s with packLock := some i }
    pure locked
  else pure wait

/-- `data_stores.lock().await` of job `i`. -/
def lockData (i : ℕ) (locked wait : StoreJob) : MapsIo StoreJob := do
  let s ← get
  if s.dataLock.isNone then do
    modify fun s => { s with dataLock := some i }
    pure locked
  else pure wait

def unlockPack (s : StoreMaps) : StoreMaps := { s with packLock := none }

def unlockData (s : StoreMaps) : StoreMaps := { s with dataLock := none }

/-- One more store of the game is open; its handle is a new one. -/
def addOpened (gameId : UInt64) (s : StoreMaps) : StoreMaps :=
  { s with opened := (gameId, s.opened.length) :: s.opened }

/-- `GameStore::open`, which may fail. -/
def openGame (gameId : UInt64) : MapsIo ℕ := do
  query fun _ => .ok ()
  let s ← get
  modify (addOpened gameId)
  pure s.opened.length

def insertPack (gameId : UInt64) (store : ℕ) (s : StoreMaps) : StoreMaps :=
  { s with packStores := Function.update s.packStores gameId (some store) }

def insertData (gameId : UInt64) (store : NodeStore) (s : StoreMaps) : StoreMaps :=
  { s with dataStores := Function.update s.dataStores gameId (some store) }

/-- `entry(game_id).or_insert_with`. -/
def orInsertData (gameId : UInt64) (store : NodeStore) (s : StoreMaps) : StoreMaps :=
  match s.dataStores gameId with
  | some _ => s
  | none => s.insertData gameId store

end StoreMaps

namespace StoreJob

open StoreMaps

variable (blake3 : Bytes → Hash) (packDefault : Bool)

/-- The next step of job `i`. Uploads, queries and commits keep the lock while they use the store,
an IDC task goes on with a clone of the handle. -/
def next (i : ℕ) : StoreJob → MapsIo StoreJob
  | .conn gameId => lockData i (.looking gameId) (.conn gameId)
  | .looking gameId => do
    let s ← get
    match s.dataStores gameId with
    | some _ => pure .serving
    | none => if packDefault then pure (.waiting .conn gameId) else pure .leaving
  | .idc gameId => pure (.waiting .idc gameId)
  | .upload gameId => if gameId = 0 then pure .finished else pure (.waiting .upload gameId)
  | .query gameId => if gameId = 0 then pure .finished else pure (.waiting .query gameId)
  | .commit req => match checkCommit blake3 req with
    | .error _ => pure .finished
    | .ok _ => pure (.waiting .commit req.gameId)
  | .waiting user gameId => lockPack i (.packLooking user gameId) (.waiting user gameId)
  | .packLooking user gameId => do
    let s ← get
    match s.packStores gameId with
    | some store => pure (.got user gameId store)
    | none => pure (.opening user gameId)
  | .opening user gameId => transact (openGame gameId) fun r => match r with
    | .ok store => .inserting user gameId store
    | .error _ => .unlocking user
  | .inserting user gameId store => do
    modify (insertPack gameId store)
    pure (.got user gameId store)
  | .got .conn gameId store => do
    modify unlockPack
    pure (.entering gameId store)
  | .got user _ _ => pure (.unlocking user)
  | .unlocking user => do
    modify unlockPack
    pure (match user with
      | .conn => .leaving
      | _ => .finished)
  | .entering gameId store => do
    modify (insertData gameId (.pack store))
    pure .serving
  | .serving => pure .leaving
  | .leaving => do
    modify unlockData
    pure .finished
  | .cafe gameId source => lockData i (.cafeEntering gameId source) (.cafe gameId source)
  | .cafeEntering gameId source => do
    modify (orInsertData gameId (.cafe source))
    pure .leaving
  | .finished => pure .finished

end StoreJob

/-- The jobs of one process on its stores; a new process starts with empty maps. -/
def storeSystem (blake3 : Bytes → Hash) (packDefault : Bool) :
    JobSystem AnyError StoreMaps StoreJob StoreRequest Empty where
  begin
    | .conn gameId => .conn gameId
    | .idc gameId => .idc gameId
    | .upload gameId => .upload gameId
    | .query gameId => .query gameId
    | .commit req => .commit req
    | .cafe gameId source => .cafe gameId source
  next i j := j.next blake3 packDefault i
  env e _ := nomatch e
  restart _ := .empty

def noStores : Jobs StoreMaps StoreJob := ⟨.empty, []⟩

section Property

/-- The stores of a game that are open. -/
def StoreMaps.storesOf (s : StoreMaps) (gameId : UInt64) : List ℕ :=
  (s.opened.filter fun e => e.1 = gameId).map (·.2)

end Property

end BlazeNet

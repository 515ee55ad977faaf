import BlazeNet.Keepalive
import BlazeNet.Lib.Jobs

/-!
# Backups of the scheduler's database

All twelve tables, the writes of `Store` and `backup_to`, which reads the tables one after another,
each in a transaction of its own. Writes of other requests fall in between; each is one transaction
on one table, but for `add_audit`, which takes its id in one and writes its record in another.
-/

namespace BlazeNet

open Wire FaultIo Io RustStd

structure UserRecord where
  id : UInt64
  username : String
  passwordHash : String
  salt : String
  deriving DecidableEq

structure PlaceRecord where
  id : UInt64
  name : String
  region : String
  deriving DecidableEq

structure GroupRecord where
  id : UInt64
  name : String
  deriving DecidableEq

structure AuditRecord where
  id : UInt64
  timeMs : UInt64
  actor : String
  action : String
  detail : String
  deriving DecidableEq

/-- The database: the tables of `Sched` and the other six. -/
structure Db where
  sched : Sched
  users : Std.ExtTreeMap UInt64 UserRecord
  places : Std.ExtTreeMap UInt64 PlaceRecord
  groups : Std.ExtTreeMap UInt64 GroupRecord
  bindings : Std.ExtTreeMap String UInt64
  heat : Std.ExtTreeMap String UInt64
  audits : Std.ExtTreeMap UInt64 AuditRecord

def Db.empty : Db := ⟨.empty, ∅, ∅, ∅, ∅, ∅, ∅⟩

abbrev DbIo := Io AnyError Db

inductive Table where
  | nodes | tasks | users | places | groups | bindings | games | versions | chunks | heat | counters
  | audits
  deriving DecidableEq

/-- What a table lists: records in the order of their ids, or keys with their values. -/
abbrev Table.Rows : Table → Type
  | .nodes => List NodeRecord
  | .tasks => List TaskRecord
  | .users => List UserRecord
  | .places => List PlaceRecord
  | .groups => List GroupRecord
  | .bindings => List (String × UInt64)
  | .games => List GameRecord
  | .versions => List (String × Bytes)
  | .chunks => List (String × List UInt64)
  | .heat => List (String × UInt64)
  | .counters => List (String × UInt64)
  | .audits => List AuditRecord

instance : (t : Table) → DecidableEq t.Rows
  | .nodes => inferInstanceAs (DecidableEq (List NodeRecord))
  | .tasks => inferInstanceAs (DecidableEq (List TaskRecord))
  | .users => inferInstanceAs (DecidableEq (List UserRecord))
  | .places => inferInstanceAs (DecidableEq (List PlaceRecord))
  | .groups => inferInstanceAs (DecidableEq (List GroupRecord))
  | .bindings | .heat | .counters => inferInstanceAs (DecidableEq (List (String × UInt64)))
  | .games => inferInstanceAs (DecidableEq (List GameRecord))
  | .versions => inferInstanceAs (DecidableEq (List (String × Bytes)))
  | .chunks => inferInstanceAs (DecidableEq (List (String × List UInt64)))
  | .audits => inferInstanceAs (DecidableEq (List AuditRecord))

/-- The content of a table. -/
def Db.rows (d : Db) : (t : Table) → t.Rows
  | .nodes => d.sched.nodes.toList.map (·.2)
  | .tasks => d.sched.tasks.toList.map (·.2)
  | .users => d.users.toList.map (·.2)
  | .places => d.places.toList.map (·.2)
  | .groups => d.groups.toList.map (·.2)
  | .bindings => d.bindings.toList
  | .games => d.sched.games.toList.map (·.2)
  | .versions => d.sched.versions.toList
  | .chunks => d.sched.chunks.toList
  | .heat => d.heat.toList
  | .counters => d.sched.counters.toList
  | .audits => d.audits.toList.map (·.2)

section Transactions

variable {τ α ν : Type}

/-- A call to the database on one of its tables. -/
def tableCall (text : String) : Io AnyError τ Unit := context text (query fun _ => .ok ())

def insertJson (id : UInt64) (value : ν) : Io AnyError (Std.ExtTreeMap UInt64 ν) Unit := do
  tableCall "开始写事务失败"
  tableCall "打开表失败"
  tableCall "写入记录失败"
  context "提交事务失败" (final (·.insert id value))

def deleteJson (id : UInt64) : Io AnyError (Std.ExtTreeMap UInt64 ν) Bool := do
  tableCall "开始写事务失败"
  tableCall "打开表失败"
  let found ← context "删除记录失败" (query fun t => .ok t[id]?.isSome)
  context "提交事务失败" (final (·.erase id))
  pure found

def addLaunch (gameId count : UInt64) : Io AnyError (Std.ExtTreeMap String UInt64) UInt64 := do
  let key := toString gameId
  tableCall "开始写事务失败"
  tableCall "打开 heat 表失败"
  let value ← context "读取热度失败" (query fun t => .ok t[key]?)
  let next := (value.map (· + count)).getD count
  tableCall "写入热度失败"
  context "提交热度事务失败" (final (·.insert key next))
  pure next

def bind (kind : String) (a b : UInt64) : Io AnyError (Std.ExtTreeMap String UInt64) Unit := do
  tableCall "开始写事务失败"
  tableCall "打开绑定表失败"
  tableCall "写入绑定失败"
  context "提交绑定事务失败" (final (·.insert s!"{kind}/{a}/{b}" 1))

/-- A read transaction over all of a table, each of whose items may fail to be read. -/
def listTable (opening iterating item : String) (rows : τ → List α) : Io AnyError τ (List α) := do
  tableCall "开始只读事务失败"
  tableCall opening
  let items ← context iterating (query fun t => .ok (rows t))
  each (fun _ => tableCall item) items
  pure items

def listJson (rows : τ → List α) : Io AnyError τ (List α) :=
  listTable "打开表失败" "遍历记录失败" "读取记录项失败" rows

end Transactions

namespace Db

variable {α : Type}

def onSched (p : SchedIo α) : DbIo α := zoom (·.sched) (fun sched d => { d with sched := sched }) p

def onUsers (p : Io AnyError (Std.ExtTreeMap UInt64 UserRecord) α) : DbIo α :=
  zoom (·.users) (fun users d => { d with users := users }) p

def onPlaces (p : Io AnyError (Std.ExtTreeMap UInt64 PlaceRecord) α) : DbIo α :=
  zoom (·.places) (fun places d => { d with places := places }) p

def onGroups (p : Io AnyError (Std.ExtTreeMap UInt64 GroupRecord) α) : DbIo α :=
  zoom (·.groups) (fun groups d => { d with groups := groups }) p

def onBindings (p : Io AnyError (Std.ExtTreeMap String UInt64) α) : DbIo α :=
  zoom (·.bindings) (fun bindings d => { d with bindings := bindings }) p

def onHeat (p : Io AnyError (Std.ExtTreeMap String UInt64) α) : DbIo α :=
  zoom (·.heat) (fun heat d => { d with heat := heat }) p

def onAudits (p : Io AnyError (Std.ExtTreeMap UInt64 AuditRecord) α) : DbIo α :=
  zoom (·.audits) (fun audits d => { d with audits := audits }) p

/-- The list functions of `Store`. -/
def list : (t : Table) → DbIo t.Rows
  | .nodes => onSched Store.listNodes
  | .tasks => onSched Store.listTasks
  | .users => listJson (·.rows .users)
  | .places => listJson (·.rows .places)
  | .groups => listJson (·.rows .groups)
  | .bindings => listTable "打开绑定表失败" "遍历绑定失败" "读取绑定项失败" (·.rows .bindings)
  | .games => listJson (·.rows .games)
  | .versions => listTable "打开 versions 表失败" "遍历版本失败" "读取版本项失败" (·.rows .versions)
  | .chunks => listTable "打开块账本表失败" "遍历块账本失败" "读取块账本项失败" (·.rows .chunks)
  | .heat => listTable "打开热度表失败" "遍历热度失败" "读取热度项失败" (·.rows .heat)
  | .counters => listTable "打开计数器表失败" "遍历计数器失败" "读取计数器项失败" (·.rows .counters)
  | .audits => listJson (·.rows .audits)

end Db

/-- The writes of `Store`. The names of `nextId` are the counters'. -/
inductive StoreWrite where
  | nextId (counter : String)
  | insertNode (node : NodeRecord)
  | insertTask (task : TaskRecord)
  | updateTaskStatus (id : UInt64) (status error : String)
  | recordChunkHolder (nodeId gameId : UInt64) (hash : Bytes)
  | addLaunch (gameId count : UInt64)
  | insertUser (user : UserRecord)
  | deleteUser (id : UInt64)
  | insertPlace (place : PlaceRecord)
  | deletePlace (id : UInt64)
  | insertGroup (group : GroupRecord)
  | deleteGroup (id : UInt64)
  | insertGame (game : GameRecord)
  | deleteGame (id : UInt64)
  | saveVersion (gameId version : UInt64) (manifest : Bytes)
  | bind (kind : String) (a b : UInt64)
  | insertAudit (record : AuditRecord)
  deriving DecidableEq

namespace StoreWrite

def ignore {σ α : Type} (p : Io AnyError σ α) : Io AnyError σ Unit := do
  let _ ← p
  pure ()

def transaction : StoreWrite → DbIo Unit
  | .nextId counter => ignore (Db.onSched (Store.nextId counter))
  | .insertNode node => Db.onSched (Store.insertNode node)
  | .insertTask task => Db.onSched (Store.insertTask task)
  | .updateTaskStatus id status error =>
    ignore (Db.onSched (Store.updateTaskStatus id status error))
  | .recordChunkHolder nodeId gameId hash =>
    Db.onSched (Store.recordChunkHolder nodeId gameId hash)
  | .addLaunch gameId count => ignore (Db.onHeat (BlazeNet.addLaunch gameId count))
  | .insertUser user => Db.onUsers (insertJson user.id user)
  | .deleteUser id => ignore (Db.onUsers (deleteJson id))
  | .insertPlace place => Db.onPlaces (insertJson place.id place)
  | .deletePlace id => ignore (Db.onPlaces (deleteJson id))
  | .insertGroup group => Db.onGroups (insertJson group.id group)
  | .deleteGroup id => ignore (Db.onGroups (deleteJson id))
  | .insertGame game => Db.onSched (Store.insertGame game)
  | .deleteGame id => ignore (Db.onSched (Store.deleteGame id))
  | .saveVersion gameId version manifest => Db.onSched (Store.saveVersion gameId version manifest)
  | .bind kind a b => Db.onBindings (BlazeNet.bind kind a b)
  | .insertAudit record => Db.onAudits (insertJson record.id record)

/-- The table that a write is about. -/
def table : StoreWrite → Table
  | .nextId _ => .counters
  | .insertNode _ => .nodes
  | .insertTask _ => .tasks
  | .updateTaskStatus _ _ _ => .tasks
  | .recordChunkHolder _ _ _ => .chunks
  | .addLaunch _ _ => .heat
  | .insertUser _ => .users
  | .deleteUser _ => .users
  | .insertPlace _ => .places
  | .deletePlace _ => .places
  | .insertGroup _ => .groups
  | .deleteGroup _ => .groups
  | .insertGame _ => .games
  | .deleteGame _ => .games
  | .saveVersion _ _ _ => .versions
  | .bind _ _ _ => .bindings
  | .insertAudit _ => .audits

end StoreWrite

/-- The snapshot: the tables in the order in which they are read, each with what it listed. -/
abbrev Snapshot := List (Σ t : Table, t.Rows)

def backupOrder : List Table :=
  [.nodes, .tasks, .users, .places, .groups, .bindings, .games, .versions, .chunks,
    .heat, .counters,
    .audits]

/-- The complete content of the database, as a snapshot. -/
def Db.content (d : Db) : Snapshot := backupOrder.map fun t => ⟨t, d.rows t⟩

/-- Where a job on the database stands: a backup to a directory with what it has taken and the
tables that it has yet to read, a write, or an audit whose id is to be taken. -/
inductive BackupJob where
  | opening (dir : String) (timestamp : UInt64)
  | reading (dir : String) (timestamp : UInt64) (taken : Snapshot) (left : List Table)
  | written (path : String) (snapshot : Snapshot)
  | failed (e : AnyError)
  | writing (w : StoreWrite)
  | auditing (timeMs : UInt64) (actor action detail : String)
  | finished
  deriving DecidableEq

inductive BackupRequest where
  | backup (dir : String) (timestamp : UInt64)
  | write (w : StoreWrite)
  | audit (timeMs : UInt64) (actor action detail : String)

namespace BackupJob

def nextAuditIdKey : String := "next_audit_id"

def backupPath (dir : String) (timestamp : UInt64) : String :=
  s!"{dir}/scheduler-{timestamp}.json"

/-- The next transaction of a job, or its next call. -/
def next : BackupJob → DbIo BackupJob
  | .opening dir timestamp => transact (tableCall s!"创建备份目录失败: {dir}") fun r => match r with
    | .ok () => .reading dir timestamp [] backupOrder
    | .error e => .failed e
  | .reading dir timestamp taken (t :: left) => transact (Db.list t) fun r => match r with
    | .ok rows => .reading dir timestamp (taken ++ [⟨t, rows⟩]) left
    | .error e => .failed e
  | .reading dir timestamp taken [] =>
    let path := backupPath dir timestamp
    transact (tableCall s!"写入备份失败: {path}") fun r => match r with
      | .ok () => .written path taken
      | .error e => .failed e
  | .writing w => transact w.transaction fun r => match r with
    | .ok () => .finished
    | .error e => .failed e
  | .auditing timeMs actor action detail =>
    transact (Db.onSched (Store.nextId nextAuditIdKey)) fun r => match r with
      | .ok id => .writing (.insertAudit ⟨id, timeMs, actor, action, detail⟩)
      | .error e => .failed e
  | j => pure j

end BackupJob

def dbSystem : JobSystem AnyError Db BackupJob BackupRequest Empty where
  begin
    | .backup dir timestamp => .opening dir timestamp
    | .write w => .writing w
    | .audit timeMs actor action detail => .auditing timeMs actor action detail
  next _ j := j.next
  env e _ := nomatch e
  restart d := { d with sched := { d.sched with pending := fun _ => [] } }

section Property

/-- The table that a job's next transaction writes. -/
def BackupJob.writesTo : BackupJob → Option Table
  | .writing w => some w.table
  | .auditing _ _ _ _ => some .counters
  | _ => none

/-- A table that backup `i` has yet to read is written only while those that it has read still have
what it took. -/
def UntornFor (i : ℕ) (s : Jobs Db BackupJob) : Move AnyError BackupRequest Empty → Prop
  | .go k _ => ∀ j t dir timestamp taken left, s.jobs[k]? = some j → j.writesTo = some t →
    s.jobs[i]? = some (.reading dir timestamp taken left) → t ∈ left →
      ∀ e ∈ taken, s.shared.rows e.1 = e.2
  | _ => True

end Property

end BlazeNet

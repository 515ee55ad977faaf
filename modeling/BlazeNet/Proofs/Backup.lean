import BlazeNet.Backup
import BlazeNet.Proofs.GameJobs
import BlazeNet.Proofs.NodeStatus

/-!
# A backup and one moment

While a backup reads, there is a moment whose tables are those it has taken and, for the tables that
it has yet to read, the present ones (`BackupJob.Traces`). A write to a table already read leaves
that moment as it is; a write to one not yet read makes the present the moment, which what has been
taken must still agree with.
-/

namespace BlazeNet

open Wire FaultIo Io RustStd

section Writes

variable {σ τ α ν : Type}

/-- A transaction that changes one table, or nothing at all. -/
structure WritesOnly (t : Table) (p : DbIo α) : Prop where
  atomic : AllOrNothing p
  sound : Sound p
  frame : ∀ (d : Db) (t' : Table), t' ≠ t → (exec p d).2.rows t' = d.rows t'

theorem exec_ignore (p : Io AnyError σ α) (s : σ) :
    (exec (StoreWrite.ignore p) s).2 = (exec p s).2 := by
  rw [StoreWrite.ignore, exec_bind]
  rcases exec p s with ⟨e | a, s'⟩ <;> rfl

theorem WritesOnly.ignore {t : Table} {p : DbIo α} (h : WritesOnly t p) :
    WritesOnly t (StoreWrite.ignore p) :=
  ⟨h.atomic.bind_pure _, h.sound.bind fun _ => .pure _, fun d t' ht => by
    rw [exec_ignore]
    exact h.frame d t' ht⟩

theorem quiet_tableCall (text : String) : Quiet (tableCall text : Io AnyError τ Unit) :=
  .onErr _ (.query _)

theorem plain_tableCall (text : String) : Plain (tableCall text : Io AnyError τ Unit) :=
  .onErr _ (.query _)

theorem allOrNothing_insertJson (id : UInt64) (value : ν) : AllOrNothing (insertJson id value) :=
  .bind (quiet_tableCall _) fun _ => .bind (quiet_tableCall _) fun _ =>
    .bind (quiet_tableCall _) fun _ => .onErr _ (.final _)

theorem plain_insertJson (id : UInt64) (value : ν) : Plain (insertJson id value) :=
  .bind (plain_tableCall _) fun _ => .bind (plain_tableCall _) fun _ =>
    .bind (plain_tableCall _) fun _ => .onErr _ (.final _)

theorem allOrNothing_deleteJson (id : UInt64) :
    AllOrNothing (deleteJson id : Io AnyError (Std.ExtTreeMap UInt64 ν) Bool) :=
  .bind (quiet_tableCall _) fun _ => .bind (quiet_tableCall _) fun _ =>
    .bind (.onErr _ (.query _)) fun _ => .bind_pure _ (.onErr _ (.final _))

theorem plain_deleteJson (id : UInt64) :
    Plain (deleteJson id : Io AnyError (Std.ExtTreeMap UInt64 ν) Bool) :=
  .bind (plain_tableCall _) fun _ => .bind (plain_tableCall _) fun _ =>
    .bind (.onErr _ (.query _)) fun _ => .bind (.onErr _ (.final _)) fun _ => .pure _

theorem allOrNothing_addLaunch (gameId count : UInt64) : AllOrNothing (addLaunch gameId count) :=
  .bind (quiet_tableCall _) fun _ => .bind (quiet_tableCall _) fun _ =>
    .bind (.onErr _ (.query _)) fun _ => .bind (quiet_tableCall _) fun _ =>
      .bind_pure _ (.onErr _ (.final _))

theorem plain_addLaunch (gameId count : UInt64) : Plain (addLaunch gameId count) :=
  .bind (plain_tableCall _) fun _ => .bind (plain_tableCall _) fun _ =>
    .bind (.onErr _ (.query _)) fun _ => .bind (plain_tableCall _) fun _ =>
      .bind (.onErr _ (.final _)) fun _ => .pure _

theorem allOrNothing_bind (kind : String) (a b : UInt64) : AllOrNothing (bind kind a b) :=
  .bind (quiet_tableCall _) fun _ => .bind (quiet_tableCall _) fun _ =>
    .bind (quiet_tableCall _) fun _ => .onErr _ (.final _)

theorem plain_bind (kind : String) (a b : UInt64) : Plain (bind kind a b) :=
  .bind (plain_tableCall _) fun _ => .bind (plain_tableCall _) fun _ =>
    .bind (plain_tableCall _) fun _ => .onErr _ (.final _)

theorem allOrNothing_recordChunkHolder (nodeId gameId : UInt64) (hash : Bytes) :
    AllOrNothing (Store.recordChunkHolder nodeId gameId hash) := by
  refine .bind (quiet_call _) fun _ => .bind (quiet_call _) fun _ => .bind (quiet_look _ _)
    fun held => ?_
  dsimp only
  split_ifs
  · exact allOrNothing_storeCommit _ _
  · exact .bind (quiet_call _) fun _ => allOrNothing_storeCommit _ _

theorem plain_recordChunkHolder (nodeId gameId : UInt64) (hash : Bytes) :
    Plain (Store.recordChunkHolder nodeId gameId hash) := by
  refine .bind (plain_call _) fun _ => .bind (plain_call _) fun _ => .bind (plain_look _ _)
    fun held => ?_
  dsimp only
  split_ifs
  · exact plain_storeCommit _ _
  · exact .bind (plain_call _) fun _ => plain_storeCommit _ _

/-- A ledger entry leaves the tables but `chunks`. -/
theorem exec_recordChunkHolder (nodeId gameId : UInt64) (hash : Bytes) (s : Sched) :
    ∃ chunks, (exec (Store.recordChunkHolder nodeId gameId hash) s).2
      = { s with chunks := chunks } := by
  simp only [Store.recordChunkHolder, exec_bind, exec_storeCall, exec_storeLook]
  split_ifs
  · exact ⟨s.chunks, rfl⟩
  · exact ⟨_, rfl⟩

/-- A transaction on a part of the database that belongs to one table. -/
theorem WritesOnly.zoom {t : Table} {get : Db → τ} {put : τ → Db → Db}
    (hput : ∀ d, put (get d) d = d)
    (hframe : ∀ (d : Db) (v : τ) (t' : Table), t' ≠ t → (put v d).rows t' = d.rows t')
    {p : Io AnyError τ α} (ha : AllOrNothing p) (hp : Plain p) :
    WritesOnly t (Io.zoom get put p) :=
  ⟨ha.zoom hput, hp.sound.zoom, fun d t' ht => hframe d _ t' ht⟩

theorem writesOnly_onUsers {p : Io AnyError (Std.ExtTreeMap UInt64 UserRecord) α}
    (ha : AllOrNothing p) (hp : Plain p) : WritesOnly .users (Db.onUsers p) :=
  .zoom (fun _ => rfl) (fun d v t' ht => by cases t' <;> first | rfl | exact absurd rfl ht) ha hp

theorem writesOnly_onPlaces {p : Io AnyError (Std.ExtTreeMap UInt64 PlaceRecord) α}
    (ha : AllOrNothing p) (hp : Plain p) : WritesOnly .places (Db.onPlaces p) :=
  .zoom (fun _ => rfl) (fun d v t' ht => by cases t' <;> first | rfl | exact absurd rfl ht) ha hp

theorem writesOnly_onGroups {p : Io AnyError (Std.ExtTreeMap UInt64 GroupRecord) α}
    (ha : AllOrNothing p) (hp : Plain p) : WritesOnly .groups (Db.onGroups p) :=
  .zoom (fun _ => rfl) (fun d v t' ht => by cases t' <;> first | rfl | exact absurd rfl ht) ha hp

theorem writesOnly_onBindings {p : Io AnyError (Std.ExtTreeMap String UInt64) α}
    (ha : AllOrNothing p) (hp : Plain p) : WritesOnly .bindings (Db.onBindings p) :=
  .zoom (fun _ => rfl) (fun d v t' ht => by cases t' <;> first | rfl | exact absurd rfl ht) ha hp

theorem writesOnly_onHeat {p : Io AnyError (Std.ExtTreeMap String UInt64) α}
    (ha : AllOrNothing p) (hp : Plain p) : WritesOnly .heat (Db.onHeat p) :=
  .zoom (fun _ => rfl) (fun d v t' ht => by cases t' <;> first | rfl | exact absurd rfl ht) ha hp

theorem writesOnly_onAudits {p : Io AnyError (Std.ExtTreeMap UInt64 AuditRecord) α}
    (ha : AllOrNothing p) (hp : Plain p) : WritesOnly .audits (Db.onAudits p) :=
  .zoom (fun _ => rfl) (fun d v t' ht => by cases t' <;> first | rfl | exact absurd rfl ht) ha hp

/-- A transaction on the tables of `Sched`. -/
theorem writesOnly_onSched {t : Table} {p : SchedIo α} (ha : AllOrNothing p) (hp : Plain p)
    (hframe : ∀ (d : Db) (t' : Table), t' ≠ t →
      Db.rows { d with sched := (exec p d.sched).2 } t' = d.rows t') :
        WritesOnly t (Db.onSched p) :=
  ⟨ha.zoom fun _ => rfl, hp.sound.zoom, hframe⟩

theorem writesOnly_nextId (counter : String) :
    WritesOnly .counters (Db.onSched (Store.nextId counter)) := by
  refine writesOnly_onSched (allOrNothing_nextId counter) (plain_nextId counter) fun d t' ht => ?_
  cases t' <;> first | rfl | exact absurd rfl ht

/-- Every write of the store is about its table. -/
theorem writesOnly_transaction (w : StoreWrite) : WritesOnly w.table w.transaction := by
  cases w with
  | nextId counter => exact (writesOnly_nextId counter).ignore
  | insertNode node =>
    refine writesOnly_onSched (allOrNothing_insertNode node) (plain_insertNode node)
      fun d t' ht => ?_
    cases t' <;> first | rfl | exact absurd rfl ht
  | insertTask task =>
    refine writesOnly_onSched (allOrNothing_insertTask task) (plain_insertTask task)
      fun d t' ht => ?_
    cases t' <;> first | rfl | exact absurd rfl ht
  | updateTaskStatus id status error =>
    refine (writesOnly_onSched (allOrNothing_updateTaskStatus id status error)
      (plain_updateTaskStatus id status error) fun d t' ht => ?_).ignore
    rw [exec_updateTaskStatus]
    rcases d.sched.tasks[id]? with _ | task
    · rfl
    · cases t' <;> first | rfl | exact absurd rfl ht
  | recordChunkHolder nodeId gameId hash =>
    refine writesOnly_onSched (allOrNothing_recordChunkHolder nodeId gameId hash)
      (plain_recordChunkHolder nodeId gameId hash) fun d t' ht => ?_
    obtain ⟨chunks, h⟩ := exec_recordChunkHolder nodeId gameId hash d.sched
    rw [h]
    cases t' <;> first | rfl | exact absurd rfl ht
  | addLaunch gameId count =>
    exact (writesOnly_onHeat (allOrNothing_addLaunch gameId count)
      (plain_addLaunch gameId count)).ignore
  | insertUser user =>
    exact writesOnly_onUsers (allOrNothing_insertJson _ user) (plain_insertJson _ user)
  | deleteUser id => exact (writesOnly_onUsers (allOrNothing_deleteJson id)
    (plain_deleteJson id)).ignore
  | insertPlace place =>
    exact writesOnly_onPlaces (allOrNothing_insertJson _ place) (plain_insertJson _ place)
  | deletePlace id =>
    exact (writesOnly_onPlaces (allOrNothing_deleteJson id) (plain_deleteJson id)).ignore
  | insertGroup group =>
    exact writesOnly_onGroups (allOrNothing_insertJson _ group) (plain_insertJson _ group)
  | deleteGroup id =>
    exact (writesOnly_onGroups (allOrNothing_deleteJson id) (plain_deleteJson id)).ignore
  | insertGame game =>
    refine writesOnly_onSched (allOrNothing_insertGame game) (plain_insertGame game)
      fun d t' ht => ?_
    cases t' <;> first | rfl | exact absurd rfl ht
  | deleteGame id =>
    refine (writesOnly_onSched (allOrNothing_deleteGame id) (plain_deleteGame id)
      fun d t' ht => ?_).ignore
    cases t' <;> first | rfl | exact absurd rfl ht
  | saveVersion gameId version manifest =>
    refine writesOnly_onSched (allOrNothing_saveVersion manifest) (plain_saveVersion manifest)
      fun d t' ht => ?_
    cases t' <;> first | rfl | exact absurd rfl ht
  | bind kind a b => exact writesOnly_onBindings (allOrNothing_bind kind a b) (plain_bind kind a b)
  | insertAudit record =>
    exact writesOnly_onAudits (allOrNothing_insertJson _ record) (plain_insertJson _ record)

end Writes

section Lists

variable {τ α : Type}

theorem quiet_listTable (opening iterating item : String) (rows : τ → List α) :
    Quiet (listTable opening iterating item rows) :=
  .bind (quiet_tableCall _) fun _ => .bind (quiet_tableCall _) fun _ => .bind (.onErr _ (.query _))
    fun _ => .bind (.each (fun _ => quiet_tableCall _) _) fun _ => .pure _

theorem plain_listTable (opening iterating item : String) (rows : τ → List α) :
    Plain (listTable opening iterating item rows) :=
  .bind (plain_tableCall _) fun _ => .bind (plain_tableCall _) fun _ => .bind (.onErr _ (.query _))
    fun _ => .bind (.each (fun _ => plain_tableCall _) _) fun _ => .pure _

theorem exec_listTable (opening iterating item : String) (rows : τ → List α) (v : τ) :
    exec (listTable opening iterating item rows) v = (.ok (rows v), v) := by
  have hcall : ∀ text, exec (tableCall text : Io AnyError τ Unit) v = (.ok (), v) := fun _ => rfl
  have hrows : exec (context iterating (query fun t => .ok (rows t))) v = (.ok (rows v), v) := rfl
  simp only [listTable, exec_bind, hcall, hrows, exec_each_idle fun _ => hcall item, exec_pure]

theorem quiet_onSched {p : SchedIo α} (hp : Quiet p) : Quiet (Db.onSched p) := hp.zoom fun _ => rfl

theorem sound_onSched {p : SchedIo α} (hp : Plain p) : Sound (Db.onSched p) := hp.sound.zoom

theorem quiet_list : (t : Table) → Quiet (Db.list t)
  | .nodes => quiet_onSched quiet_listNodes
  | .tasks => quiet_onSched quiet_listTasks
  | .users | .places | .groups | .bindings | .games | .versions | .chunks | .heat | .counters
  | .audits => quiet_listTable _ _ _ _

theorem sound_list : (t : Table) → Sound (Db.list t)
  | .nodes => sound_onSched plain_listNodes
  | .tasks => sound_onSched plain_listTasks
  | .users | .places | .groups | .bindings | .games | .versions | .chunks | .heat | .counters
  | .audits => (plain_listTable _ _ _ _).sound

/-- A table is read as it stands. -/
theorem exec_list (d : Db) : (t : Table) → exec (Db.list t) d = (.ok (d.rows t), d)
  | .nodes => by
    rw [Db.list, Db.onSched, exec_zoom, exec_listNodes]
    rfl
  | .tasks => by
    rw [Db.list, Db.onSched, exec_zoom, exec_listTasks]
    rfl
  | .users | .places | .groups | .bindings | .games | .versions | .chunks | .heat | .counters
  | .audits => exec_listTable _ _ _ _ _

end Lists

section Moments

/-- The contents of all the tables at some moment. -/
abbrev Moment := (t : Table) → t.Rows

def Moment.snapshot (m : Moment) (read : List Table) : Snapshot := read.map fun t => ⟨t, m t⟩

variable (M : Moment → Prop) (i : ℕ)

/-- What there is to say of backup `i`: one of the moments `M` has all that was taken, and the
tables that are left as they stand. -/
def BackupJob.Traces (d : Db) (k : ℕ) : BackupJob → Prop
  | .reading _ _ taken left => k = i → ∃ m read, M m ∧ taken = Moment.snapshot m read
    ∧ read ++ left = backupOrder ∧ ∀ t ∈ left, m t = d.rows t
  | .written _ snapshot => k = i → ∃ m, M m ∧ snapshot = Moment.snapshot m backupOrder
  | _ => True

/-- The present is one of the moments. -/
def Present (d : Db) : Prop := M d.rows

variable {M i} {s : Jobs Db BackupJob} {k : ℕ} {j j' : BackupJob} {d : Db}
  {faults : List (Fault AnyError)}

/-- A write as a job's next transaction. -/
theorem lands_write (h : Held (Present M) (BackupJob.Traces M i) s) (hj : s.jobs[k]? = some j)
    {α : Type} {t : Table} {p : DbIo α} (hp : WritesOnly t p) {next : Except AnyError α → BackupJob}
    (hnext : j.next = transact p next) (htraces : ∀ r d, (next r).Traces M i d k)
    (huntorn : ∀ dir timestamp taken left, s.jobs[i]? = some (.reading dir timestamp taken left) →
      t ∈ left → ∀ e ∈ taken, s.shared.rows e.1 = e.2)
    (hpresent : Present M (dbSystem.apply s (.go k faults)).shared) :
    Lands (Present M) (BackupJob.Traces M i) s k j (j.next.run ⟨s.shared, faults⟩) := by
  have happly : ∀ r w, (transact p next).run ⟨s.shared, faults⟩ = (.ok r, w) →
      (dbSystem.apply s (.go k faults)).shared = w.state := by
    intro r w hr
    have hr : (dbSystem.next k j).run ⟨s.shared, faults⟩ = (.ok r, w) := by
      change j.next.run _ = _
      rw [hnext, hr]
    simp only [JobSystem.apply, hj, hr]
  rw [hnext]
  rcases run_transact_cases hp.atomic hp.sound next s.shared faults with ⟨a, fs, hr, -⟩ |
    ⟨e, fs, hr, -⟩ | ⟨fs, hr⟩
  · have hshared := happly _ _ hr
    rw [hr]
    rw [hshared] at hpresent
    refine ⟨⟨hpresent, fun k' j' hk' hj' => ?_⟩, htraces _ _⟩
    have hold := h.job k' j' hj'
    cases j' with
    | reading dir timestamp taken left =>
      rintro rfl
      obtain ⟨m, read, hm, htaken, horder, hleft⟩ := hold rfl
      by_cases ht : t ∈ left
      · -- the present becomes the moment
        refine ⟨_, read, hpresent, ?_, horder, fun _ _ => rfl⟩
        rw [htaken]
        refine List.map_congr_left fun t' ht' => ?_
        have hread : s.shared.rows t' = m t' := huntorn dir timestamp taken left hj' ht ⟨t', m t'⟩
          (by rw [htaken]; exact List.mem_map.2 ⟨t', ht', rfl⟩)
        have hne : t' ≠ t := by
          rintro rfl
          have hnd : (read ++ left).Nodup := by rw [horder]; decide
          exact (List.nodup_append.1 hnd).2.2 t' ht' t' ht rfl
        rw [hp.frame s.shared t' hne, hread]
      · refine ⟨m, read, hm, htaken, horder, fun t' ht' => ?_⟩
        rw [hleft t' ht', hp.frame s.shared t' (by rintro rfl; exact ht ht')]
    | written path snapshot => exact hold
    | _ => trivial
  · rw [hr]
    exact ⟨h.undisturbed k, htraces _ _⟩
  · rw [hr]
    exact h.shared

theorem rows_restart (d : Db) : (dbSystem.restart d).rows = d.rows := by
  funext t
  cases t <;> rfl

/-- Every move keeps a moment for the backup, while it is not torn. -/
theorem dbSystem_keeping : Keeping dbSystem (Present M) (BackupJob.Traces M i)
    fun s m => UntornFor i s m ∧ Present M (dbSystem.apply s m).shared where
  start s r _ := by cases r <;> trivial
  env _ e := nomatch e
  restart d h := by rwa [Present, rows_restart]
  go s k j faults h hj hC := by
    obtain ⟨huntorn, hpresent⟩ := hC
    change Lands _ _ _ _ _ (j.next.run _)
    have huntorn := huntorn j
    cases j with
    | opening dir timestamp =>
      refine h.lookup (quiet_tableCall _) (plain_tableCall _).sound (fun a _ => ?_) fun _ _ =>
        trivial
      exact fun _ => ⟨s.shared.rows, [], h.shared, rfl, rfl, fun _ _ => rfl⟩
    | reading dir timestamp taken left =>
      have hold := h.job k _ hj
      rcases left with _ | ⟨t, left⟩
      · refine h.lookup (quiet_tableCall _) (plain_tableCall _).sound (fun a _ => ?_)
          fun _ _ => trivial
        intro hk
        obtain ⟨m, read, hm, htaken, horder, -⟩ := hold hk
        rw [List.append_nil] at horder
        exact ⟨m, hm, by rw [htaken, horder]⟩
      · refine h.lookup (quiet_list t) (sound_list t) (fun a ha => ?_) fun _ _ => trivial
        intro hk
        obtain ⟨m, read, hm, htaken, horder, hleft⟩ := hold hk
        rw [exec_list] at ha
        obtain rfl : s.shared.rows t = a := Except.ok.inj ha
        refine ⟨m, read ++ [t], hm, ?_, by simpa using horder, fun t' ht' =>
          hleft t' (List.mem_cons_of_mem _ ht')⟩
        rw [htaken, Moment.snapshot, Moment.snapshot, List.map_append, List.map_singleton,
          hleft t List.mem_cons_self]
    | written path snapshot => exact h.pure (h.job k _ hj)
    | failed e => exact h.pure trivial
    | finished => exact h.pure trivial
    | writing w =>
      refine lands_write h hj (writesOnly_transaction w) rfl (fun r d => ?_)
        (fun dir timestamp taken left => huntorn _ _ _ _ _ hj rfl) hpresent
      rcases r with e | u <;> trivial
    | auditing timeMs actor action detail =>
      refine lands_write h hj (writesOnly_nextId _) rfl (fun r d => ?_)
        (fun dir timestamp taken left => huntorn _ _ _ _ _ hj rfl) hpresent
      rcases r with e | id <;> trivial

/-- While it is not torn, a backup writes what all the tables held at one moment since its start. -/
theorem backup_one_moment (s : Jobs Db BackupJob) (i : ℕ) (dir : String) (timestamp : UInt64)
    (hstart : s.jobs[i]? = some (.opening dir timestamp))
    (moves : List (Move AnyError BackupRequest Empty)) (hrun : dbSystem.Along (UntornFor i) s moves)
    (path : String) (snapshot : Snapshot)
    (hend : (dbSystem.run s moves).jobs[i]? = some (.written path snapshot)) :
    ∃ n ≤ moves.length, snapshot = (dbSystem.run s (moves.take n)).shared.content := by
  set M : Moment → Prop := fun m =>
    ∃ n ≤ moves.length, m = (dbSystem.run s (moves.take n)).shared.rows with hM
  have hvisited : dbSystem.Along (fun s m => Present M (dbSystem.apply s m).shared) s moves :=
    JobSystem.along_visited moves s fun n hn => ⟨n, hn, rfl⟩
  have hheld : Held (Present M) (BackupJob.Traces M i) s := by
    refine ⟨⟨0, Nat.zero_le _, rfl⟩, fun k j hj => ?_⟩
    by_cases hk : k = i
    · subst hk
      obtain rfl := Option.some.inj (hstart.symm.trans hj)
      trivial
    · cases j with
      | reading _ _ _ _ => exact fun h => absurd h hk
      | written _ _ => exact fun h => absurd h hk
      | _ => trivial
  obtain ⟨m, ⟨n, hn, rfl⟩, hsnapshot⟩ :=
    (dbSystem_keeping.run moves s hheld (hrun.and hvisited)).job i _ hend rfl
  exact ⟨n, hn, hsnapshot⟩

end Moments

section Example

/-- A backup of empty tables that is about to start. -/
def aboutToBackUp : Jobs Db BackupJob := ⟨.empty, [.opening "b" 0]⟩

/-- A job's next transaction is no write, or writes a table that the first job does not have yet to
read. -/
def behindFirst (s : Jobs Db BackupJob) : Move AnyError BackupRequest Empty → Bool
  | .go k _ => match s.jobs[k]?.bind BackupJob.writesTo, s.jobs[0]? with
    | some t, some (BackupJob.reading _ _ _ left) => !left.contains t
    | _, _ => true
  | _ => true

theorem untornFor_of_behindFirst {s : Jobs Db BackupJob} {m : Move AnyError BackupRequest Empty}
    (h : behindFirst s m = true) : UntornFor 0 s m := by
  cases m with
  | go k faults =>
    intro j t dir timestamp taken left hj hwrites hfirst ht
    simp only [behindFirst, hj, Option.bind_some, hwrites, hfirst, Bool.not_eq_eq_eq_not,
      Bool.not_true,
      List.contains_eq_mem, decide_eq_false_iff_not] at h
    exact absurd ht h
  | _ => trivial

/-- The node is written after the nodes have been read. -/
def writtenBehind : List (Move AnyError BackupRequest Empty) :=
  [.start (.write (.insertNode (cafeNode "online"))), .go 0 [], .go 0 [], .go 1 []]
    ++ List.replicate 12 (.go 0 [])

theorem backup_one_moment_behind :
    ∃ n ≤ writtenBehind.length, (Db.empty.content : Snapshot)
      = (dbSystem.run aboutToBackUp (writtenBehind.take n)).shared.content :=
  have hcalm : dbSystem.Along (fun s m => behindFirst s m = true) aboutToBackUp writtenBehind := by
    decide +kernel
  backup_one_moment aboutToBackUp 0 "b" 0 rfl writtenBehind
    (hcalm.mono fun _ _ => untornFor_of_behindFirst) "b/scheduler-0.json" _ (by decide +kernel)

/-- The node and then a task for it are written between the reads of the nodes and of the tasks. -/
def tornMoves : List (Move AnyError BackupRequest Empty) :=
  [.go 0 [], .go 0 [], .start (.write (.insertNode (cafeNode "online"))), .go 1 [],
    .start (.write (.insertTask ⟨1, 1, 1, 1, "DOWNLOAD", [], "queued", ""⟩)), .go 2 []]
    ++ List.replicate 12 (.go 0 [])

/-- The snapshot has the task without its node, which no moment has. -/
theorem backup_torn : match (dbSystem.run aboutToBackUp tornMoves).jobs[0]? with
    | some (BackupJob.written _ snapshot) => ∀ n ≤ tornMoves.length,
      snapshot ≠ (dbSystem.run aboutToBackUp (tornMoves.take n)).shared.content
    | _ => False := by
  have hend : (dbSystem.run aboutToBackUp tornMoves).jobs[0]? = some (.written "b/scheduler-0.json"
      ((dbSystem.run aboutToBackUp tornMoves).shared.content.set 0 ⟨.nodes, []⟩)) := by
    decide +kernel
  rw [hend]
  decide +kernel

end Example

end BlazeNet

import BlazeNet.NodeJobs
import BlazeNet.Proofs.NodeStatus

/-!
# Heartbeat times under interleavings

A job that is about to write a record relies on the time in it: a heartbeat's is not before the
stored one, a tick's is the stored one (`NodeJob.Relies`). Only a heartbeat's or registration's
write of a later time can take that away from another job, so while these are written last no stored
time goes back (`nodeSystem_keeping`).
-/

namespace BlazeNet

open Wire FaultIo Io RustStd

variable {Addr : Type}

section Invariant

/-- Every node is kept under its id, no time is ahead of the clock, and a node with a floor has a
time that is not below it. -/
structure NodesOk (floor : UInt64 → Option UInt64) (s : NodeShared) : Prop where
  keyed : ∀ (id : UInt64) (n : NodeRecord), s.sched.nodes[id]? = some n → n.id = id
  past : ∀ (id : UInt64) (n : NodeRecord), s.sched.nodes[id]? = some n →
    n.lastHeartbeatMs ≤ s.clock
  floor : ∀ id v, floor id = some v →
    ∃ n : NodeRecord, s.sched.nodes[id]? = some n ∧ v ≤ n.lastHeartbeatMs

/-- The record that a tick is about to write has the stored time. -/
def NodeShared.Current (s : NodeShared) (node : NodeRecord) : Prop :=
  ∃ stored : NodeRecord, s.sched.nodes[node.id]? = some stored
    ∧ stored.lastHeartbeatMs = node.lastHeartbeatMs

/-- The record that a heartbeat is about to write has a time between the stored one and now. -/
structure NodeShared.Fresh (s : NodeShared) (node : NodeRecord) : Prop where
  past : node.lastHeartbeatMs ≤ s.clock
  stored : ∀ stored : NodeRecord, s.sched.nodes[node.id]? = some stored →
    stored.lastHeartbeatMs ≤ node.lastHeartbeatMs

/-- What a job relies on about the record it holds. -/
def NodeJob.Relies (s : NodeShared) (_ : ℕ) : NodeJob Addr → Prop
  | .beating node => s.Fresh node
  | .marked _ _ node _ => s.Current node
  | .synced node _ => s.Current node
  | _ => True

variable {floor : UInt64 → Option UInt64} {s : Jobs NodeShared (NodeJob Addr)} {i : ℕ}
  {node : NodeRecord}

theorem NodesOk.clock {s : NodeShared} (h : NodesOk floor s) {now : UInt64} (hnow : s.clock ≤ now) :
    NodesOk floor { s with clock := now } :=
  ⟨h.keyed, fun id n hn => UInt64.le_trans (h.past id n hn) hnow, h.floor⟩

/-- What a job relies on about a record it holds, whichever job it is. -/
theorem relies_holds {s : NodeShared} {k : ℕ} {j : NodeJob Addr} {held : NodeRecord}
    (hj : j.Relies s k) (hheld : j.holds = some held) :
    j = .beating held ∧ s.Fresh held ∨ s.Current held := by
  cases j <;> simp only [NodeJob.holds, Option.some.injEq, reduceCtorEq] at hheld
  · subst hheld
    exact .inl ⟨rfl, hj⟩
  · subst hheld
    exact .inr hj
  · subst hheld
    exact .inr hj

/-- A write of a time between the stored one and those that the other jobs hold. -/
theorem undisturbed_insert (h : Held (NodesOk floor) NodeJob.Relies s)
    (hfresh : s.shared.Fresh node)
    (hothers : ∀ k j held, k ≠ i → s.jobs[k]? = some j → j.holds = some held → held.id = node.id →
      node.lastHeartbeatMs ≤ held.lastHeartbeatMs) :
    Undisturbed (NodesOk floor) NodeJob.Relies s i { s.shared with
      sched := { s.shared.sched with nodes := s.shared.sched.nodes.insert node.id node } } := by
  refine ⟨⟨fun id n hn => ?_, fun id n hn => ?_, fun id v hv => ?_⟩, fun k j hk hj => ?_⟩
  · rw [lookup_insert] at hn
    split_ifs at hn with hid
    · rw [← Option.some.inj hn, hid]
    · exact h.shared.keyed id n hn
  · rw [lookup_insert] at hn
    split_ifs at hn with hid
    · rw [← Option.some.inj hn]
      exact hfresh.past
    · exact h.shared.past id n hn
  · obtain ⟨n, hn, hle⟩ := h.shared.floor id v hv
    simp only [lookup_insert]
    split_ifs with hid
    · subst hid
      exact ⟨node, rfl, UInt64.le_trans hle (hfresh.stored n hn)⟩
    · exact ⟨n, hn, hle⟩
  · have hrelies := h.job k j hj
    -- only a job that holds a record of the same node can be disturbed
    have hcurrent : ∀ held, j.holds = some held → s.shared.Current held →
        NodeShared.Current { s.shared with
          sched := { s.shared.sched with nodes := s.shared.sched.nodes.insert node.id node } }
          held := by
      rintro held hheld ⟨stored, hstored, htime⟩
      simp only [NodeShared.Current, lookup_insert]
      split_ifs with hid
      · have hle := hothers k j held hk hj hheld hid.symm
        have hge := hfresh.stored stored (hid ▸ hstored)
        exact ⟨node, rfl, UInt64.le_antisymm hle (htime ▸ hge)⟩
      · exact ⟨stored, hstored, htime⟩
    cases j with
    | beating held =>
      refine ⟨hrelies.past, fun stored hstored => ?_⟩
      rw [lookup_insert] at hstored
      split_ifs at hstored with hid
      · rw [← Option.some.inj hstored]
        exact hothers k _ held hk hj rfl hid.symm
      · exact hrelies.stored stored hstored
    | marked t keep held ids => exact hcurrent held rfl hrelies
    | synced held wants => exact hcurrent held rfl hrelies
    | _ => trivial

/-- A tick writes back the stored time, which disturbs nobody. -/
theorem undisturbed_insert_current (h : Held (NodesOk floor) NodeJob.Relies s)
    (hcurrent : s.shared.Current node) :
    Undisturbed (NodesOk floor) NodeJob.Relies s i { s.shared with
      sched := { s.shared.sched with nodes := s.shared.sched.nodes.insert node.id node } } := by
  obtain ⟨stored, hstored, htime⟩ := hcurrent
  refine undisturbed_insert h ⟨?_, fun stored' hstored' => ?_⟩ fun k j held _ hj hheld hid => ?_
  · rw [← htime]
    exact h.shared.past _ _ hstored
  · rw [← htime, Option.some.inj (hstored.symm.trans hstored')]
    exact UInt64.le_refl _
  · rcases relies_holds (h.job k j hj) hheld with ⟨-, hfresh⟩ | ⟨stored', hstored', htime'⟩
    · rw [← htime]
      exact hfresh.stored stored (hid ▸ hstored)
    · rw [hid] at hstored'
      rw [← htime, ← htime', Option.some.inj (hstored.symm.trans hstored')]
      exact UInt64.le_refl _

end Invariant

section Steps

variable {floor : UInt64 → Option UInt64} {s : Jobs NodeShared (NodeJob Addr)} {i : ℕ}
  {j : NodeJob Addr} {faults : List (Fault AnyError)} {α : Type}

theorem NodeJob.quiet_db {p : SchedIo α} (hp : Quiet p) : Quiet (NodeJob.db p) :=
  hp.zoom fun _ => rfl

theorem NodeJob.allOrNothing_db {p : SchedIo α} (hp : AllOrNothing p) :
    AllOrNothing (NodeJob.db p) := hp.zoom fun _ => rfl

theorem NodeJob.sound_db {p : SchedIo α} (hp : Plain p) : Sound (NodeJob.db p) := hp.sound.zoom

/-- A node that is read to get a status is the stored one. -/
theorem lands_readFor (h : Held (NodesOk floor) NodeJob.Relies s) (id : UInt64) (want : String)
    {found : NodeRecord → NodeJob Addr} {other : NodeJob Addr}
    (hfound : ∀ node, s.shared.Current node → (found node).Relies s.shared i)
    (hother : other.Relies s.shared i) :
    Lands (NodesOk floor) NodeJob.Relies s i j
      ((NodeJob.readFor id want found other).run ⟨s.shared, faults⟩) := by
  refine h.lookup (NodeJob.quiet_db (quiet_getNode id)) (NodeJob.sound_db (plain_getNode id))
    (fun a ha => ?_) fun _ _ => hother
  rcases a with _ | node
  · exact hother
  have hnode : s.shared.sched.nodes[id]? = some node := Except.ok.inj ha
  dsimp only
  split_ifs with hstatus
  · refine hfound _ ⟨node, ?_, rfl⟩
    rw [h.shared.keyed id node hnode]
    exact hnode
  · exact hother

/-- A job that has written the record it holds relies on nothing any more. -/
theorem lands_insert (h : Held (NodesOk floor) NodeJob.Relies s) {node : NodeRecord}
    (hwrite : Undisturbed (NodesOk floor) NodeJob.Relies s i { s.shared with
      sched := { s.shared.sched with nodes := s.shared.sched.nodes.insert node.id node } })
    {j' : NodeJob Addr} (hj' : ∀ t, j'.Relies t i) :
    Lands (NodesOk floor) NodeJob.Relies s i j
      ((transact (NodeJob.db (Store.insertNode node)) fun _ => j').run ⟨s.shared, faults⟩) :=
  h.transact (NodeJob.allOrNothing_db (allOrNothing_insertNode node))
    (NodeJob.sound_db (plain_insertNode node)) (fun _ _ => ⟨hwrite, hj' _⟩) fun _ _ => hj' _

variable [DecidableEq Addr]

/-- No move takes away what a job relies on, while later times are written last. -/
theorem nodeSystem_keeping (cfg : KeepConfig Addr) (floor : UInt64 → Option UInt64) :
    Keeping (nodeSystem cfg) (NodesOk floor) NodeJob.Relies LatestLast where
  start s r _ := by cases r <;> trivial
  env s now h _ := by
    dsimp only [nodeSystem]
    split_ifs with hnow
    · refine ⟨h.shared.clock hnow, fun k j hj => ?_⟩
      have hrelies := h.job k j hj
      cases j with
      | beating node => exact ⟨UInt64.le_trans hrelies.past hnow, hrelies.stored⟩
      | _ => exact hrelies
    · exact h
  restart t h := ⟨h.keyed, h.past, h.floor⟩
  go s i j faults h hj hlast := by
    change Lands _ _ _ _ _ ((j.next cfg).run _)
    cases j with
    | registering req =>
      rw [NodeJob.next]
      split_ifs
      · exact h.pure trivial
      · refine h.transact (NodeJob.allOrNothing_db (allOrNothing_nextId _))
          (NodeJob.sound_db (plain_nextId _)) (fun a _ => ⟨⟨⟨h.shared.keyed, h.shared.past,
            h.shared.floor⟩, fun k j' _ hk => ?_⟩, trivial⟩) fun _ _ => trivial
        have hrelies := h.job k j' hk
        cases j' with
        | beating node => exact ⟨hrelies.past, hrelies.stored⟩
        | _ => exact hrelies
    | named id req => exact h.pure trivial
    | heartbeat nodeId =>
      refine h.lookup (NodeJob.quiet_db (quiet_getNode nodeId))
        (NodeJob.sound_db (plain_getNode nodeId)) (fun a _ => ?_) fun _ _ => trivial
      rcases a with _ | node <;> trivial
    | stamping node =>
      exact h.pure (NodeShared.Fresh.mk (UInt64.le_refl _) fun stored hstored =>
        h.shared.past _ _ hstored)
    | beating node =>
      refine lands_insert h (undisturbed_insert h (h.job i _ hj) fun k j' held hk hj' hheld hid =>
        hlast node hj k j' held hk hj' hheld hid) fun _ => trivial
    | ticking t keep =>
      exact h.lookup (NodeJob.quiet_db (quiet_offlineNodes _ _))
        (NodeJob.sound_db (plain_offlineNodes _ _)) (fun _ _ => trivial) fun _ _ => trivial
    | marking t keep ids =>
      rcases ids with _ | ⟨id, ids⟩
      · exact h.lookup (NodeJob.quiet_db quiet_listNodes) (NodeJob.sound_db plain_listNodes)
          (fun _ _ => trivial) fun _ _ => trivial
      · rw [NodeJob.next]
        exact lands_readFor h id "offline" (fun _ hnode => hnode) trivial
    | marked t keep node ids =>
      exact lands_insert h (undisturbed_insert_current h (h.job i _ hj)) fun _ => trivial
    | syncing wants =>
      rcases wants with _ | ⟨⟨id, want⟩, wants⟩
      · exact h.pure trivial
      · rw [NodeJob.next]
        exact lands_readFor h id want (fun _ hnode => hnode) trivial
    | synced node wants =>
      exact lands_insert h (undisturbed_insert_current h (h.job i _ hj)) fun _ => trivial
    | finished => exact h.pure trivial

end Steps

section Runs

theorem held_noNodes : Held (NodesOk fun _ => none) NodeJob.Relies
    (noNodes : Jobs NodeShared (NodeJob Addr)) :=
  ⟨⟨by simp [noNodes, Sched.empty], by simp [noNodes, Sched.empty], by simp⟩,
    fun k j hk => by simp [noNodes] at hk⟩

/-- The times that are stored now are a floor for what follows. -/
theorem held_floor_now {s : Jobs NodeShared (NodeJob Addr)} {floor : UInt64 → Option UInt64}
    (h : Held (NodesOk floor) NodeJob.Relies s) :
    Held (NodesOk fun id => (s.shared.sched.nodes[id]?).map (·.lastHeartbeatMs)) NodeJob.Relies s :=
  ⟨⟨h.shared.keyed, h.shared.past, fun id v hv => by
    obtain ⟨n, hn, rfl⟩ := Option.map_eq_some_iff.1 hv
    exact ⟨n, hn, UInt64.le_refl _⟩⟩, h.job⟩

variable [DecidableEq Addr] (cfg : KeepConfig Addr)

/-- In a run from empty tables in which no later time is written while another job holds an earlier
one, the stored time of a node never goes back. -/
theorem nodeSystem_times_grow (moves more : List (Move AnyError (NodeRequest Addr) UInt64))
    (hrun : (nodeSystem cfg).Along LatestLast noNodes (moves ++ more)) (id : UInt64)
    (node : NodeRecord)
    (hnode : ((nodeSystem cfg).run noNodes moves).shared.sched.nodes[id]? = some node) :
    ∃ node', ((nodeSystem cfg).run noNodes (moves ++ more)).shared.sched.nodes[id]? = some node'
      ∧ node.lastHeartbeatMs ≤ node'.lastHeartbeatMs := by
  rw [JobSystem.along_append] at hrun
  have hfirst := (nodeSystem_keeping cfg fun _ => none).run moves noNodes held_noNodes hrun.1
  have hsecond := (nodeSystem_keeping cfg _).run more _ (held_floor_now hfirst) hrun.2
  rw [JobSystem.run_append]
  exact hsecond.shared.floor id _ (by rw [hnode]; rfl)

end Runs

section Whole

open KeepSys

variable [DecidableEq Addr] (cfg : KeepConfig Addr) (clock : UInt64) (done : List (NodeJob Addr))

/-- The jobs after a whole event: its own has ended, or the process is a new one. -/
def settledJobs : Except (Stop AnyError) Unit × World AnyError (KeepSys Addr) →
    Jobs NodeShared (NodeJob Addr)
  | (.error .killed, w) => ⟨⟨w.state.restart.sched, clock⟩, []⟩
  | (_, w) => ⟨⟨w.state.sched, clock⟩, done ++ [.finished]⟩

/-- Whatever faults there are, a job that is alone with the tables comes to where the program
does. -/
def Paces (j : NodeJob Addr) (p : KeepIo Addr Unit) (s : KeepSys Addr) : Prop :=
  ∀ faults, ∃ moves, (nodeSystem cfg).run ⟨⟨s.sched, clock⟩, done ++ [j]⟩ moves
    = settledJobs clock done (p.run ⟨s, faults⟩)

variable {α : Type} {cfg clock done} {j j' : NodeJob Addr} {s : KeepSys Addr}
  {rest : KeepIo Addr Unit}

theorem paces_finished (s : KeepSys Addr) : Paces cfg clock done .finished (pure ()) s :=
  fun _ => ⟨[], rfl⟩

theorem paces_stop (e : AnyError) (s : KeepSys Addr) :
    Paces cfg clock done .finished (stop (.err e)) s := fun _ => ⟨[], rfl⟩

/-- A step in the memory of the job. -/
theorem Paces.memory (hj : (j.next cfg).run ⟨⟨s.sched, clock⟩, []⟩
    = (.ok j', ⟨⟨s.sched, clock⟩, []⟩)) (h : Paces cfg clock done j' rest s) :
    Paces cfg clock done j rest s := by
  intro faults
  obtain ⟨moves, hmoves⟩ := h faults
  refine ⟨.go done.length [] :: moves, ?_⟩
  rw [JobSystem.run_cons, JobSystem.apply_last_ok hj, hmoves]

/-- A transaction whose error the program takes in. -/
theorem Paces.transaction {q : SchedIo α} {k : Except AnyError α → NodeJob Addr}
    {f : Except AnyError α → KeepIo Addr Unit} (hj : j.next cfg = transact (NodeJob.db q) k)
    (h : ∀ r sched, Paces cfg clock done (k r) (f r) { s with sched := sched }) :
    Paces cfg clock done j (attempt (db q) >>= f) s := by
  intro faults
  have hnext : (j.next cfg).run ⟨⟨s.sched, clock⟩, faults⟩
      = (transact (NodeJob.db q) k).run ⟨⟨s.sched, clock⟩, faults⟩ := by rw [hj]
  have hgo : ∀ r sched' fs, (j.next cfg).run ⟨⟨s.sched, clock⟩, faults⟩
        = (.ok (k r), ⟨⟨sched', clock⟩, fs⟩) →
      (attempt (db q) >>= f).run ⟨s, faults⟩ = (f r).run ⟨{ s with sched := sched' }, fs⟩ →
      ∃ moves, (nodeSystem cfg).run ⟨⟨s.sched, clock⟩, done ++ [j]⟩ moves
        = settledJobs clock done ((attempt (db q) >>= f).run ⟨s, faults⟩) := by
    intro r sched' fs hjob hprog
    obtain ⟨moves, hmoves⟩ := h r sched' fs
    refine ⟨.go done.length faults :: moves, ?_⟩
    rw [JobSystem.run_cons, JobSystem.apply_last_ok hjob, hprog, hmoves]
  rcases hq : q.run ⟨s.sched, faults⟩ with ⟨(e | _) | a, w⟩
  · refine hgo (.error e) w.state w.faults ?_ ?_
    · rw [hnext]
      simp only [transact, run_bind, run_attempt, NodeJob.db, zoom, hq]
      rfl
    · simp only [run_bind, run_attempt, db, zoom, hq]
  · refine ⟨[.go done.length faults], ?_⟩
    have hkilled : (j.next cfg).run ⟨⟨s.sched, clock⟩, faults⟩
        = (.error .killed, ⟨⟨w.state, clock⟩, w.faults⟩) := by
      rw [hnext]
      simp only [transact, run_bind, run_attempt, NodeJob.db, zoom, hq]
    rw [JobSystem.run_cons, JobSystem.apply_last_killed hkilled]
    simp only [run_bind, run_attempt, db, zoom, hq]
    rfl
  · refine hgo (.ok a) w.state w.faults ?_ ?_
    · rw [hnext]
      simp only [transact, run_bind, run_attempt, NodeJob.db, zoom, hq]
      rfl
    · simp only [run_bind, run_attempt, db, zoom, hq]

/-- What the program only notes down. -/
theorem Paces.noted {g : KeepSys Addr → KeepSys Addr} (hg : (g s).sched = s.sched)
    (h : Paces cfg clock done j rest (g s)) :
    Paces cfg clock done j (modify g >>= fun _ => rest) s := by
  intro faults
  obtain ⟨moves, hmoves⟩ := h faults
  exact ⟨moves, by rw [← hg]; exact hmoves⟩

theorem Paces.insertNode {node : NodeRecord} {f : Except AnyError Unit → KeepIo Addr Unit}
    (hj : j.next cfg = transact (NodeJob.db (Store.insertNode node)) fun _ => j')
    (h : ∀ r s', s'.prober = s.prober → Paces cfg clock done j' (f r) s') :
    Paces cfg clock done j (attempt (KeepSys.insertNode node) >>= f) s := by
  rw [KeepSys.insertNode, attempt_bind, bind_assoc]
  refine .transaction hj fun r sched => ?_
  rcases r with e | ⟨⟩
  · exact h _ _ rfl
  · exact .noted (g := note _) rfl (h _ _ rfl)

/-- A node is read for a status, and written back with it. -/
theorem Paces.setStatus {id : UInt64} {want : String} {found : NodeRecord → NodeJob Addr}
    (hj : j.next cfg = NodeJob.readFor id want found j')
    (hfound : ∀ node, (found node).next cfg
      = transact (NodeJob.db (Store.insertNode node)) fun _ => j')
    (h : ∀ s', s'.prober = s.prober → Paces cfg clock done j' rest s') :
    Paces cfg clock done j (KeepSys.setStatus id want >>= fun _ => rest) s := by
  rw [KeepSys.setStatus, bind_assoc]
  refine .transaction hj fun r sched => ?_
  rcases r with e | _ | node
  · exact h _ rfl
  · exact h _ rfl
  · dsimp only
    split_ifs with hne
    · rw [bind_assoc]
      exact .insertNode (hfound _) fun _ s' hs' => h s' hs'
    · exact h _ rfl

theorem Paces.get {f : KeepSys Addr → KeepIo Addr Unit} (h : Paces cfg clock done j (f s) s) :
    Paces cfg clock done j (Io.get >>= f) s := h

theorem paces_syncing {keep : Prober Addr} : ∀ (es : List (Addr × UInt64 × UInt32))
    (s : KeepSys Addr), s.prober = keep → Paces cfg clock done
      (.syncing (es.map fun e => (e.2.1, if keep.available e.1 then "online" else "offline")))
      (each syncStatus es) s
  | [], s, _ => .memory rfl (paces_finished s)
  | e :: es, s, hs => by
    have hnext : ∀ want wants, NodeJob.next cfg (.syncing ((e.2.1, want) :: wants))
        = NodeJob.readFor e.2.1 want (fun node => .synced node wants) (.syncing wants) :=
      fun _ _ => rfl
    subst hs
    rw [each_cons, syncStatus, bind_assoc, List.map_cons]
    exact .get (.setStatus (hnext _ _) (fun _ => rfl) fun s' hs' => paces_syncing es s' hs')

theorem paces_marking {t : Tick Addr} {keep : Prober Addr} : ∀ (ids : List UInt64)
    (s : KeepSys Addr),
    (∀ s', s'.prober = s.prober → Paces cfg clock done (.marking t keep []) rest s') →
    Paces cfg clock done (.marking t keep ids)
      (each (fun id => KeepSys.setStatus id "offline") ids >>= fun _ => rest) s
  | [], s, h => h s rfl
  | id :: ids, s, h => by
    have hnext : NodeJob.next cfg (.marking t keep (id :: ids)) = NodeJob.readFor id "offline"
      (fun node => .marked t keep node ids) (.marking t keep ids) := rfl
    change Paces _ _ _ _ ((KeepSys.setStatus id "offline" >>= fun _ =>
      each (fun id => KeepSys.setStatus id "offline") ids) >>= fun _ => rest) s
    rw [bind_assoc]
    exact .setStatus hnext (fun _ => rfl) fun s' hs' =>
      paces_marking ids s' fun s'' hs'' => h s'' (hs''.trans hs')

theorem Paces.orDefault {q : SchedIo (List α)} {k : Except AnyError (List α) → NodeJob Addr}
    {f : List α → KeepIo Addr Unit} (hj : j.next cfg = transact (NodeJob.db q) k)
    (h : ∀ l s', s'.prober = s.prober → Paces cfg clock done (k (.ok l)) (f l) s')
    (herr : ∀ e s', s'.prober = s.prober → Paces cfg clock done (k (.error e)) (f []) s') :
    Paces cfg clock done j (KeepSys.orDefault q >>= f) s := by
  rw [KeepSys.orDefault, bind_assoc]
  refine .transaction hj fun r sched => ?_
  rcases r with e | l
  · exact herr e _ rfl
  · exact h l _ rfl

theorem paces_tick (t : Tick Addr) (s : KeepSys Addr) :
    Paces cfg clock done (.ticking t s.prober) (KeepSys.tick cfg t) s := by
  have hsync : ∀ nodes (s' : KeepSys Addr), s'.prober = s.prober → Paces cfg clock done
      (.syncing (NodeJob.wantsOf cfg t s.prober nodes))
      (modify (KeepSys.probe cfg t (cfg.metaOf nodes)) >>= fun _ =>
        each syncStatus (t.statusOrder.order (cfg.metaOf nodes).entries)) s' := by
    intro nodes s' hs'
    rw [← hs']
    exact .noted rfl (paces_syncing _ (KeepSys.probe cfg t (cfg.metaOf nodes) s') rfl)
  have hmark : ∀ ids (s' : KeepSys Addr), s'.prober = s.prober → Paces cfg clock done
      (.marking t s.prober ids) _ s' := fun ids s' hs' =>
    paces_marking ids s' fun s'' hs'' =>
      .orDefault rfl (fun nodes s₃ hs₃ => hsync nodes s₃ (hs₃.trans (hs''.trans hs')))
        fun _ s₃ hs₃ => hsync [] s₃ (hs₃.trans (hs''.trans hs'))
  exact .orDefault rfl hmark fun _ s' hs' => hmark [] s' hs'

/-- A transaction whose error ends the program. -/
theorem Paces.read {q : SchedIo α} {k : Except AnyError α → NodeJob Addr}
    {f : α → KeepIo Addr Unit} (hj : j.next cfg = transact (NodeJob.db q) k)
    (hend : ∀ e, k (.error e) = .finished)
    (h : ∀ a s', Paces cfg clock done (k (.ok a)) (f a) s') :
    Paces cfg clock done j (db q >>= f) s := by
  rw [bind_eq_attempt]
  refine .transaction hj fun r sched => ?_
  rcases r with e | a
  · rw [hend]
    exact paces_stop e _
  · exact h a _

theorem paces_beating (node : NodeRecord) (s : KeepSys Addr) :
    Paces cfg clock done (.beating node) (KeepSys.insertNode node) s :=
  .read rfl (fun _ => rfl) fun _ _ => .noted rfl (paces_finished _)

theorem paces_heartbeat (id : UInt64) (s : KeepSys Addr) :
    Paces cfg clock done (.heartbeat id) (KeepSys.heartbeat clock id) s := by
  refine .noted rfl (.read rfl (fun _ => rfl) fun r s' => ?_)
  rcases r with _ | node
  · exact paces_stop _ s'
  · exact .memory rfl (paces_beating _ s')

theorem paces_registering (req : RegisterRequest) (s : KeepSys Addr) :
    Paces cfg clock done (.registering req) (KeepSys.registerNode clock req) s := by
  unfold KeepSys.registerNode
  rcases htype : validNodeType req.nodeType
  · exact .memory (by simp only [NodeJob.next, htype]; rfl) (paces_stop _ s)
  · exact .read (by simp only [NodeJob.next, htype]; rfl) (fun _ => rfl) fun id s' =>
      .memory rfl (.memory rfl (paces_beating _ s'))

/-- The time after an event, which a heartbeat and a registration read. -/
def KeepAct.timeAfter (now : UInt64) : KeepAct Addr → UInt64
  | .heartbeat nowMs _ _ => nowMs
  | .register nowMs _ _ => nowMs
  | _ => now

/-- The time does not go back. -/
def Timely : UInt64 → List (KeepAct Addr) → Prop
  | _, [] => True
  | now, a :: acts => now ≤ a.timeAfter now ∧ Timely (a.timeAfter now) acts

omit [DecidableEq Addr] in
theorem settledJobs_shared (p : KeepIo Addr Unit) (s : KeepSys Addr)
    (faults : List (Fault AnyError)) :
    (settledJobs clock done (p.run ⟨s, faults⟩)).shared = ⟨(s.after p faults).sched, clock⟩ := by
  unfold KeepSys.after
  rcases p.run ⟨s, faults⟩ with ⟨(e | _) | ⟨⟩, w⟩ <;> rfl

/-- An event is moves of its own job, with whatever others stand there. -/
theorem Paces.shared {now : UInt64} {r : NodeRequest Addr} {p : KeepIo Addr Unit}
    (hnow : clock ≤ now) (h : Paces cfg now done ((nodeSystem cfg).begin r) p s)
    (faults : List (Fault AnyError)) :
    ∃ moves, ((nodeSystem cfg).run ⟨⟨s.sched, clock⟩, done⟩ moves).shared
      = ⟨(s.after p faults).sched, now⟩ := by
  have henv : (nodeSystem cfg).apply ⟨⟨s.sched, clock⟩, done⟩ (.env now)
      = ⟨⟨s.sched, now⟩, done⟩ := by
    simp only [JobSystem.apply, nodeSystem, if_pos hnow]
  obtain ⟨moves, hmoves⟩ := h faults
  have hshared := congrArg Jobs.shared hmoves
  rw [settledJobs_shared] at hshared
  exact ⟨.env now :: .start r :: moves, by rw [JobSystem.run_cons, henv]; exact hshared⟩

variable (cfg)

theorem nodeSystem_step (s : KeepSys Addr) (a : KeepAct Addr) (jobs : List (NodeJob Addr))
    (hclock : clock ≤ a.timeAfter clock) :
    ∃ moves, ((nodeSystem cfg).run ⟨⟨s.sched, clock⟩, jobs⟩ moves).shared
      = ⟨(s.step cfg a).sched, a.timeAfter clock⟩ := by
  cases a with
  | tick t faults => exact Paces.shared (r := .tick t s.prober) hclock (paces_tick t s) faults
  | heartbeat nowMs id faults =>
    exact Paces.shared (r := .heartbeat id) hclock (paces_heartbeat id s) faults
  | register nowMs req faults =>
    exact Paces.shared (r := .register req) hclock (paces_registering req s) faults
  | restart => exact ⟨[.crash], rfl⟩

/-- Whole events one after another, with the faults they meet, are one of the ways in which the jobs
can go. -/
theorem nodeSystem_run : ∀ (acts : List (KeepAct Addr)) (s : KeepSys Addr) (clock : UInt64)
    (jobs : List (NodeJob Addr)), Timely clock acts →
    ∃ moves, ((nodeSystem cfg).run ⟨⟨s.sched, clock⟩, jobs⟩ moves).shared.sched
      = (s.run cfg acts).sched
  | [], _, _, _, _ => ⟨[], rfl⟩
  | a :: acts, s, clock, jobs, h => by
    obtain ⟨first, hfirst⟩ := nodeSystem_step cfg s a jobs h.1
    obtain ⟨more, hmore⟩ := nodeSystem_run acts (s.step cfg a) _
      ((nodeSystem cfg).run ⟨⟨s.sched, clock⟩, jobs⟩ first).jobs h.2
    have hjobs : (nodeSystem cfg).run ⟨⟨s.sched, clock⟩, jobs⟩ first
        = ⟨⟨(s.step cfg a).sched, a.timeAfter clock⟩,
          ((nodeSystem cfg).run ⟨⟨s.sched, clock⟩, jobs⟩ first).jobs⟩ := by rw [← hfirst]
    exact ⟨first ++ more, by rw [JobSystem.run_append, hjobs]; exact hmore⟩

end Whole

section Example

/-- The record of a heartbeat or a registration that a job is about to write. -/
def NodeJob.beats : NodeJob Addr → Option NodeRecord
  | .beating node => some node
  | _ => none

theorem NodeJob.eq_beating {j : NodeJob Addr} {node : NodeRecord} (h : node ∈ j.beats) :
    j = .beating node := by
  cases j with
  | beating n => rw [Option.some.inj h]
  | _ => cases h

/-- Only the jobs that are there can hold a record. -/
theorem latestLast_go {s : Jobs NodeShared (NodeJob Addr)} {i : ℕ}
    {faults : List (Fault AnyError)} :
    LatestLast s (.go i faults) ↔ ∀ j ∈ s.jobs[i]?, ∀ node ∈ j.beats, ∀ e ∈ s.jobs.zipIdx, e.2 ≠ i →
      ∀ held ∈ e.1.holds, held.id = node.id → node.lastHeartbeatMs ≤ held.lastHeartbeatMs := by
  constructor
  · rintro h j hj node hnode ⟨j', k⟩ he hk held hheld hid
    rw [NodeJob.eq_beating hnode] at hj
    exact h node hj k j' held hk (List.mem_zipIdx_iff_getElem?.1 he) hheld hid
  · intro h node hi k j held hk hj hheld hid
    exact h _ hi node rfl (j, k) (List.mem_zipIdx_iff_getElem?.2 hj) hk held hheld hid

instance (s : Jobs NodeShared (NodeJob Addr)) :
    ∀ m : Move AnyError (NodeRequest Addr) UInt64, Decidable (LatestLast s m)
  | .go _ _ => decidable_of_iff _ latestLast_go.symm
  | .start _ => isTrue trivial
  | .env _ => isTrue trivial
  | .crash => isTrue trivial

def lonelyConfig : KeepConfig ℕ := ⟨1, 1, 10, fun _ => 0, fun _ => none⟩

/-- A node that registers at the time 10. -/
def registered : List (Move AnyError (NodeRequest ℕ) UInt64) :=
  [.env 10, .start (.register ⟨"cafe", "e", []⟩), .go 0 [], .go 0 [], .go 0 [], .go 0 []]

/-- A tick at the time 100. -/
def startTick : Move AnyError (NodeRequest ℕ) UInt64 :=
  .start (.tick ⟨0, 100, .same, fun _ => 0, [], .same, fun _ => 0, .same⟩ .new)

/-- The tick finds the node's heartbeat lost while one of that time is on its way, which is written
before the tick reads the record to mark it; another one is written before the tick writes the
record back, with the same time. -/
def heardInTime : List (Move AnyError (NodeRequest ℕ) UInt64) :=
  [.env 100, startTick, .start (.heartbeat 1), .go 2 [], .go 1 [], .go 2 [], .go 2 [], .go 1 [],
    .start (.heartbeat 1), .go 3 [], .go 3 [], .go 3 [], .go 1 []]

theorem nodeSystem_times_grow_heard :
    ∃ node', ((nodeSystem lonelyConfig).run noNodes (registered ++ heardInTime)).shared.sched.nodes[
        (1 : UInt64)]? = some node' ∧ (10 : UInt64) ≤ node'.lastHeartbeatMs :=
  nodeSystem_times_grow lonelyConfig registered heardInTime (by decide +kernel) 1
    ⟨1, "cafe", "e", "10-1", [], "online", 10⟩ (by decide +kernel)

/-- The tick reads the node's record to mark it; the heartbeat of that time is written before the
tick writes the record back. -/
def heardMeanwhile : List (Move AnyError (NodeRequest ℕ) UInt64) :=
  [.env 100, startTick, .go 1 [], .go 1 [], .start (.heartbeat 1), .go 2 [], .go 2 [], .go 2 []]

/-- Then the node has the time of the earlier record again. -/
theorem nodeSystem_time_lost :
    ((nodeSystem lonelyConfig).run noNodes (registered ++ heardMeanwhile)).shared.sched.nodes[
        (1 : UInt64)]? = some ⟨1, "cafe", "e", "10-1", [], "online", 100⟩
      ∧ ((nodeSystem lonelyConfig).run noNodes
        (registered ++ heardMeanwhile ++ [.go 1 []])).shared.sched.nodes[(1 : UInt64)]?
        = some ⟨1, "cafe", "e", "10-1", [], "offline", 10⟩
      ∧ ¬ (100 : UInt64) ≤ 10 := by
  decide +kernel

end Example

end BlazeNet

import BlazeNet.Proofs.NodeStatus

/-!
# The order of the addresses

A tick writes a node's status once for each of its addresses, so the last address in the order of
the map decides (`exec_syncAll`). The order does not matter just where the addresses of each node
agree.
-/

namespace BlazeNet

open Wire FaultIo Io RustStd KeepSys

variable {Addr : Type} {cfg : KeepConfig Addr} {s s' s'' : KeepSys Addr}

section Entries

/-- The entries of a node. -/
def entriesOf (es : List (Addr × UInt64 × UInt32)) (id : UInt64) : List (Addr × UInt64 × UInt32) :=
  es.filter fun e => e.2.1 = id

theorem mem_entriesOf {es : List (Addr × UInt64 × UInt32)} {id : UInt64}
    {e : Addr × UInt64 × UInt32} : e ∈ entriesOf es id ↔ e ∈ es ∧ e.2.1 = id := by
  simp [entriesOf]

theorem entriesOf_cons (es : List (Addr × UInt64 × UInt32)) (id : UInt64)
    (e : Addr × UInt64 × UInt32) :
    entriesOf (e :: es) id = if e.2.1 = id then e :: entriesOf es id else entriesOf es id := by
  simp [entriesOf, List.filter_cons]

end Entries

section Writes

/-- Nothing has changed but the statuses of nodes, and what is noted of them. -/
structure Kin (s s' : KeepSys Addr) : Prop where
  prober : s'.prober = s.prober
  addrs : ∀ i : UInt64, s'.sched.nodes[i]?.map (fun n => (n.id, n.addrs))
    = s.sched.nodes[i]?.map fun n => (n.id, n.addrs)

theorem Kin.refl (s : KeepSys Addr) : Kin s s := ⟨rfl, fun _ => rfl⟩

theorem Kin.trans (h : Kin s s') (h' : Kin s' s'') : Kin s s'' :=
  ⟨h'.prober.trans h.prober, fun i => (h'.addrs i).trans (h.addrs i)⟩

theorem Kin.filed (h : Kin s s') (hs : s.Filed) : s'.Filed := by
  intro id node hnode
  have haddrs := h.addrs id
  rw [hnode] at haddrs
  rcases hold : s.sched.nodes[id]? with _ | old <;> rw [hold] at haddrs
  · cases haddrs
  · have hid : node.id = old.id := congrArg Prod.fst (Option.some.inj haddrs)
    rw [hid, hs id old hold]

theorem Kin.isSome (h : Kin s s') (i : UInt64) :
    (s'.statuses i).isSome = (s.statuses i).isSome := by
  have := congrArg Option.isSome (h.addrs i)
  simpa [statuses] using this

theorem Kin.addrMap [DecidableEq Addr] (h : Kin s s') : s'.addrMap cfg = s.addrMap cfg := by
  have hmap : s'.sched.nodes.map (fun _ n => (n.id, n.addrs))
      = s.sched.nodes.map fun _ n => (n.id, n.addrs) := Std.ExtTreeMap.ext_getElem? fun i => by
    rw [Std.ExtTreeMap.getElem?_map, Std.ExtTreeMap.getElem?_map, h.addrs i]
  have hlist : (s'.sched.nodes.toList.map (·.2)).map (fun n => (n.id, n.addrs))
      = (s.sched.nodes.toList.map (·.2)).map fun n => (n.id, n.addrs) := by
    have := congrArg (fun t => t.toList.map (·.2)) hmap
    simpa [Std.ExtTreeMap.toList_map, Function.comp_def] using this
  have hsplit : ∀ nodes : List NodeRecord, cfg.metaOf nodes
      = ((nodes.map fun n => (n.id, n.addrs)).flatMap fun n =>
        (cfg.keepaliveAddrs ⟨0, "", "", "", n.2, "", 0⟩).map fun e => (e.1, n.1, e.2)).foldl
          (fun m e => m.insert e.1 e.2) .empty := fun nodes => by
    rw [List.flatMap_map]
    rfl
  rw [KeepSys.addrMap, KeepSys.addrMap, hsplit, hsplit, hlist]

/-- A node that exists gets the status, and no other node changes. -/
theorem exec_setStatus (id : UInt64) (want : String) (hs : s.Filed) :
    ∃ s', exec (setStatus id want : KeepIo Addr Unit) s = (.ok (), s') ∧ Kin s s'
      ∧ ∀ i, s'.statuses i = if i = id then (s.statuses i).map fun _ => want else s.statuses i := by
  have hget : exec (attempt (db (Store.getNode id)) : KeepIo Addr _) s
      = (.ok (.ok s.sched.nodes[id]?), s) := rfl
  rw [setStatus, exec_bind, hget]
  dsimp only
  rcases hnode : s.sched.nodes[id]? with _ | node
  · refine ⟨s, rfl, .refl s, fun i => ?_⟩
    split_ifs with hi
    · simp [hi, statuses, hnode]
    · rfl
  obtain rfl := hs id node hnode
  dsimp only
  split_ifs with hne
  · have hinsert : exec (attempt (insertNode { node with status := want }) : KeepIo Addr _) s
        = (.ok (.ok ()), s.written { node with status := want }) := rfl
    refine ⟨s.written { node with status := want }, by rw [exec_bind, hinsert]; rfl,
      ⟨rfl, fun i => ?_⟩, fun i => ?_⟩
    · rw [nodes_written]
      split_ifs with hi
      · simp [← hi, hnode]
      · rfl
    · simp only [statuses, nodes_written, eq_comm (a := i)]
      split_ifs with hi
      · simp [← hi, hnode]
      · rfl
  · refine ⟨s, rfl, .refl s, fun i => ?_⟩
    split_ifs with hi
    · simp [hi, statuses, hnode, not_not.1 hne]
    · rfl

theorem exec_markAll : ∀ (ids : List UInt64) {s : KeepSys Addr}, s.Filed →
    ∃ s', exec (each (fun id => setStatus id "offline") ids) s = (.ok (), s') ∧ Kin s s'
  | [], s, _ => ⟨s, rfl, .refl s⟩
  | id :: ids, s, hs => by
    obtain ⟨s₁, hset, hkin₁, -⟩ := exec_setStatus id "offline" hs
    obtain ⟨s₂, hrest, hkin₂⟩ := exec_markAll ids (hkin₁.filed hs)
    exact ⟨s₂, by rw [each, exec_andThen, hset]; exact hrest, hkin₁.trans hkin₂⟩

variable [DecidableEq Addr]

/-- The status that the last of the entries of a node asks for. -/
def lastWanted (p : Prober Addr) (es : List (Addr × UInt64 × UInt32)) (id : UInt64) :
    Option String :=
  (entriesOf es id).getLast?.map fun e => if p.available e.1 then "online" else "offline"

theorem exec_syncAll : ∀ (es : List (Addr × UInt64 × UInt32)) {s : KeepSys Addr}, s.Filed →
    ∃ s', exec (each syncStatus es) s = (.ok (), s') ∧ Kin s s'
      ∧ ∀ i, s'.statuses i = (s.statuses i).map fun old => (lastWanted s.prober es i).getD old
  | [], s, _ => ⟨s, rfl, .refl s, fun i => by simp [lastWanted, entriesOf]⟩
  | e :: es, s, hs => by
    obtain ⟨s₁, hset, hkin₁, hstatus₁⟩ :=
      exec_setStatus e.2.1 (if s.prober.available e.1 then "online" else "offline") hs
    obtain ⟨s₂, hrest, hkin₂, hstatus₂⟩ := exec_syncAll es (hkin₁.filed hs)
    have hhead : exec (syncStatus e) s = (.ok (), s₁) := by
      rw [syncStatus, exec_bind, exec_get]
      exact hset
    refine ⟨s₂, by rw [each, exec_andThen, hhead]; exact hrest, hkin₁.trans hkin₂, fun i => ?_⟩
    rw [hstatus₂, hstatus₁, hkin₁.prober]
    rw [lastWanted, lastWanted, entriesOf_cons]
    by_cases hi : i = e.2.1
    · rw [if_pos hi, if_pos hi.symm, List.getLast?_cons, Option.map_map]
      rcases (entriesOf es i).getLast? with _ | x <;> rfl
    · rw [if_neg hi, if_neg (Ne.symm hi)]

end Writes

section Ticks

theorem exec_orDefault {α : Type} {p : SchedIo (List α)} {l : List α}
    (h : exec p s.sched = (.ok l, s.sched)) :
    exec (orDefault p : KeepIo Addr (List α)) s = (.ok l, s) := by
  have hdb : exec (db p) s = (.ok l, s) := by
    rw [db, exec_zoom, h]
  rw [orDefault, exec_bind, exec_attempt, hdb]
  rfl

variable [DecidableEq Addr]

/-- A tick marks the nodes whose heartbeats have stopped, probes, and then gives the nodes of the
map the statuses that the last of their addresses ask for. -/
theorem exec_tick (cfg : KeepConfig Addr) (hs : s.Filed) (nowMs : UInt64) :
    ∃ s₁, Kin s s₁ ∧ ∀ t : Tick Addr, t.nowMs = nowMs → ∀ i, (s.ticked cfg t).statuses i
      = (s₁.statuses i).map fun old =>
        (lastWanted (s.probed cfg t) (t.statusOrder.order (s.addrMap cfg).entries) i).getD old := by
  set ids := ((s.sched.nodes.toList.map (·.2)).filter fun n =>
    nowMs.toNat - n.lastHeartbeatMs.toNat > cfg.heartbeatTimeoutMs.toNat).map (·.id) with hids
  obtain ⟨s₁, hmark, hkin⟩ := exec_markAll ids hs
  refine ⟨s₁, hkin, ?_⟩
  rintro t rfl i
  have hoffline : exec
    (orDefault (Store.offlineNodes t.nowMs cfg.heartbeatTimeoutMs) : KeepIo Addr _) s
      = (.ok ids, s) := exec_orDefault (by
    simp only [Store.offlineNodes, exec_bind, exec_listNodes, exec_pure, hids])
  have hlist : exec (orDefault Store.listNodes : KeepIo Addr _) s₁
      = (.ok (s₁.sched.nodes.toList.map (·.2)), s₁) := exec_orDefault (exec_listNodes _)
  have hmeta : cfg.metaOf (s₁.sched.nodes.toList.map (·.2)) = s.addrMap cfg := hkin.addrMap
  have hprober : (KeepSys.probe cfg t (s.addrMap cfg) s₁).prober = s.probed cfg t := by
    rw [KeepSys.probe, hkin.prober]
    rfl
  have hfiled : (KeepSys.probe cfg t (s.addrMap cfg) s₁).Filed := hkin.filed hs
  obtain ⟨s₂, hsync, -, hstatus⟩ :=
    exec_syncAll (t.statusOrder.order (s.addrMap cfg).entries) hfiled
  have htick : exec (tick cfg t) s = (.ok (), s₂) := by
    rw [tick, exec_bind, hoffline]
    dsimp only
    rw [exec_bind, hmark]
    dsimp only
    rw [exec_bind, hlist]
    dsimp only
    rw [hmeta, exec_bind, exec_modify]
    exact hsync
  rw [ticked, htick, hstatus, hprober]
  rfl

theorem isSome_statuses {e : Addr × UInt64 × UInt32} (hs : s.Filed)
    (he : e ∈ (s.addrMap cfg).entries) : (s.statuses e.2.1).isSome := by
  obtain ⟨node, hnode, hid, -⟩ := mem_metaOf he
  obtain ⟨⟨k, n⟩, hmem, rfl⟩ := List.mem_map.1 hnode
  have hk := Std.ExtTreeMap.mem_toList_iff_getElem?_eq_some.1 hmem
  have hn : n.id = k := hs k n hk
  rw [statuses, ← hid, hn, hk]
  rfl

/-- Where a node's addresses agree, any of them gives the status that its last one does. -/
theorem lastWanted_agreeing {p : Prober Addr} {es : List (Addr × UInt64 × UInt32)}
    (hagree : ∀ e ∈ es, ∀ e' ∈ es, e.2.1 = e'.2.1 → p.available e.1 = p.available e'.1)
    {e : Addr × UInt64 × UInt32} (he : e ∈ es) :
    lastWanted p es e.2.1 = some (if p.available e.1 then "online" else "offline") := by
  rcases hlast : (entriesOf es e.2.1).getLast? with _ | x
  · rw [List.getLast?_eq_none_iff] at hlast
    exact absurd (mem_entriesOf.2 ⟨he, rfl⟩) (hlast ▸ List.not_mem_nil)
  · obtain ⟨hx, hid⟩ := mem_entriesOf.1 (List.mem_of_getLast? hlast)
    rw [lastWanted, hlast, Option.map_some, hagree x hx e he hid]

theorem lastWanted_none {p : Prober Addr} {es : List (Addr × UInt64 × UInt32)} {i : UInt64}
    (h : ∀ e ∈ es, e.2.1 ≠ i) : lastWanted p es i = none := by
  have hnil : entriesOf es i = [] :=
    List.eq_nil_iff_forall_not_mem.2 fun e he => h e (mem_entriesOf.1 he).1 (mem_entriesOf.1 he).2
  rw [lastWanted, hnil]
  rfl

/-- The order that puts an entry last. -/
def lastInOrder (e : Addr × UInt64 × UInt32) : IterOrder (Addr × UInt64 × UInt32) where
  order l := l.filter (fun x => x ≠ e) ++ l.filter (fun x => x = e)
  perm l := by
    have := List.filter_append_perm (fun x => decide (x ≠ e)) l
    simpa using this

theorem lastWanted_lastInOrder {p : Prober Addr} {es : List (Addr × UInt64 × UInt32)}
    {e : Addr × UInt64 × UInt32} (he : e ∈ es) :
    lastWanted p ((lastInOrder e).order es) e.2.1
      = some (if p.available e.1 then "online" else "offline") := by
  have hmem : e ∈ entriesOf (es.filter fun x => x = e) e.2.1 :=
    mem_entriesOf.2 ⟨List.mem_filter.2 ⟨he, by simp⟩, rfl⟩
  obtain ⟨x, hx⟩ := Option.isSome_iff_exists.1 (List.getLast?_isSome.2 (List.ne_nil_of_mem hmem))
  have hxe : x = e := by
    simpa using (List.mem_filter.1 (mem_entriesOf.1 (List.mem_of_getLast? hx)).1).2
  have hlast : (entriesOf ((lastInOrder e).order es) e.2.1).getLast? = some e := by
    have hsplit : entriesOf ((lastInOrder e).order es) e.2.1
        = entriesOf (es.filter fun x => x ≠ e) e.2.1
          ++ entriesOf (es.filter fun x => x = e) e.2.1 :=
      List.filter_append _ _
    rw [hsplit, List.getLast?_append_of_ne_nil _ (List.ne_nil_of_mem hmem), hx, hxe]
  rw [lastWanted, hlast]
  rfl

/-- The statuses that a tick leaves are the same in every order, and online wherever an address is
available, just if no node has both an available and an unavailable address. -/
theorem settles_iff_agreeing (cfg : KeepConfig Addr) (hs : s.Filed) (t : Tick Addr) :
    t.Settles cfg s ↔ t.Agreeing cfg s := by
  obtain ⟨s₁, hkin, hticked⟩ := exec_tick cfg hs t.nowMs
  have hsome : ∀ e ∈ (s.addrMap cfg).entries, ∃ old, s₁.statuses e.2.1 = some old := fun e he =>
    Option.isSome_iff_exists.1 ((hkin.isSome _).trans (isSome_statuses hs he))
  have hmem : ∀ (t' : Tick Addr) (e : Addr × UInt64 × UInt32),
      e ∈ t'.statusOrder.order (s.addrMap cfg).entries ↔ e ∈ (s.addrMap cfg).entries :=
    fun t' _ => (t'.statusOrder.perm _).mem_iff
  constructor
  · intro h
    -- with an unavailable address last the node ends offline, which an available one forbids
    have hdown : ∀ e ∈ (s.addrMap cfg).entries, (s.probed cfg t).available e.1 = false →
        (s.ticked cfg t).statuses e.2.1 = some "offline" := by
      intro e he hdown
      obtain ⟨old, hold⟩ := hsome e he
      set t' : Tick Addr := { t with statusOrder := lastInOrder e }
      have havail : (s.probed cfg t').available e.1 = false := hdown
      have hlast : lastWanted (s.probed cfg t') (t'.statusOrder.order (s.addrMap cfg).entries) e.2.1
          = some "offline" := by
        rw [lastWanted_lastInOrder he, havail]
        rfl
      rw [← h.same t' ⟨rfl, fun _ _ => rfl⟩, hticked t' rfl, hold, hlast]
      rfl
    intro e he e' he' hid
    rcases hav : (s.probed cfg t).available e.1 <;> rcases hav' : (s.probed cfg t).available e'.1
    · rfl
    · have := (hdown e he hav).symm.trans (hid ▸ h.online e' he' hav')
      simp at this
    · have := (hdown e' he' hav').symm.trans (hid ▸ h.online e he hav)
      simp at this
    · rfl
  · intro h
    have hwant : ∀ t', t.Alike cfg s t' → ∀ e ∈ (s.addrMap cfg).entries,
        lastWanted (s.probed cfg t') (t'.statusOrder.order (s.addrMap cfg).entries) e.2.1
          = some (if (s.probed cfg t).available e.1 then "online" else "offline") := by
      intro t' halike e he
      rw [← halike.2 e he]
      refine lastWanted_agreeing (fun x hx y hy hxy => ?_) ((hmem t' e).2 he)
      rw [hmem] at hx hy
      rw [halike.2 x hx, halike.2 y hy, h x hx y hy hxy]
    refine ⟨fun t' halike => funext fun i => ?_, fun e he hav => ?_⟩
    · rw [hticked t' halike.1, hticked t rfl]
      by_cases hi : ∃ e ∈ (s.addrMap cfg).entries, e.2.1 = i
      · obtain ⟨e, he, rfl⟩ := hi
        rw [hwant t' halike e he, hwant t ⟨rfl, fun _ _ => rfl⟩ e he]
      · have hnone : ∀ t' : Tick Addr, ∀ e ∈ t'.statusOrder.order (s.addrMap cfg).entries,
            e.2.1 ≠ i := fun t' e he hei => hi ⟨e, (hmem t' e).1 he, hei⟩
        rw [lastWanted_none (hnone t'), lastWanted_none (hnone t)]
    · obtain ⟨old, hold⟩ := hsome e he
      rw [hticked t rfl, hold, hwant t ⟨rfl, fun _ _ => rfl⟩ e he, hav]
      rfl

end Ticks

section Runs

theorem frame_filed : FaultIo.Frame fun s s' : KeepSys Addr => s.Filed → s'.Filed :=
  ⟨fun _ => id, fun _ _ _ h h' hs => h' (h hs)⟩

theorem KeepSys.Filed.written (hs : s.Filed) (node : NodeRecord) : (s.written node).Filed := by
  intro id n hn
  rw [nodes_written] at hn
  split_ifs at hn with hid
  · rw [← Option.some.inj hn, hid]
  · exact hs id n hn

theorem keepsFiled_insertNode (node : NodeRecord) :
    Keeps (fun s s' : KeepSys Addr => s.Filed → s'.Filed) (insertNode node) := fun S s =>
  wp_mono (wp_insertNode node S s) fun _ s' h hs => by
    rcases h with rfl | rfl
    · exact hs
    · exact hs.written node

theorem keepsFiled_setStatus (id : UInt64) (want : String) :
    Keeps (fun s s' : KeepSys Addr => s.Filed → s'.Filed) (setStatus id want) := fun S s =>
  wp_mono (wp_setStatus id want S s) fun _ s' h hs => by
    rcases h with rfl | ⟨node, -, -, rfl⟩
    · exact hs
    · exact hs.written _

theorem quiet_orDefault {α : Type} {p : SchedIo (List α)} (hp : Quiet p) (hs : Sound p) :
    Quiet (orDefault p : KeepIo Addr (List α)) := fun S s =>
  wp_mono (wp_orDefault hp hs S s) fun _ _ h => h.1

theorem keepsFiled_heartbeat (nowMs nodeId : UInt64) :
    Keeps (fun s s' : KeepSys Addr => s.Filed → s'.Filed) (heartbeat nowMs nodeId) := by
  refine frame_filed.seq (fun _ _ => wp_modify fun hs => hs) fun _ =>
    frame_filed.seq (frame_filed.quiet ((quiet_getNode nodeId).zoom fun _ => rfl)) fun found => ?_
  rcases found with _ | node
  · exact frame_filed.stop _
  · exact keepsFiled_insertNode _

theorem keepsFiled_registerNode (nowMs : UInt64) (req : RegisterRequest) :
    Keeps (fun s s' : KeepSys Addr => s.Filed → s'.Filed) (registerNode nowMs req) := by
  unfold registerNode
  split_ifs
  · exact frame_filed.stop _
  refine frame_filed.seq
    (fun S s => wp_mono (wp_db (allOrNothing_nextId _) (plain_nextId _).sound S s)
    fun r s' h hs => ?_) fun id => keepsFiled_insertNode _
  rcases r with e | id
  · rw [h]
    exact hs
  · rw [h.2]
    exact hs

theorem KeepSys.Filed.after (hs : s.Filed) {p : KeepIo Addr Unit}
    (hp : Keeps (fun s s' : KeepSys Addr => s.Filed → s'.Filed) p)
    (faults : List (Fault AnyError)) :
    (s.after p faults).Filed := by
  have h := hp.run s faults hs
  unfold KeepSys.after
  rcases hr : p.run ⟨s, faults⟩ with ⟨(e | _) | a, w⟩ <;> rw [hr] at h <;> exact h

variable [DecidableEq Addr]

theorem keepsFiled_tick (t : Tick Addr) :
    Keeps (fun s s' : KeepSys Addr => s.Filed → s'.Filed) (tick cfg t) := by
  refine frame_filed.seq (frame_filed.quiet (quiet_orDefault (quiet_offlineNodes _ _)
    (plain_offlineNodes _ _).sound)) fun offline => frame_filed.seq (frame_filed.each
      (fun id => keepsFiled_setStatus id _) _) fun _ =>
        frame_filed.seq (frame_filed.quiet (quiet_orDefault
        quiet_listNodes plain_listNodes.sound)) fun nodes => frame_filed.seq (fun _ _ =>
          wp_modify fun hs => hs) fun _ => frame_filed.each (fun e => ?_) _
  exact frame_filed.seq (frame_filed.quiet .get) fun _ => keepsFiled_setStatus _ _

theorem KeepSys.Filed.step (hs : s.Filed) (a : KeepAct Addr) : (s.step cfg a).Filed := by
  cases a with
  | tick t faults => exact hs.after (keepsFiled_tick t) faults
  | heartbeat nowMs nodeId faults => exact hs.after (keepsFiled_heartbeat nowMs nodeId) faults
  | register nowMs req faults => exact hs.after (keepsFiled_registerNode nowMs req) faults
  | restart => exact hs

/-- Whatever happens, the nodes stay under their ids. -/
theorem filed_run (cfg : KeepConfig Addr) (acts : List (KeepAct Addr)) :
    (KeepSys.init.run cfg acts).Filed := by
  have hrun : ∀ (acts : List (KeepAct Addr))
      {s : KeepSys Addr}, s.Filed → (s.run cfg acts).Filed := by
    intro acts
    induction acts with
    | nil => exact id
    | cons a acts ih => exact fun hs => ih (hs.step a)
  exact hrun acts fun id node h => by simp [KeepSys.init, Sched.empty] at h

end Runs

section Example

/-- Two addresses, both due in every tick; one failure is enough. -/
def twoAddrConfig : KeepConfig ℕ :=
  ⟨1, 1, 10, fun _ => 0, fun text => some (if text = "a" then 5 else 6)⟩

/-- A tick at which the first two pings have grown too old. -/
def agedTick (nowMs : UInt64) (datagrams : List Bytes) : Tick ℕ :=
  ⟨0, nowMs, .same, fun _ => 0, datagrams, .same,
    fun seq => if seq ≤ 2 then 1000000000 else 0, .same⟩

/-- A node with two addresses, both of which have been pinged. -/
def twoPinged : KeepSys ℕ := KeepSys.init.run twoAddrConfig
  [.register 0 ⟨"cafe", "e", [⟨"a", "keepalive", ""⟩, ⟨"b", "keepalive", ""⟩]⟩ [],
    .tick (tickAtMs 1 0 []) []]

/-- Neither address answers. -/
theorem settles_iff_agreeing_silent :
    (agedTick 2 []).Settles twoAddrConfig twoPinged
      ∧ (agedTick 2 []).Agreeing twoAddrConfig twoPinged := by
  have hagree : (agedTick 2 []).Agreeing twoAddrConfig twoPinged := by
    have hdown : ∀ e ∈ (twoPinged.addrMap twoAddrConfig).entries,
        (twoPinged.probed twoAddrConfig (agedTick 2 [])).available e.1 = false := by decide +kernel
    exact fun e he e' he' _ => (hdown e he).trans (hdown e' he').symm
  exact ⟨(settles_iff_agreeing twoAddrConfig (filed_run _ _) _).2 hagree, hagree⟩

/-- The first ping is answered and the second is not, and the node ends as the order has it. -/
theorem settles_disagreeing :
    ¬ (agedTick 2 [pongMagic ++ [1, 0, 0, 0]]).Settles twoAddrConfig twoPinged := by
  set t := agedTick 2 [pongMagic ++ [1, 0, 0, 0]] with ht
  intro h
  have hsame := congrFun (h.same { t with statusOrder := ⟨List.reverse, List.reverse_perm⟩ }
    ⟨rfl, fun _ _ => rfl⟩) 1
  revert hsame
  decide +kernel

end Example

end BlazeNet

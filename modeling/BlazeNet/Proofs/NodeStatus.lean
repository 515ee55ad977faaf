import BlazeNet.NodeStatus
import BlazeNet.Proofs.Control
import BlazeNet.Proofs.Probes

/-!
# A node comes back online only when something was heard of it

The last pass of a tick gives a node the status its keepalive address asks for, whatever the first
pass has made of its heartbeats. Where the address of an offline node counts as unavailable, only a
pong makes it available, so the pass writes online over offline only after one.
-/

namespace BlazeNet

open Wire FaultIo Io RustStd

variable {Addr : Type}

section Trace

variable {owns owns' : UInt64 → Addr → Prop} {trace : List (NodeEvent Addr)}

theorem lastStatus_cons_status (id i : UInt64) (text : String) (trace : List (NodeEvent Addr)) :
    lastStatus (.status i text :: trace) id
      = if i = id then some text else lastStatus trace id := by
  unfold lastStatus
  rw [List.findSome?_cons]
  by_cases h : i = id <;> simp [h]

theorem Evidence.mono (h : ∀ id a, owns id a → owns' id a) {id : UInt64} {x : NodeEvent Addr}
    (hx : Evidence owns id x) : Evidence owns' id x := by
  cases x with
  | status i text => exact hx
  | heartbeat i => exact hx
  | pong a => exact h id a hx

theorem Justified.mono (h : ∀ id a, owns id a → owns' id a) (hj : Justified owns trace) :
    Justified owns' trace := by
  induction trace with
  | nil => trivial
  | cons e older ih =>
    refine ⟨fun id he hoff => ?_, ih hj.2⟩
    obtain ⟨x, hx, hev⟩ := hj.1 id he hoff
    exact ⟨x, hx, hev.mono h⟩

/-- Events that write no status online over offline. -/
theorem Justified.append {new : List (NodeEvent Addr)} (hj : Justified owns trace)
    (hnew : ∀ e ∈ new, ∀ id, e ≠ .status id "online") : Justified owns (new ++ trace) := by
  induction new with
  | nil => exact hj
  | cons e new ih =>
    refine ⟨fun id he => absurd he (hnew e List.mem_cons_self id), ih fun e he => ?_⟩
    exact hnew e (List.mem_cons_of_mem _ he)

theorem lastStatus_append {new : List (NodeEvent Addr)} {id : UInt64}
    (hnew : ∀ e ∈ new, ∀ text, e ≠ .status id text) :
    lastStatus (new ++ trace) id = lastStatus trace id := by
  induction new with
  | nil => rfl
  | cons e new ih =>
    have ih := ih fun e he => hnew e (List.mem_cons_of_mem _ he)
    have he := hnew e List.mem_cons_self
    cases e with
    | status i text =>
      have hi : i ≠ id := by
        rintro rfl
        exact he text rfl
      rw [List.cons_append, lastStatus_cons_status, if_neg hi, ih]
    | heartbeat i => exact ih
    | pong a => exact ih

/-- What is newer than the last status of a node came since it went offline. -/
theorem mem_sinceOffline (new : List (NodeEvent Addr)) {id : UInt64} {x : NodeEvent Addr}
    (hnew : ∀ e ∈ new, ∀ text, e ≠ .status id text) (hx : x ∈ new) :
    x ∈ sinceOffline (new ++ trace) id := by
  unfold sinceOffline
  rw [List.takeWhile_append_of_pos]
  · exact List.mem_append_left _ hx
  · intro e he
    cases e with
    | status i text =>
      have hi : i ≠ id := by
        rintro rfl
        exact hnew _ he text rfl
      simp [hi]
    | heartbeat i => rfl
    | pong a => rfl

end Trace

section Writes

/-- The system after a node's record is written. -/
def KeepSys.written (node : NodeRecord) (s : KeepSys Addr) : KeepSys Addr :=
  KeepSys.note (.status node.id node.status)
    { s with sched := { s.sched with nodes := s.sched.nodes.insert node.id node } }

theorem wp_db {α : Type} {p : SchedIo α} (hp : AllOrNothing p) (hs : Sound p)
    (S : Fault AnyError → Prop) (s : KeepSys Addr) :
    wp S (KeepSys.db p : KeepIo Addr α) s fun r s' => match r with
      | .ok a => (exec p s.sched).1 = .ok a ∧ s' = { s with sched := (exec p s.sched).2 }
      | .error _ => s' = s := by
  refine wp_zoom (wp_mono (hp.wp hs S s.sched) fun r sched' h => ?_)
  rcases r with e | a
  · rw [h]
  · rw [h]
    exact ⟨rfl, rfl⟩

theorem wp_look {α : Type} {p : SchedIo α} (hp : Quiet p) (hs : Sound p)
    (S : Fault AnyError → Prop) (s : KeepSys Addr) :
    wp S (KeepSys.db p : KeepIo Addr α) s fun r s' =>
      s' = s ∧ ∀ a, r = .ok a → (exec p s.sched).1 = .ok a := by
  refine wp_mono (wp_db hp.allOrNothing hs S s) fun r s' h => ?_
  rcases r with e | a
  · exact ⟨h, by simp⟩
  · rw [hp.exec] at h
    refine ⟨h.2, ?_⟩
    rintro b ⟨⟩
    exact h.1

theorem wp_insertNode (node : NodeRecord) (S : Fault AnyError → Prop) (s : KeepSys Addr) :
    wp S (KeepSys.insertNode node : KeepIo Addr Unit) s fun _ s' =>
      s' = s ∨ s' = s.written node := by
  refine wp_bind (wp_mono (wp_db (allOrNothing_insertNode node) (plain_insertNode node).sound S s)
    fun r s' h => ?_)
  rcases r with e | a
  · exact .inl h
  · rw [h.2]
    exact wp_modify (.inr rfl)

theorem wp_setStatus (id : UInt64) (want : String) (S : Fault AnyError → Prop)
    (s : KeepSys Addr) :
    wp S (KeepSys.setStatus id want : KeepIo Addr Unit) s fun _ s' => s' = s ∨
      ∃ node, s.sched.nodes[id]? = some node ∧ node.status ≠ want
        ∧ s' = s.written { node with status := want } := by
  refine wp_bind (wp_attempt (wp_mono (wp_look (quiet_getNode id) (plain_getNode id).sound S s)
    fun r s' h => ?_))
  obtain ⟨rfl, hfound⟩ := h
  rcases r with (e | _) | found
  · exact wp_pure (.inl rfl)
  · exact .inl rfl
  obtain rfl : s'.sched.nodes[id]? = found := Except.ok.inj (hfound found rfl)
  rcases hnode : s'.sched.nodes[id]? with _ | node
  · exact wp_pure (.inl rfl)
  simp only
  split_ifs with hne
  · refine wp_bind (wp_attempt (wp_mono (wp_insertNode _ S s') fun r s'' h => ?_))
    have hres : s'' = s' ∨ ∃ node', some node = some node' ∧ node'.status ≠ want
        ∧ s'' = s'.written { node' with status := want } := by
      rcases h with h | h
      · exact .inl h
      · exact .inr ⟨node, rfl, hne, h⟩
    rcases r with (e | _) | u
    · exact wp_pure hres
    · exact hres
    · exact wp_pure hres
  · exact wp_pure (.inl rfl)

/-- A list that is read, or nothing. -/
theorem wp_orDefault {α : Type} {p : SchedIo (List α)} (hp : Quiet p) (hs : Sound p)
    (S : Fault AnyError → Prop) (s : KeepSys Addr) :
    wp S (KeepSys.orDefault p : KeepIo Addr (List α)) s fun r s' =>
      s' = s ∧ ∀ l, r = .ok l → l = [] ∨ (exec p s.sched).1 = .ok l := by
  refine wp_bind (wp_attempt (wp_mono (wp_look hp hs S s) fun r s' h => ?_))
  obtain ⟨rfl, hl⟩ := h
  rcases r with (e | _) | l
  · refine wp_pure ⟨rfl, ?_⟩
    rintro l ⟨⟩
    exact .inl rfl
  · exact ⟨rfl, by simp⟩
  · refine wp_pure ⟨rfl, ?_⟩
    rintro l' ⟨⟩
    exact .inr (hl l rfl)

end Writes

section Invariant

variable {cfg : KeepConfig Addr} {s : KeepSys Addr}

/-- The trace tells the statuses of the table, and its writes are justified. -/
structure KeepSys.Inv (cfg : KeepConfig Addr) (s : KeepSys Addr) : Prop where
  keys : ∀ (id : UInt64) (node : NodeRecord), s.sched.nodes[id]? = some node → node.id = id
  last : ∀ id, lastStatus s.trace id = (s.sched.nodes[id]?).map (·.status)
  justified : Justified (s.Owns cfg) s.trace

theorem KeepSys.nodes_written (node : NodeRecord) (id : UInt64) :
    (s.written node).sched.nodes[id]? = if node.id = id then some node else s.sched.nodes[id]? :=
  lookup_insert _ _ _ _

/-- A record that keeps the addresses of the one it replaces. -/
theorem KeepSys.Owns.written {node : NodeRecord} {id : UInt64} {a : Addr} (h : s.Owns cfg id a)
    (haddrs : ∀ old, s.sched.nodes[node.id]? = some old → old.addrs = node.addrs) :
    (s.written node).Owns cfg id a := by
  obtain ⟨old, hold, ha⟩ := h
  by_cases hid : node.id = id
  · subst hid
    refine ⟨node, by rw [nodes_written, if_pos rfl], ?_⟩
    have : cfg.keepaliveAddrs node = cfg.keepaliveAddrs old := by
      simp only [KeepConfig.keepaliveAddrs, haddrs old hold]
    rwa [this]
  · exact ⟨old, by rw [nodes_written, if_neg hid, hold], ha⟩

/-- A record may be written that keeps the addresses of the one it replaces, and that writes online
over offline only with evidence. -/
theorem KeepSys.Inv.written (h : s.Inv cfg) {node : NodeRecord}
    (haddrs : ∀ old, s.sched.nodes[node.id]? = some old → old.addrs = node.addrs)
    (hevidence : node.status = "online" → lastStatus s.trace node.id = some "offline" →
      ∃ x ∈ sinceOffline s.trace node.id, Evidence (s.Owns cfg) node.id x) :
    (s.written node).Inv cfg := by
  refine ⟨fun id n hn => ?_, fun id => ?_, ?_⟩
  · rw [nodes_written] at hn
    split_ifs at hn with hid
    · rw [← Option.some.inj hn, hid]
    · exact h.keys id n hn
  · rw [nodes_written]
    refine (lastStatus_cons_status id node.id node.status s.trace).trans ?_
    rw [h.last id]
    split_ifs <;> rfl
  · have hj : Justified (s.Owns cfg) (.status node.id node.status :: s.trace) := by
      refine ⟨fun id he hoff => ?_, h.justified⟩
      simp only [NodeEvent.status.injEq] at he
      obtain ⟨rfl, hon⟩ := he
      exact hevidence hon hoff
    exact hj.mono fun id a ho => ho.written haddrs

/-- New events that write no status. -/
theorem KeepSys.Inv.noted (h : s.Inv cfg) (new : List (NodeEvent Addr)) (p : Prober Addr)
    (hnew : ∀ e ∈ new, ∀ id text, e ≠ .status id text) :
    KeepSys.Inv cfg { s with trace := new ++ s.trace, prober := p } := by
  refine ⟨h.keys, fun id => ?_, h.justified.append fun e he id => hnew e he id _⟩
  exact (lastStatus_append fun e he text => hnew e he id text).trans (h.last id)

theorem wp_heartbeat (h : s.Inv cfg) (nowMs nodeId : UInt64) (S : Fault AnyError → Prop) :
    wp S (KeepSys.heartbeat nowMs nodeId) s fun _ s' => s'.Inv cfg := by
  have hnote : KeepSys.Inv cfg (s.note (.heartbeat nodeId)) := by
    refine h.noted [.heartbeat nodeId] s.prober fun e he => ?_
    simp only [List.mem_singleton] at he
    simp [he]
  refine wp_bind (wp_modify ?_)
  refine wp_bind (wp_mono (wp_look (quiet_getNode nodeId) (plain_getNode nodeId).sound S _)
    fun r s' hr => ?_)
  obtain ⟨rfl, hfound⟩ := hr
  rcases r with e | found
  · exact hnote
  obtain rfl : s.sched.nodes[nodeId]? = found := Except.ok.inj (hfound found rfl)
  rcases hnode : s.sched.nodes[nodeId]? with _ | node
  · exact wp_stop hnote
  refine wp_mono (wp_insertNode _ S _) fun r s' hs => ?_
  rcases hs with rfl | rfl
  · exact hnote
  have hid := h.keys nodeId node hnode
  refine hnote.written (fun old hold => ?_) fun _ _ => ?_
  · have hold : s.sched.nodes[node.id]? = some old := hold
    rw [hid, hnode] at hold
    rw [← Option.some.inj hold]
  · refine ⟨.heartbeat nodeId, ?_, hid.symm⟩
    exact mem_sinceOffline [.heartbeat nodeId] (by simp) (by simp)

theorem wp_registerNode (h : s.Inv cfg) {nowMs : UInt64} {req : RegisterRequest}
    (hfree : s.sched.nodes[s.sched.nextCount Store.nextNodeIdKey]? = none)
    (S : Fault AnyError → Prop) :
    wp S (KeepSys.registerNode nowMs req) s fun _ s' => s'.Inv cfg := by
  unfold KeepSys.registerNode
  split_ifs
  · exact wp_stop h
  refine wp_bind (wp_mono (wp_db (allOrNothing_nextId Store.nextNodeIdKey)
    (plain_nextId Store.nextNodeIdKey).sound S s) fun r s' hr => ?_)
  rcases r with e | id
  · rw [hr]
    exact h
  obtain ⟨hid, rfl⟩ := hr
  obtain rfl : s.sched.nextCount Store.nextNodeIdKey = id := Except.ok.inj hid
  have hs : KeepSys.Inv cfg
      { s with sched := (exec (Store.nextId Store.nextNodeIdKey) s.sched).2 } :=
    ⟨h.keys, h.last, h.justified⟩
  refine wp_mono (wp_insertNode _ S _) fun r s' hs' => ?_
  rcases hs' with rfl | rfl
  · exact hs
  refine hs.written (fun old hold => ?_) fun _ hoff => ?_
  · exact absurd (hfree.symm.trans hold) (by simp)
  · have hlast := h.last (s.sched.nextCount Store.nextNodeIdKey)
    rw [hfree] at hlast
    exact absurd (hlast.symm.trans hoff) (by simp)

theorem KeepSys.Inv.restart (h : s.Inv cfg) : s.restart.Inv cfg := ⟨h.keys, h.last, h.justified⟩

end Invariant

section Pongs

variable [DecidableEq Addr] {cfg : KeepConfig Addr} {p : Prober Addr} {a : Addr}

theorem available_record (failThreshold : UInt32) (b : Addr) (ok : Bool)
    (h : (p.record failThreshold b ok).available a = true) :
    p.available a = true ∨ (b = a ∧ ok = true) := by
  by_cases hab : a = b
  · subst hab
    cases ok
    · left
      simp only [Prober.available, Prober.record, Keepalive.record, Bool.false_eq_true, if_false,
        HashMap.get?_insert, if_true, Option.map_some, Option.getD_some] at h
      split_ifs at h
      unfold Prober.available
      rcases hg : p.addrs.get? a with _ | state
      · rfl
      · rw [hg] at h
        exact h
    · exact .inr ⟨rfl, rfl⟩
  · left
    have hget : (p.record failThreshold b ok).addrs.get? a = p.addrs.get? a := by
      simp only [Prober.record, Keepalive.record]
      split_ifs <;> rw [HashMap.get?_insert, if_neg hab]
    simpa only [Prober.available, hget] using h

theorem available_register (b : Addr) : (p.register b).available a = p.available a := by
  simp only [Prober.available, Prober.register, Keepalive.register]
  split_ifs with hb
  · rfl
  · rw [HashMap.get?_insert]
    split_ifs with hab
    · subst hab
      rw [Option.not_isSome_iff_eq_none.1 hb]
      rfl
    · rfl

theorem available_registerAll : ∀ (addrs : List Addr) (p : Prober Addr),
    (p.registerAll addrs).available a = p.available a
  | [], _ => rfl
  | b :: addrs, p => (available_registerAll addrs (p.register b)).trans (available_register b)

theorem available_pingAll (t : Tick Addr) (addrs : List Addr) :
    (p.pingAll t addrs).available a = p.available a := by
  unfold Prober.pingAll
  induction addrs.zipIdx generalizing p with
  | nil => rfl
  | cons e l ih => exact (ih (p := p.ping e.1 (t.sent e.2))).trans rfl

theorem available_receiveAll (failThreshold : UInt32) : ∀ (datagrams : List Bytes)
    (p : Prober Addr), (Prober.receiveAll failThreshold datagrams p).1.available a = true →
      p.available a = true ∨ a ∈ (Prober.receiveAll failThreshold datagrams p).2
  | [], _, h => .inl h
  | d :: ds, p, h => by
    rcases available_receiveAll failThreshold ds (p.receive failThreshold d).1 h with h' | h'
    · have hd : p.available a = true ∨ (p.receive failThreshold d).2 = some a := by
        revert h'
        unfold Prober.receive
        rcases parsePong (d.take pongLen) with _ | seq
        · exact .inl
        simp only
        rcases p.outstanding.get? seq with _ | ⟨b, sent⟩
        · exact .inl
        intro h'
        rcases available_record _ b true h' with h' | ⟨rfl, -⟩
        · exact .inl h'
        · exact .inr rfl
      refine hd.imp_right fun hd => ?_
      simp only [Prober.receiveAll, hd]
      exact List.mem_append_left _ (by simp)
    · exact .inr (List.mem_append_right _ h')

theorem available_expire (failThreshold : UInt32) (intervalSecs : ℕ)
    (iter : IterOrder (UInt32 × Addr × ℕ)) (clock : UInt32 → ℕ)
    (h : (p.expire failThreshold intervalSecs iter clock).available a = true) :
    p.available a = true := by
  unfold Prober.expire at h
  simp only at h
  generalize (iter.order p.outstanding.entries).filter _ = expired at h
  induction expired generalizing p with
  | nil => exact h
  | cons e expired ih =>
    rcases available_record failThreshold e.2.1 false (ih h) with h' | ⟨-, h'⟩
    · exact h'
    · cases h'

/-- Only a pong makes an unavailable address available. -/
theorem available_probe (t : Tick Addr) (m : Meta Addr) (hbefore : p.available a = false)
    (hafter : (p.probe cfg t m).1.available a = true) : a ∈ (p.probe cfg t m).2 := by
  rcases available_receiveAll cfg.failThreshold t.datagrams _
    (available_expire cfg.failThreshold cfg.intervalSecs t.expiryOrder t.clock hafter) with h | h
  · rw [available_pingAll, available_registerAll, hbefore] at h
    cases h
  · exact h

end Pongs

section Ticks

variable {cfg : KeepConfig Addr} {s₀ s : KeepSys Addr} {t : Tick Addr}

theorem quiet_listNodes : Quiet Store.listNodes :=
  .bind (quiet_call _) fun _ => .bind (quiet_call _) fun _ => .bind (quiet_look _ _) fun _ =>
    .bind (.each (fun _ => quiet_call _) _) fun _ => .pure _

theorem plain_listNodes : Plain Store.listNodes :=
  .bind (plain_call _) fun _ => .bind (plain_call _) fun _ => .bind (plain_look _ _) fun _ =>
    .bind (.each (fun _ => plain_call _) _) fun _ => .pure _

theorem quiet_offlineNodes (nowMs timeoutMs : UInt64) :
    Quiet (Store.offlineNodes nowMs timeoutMs) :=
  .bind quiet_listNodes fun _ => .pure _

theorem plain_offlineNodes (nowMs timeoutMs : UInt64) :
    Plain (Store.offlineNodes nowMs timeoutMs) :=
  .bind plain_listNodes fun _ => .pure _

theorem exec_listNodes (s : Sched) : exec Store.listNodes s
    = (.ok (s.nodes.toList.map (·.2)), s) := by
  simp only [Store.listNodes, exec_bind, exec_storeCall, exec_storeLook,
    exec_each_idle fun _ => exec_storeCall _ s, exec_pure]

theorem exec_offlineNodes (nowMs timeoutMs : UInt64) (s : Sched) :
    (exec (Store.offlineNodes nowMs timeoutMs) s).1 = .ok (((s.nodes.toList.map (·.2)).filter
      fun n => nowMs.toNat - n.lastHeartbeatMs.toNat > timeoutMs.toNat).map (·.id)) := by
  simp only [Store.offlineNodes, exec_bind, exec_listNodes, exec_pure]

/-- A node of the list is in the table under its own id. -/
theorem KeepSys.Inv.of_mem_list (h : s.Inv cfg) {node : NodeRecord}
    (hn : node ∈ s.sched.nodes.toList.map (·.2)) : s.sched.nodes[node.id]? = some node := by
  obtain ⟨⟨k, n⟩, hmem, rfl⟩ := List.mem_map.1 hn
  have hget := Std.ExtTreeMap.mem_toList_iff_getElem?_eq_some.1 hmem
  rw [h.keys k n hget, hget]

/-- What the first pass of a tick makes of the state before it: a node that is offline was offline
or has lost its heartbeat. -/
structure KeepSys.Marked (cfg : KeepConfig Addr) (t : Tick Addr) (s s₀ : KeepSys Addr) : Prop where
  inv : s.Inv cfg
  prober : s.prober = s₀.prober
  nodes : ∀ (id : UInt64) (node : NodeRecord), s.sched.nodes[id]? = some node →
    ∃ old, s₀.sched.nodes[id]? = some old ∧ node.addrs = old.addrs
      ∧ (node.status = "offline" → old.status = "offline" ∨ t.TimedOut cfg old)

theorem KeepSys.Marked.offline (h : s.Marked cfg t s₀) {node : NodeRecord} {id : UInt64}
    (hnode : s.sched.nodes[id]? = some node)
    (hlost : ∀ old, s₀.sched.nodes[id]? = some old → t.TimedOut cfg old) :
    (s.written { node with status := "offline" }).Marked cfg t s₀ := by
  have hid := h.inv.keys id node hnode
  refine ⟨h.inv.written (fun old hold => ?_) (by simp), h.prober, fun id' n hn => ?_⟩
  · have hold : s.sched.nodes[node.id]? = some old := hold
    rw [hid, hnode] at hold
    rw [← Option.some.inj hold]
  · rw [nodes_written] at hn
    split_ifs at hn with hid'
    · obtain rfl : id = id' := hid.symm.trans hid'
      obtain ⟨old, hold, haddrs, -⟩ := h.nodes id node hnode
      obtain rfl := Option.some.inj hn
      exact ⟨old, hold, haddrs, fun _ => .inr (hlost old hold)⟩
    · exact h.nodes id' n hn

/-- The first pass. -/
theorem wp_markOffline (h : s.Inv cfg) (S : Fault AnyError → Prop) {offline : List UInt64}
    (hoff : offline = [] ∨ (exec (Store.offlineNodes t.nowMs cfg.heartbeatTimeoutMs) s.sched).1
      = .ok offline) :
    wp S (each (fun id => KeepSys.setStatus id "offline") offline : KeepIo Addr Unit) s
      fun _ s' => s'.Marked cfg t s := by
  have hlost : ∀ id ∈ offline, ∀ old, s.sched.nodes[id]? = some old → t.TimedOut cfg old := by
    intro id hid old hold
    rcases hoff with rfl | hoff
    · cases hid
    rw [exec_offlineNodes] at hoff
    obtain rfl := Except.ok.inj hoff
    obtain ⟨node, hnode, rfl⟩ := List.mem_map.1 hid
    obtain ⟨hnode, hlate⟩ := List.mem_filter.1 hnode
    rw [h.of_mem_list hnode] at hold
    rw [← Option.some.inj hold]
    have hlate : t.nowMs.toNat - node.lastHeartbeatMs.toNat > cfg.heartbeatTimeoutMs.toNat := by
      simpa using hlate
    exact hlate
  refine wp_each (I := fun ids s' => s'.Marked cfg t s ∧ ∀ id ∈ ids, id ∈ offline)
    (fun id ids s' hI => ?_) (fun s' hI => hI.1) offline s
    ⟨⟨h, rfl, fun id node hn => ⟨node, hn, rfl, .inl⟩⟩, fun _ hid => hid⟩
  obtain ⟨hm, hids⟩ := hI
  refine wp_mono (wp_setStatus id "offline" S s') fun r s'' hs => ?_
  have hm' : s''.Marked cfg t s := by
    rcases hs with rfl | ⟨node, hnode, -, rfl⟩
    · exact hm
    · exact hm.offline hnode (hlost id (hids id List.mem_cons_self))
  rcases r with e | u
  · exact hm'
  · exact ⟨hm', fun i hi => hids i (List.mem_cons_of_mem _ hi)⟩

variable [DecidableEq Addr]

/-- An address of the map is one of the node it is kept with. -/
theorem mem_metaOf {nodes : List NodeRecord} {e : Addr × UInt64 × UInt32}
    (he : e ∈ (cfg.metaOf nodes).entries) :
    ∃ node ∈ nodes, node.id = e.2.1 ∧ e.1 ∈ (cfg.keepaliveAddrs node).map (·.1) := by
  have hsub : ∀ (l : List (Addr × UInt64 × UInt32)) (m : Meta Addr),
      e ∈ (l.foldl (fun m e => m.insert e.1 e.2) m).entries → e ∈ l ∨ e ∈ m.entries := by
    intro l
    induction l with
    | nil => exact fun m => .inr
    | cons x l ih =>
      intro m hm
      rcases ih _ hm with h | h
      · exact .inl (List.mem_cons_of_mem _ h)
      · rcases List.mem_cons.1 h with rfl | h
        · exact .inl List.mem_cons_self
        · exact .inr (List.mem_filter.1 h).1
  obtain ⟨node, hnode, hmem⟩ :=
    List.mem_flatMap.1 ((hsub _ _ he).resolve_right List.not_mem_nil)
  obtain ⟨x, hx, rfl⟩ := List.mem_map.1 hmem
  exact ⟨node, hnode, rfl, List.mem_map_of_mem hx⟩

/-- Whenever the address of an entry is available and its node is offline, something was heard of
the node. -/
def KeepSys.Heard (cfg : KeepConfig Addr) (s : KeepSys Addr) (e : Addr × UInt64 × UInt32) : Prop :=
  s.prober.available e.1 = true → lastStatus s.trace e.2.1 = some "offline" →
    ∃ x ∈ sinceOffline s.trace e.2.1, Evidence (s.Owns cfg) e.2.1 x

/-- A write to another node changes nothing for an entry. -/
theorem KeepSys.Heard.written {e : Addr × UInt64 × UInt32} (h : s.Heard cfg e) {node : NodeRecord}
    (haddrs : ∀ old, s.sched.nodes[node.id]? = some old → old.addrs = node.addrs)
    (hne : node.id ≠ e.2.1) : (s.written node).Heard cfg e := by
  intro hav hoff
  have hlast : lastStatus (s.written node).trace e.2.1 = lastStatus s.trace e.2.1 :=
    (lastStatus_cons_status _ _ _ _).trans (if_neg hne)
  obtain ⟨x, hx, hev⟩ := h hav (hlast.symm.trans hoff)
  refine ⟨x, ?_, hev.mono fun id a ho => ho.written haddrs⟩
  have hsince : sinceOffline (s.written node).trace e.2.1
      = .status node.id node.status :: sinceOffline s.trace e.2.1 :=
    List.takeWhile_cons_of_pos (by simp [hne])
  rw [hsince]
  exact List.mem_cons_of_mem _ hx

/-- The last pass, over entries of distinct nodes. -/
theorem wp_syncAll (h : s.Inv cfg) (S : Fault AnyError → Prop)
    {entries : List (Addr × UInt64 × UInt32)} (hids : (entries.map (·.2.1)).Nodup)
    (hheard : ∀ e ∈ entries, s.Heard cfg e) :
    wp S (each KeepSys.syncStatus entries) s fun _ s' => s'.Inv cfg := by
  refine wp_each (I := fun es s' => s'.Inv cfg ∧ (es.map (·.2.1)).Nodup
    ∧ ∀ e ∈ es, s'.Heard cfg e) (fun e es s' hI => ?_) (fun s' hI => hI.1) entries s
    ⟨h, hids, hheard⟩
  obtain ⟨hinv, hnd, hh⟩ := hI
  rw [List.map_cons, List.nodup_cons] at hnd
  refine wp_bind (wp_get ?_)
  refine wp_mono (wp_setStatus e.2.1 _ S s') fun r s'' hs => ?_
  have hnext : s''.Inv cfg ∧ ∀ e' ∈ es, s''.Heard cfg e' := by
    rcases hs with rfl | ⟨node, hnode, -, rfl⟩
    · exact ⟨hinv, fun e' he' => hh e' (List.mem_cons_of_mem _ he')⟩
    have hid := hinv.keys e.2.1 node hnode
    set want := if s'.prober.available e.1 = true then "online" else "offline" with hwant
    have haddrs : ∀ old,
        s'.sched.nodes[({ node with status := want } : NodeRecord).id]? = some old →
        old.addrs = node.addrs := by
      intro old hold
      have hold : s'.sched.nodes[node.id]? = some old := hold
      rw [hid, hnode] at hold
      rw [← Option.some.inj hold]
    refine ⟨hinv.written haddrs fun hon hoff => ?_, fun e' he' => ?_⟩
    · have hav : s'.prober.available e.1 = true := by
        by_contra hav
        rw [if_neg hav] at hwant
        rw [hwant] at hon
        exact absurd (show "offline" = "online" from hon) (by decide)
      have := hh e List.mem_cons_self hav
      rw [← hid] at this
      exact this hoff
    · refine (hh e' (List.mem_cons_of_mem _ he')).written haddrs fun heq => hnd.1 ?_
      exact List.mem_map.2 ⟨e', he', heq.symm.trans hid⟩
  rcases r with err | u
  · exact hnext.1
  · exact ⟨hnext.1, hnd.2, hnext.2⟩

/-- What the memory's part of a tick prepares for the last pass. -/
theorem KeepSys.Marked.probed (hm : s.Marked cfg t s₀) {faults : List (Fault AnyError)}
    (hcare : (KeepAct.tick t faults).Careful cfg s₀) {nodes : List NodeRecord}
    (hnodes : ∀ node ∈ nodes, s.sched.nodes[node.id]? = some node) :
    ((s.probe cfg t (cfg.metaOf nodes)).Inv cfg)
      ∧ ((cfg.metaOf nodes).entries.map (·.2.1)).Nodup
      ∧ ∀ e ∈ (cfg.metaOf nodes).entries, (s.probe cfg t (cfg.metaOf nodes)).Heard cfg e := by
  set m := cfg.metaOf nodes
  have hown : ∀ e ∈ m.entries, ∃ node old, s.sched.nodes[e.2.1]? = some node
      ∧ s₀.sched.nodes[e.2.1]? = some old ∧ cfg.keepaliveAddrs node = cfg.keepaliveAddrs old
      ∧ e.1 ∈ (cfg.keepaliveAddrs old).map (·.1)
      ∧ (node.status = "offline" → old.status = "offline" ∨ t.TimedOut cfg old) := by
    intro e he
    obtain ⟨node, hnode, hid, ha⟩ := mem_metaOf he
    have hnode := hnodes node hnode
    rw [hid] at hnode
    obtain ⟨old, hold, haddrs, hoff⟩ := hm.nodes e.2.1 node hnode
    have hkeep : cfg.keepaliveAddrs node = cfg.keepaliveAddrs old := by
      simp only [KeepConfig.keepaliveAddrs, haddrs]
    exact ⟨node, old, hnode, hold, hkeep, hkeep ▸ ha, hoff⟩
  set pongs : List (NodeEvent Addr) := (s.prober.probe cfg t m).2.reverse.map .pong
  have hstatus : ∀ e ∈ pongs, ∀ id text, e ≠ .status id text := by
    intro e he id text
    obtain ⟨a, -, rfl⟩ := List.mem_map.1 he
    simp
  refine ⟨hm.inv.noted pongs _ hstatus, ?_, fun e he hav hoff => ?_⟩
  · -- entries of one node have its one address, and an address has one entry
    refine List.Nodup.map_on (fun e he e' he' heq => ?_) m.nodup.of_map
    obtain ⟨-, old, -, hold, -, ha, -⟩ := hown e he
    obtain ⟨-, old', -, hold', -, ha', -⟩ := hown e' he'
    rw [heq, hold'] at hold
    obtain rfl := Option.some.inj hold
    obtain ⟨x, hx, hx'⟩ := List.mem_map.1 ha
    obtain ⟨y, hy, hy'⟩ := List.mem_map.1 ha'
    have haddr := (hcare _ _ hold').1 x hx y hy
    rw [hx', hy'] at haddr
    exact List.inj_on_of_nodup_map m.nodup he he' haddr
  · obtain ⟨node, old, hnode, hold, hkeep, ha, hlost⟩ := hown e he
    have hlast : lastStatus (s.probe cfg t m).trace e.2.1 = lastStatus s.trace e.2.1 :=
      lastStatus_append fun x hx text => hstatus x hx _ _
    rw [hlast, hm.inv.last, hnode] at hoff
    obtain ⟨x, hx, hx'⟩ := List.mem_map.1 ha
    have hbefore : s.prober.available e.1 = false := by
      rw [hm.prober, ← hx']
      exact (hcare _ _ hold).2 (hlost (Option.some.inj hoff)) x hx
    have hpong := available_probe t m hbefore hav
    refine ⟨.pong e.1, mem_sinceOffline pongs (fun x hx text => hstatus x hx _ _) ?_, ?_⟩
    · exact List.mem_map.2 ⟨e.1, List.mem_reverse.2 hpong, rfl⟩
    · exact ⟨node, hnode, hkeep ▸ ha⟩

theorem wp_tick (h : s.Inv cfg) {faults : List (Fault AnyError)}
    (hcare : (KeepAct.tick t faults).Careful cfg s) (S : Fault AnyError → Prop) :
    wp S (KeepSys.tick cfg t) s fun _ s' => s'.Inv cfg := by
  refine wp_bind (wp_mono (wp_orDefault (.bind quiet_listNodes fun _ => .pure _)
    (Sound.bind plain_listNodes.sound fun _ => .pure _) S s) fun r s' hr => ?_)
  obtain ⟨rfl, hoff⟩ := hr
  rcases r with e | offline
  · exact h
  refine wp_bind (wp_mono (wp_markOffline h S (hoff offline rfl)) fun r s₁ hm => ?_)
  rcases r with e | u
  · exact hm.inv
  refine wp_bind (wp_mono (wp_orDefault quiet_listNodes plain_listNodes.sound S s₁)
    fun r s₂ hr => ?_)
  obtain ⟨rfl, hlist⟩ := hr
  rcases r with e | nodes
  · exact hm.inv
  have hnodes : ∀ node ∈ nodes, s₂.sched.nodes[node.id]? = some node := by
    intro node hnode
    rcases hlist nodes rfl with rfl | hlist
    · cases hnode
    rw [exec_listNodes] at hlist
    obtain rfl := Except.ok.inj hlist
    exact hm.inv.of_mem_list hnode
  obtain ⟨hinv, hids, hheard⟩ := hm.probed hcare hnodes
  have hperm := t.statusOrder.perm (cfg.metaOf nodes).entries
  refine wp_bind (wp_modify (wp_syncAll hinv S ?_ fun e he => hheard e (hperm.mem_iff.1 he)))
  exact (hperm.map _).nodup_iff.2 hids

end Ticks

section Runs

variable {cfg : KeepConfig Addr} {s : KeepSys Addr}

theorem KeepSys.Inv.after {p : KeepIo Addr Unit} (hkeep : ∀ S, wp S p s fun _ s' => s'.Inv cfg)
    (faults : List (Fault AnyError)) : (s.after p faults).Inv cfg := by
  have h := hkeep (fun _ => True) faults fun _ _ => trivial
  unfold KeepSys.after
  rcases hr : p.run ⟨s, faults⟩ with ⟨(e | _) | a, w⟩ <;> rw [hr] at h
  · exact h
  · exact h.restart
  · exact h

theorem inv_init : (KeepSys.init : KeepSys Addr).Inv cfg := by
  refine ⟨fun id node h => ?_, fun id => ?_, trivial⟩
  · simp [KeepSys.init, Sched.empty] at h
  · simp [KeepSys.init, Sched.empty, lastStatus]

variable [DecidableEq Addr]

theorem KeepSys.Inv.step (h : s.Inv cfg) {a : KeepAct Addr} (hcare : a.Careful cfg s) :
    (s.step cfg a).Inv cfg := by
  cases a with
  | tick t faults => exact .after (wp_tick h hcare) faults
  | heartbeat nowMs nodeId faults => exact .after (wp_heartbeat h nowMs nodeId) faults
  | register nowMs req faults => exact .after (wp_registerNode h hcare) faults
  | restart => exact h.restart

theorem KeepSys.Inv.run : ∀ (acts : List (KeepAct Addr)) {s : KeepSys Addr}, s.Inv cfg →
    s.CarefulRun cfg acts → (s.run cfg acts).Inv cfg
  | [], _, h, _ => h
  | _ :: acts, _, h, hcare => KeepSys.Inv.run acts (h.step hcare.1) hcare.2

/-- In every run of careful steps, an offline node was written online only after a heartbeat from it
or a pong from a keepalive address of its own, received since it went offline. -/
theorem run_justified (acts : List (KeepAct Addr)) (hcare : KeepSys.init.CarefulRun cfg acts) :
    let s := KeepSys.init.run cfg acts
    Justified (s.Owns cfg) s.trace
      ∧ ∀ id, lastStatus s.trace id = (s.sched.nodes[id]?).map (·.status) := by
  intro s
  have h : s.Inv cfg := KeepSys.Inv.run acts inv_init hcare
  exact ⟨h.justified, h.last⟩

end Runs

section Example

/-- Every text is the address 5, which is due in every tick; one failure is enough. -/
def oneAddrConfig : KeepConfig ℕ := ⟨1, 1, 10, fun _ => 0, fun _ => some 5⟩

def tickAtMs (nowMs : UInt64) (clock : ℕ) (datagrams : List Bytes) : Tick ℕ :=
  ⟨0, nowMs, .same, fun _ => 0, datagrams, .same, fun _ => clock, .same⟩

def registerCafe : KeepAct ℕ := .register 0 ⟨"cafe", "e", [⟨"a", "keepalive", ""⟩]⟩ []

/-- A ping expires, and the next one is answered. -/
def answeredActs : List (KeepAct ℕ) :=
  [registerCafe, .tick (tickAtMs 1 1000000000 []) [],
    .tick (tickAtMs 2 0 [pongMagic ++ [2, 0, 0, 0]]) []]

def cafeNode (status : String) : NodeRecord :=
  ⟨1, "cafe", "e", s!"{(0 : UInt64)}-{(1 : UInt64)}", [⟨"a", "keepalive", ""⟩], status, 0⟩

theorem answeredActs_careful : KeepSys.init.CarefulRun oneAddrConfig answeredActs := by
  have haddrs : ∀ status, oneAddrConfig.keepaliveAddrs (cafeNode status) = [(5, 0)] := fun _ => rfl
  refine ⟨?_, ?_, ?_, trivial⟩
  · simp [registerCafe, KeepAct.Careful, KeepSys.init, Sched.empty]
  · intro id node hnode
    have hnodes : (KeepSys.init.run oneAddrConfig (answeredActs.take 1)).sched.nodes
        = Std.ExtTreeMap.insert ∅ 1 (cafeNode "online") := rfl
    have hnode := (congrArg (·[id]?) hnodes).symm.trans hnode
    simp only [lookup_insert, Std.ExtTreeMap.getElem?_empty] at hnode
    split_ifs at hnode
    rw [← Option.some.inj hnode, haddrs]
    refine ⟨by simp, fun hlost => ?_⟩
    rcases hlost with hoff | hlate
    · exact absurd (show "online" = "offline" from hoff) (by decide)
    · exact absurd (show 1 - 0 > 10 from hlate) (by decide)
  · intro id node hnode
    have hnodes : (KeepSys.init.run oneAddrConfig (answeredActs.take 2)).sched.nodes
        = Std.ExtTreeMap.insert (Std.ExtTreeMap.insert ∅ 1 (cafeNode "online")) 1
          (cafeNode "offline") := rfl
    have hnode := (congrArg (·[id]?) hnodes).symm.trans hnode
    simp only [lookup_insert, Std.ExtTreeMap.getElem?_empty] at hnode
    split_ifs at hnode
    rw [← Option.some.inj hnode, haddrs]
    refine ⟨by simp, fun _ a ha => ?_⟩
    rw [List.mem_singleton.1 ha]
    rfl

theorem run_justified_pong : KeepSys.init.CarefulRun oneAddrConfig answeredActs
    ∧ (KeepSys.init.run oneAddrConfig answeredActs).trace
      = [.status 1 "online", .pong 5, .status 1 "offline", .status 1 "online"]
    ∧ Justified ((KeepSys.init.run oneAddrConfig answeredActs).Owns oneAddrConfig)
      (KeepSys.init.run oneAddrConfig answeredActs).trace :=
  ⟨answeredActs_careful, rfl, (run_justified answeredActs answeredActs_careful).1⟩

/-- The tick that takes a node offline for its heartbeat puts it online again, since its address
counts as available until pings fail. -/
theorem run_back_online_unheard : ¬ Justified
    ((KeepSys.init.run oneAddrConfig [registerCafe, .tick (tickAtMs 100 0 []) []]).Owns
      oneAddrConfig)
    (KeepSys.init.run oneAddrConfig [registerCafe, .tick (tickAtMs 100 0 []) []]).trace := by
  have htrace : (KeepSys.init.run oneAddrConfig [registerCafe, .tick (tickAtMs 100 0 []) []]).trace
      = [.status 1 "online", .status 1 "offline", .status 1 "online"] := rfl
  rw [htrace]
  intro h
  obtain ⟨x, hx, -⟩ := h.1 1 rfl rfl
  simp [sinceOffline] at hx

end Example

end BlazeNet

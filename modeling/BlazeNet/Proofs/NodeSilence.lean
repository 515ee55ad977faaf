import BlazeNet.NodeSilence
import BlazeNet.Proofs.StatusOrder

/-!
# A node that is not heard of ends offline

A ping of an address that answers none is outstanding until it has grown too old, and counts as a
failure then (`Owing`). So after as many pings as the threshold says, and one tick later than they
can live, every address of the node is unavailable. The tick that then finds its heartbeat lost
leaves it offline, and nothing brings it back.
-/

namespace BlazeNet

open Wire FaultIo Io RustStd KeepSys

variable {Addr : Type} [DecidableEq Addr] {cfg : KeepConfig Addr}

section Pings

variable {p : Prober Addr} {a b : Addr} {time room sent : ℕ}

/-- Of the pings of an address that were sent by some time, those that are still outstanding have
sequence numbers of their own among the last, and the others have failed. -/
def Owing (a : Addr) (time room sent : ℕ) (p : Prober Addr) : Prop :=
  ∃ out : List UInt32, out.Nodup
    ∧ (∀ seq ∈ out, (p.seq - seq).toNat < room
      ∧ ∃ at_ ≤ time, p.outstanding.get? seq = some (a, at_))
    ∧ sent ≤ out.length + failRun a p.log

theorem owing_zero (a : Addr) (time : ℕ) (p : Prober Addr) : Owing a time 0 0 p :=
  ⟨[], List.nodup_nil, by simp, Nat.zero_le _⟩

theorem Owing.mono {room' sent' : ℕ} (h : Owing a time room sent p) (hroom : room ≤ room')
    (hsent : sent' ≤ sent) : Owing a time room' sent' p := by
  obtain ⟨out, hnodup, hout, hcount⟩ := h
  exact ⟨out, hnodup, fun seq hseq => ⟨(hout seq hseq).1.trans_le hroom, (hout seq hseq).2⟩,
    hsent.trans hcount⟩

theorem Owing.register (h : Owing a time room sent p) (b : Addr) :
    Owing a time room sent (p.register b) := h

/-- The next sequence number is later than the last ones. -/
theorem sub_succ_toNat {seq q : UInt32} {room : ℕ} (h : (seq - q).toNat < room)
    (hroom : room < 2 ^ 32) : q ≠ seq + 1 ∧ (seq + 1 - q).toNat < room + 1 := by
  have hnext : seq + 1 - q = seq - q + 1 := by grind
  have htoNat : (seq - q + 1).toNat = (seq - q).toNat + 1 := by
    rw [UInt32.toNat_add]
    exact Nat.mod_eq_of_lt (by simp only [UInt32.reduceToNat]; omega)
  refine ⟨?_, by rw [hnext, htoNat]; omega⟩
  rintro rfl
  rw [← hnext] at htoNat
  simp at htoNat

theorem Owing.ping (h : Owing a time room sent p) (hroom : room < 2 ^ 32) (b : Addr) (at_ : ℕ) :
    Owing a time (room + 1) sent (p.ping b at_) := by
  obtain ⟨out, hnodup, hout, hcount⟩ := h
  refine ⟨out, hnodup, fun seq hseq => ?_, hcount⟩
  obtain ⟨hlt, t, ht, hget⟩ := hout seq hseq
  obtain ⟨hne, hlt'⟩ := sub_succ_toNat hlt hroom
  exact ⟨hlt', t, ht, by rw [Prober.ping, HashMap.get?_insert, if_neg hne, hget]⟩

/-- A ping of the address, sent in time. -/
theorem Owing.pinged (h : Owing a time room sent p) (hroom : room < 2 ^ 32) {at_ : ℕ}
    (hat : at_ ≤ time) : Owing a time (room + 1) (sent + 1) (p.ping a at_) := by
  obtain ⟨out, hnodup, hout, hcount⟩ := h
  have hold : ∀ seq ∈ out, seq ≠ p.seq + 1 ∧ (p.seq + 1 - seq).toNat < room + 1 := fun seq hseq =>
    sub_succ_toNat (hout seq hseq).1 hroom
  refine ⟨(p.seq + 1) :: out, List.nodup_cons.2 ⟨fun hmem => (hold _ hmem).1 rfl, hnodup⟩,
    fun seq hseq => ?_, ?_⟩
  · rcases List.mem_cons.1 hseq with rfl | hseq
    · refine ⟨?_, at_, hat, by rw [Prober.ping, HashMap.get?_insert, if_pos rfl]⟩
      simp [Prober.ping]
    · obtain ⟨-, t, ht, hget⟩ := hout seq hseq
      exact ⟨(hold seq hseq).2, t, ht,
        by rw [Prober.ping, HashMap.get?_insert, if_neg (hold seq hseq).1, hget]⟩
  · change sent + 1 ≤ out.length + 1 + failRun a p.log
    omega

theorem Owing.pingAll (h : Owing a time room sent p) (t : Tick Addr) (addrs : List Addr)
    (hroom : room + addrs.length < 2 ^ 32) :
    Owing a time (room + addrs.length) sent (p.pingAll t addrs) := by
  have hfold : ∀ (l : List (Addr × ℕ)) {p : Prober Addr} {room : ℕ}, Owing a time room sent p →
      room + l.length < 2 ^ 32 →
      Owing a time (room + l.length) sent (l.foldl (fun p e => p.ping e.1 (t.sent e.2)) p) := by
    intro l
    induction l with
    | nil => exact fun h _ => h
    | cons e l ih =>
      intro p room h hroom
      rw [List.length_cons] at hroom
      have := ih (h.ping (by omega) e.1 (t.sent e.2)) (by omega)
      exact this.mono (by rw [List.length_cons]; omega) le_rfl
  have := hfold addrs.zipIdx h (by rwa [List.length_zipIdx])
  rwa [List.length_zipIdx] at this

/-- A tick that pings the address in time. -/
theorem Owing.pingedAll (h : Owing a time room sent p) {t : Tick Addr} (ht : ∀ k, t.sent k ≤ time)
    {addrs : List Addr} (ha : a ∈ addrs) (hroom : room + addrs.length < 2 ^ 32) :
    Owing a time (room + addrs.length) (sent + 1) (p.pingAll t addrs) := by
  have hfold : ∀ (l : List (Addr × ℕ)) {p : Prober Addr} {room sent : ℕ}, Owing a time room sent p →
      room + l.length < 2 ^ 32 → Owing a time (room + l.length)
        (sent + if a ∈ l.map (·.1) then 1 else 0)
          (l.foldl (fun p e => p.ping e.1 (t.sent e.2)) p) := by
    intro l
    induction l with
    | nil => exact fun h _ => by simpa using h
    | cons e l ih =>
      intro p room sent h hroom
      rw [List.length_cons] at hroom
      obtain ⟨b, k⟩ := e
      rcases eq_or_ne b a with rfl | hne
      · have := ih (h.pinged (by omega) (ht k)) (by omega)
        exact this.mono (by rw [List.length_cons]; omega) (by simp)
      · have := ih (h.ping (by omega) b (t.sent k)) (by omega)
        refine this.mono (by rw [List.length_cons]; omega) (le_of_eq ?_)
        simp only [List.map_cons, List.mem_cons, hne.symm, false_or]
  have := hfold addrs.zipIdx h (by rwa [List.length_zipIdx])
  rw [List.length_zipIdx] at this
  refine this.mono le_rfl ?_
  rw [if_pos (by rwa [List.zipIdx_map_fst])]

/-- Datagrams of which none answers a ping of the address. -/
theorem Owing.receive (h : Owing a time room sent p) (failThreshold : UInt32) (d : Bytes)
    (ha : (p.receive failThreshold d).2 ≠ some a) :
    Owing a time room sent (p.receive failThreshold d).1 := by
  revert ha
  unfold Prober.receive
  rcases parsePong (d.take pongLen) with _ | q
  · exact fun _ => h
  simp only
  rcases hq : p.outstanding.get? q with _ | ⟨b, at_⟩
  · exact fun _ => h
  intro hb
  have hne : b ≠ a := fun he => hb (congrArg some he)
  obtain ⟨out, hnodup, hout, hcount⟩ := h
  refine ⟨out, hnodup, fun seq hseq => ?_, ?_⟩
  · obtain ⟨hlt, t, ht, hget⟩ := hout seq hseq
    have hseq' : seq ≠ q := by
      rintro rfl
      rw [hq] at hget
      exact hne (Prod.mk.inj (Option.some.inj hget)).1
    refine ⟨hlt, t, ht, ?_⟩
    change (p.outstanding.remove q).get? seq = _
    rw [HashMap.get?_remove, if_neg hseq', hget]
  · change sent ≤ out.length + failRun a ((b, true) :: p.log)
    rwa [failRun_cons_ne hne]

theorem Owing.receiveAll (failThreshold : UInt32) : ∀ (datagrams : List Bytes) {p : Prober Addr},
    Owing a time room sent p → a ∉ (Prober.receiveAll failThreshold datagrams p).2 →
      Owing a time room sent (Prober.receiveAll failThreshold datagrams p).1
  | [], _, h, _ => h
  | d :: ds, p, h, ha => by
    simp only [Prober.receiveAll, List.mem_append, not_or, Option.mem_toList] at ha
    exact (h.receive failThreshold d ha.1).receiveAll failThreshold ds ha.2

/-- The pings that an expiry gives up. -/
def expiredOf (cfg : KeepConfig Addr) (t : Tick Addr) (p : Prober Addr) :
    List (UInt32 × Addr × ℕ) :=
  (t.expiryOrder.order p.outstanding.entries).filter fun e =>
    Prober.tooOld cfg.intervalSecs t.clock e.1 e.2.2

omit [DecidableEq Addr] in
theorem mem_expiredOf {t : Tick Addr} {e : UInt32 × Addr × ℕ} : e ∈ expiredOf cfg t p ↔
    p.outstanding.get? e.1 = some e.2
      ∧ Prober.tooOld cfg.intervalSecs t.clock e.1 e.2.2 = true := by
  rw [expiredOf, List.mem_filter, (t.expiryOrder.perm _).mem_iff, HashMap.get?_eq_some]

theorem failRun_append (a : Addr) (log : List (Addr × Bool)) : ∀ fails : List (Addr × Bool),
    (∀ e ∈ fails, e.2 = false) →
      failRun a (fails ++ log) = (fails.filter fun e => e.1 = a).length + failRun a log
  | [], _ => by simp
  | (b, ok) :: fails, h => by
    obtain rfl : ok = false := h _ List.mem_cons_self
    have ih := failRun_append a log fails fun e he => h e (List.mem_cons_of_mem _ he)
    rw [List.cons_append, List.filter_cons]
    rcases eq_or_ne b a with rfl | hne
    · rw [failRun_cons_failed, ih]
      simp only [decide_true, if_true, List.length_cons]
      omega
    · rw [failRun_cons_ne hne, ih, if_neg (by simpa using hne)]

/-- What an expiry leaves of the pings of an address. -/
theorem owing_expire (h0 : 0 < cfg.failThreshold) (hagrees : p.Agrees cfg.failThreshold)
    (h : Owing a time room sent p) (t : Tick Addr) :
    ∃ out : List UInt32, out.Nodup
      ∧ (∀ seq ∈ out, (p.seq - seq).toNat < room ∧ ∃ at_ ≤ time,
        p.outstanding.get? seq = some (a, at_)
          ∧ Prober.tooOld cfg.intervalSecs t.clock seq at_ = false)
      ∧ sent ≤ out.length + failRun a
        (p.expire cfg.failThreshold cfg.intervalSecs t.expiryOrder t.clock).log := by
  obtain ⟨-, -, -, hlog⟩ := foldl_giveUp h0 (expiredOf cfg t p) p hagrees
  obtain ⟨out, hnodup, hout, hcount⟩ := h
  set gone := fun seq : UInt32 => decide (seq ∈ (expiredOf cfg t p).map (·.1)) with hgone
  refine ⟨out.filter fun seq => !gone seq, hnodup.filter _, fun seq hseq => ?_, ?_⟩
  · obtain ⟨hseq, hleft⟩ := List.mem_filter.1 hseq
    obtain ⟨hlt, at_, hat, hget⟩ := hout seq hseq
    refine ⟨hlt, at_, hat, hget, ?_⟩
    by_contra hold
    have hexp : (seq, a, at_) ∈ expiredOf cfg t p :=
      mem_expiredOf.2 ⟨hget, by simpa using hold⟩
    have : gone seq = true := decide_eq_true (List.mem_map_of_mem hexp)
    rw [this] at hleft
    cases hleft
  · -- each of the pings that are gone is one failure more
    have hfails : (out.filter gone).length
        ≤ ((expiredOf cfg t p).filter fun e => e.2.1 = a).length := by
      have hsub : out.filter gone ⊆ ((expiredOf cfg t p).filter fun e => e.2.1 = a).map (·.1) := by
        intro seq hseq
        obtain ⟨hseq, hmem⟩ := List.mem_filter.1 hseq
        obtain ⟨e, he, rfl⟩ := List.mem_map.1 (of_decide_eq_true hmem)
        obtain ⟨-, at_, -, hget⟩ := hout _ hseq
        have haddr : e.2 = (a, at_) := Option.some.inj ((mem_expiredOf.1 he).1.symm.trans hget)
        exact List.mem_map_of_mem (List.mem_filter.2 ⟨he, by simp [haddr]⟩)
      have := ((hnodup.filter gone).subperm hsub).length_le
      rwa [List.length_map] at this
    have hsplit : (out.filter gone).length + (out.filter fun seq => !gone seq).length
        = out.length := by
      have := (List.filter_append_perm gone out).length_eq
      rwa [List.length_append] at this
    have hrun : failRun a (p.expire cfg.failThreshold cfg.intervalSecs t.expiryOrder t.clock).log
        = ((expiredOf cfg t p).filter fun e => e.2.1 = a).length + failRun a p.log := by
      refine (congrArg (failRun a) hlog).trans ((failRun_append a p.log _ ?_).trans ?_)
      · intro e he
        obtain ⟨x, -, rfl⟩ := List.mem_map.1 (List.mem_reverse.1 he)
        rfl
      · rw [List.filter_reverse, List.length_reverse, List.filter_map, List.length_map]
        rfl
    rw [hrun]
    omega

theorem Owing.expire (h0 : 0 < cfg.failThreshold) (hagrees : p.Agrees cfg.failThreshold)
    (h : Owing a time room sent p) (t : Tick Addr) :
    Owing a time room sent (p.expire cfg.failThreshold cfg.intervalSecs t.expiryOrder t.clock) := by
  obtain ⟨hseq, -, hentries, -⟩ := foldl_giveUp h0 (expiredOf cfg t p) p hagrees
  obtain ⟨out, hnodup, hout, hcount⟩ := owing_expire h0 hagrees h t
  refine ⟨out, hnodup, fun seq hmem => ?_, hcount⟩
  obtain ⟨hlt, at_, hat, hget, hyoung⟩ := hout seq hmem
  refine ⟨by rwa [← hseq] at hlt, at_, hat, HashMap.get?_eq_some.2 ?_⟩
  refine hentries ▸ List.mem_filter.2 ⟨HashMap.get?_eq_some.1 hget, decide_eq_true fun hgone => ?_⟩
  obtain ⟨e, he, rfl⟩ := List.mem_map.1 hgone
  obtain ⟨hget', hold⟩ := mem_expiredOf.1 he
  obtain rfl : at_ = e.2.2 := (Prod.mk.inj (Option.some.inj (hget.symm.trans hget'))).2
  rw [hyoung] at hold
  cases hold

/-- An expiry that comes late enough counts them all as failures. -/
theorem Owing.expireAll (h0 : 0 < cfg.failThreshold) (hagrees : p.Agrees cfg.failThreshold)
    (h : Owing a time room sent p) {t : Tick Addr}
    (hclock : ∀ seq, time + cfg.intervalSecs * 1000000000 ≤ t.clock seq) :
    sent ≤ failRun a (p.expire cfg.failThreshold cfg.intervalSecs t.expiryOrder t.clock).log := by
  obtain ⟨out, -, hout, hcount⟩ := owing_expire h0 hagrees h t
  obtain rfl : out = [] := List.eq_nil_iff_forall_not_mem.2 fun seq hseq => by
    obtain ⟨-, at_, hat, -, hyoung⟩ := hout seq hseq
    have hc := hclock seq
    simp only [Prober.tooOld, decide_eq_false_iff_not] at hyoung
    omega
  simpa using hcount

end Pings

section Agreement

variable {p : Prober Addr} {a : Addr}

theorem agrees_new (h0 : 0 < cfg.failThreshold) :
    (Prober.new : Prober Addr).Agrees cfg.failThreshold := (tracks_new h0).agrees

/-- Whatever a tick brings, the states of the addresses agree with the log. -/
theorem Prober.Agrees.step (h0 : 0 < cfg.failThreshold) (h : p.Agrees cfg.failThreshold)
    (e : ProbeEvent Addr) : (p.step cfg e).Agrees cfg.failThreshold := by
  cases e with
  | register a => exact h.register a
  | ping a at_ => exact h
  | datagram bytes =>
    simp only [Prober.step, Prober.receive]
    split
    · exact h
    · split
      · exact h
      · exact Prober.Agrees.record h0 (p := { p with outstanding := _ }) h _ true
  | expiry iter clock => exact (foldl_giveUp h0 _ p h).2.1

theorem Prober.Agrees.steps (h0 : 0 < cfg.failThreshold) : ∀ (events : List (ProbeEvent Addr))
    {p : Prober Addr}, p.Agrees cfg.failThreshold →
      (events.foldl (Prober.step cfg) p).Agrees cfg.failThreshold
  | [], _, h => h
  | e :: events, _, h => Prober.Agrees.steps h0 events (h.step h0 e)

theorem Prober.Agrees.probe (h0 : 0 < cfg.failThreshold) (h : p.Agrees cfg.failThreshold)
    (t : Tick Addr) (m : Meta Addr) : (p.probe cfg t m).1.Agrees cfg.failThreshold := by
  rw [probe_eq]
  exact h.steps h0 _

theorem Prober.Agrees.unavailable (h : p.Agrees cfg.failThreshold)
    (hrun : cfg.failThreshold.toNat ≤ failRun a p.log) : p.available a = false := by
  obtain ⟨e, he, rfl⟩ := List.mem_map.1 ((h.mem_unavailable a).2 hrun)
  obtain ⟨he, hdown⟩ := List.mem_filter.1 he
  rw [Prober.available, HashMap.get?_eq_some.2 he]
  simpa using hdown

end Agreement

section Ticks

variable {p : Prober Addr} {a : Addr} {time room sent : ℕ} {t : Tick Addr} {m : Meta Addr}

/-- The memory of a tick before the expiry. -/
def Prober.listened (cfg : KeepConfig Addr) (p : Prober Addr) (t : Tick Addr) (m : Meta Addr) :
    Prober Addr :=
  (Prober.receiveAll cfg.failThreshold t.datagrams
    ((p.registerAll (m.entries.map (·.1))).pingAll t (cfg.due t m))).1

theorem agrees_listened (h0 : 0 < cfg.failThreshold) (h : p.Agrees cfg.failThreshold) :
    (p.listened cfg t m).Agrees cfg.failThreshold := by
  have := h.steps h0 (m.entries.map (fun e => .register e.1)
    ++ (cfg.due t m).zipIdx.map (fun e => .ping e.1 (t.sent e.2)) ++ t.datagrams.map .datagram)
  simp only [List.foldl_append, ← receiveAll_eq] at this
  simp only [List.foldl_map] at this
  simp only [Prober.listened, Prober.registerAll, Prober.pingAll, List.foldl_map]
  exact this

theorem Owing.registerAll (addrs : List Addr) (h : Owing a time room sent p) :
    Owing a time room sent (p.registerAll addrs) := by
  induction addrs generalizing p with
  | nil => exact h
  | cons b addrs ih => exact ih (h.register b)

/-- A tick that has no answer of the address. -/
theorem Owing.listened (h : Owing a time room sent p) (ha : a ∉ (p.probe cfg t m).2)
    (hroom : room + (cfg.due t m).length < 2 ^ 32) :
    Owing a time (room + (cfg.due t m).length) sent (p.listened cfg t m) :=
  ((h.registerAll _).pingAll t _ hroom).receiveAll _ _ ha

/-- The same, where it is pinged in time. -/
theorem Owing.pinged_listened (h : Owing a time room sent p) (ha : a ∉ (p.probe cfg t m).2)
    (hroom : room + (cfg.due t m).length < 2 ^ 32) (ht : ∀ k, t.sent k ≤ time)
    (hdue : a ∈ cfg.due t m) :
    Owing a time (room + (cfg.due t m).length) (sent + 1) (p.listened cfg t m) :=
  ((h.registerAll _).pingedAll ht hdue hroom).receiveAll _ _ ha

end Ticks

section Writes

variable {ok : UInt64 → String → Prop} {s s' s'' : KeepSys Addr}

/-- Nothing has changed but statuses, each to one that is allowed for its node. -/
structure Rewrote (ok : UInt64 → String → Prop) (s s' : KeepSys Addr) : Prop where
  prober : s'.prober = s.prober
  trace : s.trace <:+ s'.trace
  nodes : ∀ i : UInt64, s'.sched.nodes[i]? = s.sched.nodes[i]?
    ∨ ∃ node want, s.sched.nodes[i]? = some node ∧ ok i want
      ∧ s'.sched.nodes[i]? = some { node with status := want }

omit [DecidableEq Addr] in
theorem Rewrote.refl (s : KeepSys Addr) : Rewrote ok s s :=
  ⟨rfl, List.suffix_refl _, fun _ => .inl rfl⟩

omit [DecidableEq Addr] in
theorem Rewrote.trans (h : Rewrote ok s s') (h' : Rewrote ok s' s'') : Rewrote ok s s'' := by
  refine ⟨h'.prober.trans h.prober, h.trace.trans h'.trace, fun i => ?_⟩
  rcases h'.nodes i with hsame | ⟨node, want, hnode, hok, hnew⟩
  · rw [hsame]
    exact h.nodes i
  · rcases h.nodes i with hsame | ⟨node', want', hnode', -, hnew'⟩
    · exact .inr ⟨node, want, hsame ▸ hnode, hok, hnew⟩
    · obtain rfl := Option.some.inj (hnode.symm.trans hnew')
      exact .inr ⟨node', want, hnode', hok, hnew⟩

omit [DecidableEq Addr] in
theorem Rewrote.kin (h : Rewrote ok s s') : Kin s s' := by
  refine ⟨h.prober, fun i => ?_⟩
  rcases h.nodes i with hsame | ⟨node, want, hnode, -, hnew⟩
  · rw [hsame]
  · rw [hnew, hnode]
    rfl

omit [DecidableEq Addr] in
theorem wp_setStatus_rewrote (hs : s.Filed) {id : UInt64} {want : String} (hok : ok id want)
    (S : Fault AnyError → Prop) :
    wp S (KeepSys.setStatus id want : KeepIo Addr Unit) s fun _ s' => Rewrote ok s s' := by
  refine wp_mono (wp_setStatus id want S s) fun _ s' h => ?_
  rcases h with rfl | ⟨node, hnode, -, rfl⟩
  · exact .refl _
  obtain rfl := hs id node hnode
  refine ⟨rfl, List.suffix_cons _ _, fun i => ?_⟩
  rw [nodes_written]
  split_ifs with hi
  · subst hi
    exact .inr ⟨node, want, hnode, hok, rfl⟩
  · exact .inl rfl

omit [DecidableEq Addr] in
theorem wp_each_rewrote {α : Type} {f : α → KeepIo Addr Unit} {xs : List α} {p : Prober Addr}
    (hf : ∀ x ∈ xs, ∀ S, ∀ s : KeepSys Addr, s.Filed → s.prober = p →
      wp S (f x) s fun _ s' => Rewrote ok s s')
    (S : Fault AnyError → Prop) (hs : s.Filed) (hp : s.prober = p) :
    wp S (each f xs) s fun _ s' => Rewrote ok s s' := by
  refine wp_each (I := fun ys s' => Rewrote ok s s' ∧ ∀ y ∈ ys, y ∈ xs) (fun x ys s' hI => ?_)
    (fun s' hI => hI.1) xs s ⟨.refl s, fun _ => id⟩
  obtain ⟨h, hys⟩ := hI
  refine wp_mono (hf x (hys x List.mem_cons_self) S s' (h.kin.filed hs) (h.prober.trans hp))
    fun r s'' h' => ?_
  rcases r with e | u
  · exact h.trans h'
  · exact ⟨h.trans h', fun y hy => hys y (List.mem_cons_of_mem _ hy)⟩

/-- The status of a node whose heartbeat is lost. -/
def Marks (cfg : KeepConfig Addr) (t : Tick Addr) (s : KeepSys Addr) (id : UInt64) (want : String) :
    Prop :=
  want = "offline" ∧ ∃ node, s.sched.nodes[id]? = some node ∧ t.TimedOut cfg node

omit [DecidableEq Addr] in
/-- The nodes that `offline_nodes` lists. -/
theorem mem_offlineNodes (hs : s.Filed) (t : Tick Addr) {id : UInt64} :
    id ∈ ((s.sched.nodes.toList.map (·.2)).filter fun n =>
      t.nowMs.toNat - n.lastHeartbeatMs.toNat > cfg.heartbeatTimeoutMs.toNat).map (·.id)
      ↔ Marks cfg t s id "offline" := by
  constructor
  · intro hid
    obtain ⟨node, hnode, rfl⟩ := List.mem_map.1 hid
    obtain ⟨hnode, hlate⟩ := List.mem_filter.1 hnode
    obtain ⟨⟨k, n⟩, hk, rfl⟩ := List.mem_map.1 hnode
    have hk := Std.ExtTreeMap.mem_toList_iff_getElem?_eq_some.1 hk
    obtain rfl : n.id = k := hs k n hk
    exact ⟨rfl, n, hk, by simpa [Tick.TimedOut] using hlate⟩
  · rintro ⟨-, node, hnode, hlost⟩
    obtain rfl := hs id node hnode
    refine List.mem_map.2 ⟨node, List.mem_filter.2 ⟨List.mem_map.2 ⟨(_, node),
      Std.ExtTreeMap.mem_toList_iff_getElem?_eq_some.2 hnode, rfl⟩, ?_⟩, rfl⟩
    simpa [Tick.TimedOut] using hlost

/-- The statuses that the addresses of a map ask for. -/
def Asks (p : Prober Addr) (m : Meta Addr) (id : UInt64) (want : String) : Prop :=
  ∃ e ∈ m.entries, e.2.1 = id ∧ want = if p.available e.1 then "online" else "offline"

theorem wp_syncAll_rewrote (hs : s.Filed) {m : Meta Addr} {es : List (Addr × UInt64 × UInt32)}
    (hes : ∀ e ∈ es, e ∈ m.entries) (S : Fault AnyError → Prop) :
    wp S (each syncStatus es) s fun _ s' => Rewrote (Asks s.prober m) s s' := by
  refine wp_each_rewrote (p := s.prober) (fun e he S s' hs' hp => ?_) S hs rfl
  have hasks : Asks s.prober m e.2.1 (if s'.prober.available e.1 then "online" else "offline") :=
    ⟨e, hes e he, rfl, by rw [hp]⟩
  exact wp_bind (wp_get (wp_setStatus_rewrote hs' hasks S))

/-- What a tick does, or has done when it dies: it takes nodes offline, probes the addresses of a
map, all those of the nodes or none, and gives the nodes of the map the statuses it asks for. -/
theorem wp_tick_passes (hs : s.Filed) (t : Tick Addr) (S : Fault AnyError → Prop) :
    wp S (KeepSys.tick cfg t) s fun _ s' =>
      ∃ s₁, Rewrote (Marks cfg t s) s s₁ ∧ (s' = s₁
        ∨ ∃ m, (m = s.addrMap cfg ∨ m = .empty)
          ∧ Rewrote (Asks (s.prober.probe cfg t m).1 m) (s₁.probe cfg t m) s') := by
  refine wp_bind (wp_mono (wp_orDefault (quiet_offlineNodes _ _) (plain_offlineNodes _ _).sound S s)
    fun r s' hr => ?_)
  obtain ⟨rfl, hoffline⟩ := hr
  rcases r with e | offline
  · exact ⟨s', .refl s', .inl rfl⟩
  have hmarks : ∀ id ∈ offline, Marks cfg t s' id "offline" := fun id hid => by
    rcases hoffline offline rfl with rfl | hoffline
    · cases hid
    · rw [exec_offlineNodes] at hoffline
      obtain rfl := Except.ok.inj hoffline
      exact (mem_offlineNodes hs t).1 hid
  refine wp_bind (wp_mono (wp_each_rewrote (p := s'.prober) (fun id hid S s hs _ =>
    wp_setStatus_rewrote hs (hmarks id hid) S) S hs rfl) fun r s₁ h₁ => ?_)
  rcases r with e | u
  · exact ⟨s₁, h₁, .inl rfl⟩
  refine wp_bind (wp_mono (wp_orDefault quiet_listNodes plain_listNodes.sound S s₁)
    fun r s₂ hr => ?_)
  obtain ⟨rfl, hlist⟩ := hr
  rcases r with e | nodes
  · exact ⟨s₂, h₁, .inl rfl⟩
  have hm : cfg.metaOf nodes = s'.addrMap cfg ∨ cfg.metaOf nodes = .empty := by
    rcases hlist nodes rfl with rfl | hlist
    · exact .inr rfl
    · rw [exec_listNodes] at hlist
      obtain rfl := Except.ok.inj hlist
      exact .inl h₁.kin.addrMap
  have hfiled : (s₂.probe cfg t (cfg.metaOf nodes)).Filed := h₁.kin.filed hs
  have hprober : (s₂.probe cfg t (cfg.metaOf nodes)).prober
      = (s'.prober.probe cfg t (cfg.metaOf nodes)).1 := by rw [KeepSys.probe, h₁.prober]
  refine wp_bind (wp_modify (wp_mono (wp_syncAll_rewrote hfiled (m := cfg.metaOf nodes)
    (fun e he => (t.statusOrder.perm _).mem_iff.1 he) S) fun r s' h => ⟨s₂, h₁, .inr ⟨_, hm, ?_⟩⟩))
  rwa [hprober] at h

omit [DecidableEq Addr] in
theorem exec_markOffline : ∀ (ids : List UInt64) {s : KeepSys Addr}, s.Filed →
    ∃ s', exec (each (fun id => setStatus id "offline") ids) s = (.ok (), s')
      ∧ ∀ i, s'.statuses i = if i ∈ ids then (s.statuses i).map fun _ => "offline" else s.statuses i
  | [], s, _ => ⟨s, rfl, fun _ => rfl⟩
  | id :: ids, s, hs => by
    obtain ⟨s₁, hset, hkin, hstatus₁⟩ := exec_setStatus id "offline" hs
    obtain ⟨s₂, hrest, hstatus₂⟩ := exec_markOffline ids (hkin.filed hs)
    refine ⟨s₂, by rw [each, exec_andThen, hset]; exact hrest, fun i => ?_⟩
    rw [hstatus₂, hstatus₁]
    rcases eq_or_ne i id with rfl | hne
    · rcases s.statuses i with _ | old <;> simp
    · simp [hne]

/-- A tick without faults: the nodes it has lost are offline after the first pass, and it probes all
the addresses. -/
theorem exec_tick_passes (hs : s.Filed) (t : Tick Addr) :
    ∃ s₁ s', exec (KeepSys.tick cfg t) s = (.ok (), s') ∧ Rewrote (Marks cfg t s) s s₁
      ∧ (∀ id node, s.sched.nodes[id]? = some node → t.TimedOut cfg node →
        s₁.statuses id = some "offline")
      ∧ Rewrote (Asks (s.probed cfg t) (s.addrMap cfg)) (s₁.probe cfg t (s.addrMap cfg)) s' := by
  set ids := ((s.sched.nodes.toList.map (·.2)).filter fun n =>
    t.nowMs.toNat - n.lastHeartbeatMs.toNat > cfg.heartbeatTimeoutMs.toNat).map (·.id) with hids
  have hoffline : exec
    (orDefault (Store.offlineNodes t.nowMs cfg.heartbeatTimeoutMs) : KeepIo Addr _) s
      = (.ok ids, s) := exec_orDefault (by
    simp only [Store.offlineNodes, exec_bind, exec_listNodes, exec_pure, hids])
  obtain ⟨s₁, hmark, hstatus⟩ := exec_markOffline ids hs
  have h₁ : Rewrote (Marks cfg t s) s s₁ := by
    have := wp_each_rewrote (p := s.prober) (fun id (hid : id ∈ ids) S s hs _ =>
      wp_setStatus_rewrote hs ((mem_offlineNodes ‹_› t).1 hid) S)
        (fun _ => True) hs rfl [] (by simp)
    rwa [show ((each (fun id => setStatus id "offline") ids).run ⟨s, []⟩).2.state = s₁ from
      congrArg Prod.snd hmark] at this
  have hlist : exec (orDefault Store.listNodes : KeepIo Addr _) s₁
      = (.ok (s₁.sched.nodes.toList.map (·.2)), s₁) := exec_orDefault (exec_listNodes _)
  have hmeta : cfg.metaOf (s₁.sched.nodes.toList.map (·.2)) = s.addrMap cfg := h₁.kin.addrMap
  set probed := KeepSys.probe cfg t (s.addrMap cfg) s₁ with hprobed
  have hfiled : probed.Filed := h₁.kin.filed hs
  have hprober : probed.prober = s.probed cfg t := by
    rw [hprobed, KeepSys.probe, h₁.prober]
    rfl
  obtain ⟨s₂, hsync, -, -⟩ := exec_syncAll (t.statusOrder.order (s.addrMap cfg).entries) hfiled
  have h₂ : Rewrote (Asks (s.probed cfg t) (s.addrMap cfg)) probed s₂ := by
    have := wp_syncAll_rewrote hfiled (m := s.addrMap cfg)
      (fun e he => (t.statusOrder.perm (s.addrMap cfg).entries).mem_iff.1 he)
        (fun _ => True) [] (by simp)
    rwa [hprober, show ((each syncStatus (t.statusOrder.order (s.addrMap cfg).entries)).run
      ⟨probed, []⟩).2.state = s₂ from congrArg Prod.snd hsync] at this
  refine ⟨s₁, s₂, ?_, h₁, fun id node hnode hlost => ?_, h₂⟩
  · rw [KeepSys.tick, exec_bind, hoffline]
    dsimp only
    rw [exec_bind, hmark]
    dsimp only
    rw [exec_bind, hlist]
    dsimp only
    rw [hmeta, exec_bind, exec_modify]
    exact hsync
  · have hmem : id ∈ ids := (mem_offlineNodes hs t).2 ⟨rfl, node, hnode, hlost⟩
    rw [hstatus, if_pos hmem, statuses, hnode]
    rfl

end Writes

section Silence

variable {s s₁ s' : KeepSys Addr} {node now : NodeRecord} {t : Tick Addr} {a : Addr}

/-- The record of a node but for its status. -/
def KeepSys.Keeps (node : NodeRecord) (s : KeepSys Addr) : Prop :=
  ∃ now, s.sched.nodes[node.id]? = some now ∧ now.addrs = node.addrs
    ∧ now.lastHeartbeatMs = node.lastHeartbeatMs

omit [DecidableEq Addr] in
theorem KeepSys.Keeps.owns (h : s.Keeps node) (ha : a ∈ (cfg.keepaliveAddrs node).map (·.1)) :
    s.Owns cfg node.id a := by
  obtain ⟨now, hnow, haddrs, -⟩ := h
  refine ⟨now, hnow, ?_⟩
  simpa only [KeepConfig.keepaliveAddrs, haddrs] using ha

omit [DecidableEq Addr] in
theorem KeepSys.Keeps.rewrote {ok : UInt64 → String → Prop} (h : s.Keeps node)
    (hr : Rewrote ok s s') : s'.Keeps node := by
  obtain ⟨now, hnow, haddrs, hbeat⟩ := h
  rcases hr.nodes node.id with hsame | ⟨now', want, hnow', -, hnew⟩
  · exact ⟨now, hsame.trans hnow, haddrs, hbeat⟩
  · obtain rfl := Option.some.inj (hnow.symm.trans hnow')
    exact ⟨_, hnew, haddrs, hbeat⟩

/-- An address of a node is in the map that a tick builds. -/
theorem mem_addrMap (h : s.Keeps node) (ha : a ∈ (cfg.keepaliveAddrs node).map (·.1)) :
    ∃ e ∈ (s.addrMap cfg).entries, e.1 = a := by
  obtain ⟨now, hnow, ha⟩ := h.owns ha
  obtain ⟨x, hx, rfl⟩ := List.mem_map.1 ha
  have hlist : now ∈ s.sched.nodes.toList.map (·.2) :=
    List.mem_map.2 ⟨(_, now), Std.ExtTreeMap.mem_toList_iff_getElem?_eq_some.2 hnow, rfl⟩
  have hmem : (x.1, now.id, x.2) ∈ (s.sched.nodes.toList.map (·.2)).flatMap fun node =>
      (cfg.keepaliveAddrs node).map fun e => (e.1, node.id, e.2) :=
    List.mem_flatMap.2 ⟨now, hlist, List.mem_map_of_mem hx⟩
  have hget := HashMap.get?_collect (k := x.1) ((s.sched.nodes.toList.map (·.2)).flatMap fun node =>
    (cfg.keepaliveAddrs node).map fun e => (e.1, node.id, e.2))
  rcases hlook : List.lookup x.1 ((s.sched.nodes.toList.map (·.2)).flatMap fun node =>
    (cfg.keepaliveAddrs node).map fun e => (e.1, node.id, e.2)).reverse with _ | v
  · have := List.lookup_eq_none_iff.1 hlook _ (List.mem_reverse.2 hmem)
    simp at this
  · rw [hlook] at hget
    exact ⟨(x.1, v), HashMap.get?_eq_some.1 hget, rfl⟩

/-- An entry of a node in that map is an address of its own. -/
theorem owned_of_entry (hs : s.Filed) (h : s.Keeps node) {e : Addr × UInt64 × UInt32}
    (he : e ∈ (s.addrMap cfg).entries) (hid : e.2.1 = node.id) :
    e.1 ∈ (cfg.keepaliveAddrs node).map (·.1) := by
  obtain ⟨now, hnow, haddrs, -⟩ := h
  obtain ⟨n, hn, hnid, hmem⟩ := mem_metaOf he
  obtain ⟨⟨k, n⟩, hk, rfl⟩ := List.mem_map.1 hn
  have hk := Std.ExtTreeMap.mem_toList_iff_getElem?_eq_some.1 hk
  obtain rfl : n.id = k := hs k n hk
  rw [hnid, hid, hnow] at hk
  obtain rfl := Option.some.inj hk
  simpa only [KeepConfig.keepaliveAddrs, haddrs] using hmem

omit [DecidableEq Addr] in
/-- An action that the process lives through leaves what its program does. -/
theorem after_of_lives {p : KeepIo Addr Unit} {faults : List (Fault AnyError)}
    (h : (p.run ⟨s, faults⟩).1 ≠ .error .killed) :
      s.after p faults = (p.run ⟨s, faults⟩).2.state := by
  unfold KeepSys.after
  rcases hr : p.run ⟨s, faults⟩ with ⟨(e | _) | u, w⟩
  · rfl
  · exact absurd (by rw [hr]) h
  · rfl

/-- Of a node that is not heard of no pong comes. -/
theorem not_mem_answered {m : Meta Addr} (h : s.Keeps node)
    (hunheard : ∀ new, s'.trace = new ++ s.trace → ∀ e ∈ new, ¬ Evidence (s.Owns cfg) node.id e)
    (h₁ : s.trace <:+ s₁.trace) (hprober : s₁.prober = s.prober)
    (h₂ : (s₁.probe cfg t m).trace <:+ s'.trace)
    (ha : a ∈ (cfg.keepaliveAddrs node).map (·.1)) : a ∉ (s.prober.probe cfg t m).2 := by
  intro hmem
  obtain ⟨l₁, hl₁⟩ := h₁
  obtain ⟨l₂, hl₂⟩ := h₂
  set pongs : List (NodeEvent Addr) := (s.prober.probe cfg t m).2.reverse.map .pong with hpongs
  have hprobe : (s₁.probe cfg t m).trace = pongs ++ s₁.trace := by rw [KeepSys.probe, hprober]
  refine hunheard (l₂ ++ (pongs ++ l₁)) ?_ (.pong a) ?_ (h.owns ha)
  · rw [← hl₂, hprobe, ← hl₁, List.append_assoc, List.append_assoc]
  · refine List.mem_append_right _ (List.mem_append_left _ ?_)
    exact List.mem_map.2 ⟨a, List.mem_reverse.2 hmem, rfl⟩

omit [DecidableEq Addr] in
/-- A heartbeat changes the record of its own node only, which it leaves online. -/
theorem wp_heartbeat_apart (hs : s.Filed) (nowMs nodeId : UInt64) (S : Fault AnyError → Prop) :
    wp S (KeepSys.heartbeat nowMs nodeId) s fun _ s' => s'.prober = s.prober
      ∧ .heartbeat nodeId :: s.trace <:+ s'.trace
      ∧ ∀ i, s'.sched.nodes[i]? = s.sched.nodes[i]?
        ∨ i = nodeId ∧ s'.statuses i = some "online" := by
  refine wp_bind (wp_modify ?_)
  refine wp_bind (wp_mono (wp_look (quiet_getNode nodeId) (plain_getNode nodeId).sound S _)
    fun r s' hr => ?_)
  obtain ⟨rfl, hfound⟩ := hr
  rcases r with e | found
  · exact ⟨rfl, List.suffix_refl _, fun _ => .inl rfl⟩
  obtain rfl : s.sched.nodes[nodeId]? = found := Except.ok.inj (hfound found rfl)
  rcases hnode : s.sched.nodes[nodeId]? with _ | node
  · exact wp_stop ⟨rfl, List.suffix_refl _, fun _ => .inl rfl⟩
  refine wp_mono (wp_insertNode _ S _) fun r s' h => ?_
  rcases h with rfl | rfl
  · exact ⟨rfl, List.suffix_refl _, fun _ => .inl rfl⟩
  refine ⟨rfl, List.suffix_cons _ _, fun i => ?_⟩
  rw [statuses, nodes_written]
  split_ifs with hi
  · exact .inr ⟨hi.symm.trans (hs nodeId node hnode), rfl⟩
  · exact .inl rfl

omit [DecidableEq Addr] in
/-- A registration changes the record under the new id only, which it leaves online. -/
theorem wp_registerNode_apart (nowMs : UInt64) (req : RegisterRequest) (S : Fault AnyError → Prop) :
    wp S (KeepSys.registerNode nowMs req) s fun _ s' => s'.prober = s.prober
      ∧ ∀ i, s'.sched.nodes[i]? = s.sched.nodes[i]?
        ∨ i = s.sched.nextCount Store.nextNodeIdKey ∧ s'.statuses i = some "online" := by
  unfold KeepSys.registerNode
  split_ifs
  · exact wp_stop ⟨rfl, fun _ => .inl rfl⟩
  refine wp_bind (wp_mono (wp_db (allOrNothing_nextId Store.nextNodeIdKey)
    (plain_nextId Store.nextNodeIdKey).sound S s) fun r s' hr => ?_)
  rcases r with e | id
  · rw [hr]
    exact ⟨rfl, fun _ => .inl rfl⟩
  obtain ⟨hid, rfl⟩ := hr
  obtain rfl : s.sched.nextCount Store.nextNodeIdKey = id := Except.ok.inj hid
  refine wp_mono (wp_insertNode _ S _) fun r s' h => ?_
  rcases h with rfl | rfl
  · exact ⟨rfl, fun _ => .inl rfl⟩
  refine ⟨rfl, fun i => ?_⟩
  rw [statuses, nodes_written]
  split_ifs with hi
  · exact .inr ⟨hi.symm, rfl⟩
  · exact .inl rfl

/-- An action that is no tick leaves a node that is not heard of, and the memory of the loop. -/
theorem step_apart (hs : s.Filed) {act : KeepAct Addr} (h : act.Silent cfg s node.id)
    (hact : ∀ t faults, act ≠ .tick t faults) : (s.step cfg act).prober = s.prober
      ∧ (s.step cfg act).sched.nodes[node.id]? = s.sched.nodes[node.id]? := by
  cases act with
  | tick t faults => exact absurd rfl (hact t faults)
  | heartbeat nowMs nodeId faults =>
    have hstep : s.step cfg (.heartbeat nowMs nodeId faults) = _ := after_of_lives h.lives
    obtain ⟨hprober, ⟨new, hnew⟩, hnodes⟩ :=
      wp_heartbeat_apart hs nowMs nodeId (fun _ => True) faults fun _ _ => trivial
    rw [← hstep] at hprober hnew hnodes
    refine ⟨hprober, (hnodes node.id).resolve_right fun ⟨hid, _⟩ => ?_⟩
    refine h.unheard (new ++ [.heartbeat nodeId]) ?_ (.heartbeat nodeId) (by simp) hid.symm
    rw [← hnew, List.append_assoc]
    rfl
  | register nowMs req faults =>
    have hstep : s.step cfg (.register nowMs req faults) = _ := after_of_lives h.lives
    obtain ⟨hprober, hnodes⟩ :=
      wp_registerNode_apart nowMs req (fun _ => True) faults fun _ _ => trivial
    rw [← hstep] at hprober hnodes
    refine ⟨hprober, (hnodes node.id).resolve_right fun ⟨hid, _⟩ => ?_⟩
    exact h.apart nowMs req faults rfl hid.symm
  | restart => exact h.lives.elim

/-- A tick leaves a node that is not heard of but for its status, and has no answer of it. -/
theorem tick_unheard (hs : s.Filed) (hkeeps : s.Keeps node) {faults : List (Fault AnyError)}
    (h : (KeepAct.tick t faults).Silent cfg s node.id) :
    (s.step cfg (.tick t faults)).Keeps node
      ∧ ((s.step cfg (.tick t faults)).prober = s.prober
        ∨ ∃ m, (m = s.addrMap cfg ∨ m = .empty)
          ∧ (s.step cfg (.tick t faults)).prober = (s.prober.probe cfg t m).1
          ∧ ∀ a ∈ (cfg.keepaliveAddrs node).map (·.1), a ∉ (s.prober.probe cfg t m).2) := by
  have hstep : s.step cfg (.tick t faults) = _ := after_of_lives h.lives
  obtain ⟨s₁, h₁, hrest⟩ := wp_tick_passes hs t (fun _ => True) faults fun _ _ => trivial
  rw [← hstep] at hrest
  rcases hrest with hsame | ⟨m, hm, h₂⟩
  · rw [hsame]
    exact ⟨hkeeps.rewrote h₁, .inl h₁.prober⟩
  · have hprobed : (s₁.probe cfg t m).Keeps node :=
      (hkeeps.rewrote h₁ : s₁.Keeps node)
    refine ⟨hprobed.rewrote h₂, .inr ⟨m, hm, ?_, fun a ha => ?_⟩⟩
    · rw [h₂.prober, KeepSys.probe, h₁.prober]
    · exact not_mem_answered hkeeps h.unheard h₁.trace h₁.prober h₂.trace ha

/-- The same for a tick without faults, which probes all addresses. -/
theorem tick_unheard_exec (hs : s.Filed) (hkeeps : s.Keeps node)
    (h : (KeepAct.tick t []).Silent cfg s node.id) :
    (s.step cfg (.tick t [])).prober = s.probed cfg t
      ∧ (∀ a ∈ (cfg.keepaliveAddrs node).map (·.1),
        a ∉ (s.prober.probe cfg t (s.addrMap cfg)).2)
      ∧ ((∀ now, s.sched.nodes[node.id]? = some now → t.TimedOut cfg now) →
        (∀ a ∈ (cfg.keepaliveAddrs node).map (·.1), (s.probed cfg t).available a = false) →
          (s.step cfg (.tick t [])).statuses node.id = some "offline") := by
  obtain ⟨s₁, s₂, htick, h₁, hlost, h₂⟩ := exec_tick_passes hs t
  have hstep : s.step cfg (.tick t []) = s₂ :=
    (after_of_lives h.lives).trans (congrArg Prod.snd htick)
  have hprober : (s₁.probe cfg t (s.addrMap cfg)).prober = s.probed cfg t := by
    rw [KeepSys.probe, h₁.prober]
    rfl
  have hunheard := h.unheard
  rw [hstep] at hunheard ⊢
  refine ⟨h₂.prober.trans hprober, fun a ha => ?_, fun hout hdown => ?_⟩
  · exact not_mem_answered hkeeps hunheard h₁.trace h₁.prober h₂.trace ha
  · obtain ⟨now, hnow, -⟩ := id hkeeps
    have hoff : s₁.statuses node.id = some "offline" := hlost node.id now hnow (hout now hnow)
    rcases h₂.nodes node.id with hsame | ⟨n, want, -, ⟨e, he, hid, rfl⟩, hnew⟩
    · exact (congrArg (Option.map NodeRecord.status) hsame).trans hoff
    · rw [hdown e.1 (owned_of_entry hs hkeeps he hid)] at hnew
      rw [statuses, hnew]
      rfl

end Silence

section Runs

variable {s : KeepSys Addr} {node : NodeRecord} {time room : ℕ} {sent : Addr → ℕ}

/-- A node with addresses that owe answers. -/
structure Waits (cfg : KeepConfig Addr) (node : NodeRecord) (time room : ℕ) (sent : Addr → ℕ)
    (s : KeepSys Addr) : Prop where
  filed : s.Filed
  keeps : s.Keeps node
  agrees : s.prober.Agrees cfg.failThreshold
  owing : ∀ a ∈ (cfg.keepaliveAddrs node).map (·.1), Owing a time room (sent a) s.prober

theorem due_length_le {m : Meta Addr} (hm : m = s.addrMap cfg ∨ m = .empty) (t : Tick Addr) :
    (cfg.due t m).length ≤ (cfg.due t (s.addrMap cfg)).length := by
  rcases hm with rfl | rfl
  · exact le_rfl
  · have : t.pingOrder.order ([] : List (Addr × UInt64 × UInt32)) = [] :=
      (t.pingOrder.perm []).eq_nil
    simp [KeepConfig.due, HashMap.empty, this]

/-- Whatever comes while nothing is heard of the node. -/
theorem Waits.step (h0 : 0 < cfg.failThreshold) (h : Waits cfg node time room sent s)
    {act : KeepAct Addr} (hact : act.Silent cfg s node.id)
    (hroom : room + act.pings cfg s < 2 ^ 32) :
    Waits cfg node time (room + act.pings cfg s) sent (s.step cfg act) := by
  have hfiled : (s.step cfg act).Filed := h.filed.step act
  by_cases htick : ∃ t faults, act = .tick t faults
  · obtain ⟨t, faults, rfl⟩ := htick
    obtain ⟨hkeeps, hsame | ⟨m, hm, hprober, hnone⟩⟩ := tick_unheard h.filed h.keeps hact
    · exact ⟨hfiled, hkeeps, hsame ▸ h.agrees,
        fun a ha => hsame ▸ (h.owing a ha).mono (Nat.le_add_right _ _) le_rfl⟩
    · have hdue : room + (cfg.due t m).length ≤ room + (KeepAct.tick t faults).pings cfg s :=
        Nat.add_le_add_left (due_length_le hm t) _
      refine ⟨hfiled, hkeeps, hprober ▸ h.agrees.probe h0 t m, fun a ha => hprober ▸ ?_⟩
      have hl := (h.owing a ha).listened (hnone a ha) (hdue.trans_lt hroom)
      exact (hl.expire h0 (agrees_listened h0 h.agrees) t).mono hdue le_rfl
  · obtain ⟨hprober, hnode⟩ := step_apart h.filed hact fun t faults he => htick ⟨t, faults, he⟩
    obtain ⟨now, hnow, hrest⟩ := h.keeps
    exact ⟨hfiled, ⟨now, hnode.trans hnow, hrest⟩, hprober ▸ h.agrees,
      fun a ha => hprober ▸ (h.owing a ha).mono (Nat.le_add_right _ _) le_rfl⟩

/-- The same, where the pings are sent in time. -/
theorem Waits.step_sent (h0 : 0 < cfg.failThreshold) (h : Waits cfg node time room sent s)
    {act : KeepAct Addr} (hact : act.Silent cfg s node.id)
    (hroom : room + act.pings cfg s < 2 ^ 32) (htime : act.SentBy time) :
    Waits cfg node time (room + act.pings cfg s)
      (fun a => sent a + if act.probes cfg a then 1 else 0) (s.step cfg act) := by
  have hstep := h.step h0 hact hroom
  refine { hstep with owing := fun a ha => ?_ }
  split_ifs with hprobes
  · obtain ⟨t, faults⟩ | _ | _ | _ := act <;> try cases hprobes
    obtain ⟨hfaults, hslot⟩ : faults.isEmpty = true
      ∧ cfg.addrSlot a = t.nowSecs % cfg.intervalSecs :=
      by simpa [KeepAct.probes] using hprobes
    obtain rfl : faults = [] := List.isEmpty_iff.1 hfaults
    obtain ⟨hprober, hnone, -⟩ := tick_unheard_exec h.filed h.keeps hact
    have hdue : a ∈ cfg.due t (s.addrMap cfg) := by
      obtain ⟨e, he, rfl⟩ := mem_addrMap h.keeps ha
      exact List.mem_map.2 ⟨e, List.mem_filter.2 ⟨(t.pingOrder.perm _).mem_iff.2 he,
        decide_eq_true hslot⟩, rfl⟩
    have hl := (h.owing a ha).pinged_listened (hnone a ha) hroom htime hdue
    rw [hprober]
    exact hl.expire h0 (agrees_listened h0 h.agrees) t
  · exact hstep.owing a ha

theorem run_append (s : KeepSys Addr) (acts acts' : List (KeepAct Addr)) :
    s.run cfg (acts ++ acts') = (s.run cfg acts).run cfg acts' := List.foldl_append

theorem silentRun_append {id : UInt64} : ∀ (acts : List (KeepAct Addr)) {s : KeepSys Addr}
    {acts' : List (KeepAct Addr)}, s.SilentRun cfg id (acts ++ acts') →
      s.SilentRun cfg id acts ∧ (s.run cfg acts).SilentRun cfg id acts'
  | [], _, _, h => ⟨trivial, h⟩
  | _ :: acts, _, _, h => ⟨⟨h.1, (silentRun_append acts h.2).1⟩, (silentRun_append acts h.2).2⟩

theorem pings_append :
    ∀ (acts : List (KeepAct Addr)) (s : KeepSys Addr) (acts' : List (KeepAct Addr)),
    s.pings cfg (acts ++ acts') = s.pings cfg acts + (s.run cfg acts).pings cfg acts'
  | [], _, _ => (Nat.zero_add _).symm
  | a :: acts, s, acts' => by
    rw [List.cons_append, KeepSys.pings, KeepSys.pings, pings_append acts, Nat.add_assoc]
    rfl

theorem Waits.run (h0 : 0 < cfg.failThreshold) : ∀ (acts : List (KeepAct Addr)) {s : KeepSys Addr}
    {room : ℕ}, Waits cfg node time room sent s → s.SilentRun cfg node.id acts →
      room + s.pings cfg acts < 2 ^ 32 →
        Waits cfg node time (room + s.pings cfg acts) sent (s.run cfg acts)
  | [], _, _, h, _, _ => h
  | a :: acts, s, room, h, hsilent, hroom => by
    rw [KeepSys.pings, ← Nat.add_assoc] at hroom ⊢
    exact (h.step h0 hsilent.1 (by omega)).run h0 acts hsilent.2 hroom

theorem Waits.run_sent (h0 : 0 < cfg.failThreshold) : ∀ (acts : List (KeepAct Addr))
    {s : KeepSys Addr} {room : ℕ} {sent : Addr → ℕ}, Waits cfg node time room sent s →
      s.SilentRun cfg node.id acts → room + s.pings cfg acts < 2 ^ 32 →
        (∀ act ∈ acts, act.SentBy time) → Waits cfg node time (room + s.pings cfg acts)
          (fun a => sent a + acts.countP (·.probes cfg a)) (s.run cfg acts)
  | [], _, _, _, h, _, _, _ => h
  | act :: acts, s, room, sent, h, hsilent, hroom, htime => by
    rw [KeepSys.pings, ← Nat.add_assoc] at hroom ⊢
    have hstep := h.step_sent h0 hsilent.1 (by omega) (htime act List.mem_cons_self)
    have hrun := hstep.run_sent h0 acts hsilent.2 hroom fun a ha =>
      htime a (List.mem_cons_of_mem _ ha)
    refine { hrun with owing := fun a ha => (hrun.owing a ha).mono le_rfl ?_ }
    rw [List.countP_cons]
    omega

/-- A node that is offline with all its addresses. -/
structure Lapsed (cfg : KeepConfig Addr) (node : NodeRecord) (s : KeepSys Addr) : Prop where
  filed : s.Filed
  keeps : s.Keeps node
  down : ∀ a ∈ (cfg.keepaliveAddrs node).map (·.1), s.prober.available a = false
  off : s.statuses node.id = some "offline"

/-- A tick that comes when the pings have grown too old and the heartbeat is lost. -/
theorem Waits.lapsed (h0 : 0 < cfg.failThreshold) (h : Waits cfg node time room sent s)
    (hsent : ∀ a ∈ (cfg.keepaliveAddrs node).map (·.1), cfg.failThreshold.toNat ≤ sent a)
    {t : Tick Addr} (hact : (KeepAct.tick t []).Silent cfg s node.id)
    (hroom : room + (KeepAct.tick t []).pings cfg s < 2 ^ 32)
    (hclock : ∀ seq, time + cfg.intervalSecs * 1000000000 ≤ t.clock seq)
    (hlost : t.TimedOut cfg node) : Lapsed cfg node (s.step cfg (.tick t [])) := by
  obtain ⟨hprober, hnone, hoff⟩ := tick_unheard_exec h.filed h.keeps hact
  have hdown : ∀ a ∈ (cfg.keepaliveAddrs node).map (·.1), (s.probed cfg t).available a = false := by
    intro a ha
    have hl := (h.owing a ha).listened (hnone a ha) hroom
    refine (h.agrees.probe h0 t (s.addrMap cfg)).unavailable ((hsent a ha).trans ?_)
    exact hl.expireAll h0 (agrees_listened h0 h.agrees) hclock
  refine ⟨h.filed.step _, (tick_unheard h.filed h.keeps hact).1, hprober ▸ hdown, hoff ?_ hdown⟩
  intro now hnow
  obtain ⟨now', hnow', -, hbeat⟩ := h.keeps
  obtain rfl := Option.some.inj (hnow.symm.trans hnow')
  rwa [Tick.TimedOut, hbeat]

theorem Lapsed.step (h : Lapsed cfg node s) {act : KeepAct Addr} (hact : act.Silent cfg s node.id) :
    Lapsed cfg node (s.step cfg act) := by
  have hfiled : (s.step cfg act).Filed := h.filed.step act
  by_cases htick : ∃ t faults, act = .tick t faults
  · obtain ⟨t, faults, rfl⟩ := htick
    have hstep : s.step cfg (.tick t faults) = _ := after_of_lives hact.lives
    obtain ⟨s₁, h₁, hrest⟩ := wp_tick_passes h.filed t (fun _ => True) faults fun _ _ => trivial
    rw [← hstep] at hrest
    have hkeeps₁ : s₁.Keeps node := h.keeps.rewrote h₁
    have hoff₁ : s₁.statuses node.id = some "offline" := by
      rcases h₁.nodes node.id with hsame | ⟨n, want, -, ⟨rfl, -⟩, hnew⟩
      · exact (congrArg (Option.map NodeRecord.status) hsame).trans h.off
      · rw [statuses, hnew]
        rfl
    rcases hrest with hsame | ⟨m, hm, h₂⟩
    · rw [hsame] at hfiled ⊢
      exact ⟨hfiled, hkeeps₁, h₁.prober ▸ h.down, hoff₁⟩
    · have hprobed : (s₁.probe cfg t m).Keeps node := hkeeps₁
      have hdown : ∀ a ∈ (cfg.keepaliveAddrs node).map (·.1),
          (s.prober.probe cfg t m).1.available a = false := by
        intro a ha
        by_contra hav
        exact not_mem_answered h.keeps hact.unheard h₁.trace h₁.prober h₂.trace ha
          (available_probe t m (h.down a ha) (by simpa using hav))
      have hprober : (s₁.probe cfg t m).prober = (s.prober.probe cfg t m).1 := by
        rw [KeepSys.probe, h₁.prober]
      refine ⟨hfiled, hprobed.rewrote h₂, fun a ha => ?_, ?_⟩
      · rw [h₂.prober, hprober, hdown a ha]
      rcases h₂.nodes node.id with hsame | ⟨n, want, -, ⟨e, he, hid, rfl⟩, hnew⟩
      · exact (congrArg (Option.map NodeRecord.status) hsame).trans hoff₁
      · have he : e ∈ (s.addrMap cfg).entries := by
          rcases hm with rfl | rfl
          · exact he
          · cases he
        rw [hdown e.1 (owned_of_entry h.filed h.keeps he hid)] at hnew
        rw [statuses, hnew]
        rfl
  · obtain ⟨hprober, hnode⟩ := step_apart h.filed hact fun t faults he => htick ⟨t, faults, he⟩
    obtain ⟨now, hnow, hrest⟩ := h.keeps
    exact ⟨hfiled, ⟨now, hnode.trans hnow, hrest⟩, hprober ▸ h.down,
      (congrArg (Option.map NodeRecord.status) hnode).trans h.off⟩

theorem Lapsed.run : ∀ (acts : List (KeepAct Addr)) {s : KeepSys Addr}, Lapsed cfg node s →
    s.SilentRun cfg node.id acts → Lapsed cfg node (s.run cfg acts)
  | [], _, h, _ => h
  | _ :: acts, _, h, hsilent => (h.step hsilent.1).run acts hsilent.2

theorem agrees_step (h0 : 0 < cfg.failThreshold) (hs : s.Filed)
    (h : s.prober.Agrees cfg.failThreshold) (act : KeepAct Addr) :
    (s.step cfg act).prober.Agrees cfg.failThreshold := by
  have hafter : ∀ {p : KeepIo Addr Unit} (faults : List (Fault AnyError)),
      (p.run ⟨s, faults⟩).2.state.prober.Agrees cfg.failThreshold →
        (s.after p faults).prober.Agrees cfg.failThreshold := by
    intro p faults hp
    unfold KeepSys.after
    rcases hr : p.run ⟨s, faults⟩ with ⟨(e | _) | u, w⟩ <;> rw [hr] at hp
    · exact hp
    · exact agrees_new h0
    · exact hp
  cases act with
  | tick t faults =>
    refine hafter faults ?_
    obtain ⟨s₁, h₁, hsame | ⟨m, -, h₂⟩⟩ :=
      wp_tick_passes hs t (fun _ => True) faults fun _ _ => trivial
    · rw [hsame, h₁.prober]
      exact h
    · rw [h₂.prober, KeepSys.probe, h₁.prober]
      exact h.probe h0 t m
  | heartbeat nowMs nodeId faults =>
    refine hafter faults ?_
    rw [(wp_heartbeat_apart hs nowMs nodeId (fun _ => True) faults fun _ _ => trivial).1]
    exact h
  | register nowMs req faults =>
    refine hafter faults ?_
    rw [(wp_registerNode_apart nowMs req (fun _ => True) faults fun _ _ => trivial).1]
    exact h
  | restart => exact agrees_new h0

/-- In every reachable state the addresses agree with the outcomes of their pings. -/
theorem agrees_run (h0 : 0 < cfg.failThreshold) (acts : List (KeepAct Addr)) :
    (KeepSys.init.run cfg acts : KeepSys Addr).prober.Agrees cfg.failThreshold := by
  have hrun : ∀ (acts : List (KeepAct Addr)) {s : KeepSys Addr}, s.Filed →
      s.prober.Agrees cfg.failThreshold → (s.run cfg acts).prober.Agrees cfg.failThreshold := by
    intro acts
    induction acts with
    | nil => exact fun _ h => h
    | cons act acts ih => exact fun hs h => ih (hs.step act) (agrees_step h0 hs h act)
  exact hrun acts (filed_run cfg []) (agrees_new h0)

/-- From any state that is reached on, whatever else goes on and fails: once each address of a node
has been in its slot as often as the threshold says, a tick that finds these pings too old and the
heartbeat lost leaves a node offline that nothing was heard of, and it stays offline for as long as
nothing is heard of it. -/
theorem silent_offline (h0 : 0 < cfg.failThreshold) (acts first later rest : List (KeepAct Addr))
    {t : Tick Addr} {id : UInt64}
    (hnode : (KeepSys.init.run cfg acts).sched.nodes[id]? = some node)
    (hsilent : (KeepSys.init.run cfg acts).SilentRun cfg id
      (first ++ later ++ [.tick t []] ++ rest))
    (hpings : (KeepSys.init.run cfg acts).pings cfg (first ++ later ++ [.tick t []]) < 2 ^ 32)
    (hslots : ∀ a ∈ (cfg.keepaliveAddrs node).map (·.1),
      cfg.failThreshold.toNat ≤ first.countP (·.probes cfg a))
    (htime : ∀ act ∈ first, act.SentBy time)
    (hclock : ∀ seq, time + cfg.intervalSecs * 1000000000 ≤ t.clock seq)
    (hlost : t.TimedOut cfg node) :
    (KeepSys.init.run cfg (acts ++ (first ++ later ++ [.tick t []] ++ rest))).statuses id
      = some "offline" := by
  have hfiled := filed_run cfg acts
  have hagrees : (KeepSys.init.run cfg acts).prober.Agrees cfg.failThreshold := agrees_run h0 acts
  rw [run_append]
  generalize KeepSys.init.run cfg acts = s at *
  obtain rfl := hfiled id node hnode
  obtain ⟨hsilent, hrest⟩ := silentRun_append _ hsilent
  obtain ⟨hsilent, htick⟩ := silentRun_append _ hsilent
  obtain ⟨hfirst, hlater⟩ := silentRun_append _ hsilent
  rw [pings_append, pings_append] at hpings
  have hstart : Waits cfg node time 0 (fun _ => 0) s :=
    ⟨hfiled, ⟨node, hnode, rfl, rfl⟩, hagrees, fun a _ => owing_zero a time _⟩
  have hsent := hstart.run_sent h0 first hfirst (by omega) htime
  have hwaits := hsent.run h0 later hlater (by omega)
  rw [← run_append] at hwaits
  simp only [KeepSys.pings] at hpings
  have hlapsed := hwaits.lapsed h0 (fun a ha => (hslots a ha).trans (Nat.le_add_left _ _)) htick.1
    (by omega) hclock hlost
  have hend := hlapsed.run rest (by rwa [run_append] at hrest)
  rw [run_append, run_append]
  exact hend.off

end Runs

section Reasons

variable {s : KeepSys Addr}

/-- What makes a tick take a node offline: its heartbeat is lost, or as many pings of an address of
its own as the threshold says have failed, one after another. -/
def Reason (cfg : KeepConfig Addr) (s : KeepSys Addr) (t : Tick Addr) (node : NodeRecord) : Prop :=
  t.TimedOut cfg node ∨ ∃ a ∈ (cfg.keepaliveAddrs node).map (·.1),
    cfg.failThreshold.toNat ≤ failRun a (s.probed cfg t).log

omit [DecidableEq Addr] in
theorem nodes_after (p : KeepIo Addr Unit) (faults : List (Fault AnyError)) :
    (s.after p faults).sched.nodes = (p.run ⟨s, faults⟩).2.state.sched.nodes := by
  unfold KeepSys.after
  rcases p.run ⟨s, faults⟩ with ⟨(e | _) | u, w⟩ <;> rfl

theorem failRun_of_unavailable {p : Prober Addr} {a : Addr} (h : p.Agrees cfg.failThreshold)
    (hdown : p.available a = false) : cfg.failThreshold.toNat ≤ failRun a p.log := by
  rw [← h.mem_unavailable a]
  rcases hget : p.addrs.get? a with _ | state
  · simp [Prober.available, hget] at hdown
  · have hstate : state.available = false := by simpa [Prober.available, hget] using hdown
    exact List.mem_map.2
      ⟨(a, state), List.mem_filter.2 ⟨HashMap.get?_eq_some.1 hget, by simp [hstate]⟩,
      rfl⟩

/-- An action leaves a node offline that was so already, or it is a tick that has a reason. -/
theorem step_offline (h0 : 0 < cfg.failThreshold) (hs : s.Filed)
    (hagrees : s.prober.Agrees cfg.failThreshold) (act : KeepAct Addr) {id : UInt64}
    {node : NodeRecord} (hnode : (s.step cfg act).sched.nodes[id]? = some node)
    (hoff : node.status = "offline") :
    s.sched.nodes[id]? = some node ∨ ∃ t faults status, act = .tick t faults
      ∧ s.sched.nodes[id]? = some { node with status := status } ∧ Reason cfg s t node := by
  have honline : ∀ {s' : KeepSys Addr}, s'.sched.nodes[id]? = some node →
      s'.statuses id ≠ some "online" := fun h hon => by
    rw [statuses, h, Option.map_some, hoff] at hon
    exact absurd (Option.some.inj hon) (by decide)
  cases act with
  | tick t faults =>
    obtain ⟨s₁, h₁, hrest⟩ := wp_tick_passes hs t (fun _ => True) faults fun _ _ => trivial
    have hnode : ((KeepSys.tick cfg t).run ⟨s, faults⟩).2.state.sched.nodes[id]? = some node :=
      (congrArg (·[id]?) (nodes_after (KeepSys.tick cfg t) faults)).symm.trans hnode
    have hfirst : ∀ {n : NodeRecord}, s₁.sched.nodes[id]? = some n → n.status = "offline" →
        s.sched.nodes[id]? = some n
          ∨ ∃ status, s.sched.nodes[id]? = some { n with status := status }
          ∧ t.TimedOut cfg n := by
      intro n hn hnoff
      rcases h₁.nodes id with hsame | ⟨old, want, hold, ⟨rfl, old', hold', hlost⟩, hnew⟩
      · exact .inl (hsame ▸ hn)
      · obtain rfl := Option.some.inj (hold.symm.trans hold')
        obtain rfl := Option.some.inj (hnew.symm.trans hn)
        exact .inr ⟨old.status, hold, hlost⟩
    have hfirst' : s₁.sched.nodes[id]? = some node → s.sched.nodes[id]? = some node
        ∨ ∃ t' faults' status, KeepAct.tick t faults = .tick t' faults'
          ∧ s.sched.nodes[id]? = some { node with status := status } ∧ Reason cfg s t' node := by
      intro hn
      rcases hfirst hn hoff with h | ⟨status, h, hlost⟩
      · exact .inl h
      · exact .inr ⟨t, faults, status, rfl, h, .inl hlost⟩
    rcases hrest with hsame | ⟨m, hm, h₂⟩
    · rw [hsame] at hnode
      exact hfirst' hnode
    · rcases h₂.nodes id with hsame | ⟨n, want, hn, ⟨e, he, hid, hwant⟩, hnew⟩
      · exact hfirst' (hsame.symm.trans hnode)
      · obtain rfl := Option.some.inj (hnew.symm.trans hnode)
        obtain rfl : want = "offline" := hoff
        have hdown : (s.prober.probe cfg t m).1.available e.1 = false := by
          by_contra hav
          rw [if_pos (by simpa using hav)] at hwant
          exact absurd hwant (by decide)
        have hmap : m = s.addrMap cfg := hm.resolve_right fun hempty => by
          rw [hempty] at he
          cases he
        subst hmap
        obtain ⟨old, status, hold, hrec⟩ : ∃ old status, s.sched.nodes[id]? = some old
            ∧ n = { old with status := status } := by
          rcases h₁.nodes id with hsame | ⟨old, want, hold, -, hnew'⟩
          · exact ⟨n, n.status, hsame ▸ hn, rfl⟩
          · exact ⟨old, want, hold, Option.some.inj (hn.symm.trans hnew')⟩
        subst hrec
        refine .inr ⟨t, faults, old.status, rfl, hold, .inr ⟨e.1, ?_, ?_⟩⟩
        · have hkeeps : s.Keeps old := ⟨old, by rw [hs id old hold, hold], rfl, rfl⟩
          exact owned_of_entry hs hkeeps he (hid.trans (hs id old hold).symm)
        · exact failRun_of_unavailable (hagrees.probe h0 t _) hdown
  | heartbeat nowMs nodeId faults =>
    have hnode := (congrArg (·[id]?)
      (nodes_after (KeepSys.heartbeat nowMs nodeId) faults)).symm.trans
      hnode
    obtain ⟨-, -, hnodes⟩ :=
      wp_heartbeat_apart hs nowMs nodeId (fun _ => True) faults fun _ _ => trivial
    exact .inl (((hnodes id).resolve_right fun h => honline hnode h.2).symm.trans hnode)
  | register nowMs req faults =>
    have hnode := (congrArg (·[id]?)
      (nodes_after (KeepSys.registerNode nowMs req) faults)).symm.trans
      hnode
    obtain ⟨-, hnodes⟩ := wp_registerNode_apart nowMs req (fun _ => True) faults fun _ _ => trivial
    exact .inl (((hnodes id).resolve_right fun h => honline hnode h.2).symm.trans hnode)
  | restart => exact .inl hnode

/-- Whatever happens, deaths and restarts included: a node that is stored as offline was taken so by
a tick with a reason, and its record has not changed since. -/
theorem run_offline_reason (h0 : 0 < cfg.failThreshold) (acts : List (KeepAct Addr)) {id : UInt64}
    {node : NodeRecord} (hnode : (KeepSys.init.run cfg acts).sched.nodes[id]? = some node)
    (hoff : node.status = "offline") :
    ∃ before t faults since status, acts = before ++ .tick t faults :: since
      ∧ (KeepSys.init.run cfg before).sched.nodes[id]? = some { node with status := status }
      ∧ Reason cfg (KeepSys.init.run cfg before) t node
      ∧ ∀ between, between <+: since →
        (KeepSys.init.run cfg (before ++ .tick t faults :: between)).sched.nodes[id]?
          = some node := by
  induction acts using List.reverseRecOn generalizing node with
  | nil => simp [KeepSys.run, KeepSys.init, Sched.empty] at hnode
  | append_singleton acts act ih =>
    have hlast := hnode
    rw [run_append] at hnode
    rcases step_offline h0 (filed_run cfg acts) (agrees_run h0 acts) act hnode hoff with h | h
    · obtain ⟨before, t, faults, since, status, rfl, hold, hreason, hstays⟩ := ih h hoff
      refine ⟨before, t, faults, since ++ [act], status, by simp, hold, hreason,
        fun between hb => ?_⟩
      rcases List.prefix_concat_iff.1 hb with rfl | hb
      · simpa using hlast
      · exact hstays between hb
    · obtain ⟨t, faults, status, rfl, hold, hreason⟩ := h
      refine ⟨acts, t, faults, [], status, rfl, hold, hreason, fun between hb => ?_⟩
      obtain rfl := List.prefix_nil.1 hb
      exact hlast

end Reasons

section Example

omit [DecidableEq Addr] in
theorem unheard_of {s s' : KeepSys Addr} {id : UInt64} {l : List (NodeEvent Addr)}
    (h : s'.trace = l ++ s.trace) (hl : ∀ e ∈ l, ¬ Evidence (s.Owns cfg) id e)
    (new : List (NodeEvent Addr)) (hnew : s'.trace = new ++ s.trace) :
    ∀ e ∈ new, ¬ Evidence (s.Owns cfg) id e := by
  rwa [← List.append_cancel_right (h.symm.trans hnew)]

/-- The cafe goes silent; a node that nobody knows does not. -/
def silentActs : List (KeepAct ℕ) :=
  [.tick (tickAtMs 1 0 []) []] ++ [.heartbeat 50 7 []] ++ [.tick (tickAtMs 100 1000000000 []) []]
    ++ [.tick (tickAtMs 200 0 []) [.fail 0 (.msg "x")]]

theorem lives_of {r : Except (Stop AnyError) Unit}
    (h : (match r with | .error .killed => false | _ => true) = true) : r ≠ .error .killed := by
  rintro rfl
  cases h

theorem silentRun_silentActs :
    (KeepSys.init.run oneAddrConfig [registerCafe]).SilentRun oneAddrConfig 1 silentActs := by
  refine ⟨⟨lives_of (by decide +kernel), by simp, unheard_of (l := []) rfl (by simp)⟩,
    ⟨lives_of (by decide +kernel), by simp,
      unheard_of (l := [.heartbeat 7]) rfl (by simp [Evidence])⟩,
    ⟨lives_of (by decide +kernel), by simp,
      unheard_of (l := [.status 1 "offline"]) rfl (by simp [Evidence])⟩,
    ⟨lives_of (by decide +kernel), by simp, unheard_of (l := []) rfl (by simp)⟩, trivial⟩

theorem silent_offline_cafe :
    (KeepSys.init.run oneAddrConfig ([registerCafe] ++ silentActs)).statuses 1
    = some "offline" := by
  refine silent_offline (by decide) [registerCafe] [.tick (tickAtMs 1 0 []) []] [.heartbeat 50 7 []]
    [.tick (tickAtMs 200 0 []) [.fail 0 (.msg "x")]] (show _ = some (cafeNode "online") from rfl)
    silentRun_silentActs (by decide +kernel) (fun a ha => ?_)
    (show ∀ act : KeepAct ℕ, act ∈ _ → act.SentBy 0 from ?_) (fun _ => le_rfl) ?_
  · obtain rfl : a = 5 := List.mem_singleton.1 ha
    decide
  · intro act hact
    obtain rfl := List.mem_singleton.1 hact
    exact fun _ => le_rfl
  · exact show 100 - 0 > 10 by decide

/-- The cafe went offline at the third of its actions. -/
theorem run_offline_reason_cafe : ∃ before t faults since,
    [registerCafe] ++ silentActs = before ++ .tick t faults :: since
      ∧ Reason oneAddrConfig (KeepSys.init.run oneAddrConfig before) t (cafeNode "offline") := by
  have hnode : (KeepSys.init.run oneAddrConfig
    ([registerCafe] ++ silentActs)).sched.nodes[(1 : UInt64)]?
      = some (cafeNode "offline") := rfl
  obtain ⟨before, t, faults, since, -, hacts, -, hreason, -⟩ :=
    run_offline_reason (by decide) _ hnode rfl
  exact ⟨before, t, faults, since, hacts, hreason⟩

end Example

end BlazeNet

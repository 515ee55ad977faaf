import BlazeNet.PingNet
import BlazeNet.Proofs.Probes
import Mathlib.Data.List.TakeWhile

/-!
# A success of an address is an answer of its agent

Every datagram on the network is what its sender says: one from the scheduler is a ping to its
receiver, and a pong to the scheduler answers a ping that went to the agent that answered. So a pong
ends the ping of its own agent, and no ping is ended twice.
-/

namespace BlazeNet

open Wire RustStd PingNet

section Packets

theorem length_buildPing (seq : UInt32) (nodeId : UInt64) (addrIndex : UInt32) :
    (buildPing seq nodeId addrIndex).length = pingLen := by
  simp [buildPing, pingMagic, pingLen]

theorem ofNat_ofLe_leBytes (seq : UInt32) : UInt32.ofNat (ofLe (leBytes 4 seq.toNat)) = seq := by
  rw [ofLe_leBytes, Nat.mod_eq_of_lt (by exact seq.toNat_lt), UInt32.ofNat_toNat]

theorem parsePing_buildPing (seq : UInt32) (nodeId : UInt64) (addrIndex : UInt32) :
    parsePing (buildPing seq nodeId addrIndex) = some (seq, nodeId, addrIndex) := by
  have hseq : ((buildPing seq nodeId addrIndex).drop 6).take 4 = leBytes 4 seq.toNat := by
    simp [buildPing, pingMagic, List.drop_append]
  have hnode : ((buildPing seq nodeId addrIndex).drop 10).take 8 = leBytes 8 nodeId.toNat := by
    simp [buildPing, pingMagic]
  have hindex : (buildPing seq nodeId addrIndex).drop 18 = leBytes 4 addrIndex.toNat := by
    simp [buildPing, pingMagic, List.drop_append]
  have hmagic : (buildPing seq nodeId addrIndex).take 6 = pingMagic := rfl
  have hlen64 : ofLe (leBytes 8 nodeId.toNat) = nodeId.toNat := by
    rw [ofLe_leBytes, Nat.mod_eq_of_lt (by exact nodeId.toNat_lt)]
  rw [parsePing, length_buildPing, hmagic, hseq, hnode, hindex, ofNat_ofLe_leBytes,
    ofNat_ofLe_leBytes, hlen64, UInt64.ofNat_toNat]
  simp

theorem length_buildPong (seq : UInt32) : (buildPong seq).length = pongLen := by
  simp [buildPong, pongMagic, pongLen]

theorem parsePong_buildPong (seq : UInt32) : parsePong (buildPong seq) = some seq := by
  have hmagic : (buildPong seq).take 7 = pongMagic := rfl
  have hseq : (buildPong seq).drop 7 = leBytes 4 seq.toNat := rfl
  rw [parsePong, length_buildPong, hmagic, hseq, ofNat_ofLe_leBytes]
  simp

/-- A ping is no pong. -/
theorem parsePong_take_buildPing (seq : UInt32) (nodeId : UInt64) (addrIndex : UInt32) :
    parsePong ((buildPing seq nodeId addrIndex).take pongLen) = none := by
  refine if_pos (.inr fun h => ?_)
  have hstart : (((buildPing seq nodeId addrIndex).take pongLen).take 7).take 6 = pingMagic := rfl
  rw [h] at hstart
  revert hstart
  decide

end Packets

section Genuine

variable {Addr : Type} [DecidableEq Addr] {cfg : KeepConfig Addr} {hub : Addr} {s : PingNet Addr}
  {pinged : List Addr} {wins : List (Addr × UInt32)}

/-- What the sender of a datagram vouches for, when the addresses `pinged` were pinged one after
another: the scheduler sends pings, and a pong to it answers one at the address it went to. -/
structure Genuine (hub : Addr) (pinged : List Addr) (answers : List (Addr × UInt32))
    (d : Datagram Addr) : Prop where
  ping : d.src = hub → ∃ k nodeId addrIndex, pinged[k]? = some d.dst
    ∧ d.bytes = buildPing (UInt32.ofNat (k + 1)) nodeId addrIndex
  pong : d.dst = hub → ∀ seq, parsePong (d.bytes.take pongLen) = some seq →
    ∃ a k, pinged[k]? = some a ∧ seq = UInt32.ofNat (k + 1) ∧ (a, seq) ∈ answers

theorem getElem?_of_isPrefix {α : Type} {l l' : List α} {k : ℕ} {a : α} (h : l <+: l')
    (hk : l[k]? = some a) : l'[k]? = some a := by
  obtain ⟨t, rfl⟩ := h
  rw [List.getElem?_append_left (List.getElem?_eq_some_iff.1 hk).1, hk]

omit [DecidableEq Addr] in
theorem Genuine.mono {pinged' : List Addr} {answers answers' : List (Addr × UInt32)}
    {d : Datagram Addr} (h : Genuine hub pinged answers d) (hpinged : pinged <+: pinged')
    (hanswers : answers ⊆ answers') : Genuine hub pinged' answers' d := by
  refine ⟨fun hsrc => ?_, fun hdst seq hseq => ?_⟩
  · obtain ⟨k, nodeId, addrIndex, hk, hbytes⟩ := h.ping hsrc
    exact ⟨k, nodeId, addrIndex, getElem?_of_isPrefix hpinged hk, hbytes⟩
  · obtain ⟨a, k, hk, hseq, hans⟩ := h.pong hdst seq hseq
    exact ⟨a, k, getElem?_of_isPrefix hpinged hk, hseq, hanswers hans⟩

/-- The pings that are out are those of `pinged`, and each success, with the pong that brought it,
is an answer of the agent at its address. -/
structure Answered (cfg : KeepConfig Addr) (hub : Addr) (s : PingNet Addr) (pinged : List Addr)
    (wins : List (Addr × UInt32)) : Prop where
  agrees : s.prober.Agrees cfg.failThreshold
  seq : s.prober.seq = UInt32.ofNat pinged.length
  genuine : ∀ d ∈ s.sent, Genuine hub pinged s.answers d
  outstanding : ∀ seq a at_, s.prober.outstanding.get? seq = some (a, at_) →
    ∃ k, pinged[k]? = some a ∧ seq = UInt32.ofNat (k + 1)
  log : s.prober.log.filter (·.2) = wins.map fun w => (w.1, true)
  nodup : wins.Nodup
  won : ∀ w ∈ wins, w ∈ s.answers ∧ s.prober.outstanding.get? w.2 = none
    ∧ ∃ k < pinged.length, w.2 = UInt32.ofNat (k + 1)

theorem answered_init (h0 : 0 < cfg.failThreshold) : Answered cfg hub .init [] [] :=
  ⟨(tracks_new h0).agrees, rfl, by simp [init], by simp [init, Prober.new], rfl, List.nodup_nil,
    by simp⟩

theorem ofNat_succ_inj {k k' : ℕ} (hk : k + 1 < 2 ^ 32) (hk' : k' + 1 < 2 ^ 32)
    (h : UInt32.ofNat (k + 1) = UInt32.ofNat (k' + 1)) : k = k' := by
  have := congrArg UInt32.toNat h
  rw [UInt32.toNat_ofNat_of_lt' hk, UInt32.toNat_ofNat_of_lt' hk'] at this
  omega

theorem Answered.register (h : Answered cfg hub s pinged wins) (addr : Addr) :
    Answered cfg hub (s.step cfg hub (.register addr)) pinged wins :=
  { h with agrees := h.agrees.register addr }

theorem Answered.ping (h : Answered cfg hub s pinged wins) (hroom : pinged.length + 1 < 2 ^ 32)
    (addr : Addr) (nodeId : UInt64) (addrIndex : UInt32) (at_ : ℕ) :
    Answered cfg hub (s.step cfg hub (.ping addr nodeId addrIndex at_))
      (pinged ++ [addr]) wins := by
  have hseq : s.prober.seq + 1 = UInt32.ofNat (pinged.length + 1) := by
    rw [h.seq, UInt32.ofNat_add]
    rfl
  have hlast : (pinged ++ [addr])[pinged.length]? = some addr := by simp
  refine ⟨h.agrees, ?_, fun d hd => ?_, fun seq a t hget => ?_, h.log, h.nodup, fun w hw => ?_⟩
  · rw [List.length_append]
    exact hseq
  · rcases List.mem_append.1 hd with hd | hd
    · exact (h.genuine d hd).mono (List.prefix_append _ _) fun _ => id
    · obtain rfl := List.mem_singleton.1 hd
      refine ⟨fun _ => ⟨pinged.length, nodeId, addrIndex, hlast, by rw [hseq]⟩,
        fun _ seq hpong => ?_⟩
      rw [parsePong_take_buildPing] at hpong
      cases hpong
  · change (s.prober.outstanding.insert (s.prober.seq + 1) (addr, at_)).get? seq = _ at hget
    rw [HashMap.get?_insert] at hget
    split_ifs at hget with hnew
    · obtain ⟨rfl, -⟩ := Prod.mk.inj (Option.some.inj hget)
      exact ⟨pinged.length, hlast, hnew.trans hseq⟩
    · obtain ⟨k, hk, rfl⟩ := h.outstanding seq a t hget
      exact ⟨k, getElem?_of_isPrefix (List.prefix_append _ _) hk, rfl⟩
  · obtain ⟨hans, hnone, k, hk, hwk⟩ := h.won w hw
    refine ⟨hans, ?_, k, by rw [List.length_append]; omega, hwk⟩
    change (s.prober.outstanding.insert (s.prober.seq + 1) (addr, at_)).get? w.2 = _
    rw [HashMap.get?_insert, if_neg, hnone]
    rw [hwk, hseq]
    intro heq
    have := ofNat_succ_inj (by omega) hroom heq
    omega

/-- A pong that is taken ends a ping of the agent that sent it, and no ping is ended twice. -/
theorem Answered.receive (h0 : 0 < cfg.failThreshold) (h : Answered cfg hub s pinged wins)
    (hpings : pinged.length < 2 ^ 32) (i : ℕ) :
    ∃ wins, Answered cfg hub (s.step cfg hub (.receive i)) pinged wins := by
  simp only [step]
  rcases hd : s.sent[i]? with _ | d
  · exact ⟨wins, h⟩
  simp only
  split_ifs with hdst
  · simp only [Prober.receive]
    rcases hpong : parsePong (d.bytes.take pongLen) with _ | seq
    · exact ⟨wins, h⟩
    simp only
    rcases hout : s.prober.outstanding.get? seq with _ | ⟨b, at_⟩
    · exact ⟨wins, h⟩
    obtain ⟨a, k, hk, hseq, hans⟩ := (h.genuine d (List.mem_of_getElem? hd)).pong hdst seq hpong
    obtain ⟨k', hk', hseq'⟩ := h.outstanding seq b at_ hout
    have hklt := (List.getElem?_eq_some_iff.1 hk).1
    have hklt' := (List.getElem?_eq_some_iff.1 hk').1
    obtain rfl : k = k' := ofNat_succ_inj (by omega) (by omega) (hseq.symm.trans hseq')
    obtain rfl : a = b := Option.some.inj (hk.symm.trans hk')
    have hremove : ∀ q, (s.prober.outstanding.remove seq).get? q
        = if q = seq then none else s.prober.outstanding.get? q := fun q => HashMap.get?_remove
    refine ⟨(a, seq) :: wins, Prober.Agrees.record h0 (p := { s.prober with outstanding := _ })
      h.agrees a true, h.seq, h.genuine, fun q b t hq => ?_, ?_, ?_, fun w hw => ?_⟩
    · have hq := (hremove q).symm.trans hq
      split_ifs at hq
      exact h.outstanding q b t hq
    · simp [Prober.record, h.log]
    · refine List.nodup_cons.2 ⟨fun hw => ?_, h.nodup⟩
      exact absurd ((h.won _ hw).2.1.symm.trans hout) (by simp)
    · refine (List.mem_cons.1 hw).elim (fun hw => ?_) fun hw => ?_
      · subst hw
        exact ⟨hans, (hremove seq).trans (if_pos rfl), k, hklt, hseq⟩
      · obtain ⟨hans, hnone, hk⟩ := h.won w hw
        exact ⟨hans, (hremove w.2).trans (by rw [hnone, ite_self]), hk⟩
  · exact ⟨wins, h⟩

theorem Answered.expire (h0 : 0 < cfg.failThreshold) (h : Answered cfg hub s pinged wins)
    (iter : IterOrder (UInt32 × Addr × ℕ)) (clock : UInt32 → ℕ) :
    Answered cfg hub (s.step cfg hub (.expire iter clock)) pinged wins := by
  obtain ⟨hseq, hagrees, hentries, hlog⟩ := foldl_giveUp h0
    ((iter.order s.prober.outstanding.entries).filter fun e =>
      Prober.tooOld cfg.intervalSecs clock e.1 e.2.2) s.prober h.agrees
  set p := s.prober.expire cfg.failThreshold cfg.intervalSecs iter clock with hp
  have hget : ∀ {q v}, p.outstanding.get? q = some v → s.prober.outstanding.get? q = some v := by
    intro q v hq
    have hmem := HashMap.get?_eq_some.1 hq
    rw [show p.outstanding.entries = _ from hentries] at hmem
    exact HashMap.get?_eq_some.2 (List.mem_filter.1 hmem).1
  refine ⟨hagrees, hseq.trans h.seq, h.genuine, fun q a t hq => h.outstanding q a t (hget hq),
    ?_, h.nodup, fun w hw => ?_⟩
  · change p.log.filter (·.2) = _
    rw [show p.log = _ from hlog, List.filter_append, h.log]
    simp
  · obtain ⟨hans, hnone, hk⟩ := h.won w hw
    refine ⟨hans, ?_, hk⟩
    change p.outstanding.get? w.2 = none
    rcases hq : p.outstanding.get? w.2 with _ | v
    · rfl
    · exact absurd ((hget hq).symm.trans hnone) (by simp)

/-- An agent answers what it is sent; to the scheduler it only answers pings. -/
theorem Answered.answer (h : Answered cfg hub s pinged wins) (i : ℕ) :
    Answered cfg hub (s.step cfg hub (.answer i)) pinged wins := by
  simp only [step]
  rcases hd : s.sent[i]? with _ | d
  · exact h
  simp only
  split_ifs with hdst
  · exact h
  rcases hserve : servePong d with _ | ⟨seq, pong⟩
  · exact h
  obtain ⟨ping, hping, hpair⟩ := Option.map_eq_some_iff.1 hserve
  obtain ⟨rfl, rfl⟩ := Prod.mk.inj hpair
  have hmore : s.answers ⊆ (d.dst, ping.1) :: s.answers := List.subset_cons_self _ _
  refine { h with genuine := fun d' hd' => ?_, won := fun w hw => ?_ }
  · rcases List.mem_append.1 hd' with hd' | hd'
    · exact (h.genuine d' hd').mono (List.prefix_refl _) hmore
    · obtain rfl := List.mem_singleton.1 hd'
      refine ⟨fun hsrc => absurd hsrc hdst, fun hsrc seq hseq => ?_⟩
      obtain ⟨k, nodeId, addrIndex, hk, hbytes⟩ := (h.genuine d (List.mem_of_getElem? hd)).ping hsrc
      rw [hbytes, List.take_of_length_le (length_buildPing _ _ _).le, parsePing_buildPing] at hping
      obtain rfl := Option.some.inj hping
      rw [List.take_of_length_le (length_buildPong _).le, parsePong_buildPong] at hseq
      obtain rfl := Option.some.inj hseq
      exact ⟨d.dst, k, hk, rfl, List.mem_cons_self⟩
  · obtain ⟨hans, hrest⟩ := h.won w hw
    exact ⟨hmore hans, hrest⟩

theorem Answered.stray (h : Answered cfg hub s pinged wins) {d : Datagram Addr}
    (hharmless : (NetAct.stray d).Harmless hub) :
    Answered cfg hub (s.step cfg hub (.stray d)) pinged wins := by
  refine { h with genuine := fun d' hd' => ?_ }
  rcases List.mem_append.1 hd' with hd' | hd'
  · exact h.genuine d' hd'
  · obtain rfl := List.mem_singleton.1 hd'
    refine ⟨fun hsrc => absurd hsrc hharmless.1, fun hdst seq hseq => ?_⟩
    rw [hharmless.2 hdst] at hseq
    cases hseq

theorem Answered.step (h0 : 0 < cfg.failThreshold) (h : Answered cfg hub s pinged wins)
    {act : NetAct Addr} (hharmless : act.Harmless hub)
    (hpings : pinged.length + (if act.isPing then 1 else 0) < 2 ^ 32) :
    ∃ pinged' wins', pinged'.length = pinged.length + (if act.isPing then 1 else 0)
      ∧ Answered cfg hub (s.step cfg hub act) pinged' wins' := by
  cases act with
  | register addr => exact ⟨pinged, wins, rfl, h.register addr⟩
  | ping addr nodeId addrIndex at_ =>
    exact ⟨pinged ++ [addr], wins, by simp [NetAct.isPing], h.ping hpings addr nodeId addrIndex at_⟩
  | receive i =>
    obtain ⟨wins', h'⟩ := h.receive h0 hpings i
    exact ⟨pinged, wins', rfl, h'⟩
  | expire iter clock => exact ⟨pinged, wins, rfl, h.expire h0 iter clock⟩
  | answer i => exact ⟨pinged, wins, rfl, h.answer i⟩
  | stray d => exact ⟨pinged, wins, rfl, h.stray hharmless⟩

theorem Answered.run (h0 : 0 < cfg.failThreshold) : ∀ (acts : List (NetAct Addr)) {s : PingNet Addr}
    {pinged : List Addr} {wins : List (Addr × UInt32)}, Answered cfg hub s pinged wins →
      (∀ act ∈ acts, act.Harmless hub) → pinged.length + acts.countP NetAct.isPing < 2 ^ 32 →
        ∃ pinged wins, Answered cfg hub (s.run cfg hub acts) pinged wins
  | [], _, pinged, wins, h, _, _ => ⟨pinged, wins, h⟩
  | act :: acts, _, pinged, _, h, hharmless, hpings => by
    rw [List.countP_cons] at hpings
    obtain ⟨pinged', wins', hlen, h'⟩ := h.step h0 (hharmless act List.mem_cons_self) (by omega)
    exact h'.run h0 acts (fun a ha => hharmless a (List.mem_cons_of_mem _ ha)) (by omega)

/-- Each success of an address is another answer of its agent. -/
theorem Answered.successes_le (h : Answered cfg hub s pinged wins) (a : Addr) :
    s.successes a ≤ (s.answeredBy a).card := by
  set own := (wins.filter fun w => w.1 = a).map (·.2) with hown
  have hnodup : own.Nodup := by
    refine (h.nodup.filter _).map_on fun w hw w' hw' heq => ?_
    have hw := of_decide_eq_true (List.mem_filter.1 hw).2
    have hw' := of_decide_eq_true (List.mem_filter.1 hw').2
    exact Prod.ext (hw.trans hw'.symm) heq
  have hcount : s.successes a = own.length := by
    have hsplit : s.prober.log.countP (· = (a, true))
        = (s.prober.log.filter (·.2)).countP (·.1 = a) := by
      rw [List.countP_filter]
      refine List.countP_congr fun e _ => ?_
      obtain ⟨b, ok⟩ := e
      cases ok <;> simp
    rw [successes, hsplit, h.log, List.countP_map, hown, List.length_map,
      List.countP_eq_length_filter]
    rfl
  rw [hcount, ← List.toFinset_card_of_nodup hnodup]
  refine Finset.card_le_card fun seq hseq => ?_
  obtain ⟨w, hw, rfl⟩ := List.mem_map.1 (List.mem_toFinset.1 hseq)
  obtain ⟨hw, ha⟩ := List.mem_filter.1 hw
  exact List.mem_toFinset.2 (List.mem_map_of_mem (List.mem_filter.2 ⟨(h.won w hw).1, ha⟩))

/-- Without a success all outcomes are one run of failures. -/
theorem failRun_eq_failures {a : Addr} (h : s.successes a = 0) :
    failRun a s.prober.log = s.failures a := by
  have hfailed : ∀ e ∈ s.prober.log.filter fun e => e.1 = a, (!e.2) = true := by
    intro e he
    obtain ⟨hmem, ha⟩ := List.mem_filter.1 he
    obtain ⟨b, ok⟩ := e
    obtain rfl : b = a := of_decide_eq_true ha
    have := List.countP_eq_zero.1 h _ hmem
    simpa using this
  rw [failRun, List.takeWhile_eq_self_iff.2 hfailed, failures, List.countP_eq_length_filter]
  refine congrArg List.length (List.filter_congr fun e he => ?_)
  obtain ⟨b, ok⟩ := e
  have := List.countP_eq_zero.1 h _ he
  cases ok <;> simp_all

/-- However the network loses, repeats and mixes up what is sent, and whatever strangers send that
is no pong: an address counts as answering no more often than its agent has answered different
pings, and one whose agent answers none is unavailable just if as many of its pings as the threshold
says have been given up. -/
theorem run_answered (h0 : 0 < cfg.failThreshold) (acts : List (NetAct Addr))
    (hharmless : ∀ act ∈ acts, act.Harmless hub) (hpings : acts.countP NetAct.isPing < 2 ^ 32)
    (a : Addr) : let s := PingNet.init.run cfg hub acts
    s.successes a ≤ (s.answeredBy a).card
      ∧ (s.answeredBy a = ∅ → (a ∈ Keepalive.unavailable s.prober.addrs
        ↔ cfg.failThreshold.toNat ≤ s.failures a)) := by
  intro s
  obtain ⟨pinged, wins, h⟩ := (answered_init h0).run h0 acts hharmless (by simpa using hpings)
  have hle := h.successes_le a
  refine ⟨hle, fun hnone => ?_⟩
  rw [hnone, Finset.card_empty, Nat.le_zero] at hle
  rw [h.agrees.mem_unavailable a, failRun_eq_failures hle]

end Genuine

section Example

/-- Two agents are pinged; the second is away, and a pong that comes twice counts once. -/
def pingActs : List (NetAct ℕ) :=
  [.register 5, .register 6, .ping 5 1 0 0, .ping 6 2 0 0, .answer 0, .stray ⟨9, 0, [1, 2, 3]⟩,
    .receive 2, .receive 2, .receive 3, .expire .same fun _ => 1000000000]

theorem run_answered_two : let s := PingNet.init.run eagerConfig 0 pingActs
    s.successes 5 = 1 ∧ s.successes 5 ≤ (s.answeredBy 5).card
      ∧ 6 ∈ Keepalive.unavailable s.prober.addrs := by
  have hharmless : ∀ act ∈ pingActs, act.Harmless 0 := by
    simp [pingActs, NetAct.Harmless, parsePong, pongLen]
  refine ⟨by decide +kernel, (run_answered (by decide) pingActs hharmless (by decide) 5).1, ?_⟩
  exact ((run_answered (by decide) pingActs hharmless (by decide) 6).2 (by decide +kernel)).2
    (by decide +kernel)

end Example

end BlazeNet

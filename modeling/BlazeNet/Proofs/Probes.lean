import BlazeNet.Probes

/-!
# Every probe is recorded once

The outstanding map holds the outstanding probes and the log their outcomes, because a sequence
number is not used again while its probe is outstanding. An address is unavailable when its last
outcomes are failures, at least as many as the threshold.
-/

namespace BlazeNet

open Wire FaultIo RustStd

variable {Addr : Type} [DecidableEq Addr]

section Settle

variable (chosen : UInt32 × Addr × ℕ → Bool) (fate : Fate)

omit [DecidableEq Addr] in
theorem filter_isOut_settle (hf : fate ≠ .outstanding) (probes : List (Probe Addr)) :
    (probes.map (Probe.settle chosen fate)).filter Probe.isOut
      = (probes.filter Probe.isOut).filter fun q => !chosen q.entry := by
  induction probes with
  | nil => rfl
  | cons q probes ih =>
    simp only [List.map_cons, List.filter_cons, ih]
    by_cases hq : q.isOut <;> by_cases hc : chosen q.entry <;>
      simp [Probe.settle, hq, hc]
    simp [Probe.isOut, hf]

omit [DecidableEq Addr] in
/-- The outcomes gain those of the probes that are settled. -/
theorem outcomes_settle {ok : Bool} (hf : ∀ q : Probe Addr,
      Probe.outcome { q with fate := fate } = some (q.addr, ok)) (probes : List (Probe Addr)) :
    ((probes.map (Probe.settle chosen fate)).filterMap Probe.outcome).Perm
      (((probes.filter Probe.isOut).filter fun q => chosen q.entry).map (fun q => (q.addr, ok))
        ++ probes.filterMap Probe.outcome) := by
  induction probes with
  | nil => simp
  | cons q probes ih =>
    by_cases hq : q.isOut
    · have hnone : q.outcome = none := by
        simp only [Probe.isOut, decide_eq_true_eq] at hq
        simp [Probe.outcome, hq]
      by_cases hc : chosen q.entry
      · have hs : q.settle chosen fate = { q with fate := fate } := by simp [Probe.settle, hq, hc]
        simpa [List.filterMap_cons, hs, hf, hnone, hq, hc] using ih
      · have hs : q.settle chosen fate = q := by simp [Probe.settle, hc]
        simpa [List.filterMap_cons, hs, hnone, hq, hc] using ih
    · have hs : q.settle chosen fate = q := by simp [Probe.settle, hq]
      rcases ho : q.outcome with _ | o
      · simpa [List.filterMap_cons, hs, ho, hq] using ih
      · simp only [List.map_cons, List.filterMap_cons, hs, ho, List.filter_cons, hq]
        exact (ih.cons o).trans List.perm_middle.symm

end Settle

section Available

variable {failThreshold : UInt32}

/-- The state of an address agrees with the length of its run of failures. -/
def AddrState.Agrees (failThreshold : UInt32) (state : AddrState) (run : ℕ) : Prop :=
  if state.available then run < failThreshold.toNat ∧ state.failures.toNat = run
  else failThreshold.toNat ≤ run

/-- The state of every address agrees with the log. -/
def Prober.Agrees (failThreshold : UInt32) (p : Prober Addr) : Prop :=
  ∀ a, ((p.addrs.get? a).getD .default).Agrees failThreshold (failRun a p.log)

theorem failRun_cons_ok (a : Addr) (log : List (Addr × Bool)) :
    failRun a ((a, true) :: log) = 0 := by
  simp [failRun]

theorem failRun_cons_failed (a : Addr) (log : List (Addr × Bool)) :
    failRun a ((a, false) :: log) = failRun a log + 1 := by
  simp [failRun]

theorem failRun_cons_ne {a b : Addr} (h : b ≠ a) (ok : Bool) (log : List (Addr × Bool)) :
    failRun a ((b, ok) :: log) = failRun a log := by
  simp [failRun, h]

theorem AddrState.Agrees.failed {state : AddrState} {run : ℕ} (h : state.Agrees failThreshold run) :
    AddrState.Agrees failThreshold ⟨state.failures + 1,
      if state.failures + 1 ≥ failThreshold then false else state.available⟩ (run + 1) := by
  unfold AddrState.Agrees at h ⊢
  by_cases hav : state.available
  · obtain ⟨hlt, heq⟩ := by simpa [hav] using h
    have hthr := failThreshold.toNat_lt
    have hnext : (state.failures + 1).toNat = run + 1 := by
      rw [UInt32.toNat_add, heq]
      exact Nat.mod_eq_of_lt (by simp only [UInt32.reduceToNat]; omega)
    by_cases hge : state.failures + 1 ≥ failThreshold
    · have := UInt32.le_iff_toNat_le.1 hge
      simp only [hge, if_true, Bool.false_eq_true, if_false]
      omega
    · have := mt UInt32.le_iff_toNat_le.2 hge
      simp only [hge, if_false, hav, if_true]
      omega
  · have hle := by simpa [hav] using h
    simp only [hav, ite_self, Bool.false_eq_true, if_false]
    omega

theorem Prober.Agrees.record (h0 : 0 < failThreshold) {p : Prober Addr}
    (h : p.Agrees failThreshold) (b : Addr) (ok : Bool) :
    (p.record failThreshold b ok).Agrees failThreshold := by
  intro a
  have hget : ∀ state, ((p.addrs.insert b state).get? a).getD .default
      = if a = b then state else (p.addrs.get? a).getD .default := by
    intro state
    rw [HashMap.get?_insert]
    split_ifs <;> rfl
  by_cases hab : a = b
  · subst hab
    cases ok
    · simp only [Prober.record, Keepalive.record, Bool.false_eq_true, if_false, hget, if_true,
        failRun_cons_failed]
      exact (h a).failed
    · have hpos : 0 < failThreshold.toNat := UInt32.lt_iff_toNat_lt.1 h0
      simp only [Prober.record, Keepalive.record, if_true, hget, failRun_cons_ok]
      simpa [AddrState.Agrees] using hpos
  · have hne : b ≠ a := fun hba => hab hba.symm
    cases ok <;> simp only [Prober.record, Keepalive.record, Bool.false_eq_true, if_false,
      if_true, hget,
      hab, failRun_cons_ne hne] <;> exact h a

theorem Prober.Agrees.register {p : Prober Addr} (h : p.Agrees failThreshold) (b : Addr) :
    (p.register b).Agrees failThreshold := by
  intro a
  have ha := h a
  unfold Prober.register Keepalive.register
  simp only
  split_ifs with hs
  · exact ha
  · rw [HashMap.get?_insert]
    split_ifs with hab
    · subst hab
      simpa [Option.not_isSome_iff_eq_none.1 hs] using ha
    · exact ha

/-- An address that agrees with the log is listed when its run of failures is long enough. -/
theorem Prober.Agrees.mem_unavailable {p : Prober Addr} (h : p.Agrees failThreshold) (a : Addr) :
    a ∈ Keepalive.unavailable p.addrs ↔ failThreshold.toNat ≤ failRun a p.log := by
  have ha := h a
  have hmem : a ∈ Keepalive.unavailable p.addrs
      ↔ ∃ state, p.addrs.get? a = some state ∧ state.available = false := by
    simp [Keepalive.unavailable, HashMap.get?_eq_some]
  rw [hmem]
  rcases hg : p.addrs.get? a with _ | state
  · simp only [hg, Option.getD_none, AddrState.default, AddrState.Agrees, if_true] at ha
    simp
    omega
  · simp only [hg, Option.getD_some, AddrState.Agrees] at ha
    cases hav : state.available
    · simp only [hav, Bool.false_eq_true, if_false] at ha
      simp [hav, ha]
    · simp only [hav, if_true] at ha
      simp [hav]
      omega

end Available

section Steps

variable {cfg : KeepConfig Addr}

/-- The prober knows the probes of its history. -/
structure Tracks (cfg : KeepConfig Addr) (p : Prober Addr) (probes : List (Probe Addr)) : Prop where
  seq : p.seq = UInt32.ofNat probes.length
  seqs : ∀ (i : ℕ) (q : Probe Addr), probes[i]? = some q → q.seq = UInt32.ofNat (i + 1)
  outstanding : p.outstanding.entries.Perm ((probes.filter Probe.isOut).map Probe.entry)
  log : p.log.Perm (probes.filterMap Probe.outcome)
  agrees : p.Agrees cfg.failThreshold

omit [DecidableEq Addr] in
theorem seqs_settle {probes : List (Probe Addr)}
    (h : ∀ (i : ℕ) (q : Probe Addr), probes[i]? = some q → q.seq = UInt32.ofNat (i + 1))
    (chosen : UInt32 × Addr × ℕ → Bool) (fate : Fate) (i : ℕ) (q : Probe Addr)
    (hq : (probes.map (Probe.settle chosen fate))[i]? = some q) : q.seq = UInt32.ofNat (i + 1) := by
  simp only [List.getElem?_map, Option.map_eq_some_iff] at hq
  obtain ⟨q', hq', rfl⟩ := hq
  rw [← h i q' hq']
  unfold Probe.settle
  split_ifs <;> rfl

theorem Tracks.ping {p : Prober Addr} {probes : List (Probe Addr)} (h : Tracks cfg p probes)
    (hwrap : ∀ (i : ℕ) (q : Probe Addr), probes[i]? = some q → q.fate = .outstanding →
      probes.length - i < 2 ^ 32) (a : Addr) (sent : ℕ) :
    Tracks cfg (p.ping a sent)
      (probes ++ [⟨a, sent, UInt32.ofNat (probes.length + 1), .outstanding⟩]) := by
  have hseq : p.seq + 1 = UInt32.ofNat (probes.length + 1) := by
    rw [h.seq, UInt32.ofNat_add]
    rfl
  have hfresh : ∀ e ∈ p.outstanding.entries, e.1 ≠ p.seq + 1 := by
    intro e he heq
    obtain ⟨q, hq, rfl⟩ := List.mem_map.1 (h.outstanding.mem_iff.1 he)
    obtain ⟨hq, hout⟩ := List.mem_filter.1 hq
    obtain ⟨i, hi⟩ := List.mem_iff_getElem?.1 hq
    have hlt := hwrap i q hi (by simpa [Probe.isOut] using hout)
    have hi' := (List.getElem?_eq_some_iff.1 hi).1
    have hmod := congrArg UInt32.toNat ((h.seqs i q hi).symm.trans (heq.trans hseq))
    simp only [UInt32.toNat_ofNat'] at hmod
    omega
  refine ⟨?_, ?_, ?_, ?_, h.agrees⟩
  · simp only [Prober.ping, hseq, List.length_append, List.length_singleton]
  · intro i q hq
    rcases Nat.lt_trichotomy i probes.length with hi | rfl | hi
    · rw [List.getElem?_append_left hi] at hq
      exact h.seqs i q hq
    · rw [List.getElem?_concat_length] at hq
      rw [← Option.some.inj hq]
    · rw [List.getElem?_eq_none (by simp; omega)] at hq
      cases hq
  · have hkeep : p.outstanding.entries.filter (fun e => e.1 ≠ p.seq + 1) = p.outstanding.entries :=
      List.filter_eq_self.2 fun e he => by simpa using hfresh e he
    simp only [Prober.ping, HashMap.insert, hkeep]
    simp only [List.filter_append, List.map_append, hseq]
    exact (h.outstanding.cons _).trans (List.perm_append_singleton _ _).symm
  · simpa [Prober.ping, List.filterMap_append, List.filterMap_cons, Probe.outcome] using h.log

/-- What the map and the log must have done when the chosen probes are settled. -/
theorem Tracks.settle {p p' : Prober Addr} {probes : List (Probe Addr)} (h : Tracks cfg p probes)
    {chosen : UInt32 × Addr × ℕ → Bool} (fate : Fate) (ok : Bool) (hne : fate ≠ .outstanding)
    (hf : ∀ q : Probe Addr, Probe.outcome { q with fate := fate } = some (q.addr, ok))
    (hseq : p'.seq = p.seq)
    (hout : p'.outstanding.entries.Perm (p.outstanding.entries.filter fun e => !chosen e))
    (hlog : p'.log.Perm ((p.outstanding.entries.filter chosen).map (fun e => (e.2.1, ok)) ++ p.log))
    (hagrees : p'.Agrees cfg.failThreshold) :
    Tracks cfg p' (probes.map (Probe.settle chosen fate)) := by
  refine ⟨by rw [hseq, h.seq, List.length_map], seqs_settle h.seqs chosen fate, ?_, ?_, hagrees⟩
  · rw [filter_isOut_settle chosen fate hne]
    refine hout.trans ((h.outstanding.filter _).trans ?_)
    rw [List.filter_map]
    rfl
  · refine hlog.trans ?_
    refine List.Perm.trans ?_ (outcomes_settle chosen fate hf probes).symm
    refine List.Perm.append ?_ h.log
    have := ((h.outstanding.filter chosen).map fun e => (e.2.1, ok))
    rw [List.filter_map, List.map_map] at this
    exact this

theorem Tracks.receive (h0 : 0 < cfg.failThreshold) {p : Prober Addr} {probes : List (Probe Addr)}
    (h : Tracks cfg p probes) (bytes : Bytes) :
    Tracks cfg (p.receive cfg.failThreshold bytes).1 (probesStep cfg probes (.datagram bytes)) := by
  simp only [Prober.receive, probesStep]
  split
  · rename_i hp
    simpa only [hp] using h
  rename_i seq hp
  simp only [hp]
  have hkey := p.outstanding.filter_key seq
  rcases hg : p.outstanding.get? seq with _ | ⟨a, sent⟩ <;> rw [hg] at hkey
  · refine h.settle .answered true (by simp) (fun _ => rfl) rfl ?_ ?_ h.agrees
    · have hall : p.outstanding.entries.filter (fun e => !decide (e.1 = seq))
          = p.outstanding.entries :=
        List.filter_eq_self.2 fun e he => by simpa using HashMap.get?_eq_none.1 hg e he
      rw [hall]
    · rw [hkey]
      exact List.Perm.refl _
  · refine h.settle .answered true (by simp) (fun _ => rfl) rfl ?_ ?_ ?_
    · simp [Prober.record, HashMap.remove]
    · rw [hkey]
      exact List.Perm.refl _
    · exact Prober.Agrees.record h0 (p := { p with outstanding := _ }) h.agrees a true

/-- The pings given up, one after another. -/
theorem foldl_giveUp (h0 : 0 < cfg.failThreshold) : ∀ (expired : List (UInt32 × Addr × ℕ))
    (p : Prober Addr), p.Agrees cfg.failThreshold →
      let p' := expired.foldl (fun p e => p.giveUp cfg.failThreshold e.1 e.2.1) p
      p'.seq = p.seq ∧ p'.Agrees cfg.failThreshold
        ∧ p'.outstanding.entries
          = p.outstanding.entries.filter (fun e => e.1 ∉ expired.map (·.1))
        ∧ p'.log = (expired.map fun e => (e.2.1, false)).reverse ++ p.log
  | [], p, h => ⟨rfl, h, by simp, rfl⟩
  | e :: expired, p, h => by
    obtain ⟨hseq, hagr, hout, hlog⟩ := foldl_giveUp h0 expired
      (p.giveUp cfg.failThreshold e.1 e.2.1)
      (Prober.Agrees.record h0 (p := { p with outstanding := _ }) h e.2.1 false)
    refine ⟨hseq, hagr, hout.trans ?_, hlog.trans ?_⟩
    · simp only [Prober.giveUp, Prober.record, HashMap.remove, List.filter_filter]
      refine List.filter_congr fun e' _ => ?_
      by_cases he : e'.1 = e.1 <;> simp [he]
    · simp [Prober.giveUp, Prober.record]

theorem Tracks.expire (h0 : 0 < cfg.failThreshold) {p : Prober Addr} {probes : List (Probe Addr)}
    (h : Tracks cfg p probes) (iter : IterOrder (UInt32 × Addr × ℕ)) (clock : UInt32 → ℕ) :
    Tracks cfg (p.expire cfg.failThreshold cfg.intervalSecs iter clock)
      (probesStep cfg probes (.expiry iter clock)) := by
  set old : UInt32 × Addr × ℕ → Bool := fun e => Prober.tooOld cfg.intervalSecs clock e.1 e.2.2
    with hold
  set expired := (iter.order p.outstanding.entries).filter old with hexp
  have hperm : expired.Perm (p.outstanding.entries.filter old) := (iter.perm _).filter _
  obtain ⟨hseq, hagr, hout, hlog⟩ := foldl_giveUp h0 expired p h.agrees
  refine h.settle .expired false (by simp) (fun _ => rfl) hseq ?_ ?_ hagr
  · -- a key is given up when its own entry is too old
    refine List.Perm.of_eq (hout.trans (List.filter_congr fun e he => ?_))
    have hkey : e.1 ∈ expired.map (·.1) ↔ old e = true := by
      constructor
      · intro hmem
        obtain ⟨e', he', heq⟩ := List.mem_map.1 hmem
        obtain ⟨he', hold'⟩ := List.mem_filter.1 (hperm.mem_iff.1 he')
        have : e' = e := List.inj_on_of_nodup_map p.outstanding.nodup he' he heq
        rwa [this] at hold'
      · intro hold'
        exact List.mem_map.2 ⟨e, hperm.mem_iff.2 (List.mem_filter.2 ⟨he, hold'⟩), rfl⟩
    change decide (e.1 ∉ expired.map (·.1)) = !old e
    rcases ho : old e <;> simp [hkey, ho]
  · refine (List.Perm.of_eq hlog).trans ?_
    exact ((List.reverse_perm _).trans (hperm.map _)).append_right _

theorem Tracks.step (h0 : 0 < cfg.failThreshold) {p : Prober Addr} {probes : List (Probe Addr)}
    (h : Tracks cfg p probes) (e : ProbeEvent Addr)
    (hwrap : ∀ addr sent, e = .ping addr sent → ∀ (i : ℕ) (q : Probe Addr),
      probes[i]? = some q → q.fate = .outstanding → probes.length - i < 2 ^ 32) :
    Tracks cfg (p.step cfg e) (probesStep cfg probes e) := by
  cases e with
  | register a => exact ⟨h.seq, h.seqs, h.outstanding, h.log, h.agrees.register a⟩
  | ping a sent => exact h.ping (hwrap a sent rfl) a sent
  | datagram bytes => exact h.receive h0 bytes
  | expiry iter clock => exact h.expire h0 iter clock

theorem Tracks.run (h0 : 0 < cfg.failThreshold) : ∀ (events : List (ProbeEvent Addr))
    {p : Prober Addr} {probes : List (Probe Addr)}, Tracks cfg p probes →
      NoWrap cfg probes events →
      Tracks cfg (events.foldl (Prober.step cfg) p) (events.foldl (probesStep cfg) probes)
  | [], _, _, h, _ => h
  | e :: events, _, _, h, hwrap => Tracks.run h0 events (h.step h0 e hwrap.1) hwrap.2

theorem tracks_new (h0 : 0 < cfg.failThreshold) : Tracks cfg (Prober.new : Prober Addr) [] := by
  refine ⟨rfl, by simp, List.Perm.refl _, List.Perm.refl _, fun a => ?_⟩
  exact ⟨UInt32.lt_iff_toNat_lt.1 h0, rfl⟩

end Steps

section Ticks

variable (cfg : KeepConfig Addr)

theorem receiveAll_eq : ∀ (datagrams : List Bytes) (p : Prober Addr),
    (Prober.receiveAll cfg.failThreshold datagrams p).1
      = (datagrams.map ProbeEvent.datagram).foldl (Prober.step cfg) p
  | [], _ => rfl
  | d :: ds, p => receiveAll_eq ds (p.receive cfg.failThreshold d).1

/-- A tick takes the prober through its events. -/
theorem probe_eq (p : Prober Addr) (t : Tick Addr) (m : Meta Addr) :
    (p.probe cfg t m).1 = (cfg.tickEvents m t).foldl (Prober.step cfg) p := by
  simp only [KeepConfig.tickEvents, List.foldl_append, ← receiveAll_eq]
  simp only [Prober.probe, Prober.registerAll, Prober.pingAll, List.foldl_map]
  rfl

theorem ticks_eq : ∀ (ticks : List (Meta Addr × Tick Addr)) (p : Prober Addr),
    p.ticks cfg ticks
      = (ticks.flatMap fun t => cfg.tickEvents t.1 t.2).foldl (Prober.step cfg) p
  | [], _ => rfl
  | t :: ts, p => by
    rw [List.flatMap_cons, List.foldl_append, ← probe_eq, ← ticks_eq ts]
    rfl

/-- Every ping has one outcome in the log, for its own address, or is outstanding, and an address
is unavailable exactly after a run of failures as long as the threshold. -/
theorem ticks_record_once (h0 : 0 < cfg.failThreshold) (ticks : List (Meta Addr × Tick Addr))
    (hwrap : NoWrap cfg [] (ticks.flatMap fun t => cfg.tickEvents t.1 t.2)) :
    let p := Prober.new.ticks cfg ticks
    let probes := (ticks.flatMap fun t => cfg.tickEvents t.1 t.2).foldl (probesStep cfg) []
    p.log.Perm (probes.filterMap Probe.outcome)
      ∧ p.outstanding.entries.Perm ((probes.filter Probe.isOut).map Probe.entry)
      ∧ ∀ a, a ∈ Keepalive.unavailable p.addrs ↔ cfg.failThreshold.toNat ≤ failRun a p.log := by
  intro p probes
  have h : Tracks cfg p probes := by
    simp only [p, ticks_eq]
    exact Tracks.run h0 _ (tracks_new h0) hwrap
  exact ⟨h.log, h.outstanding, h.agrees.mem_unavailable⟩

omit [DecidableEq Addr] in
theorem length_probesStep (probes : List (Probe Addr)) (e : ProbeEvent Addr) :
    (probesStep cfg probes e).length ≤ probes.length + 1 := by
  cases e with
  | register a => simp [probesStep]
  | ping a sent => simp [probesStep]
  | datagram bytes =>
    simp only [probesStep]
    split <;> simp
  | expiry iter clock => simp [probesStep]

omit [DecidableEq Addr] in
/-- A run of fewer than `2 ^ 32` events cannot wrap. -/
theorem noWrap_of_length : ∀ (events : List (ProbeEvent Addr)) (probes : List (Probe Addr)),
    probes.length + events.length < 2 ^ 32 → NoWrap cfg probes events
  | [], _, _ => trivial
  | e :: events, probes, h => by
    have hstep := length_probesStep cfg probes e
    simp only [List.length_cons] at h
    exact ⟨fun _ _ _ i _ _ _ => by omega, noWrap_of_length events _ (by omega)⟩

end Ticks

section Example

/-- Every address is due in every tick, and one failure is enough. -/
def eagerConfig : KeepConfig ℕ := ⟨1, 1, 0, fun _ => 0, fun _ => none⟩

/-- A tick at `now` nanoseconds for the address 5 of node 1. -/
def tickAt (now : ℕ) (datagrams : List Bytes) : Meta ℕ × Tick ℕ :=
  (HashMap.empty.insert 5 (1, 0), ⟨0, 0, ⟨id, fun _ => .refl _⟩, fun _ => now, datagrams,
    ⟨id, fun _ => .refl _⟩, fun _ => now, ⟨id, fun _ => .refl _⟩⟩)

/-- The first ping is answered, the second one expires in the third tick. -/
theorem ticks_record_once_three : 5 ∈ Keepalive.unavailable (Prober.new.ticks eagerConfig
    [tickAt 0 [pongMagic ++ [1, 0, 0, 0]], tickAt 1 [], tickAt 1000000001 []]).addrs := by
  have h := ticks_record_once eagerConfig (by decide)
    [tickAt 0 [pongMagic ++ [1, 0, 0, 0]], tickAt 1 [], tickAt 1000000001 []]
    (noWrap_of_length _ _ _ (by decide))
  exact (h.2.2 5).2 (by decide)

end Example

end BlazeNet

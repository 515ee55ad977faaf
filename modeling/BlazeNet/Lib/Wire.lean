import Mathlib.Tactic

/-!
# Reading a binary layout

A reader takes bytes off the front of a cursor. `Reads p R` says that `p` accepts exactly the
byte strings `R` relates to the value it returns, whatever follows them; it is kept by the
combinators, so the layout a composite reader accepts is read off its text.

A cursor also records the room a reader reserves before it knows how much input there is, with
the bytes still unread at that moment.
-/

namespace Wire

abbrev Bytes := List UInt8

structure Cursor where
  unread : Bytes
  reserved : List (ℕ × ℕ)

abbrev Reader (ε : Type) := ExceptT ε (StateM Cursor)

variable {ε α β : Type}

def runReader (p : Reader ε α) (c : Cursor) : Except ε α × Cursor := p.run.run c

def readExact (eof : ε) (n : ℕ) : Reader ε Bytes := ExceptT.mk fun c =>
  if n ≤ c.unread.length then (.ok (c.unread.take n), { c with unread := c.unread.drop n })
  else (.error eof, { c with unread := [] })

def reserve (n : ℕ) : Reader ε Unit := ExceptT.mk fun c =>
  (.ok (), { c with reserved := c.reserved ++ [(n, c.unread.length)] })

def readTimes (p : Reader ε α) : ℕ → Reader ε (List α)
  | 0 => pure []
  | n + 1 => do
    let a ← p
    let as ← readTimes p n
    pure (a :: as)

@[simp] theorem runReader_pure (a : α) (c : Cursor) :
    runReader (pure a : Reader ε α) c = (.ok a, c) := rfl

@[simp] theorem runReader_throw (e : ε) (c : Cursor) :
    runReader (throw e : Reader ε α) c = (.error e, c) := rfl

theorem runReader_bind (p : Reader ε α) (f : α → Reader ε β) (c : Cursor) :
    runReader (p >>= f) c = match runReader p c with
      | (.ok a, c') => runReader (f a) c'
      | (.error e, c') => (.error e, c') := by
  change (ExceptT.bindCont f (p.run.run c).1).run (p.run.run c).2 = _
  unfold runReader
  rcases p.run.run c with ⟨a | e, c'⟩ <;> rfl

/-- `p` accepts exactly what `R` lays a value out as, whatever follows. -/
def Reads (p : Reader ε α) (R : α → Bytes → Prop) : Prop :=
  ∀ bs log a rest, (∃ log', runReader p ⟨bs, log⟩ = (.ok a, ⟨rest, log'⟩))
    ↔ ∃ pre, bs = pre ++ rest ∧ R a pre

theorem Reads.pure (a : α) : Reads (pure a : Reader ε α) fun b pre => b = a ∧ pre = [] := by
  intro bs log b rest
  constructor
  · rintro ⟨log', h⟩
    simp only [runReader_pure, Prod.mk.injEq, Except.ok.injEq, Cursor.mk.injEq] at h
    exact ⟨[], by simp [h.2.1], h.1.symm, rfl⟩
  · rintro ⟨pre, rfl, rfl, rfl⟩
    exact ⟨log, rfl⟩

theorem Reads.throw (e : ε) : Reads (throw e : Reader ε α) fun _ _ => False := by
  intro bs log b rest
  simp

theorem Reads.bind {p : Reader ε α} {f : α → Reader ε β} {R : α → Bytes → Prop}
    {S : α → β → Bytes → Prop} (hp : Reads p R) (hf : ∀ a, Reads (f a) (S a)) :
    Reads (p >>= f) fun b pre => ∃ a x y, pre = x ++ y ∧ R a x ∧ S a b y := by
  intro bs log b rest
  simp only [runReader_bind]
  constructor
  · rintro ⟨log', h⟩
    rcases ho : runReader p ⟨bs, log⟩ with ⟨e | a, mid, log₁⟩ <;> rw [ho] at h
    · simp at h
    obtain ⟨x, rfl, hx⟩ := (hp bs log a mid).1 ⟨log₁, ho⟩
    obtain ⟨y, rfl, hy⟩ := (hf a mid log₁ b rest).1 ⟨log', h⟩
    exact ⟨x ++ y, by simp, a, x, y, rfl, hx, hy⟩
  · rintro ⟨pre, rfl, a, x, y, rfl, hx, hy⟩
    obtain ⟨log₁, ho⟩ := (hp (x ++ y ++ rest) log a (y ++ rest)).2 ⟨x, by simp, hx⟩
    obtain ⟨log', h⟩ := (hf a (y ++ rest) log₁ b rest).2 ⟨y, rfl, hy⟩
    exact ⟨log', by rw [ho]; exact h⟩

theorem Reads.of_iff {p : Reader ε α} {R S : α → Bytes → Prop} (hp : Reads p R)
    (h : ∀ a pre, R a pre ↔ S a pre) : Reads p S := by
  intro bs log a rest
  rw [hp bs log a rest]
  exact exists_congr fun pre => and_congr_right fun _ => h a pre

theorem Reads.map {p : Reader ε α} {R : α → Bytes → Prop} (hp : Reads p R) (g : α → β) :
    Reads (p >>= fun a => Pure.pure (g a)) fun b pre => ∃ a, b = g a ∧ R a pre := by
  refine (Reads.bind hp fun a => Reads.pure (g a)).of_iff fun b pre => ?_
  constructor
  · rintro ⟨a, x, y, rfl, hx, rfl, rfl⟩
    exact ⟨a, rfl, by simpa using hx⟩
  · rintro ⟨a, rfl, ha⟩
    exact ⟨a, pre, [], by simp, ha, rfl, rfl⟩

theorem Reads.readExact (eof : ε) (n : ℕ) :
    Reads (Wire.readExact eof n) fun a pre => pre = a ∧ a.length = n := by
  intro bs log a rest
  have hrun : runReader (Wire.readExact eof n) ⟨bs, log⟩
      = if n ≤ bs.length then (.ok (bs.take n), ⟨bs.drop n, log⟩) else (.error eof, ⟨[], log⟩) :=
        rfl
  rw [hrun]
  split_ifs with hn
  · simp only [Prod.mk.injEq, Except.ok.injEq, Cursor.mk.injEq]
    constructor
    · rintro ⟨log', rfl, rfl, -⟩
      exact ⟨_, (List.take_append_drop n bs).symm, rfl, by simp [hn]⟩
    · rintro ⟨pre, rfl, rfl, hl⟩
      exact ⟨log, by simp [← hl], by simp [← hl], rfl⟩
  · simp only [Prod.mk.injEq, reduceCtorEq, false_and, exists_false, false_iff, not_exists]
    rintro pre ⟨rfl, rfl, hl⟩
    simp only [List.length_append] at hn
    omega

theorem Reads.reserve (n : ℕ) : Reads (Wire.reserve (ε := ε) n) fun _ pre => pre = [] := by
  intro bs log a rest
  have hrun : runReader (Wire.reserve (ε := ε) n) ⟨bs, log⟩
      = (.ok (), ⟨bs, log ++ [(n, bs.length)]⟩) := rfl
  rw [hrun]
  constructor
  · rintro ⟨log', h⟩
    simp only [Prod.mk.injEq, Cursor.mk.injEq] at h
    exact ⟨[], by simp [h.2.1], rfl⟩
  · rintro ⟨pre, rfl, rfl⟩
    exact ⟨_, rfl⟩

/-- Reading a record `n` times reads the records one after another. -/
theorem Reads.readTimes {p : Reader ε α} {lay : α → Bytes} {ok : α → Prop}
    (hp : Reads p fun a pre => pre = lay a ∧ ok a) :
    ∀ n, Reads (Wire.readTimes p n) fun as pre =>
      pre = as.flatMap lay ∧ as.length = n ∧ ∀ a ∈ as, ok a
  | 0 => (Reads.pure []).of_iff fun as pre => by
    constructor
    · rintro ⟨rfl, rfl⟩
      simp
    · rintro ⟨rfl, h, -⟩
      simp [List.length_eq_zero_iff.1 h]
  | n + 1 => by
    refine (Reads.bind hp fun a => (Reads.readTimes hp n).map (a :: ·)).of_iff fun as pre => ?_
    constructor
    · rintro ⟨a, x, y, rfl, ⟨rfl, ha⟩, as', rfl, rfl, hl, hok⟩
      refine ⟨by simp, by simp [hl], ?_⟩
      simpa [ha] using hok
    · rintro ⟨rfl, hl, hok⟩
      rcases as with _ | ⟨a, as'⟩
      · simp at hl
      simp only [List.mem_cons, forall_eq_or_imp] at hok
      exact ⟨a, lay a, as'.flatMap lay, by simp, ⟨rfl, hok.1⟩, as', rfl, rfl,
        by simpa using hl, hok.2⟩

section Reservations

variable {J J' : List (ℕ × ℕ) → Prop} {P : ℕ × ℕ → Prop} {Q : Bytes → Prop}

/-- What `p` reserves satisfies `J` exactly on the inputs that satisfy `Q`. -/
def Reserves (p : Reader ε α) (J : List (ℕ × ℕ) → Prop) (Q : Bytes → Prop) : Prop :=
  ∀ bs log, ∃ gained, (runReader p ⟨bs, log⟩).2.reserved = log ++ gained ∧ (J gained ↔ Q bs)

def Silent (p : Reader ε α) : Prop := ∀ bs log, (runReader p ⟨bs, log⟩).2.reserved = log

theorem Silent.pure (a : α) : Silent (pure a : Reader ε α) := fun _ _ => rfl

theorem Silent.throw (e : ε) : Silent (throw e : Reader ε α) := fun _ _ => rfl

theorem Silent.readExact (eof : ε) (n : ℕ) : Silent (Wire.readExact eof n) := by
  intro bs log
  change (if n ≤ bs.length then (Except.ok (bs.take n), (⟨bs.drop n, log⟩ : Cursor))
    else (.error eof, ⟨[], log⟩)).2.reserved = log
  split_ifs <;> rfl

theorem Silent.bind {p : Reader ε α} {f : α → Reader ε β} (hp : Silent p)
    (hf : ∀ a, Silent (f a)) : Silent (p >>= f) := by
  intro bs log
  have h := hp bs log
  rw [runReader_bind]
  rcases ho : runReader p ⟨bs, log⟩ with ⟨e | a, mid, log'⟩ <;> rw [ho] at h
  · exact h
  · subst h
    exact hf a mid log'

theorem Silent.readTimes {p : Reader ε α} (hp : Silent p) : ∀ n, Silent (Wire.readTimes p n)
  | 0 => .pure []
  | n + 1 => .bind hp fun _ => .bind (Silent.readTimes hp n) fun _ => .pure _

theorem Silent.reserves {p : Reader ε α} (hp : Silent p) (hnil : J []) :
    Reserves p J fun _ => True :=
  fun bs log => ⟨[], by rw [hp, List.append_nil], by simp [hnil]⟩

theorem Reserves.of_iff {p : Reader ε α} {Q' : Bytes → Prop} (hp : Reserves p J Q)
    (h : ∀ bs, Q bs ↔ Q' bs) : Reserves p J Q' := by
  intro bs log
  obtain ⟨gained, hg, hJ⟩ := hp bs log
  exact ⟨gained, hg, hJ.trans (h bs)⟩

/-- Where `p` stops, nothing of what it accepts is a prefix of the input. -/
theorem Reads.not_of_error {p : Reader ε α} {R : α → Bytes → Prop} (hp : Reads p R)
    {pre rest : Bytes} {log : List (ℕ × ℕ)} {e : ε} {c : Cursor} {a : α}
    (ho : runReader p ⟨pre ++ rest, log⟩ = (.error e, c)) : ¬R a pre := by
  intro hr
  obtain ⟨log', h⟩ := (hp (pre ++ rest) log a rest).2 ⟨pre, rfl, hr⟩
  rw [ho] at h
  cases h

theorem Reads.eq_of_ok {p : Reader ε α} {R : α → Bytes → Prop} (hp : Reads p R)
    {pre rest mid : Bytes} {log log' : List (ℕ × ℕ)} {a b : α}
    (ho : runReader p ⟨pre ++ rest, log⟩ = (.ok b, ⟨mid, log'⟩)) (hr : R a pre) :
    a = b ∧ rest = mid := by
  obtain ⟨log₁, h⟩ := (hp (pre ++ rest) log a rest).2 ⟨pre, rfl, hr⟩
  rw [ho] at h
  simp only [Prod.mk.injEq, Except.ok.injEq, Cursor.mk.injEq] at h
  exact ⟨h.1.symm, h.2.1.symm⟩

theorem Silent.andThen {p : Reader ε α} {f : α → Reader ε β} {R : α → Bytes → Prop}
    {S : α → Bytes → Prop} (hp : Silent p) (hR : Reads p R) (hnil : J [])
    (hf : ∀ a, Reserves (f a) J (S a)) :
    Reserves (p >>= f) J fun bs => ∀ a pre rest, bs = pre ++ rest → R a pre → S a rest := by
  intro bs log
  have hlog := hp bs log
  rw [runReader_bind]
  rcases ho : runReader p ⟨bs, log⟩ with ⟨e | b, mid, log'⟩ <;> rw [ho] at hlog <;>
    simp only at hlog ⊢ <;> subst hlog
  · refine ⟨[], by simp, iff_of_true hnil ?_⟩
    rintro a pre rest rfl hr
    exact absurd hr (hR.not_of_error ho)
  · obtain ⟨gained, hg, hJ⟩ := hf b mid log'
    refine ⟨gained, hg, hJ.trans ⟨?_, ?_⟩⟩
    · rintro hs a pre rest rfl hr
      obtain ⟨rfl, rfl⟩ := hR.eq_of_ok ho hr
      exact hs
    · intro h
      obtain ⟨pre, rfl, hr⟩ := (hR bs log' b mid).1 ⟨log', ho⟩
      exact h b pre mid rfl hr

theorem Reserves.reserve_then {n : ℕ} {f : Unit → Reader ε β} (room : ℕ → Prop)
    (hJ : ∀ m gained, J ((n, m) :: gained) ↔ room m ∧ J' gained) (hf : Reserves (f ()) J' Q) :
    Reserves (Wire.reserve n >>= f) J fun bs => room bs.length ∧ Q bs := by
  intro bs log
  obtain ⟨gained, hg, hJ'⟩ := hf bs (log ++ [(n, bs.length)])
  refine ⟨(n, bs.length) :: gained, ?_, ?_⟩
  · rw [runReader_bind]
    change (runReader (f ()) ⟨bs, log ++ [(n, bs.length)]⟩).2.reserved = _
    rw [hg, List.append_assoc, List.singleton_append]
  · rw [hJ, hJ']

theorem Reserves.bind {p : Reader ε α} {f : α → Reader ε β} {R : α → Bytes → Prop}
    {S : α → Bytes → Prop} (hp : Reserves p (fun gained => ∀ r ∈ gained, P r) Q) (hR : Reads p R)
    (hf : ∀ a, Reserves (f a) (fun gained => ∀ r ∈ gained, P r) (S a)) :
    Reserves (p >>= f) (fun gained => ∀ r ∈ gained, P r) fun bs =>
      Q bs ∧ ∀ a pre rest, bs = pre ++ rest → R a pre → S a rest := by
  intro bs log
  obtain ⟨first, hfirst, hQ⟩ := hp bs log
  rw [runReader_bind]
  rcases ho : runReader p ⟨bs, log⟩ with ⟨e | b, mid, log'⟩ <;> rw [ho] at hfirst <;>
    simp only at hfirst ⊢ <;> subst hfirst
  · refine ⟨first, rfl, hQ.trans (iff_self_and.2 ?_)⟩
    rintro - a pre rest rfl hr
    exact absurd hr (hR.not_of_error ho)
  · obtain ⟨later, hl, hS⟩ := hf b mid (log ++ first)
    refine ⟨first ++ later, by rw [hl, List.append_assoc], ?_⟩
    refine List.forall_mem_append.trans ((and_congr hQ hS).trans ?_)
    refine and_congr_right fun _ => ⟨?_, ?_⟩
    · rintro hs a pre rest rfl hr
      obtain ⟨rfl, rfl⟩ := hR.eq_of_ok ho hr
      exact hs
    · intro h
      obtain ⟨pre, rfl, hr⟩ := (hR bs log b mid).1 ⟨_, ho⟩
      exact h b pre mid rfl hr

/-- A record read `n` times reserves at the start of each record that is reached. -/
theorem Reserves.readTimes {p : Reader ε α} {lay : α → Bytes} {ok : α → Prop}
    (hp : Reserves p (fun gained => ∀ r ∈ gained, P r) Q)
    (hR : Reads p fun a pre => pre = lay a ∧ ok a) :
    ∀ n, Reserves (Wire.readTimes p n) (fun gained => ∀ r ∈ gained, P r) fun bs =>
      ∀ (as : List α) (rest : Bytes), as.length < n → (∀ a ∈ as, ok a) →
        bs = as.flatMap lay ++ rest → Q rest
  | 0 => ((Silent.pure []).reserves (by simp)).of_iff fun bs => by simp
  | n + 1 => by
    refine (Reserves.bind hp hR fun a => Reserves.bind (Reserves.readTimes hp hR n)
      (hR.readTimes n) fun as => (Silent.pure (a :: as)).reserves (by simp)).of_iff fun bs => ?_
    constructor
    · rintro ⟨hq, hnext⟩ as rest hl hok rfl
      rcases as with _ | ⟨a, as⟩
      · exact hq
      · simp only [List.mem_cons, forall_eq_or_imp] at hok
        refine (hnext a (lay a) (as.flatMap lay ++ rest) (by simp) ⟨rfl, hok.1⟩).1 as rest
          (by simpa using hl) hok.2 rfl
    · intro h
      refine ⟨h [] bs (by simp) (by simp) rfl, ?_⟩
      rintro a pre rest rfl ⟨rfl, ha⟩
      refine ⟨?_, fun _ _ _ _ _ => trivial⟩
      rintro as rest' hl hok rfl
      exact h (a :: as) rest' (by simpa using hl) (by simpa [ha] using hok) (by simp)

end Reservations

section LittleEndian

/-- The `w` little-endian bytes of `n`, its higher bits dropped. -/
def leBytes : ℕ → ℕ → Bytes
  | 0, _ => []
  | w + 1, n => UInt8.ofNat n :: leBytes w (n / 256)

def ofLe : Bytes → ℕ
  | [] => 0
  | b :: bs => b.toNat + 256 * ofLe bs

@[simp] theorem length_leBytes : ∀ w n, (leBytes w n).length = w
  | 0, _ => rfl
  | w + 1, n => by simp [leBytes, length_leBytes w]

theorem ofLe_leBytes : ∀ w n, ofLe (leBytes w n) = n % 256 ^ w
  | 0, n => by simp [leBytes, ofLe, Nat.mod_one]
  | w + 1, n => by
    simp only [leBytes, ofLe, ofLe_leBytes w, UInt8.toNat_ofNat']
    rw [pow_succ 256 w, mul_comm (256 ^ w), Nat.mod_mul]

theorem leBytes_ofLe : ∀ bs : Bytes, leBytes bs.length (ofLe bs) = bs
  | [] => rfl
  | b :: bs => by
    have hb := b.toNat_lt
    have hdiv : (b.toNat + 256 * ofLe bs) / 256 = ofLe bs := by omega
    simp only [List.length_cons, leBytes, ofLe, hdiv, leBytes_ofLe bs, List.cons.injEq, and_true]
    apply UInt8.toNat_inj.1
    rw [UInt8.toNat_ofNat']
    omega

theorem ofLe_lt : ∀ bs : Bytes, ofLe bs < 256 ^ bs.length
  | [] => by simp [ofLe]
  | b :: bs => by
    have hb := b.toNat_lt
    have := ofLe_lt bs
    simp only [ofLe, List.length_cons, pow_succ]
    omega

end LittleEndian

end Wire

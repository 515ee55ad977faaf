import BlazeNet.Lib.FaultIo

/-!
# Jobs that share a state

Each job stands at a point of its own and goes on one transaction at a time, in any order. Between
the transactions new jobs begin, the environment may act on the shared state, and the process may
die with all its jobs. A condition holds `Along` a run when every move meets it where it is made.

`JobSystem.run_held` is the rule: an invariant of the shared state, with an assertion for each job
at its point, holds throughout a run when each move keeps the invariant, brings its job to where its
assertion holds, and disturbs the assertion of no other.
-/

namespace FaultIo

open Io

/-- A shared state, and the points at which the jobs stand. -/
structure Jobs (σ J : Type) where
  shared : σ
  jobs : List J

/-- How jobs begin and go on, what the environment does, and what a new process finds. -/
structure JobSystem (ε σ J R E : Type) where
  begin : R → J
  next : ℕ → J → Io ε σ J
  env : E → σ → σ
  restart : σ → σ

inductive Move (ε R E : Type) where
  | start (r : R)
  | go (i : ℕ) (faults : List (Fault ε))
  | env (e : E)
  | crash

variable {ε σ J R E α : Type}

namespace JobSystem

variable (sys : JobSystem ε σ J R E)

def apply (s : Jobs σ J) : Move ε R E → Jobs σ J
  | .start r => { s with jobs := s.jobs ++ [sys.begin r] }
  | .go i faults => match s.jobs[i]? with
    | none => s
    | some j => match (sys.next i j).run ⟨s.shared, faults⟩ with
      | (.ok j', w) => ⟨w.state, s.jobs.set i j'⟩
      | (.error (.err _), w) => ⟨w.state, s.jobs⟩
      | (.error .killed, w) => ⟨sys.restart w.state, []⟩
  | .env e => { s with shared := sys.env e s.shared }
  | .crash => ⟨sys.restart s.shared, []⟩

def run (s : Jobs σ J) (moves : List (Move ε R E)) : Jobs σ J := moves.foldl sys.apply s

/-- Every move of the run meets `C` where it is made. -/
def Along (C : Jobs σ J → Move ε R E → Prop) : Jobs σ J → List (Move ε R E) → Prop
  | _, [] => True
  | s, m :: moves => C s m ∧ Along C (sys.apply s m) moves

variable {sys} {C D : Jobs σ J → Move ε R E → Prop}

@[simp] theorem run_nil_moves (s : Jobs σ J) : sys.run s [] = s := rfl

theorem run_cons (s : Jobs σ J) (m : Move ε R E) (moves : List (Move ε R E)) :
    sys.run s (m :: moves) = sys.run (sys.apply s m) moves := rfl

theorem run_append (s : Jobs σ J) (moves more : List (Move ε R E)) :
    sys.run s (moves ++ more) = sys.run (sys.run s moves) more := List.foldl_append

theorem along_append (s : Jobs σ J) : ∀ moves more : List (Move ε R E),
    sys.Along C s (moves ++ more) ↔ sys.Along C s moves ∧ sys.Along C (sys.run s moves) more := by
  intro moves
  induction moves generalizing s with
  | nil => simp [Along]
  | cons m moves ih =>
    intro more
    rw [List.cons_append, Along, Along, ih, run_cons, and_assoc]

theorem apply_go_shared {s : Jobs σ J} {i : ℕ} {j : J} (hj : s.jobs[i]? = some j)
    (faults : List (Fault ε)) :
    (sys.apply s (.go i faults)).shared = ((sys.next i j).run ⟨s.shared, faults⟩).2.state
      ∨ (sys.apply s (.go i faults)).shared
        = sys.restart ((sys.next i j).run ⟨s.shared, faults⟩).2.state := by
  simp only [apply, hj]
  rcases (sys.next i j).run ⟨s.shared, faults⟩ with ⟨(e | _) | j', w⟩
  · exact .inl rfl
  · exact .inr rfl
  · exact .inl rfl

section Last

variable {t : σ} {done : List J} {j j' : J} {faults : List (Fault ε)} {w : World ε σ}

/-- A move of the last job. -/
theorem apply_last_ok (h : (sys.next done.length j).run ⟨t, faults⟩ = (.ok j', w)) :
    sys.apply ⟨t, done ++ [j]⟩ (.go done.length faults) = ⟨w.state, done ++ [j']⟩ := by
  simp only [apply, List.getElem?_concat_length, h, List.set_append_right _ _ le_rfl,
    Nat.sub_self, List.set_cons_zero]

theorem apply_last_killed (h : (sys.next done.length j).run ⟨t, faults⟩ = (.error .killed, w)) :
    sys.apply ⟨t, done ++ [j]⟩ (.go done.length faults) = ⟨sys.restart w.state, []⟩ := by
  simp only [apply, List.getElem?_concat_length, h]

end Last

/-- Every move of a run leads to a state that the run passes through. -/
theorem along_visited {P : σ → Prop} : ∀ (moves : List (Move ε R E)) (s : Jobs σ J),
    (∀ n ≤ moves.length, P (sys.run s (moves.take n)).shared) →
      sys.Along (fun s m => P (sys.apply s m).shared) s moves
  | [], _, _ => trivial
  | _ :: moves, _, h =>
    ⟨h 1 (by simp), along_visited moves _ fun n hn => h (n + 1) (by simpa using hn)⟩

theorem Along.and {s : Jobs σ J} {moves : List (Move ε R E)} (hC : sys.Along C s moves)
    (hD : sys.Along D s moves) : sys.Along (fun s m => C s m ∧ D s m) s moves := by
  induction moves generalizing s with
  | nil => trivial
  | cons m moves ih => exact ⟨⟨hC.1, hD.1⟩, ih hC.2 hD.2⟩

/-- A condition that implies another one along a run. -/
theorem Along.mono (h : ∀ s m, C s m → D s m) {s : Jobs σ J} {moves : List (Move ε R E)}
    (hs : sys.Along C s moves) : sys.Along D s moves := by
  induction moves generalizing s with
  | nil => trivial
  | cons m moves ih => exact ⟨h s m hs.1, ih hs.2⟩

instance decidableAlong [∀ s m, Decidable (C s m)] (s : Jobs σ J) :
    ∀ moves : List (Move ε R E), Decidable (sys.Along C s moves)
  | [] => isTrue trivial
  | m :: moves =>
    have := decidableAlong (sys.apply s m) moves
    inferInstanceAs (Decidable (C s m ∧ Along sys C (sys.apply s m) moves))

end JobSystem

section Transaction

/-- A job whose next transaction is `p` goes on to the point that `k` says. -/
def transact (p : Io ε σ α) (k : Except ε α → J) : Io ε σ J := do
  let r ← attempt p
  pure (k r)

/-- How a transaction that changes nothing unless it finishes can end. -/
theorem run_transact_cases {p : Io ε σ α} (hp : AllOrNothing p) (hs : Sound p)
    (k : Except ε α → J) (s : σ) (faults : List (Fault ε)) :
    (∃ a fs, (transact p k).run ⟨s, faults⟩ = (.ok (k (.ok a)), ⟨(exec p s).2, fs⟩)
        ∧ (exec p s).1 = .ok a)
      ∨ (∃ e fs, (transact p k).run ⟨s, faults⟩ = (.ok (k (.error e)), ⟨s, fs⟩)
        ∧ ∃ w, p.run ⟨s, faults⟩ = (.error (.err e), w))
      ∨ ∃ fs, (transact p k).run ⟨s, faults⟩ = (.error .killed, ⟨s, fs⟩) := by
  change (∃ a fs, (andThen (attempt p) _).run _ = _ ∧ _)
    ∨ (∃ e fs, (andThen (attempt p) _).run _ = _
    ∧ _) ∨ ∃ fs, (andThen (attempt p) _).run _ = _
  simp only [run_andThen, run_attempt]
  rcases hp.run_cases hs s faults with ⟨a, fs, hr, ha⟩ | ⟨e | _, fs, hr⟩ <;> rw [hr]
  · exact .inl ⟨a, fs, rfl, ha⟩
  · exact .inr (.inl ⟨e, fs, rfl, _, rfl⟩)
  · exact .inr (.inr ⟨fs, rfl⟩)

theorem transact_state {p : Io ε σ α} (hp : AllOrNothing p) (hs : Sound p) (k : Except ε α → J)
    (s : σ) (faults : List (Fault ε)) :
    ((transact p k).run ⟨s, faults⟩).2.state = s
      ∨ ((transact p k).run ⟨s, faults⟩).2.state = (exec p s).2 := by
  rcases run_transact_cases hp hs k s faults
    with ⟨a, fs, hr, -⟩ | ⟨e, fs, hr, -⟩ | ⟨fs, hr⟩ <;> rw [hr]
  · exact .inr rfl
  · exact .inl rfl
  · exact .inl rfl

end Transaction

section Rule

variable (sys : JobSystem ε σ J R E) (I : σ → Prop) (A : σ → ℕ → J → Prop)

/-- The invariant holds, and every job's assertion does. -/
structure Held (s : Jobs σ J) : Prop where
  shared : I s.shared
  job : ∀ i j, s.jobs[i]? = some j → A s.shared i j

/-- `I` holds again, and the jobs other than `i` are not disturbed. -/
structure Undisturbed (s : Jobs σ J) (i : ℕ) (t : σ) : Prop where
  shared : I t
  others : ∀ k j, k ≠ i → s.jobs[k]? = some j → A t k j

/-- What a move of job `i` from its point `j` must come to. -/
def Lands (s : Jobs σ J) (i : ℕ) (j : J) (r : Except (Stop ε) J × World ε σ) : Prop :=
  match r with
  | (.ok j', w) => Undisturbed I A s i w.state ∧ A w.state i j'
  | (.error (.err _), w) => Undisturbed I A s i w.state ∧ A w.state i j
  | (.error .killed, w) => I w.state

/-- Each move that meets `C` keeps invariant and assertions. -/
structure Keeping (C : Jobs σ J → Move ε R E → Prop) : Prop where
  start : ∀ s r, Held I A s → A s.shared s.jobs.length (sys.begin r)
  env : ∀ s e, Held I A s → C s (.env e) → Held I A { s with shared := sys.env e s.shared }
  restart : ∀ t, I t → I (sys.restart t)
  go : ∀ s i j faults, Held I A s → s.jobs[i]? = some j → C s (.go i faults) →
    Lands I A s i j ((sys.next i j).run ⟨s.shared, faults⟩)

variable {sys I A} {C : Jobs σ J → Move ε R E → Prop}

theorem Held.undisturbed {s : Jobs σ J} (h : Held I A s) (i : ℕ) : Undisturbed I A s i s.shared :=
  ⟨h.shared, fun k j _ hk => h.job k j hk⟩

/-- A transaction lands where its result does, and an error where the job's continuation does. -/
theorem Held.transact {p : Io ε σ α} (hp : AllOrNothing p) (hs : Sound p) {k : Except ε α → J}
    {s : Jobs σ J} {i : ℕ} {j : J} {faults : List (Fault ε)} (h : Held I A s)
    (hok : ∀ a, (exec p s.shared).1 = .ok a → Undisturbed I A s i (exec p s.shared).2
      ∧ A (exec p s.shared).2 i (k (.ok a)))
    (herr : ∀ e, (∃ w, p.run ⟨s.shared, faults⟩ = (.error (.err e), w)) →
      A s.shared i (k (.error e))) :
    Lands I A s i j ((transact p k).run ⟨s.shared, faults⟩) := by
  rcases run_transact_cases hp hs k s.shared faults
    with ⟨a, fs, hr, ha⟩ | ⟨e, fs, hr, he⟩ | ⟨fs, hr⟩
  · rw [hr]
    exact hok a ha
  · rw [hr]
    exact ⟨h.undisturbed i, herr e he⟩
  · rw [hr]
    exact h.shared

/-- A transaction that only looks. -/
theorem Held.lookup {p : Io ε σ α} (hp : Quiet p) (hs : Sound p) {k : Except ε α → J}
    {s : Jobs σ J} {i : ℕ} {j : J} {faults : List (Fault ε)} (h : Held I A s)
    (hok : ∀ a, (exec p s.shared).1 = .ok a → A s.shared i (k (.ok a)))
    (herr : ∀ e, (∃ w, p.run ⟨s.shared, faults⟩ = (.error (.err e), w)) →
      A s.shared i (k (.error e))) :
    Lands I A s i j ((FaultIo.transact p k).run ⟨s.shared, faults⟩) :=
  h.transact hp.allOrNothing hs (fun a ha => by
    rw [hp.exec]
    exact ⟨h.undisturbed i, hok a ha⟩) herr

/-- A step of the job in its own memory. -/
theorem Held.pure {s : Jobs σ J} {i : ℕ} {j j' : J} {faults : List (Fault ε)} (h : Held I A s)
    (hj : A s.shared i j') : Lands I A s i j ((pure j' : Io ε σ J).run ⟨s.shared, faults⟩) :=
  ⟨h.undisturbed i, hj⟩

theorem Held.modify {s : Jobs σ J} {i : ℕ} {j j' : J} {faults : List (Fault ε)} {f : σ → σ}
    (h : Undisturbed I A s i (f s.shared)) (hj : A (f s.shared) i j') :
    Lands I A s i j ((do modify f; Pure.pure j' : Io ε σ J).run ⟨s.shared, faults⟩) := ⟨h, hj⟩

theorem Held.set {s : Jobs σ J} {i : ℕ} {t : σ} {j' : J} (h : Undisturbed I A s i t)
    (hj : A t i j') : Held I A ⟨t, s.jobs.set i j'⟩ := by
  refine ⟨h.shared, fun k j hk => ?_⟩
  rw [List.getElem?_set] at hk
  split_ifs at hk with hik hlt
  · subst hik
    exact Option.some.inj hk ▸ hj
  · exact h.others k j (Ne.symm hik) hk

theorem Keeping.apply (hkeep : Keeping sys I A C) {s : Jobs σ J} (hs : Held I A s)
    {m : Move ε R E} (hm : C s m) : Held I A (sys.apply s m) := by
  cases m with
  | start r =>
    refine ⟨hs.shared, fun k j hk => ?_⟩
    change (s.jobs ++ [sys.begin r])[k]? = some j at hk
    rcases lt_trichotomy k s.jobs.length with hlt | rfl | hgt
    · rw [List.getElem?_append_left hlt] at hk
      exact hs.job k j hk
    · rw [List.getElem?_concat_length] at hk
      exact Option.some.inj hk ▸ hkeep.start s r hs
    · rw [List.getElem?_eq_none (by simp; omega)] at hk
      cases hk
  | go i faults =>
    rcases hj : s.jobs[i]? with _ | j
    · simpa only [JobSystem.apply, hj] using hs
    have hgo := hkeep.go s i j faults hs hj hm
    simp only [JobSystem.apply, hj]
    rcases hr : (sys.next i j).run ⟨s.shared, faults⟩ with ⟨(e | _) | j', w⟩ <;> rw [hr] at hgo
    · obtain ⟨hothers, hj'⟩ := hgo
      refine ⟨hothers.shared, fun k j' hk => ?_⟩
      by_cases hik : k = i
      · subst hik
        obtain rfl : j = j' := Option.some.inj (hj.symm.trans hk)
        exact hj'
      · exact hothers.others k j' hik hk
    · exact ⟨hkeep.restart _ hgo, fun k j hk => by simp at hk⟩
    · exact .set hgo.1 hgo.2
  | env e => exact hkeep.env s e hs hm
  | crash => exact ⟨hkeep.restart _ hs.shared, fun k j hk => by simp [JobSystem.apply] at hk⟩

/-- The invariant and the assertions hold throughout a run whose moves all meet `C`. -/
theorem Keeping.run (hkeep : Keeping sys I A C) : ∀ (moves : List (Move ε R E)) (s : Jobs σ J),
    Held I A s → sys.Along C s moves → Held I A (sys.run s moves)
  | [], _, hs, _ => hs
  | _ :: moves, _, hs, h => hkeep.run moves _ (hkeep.apply hs h.1) h.2

end Rule

end FaultIo

import Mathlib.Tactic

/-!
# Programs whose input and output can fail

A program runs on a state and a schedule of faults: each call to the environment takes the next
fault of the schedule, and a schedule that has run out brings no more of them. A fault can cut a
transfer short, fail the call, or kill the process in the middle of it; a killed process cannot
be caught. A program only uses its schedule up (`Io.uses`), so a condition on all faults of a
schedule holds of what is left for the rest of the program.

`wp S p s Q` is the weakest precondition of `p` over all schedules of faults in `S`. `exec` runs
without faults, and a steady program ends as `exec` does under every schedule that only cuts
transfers short.
-/

namespace FaultIo

inductive Fault (ε : Type) where
  | none
  /-- A transfer moves at most `n` bytes. -/
  | short (n : ℕ)
  /-- The call fails; a transfer made of several calls has moved `n` bytes by then. -/
  | fail (n : ℕ) (e : ε)
  /-- The process dies; a transfer has moved `n` bytes by then, another call is done if `0 < n`. -/
  | kill (n : ℕ)
  deriving DecidableEq

inductive Stop (ε : Type) where
  | err (e : ε)
  | killed
  deriving DecidableEq

structure World (ε σ : Type) where
  state : σ
  faults : List (Fault ε)

structure Io (ε σ α : Type) where
  run : World ε σ → Except (Stop ε) α × World ε σ
  uses : ∀ w, (run w).2.faults <:+ w.faults

variable {ε σ α β : Type}

namespace Io

def ret (a : α) : Io ε σ α := ⟨fun w => (.ok a, w), fun _ => List.suffix_refl _⟩

def stop (e : Stop ε) : Io ε σ α := ⟨fun w => (.error e, w), fun _ => List.suffix_refl _⟩

def andThen (p : Io ε σ α) (f : α → Io ε σ β) : Io ε σ β where
  run w := match p.run w with
    | (.ok a, w') => (f a).run w'
    | (.error e, w') => (.error e, w')
  uses w := by
    have hp := p.uses w
    rcases hr : p.run w with ⟨e | a, w'⟩ <;> rw [hr] at hp
    · exact hp
    · exact ((f a).uses w').trans hp

instance : Monad (Io ε σ) where
  pure := ret
  bind := andThen

/-- A call to the environment. -/
def call (act : Fault ε → σ → Except (Stop ε) α × σ) : Io ε σ α where
  run w := ((act (w.faults.headD .none) w.state).1,
    ⟨(act (w.faults.headD .none) w.state).2, w.faults.tail⟩)
  uses _ := List.tail_suffix _

/-- A call that is done or not done, never half done. -/
def atomic (f : σ → Except ε α × σ) : Io ε σ α := call fun fault s =>
  match fault with
  | .fail _ e => (.error (.err e), s)
  | .kill n => (.error .killed, if 0 < n then (f s).2 else s)
  | _ => ((f s).1.mapError .err, (f s).2)

/-- A call without an effect on the state. -/
def query (f : σ → Except ε α) : Io ε σ α := atomic fun s => (f s, s)

/-- A last call, whose effect nobody sees unless it returns: a process that dies right after it
leaves what a finished call leaves. -/
def final (f : σ → σ) : Io ε σ Unit := call fun fault s =>
  match fault with
  | .fail _ e => (.error (.err e), s)
  | .kill _ => (.error .killed, s)
  | _ => (.ok (), f s)

/-- Memory of the process itself, which no fault touches. -/
def get : Io ε σ σ := ⟨fun w => (.ok w.state, w), fun _ => List.suffix_refl _⟩

def modify (f : σ → σ) : Io ε σ Unit :=
  ⟨fun w => (.ok (), { w with state := f w.state }), fun _ => List.suffix_refl _⟩

/-- Rewrites the error, not the death, of a program. -/
def onErr (g : ε → ε) (p : Io ε σ α) : Io ε σ α where
  run w := match p.run w with
    | (.error (.err e), w') => (.error (.err (g e)), w')
    | r => r
  uses w := by
    have hp := p.uses w
    rcases hr : p.run w with ⟨(e | _) | a, w'⟩ <;> rw [hr] at hp <;> exact hp

/-- Hands the error, not the death, of a program to its caller. -/
def attempt (p : Io ε σ α) : Io ε σ (Except ε α) where
  run w := match p.run w with
    | (.ok a, w') => (.ok (.ok a), w')
    | (.error (.err e), w') => (.ok (.error e), w')
    | (.error .killed, w') => (.error .killed, w')
  uses w := by
    have hp := p.uses w
    rcases hr : p.run w with ⟨(e | _) | a, w'⟩ <;> rw [hr] at hp <;> exact hp

/-- A program on a part of the state. -/
def zoom {τ : Type} (get : τ → σ) (put : σ → τ → τ) (p : Io ε σ α) : Io ε τ α where
  run w := ((p.run ⟨get w.state, w.faults⟩).1,
    ⟨put (p.run ⟨get w.state, w.faults⟩).2.state w.state, (p.run ⟨get w.state, w.faults⟩).2.faults⟩)
  uses w := p.uses ⟨get w.state, w.faults⟩

def each (f : α → Io ε σ Unit) : List α → Io ε σ Unit
  | [] => ret ()
  | x :: xs => andThen (f x) fun _ => each f xs

end Io

open Io

theorem run_andThen (p : Io ε σ α) (f : α → Io ε σ β) (w : World ε σ) :
    (andThen p f).run w = match p.run w with
      | (.ok a, w') => (f a).run w'
      | (.error e, w') => (.error e, w') := rfl

theorem run_onErr (g : ε → ε) (p : Io ε σ α) (w : World ε σ) :
    (onErr g p).run w = match p.run w with
      | (.error (.err e), w') => (.error (.err (g e)), w')
      | r => r := rfl

theorem run_attempt (p : Io ε σ α) (w : World ε σ) :
    (attempt p).run w = match p.run w with
      | (.ok a, w') => (.ok (.ok a), w')
      | (.error (.err e), w') => (.ok (.error e), w')
      | (.error .killed, w') => (.error .killed, w') := rfl

theorem run_bind (p : Io ε σ α) (f : α → Io ε σ β) (w : World ε σ) :
    (p >>= f).run w = match p.run w with
      | (.ok a, w') => (f a).run w'
      | (.error e, w') => (.error e, w') := rfl

/-- What a sequence that finishes did in its parts. -/
theorem run_bind_ok {p : Io ε σ α} {f : α → Io ε σ β} {w w'' : World ε σ} {b : β}
    (h : (p >>= f).run w = (.ok b, w'')) :
    ∃ a w', p.run w = (.ok a, w') ∧ (f a).run w' = (.ok b, w'') := by
  rw [run_bind] at h
  rcases hp : p.run w with ⟨e | a, w'⟩ <;> rw [hp] at h
  · cases h
  · exact ⟨a, w', rfl, h⟩

theorem Io.ext_run {p q : Io ε σ α} (h : ∀ w, p.run w = q.run w) : p = q := by
  rcases p with ⟨p, hp⟩
  obtain rfl : p = q.run := funext h
  rfl

instance : LawfulMonad (Io ε σ) := LawfulMonad.mk' _
  (fun p => Io.ext_run fun w => by
    change (p >>= fun a => pure a).run w = _
    rw [run_bind]
    rcases p.run w with ⟨e | a, w'⟩ <;> rfl)
  (fun _ _ => rfl)
  (fun p f g => Io.ext_run fun w => by
    rw [run_bind, run_bind, run_bind]
    rcases p.run w with ⟨e | a, w'⟩ <;> rfl)

theorem each_cons (f : α → Io ε σ Unit) (x : α) (xs : List α) :
    each f (x :: xs) = f x >>= fun _ => each f xs := rfl

/-- What follows a program may as well be told its error. -/
theorem bind_eq_attempt (p : Io ε σ α) (f : α → Io ε σ β) :
    p >>= f = attempt p >>= fun r => match r with
      | .ok a => f a
      | .error e => stop (.err e) := by
  refine Io.ext_run fun w => ?_
  simp only [run_bind, run_attempt]
  rcases p.run w with ⟨(e | _) | a, w'⟩ <;> rfl

/-- The error of a sequence is that of its first part, or that of its second. -/
theorem attempt_bind (p : Io ε σ α) (f : α → Io ε σ β) :
    attempt (p >>= f) = attempt p >>= fun r => match r with
      | .ok a => attempt (f a)
      | .error e => pure (.error e) := by
  refine Io.ext_run fun w => ?_
  simp only [run_bind, run_attempt]
  rcases p.run w with ⟨(e | _) | a, w'⟩ <;> rfl

section Wp

/-- Every schedule of faults in `S` makes `p` end as `Q` says. -/
def wp (S : Fault ε → Prop) (p : Io ε σ α) (s : σ) (Q : Except (Stop ε) α → σ → Prop) : Prop :=
  ∀ fs, (∀ f ∈ fs, S f) → Q (p.run ⟨s, fs⟩).1 (p.run ⟨s, fs⟩).2.state

variable {S : Fault ε → Prop} {s : σ} {Q R : Except (Stop ε) α → σ → Prop}

theorem wp_mono {p : Io ε σ α} (h : wp S p s Q) (hQ : ∀ r s', Q r s' → R r s') : wp S p s R :=
  fun fs hfs => hQ _ _ (h fs hfs)

theorem wp_and {p : Io ε σ α} (hQ : wp S p s Q) (hR : wp S p s R) :
    wp S p s fun r s' => Q r s' ∧ R r s' := fun fs hfs => ⟨hQ fs hfs, hR fs hfs⟩

theorem wp_pure {a : α} (h : Q (.ok a) s) : wp S (pure a : Io ε σ α) s Q := fun _ _ => h

theorem wp_stop {e : Stop ε} (h : Q (.error e) s) : wp S (stop e : Io ε σ α) s Q := fun _ _ => h

theorem wp_get {Q : Except (Stop ε) σ → σ → Prop} (h : Q (.ok s) s) :
    wp S (get : Io ε σ σ) s Q := fun _ _ => h

theorem wp_modify {f : σ → σ} {Q : Except (Stop ε) Unit → σ → Prop} (h : Q (.ok ()) (f s)) :
    wp S (modify f : Io ε σ Unit) s Q := fun _ _ => h

theorem wp_bind {p : Io ε σ β} {f : β → Io ε σ α}
    (h : wp S p s fun r s' => match r with
      | .ok a => wp S (f a) s' Q
      | .error e => Q (.error e) s') : wp S (p >>= f) s Q := by
  intro fs hfs
  have hp := h fs hfs
  have hu := p.uses ⟨s, fs⟩
  change Q ((andThen p f).run ⟨s, fs⟩).1 ((andThen p f).run ⟨s, fs⟩).2.state
  rw [run_andThen]
  rcases hr : p.run ⟨s, fs⟩ with ⟨e | a, s', fs'⟩ <;> rw [hr] at hp hu
  · exact hp
  · exact hp fs' fun x hx => hfs x (hu.mem hx)

theorem wp_call {act : Fault ε → σ → Except (Stop ε) α × σ}
    (h : ∀ f, f = .none ∨ S f → Q (act f s).1 (act f s).2) : wp S (call act) s Q := by
  intro fs hfs
  refine h _ ?_
  rcases fs with _ | ⟨f, fs⟩
  · exact .inl rfl
  · exact .inr (hfs f List.mem_cons_self)

/-- An atomic call is done, fails with a fault of the schedule, or the process dies before or
after it. -/
theorem wp_atomic {f : σ → Except ε α × σ} (hdone : Q ((f s).1.mapError .err) (f s).2)
    (hfail : ∀ n e, S (.fail n e) → Q (.error (.err e)) s)
    (hkill : ∀ n, S (.kill n) → Q (.error .killed) (if 0 < n then (f s).2 else s)) :
    wp S (atomic f) s Q := by
  refine wp_call fun x hx => ?_
  rcases x with _ | n | ⟨n, e⟩ | n
  · exact hdone
  · exact hdone
  · exact hfail n e (hx.resolve_left (by simp))
  · exact hkill n (hx.resolve_left (by simp))

theorem wp_query {f : σ → Except ε α} (hdone : Q ((f s).mapError .err) s)
    (hfail : ∀ n e, S (.fail n e) → Q (.error (.err e)) s)
    (hkill : ∀ n, S (.kill n) → Q (.error .killed) s) : wp S (query f) s Q :=
  wp_atomic hdone hfail fun n hn => by simpa using hkill n hn

theorem wp_final {f : σ → σ} {Q : Except (Stop ε) Unit → σ → Prop} (hdone : Q (.ok ()) (f s))
    (hfail : ∀ e, Q (.error e) s) : wp S (final f) s Q := by
  refine wp_call fun x _ => ?_
  rcases x with _ | n | ⟨n, e⟩ | n
  · exact hdone
  · exact hdone
  · exact hfail _
  · exact hfail _

theorem wp_onErr {g : ε → ε} {p : Io ε σ α}
    (h : wp S p s fun r s' => match r with
      | .error (.err e) => Q (.error (.err (g e))) s'
      | r => Q r s') : wp S (onErr g p) s Q := by
  intro fs hfs
  have hp := h fs hfs
  rw [run_onErr]
  rcases hr : p.run ⟨s, fs⟩ with ⟨(e | _) | a, s', fs'⟩ <;> rw [hr] at hp <;> exact hp

theorem wp_attempt {p : Io ε σ β} {Q : Except (Stop ε) (Except ε β) → σ → Prop}
    (h : wp S p s fun r s' => match r with
      | .ok a => Q (.ok (.ok a)) s'
      | .error (.err e) => Q (.ok (.error e)) s'
      | .error .killed => Q (.error .killed) s') : wp S (attempt p) s Q := by
  intro fs hfs
  have hp := h fs hfs
  rw [run_attempt]
  rcases hr : p.run ⟨s, fs⟩ with ⟨(e | _) | a, s', fs'⟩ <;> rw [hr] at hp <;> exact hp

/-- A loop, by what holds of the elements that are left. -/
theorem wp_each {f : β → Io ε σ Unit} {I : List β → σ → Prop} {Q : Except (Stop ε) Unit → σ → Prop}
    (hstep : ∀ x xs s, I (x :: xs) s → wp S (f x) s fun r s' => match r with
      | .ok () => I xs s'
      | .error e => Q (.error e) s')
    (hend : ∀ s, I [] s → Q (.ok ()) s) : ∀ xs s, I xs s → wp S (each f xs) s Q
  | [], s, h => wp_pure (hend s h)
  | x :: xs, s, h => by
    refine wp_bind (wp_mono (hstep x xs s h) fun r s' h' => ?_)
    rcases r with e | u
    · exact h'
    · exact wp_each hstep hend xs s' h'

/-- A sequence of programs that may also end with a refusal of their own. -/
theorem wp_exceptT_bind {δ : Type} {p : ExceptT δ (Io ε σ) β} {f : β → ExceptT δ (Io ε σ) α}
    {Q : Except (Stop ε) (Except δ α) → σ → Prop}
    (h : wp S p.run s fun r s' => match r with
      | .ok (.ok a) => wp S (f a).run s' Q
      | .ok (.error e) => Q (.ok (.error e)) s'
      | .error e => Q (.error e) s') :
    wp S (p >>= f).run s Q := by
  refine wp_bind (wp_mono h fun r s' h' => ?_)
  rcases r with e | e | a
  · exact h'
  · exact wp_pure h'
  · exact h'

theorem wp_zoom {τ : Type} {get : τ → σ} {put : σ → τ → τ} {p : Io ε σ α} {t : τ}
    {Q : Except (Stop ε) α → τ → Prop} (h : wp S p (get t) fun r s' => Q r (put s' t)) :
    wp S (zoom get put p) t Q := h

end Wp

section Exec

/-- The run without faults. -/
def exec (p : Io ε σ α) (s : σ) : Except (Stop ε) α × σ :=
  ((p.run ⟨s, []⟩).1, (p.run ⟨s, []⟩).2.state)

theorem run_nil (p : Io ε σ α) (s : σ) : p.run ⟨s, []⟩ = ((exec p s).1, ⟨(exec p s).2, []⟩) := by
  have hu := p.uses ⟨s, []⟩
  unfold exec
  rcases hr : p.run ⟨s, []⟩ with ⟨r, s', fs⟩
  rw [hr] at hu
  simp only [List.suffix_nil] at hu
  subst hu
  rfl

@[simp] theorem exec_pure (a : α) (s : σ) : exec (pure a : Io ε σ α) s = (.ok a, s) := rfl

@[simp] theorem exec_ret (a : α) (s : σ) : exec (ret a : Io ε σ α) s = (.ok a, s) := rfl

@[simp] theorem exec_stop (e : Stop ε) (s : σ) :
    exec (stop e : Io ε σ α) s = (.error e, s) := rfl

@[simp] theorem exec_get (s : σ) : exec (get : Io ε σ σ) s = (.ok s, s) := rfl

@[simp] theorem exec_modify (f : σ → σ) (s : σ) :
    exec (modify f : Io ε σ Unit) s = (.ok (), f s) := rfl

theorem exec_call (act : Fault ε → σ → Except (Stop ε) α × σ) (s : σ) :
    exec (call act) s = act .none s := rfl

@[simp] theorem exec_atomic (f : σ → Except ε α × σ) (s : σ) :
    exec (atomic f) s = ((f s).1.mapError .err, (f s).2) := rfl

/-- A call is not done, and an error, or it is done. -/
theorem run_atomic (f : σ → Except ε α × σ) (w : World ε σ) :
    (∃ e, (atomic f).run w = (.error e, ⟨w.state, w.faults.tail⟩))
      ∨ ∃ r, (atomic f).run w = (r, ⟨(f w.state).2, w.faults.tail⟩)
        ∧ ∀ a, r = .ok a → (f w.state).1 = .ok a := by
  have hdone : ∀ a, (f w.state).1.mapError Stop.err = .ok a → (f w.state).1 = .ok a := by
    intro a ha
    rcases hf : (f w.state).1 with e | b <;> rw [hf] at ha
    · cases ha
    · rw [Except.ok.inj ha]
  simp only [atomic, call]
  rcases w.faults.headD .none with _ | k | ⟨k, e⟩ | k
  · exact .inr ⟨_, rfl, hdone⟩
  · exact .inr ⟨_, rfl, hdone⟩
  · exact .inl ⟨.err e, rfl⟩
  · by_cases hk : 0 < k
    · exact .inr ⟨.error .killed, by simp [hk], fun _ ha => by cases ha⟩
    · exact .inl ⟨.killed, by simp [hk]⟩

@[simp] theorem exec_final (f : σ → σ) (s : σ) :
    exec (final f : Io ε σ Unit) s = (.ok (), f s) := rfl

@[simp] theorem exec_query (f : σ → Except ε α) (s : σ) :
    exec (query f) s = ((f s).mapError .err, s) := rfl

theorem exec_andThen (p : Io ε σ α) (f : α → Io ε σ β) (s : σ) :
    exec (andThen p f) s = match exec p s with
      | (.ok a, s') => exec (f a) s'
      | (.error e, s') => (.error e, s') := by
  conv_lhs => unfold exec
  rw [run_andThen, run_nil]
  rcases exec p s with ⟨e | a, s'⟩ <;> rfl

theorem exec_bind (p : Io ε σ α) (f : α → Io ε σ β) (s : σ) :
    exec (p >>= f) s = match exec p s with
      | (.ok a, s') => exec (f a) s'
      | (.error e, s') => (.error e, s') := exec_andThen p f s

theorem exec_zoom {τ : Type} (get : τ → σ) (put : σ → τ → τ) (p : Io ε σ α) (t : τ) :
    exec (zoom get put p) t = ((exec p (get t)).1, put (exec p (get t)).2 t) := rfl

/-- What a sequence that finishes did in its parts. -/
theorem exec_bind_ok {p : Io ε σ α} {f : α → Io ε σ β} {s s'' : σ} {b : β}
    (h : exec (p >>= f) s = (.ok b, s'')) :
    ∃ a s', exec p s = (.ok a, s') ∧ exec (f a) s' = (.ok b, s'') := by
  rw [exec_bind] at h
  rcases hp : exec p s with ⟨e | a, s'⟩ <;> rw [hp] at h
  · cases h
  · exact ⟨a, s', rfl, h⟩

/-- A loop whose body leaves the state. -/
theorem exec_each_idle {f : α → Io ε σ Unit} {s : σ} (h : ∀ x, exec (f x) s = (.ok (), s)) :
    ∀ xs, exec (each f xs) s = (.ok (), s)
  | [] => rfl
  | x :: xs => by
    rw [each, exec_andThen, h x]
    exact exec_each_idle h xs

theorem exec_onErr (g : ε → ε) (p : Io ε σ α) (s : σ) :
    exec (onErr g p) s = match exec p s with
      | (.error (.err e), s') => (.error (.err (g e)), s')
      | r => r := by
  conv_lhs => unfold exec
  rw [run_onErr, run_nil]
  rcases exec p s with ⟨(e | _) | a, s'⟩ <;> rfl

theorem exec_attempt (p : Io ε σ α) (s : σ) :
    exec (attempt p) s = match exec p s with
      | (.ok a, s') => (.ok (.ok a), s')
      | (.error (.err e), s') => (.ok (.error e), s')
      | (.error .killed, s') => (.error .killed, s') := by
  conv_lhs => unfold exec
  rw [run_attempt, run_nil]
  rcases exec p s with ⟨(e | _) | a, s'⟩ <;> rfl

end Exec

section Steady

/-- A fault that only cuts a transfer short, and never to nothing. -/
def Benign : Fault ε → Prop
  | .none => True
  | .short n => 0 < n
  | _ => False

/-- Under benign faults `p` ends as it does without faults. -/
def Steady (p : Io ε σ α) : Prop :=
  ∀ s, wp Benign p s fun r s' => (r, s') = exec p s

theorem Steady.pure (a : α) : Steady (pure a : Io ε σ α) := fun _ => wp_pure rfl

theorem Steady.stop (e : Stop ε) : Steady (stop e : Io ε σ α) := fun _ => wp_stop rfl

theorem Steady.get : Steady (get : Io ε σ σ) := fun _ => wp_get rfl

theorem Steady.modify (f : σ → σ) : Steady (modify f : Io ε σ Unit) := fun _ => wp_modify rfl

theorem Steady.atomic (f : σ → Except ε α × σ) : Steady (atomic f) := fun _ =>
  wp_atomic rfl (fun _ _ h => h.elim) fun _ h => h.elim

theorem Steady.call {act : Fault ε → σ → Except (Stop ε) α × σ}
    (h : ∀ f s, Benign f → act f s = act .none s) : Steady (call act) := by
  refine fun s => wp_call fun f hf => ?_
  rcases hf with rfl | hf
  · rfl
  · rw [h f s hf]
    rfl

theorem Steady.query (f : σ → Except ε α) : Steady (query f) := Steady.atomic _

theorem Steady.bind {p : Io ε σ α} {f : α → Io ε σ β} (hp : Steady p) (hf : ∀ a, Steady (f a)) :
    Steady (p >>= f) := by
  intro s
  refine wp_bind (wp_mono (hp s) fun r s' h => ?_)
  rw [exec_bind, ← h]
  rcases r with e | a
  · rfl
  · exact hf a s'

theorem Steady.onErr {p : Io ε σ α} (g : ε → ε) (hp : Steady p) : Steady (onErr g p) := by
  intro s
  refine wp_onErr (wp_mono (hp s) fun r s' h => ?_)
  rw [exec_onErr, ← h]
  rcases r with (e | _) | a <;> rfl

theorem Steady.attempt {p : Io ε σ α} (hp : Steady p) : Steady (attempt p) := by
  intro s
  refine wp_attempt (wp_mono (hp s) fun r s' h => ?_)
  rw [exec_attempt, ← h]
  rcases r with (e | _) | a <;> rfl

theorem Steady.each {f : α → Io ε σ Unit} (hf : ∀ a, Steady (f a)) :
    ∀ xs, Steady (each f xs)
  | [] => Steady.pure ()
  | x :: xs => Steady.bind (hf x) fun _ => Steady.each hf xs

/-- A steady program ends as it does without faults, whatever benign schedule it is given. -/
theorem Steady.run {p : Io ε σ α} (hp : Steady p) (s : σ) {fs : List (Fault ε)}
    (hfs : ∀ f ∈ fs, Benign f) : ((p.run ⟨s, fs⟩).1, (p.run ⟨s, fs⟩).2.state) = exec p s :=
  hp s fs hfs

end Steady

section Sound

/-- A run of `p` that finishes, whatever the faults, did what the run without faults does. -/
def Sound (p : Io ε σ α) : Prop :=
  ∀ S s, wp S p s fun r s' => ∀ a, r = .ok a → exec p s = (.ok a, s')

theorem Sound.pure (a : α) : Sound (pure a : Io ε σ α) := fun _ _ => wp_pure fun _ h => by
  cases h
  rfl

theorem Sound.stop (e : Stop ε) : Sound (stop e : Io ε σ α) := fun _ _ => wp_stop fun _ h => by
  cases h

theorem Sound.get : Sound (get : Io ε σ σ) := fun _ _ => wp_get fun _ h => by
  cases h
  rfl

theorem Sound.modify (f : σ → σ) : Sound (modify f : Io ε σ Unit) := fun _ _ =>
  wp_modify fun _ h => by
    cases h
    rfl

theorem Sound.atomic (f : σ → Except ε α × σ) : Sound (atomic f) := fun _ s =>
  wp_atomic (fun _ h => by rw [exec_atomic, h]) (fun _ _ _ _ h => by cases h)
    fun _ _ _ h => by cases h

theorem Sound.call {act : Fault ε → σ → Except (Stop ε) α × σ}
    (h : ∀ f s a, (act f s).1 = .ok a → act f s = act .none s) : Sound (call act) := by
  refine fun _ s => wp_call fun f _ a ha => ?_
  change ((act .none s).1, (act .none s).2) = _
  rw [← h f s a ha, ha]

theorem Sound.query (f : σ → Except ε α) : Sound (query f) := Sound.atomic _

theorem Sound.bind {p : Io ε σ α} {f : α → Io ε σ β} (hp : Sound p) (hf : ∀ a, Sound (f a)) :
    Sound (p >>= f) := by
  intro S s
  refine wp_bind (wp_mono (hp S s) fun r s' h => ?_)
  rcases r with e | a
  · rintro b ⟨⟩
  · refine wp_mono (hf a S s') fun r' s'' h' b hb => ?_
    rw [exec_bind, h a rfl]
    exact h' b hb

theorem Sound.onErr {p : Io ε σ α} (g : ε → ε) (hp : Sound p) : Sound (onErr g p) := by
  intro S s
  refine wp_onErr (wp_mono (hp S s) fun r s' h => ?_)
  rcases r with (e | _) | a
  · rintro b ⟨⟩
  · rintro b ⟨⟩
  · rintro b ⟨⟩
    rw [exec_onErr, h a rfl]

theorem Sound.zoom {τ : Type} {get : τ → σ} {put : σ → τ → τ} {p : Io ε σ α} (hp : Sound p) :
    Sound (zoom get put p) := by
  intro S t
  refine wp_zoom (wp_mono (hp S (get t)) fun r s' h a ha => ?_)
  rw [exec_zoom, h a ha]

theorem Sound.each {f : α → Io ε σ Unit} (hf : ∀ a, Sound (f a)) : ∀ xs, Sound (each f xs)
  | [] => Sound.pure ()
  | x :: xs => Sound.bind (hf x) fun _ => Sound.each hf xs

end Sound

section Plain

/-- Faults can stop `p`, and benign ones not even that; they cannot make it end otherwise. -/
structure Plain (p : Io ε σ α) : Prop where
  sound : Sound p
  steady : Steady p

theorem Plain.pure (a : α) : Plain (pure a : Io ε σ α) := ⟨.pure a, .pure a⟩

theorem Plain.stop (e : Stop ε) : Plain (stop e : Io ε σ α) := ⟨.stop e, .stop e⟩

theorem Plain.get : Plain (get : Io ε σ σ) := ⟨.get, .get⟩

theorem Plain.modify (f : σ → σ) : Plain (modify f : Io ε σ Unit) := ⟨.modify f, .modify f⟩

theorem Plain.atomic (f : σ → Except ε α × σ) : Plain (atomic f) := ⟨.atomic f, .atomic f⟩

theorem Plain.query (f : σ → Except ε α) : Plain (query f) := ⟨.query f, .query f⟩

theorem Plain.final (f : σ → σ) : Plain (final f : Io ε σ Unit) := by
  refine ⟨Sound.call fun x s a h => ?_, Steady.call fun x s h => ?_⟩
  · rcases x with _ | n | ⟨n, e⟩ | n <;> first | rfl | cases h
  · rcases x with _ | n | ⟨n, e⟩ | n <;> first | rfl | exact h.elim

theorem Plain.bind {p : Io ε σ α} {f : α → Io ε σ β} (hp : Plain p) (hf : ∀ a, Plain (f a)) :
    Plain (p >>= f) :=
  ⟨.bind hp.sound fun a => (hf a).sound, .bind hp.steady fun a => (hf a).steady⟩

theorem Plain.onErr {p : Io ε σ α} (g : ε → ε) (hp : Plain p) : Plain (onErr g p) :=
  ⟨hp.sound.onErr g, hp.steady.onErr g⟩

theorem Plain.each {f : α → Io ε σ Unit} (hf : ∀ a, Plain (f a)) (xs : List α) :
    Plain (each f xs) :=
  ⟨.each (fun a => (hf a).sound) xs, .each (fun a => (hf a).steady) xs⟩

end Plain

section Keeps

/-- Whatever the faults, `p` relates the state before to the state after by `K`. -/
def Keeps (K : σ → σ → Prop) (p : Io ε σ α) : Prop := ∀ S s, wp S p s fun _ s' => K s s'

/-- `p` only looks. -/
def Quiet (p : Io ε σ α) : Prop := Keeps (fun s s' => s' = s) p

variable {K : σ → σ → Prop}

theorem Keeps.bind (htrans : ∀ a b c, K a b → K b c → K a c) {p : Io ε σ α} {f : α → Io ε σ β}
    (hp : Keeps K p) (hf : ∀ a, Keeps K (f a)) : Keeps K (p >>= f) := by
  intro S s
  refine wp_bind (wp_mono (hp S s) fun r s' h => ?_)
  rcases r with e | a
  · exact h
  · exact wp_mono (hf a S s') fun _ s'' h' => htrans _ _ _ h h'

theorem Keeps.onErr {p : Io ε σ α} (g : ε → ε) (hp : Keeps K p) : Keeps K (onErr g p) := by
  intro S s
  refine wp_onErr (wp_mono (hp S s) fun r s' h => ?_)
  rcases r with (e | _) | a <;> exact h

theorem Keeps.attempt {p : Io ε σ α} (hp : Keeps K p) : Keeps K (attempt p) := by
  intro S s
  refine wp_attempt (wp_mono (hp S s) fun r s' h => ?_)
  rcases r with (e | _) | a <;> exact h

/-- A relation that a sequence keeps if its parts do. -/
structure Frame (K : σ → σ → Prop) : Prop where
  refl : ∀ s, K s s
  trans : ∀ a b c, K a b → K b c → K a c

/-- What holds of a run with any faults at all. -/
theorem Keeps.run {p : Io ε σ α} (hp : Keeps K p) (s : σ) (fs : List (Fault ε)) :
    K s (p.run ⟨s, fs⟩).2.state := hp (fun _ => True) s fs fun _ _ => trivial

theorem Keeps.exec {p : Io ε σ α} (hp : Keeps K p) (s : σ) : K s (exec p s).2 := Keeps.run hp s []

theorem Quiet.state_run {p : Io ε σ α} (hp : Quiet p) {w w' : World ε σ} {r : Except (Stop ε) α}
    (h : p.run w = (r, w')) : w'.state = w.state := by
  have := Keeps.run hp w.state w.faults
  rwa [h] at this

theorem Quiet.keeps (hrefl : ∀ s, K s s) {p : Io ε σ α} (hp : Quiet p) : Keeps K p :=
  fun S s => wp_mono (hp S s) fun _ _ h => h ▸ hrefl s

theorem Quiet.exec {p : Io ε σ α} (hp : Quiet p) (s : σ) : (exec p s).2 = s := Keeps.exec hp s

theorem Quiet.pure (a : α) : Quiet (pure a : Io ε σ α) := fun _ _ => wp_pure rfl

theorem Quiet.stop (e : Stop ε) : Quiet (stop e : Io ε σ α) := fun _ _ => wp_stop rfl

theorem Quiet.get : Quiet (get : Io ε σ σ) := fun _ _ => wp_get rfl

theorem Quiet.query (f : σ → Except ε α) : Quiet (query f) := fun _ _ =>
  wp_query rfl (fun _ _ _ => rfl) fun _ _ => rfl

theorem Quiet.bind {p : Io ε σ α} {f : α → Io ε σ β} (hp : Quiet p) (hf : ∀ a, Quiet (f a)) :
    Quiet (p >>= f) := Keeps.bind (fun _ _ _ h h' => h'.trans h) hp hf

theorem Quiet.onErr {p : Io ε σ α} (g : ε → ε) (hp : Quiet p) : Quiet (onErr g p) :=
  Keeps.onErr g hp

theorem Quiet.each {f : α → Io ε σ Unit} (hf : ∀ a, Quiet (f a)) : ∀ xs, Quiet (each f xs)
  | [] => Quiet.pure ()
  | x :: xs => Quiet.bind (hf x) fun _ => Quiet.each hf xs

theorem Quiet.zoom {τ : Type} {get : τ → σ} {put : σ → τ → τ} (hput : ∀ t, put (get t) t = t)
    {p : Io ε σ α} (hp : Quiet p) : Quiet (zoom get put p) := by
  intro S t
  refine wp_zoom (wp_mono (hp S (get t)) fun r s' h => ?_)
  rw [h, hput]

/-- `p` relates the states by `K`, and what it returns satisfies `R`. -/
def Ensures (K : σ → σ → Prop) (R : α → Prop) (p : Io ε σ α) : Prop :=
  ∀ S s, wp S p s fun r s' => K s s' ∧ ∀ a, r = .ok a → R a

theorem Ensures.bind (htrans : ∀ a b c, K a b → K b c → K a c) {R : α → Prop} {p : Io ε σ α}
    {f : α → Io ε σ β} (hp : Ensures K R p) (hf : ∀ a, R a → Keeps K (f a)) :
    Keeps K (p >>= f) := by
  intro S s
  refine wp_bind (wp_mono (hp S s) fun r s' h => ?_)
  rcases r with e | a
  · exact h.1
  · exact wp_mono (hf a (h.2 a rfl) S s') fun _ s'' h' => htrans _ _ _ h.1 h'

theorem Ensures.seq (htrans : ∀ a b c, K a b → K b c → K a c) {R : α → Prop} {R' : β → Prop}
    {p : Io ε σ α} {f : α → Io ε σ β} (hp : Ensures K R p) (hf : ∀ a, R a → Ensures K R' (f a)) :
    Ensures K R' (p >>= f) := by
  intro S s
  refine wp_bind (wp_mono (hp S s) fun r s' h => ?_)
  rcases r with e | a
  · exact ⟨h.1, by simp⟩
  · exact wp_mono (hf a (h.2 a rfl) S s') fun _ s'' h' => ⟨htrans _ _ _ h.1 h'.1, h'.2⟩

theorem Ensures.atomic {R : α → Prop} {f : σ → Except ε α × σ} (hrefl : ∀ s, K s s)
    (h : ∀ s, K s (f s).2 ∧ ∀ a, (f s).1 = .ok a → R a) : Ensures K R (atomic f) := by
  intro S s
  refine wp_atomic ⟨(h s).1, fun a ha => (h s).2 a ?_⟩ (fun _ _ _ => ⟨hrefl s, by simp⟩)
    fun n _ => ⟨?_, by simp⟩
  · rcases hf : (f s).1 with e | b <;> rw [hf] at ha <;> cases ha
    rfl
  · split_ifs
    · exact (h s).1
    · exact hrefl s

theorem Ensures.keeps {R : α → Prop} {p : Io ε σ α} (hp : Ensures K R p) : Keeps K p :=
  fun S s => wp_mono (hp S s) fun _ _ h => h.1

theorem Ensures.onErr {R : α → Prop} {p : Io ε σ α} (g : ε → ε) (hp : Ensures K R p) :
    Ensures K R (onErr g p) := by
  intro S s
  refine wp_onErr (wp_mono (hp S s) fun r s' h => ?_)
  rcases r with (e | _) | a
  · exact ⟨h.1, by simp⟩
  · exact ⟨h.1, by simp⟩
  · exact h

theorem Frame.same : Frame (fun s s' : σ => s' = s) :=
  ⟨fun _ => rfl, fun _ _ _ h h' => h'.trans h⟩

section Frame

variable (hK : Frame K)
include hK

theorem Frame.quiet {p : Io ε σ α} (hp : Quiet p) : Keeps K p := hp.keeps hK.refl

theorem Frame.seq {p : Io ε σ α} {f : α → Io ε σ β} (hp : Keeps K p) (hf : ∀ a, Keeps K (f a)) :
    Keeps K (p >>= f) := hp.bind hK.trans hf

theorem Frame.pure (a : α) : Keeps K (pure a : Io ε σ α) := hK.quiet (Quiet.pure a)

theorem Frame.stop (e : Stop ε) : Keeps K (stop e : Io ε σ α) := hK.quiet (Quiet.stop e)

theorem Frame.each {f : α → Io ε σ Unit} (hf : ∀ a, Keeps K (f a)) : ∀ xs, Keeps K (each f xs)
  | [] => hK.pure ()
  | x :: xs => hK.seq (hf x) fun _ => Frame.each hf xs

end Frame

/-- `p` relates the states by `K` unless it finishes. -/
def KeepsUnlessDone (K : σ → σ → Prop) (p : Io ε σ α) : Prop :=
  ∀ S s, wp S p s fun r s' => (∀ a, r ≠ .ok a) → K s s'

theorem Keeps.unlessDone {p : Io ε σ α} (hp : Keeps K p) : KeepsUnlessDone K p :=
  fun S s => wp_mono (hp S s) fun _ _ h _ => h

theorem KeepsUnlessDone.bind (htrans : ∀ a b c, K a b → K b c → K a c) {p : Io ε σ α}
    {f : α → Io ε σ β} (hp : Keeps K p) (hf : ∀ a, KeepsUnlessDone K (f a)) :
    KeepsUnlessDone K (p >>= f) := by
  intro S s
  refine wp_bind (wp_mono (hp S s) fun r s' h => ?_)
  rcases r with e | a
  · exact fun _ => h
  · exact wp_mono (hf a S s') fun _ s'' h' hr => htrans _ _ _ h (h' hr)

/-- `p` relates the states by `K` where it returns an error. -/
def KeepsOnErr (K : σ → σ → Prop) (p : Io ε σ α) : Prop :=
  ∀ S s, wp S p s fun r s' => ∀ e, r = .error (.err e) → K s s'

theorem Keeps.keepsOnErr {p : Io ε σ α} (hp : Keeps K p) : KeepsOnErr K p :=
  fun S s => wp_mono (hp S s) fun _ _ h _ _ => h

theorem KeepsOnErr.bind (hK : Frame K) {p : Io ε σ α} {f : α → Io ε σ β} (hp : Keeps K p)
    (hf : ∀ a, KeepsOnErr K (f a)) : KeepsOnErr K (p >>= f) := by
  intro S s
  refine wp_bind (wp_mono (hp S s) fun r s' h => ?_)
  rcases r with e | a
  · exact fun _ _ => h
  · exact wp_mono (hf a S s') fun _ s'' h' e he => hK.trans _ _ _ h (h' e he)

theorem KeepsOnErr.onErr {p : Io ε σ α} (g : ε → ε) (hp : KeepsOnErr K p) :
    KeepsOnErr K (onErr g p) := by
  intro S s
  refine wp_onErr (wp_mono (hp S s) fun r s' h => ?_)
  rcases r with (e | _) | a
  · exact fun _ _ => h e rfl
  · rintro e ⟨⟩
  · rintro e ⟨⟩

theorem KeepsOnErr.run {p : Io ε σ α} (hp : KeepsOnErr K p) {w w' : World ε σ} {e : ε}
    (h : p.run w = (.error (.err e), w')) : K w.state w'.state := by
  have := hp (fun _ => True) w.state w.faults (fun _ _ => trivial) e
  rw [h] at this
  exact this rfl

end Keeps

/-- A program that only looks finds what it finds without faults, if it finishes. -/
theorem Plain.wp_quiet {S : Fault ε → Prop} {p : Io ε σ α} (hp : Plain p) (hq : Quiet p) {s s' : σ}
    {a : α} (h : exec p s = (.ok a, s')) :
    wp S p s fun r s₁ => s₁ = s ∧ ∀ b, r = .ok b → b = a := fun fs hfs =>
  ⟨hq S s fs hfs, fun b hb => by
    have := hp.sound S s fs hfs b hb
    rw [h, Prod.mk.injEq] at this
    exact (Except.ok.inj this.1).symm⟩

section Finished

/-- Where `p` finishes, it does as `Q` says. -/
def wpOk (S : Fault ε → Prop) (p : Io ε σ α) (s : σ) (Q : α → σ → Prop) : Prop :=
  wp S p s fun r s' => ∀ a, r = .ok a → Q a s'

variable {S : Fault ε → Prop} {s : σ} {Q : α → σ → Prop}

theorem wpOk.pure {a : α} (h : Q a s) : wpOk S (pure a : Io ε σ α) s Q := wp_pure fun _ hb =>
  Except.ok.inj hb ▸ h

theorem wpOk.stop (e : Stop ε) : wpOk S (stop e : Io ε σ α) s Q := wp_stop fun _ h => by cases h

theorem wpOk.any {p : Io ε σ α} : wpOk S p s fun _ _ => True := fun _ _ _ _ => trivial

theorem wpOk.bind {R : β → σ → Prop} {p : Io ε σ β} {f : β → Io ε σ α} (hp : wpOk S p s R)
    (hf : ∀ b s', R b s' → wpOk S (f b) s' Q) : wpOk S (p >>= f) s Q := by
  refine wp_bind (wp_mono hp fun r s' h => ?_)
  rcases r with e | b
  · rintro _ ⟨⟩
  · exact hf b s' (h b rfl)

theorem wpOk.onErr {g : ε → ε} {p : Io ε σ α} (hp : wpOk S p s Q) : wpOk S (onErr g p) s Q := by
  refine wp_onErr (wp_mono hp fun r s' h => ?_)
  rcases r with (e | _) | a
  · rintro _ ⟨⟩
  · rintro _ ⟨⟩
  · exact h

theorem Keeps.wpOk {K : σ → σ → Prop} {p : Io ε σ α} (hp : Keeps K p) :
    wpOk S p s fun _ s' => K s s' := wp_mono (hp S s) fun _ _ h _ _ => h

theorem wpOk.run {p : Io ε σ α} {w w' : World ε σ} {a : α} (hp : wpOk (fun _ => True) p w.state Q)
    (h : p.run w = (.ok a, w')) : Q a w'.state := by
  have := hp w.faults (fun _ _ => trivial) a
  rw [h] at this
  exact this rfl

end Finished

section Willing

/-- A fault that is not the failure of a call. -/
def Unfailing : Fault ε → Prop
  | .fail _ _ => False
  | _ => True

/-- `p` returns no error while no call fails. -/
def Willing (p : Io ε σ α) : Prop := ∀ s, wp Unfailing p s fun r _ => ∀ e, r ≠ .error (.err e)

theorem Willing.pure (a : α) : Willing (pure a : Io ε σ α) := fun _ => wp_pure (by simp)

theorem Willing.query (f : σ → α) : Willing (query fun s => .ok (f s) : Io ε σ α) := fun _ =>
  wp_query (fun _ h => by cases h) (fun _ _ h => h.elim) fun _ _ => by simp

theorem Willing.final (f : σ → σ) : Willing (final f : Io ε σ Unit) := fun s => by
  refine wp_call fun x hx => ?_
  rcases x with _ | n | ⟨n, e⟩ | n
  · simp
  · simp
  · exact (hx.resolve_left (by simp)).elim
  · simp

theorem Willing.bind {p : Io ε σ α} {f : α → Io ε σ β} (hp : Willing p) (hf : ∀ a, Willing (f a)) :
    Willing (p >>= f) := by
  intro s
  refine wp_bind (wp_mono (hp s) fun r s' h => ?_)
  rcases r with (e | _) | a
  · exact absurd rfl (h e)
  · simp
  · exact hf a s'

theorem Willing.onErr {p : Io ε σ α} (g : ε → ε) (hp : Willing p) : Willing (onErr g p) := by
  intro s
  refine wp_onErr (wp_mono (hp s) fun r s' h => ?_)
  rcases r with (e | _) | a
  · exact absurd rfl (h e)
  · simp
  · simp

theorem Willing.zoom {τ : Type} {get : τ → σ} {put : σ → τ → τ} {p : Io ε σ α} (hp : Willing p) :
    Willing (zoom get put p) := fun t => wp_zoom (hp (get t))

end Willing

section AllOrNothing

/-- `p` changes nothing unless it finishes. -/
def AllOrNothing (p : Io ε σ α) : Prop := KeepsUnlessDone (fun s s' => s' = s) p

theorem Quiet.allOrNothing {p : Io ε σ α} (hp : Quiet p) : AllOrNothing p := Keeps.unlessDone hp

theorem AllOrNothing.final (f : σ → σ) : AllOrNothing (final f : Io ε σ Unit) := fun _ _ =>
  wp_final (fun h => absurd rfl (h ())) fun _ _ => rfl

theorem AllOrNothing.modify (f : σ → σ) : AllOrNothing (modify f : Io ε σ Unit) := fun _ _ =>
  wp_modify fun h => absurd rfl (h ())

theorem AllOrNothing.onErr {p : Io ε σ α} (g : ε → ε) (hp : AllOrNothing p) :
    AllOrNothing (onErr g p) := by
  intro S s
  refine wp_onErr (wp_mono (hp S s) fun r s' h => ?_)
  rcases r with (e | _) | a
  · exact fun _ => h (by simp)
  · exact fun _ => h (by simp)
  · exact h

/-- Looking comes first. -/
theorem AllOrNothing.bind {p : Io ε σ α} {f : α → Io ε σ β} (hp : Quiet p)
    (hf : ∀ a, AllOrNothing (f a)) : AllOrNothing (p >>= f) :=
  KeepsUnlessDone.bind (fun _ _ _ h h' => h'.trans h) hp hf

theorem AllOrNothing.zoom {τ : Type} {get : τ → σ} {put : σ → τ → τ} (hput : ∀ t, put (get t) t = t)
    {p : Io ε σ α} (hp : AllOrNothing p) : AllOrNothing (zoom get put p) := by
  intro S t
  refine wp_zoom (wp_mono (hp S (get t)) fun r s' h hr => ?_)
  rw [h hr, hput]

/-- Nothing that can fail comes after. -/
theorem AllOrNothing.bind_pure {p : Io ε σ α} (f : α → β) (hp : AllOrNothing p) :
    AllOrNothing (p >>= fun a => pure (f a)) := by
  intro S s
  refine wp_bind (wp_mono (hp S s) fun r s' h => ?_)
  rcases r with e | a
  · exact fun _ => h (by simp)
  · exact wp_pure fun h => absurd rfl (h _)

theorem AllOrNothing.bind_modify {p : Io ε σ α} (f : α → σ → σ) (hp : AllOrNothing p) :
    AllOrNothing (p >>= fun a => Io.modify (f a)) := by
  intro S s
  refine wp_bind (wp_mono (hp S s) fun r s' h => ?_)
  rcases r with e | a
  · exact fun _ => h (by simp)
  · exact wp_modify fun h => absurd rfl (h ())

/-- A program that is sound and changes nothing unless it finishes. -/
theorem AllOrNothing.wp {p : Io ε σ α} (hp : AllOrNothing p) (hs : Sound p) (S : Fault ε → Prop)
    (s : σ) : wp S p s fun r s' => match r with
      | .ok a => exec p s = (.ok a, s')
      | .error _ => s' = s := by
  intro fs hfs
  have hk := hp S s fs hfs
  have hd := hs S s fs hfs
  rcases hr : (p.run ⟨s, fs⟩).1 with e | a <;> rw [hr] at hk hd
  · exact hk (by simp)
  · exact hd a rfl

/-- How a program that is sound and changes nothing unless it finishes can end. -/
theorem AllOrNothing.run_cases {p : Io ε σ α} (hp : AllOrNothing p) (hs : Sound p) (s : σ)
    (fs : List (Fault ε)) :
    (∃ a fs', p.run ⟨s, fs⟩ = (.ok a, ⟨(exec p s).2, fs'⟩) ∧ (exec p s).1 = .ok a)
      ∨ ∃ e fs', p.run ⟨s, fs⟩ = (.error e, ⟨s, fs'⟩) := by
  have hk := hp (fun _ => True) s fs fun _ _ => trivial
  have hd := hs (fun _ => True) s fs fun _ _ => trivial
  rcases hr : p.run ⟨s, fs⟩ with ⟨e | a, s', fs'⟩ <;> rw [hr] at hk hd
  · have hk : s' = s := hk (by simp)
    exact .inr ⟨e, fs', by rw [hk]⟩
  · have hd : exec p s = (.ok a, s') := hd a rfl
    exact .inl ⟨a, fs', by rw [hd], by rw [hd]⟩

end AllOrNothing

section Calls

/-- `p` calls the environment at most `n` times: each call takes one fault of the schedule. -/
def CallsAtMost (n : ℕ) (p : Io ε σ α) : Prop :=
  ∀ w, w.faults.length ≤ (p.run w).2.faults.length + n

variable {m n : ℕ}

theorem CallsAtMost.mono (h : m ≤ n) {p : Io ε σ α} (hp : CallsAtMost m p) : CallsAtMost n p :=
  fun w => (hp w).trans (Nat.add_le_add_left h _)

theorem CallsAtMost.pure (a : α) : CallsAtMost 0 (pure a : Io ε σ α) := fun _ => le_rfl

theorem CallsAtMost.stop (e : Stop ε) : CallsAtMost 0 (stop e : Io ε σ α) := fun _ => le_rfl

theorem CallsAtMost.call (act : Fault ε → σ → Except (Stop ε) α × σ) :
    CallsAtMost 1 (call act) := fun w => by
  change w.faults.length ≤ w.faults.tail.length + 1
  rw [List.length_tail]
  omega

theorem CallsAtMost.bind {p : Io ε σ α} {f : α → Io ε σ β} (hp : CallsAtMost m p)
    (hf : ∀ a, CallsAtMost n (f a)) : CallsAtMost (m + n) (p >>= f) := fun w => by
  have h := hp w
  rw [run_bind]
  rcases hr : p.run w with ⟨e | a, w'⟩ <;> rw [hr] at h
  · exact h.trans (Nat.add_le_add_left (Nat.le_add_right m n) _)
  · have := hf a w'
    dsimp only at h ⊢
    omega

theorem CallsAtMost.onErr {p : Io ε σ α} (g : ε → ε) (hp : CallsAtMost n p) :
    CallsAtMost n (onErr g p) := fun w => by
  have h := hp w
  rw [run_onErr]
  rcases hr : p.run w with ⟨(e | _) | a, w'⟩ <;> rw [hr] at h <;> exact h

end Calls

end FaultIo

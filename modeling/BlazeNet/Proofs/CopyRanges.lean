import BlazeNet.CompioIo

/-!
# Copying ranges of a file into another

Ranges that lie inside the source are copied one after another (`exec_copyRanges`), and whatever
the faults, nothing but the destination changes (`keeps_copyRanges`).
-/

namespace BlazeNet

open Wire FaultIo Io RustStd

section Context

variable {σ α : Type} {text : String} {p : Io AnyError σ α}

theorem exec_context_ok {s s' : σ} {a : α} (h : exec p s = (.ok a, s')) :
    exec (context text p) s = (.ok a, s') := by
  rw [context, exec_onErr, h]

theorem exec_context_err {s s' : σ} {e : AnyError} (h : exec p s = (.error (.err e), s')) :
    exec (context text p) s = (.error (.err (e.context text)), s') := by
  rw [context, exec_onErr, h]

theorem exec_context_eq_ok {s s' : σ} {a : α} (h : exec (context text p) s = (.ok a, s')) :
    exec p s = (.ok a, s') := by
  rw [context, exec_onErr] at h
  rcases hp : exec p s with ⟨(e | _) | b, s₁⟩ <;> rw [hp] at h
  · cases h
  · cases h
  · exact h

theorem plain_context (hp : Plain p) : Plain (context text p) := hp.onErr _

theorem quiet_context (hp : Quiet p) : Quiet (context text p) := hp.onErr _

end Context

variable {σ : Type} {content : σ → Bytes} {dst : PathRef σ}

section Exec

theorem exec_readExactAtAll {s : σ} {n pos : ℕ} (h : pos + n ≤ (content s).length) :
    exec (readExactAtAll content n pos) s = (.ok (pread (content s) pos n), s) := by
  rw [readExactAtAll, exec_query, if_pos h]
  rfl

theorem exec_writeAllAt (data out : Bytes) (s : σ) :
    exec (writeAllAt dst data out.length) (dst.put (some out) s)
      = (.ok (), dst.put (some (out ++ data)) s) := by
  change (Except.ok (), dst.put (some (pwrite ((dst.content _).getD []) out.length data)) _) = _
  rw [dst.content_put, dst.put_put, Option.getD_some, pwrite_of_le le_rfl, List.take_length,
    List.drop_eq_nil_of_le (Nat.le_add_right _ _), List.append_nil]

theorem length_pread_inside {file : Bytes} {pos n : ℕ} (h : n = 0 ∨ pos + n ≤ file.length) :
    (pread file pos n).length = n := by
  rw [length_pread]
  omega

variable (content dst) (hsep : ∀ b s, content (dst.put b s) = content s)
include hsep

theorem exec_copyRange (s : σ) (n : ℕ) : ∀ (pos : ℕ) (out : Bytes),
    n = 0 ∨ pos + n ≤ (content s).length →
    exec (copyRange content dst n pos out.length) (dst.put (some out) s)
      = (.ok n, dst.put (some (out ++ pread (content s) pos n)) s) := by
  induction n using Nat.strong_induction_on with
  | _ n ih =>
    intro pos out hin
    unfold copyRange
    split_ifs with hn
    · simp [hn]
    have hc := hsep (some out) s
    have hw : 0 < min n copyChunk := by simp only [copyChunk]; omega
    have hlen : (pread (content s) pos (min n copyChunk)).length = min n copyChunk := by
      rw [length_pread]
      omega
    replace hin := hin.resolve_left hn
    have hread : exec (readExactAtAll content (min n copyChunk) pos) (dst.put (some out) s)
        = (.ok (pread (content s) pos (min n copyChunk)), dst.put (some out) s) := by
      rw [exec_readExactAtAll (by rw [hc]; omega), hc]
    have hrest := ih (n - min n copyChunk) (by omega) (pos + min n copyChunk)
      (out ++ pread (content s) pos (min n copyChunk)) (by omega)
    rw [List.length_append, hlen] at hrest
    have hjoin := pread_append (content s) pos (min_le_left n copyChunk)
    rw [hlen] at hjoin
    simp only [exec_bind, exec_context_ok hread, exec_context_ok (exec_writeAllAt _ _ _), hrest,
      exec_pure, List.append_assoc, hjoin]
    rw [Nat.add_sub_cancel' (min_le_left n copyChunk)]

theorem exec_copyAll (s : σ) : ∀ (ranges : List (ℕ × UInt32)) (out : Bytes),
    (∀ r ∈ ranges, r.2.toNat = 0 ∨ r.1 + r.2.toNat ≤ (content s).length) →
    exec (copyAll content dst ranges out.length) (dst.put (some out) s)
      = (.ok (out.length + (ranges.map (·.2.toNat)).sum),
          dst.put (some (out ++ ranges.flatMap fun r => pread (content s) r.1 r.2.toNat)) s)
  | [], out, _ => by simp [copyAll]
  | (start, len) :: ranges, out, hin => by
    have hr := hin _ List.mem_cons_self
    have hlen := length_pread_inside hr
    have ih := exec_copyAll s ranges (out ++ pread (content s) start len.toNat)
      fun r hr => hin r (List.mem_cons_of_mem _ hr)
    rw [List.length_append, hlen] at ih
    simp only [copyAll, exec_bind, exec_copyRange content dst hsep s len.toNat start out hr, ih,
      List.map_cons,
      List.sum_cons, List.flatMap_cons, List.append_assoc, Nat.add_assoc]

/-- A range that is copied lies inside the file, or is empty. -/
theorem copyRange_inside (s : σ) (n : ℕ) : ∀ (pos : ℕ) (out : Bytes) (k : ℕ) (s' : σ),
    exec (copyRange content dst n pos out.length) (dst.put (some out) s) = (.ok k, s') →
      n = 0 ∨ pos + n ≤ (content s).length := by
  induction n using Nat.strong_induction_on with
  | _ n ih =>
    intro pos out k s' h
    unfold copyRange at h
    split_ifs at h with hn
    · exact .inl hn
    right
    have hw : 0 < min n copyChunk := by simp only [copyChunk]; omega
    obtain ⟨data, s₁, hread, h⟩ := exec_bind_ok h
    replace hread := exec_context_eq_ok hread
    rw [readExactAtAll, exec_query, hsep] at hread
    split_ifs at hread with hin
    · obtain ⟨hdata, hs₁⟩ := Prod.mk.inj hread
      subst hs₁
      obtain rfl : pread (content s) pos (min n copyChunk) = data := Except.ok.inj hdata
      obtain ⟨_, s₂, hwrite, h⟩ := exec_bind_ok h
      rw [exec_context_ok (exec_writeAllAt _ _ _)] at hwrite
      obtain rfl := (Prod.mk.inj hwrite).2
      obtain ⟨more, s₃, hmore, -⟩ := exec_bind_ok h
      have hlen : (pread (content s) pos (min n copyChunk)).length = min n copyChunk := by
        rw [length_pread]
        omega
      have hrest := ih (n - min n copyChunk) (by omega) (pos + min n copyChunk)
        (out ++ pread (content s) pos (min n copyChunk)) more s₃
        (by rw [List.length_append, hlen]; exact hmore)
      omega
    · cases hread

theorem copyAll_inside (s : σ) : ∀ (ranges : List (ℕ × UInt32)) (out : Bytes) (k : ℕ) (s' : σ),
    exec (copyAll content dst ranges out.length) (dst.put (some out) s) = (.ok k, s') →
      ∀ r ∈ ranges, r.2.toNat = 0 ∨ r.1 + r.2.toNat ≤ (content s).length
  | [], _, _, _, _ => by simp
  | (start, len) :: ranges, out, k, s', h => by
    obtain ⟨moved, s₁, hmoved, h⟩ := exec_bind_ok h
    have hr := copyRange_inside content dst hsep s _ _ _ _ _ hmoved
    have hcopy := exec_copyRange content dst hsep s len.toNat start out hr
    rw [hcopy] at hmoved
    obtain ⟨hn, rfl⟩ := Prod.mk.inj hmoved
    obtain rfl : len.toNat = moved := Except.ok.inj hn
    have hlen := length_pread_inside hr
    refine List.forall_mem_cons.2 ⟨hr, copyAll_inside s ranges
      (out ++ pread (content s) start len.toNat) k s' ?_⟩
    rw [List.length_append, hlen]
    exact h

end Exec

theorem exec_copyRanges (src : σ → Option Bytes) (dst : PathRef σ) {s : σ} {file : Bytes}
    (hsep : ∀ b s, src (dst.put b s) = src s) (hsrc : src s = some file)
    (ranges : List (ℕ × UInt32))
    (hin : ∀ r ∈ ranges, r.2.toNat = 0 ∨ r.1 + r.2.toNat ≤ file.length) :
    exec (copyRanges src dst ranges) s = (.ok (ranges.map (·.2.toNat)).sum,
      dst.put (some (ranges.flatMap fun r => pread file r.1 r.2.toNat)) s) := by
  have hall := exec_copyAll (fun s => (src s).getD []) dst
    (fun b s => by simp only [hsep]) s ranges [] (by simpa only [hsrc, Option.getD_some] using hin)
  simp only [List.length_nil, Nat.zero_add, List.nil_append, hsrc, Option.getD_some] at hall
  unfold copyRanges
  simp only [exec_bind, context, exec_onErr, exec_query, hsrc, exec_atomic, Except.mapError, hall,
    exec_pure]

/-- A copy that finishes has found every range inside the file. -/
theorem copyRanges_inside {src : σ → Option Bytes} {dst : PathRef σ} {s s' : σ} {file : Bytes}
    (hsep : ∀ b s, src (dst.put b s) = src s) (hsrc : src s = some file)
    {ranges : List (ℕ × UInt32)} {k : ℕ} (h : exec (copyRanges src dst ranges) s = (.ok k, s')) :
    ∀ r ∈ ranges, r.2.toNat = 0 ∨ r.1 + r.2.toNat ≤ file.length := by
  obtain ⟨_, s₁, hopen, h'⟩ := exec_bind_ok h
  rw [context, exec_onErr, exec_query, hsrc] at hopen
  obtain rfl := (Prod.mk.inj hopen).2
  obtain ⟨_, s₂, hcreate, h'⟩ := exec_bind_ok h'
  obtain rfl := (Prod.mk.inj hcreate).2
  obtain ⟨total, s₃, hall, -⟩ := exec_bind_ok h'
  have := copyAll_inside (fun s => (src s).getD []) dst (fun b s => by simp only [hsep]) s ranges []
    total s₃ hall
  simpa only [hsrc, Option.getD_some] using this

/-- A copy that finishes has copied every range. -/
theorem copyRanges_ok {src : σ → Option Bytes} {dst : PathRef σ} {s s' : σ} {file : Bytes}
    (hsep : ∀ b s, src (dst.put b s) = src s) (hsrc : src s = some file)
    {ranges : List (ℕ × UInt32)} {k : ℕ} (h : exec (copyRanges src dst ranges) s = (.ok k, s')) :
    s' = dst.put (some (ranges.flatMap fun r => pread file r.1 r.2.toNat)) s := by
  rw [exec_copyRanges src dst hsep hsrc ranges (copyRanges_inside hsep hsrc h)] at h
  exact (Prod.mk.inj h).2.symm

section Faults

theorem plain_writeAllAt (data : Bytes) (offset : ℕ) : Plain (writeAllAt dst data offset) := by
  refine ⟨Sound.call fun x s a h => ?_, Steady.call fun x s h => ?_⟩
  · rcases x with _ | n | ⟨n, e⟩ | n <;> first | rfl | cases h
  · rcases x with _ | n | ⟨n, e⟩ | n <;> first | rfl | exact h.elim

theorem plain_copyRange (n : ℕ) :
    ∀ pos outOffset, Plain (copyRange content dst n pos outOffset) := by
  induction n using Nat.strong_induction_on with
  | _ n ih =>
    intro pos outOffset
    unfold copyRange
    split_ifs with hn
    · exact .pure _
    · have hw : 0 < min n copyChunk := by simp only [copyChunk]; omega
      exact .bind (plain_context (.query _)) fun _ =>
        .bind (plain_context (plain_writeAllAt _ _)) fun _ =>
          .bind (ih _ (by omega) _ _) fun _ => .pure _

theorem plain_copyAll : ∀ (ranges : List (ℕ × UInt32)) (total : ℕ),
    Plain (copyAll content dst ranges total)
  | [], _ => .pure _
  | (_, _) :: ranges, _ => .bind (plain_copyRange _ _ _) fun _ => plain_copyAll ranges _

theorem plain_copyRanges (src : σ → Option Bytes) (ranges : List (ℕ × UInt32)) :
    Plain (copyRanges src dst ranges) :=
  .bind (plain_context (.query _)) fun _ => .bind (plain_context (.atomic _)) fun _ =>
    .bind (plain_copyAll _ _) fun _ => .bind (plain_context (.query _)) fun _ => .pure _

/-- Ranges that lie inside the source are copied, into another file, with their total as the result,
however the I/O is cut up; otherwise no run returns `Ok`, whatever fails. A run that returns `Ok`
has copied them even if other calls could have failed. -/
theorem copyRanges_exact (src : σ → Option Bytes) (dst : PathRef σ)
    (hsep : ∀ b s, src (dst.put b s) = src s) (s : σ) (file : Bytes) (hsrc : src s = some file)
    (ranges : List (ℕ × UInt32)) :
    ((∀ r ∈ ranges, r.2.toNat ≠ 0 → r.1 + r.2.toNat ≤ file.length) →
        ∀ faults, (∀ f ∈ faults, Benign f) → ∃ w, (copyRanges src dst ranges).run ⟨s, faults⟩
            = (.ok (ranges.map (·.2.toNat)).sum, w)
          ∧ w.state = dst.put (some (ranges.flatMap fun r => pread file r.1 r.2.toNat)) s)
      ∧ ((¬ ∀ r ∈ ranges, r.2.toNat ≠ 0 → r.1 + r.2.toNat ≤ file.length) →
        ∀ faults, ∃ e w, (copyRanges src dst ranges).run ⟨s, faults⟩ = (.error e, w))
      ∧ ∀ faults k w, (copyRanges src dst ranges).run ⟨s, faults⟩ = (.ok k, w) →
        k = (ranges.map (·.2.toNat)).sum
          ∧ w.state = dst.put (some (ranges.flatMap fun r => pread file r.1 r.2.toNat)) s := by
  have hplain : Plain (copyRanges src dst ranges) := plain_copyRanges src ranges
  have hinside : (∀ r ∈ ranges, r.2.toNat ≠ 0 → r.1 + r.2.toNat ≤ file.length)
      ↔ ∀ r ∈ ranges, r.2.toNat = 0 ∨ r.1 + r.2.toNat ≤ file.length := by
    simp only [or_iff_not_imp_left]
  have hfinished : ∀ faults k w, (copyRanges src dst ranges).run ⟨s, faults⟩ = (.ok k, w) →
      exec (copyRanges src dst ranges) s = (.ok k, w.state) := fun faults k w hr => by
    have := hplain.sound (fun _ => True) s faults fun _ _ => trivial
    rw [hr] at this
    exact this k rfl
  refine ⟨fun hin faults hb => ?_, fun hout faults => ?_, fun faults k w hr => ?_⟩
  · have hrun := hplain.steady.run s hb
    rw [exec_copyRanges src dst hsep hsrc ranges (hinside.1 hin), Prod.mk.injEq] at hrun
    exact ⟨_, Prod.ext hrun.1 rfl, hrun.2⟩
  · rcases hr : (copyRanges src dst ranges).run ⟨s, faults⟩ with ⟨e | k, w⟩
    · exact ⟨e, w, rfl⟩
    · exact absurd (hinside.2 (copyRanges_inside hsep hsrc (hfinished faults k w hr))) hout
  · have hexec := hfinished faults k w hr
    rw [exec_copyRanges src dst hsep hsrc ranges (copyRanges_inside hsep hsrc hexec)] at hexec
    obtain ⟨hk, hw⟩ := Prod.mk.inj hexec
    exact ⟨(Except.ok.inj hk).symm, hw.symm⟩

/-- The second of two files. -/
def secondFile : PathRef (Option Bytes × Option Bytes) where
  content s := s.2
  put b s := (s.1, b)
  content_put _ _ := rfl
  put_put _ _ _ := rfl
  put_content _ := rfl

/-- Overlapping and unordered ranges, one of them empty and past the end. -/
theorem copyRanges_exact_overlap : ∃ w,
    (copyRanges Prod.fst secondFile [(3, 2), (1, 3), (9, 0)]).run ⟨(some [5, 6, 7, 8, 9], none), []⟩
        = (.ok 5, w)
      ∧ w.state = (some [5, 6, 7, 8, 9], some [8, 9, 6, 7, 8]) :=
  (copyRanges_exact Prod.fst secondFile (fun _ _ => rfl) (some [5, 6, 7, 8, 9], none)
    [5, 6, 7, 8, 9] rfl [(3, 2), (1, 3), (9, 0)]).1 (by decide) [] (by simp)

/-- Nothing but what lies at `dst` has changed. -/
def OnlyAt (dst : PathRef σ) (s s' : σ) : Prop := ∃ b, s' = dst.put b s

theorem OnlyAt.refl (dst : PathRef σ) (s : σ) : OnlyAt dst s s := ⟨_, (dst.put_content s).symm⟩

theorem OnlyAt.trans (dst : PathRef σ) (a b c : σ) (h : OnlyAt dst a b) (h' : OnlyAt dst b c) :
    OnlyAt dst a c := by
  obtain ⟨x, rfl⟩ := h
  obtain ⟨y, rfl⟩ := h'
  exact ⟨y, dst.put_put _ _ _⟩

theorem keeps_writeAllAt (data : Bytes) (offset : ℕ) :
    Keeps (OnlyAt dst) (writeAllAt dst data offset) := fun _ _ => wp_call fun x _ => by
  rcases x with _ | n | ⟨n, e⟩ | n <;> exact ⟨_, rfl⟩

theorem keeps_copyRange (n : ℕ) :
    ∀ pos outOffset, Keeps (OnlyAt dst) (copyRange content dst n pos outOffset) := by
  induction n using Nat.strong_induction_on with
  | _ n ih =>
    intro pos outOffset
    unfold copyRange
    split_ifs with hn
    · exact (Quiet.pure _).keeps (OnlyAt.refl dst)
    · have hw : 0 < min n copyChunk := by simp only [copyChunk]; omega
      exact .bind (OnlyAt.trans dst) (.onErr _ ((Quiet.query _).keeps (OnlyAt.refl dst))) fun _ =>
        .bind (OnlyAt.trans dst) (.onErr _ (keeps_writeAllAt _ _)) fun _ =>
          .bind (OnlyAt.trans dst) (ih _ (by omega) _ _) fun _ =>
            (Quiet.pure _).keeps (OnlyAt.refl dst)

theorem keeps_copyAll : ∀ (ranges : List (ℕ × UInt32)) (total : ℕ),
    Keeps (OnlyAt dst) (copyAll content dst ranges total)
  | [], _ => (Quiet.pure _).keeps (OnlyAt.refl dst)
  | (_, _) :: ranges, _ =>
    .bind (OnlyAt.trans dst) (keeps_copyRange _ _ _) fun _ => keeps_copyAll ranges _

theorem keeps_copyRanges (src : σ → Option Bytes) (ranges : List (ℕ × UInt32)) :
    Keeps (OnlyAt dst) (copyRanges src dst ranges) := by
  have hcreate : Keeps (OnlyAt dst)
      (atomic fun s => (.ok (), dst.put (some []) s) : Io AnyError σ Unit) := by
    refine fun S s => wp_atomic ⟨_, rfl⟩ (fun _ _ _ => OnlyAt.refl dst s) fun n _ => ?_
    split_ifs
    · exact ⟨_, rfl⟩
    · exact OnlyAt.refl dst s
  exact .bind (OnlyAt.trans dst) (.onErr _ ((Quiet.query _).keeps (OnlyAt.refl dst))) fun _ =>
    .bind (OnlyAt.trans dst) (.onErr _ hcreate) fun _ =>
      .bind (OnlyAt.trans dst) (keeps_copyAll _ _) fun _ =>
        .bind (OnlyAt.trans dst) (.onErr _ ((Quiet.query _).keeps (OnlyAt.refl dst))) fun _ =>
          (Quiet.pure _).keeps (OnlyAt.refl dst)

end Faults

end BlazeNet

import BlazeNet.Lib.FaultIo
import BlazeNet.Lib.RustStd

/-!
# Transfers of a whole buffer

One positional read or write may move only part of the buffer; the loops call it again until the
buffer is done. What they guarantee does not depend on how the environment cuts the transfer up.
-/

namespace FaultIo

open Io RustStd

variable {ε σ α : Type}

/-- An open file inside the state. -/
structure FileRef (σ : Type) where
  content : σ → FileBytes
  put : FileBytes → σ → σ
  content_put : ∀ b s, content (put b s) = b
  put_put : ∀ b b' s, put b (put b' s) = put b s
  put_content : ∀ s, put (content s) s = s

section Calls

/-- One positional read of at most `n` bytes. -/
def readAt (content : σ → FileBytes) (n offset : ℕ) : Io ε σ FileBytes := call fun fault s =>
  match fault with
  | .none => (.ok (pread (content s) offset n), s)
  | .short k => (.ok (pread (content s) offset (min k n)), s)
  | .fail _ e => (.error (.err e), s)
  | .kill _ => (.error .killed, s)

/-- One positional write; the number of bytes it moved. -/
def writeAt (ref : FileRef σ) (buf : FileBytes) (offset : ℕ) : Io ε σ ℕ := call fun fault s =>
  match fault with
  | .none => (.ok buf.length, ref.put (pwrite (ref.content s) offset buf) s)
  | .short k => (.ok (min k buf.length), ref.put (pwrite (ref.content s) offset (buf.take k)) s)
  | .fail _ e => (.error (.err e), s)
  | .kill k => (.error .killed, ref.put (pwrite (ref.content s) offset (buf.take k)) s)

/-- Reads until `n` bytes are there, or a read finds nothing. -/
def readLoop (read : ℕ → ℕ → Io ε σ FileBytes) (eof : ε) (n offset : ℕ) : Io ε σ FileBytes :=
  if n = 0 then pure []
  else read n offset >>= fun got =>
    if got.length = 0 then stop (.err eof)
    else readLoop read eof (n - got.length) (offset + got.length) >>= fun rest =>
      pure (got ++ rest)
termination_by n

/-- Writes until nothing is left of the buffer, or a write moves nothing. -/
def writeLoop (write : FileBytes → ℕ → Io ε σ ℕ) (zero : ε) (buf : FileBytes) (offset : ℕ) :
    Io ε σ Unit :=
  if buf.length = 0 then pure ()
  else write buf offset >>= fun n =>
    if n = 0 then stop (.err zero)
    else writeLoop write zero (buf.drop n) (offset + n)
termination_by buf.length
decreasing_by simp only [List.length_drop]; omega

end Calls

section Read

variable (content : σ → FileBytes) (eof : ε)

/-- A read that leaves the file as it is and, unless it fails, finds the first bytes of what it is
asked for: all of them, some or none. -/
def Reads (read : ℕ → ℕ → Io ε σ FileBytes) : Prop := ∀ S s n offset,
  wp S (read n offset) s fun r s' => content s' = content s
    ∧ ∀ got, r = .ok got → ∃ k ≤ n, got = pread (content s) offset k

theorem reads_readAt : Reads content (readAt content : ℕ → ℕ → Io ε σ FileBytes) := by
  refine fun S s n offset => wp_call fun f _ => ?_
  rcases f with _ | k | ⟨k, e⟩ | k
  · exact ⟨rfl, fun got h => ⟨n, le_rfl, (Except.ok.inj h).symm⟩⟩
  · exact ⟨rfl, fun got h => ⟨min k n, min_le_right _ _, (Except.ok.inj h).symm⟩⟩
  · exact ⟨rfl, fun _ h => by cases h⟩
  · exact ⟨rfl, fun _ h => by cases h⟩

theorem quiet_readAt (n offset : ℕ) : Quiet (readAt content n offset : Io ε σ FileBytes) :=
  fun _ _ => wp_call fun f _ => by rcases f with _ | k | ⟨k, e⟩ | k <;> rfl

theorem Reads.onErr {content : σ → FileBytes} {read : ℕ → ℕ → Io ε σ FileBytes}
    (h : Reads content read) (g : ε → ε) : Reads content fun n o => onErr g (read n o) := by
  refine fun S s n offset => wp_onErr (wp_mono (h S s n offset) fun r s' h => ?_)
  rcases r with (e | _) | got
  · exact ⟨h.1, by simp⟩
  · exact h
  · exact h

/-- A finished read loop holds the bytes of the file, all of them, and changed nothing of it. -/
theorem wp_readLoop_of {content : σ → FileBytes} {read : ℕ → ℕ → Io ε σ FileBytes}
    (hread : Reads content read) (S : Fault ε → Prop) (n : ℕ) : ∀ s offset,
    wp S (readLoop read eof n offset) s fun r s' => content s' = content s ∧ ∀ got, r = .ok got →
      got = pread (content s) offset n ∧ offset + n ≤ max offset (content s).length := by
  induction n using Nat.strong_induction_on with
  | _ n ih =>
    intro s offset
    unfold readLoop
    split_ifs with hn
    · refine wp_pure ⟨rfl, ?_⟩
      rintro got ⟨⟩
      simp [hn]
    refine wp_bind (wp_mono (hread S s n offset) fun r s' h => ?_)
    obtain ⟨hs, hr⟩ := h
    rcases r with e | got
    · exact ⟨hs, by simp⟩
    obtain ⟨k, hk, rfl⟩ := hr got rfl
    have hlen := length_pread (content s) offset k
    dsimp only
    split_ifs with hg
    · exact wp_stop ⟨hs, by simp⟩
    -- what is left starts where the bytes already read end
    refine wp_bind (wp_mono (ih _ (by omega) s' _) fun r s'' h => ?_)
    rw [hs] at h
    rcases r with e | rest
    · exact ⟨h.1, by simp⟩
    obtain ⟨rfl, hend⟩ := h.2 rest rfl
    refine wp_pure ⟨h.1, ?_⟩
    rintro all ⟨⟩
    exact ⟨pread_append _ _ hk, by omega⟩

theorem quiet_readLoop {read : ℕ → ℕ → Io ε σ FileBytes} (hread : ∀ n offset, Quiet (read n offset))
    (n offset : ℕ) : Quiet (readLoop read eof n offset) := by
  induction n using Nat.strong_induction_on generalizing offset with
  | _ n ih =>
    unfold readLoop
    split_ifs with hn
    · exact Quiet.pure _
    refine Quiet.bind (hread n offset) fun got => ?_
    split_ifs with hg
    · exact Quiet.stop _
    · exact Quiet.bind (ih _ (by omega) _) fun _ => Quiet.pure _

theorem wp_readLoop (S : Fault ε → Prop) (s : σ) (n offset : ℕ) :
    wp S (readLoop (readAt content) eof n offset) s fun r s' => s' = s ∧ ∀ got, r = .ok got →
      got = pread (content s) offset n ∧ offset + n ≤ max offset (content s).length := by
  have hquiet : Quiet (readLoop (readAt content) eof n offset) :=
    quiet_readLoop eof (quiet_readAt content) n offset
  exact wp_mono (wp_and (hquiet S s) (wp_readLoop_of eof (reads_readAt content) S n s offset))
    fun r s' h => ⟨h.1, h.2.2⟩

theorem callsAtMost_readLoop {read : ℕ → ℕ → Io ε σ FileBytes} {k : ℕ}
    (hread : ∀ n offset, CallsAtMost k (read n offset)) (n offset : ℕ) :
    CallsAtMost (k * n) (readLoop read eof n offset) := by
  induction n using Nat.strong_induction_on generalizing offset with
  | _ n ih =>
    unfold readLoop
    split_ifs with hn
    · exact .mono (Nat.zero_le _) (.pure _)
    have hsplit : k + k * (n - 1) = k * n := by
      rw [Nat.add_comm, ← Nat.mul_succ, Nat.succ_eq_add_one, Nat.sub_add_cancel (by omega)]
    refine hsplit ▸ (hread n offset).bind fun got => ?_
    split_ifs with hg
    · exact .mono (Nat.zero_le _) (.stop _)
    · exact .mono (Nat.mul_le_mul_left k (by omega))
        (.bind (ih (n - got.length) (by omega) _) fun _ => .pure _)

/-- Without faults a read loop reads what is asked for, or meets the end of the file. -/
theorem exec_readLoop_of {read : ℕ → ℕ → Io ε σ FileBytes} {s : σ} {file : FileBytes}
    (hread : ∀ n offset, exec (read n offset) s = (.ok (pread file offset n), s)) (n offset : ℕ) :
    exec (readLoop read eof n offset) s
      = (if offset + n ≤ max offset file.length then .ok (pread file offset n)
        else .error (.err eof), s) := by
  induction n using Nat.strong_induction_on generalizing offset with
  | _ n ih =>
    unfold readLoop
    split_ifs with hn hend hend
    · simp [hn]
    · omega
    all_goals
      rw [exec_bind, hread]
      have hlen := length_pread file offset n
    · have hfull : (pread file offset n).length = n := by omega
      simp only [hfull]
      rw [if_neg (by omega), exec_bind, Nat.sub_self, ih 0 (by omega)]
      simp
    · simp only
      split_ifs with hg
      · rfl
      · rw [exec_bind, ih _ (by omega), if_neg (by omega)]

theorem exec_readLoop (s : σ) (n offset : ℕ) : exec (readLoop (readAt content) eof n offset) s
    = (if offset + n ≤ max offset (content s).length then .ok (pread (content s) offset n)
        else .error (.err eof), s) :=
  exec_readLoop_of eof (fun _ _ => rfl) n offset

theorem readLoop_sound (n offset : ℕ) :
    Sound (readLoop (readAt content) eof n offset : Io ε σ FileBytes) := by
  intro S s
  refine wp_mono (wp_readLoop content eof S s n offset) fun r s' h => ?_
  obtain ⟨rfl, h⟩ := h
  rintro got rfl
  obtain ⟨rfl, hend⟩ := h got rfl
  rw [exec_readLoop, if_pos hend]

theorem readLoop_steady (n offset : ℕ) :
    Steady (readLoop (readAt content) eof n offset : Io ε σ FileBytes) := by
  intro s
  induction n using Nat.strong_induction_on generalizing offset with
  | _ n ih =>
    by_cases hn : n = 0
    · unfold readLoop
      simp only [hn, if_true]
      exact wp_pure rfl
    rw [exec_readLoop]
    unfold readLoop
    rw [if_neg hn]
    refine wp_bind (wp_call fun f hf => ?_)
    have main : ∀ k, 0 < k → k ≤ n →
        wp Benign (if (pread (content s) offset k).length = 0 then stop (.err eof)
          else readLoop (readAt content) eof (n - (pread (content s) offset k).length)
            (offset + (pread (content s) offset k).length) >>= fun rest =>
            pure (pread (content s) offset k ++ rest)) s fun r s' => (r, s')
          = (if offset + n ≤ max offset (content s).length then .ok (pread (content s) offset n)
              else .error (.err eof), s) := by
      intro k hk hkn
      have hlen := length_pread (content s) offset k
      split_ifs with hg hend hend
      · omega
      · exact wp_stop rfl
      all_goals
        refine wp_bind (wp_mono (ih _ (by omega) _) fun r s' h => ?_)
        rw [exec_readLoop] at h
        simp only [Prod.mk.injEq] at h
        obtain ⟨rfl, hs⟩ := h
      · rw [if_pos (by omega)]
        exact wp_pure (by rw [pread_append _ _ hkn, hs])
      · rw [if_neg (by omega)]
        simp [hs]
    rcases f with _ | k | ⟨k, e⟩ | k
    · exact main n (by omega) le_rfl
    · simp only [reduceCtorEq, Benign, false_or] at hf
      exact main (min k n) (by omega) (by omega)
    · simp [Benign] at hf
    · simp [Benign] at hf

theorem readLoop_plain (n offset : ℕ) :
    Plain (readLoop (readAt content) eof n offset : Io ε σ FileBytes) :=
  ⟨readLoop_sound content eof n offset, readLoop_steady content eof n offset⟩

end Read

section Write

variable (ref : FileRef σ) (zero : ε)

/-- A write that puts the first bytes of what it is given into the file: all of them, some or none;
unless it fails it says how many. -/
def Writes (content : σ → FileBytes) (write : FileBytes → ℕ → Io ε σ ℕ) : Prop :=
  ∀ S s buf offset, wp S (write buf offset) s fun r s' => ∃ k ≤ buf.length,
    content s' = pwrite (content s) offset (buf.take k) ∧ ∀ n, r = .ok n → n = k

theorem writes_writeAt : Writes ref.content (writeAt ref : FileBytes → ℕ → Io ε σ ℕ) := by
  refine fun S s buf offset => wp_call fun f _ => ?_
  have hcut : ∀ k, buf.take (min k buf.length) = buf.take k := fun k => by
    rw [← List.take_take, List.take_length]
  rcases f with _ | k | ⟨k, e⟩ | k
  · refine ⟨buf.length, le_rfl, ?_, fun n h => (Except.ok.inj h).symm⟩
    rw [List.take_length]
    exact ref.content_put _ s
  · exact ⟨min k buf.length, min_le_right _ _, by rw [hcut]; exact ref.content_put _ s,
      fun n h => (Except.ok.inj h).symm⟩
  · exact ⟨0, Nat.zero_le _, by simp, fun _ h => by cases h⟩
  · exact ⟨min k buf.length, min_le_right _ _, by rw [hcut]; exact ref.content_put _ s,
      fun _ h => by cases h⟩

/-- A write loop stops with a prefix of its buffer written where it was asked to, and the whole
buffer if it finished. -/
theorem wp_writeLoop_of {content : σ → FileBytes} {write : FileBytes → ℕ → Io ε σ ℕ}
    (hwrite : Writes content write) (S : Fault ε → Prop) (n : ℕ) :
    ∀ (s : σ) (buf : FileBytes) (offset : ℕ), buf.length = n →
    wp S (writeLoop write zero buf offset) s fun r s' => ∃ k,
      content s' = pwrite (content s) offset (buf.take k) ∧ (r = .ok () → buf.length ≤ k) := by
  induction n using Nat.strong_induction_on with
  | _ n ih =>
    intro s buf offset hlen
    unfold writeLoop
    split_ifs with hb
    · exact wp_pure ⟨0, by simp, by simp [hb]⟩
    refine wp_bind (wp_mono (hwrite S s buf offset) fun r s' h => ?_)
    obtain ⟨k, hk, hs, hr⟩ := h
    rcases r with e | moved
    · exact ⟨k, hs, by simp⟩
    obtain rfl := hr moved rfl
    dsimp only
    split_ifs with hz
    · exact wp_stop ⟨moved, hs, by simp⟩
    -- what is left goes where the part already written ends
    have htake : (buf.take moved).length = moved := by simp [hk]
    have hdrop : (buf.drop moved).length = buf.length - moved := List.length_drop
    refine wp_mono (ih _ (by omega) s' _ _ hdrop) fun r s'' h => ?_
    obtain ⟨j, hs', hj⟩ := h
    refine ⟨moved + j, ?_, fun hr => by have := hj hr; omega⟩
    have hjoin : pwrite (pwrite (content s) offset (buf.take moved))
      (offset + (buf.take moved).length)
        ((buf.drop moved).take j)
        = pwrite (content s) offset (buf.take moved ++ (buf.drop moved).take j) := pwrite_pwrite
    rw [htake] at hjoin
    rw [hs', hs, hjoin, List.take_add]

theorem keeps_writeLoop {K : σ → σ → Prop} (hrefl : ∀ s, K s s)
    (htrans : ∀ a b c, K a b → K b c → K a c) {write : FileBytes → ℕ → Io ε σ ℕ}
    (hwrite : ∀ buf offset, Keeps K (write buf offset)) (buf : FileBytes) (offset : ℕ) :
    Keeps K (writeLoop write zero buf offset) := by
  generalize hn : buf.length = n
  induction n using Nat.strong_induction_on generalizing buf offset with
  | _ n ih =>
    unfold writeLoop
    split_ifs with hb
    · exact (Quiet.pure _).keeps hrefl
    refine .bind htrans (hwrite buf offset) fun moved => ?_
    split_ifs with hz
    · exact (Quiet.stop _).keeps hrefl
    · exact ih _ (by rw [← hn]; omega) _ _ List.length_drop

theorem keeps_writeAt (buf : FileBytes) (offset : ℕ) :
    Keeps (fun s s' => s' = ref.put (ref.content s') s) (writeAt ref buf offset : Io ε σ ℕ) := by
  refine fun S s => wp_call fun f _ => ?_
  rcases f with _ | k | ⟨k, e⟩ | k
  all_goals simp only [ref.content_put, ref.put_content]

theorem wp_writeLoop (S : Fault ε → Prop) (n : ℕ) (s : σ) (buf : FileBytes) (offset : ℕ)
    (hn : buf.length = n) :
    wp S (writeLoop (writeAt ref) zero buf offset) s fun r s' => ∃ k,
      s' = ref.put (pwrite (ref.content s) offset (buf.take k)) s
        ∧ (r = .ok () → buf.length ≤ k) := by
  have hkeeps := keeps_writeLoop zero (fun s => (ref.put_content s).symm)
    (fun a b c (hab : b = _) (hbc : c = _) => by rw [hbc, hab, ref.put_put, ref.content_put])
    (keeps_writeAt ref) buf offset S s
  refine wp_mono (wp_and hkeeps (wp_writeLoop_of zero (writes_writeAt ref) S n s buf offset hn))
    fun r s' h => ?_
  obtain ⟨hs, k, hc, hk⟩ := h
  exact ⟨k, by rw [← hc]; exact hs, hk⟩

theorem callsAtMost_writeLoop {write : FileBytes → ℕ → Io ε σ ℕ} {k : ℕ}
    (hwrite : ∀ buf offset, CallsAtMost k (write buf offset)) (buf : FileBytes) (offset : ℕ) :
    CallsAtMost (k * buf.length) (writeLoop write zero buf offset) := by
  generalize hn : buf.length = n
  induction n using Nat.strong_induction_on generalizing buf offset with
  | _ n ih =>
    unfold writeLoop
    split_ifs with hb
    · exact .mono (Nat.zero_le _) (.pure _)
    have hsplit : k + k * (n - 1) = k * n := by
      rw [Nat.add_comm, ← Nat.mul_succ, Nat.succ_eq_add_one, Nat.sub_add_cancel (by omega)]
    refine hsplit ▸ (hwrite buf offset).bind fun moved => ?_
    split_ifs with hz
    · exact .mono (Nat.zero_le _) (.stop _)
    · have hdrop : (buf.drop moved).length = n - moved := by rw [List.length_drop, hn]
      exact .mono (Nat.mul_le_mul_left k (by omega)) (ih (n - moved) (by omega) _ _ hdrop)

theorem exec_writeLoop (s : σ) (buf : FileBytes) (offset : ℕ) :
    exec (writeLoop (writeAt ref) zero buf offset) s
      = (.ok (), ref.put (pwrite (ref.content s) offset buf) s) := by
  unfold writeLoop
  split_ifs with hb
  · rw [List.length_eq_zero_iff.1 hb]
    simp [ref.put_content]
  rw [exec_bind]
  have hcall : exec (writeAt ref buf offset : Io ε σ ℕ) s
      = (.ok buf.length, ref.put (pwrite (ref.content s) offset buf) s) := rfl
  simp only [hcall, hb, if_false, List.drop_length]
  unfold writeLoop
  simp

theorem writeLoop_sound (buf : FileBytes) (offset : ℕ) :
    Sound (writeLoop (writeAt ref) zero buf offset : Io ε σ Unit) := by
  intro S s
  refine wp_mono (wp_writeLoop ref zero S _ s buf offset rfl) fun r s' h => ?_
  obtain ⟨k, rfl, hk⟩ := h
  rintro ⟨⟩ rfl
  rw [exec_writeLoop, List.take_of_length_le (hk rfl)]

theorem writeLoop_steady (buf : FileBytes) (offset : ℕ) :
    Steady (writeLoop (writeAt ref) zero buf offset : Io ε σ Unit) := by
  intro s
  generalize hn : buf.length = n
  induction n using Nat.strong_induction_on generalizing s buf offset with
  | _ n ih =>
    rw [exec_writeLoop]
    unfold writeLoop
    split_ifs with hb
    · rw [List.length_eq_zero_iff.1 hb]
      exact wp_pure (by simp [ref.put_content])
    refine wp_bind (wp_call fun f hf => ?_)
    have main : ∀ k, 0 < k → wp Benign (if min k buf.length = 0 then stop (.err zero)
          else writeLoop (writeAt ref) zero (buf.drop (min k buf.length))
            (offset + min k buf.length))
          (ref.put (pwrite (ref.content s) offset (buf.take k)) s) fun r s' =>
            (r, s') = (.ok (), ref.put (pwrite (ref.content s) offset buf) s) := by
      intro k hk0
      rw [if_neg (by omega)]
      have hk : (buf.take k).length = min k buf.length := by simp
      have hdrop : (buf.drop (min k buf.length)).length = buf.length - min k buf.length := by simp
      refine wp_mono (ih _ (by omega) _ _ _ hdrop) fun r s' h => ?_
      rw [h, exec_writeLoop, ref.put_put, ref.content_put, ← hk, pwrite_pwrite]
      congr 3
      rcases le_total k buf.length with h | h
      · rw [hk, Nat.min_eq_left h, List.take_append_drop]
      · simp [List.take_of_length_le h]
    rcases f with _ | k | ⟨k, e⟩ | k
    · have := main buf.length (by omega)
      simpa using this
    · exact main k (by simpa [Benign] using hf)
    · simp [Benign] at hf
    · simp [Benign] at hf

theorem writeLoop_plain (buf : FileBytes) (offset : ℕ) :
    Plain (writeLoop (writeAt ref) zero buf offset : Io ε σ Unit) :=
  ⟨writeLoop_sound ref zero buf offset, writeLoop_steady ref zero buf offset⟩

end Write

end FaultIo

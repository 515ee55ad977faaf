import BlazeNet.Proofs.UpdateFrame

/-!
# Whole transfers out of partial ones

The loops of the stores read and write a buffer by calls that may move any part of it. Whatever the
calls do, a loop makes at most one of them for each byte, and it returns `Ok` only when the whole
buffer has been moved.
-/

namespace BlazeNet

open Wire FaultIo Io RustStd UnixFs

section Spec

variable {σ : Type} (content : σ → Bytes) (calls : ℕ)

/-- `p` reads `n` bytes at `offset`: it calls the environment at most `calls` times, and if it
returns `Ok` it has all the bytes the file has there and has left the file as it was. -/
structure ReadsExactly (n offset : ℕ) (p : Io AnyError σ Bytes) : Prop where
  calls : CallsAtMost calls p
  ok : ∀ s faults got w, p.run ⟨s, faults⟩ = (.ok got, w) →
    got.length = n ∧ pread (content s) offset n = got ∧ content w.state = content s

/-- `p` writes `buf` at `offset`: if it returns `Ok` the file has all of it there, and reads as
before everywhere else, with zeros past its end. -/
structure WritesExactly (buf : Bytes) (offset : ℕ) (p : Io AnyError σ Unit) : Prop where
  calls : CallsAtMost calls p
  ok : ∀ s faults w, p.run ⟨s, faults⟩ = (.ok (), w) →
    pread (content w.state) offset buf.length = buf
      ∧ ∀ i, i < offset ∨ offset + buf.length ≤ i →
        (content w.state)[i]?.getD 0 = (content s)[i]?.getD 0
  length : ∀ s faults w, p.run ⟨s, faults⟩ = (.ok (), w) →
    (content w.state).length
      = if buf = [] then (content s).length else max (content s).length (offset + buf.length)

end Spec

section Loops

variable {σ : Type} {content : σ → Bytes} {k : ℕ}

theorem readsExactly_readLoop {read : ℕ → ℕ → Io AnyError σ Bytes} (eof : AnyError)
    (hread : Reads content read) (hcalls : ∀ n offset, CallsAtMost k (read n offset))
    (n offset : ℕ) : ReadsExactly content (k * n) n offset (readLoop read eof n offset) where
  calls := callsAtMost_readLoop eof hcalls n offset
  ok s faults got w hrun := by
    have h := wp_readLoop_of eof hread (fun _ => True) n s offset faults fun _ _ => trivial
    rw [hrun] at h
    obtain ⟨rfl, hend⟩ := h.2 got rfl
    refine ⟨?_, rfl, h.1⟩
    rw [length_pread]
    omega

theorem writesExactly_writeLoop {write : Bytes → ℕ → Io AnyError σ ℕ} (zero : AnyError)
    (hwrite : Writes content write) (hcalls : ∀ buf offset, CallsAtMost k (write buf offset))
    (buf : Bytes) (offset : ℕ) :
    WritesExactly content (k * buf.length) buf offset (writeLoop write zero buf offset) := by
  have hplaced : ∀ s faults w, (writeLoop write zero buf offset).run ⟨s, faults⟩ = (.ok (), w) →
      content w.state = pwrite (content s) offset buf := by
    intro s faults w hrun
    have h := wp_writeLoop_of zero hwrite (fun _ => True) _ s buf offset rfl faults
      fun _ _ => trivial
    rw [hrun] at h
    obtain ⟨j, hs, hj⟩ := h
    rwa [List.take_of_length_le (hj rfl)] at hs
  refine ⟨callsAtMost_writeLoop zero hcalls buf offset, fun s faults w hrun => ?_,
    fun s faults w hrun => ?_⟩ <;> rw [hplaced s faults w hrun]
  · exact ⟨pread_pwrite_self, fun i hi => getD_pwrite_outside hi⟩
  · split_ifs with hbuf
    · rw [hbuf, pwrite_nil]
    · exact length_pwrite_of_ne hbuf

theorem callsAtMost_readAt (n offset : ℕ) :
    CallsAtMost 1 (readAt content n offset : Io AnyError σ Bytes) := .call _

theorem reads_readFrom (file : Place) :
    Reads (fun d : Disk => (d.content file).getD []) (readFrom file : ℕ → ℕ → FsIo Bytes) := by
  refine fun S d n offset => wp_call fun fault _ => ?_
  rcases hnode : d.node file with _ | c | _
  · exact ⟨rfl, fun _ h => by cases h⟩
  · have hc : (d.content file).getD [] = c := by simp [Disk.content, hnode]
    dsimp only
    rw [hc]
    rcases fault with _ | j | ⟨j, e⟩ | j
    · exact ⟨hc, fun got h => ⟨n, le_rfl, (Except.ok.inj h).symm⟩⟩
    · exact ⟨hc, fun got h => ⟨min j n, min_le_right _ _, (Except.ok.inj h).symm⟩⟩
    · exact ⟨hc, fun _ h => by cases h⟩
    · exact ⟨hc, fun _ h => by cases h⟩
  · exact ⟨rfl, fun _ h => by cases h⟩

end Loops

theorem writeExactAt_eq (buf : Bytes) (offset : ℕ) : GameStore.writeExactAt buf offset
    = GameStore.writeExactAtImpl (writeAt GameStore.packFileRef) buf offset := rfl

/-- However the calls cut the transfer up or fail, the loops end after at most one call for each
byte and return `Ok` only after a whole transfer. -/
theorem transfers_exact :
    (∀ n offset, ReadsExactly GameStore.packFileRef.content n n offset
        (GameStore.readExactAt n offset))
      ∧ (∀ (σ : Type) (content : σ → Bytes) (write : Bytes → ℕ → Io AnyError σ ℕ),
        Writes content write → ∀ k, (∀ buf offset, CallsAtMost k (write buf offset)) →
          ∀ buf offset, WritesExactly content (k * buf.length) buf offset
            (GameStore.writeExactAtImpl write buf offset))
      ∧ ∀ (file : Place) (offset : ℕ) (len : UInt32),
        ReadsExactly (fun d => (d.content file).getD []) len.toNat len.toNat offset
          (readChunkAt file offset len) := by
  refine ⟨fun n offset => ?_, fun σ content write hwrite k hcalls buf offset => ?_,
    fun file offset len => ?_⟩
  · have := readsExactly_readLoop (.msg "读取块数据遇到文件末尾")
      (reads_readAt GameStore.packFileRef.content) callsAtMost_readAt n offset
    rwa [Nat.one_mul] at this
  · exact writesExactly_writeLoop _ hwrite hcalls buf offset
  · have := readsExactly_readLoop (.msg "读取块遇到文件末尾")
      ((reads_readFrom file).onErr fun e => e.context "读取块失败")
      (fun n o => CallsAtMost.onErr _ (.call _)) len.toNat offset
    rwa [Nat.one_mul] at this

/-- A write that moves one byte a call. -/
def writeOne (buf : Bytes) (offset : ℕ) : Io AnyError Bytes ℕ :=
  call fun _ file => (.ok (min 1 buf.length), pwrite file offset (buf.take 1))

theorem writes_writeOne : Writes id writeOne := by
  refine fun S s buf offset => wp_call fun _ _ => ⟨min 1 buf.length, min_le_right _ _, ?_,
    fun n h => (Except.ok.inj h).symm⟩
  rw [← List.take_take, List.take_length]
  rfl

theorem transfers_exact_one :
    WritesExactly id 3 [1, 2, 3] 5 (GameStore.writeExactAtImpl writeOne [1, 2, 3] 5) :=
  transfers_exact.2.1 Bytes id writeOne writes_writeOne 1 (fun _ _ => .call _) [1, 2, 3] 5

end BlazeNet

import BlazeNet.Manifest
import BlazeNet.Lib.Transfer

/-!
# Sequential I/O in large blocks

`copy_ranges` of the crate `blaze-common`, which the compaction of a block store rewrites its pack
with. The runtime's own `read_exact_at` and `write_all_at` are taken as their documentation has
them: a read fills the buffer, or fails with `UnexpectedEof` where the file ends before that; a
write attempts the whole buffer, past the end of the file too, and may fail with a part of it
written.
-/

namespace BlazeNet

open Wire FaultIo Io RustStd

variable {σ : Type}

/-- A path inside the state, where there may be no file. -/
structure PathRef (σ : Type) where
  content : σ → Option Bytes
  put : Option Bytes → σ → σ
  content_put : ∀ b s, content (put b s) = b
  put_put : ∀ b b' s, put b (put b' s) = put b s
  put_content : ∀ s, put (content s) s = s

def copyChunk : ℕ := 1024 * 1024

def context {α : Type} (text : String) : Io AnyError σ α → Io AnyError σ α :=
  onErr (.context text)

/-- `read_exact_at` of the runtime: the whole range or an error. -/
def readExactAtAll (content : σ → Bytes) (n pos : ℕ) : Io AnyError σ Bytes := query fun s =>
  if pos + n ≤ (content s).length then .ok (pread (content s) pos n) else .error unexpectedEof

/-- `write_all_at` of the runtime; a failure may leave a part of the data written. -/
def writeAllAt (dst : PathRef σ) (data : Bytes) (offset : ℕ) : Io AnyError σ Unit :=
  call fun fault s =>
    let written (part : Bytes) := dst.put (some (pwrite ((dst.content s).getD []) offset part)) s
    match fault with
    | .fail n e => (.error (.err e), written (data.take n))
    | .kill n => (.error .killed, written (data.take n))
    | _ => (.ok (), written data)

/-- The inner loop: one range, in units of `COPY_CHUNK`. Returns the bytes moved. -/
def copyRange (content : σ → Bytes) (dst : PathRef σ) (remaining pos outOffset : ℕ) :
    Io AnyError σ ℕ :=
  if remaining = 0 then pure 0
  else do
    let want := min remaining copyChunk
    let data ← context "读取源块失败" (readExactAtAll content want pos)
    context "写入目标块失败" (writeAllAt dst data outOffset)
    let more ← copyRange content dst (remaining - want) (pos + want) (outOffset + want)
    pure (want + more)
termination_by remaining
decreasing_by simp only [copyChunk]; omega

def copyAll (content : σ → Bytes) (dst : PathRef σ) :
    List (ℕ × UInt32) → ℕ → Io AnyError σ ℕ
  | [], total => pure total
  | (start, len) :: ranges, total => do
    let moved ← copyRange content dst len.toNat start total
    copyAll content dst ranges (total + moved)

def copyRanges (src : σ → Option Bytes) (dst : PathRef σ) (ranges : List (ℕ × UInt32)) :
    Io AnyError σ ℕ := do
  context "打开源文件失败" (query fun s =>
    match src s with
    | some _ => .ok ()
    | none => .error (.msg "No such file or directory"))
  context "创建目标文件失败" (atomic fun s => (.ok (), dst.put (some []) s))
  let total ← copyAll (fun s => (src s).getD []) dst ranges 0
  context "同步目标文件失败" (query fun _ => .ok ())
  pure total

end BlazeNet

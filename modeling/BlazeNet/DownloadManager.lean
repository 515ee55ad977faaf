import BlazeNet.Download

/-!
# The download manager

`download.rs` of the crate `agent`: the chunks that wait for a download, and those that each peer
has been given. A peer that fails gives its chunks back, so that they can be given out again.
-/

namespace BlazeNet

open RustStd

structure DownloadManager where
  pending : HashSet Hash
  assigned : HashMap ℕ (List Hash)

namespace DownloadManager

def new (chunks : List Hash) : DownloadManager := ⟨.collect chunks, .empty⟩

/-- The loop of `assign` over the sorted chunks, the first of which has the given index. -/
def deal (peerCount : ℕ) : ℕ → List Hash → HashMap ℕ (List Hash) → HashMap ℕ (List Hash)
  | _, [], plan => plan
  | index, hash :: sorted, plan =>
    deal peerCount (index + 1) sorted (plan.push (index % peerCount) hash)

/-- `assign`: the plan it returns, and the manager after it. The remainder by zero panics. -/
def assign (self : DownloadManager) (peerCount : ℕ) :
    Option (HashMap ℕ (List Hash) × DownloadManager) :=
  let sorted := self.pending.elems.mergeSort hashLe
  if sorted ≠ [] ∧ peerCount = 0 then none
  else
    let plan := deal peerCount 0 sorted .empty
    some (plan, ⟨.empty, plan⟩)

def peerFailed (self : DownloadManager) (peer : ℕ) : DownloadManager :=
  match self.assigned.get? peer with
  | some chunks => ⟨self.pending.extend chunks, self.assigned.remove peer⟩
  | none => self

def chunkDone (self : DownloadManager) (hash : Hash) : DownloadManager :=
  { self with assigned := self.assigned.mapValues fun chunks => chunks.filter (· ≠ hash) }

end DownloadManager

section Runs

inductive ManagerOp where
  | assign (peerCount : ℕ)
  | peerFailed (peer : ℕ)
  | chunkDone (hash : Hash)
  deriving DecidableEq

def ManagerOp.apply : ManagerOp → DownloadManager → Option DownloadManager
  | .assign peerCount, self => (self.assign peerCount).map (·.2)
  | .peerFailed peer, self => some (self.peerFailed peer)
  | .chunkDone hash, self => some (self.chunkDone hash)

/-- The manager after the operations, unless one of them panics. -/
def managerRun (chunks : List Hash) (ops : List ManagerOp) : Option DownloadManager :=
  ops.foldlM (fun self op => op.apply self) (.new chunks)

end Runs

section Property

/-- How often a chunk is waiting or on a peer's list. -/
def DownloadManager.copies (self : DownloadManager) (hash : Hash) : ℕ :=
  self.pending.elems.count hash + self.assigned.total (List.count hash)

/-- Every initial chunk that has not been reported done is waiting, or on the list of one peer,
once. -/
def EachInOnePlace (chunks : List Hash) (ops : List ManagerOp) (self : DownloadManager) : Prop :=
  ∀ hash ∈ chunks, .chunkDone hash ∉ ops → self.copies hash = 1

/-- No peer is left with an initial chunk that has not been reported done. -/
def NoneOutstanding (chunks : List Hash) (ops : List ManagerOp) (self : DownloadManager) : Prop :=
  ∀ hash ∈ chunks, .chunkDone hash ∉ ops → self.assigned.total (List.count hash) = 0

end Property

end BlazeNet

import BlazeNet.Manifest
import BlazeNet.Lib.RustStd

/-!
# The update plan

`update_plan::compute` of the crate `blaze-common` compares two versions of a game, file by file
and chunk by chunk.
-/

namespace BlazeNet

open Wire RustStd

/-- `downloadBytes` is a `u64` in the source, which holds it for up to `2 ^ 32` chunks. -/
structure UpdatePlan where
  filesToDownload : List String
  filesToUpdate : List String
  filesToDelete : List String
  chunksToDownload : List Hash
  downloadBytes : ℕ

/-- The files of a version that may be absent. -/
def filesOf (index : Option GameIndex) : List FileEntry := (index.map (·.files)).getD []

/-- `old_files.get(name)`: of several entries of one name the map keeps the last. -/
def getFile (files : List FileEntry) (name : String) : Option FileEntry :=
  files.reverse.find? fun f => f.name = name

/-- The set of names in `old` and not in `new`. -/
def namesDifference (old new : List FileEntry) : List String :=
  ((old.map (·.name)).dedup).filter fun name => name ∉ new.map (·.name)

/-- The chunks nobody has, each where it comes first. -/
def firstMissing (present : Hash → Bool) : List ChunkMeta → List Hash → List ChunkMeta
  | [], _ => []
  | chunk :: chunks, seen =>
    if present chunk.hash ∨ chunk.hash ∈ seen then firstMissing present chunks seen
    else chunk :: firstMissing present chunks (chunk.hash :: seen)

namespace UpdatePlan

def compute (new : GameIndex) (old : Option GameIndex) (tempChunks : HashSet Hash) : UpdatePlan :=
  let oldFiles := filesOf old
  let oldChunks := (filesOf old).flatMap fun f => f.chunks.map (·.hash)
  let chunks := firstMissing (fun h => h ∈ oldChunks ∨ h ∈ tempChunks)
    (new.files.flatMap (·.chunks)) []
  { filesToDownload := (new.files.filter fun f => (getFile oldFiles f.name).isNone).map (·.name)
    filesToUpdate := (new.files.filter fun f => match getFile oldFiles f.name with
      | some prev => prev.fileHash ≠ f.fileHash
      | none => false).map (·.name)
    filesToDelete := (namesDifference oldFiles new.files).mergeSort fun a b => a ≤ b
    chunksToDownload := chunks.map (·.hash)
    downloadBytes := (chunks.map (·.len.toNat)).sum }

end UpdatePlan

end BlazeNet

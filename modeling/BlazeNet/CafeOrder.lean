import BlazeNet.CafeRuns
import BlazeNet.Producer

/-!
# A cafe in order

What a task of a cafe finds where nothing has gone wrong before it: the recorded version is in the
directory of the game and nothing else is, and the blocks are what their names say. A task that
nothing disturbs gets what it asks for from the network, and is told no lie by the disk.
-/

namespace BlazeNet

open Wire FaultIo Io RustStd UnixFs

section Places

variable (p : Place) (gameId : UInt64)

def gamePlace : Place := p ++ ["games".toList, (toString gameId.toNat).toList]

def tempPlace : Place := p ++ [".blazenet".toList, "temp".toList, (toString gameId.toNat).toList]

def manifestsPlace : Place :=
  p ++ [".blazenet".toList, "manifests".toList, (toString gameId.toNat).toList]

end Places

section Order

variable (blake3 : Bytes → Hash) (bytes : Hash → Bytes) (p : Place) (gameId : UInt64)

/-- Every name that is taken for a block is the name of one, and the block has its hash. -/
structure BlocksInOrder (t : Place) (d : Disk) : Prop where
  names : ∀ name, d.node (t ++ [name]) ≠ none →
    tempHash name = .ok none ∨ ∃ hash, name = (blockName hash).toList
  blocks : ∀ hash, d.node (blockPlace t hash) = none
    ∨ ∃ data, d.node (blockPlace t hash) = some (.file data) ∧ blake3 data = hash

/-- The chunks of the files have the bytes that `bytes` gives them, and no other data has their
hashes. -/
structure Known (files : List FileEntry) : Prop extends Consistent blake3 bytes files where
  apart : ∀ f ∈ files, ∀ c ∈ f.chunks, ∀ data, blake3 data = c.hash → data = bytes c.hash

/-- No file is in the way of the directories of the game, the version `old` is recorded, the files
below the game's directory are its files, and the blocks are in order. -/
structure CafeInOrder (old : Option GameIndex) (d : Disk) : Prop where
  wf : d.Wf
  ways : ∀ q, q <+: gamePlace p gameId ∨ q <+: tempPlace p gameId ∨ q <+: manifestsPlace p gameId →
    d.content q = none
  records : ∀ name, d.node (manifestsPlace p gameId ++ [name]) ≠ some .dir
  unrecorded : old = none → d.content (resolve (currentVersionPath (ofPlace p) gameId)) = none
  recorded : ∀ index ∈ old, ∃ version manifest,
    (CafeStore.mk gameId (ofPlace p) none).storedVersion d = some version
    ∧ (CafeStore.mk gameId (ofPlace p) none).storedManifest version d = some manifest
    ∧ GameIndex.decode blake3 manifest = .ok index
  known : Known blake3 bytes (filesOf old)
  files : ∀ q, d.content (gamePlace p gameId ++ q)
    = ((filesOf old).find? fun f => placeOf f.name = q).map (contentOf bytes)
  blocks : BlocksInOrder blake3 (tempPlace p gameId) d

variable {Sock : Type} (net : NetText Sock) (cfg : Config)

/-- The download of the task is `download_missing`, which returns well on the disk that it finds. -/
def CafeTask.Fetches (t : CafeTask) (input : DownloadInput) (missing : List Hash) (d : Disk) :
    Prop :=
  ∃ out d', downloadMissing net cfg blake3 (cafeSink (ofPlace p) gameId) gameId missing [] input d
      = some (.ok out, d')
    ∧ exec (t.download.run (cafeSink (ofPlace p) gameId) missing) d = (.ok (), d')

/-- Nothing disturbs the task: no call of its own fails, its version can be merged over the one in
place, no other data has the hash of one of its chunks, the download returns well, whatever its own
calls meet, and the scheduler takes the reports. -/
structure CafeTask.Undisturbed (t : CafeTask) (old : Option GameIndex) (index : GameIndex)
    (d : Disk) : Prop where
  decodes : GameIndex.decode blake3 t.manifest = .ok index
  opened : t.current.isSome → d.node (gamePlace p gameId) = some .dir
  faults : t.faults = []
  names : GoodNames (filesOf old) index.files
  known : Known blake3 bytes index.files
  mergeable : Mergeable bytes d (gamePlace p gameId) (filesOf old) index.files
  fetches : ∀ ready d', exec (prepareCafe blake3 (ofPlace p) gameId
      (t.current.map (⟨gameId, ofPlace p, ·⟩)) index) d = (.ok ready, d') →
    ∃ input, t.Fetches blake3 p gameId net cfg input ready.missing d'
  reports : ∀ r ∈ t.reports, r = .ok ()

/-- Nothing disturbs the tasks of a run. -/
def UndisturbedRun : Option GameIndex → Disk → List CafeTask → Prop
  | _, _, [] => True
  | old, d, t :: tasks => ∃ index, t.Undisturbed blake3 bytes p gameId net cfg old index d
    ∧ UndisturbedRun (some index) (t.run blake3 (ofPlace p) gameId d).2.state tasks

end Order

end BlazeNet

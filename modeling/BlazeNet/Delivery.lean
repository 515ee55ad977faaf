import BlazeNet.CafeRuns
import BlazeNet.Fetch
import BlazeNet.Origin
import BlazeNet.Producer

/-!
# From the producer to the cafes

What the parts come to together: the origin serves what it has published, a cafe has the files that
the producer has read, and serves their chunks in turn.
-/

namespace BlazeNet

open Wire FaultIo Io RustStd UnixFs GameStore

section Served

/-- The store that the requests of a game meet, which is opened if need be. -/
def StoreSys.OpensTo (gameId : UInt64) (sys : StoreSys) (store : OpenStore) : Prop := match sys with
  | .opened s => s = store
  | .closed dir => (StoreSys.closed dir).reopen gameId [] = .opened store

/-- Every read of the store returns what `content` has. -/
def OpenStore.ReadsAs (s : OpenStore) (content : StoreContent) : Prop :=
  ∀ hash, exec (readChunk hash) s = (.ok (content.chunk hash), s)

variable (blake3 : Bytes → Hash)

/-- A fetch of the hashes brings the data of each of them, in their order. -/
def FetchesAll (link : Link) (content : StoreContent) (gameId : UInt64) (hashes : List Hash) :
    Prop :=
  ∃ data : Hash → Bytes, (∀ hash ∈ hashes, blake3 (data hash) = hash)
    ∧ fetchFrom blake3 link content gameId hashes
      = (.ok ⟨hashes.length, (hashes.map fun hash => (data hash).length).sum, []⟩,
        hashes.map fun hash => (hash, data hash))

/-- Every version that was answered as published is served: its store is there, and the chunks of
its manifest are fetched from it, in any selection that a request can hold, over any link that stays
up. -/
def Origin.ServesPublished (s : Origin) : Prop :=
  ∀ c ∈ s.replies, ∀ error, c.reply = .ok ⟨true, error⟩ →
    ∃ index store content, GameIndex.decode blake3 c.manifest = .ok index
      ∧ (s.games c.gameId).OpensTo c.gameId store ∧ store.ReadsAs content
      ∧ ∀ (link : Link) (hashes : List Hash), link.StaysUp → hashes ⊆ index.chunkSet →
        hashes.length < 2 ^ 32 → FetchesAll blake3 link content c.gameId hashes

end Served

section Installed

variable (blake3 : Bytes → Hash) (dataDir : Path) (gameId : UInt64)

/-- No other bytes have the hash of one of the files. -/
def HashesApart (files : List String) (content : String → Bytes) : Prop :=
  ∀ rel ∈ files, ∀ data, blake3 data = blake3 (content rel) → data = content rel

/-- The files are in the directory of the game, each under its name in the manifest. -/
def TreeAt (files : List String) (content : String → Bytes) (d : Disk) : Prop :=
  ∀ rel ∈ files, d.content (resolve (join (gameDir dataDir gameId) (Producer.replaceBackslash rel)))
    = some (content rel)

end Installed

section Seeded

variable (blake3 : Bytes → Hash)

/-- The temporary block of the hash, if there is one, has that hash. -/
def CafeStore.TempSound (self : CafeStore) (d : Disk) (hash : Hash) : Prop :=
  ∀ data, d.content (resolve (tempBlock (tempDir self.dataDir self.gameId) hash)) = some data →
    blake3 data = hash

/-- A read of the chunk returns data of that hash. -/
def CafeStore.Reads (self : CafeStore) (d : Disk) (hash : Hash) : Prop :=
  ∃ data, (exec (self.readChunk hash) d).1 = .ok (some data) ∧ blake3 data = hash

/-- The chunks are read, and fetched over any link that stays up from a server that reads them
so. -/
def CafeStore.Seeds (self : CafeStore) (d : Disk) (hashes : List Hash) : Prop :=
  (∀ hash ∈ hashes, self.Reads blake3 d hash)
    ∧ ∀ (link : Link) (content : StoreContent), link.StaysUp → hashes.length < 2 ^ 32 →
      (∀ hash ∈ hashes, (exec (self.readChunk hash) d).1 = .ok (content.chunk hash)) →
      FetchesAll blake3 link content self.gameId hashes

end Seeded

end BlazeNet

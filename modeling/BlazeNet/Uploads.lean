import BlazeNet.Origin

/-!
# The acks of the upload streams

Every message of an upload names a game, but `process_upload` takes the store of the first one and
keeps to it. Here are the messages with the games they name, and the answers to them and to
`QueryExistingChunks`.
-/

namespace BlazeNet

open Wire FaultIo Io RustStd GameStore

structure UploadChunk where
  gameId : UInt64
  chunkHash : Bytes
  data : Bytes
  seq : UInt32
  deriving DecidableEq

variable (blake3 : Bytes → Hash)

/-- The ack that the store of a stream gives, none if it ends the stream or the process. -/
def OpenStore.ack (store : OpenStore) (chunk : UploadChunk) (faults : List (Fault AnyError)) :
    Option UploadAck :=
  match (processChunk blake3 chunk.chunkHash chunk.data).run.run ⟨store, faults⟩ with
  | (.ok (.ok ack), _) => some ack
  | _ => none

namespace Origin

/-- A message: the first one of a new stream, or one on a stream that goes on, which does not look
at the game that it names. -/
def receive (s : Origin) (stream : Option ℕ) (chunk : UploadChunk)
    (openFaults faults : List (Fault AnyError)) : Origin :=
  match stream with
  | none => s.firstChunk blake3 chunk.gameId chunk.chunkHash chunk.data openFaults faults
  | some i => s.nextChunk blake3 i chunk.chunkHash chunk.data faults

/-- The game of the stream that a message comes on, with the ack that is sent for it. -/
def ackOf (s : Origin) (stream : Option ℕ) (chunk : UploadChunk)
    (openFaults faults : List (Fault AnyError)) : Option (UInt64 × UploadAck) :=
  match stream with
  | none =>
    if chunk.gameId = 0 then none
    else match s.openGame chunk.gameId openFaults with
      | (_, .error _) => none
      | (_, .ok store) => (store.ack blake3 chunk faults).map (chunk.gameId, ·)
  | some i => match s.streams[i]? with
    | none => none
    | some stream => match s.games stream.gameId with
      | .closed _ => none
      | .opened store => (store.ack blake3 chunk faults).map (stream.gameId, ·)

/-- The answer of `query_existing_chunks`, none if the process dies. -/
def existing (s : Origin) (gameId : UInt64) (hashes : List Bytes)
    (openFaults faults : List (Fault AnyError)) : Option (Except Status (List Bytes)) :=
  if gameId = 0 then some (.error ⟨.invalidArgument, "game_id 必须大于 0"⟩)
  else match s.openGame gameId openFaults with
    | (_, .error none) => none
    | (_, .error (some status)) => some (.error status)
    | (_, .ok store) => ((existingChunks hashes).run.run ⟨store, faults⟩).1.toOption

/-- The index of a game. -/
def indexOf (s : Origin) (g : UInt64) : Index := (s.games g).dir.index.getD ∅

/-- The length of a chunk, as the store has it. -/
def storedLen (s : Origin) (g : UInt64) (hash : Hash) : Option UInt32 :=
  ((s.indexOf g)[key g hash]?).map fun value => (unpack value).2

end Origin

section Lengths

variable (blake3 : Bytes → Hash)

/-- There are no two data of the hash. -/
def Unshared (hash : Hash) : Prop := ∀ x y, blake3 x = hash → blake3 y = hash → x = y

/-- The reference is to data of its length. -/
def ChunkMeta.Genuine (c : ChunkMeta) :
    Prop := ∃ data, blake3 data = c.hash ∧ data.length = c.len.toNat

/-- The store has, for the reference, the length of data of its hash. -/
def Origin.LengthOf (s : Origin) (g : UInt64) (c : ChunkMeta) : Prop :=
  ∃ data, blake3 data = c.hash ∧ s.storedLen g c.hash = some (UInt32.ofNat data.length)

end Lengths

end BlazeNet

import BlazeNet.Datapath
import BlazeNet.Download

/-!
# Fetching chunks from a peer

Both ends of the data path: `fetch_chunks` of the crate `agent` over the bytes that `handle_conn`
writes. The client writes its whole request first. The server's bytes reach it in order, up to where
the server stops or drops the connection.
-/

namespace BlazeNet

open Wire FaultIo Io RustStd

section Client

/-- `read_u32`, and what is left to read; a number that is cut off is used up. -/
def recvU32 (unread : Bytes) : Option ℕ × Bytes :=
  if unread.length < 4 then (none, []) else (some (ofLe (unread.take 4).reverse), unread.drop 4)

def fetchRequest (gameId : UInt64) (hashes : List Hash) : Bytes :=
  (leBytes 8 gameId.toNat).reverse ++ (leBytes 4 hashes.length).reverse
    ++ hashes.flatMap (·.bytes)

variable {σ : Type} (blake3 : Bytes → Hash) (sink : Hash → Bytes → Io AnyError σ Unit)
  (ending : AnyError)

/-- The loop over the hashes; reading past the end of the stream fails with `ending`. -/
def receiveChunks : List Hash → Bytes → FetchStats → Io AnyError σ FetchStats
  | [], _, stats => pure stats
  | hash :: hashes, unread, stats => match recvU32 unread with
    | (none, unread) =>
      receiveChunks hashes unread { stats with failed := stats.failed ++ [hash] }
    | (some len, unread) =>
      if unread.length < len then stop (.err (ending.context "读取块数据失败"))
      else do
        if ← storeChunk blake3 sink hash (unread.take len) then
          receiveChunks hashes (unread.drop len) { stats with
            downloaded := stats.downloaded + 1, bytes := stats.bytes + len }
        else
          receiveChunks hashes (unread.drop len) { stats with failed := stats.failed ++ [hash] }

/-- `fetch_chunks` from a peer. `respond` is what arrives in answer to a request, or the error of a
call before the first answer is read. -/
def fetchChunks (respond : Bytes → Except AnyError Bytes) (gameId : UInt64) (hashes : List Hash) :
    Io AnyError σ FetchStats :=
  if hashes.isEmpty then pure .empty
  else match respond (fetchRequest gameId hashes) with
    | .error e => stop (.err e)
    | .ok arrived => receiveChunks blake3 sink ending hashes arrived .empty

end Client

section Server

/-- What a store answers for a hash. The length of a chunk is kept in 32 bits. -/
structure StoreContent where
  chunk : Hash → Option Bytes
  fits : ∀ hash data, chunk hash = some data → data.length < 2 ^ 32

/-- What the paths of a connection look like to `wait_for_direct_path`, and how its ends fail. The
server drops the connection once `handle_conn` has returned: at once when it has failed, which may
also fail the writing of the client, and half a second after `finish` else. `dropped` and `late` are
how many bytes have arrived by then. -/
structure Link where
  packDefault : Bool
  first : Paths
  later : List Paths
  ending : AnyError
  finish : Except AnyError Unit
  dropped : Except AnyError ℕ
  late : Option ℕ

/-- How `handle_conn` ends on a request, with `store` behind the game, and the bytes it writes. -/
def Link.serve (link : Link) (store : StoreContent) (gameId : UInt64) (request : Bytes) :
    Except AnyError Unit × Bytes :=
  let peer : Peer := ⟨.ok (), request, link.ending, none, link.finish⟩
  let served := (handleConn (fun (store : StoreContent) hash => .ok (store.chunk hash))
    (fun _ => .error link.ending) link.packDefault link.first link.later peer).run.run
      (peer.connect (Function.update (fun _ => none) gameId (some store)) fun _ => none)
  (served.1, served.2.sent.flatMap (·.bytes))

/-- What arrives of it. -/
def Link.respond (link : Link) (store : StoreContent) (gameId : UInt64) (request : Bytes) :
    Except AnyError Bytes :=
  let served := link.serve store gameId request
  match served.1, link.late with
  | .error _, _ => link.dropped.map served.2.take
  | .ok (), some n => .ok (served.2.take n)
  | .ok (), none => .ok served.2

end Server

section Property

/-- A sink that keeps what it is given. -/
def collect (hash : Hash) (data : Bytes) : Io AnyError (List (Hash × Bytes)) Unit :=
  modify (· ++ [(hash, data)])

variable (blake3 : Bytes → Hash) (link : Link) (store : StoreContent) (gameId : UInt64)
  (hashes : List Hash)

/-- A fetch of the hashes from the store, its sink empty before. -/
def fetchFrom : Except (Stop AnyError) FetchStats × List (Hash × Bytes) :=
  exec (fetchChunks blake3 collect link.ending (link.respond store gameId) gameId hashes) []

/-- The sink gets every requested chunk that the store has, and the others are those that have
failed. -/
def MissingAlone : Prop :=
  ∃ stats, fetchFrom blake3 link store gameId hashes
      = (.ok stats, hashes.filterMap fun hash => (store.chunk hash).map (hash, ·))
    ∧ stats.failed = hashes.filter fun hash => (store.chunk hash).isNone

/-- The hashes that are answered: as many as the count of the request says, up to the first that
the store does not have. -/
def answered : List Hash :=
  (hashes.take (hashes.length % 2 ^ 32)).takeWhile fun hash => (store.chunk hash).isSome

/-- The chunk of a hash, if it has that hash. -/
def soundChunk (hash : Hash) : Option (Hash × Bytes) :=
  (store.chunk hash).bind fun data => if blake3 data = hash then some (hash, data) else none

/-- What a fetch counts that has read the answers to the first hashes, `part`, and no more. -/
def partStats (part : List Hash) : FetchStats where
  downloaded := (part.filterMap (soundChunk blake3 store)).length
  bytes := ((part.filterMap (soundChunk blake3 store)).map (·.2.length)).sum
  failed := (part.filter fun hash => (soundChunk blake3 store hash).isNone)
    ++ hashes.drop part.length

/-- The end of the stream is written, and all has arrived when the connection is dropped. -/
def Link.StaysUp (link : Link) : Prop := link.finish = .ok () ∧ link.late = none

/-- All that `handle_conn` writes arrives. -/
def ArrivesWhole : Prop :=
  link.respond store gameId (fetchRequest gameId hashes)
    = .ok (link.serve store gameId (fetchRequest gameId hashes)).2

end Property

section Accounts

variable {σ : Type} (blake3 : Bytes → Hash) (sink : Hash → Bytes → Io AnyError σ Unit)

/-- The sink, with a record of its calls. -/
def notedSink (hash : Hash) (data : Bytes) : Io AnyError (σ × List (Hash × Bytes)) Unit := do
  modify fun t => (t.1, t.2 ++ [(hash, data)])
  zoom Prod.fst (fun s t => (s, t.2)) (sink hash data)

variable (hashes : List Hash) (outcome : List (Option Bytes))

/-- The pairs delivered, where `outcome` says of each request what it brought. -/
def deliveries : List (Hash × Bytes) := (hashes.zip outcome).filterMap fun x => x.2.map (x.1, ·)

def failures : List Hash := ((hashes.zip outcome).filter fun x => x.2.isNone).map (·.1)

/-- The calls of the sink, and what the fetch returned, come from one outcome for each request:
of the first requests when the fetch stopped, of all when it returned its statistics. -/
structure Accounts (calls : List (Hash × Bytes)) (result : Except (Stop AnyError) FetchStats) :
    Prop where
  within : outcome.length ≤ hashes.length
  delivered : calls = deliveries hashes outcome
  sound : ∀ c ∈ calls, blake3 c.2 = c.1
  complete : ∀ stats, result = .ok stats → outcome.length = hashes.length
    ∧ stats.failed = failures hashes outcome
    ∧ stats.downloaded = calls.length ∧ stats.downloaded + stats.failed.length = hashes.length
    ∧ stats.bytes = (calls.map (·.2.length)).sum

end Accounts

end BlazeNet

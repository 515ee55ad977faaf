import BlazeNet.Manifest

/-!
# The data path of a node

`handle_conn` of the crate `origin`: it waits for a direct path, runs the gate, reads a request
(game, number of chunks, hashes) and streams the chunks back. The store behind a game is whatever
answers `read_chunk`.
-/

namespace BlazeNet

open Wire

section Gate

def allowData (hasDirect _hasRelay : Bool) : Bool := hasDirect

/-- What a function prints, and its result. -/
abbrev Printed := List String × Except AnyError Unit

def rejectRelayOnly (hasDirect hasRelay : Bool) : Printed :=
  if !allowData hasDirect hasRelay then (["relay-only 路径，拒绝块传输"], .ok ())
  else ([], .ok ())

def gateOrReject (ready : Bool) : Printed :=
  if !ready then
    match rejectRelayOnly false true with
    | (printed, .ok ()) => (printed, .ok ())
    | (printed, .error e) => (printed, .error e)
  else ([], .ok ())

/-- An observation of a connection's paths: `(has_direct, has_relay)`. -/
abbrev Paths := Bool × Bool

/-- `wait_for_direct_path`: the first observation, and those after it until the deadline. -/
def waitForDirectPath : Paths → List Paths → Bool
  | (hasDirect, hasRelay), later =>
    if hasDirect then true
    else if !hasRelay then false
    else match later with
      | [] => false
      | next :: later => waitForDirectPath next later

end Gate

/-- Bytes written to the peer, and whether they are those of a chunk. -/
structure Frame where
  ofChunk : Bool
  bytes : Bytes

/-- What the peer does: whether it opens a stream, what it sends on it, how reading past that
fails, how many bytes it takes before writing fails, and whether the end of the stream reaches
it. -/
structure Peer where
  acceptBi : Except AnyError Unit
  request : Bytes
  ending : AnyError
  room : Option (ℕ × AnyError)
  finish : Except AnyError Unit

/-- A connection as it is served; the maps of store handles are shared with the other ones. -/
structure Conn (σ : Type) where
  stores : UInt64 → Option σ
  packStores : UInt64 → Option σ
  unread : Bytes
  room : Option (ℕ × AnyError)
  sent : List Frame
  printed : List String

/-- The bytes of chunks the peer has been sent. -/
def Conn.chunkBytes {σ : Type} (c : Conn σ) : Bytes :=
  (c.sent.filter (·.ofChunk)).flatMap (·.bytes)

abbrev ConnIo (σ : Type) := ExceptT AnyError (StateM (Conn σ))

section Streams

variable {σ α : Type}

def connContext (text : String) (p : ConnIo σ α) : ConnIo σ α :=
  tryCatch p fun e => throw (e.context text)

def println (out : Printed) : ConnIo σ Unit := do
  modify fun c => { c with printed := c.printed ++ out.1 }
  liftExcept out.2
where
  liftExcept : Except AnyError Unit → ConnIo σ Unit
    | .ok () => pure ()
    | .error e => throw e

def recvExact (ending : AnyError) (n : ℕ) : ConnIo σ Bytes := do
  let c ← get
  if c.unread.length < n then throw ending
  else do
    set { c with unread := c.unread.drop n }
    pure (c.unread.take n)

/-- `write_u32` and `write_all`; a peer that takes no more may have taken a part. -/
def sendAll (frame : Frame) : ConnIo σ Unit := do
  let c ← get
  match c.room with
  | none => set { c with sent := c.sent ++ [frame] }
  | some (n, e) => do
    set { c with
      sent := c.sent ++ [{ frame with bytes := frame.bytes.take n }]
      room := some (n - frame.bytes.length, e) }
    if n < frame.bytes.length then throw e else pure ()

/-- A chunk as the peer gets it: its length, big-endian, and its bytes. -/
def sendChunk (data : Bytes) : ConnIo σ Unit := do
  sendAll ⟨false, (leBytes 4 data.length).reverse⟩
  sendAll ⟨true, data⟩

end Streams

section Handler

variable {σ : Type} (readChunk : σ → Hash → Except AnyError (Option Bytes))
  (openStore : UInt64 → Except AnyError σ)

/-- The handle for a game: a known one, or with `pack_default` a block store that is opened. -/
def storeEntry (packDefault : Bool) (gameId : UInt64) : ConnIo σ σ := do
  let c ← get
  match c.stores gameId with
  | some store => pure store
  | none =>
    if !packDefault then throw (.msg s!"游戏未纳管: {gameId}")
    else match c.packStores gameId with
      | some pack => do
        set { c with stores := Function.update c.stores gameId (some pack) }
        pure pack
      | none => match openStore gameId with
        | .error e => throw e
        | .ok pack => do
          set { c with
            stores := Function.update c.stores gameId (some pack)
            packStores := Function.update c.packStores gameId (some pack) }
          pure pack

/-- The loop over the requested chunks. -/
def sendChunks (ending : AnyError) (store : σ) : ℕ → ConnIo σ Unit
  | 0 => pure ()
  | count + 1 => do
    let hash ← connContext "读块哈希失败" (recvExact ending hashLen)
    match Hash.ofBytes? hash with
    | none => throw ending
    | some hash => match readChunk store hash with
      | .error e => throw e
      | .ok none => throw (.msg "块不存在")
      | .ok (some data) => do
        sendChunk data
        sendChunks ending store count

/-- `handle_conn`, given what the checks of the connection's paths see. -/
def handleConn (packDefault : Bool) (first : Paths) (later : List Paths) (peer : Peer) :
    ConnIo σ Unit := do
  let ready := waitForDirectPath first later
  println (gateOrReject ready)
  connContext "accept_bi 失败" (println.liftExcept peer.acceptBi)
  let gameId ← connContext "读 game_id 失败" (recvExact peer.ending 8)
  let gameId := UInt64.ofNat (ofLe gameId.reverse)
  let count ← connContext "读块数失败" (recvExact peer.ending 4)
  let count := ofLe count.reverse
  let store ← storeEntry openStore packDefault gameId
  sendChunks readChunk peer.ending store count
  connContext "finish 失败" (println.liftExcept peer.finish)

/-- The connection before anything is read from it. -/
def Peer.connect (peer : Peer) (stores packStores : UInt64 → Option σ) : Conn σ :=
  ⟨stores, packStores, peer.request, peer.room, [], []⟩

end Handler

end BlazeNet

import BlazeNet.AgentConfig
import BlazeNet.Control

/-!
# Where a chunk is downloaded from

`query_peers` of the scheduler, and the choice `download_missing` makes from its answer: the first
byte of the hash picks a peer among the usable ones and an address among the peer's.
-/

namespace BlazeNet

open Wire FaultIo Io RustStd

/-- `control::Peer`. -/
structure PeerEntry where
  nodeId : UInt64
  endpointId : String
  addrs : List AddrRecord
  directOnly : Bool
  deriving DecidableEq

section QueryPeers

/-- The loop of `query_peers` over the holders. -/
def collectPeers : List UInt64 → Handler Status (List PeerEntry)
  | [] => pure []
  | id :: ids => do
    match ← orFail (internal "查询节点失败") (Store.getNode id) with
    | none => collectPeers ids
    | some node =>
      if node.status ≠ "online" then collectPeers ids
      else do
        let rest ← collectPeers ids
        pure (⟨node.id, node.endpointId, node.addrs, node.nodeType = "cafe"⟩ :: rest)

def queryPeers (gameId : UInt64) (chunkHash : Bytes) (limit : UInt32) :
    Handler Status (List PeerEntry) := do
  let holders ← orFail (internal "块账本操作失败") (Store.chunkHolders gameId chunkHash)
  collectPeers (if limit = 0 then holders else holders.take limit.toNat)

end QueryPeers

section Choice

/-- `hash[0] as usize`. -/
def Hash.first (hash : Hash) : ℕ := (hash.bytes.headD 0).toNat

variable (isEndpoint : String → Bool) (exclude : List String)

/-- The peers of an answer that can be used. -/
def candidates (peers : List PeerEntry) : List PeerEntry :=
  (peers.filter fun p => !p.addrs.isEmpty && !exclude.contains p.endpointId).filter fun p =>
    isEndpoint p.endpointId

/-- The peer for a chunk; `none` where no peer can be used. -/
def choosePeer (peers : List PeerEntry) (hash : Hash) : Option PeerEntry :=
  let cs := candidates isEndpoint exclude peers
  cs[hash.first % cs.length]?

/-- The address of the peer for a chunk. -/
def chooseAddr (peer : PeerEntry) (hash : Hash) : Option AddrRecord :=
  peer.addrs[hash.first % peer.addrs.length]?

end Choice

section Answer

variable (s : Sched)

/-- The nodes that hold a chunk, in the order in which they have reported it. -/
def Sched.ledger (gameId : UInt64) (chunkHash : Bytes) : List UInt64 :=
  (s.chunks[Store.chunkKey gameId chunkHash]?).getD []

/-- The node is in the table, and online. -/
def Sched.isOnline (id : UInt64) : Bool := (s.nodes[id]?).any fun node => node.status = "online"

/-- What an answer says of a node. -/
def peerOf (node : NodeRecord) : PeerEntry :=
  ⟨node.id, node.endpointId, node.addrs, node.nodeType = "cafe"⟩

/-- An answer lists online holders only, in the order of the ledger and none of them twice, and as
many as there are under the limit. -/
def FullAnswer (gameId : UInt64) (chunkHash : Bytes) (limit : UInt32) (peers : List PeerEntry) :
    Prop :=
  ∃ ids : List UInt64, ids.map (fun id => (s.nodes[id]?).map peerOf) = peers.map some
    ∧ (∀ id ∈ ids, s.isOnline id = true) ∧ ids.Sublist (s.ledger gameId chunkHash)
    ∧ ((s.ledger gameId chunkHash).Nodup → ids.Nodup)
    ∧ ids.length = (if limit = 0 then ((s.ledger gameId chunkHash).filter s.isOnline).length
      else min limit.toNat ((s.ledger gameId chunkHash).filter s.isOnline).length)

/-- The limit lets offline holders through only where it shuts no online one out. -/
def LimitReaches (limit : UInt32) (holders : List UInt64) : Prop :=
  limit = 0 ∨ (∀ id ∈ holders.take limit.toNat, s.isOnline id = true)
    ∨ ∀ id ∈ holders.drop limit.toNat, s.isOnline id = false

end Answer

section Property

/-- The agent is registered as node `n`, in a table that keeps every node under its id. -/
def Sched.Registered (s : Sched) (n : UInt64) (endpointId : String) (addrs : List AddrRecord) :
    Prop :=
  (∀ (k : UInt64) (node : NodeRecord), s.nodes[k]? = some node → node.id = k)
    ∧ ∃ node, s.nodes[n]? = some node ∧ node.endpointId = endpointId ∧ node.addrs = addrs

variable {Sock : Type} (net : SocketText Sock) (isEndpoint : String → Bool)

/-- Whenever a download picks a socket address of the agent, out of any answer of the scheduler and
for any chunk, it is an address of its data plane. -/
def DialsDataPlane (endpointId : String) (addrs : List AddrRecord) : Prop :=
  ∀ (s : Sched) (n : UInt64), s.Registered n endpointId addrs →
    ∀ (gameId : UInt64) (hash : Hash) (faults : List (Fault AnyError)) (peers : List PeerEntry)
      (w : World AnyError Sched),
      (queryPeers gameId hash.bytes 5).run.run ⟨s, faults⟩ = (.ok (.ok peers), w) →
      ∀ (exclude : List String) (peer : PeerEntry), peer.nodeId = n →
        choosePeer isEndpoint exclude peers hash = some peer →
        ∀ (record : AddrRecord) (socket : Sock), chooseAddr peer hash = some record →
          net.parse record.addr = some socket → record.kind = "config" ∨ record.kind = "stun"

end Property

end BlazeNet

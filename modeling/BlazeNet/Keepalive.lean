import BlazeNet.Control

/-!
# Keepalive of the nodes

`keepalive.rs` of the crates `blaze-common` and `scheduler`. Once a second the loop marks nodes
whose heartbeats have stopped as offline, pings the keepalive addresses whose slot it is, takes in
the pongs that have come, counts the pings that have grown too old as failures, and gives every node
the status that the availability of its keepalive address asks for.

Socket addresses are a parameter, with the hash that spreads them over the slots and the parser of
their text. The maps are iterated in any order.
-/

namespace BlazeNet

open Wire FaultIo Io RustStd

section Packets

/-- "BLZPNG". -/
def pingMagic : Bytes := [0x42, 0x4c, 0x5a, 0x50, 0x4e, 0x47]

/-- "BLZPONG". -/
def pongMagic : Bytes := [0x42, 0x4c, 0x5a, 0x50, 0x4f, 0x4e, 0x47]

def pongLen : ℕ := 11

def buildPing (seq : UInt32) (nodeId : UInt64) (addrIndex : UInt32) : Bytes :=
  pingMagic ++ leBytes 4 seq.toNat ++ leBytes 8 nodeId.toNat ++ leBytes 4 addrIndex.toNat

def parsePong (packet : Bytes) : Option UInt32 :=
  if packet.length ≠ pongLen ∨ packet.take 7 ≠ pongMagic then none
  else some (UInt32.ofNat (ofLe (packet.drop 7)))

end Packets

structure AddrState where
  failures : UInt32
  available : Bool
  deriving DecidableEq

def AddrState.default : AddrState := ⟨0, true⟩

variable {Addr : Type} [DecidableEq Addr]

namespace Keepalive

abbrev Addrs (Addr : Type) := HashMap Addr AddrState

def register (addrs : Addrs Addr) (addr : Addr) : Addrs Addr :=
  if (addrs.get? addr).isSome then addrs else addrs.insert addr .default

def record (addrs : Addrs Addr) (addr : Addr) (ok : Bool) (failThreshold : UInt32) : Addrs Addr :=
  let state := (addrs.get? addr).getD .default
  if ok then addrs.insert addr ⟨0, true⟩
  else
    let failures := state.failures + 1
    addrs.insert addr ⟨failures, if failures ≥ failThreshold then false else state.available⟩

def unavailable (addrs : Addrs Addr) : List Addr :=
  (addrs.entries.filter fun e => !e.2.available).map (·.1)

end Keepalive

/-- The memory of the loop; `log` holds the calls of `record` so far, the newest first. -/
structure Prober (Addr : Type) where
  addrs : Keepalive.Addrs Addr
  seq : UInt32
  outstanding : HashMap UInt32 (Addr × ℕ)
  log : List (Addr × Bool)

namespace Prober

def new : Prober Addr := ⟨.empty, 0, .empty, []⟩

variable (failThreshold : UInt32)

def record (p : Prober Addr) (addr : Addr) (ok : Bool) : Prober Addr :=
  { p with
    addrs := Keepalive.record p.addrs addr ok failThreshold
    log := (addr, ok) :: p.log }

def register (p : Prober Addr) (addr : Addr) : Prober Addr :=
  { p with addrs := Keepalive.register p.addrs addr }

/-- A ping is outstanding even if it could not be sent. -/
def ping (p : Prober Addr) (addr : Addr) (sent : ℕ) : Prober Addr :=
  let seq := p.seq + 1
  { p with seq := seq, outstanding := p.outstanding.insert seq (addr, sent) }

/-- One datagram, as far as the buffer holds it; the address whose ping it answers. -/
def receive (p : Prober Addr) (datagram : Bytes) : Prober Addr × Option Addr :=
  match parsePong (datagram.take pongLen) with
  | none => (p, none)
  | some seq => match p.outstanding.get? seq with
    | none => (p, none)
    | some (addr, _) =>
      let p := { p with outstanding := p.outstanding.remove seq }
      (p.record failThreshold addr true, some addr)

/-- One ping that has grown too old. -/
def giveUp (p : Prober Addr) (seq : UInt32) (addr : Addr) : Prober Addr :=
  let p := { p with outstanding := p.outstanding.remove seq }
  p.record failThreshold addr false

/-- `sent.elapsed() >= Duration::from_secs(interval_secs)`, on a clock of nanoseconds that is read
for each entry on its own. -/
def tooOld (intervalSecs : ℕ) (clock : UInt32 → ℕ) (seq : UInt32) (sent : ℕ) : Bool :=
  intervalSecs * 1000000000 ≤ clock seq - sent

def expire (p : Prober Addr) (intervalSecs : ℕ) (iter : IterOrder (UInt32 × Addr × ℕ))
    (clock : UInt32 → ℕ) : Prober Addr :=
  let expired := (iter.order p.outstanding.entries).filter fun e =>
    tooOld intervalSecs clock e.1 e.2.2
  expired.foldl (fun p e => p.giveUp failThreshold e.1 e.2.1) p

end Prober

/-- What the loop is given: its configuration, the hash of addresses and the parser of their
text. -/
structure KeepConfig (Addr : Type) where
  intervalSecs : ℕ
  failThreshold : UInt32
  heartbeatTimeoutMs : UInt64
  hash : Addr → ℕ
  parse : String → Option Addr

/-- What one tick meets: the time, the orders its maps are iterated in, when its pings are sent,
the datagrams that have come and the clock of the expiry. -/
structure Tick (Addr : Type) where
  nowSecs : ℕ
  nowMs : UInt64
  pingOrder : IterOrder (Addr × UInt64 × UInt32)
  sent : ℕ → ℕ
  datagrams : List Bytes
  expiryOrder : IterOrder (UInt32 × Addr × ℕ)
  clock : UInt32 → ℕ
  statusOrder : IterOrder (Addr × UInt64 × UInt32)

/-- The keepalive addresses of the nodes, each with its node and its index there. -/
abbrev Meta (Addr : Type) := HashMap Addr (UInt64 × UInt32)

namespace KeepConfig

variable (cfg : KeepConfig Addr)

/-- The keepalive addresses of a node, with their indices. -/
def keepaliveAddrs (node : NodeRecord) : List (Addr × UInt32) :=
  node.addrs.zipIdx.filterMap fun e =>
    if e.1.kind = "keepalive" then (cfg.parse e.1.addr).map fun addr => (addr, UInt32.ofNat e.2)
    else none

def metaOf (nodes : List NodeRecord) : Meta Addr :=
  (nodes.flatMap fun node => (cfg.keepaliveAddrs node).map fun e => (e.1, node.id, e.2)).foldl
    (fun m e => m.insert e.1 e.2) .empty

def addrSlot (addr : Addr) : ℕ := cfg.hash addr % cfg.intervalSecs

/-- The addresses to ping in this tick, in the order of the pings. -/
def due (tick : Tick Addr) (addrs : Meta Addr) : List Addr :=
  ((tick.pingOrder.order addrs.entries).filter fun e =>
    cfg.addrSlot e.1 = tick.nowSecs % cfg.intervalSecs).map (·.1)

end KeepConfig

namespace Prober

variable (cfg : KeepConfig Addr)

def registerAll (p : Prober Addr) (addrs : List Addr) : Prober Addr := addrs.foldl register p

def pingAll (p : Prober Addr) (tick : Tick Addr) (addrs : List Addr) : Prober Addr :=
  addrs.zipIdx.foldl (fun p e => p.ping e.1 (tick.sent e.2)) p

/-- The prober after the datagrams, and the addresses they answered for. -/
def receiveAll (failThreshold : UInt32) : List Bytes → Prober Addr → Prober Addr × List Addr
  | [], p => (p, [])
  | datagram :: datagrams, p =>
    let (p, answered) := p.receive failThreshold datagram
    let (p, more) := receiveAll failThreshold datagrams p
    (p, answered.toList ++ more)

/-- The part of a tick in the memory of the loop, up to the expiry. -/
def probe (p : Prober Addr) (tick : Tick Addr) (addrs : Meta Addr) : Prober Addr × List Addr :=
  let p := p.registerAll (addrs.entries.map (·.1))
  let p := p.pingAll tick (cfg.due tick addrs)
  let (p, answered) := receiveAll cfg.failThreshold tick.datagrams p
  (p.expire cfg.failThreshold cfg.intervalSecs tick.expiryOrder tick.clock, answered)

/-- `keep.addrs.get(addr).map(|s| s.available).unwrap_or(true)`. -/
def available (p : Prober Addr) (addr : Addr) : Bool :=
  ((p.addrs.get? addr).map (·.available)).getD true

end Prober

namespace Store

def listNodes : SchedIo (List NodeRecord) := do
  call "开始只读事务失败"
  call "打开 nodes 表失败"
  let items ← look "遍历节点失败" (·.nodes.toList.map (·.2))
  each (fun _ => call "读取节点项失败") items
  pure items

def offlineNodes (nowMs timeoutMs : UInt64) : SchedIo (List UInt64) := do
  let nodes ← listNodes
  pure ((nodes.filter fun n => nowMs.toNat - n.lastHeartbeatMs.toNat > timeoutMs.toNat).map (·.id))

end Store

/-- What happens to the nodes: a write of a status, a heartbeat received, a pong that answers a ping
to an address. -/
inductive NodeEvent (Addr : Type) where
  | status (id : UInt64) (status : String)
  | heartbeat (id : UInt64)
  | pong (addr : Addr)

/-- The scheduler with its keepalive loop; `trace` is what has happened, the newest first. -/
structure KeepSys (Addr : Type) where
  sched : Sched
  prober : Prober Addr
  trace : List (NodeEvent Addr)

abbrev KeepIo (Addr : Type) := Io AnyError (KeepSys Addr)

namespace KeepSys

/-- A transaction of the store. -/
def db {α : Type} (p : SchedIo α) : KeepIo Addr α :=
  zoom (·.sched) (fun sched s => { s with sched := sched }) p

def note (e : NodeEvent Addr) (s : KeepSys Addr) : KeepSys Addr := { s with trace := e :: s.trace }

/-- `insert_node`, which writes the node's status with the rest of its record. -/
def insertNode (node : NodeRecord) : KeepIo Addr Unit := do
  db (Store.insertNode node)
  modify (note (.status node.id node.status))

/-- A result whose error counts as nothing. -/
def orDefault {α : Type} (p : SchedIo (List α)) : KeepIo Addr (List α) := do
  match ← attempt (db p) with
  | .ok l => pure l
  | .error _ => pure []

/-- Gives a node a status that it does not have. -/
def setStatus (id : UInt64) (want : String) : KeepIo Addr Unit := do
  match ← attempt (db (Store.getNode id)) with
  | .ok (some node) =>
    if node.status ≠ want then do
      let _ ← attempt (insertNode { node with status := want })
      pure ()
    else pure ()
  | _ => pure ()

variable (cfg : KeepConfig Addr)

/-- The memory's part of a tick. -/
def probe (tick : Tick Addr) (addrs : Meta Addr) (s : KeepSys Addr) : KeepSys Addr :=
  { s with
    prober := (s.prober.probe cfg tick addrs).1
    trace := (s.prober.probe cfg tick addrs).2.reverse.map .pong ++ s.trace }

/-- The status that the availability of an address asks for. -/
def syncStatus (e : Addr × UInt64 × UInt32) : KeepIo Addr Unit := do
  let s ← get
  setStatus e.2.1 (if s.prober.available e.1 then "online" else "offline")

/-- The body of the loop. -/
def tick (t : Tick Addr) : KeepIo Addr Unit := do
  let offline ← orDefault (Store.offlineNodes t.nowMs cfg.heartbeatTimeoutMs)
  each (fun id => setStatus id "offline") offline
  let nodes ← orDefault Store.listNodes
  let addrs := cfg.metaOf nodes
  modify (probe cfg t addrs)
  each syncStatus (t.statusOrder.order addrs.entries)

/-- `heartbeat`, received at `nowMs`. -/
def heartbeat (nowMs : UInt64) (nodeId : UInt64) : KeepIo Addr Unit := do
  modify (note (.heartbeat nodeId))
  match ← db (Store.getNode nodeId) with
  | none => stop (.err (.msg "节点未注册"))
  | some node => insertNode { node with lastHeartbeatMs := nowMs, status := "online" }

/-- `register`: a record under a new id. -/
def registerNode (nowMs : UInt64) (req : RegisterRequest) : KeepIo Addr Unit := do
  if !validNodeType req.nodeType then stop (.err (.msg "node_type 必须为 origin/idc/cafe"))
  else do
    let id ← db Store.nextNodeId
    insertNode ⟨id, req.nodeType, req.endpointId, s!"{nowMs}-{id}", req.addrs, "online", nowMs⟩

end KeepSys

end BlazeNet

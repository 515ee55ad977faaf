import BlazeNet.Probes

/-!
# Pings and pongs on the network

The loop of the scheduler at one end, and at the other `keepalive.rs` of the crate `agent`, which
answers every ping with a pong to its source. Datagrams get lost, come late, twice or in another
order, and strangers send theirs: whatever was sent may arrive any number of times or never.
-/

namespace BlazeNet

open Wire RustStd

section Packets

def pingLen : ℕ := 22

def buildPong (seq : UInt32) : Bytes := pongMagic ++ leBytes 4 seq.toNat

def parsePing (packet : Bytes) : Option (UInt32 × UInt64 × UInt32) :=
  if packet.length ≠ pingLen ∨ packet.take 6 ≠ pingMagic then none
  else some (UInt32.ofNat (ofLe ((packet.drop 6).take 4)),
    UInt64.ofNat (ofLe ((packet.drop 10).take 8)), UInt32.ofNat (ofLe (packet.drop 18)))

end Packets

structure Datagram (Addr : Type) where
  src : Addr
  dst : Addr
  bytes : Bytes

/-- What `serve_pong` sends back for a datagram, of which its buffer holds the start. -/
def servePong {Addr : Type} (d : Datagram Addr) : Option (UInt32 × Datagram Addr) :=
  (parsePing (d.bytes.take pingLen)).map fun ping => (ping.1, ⟨d.dst, d.src, buildPong ping.1⟩)

/-- The memory of the loop, every datagram sent so far, and the pings that agents have answered,
each with the address of its agent. -/
structure PingNet (Addr : Type) where
  prober : Prober Addr
  sent : List (Datagram Addr)
  answers : List (Addr × UInt32)

inductive NetAct (Addr : Type) where
  | register (addr : Addr)
  | ping (addr : Addr) (nodeId : UInt64) (addrIndex : UInt32) (at_ : ℕ)
  | receive (i : ℕ)
  | expire (iter : IterOrder (UInt32 × Addr × ℕ)) (clock : UInt32 → ℕ)
  | answer (i : ℕ)
  | stray (d : Datagram Addr)

def NetAct.isPing {Addr : Type} : NetAct Addr → Bool
  | .ping .. => true
  | _ => false

namespace PingNet

variable {Addr : Type} [DecidableEq Addr]

def init : PingNet Addr := ⟨.new, [], []⟩

variable (cfg : KeepConfig Addr) (hub : Addr)

/-- The scheduler is at `hub`; any other address may have an agent. -/
def step (s : PingNet Addr) : NetAct Addr → PingNet Addr
  | .register addr => { s with prober := s.prober.register addr }
  | .ping addr nodeId addrIndex at_ =>
    { s with
      prober := s.prober.ping addr at_
      sent := s.sent ++ [⟨hub, addr, buildPing (s.prober.seq + 1) nodeId addrIndex⟩] }
  | .receive i => match s.sent[i]? with
    | none => s
    | some d =>
      if d.dst = hub then { s with prober := (s.prober.receive cfg.failThreshold d.bytes).1 } else s
  | .expire iter clock =>
    { s with prober := s.prober.expire cfg.failThreshold cfg.intervalSecs iter clock }
  | .answer i => match s.sent[i]? with
    | none => s
    | some d => if d.dst = hub then s else match servePong d with
      | none => s
      | some (seq, pong) =>
        { s with sent := s.sent ++ [pong], answers := (d.dst, seq) :: s.answers }
  | .stray d => { s with sent := s.sent ++ [d] }

def run (s : PingNet Addr) (acts : List (NetAct Addr)) : PingNet Addr := acts.foldl (step cfg hub) s

/-- The pings that the agent at an address has answered. -/
def answeredBy (s : PingNet Addr) (addr : Addr) : Finset UInt32 :=
  ((s.answers.filter fun e => e.1 = addr).map (·.2)).toFinset

/-- How often an address has counted as answering. -/
def successes (s : PingNet Addr) (addr : Addr) : ℕ := s.prober.log.countP (· = (addr, true))

def failures (s : PingNet Addr) (addr : Addr) : ℕ := s.prober.log.countP (· = (addr, false))

end PingNet

/-- A stranger does not send from the address of the scheduler, nor pongs to it. -/
def NetAct.Harmless {Addr : Type} (hub : Addr) : NetAct Addr → Prop
  | .stray d => d.src ≠ hub ∧ (d.dst = hub → parsePong (d.bytes.take pongLen) = none)
  | _ => True

end BlazeNet

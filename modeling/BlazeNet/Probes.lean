import BlazeNet.Keepalive

/-!
# Probes and their fates

The pings of a run by number, whatever their sequence numbers: a ping is outstanding until a pong
with its sequence number comes, which answers it, or an expiry finds it too old, which ends it. The
events of a tick, one after another, are the steps of this history and of the prober alike.
-/

namespace BlazeNet

open Wire FaultIo RustStd

variable {Addr : Type} [DecidableEq Addr]

inductive Fate where
  | outstanding
  | answered
  | expired
  deriving DecidableEq

structure Probe (Addr : Type) where
  addr : Addr
  sent : ℕ
  seq : UInt32
  fate : Fate

namespace Probe

/-- The outcome of a probe that is over. -/
def outcome (q : Probe Addr) : Option (Addr × Bool) := match q.fate with
  | .outstanding => none
  | .answered => some (q.addr, true)
  | .expired => some (q.addr, false)

def isOut (q : Probe Addr) : Bool := q.fate = .outstanding

def entry (q : Probe Addr) : UInt32 × Addr × ℕ := (q.seq, q.addr, q.sent)

/-- Ends the probe with a fate, if it is outstanding and chosen. -/
def settle (chosen : UInt32 × Addr × ℕ → Bool) (fate : Fate) (q : Probe Addr) : Probe Addr :=
  if q.isOut && chosen q.entry then { q with fate := fate } else q

end Probe

inductive ProbeEvent (Addr : Type) where
  | register (addr : Addr)
  | ping (addr : Addr) (sent : ℕ)
  | datagram (bytes : Bytes)
  | expiry (iter : IterOrder (UInt32 × Addr × ℕ)) (clock : UInt32 → ℕ)

section Runs

variable (cfg : KeepConfig Addr)

def KeepConfig.tickEvents (m : Meta Addr) (t : Tick Addr) : List (ProbeEvent Addr) :=
  m.entries.map (fun e => .register e.1)
    ++ (cfg.due t m).zipIdx.map (fun e => .ping e.1 (t.sent e.2))
    ++ t.datagrams.map .datagram ++ [.expiry t.expiryOrder t.clock]

def Prober.step (p : Prober Addr) : ProbeEvent Addr → Prober Addr
  | .register addr => p.register addr
  | .ping addr sent => p.ping addr sent
  | .datagram bytes => (p.receive cfg.failThreshold bytes).1
  | .expiry iter clock => p.expire cfg.failThreshold cfg.intervalSecs iter clock

/-- The probes after an event; the first one sent has sequence number 1. -/
def probesStep (probes : List (Probe Addr)) : ProbeEvent Addr → List (Probe Addr)
  | .register _ => probes
  | .ping addr sent => probes ++ [⟨addr, sent, UInt32.ofNat (probes.length + 1), .outstanding⟩]
  | .datagram bytes => match parsePong (bytes.take pongLen) with
    | some seq => probes.map (Probe.settle (fun e => e.1 = seq) .answered)
    | none => probes
  | .expiry _ clock =>
    probes.map (Probe.settle (fun e => Prober.tooOld cfg.intervalSecs clock e.1 e.2.2) .expired)

/-- Fewer than `2 ^ 32` pings are sent while one is outstanding. -/
def NoWrap (probes : List (Probe Addr)) : List (ProbeEvent Addr) → Prop
  | [] => True
  | e :: events => (∀ addr sent, e = .ping addr sent → ∀ (i : ℕ) (q : Probe Addr),
      probes[i]? = some q → q.fate = .outstanding → probes.length - i < 2 ^ 32)
    ∧ NoWrap (probesStep cfg probes e) events

/-- The length of the most recent run of failures of an address in a log of outcomes, the newest
first. -/
def failRun (addr : Addr) (log : List (Addr × Bool)) : ℕ :=
  ((log.filter fun e => e.1 = addr).takeWhile fun e => !e.2).length

/-- The loop's memory after its ticks, each with the addresses it has read. -/
def Prober.ticks (p : Prober Addr) (ticks : List (Meta Addr × Tick Addr)) : Prober Addr :=
  ticks.foldl (fun p t => (p.probe cfg t.2 t.1).1) p

end Runs

end BlazeNet

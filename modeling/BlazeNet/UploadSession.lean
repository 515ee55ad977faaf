import BlazeNet.UploadDelta

/-!
# An upload and its origin

A call of `upload_delta` with the origin that answers it: the query is looked up in the store there,
a stream of the game takes what the task has sent, in its order, and the acks come back in theirs.
All else at the origin goes on in between: other streams, commits, restarts. The places of the
streams shift as others end, so that a message may come on any stream of the game.
-/

namespace BlazeNet

open Wire FaultIo Io RustStd

/-- A call and its origin. `client` is none until the query is answered, `taken` is how many of the
sent chunks the origin has taken, and `acks` are on their way. -/
structure UploadSession where
  origin : Origin
  call : UploadCall
  client : Option UploadState
  taken : ℕ
  acks : List UploadAck

inductive SessionMove where
  /-- The query is answered; the answer may be lost, and the process may die of it. -/
  | query (openFaults faults : List (Fault AnyError)) (lost : Option Status) (died : Status)
  /-- The task reads the next chunk and sends it. -/
  | read
  | opened (refused : Option Status)
  /-- The origin takes the next chunk, as the first one of a new stream or on one that goes on. -/
  | serve (stream : Option ℕ) (openFaults faults : List (Fault AnyError))
  /-- The loop takes the next ack, or the status that the transport gives instead. -/
  | recv (failed : Option Status)
  | ended
  /-- Whatever else happens at the origin. -/
  | other (a : OriginAct)

namespace UploadSession

variable (blake3 : Bytes → Hash)

def begin (origin : Origin) (call : UploadCall) : UploadSession := ⟨origin, call, none, 0, []⟩

/-- A move of the client's own. -/
def move (s : UploadSession) (m : UploadMove) : UploadSession :=
  { s with client := s.client.map fun c => s.call.step c m }

/-- What the query is answered. -/
def replyOf (s : UploadSession) (openFaults faults : List (Fault AnyError)) (lost : Option Status)
    (died : Status) : Except Status (List Bytes) :=
  match s.origin.existing s.call.gameId (s.call.hashes.map (·.bytes)) openFaults faults, lost with
  | none, _ => .error died
  | some _, some status => .error status
  | some reply, none => reply

/-- A token that is no metadata value ends the call before the query is sent. -/
def query (s : UploadSession) (openFaults faults : List (Fault AnyError)) (lost : Option Status)
    (died : Status) : UploadSession :=
  match s.client, s.call.attachToken with
  | some _, _ => s
  | none, .error _ => { s with client := some s.call.start }
  | none, .ok () =>
    let call := { s.call with reply := s.replyOf openFaults faults lost died }
    { s with
      origin := s.origin.queryExisting s.call.gameId (s.call.hashes.map (·.bytes)) openFaults faults
      call := call
      client := some call.start }

/-- The first message begins a stream; the others come on one of the game. -/
def takes (s : UploadSession) : Option ℕ → Bool
  | none => s.taken = 0
  | some i => 0 < s.taken && (s.origin.streams[i]?).any fun st => st.gameId = s.call.gameId

def serve (s : UploadSession) (stream : Option ℕ) (openFaults faults : List (Fault AnyError)) :
    UploadSession :=
  match s.client.bind fun c => c.sent[s.taken]? with
  | none => s
  | some chunk =>
    if s.takes stream then { s with
      origin := s.origin.receive blake3 stream chunk openFaults faults
      taken := s.taken + 1
      acks := s.acks
        ++ ((s.origin.ackOf blake3 stream chunk openFaults faults).map (·.2)).toList }
    else s

def recv (s : UploadSession) (failed : Option Status) : UploadSession :=
  match s.client.map UploadState.phase, failed, s.acks with
  | some .receiving, some status, _ => s.move (.recv (.error status))
  | some .receiving, none, ack :: acks => { s.move (.recv (.ok ack)) with acks := acks }
  | _, _, _ => s

def step (s : UploadSession) : SessionMove → UploadSession
  | .query openFaults faults lost died => s.query openFaults faults lost died
  | .read => s.move .read
  | .opened refused => s.move (.opened refused)
  | .serve stream openFaults faults => s.serve blake3 stream openFaults faults
  | .recv failed => s.recv failed
  | .ended => if s.acks = [] then s.move .ended else s
  | .other a => { s with origin := s.origin.step blake3 a }

def run (s : UploadSession) (moves : List SessionMove) : UploadSession :=
  moves.foldl (step blake3) s

/-- Every pack is below 4 GiB in every state of the run from `s`. -/
def FitRun (s : UploadSession) : List SessionMove → Prop
  | [] => s.origin.PacksFit
  | m :: moves => s.origin.PacksFit ∧ (s.step blake3 m).FitRun moves

/-- The call has returned the summary. -/
def Returns (s : UploadSession) (summary : UploadSummary) : Prop :=
  s.client.map UploadState.phase = some (.returned (.ok summary))

end UploadSession

section Properties

variable (blake3 : Bytes → Hash)

/-- The game has the chunk, whatever else happens at the origin while the packs are below 4 GiB. -/
def Origin.KeepsHolding (s : Origin) (g : UInt64) (hash : Hash) : Prop :=
  ∀ later, s.FitRun blake3 later → ((s.run blake3 later).games g).Holds blake3 g hash

/-- A commit that meets no fault is not turned down: its manifest is written, and it goes on to the
scheduler or is answered as published. -/
def Origin.Accepts (s : Origin) (req : CommitRequest) : Prop :=
  ∀ order, let s' := s.commit blake3 req order [] []
    s'.published req.gameId req.version = some req.manifest
      ∧ if s.scheduler then s'.commits = s.commits ++ [⟨req.gameId, req.version, req.manifest⟩]
        else s'.replies = ⟨req.gameId, req.version, req.manifest, .ok ⟨true, ""⟩⟩ :: s.replies

/-- A summary counts nothing that is not in the store; and one that counts all the chunks has every
version accepted that refers to none but them. -/
structure UploadSession.Delivers (s : UploadSession) (summary : UploadSummary) : Prop where
  counted : ∃ held : List Hash, held.Nodup ∧ held ⊆ s.call.hashes
    ∧ held.length = summary.skipped + summary.uploaded
    ∧ ∀ hash ∈ held, s.origin.KeepsHolding blake3 s.call.gameId hash
  accepted : summary.skipped + summary.uploaded = s.call.hashes.length →
    ∀ later req index, checkCommit blake3 req = .ok index → req.gameId = s.call.gameId →
      index.chunkSet ⊆ s.call.hashes → (s.origin.run blake3 later).Accepts blake3 req

end Properties

end BlazeNet

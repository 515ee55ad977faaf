import BlazeNet.Uploads

/-!
# The upload client

`upload_delta` of the crate `producer` asks the origin which chunks it has and uploads the others: a
task reads the staged chunks one after another and sends them, while the acks are counted as they
come. The two interleave in any order, and so does what the server makes of its stream of acks.
-/

namespace BlazeNet

open Wire FaultIo Io RustStd

structure UploadSummary where
  uploaded : ℕ
  skipped : ℕ
  failed : List Hash
  deriving DecidableEq

inductive UploadError where
  | status (status : Status)
  | msg (text : String)
  | panicked (text : String)
  deriving DecidableEq

/-- What a call is given, what it finds in the stage directory and how its query is answered.
`tokenOk` says what `MetadataValue::from_str` takes; `content` is what reading a staged chunk gives,
none if it fails. -/
structure UploadCall where
  gameId : UInt64
  stageDir : String
  hashes : List Hash
  token : Option String
  tokenOk : String → Bool
  reply : Except Status (List Bytes)
  staged : Hash → Bool
  content : Hash → Option Bytes

inductive UploadPhase where
  /-- The call of `upload_chunks` has not been answered. -/
  | opening
  | receiving
  | returned (result : Except UploadError UploadSummary)
  deriving DecidableEq

/-- `unread` and `sent` are the task's; `acks` is what the loop has taken in. -/
structure UploadState where
  unread : List (Hash × ℕ)
  sent : List UploadChunk
  failures : List Hash
  summary : UploadSummary
  acks : List UploadAck
  phase : UploadPhase

inductive UploadMove where
  /-- The task reads the next chunk and sends it. -/
  | read
  | opened (refused : Option Status)
  | recv (item : Except Status UploadAck)
  | ended

namespace UploadState

def returning (s : UploadState) (result : Except UploadError UploadSummary) : UploadState :=
  { s with phase := .returned result }

/-- One ack; the hash of a failed chunk is taken to be one. -/
def count (s : UploadState) (ack : UploadAck) : UploadState :=
  let s := { s with acks := s.acks ++ [ack] }
  if ack.ok then { s with summary := { s.summary with uploaded := s.summary.uploaded + 1 } }
  else match Hash.ofBytes? ack.chunkHash with
    | none => s.returning (.error (.panicked "服务端返回 32 字节哈希"))
    | some hash => { s with summary := { s.summary with failed := s.summary.failed ++ [hash] } }

/-- The result once the acks have ended. -/
def finish (s : UploadState) : Except UploadError UploadSummary :=
  match s.failures with
  | [] => .ok s.summary
  | hash :: _ => .error (.msg s!"读取暂存块失败 {s.failures.length} 块，示例: {hex hash.bytes}")

end UploadState

namespace UploadCall

variable (c : UploadCall)

def attachToken : Except UploadError Unit :=
  match c.token with
  | none => .ok ()
  | some token => if c.tokenOk s!"Bearer {token}" then .ok () else .error (.msg "Token 格式非法")

def hashOfReply (bytes : Bytes) : Except UploadError Hash :=
  match Hash.ofBytes? bytes with
  | none => .error (.panicked "服务端返回 32 字节哈希")
  | some hash => .ok hash

def queryExisting : Except UploadError (List Hash) := do
  c.attachToken
  match c.reply with
  | .error status => .error (.status status)
  | .ok existing => existing.mapM hashOfReply

def stagePath (hash : Hash) : String := s!"{c.stageDir}/{hex hash.bytes}.blk"

/-- The call up to its first wait for the server's stream. -/
def start : UploadState :=
  let state (unread : List (Hash × ℕ)) (skipped : ℕ) (phase : UploadPhase) : UploadState :=
    ⟨unread, [], [], ⟨0, skipped, []⟩, [], phase⟩
  match c.queryExisting with
  | .error e => state [] 0 (.returned (.error e))
  | .ok existing =>
    let missing := c.hashes.filter fun hash => !existing.contains hash
    if missing.isEmpty then state [] existing.length (.returned (.ok ⟨0, existing.length, []⟩))
    else match missing.find? fun hash => !c.staged hash with
      | some hash =>
        state [] existing.length (.returned (.error (.msg s!"暂存块缺失: {c.stagePath hash}")))
      | none => match c.attachToken with
        | .error e => state missing.zipIdx existing.length (.returned (.error e))
        | .ok () => state missing.zipIdx existing.length .opening

def read (s : UploadState) : UploadState :=
  match s.unread with
  | [] => s
  | (hash, seq) :: rest => match c.content hash with
    | some data => { s with
        unread := rest, sent := s.sent ++ [⟨c.gameId, hash.bytes, data, UInt32.ofNat seq⟩] }
    | none => { s with unread := rest, failures := s.failures ++ [hash] }

def step (s : UploadState) : UploadMove → UploadState
  | .read => c.read s
  | .opened refused => match s.phase, refused with
    | .opening, none => { s with phase := .receiving }
    | .opening, some status => s.returning (.error (.status status))
    | _, _ => s
  | .recv item => match s.phase, item with
    | .receiving, .error status => s.returning (.error (.status status))
    | .receiving, .ok ack => s.count ack
    | _, _ => s
  | .ended => match s.phase with
    | .receiving => s.returning s.finish
    | _ => s

def run (moves : List UploadMove) : UploadState := moves.foldl c.step c.start

end UploadCall

section Streams

/-- The loop can count the ack. -/
def UploadAck.Readable (ack : UploadAck) : Bool := ack.ok || (Hash.ofBytes? ack.chunkHash).isSome

/-- The acks up to the end of the stream; none where it does not end, or not without an error. -/
def acksUntilEnd : Bool → List UploadMove → Option (List UploadAck)
  | _, [] => none
  | opened, .read :: moves => acksUntilEnd opened moves
  | false, .opened none :: moves => acksUntilEnd true moves
  | false, .opened (some _) :: _ => none
  | true, .opened _ :: moves => acksUntilEnd true moves
  | false, .recv _ :: moves => acksUntilEnd false moves
  | true, .recv (.error _) :: _ => none
  | true, .recv (.ok ack) :: moves =>
    if ack.Readable then (acksUntilEnd true moves).map (ack :: ·) else none
  | false, .ended :: moves => acksUntilEnd false moves
  | true, .ended :: _ => some []

/-- How many chunks the task has gone on to read by then. -/
def readsUntilEnd : Bool → List UploadMove → ℕ
  | _, [] => 0
  | opened, .read :: moves => readsUntilEnd opened moves + 1
  | opened, .opened refused :: moves => readsUntilEnd (opened || refused.isNone) moves
  | opened, .recv _ :: moves => readsUntilEnd opened moves
  | false, .ended :: moves => readsUntilEnd false moves
  | true, .ended :: _ => 0

variable (c : UploadCall)

/-- The server answers the query, if it does, with some of the hashes. -/
def UploadCall.AnswersSome : Prop := ∀ reply, c.reply = .ok reply →
  ∃ existing : List Hash, reply = existing.map (·.bytes) ∧ existing.Nodup
    ∧ ∀ hash ∈ existing, hash ∈ c.hashes

/-- Where the call returns a summary, every chunk is accounted for in it. -/
def UploadCall.Accounts (moves : List UploadMove) : Prop :=
  ∀ summary, (c.run moves).phase = .returned (.ok summary) →
    (∀ hash ∈ c.hashes, (∃ reply, c.reply = .ok reply ∧ hash.bytes ∈ reply)
      ∨ ∃ ack ∈ (c.run moves).acks, ack.chunkHash = hash.bytes)
    ∧ summary.skipped + summary.uploaded + summary.failed.length = c.hashes.length

/-- What the answer to the query leaves to be uploaded. -/
def UploadCall.missing (reply : List Bytes) : List Hash :=
  c.hashes.filter fun hash => hash.bytes ∉ reply

/-- There is something to upload, and what is to be sent is there to be sent. -/
structure UploadCall.Begins (reply : List Bytes) : Prop where
  token : c.attachToken = .ok ()
  answered : c.reply = .ok reply
  needed : c.missing reply ≠ []
  staged : ∀ hash ∈ c.missing reply, c.staged hash

/-- Where the upload is begun and the acks end without an error, and all chunks read by then could
be read, the acks are one for each chunk that is to be uploaded. -/
def UploadCall.AckedOnce (moves : List UploadMove) : Prop :=
  ∀ reply, c.Begins reply → ∀ acks, acksUntilEnd false moves = some acks →
    (∀ hash ∈ (c.missing reply).take (readsUntilEnd false moves), (c.content hash).isSome) →
      (acks.map (·.chunkHash)).Perm ((c.missing reply).map (·.bytes))

end Streams

end BlazeNet

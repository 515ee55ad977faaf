import BlazeNet.Control
import BlazeNet.StoreRun

/-!
# The origin server

The upload service of the crate `origin`: upload streams verify every chunk and append it to the
store of the game, `QueryExistingChunks` looks chunks up, and `CommitVersion` writes the manifest of
a version whose chunks are all there to `published/<version>.gameindex` and then, without the lock,
publishes it at the scheduler. The messages of all streams, the lookups, the commits and the publish
calls interleave in any order; a process that dies starts again over its files.
-/

namespace BlazeNet

open Wire FaultIo Io RustStd GameStore

section Handlers

abbrev Rpc (σ : Type) := ExceptT Status (Io AnyError σ)

/-- `map_err(..)?` with an internal status. -/
def orStatus {σ α : Type} (text : String) (p : Io AnyError σ α) : Rpc σ α := ExceptT.mk do
  match ← attempt p with
  | .ok a => pure (.ok a)
  | .error e => pure (.error (internal text e))

def badHashLen : Status := ⟨.invalidArgument, "块哈希必须为 32 字节"⟩

structure UploadAck where
  chunkHash : Bytes
  ok : Bool
  error : String
  deriving DecidableEq

variable (blake3 : Bytes → Hash)

/-- One message of an upload stream, on the store of the stream's game. -/
def processChunk (chunkHash data : Bytes) : Rpc OpenStore UploadAck :=
  match Hash.ofBytes? chunkHash with
  | none => throw badHashLen
  | some hash =>
    if blake3 data ≠ hash then pure ⟨hash.bytes, false, "块哈希校验失败"⟩
    else ExceptT.mk do
      match ← attempt (appendChunk hash data) with
      | .ok _ => pure (.ok ⟨hash.bytes, true, ""⟩)
      | .error e => pure (.ok ⟨hash.bytes, false, e.display⟩)

/-- The loop of `query_existing_chunks`. -/
def existingChunks : List Bytes → Rpc OpenStore (List Bytes)
  | [] => pure []
  | bytes :: rest => match Hash.ofBytes? bytes with
    | none => throw badHashLen
    | some hash => do
      let found ← orStatus "查询块失败" (contains hash)
      let more ← existingChunks rest
      pure (if found then hash.bytes :: more else more)

structure CommitRequest where
  gameId : UInt64
  version : UInt64
  manifest : Bytes
  manifestHash : Bytes
  deriving DecidableEq

structure CommitReply where
  published : Bool
  error : String
  deriving DecidableEq

/-- The checks of `commit_version` before it takes the lock. -/
def checkCommit (req : CommitRequest) : Except Status GameIndex :=
  if req.gameId = 0 || req.version = 0 then
    .error ⟨.invalidArgument, "game_id 与 version 必须大于 0"⟩
  else if req.manifest.length < 32 then .error ⟨.invalidArgument, "版本清单长度不足"⟩
  else match Hash.ofBytes? req.manifestHash with
    | none => .error ⟨.invalidArgument, "manifest_hash 必须为 32 字节"⟩
    | some expected =>
      if blake3 (req.manifest.take (req.manifest.length - 32)) ≠ expected then
        .error ⟨.invalidArgument, "manifest_hash 校验失败"⟩
      else match GameIndex.decode blake3 req.manifest with
        | .error e => .error ⟨.invalidArgument, "版本清单解析失败: " ++ e.display⟩
        | .ok index => .ok index

/-- The chunks that are missing, of which five are enough. -/
def findMissing : List Hash → List Hash → StoreIo (List Hash)
  | [], missing => pure missing
  | hash :: hashes, missing => do
    if ← contains hash then findMissing hashes missing
    else if (missing ++ [hash]).length ≥ 5 then pure (missing ++ [hash])
    else findMissing hashes (missing ++ [hash])

/-- What a commit works on: the store and the game's published manifests, by version. -/
structure CommitDisk where
  store : OpenStore
  published : UInt64 → Option Bytes

/-- `published/<version>.gameindex`. -/
def publishedPath (version : UInt64) : PathRef CommitDisk where
  content d := d.published version
  put b d := { d with published := Function.update d.published version b }
  content_put _ _ := Function.update_self ..
  put_put _ _ _ := by simp
  put_content _ := by simp

/-- `fs::write`. -/
def writePath {σ : Type} (dst : PathRef σ) (data : Bytes) : Io AnyError σ Unit := do
  atomic fun s => (.ok (), dst.put (some []) s)
  writeAllAt dst data 0

/-- The part of `commit_version` under the lock: the missing chunks, or the manifest is written. -/
def commitLocked (version : UInt64) (manifest : Bytes) (hashes : List Hash) :
    Rpc CommitDisk (List Hash) := do
  let missing ← orStatus "查询块失败"
    (zoom (·.store) (fun st d => { d with store := st }) (findMissing hashes []))
  if !missing.isEmpty then pure missing
  else do
    orStatus "创建发布目录失败" (query fun _ => .ok ())
    orStatus "写入版本清单失败" (writePath (publishedPath version) manifest)
    pure []

def missingReply (missing : List Hash) : CommitReply :=
  ⟨false, "版本清单引用的块未齐全，缺失示例: " ++ ",".intercalate (missing.map fun h => hex h.bytes)⟩

end Handlers

structure UploadStream where
  gameId : UInt64
  acks : List UploadAck

/-- A commit whose manifest is written and not yet published. -/
structure PendingPublish where
  gameId : UInt64
  version : UInt64
  manifest : Bytes

/-- A commit that has been answered. -/
structure Committed where
  gameId : UInt64
  version : UInt64
  manifest : Bytes
  reply : Except Status CommitReply

/-- The origin with its scheduler; `replies` is the answered commits, the newest first. -/
structure Origin where
  scheduler : Bool
  games : UInt64 → StoreSys
  published : UInt64 → UInt64 → Option Bytes
  streams : List UploadStream
  commits : List PendingPublish
  replies : List Committed
  sched : Sched

/-- How the call of `publish_version` goes. -/
inductive PublishCall where
  /-- The scheduler is not reached. -/
  | unreachable (error : String)
  /-- The request is handled; its answer may be lost on the way. -/
  | handled (faults : List (Fault AnyError)) (lost : Option String)

inductive OriginAct where
  | firstChunk (gameId : UInt64) (chunkHash data : Bytes)
      (openFaults faults : List (Fault AnyError))
  | nextChunk (i : ℕ) (chunkHash data : Bytes) (faults : List (Fault AnyError))
  | endStream (i : ℕ)
  | query (gameId : UInt64) (hashes : List Bytes) (openFaults faults : List (Fault AnyError))
  | commit (req : CommitRequest) (order : IterOrder Hash)
      (openFaults faults : List (Fault AnyError))
  | publish (i : ℕ) (call : PublishCall)
  | restart

namespace Origin

def init (scheduler : Bool) : Origin :=
  ⟨scheduler, fun _ => .closed ⟨none, none, none⟩, fun _ _ => none, [], [], [], .empty⟩

def setGame (s : Origin) (gameId : UInt64) (sys : StoreSys) : Origin :=
  { s with games := Function.update s.games gameId sys }

/-- The process starts again over its files. -/
def restart (s : Origin) : Origin :=
  { s with games := fun g => .closed (s.games g).dir, streams := [], commits := [] }

/-- The entry of a game in the map of stores, opened if need be; `none` where that fails, with its
status if the process lives. -/
def openGame (s : Origin) (gameId : UInt64) (faults : List (Fault AnyError)) :
    Origin × Except (Option Status) OpenStore :=
  match s.games gameId with
  | .opened store => (s, .ok store)
  | .closed dir => match (openStore gameId).run ⟨dir, faults⟩ with
    | (.ok self, w) =>
      let store : OpenStore :=
        ⟨self, w.state.index.getD ∅, w.state.pack.getD [], w.state.packCompact⟩
      (s.setGame gameId (.opened store), .ok store)
    | (.error (.err e), w) =>
      (s.setGame gameId (.closed w.state), .error (some (internal "打开块库失败" e)))
    | (.error .killed, w) => ((s.setGame gameId (.closed w.state)).restart, .error none)

variable (blake3 : Bytes → Hash)

/-- A message on a stream of game `gameId`; the stream goes on with its answer, or ends. -/
def message (s : Origin) (gameId : UInt64) (store : OpenStore) (chunkHash data : Bytes)
    (faults : List (Fault AnyError)) (next : Option UploadAck → Origin → Origin) : Origin :=
  match (processChunk blake3 chunkHash data).run.run ⟨store, faults⟩ with
  | (.ok (.ok ack), w) => next (some ack) (s.setGame gameId (.opened w.state))
  | (.ok (.error _), w) => next none (s.setGame gameId (.opened w.state))
  | (.error _, w) => (s.setGame gameId (.opened w.state)).restart

def firstChunk (s : Origin) (gameId : UInt64) (chunkHash data : Bytes)
    (openFaults faults : List (Fault AnyError)) : Origin :=
  if gameId = 0 then s
  else match s.openGame gameId openFaults with
    | (s, .error _) => s
    | (s, .ok store) => s.message blake3 gameId store chunkHash data faults fun r s =>
      match r with
      | some ack => { s with streams := s.streams ++ [⟨gameId, [ack]⟩] }
      | none => s

def nextChunk (s : Origin) (i : ℕ) (chunkHash data : Bytes) (faults : List (Fault AnyError)) :
    Origin :=
  match s.streams[i]? with
  | none => s
  | some stream => match s.games stream.gameId with
    | .closed _ => s
    | .opened store => s.message blake3 stream.gameId store chunkHash data faults fun r s =>
      match r with
      | some ack =>
        { s with streams := s.streams.set i { stream with acks := stream.acks ++ [ack] } }
      | none => { s with streams := s.streams.eraseIdx i }

/-- `query_existing_chunks`; its answer is for the caller only. -/
def queryExisting (s : Origin) (gameId : UInt64) (hashes : List Bytes)
    (openFaults faults : List (Fault AnyError)) : Origin :=
  if gameId = 0 then s
  else match s.openGame gameId openFaults with
    | (s, .error _) => s
    | (s, .ok store) => match (existingChunks hashes).run.run ⟨store, faults⟩ with
      | (.ok _, w) => s.setGame gameId (.opened w.state)
      | (.error _, w) => (s.setGame gameId (.opened w.state)).restart

def answer (s : Origin) (req : CommitRequest) (reply : Except Status CommitReply) : Origin :=
  { s with replies := ⟨req.gameId, req.version, req.manifest, reply⟩ :: s.replies }

/-- `commit_version` up to the publish call. -/
def commit (s : Origin) (req : CommitRequest) (order : IterOrder Hash)
    (openFaults faults : List (Fault AnyError)) : Origin :=
  match checkCommit blake3 req with
  | .error status => s.answer req (.error status)
  | .ok index => match s.openGame req.gameId openFaults with
    | (s, .error none) => s
    | (s, .error (some status)) => s.answer req (.error status)
    | (s, .ok store) =>
      let p := commitLocked req.version req.manifest (order.order index.chunkSet)
      match p.run.run ⟨⟨store, s.published req.gameId⟩, faults⟩ with
      | (r, w) =>
        let s := { s.setGame req.gameId (.opened w.state.store) with
          published := Function.update s.published req.gameId w.state.published }
        match r with
        | .error _ => s.restart
        | .ok (.error status) => s.answer req (.error status)
        | .ok (.ok (hash :: missing)) => s.answer req (.ok (missingReply (hash :: missing)))
        | .ok (.ok []) =>
          if s.scheduler then
            { s with commits := s.commits ++ [⟨req.gameId, req.version, req.manifest⟩] }
          else s.answer req (.ok ⟨true, ""⟩)

/-- The publish call of a commit and the answer to the commit. -/
def publish (s : Origin) (i : ℕ) (call : PublishCall) : Origin :=
  match s.commits[i]? with
  | none => s
  | some c =>
    let s := { s with commits := s.commits.eraseIdx i }
    let answered (s : Origin) (reply : CommitReply) : Origin :=
      { s with replies := ⟨c.gameId, c.version, c.manifest, .ok reply⟩ :: s.replies }
    let failed (error : String) : CommitReply := ⟨false, "发布到调度中心失败: " ++ error⟩
    match call with
    | .unreachable error => answered s (failed error)
    | .handled faults lost =>
      match (publishVersion c.gameId c.version c.manifest).run.run ⟨s.sched, faults⟩, lost with
      | (.ok (.ok ()), w), none => answered { s with sched := w.state } ⟨true, ""⟩
      | (.ok (.ok ()), w), some error => answered { s with sched := w.state } (failed error)
      | (.ok (.error status), w), _ =>
        answered { s with sched := w.state } (failed ("发布版本失败: " ++ status.message))
      | (.error _, w), _ =>
        answered { s with sched := { w.state with pending := fun _ => [] } } (failed "发布版本失败")

def step (s : Origin) : OriginAct → Origin
  | .firstChunk gameId chunkHash data openFaults faults =>
    s.firstChunk blake3 gameId chunkHash data openFaults faults
  | .nextChunk i chunkHash data faults => s.nextChunk blake3 i chunkHash data faults
  | .endStream i => { s with streams := s.streams.eraseIdx i }
  | .query gameId hashes openFaults faults => s.queryExisting gameId hashes openFaults faults
  | .commit req order openFaults faults => s.commit blake3 req order openFaults faults
  | .publish i call => s.publish i call
  | .restart => s.restart

def run (s : Origin) (acts : List OriginAct) : Origin := acts.foldl (step blake3) s

end Origin

section Properties

variable (blake3 : Bytes → Hash)

/-- The store has the chunk, with bytes of that hash. -/
def OpenStore.Holds (s : OpenStore) (hash : Hash) : Prop :=
  exec (contains hash) s = (.ok true, s)
    ∧ ∃ data, exec (readChunk hash) s = (.ok (some data), s) ∧ blake3 data = hash

/-- The same of a store that may have to be opened first. -/
def StoreSys.Holds (gameId : UInt64) (sys : StoreSys) (hash : Hash) : Prop :=
  match sys with
  | .opened s => s.Holds blake3 hash
  | .closed dir => ∃ s, (StoreSys.closed dir).reopen gameId [] = .opened s ∧ s.Holds blake3 hash

/-- The index has an entry for the chunk. -/
def StoreSys.knows (gameId : UInt64) (sys : StoreSys) (hash : Hash) : Bool :=
  ((sys.dir.index.getD ∅)[key gameId hash]?).isSome

/-- Every commit that was answered as published has all its chunks in the store. -/
def Origin.Complete (s : Origin) : Prop :=
  ∀ c ∈ s.replies, ∀ error, c.reply = .ok ⟨true, error⟩ →
    ∃ index, GameIndex.decode blake3 c.manifest = .ok index
      ∧ ∀ hash ∈ index.chunkSet, (s.games c.gameId).Holds blake3 c.gameId hash

def Origin.PacksFit (s : Origin) : Prop :=
  ∀ g, ((s.games g).dir.pack.getD []).length < 2 ^ 32

/-- Every pack is below 4 GiB in every state of the run from `s`. -/
def Origin.FitRun (s : Origin) : List OriginAct → Prop
  | [] => s.PacksFit
  | a :: acts => s.PacksFit ∧ (s.step blake3 a).FitRun acts

/-- The commits of a version that have written its file and are not answered yet. -/
def Origin.pendingOf (s : Origin) (g v : UInt64) : List PendingPublish :=
  s.commits.filter fun c => c.gameId = g && c.version = v

/-- A commit has been answered as published in the step from `s` to `s'`. -/
def Origin.answeredPublished (s s' : Origin) : Bool :=
  match s'.replies with
  | ⟨_, _, _, .ok reply⟩ :: rest => rest.length = s.replies.length && reply.published
  | _ => false

/-- Whether the last commit that got to the file of a version was alone with it and has, once it is
over, been answered as published; `alone` says so before the step from `s` to `s'`. -/
def Origin.aloneAfter (g v : UInt64) (s s' : Origin) (alone : Bool) : Bool :=
  -- a commit has written the file and goes on to publish
  if (s'.pendingOf g v).length > (s.pendingOf g v).length then (s.pendingOf g v).isEmpty
  -- a commit is over, by an answer or with its process
  else if (s'.pendingOf g v).length < (s.pendingOf g v).length then
    alone && s.answeredPublished s'
  -- a write that failed may have changed the file
  else alone && s'.published g v = s.published g v

/-- The same over a run, in which no commit has got to the file at first. -/
def Origin.aloneRun (g v : UInt64) (s : Origin) (alone : Bool) : List OriginAct → Bool
  | [] => alone
  | a :: acts => (s.step blake3 a).aloneRun g v (s.aloneAfter g v (s.step blake3 a) alone) acts

end Properties

end BlazeNet

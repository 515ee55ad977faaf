import BlazeNet.Peers
import BlazeNet.Storage

/-!
# Downloading missing chunks

`fetch_chunks` and `download_missing` of the crate `agent`. The fetches of a round run side by side;
what the network brings them is a list of events in the order in which they happen, each with the
faults that the sink meets then. A run that has used up its events and still waits, or whose process
has died, has not returned.
-/

namespace BlazeNet

open Wire FaultIo Io RustStd

section Fetch

structure FetchStats where
  downloaded : ℕ
  bytes : ℕ
  failed : List Hash
  deriving DecidableEq

def FetchStats.empty : FetchStats := ⟨0, 0, []⟩

/-- What the network brings a fetch next: its connection is up and the request sent; a call on the
connection fails; the length of the next chunk cannot be read; a chunk. -/
inductive NetEvent where
  | connected
  | broken (e : AnyError)
  | noLength
  | chunk (data : Bytes)

inductive FetchPhase where
  | dialing
  | reading (rest : List Hash) (stats : FetchStats)
  | finished (result : Except AnyError FetchStats)

def FetchPhase.isFinished : FetchPhase → Bool
  | .finished _ => true
  | _ => false

/-- The loop over the hashes goes on, or is at its end. -/
def FetchPhase.after (rest : List Hash) (stats : FetchStats) : FetchPhase :=
  if rest.isEmpty then .finished (.ok stats) else .reading rest stats

variable {σ : Type} (blake3 : Bytes → Hash) (sink : Hash → Bytes → Io AnyError σ Unit)

def storeChunk (hash : Hash) (data : Bytes) : Io AnyError σ Bool :=
  if blake3 data ≠ hash then pure false
  else do
    sink hash data
    pure true

/-- A fetch of `hashes` goes on with what comes next. -/
def fetchNext (hashes : List Hash) : FetchPhase → NetEvent → Io AnyError σ FetchPhase
  | .dialing, .connected => pure (.after hashes .empty)
  | .dialing, .broken e => pure (.finished (.error e))
  | .reading (_ :: _) _, .broken e => pure (.finished (.error e))
  | .reading (hash :: rest) stats, .noLength =>
    pure (.after rest { stats with failed := stats.failed ++ [hash] })
  | .reading (hash :: rest) stats, .chunk data => do
    match ← attempt (storeChunk blake3 sink hash data) with
    | .error e => pure (.finished (.error e))
    | .ok false => pure (.after rest { stats with failed := stats.failed ++ [hash] })
    | .ok true => pure (.after rest { stats with
        downloaded := stats.downloaded + 1, bytes := stats.bytes + data.length })
  | phase, _ => pure phase

end Fetch

section Pool

/-- A spawned fetch; `endpoint` is its `target_key`. -/
structure FetchTask where
  endpoint : String
  hashes : List Hash
  phase : FetchPhase

structure Event where
  task : ℕ
  net : NetEvent
  faults : List (Fault AnyError)

/-- The fetches of a round, what they share, and the order in which they have ended. -/
structure Pool (τ : Type) where
  shared : τ
  tasks : List FetchTask
  order : List ℕ

variable {τ : Type} (blake3 : Bytes → Hash) (sink : Hash → Bytes → Io AnyError τ Unit)

def Pool.step (e : Event) (pool : Pool τ) : Option (Pool τ) :=
  match pool.tasks[e.task]? with
  | none => some pool
  | some task =>
    match (fetchNext blake3 sink task.hashes task.phase e.net).run ⟨pool.shared, e.faults⟩ with
    | (.error _, _) => none
    | (.ok phase, w) => some {
        shared := w.state
        tasks := pool.tasks.set e.task { task with phase }
        order := if !task.phase.isFinished && phase.isFinished then pool.order ++ [e.task]
          else pool.order }

def Pool.run : List Event → Pool τ → Option (Pool τ)
  | [], pool => some pool
  | e :: events, pool => match pool.step blake3 sink e with
    | none => none
    | some pool => Pool.run events pool

/-- The results as `join_next` returns them: what stays unresolved, and the sources to exclude. -/
def joinTasks : List FetchTask → List Hash → List String → List Hash × List String
  | [], next, exclude => (next, exclude)
  | task :: rest, next, exclude => match task.phase with
    | .finished (.ok stats) => joinTasks rest (next ++ stats.failed) exclude
    | .finished (.error _) => joinTasks rest (next ++ task.hashes) (exclude ++ [task.endpoint])
    | _ => joinTasks rest next exclude

end Pool

section Groups

/-- `PeerTarget`, its endpoint and address as texts. -/
structure Target where
  endpoint : String
  addr : Option String
  directOnly : Bool
  deriving DecidableEq

def Target.key (target : Target) : String :=
  target.endpoint ++ "|" ++ target.addr.getD "" ++ "|" ++ toString target.directOnly

/-- The texts of an agent's network: socket addresses, and `canon`, which parses the id of an
endpoint and prints it again. -/
structure NetText (Sock : Type) where
  socket : SocketText Sock
  canon : String → Option String

variable {Sock : Type} (net : NetText Sock)

def targetOfPeer (peer : PeerEntry) (hash : Hash) : Target where
  endpoint := (net.canon peer.endpointId).getD ""
  addr := ((chooseAddr peer hash).bind fun record => net.socket.parse record.addr).map
    net.socket.text
  directOnly := peer.directOnly

def addToGroup (target : Target) (hash : Hash) :
    List (Target × List Hash) → List (Target × List Hash)
  | [] => [(target, [hash])]
  | (t, hashes) :: groups =>
    if t.key = target.key then (t, hashes ++ [hash]) :: groups
    else (t, hashes) :: addToGroup target hash groups

/-- The first loop of a round: the chunks of each source, and those without one. -/
def groupHashes (answers : Hash → Except AnyError (List PeerEntry)) (exclude : List String) :
    List Hash → List (Target × List Hash) → List Hash →
      Except AnyError (List (Target × List Hash) × List Hash)
  | [], groups, next => .ok (groups, next)
  | hash :: hashes, groups, next => match answers hash with
    | .error e => .error e
    | .ok peers => match choosePeer (fun id => (net.canon id).isSome) exclude peers hash with
      | none => groupHashes answers exclude hashes groups (next ++ [hash])
      | some peer =>
        groupHashes answers exclude hashes
          (addToGroup (targetOfPeer net peer hash) hash groups) next

end Groups

section Rounds

/-- What a round meets: the answers of the scheduler, and what the network brings. -/
structure RoundInput where
  answers : Hash → Except AnyError (List PeerEntry)
  events : List Event

/-- Where a round leaves the loop; `stop` where it breaks out of it. -/
structure RoundEnd where
  unresolved : List Hash
  exclude : List String
  stop : Bool

variable {τ Sock : Type} (net : NetText Sock) (blake3 : Bytes → Hash)
  (sink : Hash → Bytes → Io AnyError τ Unit)

def startPool (groups : List (Target × List Hash)) (shared : τ) : Pool τ where
  shared := shared
  tasks := groups.map fun group => ⟨group.1.endpoint, group.2, .dialing⟩
  order := []

/-- The groups that are spawned: `choose_ep` fails for the first without an address. -/
def spawned (groups : List (Target × List Hash)) : List (Target × List Hash) :=
  groups.takeWhile fun group => group.1.addr.isSome

def endRound (groups : List (Target × List Hash)) (next : List Hash) (exclude : List String)
    (pool : Pool τ) : Option (Except AnyError RoundEnd × τ) :=
  if (spawned groups).length < groups.length then
    some (.error (.msg "源无直连地址，无法传输数据（relay 只打洞不传数据）"), pool.shared)
  else if pool.tasks.all fun task => task.phase.isFinished then
    let joined := joinTasks (pool.order.filterMap fun i => pool.tasks[i]?) next exclude
    some (.ok ⟨joined.1, joined.2, false⟩, pool.shared)
  else none

def runRound (input : RoundInput) (exclude : List String) (unresolved : List Hash) (s : τ) :
    Option (Except AnyError RoundEnd × τ) :=
  match groupHashes net input.answers exclude unresolved [] [] with
  | .error e => some (.error e, s)
  | .ok (groups, next) =>
    if groups.isEmpty then some (.ok ⟨next, exclude, true⟩, s)
    else (Pool.run blake3 sink input.events (startPool (spawned groups) s)).bind
      (endRound groups next exclude)

/-- The rounds; returns what is unresolved after them. -/
def runRounds : List RoundInput → List String → List Hash → τ →
    Option (Except AnyError (List Hash) × τ)
  | [], _, unresolved, s => some (.ok unresolved, s)
  | input :: inputs, exclude, unresolved, s =>
    if unresolved.isEmpty then some (.ok [], s)
    else match runRound net blake3 sink input exclude unresolved s with
      | none => none
      | some (.error e, s) => some (.error e, s)
      | some (.ok r, s) =>
        if r.stop then some (.ok r.unresolved, s) else runRounds inputs r.exclude r.unresolved s

end Rounds

section DownloadMissing

/-- The order of `sort` on hashes. -/
def hashLe (a b : Hash) : Bool := a.bytes ≤ b.bytes

structure DownloadInput where
  endpoint : Except AnyError Unit
  first : RoundInput
  second : RoundInput
  fallback : List Event

variable {σ Sock : Type} (net : NetText Sock) (cfg : Config) (blake3 : Bytes → Hash)
  (sink : Hash → Bytes → Io AnyError σ Unit)

/-- The target of the origin, where one is configured. -/
def originTarget : Except AnyError (Option Target) :=
  match cfg.originEndpoint, cfg.originAddr with
  | some endpoint, some addr => match net.canon endpoint, net.socket.parse addr with
    | none, _ => .error (.msg "原始节点端点 ID 非法")
    | some _, none => .error (.msg "原始节点地址非法")
    | some id, some socket => .ok (some ⟨id, some (net.socket.text socket), false⟩)
  | _, _ => .ok none

/-- The sink, and the record of what it has taken. -/
def recordSink (hash : Hash) (data : Bytes) : Io AnyError (σ × List Hash) Unit := do
  zoom Prod.fst (fun s t => (s, t.2)) (sink hash data)
  modify fun t => (t.1, t.2 ++ [hash])

def lackText (gameId : UInt64) (count : ℕ) : String :=
  "游戏 " ++ toString gameId.toNat ++ " 缺 " ++ toString count ++ " 块"

/-- The fetch from the origin, a pool of one. -/
def fetchOrigin (events : List Event) (target : Target) (retry : List Hash) (s : σ × List Hash) :
    Option (Except AnyError (List Hash) × σ) :=
  match Pool.run blake3 (recordSink sink) events (startPool [(target, retry)] s) with
  | none => none
  | some pool => match pool.tasks.head?.map FetchTask.phase with
    | some (.finished (.error e)) => some (.error e, pool.shared.1)
    | some (.finished (.ok stats)) =>
      if !stats.failed.isEmpty then
        some (.error (.msg ("仍有 " ++ toString stats.failed.length ++ " 块下载失败")), pool.shared.1)
      else some (.ok pool.shared.2, pool.shared.1)
    | _ => none

/-- How a download ends, if it does. `unresolved` is what is left after its rounds, if they end, and
`asked` what it then asks of the origin, if anything. -/
structure DownloadRun (σ : Type) where
  unresolved : Option (List Hash)
  asked : Option (Target × List Hash)
  ended : Option (Except AnyError (List Hash) × σ)

/-- What follows the rounds: only chunks assigned to this node may come from the origin. -/
def finishRun (gameId : UInt64) (origin : Option Target) (assigned : List Hash)
    (fallback : List Event) (unresolved : List Hash) (s : σ × List Hash) : DownloadRun σ :=
  let retry := unresolved.filter fun hash => hash ∈ assigned
  let blocked := unresolved.filter fun hash => hash ∉ assigned
  let failed (text : String) (chunks : List Hash) : DownloadRun σ :=
    ⟨some unresolved, none, some (.error (.msg (text ++ lackText gameId chunks.length)), s.1)⟩
  match origin with
  | none =>
    if !blocked.isEmpty then failed "块无候选源且未配置原始节点: " blocked
    else if !retry.isEmpty then failed "块无候选源且未配置原始节点: " retry
    else ⟨some unresolved, none, some (.ok s.2, s.1)⟩
  | some target =>
    if !blocked.isEmpty then failed "等待其他节点完成责任分片后重试: " blocked
    else if !retry.isEmpty then
      let retry := (retry.mergeSort hashLe).dedup
      ⟨some unresolved, some (target, retry), fetchOrigin blake3 sink fallback target retry s⟩
    else ⟨some unresolved, none, some (.ok s.2, s.1)⟩

def finishDownload (gameId : UInt64) (origin : Option Target) (assigned : List Hash)
    (fallback : List Event) (unresolved : List Hash) (s : σ × List Hash) :
    Option (Except AnyError (List Hash) × σ) :=
  (finishRun blake3 sink gameId origin assigned fallback unresolved s).ended

def downloadRun (gameId : UInt64) (missing assigned : List Hash) (input : DownloadInput) (s : σ) :
    DownloadRun σ :=
  if missing.isEmpty then ⟨none, none, some (.ok [], s)⟩
  else match originTarget net cfg, input.endpoint with
    | .error e, _ => ⟨none, none, some (.error e, s)⟩
    | .ok _, .error e => ⟨none, none, some (.error e, s)⟩
    | .ok origin, .ok () =>
      match runRounds net blake3 (recordSink sink) [input.first, input.second] []
        missing (s, []) with
      | none => ⟨none, none, none⟩
      | some (.error e, s) => ⟨none, none, some (.error e, s.1)⟩
      | some (.ok unresolved, s) =>
        finishRun blake3 sink gameId origin assigned input.fallback unresolved s

def downloadMissing (gameId : UInt64) (missing assigned : List Hash) (input : DownloadInput)
    (s : σ) : Option (Except AnyError (List Hash) × σ) :=
  (downloadRun net cfg blake3 sink gameId missing assigned input s).ended

end DownloadMissing

section Idc

/-- The store of the game and the batch that waits to be written. -/
structure IdcState where
  store : OpenStore
  pending : List (Hash × Bytes)

def idcBatchSize : ℕ := 64

/-- The closure `flush_pending`: the batch is taken out before it is written. -/
def flushPending : Io AnyError IdcState Unit := do
  let batch := (← get).pending
  modify fun s => { s with pending := [] }
  if batch.isEmpty then pure ()
  else do
    let _ ← zoom IdcState.store (fun store s => { s with store })
      (GameStore.appendChunksBatch batch)
    pure ()

/-- The sink of `run_idc`. -/
def idcSink (hash : Hash) (data : Bytes) : Io AnyError IdcState Unit := do
  modify fun s => { s with pending := s.pending ++ [(hash, data)] }
  let s ← get
  if s.pending.length ≥ idcBatchSize then flushPending else pure ()

/-- The first loop of `run_idc`. -/
def idcMissing : List Hash → List Hash → StoreIo (List Hash)
  | [], missing => pure missing
  | hash :: hashes, missing => do
    if ← GameStore.contains hash then idcMissing hashes missing
    else idcMissing hashes (missing ++ [hash])

/-- What a run of `run_idc` meets. `reports` are the outcomes of the calls of `report_chunk`; those
after the end of the list succeed. -/
structure IdcInput where
  iter : IterOrder Hash
  scan : List (Fault AnyError)
  download : DownloadInput
  flush : List (Fault AnyError)
  reports : List (Except AnyError Unit)

/-- `report_chunks`: the result, and the reports that were sent. -/
def reportChunks : List Hash → List (Except AnyError Unit) → Except AnyError Unit × List Hash
  | [], _ => (.ok (), [])
  | hash :: hashes, outcomes => match outcomes.headD (.ok ()) with
    | .error e => (.error (e.context "上报块完成失败"), [hash])
    | .ok () =>
      let (result, sent) := reportChunks hashes outcomes.tail
      (result, hash :: sent)

/-- How `run_idc` returned: its result, the reports it sent, and what it left. -/
structure IdcEnd where
  result : Except AnyError Unit
  sent : List Hash
  state : IdcState

variable {Sock : Type} (net : NetText Sock) (cfg : Config) (blake3 : Bytes → Hash)

/-- `run_idc` on the game's open store. -/
def runIdc (gameId : UInt64) (assignedChunks : List Bytes) (index : GameIndex) (input : IdcInput)
    (store : OpenStore) : Option IdcEnd :=
  match (idcMissing (input.iter.order index.chunkSet) []).run ⟨store, input.scan⟩ with
  | (.error (.err e), w) => some ⟨.error e, [], ⟨w.state, []⟩⟩
  | (.error .killed, _) => none
  | (.ok missing, w) =>
    let assigned := assignedChunks.filterMap Hash.ofBytes?
    match downloadMissing net cfg blake3 idcSink gameId (missing.mergeSort hashLe) assigned
        input.download ⟨w.state, []⟩ with
    | none => none
    | some (.error e, s) => some ⟨.error e, [], s⟩
    | some (.ok _, s) => match flushPending.run ⟨s, input.flush⟩ with
      | (.error (.err e), w) => some ⟨.error e, [], w.state⟩
      | (.error .killed, _) => none
      | (.ok (), w) =>
        let reported := reportChunks (index.chunkSet.mergeSort hashLe) input.reports
        some ⟨reported.1, reported.2, w.state⟩

end Idc

section Property

/-- What a fetch has still to bring, or what it gives back when it has ended. -/
def FetchTask.work (task : FetchTask) : List Hash := match task.phase with
  | .dialing => task.hashes
  | .reading rest stats => rest ++ stats.failed
  | .finished (.ok stats) => stats.failed
  | .finished (.error _) => task.hashes

/-- What is asked of the origin after the rounds, if anything is. -/
def originRequest (origin : Option Target) (assigned unresolved : List Hash) :
    Option (Target × List Hash) := match origin with
  | none => none
  | some target =>
    let retry := unresolved.filter fun hash => hash ∈ assigned
    if (unresolved.filter fun hash => hash ∉ assigned).isEmpty ∧ ¬retry.isEmpty then
      some (target, (retry.mergeSort hashLe).dedup)
    else none

/-- A call of the sink whose flush fails takes out only chunks of the fetch that made it. -/
def FlushOwn (blake3 : Bytes → Hash) (task : FetchTask) (e : Event) (s : IdcState × List Hash) :
    Prop :=
  ∀ hash rest stats data, task.phase = .reading (hash :: rest) stats → e.net = .chunk data →
    blake3 data = hash → ∀ err w, (idcSink hash data).run ⟨s.1, e.faults⟩ = (.error (.err err), w) →
      ∀ c ∈ s.1.pending, c.1 ∈ task.hashes

variable {τ Sock : Type} (net : NetText Sock) (blake3 : Bytes → Hash)
  (sink : Hash → Bytes → Io AnyError τ Unit) (P : FetchTask → Event → τ → Prop)

/-- `P` holds of every event when it happens. -/
def Pool.Along : List Event → Pool τ → Prop
  | [], _ => True
  | e :: events, pool => (∀ task, pool.tasks[e.task]? = some task → P task e pool.shared)
    ∧ ∀ pool', pool.step blake3 sink e = some pool' → Pool.Along events pool'

/-- `P` holds of every event of the rounds. -/
def RoundsAlong : List RoundInput → List String → List Hash → τ → Prop
  | [], _, _, _ => True
  | input :: inputs, exclude, unresolved, s =>
    (∀ groups next, groupHashes net input.answers exclude unresolved [] [] = .ok (groups, next) →
      Pool.Along blake3 sink P input.events (startPool (spawned groups) s))
    ∧ ∀ r s', runRound net blake3 sink input exclude unresolved s = some (.ok r, s') →
      RoundsAlong inputs r.exclude r.unresolved s'

/-- In every event of a run of `run_idc`, a flush that fails takes out only chunks of the fetch
whose chunk has made it. -/
def FlushesOwn (index : GameIndex) (input : IdcInput) (store : OpenStore) : Prop :=
  ∀ missing w, (idcMissing (input.iter.order index.chunkSet) []).run ⟨store, input.scan⟩
      = (.ok missing, w) →
    RoundsAlong net blake3 (recordSink idcSink) (FlushOwn blake3)
      [input.download.first, input.download.second] [] (missing.mergeSort hashLe)
        (⟨w.state, []⟩, [])

/-- What `run_idc` returns well on is in the store, and so is whatever it reports. -/
def ReportsTrue (cfg : Config) (gameId : UInt64) (assignedChunks : List Bytes) (index : GameIndex)
    (input : IdcInput) (store : OpenStore) : Prop :=
  ∀ done, runIdc net cfg blake3 gameId assignedChunks index input store = some done →
    (done.result = .ok () →
      ∀ hash ∈ index.chunkSet, (exec (GameStore.contains hash) done.state.store).1 = .ok true)
    ∧ ∀ hash ∈ done.sent, (exec (GameStore.contains hash) done.state.store).1 = .ok true

variable {σ : Type} (store : Hash → Bytes → Io AnyError σ Unit)

/-- The sink, with a record of what it has taken. -/
def takenSink (hash : Hash) (data : Bytes) : Io AnyError (σ × List (Hash × Bytes)) Unit := do
  zoom Prod.fst (fun s t => (s, t.2)) (store hash data)
  modify fun t => (t.1, t.2 ++ [(hash, data)])

/-- The event makes this call of the sink. -/
def Delivers (task : FetchTask) (e : Event) (hash : Hash) (data : Bytes) : Prop :=
  ∃ rest stats, task.phase = .reading (hash :: rest) stats ∧ e.net = .chunk data
    ∧ blake3 data = hash

end Property

end BlazeNet

import BlazeNet.Executor
import BlazeNet.UpdateSpec
import BlazeNet.Lib.Jobs

/-!
# A cafe's cleaner beside an update

`cleanup_expired`, which removes the temporary blocks whose last write is longer ago than the ttl,
and `run_cafe` of one update with `merge_files` down to the single chunks, cut into their accesses
to the disk. `run_cleaner` starts a cleanup at any time.
-/

namespace BlazeNet

open Wire FaultIo Io RustStd UnixFs

/-- The disk, when each of its entries was last written, the time, and, which nothing reads, the
blocks that the plan of the update has counted as present, until its merge has read all it reads. -/
structure CafeShared where
  disk : Disk
  modified : Place → ℕ
  clock : ℕ
  counted : List Hash

abbrev CafeIo := Io AnyError CafeShared

section Times

/-- The times after the accesses of a log, the newest first: an entry that is made is written now,
and a rename takes the time along. -/
def stampAll (clock : ℕ) (modified : Place → ℕ) : List (Access × Place) → Place → ℕ
  | (.rename, source) :: (.rename, target) :: log =>
    Function.update (stampAll clock modified log) target (stampAll clock modified log source)
  | (.create, place) :: log => Function.update (stampAll clock modified log) place clock
  | (.mkdir, place) :: log => Function.update (stampAll clock modified log) place clock
  | _ :: log => stampAll clock modified log
  | [] => modified

namespace CafeShared

/-- The disk after a call. -/
def changed (disk : Disk) (s : CafeShared) : CafeShared :=
  { s with
    disk := disk
    modified := stampAll s.clock s.modified
      (disk.log.take (disk.log.length - s.disk.log.length)) }

def touch (place : Place) (s : CafeShared) : CafeShared :=
  { s with modified := Function.update s.modified place s.clock }

def forget (s : CafeShared) : CafeShared := { s with counted := [] }

end CafeShared

def onDisk {α : Type} (p : FsIo α) : CafeIo α := zoom (·.disk) CafeShared.changed p

/-- `entry.metadata()` and `modified()`. -/
def modifiedAt (path : Path) : CafeIo ℕ := query fun s => match s.disk.stat path with
  | .ok _ => .ok (s.modified (resolve path))
  | .error e => .error (OsError.ofErrno e)

end Times

/-- An update of a game, and how long the cleaner of the node keeps blocks. -/
structure CafeUpdate where
  blake3 : Bytes → Hash
  dataDir : Path
  gameId : UInt64
  version : UInt64
  index : GameIndex
  manifest : Bytes
  iter : IterOrder String
  ttl : ℕ

/-- The local variables of `cleanup_expired`. -/
structure Sweep where
  now : ℕ
  removed : ℕ

/-- What `download_missing` hands to its sink, and how it returns. -/
structure Script where
  chunks : List (Hash × Bytes)
  result : Except AnyError Unit

/-- `merge_files` at one of its entries. -/
structure MergeTurn where
  ready : CafeReady
  entry : FileEntry
  entries : List FileEntry
  summary : MergeSummary

/-- An entry's new file while it is written: its place, where the chunks come from, and what has
been written. -/
structure Writing where
  out : Place
  src : Sources
  last : Option (Path × Place)
  written : Bytes

/-- Where a cleanup or the update stands. -/
inductive CafeJob where
  | cleaning
  | listingRoot (sweep : Sweep)
  | nextGame (sweep : Sweep) (games : List Name)
  | listingGame (sweep : Sweep) (game : Name) (games : List Name)
  | nextBlock (sweep : Sweep) (game : Name) (blocks games : List Name)
  | removing (sweep : Sweep) (game block : Name) (blocks games : List Name)
  | swept (result : Except AnyError ℕ)
  | preparing (opened : Option CafeStore) (script : Script)
  | counting (cafe : CafeStore) (old : Option GameIndex) (script : Script)
  | repairing (cafe : CafeStore) (old : Option GameIndex) (temp : HashSet Hash)
      (entries : List FileEntry) (repair : HashSet Hash) (script : Script)
  | downloading (ready : CafeReady) (script : Script)
  | merging (ready : CafeReady) (entries : List FileEntry) (summary : MergeSummary)
  | creating (turn : MergeTurn)
  | reading (turn : MergeTurn) (file : Writing) (chunks : List ChunkMeta)
  | writing (turn : MergeTurn) (file : Writing) (data : Bytes) (chunks : List ChunkMeta)
  | replacing (turn : MergeTurn) (written : Bytes)
  | clearing (turn : MergeTurn) (err : AnyError)
  | deleting (ready : CafeReady) (names : List String) (summary : MergeSummary)
  | saving (ready : CafeReady) (summary : MergeSummary)
  | ended (result : Except AnyError Unit)

namespace CafeUpdate

variable (up : CafeUpdate)

def game : Path := gameDir up.dataDir up.gameId

def temp : Path := tempDir up.dataDir up.gameId

def tempRoot : Path := join (join up.dataDir ".blazenet") "temp"

/-- `entry.path()` of an entry that the cleaner meets. -/
def blockPath (game block : Name) : Path := up.tempRoot ++ [.normal game, .normal block]

section Steps

/-- The update goes on, or ends with the error. -/
def orEnd {α : Type} (p : CafeIo α) (k : α → CafeJob) : CafeIo CafeJob := do
  match ← attempt p with
  | .ok a => pure (k a)
  | .error e => do
    modify CafeShared.forget
    pure (.ended (.error e))

/-- `run_cafe` up to the manifest in place. -/
def prepare (opened : Option CafeStore) : FsIo (CafeStore × Option GameIndex) := do
  context ("创建临时块目录失败: " ++ displayPath up.temp) (createDirAll up.temp)
  let cafe ← match opened with
    | some cafe => pure cafe
    | none => CafeStore.openStore up.blake3 up.dataDir up.gameId
  let oldBytes ← cafe.currentManifestBytes
  let old ← decodeOld up.blake3 oldBytes
  pure (cafe, old)

/-- The blocks of the new version that the plan finds in the temporary directory. -/
def present (temp : HashSet Hash) (s : CafeShared) : CafeShared :=
  { s with counted := temp.elems.filter fun h =>
      h ∈ up.index.chunkSet ∧ s.disk.pathExists (tempBlock up.temp h) }

/-- `collect_temp_hashes` for the plan. -/
def count : CafeIo (HashSet Hash) := do
  let hashes ← onDisk (collectTempHashes up.temp)
  modify (up.present hashes)
  pure hashes

def missingOf (old : Option GameIndex) (temp repair : HashSet Hash) : List Hash :=
  (((UpdatePlan.compute up.index old temp).chunksToDownload ++ repair.elems).mergeSort hashLe).dedup

/-- What is downloaded after all does not count as present. -/
def expect (missing : List Hash) (s : CafeShared) : CafeShared :=
  { s with counted := s.counted.filter (· ∉ missing) }

/-- `write_new_file` up to its loop. -/
def createNew (turn : MergeTurn) : FsIo Writing := do
  let target := join up.game turn.entry.name
  let newPath := newPathOf target
  let prev := getFile (filesOf turn.ready.old) turn.entry.name
  match parent newPath with
  | none => stop (.err (.msg "缺少父目录"))
  | some dir => do
    context "创建父目录失败" (createDirAll dir)
    let out ← context "创建临时文件失败" (createWriter newPath)
    let oldHandle ← openOld (prev.map fun _ => target)
    pure ⟨out, ⟨up.game, up.temp, oldHandle, prev.map fun f => chunkOffsets 0 f.chunks,
      chunkLocations (filesOf turn.ready.old)⟩, none, []⟩

/-- The end of `write_new_file`. -/
def replace (turn : MergeTurn) (written : Bytes) : FsIo Unit :=
  let target := join up.game turn.entry.name
  if up.blake3 written ≠ turn.entry.fileHash then dropNew (newPathOf target)
  else replaceTarget (newPathOf target) target

def writeBlock (file : Writing) (data : Bytes) : CafeIo Unit := do
  onDisk (context "写入临时文件失败" (writeOwned file.out data file.written.length))
  modify (CafeShared.touch file.out)

end Steps

/-- The next access to the disk, or the next step in memory. -/
def next : CafeJob → CafeIo CafeJob
  | .cleaning => do
    let now := (← get).clock
    transact (onDisk (pathExists up.tempRoot)) fun r => match r with
      | .ok true => .listingRoot ⟨now, 0⟩
      | _ => .swept (.ok 0)
  | .listingRoot sweep =>
    transact (onDisk (context "读取临时根目录失败" (readDir up.tempRoot))) fun r => match r with
      | .ok games => .nextGame sweep games
      | .error e => .swept (.error e)
  | .nextGame sweep [] => pure (.swept (.ok sweep.removed))
  | .nextGame sweep (game :: games) =>
    transact (onDisk (isDir (up.tempRoot ++ [.normal game]))) fun r => match r with
      | .ok true => .listingGame sweep game games
      | _ => .nextGame sweep games
  | .listingGame sweep game games =>
    transact (onDisk (context "读取游戏临时目录失败" (readDir (up.tempRoot ++ [.normal game]))))
      fun r => match r with
        | .ok blocks => .nextBlock sweep game blocks games
        | .error e => .swept (.error e)
  | .nextBlock sweep _ [] games => pure (.nextGame sweep games)
  | .nextBlock sweep game (block :: blocks) games =>
    if extension block ≠ some "blk".toList then pure (.nextBlock sweep game blocks games)
    else transact (context "读取临时块元数据失败" (modifiedAt (up.blockPath game block))) fun r =>
      match r with
      | .ok modified =>
        if sweep.now - modified > up.ttl then .removing sweep game block blocks games
        else .nextBlock sweep game blocks games
      | .error e => .swept (.error e)
  | .removing sweep game block blocks games =>
    transact (onDisk (context "删除过期临时块失败" (removeFile (up.blockPath game block))))
      fun r => match r with
        | .ok () => .nextBlock { sweep with removed := sweep.removed + 1 } game blocks games
        | .error e => .swept (.error e)
  | .swept result => pure (.swept result)
  | .preparing opened script =>
    orEnd (onDisk (up.prepare opened)) fun a => .counting a.1 a.2 script
  | .counting cafe old script => orEnd up.count fun hashes =>
      .repairing cafe old hashes up.index.files .empty script
  | .repairing cafe old temp [] repair script => do
    modify (expect (up.missingOf old temp repair))
    pure (.downloading ⟨cafe, old, temp, up.missingOf old temp repair⟩ script)
  | .repairing cafe old temp (entry :: entries) repair script =>
    transact (onDisk (isFile (join up.game entry.name))) fun r => match r with
      | .ok true => .repairing cafe old temp entries repair script
      | _ => .repairing cafe old temp entries
        (entry.chunks.foldl (fun repair chunk => repair.insert chunk.hash) repair) script
  | .downloading ready ⟨(hash, data) :: chunks, result⟩ =>
    transact (onDisk (cafeSink up.dataDir up.gameId hash data)) fun _ =>
      .downloading ready ⟨chunks, result⟩
  | .downloading ready ⟨[], result⟩ => orEnd (match result with
      | .ok () => pure ()
      | .error e => stop (.err e)) fun _ => .merging ready up.index.files ⟨0, 0, []⟩
  | .merging ready [] summary => do
    modify CafeShared.forget
    pure (.deleting ready
      (up.iter.order (namesDifference (filesOf ready.old) up.index.files)) summary)
  | .merging ready (entry :: entries) summary =>
    transact (onDisk (isFile (join up.game entry.name))) fun r =>
      if needMerge (filesOf ready.old) entry (r.toOption.getD false) then
        .creating ⟨ready, entry, entries, summary⟩
      else .merging ready entries summary
  | .creating turn => transact (onDisk (up.createNew turn)) fun r => match r with
    | .ok file => .reading turn file turn.entry.chunks
    | .error e => .clearing turn e
  | .reading turn file [] => pure (.replacing turn file.written)
  | .reading turn file (chunk :: chunks) =>
    transact (onDisk (file.src.chunkData file.last chunk.hash)) fun r => match r with
      | .ok (data, last) => .writing turn { file with last := last } data chunks
      | .error e => .clearing turn e
  | .writing turn file data chunks => transact (writeBlock file data) fun r => match r with
    | .ok () => .reading turn { file with written := file.written ++ data } chunks
    | .error e => .clearing turn e
  | .replacing turn written => transact (onDisk (up.replace turn written)) fun r => match r with
    | .ok () =>
      .merging turn.ready turn.entries { turn.summary with merged := turn.summary.merged + 1 }
    | .error e => .clearing turn e
  | .clearing turn err =>
    transact (onDisk (removeFile (newPathOf (join up.game turn.entry.name)))) fun _ =>
      .merging turn.ready turn.entries { turn.summary with
        failed := turn.summary.failed ++ [turn.entry.name ++ ": " ++ err.display] }
  | .deleting ready [] summary => pure (.saving ready summary)
  | .deleting ready (name :: names) summary =>
    orEnd (onDisk (deleteFiles up.game [name] summary)) fun summary => .deleting ready names summary
  | .saving ready summary =>
    if summary.failed ≠ [] then
      pure (.ended (.error (.msg ("合并失败: " ++ "; ".intercalate summary.failed))))
    else orEnd (onDisk (ready.cafe.saveManifest up.blake3 up.version up.manifest)) fun _ =>
      .ended (.ok ())
  | .ended result => pure (.ended result)

/-- The node while the update runs: cleanups begin, the clock is set, and a new process has no
update to count blocks for. -/
def system : JobSystem AnyError CafeShared CafeJob Unit ℕ where
  begin _ := .cleaning
  next _ j := up.next j
  env time s := { s with clock := time }
  restart := CafeShared.forget

end CafeUpdate

section Property

variable (up : CafeUpdate)

/-- The path is that of a counted block. -/
def AtCounted (s : CafeShared) (path : Path) : Prop :=
  ∃ h ∈ s.counted, resolve path = resolve (tempBlock up.temp h)

/-- Every block the plan has counted as present is there. -/
def CountedPresent (s : CafeShared) : Prop :=
  ∀ h ∈ s.counted, s.disk.pathExists (tempBlock up.temp h) = true

/-- What a cleanup removes next: an entry that it has found too old. -/
def removal : CafeJob → Option Path
  | .removing _ game block _ _ => some (up.blockPath game block)
  | _ => none

/-- The paths at which the next step of the update can take a file away. -/
def takesAway : CafeJob → List Path
  | .replacing turn _ =>
    [join up.game turn.entry.name, newPathOf (join up.game turn.entry.name)]
  | .clearing turn _ => [newPathOf (join up.game turn.entry.name)]
  | .deleting _ (name :: _) _ => [join up.game name]
  | _ => []

/-- Before the step: the age a cleanup looks at, if of a counted block, is at most the ttl; when the
plan counts the blocks, no cleanup is about to remove one of the version; and what the update itself
takes away is no counted block. -/
def StepSpares (s : Jobs CafeShared CafeJob) : CafeJob → Prop
  | .nextBlock sweep game (block :: _) _ => AtCounted up s.shared (up.blockPath game block) →
    sweep.now - s.shared.modified (resolve (up.blockPath game block)) ≤ up.ttl
  | .counting _ _ _ => ∀ j ∈ s.jobs, ∀ path ∈ removal up j,
    ∀ h ∈ up.index.chunkSet, resolve path ≠ resolve (tempBlock up.temp h)
  | j => ∀ path ∈ takesAway up j, ¬ AtCounted up s.shared path

def Spares (s : Jobs CafeShared CafeJob) : Move AnyError Unit ℕ → Prop
  | .go i _ => ∀ j ∈ s.jobs[i]?, StepSpares up s j
  | _ => True

instance (s : CafeShared) (path : Path) : Decidable (AtCounted up s path) :=
  inferInstanceAs (Decidable (∃ h ∈ s.counted, resolve path = resolve (tempBlock up.temp h)))

instance (s : Jobs CafeShared CafeJob) (j : CafeJob) : Decidable (StepSpares up s j) :=
  match j with
  | .nextBlock sweep game (block :: _) _ => inferInstanceAs
    (Decidable (AtCounted up s.shared (up.blockPath game block) →
      sweep.now - s.shared.modified (resolve (up.blockPath game block)) ≤ up.ttl))
  | .counting _ _ _ => inferInstanceAs (Decidable (∀ j ∈ s.jobs, ∀ path ∈ removal up j,
    ∀ h ∈ up.index.chunkSet, resolve path ≠ resolve (tempBlock up.temp h)))
  | .replacing turn written => inferInstanceAs (Decidable
    (∀ path ∈ takesAway up (.replacing turn written), ¬ AtCounted up s.shared path))
  | .clearing turn err => inferInstanceAs (Decidable
    (∀ path ∈ takesAway up (.clearing turn err), ¬ AtCounted up s.shared path))
  | .deleting ready names summary => inferInstanceAs (Decidable
    (∀ path ∈ takesAway up (.deleting ready names summary), ¬ AtCounted up s.shared path))
  | .nextBlock _ _ [] _ | .cleaning | .listingRoot _ | .nextGame _ _ | .listingGame _ _ _
  | .removing _ _ _ _ _ | .swept _ | .preparing _ _ | .repairing _ _ _ _ _ _ | .downloading _ _
  | .merging _ _ _ | .creating _ | .reading _ _ _ | .writing _ _ _ _ | .saving _ _ | .ended _ =>
    isTrue fun _ h => absurd h List.not_mem_nil

instance (s : Jobs CafeShared CafeJob) (m : Move AnyError Unit ℕ) : Decidable (Spares up s m) :=
  match m with
  | .go i _ => inferInstanceAs (Decidable (∀ j ∈ s.jobs[i]?, StepSpares up s j))
  | .start _ | .env _ | .crash => isTrue trivial

end Property

end BlazeNet

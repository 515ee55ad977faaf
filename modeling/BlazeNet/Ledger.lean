import BlazeNet.Backup

/-!
# The ledger of chunk holders

The table `chunks` as it is stored: under a key of the game's id and the bytes of the hash lies the
JSON text of the list of nodes that hold the chunk. What `serde_json` makes of lists is a parameter.
A write transaction is open at a time, so reports that overlap go one after another.
-/

namespace BlazeNet

open Wire FaultIo Io RustStd

/-- `serde_json` on lists of ids: a text that it has written reads back. -/
structure JsonList where
  toText : List UInt64 → String
  ofText : String → Option (List UInt64)
  ofText_toText : ∀ l, ofText (toText l) = some l

abbrev ChunkTexts := Std.ExtTreeMap String String

namespace Ledger

variable (json : JsonList)

def recordChunkHolder (nodeId gameId : UInt64) (hash : Bytes) : Io AnyError ChunkTexts Unit := do
  let key := Store.chunkKey gameId hash
  tableCall "开始写事务失败"
  tableCall "打开 chunks 表失败"
  let text ← context "查询块账本失败" (query fun t => .ok t[key]?)
  let holders := (text.map fun text => (json.ofText text).getD []).getD []
  if holders.contains nodeId then
    context "提交块账本事务失败" (final id)
  else do
    tableCall "写入块账本失败"
    context "提交块账本事务失败" (final (·.insert key (json.toText (holders ++ [nodeId]))))

def chunkHolders (gameId : UInt64) (hash : Bytes) : Io AnyError ChunkTexts (List UInt64) := do
  tableCall "开始只读事务失败"
  tableCall "打开 chunks 表失败"
  match ← context "查询块账本失败" (query fun t => .ok t[Store.chunkKey gameId hash]?) with
  | none => pure []
  | some text => match json.ofText text with
    | some holders => pure holders
    | none => stop (.err (.msg "解析块账本失败"))

end Ledger

/-- What a node reports to hold. -/
structure ChunkReport where
  nodeId : UInt64
  gameId : UInt64
  hash : Bytes
  deriving DecidableEq

/-- The stored ledger, and the reports that were taken, the first one first. -/
structure LedgerRun where
  texts : ChunkTexts
  taken : List ChunkReport

namespace LedgerRun

def init : LedgerRun := ⟨∅, []⟩

variable (json : JsonList)

/-- A report, with the faults it meets. -/
def report (s : LedgerRun) (call : ChunkReport × List (Fault AnyError)) : LedgerRun :=
  match (Ledger.recordChunkHolder json call.1.nodeId call.1.gameId call.1.hash).run
      ⟨s.texts, call.2⟩ with
  | (.ok (), w) => ⟨w.state, s.taken ++ [call.1]⟩
  | (.error _, w) => ⟨w.state, s.taken⟩

def reportAll (calls : List (ChunkReport × List (Fault AnyError))) : LedgerRun :=
  calls.foldl (report json) init

end LedgerRun

/-- The nodes that have reported a chunk, each once, in the order of their first reports. -/
def reportedHolders (taken : List ChunkReport) (gameId : UInt64) (hash : Bytes) : List UInt64 :=
  ((taken.filter fun r => r.gameId = gameId ∧ r.hash = hash).map (·.nodeId)).eraseDups

end BlazeNet

import BlazeNet.CompioIo
import Std.Data.ExtTreeMap

/-!
# The block store of one game

`GameStore` of the crate `origin`: the chunks of a game lie one after another in `blocks.pack`,
and `index.redb` maps the key of a hash to the place of its chunk, packed into a `u64`. The
database is a table whose write transactions take effect at their commit and not before.
-/

namespace BlazeNet

open Wire FaultIo Io RustStd

abbrev Index := Std.ExtTreeMap String UInt64

def lenMask : UInt64 := 0xffff_ffff

def hex (bytes : Bytes) : String := String.ofList (hexChars bytes)

def key (gameId : UInt64) (hash : Hash) : String :=
  String.ofList (hexFixed 16 gameId.toNat ++ hexChars hash.bytes)

def unpack (value : UInt64) : ℕ × UInt32 :=
  ((value >>> 32).toNat, (value &&& lenMask).toUInt32)

def pack (offset : ℕ) (len : UInt32) : UInt64 :=
  (UInt64.ofNat offset <<< 32) ||| len.toUInt64

/-- What a game's directory holds; nothing before the store is first opened. -/
structure GameDir where
  index : Option Index
  pack : Option Bytes
  packCompact : Option Bytes

/-- The open pack: the file at `pack_path`, or one that a rename has taken from it. -/
inductive PackFile where
  | linked
  | unlinked (content : Bytes)

structure GameStore where
  gameId : UInt64
  packFile : PackFile
  size : ℕ

/-- An open store together with the files of its directory. -/
structure OpenStore where
  self : GameStore
  index : Index
  pack : Bytes
  packCompact : Option Bytes

abbrev StoreIo := Io AnyError OpenStore

namespace GameStore

/-- The open pack as a file of the state. -/
def packFileRef : FileRef OpenStore where
  content s := match s.self.packFile with
    | .linked => s.pack
    | .unlinked content => content
  put b s := match s.self.packFile with
    | .linked => { s with pack := b }
    | .unlinked _ => { s with self := { s.self with packFile := .unlinked b } }
  content_put b s := by
    rcases s with ⟨⟨g, _ | c, z⟩, i, p, t⟩ <;> rfl
  put_put b b' s := by
    rcases s with ⟨⟨g, _ | c, z⟩, i, p, t⟩ <;> rfl
  put_content s := by
    rcases s with ⟨⟨g, _ | c, z⟩, i, p, t⟩ <;> rfl

def readExactAt (n offset : ℕ) : StoreIo Bytes :=
  readLoop (readAt packFileRef.content) (.msg "读取块数据遇到文件末尾") n offset

/-- `write_exact_at_impl`, which takes the write to call as a parameter. -/
def writeExactAtImpl {σ : Type} (write : Bytes → ℕ → Io AnyError σ ℕ) (buf : Bytes) (offset : ℕ) :
    Io AnyError σ Unit :=
  writeLoop write (.msg "写入失败") buf offset

def writeExactAt (buf : Bytes) (offset : ℕ) : StoreIo Unit :=
  writeLoop (writeAt packFileRef) (.msg "写入失败") buf offset

/-- A call to the database that reads nothing of the table. -/
def dbCall (text : String) : StoreIo Unit := context text (query fun _ => .ok ())

def beginRead : StoreIo Index := do
  dbCall "开始只读事务失败"
  context "打开索引表失败" (query fun s => .ok s.index)

def tableGet (table : Index) (key : String) : StoreIo (Option UInt64) :=
  context "查询索引失败" (query fun _ => .ok table[key]?)

def beginWrite : StoreIo Index := do
  dbCall "开始写事务失败"
  context "打开索引表失败" (query fun s => .ok s.index)

def tableInsert (text : String) (table : Index) (key : String) (value : UInt64) : StoreIo Index :=
  context text (query fun _ => .ok (table.insert key value))

def tableRemove (text : String) (table : Index) (key : String) : StoreIo Index :=
  context text (query fun _ => .ok (table.erase key))

def commit (text : String) (table : Index) : StoreIo Unit :=
  context text (final fun s => { s with index := table })

/-- `table.iter()`: the entries in key order, each of which may fail to be read. -/
def tableIter (table : Index) : StoreIo (List (String × UInt64)) := do
  dbCall "遍历索引失败"
  each (fun _ => dbCall "读取索引项失败") table.toList
  pure table.toList

def setSize (size : ℕ) : StoreIo Unit :=
  modify fun s => { s with self := { s.self with size := size } }

section Append

def appendChunk (hash : Hash) (data : Bytes) : StoreIo (ℕ × UInt32) := do
  let self := (← get).self
  let key := key self.gameId hash
  let table ← beginRead
  match ← tableGet table key with
  | some value => pure (unpack value)
  | none =>
    let offset := self.size
    let len := UInt32.ofNat data.length
    context "追加写入块失败" (writeExactAt data offset)
    setSize (self.size + data.length)
    let table ← beginWrite
    let table ← tableInsert "写入索引失败" table key (pack offset len)
    commit "提交索引事务失败" table
    pure (offset, len)

/-- The local variables of `append_chunks_batch` while it looks for what is already there. -/
structure BatchScan where
  out : List (ℕ × UInt32)
  newData : List (Hash × Bytes)
  newPos : List ℕ
  seenNew : List (Hash × ℕ)
  dupOfNew : List (ℕ × ℕ)

def BatchScan.dup (scan : BatchScan) (idx first : ℕ) : BatchScan :=
  { scan with dupOfNew := scan.dupOfNew ++ [(idx, first)], out := scan.out ++ [(0, 0)] }

def BatchScan.old (scan : BatchScan) (value : UInt64) : BatchScan :=
  { scan with out := scan.out ++ [unpack value] }

def BatchScan.fresh (scan : BatchScan) (idx : ℕ) (hash : Hash) (data : Bytes) : BatchScan where
  out := scan.out ++ [(0, 0)]
  newData := scan.newData ++ [(hash, data)]
  newPos := scan.newPos ++ [idx]
  seenNew := (hash, idx) :: scan.seenNew
  dupOfNew := scan.dupOfNew

def scanChunks (gameId : UInt64) (table : Index) :
    ℕ → List (Hash × Bytes) → BatchScan → StoreIo BatchScan
  | _, [], scan => pure scan
  | idx, (hash, data) :: chunks, scan =>
    match scan.seenNew.lookup hash with
    | some first => scanChunks gameId table (idx + 1) chunks (scan.dup idx first)
    | none => do
      match ← tableGet table (key gameId hash) with
      | some value => scanChunks gameId table (idx + 1) chunks (scan.old value)
      | none => scanChunks gameId table (idx + 1) chunks (scan.fresh idx hash data)

/-- Writes the new chunks one after another and notes where in `out`. -/
def writeNew : List (ℕ × Bytes) → ℕ → List (ℕ × UInt32) → StoreIo (List (ℕ × UInt32) × ℕ)
  | [], offset, out => pure (out, offset)
  | (pos, data) :: rest, offset, out => do
    context "批量追加写入块失败" (writeExactAt data offset)
    let len := UInt32.ofNat data.length
    writeNew rest (offset + len.toNat) (out.set pos (offset, len))

def fillDups (dups : List (ℕ × ℕ)) (out : List (ℕ × UInt32)) : List (ℕ × UInt32) :=
  dups.foldl (fun out d => out.set d.1 (out.getD d.2 (0, 0))) out

def insertNew (gameId : UInt64) (out : List (ℕ × UInt32)) :
    List (Hash × ℕ) → Index → StoreIo Index
  | [], table => pure table
  | (hash, idx) :: rest, table => do
    let loc := out.getD idx (0, 0)
    let table ← tableInsert "写入索引失败" table (key gameId hash) (pack loc.1 loc.2)
    insertNew gameId out rest table

def appendChunksBatch (chunks : List (Hash × Bytes)) : StoreIo (List (ℕ × UInt32)) := do
  let self := (← get).self
  let table ← beginRead
  let scan ← scanChunks self.gameId table 0 chunks ⟨[], [], [], [], []⟩
  let (out, offset) ← writeNew (scan.newPos.zip (scan.newData.map (·.2))) self.size scan.out
  let out := fillDups scan.dupOfNew out
  setSize offset
  if scan.newData.isEmpty then pure out
  else do
    let table ← beginWrite
    let table ← insertNew self.gameId out ((scan.newData.map (·.1)).zip scan.newPos) table
    commit "提交索引事务失败" table
    pure out

end Append

section Lookup

def readChunk (hash : Hash) : StoreIo (Option Bytes) := do
  let self := (← get).self
  let table ← beginRead
  match ← tableGet table (key self.gameId hash) with
  | none => pure none
  | some value =>
    let (offset, len) := unpack value
    let buf ← context "读取块数据失败" (readExactAt len.toNat offset)
    pure (some buf)

def contains (hash : Hash) : StoreIo Bool := do
  let self := (← get).self
  let table ← beginRead
  let found ← tableGet table (key self.gameId hash)
  pure found.isSome

def entries : StoreIo (List (String × ℕ × UInt32)) := do
  let table ← beginRead
  let items ← tableIter table
  pure (items.map fun item => (item.1, unpack item.2))

end Lookup

section Compact

abbrev Location := Hash × ℕ × UInt32

/-- The order of `sort` on `(hash, offset, len)`. -/
def locationLe (a b : Location) : Bool :=
  a.1.bytes < b.1.bytes || (a.1.bytes = b.1.bytes && (a.2.1 < b.2.1
    || (a.2.1 = b.2.1 && a.2.2 ≤ b.2.2)))

/-- The places of the live chunks the index knows. -/
def liveLocations (gameId : UInt64) (entries : List (String × UInt64)) (live : HashSet Hash) :
    List Location :=
  live.elems.filterMap fun hash =>
    (entries.find? fun e => e.1 = key gameId hash).map fun e => (hash, unpack e.2)

def totalLen (locations : List Location) : ℕ := (locations.map fun l => l.2.2.toNat).sum

/-- Lays the chunks out one after another from `offset` on. -/
def relocate : ℕ → List Location → List Location
  | _, [] => []
  | offset, (hash, _, len) :: rest => (hash, offset, len) :: relocate (offset + len.toNat) rest

def ensureCopySize (copied expected : ℕ) : StoreIo Unit :=
  if copied ≠ expected then
    stop (.err (.msg s!"压缩重写字节数不一致: 预期 {expected}，实际 {copied}"))
  else pure ()

/-- The file at `pack_path` with the extension `pack.compact`. -/
def tmpPath : PathRef OpenStore where
  content s := s.packCompact
  put b s := { s with packCompact := b }
  content_put _ _ := rfl
  put_put _ _ _ := rfl
  put_content _ := rfl

/-- `rename` of the rewritten pack over the old one; the handle keeps the old file. -/
def replacePack (s : OpenStore) : Except AnyError Unit × OpenStore :=
  match s.packCompact with
  | none => (.error (.msg "No such file or directory"), s)
  | some b => (.ok (), { s with
      self := { s.self with packFile := .unlinked (packFileRef.content s) }
      pack := b
      packCompact := none })

def reopenPack (s : OpenStore) : Except AnyError Unit × OpenStore :=
  (.ok (), { s with self := { s.self with packFile := .linked } })

def removeAll : List (String × UInt64) → Index → StoreIo Index
  | [], table => pure table
  | (key, _) :: rest, table => do
    let table ← tableRemove "删除索引项失败" table key
    removeAll rest table

def insertAll (gameId : UInt64) : List Location → Index → StoreIo Index
  | [], table => pure table
  | (hash, offset, len) :: rest, table => do
    let table ← tableInsert "更新索引失败" table (key gameId hash) (pack offset len)
    insertAll gameId rest table

/-- What a compaction found in the index, and where it has put the live chunks. -/
structure CompactPlan where
  entries : List (String × UInt64)
  newLocations : List Location

/-- The first half of `compact`: decides, and rewrites the live chunks into a file of their own.
`belowThreshold liveBytes size` is the outcome of the floating-point test
`1.0 - live_bytes / size < threshold`. -/
def compactRewrite (live : HashSet Hash) (belowThreshold : ℕ → ℕ → Bool) (availableSpace : ℕ) :
    StoreIo (Option CompactPlan) := do
  let self := (← get).self
  let table ← beginRead
  let items ← tableIter table
  let entries := items.filter fun e =>
    (hexFixed 16 self.gameId.toNat).isPrefixOf e.1.toList
  let locations := liveLocations self.gameId entries live
  let liveBytes := totalLen locations
  if self.size = 0 then pure none
  else if belowThreshold liveBytes self.size then pure none
  else if availableSpace < liveBytes then pure none
  else do
    let locations := locations.mergeSort locationLe
    let copied ← context "compio 重写块文件失败"
      (copyRanges (fun s => some s.pack) tmpPath (locations.map (·.2)))
    ensureCopySize copied liveBytes
    pure (some ⟨entries, relocate 0 locations⟩)

/-- The second half of `compact`: the new pack replaces the old one, then the index follows. -/
def compactSwitch (plan : CompactPlan) : StoreIo Unit := do
  let self := (← get).self
  context "替换块文件失败" (atomic replacePack)
  context "重新打开块文件失败" (atomic reopenPack)
  setSize (totalLen plan.newLocations)
  let table ← beginWrite
  let table ← removeAll plan.entries table
  let table ← insertAll self.gameId plan.newLocations table
  commit "提交压缩事务失败" table

def compact (live : HashSet Hash) (belowThreshold : ℕ → ℕ → Bool) (availableSpace : ℕ) :
    StoreIo Bool := do
  match ← compactRewrite live belowThreshold availableSpace with
  | none => pure false
  | some plan =>
    compactSwitch plan
    pure true

end Compact

/-- `GameStore::open`; creating the directory has no content of its own here. -/
def openStore (gameId : UInt64) : Io AnyError GameDir GameStore := do
  context "创建游戏目录失败" (query fun _ => .ok ())
  context "创建本地索引失败" (query fun _ => .ok ())
  context "开始建表事务失败" (query fun _ => .ok ())
  context "创建索引表失败" (query fun _ => .ok ())
  context "提交建表事务失败" (atomic fun d => (.ok (), { d with index := some (d.index.getD ∅) }))
  context "打开块文件失败" (atomic fun d => (.ok (), { d with pack := some (d.pack.getD []) }))
  let size ← context "读取块文件大小失败" (query fun d => .ok (d.pack.getD []).length)
  pure ⟨gameId, .linked, size⟩

end GameStore

end BlazeNet

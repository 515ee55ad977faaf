import BlazeNet.Update

/-!
# The chunk source of a cafe

`cafe_store.rs` of the crate `agent`: a cafe keeps the real files of a game, temporary blocks and
the manifests of its versions. It serves a chunk from the temporary block, else from the place in
the real files that the current manifest gives it.
-/

namespace BlazeNet

open Wire FaultIo Io RustStd UnixFs

section Layout

variable (dataDir : Path) (gameId : UInt64)

def gameDir : Path := join (join dataDir "games") (toString gameId.toNat)

def tempDir : Path := join (join (join dataDir ".blazenet") "temp") (toString gameId.toNat)

def manifestDir : Path :=
  join (join (join dataDir ".blazenet") "manifests") (toString gameId.toNat)

def currentVersionPath : Path := join (manifestDir dataDir gameId) "current.version"

end Layout

structure CafeStore where
  gameId : UInt64
  dataDir : Path
  current : Option ChunkLocation

namespace CafeStore

variable (blake3 : Bytes → Hash)

def currentVersion (self : CafeStore) : FsIo (Option UInt64) := do
  let path := currentVersionPath self.dataDir self.gameId
  if ← isFile path then do
    let bytes ← context "读取当前版本号失败" (UnixFs.readFile path)
    match fromUtf8 bytes with
    | none => stop (.err ⟨["读取当前版本号失败", "stream did not contain valid UTF-8"]⟩)
    | some text => match parseU64 (trim text.toList) with
      | some version => pure (some version)
      | none => stop (.err ⟨["当前版本号非法", parseU64Error (trim text.toList)]⟩)
  else pure none

/-- `{version}.gameindex` in the directory of the manifests. -/
def manifestPath (self : CafeStore) (version : UInt64) : Path :=
  join (manifestDir self.dataDir self.gameId) (toString version.toNat ++ ".gameindex")

def currentManifestBytes (self : CafeStore) : FsIo (Option Bytes) := do
  match ← self.currentVersion with
  | none => pure none
  | some version => do
    let bytes ← context "读取当前版本清单失败" (UnixFs.readFile (self.manifestPath version))
    pure (some bytes)

def setCurrent (self : CafeStore) (manifest : Bytes) : FsIo CafeStore :=
  match GameIndex.decode blake3 manifest with
  | .ok index => pure { self with current := some (chunkLocations index.files) }
  | .error e => stop (.err (e.context "解析当前版本清单失败"))

/-- `CafeStore::open`. -/
def openStore (dataDir : Path) (gameId : UInt64) : FsIo CafeStore := do
  let store : CafeStore := ⟨gameId, dataDir, none⟩
  context ("创建真实文件目录失败: " ++ displayPath (gameDir dataDir gameId))
    (createDirAll (gameDir dataDir gameId))
  context ("创建临时块目录失败: " ++ displayPath (tempDir dataDir gameId))
    (createDirAll (tempDir dataDir gameId))
  match ← store.currentManifestBytes with
  | some bytes => store.setCurrent blake3 bytes
  | none => pure store

def saveManifest (self : CafeStore) (version : UInt64) (manifest : Bytes) : FsIo CafeStore := do
  let dir := manifestDir self.dataDir self.gameId
  context ("创建清单目录失败: " ++ displayPath dir) (createDirAll dir)
  context "写入版本清单失败" (writeFile (self.manifestPath version) manifest)
  context "写入当前版本号失败" (writeFile (currentVersionPath self.dataDir self.gameId)
    (nameBytes (toString version.toNat)))
  self.setCurrent blake3 manifest

/-- `File::seek` and `read_exact`. -/
def readRange (file : Place) (offset : ℕ) (len : UInt32) : FsIo Bytes := do
  context "定位真实文件偏移失败" (flushFile : FsIo Unit)
  context "读取真实文件块失败" (readLoop (readFrom file) unexpectedEof len.toNat offset)

/-- The chunk at its place in a real file. -/
def readReal (self : CafeStore) (loc : String × ℕ × UInt32) : FsIo (Option Bytes) := do
  match ← attempt (openFile (join (gameDir self.dataDir self.gameId) loc.1) : FsIo Place) with
  | .error _ => pure none
  | .ok file => do
    let data ← readRange file loc.2.1 loc.2.2
    pure (some data)

def readChunk (self : CafeStore) (hash : Hash) : FsIo (Option Bytes) := do
  let temp := tempBlock (tempDir self.dataDir self.gameId) hash
  if ← isFile temp then do
    let data ← context "读取临时块失败" (UnixFs.readFile temp)
    pure (some data)
  else match self.current.bind fun map => map.lookup hash with
    | none => pure none
    | some loc => self.readReal loc

def contains (self : CafeStore) (hash : Hash) : FsIo Bool := do
  if ← isFile (tempBlock (tempDir self.dataDir self.gameId) hash) then pure true
  else match self.current.bind fun map => map.lookup hash with
    | none => pure false
    | some loc => isFile (join (gameDir self.dataDir self.gameId) loc.1)

end CafeStore

end BlazeNet

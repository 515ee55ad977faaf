import BlazeNet.Lib.Wire

/-!
# The version manifest `.gameindex`

`GameIndex` lists the files of one version of a game, each as the sequence of its chunks. `build`,
`encode` and `decode` follow the crate `blaze-common`; BLAKE3 is a parameter.
-/

namespace BlazeNet

open Wire

/-- An `anyhow` error: its messages from the outermost context inwards. -/
structure AnyError where
  chain : List String
  deriving DecidableEq, Repr

namespace AnyError

def msg (text : String) : AnyError := ⟨[text]⟩

def context (text : String) (e : AnyError) : AnyError := ⟨text :: e.chain⟩

/-- `{err}`: the outermost message. -/
def display (e : AnyError) : String := e.chain.headD ""

/-- `{err:#}`: the whole chain. -/
def displayChain (e : AnyError) : String := ": ".intercalate e.chain

end AnyError

def hashLen : ℕ := 32

/-- A `[u8; HASH_LEN]`. -/
structure Hash where
  bytes : Bytes
  size : bytes.length = hashLen
  deriving DecidableEq

/-- `[b; HASH_LEN]`. -/
def Hash.fill (b : UInt8) : Hash := ⟨List.replicate hashLen b, by simp⟩

/-- `<[u8; 32]>::try_from(bytes)`. -/
def Hash.ofBytes? (bytes : Bytes) : Option Hash :=
  if h : bytes.length = hashLen then some ⟨bytes, h⟩ else none

/-- "BLZGI". -/
def magic : Bytes := [0x42, 0x4c, 0x5a, 0x47, 0x49]

def formatVersion : UInt16 := 1

structure ChunkMeta where
  hash : Hash
  len : UInt32
  deriving DecidableEq

structure FileEntry where
  name : String
  fileHash : Hash
  chunks : List ChunkMeta
  deriving DecidableEq

structure GameIndex where
  formatVersion : UInt16
  files : List FileEntry
  manifestHash : Hash
  deriving DecidableEq

/-- `name.as_bytes()`. -/
def nameBytes (name : String) : Bytes := name.toByteArray.data.toList

/-- `String::from_utf8`. -/
def fromUtf8 (bytes : Bytes) : Option String := String.fromUTF8? ⟨bytes.toArray⟩

def encodeChunk (chunk : ChunkMeta) : Bytes := chunk.hash.bytes ++ leBytes 4 chunk.len.toNat

def encodeFile (file : FileEntry) : Bytes :=
  leBytes 2 (nameBytes file.name).length ++ nameBytes file.name ++ file.fileHash.bytes
    ++ leBytes 4 file.chunks.length ++ file.chunks.flatMap encodeChunk

namespace GameIndex

def encodeBody (index : GameIndex) : Bytes :=
  magic ++ leBytes 2 index.formatVersion.toNat ++ leBytes 2 0
    ++ leBytes 4 index.files.length ++ index.files.flatMap encodeFile

def encode (index : GameIndex) : Bytes := index.encodeBody ++ index.manifestHash.bytes

/-- The chunk hashes of all files, file after file; `chunk_set` is the set of them. -/
def chunkHashes (index : GameIndex) : List Hash :=
  index.files.flatMap fun f => f.chunks.map (·.hash)

def chunkSet (index : GameIndex) : List Hash := index.chunkHashes.dedup

end GameIndex

/-- The error of `Cursor::read_exact` at the end of its buffer. -/
def unexpectedEof : AnyError := .msg "failed to fill whole buffer"

def readU16 : Reader AnyError UInt16 := do
  let buf ← readExact unexpectedEof 2
  pure (UInt16.ofNat (ofLe buf))

def readU32 : Reader AnyError UInt32 := do
  let buf ← readExact unexpectedEof 4
  pure (UInt32.ofNat (ofLe buf))

/-- `read_exact` into a `[u8; HASH_LEN]`. -/
def readHash : Reader AnyError Hash := do
  let buf ← readExact unexpectedEof hashLen
  if h : buf.length = hashLen then pure ⟨buf, h⟩ else throw unexpectedEof

def readChunkMeta : Reader AnyError ChunkMeta := do
  let hash ← readHash
  let len ← readU32
  pure ⟨hash, len⟩

def readName : Reader AnyError String := do
  let nameLen ← readU16
  let bytes ← readExact unexpectedEof nameLen.toNat
  match fromUtf8 bytes with
  | some name => pure name
  | none => throw (.msg "文件名不是 UTF-8")

def readFile : Reader AnyError FileEntry := do
  let name ← readName
  let fileHash ← readHash
  let chunkCount ← readU32
  reserve chunkCount.toNat
  let chunks ← readTimes readChunkMeta chunkCount.toNat
  pure ⟨name, fileHash, chunks⟩

def readMagic : Reader AnyError Unit := do
  let buf ← readExact unexpectedEof magic.length
  if buf = magic then pure () else throw (.msg "清单 magic 错误")

def readBody : Reader AnyError (UInt16 × List FileEntry) := do
  readMagic
  let version ← readU16
  let _flags ← readU16
  let fileCount ← readU32
  reserve fileCount.toNat
  let files ← readTimes readFile fileCount.toNat
  pure (version, files)

namespace GameIndex

variable (blake3 : Bytes → Hash)

def build (files : List FileEntry) : GameIndex :=
  let index : GameIndex := ⟨BlazeNet.formatVersion, files, .fill 0⟩
  { index with manifestHash := blake3 index.encodeBody }

def decode (bytes : Bytes) : Except AnyError GameIndex :=
  if bytes.length < magic.length + 2 + 2 + 4 + hashLen then .error (.msg "清单长度不足")
  else
    let body := bytes.take (bytes.length - hashLen)
    let tail := bytes.drop (bytes.length - hashLen)
    match runReader readBody ⟨body, []⟩ with
    | (.error e, _) => .error e
    | (.ok (version, files), cursor) =>
      if cursor.unread ≠ [] then .error (.msg "清单存在多余数据")
      else match Hash.ofBytes? tail with
        -- `copy_from_slice` of the tail, which always has `HASH_LEN` bytes
        | none => .error unexpectedEof
        | some manifestHash =>
          if blake3 body ≠ manifestHash then .error (.msg "清单哈希校验失败")
          else .ok ⟨version, files, manifestHash⟩

end GameIndex

end BlazeNet

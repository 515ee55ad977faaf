import BlazeNet.CafeStore

/-!
# The maps from chunks to their places

`build_map` of `cafe_store.rs` and the maps that `merge_files` starts with: a running offset over
the chunks of each file, of which the first of a hash counts. Offsets stay below `2 ^ 64`, as a file
has less than `2 ^ 32` chunks.
-/

namespace BlazeNet

open Wire RustStd

/-- The loop over the chunks of one file. -/
def insertChunks {ν : Type} (place : ℕ → UInt32 → ν) :
    HashMap Hash ν → ℕ → List ChunkMeta → HashMap Hash ν
  | map, _, [] => map
  | map, offset, chunk :: chunks =>
    insertChunks place (map.orInsert chunk.hash (place offset chunk.len))
      (offset + chunk.len.toNat) chunks

abbrev CafeChunkMap := HashMap Hash (String × ℕ × UInt32)

/-- The loop over the files of a version. -/
def insertFiles (map : CafeChunkMap) (files : List FileEntry) : CafeChunkMap := files.foldl
  (fun map file => insertChunks (fun offset len => (file.name, offset, len)) map 0 file.chunks) map

def buildMap (index : GameIndex) : CafeChunkMap := insertFiles .empty index.files

/-- The map `global_chunks` of `merge_files`. -/
def globalChunks : Option GameIndex → CafeChunkMap
  | none => .empty
  | some old => insertFiles .empty old.files

/-- The map `old_chunk_maps` of `merge_files`. -/
def oldChunkMaps : Option GameIndex → HashMap String (HashMap Hash (ℕ × UInt32))
  | none => .empty
  | some old => .collect (old.files.map fun f => (f.name, insertChunks Prod.mk .empty 0 f.chunks))

end BlazeNet

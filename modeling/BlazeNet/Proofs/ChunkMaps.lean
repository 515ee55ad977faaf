import BlazeNet.ChunkMaps
import BlazeNet.Proofs.MergeStep

/-!
# Where the chunk maps lead

Each of the loops builds the map that `chunkLocations` and `chunkOffsets` list, so what is known of
the lists holds of the maps: the keys are the chunks, and each leads to a slice that is the chunk.
-/

namespace BlazeNet

open Wire RustStd

section Loops

theorem get?_insertChunks {ν : Type} (place : ℕ → UInt32 → ν) (h : Hash) :
    ∀ (chunks : List ChunkMeta) (map : HashMap Hash ν) (offset : ℕ),
      (insertChunks place map offset chunks).get? h = (map.get? h).or
        (((chunkOffsets offset chunks).lookup h).map fun loc => place loc.1 loc.2)
  | [], map, offset => by simp [insertChunks, chunkOffsets]
  | chunk :: chunks, map, offset => by
    rw [insertChunks, get?_insertChunks place h chunks, HashMap.get?_orInsert, Option.or_assoc,
      chunkOffsets, List.lookup_cons]
    rcases eq_or_ne h chunk.hash with rfl | hne
    · simp
    · simp [hne, beq_eq_false_iff_ne.2 hne]

theorem lookup_map_name (name : String) (h : Hash) : ∀ l : List (Hash × ℕ × UInt32),
    (l.map fun e => (e.1, name, e.2)).lookup h = (l.lookup h).map fun loc => (name, loc.1, loc.2)
  | [] => rfl
  | e :: l => by
    rw [List.map_cons, List.lookup_cons, List.lookup_cons, lookup_map_name name h l]
    cases h == e.1 <;> rfl

theorem get?_insertFiles (h : Hash) : ∀ (files : List FileEntry) (map : CafeChunkMap),
    (insertFiles map files).get? h = (map.get? h).or ((chunkLocations files).lookup h)
  | [], map => by simp [insertFiles, chunkLocations]
  | file :: files, map => by
    have ih := get?_insertFiles h files
      (insertChunks (fun offset len => (file.name, offset, len)) map 0 file.chunks)
    have hfirst : chunkLocations (file :: files)
        = (chunkOffsets 0 file.chunks).map (fun e => (e.1, file.name, e.2))
          ++ chunkLocations files := List.flatMap_cons
    rw [get?_insertChunks, Option.or_assoc] at ih
    rw [hfirst, List.lookup_append, lookup_map_name]
    exact ih

/-- `build_map` leads where the list of first places does. -/
theorem get?_buildMap (index : GameIndex) (h : Hash) :
    (buildMap index).get? h = (chunkLocations index.files).lookup h := by
  rw [buildMap, get?_insertFiles, HashMap.get?_empty, Option.none_or]

theorem lookup_map_pair {β : Type} (f : FileEntry → β) (name : String) : ∀ files : List FileEntry,
    (files.map fun file => (file.name, f file)).lookup name
      = (files.find? fun file => file.name = name).map f
  | [] => rfl
  | file :: files => by
    rw [List.map_cons, List.lookup_cons, List.find?_cons, lookup_map_pair f name files]
    rcases eq_or_ne file.name name with rfl | hne
    · simp
    · simp [hne, beq_eq_false_iff_ne.2 hne.symm]

/-- The map of a file is that of the last entry of its name. -/
theorem get?_oldChunkMaps (index : GameIndex) (name : String) :
    (oldChunkMaps (some index)).get? name
      = (getFile index.files name).map fun f => insertChunks Prod.mk .empty 0 f.chunks := by
  rw [oldChunkMaps, HashMap.get?_collect, ← List.map_reverse, lookup_map_pair, getFile]

theorem get?_ofFile (f : FileEntry) (h : Hash) :
    (insertChunks Prod.mk .empty 0 f.chunks).get? h = (chunkOffsets 0 f.chunks).lookup h := by
  rw [get?_insertChunks, HashMap.get?_empty, Option.none_or]
  exact Option.map_id'

end Loops

section Slices

variable {data : Hash → Bytes} {files : String → Bytes} {f : FileEntry}

/-- The `len` bytes of the file at `offset` are the chunk, all of it. -/
def SliceIs (file : Bytes) (offset : ℕ) (len : UInt32) (chunk : Bytes) : Prop :=
  pread file offset len.toNat = chunk ∧ chunk.length = len.toNat

theorem sliceIs_of_mem (hlen : ∀ c ∈ f.chunks, (data c.hash).length = c.len.toNat)
    {h : Hash} {offset : ℕ} {len : UInt32} (hmem : (h, offset, len) ∈ chunkOffsets 0 f.chunks) :
    SliceIs (contentOf data f) offset len (data h) := by
  obtain ⟨hrange, hdata⟩ := rangeOf_contentOf hlen hmem
  exact ⟨(rangeOf_eq_some hdata).1 hrange, hdata⟩

theorem isSome_lookup_chunkOffsets {chunks : List ChunkMeta} {h : Hash} :
    ((chunkOffsets 0 chunks).lookup h).isSome ↔ h ∈ chunks.map (·.hash) := by
  rw [← map_chunkOffsets chunks 0, ← Option.ne_none_iff_isSome, Ne, List.lookup_eq_none_iff]
  simp only [List.mem_map, bne_iff_ne, not_forall, not_not, exists_prop, eq_comm (a := h)]

theorem isSome_get?_buildMap {index : GameIndex} {h : Hash} :
    ((buildMap index).get? h).isSome ↔ h ∈ index.chunkSet := by
  rw [get?_buildMap, ← Option.ne_none_iff_isSome, Ne, lookup_chunkLocations_eq_none, not_not,
    GameIndex.chunkSet, List.mem_dedup, GameIndex.chunkHashes]

/-- Of an index with distinct names and true lengths, the keys of `build_map` and `global_chunks`
are the chunks, those of a file's map in `old_chunk_maps` the chunks of the file, and each map leads
a hash to a slice with the data of its chunk. -/
theorem chunkMaps_lead (data : Hash → Bytes) (files : String → Bytes) (index : GameIndex)
    (hnames : (index.files.map (·.name)).Nodup)
    (hlen : ∀ f ∈ index.files, ∀ c ∈ f.chunks, (data c.hash).length = c.len.toNat)
    (hfiles : ∀ f ∈ index.files, files f.name = contentOf data f) :
    (∀ h, ((buildMap index).get? h).isSome ↔ h ∈ index.chunkSet)
      ∧ (∀ h name offset len, (buildMap index).get? h = some (name, offset, len) →
        name ∈ index.files.map (·.name) ∧ SliceIs (files name) offset len (data h))
      ∧ globalChunks (some index) = buildMap index
      ∧ ∀ f ∈ index.files, ∃ map, (oldChunkMaps (some index)).get? f.name = some map
        ∧ (∀ h, (map.get? h).isSome ↔ h ∈ f.chunks.map (·.hash))
        ∧ ∀ h offset len, map.get? h = some (offset, len) →
          SliceIs (files f.name) offset len (data h) := by
  refine ⟨fun h => isSome_get?_buildMap, fun h name offset len hget => ?_, rfl, fun f hf => ?_⟩
  · rw [get?_buildMap] at hget
    obtain ⟨f, hf, rfl, hmem⟩ := mem_of_chunkLocations hget
    refine ⟨List.mem_map_of_mem hf, ?_⟩
    rw [hfiles f hf]
    exact sliceIs_of_mem (hlen f hf) hmem
  · have hfile : getFile index.files f.name = some f := (getFile_eq_some hnames).2 ⟨hf, rfl⟩
    refine ⟨_, by rw [get?_oldChunkMaps, hfile]; rfl, fun h => ?_, fun h offset len hget => ?_⟩
    · rw [get?_ofFile, isSome_lookup_chunkOffsets]
    · rw [get?_ofFile] at hget
      rw [hfiles f hf]
      exact sliceIs_of_mem (hlen f hf) (mem_of_lookup hget)

/-- A chunk twice in a file and again in another. -/
def repeatedIndex : GameIndex :=
  ⟨1, [⟨"a", .fill 8, [⟨.fill 1, 2⟩, ⟨.fill 2, 1⟩, ⟨.fill 1, 2⟩]⟩,
    ⟨"b", .fill 9, [⟨.fill 2, 1⟩, ⟨.fill 1, 2⟩]⟩], .fill 0⟩

theorem chunkMaps_lead_repeated :
    (buildMap repeatedIndex).get? (.fill 1) = some ("a", 0, 2)
      ∧ SliceIs [7, 7, 5, 7, 7] 0 2 [7, 7] := by
  have hget : (buildMap repeatedIndex).get? (.fill 1) = some ("a", 0, 2) := by decide
  have hlead := chunkMaps_lead (fun h => if h = .fill 1 then [7, 7] else [5])
    (fun name => if name = "a" then [7, 7, 5, 7, 7] else [5, 7, 7]) repeatedIndex (by decide)
    (by decide) (by decide)
  exact ⟨hget, (hlead.2.1 _ _ _ _ hget).2⟩

end Slices

end BlazeNet

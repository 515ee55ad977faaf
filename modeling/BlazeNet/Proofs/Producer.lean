import BlazeNet.Producer
import BlazeNet.Proofs.Merge

/-!
# What a producer makes installs the same tree

Without faults the entries are the names after the replacement, with the hashes of the files and of
the pieces they are cut into, and every piece is staged under its hash. A manifest whose counts fit
is decoded to those entries, and a merge into an empty directory puts each file together from the
staged pieces.
-/

namespace BlazeNet

open Wire FaultIo Io RustStd UnixFs

namespace Producer

variable {blake3 : Bytes → Hash} {cdc : StreamCdc} {bytes : Hash → Bytes} {d₀ d : Disk}
  {stage : Place} {seen : HashSet Hash}

section Stage

/-- The blocks of the chunks seen are staged, and nothing else has changed. -/
structure Staging (bytes : Hash → Bytes) (stage : Place) (d₀ : Disk) (seen : HashSet Hash)
    (d : Disk) : Prop where
  wf : d.Wf
  dir : d.node stage = some .dir
  free : ∀ hash, d.node (blockPlace stage hash) ≠ some .dir
  blocks : ∀ hash ∈ seen, d.content (blockPlace stage hash) = some (bytes hash)
  others : ∀ p, (∀ hash ∈ seen, p ≠ blockPlace stage hash) → d.node p = d₀.node p

theorem Staging.congr (h : Staging bytes stage d₀ seen d) {d' : Disk} (hd : SameNodes d d') :
    Staging bytes stage d₀ seen d' :=
  ⟨h.wf.congr hd, by rw [hd, h.dir], fun hash => by rw [hd]; exact h.free hash,
    fun hash hs => by rw [hd.content, h.blocks hash hs], fun p hp => by rw [hd, h.others p hp]⟩

theorem blockPlace_injective {a b : Hash}
    (h : blockPlace stage a = blockPlace stage b) : a = b := by
  have hname := List.append_cancel_left h
  rw [List.cons.injEq, toList_blockName, toList_blockName] at hname
  have hbytes := hexChars_inj (List.append_cancel_right hname.1)
  cases a
  cases b
  simpa using hbytes

theorem exec_stageChunk (h : Staging bytes stage d₀ seen d) {data : Bytes}
    (hdata : bytes (blake3 data) = data) (path : Path) :
    ∃ seen' d', exec (stageChunk path (some (ofPlace stage)) seen (blake3 data) data) d
        = (.ok seen', d') ∧ Staging bytes stage d₀ seen' d'
      ∧ ∀ hash, hash ∈ seen' ↔ hash = blake3 data ∨ hash ∈ seen := by
  unfold stageChunk
  dsimp only
  by_cases hs : blake3 data ∈ seen
  · rw [if_pos hs]
    exact ⟨seen, d, rfl, h, fun hash => ⟨.inr, fun ho => ho.elim (fun he => he ▸ hs) id⟩⟩
  rw [if_neg hs, tempBlock_ofPlace]
  have hfind : d.find (ofPlace (blockPlace stage (blake3 data)))
      = .ok (blockPlace stage (blake3 data)) := h.wf.find_below h.dir
  obtain ⟨d', hwrite, hnode⟩ := exec_writeFile (ε := AnyError) hfind (h.free _) data
  refine ⟨seen.insert (blake3 data), d', ?_, ⟨?_, ?_, fun hash => ?_, fun hash hmem => ?_,
    fun p hp => ?_⟩, fun hash => HashSet.mem_insert⟩
  · rw [exec_bind, exec_context_ok hwrite]
    rfl
  · exact h.wf.of_update (n := (blockName (blake3 data)).toList) h.dir (h.free _)
      fun q hq => (hnode q).trans (if_neg hq)
  · rw [hnode, if_neg (by simp [blockPlace]), h.dir]
  · rw [hnode]
    split_ifs
    · simp
    · exact h.free hash
  · by_cases he : hash = blake3 data
    · rw [Disk.content_eq_some, hnode, if_pos (by rw [he]), he, hdata]
    · have hne : blockPlace stage hash ≠ blockPlace stage (blake3 data) :=
        fun heq => he (blockPlace_injective heq)
      have hsame : d'.node (blockPlace stage hash) = d.node (blockPlace stage hash) := by
        rw [hnode, if_neg hne]
      rw [Disk.content_congr hsame]
      exact h.blocks hash ((HashSet.mem_insert.1 hmem).resolve_left he)
  · rw [hnode, if_neg (hp _ (HashSet.mem_insert.2 (.inl rfl))),
      h.others p fun hash hs => hp hash (HashSet.mem_insert.2 (.inr hs))]

/-- What a manifest says of a piece. -/
def metaOf (blake3 : Bytes → Hash) (data : Bytes) : ChunkMeta :=
  ⟨blake3 data, UInt32.ofNat data.length⟩

theorem exec_chunkLoop (path : Path) : ∀ (pieces : List Bytes) {seen : HashSet Hash} {d : Disk}
    (metas : List ChunkMeta), Staging bytes stage d₀ seen d →
    (∀ data ∈ pieces, bytes (blake3 data) = data) →
    ∃ seen' d', exec (chunkLoop blake3 path (some (ofPlace stage)) pieces seen metas) d
        = (.ok (metas ++ pieces.map (metaOf blake3), seen'), d') ∧ Staging bytes stage d₀ seen' d'
      ∧ ∀ hash, hash ∈ seen' ↔ hash ∈ seen ∨ ∃ data ∈ pieces, hash = blake3 data
  | [], seen, d, metas, h, _ => ⟨seen, d, by simp [chunkLoop], h, by simp⟩
  | data :: rest, seen, d, metas, h, hdata => by
    obtain ⟨seen₁, d₁, hrun, h₁, hmem⟩ := exec_stageChunk h (hdata data List.mem_cons_self) path
    obtain ⟨seen', d', hrest, h', hmem'⟩ := exec_chunkLoop path rest (metas ++ [metaOf blake3 data])
      h₁ fun x hx => hdata x (List.mem_cons_of_mem _ hx)
    refine ⟨seen', d', ?_, h', fun hash => ?_⟩
    · rw [← List.append_cons] at hrest
      rw [chunkLoop, exec_bind, hrun]
      exact hrest
    · rw [hmem', hmem]
      simp only [List.mem_cons, exists_eq_or_imp]
      tauto

end Stage

section Entries

variable {s : Place} {content : String → Bytes} {rel : String}

/-- The entry of a file. -/
def entryOf (blake3 : Bytes → Hash) (cdc : StreamCdc) (s : Place) (content : String → Bytes)
    (rel : String) : FileEntry :=
  ⟨replaceBackslash rel, blake3 (content rel), (piecesOf cdc s content rel).map (metaOf blake3)⟩

theorem exec_openAndRead (hd : d.Wf) {p : Place} {c : Bytes} (hc : d.content p = some c)
    (text : String) : ∃ d', exec (openAndRead text (ofPlace p)) d = (.ok c, d')
      ∧ SameNodes d d' := by
  have hnode := Disk.content_eq_some.1 hc
  have hfind := hd.find_ofPlace (p := p) (by simp [hnode])
  have hopen := exec_openFile (ε := AnyError) hfind (by simp [hnode])
  have hfind' : (d.note p .open).find (ofPlace p) = .ok p :=
    (hd.congr fun q => d.node_note p q .open).find_ofPlace (by simp [hnode])
  have hread := exec_readFile (ε := AnyError) hfind' (by rw [Disk.node_note, hnode])
  refine ⟨(d.note p .open).note p .open, ?_, fun _ => rfl⟩
  rw [openAndRead, exec_bind, exec_context_ok hopen]
  exact exec_context_ok hread

theorem exec_fileHash (hd : d.Wf) {p : Place} {c : Bytes} (hc : d.content p = some c) :
    ∃ d', exec (fileHash blake3 (ofPlace p)) d = (.ok (blake3 c), d') ∧ SameNodes d d' := by
  obtain ⟨d', hread, hsame⟩ := exec_openAndRead hd hc "读取文件失败"
  refine ⟨d', ?_, hsame⟩
  rw [fileHash, exec_bind, hread]
  rfl

/-- A source file is none of the blocks. -/
theorem Staging.source (h : Staging bytes stage d₀ seen d) {p : Place} {c : Bytes}
    (hc : d₀.content p = some c) (hp : ∀ hash, blockPlace stage hash ≠ p) :
    d.content p = some c := by
  rw [Disk.content_congr (h.others p fun hash _ he => hp hash he.symm), hc]

theorem exec_chunkFile (h : Staging bytes stage d₀ seen d) {p : Place} {c : Bytes}
    (hc : d.content p = some c) (hdata : ∀ data ∈ cdc (ofPlace p) c, bytes (blake3 data) = data) :
    ∃ seen' d', exec (chunkFile blake3 cdc (ofPlace p) (some (ofPlace stage)) seen) d
        = (.ok ((cdc (ofPlace p) c).map (metaOf blake3), seen'), d')
      ∧ Staging bytes stage d₀ seen' d'
      ∧ ∀ hash, hash ∈ seen' ↔ hash ∈ seen ∨ ∃ data ∈ cdc (ofPlace p) c, hash = blake3 data := by
  obtain ⟨d₁, hread, hsame⟩ := exec_openAndRead h.wf hc "FastCDC 分块失败"
  obtain ⟨seen', d', hrun, h', hmem⟩ :=
    exec_chunkLoop (ofPlace p) (cdc (ofPlace p) c) [] (h.congr hsame) hdata
  refine ⟨seen', d', ?_, h', hmem⟩
  rw [chunkFile, exec_bind, hread]
  exact hrun

/-- The files in their order. -/
theorem exec_makeEntries : ∀ (files : List String) {seen : HashSet Hash} {d : Disk}
    (entries : List FileEntry), Staging bytes stage d₀ seen d →
    (∀ rel ∈ files, PlainName rel ∧ d₀.content (s ++ placeOf rel) = some (content rel)
      ∧ (∀ hash, blockPlace stage hash ≠ s ++ placeOf rel)
      ∧ ∀ data ∈ piecesOf cdc s content rel, bytes (blake3 data) = data) →
    ∃ seen' d',
      exec (makeEntries blake3 cdc (ofPlace s) (some (ofPlace stage)) files seen entries) d
        = (.ok (entries ++ files.map (entryOf blake3 cdc s content), seen'), d')
      ∧ Staging bytes stage d₀ seen' d'
      ∧ ∀ hash, hash ∈ seen' ↔ hash ∈ seen
        ∨ ∃ data ∈ files.flatMap (piecesOf cdc s content), hash = blake3 data
  | [], seen, d, entries, h, _ => ⟨seen, d, by simp [makeEntries], h, by simp⟩
  | rel :: files, seen, d, entries, h, hfiles => by
    obtain ⟨hplain, hsource, hapart, hdata⟩ := hfiles rel List.mem_cons_self
    have hpieces : ∀ data ∈ cdc (ofPlace (s ++ placeOf rel)) (content rel),
        bytes (blake3 data) = data := hdata
    obtain ⟨seen₁, d₁, hchunk, h₁, hmem₁⟩ := exec_chunkFile h (h.source hsource hapart) hpieces
    obtain ⟨d₂, hhash, hsame⟩ : ∃ d₂, exec (fileHash blake3 (ofPlace (s ++ placeOf rel))) d₁
        = (.ok (blake3 (content rel)), d₂) ∧ SameNodes d₁ d₂ :=
      exec_fileHash h₁.wf (h₁.source hsource hapart)
    obtain ⟨seen', d', hrest, h', hmem'⟩ := exec_makeEntries files
      (entries ++ [entryOf blake3 cdc s content rel]) (h₁.congr hsame)
      fun a ha => hfiles a (List.mem_cons_of_mem _ ha)
    refine ⟨seen', d', ?_, h', fun hash => ?_⟩
    · rw [← List.append_cons] at hrest
      simp only [makeEntries, hplain.join_eq, exec_bind, hchunk, hhash]
      exact hrest
    · rw [hmem', hmem₁, List.flatMap_cons]
      simp only [List.mem_append, or_and_right, exists_or, or_assoc]
      rfl

end Entries

section Directories

/-- The directories on the way to a place have been made. -/
structure Made (p : Place) (d d' : Disk) : Prop where
  wf : d'.Wf
  node : ∀ q, d'.node q = if q <+: p then some .dir else d.node q
  content : ∀ q, d'.content q = d.content q

theorem exec_createDirAll_made (hd : d.Wf) {p : Place} (hp : ∀ q, q <+: p → d.content q = none) :
    ∃ d', exec (createDirAll (ofPlace p) : FsIo Unit) d = (.ok (), d') ∧ Made p d d' := by
  obtain ⟨d', hrun, hd', hnode⟩ := exec_createDirAll (ε := AnyError) hd hp
  refine ⟨d', hrun, hd', hnode, fun q => ?_⟩
  by_cases hq : q <+: p
  · rw [hp q hq, Disk.content, hnode, if_pos hq]
  · exact Disk.content_congr (by rw [hnode, if_neg hq])

theorem Made.dir {p q : Place} {d' : Disk} (h : Made p d d') (hq : d.node q = some .dir) :
    d'.node q = some .dir := by
  rw [h.node, hq, ite_self]

end Directories

section Run

variable {s o : Place} {version : UInt64} {files : List String} {content : String → Bytes}

theorem slash_notMem_manifestName (version : UInt64) :
    '/' ∉ (toString version.toNat ++ ".gameindex").toList := by
  have hdigits : (toString version.toNat).toList = Nat.toDigits 10 version.toNat := by
    simp [Nat.toString_eq_repr, Nat.repr]
  rw [String.toList_append, List.mem_append, not_or, hdigits]
  refine ⟨fun h => ?_, by decide⟩
  have := Nat.isDigit_of_mem_toDigits (by decide) (by decide) h
  exact absurd this (by decide)

theorem indexPath_eq (version : UInt64) (source o : Place) :
    indexPath ⟨version, ofPlace source, ofPlace o⟩ = ofPlace (manifestPlace o version) := by
  have hslash := slash_notMem_manifestName version
  have hlen : 10 ≤ (toString version.toNat ++ ".gameindex").toList.length := by
    simp [String.toList_append]
  have hcomp := components_of_name hslash (fun h => by rw [h] at hlen; simp at hlen)
    (fun h => by rw [h] at hlen; simp at hlen) fun h => by rw [h] at hlen; simp at hlen
  have hdir : indexDir ⟨version, ofPlace source, ofPlace o⟩ = ofPlace (o ++ ["index".toList]) := by
    rw [ofPlace_append]
    rfl
  have hplace : manifestPlace o version = (o ++ ["index".toList])
      ++ [(toString version.toNat ++ ".gameindex").toList] := by
    rw [manifestPlace, List.append_assoc]
    rfl
  rw [indexPath, hdir, join, isAbsolute_of_name hslash, hcomp, hplace, ofPlace_append (o ++ _)]
  rfl

theorem blockPlace_ne_manifestPlace (hash : Hash) :
    manifestPlace o version ≠ blockPlace (stagePlace o) hash := by
  rw [manifestPlace, blockPlace, stagePlace, List.append_assoc]
  intro he
  have := List.append_cancel_left he
  simp at this

end Run

section Install

variable {s o g t : Place} {version : UInt64} {files : List String} {content : String → Bytes}
  {rel : String}

/-- The piece with a hash. -/
def bytesOf (blake3 : Bytes → Hash) (pieces : List Bytes) (hash : Hash) : Bytes :=
  (pieces.find? fun data => blake3 data = hash).getD []

theorem bytesOf_blake3 (h : CollisionFree blake3 cdc s content files) {data : Bytes}
    (hd : data ∈ files.flatMap (piecesOf cdc s content)) :
    bytesOf blake3 (files.flatMap (piecesOf cdc s content)) (blake3 data) = data := by
  unfold bytesOf
  rcases hfind : (files.flatMap (piecesOf cdc s content)).find? fun x => blake3 x = blake3 data
    with _ | x
  · have := List.find?_eq_none.1 hfind data hd
    simp at this
  · have hx : blake3 x = blake3 data := by simpa using List.find?_some hfind
    exact h x (List.mem_of_find?_eq_some hfind) data hd hx

/-- An entry has the content of its file. -/
theorem contentOf_entryOf (hcut : (piecesOf cdc s content rel).flatten = content rel)
    (hdata : ∀ data ∈ piecesOf cdc s content rel, bytes (blake3 data) = data) :
    contentOf bytes (entryOf blake3 cdc s content rel) = content rel := by
  have hmap : (piecesOf cdc s content rel).map (fun data => bytes (blake3 data))
      = piecesOf cdc s content rel :=
    (List.map_congr_left hdata).trans (List.map_id' _)
  rw [contentOf, entryOf, List.flatMap_map]
  change ((piecesOf cdc s content rel).map fun data => bytes (blake3 data)).flatten = content rel
  rw [hmap, hcut]

theorem TreeNames.goodNames (h : TreeNames (files.map replaceBackslash)) :
    GoodNames [] (files.map (entryOf blake3 cdc s content)) := by
  have hnames : (files.map (entryOf blake3 cdc s content)).map (·.name)
      = files.map replaceBackslash := by
    rw [List.map_map]
    rfl
  have hmem : ∀ f ∈ files.map (entryOf blake3 cdc s content),
      f.name ∈ files.map replaceBackslash := fun f hf => hnames ▸ List.mem_map_of_mem hf
  refine ⟨fun f hf => h.normal _ (hmem f hf), List.nodup_nil, hnames ▸ h.nodup,
    fun f hf f' hf' hpre => h.prefixFree _ (hmem f hf) _ (hmem f' hf') hpre,
      fun f hf f' hf' he => ?_⟩
  exact absurd (by rw [he]) (h.newFree _ (hmem f hf) _ (hmem f' hf'))

/-- All is there for the merge of a tree into an empty directory. -/
theorem ready_tree (hnames : TreeNames (files.map replaceBackslash)) (hd : d.Wf) (hg : EmptyDir d g)
    (hout : ¬ g <+: t)
    (hcontent : ∀ rel ∈ files, contentOf bytes (entryOf blake3 cdc s content rel) = content rel)
    (hblocks : ∀ data ∈ files.flatMap (piecesOf cdc s content),
      d.content (blockPlace t (blake3 data)) = some (bytes (blake3 data))) :
    Ready blake3 bytes d g t
      (GameIndex.build blake3 (files.map (entryOf blake3 cdc s content))) none
      HashSet.empty := by
  refine ⟨hd, hnames.goodNames, ⟨by simp [filesOf], by simp [filesOf]⟩, fun f hf => ?_,
    ⟨hg.dir, fun q => ?_⟩, hout, fun hash hh => ?_⟩
  · obtain ⟨rel, hrel, rfl⟩ := List.mem_map.1 hf
    rw [hcontent rel hrel]
    rfl
  · have hnone : d.content (g ++ q) = none := by
      by_cases hq : q = []
      · rw [hq, List.append_nil, Disk.content, hg.dir]
      · rw [Disk.content, hg.empty q hq]
    rw [hnone]
    rfl
  · -- every chunk to download is one of the pieces
    simp only [HashSet.empty, List.nil_append, UpdatePlan.compute] at hh
    obtain ⟨c, hc, rfl⟩ := List.mem_map.1 hh
    obtain ⟨f, hf, hcf⟩ := List.mem_flatMap.1 ((firstMissing_sublist _ _).subset hc)
    obtain ⟨rel, hrel, rfl⟩ := List.mem_map.1 hf
    obtain ⟨data, hdata, rfl⟩ := List.mem_map.1 hcf
    exact hblocks data (List.mem_flatMap.2 ⟨rel, hrel, hdata⟩)

theorem mergeable_tree (hnames : TreeNames (files.map replaceBackslash)) (hg : EmptyDir d g) :
    Mergeable bytes d g [] (files.map (entryOf blake3 cdc s content)) := by
  intro done entry rest hsplit
  have hmem : ∀ f ∈ files.map (entryOf blake3 cdc s content),
      f.name ∈ files.map replaceBackslash := by
    intro f hf
    obtain ⟨rel, hrel, rfl⟩ := List.mem_map.1 hf
    exact List.mem_map_of_mem hrel
  have hentry := hmem entry (entry_mem hsplit)
  have hplain := (hnames.normal _ hentry).plain
  refine ⟨fun _ => ⟨fun he => ?_, ?_, ?_, fun f hf _ => ?_, fun c _ _ rel offset len hl => ?_⟩,
    fun prev hprev => by simp [getFile] at hprev⟩
  · exact hnames.newFree _ hentry _ hentry (by rw [he])
  · simp [hg.empty _ hplain.ne_nil]
  · have hne : newOf (placeOf entry.name) ≠ [] := by
      rw [newOf_eq hplain.ne_nil]
      simp
    simp [hg.empty _ hne]
  · exact hnames.newFree _ hentry _ (hmem f (done_mem hsplit hf))
  · simp [chunkLocations] at hl

/-- The entries that fit are decoded. -/
theorem decode_tree (hnames : TreeNames (files.map replaceBackslash))
    (hcounts : CountsFit cdc s content files) :
    GameIndex.decode blake3 (GameIndex.build blake3
      (files.map (entryOf blake3 cdc s content))).encode
      = .ok (GameIndex.build blake3 (files.map (entryOf blake3 cdc s content))) := by
  refine (decode_eq_ok blake3).2 ⟨0, build_layout blake3 (by simpa using hcounts.count) ?_⟩
  intro f hf
  obtain ⟨rel, hrel, rfl⟩ := List.mem_map.1 hf
  refine ⟨hnames.short _ (List.mem_map_of_mem hrel), ?_⟩
  simpa [entryOf] using hcounts.chunks rel hrel

theorem find?_entryOf
    (hcontent : ∀ rel ∈ files, contentOf bytes (entryOf blake3 cdc s content rel) = content rel)
    (q : Place) :
    ((files.map (entryOf blake3 cdc s content)).find? fun f => placeOf f.name = q).map
        (contentOf bytes)
      = (files.find? fun rel => placeOf (replaceBackslash rel) = q).map content := by
  rw [List.find?_map, Option.map_map]
  change (files.find? fun rel => placeOf (replaceBackslash rel) = q).map _ = _
  rcases hfind : files.find? fun rel => placeOf (replaceBackslash rel) = q with _ | rel
  · rfl
  · exact congrArg some (hcontent rel (List.mem_of_find?_eq_some hfind))

end Install

section Wrapped

theorem leBytes_inj {w m n : ℕ} (h : leBytes w m = leBytes w n) : m % 256 ^ w = n % 256 ^ w := by
  rw [← ofLe_leBytes, ← ofLe_leBytes, h]

theorem encodeChunk_ne_nil (c : ChunkMeta) : encodeChunk c ≠ [] := by
  have hsize := c.hash.size
  intro h
  have := congrArg List.length h
  rw [encodeChunk, List.length_append, hsize] at this
  simp [hashLen] at this

/-- A file whose chunk count wraps around to zero is encoded like no file that fits. -/
theorem encodeFile_ne_of_wrapped {f f' : FileEntry} (hchunks : f.chunks ≠ [])
    (hcount : f.chunks.length % 2 ^ 32 = 0) (hname : (nameBytes f.name).length ≤ 65535)
    (hfits : f'.Fits) : encodeFile f ≠ encodeFile f' := by
  intro h
  simp only [encodeFile, List.append_assoc] at h
  obtain ⟨hlen, h⟩ := List.append_inj h (by simp)
  have hnames : (nameBytes f.name).length = (nameBytes f'.name).length := by
    have := leBytes_inj hlen
    have hle := hfits.1
    omega
  obtain ⟨-, h⟩ := List.append_inj h hnames
  obtain ⟨-, h⟩ := List.append_inj h (by rw [f.fileHash.size, f'.fileHash.size])
  obtain ⟨hcounts, h⟩ := List.append_inj h (by simp)
  have hzero : f'.chunks = [] := by
    have := leBytes_inj hcounts
    have hlt := hfits.2
    exact List.length_eq_zero_iff.1 (by omega)
  rw [hzero, List.flatMap_nil, List.flatMap_eq_nil_iff] at h
  obtain ⟨c, hc⟩ := List.exists_mem_of_ne_nil _ hchunks
  exact encodeChunk_ne_nil c (h c hc)

/-- The manifest of one such file is not decoded. -/
theorem decode_wrapped {f : FileEntry} (hchunks : f.chunks ≠ [])
    (hcount : f.chunks.length % 2 ^ 32 = 0) (hname : (nameBytes f.name).length ≤ 65535)
    (index : GameIndex) :
    GameIndex.decode blake3 (GameIndex.build blake3 [f]).encode ≠ .ok index := by
  intro hdecode
  obtain ⟨flags, hbytes, ⟨hlt, hfits⟩, -⟩ := (decode_eq_ok blake3).1 hdecode
  rw [GameIndex.encode, encodeBody_eq] at hbytes
  obtain ⟨hbody, -⟩ := List.append_inj' hbytes
    (by rw [(GameIndex.build blake3 [f]).manifestHash.size, index.manifestHash.size])
  simp only [documentedBody, List.append_assoc] at hbody
  obtain ⟨-, hbody⟩ := List.append_inj hbody rfl
  obtain ⟨-, hbody⟩ := List.append_inj hbody (by simp)
  obtain ⟨-, hbody⟩ := List.append_inj hbody (by simp)
  obtain ⟨hcounts, hbody⟩ := List.append_inj hbody (by simp)
  have hone : index.files.length = 1 := by
    have : 1 % 256 ^ 4 = index.files.length % 256 ^ 4 := leBytes_inj hcounts
    omega
  obtain ⟨f', hf'⟩ := List.length_eq_one_iff.1 hone
  rw [hf'] at hbody hfits
  refine encodeFile_ne_of_wrapped hchunks hcount hname (hfits f' (by simp)) ?_
  simpa [GameIndex.build] using hbody

end Wrapped

section Single

/-- One byte a chunk. -/
def singles : StreamCdc := fun _ content => content.map fun b => [b]

/-- A source directory with one file, whose name has a backslash. -/
def singleTree (content : Bytes) : Disk :=
  .ofList [([], .dir), ([['s']], .dir), ([['s'], "b\\c".toList], .file content)]

theorem singleTree_node {content : Bytes} {p : Place} {n : Node}
    (h : (singleTree content).node p = some n) : p = [] ∧ n = .dir ∨ p = [['s']] ∧ n = .dir
      ∨ p = [['s'], "b\\c".toList] ∧ n = .file content := by
  have hmem := Disk.mem_entries_of_node h
  have hentries : (singleTree content).nodes.entries = [⟨[], .dir⟩, ⟨[['s']], .dir⟩,
    ⟨[['s'], "b\\c".toList], .file content⟩] := rfl
  rw [hentries] at hmem
  simpa using hmem

theorem treeNames_single : TreeNames (["b\\c"].map replaceBackslash) := by
  refine ⟨?_, by decide, by decide, by decide, by decide⟩
  unfold NormalName
  decide

theorem cutsFiles_singles (s : Place) (content : String → Bytes) (files : List String) :
    CutsFiles singles s content files := by
  refine fun rel _ => ⟨?_, fun data hd => ?_⟩
  · simp [piecesOf, singles, ← List.flatMap_def]
  · obtain ⟨b, -, rfl⟩ := List.mem_map.1 hd
    simp

end Single

end Producer

end BlazeNet

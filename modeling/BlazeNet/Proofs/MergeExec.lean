import BlazeNet.UpdateSpec
import BlazeNet.Proofs.UpdateFrame

/-!
# How one file is put together

Without faults `write_new_file` reads the chunks of its entry one after another, each where the
sources say (`Sources.found`), into the file next to its target, and puts that in the target's place
if the hash is right.
-/

namespace BlazeNet

open Wire FaultIo Io RustStd UnixFs

section Names

variable {name : String} {g : Place}

theorem PlainName.components_eq (h : PlainName name) :
    components name = ofPlace (placeOf name) := by
  obtain ⟨-, -, hup⟩ := h
  unfold placeOf ofPlace
  generalize components name = path at hup
  induction path with
  | nil => rfl
  | cons c path ih =>
    rw [List.mem_cons, not_or] at hup
    rcases c with _ | n
    · exact absurd rfl hup.1
    · simpa using ih hup.2

theorem PlainName.ne_nil (h : PlainName name) : placeOf name ≠ [] := by
  intro h0
  have := h.components_eq
  rw [h0] at this
  exact h.2.1 this

theorem PlainName.join_eq (h : PlainName name) :
    join (ofPlace g) name = ofPlace (g ++ placeOf name) := by
  rw [join, h.1, h.components_eq, ofPlace_append]
  rfl

namespace NormalName

variable (h : NormalName name)
include h

theorem components_eq : components name = (name.toList.splitOn '/').map .normal := by
  unfold NormalName at h
  rw [components]
  generalize name.toList.splitOn '/' = pieces at h
  induction pieces with
  | nil => rfl
  | cons piece pieces ih =>
    obtain ⟨h1, h2, h3⟩ := h piece List.mem_cons_self
    rw [List.filterMap_cons_some (b := .normal piece) (by simp [component, h1, h2, h3]),
      ih fun p hp => h p (List.mem_cons_of_mem _ hp), List.map_cons]

theorem placeOf_eq : placeOf name = name.toList.splitOn '/' := by
  rw [placeOf, h.components_eq, List.filterMap_map]
  exact List.filterMap_some

theorem plain : PlainName name := by
  refine ⟨?_, ?_, ?_⟩
  · rcases hl : name.toList with _ | ⟨c, rest⟩
    · simp [isAbsolute, hl]
    · have hc : c ≠ '/' := by
        rintro rfl
        refine (h [] ?_).1 rfl
        rw [hl]
        exact List.splitOn_append_cons_self [] rest ▸ by simp
      simp [isAbsolute, hl, hc]
  · rw [h.components_eq]
    simp [List.splitOn_ne_nil]
  · simp [h.components_eq]

/-- A normal name is known by its place. -/
theorem eq_of_placeOf {name' : String} (h' : NormalName name')
    (hplace : placeOf name = placeOf name') :
    name = name' := by
  rw [h.placeOf_eq, h'.placeOf_eq] at hplace
  have := congrArg (List.intercalate ['/']) hplace
  rwa [List.intercalate_splitOn, List.intercalate_splitOn, String.toList_inj] at this

end NormalName

theorem ofPlace_injective {p q : Place} (h : ofPlace p = ofPlace q) : p = q := by
  have := congrArg resolve h
  rwa [resolve_ofPlace, resolve_ofPlace] at this

theorem newOf_eq {place : Place} (h : place ≠ []) :
    newOf place = place.dropLast ++ [fileStem (place.getLast h) ++ '.' :: "new".toList] := by
  rw [newOf, List.getLast?_eq_getLast_of_ne_nil h]

theorem newOf_append {place : Place} (h : place ≠ []) : newOf (g ++ place) = g ++ newOf place := by
  have hne : g ++ place ≠ [] := by simp [h]
  rw [newOf_eq hne, newOf_eq h, List.dropLast_append_of_ne_nil h,
    List.getLast_append_of_ne_nil hne h,
    List.append_assoc]

theorem newPathOf_ofPlace (place : Place) : newPathOf (ofPlace place) = ofPlace (newOf place) := by
  rcases List.eq_nil_or_concat place with rfl | ⟨up, name, rfl⟩
  · rfl
  · simp [newPathOf, withExtension, newOf, ofPlace, -List.concat_eq_append]
    simp

theorem dropLast_newOf (place : Place) : (newOf place).dropLast = place.dropLast := by
  rcases List.eq_nil_or_concat place with rfl | ⟨up, name, rfl⟩
  · rfl
  · simp [newOf]

theorem tempBlock_ofPlace (t : Place) (hash : Hash) :
    tempBlock (ofPlace t) hash = ofPlace (blockPlace t hash) := by
  rw [tempBlock_eq, blockPlace, ofPlace_append]
  rfl

end Names

section Chunks

/-- The bytes `read_chunk_at` gets from a file, if the file is long enough. -/
def rangeOf (content : Bytes) (offset : ℕ) (len : UInt32) : Option Bytes :=
  if offset + len.toNat ≤ max offset content.length then some (pread content offset len.toNat)
  else none

/-- The bytes of a chunk as the sources have it. -/
def Sources.found (src : Sources) (d : Disk) (g t : Place) (hash : Hash) : Option Bytes :=
  match src.own hash with
  | some (file, offset, len) => (d.content file).bind fun c => rangeOf c offset len
  | none => match src.globalChunks.lookup hash with
    | some (rel, offset, len) => match d.content (g ++ placeOf rel) with
      | some c => rangeOf c offset len
      | none => d.content (blockPlace t hash)
    | none => d.content (blockPlace t hash)

/-- The sources lie in these directories, under plain names. -/
structure Sources.At (src : Sources) (g t : Place) : Prop where
  gameDir : src.gameDir = ofPlace g
  tempDir : src.tempDir = ofPlace t
  plain : ∀ hash loc, src.globalChunks.lookup hash = some loc → PlainName loc.1

/-- A kept handle is at its path. -/
def HandleOk (last : Option (Path × Place)) : Prop :=
  ∀ path file, last = some (path, file) → path = ofPlace file

variable {src : Sources} {g t : Place} {d : Disk} {last : Option (Path × Place)}

/-- The entries are the same, the log may not be. -/
def SameNodes (d d' : Disk) : Prop := ∀ p, d'.node p = d.node p

theorem SameNodes.content {d' : Disk} (h : SameNodes d d') (p : Place) :
    d'.content p = d.content p := Disk.content_congr (h p)

/-- `read_chunk_at` reads its range or meets the end of the file. -/
theorem exec_readChunkAt {file : Place} {c : Bytes} (hc : d.content file = some c) (offset : ℕ)
    (len : UInt32) : exec (readChunkAt file offset len) d = (match rangeOf c offset len with
      | some data => .ok data
      | none => .error (.err (.msg "读取块遇到文件末尾")), d) := by
  have hread : ∀ n o, exec (context "读取块失败" (readFrom file n o : FsIo Bytes)) d
      = (.ok (pread c o n), d) :=
    fun n o => exec_context_ok (exec_readFrom (Disk.content_eq_some.1 hc) n o)
  rw [readChunkAt, exec_readLoop_of _ hread, rangeOf]
  split_ifs <;> rfl

/-- What reading a chunk comes to. -/
def Fetched (d : Disk) (found : Option Bytes)
    (r : Except (Stop AnyError) (Bytes × Option (Path × Place)) × Disk) : Prop :=
  SameNodes d r.2 ∧ match found with
    | some data => ∃ last, r.1 = .ok (data, last) ∧ HandleOk last
    | none => ∃ e, r.1 = .error (.err e)

theorem fetched_read {file : Place} {c : Bytes} (hc : d.content file = some c) (offset : ℕ)
    (len : UInt32) (hlast : HandleOk last) :
    Fetched d (rangeOf c offset len) (exec (do
      let data ← readChunkAt file offset len
      pure (data, last)) d) := by
  rw [exec_bind, exec_readChunkAt hc]
  rcases rangeOf c offset len with _ | data
  · exact ⟨fun _ => rfl, _, rfl⟩
  · exact ⟨fun _ => rfl, last, rfl, hlast⟩

theorem fetched_temp (hd : d.Wf) (hsrc : src.At g t) (hash : Hash) (hlast : HandleOk last) :
    Fetched d (d.content (blockPlace t hash)) (exec (do
      let data ← src.readTemp hash
      pure (data, last)) d) := by
  rw [exec_bind, Sources.readTemp, hsrc.tempDir, tempBlock_ofPlace]
  rcases hc : d.content (blockPlace t hash) with _ | c
  · have hread : ∃ e, exec (UnixFs.readFile (ofPlace (blockPlace t hash)) : FsIo Bytes) d
        = (.error (.err e), d) := by
      rcases hf : d.find (ofPlace (blockPlace t hash)) with e | place
      · exact ⟨_, exec_sysAt_error hf⟩
      · obtain rfl : place = blockPlace t hash := by simpa using Disk.find_eq hf
        rw [UnixFs.readFile, exec_sysAt hf]
        rcases hn : d.node (blockPlace t hash) with _ | c | _
        · exact ⟨_, rfl⟩
        · simp [Disk.content, hn] at hc
        · exact ⟨_, rfl⟩
    obtain ⟨e, he⟩ := hread
    rw [context, exec_onErr, he]
    exact ⟨fun _ => rfl, _, rfl⟩
  · have hn := Disk.content_eq_some.1 hc
    rw [exec_context_ok (exec_readFile (hd.find_ofPlace (by simp [hn])) hn)]
    exact ⟨fun _ => rfl, last, rfl, hlast⟩

/-- The handle of a file to reuse is at its place. -/
theorem exec_reuse (hd : d.Wf) {place : Place} {c : Bytes} (hc : d.content place = some c)
    (hlast : HandleOk last) :
    ∃ d', exec (Sources.reuse last (ofPlace place)) d = (.ok place, d') ∧ SameNodes d d' := by
  have hn := Disk.content_eq_some.1 hc
  have hopen : exec (context "打开复用源文件失败" (openFile (ofPlace place) : FsIo Place)) d
      = (.ok place, d.note place .open) :=
    exec_context_ok (exec_openFile (hd.find_ofPlace (by simp [hn])) (by simp [hn]))
  unfold Sources.reuse
  rcases last with _ | ⟨path, file⟩
  · exact ⟨_, hopen, fun _ => rfl⟩
  · dsimp only
    split_ifs with he
    · obtain rfl : file = place := ofPlace_injective ((hlast path file rfl).symm.trans he)
      exact ⟨d, rfl, fun _ => rfl⟩
    · exact ⟨_, hopen, fun _ => rfl⟩

theorem Sources.own_eq_some {hash : Hash} {file : Place} {loc : ℕ × UInt32} :
    src.own hash = some (file, loc) ↔ src.oldHandle = some file
      ∧ ∃ chunks, src.oldChunks = some chunks ∧ chunks.lookup hash = some loc := by
  simp only [Sources.own, Option.bind_eq_bind, Option.bind_eq_some_iff, Option.pure_def,
    Option.some.injEq, Prod.mk.injEq]
  constructor
  · rintro ⟨_, h₁, chunks, h₂, _, h₃, rfl, rfl⟩
    exact ⟨h₁, chunks, h₂, h₃⟩
  · rintro ⟨h₁, chunks, h₂, h₃⟩
    exact ⟨file, h₁, chunks, h₂, loc, h₃, rfl, rfl⟩

/-- One chunk is read where the sources have it. -/
theorem fetched_chunkData (hd : d.Wf) (hsrc : src.At g t)
    (hown : ∀ file, src.oldHandle = some file → (d.content file).isSome) (hlast : HandleOk last)
    (hash : Hash) :
    Fetched d (src.found d g t hash) (exec (src.chunkData last hash) d) := by
  unfold Sources.found Sources.chunkData
  rcases ho : src.own hash with _ | ⟨file, offset, len⟩
  · rcases hg : src.globalChunks.lookup hash with _ | ⟨rel, offset, len⟩
    · exact fetched_temp hd hsrc hash hlast
    · dsimp only
      rw [hsrc.gameDir, (hsrc.plain hash _ hg).join_eq, exec_bind, exec_isFile, hd.isFile_ofPlace]
      rcases hc : d.content (g ++ placeOf rel) with _ | c
      · exact fetched_temp hd hsrc hash hlast
      · obtain ⟨d', hreuse, hsame⟩ := exec_reuse hd hc hlast
        simp only [Option.isSome_some, if_true]
        rw [exec_bind, hreuse]
        have hc' : d'.content (g ++ placeOf rel) = some c := by rw [hsame.content, hc]
        have hkept : HandleOk (some (ofPlace (g ++ placeOf rel), g ++ placeOf rel)) := by
          rintro _ _ ⟨⟩
          rfl
        have hread := fetched_read hc' offset len hkept
        exact ⟨fun p => (hread.1 p).trans (hsame p), hread.2⟩
  · obtain ⟨c, hc⟩ := Option.isSome_iff_exists.1 (hown file (Sources.own_eq_some.1 ho).1)
    dsimp only
    rw [hc]
    exact fetched_read hc offset len hlast

section Loop

variable {out : Place} {written : Bytes}

theorem wf_fill (hd : d.Wf) {c : Bytes} (hn : d.node out = some (.file c)) (c' : Bytes) :
    (d.fill out c').Wf := by
  rcases List.eq_nil_or_concat out with rfl | ⟨up, name, rfl⟩
  · simp [hd.root] at hn
  · rw [List.concat_eq_append] at hn ⊢
    exact hd.of_update (n := name) (hd.parent up name (by simp [hn])) (by simp [hn]) fun q hq => by
      rw [Disk.node_fill, if_neg hq]

theorem exec_writeOwned (hn : d.node out = some (.file written)) (data : Bytes) :
    exec (context "写入临时文件失败" (writeOwned out data written.length)) d
      = (.ok (), d.fill out (written ++ data)) := by
  have hdata : pwrite written written.length data = written ++ data := by
    rw [pwrite_of_le le_rfl, List.take_length, List.drop_eq_nil_of_le (Nat.le_add_right _ _),
      List.append_nil]
  rw [writeOwned, exec_context_ok (exec_context_ok (exec_writeInto hn data written.length)), hdata]

/-- The new file is none of the sources. -/
structure Sources.Apart (src : Sources) (g t out : Place) : Prop where
  own : src.oldHandle ≠ some out
  reused : ∀ hash loc, src.globalChunks.lookup hash = some loc → g ++ placeOf loc.1 ≠ out
  blocks : ∀ hash, blockPlace t hash ≠ out

theorem Sources.Apart.found_congr (h : src.Apart g t out) {d' : Disk}
    (hsame : ∀ p, p ≠ out → d'.content p = d.content p) (hash : Hash) :
    src.found d' g t hash = src.found d g t hash := by
  unfold Sources.found
  rw [hsame _ (h.blocks hash)]
  rcases ho : src.own hash with _ | ⟨file, offset, len⟩
  · rcases hg : src.globalChunks.lookup hash with _ | ⟨rel, offset, len⟩
    · rfl
    · dsimp only
      rw [hsame _ (h.reused hash _ hg)]
  · dsimp only
    rw [hsame file fun he => h.own (he ▸ (Sources.own_eq_some.1 ho).1)]

/-- What the loop over the chunks comes to: it touches the new file only, which then holds what was
read, and if that file is none of the sources they give the bytes. -/
structure Assembled (src : Sources) (g t out : Place) (written : Bytes) (chunks : List ChunkMeta)
    (d : Disk) (r : Except (Stop AnyError) Bytes × Disk) : Prop where
  wf : r.2.Wf
  others : ∀ p, p ≠ out → r.2.node p = d.node p
  done : (∃ data, r.1 = .ok data ∧ r.2.node out = some (.file data))
    ∨ ∃ e, r.1 = .error (.err e)
  read : src.Apart g t out → match chunks.mapM fun c => src.found d g t c.hash with
    | some datas => r.1 = .ok (written ++ datas.flatten)
    | none => ∃ e, r.1 = .error (.err e)

theorem Assembled.congr {chunks : List ChunkMeta} {d' : Disk}
    {r : Except (Stop AnyError) Bytes × Disk} (h : Assembled src g t out written chunks d' r)
    (hsame : SameNodes d d') : Assembled src g t out written chunks d r := by
  refine ⟨h.wf, fun p hp => (h.others p hp).trans (hsame p), h.done, fun hapart => ?_⟩
  have hread := h.read hapart
  simpa only [hapart.found_congr fun p _ => hsame.content p] using hread

theorem assembled_writeChunks (hsrc : src.At g t) : ∀ (chunks : List ChunkMeta) {d : Disk}
    {last : Option (Path × Place)} {written : Bytes}, d.Wf →
    (∀ file, src.oldHandle = some file → (d.content file).isSome) → HandleOk last →
    d.node out = some (.file written) →
    Assembled src g t out written chunks d (exec (src.writeChunks out chunks last written) d)
  | [], d, _, written, hd, _, _, hn =>
    ⟨hd, fun _ _ => rfl, .inl ⟨written, rfl, hn⟩, fun _ => by simp [Sources.writeChunks]⟩
  | chunk :: chunks, d, last, written, hd, hown, hlast, hn => by
    have hfetch := fetched_chunkData hd hsrc hown hlast chunk.hash
    rw [Sources.writeChunks, exec_bind]
    rcases hr : exec (src.chunkData last chunk.hash) d with ⟨r, d₁⟩
    rw [hr] at hfetch
    obtain ⟨hsame, hfetch⟩ := hfetch
    have hd₁ : d₁.Wf := hd.congr hsame
    rcases hf : src.found d g t chunk.hash with _ | data <;> rw [hf] at hfetch
    · obtain ⟨e, rfl⟩ := hfetch
      refine ⟨hd₁, fun p _ => hsame p, .inr ⟨e, rfl⟩, fun _ => ?_⟩
      rw [List.mapM_cons, hf]
      exact ⟨e, rfl⟩
    · obtain ⟨last', rfl, hlast'⟩ := hfetch
      have hn₁ : d₁.node out = some (.file written) := (hsame out).trans hn
      dsimp only
      rw [exec_bind, exec_writeOwned hn₁]
      have hnode : (d₁.fill out (written ++ data)).node out = some (.file (written ++ data)) := by
        rw [Disk.node_fill, if_pos rfl]
      have hothers : ∀ p, p ≠ out → (d₁.fill out (written ++ data)).node p = d.node p :=
        fun p hp => by rw [Disk.node_fill, if_neg hp, hsame p]
      have hown' : ∀ file, src.oldHandle = some file →
          ((d₁.fill out (written ++ data)).content file).isSome := by
        intro file hfile
        by_cases he : file = out
        · simp [Disk.content, he, hnode]
        · rw [Disk.content_congr (hothers file he)]
          exact hown file hfile
      have ih := assembled_writeChunks hsrc chunks (wf_fill hd₁ hn₁ _) hown' hlast' hnode
      refine ⟨ih.wf, fun p hp => (ih.others p hp).trans (hothers p hp), ih.done, fun hapart => ?_⟩
      have hread := ih.read hapart
      simp only [hapart.found_congr fun p hp => Disk.content_congr (hothers p hp)] at hread
      rw [List.mapM_cons, hf]
      rcases hm : chunks.mapM fun c => src.found d g t c.hash with _ | datas <;>
        simp only [hm] at hread ⊢
      · exact hread
      · simpa using hread

end Loop

end Chunks

section NewFile

variable {blake3 : Bytes → Hash} {g t : Place} {d : Disk} {entry : FileEntry}

/-- The target of an entry. -/
def targetOf (g : Place) (entry : FileEntry) : Place := g ++ placeOf entry.name

/-- What `write_new_file` does once the new file is created. -/
def fillNew (blake3 : Bytes → Hash) (g t : Place) (entry : FileEntry)
    (oldChunks : Option (List (Hash × ℕ × UInt32))) (oldFile : Option Path)
    (globalChunks : ChunkLocation) : FsIo Unit := do
  let oldHandle ← openOld oldFile
  let src : Sources := ⟨ofPlace g, ofPlace t, oldHandle, oldChunks, globalChunks⟩
  let data ← src.writeChunks (newOf (targetOf g entry)) entry.chunks none []
  if blake3 data ≠ entry.fileHash then dropNew (ofPlace (newOf (targetOf g entry)))
  else replaceTarget (ofPlace (newOf (targetOf g entry))) (ofPlace (targetOf g entry))

/-- The disk once the new file is created. -/
structure Created (g : Place) (entry : FileEntry) (d d' : Disk) : Prop where
  wf : d'.Wf
  created : d'.node (newOf (targetOf g entry)) = some (.file [])
  others : ∀ p, p ≠ newOf (targetOf g entry) →
    d'.node p = if p <+: (targetOf g entry).dropLast then some .dir else d.node p

theorem targetOf_ne_nil (hplain : PlainName entry.name) : targetOf g entry ≠ [] := by
  simp [targetOf, hplain.ne_nil]

theorem not_prefix_dropLast {p q : Place} (hp : p ≠ []) (h : p.dropLast = q.dropLast) :
    ¬ p <+: q.dropLast := by
  intro hpre
  have hlen := hpre.length_le
  rw [← h, List.length_dropLast] at hlen
  have := List.length_pos_of_ne_nil hp
  omega

/-- The new file is created, unless its path is a directory. -/
theorem exec_writeNewFile_start (blake3 : Bytes → Hash) (t : Place)
    (oldChunks : Option (List (Hash × ℕ × UInt32))) (oldFile : Option Path)
    (globalChunks : ChunkLocation) (hplain : PlainName entry.name) (hd : d.Wf)
    (hway : ∀ r, r <+: (targetOf g entry).dropLast → d.content r = none) :
    (d.node (newOf (targetOf g entry)) = some .dir → ∃ e d',
      exec (writeNewFile blake3 (ofPlace g) (ofPlace t) entry oldChunks oldFile globalChunks) d
        = (.error (.err e), d'))
    ∧ (d.node (newOf (targetOf g entry)) ≠ some .dir → ∃ d', Created g entry d d' ∧
      exec (writeNewFile blake3 (ofPlace g) (ofPlace t) entry oldChunks oldFile globalChunks) d
        = exec (fillNew blake3 g t entry oldChunks oldFile globalChunks) d') := by
  have hne := targetOf_ne_nil (g := g) hplain
  have hnew : newPathOf (join (ofPlace g) entry.name) = ofPlace (newOf (targetOf g entry)) := by
    rw [hplain.join_eq, newPathOf_ofPlace]
    rfl
  have hnewNe : newOf (targetOf g entry) ≠ [] := by simp [newOf_eq hne]
  have hup : parent (ofPlace (newOf (targetOf g entry)))
      = some (ofPlace (targetOf g entry).dropLast) := by
    rw [parent, if_neg (by simpa [ofPlace] using hnewNe), ofPlace, ← List.map_dropLast,
      dropLast_newOf]
    rfl
  obtain ⟨d₁, hmk, hd₁, hnode₁⟩ := exec_createDirAll (ε := AnyError) hd hway
  have hsplit : newOf (targetOf g entry)
      = (targetOf g entry).dropLast ++ [(newOf (targetOf g entry)).getLast hnewNe] := by
    rw [← dropLast_newOf, List.dropLast_append_getLast]
  have hdir : d₁.node (targetOf g entry).dropLast = some .dir := by
    rw [hnode₁, if_pos (List.prefix_refl _)]
  have hfind : d₁.find (ofPlace (newOf (targetOf g entry))) = .ok (newOf (targetOf g entry)) := by
    rw [hsplit]
    exact hd₁.find_below hdir
  have hsame : d₁.node (newOf (targetOf g entry)) = d.node (newOf (targetOf g entry)) := by
    rw [hnode₁, if_neg (not_prefix_dropLast hnewNe (dropLast_newOf _))]
  unfold writeNewFile
  simp only [hnew, hup]
  rw [exec_bind, exec_context_ok hmk]
  dsimp only
  rw [exec_bind]
  constructor
  · intro hn
    have hfail : exec (context "创建临时文件失败" (createWriter (ofPlace (newOf (targetOf g entry))))) d₁
        = (.error (.err (.context "创建临时文件失败"
          (.context ("创建目标文件失败: " ++ displayPath (ofPlace (newOf (targetOf g entry))))
            (OsError.ofErrno .isDirectory)))), d₁) := by
      rw [createWriter, context, context, exec_onErr, exec_onErr,
        exec_createFile_dir hfind (hsame.trans hn)]
    rw [hfail]
    exact ⟨_, _, rfl⟩
  · intro hn
    have hput : exec (context "创建临时文件失败" (createWriter (ofPlace (newOf (targetOf g entry))))) d₁
        = (.ok (newOf (targetOf g entry)),
          d₁.put (newOf (targetOf g entry)) (.file []) .create) :=
      exec_context_ok (exec_context_ok (exec_createFile hfind (by rw [hsame]; exact hn)))
    refine ⟨d₁.put (newOf (targetOf g entry)) (.file []) .create, ⟨?_, ?_, fun p hp => ?_⟩, ?_⟩
    · rw [hsplit] at hsame hn ⊢
      exact hd₁.of_update hdir (by rw [hsame]; exact hn) fun p hp => by
        rw [Disk.node_put, if_neg hp]
    · rw [Disk.node_put, if_pos rfl]
    · rw [Disk.node_put, if_neg hp, hnode₁]
    · rw [hput]
      have htarget : join (ofPlace g) entry.name = ofPlace (targetOf g entry) := hplain.join_eq
      rw [htarget]
      rfl

section Replace

variable {up : Place} {a b : Name} {data : Bytes}

theorem exec_syncThenClose {α : Type} (p : FsIo α) : exec (do
    context "同步临时文件失败" syncWriter
    context "关闭临时文件失败" closeWriter
    p) d = exec p d := rfl

/-- The new file takes the place of the target, whatever file is there. -/
theorem exec_replaceTarget (hd : d.Wf) (hup : d.node up = some .dir) (hne : a ≠ b)
    (hnew : d.node (up ++ [a]) = some (.file data)) (htarget : d.node (up ++ [b]) ≠ some .dir) :
    ∃ d', exec (replaceTarget (ofPlace (up ++ [a])) (ofPlace (up ++ [b]))) d = (.ok (), d') ∧ d'.Wf
      ∧ ∀ p, d'.node p = if p = up ++ [b] then some (.file data)
        else if p = up ++ [a] then none else d.node p := by
  have hplaces : up ++ [a] ≠ up ++ [b] := by simpa using hne
  -- the disk once the old target is gone
  obtain ⟨d₁, hrm, hd₁, hnode⟩ : ∃ d₁, exec (removeOld (ofPlace (up ++ [b]))) d = (.ok (), d₁)
      ∧ d₁.Wf ∧ ∀ p, d₁.node p = if p = up ++ [b] then none else d.node p := by
    unfold removeOld
    rw [exec_bind, exec_pathExists, hd.pathExists_ofPlace]
    rcases hn : d.node (up ++ [b]) with _ | c | _
    · refine ⟨d, rfl, hd, fun p => ?_⟩
      split_ifs with hp
      · rw [hp, hn]
      · rfl
    · refine ⟨d.del (up ++ [b]), ?_, ?_, fun p => Disk.node_del ..⟩
      · exact exec_context_ok (exec_removeFile (hd.find_below hup) hn)
      · exact hd.of_update (n := b) hup htarget fun p hp => by rw [Disk.node_del, if_neg hp]
    · exact absurd hn htarget
  have hup₁ : d₁.node up = some .dir := by rw [hnode, if_neg (by simp), hup]
  have hnew₁ : d₁.node (up ++ [a]) = some (.file data) := by rw [hnode, if_neg hplaces, hnew]
  have htarget₁ : d₁.node (up ++ [b]) = none := by rw [hnode, if_pos rfl]
  refine ⟨d₁.move (up ++ [a]) (up ++ [b]) data, ?_, ?_, fun p => ?_⟩
  · rw [replaceTarget, exec_syncThenClose, exec_bind, hrm]
    exact exec_context_ok (exec_renameFile (hd₁.find_below hup₁) hnew₁ (hd₁.find_below hup₁)
      (by simp [htarget₁]))
  · -- two entries of one directory change
    have hmid : (d₁.del (up ++ [a])).Wf := hd₁.of_update (n := a) hup₁ (by simp [hnew₁])
      fun p hp => by rw [Disk.node_del, if_neg hp]
    refine hmid.of_update (p := up) (n := b) ?_ ?_ fun p hp => ?_
    · rw [Disk.node_del, if_neg (by simp), hup₁]
    · rw [Disk.node_del, if_neg hplaces.symm, htarget₁]
      simp
    · rw [Disk.node_move, if_neg hp, Disk.node_del]
  · rw [Disk.node_move, hnode]
    split_ifs <;> rfl

/-- A directory in the target's place stays there. -/
theorem exec_replaceTarget_dir (hd : d.Wf) (hup : d.node up = some .dir)
    (htarget : d.node (up ++ [b]) = some .dir) (newPath : Path) :
    ∃ e d', exec (replaceTarget newPath (ofPlace (up ++ [b]))) d = (.error (.err e), d') := by
  have hrm : exec (removeOld (ofPlace (up ++ [b]))) d = (.error (.err (.context "删除旧文件失败"
      (OsError.ofErrno .isDirectory))), d) := by
    have hremove : exec (removeFile (ofPlace (up ++ [b])) : FsIo Unit) d
        = (.error (.err (OsError.ofErrno .isDirectory)), d) := by
      rw [removeFile, exec_sysAt (hd.find_below hup)]
      simp only [htarget]
    unfold removeOld
    rw [exec_bind, exec_pathExists, hd.pathExists_ofPlace, htarget]
    simp only [Option.isSome_some, if_true]
    rw [context, exec_onErr, hremove]
  rw [replaceTarget, exec_syncThenClose, exec_bind, hrm]
  exact ⟨_, _, rfl⟩

/-- A file whose temporary path is its own is removed as the old one. -/
theorem exec_replaceTarget_self (hd : d.Wf) (hup : d.node up = some .dir)
    (hnew : d.node (up ++ [a]) = some (.file data)) :
    ∃ e d', exec (replaceTarget (ofPlace (up ++ [a])) (ofPlace (up ++ [a]))) d
      = (.error (.err e), d') := by
  have hrm : exec (removeOld (ofPlace (up ++ [a]))) d = (.ok (), d.del (up ++ [a])) := by
    unfold removeOld
    rw [exec_bind, exec_pathExists, hd.pathExists_ofPlace, hnew]
    exact exec_context_ok (exec_removeFile (hd.find_below hup) hnew)
  have hd₁ : (d.del (up ++ [a])).Wf := hd.of_update (n := a) hup (by simp [hnew]) fun p hp => by
    rw [Disk.node_del, if_neg hp]
  have hup₁ : (d.del (up ++ [a])).node up
      = some .dir := by rw [Disk.node_del, if_neg (by simp), hup]
  have hgone : (d.del (up ++ [a])).node (up ++ [a]) = none := by rw [Disk.node_del, if_pos rfl]
  rw [replaceTarget, exec_syncThenClose, exec_bind, hrm]
  dsimp only
  rw [context, exec_onErr, exec_renameFile_none (hd₁.find_below hup₁) hgone]
  exact ⟨_, _, rfl⟩

end Replace

section Fill

variable {old : List FileEntry}

/-- The sources of an entry on a disk. -/
def sourcesOf (d : Disk) (g t : Place) (old : List FileEntry) (entry : FileEntry) : Sources where
  gameDir := ofPlace g
  tempDir := ofPlace t
  oldHandle := (getFile old entry.name).bind fun _ =>
    if (d.content (targetOf g entry)).isSome then some (targetOf g entry) else none
  oldChunks := (getFile old entry.name).map fun f => chunkOffsets 0 f.chunks
  globalChunks := chunkLocations old

/-- What an entry is put together from, if all of it is found. -/
def assembled (d : Disk) (g t : Place) (old : List FileEntry) (entry : FileEntry) : Option Bytes :=
  (entry.chunks.mapM fun c => (sourcesOf d g t old entry).found d g t c.hash).map List.flatten

/-- The disk once an entry is in its place. -/
structure Replaced (g : Place) (entry : FileEntry) (data : Bytes) (d d' : Disk) : Prop where
  wf : d'.Wf
  target : d'.node (targetOf g entry) = some (.file data)
  temporary : d'.node (newOf (targetOf g entry)) = none
  others : ∀ p, p ≠ targetOf g entry → p ≠ newOf (targetOf g entry) →
    d'.node p = if p <+: (targetOf g entry).dropLast then some .dir else d.node p

theorem exec_openOld (hd : d.Wf) (place : Place) : ∃ d', SameNodes d d'
    ∧ exec (openOld (some (ofPlace place))) d
      = (.ok (if (d.content place).isSome then some place else none), d') := by
  rw [openOld, exec_bind, exec_isFile, hd.isFile_ofPlace]
  rcases hc : d.content place with _ | c
  · exact ⟨d, fun _ => rfl, rfl⟩
  · have hn := Disk.content_eq_some.1 hc
    have hopen : exec (context "打开旧文件失败" (openFile (ofPlace place) : FsIo Place)) d
        = (.ok place, d.note place .open) :=
      exec_context_ok (exec_openFile (hd.find_ofPlace (by simp [hn])) (by simp [hn]))
    refine ⟨d.note place .open, fun _ => rfl, ?_⟩
    simp only [Option.isSome_some, if_true]
    rw [exec_bind, hopen]
    rfl

theorem exec_removeFile_cases (path : Path) (d : Disk) :
    (∃ d', exec (removeFile path : FsIo Unit) d = (.ok (), d'))
      ∨ ∃ e, exec (removeFile path : FsIo Unit) d = (.error (.err e), d) := by
  rcases exec_sysAt_cases (ε := AnyError) _ with ⟨_, d', hr⟩ | ⟨e, hr⟩
  · exact .inl ⟨d', hr⟩
  · exact .inr ⟨e, hr⟩

theorem exec_dropNew (newPath : Path) :
    ∃ d', exec (dropNew newPath) d = (.error (.err (.msg "文件哈希校验失败")), d') := by
  have hclose : exec (attempt closeWriter) d = (.ok (.ok ()), d) := rfl
  rw [dropNew, exec_bind, hclose]
  dsimp only
  rw [exec_bind, exec_attempt]
  rcases exec_removeFile_cases newPath d with ⟨d', hr⟩ | ⟨e, hr⟩ <;> rw [hr]
  · exact ⟨d', rfl⟩
  · exact ⟨d, rfl⟩

variable {d₁ : Disk}

theorem Created.content (h : Created g entry d d₁)
    (hway : ∀ r, r <+: (targetOf g entry).dropLast → d.content r = none) {p : Place}
    (hp : p ≠ newOf (targetOf g entry)) : d₁.content p = d.content p := by
  by_cases hpre : p <+: (targetOf g entry).dropLast
  · rw [hway p hpre, Disk.content, h.others p hp, if_pos hpre]
  · exact Disk.content_congr (by rw [h.others p hp, if_neg hpre])

/-- What follows the creation of the new file, by what the loop over the chunks comes to. -/
theorem exec_fillNew (blake3 : Bytes → Hash) (t : Place) (hold : ∀ f ∈ old, PlainName f.name)
    (h : Created g entry d d₁) :
    ∃ r, Assembled (sourcesOf d₁ g t old entry) g t (newOf (targetOf g entry)) [] entry.chunks d₁ r
      ∧ exec (fillNew blake3 g t entry
          ((getFile old entry.name).map fun f => chunkOffsets 0 f.chunks)
          ((getFile old entry.name).map fun _ => ofPlace (targetOf g entry))
          (chunkLocations old)) d₁
        = match r with
          | (.ok data, d₂) => exec (if blake3 data ≠ entry.fileHash then
              dropNew (ofPlace (newOf (targetOf g entry)))
            else replaceTarget (ofPlace (newOf (targetOf g entry))) (ofPlace (targetOf g entry))) d₂
          | (.error e, d₂) => (.error e, d₂) := by
  have hat : (sourcesOf d₁ g t old entry).At g t := ⟨rfl, rfl, fun hash loc hloc => by
    obtain ⟨f, hf, hname⟩ := mem_chunkLocations hloc
    exact hname ▸ hold f hf⟩
  -- the handle of the old file
  obtain ⟨d₂, hsame, hopen⟩ : ∃ d₂, SameNodes d₁ d₂
      ∧ exec (openOld ((getFile old entry.name).map fun _ => ofPlace (targetOf g entry))) d₁
        = (.ok (sourcesOf d₁ g t old entry).oldHandle, d₂) := by
    rcases hprev : getFile old entry.name with _ | prev
    · exact ⟨d₁, fun _ => rfl, by simp [openOld, sourcesOf, hprev]⟩
    · obtain ⟨d₂, hsame, hopen⟩ := exec_openOld h.wf (targetOf g entry)
      exact ⟨d₂, hsame, by simpa [sourcesOf, hprev] using hopen⟩
  have hown : ∀ file, (sourcesOf d₁ g t old entry).oldHandle = some file →
      (d₂.content file).isSome := fun file hfile => by
    rw [hsame.content]
    simp only [sourcesOf, Option.bind_eq_some_iff] at hfile
    obtain ⟨-, -, hfile⟩ := hfile
    split_ifs at hfile with hsome
    exact Option.some.inj hfile ▸ hsome
  have hnone : HandleOk none := by rintro _ _ ⟨⟩
  have hloop := assembled_writeChunks hat entry.chunks (h.wf.congr hsame) hown hnone
    ((hsame _).trans h.created)
  refine ⟨_, hloop.congr hsame, ?_⟩
  rw [fillNew, exec_bind, hopen]
  dsimp only
  rw [exec_bind]
  have hsrc : (⟨ofPlace g, ofPlace t, (sourcesOf d₁ g t old entry).oldHandle,
      (getFile old entry.name).map fun f => chunkOffsets 0 f.chunks, chunkLocations old⟩ : Sources)
      = sourcesOf d₁ g t old entry := rfl
  rw [hsrc]
  rcases exec ((sourcesOf d₁ g t old entry).writeChunks _ entry.chunks none []) d₂
    with ⟨e | data, d₃⟩
  · rfl
  · rfl

/-- `write_new_file` as the merge calls it. -/
def writeEntry (blake3 : Bytes → Hash) (g t : Place) (old : List FileEntry) (entry : FileEntry) :
    FsIo Unit :=
  writeNewFile blake3 (ofPlace g) (ofPlace t) entry
    ((getFile old entry.name).map fun f => chunkOffsets 0 f.chunks)
    ((getFile old entry.name).map fun _ => ofPlace (targetOf g entry)) (chunkLocations old)

/-- Target and new file lie in one directory. -/
theorem targetOf_split (hplain : PlainName entry.name) (g : Place) : ∃ a b,
    newOf (targetOf g entry) = (targetOf g entry).dropLast ++ [a]
      ∧ targetOf g entry = (targetOf g entry).dropLast ++ [b] := by
  have hne := targetOf_ne_nil (g := g) hplain
  exact ⟨_, _, newOf_eq hne, (List.dropLast_append_getLast hne).symm⟩

theorem Created.up (hplain : PlainName entry.name) (h : Created g entry d d₁) :
    d₁.node (targetOf g entry).dropLast = some .dir := by
  rw [h.others, if_pos (List.prefix_refl _)]
  obtain ⟨a, b, hnew, -⟩ := targetOf_split hplain g
  rw [hnew]
  simp

/-- An entry that cannot be put in place: its temporary path is its own or a directory, or its
target is a directory. -/
theorem exec_writeEntry_bad (hplain : PlainName entry.name) (hold : ∀ f ∈ old, PlainName f.name)
    (hd : d.Wf) (hway : ∀ r, r <+: (targetOf g entry).dropLast → d.content r = none)
    (hbad : newOf (targetOf g entry) = targetOf g entry
      ∨ d.node (newOf (targetOf g entry)) = some .dir ∨ d.node (targetOf g entry) = some .dir) :
    ∃ e d', exec (writeEntry blake3 g t old entry) d = (.error (.err e), d') := by
  obtain ⟨hdir, hfile⟩ := exec_writeNewFile_start blake3 t
    ((getFile old entry.name).map fun f => chunkOffsets 0 f.chunks)
    ((getFile old entry.name).map fun _ => ofPlace (targetOf g entry)) (chunkLocations old)
    hplain hd hway
  by_cases hn : d.node (newOf (targetOf g entry)) = some .dir
  · exact hdir hn
  obtain ⟨d₁, hcreated, hexec⟩ := hfile hn
  rw [writeEntry, hexec]
  obtain ⟨⟨r, d₂⟩, hloop, hfill⟩ := exec_fillNew blake3 t hold hcreated
  rw [hfill]
  rcases hloop.done with ⟨data, hr, hnode⟩ | ⟨e, hr⟩
  swap
  · obtain rfl : r = .error (.err e) := hr
    exact ⟨e, d₂, rfl⟩
  obtain rfl : r = .ok data := hr
  dsimp only at hnode ⊢
  split_ifs
  · obtain ⟨d', hdrop⟩ := exec_dropNew (d := d₂) (ofPlace (newOf (targetOf g entry)))
    exact ⟨_, d', hdrop⟩
  obtain ⟨a, b, hnew, htarget⟩ := targetOf_split hplain g
  have hup : d₂.node (targetOf g entry).dropLast = some .dir := by
    rw [hloop.others _ (by rw [hnew]; simp), hcreated.up hplain]
  by_cases hself : newOf (targetOf g entry) = targetOf g entry
  · rw [hself] at hnode ⊢
    rw [htarget] at hnode ⊢
    exact exec_replaceTarget_self hloop.wf hup hnode
  · have htdir : d.node (targetOf g entry) = some .dir :=
      (hbad.resolve_left hself).resolve_left hn
    have hdir₂ : d₂.node (targetOf g entry) = some .dir := by
      rw [hloop.others _ (Ne.symm hself), hcreated.others _ (Ne.symm hself), if_neg, htdir]
      exact not_prefix_dropLast (targetOf_ne_nil hplain) rfl
    rw [htarget] at hdir₂
    nth_rewrite 2 [htarget]
    exact exec_replaceTarget_dir hloop.wf hup hdir₂ _

/-- An entry that can be put in place is, if what is found of it has its hash. -/
theorem exec_writeEntry (hplain : PlainName entry.name) (hold : ∀ f ∈ old, PlainName f.name)
    (hd : d.Wf) (hway : ∀ r, r <+: (targetOf g entry).dropLast → d.content r = none)
    (hself : newOf (targetOf g entry) ≠ targetOf g entry)
    (hnew : d.node (newOf (targetOf g entry)) ≠ some .dir)
    (htarget : d.node (targetOf g entry) ≠ some .dir)
    (hapart : ∀ f ∈ old, targetOf g f ≠ newOf (targetOf g entry))
    (hblocks : ∀ hash, blockPlace t hash ≠ newOf (targetOf g entry)) :
    (∃ data d', assembled d g t old entry = some data ∧ blake3 data = entry.fileHash
        ∧ exec (writeEntry blake3 g t old entry) d = (.ok (), d') ∧ Replaced g entry data d d')
      ∨ (∀ data, assembled d g t old entry = some data → blake3 data ≠ entry.fileHash)
        ∧ ∃ e d', exec (writeEntry blake3 g t old entry) d = (.error (.err e), d') := by
  obtain ⟨d₁, hcreated, hexec⟩ := (exec_writeNewFile_start blake3 t
    ((getFile old entry.name).map fun f => chunkOffsets 0 f.chunks)
    ((getFile old entry.name).map fun _ => ofPlace (targetOf g entry)) (chunkLocations old)
    hplain hd hway).2 hnew
  have hsources : sourcesOf d₁ g t old entry = sourcesOf d g t old entry := by
    simp only [sourcesOf, hcreated.content hway (Ne.symm hself)]
  have hap : (sourcesOf d g t old entry).Apart g t (newOf (targetOf g entry)) := by
    refine ⟨fun ho => ?_, fun hash loc hloc => ?_, hblocks⟩
    · simp only [sourcesOf, Option.bind_eq_some_iff] at ho
      obtain ⟨-, -, ho⟩ := ho
      split_ifs at ho
      exact hself (Option.some.inj ho).symm
    · obtain ⟨f, hf, hname⟩ := mem_chunkLocations hloc
      exact hname ▸ hapart f hf
  obtain ⟨⟨r, d₂⟩, hloop, hfill⟩ := exec_fillNew blake3 t hold hcreated
  rw [writeEntry, hexec, hfill]
  rw [hsources] at hloop
  have hread := hloop.read hap
  simp only [hap.found_congr fun p hp => hcreated.content hway hp] at hread
  rcases hm : entry.chunks.mapM fun c => (sourcesOf d g t old entry).found d g t c.hash with
    _ | datas <;> rw [hm] at hread
  · obtain ⟨e, rfl⟩ := hread
    exact .inr ⟨by simp [assembled, hm], e, d₂, rfl⟩
  have hdata : assembled d g t old entry = some datas.flatten := by
    rw [assembled, hm]
    rfl
  obtain rfl : r = .ok datas.flatten := by simpa using hread
  dsimp only
  split_ifs with hhash
  · obtain ⟨d', hdrop⟩ := exec_dropNew (d := d₂) (ofPlace (newOf (targetOf g entry)))
    exact .inr ⟨by simpa [hdata] using hhash, _, d', hdrop⟩
  have hnode : d₂.node (newOf (targetOf g entry)) = some (.file datas.flatten) := by
    rcases hloop.done with ⟨data, hr, hnode⟩ | ⟨e, hr⟩
    · rw [hnode, Except.ok.inj hr]
    · cases hr
  obtain ⟨a, b, hnewEq, htargetEq⟩ := targetOf_split hplain g
  have hup : d₂.node (targetOf g entry).dropLast = some .dir := by
    rw [hloop.others _ (by rw [hnewEq]; simp), hcreated.up hplain]
  have htdir : d₂.node (targetOf g entry) ≠ some .dir := by
    rw [hloop.others _ (Ne.symm hself), hcreated.others _ (Ne.symm hself), if_neg]
    · exact htarget
    · exact not_prefix_dropLast (targetOf_ne_nil hplain) rfl
  have hab : a ≠ b := by
    rintro rfl
    exact hself (hnewEq.trans htargetEq.symm)
  have hnode' := hnode
  rw [hnewEq] at hnode'
  rw [htargetEq] at htdir
  obtain ⟨d', hrep, hd', hall⟩ := exec_replaceTarget hloop.wf hup hab hnode' htdir
  rw [← hnewEq, ← htargetEq] at hrep hall
  refine .inl ⟨_, d', hdata, not_not.1 hhash, hrep, hd', ?_, ?_, fun p hp hp' => ?_⟩
  · rw [hall, if_pos rfl]
  · rw [hall, if_neg hself, if_pos rfl]
  · rw [hall, if_neg hp, if_neg hp', hloop.others p hp', hcreated.others p hp']

end Fill

end NewFile

end BlazeNet

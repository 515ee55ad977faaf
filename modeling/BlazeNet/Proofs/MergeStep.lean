import BlazeNet.Proofs.MergeExec

/-!
# One step of a merge

The entries done so far have their new content and all others their old one (`Progress`). An entry
in its turn is put together from what is there: it becomes its new content just when everything it
reuses of another file is still where the old version had it, or has the same bytes there.
-/

namespace BlazeNet

open Wire FaultIo Io RustStd UnixFs

variable {bytes : Hash → Bytes} {blake3 : Bytes → Hash}

section Offsets

theorem rangeOf_append {pre data rest : Bytes} {len : UInt32} (h : data.length = len.toNat) :
    rangeOf (pre ++ (data ++ rest)) pre.length len = some data := by
  rw [rangeOf, if_pos (by simp [h])]
  simp [pread, ← h]

/-- Where a version has a chunk, its file has the bytes. -/
theorem rangeOf_chunkOffsets : ∀ (chunks : List ChunkMeta) (pre : Bytes),
    (∀ c ∈ chunks, (bytes c.hash).length = c.len.toNat) → ∀ e ∈ chunkOffsets pre.length chunks,
      rangeOf (pre ++ chunks.flatMap fun c => bytes c.hash) e.2.1 e.2.2 = some (bytes e.1)
        ∧ (bytes e.1).length = e.2.2.toNat
  | [], _, _, e, he => by simp [chunkOffsets] at he
  | c :: chunks, pre, hlen, e, he => by
    have hc := hlen c List.mem_cons_self
    rcases List.mem_cons.1 he with rfl | he
    · exact ⟨rangeOf_append hc, hc⟩
    · have ih := rangeOf_chunkOffsets chunks (pre ++ bytes c.hash)
        (fun c' hc' => hlen c' (List.mem_cons_of_mem _ hc')) e (by simpa [hc] using he)
      simpa using ih

theorem map_chunkOffsets : ∀ (chunks : List ChunkMeta) (offset : ℕ),
    (chunkOffsets offset chunks).map (·.1) = chunks.map (·.hash)
  | [], _ => rfl
  | c :: chunks, offset => by
    rw [chunkOffsets, List.map_cons, map_chunkOffsets chunks, List.map_cons]

theorem rangeOf_contentOf {f : FileEntry}
    (hlen : ∀ c ∈ f.chunks, (bytes c.hash).length = c.len.toNat)
    {e : Hash × ℕ × UInt32} (he : e ∈ chunkOffsets 0 f.chunks) :
    rangeOf (contentOf bytes f) e.2.1 e.2.2 = some (bytes e.1)
      ∧ (bytes e.1).length = e.2.2.toNat := rangeOf_chunkOffsets f.chunks [] hlen e he

theorem length_rangeOf {content data : Bytes} {offset : ℕ} {len : UInt32}
    (h : rangeOf content offset len = some data) : data.length = len.toNat := by
  unfold rangeOf at h
  split_ifs at h with hle
  rw [← Option.some.inj h, length_pread]
  omega

theorem rangeOf_eq_some {content data : Bytes} {offset : ℕ} {len : UInt32}
    (hdata : data.length = len.toNat) :
    rangeOf content offset len = some data ↔ pread content offset len.toNat = data := by
  unfold rangeOf
  constructor
  · intro h
    split_ifs at h
    exact Option.some.inj h
  · intro h
    have hlen := congrArg List.length h
    rw [length_pread, hdata] at hlen
    rw [if_pos (by omega), h]

theorem mem_of_lookup {α β : Type} [BEq α] [LawfulBEq α] {l : List (α × β)} {a : α} {b : β}
    (h : l.lookup a = some b) : (a, b) ∈ l := by
  obtain ⟨l₁, l₂, rfl, -⟩ := List.lookup_eq_some_iff.1 h
  simp

/-- The first place of a chunk in a version. -/
theorem mem_of_chunkLocations {files : List FileEntry} {hash : Hash} {rel : String} {offset : ℕ}
    {len : UInt32} (h : (chunkLocations files).lookup hash = some (rel, offset, len)) :
    ∃ f ∈ files, f.name = rel ∧ (hash, offset, len) ∈ chunkOffsets 0 f.chunks := by
  have hmem := mem_of_lookup h
  simp only [chunkLocations, List.mem_flatMap, List.mem_map, Prod.mk.injEq] at hmem
  obtain ⟨f, hf, e, he, rfl, rfl, hloc⟩ := hmem
  refine ⟨f, hf, rfl, ?_⟩
  rwa [← hloc]

theorem lookup_chunkLocations_eq_none {files : List FileEntry} {hash : Hash} :
    (chunkLocations files).lookup hash = none
      ↔ hash ∉ files.flatMap fun f => f.chunks.map (·.hash) := by
  have hkeys : (chunkLocations files).map (·.1) = files.flatMap fun f => f.chunks.map (·.hash) := by
    simp only [chunkLocations, List.map_flatMap, List.map_map]
    refine List.flatMap_congr fun f _ => ?_
    rw [← map_chunkOffsets f.chunks 0]
    rfl
  rw [← hkeys, List.lookup_eq_none_iff, List.mem_map, not_exists]
  refine forall_congr' fun e => ?_
  rw [not_and, bne_iff_ne]
  exact imp_congr_right fun _ => ne_comm

end Offsets

section Lists

variable {α : Type} {found : α → Option Bytes} {f : α → Bytes}

theorem mapM_eq_map : ∀ l : List α, (∀ a ∈ l, found a = some (f a)) → l.mapM found = some (l.map f)
  | [], _ => rfl
  | a :: l, h => by
    rw [List.mapM_cons, h a List.mem_cons_self,
      mapM_eq_map l fun b hb => h b (List.mem_cons_of_mem _ hb)]
    rfl

/-- Pieces of the right lengths that make up the right whole are the right ones. -/
theorem eq_of_flatten_eq : ∀ (l : List α) {datas : List Bytes}, l.mapM found = some datas →
    datas.flatten = (l.map f).flatten →
    (∀ a ∈ l, ∀ data, found a = some data → data.length = (f a).length) →
    ∀ a ∈ l, found a = some (f a)
  | [], _, _, _, _, a, ha => by simp at ha
  | b :: l, datas, hm, hflat, hlen, a, ha => by
    rw [List.mapM_cons] at hm
    rcases hb : found b with _ | data <;> rw [hb] at hm
    · cases hm
    rcases hl : l.mapM found with _ | rest <;> simp only [hl] at hm
    · cases hm
    obtain rfl : data :: rest = datas := Option.some.inj hm
    rw [List.map_cons, List.flatten_cons, List.flatten_cons] at hflat
    obtain ⟨hdata, hrest⟩ := List.append_inj hflat (hlen b List.mem_cons_self data hb)
    rcases List.mem_cons.1 ha with rfl | ha
    · rw [hb, hdata]
    · exact eq_of_flatten_eq l hl hrest (fun a ha => hlen a (List.mem_cons_of_mem _ ha)) a ha

end Lists

section Names

variable {old new : List FileEntry} {e f : FileEntry}

/-- An entry is known by its place. -/
theorem find?_place {files : List FileEntry}
    (hinj : ∀ f ∈ files, ∀ f' ∈ files, placeOf f.name = placeOf f'.name → f = f') {q : Place} :
    (files.find? fun f => placeOf f.name = q) = some f ↔ f ∈ files ∧ placeOf f.name = q := by
  constructor
  · intro h
    exact ⟨List.mem_of_find?_eq_some h, by simpa using List.find?_some h⟩
  · rintro ⟨hf, rfl⟩
    rcases hfind : files.find? fun f' => placeOf f'.name = placeOf f.name with _ | f'
    · have := List.find?_eq_none.1 hfind f hf
      simp at this
    · have hplace : placeOf f'.name = placeOf f.name := by simpa using List.find?_some hfind
      exact hfind.trans (congrArg some (hinj f' (List.mem_of_find?_eq_some hfind) f hf hplace))

namespace GoodNames

variable (h : GoodNames old new)
include h

theorem plain (hf : f ∈ old ++ new) : PlainName f.name := (h.normal f hf).plain

theorem name_eq (hf : f ∈ old ++ new) (he : e ∈ old ++ new)
    (hplace : placeOf f.name = placeOf e.name) : f.name = e.name :=
  h.prefixFree f hf e he (hplace ▸ List.prefix_refl _)

theorem old_inj : ∀ f ∈ old, ∀ f' ∈ old, placeOf f.name = placeOf f'.name → f = f' :=
  fun _ hf _ hf' hplace => List.inj_on_of_nodup_map h.nodupOld hf hf'
    (h.name_eq (List.mem_append_left _ hf) (List.mem_append_left _ hf') hplace)

theorem new_inj : ∀ f ∈ new, ∀ f' ∈ new, placeOf f.name = placeOf f'.name → f = f' :=
  fun _ hf _ hf' hplace => List.inj_on_of_nodup_map h.nodupNew hf hf'
    (h.name_eq (List.mem_append_right _ hf) (List.mem_append_right _ hf') hplace)

/-- The old entry of a name is the one at its place. -/
theorem find?_eq_getFile (he : e ∈ old ++ new) :
    (old.find? fun f => placeOf f.name = placeOf e.name) = getFile old e.name := by
  refine Option.ext fun f => ?_
  rw [find?_place h.old_inj, getFile_eq_some h.nodupOld]
  refine and_congr_right fun hf => ⟨fun hp => ?_, fun hn => by rw [hn]⟩
  exact h.name_eq (List.mem_append_left _ hf) he hp

end GoodNames

end Names

section Progress

variable {g t : Place} {new : GameIndex} {old : Option GameIndex} {temp : HashSet Hash}
  {d₀ d : Disk} {done rest : List FileEntry} {entry : FileEntry}

/-- The entry whose content a place has, once `done` are merged. -/
def currentAt (old done : List FileEntry) (q : Place) : Option FileEntry :=
  (done.find? fun f => placeOf f.name = q).or (old.find? fun f => placeOf f.name = q)

/-- The disk once the entries `done` are merged. -/
structure Progress (bytes : Hash → Bytes) (d₀ : Disk) (g t : Place) (old done : List FileEntry)
    (hashes : List Hash) (d : Disk) : Prop where
  wf : d.Wf
  dir : d.node g = some .dir
  files : ∀ q, d.content (g ++ q) = (currentAt old done q).map (contentOf bytes)
  blocks : ∀ h ∈ hashes, d.content (blockPlace t h) = some (bytes h)
  oldDirs : ∀ p, d₀.node p = some .dir → d.node p = some .dir
  newDirs : ∀ q, d.node (g ++ q) = some .dir → d₀.node (g ++ q) = some .dir
    ∨ ∃ f ∈ done, NeedsMerge old f ∧ q <+: placeOf f.name
  kept : ∀ f ∈ done, ∀ prev, getFile old f.name = some prev → prev.fileHash = f.fileHash →
    contentOf bytes prev = contentOf bytes f

theorem Ready.progress (h : Ready blake3 bytes d₀ g t new old temp) :
    Progress bytes d₀ g t (filesOf old) [] (temp.elems
      ++ (UpdatePlan.compute new old temp).chunksToDownload) d₀ :=
  ⟨h.wf, h.installed.dir, h.installed.files, h.staged.blocks, fun _ h => h, fun _ h => .inl h,
    by simp⟩

theorem entry_mem {files : List FileEntry} (hsplit : files = done ++ entry :: rest) :
    entry ∈ files := by simp [hsplit]

theorem done_mem {files : List FileEntry} (hsplit : files = done ++ entry :: rest) {f : FileEntry}
    (hf : f ∈ done) : f ∈ files := by simp [hsplit, hf]

/-- A chunk that is not in the old file itself. -/
theorem own_eq_none {old : List FileEntry} {c : ChunkMeta}
    (hc : ∀ prev, getFile old entry.name = some prev → c.hash ∉ prev.chunks.map (·.hash)) :
    (sourcesOf d g t old entry).own c.hash = none := by
  rcases hown : (sourcesOf d g t old entry).own c.hash with _ | ⟨file, loc⟩
  · rfl
  obtain ⟨-, chunks, hchunks, hloc⟩ := Sources.own_eq_some.1 hown
  obtain ⟨prev, hprev, rfl⟩ := Option.map_eq_some_iff.1 hchunks
  refine absurd ?_ (hc prev hprev)
  rw [← map_chunkOffsets prev.chunks 0]
  exact List.mem_map.2 ⟨_, mem_of_lookup hloc, rfl⟩

/-- The blocks lie elsewhere. -/
theorem Ready.block_ne (h : Ready blake3 bytes d₀ g t new old temp) (hash : Hash) {q : Place}
    (hq : q ≠ []) : blockPlace t hash ≠ g ++ q := by
  intro he
  rcases List.eq_nil_or_concat q with rfl | ⟨up, name, rfl⟩
  · exact hq rfl
  rw [List.concat_eq_append, blockPlace, ← List.append_assoc] at he
  have := (List.append_inj' he rfl).1
  exact h.staged.outside ⟨up, this.symm⟩

theorem Ready.currentAt_new (h : Ready blake3 bytes d₀ g t new old temp) {f : FileEntry}
    (hf : f ∈ new.files) : currentAt (filesOf old) new.files (placeOf f.name) = some f := by
  rw [currentAt, (find?_place h.names.new_inj).2 ⟨hf, rfl⟩]
  rfl

theorem currentAt_concat {old : List FileEntry} {q : Place} (hq : q ≠ placeOf entry.name) :
    currentAt old (done ++ [entry]) q = currentAt old done q := by
  rw [currentAt, List.find?_append]
  have hnone : [entry].find? (fun f => placeOf f.name = q) = none := by
    simpa using fun he => hq he.symm
  rw [hnone, Option.or_none, currentAt]

section Step

variable (h : Ready blake3 bytes d₀ g t new old temp) (hsplit : new.files = done ++ entry :: rest)
  (hp : Progress bytes d₀ g t (filesOf old) done
    (temp.elems ++ (UpdatePlan.compute new old temp).chunksToDownload) d)

include h hsplit

theorem Ready.done_ne {f : FileEntry} (hf : f ∈ done) : f.name ≠ entry.name := by
  have hnodup := h.names.nodupNew
  rw [hsplit, List.map_append, List.map_cons] at hnodup
  have hdisj := (List.nodup_append.1 hnodup).2.2
  exact fun he => hdisj f.name (List.mem_map_of_mem hf) entry.name List.mem_cons_self he

theorem Ready.rest_ne {f : FileEntry} (hf : f ∈ rest) : f.name ≠ entry.name := by
  have hnodup := h.names.nodupNew
  rw [hsplit, List.map_append, List.map_cons] at hnodup
  have hhead := (List.nodup_cons.1 (List.nodup_append.1 hnodup).2.1).1
  exact fun he => hhead (he ▸ List.mem_map_of_mem hf)

theorem Ready.plain : PlainName entry.name :=
  h.names.plain (List.mem_append_right _ (entry_mem hsplit))

/-- An entry done is at its place. -/
theorem Ready.currentAt_done {f : FileEntry} (hf : f ∈ done) :
    currentAt (filesOf old) done (placeOf f.name) = some f := by
  have hfind : (done.find? fun f' => placeOf f'.name = placeOf f.name) = some f :=
    (find?_place fun a ha b hb => h.names.new_inj a (done_mem hsplit ha) b (done_mem hsplit hb)).2
      ⟨hf, rfl⟩
  rw [currentAt, hfind]
  rfl

/-- The entry in its turn has its old content. -/
theorem Ready.current : currentAt (filesOf old) done (placeOf entry.name)
    = getFile (filesOf old) entry.name := by
  have hnone : (done.find? fun f => placeOf f.name = placeOf entry.name) = none := by
    refine List.find?_eq_none.2 fun f hf => ?_
    simp only [decide_eq_true_eq]
    exact fun he => h.done_ne hsplit hf (h.names.name_eq
      (List.mem_append_right _ (done_mem hsplit hf))
      (List.mem_append_right _ (entry_mem hsplit)) he)
  rw [currentAt, hnone, Option.none_or, h.names.find?_eq_getFile
    (List.mem_append_right _ (entry_mem hsplit))]

include hp

theorem Progress.target : d.content (targetOf g entry)
    = (getFile (filesOf old) entry.name).map (contentOf bytes) := by
  rw [targetOf, hp.files, h.current hsplit]

/-- No file is on the way to the target. -/
theorem Progress.way (r : Place) (hr : r <+: (targetOf g entry).dropLast) : d.content r = none := by
  have hdir : ∀ {p : Place}, d.node p = some .dir → d.content p = none := fun hn => by
    rw [Disk.content, hn]
  rw [targetOf, List.dropLast_append_of_ne_nil (h.plain hsplit).ne_nil] at hr
  rcases List.prefix_or_prefix_of_prefix hr (List.prefix_append g _) with hg | ⟨q, rfl⟩
  · exact hdir (hp.wf.dir_of_prefix_dir hp.dir hg)
  have hq := (List.prefix_append_right_inj g).1 hr
  rw [hp.files]
  rcases hcur : currentAt (filesOf old) done q with _ | f
  · rfl
  -- a file there would be a directory prefix of the entry
  have hf : f ∈ filesOf old ++ new.files ∧ placeOf f.name = q := by
    rcases Option.or_eq_some_iff.1 hcur with hfind | ⟨-, hfind⟩
    · exact ⟨List.mem_append_right _ (done_mem hsplit (List.mem_of_find?_eq_some hfind)),
        by simpa using List.find?_some hfind⟩
    · exact ⟨List.mem_append_left _ (List.mem_of_find?_eq_some hfind),
        by simpa using List.find?_some hfind⟩
  have hpre : q <+: placeOf entry.name := hq.trans (List.dropLast_prefix _)
  have hname := h.names.prefixFree f hf.1 entry
    (List.mem_append_right _ (entry_mem hsplit)) (hf.2 ▸ hpre)
  rw [hname] at hf
  have hlen := hq.length_le
  rw [← hf.2, List.length_dropLast] at hlen
  have := List.length_pos_of_ne_nil (h.plain hsplit).ne_nil
  omega

/-- What the entry reuses of another old file is there. -/
def ReuseOk (bytes : Hash → Bytes) (old done : List FileEntry) (entry : FileEntry)
    (c : ChunkMeta) : Prop :=
  (∀ prev, getFile old entry.name = some prev → c.hash ∉ prev.chunks.map (·.hash)) →
    ∀ rel offset len, (chunkLocations old).lookup c.hash = some (rel, offset, len) →
      ∀ f ∈ done, NeedsMerge old f → f.name = rel →
        pread (contentOf bytes f) offset len.toNat = bytes c.hash

/-- A chunk of the old file itself. -/
theorem Progress.found_own {prev : FileEntry} (hprev : getFile (filesOf old) entry.name = some prev)
    {c : ChunkMeta} (hc : c.hash ∈ prev.chunks.map (·.hash)) :
    (sourcesOf d g t (filesOf old) entry).found d g t c.hash = some (bytes c.hash) := by
  have hcontent := hp.target h hsplit
  rw [hprev, Option.map_some] at hcontent
  obtain ⟨hmem, -⟩ := (getFile_eq_some h.names.nodupOld).1 hprev
  rcases hloc : (chunkOffsets 0 prev.chunks).lookup c.hash with _ | ⟨offset, len⟩
  · rw [← map_chunkOffsets prev.chunks 0] at hc
    obtain ⟨x, hx, hxc⟩ := List.mem_map.1 hc
    have := List.lookup_eq_none_iff.1 hloc x hx
    simp [hxc] at this
  have hown : (sourcesOf d g t (filesOf old) entry).own c.hash
      = some (targetOf g entry, offset, len) := by
    refine Sources.own_eq_some.2 ⟨?_, _, ?_, hloc⟩
    · simp [sourcesOf, hprev, hcontent]
    · simp [sourcesOf, hprev]
  rw [Sources.found, hown]
  dsimp only
  rw [hcontent]
  exact (rangeOf_contentOf (h.oldTrue.lengths prev hmem) (mem_of_lookup hloc)).1

omit h in
/-- A chunk that the old version does not have. -/
theorem Progress.found_temp {c : ChunkMeta} (hc : c ∈ entry.chunks)
    (hown : (sourcesOf d g t (filesOf old) entry).own c.hash = none)
    (hloc : (chunkLocations (filesOf old)).lookup c.hash = none) :
    (sourcesOf d g t (filesOf old) entry).found d g t c.hash = some (bytes c.hash) := by
  have hneeded : c.hash ∈ temp.elems ∨ _ :=
    temp_or_download (entry_mem hsplit) hc (lookup_chunkLocations_eq_none.1 hloc)
  have hglobal : (sourcesOf d g t (filesOf old) entry).globalChunks.lookup c.hash = none := hloc
  rw [Sources.found, hown, hglobal]
  exact hp.blocks _ (List.mem_append.2 hneeded)

/-- A chunk of another old file is read from the file that is there now. -/
theorem Progress.found_global {c : ChunkMeta} {rel : String} {offset : ℕ} {len : UInt32}
    {f₀ : FileEntry} (hown : (sourcesOf d g t (filesOf old) entry).own c.hash = none)
    (hloc : (chunkLocations (filesOf old)).lookup c.hash = some (rel, offset, len))
    (hf₀ : f₀ ∈ filesOf old) (hname : f₀.name = rel) :
    ∃ f, currentAt (filesOf old) done (placeOf rel) = some f ∧ (f ∈ done ∧ f.name = rel ∨ f = f₀)
      ∧ (sourcesOf d g t (filesOf old) entry).found d g t c.hash
        = rangeOf (contentOf bytes f) offset len := by
  obtain ⟨f, hcur, hf⟩ : ∃ f, currentAt (filesOf old) done (placeOf rel) = some f
      ∧ (f ∈ done ∧ f.name = rel ∨ f = f₀) := by
    rcases hfind : done.find? fun f => placeOf f.name = placeOf rel with _ | f
    · refine ⟨f₀, ?_, .inr rfl⟩
      rw [currentAt, hfind, Option.none_or]
      exact (find?_place h.names.old_inj).2 ⟨hf₀, by rw [hname]⟩
    · refine ⟨f, by rw [currentAt, hfind]; rfl, .inl ⟨List.mem_of_find?_eq_some hfind, ?_⟩⟩
      rw [← hname] at hfind ⊢
      exact h.names.name_eq (List.mem_append_right _
        (done_mem hsplit (List.mem_of_find?_eq_some hfind))) (List.mem_append_left _ hf₀)
        (by simpa using List.find?_some hfind)
  refine ⟨f, hcur, hf, ?_⟩
  have hglobal : (sourcesOf d g t (filesOf old) entry).globalChunks.lookup c.hash
      = some (rel, offset, len) := hloc
  rw [Sources.found, hown, hglobal]
  dsimp only
  rw [hp.files, hcur]
  rfl

/-- What the file there now has at the chunk's place is the chunk just when the condition says
so. -/
theorem Progress.range_iff {c : ChunkMeta} {rel : String} {offset : ℕ} {len : UInt32}
    {f₀ f : FileEntry}
    (hnot : ∀ prev, getFile (filesOf old) entry.name = some prev →
      c.hash ∉ prev.chunks.map (·.hash))
    (hloc : (chunkLocations (filesOf old)).lookup c.hash = some (rel, offset, len))
    (hf₀ : f₀ ∈ filesOf old) (hname : f₀.name = rel)
    (hmem : (c.hash, offset, len) ∈ chunkOffsets 0 f₀.chunks)
    (hcur : currentAt (filesOf old) done (placeOf rel) = some f)
    (hf : f ∈ done ∧ f.name = rel ∨ f = f₀) :
    rangeOf (contentOf bytes f) offset len = some (bytes c.hash)
      ↔ ReuseOk bytes (filesOf old) done entry c := by
  obtain ⟨hrange, hlen⟩ := rangeOf_contentOf (h.oldTrue.lengths f₀ hf₀) hmem
  -- the entries done with this name are `f`
  have hsame : ∀ f' ∈ done, f'.name = rel → f' = f := fun f' hf' hrel => by
    have hcur' := h.currentAt_done hsplit hf'
    rw [hrel, hcur] at hcur'
    exact (Option.some.inj hcur').symm
  have hloc' : ∀ {rel' offset' len'}, (chunkLocations (filesOf old)).lookup c.hash
      = some (rel', offset', len') → rel = rel' ∧ offset = offset' ∧ len = len' := fun hl => by
    simpa [hloc] using hl
  by_cases hmerged : f ∈ done ∧ NeedsMerge (filesOf old) f ∧ f.name = rel
  · -- the file has been replaced
    obtain ⟨hdone, hneeds, hrel⟩ := hmerged
    rw [rangeOf_eq_some hlen]
    constructor
    · rintro hread _ rel' offset' len' hl f' hf' - hrel'
      obtain ⟨rfl, rfl, rfl⟩ := hloc' hl
      rw [hsame f' hf' hrel']
      exact hread
    · exact fun hreuse => hreuse hnot rel offset len hloc f hdone hneeds hrel
  · -- the file has its old content
    have hcontent : contentOf bytes f = contentOf bytes f₀ := by
      rcases hf with ⟨hdone, hrel⟩ | rfl
      swap
      · rfl
      have hprev : getFile (filesOf old) f.name = some f₀ :=
        (getFile_eq_some h.names.nodupOld).2 ⟨hf₀, by rw [hname, hrel]⟩
      refine (hp.kept f hdone f₀ hprev ?_).symm
      by_contra hne
      exact hmerged ⟨hdone, by rw [NeedsMerge, hprev]; exact hne, hrel⟩
    rw [hcontent, hrange]
    refine ⟨fun _ _ rel' offset' len' hl f' hf' hneeds' hrel' => ?_, fun _ => rfl⟩
    obtain ⟨rfl, rfl, rfl⟩ := hloc' hl
    obtain rfl := hsame f' hf' hrel'
    exact absurd ⟨hf', hneeds', hrel'⟩ hmerged

/-- What is found of a chunk has its length, and is the chunk just when what it reuses is there. -/
theorem Progress.found_iff {c : ChunkMeta} (hc : c ∈ entry.chunks) :
    ((sourcesOf d g t (filesOf old) entry).found d g t c.hash = some (bytes c.hash)
        ↔ ReuseOk bytes (filesOf old) done entry c)
      ∧ ∀ data, (sourcesOf d g t (filesOf old) entry).found d g t c.hash = some data →
        data.length = (bytes c.hash).length := by
  have hright : (sourcesOf d g t (filesOf old) entry).found d g t c.hash = some (bytes c.hash) →
      ReuseOk bytes (filesOf old) done entry c →
      ((sourcesOf d g t (filesOf old) entry).found d g t c.hash = some (bytes c.hash)
          ↔ ReuseOk bytes (filesOf old) done entry c)
        ∧ ∀ data, (sourcesOf d g t (filesOf old) entry).found d g t c.hash = some data →
          data.length = (bytes c.hash).length := fun hf hr =>
    ⟨⟨fun _ => hr, fun _ => hf⟩, fun data hdata => by rw [hf] at hdata; rw [Option.some.inj hdata]⟩
  by_cases hown : ∃ prev, getFile (filesOf old) entry.name = some prev
      ∧ c.hash ∈ prev.chunks.map (·.hash)
  · obtain ⟨prev, hprev, hmem⟩ := hown
    exact hright (hp.found_own h hsplit hprev hmem) fun hnot => absurd hmem (hnot prev hprev)
  have hnot : ∀ prev, getFile (filesOf old) entry.name = some prev →
      c.hash ∉ prev.chunks.map (·.hash) := fun prev hprev hmem => hown ⟨prev, hprev, hmem⟩
  have hnone := own_eq_none (d := d) (g := g) (t := t) hnot
  rcases hloc : (chunkLocations (filesOf old)).lookup c.hash with _ | ⟨rel, offset, len⟩
  · exact hright (hp.found_temp hsplit hc hnone hloc) fun _ _ _ _ hl => by rw [hloc] at hl; cases hl
  obtain ⟨f₀, hf₀, hname, hmem⟩ := mem_of_chunkLocations hloc
  obtain ⟨f, hcur, hf, hfound⟩ := hp.found_global h hsplit hnone hloc hf₀ hname
  rw [hfound]
  refine ⟨hp.range_iff h hsplit hnot hloc hf₀ hname hmem hcur hf, fun data hdata => ?_⟩
  rw [length_rangeOf hdata, (rangeOf_contentOf (h.oldTrue.lengths f₀ hf₀) hmem).2]

/-- Its temporary path is no directory, nor is its target, unless the condition says so. -/
theorem Progress.node_new (hc : CanMerge bytes d₀ g (filesOf old) done entry) :
    d.node (newOf (targetOf g entry)) ≠ some .dir := by
  rw [targetOf, newOf_append (h.plain hsplit).ne_nil]
  intro hdir
  rcases hp.newDirs _ hdir with h₀ | ⟨f, hf, hneeds, hpre⟩
  · exact hc.temporary h₀
  · exact hc.below f hf hneeds hpre

theorem Progress.node_target (hc : CanMerge bytes d₀ g (filesOf old) done entry) :
    d.node (targetOf g entry) ≠ some .dir := by
  intro hdir
  rcases hp.newDirs _ hdir with h₀ | ⟨f, hf, -, hpre⟩
  · exact hc.target h₀
  · exact h.done_ne hsplit hf (h.names.prefixFree entry
      (List.mem_append_right _ (entry_mem hsplit)) f
      (List.mem_append_right _ (done_mem hsplit hf)) hpre).symm

omit hp

theorem Ready.new_ne (hown : newOf (placeOf entry.name) ≠ placeOf entry.name) :
    newOf (targetOf g entry) ≠ targetOf g entry := by
  rw [targetOf, newOf_append (h.plain hsplit).ne_nil]
  simpa using hown

/-- The temporary path is no file of either version. -/
theorem Ready.new_apart (hown : newOf (placeOf entry.name) ≠ placeOf entry.name) {f : FileEntry}
    (hf : f ∈ filesOf old ++ new.files) : placeOf f.name ≠ newOf (placeOf entry.name) := by
  intro he
  have hname := h.names.newApart entry (entry_mem hsplit) f hf he.symm
  rw [hname] at he
  exact hown he.symm

theorem Ready.newOf_ne_nil : newOf (placeOf entry.name) ≠ [] := by
  rw [newOf_eq (h.plain hsplit).ne_nil]
  simp

/-- The last entry done is at its place. -/
theorem Ready.currentAt_self :
    currentAt (filesOf old) (done ++ [entry]) (placeOf entry.name) = some entry := by
  cases rest with
  | nil =>
    rw [← hsplit]
    exact h.currentAt_new (entry_mem hsplit)
  | cons next rest =>
    have hsplit' : new.files = (done ++ [entry]) ++ next :: rest := by simp [hsplit]
    exact h.currentAt_done hsplit' (by simp)

include hp in
/-- An entry left as it is. -/
theorem Progress.skip (hneeds : ¬ NeedsMerge (filesOf old) entry)
    (hkept : ∀ prev, getFile (filesOf old) entry.name = some prev →
      prev.fileHash = entry.fileHash → contentOf bytes prev = contentOf bytes entry) :
    Progress bytes d₀ g t (filesOf old) (done ++ [entry])
      (temp.elems ++ (UpdatePlan.compute new old temp).chunksToDownload) d := by
  refine ⟨hp.wf, hp.dir, fun q => ?_, hp.blocks, hp.oldDirs, fun q hq => ?_, fun f hf prev => ?_⟩
  · by_cases hq : q = placeOf entry.name
    · obtain ⟨prev, hprev, hhash⟩ : ∃ prev, getFile (filesOf old) entry.name = some prev
          ∧ prev.fileHash = entry.fileHash := by
        unfold NeedsMerge at hneeds
        rcases hprev : getFile (filesOf old) entry.name with _ | prev <;> rw [hprev] at hneeds
        · exact absurd trivial hneeds
        · exact ⟨prev, rfl, not_not.1 hneeds⟩
      have htarget := hp.target h hsplit
      rw [hprev, Option.map_some, hkept prev hprev hhash] at htarget
      rw [hq, h.currentAt_self hsplit]
      exact htarget
    · rw [currentAt_concat hq, hp.files]
  · rcases hp.newDirs q hq with h₀ | ⟨f, hf, hneeds', hpre⟩
    · exact .inl h₀
    · exact .inr ⟨f, List.mem_append_left _ hf, hneeds', hpre⟩
  · rcases List.mem_append.1 hf with hf | hf
    · exact hp.kept f hf prev
    · obtain rfl := List.mem_singleton.1 hf
      exact hkept prev

include hp in
/-- An entry put in its place. -/
theorem Progress.replace (hneeds : NeedsMerge (filesOf old) entry)
    (hc : CanMerge bytes d₀ g (filesOf old) done entry) {d' : Disk}
    (hr : Replaced g entry (contentOf bytes entry) d d') :
    Progress bytes d₀ g t (filesOf old) (done ++ [entry])
      (temp.elems ++ (UpdatePlan.compute new old temp).chunksToDownload) d' := by
  have hplain := h.plain hsplit
  have hnewEq : newOf (targetOf g entry) = g ++ newOf (placeOf entry.name) :=
    newOf_append hplain.ne_nil
  have hne : ∀ {p : Place}, p <+: g → p ≠ targetOf g entry ∧ p ≠ newOf (targetOf g entry) := by
    intro p hpre
    have hlen := hpre.length_le
    have h₁ := List.length_pos_of_ne_nil hplain.ne_nil
    have h₂ := List.length_pos_of_ne_nil (h.newOf_ne_nil hsplit)
    constructor
    · rintro rfl
      rw [targetOf, List.length_append] at hlen
      omega
    · rintro rfl
      rw [hnewEq, List.length_append] at hlen
      omega
  refine ⟨hr.wf, ?_, fun q => ?_, fun k hk => ?_, fun p hdir => ?_, fun q hdir => ?_,
    fun f hf prev hprev hhash => ?_⟩
  · rw [hr.others g (hne (List.prefix_refl g)).1 (hne (List.prefix_refl g)).2, if_pos]
    rw [targetOf, List.dropLast_append_of_ne_nil hplain.ne_nil]
    exact List.prefix_append _ _
  · by_cases hq : q = placeOf entry.name
    · rw [hq, h.currentAt_self hsplit]
      exact Disk.content_eq_some.2 hr.target
    rw [currentAt_concat hq]
    by_cases hqn : q = newOf (placeOf entry.name)
    · -- the temporary path is free again
      have hnone : currentAt (filesOf old) done q = none := by
        rw [currentAt, Option.or_eq_none_iff, List.find?_eq_none, List.find?_eq_none]
        refine ⟨fun f hf => ?_, fun f hf => ?_⟩
        · simpa [hqn] using h.new_apart hsplit hc.ownNew
            (List.mem_append_right _ (done_mem hsplit hf))
        · simpa [hqn] using h.new_apart hsplit hc.ownNew (List.mem_append_left _ hf)
      rw [hnone, hqn, ← hnewEq, Disk.content, hr.temporary]
      rfl
    have hnode := hr.others (g ++ q) (by simpa [targetOf] using hq) (by simpa [hnewEq] using hqn)
    rw [← hp.files]
    by_cases hpre : g ++ q <+: (targetOf g entry).dropLast
    · rw [hp.way h hsplit _ hpre, Disk.content, hnode, if_pos hpre]
    · exact Disk.content_congr (by rw [hnode, if_neg hpre])
  · have hblock := hp.blocks k hk
    have hpre : ¬ blockPlace t k <+: (targetOf g entry).dropLast := fun hpre => by
      rw [hp.way h hsplit _ hpre] at hblock
      cases hblock
    rw [← hblock]
    refine Disk.content_congr ?_
    rw [hr.others _ (h.block_ne k hplain.ne_nil)
      (by rw [hnewEq]; exact h.block_ne k (h.newOf_ne_nil hsplit)), if_neg hpre]
  · have hd := hp.oldDirs p hdir
    rw [hr.others p (fun he => hp.node_target h hsplit hc (he ▸ hd))
      (fun he => hp.node_new h hsplit hc (he ▸ hd))]
    split_ifs
    · rfl
    · exact hd
  · have hq : g ++ q ≠ targetOf g entry := fun he => by
      rw [he, hr.target] at hdir
      cases hdir
    have hqn : g ++ q ≠ newOf (targetOf g entry) := fun he => by
      rw [he, hr.temporary] at hdir
      cases hdir
    rw [hr.others _ hq hqn] at hdir
    split_ifs at hdir with hpre
    · refine .inr ⟨entry, by simp, hneeds, ?_⟩
      rw [targetOf, List.dropLast_append_of_ne_nil hplain.ne_nil,
        List.prefix_append_right_inj] at hpre
      exact hpre.trans (List.dropLast_prefix _)
    · rcases hp.newDirs q hdir with h₀ | ⟨f, hf, hneeds', hpre⟩
      · exact .inl h₀
      · exact .inr ⟨f, List.mem_append_left _ hf, hneeds', hpre⟩
  · rcases List.mem_append.1 hf with hf | hf
    · exact hp.kept f hf prev hprev hhash
    · obtain rfl := List.mem_singleton.1 hf
      rw [NeedsMerge, hprev] at hneeds
      exact absurd hhash hneeds

include hp in
theorem Progress.assembled_of_reuse
    (hreuse : ∀ c ∈ entry.chunks, ReuseOk bytes (filesOf old) done entry c) :
    assembled d g t (filesOf old) entry = some (contentOf bytes entry) := by
  have hall := mapM_eq_map (f := fun c : ChunkMeta => bytes c.hash) entry.chunks
    fun c hc => (hp.found_iff h hsplit hc).1.2 (hreuse c hc)
  rw [assembled, hall, contentOf, List.flatMap]
  rfl

include hp in
/-- What an entry is put together from is its content only if all it reuses is there. -/
theorem Progress.reuse_of_assembled (ha : assembled d g t (filesOf old) entry
    = some (contentOf bytes entry)) :
    ∀ c ∈ entry.chunks, ReuseOk bytes (filesOf old) done entry c := by
  obtain ⟨datas, hm, hflat⟩ := Option.map_eq_some_iff.1 ha
  intro c hc
  refine (hp.found_iff h hsplit hc).1.1 ?_
  exact eq_of_flatten_eq (f := fun c : ChunkMeta => bytes c.hash) entry.chunks hm
    (by rw [hflat, contentOf, List.flatMap]) (fun c hc => (hp.found_iff h hsplit hc).2) c hc

include hp in
theorem Progress.exec_writeEntry (hown : newOf (placeOf entry.name) ≠ placeOf entry.name)
    (hnew : d.node (newOf (targetOf g entry)) ≠ some .dir)
    (htarget : d.node (targetOf g entry) ≠ some .dir) :
    (∃ data d', assembled d g t (filesOf old) entry = some data ∧ blake3 data = entry.fileHash
        ∧ exec (writeEntry blake3 g t (filesOf old) entry) d = (.ok (), d')
        ∧ Replaced g entry data d d')
      ∨ (∀ data, assembled d g t (filesOf old) entry = some data → blake3 data ≠ entry.fileHash)
        ∧ ∃ e d', exec (writeEntry blake3 g t (filesOf old) entry) d = (.error (.err e), d') := by
  have hnewEq : newOf (targetOf g entry) = g ++ newOf (placeOf entry.name) :=
    newOf_append (h.plain hsplit).ne_nil
  refine BlazeNet.exec_writeEntry (h.plain hsplit)
    (fun f hf => h.names.plain (List.mem_append_left _ hf)) hp.wf (hp.way h hsplit)
    (h.new_ne hsplit hown) hnew htarget (fun f hf => ?_) fun hash => ?_
  · rw [hnewEq, targetOf]
    simpa using h.new_apart hsplit hown (List.mem_append_left _ hf)
  · rw [hnewEq]
    exact h.block_ne hash (h.newOf_ne_nil hsplit)

include hp in
/-- An entry that can be merged is. -/
theorem Progress.write_ok (hc : CanMerge bytes d₀ g (filesOf old) done entry) :
    ∃ d', exec (writeEntry blake3 g t (filesOf old) entry) d = (.ok (), d')
      ∧ Replaced g entry (contentOf bytes entry) d d' := by
  have ha := hp.assembled_of_reuse h hsplit hc.reuse
  have hhash : blake3 (contentOf bytes entry) = entry.fileHash :=
    (h.newTrue entry (entry_mem hsplit)).symm
  rcases hp.exec_writeEntry h hsplit hc.ownNew (hp.node_new h hsplit hc)
    (hp.node_target h hsplit hc)
    with ⟨data, d', hdata, -, hexec, hr⟩ | ⟨hno, -⟩
  · rw [ha, Option.some.injEq] at hdata
    exact ⟨d', hexec, hdata ▸ hr⟩
  · exact absurd hhash (hno _ ha)

include hp in
/-- An entry that cannot be merged fails or gets other bytes. -/
theorem Progress.write_bad (hc : ¬ CanMerge bytes d₀ g (filesOf old) done entry) :
    (∃ e d', exec (writeEntry blake3 g t (filesOf old) entry) d = (.error (.err e), d'))
      ∨ ∃ d', exec (writeEntry blake3 g t (filesOf old) entry) d = (.ok (), d')
        ∧ d'.content (targetOf g entry) ≠ some (contentOf bytes entry) := by
  have hnewEq : newOf (targetOf g entry) = g ++ newOf (placeOf entry.name) :=
    newOf_append (h.plain hsplit).ne_nil
  by_cases hbad : newOf (targetOf g entry) = targetOf g entry
      ∨ d.node (newOf (targetOf g entry)) = some .dir ∨ d.node (targetOf g entry) = some .dir
  · exact .inl (exec_writeEntry_bad (h.plain hsplit)
      (fun f hf => h.names.plain (List.mem_append_left _ hf)) hp.wf (hp.way h hsplit) hbad)
  rw [not_or, not_or] at hbad
  obtain ⟨hself, hnew, htarget⟩ := hbad
  have hown : newOf (placeOf entry.name) ≠ placeOf entry.name := fun he =>
    hself (by rw [hnewEq, he, targetOf])
  rcases hp.exec_writeEntry h hsplit hown hnew htarget
    with ⟨data, d', hdata, -, hexec, hr⟩ | ⟨-, herr⟩
  swap
  · exact .inl herr
  refine .inr ⟨d', hexec, fun hcontent => hc ⟨hown, ?_, ?_, fun f hf hneeds hpre => ?_, ?_⟩⟩
  · exact fun hdir => htarget (hp.oldDirs _ hdir)
  · exact fun hdir => hnew (hnewEq ▸ hp.oldDirs _ hdir)
  · -- the file below it is there, so it is a directory
    have hfile : d.content (g ++ placeOf f.name) = some (contentOf bytes f) := by
      rw [hp.files, h.currentAt_done hsplit hf]
      rfl
    refine hnew (hp.wf.dir_of_prefix (p := g ++ placeOf f.name) ?_ ?_ ?_)
    · simp [Disk.content_eq_some.1 hfile]
    · rw [hnewEq, List.prefix_append_right_inj]
      exact hpre
    · rw [hnewEq]
      simpa using (h.new_apart hsplit hown (List.mem_append_right _ (done_mem hsplit hf))).symm
  · refine hp.reuse_of_assembled h hsplit ?_
    rw [hdata, ← hcontent]
    exact (Disk.content_eq_some.2 hr.target).symm

end Step

end Progress

end BlazeNet

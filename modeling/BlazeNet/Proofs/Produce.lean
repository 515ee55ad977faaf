import BlazeNet.Produce
import BlazeNet.Proofs.Producer

/-!
# What a production run leaves

The walk through a directory finds each file below it once, so that the sorted list is the same for
every order the directories are read in (`exec_listFiles`).
-/

namespace BlazeNet

open Wire FaultIo Io RustStd UnixFs

namespace Producer

section Listing

variable {d : Disk} {s p : Place} {iter : Path → IterOrder Name}

/-- The file is at the place or below it, seen from the root of the walk. -/
def Below (d : Disk) (s p q : Place) : Prop := p <+: q ∧ (d.content (s ++ q)).isSome

/-- A part of the walk that adds the files which `P` is true of, each once. -/
def Finds (d : Disk) (part : List Path → FsIo (List Path)) (P : Place → Prop) : Prop :=
  ∀ files, ∃ found : List Place, exec (part files) d = (.ok (files ++ ofPlace <$> found), d)
    ∧ found.Nodup ∧ ∀ q, q ∈ found ↔ P q

theorem Finds.nothing {P : Place → Prop} (h : ∀ q, ¬ P q) : Finds d pure P :=
  fun files => ⟨[], by simp, List.nodup_nil, by simpa using h⟩

/-- What one part finds goes on to the next. -/
theorem Finds.bind {part next : List Path → FsIo (List Path)} {P Q : Place → Prop}
    (hpart : Finds d part P) (hnext : Finds d next Q) (hapart : ∀ q, P q → ¬ Q q) :
    Finds d (fun files => part files >>= next) fun q => P q ∨ Q q := by
  intro files
  obtain ⟨found, hrun, hnodup, hmem⟩ := hpart files
  obtain ⟨more, hmore, hnodup', hmem'⟩ := hnext (files ++ ofPlace <$> found)
  refine ⟨found ++ more, ?_, ?_, fun q => by rw [List.mem_append, hmem, hmem']⟩
  · rw [exec_bind, hrun]
    simpa [List.append_assoc] using hmore
  · exact hnodup.append hnodup' fun q hq hq' => hapart q ((hmem q).1 hq) ((hmem' q).1 hq')

theorem Finds.congr {part part' : List Path → FsIo (List Path)} {P P' : Place → Prop}
    (h : Finds d part P) (hpart : ∀ files, exec (part' files) d = exec (part files) d)
    (hP : ∀ q, P' q ↔ P q) : Finds d part' P' := by
  intro files
  obtain ⟨found, hrun, hnodup, hmem⟩ := h files
  exact ⟨found, (hpart files).trans hrun, hnodup, fun q => (hmem q).trans (hP q).symm⟩

theorem stripPrefix_ofPlace (s q : Place) :
    stripPrefix (ofPlace s) (ofPlace (s ++ q)) = some (ofPlace q) := by
  rw [stripPrefix, ofPlace_append, if_pos (List.prefix_append _ _), List.drop_left]

theorem ofPlace_child (p : Place) (n : Name) : ofPlace p ++ [.normal n] = ofPlace (p ++ [n]) := by
  rw [ofPlace_append]
  rfl

/-- One entry of a directory: a file is found, a directory is walked through. -/
theorem exec_collectEntries (hd : d.Wf) (collect : Path → List Path → FsIo (List Path)) (n : Name)
    (names : List Name) (files : List Path) :
    exec (collectEntries (ofPlace s) collect (ofPlace (s ++ p)) (n :: names) files) d
      = exec ((match d.node (s ++ (p ++ [n])) with
          | some (.file _) => pure (files ++ [ofPlace (p ++ [n])])
          | some .dir => collect (ofPlace (s ++ (p ++ [n]))) files
          | none => pure files) >>= collectEntries (ofPlace s) collect (ofPlace (s ++ p)) names)
            d := by
  have hcontext : exec (context "读取目录项失败" (query fun _ => .ok ()) : FsIo Unit) d
      = (.ok (), d) := rfl
  rw [collectEntries, ofPlace_child, List.append_assoc]
  simp only [exec_bind, hcontext, exec_isFile, exec_isDir, hd.isFile_ofPlace, hd.isDir_ofPlace,
    stripPrefix_ofPlace, Disk.content]
  rcases d.node (s ++ (p ++ [n])) with _ | content | _ <;> simp [exec_bind]

/-- Nothing lies below what is no directory. -/
theorem Below.eq (hd : d.Wf) {q : Place} (h : Below d s p q) (hp : d.node (s ++ p) ≠ some .dir) :
    q = p := by
  by_contra hne
  obtain ⟨hpre, hsome⟩ := h
  have hnode : d.node (s ++ q) ≠ none := fun hnone => by simp [Disk.content, hnone] at hsome
  exact hp (hd.dir_of_prefix hnode ((List.prefix_append_right_inj s).2 hpre) fun he =>
    hne (List.append_cancel_left he).symm)

theorem finds_entry (hd : d.Wf) {collect : List Path → FsIo (List Path)}
    (hcollect : d.node (s ++ p) = some .dir → Finds d collect (Below d s p)) :
    Finds d (fun files => match d.node (s ++ p) with
      | some (.file _) => pure (files ++ [ofPlace p])
      | some .dir => collect files
      | none => pure files) (Below d s p) := by
  rcases hnode : d.node (s ++ p) with _ | content | _
  · refine .nothing fun q hq => ?_
    obtain rfl := hq.eq hd (by simp [hnode])
    simpa [Disk.content, hnode] using hq.2
  · refine fun files => ⟨[p], rfl, List.nodup_singleton p, fun q => ?_⟩
    rw [List.mem_singleton]
    refine ⟨?_, fun hq => hq.eq hd (by simp [hnode])⟩
    rintro rfl
    exact ⟨List.prefix_refl q, by simp [Disk.content, hnode]⟩
  · exact hcollect hnode

theorem finds_collectEntries (hd : d.Wf) {collect : Path → List Path → FsIo (List Path)}
    (hcollect : ∀ n, d.node (s ++ (p ++ [n])) = some .dir →
      Finds d (collect (ofPlace (s ++ (p ++ [n])))) (Below d s (p ++ [n]))) :
    ∀ names : List Name, names.Nodup →
      Finds d (collectEntries (ofPlace s) collect (ofPlace (s ++ p)) names)
        fun q => ∃ n ∈ names, Below d s (p ++ [n]) q
  | [], _ => .nothing (by simp)
  | n :: names, hnodup => by
    obtain ⟨hnew, hrest⟩ := List.nodup_cons.1 hnodup
    have hapart : ∀ q, Below d s (p ++ [n]) q → ¬ ∃ m ∈ names, Below d s (p ++ [m]) q := by
      rintro q ⟨hpre, -⟩ ⟨m, hm, hpre', -⟩
      have heq := (List.prefix_of_prefix_length_le hpre hpre' (by simp)).eq_of_length (by simp)
      exact hnew ((List.cons.inj (List.append_cancel_left heq)).1 ▸ hm)
    refine ((finds_entry hd (hcollect n)).bind (finds_collectEntries hd hcollect names hrest)
      hapart).congr (exec_collectEntries hd collect n names) fun q => ?_
    simp

/-- The walk finds what lies below its directory, if the stack is deeper than the directories. -/
theorem finds_collectFiles (hd : d.Wf) : ∀ (stack : ℕ) (p : Place), d.node (s ++ p) = some .dir →
    (∀ q, d.node (s ++ p ++ q) = some .dir → q.length < stack) →
      Finds d (collectFiles iter (ofPlace s) stack (ofPlace (s ++ p))) (Below d s p)
  | 0, p, hdir, hdepth => absurd (hdepth [] (by simpa using hdir)) (by simp)
  | stack + 1, p, hdir, hdepth => by
    have hread : exec (context ("读取目录失败: " ++ displayPath (ofPlace (s ++ p)))
        (readDir (ofPlace (s ++ p))) : FsIo (List Name)) d = (.ok (d.children (s ++ p)), d) :=
      exec_context_ok (exec_readDir hd hdir)
    have hperm := (iter (ofPlace (s ++ p))).perm (d.children (s ++ p))
    have hentries : Finds d (collectEntries (ofPlace s) (collectFiles iter (ofPlace s) stack)
        (ofPlace (s ++ p)) ((iter (ofPlace (s ++ p))).order (d.children (s ++ p)))) _ :=
      finds_collectEntries hd (fun n hn => finds_collectFiles hd stack (p ++ [n]) hn fun q hq => by
        have := hdepth ([n] ++ q) (by simpa [List.append_assoc] using hq)
        simpa using this) _ (hperm.nodup_iff.2 nodup_children)
    refine hentries.congr (fun files => by rw [collectFiles, exec_bind, hread]) fun q => ?_
    simp only [hperm.mem_iff, mem_children]
    constructor
    · rintro ⟨⟨r, rfl⟩, hsome⟩
      rcases r with _ | ⟨n, r⟩
      · simp [Disk.content, hdir] at hsome
      refine ⟨n, fun hnone => ?_, ⟨r, by simp⟩, hsome⟩
      have hnode : d.node (s ++ (p ++ n :: r)) ≠ none := fun h => by
        simp [Disk.content, h] at hsome
      rcases eq_or_ne r [] with rfl | hr
      · exact hnode (by simpa [List.append_assoc] using hnone)
      · have := hd.dir_of_prefix (q := s ++ p ++ [n]) hnode ⟨r, by simp⟩ fun he =>
          hr (by simpa using he)
        rw [hnone] at this
        cases this
    · rintro ⟨n, -, hpre, hsome⟩
      exact ⟨(List.prefix_append p [n]).trans hpre, hsome⟩

theorem sortKey_injective {p q : Place}
    (h : sortKey (ofPlace p) = sortKey (ofPlace q)) : p = q := by
  have hkey : ∀ p : Place, sortKey (ofPlace p) = List.map WithBot.some p := fun p => by
    simp [sortKey, ofPlace, componentKey, Function.comp_def]
  rw [hkey, hkey] at h
  exact List.map_injective_iff.2 WithBot.coe_injective h

/-- Sorted without equals, the files are in strictly increasing order. -/
theorem lists_mergeSort {found : List Place} (hnodup : found.Nodup)
    (hmem : ∀ q, q ∈ found ↔ (d.content (s ++ q)).isSome) :
    Lists d s (found.mergeSort fun a b => sortsBefore (ofPlace a) (ofPlace b)) := by
  refine ⟨?_, fun q => by rw [List.mem_mergeSort, hmem]⟩
  have hsorted := List.pairwise_mergeSort (fun a b c hab hbc => decide_eq_true
    ((of_decide_eq_true hab).trans (of_decide_eq_true hbc)) : ∀ a b c : Place,
      sortsBefore (ofPlace a) (ofPlace b) → sortsBefore (ofPlace b) (ofPlace c) →
        sortsBefore (ofPlace a) (ofPlace c))
    (fun a b => by simpa [sortsBefore] using le_total (sortKey (ofPlace a)) (sortKey (ofPlace b)))
    found
  have hdistinct : (found.mergeSort fun a b => sortsBefore (ofPlace a) (ofPlace b)).Nodup :=
    (List.mergeSort_perm _ _).nodup_iff.2 hnodup
  refine (hsorted.and hdistinct).imp fun h => ?_
  exact lt_of_le_of_ne (of_decide_eq_true h.1) fun he => h.2 (sortKey_injective he)

/-- The listing of a directory is what lies below it, in one order whatever the orders of the
directories. -/
theorem exec_listFiles (iter : UnixFs.Path → IterOrder Name) (hd : d.Wf) {stack : ℕ}
    (hdir : d.node s = some .dir)
    (hdepth : ∀ q, d.node (s ++ q) = some .dir → q.length < stack) :
    ∃ files, exec (listFiles iter stack (ofPlace s)) d = (.ok (files.map ofPlace), d)
      ∧ Lists d s files := by
  have hfinds : Finds d (collectFiles iter (ofPlace s) stack (ofPlace (s ++ []))) _ :=
    finds_collectFiles hd stack [] (by simpa using hdir) (by simpa using hdepth)
  obtain ⟨found, hrun, hnodup, hmem⟩ := hfinds []
  refine ⟨_, ?_, lists_mergeSort hnodup fun q => (hmem q).trans (by simp [Below])⟩
  rw [List.append_nil] at hrun
  rw [listFiles, exec_bind, hrun]
  change (Except.ok _, d) = _
  rw [List.map_mergeSort (s := sortsBefore) fun _ _ _ _ => rfl]
  rfl

/-- There is one such list. -/
theorem Lists.unique {files files' : List Place} (h : Lists d s files) (h' : Lists d s files') :
    files = files' := by
  have : Std.Irrefl fun a b : Place => sortKey (ofPlace a) < sortKey (ofPlace b) :=
    ⟨fun _ => lt_irrefl _⟩
  have : Std.Antisymm fun a b : Place => sortKey (ofPlace a) < sortKey (ofPlace b) :=
    ⟨fun _ _ hab hba => absurd hab hba.asymm⟩
  exact h.1.eq_of_mem_iff h'.1 fun q => (h.2 q).trans (h'.2 q).symm

end Listing

section Parts

variable {blake3 : Bytes → Hash} {cdc : StreamCdc} {bytes : Hash → Bytes} {d e : Disk}
  {s o p q : Place} {version : UInt64} {files : List String} {content : String → Bytes}

/-- The files of the previous version are read, and nothing is staged. -/
theorem exec_compareEntries : ∀ (files : List String) {seen : HashSet Hash} {d : Disk}
    (entries : List FileEntry), d.Wf →
    (∀ rel ∈ files, PlainName rel ∧ d.content (s ++ placeOf rel) = some (content rel)) →
    ∃ d', exec (makeEntries blake3 cdc (ofPlace s) none files seen entries) d
        = (.ok (entries ++ files.map (entryOf blake3 cdc s content), seen), d') ∧ SameNodes d d'
  | [], seen, d, entries, _, _ => ⟨d, by simp [makeEntries], fun _ => rfl⟩
  | rel :: files, seen, d, entries, hd, hfiles => by
    obtain ⟨hplain, hsource⟩ := hfiles rel List.mem_cons_self
    have hloop : ∀ (pieces : List Bytes) (metas : List ChunkMeta) (d : Disk),
        exec (chunkLoop blake3 (ofPlace (s ++ placeOf rel)) none pieces seen metas) d
          = (.ok (metas ++ pieces.map (metaOf blake3), seen), d) := by
      intro pieces
      induction pieces with
      | nil => simp [chunkLoop]
      | cons data rest ih =>
        intro metas d
        rw [chunkLoop, exec_bind]
        exact (ih (metas ++ [metaOf blake3 data]) d).trans (by simp)
    obtain ⟨d₁, hread, h₁⟩ := exec_openAndRead hd hsource "FastCDC 分块失败"
    obtain ⟨d₂, hhash, h₂⟩ : ∃ d₂, exec (fileHash blake3 (ofPlace (s ++ placeOf rel))) d₁
        = (.ok (blake3 (content rel)), d₂) ∧ SameNodes d₁ d₂ :=
      exec_fileHash (hd.congr h₁) (by rw [h₁.content, hsource])
    obtain ⟨d', hrest, h'⟩ := exec_compareEntries files
      (entries ++ [entryOf blake3 cdc s content rel]) ((hd.congr h₁).congr h₂)
      fun a ha => by
        rw [h₂.content, h₁.content]
        exact hfiles a (List.mem_cons_of_mem _ ha)
    refine ⟨d', ?_, fun p => by rw [h', h₂, h₁]⟩
    rw [← List.append_cons] at hrest
    simp only [makeEntries, hplain.join_eq, chunkFile, exec_bind, hread, hloop, hhash,
      List.nil_append]
    exact hrest

/-- A source tree whose files have been listed, and room for the output: no file is where a
directory is made, no directory where a file is written, and no source file is one of the blocks. -/
structure SourceTree (d : Disk) (s o : Place) (version : UInt64) (files : List String)
    (content : String → Bytes) : Prop where
  wf : d.Wf
  nonempty : files ≠ []
  plain : ∀ rel ∈ files, PlainName rel
  source : ∀ rel ∈ files, d.content (s ++ placeOf rel) = some (content rel)
  ways : ∀ sub ∈ subDirs, ∀ q, q <+: o ++ [sub.toList] → d.content q = none
  blocks : ∀ hash, d.node (blockPlace (stagePlace o) hash) ≠ some .dir
  manifest : d.node (manifestPlace o version) ≠ some .dir
  unchanged : ∀ hash, ∀ rel ∈ files, blockPlace (stagePlace o) hash ≠ s ++ placeOf rel

/-- The directories for the output are made. -/
theorem exec_subDirs (hd : d.Wf)
    (hways : ∀ sub ∈ subDirs, ∀ q, q <+: o ++ [sub.toList] → d.content q = none) :
    ∃ d₁ d₂ d', exec (createDirAll (ofPlace (stagePlace o)) : FsIo Unit) d = (.ok (), d₁)
      ∧ exec (createDirAll (ofPlace (o ++ ["index".toList])) : FsIo Unit) d₁ = (.ok (), d₂)
      ∧ exec (createDirAll (ofPlace (o ++ ["delta".toList])) : FsIo Unit) d₂ = (.ok (), d')
      ∧ d'.Wf ∧ (∀ sub ∈ subDirs, d'.node (o ++ [sub.toList]) = some .dir)
      ∧ (∀ q, d'.content q = d.content q)
      ∧ ∀ q, (∀ sub ∈ subDirs, ¬ q <+: o ++ [sub.toList]) → d'.node q = d.node q := by
  obtain ⟨d₁, hrun₁, h₁⟩ := exec_createDirAll_made hd (hways "chunks" (by decide))
  obtain ⟨d₂, hrun₂, h₂⟩ := exec_createDirAll_made h₁.wf fun q hq => by
    rw [h₁.content]
    exact hways "index" (by decide) q hq
  obtain ⟨d', hrun', h'⟩ := exec_createDirAll_made h₂.wf fun q hq => by
    rw [h₂.content, h₁.content]
    exact hways "delta" (by decide) q hq
  have hself : ∀ {p : Place} {a b : Disk}, Made p a b → b.node p = some .dir := fun h => by
    rw [h.node, if_pos (List.prefix_refl _)]
  refine ⟨d₁, d₂, d', hrun₁, hrun₂, hrun', h'.wf, ?_, fun q => ?_, fun q hq => ?_⟩
  · simp only [subDirs, List.forall_mem_cons]
    exact ⟨h'.dir (h₂.dir (hself h₁)), h'.dir (hself h₂), hself h', by simp⟩
  · rw [h'.content, h₂.content, h₁.content]
  · rw [h'.node, if_neg (hq "delta" (by decide)), h₂.node, if_neg (hq "index" (by decide)),
      h₁.node, if_neg (hq "chunks" (by decide))]

/-- The version is made in an output directory that is there. -/
theorem exec_makeVersion (tools : Tools) (gameId : UInt64) (previous : Option UnixFs.Path)
    (h : SourceTree d s o version files content)
    (hdata : ∀ data ∈ files.flatMap (piecesOf tools.cdc s content),
      bytes (tools.blake3 data) = data) :
    ∃ seen d', exec (makeVersion tools ⟨⟨version, ofPlace s, ofPlace o⟩, gameId, previous⟩ files) d
        = (.ok (GameIndex.build tools.blake3
          (files.map (entryOf tools.blake3 tools.cdc s content)), seen), d')
      ∧ d'.Wf ∧ d'.node (o ++ ["delta".toList]) = some .dir
      ∧ d'.content (manifestPlace o version) = some (GameIndex.build tools.blake3
          (files.map (entryOf tools.blake3 tools.cdc s content))).encode
      ∧ (∀ data ∈ files.flatMap (piecesOf tools.cdc s content),
        d'.content (blockPlace (stagePlace o) (tools.blake3 data)) = some data)
      ∧ ∀ q, (∀ sub ∈ subDirs, ¬ q <+: o ++ [sub.toList]) →
        (∀ data ∈ files.flatMap (piecesOf tools.cdc s content),
          q ≠ blockPlace (stagePlace o) (tools.blake3 data)) →
        q ≠ manifestPlace o version → d'.node q = d.node q := by
  obtain ⟨e₁, e₂, d₁, hrun₁, hrun₂, hrun₃, hwf, hdirs, hcontent, hfar⟩ := exec_subDirs h.wf h.ways
  have hlong : ∀ q : Place, o.length + 1 < q.length → ∀ sub ∈ subDirs, ¬ q <+: o ++ [sub.toList] :=
    fun q hq sub _ hpre => by
      have := hpre.length_le
      simp at this
      omega
  have hblock : ∀ hash, d₁.node (blockPlace (stagePlace o) hash) ≠ some .dir := fun hash => by
    rw [hfar _ (hlong _ (by simp [blockPlace, stagePlace]))]
    exact h.blocks hash
  have hstart : Staging bytes (stagePlace o) d₁ HashSet.empty d₁ :=
    ⟨hwf, hdirs "chunks" (by decide), hblock, fun hash hs => absurd hs HashSet.notMem_empty,
      fun _ _ => rfl⟩
  obtain ⟨seen, d₂, hentries, hst, hmem⟩ := exec_makeEntries files [] hstart fun rel hrel => by
    refine ⟨h.plain rel hrel, by rw [hcontent, h.source rel hrel], fun hash => ?_,
      fun data hd => ?_⟩
    · exact h.unchanged hash rel hrel
    · exact hdata data (List.mem_flatMap.2 ⟨rel, hrel, hd⟩)
  -- the directories are none of the blocks
  have hkept : ∀ sub ∈ subDirs, d₂.node (o ++ [sub.toList]) = some .dir := fun sub hsub => by
    rw [hst.others, hdirs sub hsub]
    intro hash _ he
    have := congrArg List.length he
    simp [blockPlace, stagePlace] at this
  have hfree : d₂.node (manifestPlace o version) ≠ some .dir := by
    rw [hst.others _ fun hash _ => blockPlace_ne_manifestPlace hash,
      hfar _ (hlong _ (by simp [manifestPlace]))]
    exact h.manifest
  have hplace : manifestPlace o version = (o ++ ["index".toList])
      ++ [(toString version.toNat ++ ".gameindex").toList] := by
    rw [manifestPlace, List.append_assoc]
    rfl
  have hfind : d₂.find (ofPlace (manifestPlace o version)) = .ok (manifestPlace o version) := by
    rw [hplace]
    exact hst.wf.find_below (hkept "index" (by decide))
  obtain ⟨d₃, hwrite, hnode⟩ := exec_writeFile (ε := AnyError) hfind hfree
    (GameIndex.build tools.blake3 (files.map (entryOf tools.blake3 tools.cdc s content))).encode
  refine ⟨seen, d₃, ?_, ?_, ?_, ?_, fun data hd => ?_, fun q hq hblocks hmanifest => ?_⟩
  · have hstageDir : stageDir ⟨version, ofPlace s, ofPlace o⟩ = ofPlace (stagePlace o) := by
      rw [stagePlace, ofPlace_append]
      rfl
    have hindexDir : indexDir ⟨version, ofPlace s, ofPlace o⟩
        = ofPlace (o ++ ["index".toList]) := by
      rw [ofPlace_append]
      rfl
    have hdeltaDir : deltaDir ⟨version, ofPlace s, ofPlace o⟩
        = ofPlace (o ++ ["delta".toList]) := by
      rw [ofPlace_append]
      rfl
    simp only [makeVersion, hstageDir, hindexDir, hdeltaDir, indexPath_eq,
      if_neg h.nonempty, exec_bind,
      exec_context_ok hrun₁, exec_context_ok hrun₂, exec_context_ok hrun₃, hentries,
      List.nil_append,
      exec_context_ok hwrite]
    rfl
  · refine hst.wf.of_update (n := (toString version.toNat ++ ".gameindex").toList)
      (hkept "index" (by decide)) (hplace ▸ hfree) fun q hq => ?_
    rw [hnode, if_neg (hplace ▸ hq)]
  · rw [hnode, if_neg (by simp [manifestPlace]), hkept "delta" (by decide)]
  · rw [Disk.content_eq_some, hnode, if_pos rfl]
  · have hsame : d₃.node (blockPlace (stagePlace o) (tools.blake3 data))
        = d₂.node (blockPlace (stagePlace o) (tools.blake3 data)) := by
      rw [hnode, if_neg fun he => blockPlace_ne_manifestPlace _ he.symm]
    rw [Disk.content_congr hsame, hst.blocks _ ((hmem _).2 (.inr ⟨data, hd, rfl⟩)), hdata data hd]
  · rw [hnode, if_neg hmanifest, hst.others q, hfar q hq]
    intro hash hs
    obtain hs | ⟨data, hd, rfl⟩ := (hmem hash).1 hs
    · exact absurd hs HashSet.notMem_empty
    · exact hblocks data hd

end Parts

section Names

variable {d : Disk} {s o q : Place} {version : UInt64}

/-- A directory next to the output directory is spared. -/
theorem spared_of_apart (hs : ¬ s <+: o) (ho : ¬ o <+: s) : Spared o version s := by
  have hnone : ∀ q, s <+: q → ¬ o <+: q := fun q hq hq' =>
    (List.prefix_or_prefix_of_prefix hq hq').elim hs ho
  refine fun q hq => ⟨fun he => hnone q hq (he ▸ List.prefix_append o _), fun hashes => ?_⟩
  rintro (⟨sub, -, hpre⟩ | ⟨hash, -, rfl⟩ | rfl | rfl)
  · exact hnone _ (hq.trans hpre) (List.prefix_append o _)
  · exact hnone _ hq ⟨_, by rw [blockPlace, stagePlace, List.append_assoc]⟩
  · exact hnone _ hq (List.prefix_append o _)
  · exact hnone _ hq (List.prefix_append o _)

theorem placeOf_pathText (hne : q ≠ []) (h : ∀ n ∈ q, ProperName n) :
    placeOf (pathText (ofPlace q)) = q := by
  rw [placeOf, components_pathText hne h]
  simp [ofPlace, List.filterMap_map]

theorem plainName_pathText (hne : q ≠ []) (h : ∀ n ∈ q, ProperName n) :
    PlainName (pathText (ofPlace q)) := by
  refine ⟨isAbsolute_pathText hne h, ?_, ?_⟩ <;> rw [components_pathText hne h]
  · simpa [ofPlace] using hne
  · simp [ofPlace]

/-- The listed files have relative paths that are read back. -/
structure Relative (d : Disk) (s q : Place) : Prop where
  plain : PlainName (pathText (ofPlace q))
  place : placeOf (pathText (ofPlace q)) = q
  content : d.content (s ++ q) = some (contentAt d s (pathText (ofPlace q)))

theorem Lists.relative {files : List Place} (h : Lists d s files) (hd : d.Wf) (hnamed : d.Named)
    (hdir : d.node s = some .dir) (hq : q ∈ files) : Relative d s q := by
  have hsome := (h.2 q).1 hq
  have hne : q ≠ [] := by
    rintro rfl
    simp [Disk.content, hdir] at hsome
  have hnode : d.node (s ++ q) ≠ none := fun hnone => by simp [Disk.content, hnone] at hsome
  have hproper : ∀ n ∈ q, ProperName n := fun n hn =>
    hnamed.proper hnode hd n (List.mem_append_right s hn)
  have hplace := placeOf_pathText hne hproper
  refine ⟨plainName_pathText hne hproper, hplace, ?_⟩
  obtain ⟨c, hc⟩ := Option.isSome_iff_exists.1 hsome
  rw [contentAt, hplace, hc]
  rfl

theorem lockPath_eq (s o : Place) (version gameId : UInt64) (previous : Option UnixFs.Path) :
    lockPath ⟨⟨version, ofPlace s, ofPlace o⟩, gameId, previous⟩ = ofPlace (lockPlace o) := by
  rw [lockPath, join_name _ (by decide) (by decide) (by decide) (by decide), lockPlace,
    ofPlace_append]

theorem deltaPath_eq (s o : Place) (version gameId : UInt64) (previous : Option UnixFs.Path) :
    deltaPath ⟨⟨version, ofPlace s, ofPlace o⟩, gameId, previous⟩
      = ofPlace (deltaPlace o version) := by
  have hdigits : (toString version.toNat).toList = Nat.toDigits 10 version.toNat := by
    simp [Nat.toString_eq_repr, Nat.repr]
  have hlen : 5 ≤ (toString version.toNat ++ ".json").toList.length := by
    simp [String.toList_append]
  have hslash : '/' ∉ (toString version.toNat ++ ".json").toList := by
    rw [String.toList_append, List.mem_append, not_or, hdigits]
    refine ⟨fun h => ?_, by decide⟩
    exact absurd (Nat.isDigit_of_mem_toDigits (by decide) (by decide) h) (by decide)
  rw [deltaPath, join_name _ hslash]
  · rw [deltaDir, join_name _ (by decide) (by decide) (by decide) (by decide), deltaPlace,
      List.append_assoc, ← ofPlace_append, ← ofPlace_append]
    rfl
  all_goals
    intro h
    rw [h] at hlen
    simp at hlen

end Names

section Produced

variable {tools : Tools} {d e : Disk} {s o : Place} {previous : Option Place}
  {version gameId : UInt64}

/-- The entries of the files that are listed below a directory. -/
def entriesOf (tools : Tools) (d : Disk) (s : Place) (files : List Place) : List FileEntry :=
  (relsOf files).map (entryOf tools.blake3 tools.cdc s (contentAt d s))

def treeOf (tools : Tools) (d : Disk) (s : Place) (files : List Place) : GameIndex :=
  .build tools.blake3 (entriesOf tools d s files)

/-- The index of the previous version is that of its directory, if it is one. -/
def PreviousIs (tools : Tools) (d : Disk) (previous : Option Place)
    (old : Option GameIndex) : Prop :=
  match previous with
  | none => old = none
  | some p => if d.node p = some .dir then ∃ files, Lists d p files
    ∧ old = some (treeOf tools d p files)
    else old = none

/-- Different chunks of the files have different hashes. -/
def PiecesApart (tools : Tools) (d : Disk) (s : Place) : Prop := ∀ files, Lists d s files →
  CollisionFree tools.blake3 tools.cdc s (contentAt d s) (relsOf files)

/-- What a run writes: the manifest of the tree, the differences from the previous version and the
data of every chunk. -/
structure Output (tools : Tools) (d d' : Disk) (s o : Place) (previous : Option Place)
    (version gameId : UInt64) (index : GameIndex) (plan : UpdatePlan) : Prop where
  tree : ∃ files, Lists d s files ∧ index = treeOf tools d s files
  compared : ∃ old, PreviousIs tools d previous old ∧ plan = .compute index old HashSet.empty
  manifest : d'.content (manifestPlace o version) = some index.encode
  delta : d'.content (deltaPlace o version)
    = some (tools.toVecPretty (deltaOf (configOf s o previous version gameId) plan))
  staged : ∀ files, Lists d s files →
    ∀ data ∈ (relsOf files).flatMap (piecesOf tools.cdc s (contentAt d s)),
      d'.content (blockPlace (stagePlace o) (tools.blake3 data)) = some data

/-- After the run nothing else has changed, and the lock is gone. -/
structure Produced (tools : Tools) (d d' : Disk) (s o : Place) (previous : Option Place)
    (version gameId : UInt64) (index : GameIndex) (plan : UpdatePlan) : Prop
    extends Output tools d d' s o previous version gameId index plan where
  others : ∀ q, ¬Touched o version index.chunkSet q → d'.node q = d.node q
  unlocked : d'.node (lockPlace o) = none

theorem exec_withLock {α : Type} {lock : UnixFs.Path} {place : Place} {body : FsIo α} {a : α}
    {d₁ d₂ d₃ : Disk} (hcreate : exec (createNewFile lock : FsIo Place) d = (.ok place, d₁))
    (hbody : exec body d₁ = (.ok a, d₂))
    (hremove : exec (removeFile lock : FsIo Unit) d₂ = (.ok (), d₃)) :
    exec (withLock lock body) d = (.ok a, d₃) := by
  rw [withLock, exec_bind, exec_context_ok hcreate]
  dsimp only
  rw [exec_bind, exec_attempt, hbody]
  dsimp only
  rw [exec_bind, exec_attempt, hremove]
  rfl

/-- Where two disks agree below a directory, the files below it are the same. -/
theorem Lists.congr {files : List Place} (h : Lists e s files)
    (hsame : ∀ q, e.node (s ++ q) = d.node (s ++ q)) : Lists d s files :=
  ⟨h.1, fun q => by rw [h.2, Disk.content_congr (hsame q)]⟩

/-- The previous version is read where it is. -/
theorem exec_previousIndex (he : e.Wf) (hnamed : d.Named) (hd : d.Wf)
    (hwalked : ∀ p ∈ previous, d.node p = some .dir → WalkedDir d p o version tools.stack)
    (hsame : ∀ p ∈ previous, ∀ q, e.node (p ++ q) = d.node (p ++ q)) :
    ∃ old e', exec (previousIndex tools (configOf s o previous version gameId)) e = (.ok old, e')
      ∧ PreviousIs tools d previous old ∧ SameNodes e e' := by
  rcases previous with _ | p
  · exact ⟨none, e, rfl, rfl, fun _ => rfl⟩
  have hself : e.node p = d.node p := by simpa using hsame p rfl []
  have hisDir : exec (isDir (ofPlace p) : FsIo Bool) e
      = (.ok (decide (d.node p = some .dir)), e) := by
    rw [exec_isDir, he.isDir_ofPlace, hself]
  unfold previousIndex PreviousIs
  dsimp only [configOf, Option.map_some]
  by_cases hdir : d.node p = some .dir
  swap
  · refine ⟨none, e, ?_, ?_, fun _ => rfl⟩
    · rw [exec_bind, hisDir, decide_eq_false hdir]
      rfl
    · rw [if_neg hdir]
  obtain ⟨files, hlist, hlists⟩ := exec_listFiles tools.iter he (hself.trans hdir)
    fun q hq => (hwalked p rfl hdir).shallow q (hsame p rfl q ▸ hq)
  have hlists' := hlists.congr (hsame p rfl)
  obtain ⟨e', hread, hsame'⟩ : ∃ e', exec (makeEntries tools.blake3 tools.cdc (ofPlace p) none
      (relsOf files) HashSet.empty []) e = (.ok (entriesOf tools d p files, HashSet.empty), e')
        ∧ SameNodes e e' := exec_compareEntries _ [] he fun rel hrel => by
    obtain ⟨q, hq, rfl⟩ := List.mem_map.1 hrel
    obtain ⟨hplain, hplace, hcontent⟩ := hlists'.relative hd hnamed hdir hq
    refine ⟨hplain, ?_⟩
    rw [hplace, Disk.content_congr (hsame p rfl q)]
    exact hcontent
  refine ⟨some (treeOf tools d p files), e', ?_, by rw [if_pos hdir]; exact ⟨files, hlists', rfl⟩,
    hsame'⟩
  have hrels : (files.map ofPlace).map pathText = relsOf files := by
    rw [List.map_map]
    rfl
  rw [exec_bind, hisDir, decide_eq_true hdir]
  dsimp only
  rw [if_pos rfl, exec_bind, hlist]
  dsimp only
  rw [hrels, exec_bind, hread]
  rfl

/-- The output directory is there and locked, and nothing else is changed. -/
structure Locked (d d' : Disk) (o : Place) : Prop where
  wf : d'.Wf
  dir : d'.node o = some .dir
  lock : d'.content (lockPlace o) = some []
  others : ∀ q, ¬ q <+: o → q ≠ lockPlace o → d'.node q = d.node q

theorem exec_lock (h : Site d s o previous version tools.stack) :
    ∃ d₁ d', exec (createDirAll (ofPlace o) : FsIo Unit) d = (.ok (), d₁)
      ∧ exec (createNewFile (ofPlace (lockPlace o)) : FsIo Place) d₁ = (.ok (lockPlace o), d')
      ∧ Locked d d' o := by
  obtain ⟨d₁, hrun₁, h₁⟩ := exec_createDirAll_made h.wf fun q hq =>
    h.ways "chunks" (by decide) q (hq.trans (List.prefix_append o _))
  have hdir : d₁.node o = some .dir := by rw [h₁.node, if_pos (List.prefix_refl o)]
  have hnone : d₁.node (lockPlace o) = none := by
    rw [h₁.node, if_neg (fun hpre => by simpa [lockPlace] using hpre.length_le), h.unlocked]
  have hnode : ∀ q, (d₁.put (lockPlace o) (.file []) .create).node q
      = if q = lockPlace o then some (.file []) else d₁.node q := fun q => Disk.node_put ..
  refine ⟨d₁, d₁.put (lockPlace o) (.file []) .create, hrun₁,
    exec_createNewFile (h₁.wf.find_below hdir) hnone, ?_, ?_, ?_, fun q hq hlock => ?_⟩
  · exact h₁.wf.of_update (n := ".producer.lock".toList) hdir (by rw [← lockPlace, hnone]; simp)
      fun q hq => (hnode q).trans (if_neg hq)
  · rw [hnode, if_neg (by simp [lockPlace]), hdir]
  · rw [Disk.content_eq_some, hnode, if_pos rfl]
  · rw [hnode, if_neg hlock, h₁.node, if_neg hq]

/-- What is spared is as it was. -/
theorem Locked.spared (h : Locked d e o) {p : Place} (hp : Spared o version p) (q : Place) :
    e.node (p ++ q) = d.node (p ++ q) := by
  obtain ⟨hlock, htouched⟩ := hp (p ++ q) (List.prefix_append p q)
  exact h.others _ (fun hpre => htouched [] (.inl ⟨"chunks", by decide,
    hpre.trans (List.prefix_append o _)⟩)) hlock

/-- A way to one of the directories is not the lock. -/
theorem not_lockPlace_above {q : Place} {sub : String} (hsub : sub ∈ subDirs)
    (hq : q <+: o ++ [sub.toList]) : q ≠ lockPlace o := by
  rintro rfl
  have heq := hq.eq_of_length (by simp [lockPlace])
  have hname := (List.cons.inj (List.append_cancel_left heq)).1
  simp only [subDirs, List.mem_cons, List.not_mem_nil, or_false] at hsub
  rcases hsub with rfl | rfl | rfl <;> exact absurd hname (by decide)

/-- The listed files are a source tree, once the output directory is locked. -/
theorem Locked.sourceTree (hlocked : Locked d e o) (h : Site d s o previous version tools.stack)
    {files : List Place} (hlists : Lists d s files) :
    SourceTree e s o version (relsOf files) (contentAt d s) := by
  have hsource := h.source
  -- what is deeper than the lock is as it was
  have hdeep : ∀ p, o.length + 1 < p.length → e.node p = d.node p := fun p hlen =>
    hlocked.others p (fun hpre => by have := hpre.length_le; omega) fun he => by
      rw [he] at hlen
      simp [lockPlace] at hlen
  refine ⟨hlocked.wf, ?_, fun rel hrel => ?_, fun rel hrel => ?_, fun sub hsub q hq => ?_,
    fun hash => ?_, ?_, fun hash rel _ he => ?_⟩
  · obtain ⟨q, hq⟩ := h.nonempty
    exact List.ne_nil_of_mem (List.mem_map_of_mem ((hlists.2 q).2 hq))
  · obtain ⟨q, hq, rfl⟩ := List.mem_map.1 hrel
    exact (hlists.relative h.wf h.named hsource.dir hq).plain
  · obtain ⟨q, hq, rfl⟩ := List.mem_map.1 hrel
    obtain ⟨-, hplace, hcontent⟩ := hlists.relative h.wf h.named hsource.dir hq
    rw [hplace, Disk.content_congr (hlocked.spared hsource.spared q)]
    exact hcontent
  · by_cases hpre : q <+: o
    · rw [Disk.content, hlocked.wf.dir_of_prefix_dir hlocked.dir hpre]
    · rw [Disk.content_congr (hlocked.others q hpre (not_lockPlace_above hsub hq))]
      exact h.ways sub hsub q hq
  · rw [hdeep _ (by simp [blockPlace, stagePlace])]
    exact h.blocks hash
  · rw [hdeep _ (by simp [manifestPlace])]
    exact h.manifest
  · exact (hsource.spared (s ++ placeOf rel) (List.prefix_append s _)).2 [hash]
      (.inr (.inl ⟨hash, List.mem_singleton_self hash, he.symm⟩))

theorem deltaPlace_ne_blockPlace (hash : Hash) :
    deltaPlace o version ≠ blockPlace (stagePlace o) hash := by
  rw [deltaPlace, blockPlace, stagePlace, List.append_assoc]
  intro he
  have := List.append_cancel_left he
  simp at this

theorem lockPlace_ne_blockPlace (hash : Hash) : lockPlace o ≠ blockPlace (stagePlace o) hash :=
  fun he => by simpa [lockPlace, blockPlace, stagePlace] using congrArg List.length he

theorem mem_chunkSet_treeOf {files : List Place} {hash : Hash} :
    hash ∈ (treeOf tools d s files).chunkSet
      ↔ ∃ data ∈ (relsOf files).flatMap (piecesOf tools.cdc s (contentAt d s)),
        tools.blake3 data = hash := by
  simp only [GameIndex.chunkSet, List.mem_dedup, GameIndex.chunkHashes, treeOf, GameIndex.build,
    entriesOf, List.mem_flatMap, List.mem_map]
  constructor
  · rintro ⟨f, ⟨rel, hrel, rfl⟩, c, hc, rfl⟩
    obtain ⟨data, hdata, rfl⟩ := List.mem_map.1 hc
    exact ⟨data, ⟨rel, hrel, hdata⟩, rfl⟩
  · rintro ⟨data, ⟨rel, hrel, hdata⟩, rfl⟩
    exact ⟨_, ⟨rel, hrel, rfl⟩, _, List.mem_map_of_mem hdata, rfl⟩

theorem exec_lockedRun (h : Site d s o previous version tools.stack)
    (hpieces : PiecesApart tools d s) (hlocked : Locked d e o) (gameId : UInt64) :
    ∃ index plan d', exec (lockedRun tools (configOf s o previous version gameId)) e
        = (.ok (index, plan), d')
      ∧ d'.Wf ∧ d'.node (lockPlace o) = some (.file [])
      ∧ Output tools d d' s o previous version gameId index plan
      ∧ ∀ q, q ≠ lockPlace o → ¬Touched o version index.chunkSet q → d'.node q = d.node q := by
  have hsame := hlocked.spared h.source.spared
  obtain ⟨files, hlist, hlists'⟩ := exec_listFiles tools.iter hlocked.wf
    (by simpa [h.source.dir] using hsame []) fun q hq => h.source.shallow q (hsame q ▸ hq)
  have hlists := hlists'.congr hsame
  obtain ⟨seen, d₁, hmake, hwf, hdelta, hmanifest, hstaged, hfar⟩ := exec_makeVersion tools gameId
    (previous.map ofPlace) (hlocked.sourceTree h hlists)
    fun data => bytesOf_blake3 (hpieces files hlists)
  have hout : ∀ q, q ≠ lockPlace o → ¬Touched o version (treeOf tools d s files).chunkSet q →
      d₁.node q = d.node q := fun q hlock hq => by
    have hways : ∀ sub ∈ subDirs, ¬ q <+: o ++ [sub.toList] := fun sub hsub hpre =>
      hq (.inl ⟨sub, hsub, hpre⟩)
    rw [hfar q hways (fun data hd he => hq (.inr (.inl ⟨_, mem_chunkSet_treeOf.2 ⟨data, hd, rfl⟩,
        he⟩))) fun he => hq (.inr (.inr (.inl he))),
      hlocked.others q (fun hpre => hways "chunks" (by decide)
        (hpre.trans (List.prefix_append o _))) hlock]
  obtain ⟨old, d₂, hprevious, hold, hsame₂⟩ : ∃ old d₂, exec (previousIndex tools
      (configOf s o previous version gameId)) d₁ = (.ok old, d₂)
        ∧ PreviousIs tools d previous old ∧ SameNodes d₁ d₂ :=
    exec_previousIndex hwf h.named h.wf h.previousWalked fun p hp q => by
      obtain ⟨hlock, htouched⟩ := h.previousSpared p hp (p ++ q) (List.prefix_append p q)
      exact hout _ hlock (htouched _)
  -- the list of differences is written
  have hplace : deltaPlace o version = (o ++ ["delta".toList])
      ++ [(toString version.toNat ++ ".json").toList] := by
    rw [deltaPlace, List.append_assoc]
    rfl
  have hlong : ∀ p, p.length ≤ o.length + 1 → ¬ deltaPlace o version <+: p := fun p hp hpre => by
    have := hpre.length_le
    simp [deltaPlace] at this
    omega
  have hfree : d₂.node (deltaPlace o version) ≠ some .dir := by
    rw [hsame₂, hfar _ (fun sub _ => hlong _ (by simp)) (fun _ _ => deltaPlace_ne_blockPlace _)
      (by simp [deltaPlace, manifestPlace]),
      hlocked.others _ (hlong _ (by simp)) (by simp [deltaPlace, lockPlace])]
    exact h.delta
  have hwf₂ : d₂.Wf := hwf.congr hsame₂
  have hdir : d₂.node (o ++ ["delta".toList]) = some .dir := (hsame₂ _).trans hdelta
  have hfind : d₂.find (ofPlace (deltaPlace o version)) = .ok (deltaPlace o version) := by
    rw [hplace]
    exact hwf₂.find_below hdir
  obtain ⟨d₃, hwrite, hnode⟩ := exec_writeFile (ε := AnyError) hfind hfree (tools.toVecPretty
    (deltaOf (configOf s o previous version gameId)
      (.compute (treeOf tools d s files) old HashSet.empty)))
  have hrest : ∀ q, q ≠ deltaPlace o version → d₃.node q = d₁.node q := fun q hq => by
    rw [hnode, if_neg hq, hsame₂]
  refine ⟨treeOf tools d s files, .compute (treeOf tools d s files) old HashSet.empty,
    d₃, ?_, ?_, ?_,
    ⟨⟨files, hlists, rfl⟩, ⟨old, hold, rfl⟩, ?_, ?_, fun files' hlists₁ data hd => ?_⟩,
    fun q hlock hq => ?_⟩
  · have hrels : (files.map ofPlace).map pathText = relsOf files := by
      rw [List.map_map]
      rfl
    have hmade : exec (makeVersion tools (configOf s o previous version gameId) (relsOf files)) e
        = (.ok (treeOf tools d s files, seen), d₁) := hmake
    have hfiles : exec (listFiles tools.iter tools.stack
        (configOf s o previous version gameId).sourceDir) e = (.ok (files.map ofPlace), e) := hlist
    have hpath : deltaPath (configOf s o previous version gameId)
        = ofPlace (deltaPlace o version) :=
      deltaPath_eq ..
    simp only [lockedRun, exec_bind, hfiles, hrels, hmade, hprevious, hpath, exec_context_ok hwrite]
    rfl
  · exact hwf₂.of_update (n := (toString version.toNat ++ ".json").toList) hdir (hplace ▸ hfree)
      fun q hq => by rw [hnode, if_neg (hplace ▸ hq)]
  · rw [hrest _ (by simp [deltaPlace, lockPlace]), hfar _ (fun sub hsub hpre =>
      not_lockPlace_above hsub hpre rfl) (fun _ _ => lockPlace_ne_blockPlace _)
      (by simp [lockPlace, manifestPlace])]
    exact Disk.content_eq_some.1 hlocked.lock
  · rw [Disk.content_congr (hrest _ (by simp [manifestPlace, deltaPlace])), hmanifest]
    rfl
  · rw [Disk.content_eq_some, hnode, if_pos rfl]
  · obtain rfl := hlists₁.unique hlists
    rw [Disk.content_congr (hrest _ fun he => deltaPlace_ne_blockPlace _ he.symm)]
    exact hstaged data hd
  · rw [hrest q fun he => hq (.inr (.inr (.inr he))), hout q hlock hq]

/-- A run without faults: whatever order the directories list their names in, the manifest is that
of all the files of the source directory. -/
theorem exec_runWithConfig (h : Site d s o previous version tools.stack)
    (hpieces : PiecesApart tools d s) (gameId : UInt64) :
    ∃ index plan d', exec (runWithConfig tools (configOf s o previous version gameId)) d
        = (.ok (index, plan), d')
      ∧ Produced tools d d' s o previous version gameId index plan := by
  obtain ⟨d₁, d₂, hrun₁, hrun₂, hlocked⟩ := exec_lock h
  obtain ⟨index, plan, d₃, hbody, hwf, hkept, hout, hothers⟩ :=
    exec_lockedRun h hpieces hlocked gameId
  have hremove := exec_removeFile (ε := AnyError) (hwf.find_ofPlace (by simp [hkept])) hkept
  have hrest : ∀ q, q ≠ lockPlace o → (d₃.del (lockPlace o)).node q = d₃.node q := fun q hq => by
    rw [Disk.node_del, if_neg hq]
  have hgone : (d₃.del (lockPlace o)).node (lockPlace o) = none := by rw [Disk.node_del, if_pos rfl]
  refine ⟨index, plan, d₃.del (lockPlace o), ?_, ⟨hout.tree, hout.compared, ?_, ?_,
    fun files hfiles data hd => ?_⟩, fun q hq => ?_, hgone⟩
  · have hconfig : (configOf s o previous version gameId).outputDir = ofPlace o := rfl
    unfold runWithConfig
    rw [hconfig, exec_bind, exec_context_ok hrun₁]
    dsimp only
    have hlock : lockPath (configOf s o previous version gameId) = ofPlace (lockPlace o) :=
      lockPath_eq ..
    rw [hlock]
    exact exec_withLock hrun₂ hbody hremove
  · rw [Disk.content_congr (hrest _ (by simp [manifestPlace, lockPlace])), hout.manifest]
  · rw [Disk.content_congr (hrest _ (by simp [deltaPlace, lockPlace])), hout.delta]
  · rw [Disk.content_congr (hrest _ fun he => lockPlace_ne_blockPlace _ he.symm)]
    exact hout.staged files hfiles data hd
  · by_cases hlock : q = lockPlace o
    · rw [hlock, hgone, h.unlocked]
    · rw [hrest q hlock, hothers q hlock hq]

/-- There is one index of the previous version. -/
theorem PreviousIs.unique {old old' : Option GameIndex} (h : PreviousIs tools d previous old)
    (h' : PreviousIs tools d previous old') : old = old' := by
  unfold PreviousIs at h h'
  rcases previous with _ | p
  · rw [h, h']
  · dsimp only at h h'
    split_ifs at h h'
    · obtain ⟨files, hfiles, rfl⟩ := h
      obtain ⟨files', hfiles', rfl⟩ := h'
      rw [hfiles.unique hfiles']
    · rw [h, h']

/-- In whatever orders the directories list their names, two runs make the same version and the same
plan, of all the files of the source directory. -/
theorem runWithConfig_anyOrder (iter : UnixFs.Path → IterOrder Name)
    (h : Site d s o previous version tools.stack) (hpieces : PiecesApart tools d s)
    (gameId : UInt64) : ∃ index plan d₁ d₂,
      exec (runWithConfig tools (configOf s o previous version gameId)) d = (.ok (index, plan), d₁)
      ∧ exec (runWithConfig { tools with iter := iter } (configOf s o previous version gameId)) d
        = (.ok (index, plan), d₂)
      ∧ Produced tools d d₁ s o previous version gameId index plan
      ∧ Produced tools d d₂ s o previous version gameId index plan := by
  obtain ⟨index, plan, d₁, hrun₁, h₁⟩ := exec_runWithConfig h hpieces gameId
  obtain ⟨index', plan', d₂, hrun₂, h₂⟩ :=
    @exec_runWithConfig { tools with iter := iter } d s o previous version h hpieces gameId
  obtain ⟨files, hfiles, rfl⟩ := h₁.tree
  obtain ⟨files', hfiles', rfl⟩ := h₂.tree
  obtain rfl := hfiles.unique hfiles'
  obtain ⟨old, hold, rfl⟩ := h₁.compared
  obtain ⟨old', hold', rfl⟩ := h₂.compared
  obtain rfl : old = old' := hold.unique hold'
  exact ⟨_, _, d₁, d₂, hrun₁, hrun₂, h₁, ⟨⟨⟨files, hfiles, rfl⟩, ⟨old, hold, rfl⟩, h₂.manifest,
    h₂.delta, h₂.staged⟩, h₂.others, h₂.unlocked⟩⟩

/-- A source directory whose names are as they should be is reproduced from the manifest and the
staged chunks, whatever the cuts, as long as the counts fit the manifest's fields. -/
theorem runWithConfig_reproduces (h : Site d s o previous version tools.stack) {files : List Place}
    (hlists : Lists d s files) (hnames : TreeNames ((relsOf files).map replaceBackslash))
    (hcuts : CutsFiles tools.cdc s (contentAt d s) (relsOf files))
    (hfree : CollisionFree tools.blake3 tools.cdc s (contentAt d s) (relsOf files))
    (hcounts : CountsFit tools.cdc s (contentAt d s) (relsOf files)) (gameId : UInt64) :
    Reproduces tools d s o previous version gameId (relsOf files) := by
  obtain ⟨index, plan, d₁, hrun, hproduced⟩ := exec_runWithConfig h
    (fun files' h' => h'.unique hlists ▸ hfree) gameId
  obtain ⟨files', hfiles', rfl⟩ := hproduced.tree
  obtain rfl := hfiles'.unique hlists
  refine ⟨_, d₁, hrun, _, _, hproduced.manifest, decode_tree hnames hcounts,
    fun d₂ g t iter hd₂ hg hout hstaged => ?_⟩
  have hdata : ∀ data ∈ (relsOf files').flatMap (piecesOf tools.cdc s (contentAt d s)), _ = data :=
    fun _ => bytesOf_blake3 hfree
  have hcontent : ∀ rel ∈ relsOf files', contentOf _ (entryOf tools.blake3 tools.cdc s
      (contentAt d s) rel) = contentAt d s rel := fun rel hrel =>
    contentOf_entryOf (hcuts rel hrel).1 fun data hd => hdata data
      (List.mem_flatMap.2 ⟨rel, hrel, hd⟩)
  have hready := ready_tree hnames hd₂ hg hout hcontent fun data hd => by
    rw [hstaged _ (mem_chunkSet_treeOf.2 ⟨data, hd, rfl⟩), hproduced.staged files' hlists data hd,
      hdata data hd]
  obtain ⟨summary, d₃, hmerge, hfailed, -, hinstalled⟩ :=
    updated_of_mergeable hready iter (mergeable_tree hnames hg)
  refine ⟨summary, d₃, hmerge, hfailed, fun q => ?_⟩
  rw [hinstalled.files]
  exact find?_entryOf hcontent q

end Produced

section Single

/-- A hash that tells the byte of the file from all else. -/
def treeHash (data : Bytes) : Hash := if data = [1] then .fill 1 else .fill 2

def singleTools : Tools where
  blake3 := treeHash
  cdc := singles
  iter := fun _ => .same
  stack := 2
  toVecPretty := fun _ => []

theorem site_single (content : Bytes) : Site (singleTree content) [['s']] [['o']] none 1 2 := by
  have hfree : ∀ p, 2 < p.length → (singleTree content).node p ≠ some .dir := fun p hp hdir => by
    rcases singleTree_node hdir with ⟨rfl, -⟩ | ⟨rfl, -⟩ | ⟨-, hn⟩
    · simp at hp
    · simp at hp
    · cases hn
  refine ⟨⟨rfl, fun p n hp => ?_⟩, fun p n hp => ?_, ⟨rfl, spared_of_apart (by decide) (by decide),
    fun q hq => ?_⟩, ⟨["b\\c".toList], rfl⟩, by simp, by simp, fun sub hsub q hq => ?_,
    fun hash => hfree _ (by simp [blockPlace, stagePlace]), hfree _ (by simp [manifestPlace]),
    hfree _ (by simp [deltaPlace]), rfl⟩
  · obtain ⟨node, hnode⟩ := Option.ne_none_iff_exists'.1 hp
    rcases singleTree_node hnode with ⟨he, -⟩ | ⟨he, -⟩ | ⟨he, -⟩
    · simp at he
    · obtain rfl : p = [] := (List.append_inj' (show p ++ _ = [] ++ _ from he) rfl).1
      rfl
    · obtain rfl : p = [['s']] := (List.append_inj' (show p ++ _ = [['s']] ++ _ from he) rfl).1
      rfl
  · obtain ⟨node, hnode⟩ := Option.ne_none_iff_exists'.1 hp
    rcases singleTree_node hnode with ⟨he, -⟩ | ⟨he, -⟩ | ⟨he, -⟩
    · simp at he
    · obtain rfl : n = ['s'] := by simpa using congrArg List.getLast? he
      unfold ProperName
      decide
    · obtain rfl : n = "b\\c".toList := by simpa using congrArg List.getLast? he
      unfold ProperName
      decide
  · rcases singleTree_node hq with ⟨he, -⟩ | ⟨he, -⟩ | ⟨-, hn⟩
    · simp at he
    · have := congrArg List.length he
      simp at this
      simp [this]
    · cases hn
  · rcases hc : (singleTree content).content q with _ | c
    · rfl
    rcases singleTree_node (Disk.content_eq_some.1 hc) with ⟨-, hn⟩ | ⟨-, hn⟩ | ⟨rfl, -⟩
    · cases hn
    · cases hn
    · simp at hq

theorem lists_single (content : Bytes) : Lists (singleTree content) [['s']] [["b\\c".toList]] := by
  refine ⟨List.pairwise_singleton _ _, fun q => ?_⟩
  rw [List.mem_singleton]
  refine ⟨by rintro rfl; rfl, fun h => ?_⟩
  obtain ⟨c, hc⟩ := Option.isSome_iff_exists.1 h
  rcases singleTree_node (Disk.content_eq_some.1 hc) with ⟨he, -⟩ | ⟨-, hn⟩ | ⟨he, -⟩
  · simp at he
  · cases hn
  · simpa using he

theorem piecesApart_single : PiecesApart singleTools (singleTree [1]) [['s']] := by
  intro files hfiles
  obtain rfl := hfiles.unique (lists_single [1])
  unfold CollisionFree
  decide

/-- The directories list their names in one order, and the other way round. -/
theorem runWithConfig_anyOrder_single : ∃ plan d₁ d₂,
    exec (runWithConfig singleTools (configOf [['s']] [['o']] none 1 7)) (singleTree [1])
      = (.ok (treeOf singleTools (singleTree [1]) [['s']] [["b\\c".toList]], plan), d₁)
    ∧ exec (runWithConfig { singleTools with iter := fun _ => ⟨List.reverse, List.reverse_perm⟩ }
        (configOf [['s']] [['o']] none 1 7)) (singleTree [1])
      = (.ok (treeOf singleTools (singleTree [1]) [['s']] [["b\\c".toList]], plan), d₂) := by
  obtain ⟨index, plan, d₁, d₂, hrun₁, hrun₂, h, -⟩ := runWithConfig_anyOrder
    (fun _ => ⟨List.reverse, List.reverse_perm⟩)
    (show Site _ _ _ _ _ singleTools.stack from site_single [1]) piecesApart_single 7
  obtain ⟨files, hfiles, rfl⟩ := h.tree
  obtain rfl := hfiles.unique (lists_single [1])
  exact ⟨plan, d₁, d₂, hrun₁, hrun₂⟩

/-- A tree of one file, `b\c`, of two chunks. -/
theorem runWithConfig_reproduces_single :
    Reproduces singleTools (singleTree [1, 2]) [['s']] [['o']] none 1 7 ["b\\c"] := by
  refine runWithConfig_reproduces (show Site _ _ _ _ _ singleTools.stack from site_single [1, 2])
    (lists_single [1, 2]) treeNames_single (cutsFiles_singles _ _ _) ?_ ⟨by decide, by decide⟩ 7
  unfold CollisionFree
  decide

theorem contentAt_single (content : Bytes) :
    contentAt (singleTree content) [['s']] "b\\c" = content := rfl

theorem collisionFree_replicate (n : ℕ) : CollisionFree treeHash singles [['s']]
    (contentAt (singleTree (List.replicate n 0)) [['s']]) ["b\\c"] := by
  intro a ha b hb _
  simp only [List.flatMap_cons, List.flatMap_nil, List.append_nil, piecesOf, singles,
    contentAt_single, List.mem_map, List.mem_replicate] at ha hb
  obtain ⟨x, ⟨-, rfl⟩, rfl⟩ := ha
  obtain ⟨y, ⟨-, rfl⟩, rfl⟩ := hb
  rfl

theorem not_reproduces_replicate {n : ℕ} (hn : n % 2 ^ 32 = 0) (hpos : 0 < n) :
    ¬ Reproduces singleTools (singleTree (List.replicate n 0)) [['s']] [['o']] none 1 7
      ["b\\c"] := by
  rintro ⟨made, d₁, hrun, manifest, index, hmanifest, hdecode, -⟩
  have hpieces : PiecesApart singleTools (singleTree (List.replicate n 0)) [['s']] := fun files h =>
    h.unique (lists_single _) ▸ collisionFree_replicate n
  obtain ⟨index₁, plan, d', hrun', hproduced⟩ := exec_runWithConfig
    (show Site _ _ _ _ _ singleTools.stack from site_single (List.replicate n 0)) hpieces 7
  obtain ⟨files, hfiles, rfl⟩ := hproduced.tree
  obtain rfl := hfiles.unique (lists_single _)
  rw [hrun', Prod.mk.injEq] at hrun
  rw [← hrun.2, hproduced.manifest, Option.some.injEq] at hmanifest
  rw [← hmanifest] at hdecode
  obtain ⟨f, hf⟩ : ∃ f, f = entryOf treeHash singles [['s']]
    (contentAt (singleTree (List.replicate n 0)) [['s']]) "b\\c" := ⟨_, rfl⟩
  have hlen : f.chunks.length = n := by
    rw [hf]
    simp [entryOf, piecesOf, singles, contentAt_single]
  have hname : (nameBytes f.name).length ≤ 65535 := by
    rw [hf]
    exact (by decide : (nameBytes (replaceBackslash "b\\c")).length ≤ 65535)
  have htree : treeOf singleTools (singleTree (List.replicate n 0)) [['s']] [["b\\c".toList]]
      = .build treeHash [f] := by
    rw [hf]
    rfl
  rw [htree] at hdecode
  refine decode_wrapped (fun hnil => ?_) (by rw [hlen, hn]) hname index hdecode
  rw [hnil] at hlen
  exact absurd hlen.symm (by simpa using Nat.pos_iff_ne_zero.1 hpos)

/-- A file of `2 ^ 32` chunks: the count in the manifest is zero, and the manifest is not
decoded. -/
theorem runWithConfig_count_wraps :
    ¬ ∀ {tools : Tools} {d : Disk} {s o : Place} {previous : Option Place} {version : UInt64}
      {files : List Place}, Site d s o previous version tools.stack → Lists d s files →
      TreeNames ((relsOf files).map replaceBackslash) →
      CutsFiles tools.cdc s (contentAt d s) (relsOf files) →
      CollisionFree tools.blake3 tools.cdc s (contentAt d s) (relsOf files) →
      ∀ gameId, Reproduces tools d s o previous version gameId (relsOf files) := fun hall =>
  not_reproduces_replicate (n := 2 ^ 32) (by norm_num) (by norm_num)
    (hall (show Site _ _ _ _ _ singleTools.stack from site_single _)
      (lists_single _) treeNames_single
      (cutsFiles_singles _ _ _) (collisionFree_replicate _) 7)

end Single

end Producer

end BlazeNet

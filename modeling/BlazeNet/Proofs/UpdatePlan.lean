import BlazeNet.UpdatePlan

/-!
# What an update plan says

The plan of two versions is their difference: the files only one of them has, the files both have
with different content, and the chunks of the new version that are nowhere yet, each once and
where it comes first.
-/

namespace BlazeNet

open RustStd

section Files

variable {files old new : List FileEntry} {f : FileEntry} {name : String}

theorem getFile_eq_some (hnodup : (files.map (·.name)).Nodup) :
    getFile files name = some f ↔ f ∈ files ∧ f.name = name := by
  unfold getFile
  constructor
  · intro h
    exact ⟨List.mem_reverse.1 (List.mem_of_find?_eq_some h), by simpa using List.find?_some h⟩
  · rintro ⟨hf, rfl⟩
    rcases hfind : files.reverse.find? fun f' => f'.name = f.name with _ | f'
    · have := List.find?_eq_none.1 hfind f (List.mem_reverse.2 hf)
      simp at this
    · have hname : f'.name = f.name := by simpa using List.find?_some hfind
      have hmem := List.mem_reverse.1 (List.mem_of_find?_eq_some hfind)
      exact hfind.trans (congrArg some (List.inj_on_of_nodup_map hnodup hmem hf hname))

theorem getFile_isNone : (getFile files name).isNone ↔ name ∉ files.map (·.name) := by
  rw [Option.isNone_iff_eq_none, getFile, List.find?_eq_none]
  simp

theorem mem_namesDifference :
    name ∈ namesDifference old new ↔ (∃ f ∈ old, f.name = name) ∧ ∀ f ∈ new, f.name ≠ name := by
  simp [namesDifference]

/-- The names only the old version has. -/
theorem namesDifference_eq (hnodup : (old.map (·.name)).Nodup) :
    namesDifference old new = (old.filter fun f => f.name ∉ new.map (·.name)).map (·.name) := by
  rw [namesDifference, hnodup.dedup, List.filter_map]
  rfl

theorem nodup_namesDifference : (namesDifference old new).Nodup := (List.nodup_dedup _).filter _

end Files

section Chunks

variable {present : Hash → Bool}

theorem firstMissing_sublist : ∀ (chunks : List ChunkMeta) (seen : List Hash),
    (firstMissing present chunks seen).Sublist chunks
  | [], _ => List.Sublist.refl _
  | x :: chunks, seen => by
    unfold firstMissing
    split_ifs
    · exact (firstMissing_sublist chunks seen).cons x
    · exact (firstMissing_sublist chunks _).cons_cons x

theorem mem_firstMissing {h : Hash} : ∀ (chunks : List ChunkMeta) (seen : List Hash),
    h ∈ (firstMissing present chunks seen).map (·.hash)
      ↔ h ∈ chunks.map (·.hash) ∧ present h = false ∧ h ∉ seen
  | [], _ => by simp [firstMissing]
  | x :: chunks, seen => by
    unfold firstMissing
    split_ifs with hx
    · rw [mem_firstMissing chunks seen, List.map_cons, List.mem_cons]
      refine and_congr_left fun ⟨hpresent, hseen⟩ => (or_iff_right ?_).symm
      rintro rfl
      rcases hx with hx | hx
      · rw [hpresent] at hx
        cases hx
      · exact hseen hx
    · rw [not_or, Bool.not_eq_true] at hx
      simp only [List.map_cons, List.mem_cons, mem_firstMissing chunks (x.hash :: seen), not_or]
      by_cases he : h = x.hash
      · subst he
        simp [hx]
      · simp [he]

/-- Each missing chunk is taken where its hash comes first. -/
theorem firstMissing_find? : ∀ (chunks : List ChunkMeta) (seen : List Hash),
    ∀ c ∈ firstMissing present chunks seen, chunks.find? (·.hash = c.hash) = some c
  | [], _, c, hc => by simp [firstMissing] at hc
  | x :: chunks, seen, c, hc => by
    have hfresh := (mem_firstMissing (x :: chunks) seen).1 (List.mem_map_of_mem hc)
    unfold firstMissing at hc
    split_ifs at hc with hx
    · have hne : x.hash ≠ c.hash := by
        rintro he
        rw [he, hfresh.2.1] at hx
        exact hx.elim (by simp) hfresh.2.2
      rw [List.find?_cons_of_neg (by simpa using hne)]
      exact firstMissing_find? chunks seen c hc
    · rcases List.mem_cons.1 hc with rfl | hc
      · exact List.find?_cons_of_pos (by simp)
      · have hseen := ((mem_firstMissing chunks _).1 (List.mem_map_of_mem hc)).2.2
        have hne : x.hash ≠ c.hash := fun he => hseen (he ▸ List.mem_cons_self)
        rw [List.find?_cons_of_neg (by simpa using hne)]
        exact firstMissing_find? chunks _ c hc

/-- The missing chunks stand in the order in which their hashes come first. -/
theorem firstMissing_ordered : ∀ (chunks : List ChunkMeta) (seen : List Hash),
    ((firstMissing present chunks seen).map (·.hash)).Pairwise fun h h' =>
      (chunks.map (·.hash)).idxOf h < (chunks.map (·.hash)).idxOf h'
  | [], _ => by simp [firstMissing]
  | x :: chunks, seen => by
    have hmem : ∀ h, h ∈ (firstMissing present (x :: chunks) seen).map (·.hash) →
        h ∈ (x :: chunks).map (·.hash) ∧ present h = false ∧ h ∉ seen :=
      fun h => (mem_firstMissing (x :: chunks) seen).1
    have hlater : ∀ l : List Hash, x.hash ∉ l →
        (l.Pairwise fun h h' => (chunks.map (·.hash)).idxOf h < (chunks.map (·.hash)).idxOf h') →
        l.Pairwise fun h h' =>
          ((x :: chunks).map (·.hash)).idxOf h < ((x :: chunks).map (·.hash)).idxOf h' := by
      intro l hx hl
      refine hl.imp_of_mem fun {h h'} hh hh' hlt => ?_
      have hne : x.hash ≠ h := fun he => hx (he ▸ hh)
      have hne' : x.hash ≠ h' := fun he => hx (he ▸ hh')
      rw [List.map_cons, List.idxOf_cons_ne _ hne, List.idxOf_cons_ne _ hne']
      omega
    unfold firstMissing at hmem ⊢
    split_ifs at hmem ⊢ with hx
    · refine hlater _ (fun hin => ?_) (firstMissing_ordered chunks seen)
      obtain ⟨-, hpresent, hseen⟩ := hmem x.hash hin
      rw [hpresent] at hx
      exact hx.elim (by simp) hseen
    · have hx' : x.hash ∉ (firstMissing present chunks (x.hash :: seen)).map (·.hash) := fun hin =>
        ((mem_firstMissing chunks _).1 hin).2.2 List.mem_cons_self
      refine List.pairwise_cons.2 ⟨fun h hh => ?_, hlater _ hx' (firstMissing_ordered chunks _)⟩
      have hne : x.hash ≠ h := fun he => hx' (he ▸ hh)
      rw [List.map_cons, List.idxOf_cons_self, List.idxOf_cons_ne _ hne]
      omega

end Chunks

/-- `plan` is the difference of the two versions: its files each in the order it lists them in, and
each chunk nobody has once, where it comes first. -/
structure PlansDifference (new : GameIndex) (old : Option GameIndex) (temp : HashSet Hash)
    (plan : UpdatePlan) : Prop where
  download : plan.filesToDownload
    = (new.files.filter fun f => f.name ∉ (filesOf old).map (·.name)).map (·.name)
  update : plan.filesToUpdate = (new.files.filter fun f =>
    ∃ prev ∈ filesOf old, prev.name = f.name ∧ prev.fileHash ≠ f.fileHash).map (·.name)
  delete : ∀ name, name ∈ plan.filesToDelete
    ↔ name ∈ (filesOf old).map (·.name) ∧ name ∉ new.files.map (·.name)
  deleteAscending : plan.filesToDelete.Pairwise (· < ·)
  chunks : ∀ h, h ∈ plan.chunksToDownload
    ↔ h ∈ new.chunkHashes ∧ h ∉ (filesOf old).flatMap (fun f => f.chunks.map (·.hash)) ∧ h ∉ temp
  chunksOnce : plan.chunksToDownload.Nodup
  chunksOrdered : plan.chunksToDownload.Pairwise fun h h' =>
    new.chunkHashes.idxOf h < new.chunkHashes.idxOf h'
  total : plan.downloadBytes = (plan.chunksToDownload.map fun h =>
    (((new.files.flatMap (·.chunks)).find? (·.hash = h)).map (·.len.toNat)).getD 0).sum

section Compute

variable {new : GameIndex} {old : Option GameIndex} {temp : HashSet Hash}

theorem chunkHashes_eq (index : GameIndex) :
    index.chunkHashes = (index.files.flatMap (·.chunks)).map (·.hash) := by
  rw [GameIndex.chunkHashes, List.map_flatMap]

theorem compute_chunks : (UpdatePlan.compute new old temp).chunksToDownload
    = (firstMissing (fun h => h ∈ (filesOf old).flatMap (fun f => f.chunks.map (·.hash)) ∨ h ∈ temp)
      (new.files.flatMap (·.chunks)) []).map (·.hash) := rfl

theorem mem_chunksToDownload {h : Hash} :
    h ∈ (UpdatePlan.compute new old temp).chunksToDownload ↔ h ∈ new.chunkHashes
      ∧ h ∉ (filesOf old).flatMap (fun f => f.chunks.map (·.hash)) ∧ h ∉ temp := by
  rw [compute_chunks, mem_firstMissing, chunkHashes_eq]
  simp

/-- A chunk of the new version that the old one does not have is in the temporary directory or
downloaded. -/
theorem temp_or_download {f : FileEntry} (hf : f ∈ new.files) {c : ChunkMeta} (hc : c ∈ f.chunks)
    (hold : c.hash ∉ (filesOf old).flatMap fun f => f.chunks.map (·.hash)) :
    c.hash ∈ temp.elems ∨ c.hash ∈ (UpdatePlan.compute new old temp).chunksToDownload := by
  by_cases htemp : c.hash ∈ temp
  · exact .inl htemp
  · have hhash : c.hash ∈ new.chunkHashes :=
      List.mem_flatMap.2 ⟨f, hf, List.mem_map_of_mem hc⟩
    exact .inr (mem_chunksToDownload.2 ⟨hhash, hold, htemp⟩)

/-- `compute` gives the difference of two versions. The old one must list no name twice: of two
entries of a name `compute` looks at the last. -/
theorem compute_plansDifference (hold : ((filesOf old).map (·.name)).Nodup) (temp : HashSet Hash) :
    PlansDifference new old temp (UpdatePlan.compute new old temp) where
  download := by
    simp only [UpdatePlan.compute]
    congr 1
    refine List.filter_congr fun f _ => ?_
    rw [Bool.eq_iff_iff, getFile_isNone, decide_eq_true_eq]
  update := by
    simp only [UpdatePlan.compute]
    congr 1
    refine List.filter_congr fun f _ => ?_
    rw [Bool.eq_iff_iff, decide_eq_true_eq]
    rcases hprev : getFile (filesOf old) f.name with _ | prev
    · have hnone := getFile_isNone.1 (by rw [hprev]; rfl)
      simp only [Bool.false_eq_true, false_iff, not_exists, not_and]
      intro prev hprev hname
      exact absurd (hname ▸ List.mem_map_of_mem hprev) hnone
    · have hsome : ∀ g, getFile (filesOf old) f.name = some g ↔ g ∈ filesOf old ∧ g.name = f.name :=
        fun g => getFile_eq_some hold
      simp only [hprev, Option.some.injEq] at hsome
      simp only [decide_eq_true_eq]
      constructor
      · intro hne
        exact ⟨prev, ((hsome prev).1 rfl).1, ((hsome prev).1 rfl).2, hne⟩
      · rintro ⟨g, hg, hname, hne⟩
        rwa [(hsome g).2 ⟨hg, hname⟩]
  delete name := by
    rw [UpdatePlan.compute, List.mem_mergeSort, mem_namesDifference]
    simp
  deleteAscending := by
    have hle : (UpdatePlan.compute new old temp).filesToDelete.Pairwise (· ≤ ·) :=
      List.pairwise_mergeSort' (· ≤ ·) _
    have hne : (UpdatePlan.compute new old temp).filesToDelete.Nodup :=
      (List.mergeSort_perm _ _).nodup_iff.2 nodup_namesDifference
    exact (hle.and hne).imp fun h => Std.lt_of_le_of_ne h.1 h.2
  chunks h := mem_chunksToDownload
  chunksOnce := by
    have hordered : (UpdatePlan.compute new old temp).chunksToDownload.Pairwise fun h h' =>
        new.chunkHashes.idxOf h < new.chunkHashes.idxOf h' := by
      rw [compute_chunks, chunkHashes_eq]
      exact firstMissing_ordered _ _
    refine hordered.imp fun {h h'} hlt he => ?_
    rw [he] at hlt
    exact lt_irrefl _ hlt
  chunksOrdered := by
    rw [compute_chunks, chunkHashes_eq]
    exact firstMissing_ordered _ _
  total := by
    rw [compute_chunks, List.map_map]
    simp only [UpdatePlan.compute]
    congr 1
    refine List.map_congr_left fun c hc => ?_
    simp only [Function.comp_apply]
    rw [firstMissing_find? _ _ c hc]
    rfl

/-- The bytes to download fit the source's `u64` for up to `2 ^ 32` chunks. -/
theorem downloadBytes_lt
    (h : (UpdatePlan.compute new old temp).chunksToDownload.length ≤ 2 ^ 32) :
    (UpdatePlan.compute new old temp).downloadBytes < 2 ^ 64 := by
  rw [compute_chunks, List.length_map] at h
  simp only [UpdatePlan.compute]
  refine lt_of_le_of_lt (List.sum_le_card_nsmul _ (2 ^ 32 - 1) fun n hn => ?_) ?_
  · obtain ⟨c, -, rfl⟩ := List.mem_map.1 hn
    have := c.len.toNat_lt
    omega
  · rw [List.length_map, smul_eq_mul]
    have := Nat.mul_le_mul_right (2 ^ 32 - 1) h
    omega

end Compute

/-- A file changes and shares a chunk with one that is new; another is gone. -/
theorem compute_plansDifference_two :
    PlansDifference
      ⟨1, [⟨"a", .fill 8, [⟨.fill 1, 10⟩, ⟨.fill 3, 30⟩]⟩, ⟨"c", .fill 7, [⟨.fill 3, 30⟩]⟩],
        .fill 0⟩
      (some ⟨1, [⟨"a", .fill 9, [⟨.fill 1, 10⟩]⟩, ⟨"b", .fill 6, [⟨.fill 2, 20⟩]⟩], .fill 0⟩)
      HashSet.empty
      (UpdatePlan.compute
        ⟨1, [⟨"a", .fill 8, [⟨.fill 1, 10⟩, ⟨.fill 3, 30⟩]⟩, ⟨"c", .fill 7, [⟨.fill 3, 30⟩]⟩],
          .fill 0⟩
        (some ⟨1, [⟨"a", .fill 9, [⟨.fill 1, 10⟩]⟩, ⟨"b", .fill 6, [⟨.fill 2, 20⟩]⟩], .fill 0⟩)
        HashSet.empty) :=
  compute_plansDifference (by decide) HashSet.empty

end BlazeNet

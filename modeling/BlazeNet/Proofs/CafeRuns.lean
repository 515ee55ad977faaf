import BlazeNet.CafeRuns
import BlazeNet.Proofs.CafeJobs
import BlazeNet.Proofs.CafeSaves
import BlazeNet.Proofs.MergeReport

/-!
# What a cafe has after its tasks

A file changes only where an entry of the attempted version has its place, and then it is gone or
hashes to what the entry says. So the files of the recorded version stay sound through tasks that
fail, and a task that returns well has verified every file: those it has written, and those it has
taken for unchanged (`careful_tasks_inPlace`).
-/

namespace BlazeNet

open Wire FaultIo Io RustStd UnixFs

section Names

variable {name : String} {f f' entry : FileEntry} {old new : List FileEntry}

theorem resolve_append_ofPlace (base : Path) (q : Place) :
    resolve (base ++ ofPlace q) = resolve base ++ q := by
  rw [resolve_append, foldl_climb_ofPlace]

theorem PlainName.join_append (h : PlainName name) (base : Path) :
    join base name = base ++ ofPlace (placeOf name) := by
  rw [join, h.1, h.components_eq]
  rfl

theorem resolve_joinPlain (h : PlainName name) (base : Path) :
    resolve (join base name) = resolve base ++ placeOf name := by
  rw [h.join_append, resolve_append_ofPlace]

theorem newPathOf_append (base : Path) {place : Place} (h : place ≠ []) :
    newPathOf (base ++ ofPlace place) = base ++ ofPlace (newOf place) := by
  rcases List.eq_nil_or_concat place with rfl | ⟨up, name, rfl⟩
  · exact absurd rfl h
  · simp [newPathOf, withExtension, newOf, ofPlace, -List.concat_eq_append]
    simp

theorem resolve_newPlain (h : PlainName name) (base : Path) :
    resolve (newPathOf (join base name)) = resolve base ++ newOf (placeOf name) := by
  rw [h.join_append, newPathOf_append base h.ne_nil, resolve_append_ofPlace]

namespace MergeNames

variable (h : MergeNames old new) (base : Path)
include h

theorem plain (hf : f ∈ old ++ new) : PlainName f.name := (h.normal f hf).plain

theorem resolve_inj (hf : f ∈ old ++ new) (hf' : f' ∈ old ++ new)
    (he : resolve (join base f.name) = resolve (join base f'.name)) : f.name = f'.name := by
  rw [resolve_joinPlain (h.plain hf), resolve_joinPlain (h.plain hf')] at he
  exact (h.normal f hf).eq_of_placeOf (h.normal f' hf') (List.append_cancel_left he)

theorem new_ne (he : entry ∈ new) (hf : f ∈ old ++ new) :
    resolve (join base f.name) ≠ resolve (newPathOf (join base entry.name)) := by
  rw [resolve_joinPlain (h.plain hf), resolve_newPlain (h.plain (List.mem_append_right _ he))]
  exact fun hp => h.newApart entry he f hf (List.append_cancel_left hp).symm

theorem apartAt (he : entry ∈ new) : NamesApart base entry (old ++ new) :=
  ⟨(h.new_ne base he (List.mem_append_right _ he)).symm, fun _ hf => h.new_ne base he hf⟩

end MergeNames

end Names

section Turned

variable {blake3 : Bytes → Hash} {gameDir tempDir : Path} {files old : List FileEntry}
  {entry : FileEntry}

/-- What a place can come to hold by the turns of these entries: anything at their temporary paths,
and at those of their files only what has the hash of the entry. -/
def TurnedAt (blake3 : Bytes → Hash) (gameDir : Path) (files : List FileEntry) (p : Place)
    (c : Option Bytes) : Prop :=
  (∃ f ∈ files, p = resolve (newPathOf (join gameDir f.name)))
    ∨ ∃ f ∈ files, p = resolve (join gameDir f.name) ∧ ∀ data ∈ c, blake3 data = f.fileHash

theorem turnedAt_new (he : entry ∈ files) (c : Option Bytes) :
    TurnedAt blake3 gameDir files (resolve (newPathOf (join gameDir entry.name))) c :=
  .inl ⟨entry, he, rfl⟩

theorem turnedAt_none (he : entry ∈ files) :
    TurnedAt blake3 gameDir files (resolve (join gameDir entry.name)) none :=
  .inr ⟨entry, he, rfl, fun _ h => by cases h⟩

variable (tempDir) (oldChunks : Option (List (Hash × ℕ × UInt32))) (oldFile : Option Path)
  (globalChunks : ChunkLocation)

/-- The new file is looked at before it takes the place of the old one. -/
theorem turned_writeNewFile (he : entry ∈ files)
    (hne : resolve (newPathOf (join gameDir entry.name)) ≠ resolve (join gameDir entry.name)) :
    Keeps (Becomes (TurnedAt blake3 gameDir files))
      (writeNewFile blake3 gameDir tempDir entry oldChunks oldFile globalChunks) := by
  intro S d
  rw [writeNewFile_eq, prepareTarget, bind_assoc]
  have hfill : AllowsFill (UnixFs.Within (· = resolve (newPathOf (join gameDir entry.name))))
      (join gameDir entry.name) := allowsFill_within rfl
  refine wp_bind (wp_mono (wp_and
    (hfill.assembleNew blake3 gameDir tempDir oldChunks oldFile globalChunks S d)
    (wpOk_assembleNew blake3 gameDir tempDir entry oldChunks oldFile globalChunks))
    fun r d₁ h => ?_)
  obtain ⟨hwithin, hdone⟩ := h
  have h₁ : Becomes (TurnedAt blake3 gameDir files) d d₁ :=
    hwithin.becomes fun p c hp => hp ▸ turnedAt_new he c
  rcases r with e | _
  · exact h₁
  obtain ⟨data, hhash, hc₁⟩ := hdone () rfl
  have hgone : Keeps (Becomes (TurnedAt blake3 gameDir files))
      (removeOld (join gameDir entry.name)) :=
    keeps_removeOld Becomes.frame (becomes_removeFile (turnedAt_none he))
  have hremove : Keeps (UnixFs.Within (· = resolve (join gameDir entry.name)))
      (removeOld (join gameDir entry.name)) :=
    keeps_removeOld UnixFs.Within.frame (within_removeFile rfl)
  refine wp_bind (wp_mono (wp_and (hgone S d₁) (hremove S d₁)) fun r d₂ h => ?_)
  have h₂ := Becomes.frame.trans _ _ _ h₁ h.1
  rcases r with e | _
  · exact h₂
  have hc₂ := (h.2.content _ hne).trans hc₁
  have hrename : wp S (renameFile (newPathOf (join gameDir entry.name)) (join gameDir entry.name)
      : FsIo Unit) d₂ fun _ d₃ => Becomes (TurnedAt blake3 gameDir files) d₂ d₃ := by
    refine becomes_renameFile hc₂ (turnedAt_new he _) (.inr ⟨entry, he, rfl, fun c hc => ?_⟩)
    rw [← Option.some.inj hc]
    exact hhash
  refine wp_onErr (wp_mono hrename fun r d₃ h₃ => ?_)
  have := Becomes.frame.trans _ _ _ h₂ h₃
  rcases r with (e | _) | _ <;> exact this

theorem turned_writeOrClean (he : entry ∈ files)
    (hne : resolve (newPathOf (join gameDir entry.name)) ≠ resolve (join gameDir entry.name)) :
    Keeps (Becomes (TurnedAt blake3 gameDir files))
      (writeOrClean blake3 gameDir tempDir entry oldChunks oldFile globalChunks) := by
  refine Becomes.frame.seq
    (turned_writeNewFile tempDir oldChunks oldFile globalChunks he hne).attempt fun r => ?_
  rcases r with err | _
  · exact Becomes.frame.seq (becomes_removeFile (turnedAt_new he _)).attempt fun _ =>
      Becomes.frame.pure _
  · exact Becomes.frame.pure _

theorem turned_mergeEntry (he : entry ∈ files) (hne : resolve (newPathOf (join gameDir entry.name))
      ≠ resolve (join gameDir entry.name)) (summary : MergeSummary) :
    Keeps (Becomes (TurnedAt blake3 gameDir files))
      (mergeEntry blake3 gameDir tempDir old summary entry) := by
  rw [mergeEntry_eq]
  refine Becomes.frame.seq (Becomes.frame.quiet quiet_isFile) fun there => ?_
  split_ifs
  · exact Becomes.frame.pure _
  · refine Becomes.frame.seq (turned_writeOrClean tempDir _ _ _ he hne) fun r => ?_
    rcases r with err | _ <;> exact Becomes.frame.pure _

theorem turned_mergeEntries (hne : ∀ f ∈ files, resolve (newPathOf (join gameDir f.name))
      ≠ resolve (join gameDir f.name)) : ∀ (entries : List FileEntry) (summary : MergeSummary),
    entries ⊆ files → Keeps (Becomes (TurnedAt blake3 gameDir files))
      (mergeEntries blake3 gameDir tempDir old entries summary)
  | [], _, _ => Becomes.frame.pure _
  | entry :: entries, summary, hsub => by
    have he : entry ∈ files := hsub List.mem_cons_self
    exact Becomes.frame.seq (turned_mergeEntry tempDir he (hne entry he) summary) fun _ =>
      turned_mergeEntries hne entries _ fun f hf => hsub (List.mem_cons_of_mem _ hf)

end Turned

section Verified

variable {blake3 : Bytes → Hash} {gameDir tempDir : Path} {old new : List FileEntry}
  {entry : FileEntry} {S : Fault AnyError → Prop} {d d' : Disk}

/-- What is taken for unchanged has not been changed. -/
def Trusted (blake3 : Bytes → Hash) (gameDir : Path) (old : List FileEntry) (entry : FileEntry)
    (d : Disk) : Prop :=
  ∀ prev ∈ old, prev.name = entry.name → prev.fileHash = entry.fileHash →
    ∀ data, d.content (resolve (join gameDir entry.name)) = some data →
      blake3 data = entry.fileHash

theorem VerifiedAt.congr (h : d'.content (resolve (join gameDir entry.name))
      = d.content (resolve (join gameDir entry.name))) :
    VerifiedAt blake3 gameDir entry d' ↔ VerifiedAt blake3 gameDir entry d := by
  rw [VerifiedAt, VerifiedAt, h]

theorem Trusted.congr (h : d'.content (resolve (join gameDir entry.name))
      = d.content (resolve (join gameDir entry.name))) (ht : Trusted blake3 gameDir old entry d) :
    Trusted blake3 gameDir old entry d' := fun prev hprev hname hhash data hdata =>
  ht prev hprev hname hhash data (h ▸ hdata)

theorem mem_of_getFile {prev : FileEntry} {name : String} (h : getFile old name = some prev) :
    prev ∈ old ∧ prev.name = name :=
  ⟨List.mem_reverse.1 (List.mem_of_find?_eq_some h), by simpa using List.find?_some h⟩

theorem wpOk_isFile {path : Path} : wpOk S (isFile path : FsIo Bool) d fun b d' =>
    d' = d ∧ (b = true → (d.content (resolve path)).isSome) := by
  have hstat : wp S (attempt (ask fun d => d.stat path) : FsIo (Except AnyError Node)) d fun r d' =>
      d' = d ∧ ∀ c, r = .ok (.ok (.file c)) → d.content (resolve path) = some c := by
    refine wp_attempt (wp_query ?_ (fun _ _ _ => ⟨rfl, by simp⟩) fun _ _ => ⟨rfl, by simp⟩)
    rcases hn : d.stat path with e | n <;> simp only [hn, Except.mapError]
    · exact ⟨trivial, by simp⟩
    refine ⟨trivial, fun c hc => ?_⟩
    obtain rfl : n = .file c := by simpa using hc
    unfold Disk.stat at hn
    rcases hf : d.find path with e | place <;> simp only [hf] at hn
    · cases hn
    obtain rfl := Disk.find_eq hf
    rcases hnode : d.node (resolve path) with _ | n <;> simp only [hnode] at hn
    · cases hn
    · cases hn
      exact Disk.content_eq_some.2 hnode
  refine wp_bind (wp_mono hstat fun r d' h => ?_)
  obtain ⟨rfl, hfile⟩ := h
  rcases r with e | e | c | _
  · exact fun _ he => by cases he
  · exact wpOk.pure ⟨rfl, by simp⟩
  · exact wpOk.pure ⟨rfl, fun _ => by rw [hfile c rfl]; rfl⟩
  · exact wpOk.pure ⟨rfl, by simp⟩

variable (tempDir) (hown : resolve (newPathOf (join gameDir entry.name))
  ≠ resolve (join gameDir entry.name))
include hown

theorem wpOk_writeOrClean (oldChunks : Option (List (Hash × ℕ × UInt32))) (oldFile : Option Path)
    (globalChunks : ChunkLocation) :
    wpOk S (writeOrClean blake3 gameDir tempDir entry oldChunks oldFile globalChunks) d fun r d' =>
      r = .ok () → VerifiedAt blake3 gameDir entry d' := by
  have hwrite := wpOk_writeNewFile (S := S) (d := d) blake3 tempDir oldChunks oldFile globalChunks
    hown
  refine wp_bind (wp_attempt (wp_mono hwrite fun r d₁ h => ?_))
  rcases r with (err | _) | u
  · have hclean : wpOk S (attempt (removeFile (newPathOf (join gameDir entry.name)) : FsIo Unit)) d₁
        fun _ _ => True := fun _ _ _ _ => trivial
    exact hclean.bind fun _ _ _ => wpOk.pure fun he => by cases he
  · exact fun _ he => by cases he
  · obtain ⟨data, hhash, hc⟩ := h u rfl
    exact wpOk.pure fun _ => ⟨data, hc, hhash⟩

/-- A turn that reports no failure leaves the file of its entry as the entry says. -/
theorem wpOk_mergeEntry (htrusted : Trusted blake3 gameDir old entry d) (summary : MergeSummary) :
    wpOk S (mergeEntry blake3 gameDir tempDir old summary entry) d fun summary' d' =>
      summary'.failed = [] → summary.failed = [] ∧ VerifiedAt blake3 gameDir entry d' := by
  rw [mergeEntry_eq]
  refine wpOk_isFile.bind fun there d₁ h => ?_
  obtain ⟨rfl, hthere⟩ := h
  cases hneed : needMerge old entry there
  · refine wpOk.pure fun hfailed => ⟨hfailed, ?_⟩
    -- the old entry has the hash, and the file is there
    unfold needMerge at hneed
    rcases hprev : getFile old entry.name with _ | prev <;> rw [hprev] at hneed
    · cases hneed
    obtain ⟨hsame, hb⟩ : prev.fileHash = entry.fileHash ∧ there = true := by simpa using hneed
    obtain ⟨data, hdata⟩ := Option.isSome_iff_exists.1 (hthere hb)
    obtain ⟨hmem, hname⟩ := mem_of_getFile hprev
    exact ⟨data, hdata, htrusted prev hmem hname hsame data hdata⟩
  · refine (wpOk_writeOrClean tempDir hown _ _ _).bind fun r d₂ h => ?_
    rcases r with err | _
    · exact wpOk.pure fun hfailed => by simp at hfailed
    · exact wpOk.pure fun hfailed => ⟨hfailed, h rfl⟩

end Verified

section Merged

variable {blake3 : Bytes → Hash} {gameDir tempDir : Path} {old new : List FileEntry}
  {S : Fault AnyError → Prop}

/-- The two places that the turn of an entry changes. -/
def EntryPlaces (gameDir : Path) (entry : FileEntry) (p : Place) : Prop :=
  p = resolve (newPathOf (join gameDir entry.name)) ∨ p = resolve (join gameDir entry.name)

theorem MergeNames.not_entryPlaces (h : MergeNames old new) {entry f : FileEntry} (he : entry ∈ new)
    (hf : f ∈ old ++ new) (hne : f.name ≠ entry.name) :
    ¬ EntryPlaces gameDir entry (resolve (join gameDir f.name)) := by
  rintro (hp | hp)
  · exact h.new_ne gameDir he hf hp
  · exact hne (h.resolve_inj gameDir hf (List.mem_append_right _ he) hp)

variable (blake3 gameDir tempDir old) in
theorem within_entryPlaces (entry : FileEntry) (summary : MergeSummary) :
    Keeps (UnixFs.Within (EntryPlaces gameDir entry))
      (mergeEntry blake3 gameDir tempDir old summary entry) :=
  (allowsMerge_within (.inl rfl) (.inr rfl)).mergeEntry blake3 gameDir tempDir old summary

variable (blake3 gameDir tempDir old) in
theorem within_mergeEntries (entries : List FileEntry) (summary : MergeSummary) :
    Keeps (UnixFs.Within fun p => ∃ f ∈ entries, EntryPlaces gameDir f p)
      (mergeEntries blake3 gameDir tempDir old entries summary) :=
  AllowsMerge.mergeEntries blake3 gameDir tempDir UnixFs.Within.frame old entries summary
    fun f hf => allowsMerge_within ⟨f, hf, .inl rfl⟩ ⟨f, hf, .inr rfl⟩

/-- The turns leave each other's files alone, so a loop that reports no failure has them all as
their entries say. -/
theorem wpOk_mergeEntries (hnames : MergeNames old new) : ∀ (entries : List FileEntry)
    (summary : MergeSummary) {d : Disk}, entries ⊆ new → (entries.map (·.name)).Nodup →
    (∀ f ∈ entries, Trusted blake3 gameDir old f d) →
    wpOk S (mergeEntries blake3 gameDir tempDir old entries summary) d fun summary' d' =>
      summary'.failed = [] → summary.failed = [] ∧ ∀ f ∈ entries, VerifiedAt blake3 gameDir f d'
  | [], _, _, _, _, _ => wpOk.pure fun hfailed => ⟨hfailed, by simp⟩
  | entry :: entries, summary, d, hsub, hnodup, htrusted => by
    have he : entry ∈ new := hsub List.mem_cons_self
    have hrest : entries ⊆ new := fun f hf => hsub (List.mem_cons_of_mem _ hf)
    rw [List.map_cons, List.nodup_cons] at hnodup
    obtain ⟨hfresh, hnodup⟩ := hnodup
    have hapart : ∀ f ∈ entries, f.name ≠ entry.name := fun f hf hn =>
      hfresh (List.mem_map.2 ⟨f, hf, hn⟩)
    have hentry := wp_and (within_entryPlaces blake3 gameDir tempDir old entry summary S d)
      (wpOk_mergeEntry tempDir (hnames.apartAt gameDir he).own (htrusted entry List.mem_cons_self)
        summary)
    refine wp_bind (wp_mono hentry fun r d₁ h => ?_)
    obtain ⟨hwithin, hturn⟩ := h
    rcases r with e | summary₁
    · exact fun _ he => by cases he
    have htrusted₁ : ∀ f ∈ entries, Trusted blake3 gameDir old f d₁ := fun f hf =>
      (htrusted f (List.mem_cons_of_mem _ hf)).congr (hwithin.content _ (hnames.not_entryPlaces he
        (List.mem_append_right _ (hrest hf)) (hapart f hf)))
    have hloop := wp_and (within_mergeEntries blake3 gameDir tempDir old entries summary₁ S d₁)
      (wpOk_mergeEntries hnames entries summary₁ hrest hnodup htrusted₁)
    refine wp_mono hloop fun r d₂ h summary₂ hr hfailed => ?_
    obtain ⟨hwithin₂, hdone⟩ := h
    obtain ⟨hfailed₁, hverified⟩ := hdone summary₂ hr hfailed
    obtain ⟨hfailed₀, hfirst⟩ := hturn summary₁ rfl hfailed₁
    refine ⟨hfailed₀, List.forall_mem_cons.2 ⟨(VerifiedAt.congr (hwithin₂.content _ ?_)).2 hfirst,
      hverified⟩⟩
    rintro ⟨f, hf, hp⟩
    exact hnames.not_entryPlaces (hrest hf) (List.mem_append_right _ he) (hapart f hf).symm hp

theorem wpOk_deleteFiles : ∀ (names : List String) (summary : MergeSummary) {d : Disk},
    wpOk S (deleteFiles gameDir names summary) d fun summary' _ => summary'.failed = summary.failed
  | [], _, _ => wpOk.pure rfl
  | name :: names, summary, d => by
    have hthere : wpOk S (pathExists (join gameDir name) : FsIo Bool) d fun _ _ => True :=
      fun _ _ _ _ => trivial
    refine hthere.bind fun there d₁ _ => ?_
    cases there
    · exact wpOk_deleteFiles names summary
    · have hgone : wpOk S (context "删除文件失败" (removeFile (join gameDir name)) : FsIo Unit) d₁
          fun _ _ => True := fun _ _ _ _ => trivial
      exact hgone.bind fun _ _ _ => wpOk_deleteFiles names _

variable (iter : IterOrder String) {index : GameIndex} {prior : Option GameIndex}

theorem mem_order_names {name : String}
    (h : name ∈ iter.order (namesDifference (filesOf prior) index.files)) :
    ∃ f ∈ filesOf prior, f.name = name ∧ ∀ f' ∈ index.files, f'.name ≠ name := by
  obtain ⟨⟨f, hf, hname⟩, hnew⟩ := mem_namesDifference.1 ((iter.perm _).mem_iff.1 h)
  exact ⟨f, hf, hname, hnew⟩

variable (tempDir) in
/-- A merge that reports no failure has every file of the version as its entry says. -/
theorem wpOk_mergeFiles (hnames : MergeNames (filesOf prior) index.files) {d : Disk}
    (htrusted : ∀ f ∈ index.files, Trusted blake3 gameDir (filesOf prior) f d) :
    wpOk S (mergeFiles blake3 gameDir tempDir iter index prior) d fun summary d' =>
      summary.failed = [] → ∀ f ∈ index.files, VerifiedAt blake3 gameDir f d' := by
  refine (wpOk_mergeEntries hnames index.files ⟨0, 0, []⟩ (List.Subset.refl _) hnames.nodupNew
    htrusted).bind fun summary d₁ h => ?_
  have hdelete : Keeps (UnixFs.Within fun p =>
        ∃ name ∈ iter.order (namesDifference (filesOf prior) index.files),
          p = resolve (join gameDir name))
      (deleteFiles gameDir (iter.order (namesDifference (filesOf prior) index.files)) summary) :=
    keeps_deleteFiles gameDir UnixFs.Within.frame _ _ fun name hname =>
      within_removeFile ⟨name, hname, rfl⟩
  refine wp_mono (wp_and (hdelete S d₁) (wpOk_deleteFiles _ summary)) fun r d₂ h₂ summary₂ hr
    hfailed f hf => ?_
  obtain ⟨hwithin, hkept⟩ := h₂
  have hverified := (h (hkept summary₂ hr ▸ hfailed)).2 f hf
  refine (VerifiedAt.congr (hwithin.content _ ?_)).2 hverified
  rintro ⟨name, hname, hp⟩
  obtain ⟨f', hf', rfl, hnew⟩ := mem_order_names iter hname
  exact hnew f hf (hnames.resolve_inj gameDir (List.mem_append_right _ hf)
    (List.mem_append_left _ hf') hp)

/-- The removal of an old file, besides the turns. -/
def MergedAt (blake3 : Bytes → Hash) (gameDir : Path) (old new : List FileEntry) (p : Place)
    (c : Option Bytes) : Prop :=
  TurnedAt blake3 gameDir new p c ∨ c = none ∧ ∃ f ∈ old, p = resolve (join gameDir f.name)

variable (blake3 gameDir tempDir) in
theorem merged_mergeFiles (hnames : MergeNames (filesOf prior) index.files) :
    Keeps (Becomes (MergedAt blake3 gameDir (filesOf prior) index.files))
      (mergeFiles blake3 gameDir tempDir iter index prior) := by
  have hentries : Keeps (Becomes (TurnedAt blake3 gameDir index.files))
      (mergeEntries blake3 gameDir tempDir (filesOf prior) index.files ⟨0, 0, []⟩) :=
    turned_mergeEntries tempDir (fun f hf => (hnames.apartAt gameDir hf).own) index.files _
      (List.Subset.refl _)
  refine Becomes.frame.seq (fun S d => wp_mono (hentries S d) fun _ _ h => h.mono fun _ _ => .inl)
    fun summary => keeps_deleteFiles gameDir Becomes.frame _ _ fun name hname => ?_
  obtain ⟨f, hf, rfl, -⟩ := mem_order_names iter hname
  exact becomes_removeFile (.inr ⟨rfl, f, hf, rfl⟩)

end Merged

section Apart

variable (dataDir : Path) (gameId : UInt64) {name : String}

theorem resolve_gameDir : resolve (gameDir dataDir gameId)
    = resolve dataDir ++ ["games".toList, (toString gameId.toNat).toList] := by
  rw [gameDir, join_toString, join_name _ (by decide) (by decide) (by decide) (by decide),
    List.append_assoc, ← resolve_append_ofPlace]
  rfl

theorem resolve_hidden (self : CafeStore) : resolve self.base
    = resolve self.dataDir ++ [".blazenet".toList] := by
  rw [CafeStore.base, join_name _ (by decide) (by decide) (by decide) (by decide),
    resolve_append_ofPlace]

theorem game_ne_hidden (self : CafeStore) (q q' : Place) :
    resolve (gameDir self.dataDir gameId) ++ q ≠ resolve self.base ++ q' := by
  rw [resolve_gameDir, resolve_hidden, List.append_assoc, List.append_assoc]
  intro h
  have := List.append_cancel_left h
  simp at this

theorem joined_ne_hidden (self : CafeStore) (h : PlainName name) (q : Place) :
    resolve (join (gameDir self.dataDir gameId) name) ≠ resolve self.base ++ q := by
  rw [resolve_joinPlain h]
  exact game_ne_hidden gameId self _ q

theorem new_ne_hidden (self : CafeStore) (h : PlainName name) (q : Place) :
    resolve (newPathOf (join (gameDir self.dataDir gameId) name)) ≠ resolve self.base ++ q := by
  rw [resolve_newPlain h]
  exact game_ne_hidden gameId self _ q

theorem resolve_tempBlock (self : CafeStore) (hash : Hash) :
    resolve (tempBlock (tempDir self.dataDir self.gameId) hash) = resolve self.base
      ++ ["temp".toList, self.gameName, (blockName hash).toList] := by
  rw [tempBlock_eq, tempDir_eq, List.append_assoc, ← resolve_base]
  rfl

/-- A manifest, or the pointer. -/
def CafeStore.RecordPlace (self : CafeStore) (p : Place) : Prop :=
  p = resolve (currentVersionPath self.dataDir self.gameId)
    ∨ ∃ version, p = resolve (self.manifestPath version)

theorem CafeStore.RecordPlace.eq {self : CafeStore} {p : Place} (h : self.RecordPlace p) :
    ∃ name, p = resolve self.base ++ ["manifests".toList, self.gameName, name] := by
  rcases h with rfl | ⟨version, rfl⟩
  · exact ⟨_, by rw [currentVersionPath_eq, resolve_base]⟩
  · exact ⟨_, by rw [manifestPath_eq, resolve_base]⟩

end Apart

section Recorded

variable {blake3 : Bytes → Hash} {dataDir : Path} {gameId version : UInt64} {d d' : Disk}
  {manifest : Bytes}

theorem versionFiles_ok {index : GameIndex} (h : GameIndex.decode blake3 manifest = .ok index) :
    versionFiles blake3 manifest = index.files := by rw [versionFiles, h]

/-- The recorded files by the two files that record them. -/
theorem recordedFiles_of (self : CafeStore) (hversion : self.storedVersion d = some version)
    (hmanifest : self.storedManifest version d = some manifest) :
    recordedFiles blake3 self.dataDir self.gameId d = versionFiles blake3 manifest := by
  have hversion' : (CafeStore.mk self.gameId self.dataDir none).storedVersion d = some version :=
    hversion
  have hmanifest' : (CafeStore.mk self.gameId self.dataDir none).storedManifest version d
    = some manifest := hmanifest
  simp only [recordedFiles, hversion', Option.bind_some, hmanifest']

theorem recordedFiles_congr (self : CafeStore)
    (hversion : self.storedVersion d' = self.storedVersion d)
    (hmanifest : ∀ version, self.storedVersion d = some version →
      self.storedManifest version d' = self.storedManifest version d) :
    recordedFiles blake3 self.dataDir self.gameId d'
      = recordedFiles blake3 self.dataDir self.gameId d := by
  have hversion' : (CafeStore.mk self.gameId self.dataDir none).storedVersion d'
    = (CafeStore.mk self.gameId self.dataDir none).storedVersion d := hversion
  simp only [recordedFiles, hversion']
  rcases hv : (CafeStore.mk self.gameId self.dataDir none).storedVersion d with _ | version
  · rfl
  · have hmanifest' : (CafeStore.mk self.gameId self.dataDir none).storedManifest version d'
      = (CafeStore.mk self.gameId self.dataDir none).storedManifest version d :=
        hmanifest version hv
    simp only [Option.bind_some, hmanifest']

theorem recordedFiles_of_places (self : CafeStore)
    (h : ∀ p, self.RecordPlace p → d'.content p = d.content p) :
    recordedFiles blake3 self.dataDir self.gameId d'
      = recordedFiles blake3 self.dataDir self.gameId d := by
  refine recordedFiles_congr self ?_ fun version _ => h _ (.inr ⟨version, rfl⟩)
  rw [CafeStore.storedVersion, CafeStore.storedVersion, h _ (.inl rfl)]

/-- A save that stops where it does no harm leaves the recorded files, or records those it saves. -/
theorem recorded_of_left {self : CafeStore} {stop : SaveStop}
    (h : self.Left version manifest d d' stop)
    (hsafe : self.StopSafe blake3 version manifest d stop) :
    recordedFiles blake3 self.dataDir self.gameId d'
      = recordedFiles blake3 self.dataDir self.gameId d
      ∨ recordedFiles blake3 self.dataDir self.gameId d' = versionFiles blake3 manifest := by
  have hsame : self.pointer d' = self.pointer d →
      (self.storedVersion d = some version →
        self.storedManifest version d' = self.storedManifest version d) →
      recordedFiles blake3 self.dataDir self.gameId d'
        = recordedFiles blake3 self.dataDir self.gameId d := fun hpointer hmanifest => by
    refine recordedFiles_congr self ?_ fun v hv => ?_
    · rw [storedVersion_eq, hpointer, storedVersion_eq]
    · by_cases hvv : v = version
      · exact hvv ▸ hmanifest (hvv ▸ hv)
      · exact h.others v hvv
  cases stop with
  | before => exact .inl (hsame h.files.1 fun _ => h.files.2)
  | manifest n =>
    obtain ⟨hpointer, hmanifest⟩ := h.files
    by_cases hcurrent : self.storedVersion d = some version
    · rcases hsafe hcurrent with hkept | ⟨hall, -⟩
      · exact .inl (hsame hpointer fun _ => hmanifest.trans hkept.symm)
      · refine .inr (recordedFiles_of self ?_ (hall ▸ hmanifest))
        rw [storedVersion_eq, hpointer]
        exact hcurrent
    · exact .inl (hsame hpointer fun hv => absurd hv hcurrent)
  | pointer n =>
    obtain ⟨hpointer, hmanifest⟩ := h.files
    obtain ⟨v, hv, hcase⟩ := hsafe
    have hstored : self.storedVersion d' = some v := by rw [storedVersion_eq, hpointer]; exact hv
    rcases hcase with ⟨rfl, -⟩ | ⟨hne, hold⟩
    · exact .inr (recordedFiles_of self hstored hmanifest)
    · refine .inl (recordedFiles_congr self (hstored.trans hold.symm) fun v' hv' => ?_)
      obtain rfl : v = v' := Option.some.inj (hold.symm.trans hv')
      exact h.others v hne
  | after =>
    obtain ⟨hpointer, hmanifest⟩ := h.files
    refine .inr (recordedFiles_of self ?_ hmanifest)
    rw [storedVersion_eq, hpointer]
    exact pointed_pointerBytes version

variable (blake3 version manifest) in
/-- A save changes only what records a version. -/
theorem within_saveManifest (self : CafeStore) :
    Keeps (UnixFs.Within self.RecordPlace) (self.saveManifest blake3 version manifest) := by
  refine UnixFs.Within.frame.seq (within_createDirAll.onErr _) fun _ =>
    UnixFs.Within.frame.seq ((within_writeFile (.inr ⟨version, rfl⟩) _).onErr _) fun _ =>
      UnixFs.Within.frame.seq ((within_writeFile (.inl rfl) _).onErr _) fun _ => ?_
  unfold CafeStore.setCurrent
  rcases GameIndex.decode blake3 manifest with e | index
  · exact UnixFs.Within.frame.stop _
  · exact UnixFs.Within.frame.pure _

end Recorded

section Prepared

variable {blake3 : Bytes → Hash} {dataDir : Path} {gameId : UInt64} {S : Fault AnyError → Prop}
  {d d' : Disk}

theorem readsNothing : AllowsReads (UnixFs.Within fun _ => False) :=
  ⟨UnixFs.Within.frame, fun _ => within_openFile, fun _ => within_readFile⟩

theorem wpOk_readFile {path : Path} : wpOk S (UnixFs.readFile path : FsIo Bytes) d fun bytes _ =>
    d.content (resolve path) = some bytes := by
  refine wpOk_sysAt fun bytes d' _ hd => ?_
  rcases hn : d.node (resolve path) with _ | c | _ <;> simp only [hn] at hd <;> cases hd
  exact Disk.content_eq_some.2 hn

theorem within_currentVersion (self : CafeStore) :
    Keeps (UnixFs.Within fun _ => False) self.currentVersion := by
  refine readsNothing.seq (readsNothing.quiet quiet_isFile) fun there => ?_
  cases there
  · exact readsNothing.pure _
  · refine readsNothing.seq ((readsNothing.reads _).onErr _) fun bytes => ?_
    rcases fromUtf8 bytes with _ | text
    · exact readsNothing.stop _
    · dsimp only
      rcases parseU64 (trim text.toList) with _ | version
      · exact readsNothing.stop _
      · exact readsNothing.pure _

theorem wpOk_currentVersion (self : CafeStore) : wpOk S self.currentVersion d fun found _ =>
    ∀ version, found = some version → self.storedVersion d = some version := by
  refine wpOk_isFile.bind fun there d₁ h => ?_
  obtain ⟨rfl, -⟩ := h
  cases there
  · exact wpOk.pure fun version h => by cases h
  · refine wpOk_readFile.onErr.bind fun bytes d₂ hbytes => ?_
    rcases htext : fromUtf8 bytes with _ | text
    · exact wpOk.stop _
    · dsimp only
      rcases hparse : parseU64 (trim text.toList) with _ | version
      · exact wpOk.stop _
      · refine wpOk.pure fun v hv => ?_
        rw [CafeStore.storedVersion, hbytes, Option.bind_some, pointed, htext, Option.bind_some,
          hparse, ← hv]

theorem within_currentManifestBytes (self : CafeStore) :
    Keeps (UnixFs.Within fun _ => False) self.currentManifestBytes := by
  refine readsNothing.seq (within_currentVersion self) fun version => ?_
  rcases version with _ | version
  · exact readsNothing.pure _
  · exact readsNothing.seq ((readsNothing.reads _).onErr _) fun _ => readsNothing.pure _

/-- The bytes of a manifest are those that the files record. -/
theorem wpOk_currentManifestBytes (self : CafeStore) :
    wpOk S self.currentManifestBytes d fun found _ => ∀ bytes, found = some bytes →
      ∃ version, self.storedVersion d = some version
        ∧ self.storedManifest version d = some bytes := by
  refine wp_bind (wp_mono (wp_and (within_currentVersion self S d) (wpOk_currentVersion self))
    fun r d₁ h => ?_)
  obtain ⟨hwithin, hversion⟩ := h
  rcases r with e | _ | version
  · exact fun _ h => by cases h
  · exact wpOk.pure fun _ h => by cases h
  · refine wpOk_readFile.onErr.bind fun bytes d₂ hbytes => wpOk.pure fun bytes' h => ?_
    obtain rfl : bytes = bytes' := Option.some.inj h
    exact ⟨version, hversion _ rfl version rfl, (hwithin.content _ id).symm.trans hbytes⟩

theorem wp_setCurrent (self : CafeStore) (manifest : Bytes) :
    wp S (self.setCurrent blake3 manifest) d fun r d' => d' = d
      ∧ ∀ store, r = .ok store → store.gameId = self.gameId ∧ store.dataDir = self.dataDir := by
  unfold CafeStore.setCurrent
  rcases GameIndex.decode blake3 manifest with e | index
  · exact wp_stop ⟨rfl, by simp⟩
  · exact wp_pure ⟨rfl, fun store h => by rw [← Except.ok.inj h]; exact ⟨rfl, rfl⟩⟩

/-- The store of this game. -/
def OfGame (dataDir : Path) (gameId : UInt64) (cafe : CafeStore) : Prop :=
  cafe.gameId = gameId ∧ cafe.dataDir = dataDir

theorem ensures_openStore : Ensures (UnixFs.Within fun _ => False) (OfGame dataDir gameId)
    (CafeStore.openStore blake3 dataDir gameId) := by
  have hmk : ∀ (text : String) (path : Path), Keeps (UnixFs.Within fun _ => False)
      (context text (createDirAll path) : FsIo Unit) := fun _ _ => within_createDirAll.onErr _
  refine fun S d => wp_bind (wp_mono (hmk _ _ S d) fun r d₁ h₁ => ?_)
  rcases r with e | _
  · exact ⟨h₁, by simp⟩
  refine wp_bind (wp_mono (hmk _ _ S d₁) fun r d₂ h₂ => ?_)
  have h₂ := readsNothing.trans _ _ _ h₁ h₂
  rcases r with e | _
  · exact ⟨h₂, by simp⟩
  refine wp_bind (wp_mono (within_currentManifestBytes _ S d₂) fun r d₃ h₃ => ?_)
  have h₃ := readsNothing.trans _ _ _ h₂ h₃
  rcases r with e | _ | bytes
  · exact ⟨h₃, by simp⟩
  · exact wp_pure ⟨h₃, fun store h => by rw [← Except.ok.inj h]; exact ⟨rfl, rfl⟩⟩
  · exact wp_mono (wp_setCurrent _ bytes) fun r d₄ h => ⟨h.1 ▸ h₃, h.2⟩

/-- What the plan starts from. -/
structure Planned (blake3 : Bytes → Hash) (d : Disk) (cafe : CafeStore) (ready : CafeReady) :
    Prop where
  store : ready.cafe = cafe
  old : filesOf ready.old = []
    ∨ filesOf ready.old = recordedFiles blake3 cafe.dataDir cafe.gameId d

theorem wp_decodeOld (found : Option Bytes) : wp S (decodeOld blake3 found) d fun r d' => d' = d
    ∧ ∀ old, r = .ok old → filesOf old = []
      ∨ ∃ bytes, found = some bytes ∧ filesOf old = versionFiles blake3 bytes := by
  unfold decodeOld
  rcases found with _ | bytes
  · exact wp_pure ⟨rfl, fun old h => .inl (by rw [← Except.ok.inj h]; rfl)⟩
  dsimp only
  rcases hdecode : GameIndex.decode blake3 bytes with e | index
  · exact wp_stop ⟨rfl, by simp⟩
  · refine wp_pure ⟨rfl, fun old h => .inr ⟨bytes, rfl, ?_⟩⟩
    rw [← Except.ok.inj h, versionFiles_ok hdecode]
    rfl

theorem quiet_repairChunks (gameDir : Path) : ∀ (files : List FileEntry) (repair : HashSet Hash),
    Quiet (repairChunks gameDir files repair)
  | [], _ => Quiet.pure _
  | entry :: entries, repair => Quiet.bind quiet_isFile fun there => by
    cases there
    · exact quiet_repairChunks gameDir entries _
    · exact quiet_repairChunks gameDir entries _

theorem wp_planCafe (index : GameIndex) (cafe : CafeStore) :
    wp S (planCafe blake3 dataDir gameId index cafe) d fun r d' =>
      UnixFs.Within (fun _ => False) d d'
        ∧ ∀ ready, r = .ok ready → Planned blake3 d cafe ready := by
  refine wp_bind (wp_mono (wp_and (within_currentManifestBytes cafe S d)
    (wpOk_currentManifestBytes cafe)) fun r d₁ h => ?_)
  obtain ⟨hwithin, hbytes⟩ := h
  rcases r with e | found
  · exact ⟨hwithin, by simp⟩
  refine wp_bind (wp_mono (wp_decodeOld found) fun r d₂ h => ?_)
  obtain ⟨rfl, hold⟩ := h
  rcases r with e | old
  · exact ⟨hwithin, by simp⟩
  refine wp_bind (wp_mono (quiet_collectTempHashes _ S d₂) fun r d₃ h => ?_)
  obtain rfl : d₃ = d₂ := h
  rcases r with e | temp
  · exact ⟨hwithin, by simp⟩
  refine wp_bind (wp_mono (quiet_repairChunks _ _ _ S d₃) fun r d₄ h => ?_)
  obtain rfl : d₄ = d₃ := h
  rcases r with e | repair
  · exact ⟨hwithin, by simp⟩
  refine wp_pure ⟨hwithin, fun ready hr => ?_⟩
  obtain rfl := Except.ok.inj hr
  refine ⟨rfl, (hold old rfl).imp_right ?_⟩
  rintro ⟨bytes, hfound, hfiles⟩
  obtain ⟨version, hversion, hmanifest⟩ := hbytes found rfl bytes hfound
  rw [hfiles, recordedFiles_of cafe hversion hmanifest]

variable {opened : Option CafeStore}

theorem wp_prepareCafe (hopened : ∀ cafe ∈ opened, OfGame dataDir gameId cafe) (index : GameIndex) :
    wp S (prepareCafe blake3 dataDir gameId opened index) d fun r d' =>
      UnixFs.Within (fun _ => False) d d'
        ∧ ∀ ready, r = .ok ready → OfGame dataDir gameId ready.cafe
        ∧ (filesOf ready.old = []
          ∨ filesOf ready.old = recordedFiles blake3 dataDir gameId d) := by
  have hmk : Keeps (UnixFs.Within fun _ => False)
      (context ("创建临时块目录失败: " ++ displayPath (tempDir dataDir gameId))
        (createDirAll (tempDir dataDir gameId)) : FsIo Unit) := within_createDirAll.onErr _
  refine wp_bind (wp_mono (hmk S d) fun r d₁ h₁ => ?_)
  rcases r with e | _
  · exact ⟨h₁, by simp⟩
  have hrest : ∀ p : FsIo CafeStore,
      Ensures (UnixFs.Within fun _ => False) (OfGame dataDir gameId) p →
      wp S (p >>= planCafe blake3 dataDir gameId index) d₁ fun r d' =>
        UnixFs.Within (fun _ => False) d d' ∧ ∀ ready, r = .ok ready →
          OfGame dataDir gameId ready.cafe ∧ (filesOf ready.old = []
            ∨ filesOf ready.old = recordedFiles blake3 dataDir gameId d) := fun p hp => by
    refine wp_bind (wp_mono (hp S d₁) fun r d₂ h => ?_)
    obtain ⟨h₂, hcafe⟩ := h
    have h₂ := readsNothing.trans _ _ _ h₁ h₂
    rcases r with e | cafe
    · exact ⟨h₂, by simp⟩
    obtain ⟨hid, hdir⟩ := hcafe cafe rfl
    refine wp_mono (wp_planCafe index cafe) fun r d₃ h => ⟨readsNothing.trans _ _ _ h₂ h.1,
      fun ready hr => ?_⟩
    obtain ⟨rfl, hold⟩ := h.2 ready hr
    refine ⟨⟨hid, hdir⟩, hold.imp_right fun h => h.trans ?_⟩
    rw [recordedFiles_of_places ready.cafe fun p _ => h₂.content p id, hid, hdir]
  rcases opened with _ | cafe
  · exact hrest _ ensures_openStore
  · refine hrest (pure cafe) fun S d => wp_pure ⟨readsNothing.refl d, fun c hc => ?_⟩
    exact Except.ok.inj hc ▸ hopened cafe rfl

end Prepared

section BeforeSave

variable {blake3 : Bytes → Hash} {dataDir : Path} {gameId : UInt64} {S : Fault AnyError → Prop}
  {d d' : Disk} {t : CafeTask} {index : GameIndex} {old new : List FileEntry}

/-- What a task does before its save: blocks come and go, and the game's files are merged. -/
def TaskAt (blake3 : Bytes → Hash) (dataDir : Path) (gameId : UInt64) (old new : List FileEntry)
    (p : Place) (c : Option Bytes) : Prop :=
  (∃ hash, p = resolve (tempBlock (tempDir dataDir gameId) hash))
    ∨ MergedAt blake3 (gameDir dataDir gameId) old new p c

theorem MergeNames.of_nil (h : MergeNames old new) : MergeNames [] new where
  normal f hf := h.normal f (List.mem_append_right _ hf)
  nodupOld := List.nodup_nil
  nodupNew := h.nodupNew
  newApart f hf f' hf' := h.newApart f hf f' (List.mem_append_right _ hf')

/-- The record of a version is out of the way. -/
theorem not_taskAt_record (self : CafeStore) (hnames : MergeNames old new) {p : Place}
    {c : Option Bytes} (hp : self.RecordPlace p) :
    ¬ TaskAt blake3 self.dataDir self.gameId old new p c := by
  obtain ⟨name, rfl⟩ := hp.eq
  rintro (⟨hash, hp⟩ | (⟨f, hf, hp⟩ | ⟨f, hf, hp, -⟩) | ⟨-, f, hf, hp⟩)
  · rw [resolve_tempBlock self] at hp
    have := List.append_cancel_left hp
    simp at this
  · exact new_ne_hidden self.gameId self (hnames.plain (List.mem_append_right _ hf)) _ hp.symm
  · exact joined_ne_hidden self.gameId self (hnames.plain (List.mem_append_right _ hf)) _ hp.symm
  · exact joined_ne_hidden self.gameId self (hnames.plain (List.mem_append_left _ hf)) _ hp.symm

theorem recordedFiles_of_becomes (hnames : MergeNames old new)
    (h : Becomes (TaskAt blake3 dataDir gameId old new) d d') :
    recordedFiles blake3 dataDir gameId d' = recordedFiles blake3 dataDir gameId d :=
  recordedFiles_of_places (⟨gameId, dataDir, none⟩ : CafeStore) fun p hp =>
    (h p).resolve_right (not_taskAt_record ⟨gameId, dataDir, none⟩ hnames hp)

/-- A file of one of the two versions is as it was, or gone, or as its new entry says. -/
theorem taskAt_file (hnames : MergeNames old new) {f : FileEntry} (hf : f ∈ old ++ new)
    {data : Bytes} (h : TaskAt blake3 dataDir gameId old new
      (resolve (join (gameDir dataDir gameId) f.name)) (some data)) :
    ∃ f' ∈ new, f'.name = f.name ∧ blake3 data = f'.fileHash := by
  rcases h with ⟨hash, hp⟩ | (⟨f', hf', hp⟩ | ⟨f', hf', hp, hdata⟩) | ⟨hnone, -⟩
  · have hblock := resolve_tempBlock (⟨gameId, dataDir, none⟩ : CafeStore) hash
    exact absurd (hp.trans hblock)
      (joined_ne_hidden gameId (⟨gameId, dataDir, none⟩ : CafeStore) (hnames.plain hf) _)
  · exact absurd hp (hnames.new_ne _ hf' hf)
  · refine ⟨f', hf', ?_, hdata data rfl⟩
    exact (hnames.resolve_inj _ hf (List.mem_append_right _ hf') hp).symm
  · cases hnone

variable (dataDir gameId) in
theorem keeps_cafeSink (hash : Hash) (data : Bytes) :
    Keeps (UnixFs.Within fun p => ∃ hash, p = resolve (tempBlock (tempDir dataDir gameId) hash))
      (cafeSink dataDir gameId hash data) := (within_writeFile ⟨hash, rfl⟩ data).onErr _

/-- Until the save only blocks and the files of the game change; and if it is reached, the files are
as the version says. -/
theorem wp_beforeSave (hnames : MergeNames (recordedFiles blake3 dataDir gameId d) index.files)
    (htrusted : ∀ f ∈ index.files, Trusted blake3 (gameDir dataDir gameId)
      (recordedFiles blake3 dataDir gameId d) f d) :
    wp S (t.beforeSave blake3 dataDir gameId index) d fun r d' =>
      Becomes (TaskAt blake3 dataDir gameId (recordedFiles blake3 dataDir gameId d) index.files)
        d d'
        ∧ ∀ cafe, r = .ok cafe → OfGame dataDir gameId cafe
          ∧ ∀ f ∈ index.files, VerifiedAt blake3 (gameDir dataDir gameId) f d' := by
  have hopened : ∀ cafe ∈ t.current.map (CafeStore.mk gameId dataDir ·),
      OfGame dataDir gameId cafe := fun cafe hcafe => by
    obtain ⟨current, -, rfl⟩ := Option.mem_map.1 hcafe
    exact ⟨rfl, rfl⟩
  refine wp_bind (wp_mono (wp_prepareCafe hopened index) fun r d₁ h => ?_)
  obtain ⟨hwithin, hready⟩ := h
  have h₁ : Becomes (TaskAt blake3 dataDir gameId (recordedFiles blake3 dataDir gameId d)
    index.files) d d₁ := hwithin.becomes fun _ _ => False.elim
  rcases r with e | ready
  · exact ⟨h₁, by simp⟩
  obtain ⟨hcafe, hold⟩ := hready ready rfl
  have hdownload := t.download.through UnixFs.Within.frame
    (keeps_cafeSink dataDir gameId) ready.missing
  refine wp_bind (wp_mono (hdownload S d₁) fun r d₂ hblocks => ?_)
  have h₂ := Becomes.frame.trans _ _ _ h₁
    (hblocks.becomes fun p c (hp : ∃ hash, p = _) => .inl hp)
  rcases r with e | _
  · exact ⟨h₂, by simp⟩
  -- the merge sees the recorded files, or none
  have hnames' : MergeNames (filesOf ready.old) index.files := by
    rcases hold with hold | hold <;> rw [hold]
    · exact hnames.of_nil
    · exact hnames
  have hprior : ∀ f ∈ filesOf ready.old, f ∈ recordedFiles blake3 dataDir gameId d := fun f hf => by
    rcases hold with hold | hold <;> rw [hold] at hf
    · cases hf
    · exact hf
  have htrusted' : ∀ f ∈ index.files,
      Trusted blake3 (gameDir dataDir gameId) (filesOf ready.old) f d₂ := by
    intro f hf
    have hplain := hnames.plain (List.mem_append_right _ hf)
    have hkept : d₂.content (resolve (join (gameDir dataDir gameId) f.name))
        = d.content (resolve (join (gameDir dataDir gameId) f.name)) := by
      refine (hblocks.content _ ?_).trans (hwithin.content _ id)
      rintro ⟨hash, hp⟩
      exact joined_ne_hidden gameId (⟨gameId, dataDir, none⟩ : CafeStore) hplain _
        (hp.trans (resolve_tempBlock (⟨gameId, dataDir, none⟩ : CafeStore) hash))
    exact fun prev hprev => (htrusted f hf).congr hkept prev (hprior prev hprev)
  have hmerge := wp_and (merged_mergeFiles blake3 (gameDir dataDir gameId)
    (tempDir dataDir gameId) t.iter hnames' S d₂)
    (wpOk_mergeFiles (tempDir dataDir gameId) t.iter hnames' htrusted')
  refine wp_bind (wp_mono hmerge fun r d₃ h => ?_)
  obtain ⟨hmerged, hverified⟩ := h
  have h₃ := Becomes.frame.trans _ _ _ h₂ (hmerged.mono fun p c hp => .inr <| hp.imp_right
    fun ⟨hc, f, hf, hp⟩ => ⟨hc, f, hprior f hf, hp⟩)
  rcases r with e | merge
  · exact ⟨h₃, by simp⟩
  dsimp only
  split_ifs with hfailed
  · exact wp_stop ⟨h₃, by simp⟩
  · refine wp_pure ⟨h₃, fun cafe hc => ?_⟩
    rw [← Except.ok.inj hc]
    exact ⟨hcafe, hverified merge rfl (not_not.1 hfailed)⟩

end BeforeSave

section Tasks

variable {blake3 : Bytes → Hash} {dataDir : Path} {gameId : UInt64} {h : CafeHistory} {t : CafeTask}
  {index : GameIndex} {d d' : Disk} {w w' : World AnyError Disk}

/-- The reports that follow a save. -/
def CafeTask.report (t : CafeTask) (index : GameIndex) (cafe : CafeStore) :
    FsIo (CafeStore × List Hash) :=
  match reportChunks (index.chunkSet.mergeSort hashLe) t.reports with
  | (.ok (), sent) => pure (cafe, sent)
  | (.error e, _) => stop (.err e)

theorem prog_eq (hdecode : GameIndex.decode blake3 t.manifest = .ok index) :
    t.prog blake3 dataDir gameId = (do
      let cafe ← t.beforeSave blake3 dataDir gameId index
      let cafe ← cafe.saveManifest blake3 t.version t.manifest
      t.report index cafe) := by
  simp only [CafeTask.prog, hdecode, runCafe, CafeTask.beforeSave, bind_assoc]
  refine bind_congr fun ready => bind_congr fun _ => bind_congr fun merge => ?_
  split_ifs
  · rfl
  · rw [pure_bind]
    rfl

variable (t index) in
theorem run_report (cafe : CafeStore) (w : World AnyError Disk) :
    ((t.report index cafe).run w).2 = w := by
  unfold CafeTask.report
  rcases reportChunks (index.chunkSet.mergeSort hashLe) t.reports with ⟨e | _, sent⟩ <;> rfl

/-- What a sound disk with these attempts becomes by a task that stops before its save. -/
theorem sound_beforeSave (hsound : h.Sound blake3 dataDir gameId)
    (hnames : MergeNames (recordedFiles blake3 dataDir gameId h.disk) index.files)
    (hb : Becomes (TaskAt blake3 dataDir gameId (recordedFiles blake3 dataDir gameId h.disk)
      index.files) h.disk d') :
    (CafeHistory.mk d' (h.attempts ++ [index.files])).Sound blake3 dataDir gameId := by
  intro f hf data hdata
  change f ∈ recordedFiles blake3 dataDir gameId d' at hf
  rw [recordedFiles_of_becomes hnames hb] at hf
  change d'.content _ = some data at hdata
  rcases hb (resolve (join (gameDir dataDir gameId) f.name)) with hsame | hq
  · rcases hsound f hf data (hsame ▸ hdata) with hhash | ⟨files, hfiles, hrest⟩
    · exact .inl hhash
    · exact .inr ⟨files, List.mem_append_left _ hfiles, hrest⟩
  · rw [hdata] at hq
    exact .inr ⟨index.files, by simp, taskAt_file hnames (List.mem_append_left _ hf) hq⟩

/-- A careful task takes for unchanged only what is. -/
theorem trusted_of_careful (hsound : h.Sound blake3 dataDir gameId)
    (hshares : ∀ f ∈ index.files, ∀ prev ∈ recordedFiles blake3 dataDir gameId h.disk,
      prev.name = f.name → prev.fileHash = f.fileHash →
        ∀ files ∈ h.attempts, ∀ f' ∈ files, f'.name = f.name → f'.fileHash = f.fileHash) :
    ∀ f ∈ index.files, Trusted blake3 (gameDir dataDir gameId)
      (recordedFiles blake3 dataDir gameId h.disk) f h.disk := by
  intro f hf prev hprev hname hhash data hdata
  rcases hsound prev hprev data (hname ▸ hdata) with hold | ⟨files, hfiles, f', hf', hname', hnew⟩
  · exact hold.trans hhash
  · exact hnew.trans (hshares f hf prev hprev hname hhash files hfiles f' hf' (hname'.trans hname))

/-- Where the save has begun, the recorded files stay sound, or those of the task are recorded and
verified. -/
theorem sound_save {cafe : CafeStore} (hcafe : OfGame dataDir gameId cafe)
    (hsound : (CafeHistory.mk d (h.attempts ++ [index.files])).Sound blake3 dataDir gameId)
    (hnames : MergeNames (recordedFiles blake3 dataDir gameId d) index.files)
    (hverified : ∀ f ∈ index.files, VerifiedAt blake3 (gameDir dataDir gameId) f d)
    (hwithin : UnixFs.Within cafe.RecordPlace d d')
    (hrecorded : recordedFiles blake3 dataDir gameId d' = recordedFiles blake3 dataDir gameId d
      ∨ recordedFiles blake3 dataDir gameId d' = index.files) :
    (CafeHistory.mk d' (h.attempts ++ [index.files])).Sound blake3 dataDir gameId
      ∧ ∀ f ∈ index.files, VerifiedAt blake3 (gameDir dataDir gameId) f d' := by
  obtain ⟨rfl, rfl⟩ := hcafe
  have hkept : ∀ f ∈ recordedFiles blake3 cafe.dataDir cafe.gameId d ++ index.files,
      d'.content (resolve (join (gameDir cafe.dataDir cafe.gameId) f.name))
        = d.content (resolve (join (gameDir cafe.dataDir cafe.gameId) f.name)) := by
    intro f hf
    refine hwithin.content _ fun hp => ?_
    obtain ⟨name, hp⟩ := hp.eq
    exact joined_ne_hidden cafe.gameId cafe (hnames.plain hf) _ hp
  have hverified' : ∀ f ∈ index.files, VerifiedAt blake3 (gameDir cafe.dataDir cafe.gameId) f d' :=
    fun f hf => (VerifiedAt.congr (hkept f (List.mem_append_right _ hf))).2 (hverified f hf)
  refine ⟨fun f hf data hdata => ?_, hverified'⟩
  change f ∈ recordedFiles blake3 cafe.dataDir cafe.gameId d' at hf
  change d'.content _ = some data at hdata
  rcases hrecorded with hsame | hnew
  · rw [hsame] at hf
    exact hsound f hf data ((hkept f (List.mem_append_left _ hf)) ▸ hdata)
  · rw [hnew] at hf
    obtain ⟨data', hdata', hhash⟩ := hverified' f hf
    exact .inl (Option.some.inj (hdata'.symm.trans hdata) ▸ hhash)

/-- A careful task leaves a sound disk, however it ends; if it returns well, its version is in
place. -/
theorem sound_step (hsound : h.Sound blake3 dataDir gameId)
    (hcareful : h.Careful blake3 dataDir gameId t) :
    (h.step blake3 dataDir gameId t).Sound blake3 dataDir gameId
      ∧ ∀ out, (t.run blake3 dataDir gameId h.disk).1 = .ok out →
        InPlace blake3 dataDir gameId t.version t.manifest
          (t.run blake3 dataDir gameId h.disk).2.state := by
  have hkeep :
      (CafeHistory.mk h.disk (h.attempts ++ [t.files blake3])).Sound blake3 dataDir gameId :=
    fun f hf data hdata => (hsound f hf data hdata).imp_right fun ⟨files, hfiles, hrest⟩ =>
      ⟨files, List.mem_append_left _ hfiles, hrest⟩
  rcases hdecode : GameIndex.decode blake3 t.manifest with e | index
  · have hrun : t.run blake3 dataDir gameId h.disk
        = (.error (.err (e.context "解析版本清单失败")), ⟨h.disk, t.faults⟩) := by
      rw [CafeTask.run, CafeTask.prog, hdecode]
      rfl
    simp only [CafeHistory.step, hrun]
    exact ⟨hkeep, by simp⟩
  have hfiles : t.files blake3 = index.files := versionFiles_ok hdecode
  have hnames := hcareful.names
  have hshares := hcareful.shares
  rw [hfiles] at hnames hshares
  have hbefore := wp_beforeSave (S := fun _ => True) (t := t) hnames
    (trusted_of_careful hsound hshares) t.faults fun _ _ => trivial
  have hstops := hcareful.saves index
  have hprog : t.run blake3 dataDir gameId h.disk = _ := congrArg
    (fun p : FsIo (CafeStore × List Hash) => p.run ⟨h.disk, t.faults⟩) (prog_eq hdecode)
  simp only [run_bind] at hprog
  rcases hb : (t.beforeSave blake3 dataDir gameId index).run ⟨h.disk, t.faults⟩
    with ⟨e | cafe, d₁, faults₁⟩ <;>
    rw [hb] at hbefore hprog
  · simp only [CafeHistory.step, hprog, hfiles]
    exact ⟨sound_beforeSave hsound hnames hbefore.1, by simp⟩
  obtain ⟨hbecomes, hready⟩ := hbefore
  obtain ⟨hcafe, hverified⟩ := hready cafe rfl
  have hsound₁ := sound_beforeSave hsound hnames hbecomes
  have hnames₁ := (recordedFiles_of_becomes hnames hbecomes).symm ▸ hnames
  obtain ⟨hleft, hok⟩ := left_saveManifest blake3 cafe t.version t.manifest ⟨d₁, faults₁⟩
  have hwithin := (within_saveManifest blake3 t.version t.manifest cafe).run d₁ faults₁
  have hrecorded := recorded_of_left hleft (hstops cafe _ hdecode hb)
  rw [hcafe.1, hcafe.2, versionFiles_ok hdecode] at hrecorded
  obtain ⟨hsound₂, hverified₂⟩ := sound_save hcafe hsound₁ hnames₁ hverified hwithin hrecorded
  dsimp only at hprog
  rcases hs : (cafe.saveManifest blake3 t.version t.manifest).run ⟨d₁, faults₁⟩
    with ⟨e | store, w₂⟩ <;>
    rw [hs] at hprog hsound₂ hverified₂ hleft hok
  · simp only [CafeHistory.step, hprog, hfiles]
    exact ⟨hsound₂, by simp⟩
  -- the save has returned, so the version is in place whatever the reports come to
  obtain ⟨hafter, -⟩ := hok.1 ⟨store, rfl⟩
  rw [hafter] at hleft
  obtain ⟨hpointer, hmanifest⟩ := hleft.files
  have hinPlace : InPlace blake3 dataDir gameId t.version t.manifest w₂.state := by
    obtain ⟨rfl, rfl⟩ := hcafe
    refine ⟨?_, hmanifest, versionFiles_ok hdecode ▸ hverified₂⟩
    change cafe.storedVersion w₂.state = some t.version
    rw [storedVersion_eq, hpointer]
    exact pointed_pointerBytes t.version
  have hreport := run_report t index store w₂
  dsimp only at hprog
  rcases hr : (t.report index store).run w₂ with ⟨e | out, w₃⟩ <;> rw [hr] at hprog hreport
  · obtain rfl : w₃ = w₂ := hreport
    simp only [CafeHistory.step, hprog, hfiles]
    exact ⟨hsound₂, by simp⟩
  · obtain rfl : w₃ = w₂ := hreport
    simp only [CafeHistory.step, hprog]
    refine ⟨fun f hf data hdata => ?_, fun _ _ => hinPlace⟩
    have hf' : f ∈ versionFiles blake3 t.manifest := by
      rw [← recordedFiles_of (CafeStore.mk gameId dataDir none) hinPlace.stored hinPlace.saved]
      exact hf
    obtain ⟨data', hdata', hhash⟩ := hinPlace.files f hf'
    exact .inl (Option.some.inj (hdata'.symm.trans hdata) ▸ hhash)

theorem sound_after : ∀ (tasks : List CafeTask) {h : CafeHistory},
    h.Sound blake3 dataDir gameId → h.CarefulRun blake3 dataDir gameId tasks →
      (h.after blake3 dataDir gameId tasks).Sound blake3 dataDir gameId
  | [], _, hsound, _ => hsound
  | _ :: tasks, _, hsound, hrun => sound_after tasks (sound_step hsound hrun.1).1 hrun.2

theorem CarefulRun.append : ∀ {done rest : List CafeTask} {h : CafeHistory},
    h.CarefulRun blake3 dataDir gameId (done ++ rest) →
      h.CarefulRun blake3 dataDir gameId done
        ∧ (h.after blake3 dataDir gameId done).CarefulRun blake3 dataDir gameId rest
  | [], _, _, hrun => ⟨trivial, hrun⟩
  | _ :: _, _, _, hrun =>
    have ⟨hdone, hrest⟩ := CarefulRun.append hrun.2
    ⟨⟨hrun.1, hdone⟩, hrest⟩

/-- Through any careful tasks, with any faults and deaths, each file of the recorded version that is
there is as that version says, or as one tried since says for its name; and after a task that
returns well its version is recorded and every file of it is there and hashes to what it says. -/
theorem careful_tasks_inPlace (blake3 : Bytes → Hash) (dataDir : Path) (gameId : UInt64) (d : Disk)
    (tasks : List CafeTask) (hsound : (CafeHistory.mk d []).Sound blake3 dataDir gameId)
    (hrun : (CafeHistory.mk d []).CarefulRun blake3 dataDir gameId tasks) :
    ∀ done rest, tasks = done ++ rest →
      ((CafeHistory.mk d []).after blake3 dataDir gameId done).Sound blake3 dataDir gameId
      ∧ ∀ t ∈ rest.head?, ∀ out, (t.run blake3 dataDir gameId
          ((CafeHistory.mk d []).after blake3 dataDir gameId done).disk).1 = .ok out →
        InPlace blake3 dataDir gameId t.version t.manifest
          ((CafeHistory.mk d []).after blake3 dataDir gameId (done ++ [t])).disk := by
  rintro done rest rfl
  obtain ⟨hdone, hrest⟩ := CarefulRun.append hrun
  have hnow := sound_after done hsound hdone
  refine ⟨hnow, fun t ht out hout => ?_⟩
  rcases rest with _ | ⟨t', rest⟩
  · cases ht
  obtain rfl : t' = t := Option.some.inj ht
  rw [CafeHistory.after, List.foldl_append]
  exact (sound_step hnow hrest.1).2 out hout

/-- The update of `cafeWithA` to a version of one file, under these faults. -/
def updateTo (version : UInt64) (name : String) (faults : List (Fault AnyError)) : CafeTask where
  version := version
  manifest := (versionOf name).encode
  current := none
  download := ⟨fun sink => each fun hash => sink hash [4, 5, 6], fun hK _ hsink missing =>
    hK.each (fun hash => hsink hash _) missing⟩
  iter := .same
  reports := []
  faults := faults

/-- The process dies while it puts `b.bin` together. -/
def interruptedUpdate : CafeTask := updateTo 2 "b.bin" (List.replicate 25 .none ++ [.kill 0])

theorem mergeNames_versionOf {name name' : String} (hname : NormalName name)
    (hname' : NormalName name')
    (h : newOf (placeOf name') ≠ placeOf name) (h' : newOf (placeOf name') ≠ placeOf name') :
    MergeNames (versionOf name).files (versionOf name').files where
  normal f hf := by
    obtain rfl | rfl : f = _ ∨ f = _ := by simpa [versionOf] using hf
    · exact hname
    · exact hname'
  nodupOld := by simp [versionOf]
  nodupNew := by simp [versionOf]
  newApart f hf f' hf' := by
    obtain rfl : f = _ := by simpa [versionOf] using hf
    obtain rfl | rfl : f' = _ ∨ f' = _ := by simpa [versionOf] using hf'
    · exact h
    · exact h'

/-- The cafe after that death. -/
def interrupted : CafeHistory :=
  (CafeHistory.mk cafeWithA []).step (fun _ => .fill 0) (components "/data") 1 interruptedUpdate

theorem decode_versionOf : GameIndex.decode (fun _ => .fill 0) (versionOf "b.bin").encode
      = .ok (versionOf "b.bin")
    ∧ GameIndex.decode (fun _ => .fill 0) (versionOf "c.bin").encode = .ok (versionOf "c.bin") := by
  decide +kernel

theorem normalNames_abc : NormalName "a.bin" ∧ NormalName "b.bin" ∧ NormalName "c.bin" := by
  unfold NormalName
  decide

theorem careful_interrupted : (CafeHistory.mk cafeWithA []).Careful (fun _ => .fill 0)
    (components "/data") 1 interruptedUpdate := by
  have hrecorded : recordedFiles (fun _ => .fill 0) (components "/data") 1 cafeWithA
    = (versionOf "a.bin").files := by decide +kernel
  have hstopped : ((interruptedUpdate.beforeSave (fun _ => .fill 0) (components "/data") 1
      (versionOf "b.bin")).run ⟨(CafeHistory.mk cafeWithA []).disk,
        interruptedUpdate.faults⟩).1.toBool = false := by decide +kernel
  refine ⟨?_, fun _ _ _ _ _ _ _ h => (List.not_mem_nil h).elim, fun index cafe w hindex hrun => ?_⟩
  · rw [hrecorded, show interruptedUpdate.files _ = _ from versionFiles_ok decode_versionOf.1]
    exact mergeNames_versionOf normalNames_abc.1 normalNames_abc.2.1 (by decide) (by decide)
  · obtain rfl := Except.ok.inj (hindex.symm.trans decode_versionOf.1)
    rw [hrun] at hstopped
    cases hstopped

/-- A task that comes to its save finishes it. -/
def savesWell (version : UInt64) (manifest : Bytes) :
    Except (Stop AnyError) CafeStore × World AnyError Disk → Bool
  | (.ok cafe, w) => cafe.saveStop version manifest w = .after
  | _ => true

theorem careful_afterInterrupted : interrupted.Careful (fun _ => .fill 0) (components "/data") 1
    (updateTo 3 "c.bin" []) := by
  have hrecorded : recordedFiles (fun _ => .fill 0) (components "/data") 1 interrupted.disk
    = (versionOf "a.bin").files := by decide +kernel
  have hfiles : (updateTo 3 "c.bin" []).files (fun _ => .fill 0) = (versionOf "c.bin").files :=
    versionFiles_ok decode_versionOf.2
  have hsaved : savesWell 3 (versionOf "c.bin").encode
      (((updateTo 3 "c.bin" []).beforeSave (fun _ => .fill 0) (components "/data") 1
        (versionOf "c.bin")).run ⟨interrupted.disk, (updateTo 3 "c.bin" []).faults⟩) = true := by
    decide +kernel
  refine ⟨?_, fun f hf prev hprev hname => ?_, fun index cafe w hindex hrun => ?_⟩
  · rw [hrecorded, hfiles]
    exact mergeNames_versionOf normalNames_abc.1 normalNames_abc.2.2 (by decide) (by decide)
  · rw [hfiles] at hf
    rw [hrecorded] at hprev
    obtain rfl : f = _ := by simpa [versionOf] using hf
    obtain rfl : prev = _ := by simpa [versionOf] using hprev
    exact absurd hname (by decide)
  · obtain rfl := Except.ok.inj (hindex.symm.trans decode_versionOf.2)
    rw [hrun] at hsaved
    have hstop : cafe.saveStop 3 (versionOf "c.bin").encode w = .after := of_decide_eq_true hsaved
    change cafe.StopSafe _ 3 (versionOf "c.bin").encode w.state
      (cafe.saveStop 3 (versionOf "c.bin").encode w)
    rw [hstop]
    exact ⟨_, decode_versionOf.2⟩

/-- The next task after that death gets its version in place. -/
theorem careful_tasks_inPlace_resumed :
    InPlace (fun _ => .fill 0) (components "/data") 1 3 (versionOf "c.bin").encode
      ((CafeHistory.mk cafeWithA []).after (fun _ => .fill 0) (components "/data") 1
        [interruptedUpdate, updateTo 3 "c.bin" []]).disk := by
  have hrecorded : recordedFiles (fun _ => .fill 0) (components "/data") 1 cafeWithA
    = (versionOf "a.bin").files := by decide +kernel
  have hsound : (CafeHistory.mk cafeWithA []).Sound (fun _ => .fill 0) (components "/data") 1 :=
    fun f hf data _ => by
      change f ∈ recordedFiles _ _ _ cafeWithA at hf
      rw [hrecorded] at hf
      obtain rfl : f = _ := by simpa [versionOf] using hf
      exact .inl rfl
  have hdone : ((updateTo 3 "c.bin" []).run (fun _ => .fill 0) (components "/data") 1
    interrupted.disk).1.toBool = true := by decide +kernel
  rcases hout : ((updateTo 3 "c.bin" []).run (fun _ => .fill 0) (components "/data") 1
    interrupted.disk).1 with e | out
  · rw [hout] at hdone
    cases hdone
  · exact (careful_tasks_inPlace (fun _ => .fill 0) (components "/data") 1 cafeWithA
      [interruptedUpdate, updateTo 3 "c.bin" []] hsound
      ⟨careful_interrupted, careful_afterInterrupted, trivial⟩
      [interruptedUpdate] [updateTo 3 "c.bin" []] rfl).2 _ rfl out hout

end Tasks

end BlazeNet

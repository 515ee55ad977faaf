import BlazeNet.Proofs.MergeStep

/-!
# When a merge turns the old version into the new

Files are replaced in the order of the new manifest. As long as every chunk that is reused from
another file is still where the old version had it the merge goes through; the first entry for
which it is not there fails or gets wrong bytes, and no later step repairs that.
-/

namespace BlazeNet

open Wire FaultIo Io RustStd UnixFs

variable {bytes : Hash → Bytes} {blake3 : Bytes → Hash}

section Loop

variable {g t : Place} {d d' : Disk} {entry : FileEntry} {summary : MergeSummary}
  {old : List FileEntry}

/-- The entry has to be put together, as the merge finds it. -/
def Wanting (d : Disk) (g : Place) (old : List FileEntry) (entry : FileEntry) : Prop :=
  NeedsMerge old entry ∨ d.content (targetOf g entry) = none

/-- An entry that needs no merge is passed over. -/
theorem exec_mergeEntry_skip (hplain : PlainName entry.name) (hd : d.Wf)
    (hneeds : ¬ Wanting d g old entry) (summary : MergeSummary) :
    exec (mergeEntry blake3 (ofPlace g) (ofPlace t) old summary entry) d = (.ok summary, d) := by
  have htarget : join (ofPlace g) entry.name = ofPlace (targetOf g entry) := hplain.join_eq
  rw [Wanting, not_or] at hneeds
  obtain ⟨c, hc⟩ := Option.ne_none_iff_exists'.1 hneeds.2
  unfold mergeEntry
  rw [htarget, exec_bind, exec_isFile, hd.isFile_ofPlace, hc]
  have hn := hneeds.1
  unfold NeedsMerge at hn
  rcases hprev : getFile old entry.name with _ | prev <;> rw [hprev] at hn
  · exact absurd trivial hn
  · simp only [ne_eq, not_not] at hn
    simp [hn]

/-- Another one is written. -/
theorem exec_mergeEntry (hplain : PlainName entry.name) (hd : d.Wf) (hneeds : Wanting d g old entry)
    (summary : MergeSummary) :
    exec (mergeEntry blake3 (ofPlace g) (ofPlace t) old summary entry) d
      = exec (do
        let r ← attempt (writeEntry blake3 g t old entry)
        match r with
        | .ok () => pure { summary with merged := summary.merged + 1 }
        | .error err => do
          let _ ← attempt (removeFile (newPathOf (ofPlace (targetOf g entry))) : FsIo Unit)
          pure { summary with failed := summary.failed ++ [entry.name ++ ": " ++ err.display] })
            d := by
  have htarget : join (ofPlace g) entry.name = ofPlace (targetOf g entry) := hplain.join_eq
  unfold mergeEntry writeEntry
  rw [htarget, exec_bind, exec_isFile, hd.isFile_ofPlace]
  unfold Wanting NeedsMerge at hneeds
  rcases hprev : getFile old entry.name with _ | prev <;> rw [hprev] at hneeds
  · rfl
  · have hcode : decide (prev.fileHash ≠ entry.fileHash
        ∨ (!(d.content (targetOf g entry)).isSome) = true) = true := by
      rw [decide_eq_true_eq]
      exact hneeds.imp id fun hnone => by rw [hnone]; rfl
    simp only [hcode]
    rfl

theorem exec_mergeEntry_ok (hplain : PlainName entry.name) (hd : d.Wf)
    (hneeds : Wanting d g old entry)
    (hw : exec (writeEntry blake3 g t old entry) d = (.ok (), d')) (summary : MergeSummary) :
    exec (mergeEntry blake3 (ofPlace g) (ofPlace t) old summary entry) d
      = (.ok { summary with merged := summary.merged + 1 }, d') := by
  rw [exec_mergeEntry hplain hd hneeds, exec_bind, exec_attempt, hw]
  rfl

theorem exec_mergeEntry_err (hplain : PlainName entry.name) (hd : d.Wf)
    (hneeds : Wanting d g old entry) {e : AnyError}
    (hw : exec (writeEntry blake3 g t old entry) d = (.error (.err e), d'))
    (summary : MergeSummary) :
    ∃ d'', exec (mergeEntry blake3 (ofPlace g) (ofPlace t) old summary entry) d
      = (.ok { summary with failed := summary.failed ++ [entry.name ++ ": " ++ e.display] },
        d'') := by
  rw [exec_mergeEntry hplain hd hneeds, exec_bind, exec_attempt, hw]
  dsimp only
  rw [exec_bind, exec_attempt]
  rcases exec_removeFile_cases (newPathOf (ofPlace (targetOf g entry))) d'
    with ⟨d'', hr⟩ | ⟨e', hr⟩ <;>
    rw [hr]
  · exact ⟨d'', rfl⟩
  · exact ⟨d', rfl⟩

/-- What has failed stays on the list. -/
theorem failed_mergeEntry {s : MergeSummary}
    (hr : exec (mergeEntry blake3 (ofPlace g) (ofPlace t) old summary entry) d = (.ok s, d')) :
    summary.failed <+: s.failed := by
  have hpure : ∀ {s₀ : MergeSummary}
    {d₁ : Disk}, exec (pure s₀ : FsIo MergeSummary) d₁ = (.ok s, d') →
      s = s₀ := fun h => by
    rw [exec_pure, Prod.mk.injEq, Except.ok.injEq] at h
    exact h.1.symm
  unfold mergeEntry at hr
  obtain ⟨_, _, -, hr⟩ := exec_bind_ok hr
  dsimp only at hr
  split_ifs at hr
  · rw [hpure hr]
  · obtain ⟨r, _, -, hr⟩ := exec_bind_ok hr
    rcases r with err | _
    · obtain ⟨_, _, -, hr⟩ := exec_bind_ok hr
      rw [hpure hr]
      exact List.prefix_append _ _
    · rw [hpure hr]

theorem failed_mergeEntries : ∀ (entries : List FileEntry) {summary s : MergeSummary} {d d' : Disk},
    exec (mergeEntries blake3 (ofPlace g) (ofPlace t) old entries summary) d = (.ok s, d') →
      summary.failed <+: s.failed
  | [], _, _, _, _, hr => by
    rw [mergeEntries, exec_pure, Prod.mk.injEq, Except.ok.injEq] at hr
    rw [hr.1]
  | _ :: entries, _, _, _, _, hr => by
    obtain ⟨_, _, hentry, hr⟩ := exec_bind_ok hr
    exact (failed_mergeEntry hentry).trans (failed_mergeEntries entries hr)

theorem failed_deleteFiles : ∀ (names : List String) {summary s : MergeSummary} {d d' : Disk},
    exec (deleteFiles (ofPlace g) names summary) d = (.ok s, d') → s.failed = summary.failed
  | [], _, _, _, _, hr => by
    rw [deleteFiles, exec_pure, Prod.mk.injEq, Except.ok.injEq] at hr
    rw [hr.1]
  | _ :: names, summary, _, _, _, hr => by
    obtain ⟨b, _, -, hr⟩ := exec_bind_ok hr
    cases b
    · exact failed_deleteFiles names hr
    · obtain ⟨_, _, -, hr⟩ := exec_bind_ok hr
      exact (failed_deleteFiles names hr).trans rfl

/-- The file at a place is gone. -/
structure Gone (place : Place) (d d' : Disk) : Prop where
  wf : d'.Wf
  node : ∀ p, d'.node p = if p = place then none else d.node p

theorem exec_deleteFiles_cons {name : String} (hplain : PlainName name) (hd : d.Wf)
    (hnode : d.node (g ++ placeOf name) ≠ some .dir) (names : List String)
    (summary : MergeSummary) :
    ∃ summary' d', Gone (g ++ placeOf name) d d'
      ∧ exec (deleteFiles (ofPlace g) (name :: names) summary) d
        = exec (deleteFiles (ofPlace g) names summary') d' := by
  simp only [deleteFiles, hplain.join_eq, exec_bind, exec_pathExists, hd.pathExists_ofPlace]
  rcases hn : d.node (g ++ placeOf name) with _ | c | _
  · refine ⟨summary, d, ⟨hd, fun p => ?_⟩, ?_⟩
    · split_ifs with hp
      · rw [hp, hn]
      · rfl
    · rfl
  · have hrm : exec (context "删除文件失败" (removeFile (ofPlace (g ++ placeOf name)) : FsIo Unit)) d
        = (.ok (), d.del (g ++ placeOf name)) :=
      exec_context_ok (exec_removeFile (hd.find_ofPlace (by simp [hn])) hn)
    have hdel : ∀ p, (d.del (g ++ placeOf name)).node p
        = if p = g ++ placeOf name then none else d.node p := fun p => d.node_del _ p
    refine ⟨{ summary with deleted := summary.deleted + 1 }, d.del (g ++ placeOf name),
      ⟨?_, hdel⟩, ?_⟩
    · obtain ⟨up, last, hsplit⟩ : ∃ up last, g ++ placeOf name = up ++ [last] := by
        have hne : g ++ placeOf name ≠ [] := by simp [hplain.ne_nil]
        exact ⟨_, _, (List.dropLast_append_getLast hne).symm⟩
      rw [hsplit] at hn hdel ⊢
      exact hd.of_update (n := last) (hd.parent up last (by simp [hn])) (by simp [hn])
        fun q hq => by rw [hdel, if_neg hq]
    · simp only [Option.isSome_some, if_true, exec_bind, hrm]
  · exact absurd hn hnode

/-- Names that are no directories are removed, and nothing else. -/
theorem exec_deleteFiles : ∀ (names : List String) (summary : MergeSummary) {d : Disk}, d.Wf →
    (∀ name ∈ names, PlainName name ∧ d.node (g ++ placeOf name) ≠ some .dir) →
    ∃ s d', exec (deleteFiles (ofPlace g) names summary) d = (.ok s, d')
      ∧ ∀ p, d'.node p = if p ∈ names.map (fun n => g ++ placeOf n) then none else d.node p
  | [], summary, d, _, _ => ⟨summary, d, rfl, by simp⟩
  | name :: names, summary, d, hd, h => by
    obtain ⟨hplain, hnode⟩ := h name List.mem_cons_self
    obtain ⟨summary', d₁, hgone, hrun⟩ := exec_deleteFiles_cons hplain hd hnode names summary
    obtain ⟨s, d', hrest, hnodes⟩ := exec_deleteFiles names summary' hgone.wf fun n hn => by
      obtain ⟨hplain', hnode'⟩ := h n (List.mem_cons_of_mem name hn)
      refine ⟨hplain', ?_⟩
      rw [hgone.node]
      split_ifs
      · simp
      · exact hnode'
    refine ⟨s, d', hrun.trans hrest, fun p => ?_⟩
    rw [hnodes, hgone.node, List.map_cons]
    by_cases hp : p = g ++ placeOf name
    · rw [if_pos hp, ite_self, if_pos (List.mem_cons.2 (.inl hp))]
    · rw [if_neg hp]
      exact if_congr (by rw [List.mem_cons, or_iff_right hp]) rfl rfl

end Loop

section Run

variable {g t : Place} {new : GameIndex} {old : Option GameIndex} {temp : HashSet Hash}
  {d₀ d d' : Disk} {entry : FileEntry}

/-- The chunks a merge finds in the temporary directory. -/
def stagedHashes (new : GameIndex) (old : Option GameIndex) (temp : HashSet Hash) : List Hash :=
  temp.elems ++ (UpdatePlan.compute new old temp).chunksToDownload

/-- The condition on one entry in its turn. -/
def EntryOk (bytes : Hash → Bytes) (d : Disk) (g : Place) (old done : List FileEntry)
    (entry : FileEntry) : Prop :=
  (NeedsMerge old entry → CanMerge bytes d g old done entry)
    ∧ ∀ prev, getFile old entry.name = some prev → prev.fileHash = entry.fileHash →
      contentOf bytes prev = contentOf bytes entry

theorem Progress.wanting_iff {done rest : List FileEntry}
    (h : Ready blake3 bytes d₀ g t new old temp)
    (hsplit : new.files = done ++ entry :: rest)
    (hp : Progress bytes d₀ g t (filesOf old) done (stagedHashes new old temp) d) :
    Wanting d g (filesOf old) entry ↔ NeedsMerge (filesOf old) entry := by
  refine ⟨fun hw => hw.elim id fun hnone => ?_, .inl⟩
  rw [hp.target h hsplit, Option.map_eq_none_iff] at hnone
  rw [NeedsMerge, hnone]
  trivial

/-- Entries that can be merged in their turns are. -/
theorem mergeEntries_ok (h : Ready blake3 bytes d₀ g t new old temp) :
    ∀ (rest done : List FileEntry) {d : Disk} (summary : MergeSummary), new.files = done ++ rest →
      Progress bytes d₀ g t (filesOf old) done (stagedHashes new old temp) d →
      (∀ done' entry rest', rest = done' ++ entry :: rest' →
        EntryOk bytes d₀ g (filesOf old) (done ++ done') entry) →
      ∃ s d', exec (mergeEntries blake3 (ofPlace g) (ofPlace t) (filesOf old) rest summary) d
          = (.ok s, d') ∧ s.failed = summary.failed
        ∧ Progress bytes d₀ g t (filesOf old) new.files (stagedHashes new old temp) d'
  | [], done, d, summary, hsplit, hp, _ => by
    rw [List.append_nil] at hsplit
    exact ⟨summary, d, rfl, rfl, hsplit ▸ hp⟩
  | entry :: rest, done, d, summary, hsplit, hp, hok => by
    have hplain := h.plain hsplit
    obtain ⟨hmerge, hkept⟩ : EntryOk bytes d₀ g (filesOf old) done entry := by
      simpa using hok [] entry rest rfl
    obtain ⟨s₁, d₁, hrun, hfailed, hp₁⟩ : ∃ s₁ d₁,
        exec (mergeEntry blake3 (ofPlace g) (ofPlace t) (filesOf old) summary entry) d
          = (.ok s₁, d₁)
          ∧ s₁.failed = summary.failed
          ∧ Progress bytes d₀ g t (filesOf old) (done ++ [entry])
            (stagedHashes new old temp) d₁ := by
      by_cases hneeds : NeedsMerge (filesOf old) entry
      · obtain ⟨d₁, hw, hr⟩ := hp.write_ok h hsplit (hmerge hneeds)
        exact ⟨_, d₁, exec_mergeEntry_ok hplain hp.wf (.inl hneeds) hw summary, rfl,
          hp.replace h hsplit hneeds (hmerge hneeds) hr⟩
      · exact ⟨summary, d, exec_mergeEntry_skip hplain hp.wf
          (fun hw => hneeds ((hp.wanting_iff h hsplit).1 hw)) summary, rfl,
          hp.skip h hsplit hneeds hkept⟩
    obtain ⟨s, d', hrest, hfailed', hp'⟩ := mergeEntries_ok h rest (done ++ [entry]) s₁
      (by rw [hsplit, List.append_assoc]; rfl) hp₁ fun done' e rest' he => by
        have := hok (entry :: done') e rest' (by rw [he]; rfl)
        rwa [List.append_assoc]
    refine ⟨s, d', ?_, hfailed'.trans hfailed, hp'⟩
    rw [mergeEntries, exec_bind, hrun]
    exact hrest

/-- What may be done when one place is left alone. -/
def Sparing (place : Place) (a : Access) (p : Place) : Prop := a = .open ∨ p ≠ place

theorem Sparing.content {place : Place} (h : Touches (Sparing place) d d') :
    d'.content place = d.content place := by
  refine Disk.content_congr ?_
  rcases h.node place with hn | ⟨a, ha, hA⟩
  · exact hn
  · exact absurd rfl (hA.resolve_left ha)

/-- The merge of another entry spares the target of this one. -/
theorem GoodNames.allows (h : GoodNames (filesOf old) new.files) {f : FileEntry}
    (hf : f ∈ new.files)
    (he : entry ∈ new.files) (hne : f.name ≠ entry.name) :
    Allows (Sparing (targetOf g entry)) (join (ofPlace g) f.name) := by
  have hplain := h.plain (List.mem_append_right _ hf)
  have htarget : g ++ placeOf f.name ≠ targetOf g entry := fun heq => hne
    (h.name_eq (List.mem_append_right _ hf) (List.mem_append_right _ he)
      (List.append_cancel_left heq))
  have hnew : newOf (g ++ placeOf f.name) ≠ targetOf g entry := fun heq => by
    rw [newOf_append hplain.ne_nil] at heq
    exact hne (h.newApart f hf entry (List.mem_append_right _ he)
      (List.append_cancel_left heq)).symm
  rw [hplain.join_eq]
  refine ⟨fun q hq => .inr fun heq => ?_, .inr ?_, .inr ?_, .inr ?_, .inr ?_, .inr ?_⟩
  · -- a directory on the way is no file of the version
    have hq' : q = ofPlace ((g ++ placeOf f.name).dropLast.take q.length) := by
      conv_lhs => rw [List.prefix_iff_eq_take.1 hq]
      simp only [ofPlace, List.map_take, List.map_dropLast]
    rw [hq', resolve_ofPlace] at heq
    have hpre : targetOf g entry <+: g ++ placeOf f.name :=
      heq ▸ (List.take_prefix _ _).trans (List.dropLast_prefix _)
    exact hne (h.prefixFree entry (List.mem_append_right _ he) f (List.mem_append_right _ hf)
      ((List.prefix_append_right_inj g).1 hpre)).symm
  all_goals first
    | rwa [newPathOf_ofPlace, resolve_ofPlace]
    | rwa [resolve_ofPlace]

/-- If the merge goes well, every entry could be merged in its turn. -/
theorem mergeEntries_only (h : Ready blake3 bytes d₀ g t new old temp) :
    ∀ (rest done : List FileEntry) {d d' : Disk} {summary s : MergeSummary},
      new.files = done ++ rest →
      Progress bytes d₀ g t (filesOf old) done (stagedHashes new old temp) d →
      exec (mergeEntries blake3 (ofPlace g) (ofPlace t) (filesOf old) rest summary) d
        = (.ok s, d') →
      s.failed = [] → (∀ f ∈ rest, d'.content (targetOf g f) = some (contentOf bytes f)) →
      ∀ done' entry rest', rest = done' ++ entry :: rest' →
        EntryOk bytes d₀ g (filesOf old) (done ++ done') entry
  | [], _, _, _, _, _, _, _, _, _, _, done', entry, rest', he => by simp at he
  | entry :: rest, done, d, d', summary, s, hsplit, hp, hrun, hfailed, hcontent, done', e,
    rest', he => by
    have hplain := h.plain hsplit
    obtain ⟨s₁, d₁, hentry, hrest⟩ := exec_bind_ok hrun
    have hfailed₁ : s₁.failed = [] := List.prefix_nil.1 (hfailed ▸ failed_mergeEntries rest hrest)
    -- the others leave its content as it is
    have hspared : d₁.content (targetOf g entry) = some (contentOf bytes entry) := by
      have htouches := (AllowsMerge.mergeEntries blake3 (ofPlace g) (ofPlace t) Touches.frame
        (filesOf old) rest s₁ fun f hf => (h.names.allows (by simp [hsplit, hf]) (entry_mem hsplit)
          (h.rest_ne hsplit hf)).merge fun _ => .inl rfl).exec d₁
      rw [hrest] at htouches
      rw [← Sparing.content htouches]
      exact hcontent entry List.mem_cons_self
    obtain ⟨hok, hp₁⟩ : EntryOk bytes d₀ g (filesOf old) done entry
        ∧ Progress bytes d₀ g t (filesOf old) (done ++ [entry]) (stagedHashes new old temp) d₁ := by
      by_cases hneeds : NeedsMerge (filesOf old) entry
      · have hc : CanMerge bytes d₀ g (filesOf old) done entry := by
          by_contra hc
          rcases hp.write_bad h hsplit hc with ⟨err, d₂, hw⟩ | ⟨d₂, hw, hbad⟩
          · obtain ⟨d₃, herr⟩ := exec_mergeEntry_err hplain hp.wf (.inl hneeds) hw summary
            rw [herr, Prod.mk.injEq, Except.ok.injEq] at hentry
            rw [← hentry.1] at hfailed₁
            simp at hfailed₁
          · rw [exec_mergeEntry_ok hplain hp.wf (.inl hneeds) hw summary, Prod.mk.injEq] at hentry
            exact hbad (hentry.2 ▸ hspared)
        obtain ⟨d₂, hw, hr⟩ := hp.write_ok h hsplit hc
        rw [exec_mergeEntry_ok hplain hp.wf (.inl hneeds) hw summary, Prod.mk.injEq] at hentry
        refine ⟨⟨fun _ => hc, fun prev hprev hhash => ?_⟩,
          hentry.2 ▸ hp.replace h hsplit hneeds hc hr⟩
        rw [NeedsMerge, hprev] at hneeds
        exact absurd hhash hneeds
      · rw [exec_mergeEntry_skip hplain hp.wf (fun hw => hneeds ((hp.wanting_iff h hsplit).1 hw))
          summary, Prod.mk.injEq] at hentry
        have hkept : ∀ prev, getFile (filesOf old) entry.name = some prev →
            prev.fileHash = entry.fileHash → contentOf bytes prev = contentOf bytes entry := by
          intro prev hprev _
          have htarget := hp.target h hsplit
          rw [hentry.2, hspared, hprev, Option.map_some, Option.some.injEq] at htarget
          exact htarget.symm
        exact ⟨⟨fun hn => absurd hn hneeds, hkept⟩, hentry.2 ▸ hp.skip h hsplit hneeds hkept⟩
    rcases List.cons_eq_append_iff.1 he with ⟨rfl, hcons⟩ | ⟨done'', rfl, hrest'⟩
    · obtain ⟨rfl, -⟩ := List.cons.inj hcons
      rwa [List.append_nil]
    · have := mergeEntries_only h rest (done ++ [entry])
        (by rw [hsplit, List.append_assoc]; rfl) hp₁
        hrest hfailed (fun f hf => hcontent f (List.mem_cons_of_mem _ hf)) done'' e rest' hrest'
      rwa [List.append_assoc] at this

theorem Ready.old_only (h : Ready blake3 bytes d₀ g t new old temp) {f : FileEntry}
    (hf : f ∈ filesOf old) (hnew : ∀ f' ∈ new.files, f'.name ≠ f.name) :
    currentAt (filesOf old) new.files (placeOf f.name) = some f := by
  have hnone : (new.files.find? fun f' => placeOf f'.name = placeOf f.name) = none := by
    refine List.find?_eq_none.2 fun f' hf' => ?_
    simp only [decide_eq_true_eq]
    exact fun he => hnew f' hf' (h.names.name_eq (List.mem_append_right _ hf')
      (List.mem_append_left _ hf) he)
  rw [currentAt, hnone, Option.none_or]
  exact (find?_place h.names.old_inj).2 ⟨hf, rfl⟩

/-- The end of a merge: the files only the old version has are removed, and the new version is
installed. -/
theorem exec_deleteFiles_old (h : Ready blake3 bytes d₀ g t new old temp)
    (hp : Progress bytes d₀ g t (filesOf old) new.files (stagedHashes new old temp) d)
    (iter : IterOrder String) (summary : MergeSummary) :
    ∃ s d', exec (deleteFiles (ofPlace g)
        (iter.order (namesDifference (filesOf old) new.files)) summary) d = (.ok s, d')
      ∧ Updated bytes (filesOf old) new.files d' g ∧ Installed bytes d' g new.files := by
  have hmem : ∀ name, name ∈ iter.order (namesDifference (filesOf old) new.files)
      ↔ (∃ f ∈ filesOf old, f.name = name) ∧ ∀ f ∈ new.files, f.name ≠ name := fun name =>
    (iter.perm _).mem_iff.trans mem_namesDifference
  obtain ⟨s, d', hrun, hnode⟩ := exec_deleteFiles (g := g)
    (iter.order (namesDifference (filesOf old) new.files)) summary hp.wf fun name hname => by
      obtain ⟨⟨f, hf, rfl⟩, hnew⟩ := (hmem name).1 hname
      have hcontent := hp.files (placeOf f.name)
      rw [h.old_only hf hnew, Option.map_some, Disk.content_eq_some] at hcontent
      refine ⟨h.names.plain (List.mem_append_left _ hf), ?_⟩
      simp [hcontent]
  have hgone : ∀ f ∈ filesOf old, (∀ f' ∈ new.files, f'.name ≠ f.name) →
      d'.node (g ++ placeOf f.name) = none := fun f hf hnew => by
    rw [hnode, if_pos]
    exact List.mem_map.2 ⟨f.name, (hmem f.name).2 ⟨⟨f, hf, rfl⟩, hnew⟩, rfl⟩
  have hkept : ∀ q, (∀ f ∈ filesOf old, (∀ f' ∈ new.files, f'.name ≠ f.name) →
      q ≠ placeOf f.name) → d'.node (g ++ q) = d.node (g ++ q) := fun q hq => by
    rw [hnode, if_neg]
    intro hmap
    obtain ⟨name, hname, he⟩ := List.mem_map.1 hmap
    obtain ⟨⟨f, hf, rfl⟩, hnew⟩ := (hmem name).1 hname
    exact hq f hf hnew (List.append_cancel_left he).symm
  have hfiles : ∀ q, d'.content (g ++ q)
      = (new.files.find? fun f => placeOf f.name = q).map (contentOf bytes) := by
    intro q
    by_cases hq : ∃ f ∈ filesOf old, (∀ f' ∈ new.files, f'.name ≠ f.name) ∧ q = placeOf f.name
    · obtain ⟨f, hf, hnew, rfl⟩ := hq
      have hnone : (new.files.find? fun f' => placeOf f'.name = placeOf f.name) = none := by
        refine List.find?_eq_none.2 fun f' hf' => ?_
        simp only [decide_eq_true_eq]
        exact fun he => hnew f' hf' (h.names.name_eq (List.mem_append_right _ hf')
          (List.mem_append_left _ hf) he)
      rw [Disk.content, hgone f hf hnew, hnone]
      rfl
    · rw [Disk.content_congr (hkept q fun f hf hnew he => hq ⟨f, hf, hnew, he⟩),
        hp.files, currentAt]
      rcases hfind : new.files.find? fun f => placeOf f.name = q with _ | f <;> rw [hfind]
      · -- no old file is left there
        rw [Option.none_or]
        rcases hold : (filesOf old).find? fun f => placeOf f.name = q with _ | f
        · rw [hold]
        have hf := List.mem_of_find?_eq_some hold
        have hplace : placeOf f.name = q := by simpa using List.find?_some hold
        refine absurd ⟨f, hf, fun f' hf' he => ?_, hplace.symm⟩ hq
        have := List.find?_eq_none.1 hfind f' hf'
        simp [he, hplace] at this
      · rfl
  refine ⟨s, d', hrun, ⟨fun f hf => ?_, fun f hf hnew => ?_⟩, ?_, hfiles⟩
  · rw [hfiles, (find?_place h.names.new_inj).2 ⟨hf, rfl⟩]
    rfl
  · exact hgone f hf fun f' hf' he => hnew (he ▸ List.mem_map_of_mem hf')
  · have hdir := hkept [] fun f hf _ he =>
      (h.names.plain (List.mem_append_left _ hf)).ne_nil he.symm
    rw [List.append_nil] at hdir
    rw [hdir, hp.dir]

/-- Removing old files leaves the new ones. -/
theorem content_deleteFiles (h : GoodNames (filesOf old) new.files) {f : FileEntry}
    (hf : f ∈ new.files) (iter : IterOrder String) {s s' : MergeSummary}
    (hrun : exec (deleteFiles (ofPlace g)
      (iter.order (namesDifference (filesOf old) new.files)) s) d = (.ok s', d')) :
    d'.content (targetOf g f) = d.content (targetOf g f) := by
  have htouches := (keeps_deleteFiles (K := Touches (Sparing (targetOf g f))) (ofPlace g)
    Touches.frame (iter.order (namesDifference (filesOf old) new.files)) s fun name hname => by
      obtain ⟨⟨f', hf', rfl⟩, hnew⟩ := mem_namesDifference.1 ((iter.perm _).mem_iff.1 hname)
      refine keeps_removeFile ?_
      rw [(h.plain (List.mem_append_left _ hf')).join_eq, resolve_ofPlace]
      exact .inr fun he => hnew f hf (h.name_eq (List.mem_append_left _ hf')
        (List.mem_append_right _ hf) (List.append_cancel_left he)).symm).exec d
  rw [hrun] at htouches
  exact Sparing.content htouches

/-- If a merge does what it should, every entry could be merged in its turn. -/
theorem mergeable_of_updated (h : Ready blake3 bytes d g t new old temp) {iter : IterOrder String}
    {s : MergeSummary} (hrun : exec (mergeFiles blake3 (ofPlace g) (ofPlace t) iter new old) d
      = (.ok s, d')) (hfailed : s.failed = [])
        (hupdated : Updated bytes (filesOf old) new.files d' g) :
    Mergeable bytes d g (filesOf old) new.files := by
  obtain ⟨s₁, d₁, hmerge, hdelete⟩ := exec_bind_ok hrun
  rw [failed_deleteFiles _ hdelete] at hfailed
  refine fun done entry rest => mergeEntries_only h new.files [] rfl h.progress hmerge hfailed
    (fun f hf => ?_) done entry rest
  rw [← content_deleteFiles h.names hf iter hdelete]
  exact hupdated.content f hf

/-- Entries that can be merged make a merge do what it should. -/
theorem updated_of_mergeable (h : Ready blake3 bytes d g t new old temp) (iter : IterOrder String)
    (hok : Mergeable bytes d g (filesOf old) new.files) :
    ∃ s d', exec (mergeFiles blake3 (ofPlace g) (ofPlace t) iter new old) d = (.ok s, d')
      ∧ s.failed = [] ∧ Updated bytes (filesOf old) new.files d' g
      ∧ Installed bytes d' g new.files := by
  obtain ⟨s₁, d₁, hmerge, hfailed, hp⟩ :=
    mergeEntries_ok h new.files [] ⟨0, 0, []⟩ rfl h.progress hok
  obtain ⟨s, d', hdelete, hdone⟩ := exec_deleteFiles_old h hp iter s₁
  refine ⟨s, d', ?_, (failed_deleteFiles _ hdelete).trans hfailed, hdone⟩
  rw [mergeFiles, exec_bind, hmerge]
  exact hdelete

end Run

/-- A merge turns the old version into the new one just when every entry that has to be put
together can be in its turn, and every other entry has the content it had. -/
theorem mergeFiles_updates_iff {g t : Place} {new : GameIndex} {old : Option GameIndex}
    {temp : HashSet Hash} {d : Disk} (h : Ready blake3 bytes d g t new old temp)
    (iter : IterOrder String) :
    (∃ summary d', exec (mergeFiles blake3 (ofPlace g) (ofPlace t) iter new old) d
        = (.ok summary, d') ∧ summary.failed = [] ∧ Updated bytes (filesOf old) new.files d' g)
      ↔ Mergeable bytes d g (filesOf old) new.files := by
  constructor
  · rintro ⟨s, d', hrun, hfailed, hupdated⟩
    exact mergeable_of_updated h hrun hfailed hupdated
  · intro hok
    obtain ⟨s, d', hrun, hfailed, hupdated, -⟩ := updated_of_mergeable h iter hok
    exact ⟨s, d', hrun, hfailed, hupdated⟩

section Pair

/-- Two files of one chunk each. -/
def pairDisk : Disk := .ofList [([], .dir), ([['g']], .dir), ([['t']], .dir),
  ([['g'], ['a']], .file [1]), ([['g'], ['b']], .file [2])]

def oneChunk (name : String) (b : UInt8) : FileEntry := ⟨name, .fill b, [⟨.fill b, 1⟩]⟩

def pairIndex : GameIndex := ⟨1, [oneChunk "a" 1, oneChunk "b" 2], .fill 0⟩

/-- One file of both chunks. -/
def joinedIndex : GameIndex := ⟨2, [⟨"a", .fill 2, [⟨.fill 2, 1⟩, ⟨.fill 1, 1⟩]⟩], .fill 0⟩

/-- The files have changed places. -/
def swappedIndex : GameIndex := ⟨2, [oneChunk "a" 2, oneChunk "b" 1], .fill 0⟩

def firstByte (data : Bytes) : Hash := .fill (data.headD 0)

def byteOf (hash : Hash) : Bytes := hash.bytes.take 1

theorem installed_pair : Installed byteOf pairDisk [['g']] pairIndex.files := by
  refine ⟨by decide, fun q => ?_⟩
  by_cases ha : q = [['a']]
  · rw [ha]
    decide
  by_cases hb : q = [['b']]
  · rw [hb]
    decide
  have hnone : pairDisk.content ([['g']] ++ q) = none := by
    refine Option.eq_none_iff_forall_ne_some.2 fun c hc => ?_
    have hmem := Disk.mem_entries_of_node (Disk.content_eq_some.1 hc)
    have hentries : pairDisk.nodes.entries = [⟨[], .dir⟩, ⟨[['g']], .dir⟩, ⟨[['t']], .dir⟩,
      ⟨[['g'], ['a']], .file [1]⟩, ⟨[['g'], ['b']], .file [2]⟩] := rfl
    rw [hentries] at hmem
    simp [ha, hb] at hmem
  have hfind : (pairIndex.files.find? fun f => placeOf f.name = q) = none := by
    refine List.find?_eq_none.2 fun f hf => ?_
    rcases List.mem_pair.1 hf with rfl | rfl
    · simpa using fun he => ha he.symm
    · simpa using fun he => hb he.symm
  rw [hnone, hfind]
  rfl

theorem ready_pair {new : GameIndex} (hnames : GoodNames pairIndex.files new.files)
    (hnew : ∀ f ∈ new.files, f.fileHash = firstByte (contentOf byteOf f))
    (hplan : (UpdatePlan.compute new (some pairIndex) ⟨[], by simp⟩).chunksToDownload = []) :
    Ready firstByte byteOf pairDisk [['g']] [['t']] new (some pairIndex) ⟨[], by simp⟩ := by
  refine ⟨Disk.wf_of_entries (by decide) (by decide), hnames, ⟨by decide, by decide⟩, hnew,
    installed_pair, ⟨by decide, ?_⟩⟩
  rw [hplan]
  simp

theorem ready_joined : Ready firstByte byteOf pairDisk [['g']] [['t']] joinedIndex (some pairIndex)
    ⟨[], by simp⟩ := by
  refine ready_pair ⟨?_, by decide, by decide, by decide, by decide⟩ (by decide) (by decide)
  unfold NormalName
  decide

theorem ready_swapped :
    Ready firstByte byteOf pairDisk [['g']] [['t']] swappedIndex (some pairIndex)
    ⟨[], by simp⟩ := by
  refine ready_pair ⟨?_, by decide, by decide, by decide, by decide⟩ (by decide) (by decide)
  unfold NormalName
  decide

theorem mergeFiles_updates_joined : ∃ summary d', exec (mergeFiles firstByte (ofPlace [['g']])
      (ofPlace [['t']]) ⟨id, fun _ => .refl _⟩ joinedIndex (some pairIndex)) pairDisk
        = (.ok summary, d') ∧ summary.failed = []
      ∧ Updated byteOf pairIndex.files joinedIndex.files d' [['g']] := by
  refine (mergeFiles_updates_iff ready_joined ⟨id, fun _ => .refl _⟩).2 fun done entry rest he => ?_
  obtain ⟨rfl, rfl⟩ : done = [] ∧ entry = ⟨"a", .fill 2, [⟨.fill 2, 1⟩, ⟨.fill 1, 1⟩]⟩ := by
    rcases done with _ | ⟨f, done⟩
    · exact ⟨rfl, (List.cons.inj he).1.symm⟩
    · have := (List.cons.inj he).2
      simp at this
  refine ⟨fun _ => ⟨by decide, by decide, by decide, by simp, by simp⟩, fun prev hprev hhash => ?_⟩
  obtain rfl : oneChunk "a" 1 = prev := Option.some.inj hprev
  exact absurd hhash (by decide)

/-- When two files change places, the second is put together from the first one's new content. -/
theorem mergeFiles_swapped_fails :
    ¬ ∀ {blake3 : Bytes → Hash} {bytes : Hash → Bytes} {d : Disk} {g t : Place} {new : GameIndex}
      {old : Option GameIndex} {temp : HashSet Hash}, Ready blake3 bytes d g t new old temp →
      ∀ iter : IterOrder String,
      ∃ summary d', exec (mergeFiles blake3 (ofPlace g) (ofPlace t) iter new old) d
          = (.ok summary, d') ∧ summary.failed = []
        ∧ Updated bytes (filesOf old) new.files d' g := by
  intro hall
  obtain ⟨s, d', hrun, hfailed, hupdated⟩ := hall ready_swapped ⟨id, fun _ => .refl _⟩
  have hok := mergeable_of_updated ready_swapped hrun hfailed hupdated
  have hmerge := (hok [oneChunk "a" 2] (oneChunk "b" 1) [] rfl).1 (by decide)
  have hread := hmerge.reuse ⟨.fill 1, 1⟩ (by decide) (fun prev hprev => by
    obtain rfl : oneChunk "b" 2 = prev := Option.some.inj hprev
    decide) "a" 0 1 (by decide) (oneChunk "a" 2) (by decide) (by decide) rfl
  exact absurd hread (by decide)

end Pair

end BlazeNet

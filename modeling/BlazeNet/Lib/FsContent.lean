import BlazeNet.Lib.FsExec

/-!
# Which files a program can change

`Within P d d'`: between the disks `d` and `d'` a well-formed disk stays one, and only files at
places in `P` have changed, appeared or gone. Each call changes at most the file its path names,
whatever faults it meets, and making directories changes none.
-/

namespace UnixFs

open FaultIo Io RustStd

variable {P : Place → Prop}

structure Within (P : Place → Prop) (d d' : Disk) : Prop where
  wf : d.Wf → d'.Wf
  content : ∀ p, ¬ P p → d'.content p = d.content p

section Changes

variable {d : Disk} {place : Place}

theorem Within.refl (d : Disk) : Within P d d := ⟨id, fun _ _ => rfl⟩

theorem Within.frame : Frame (Within P) :=
  ⟨Within.refl, fun _ _ _ h h' =>
    ⟨h'.wf ∘ h.wf, fun p hp => (h'.content p hp).trans (h.content p hp)⟩⟩

theorem Within.mono {Q : Place → Prop} {d' : Disk} (hPQ : ∀ p, P p → Q p) (h : Within P d d') :
    Within Q d d' := ⟨h.wf, fun p hp => h.content p fun hP => hp (hPQ p hP)⟩

/-- The directory a path leads through last. -/
theorem Disk.Wf.dir_of_find (hd : d.Wf) {path : Path} {n : Name}
    (h : d.find path = .ok (place ++ [n])) : d.node place = some .dir := by
  rcases List.eq_nil_or_concat path with rfl | ⟨up, c, rfl⟩
  · simp [find, walk] at h
  rw [List.concat_eq_append, find, walk_append] at h
  rcases hw : d.walk [] up with e | q <;> simp only [hw] at h
  · cases h
  rcases hq : d.node q with _ | b | _ <;> simp only [walk, hq] at h
  · cases h
  · cases h
  rcases c with _ | m
  · -- `..` leads to the parent, which is a directory as well
    have hup : q.dropLast = place ++ [n] := Except.ok.inj h
    have hpre : place <+: q := (List.prefix_append place [n]).trans (hup ▸ List.dropLast_prefix q)
    exact hd.dir_of_prefix_dir hq hpre
  · obtain ⟨rfl, -⟩ := List.append_inj' (Except.ok.inj h : q ++ [m] = place ++ [n]) rfl
    exact hq

/-- One entry that is no directory is changed, where a path leads. -/
theorem Disk.Wf.of_find (hd : d.Wf) {d' : Disk} {path : Path} (hf : d.find path = .ok place)
    (hn : d.node place ≠ some .dir) (h : ∀ q, q ≠ place → d'.node q = d.node q) : d'.Wf := by
  rcases List.eq_nil_or_concat place with rfl | ⟨up, n, rfl⟩
  · exact absurd hd.root hn
  · rw [List.concat_eq_append] at hf hn h
    exact hd.of_update (hd.dir_of_find hf) hn h

theorem Within.of_node {d' : Disk} {path : Path} (hf : d.find path = .ok place)
    (hn : d.node place ≠ some .dir) (hP : P place)
    (h : ∀ q, q ≠ place → d'.node q = d.node q) : Within P d d' :=
  ⟨fun hd => hd.of_find hf hn h, fun p hp => Disk.content_congr (h p fun he => hp (he ▸ hP))⟩

end Changes

section Calls

variable {ε α : Type} [OsError ε] {path : Path}

/-- A call keeps a relation if what it does at the place of its path does. -/
theorem ensures_at {K : Disk → Disk → Prop} (hK : Frame K) {R : α → Prop}
    {act : Disk → Place → Except Errno (α × Disk)}
    (h : ∀ d a d', d.find path = .ok (resolve path) → act d (resolve path) = .ok (a, d') →
      K d d' ∧ R a) : Ensures K R (sysAt path act : Io ε Disk α) := by
  unfold sysAt sys
  refine Ensures.atomic hK.refl fun d => ?_
  rcases hf : d.find path with e | place <;> simp only [hf]
  · exact ⟨hK.refl d, by simp⟩
  obtain rfl := Disk.find_eq hf
  rcases ha : act d (resolve path) with e | ⟨a, d'⟩ <;> simp only
  · exact ⟨hK.refl d, by simp⟩
  · obtain ⟨hd, hr⟩ := h d a d' hf ha
    refine ⟨hd, fun b hb => ?_⟩
    cases hb
    exact hr

theorem keeps_at {K : Disk → Disk → Prop} (hK : Frame K)
    {act : Disk → Place → Except Errno (α × Disk)}
    (h : ∀ d a d', d.find path = .ok (resolve path) → act d (resolve path) = .ok (a, d') →
      K d d') : Keeps K (sysAt path act : Io ε Disk α) :=
  (ensures_at hK (R := fun _ => True) fun d a d' hf hd => ⟨h d a d' hf hd, trivial⟩).keeps

theorem within_mkdir : Keeps (Within P) (mkdir path : Io ε Disk Unit) := by
  refine keeps_at Within.frame fun d a d' hf hd => ?_
  split at hd <;> cases hd
  rename_i hn
  refine ⟨fun hw => hw.of_find hf (by simp [hn]) fun q hq => by rw [Disk.node_put, if_neg hq],
    fun p _ => ?_⟩
  rw [Disk.content, Disk.node_put, Disk.content]
  split_ifs with hp
  · rw [hp, hn]
  · rfl

theorem within_openFile : Keeps (Within P) (openFile path : Io ε Disk Place) := by
  refine keeps_at Within.frame fun d a d' _ hd => ?_
  split at hd <;> cases hd
  exact ⟨fun hw => hw.congr fun _ => rfl, fun _ _ => rfl⟩

theorem within_readFile : Keeps (Within P) (readFile path : Io ε Disk FileBytes) := by
  refine keeps_at Within.frame fun d a d' _ hd => ?_
  split at hd <;> cases hd
  exact ⟨fun hw => hw.congr fun _ => rfl, fun _ _ => rfl⟩

theorem within_createFile (h : P (resolve path)) :
    Ensures (Within P) (fun place => place = resolve path) (createFile path : Io ε Disk Place) := by
  refine ensures_at Within.frame fun d a d' hf hd => ?_
  split at hd <;> cases hd
  exact ⟨.of_node hf ‹_› h fun q hq => by rw [Disk.node_put, if_neg hq], rfl⟩

theorem within_removeFile (h : P (resolve path)) :
    Keeps (Within P) (removeFile path : Io ε Disk Unit) := by
  refine keeps_at Within.frame fun d a d' hf hd => ?_
  split at hd <;> cases hd
  rename_i hn
  exact .of_node hf (by simp [hn]) h fun q hq => by rw [Disk.node_del, if_neg hq]

omit [OsError ε] in
theorem within_writeInto {place : Place} (h : P place) (data : FileBytes) (offset : ℕ) :
    Keeps (Within P) (writeInto place data offset : Io ε Disk Unit) := by
  refine fun S d => wp_call fun fault _ => ?_
  have written : ∀ content part, d.node place = some (.file content) →
      Within P d (d.fill place (pwrite content offset part)) := by
    intro content part hn
    refine ⟨fun hw => ?_, fun p hp => Disk.content_congr ?_⟩
    · exact hw.of_find (hw.find_ofPlace (p := place) (by simp [hn])) (by simp [hn])
        fun q hq => by rw [Disk.node_fill, if_neg hq]
    · rw [Disk.node_fill, if_neg fun he : p = place => hp (he ▸ h)]
  rcases fault with _ | k | ⟨k, e⟩ | k <;> dsimp only <;> split
  all_goals
    first
    | exact written _ _ ‹_›
    | exact Within.refl d

theorem within_writeFile (h : P (resolve path)) (data : FileBytes) :
    Keeps (Within P) (writeFile path data : Io ε Disk Unit) :=
  (within_createFile h).bind Within.frame.trans fun _ hp => within_writeInto (hp ▸ h) data 0

theorem within_createDirAll : Keeps (Within P) (createDirAll path : Io ε Disk Unit) :=
  keeps_createDirAll Within.frame fun _ _ => within_mkdir

theorem within_renameFile {target : Path} (h : P (resolve path)) (h' : P (resolve target)) :
    Keeps (Within P) (renameFile path target : Io ε Disk Unit) := by
  refine keeps_at Within.frame fun d a d' hf hd => ?_
  split at hd <;> try cases hd
  rename_i content b hn hb
  split_ifs at hd with hdir
  cases hd
  obtain rfl := Disk.find_eq hb
  -- the source goes, then the target is there
  have hdel : Within P d (d.del (resolve path)) :=
    .of_node hf (by simp [hn]) h fun q hq => by rw [Disk.node_del, if_neg hq]
  refine ⟨fun hw => ?_, fun p hp => ?_⟩
  · have hmid := hdel.wf hw
    rcases List.eq_nil_or_concat (resolve target) with ht | ⟨up, m, ht⟩
    · exact absurd (ht ▸ hw.root) hdir
    rw [List.concat_eq_append] at ht
    have hup := hw.dir_of_find (ht ▸ hb)
    refine hmid.of_update (p := up) (n := m) ?_ ?_ fun q hq => ?_
    · rw [Disk.node_del, if_neg (fun he => by simp [← he, hup] at hn), hup]
    · rw [← ht, Disk.node_del]
      split_ifs
      · simp
      · exact hdir
    · rw [Disk.node_move, if_neg (ht ▸ hq), Disk.node_del]
  · rw [← hdel.content p hp]
    refine Disk.content_congr ?_
    rw [Disk.node_move, if_neg fun he : p = resolve target => hp (he ▸ h'), Disk.node_del]

end Calls

section Done

variable {ε α : Type} [OsError ε] {path : Path} {S : Fault ε → Prop} {d : Disk}

/-- A call that is done did what it does at the place of its path. -/
theorem wpOk_sysAt {act : Disk → Place → Except Errno (α × Disk)} {Q : α → Disk → Prop}
    (h : ∀ a d', d.find path = .ok (resolve path) → act d (resolve path) = .ok (a, d') → Q a d') :
    wpOk S (sysAt path act : Io ε Disk α) d Q := by
  unfold sysAt sys
  refine wp_atomic (fun a ha => ?_) (fun _ _ _ _ ha => by cases ha) fun _ _ _ ha => by cases ha
  rcases hf : d.find path with e | place <;> simp only [hf] at ha ⊢
  · cases ha
  obtain rfl := Disk.find_eq hf
  rcases hact : act d (resolve path) with e | ⟨b, d'⟩ <;> simp only [hact] at ha ⊢
  · cases ha
  · obtain rfl : b = a := Except.ok.inj ha
    exact h b d' hf hact

theorem wpOk_createFile : wpOk S (createFile path : Io ε Disk Place) d fun place d' =>
    place = resolve path ∧ d'.content place = some [] := by
  refine wpOk_sysAt fun place d' _ hd => ?_
  split at hd <;> cases hd
  exact ⟨rfl, Disk.content_eq_some.2 (by rw [Disk.node_put, if_pos rfl])⟩

omit [OsError ε] in
theorem wpOk_writeInto {place : Place} {c : FileBytes} (hc : d.content place = some c)
    (data : FileBytes) (offset : ℕ) :
    wpOk S (writeInto place data offset : Io ε Disk Unit) d fun _ d' =>
      d'.content place = some (pwrite c offset data) := by
  have hn := Disk.content_eq_some.1 hc
  refine wp_call fun fault _ u hu => ?_
  simp only [hn] at hu ⊢
  rcases fault with _ | k | ⟨k, e⟩ | k
  · exact Disk.content_eq_some.2 (by rw [Disk.node_fill, if_pos rfl])
  · exact Disk.content_eq_some.2 (by rw [Disk.node_fill, if_pos rfl])
  · cases hu
  · cases hu

theorem wpOk_removeFile : wpOk S (removeFile path : Io ε Disk Unit) d fun _ d' =>
    (d.content (resolve path)).isSome
      ∧ ∀ q, d'.node q = if q = resolve path then none else d.node q := by
  refine wpOk_sysAt fun u d' _ hd => ?_
  split at hd <;> cases hd
  rename_i c hn
  exact ⟨by simp [Disk.content, hn], d.node_del _⟩

theorem wpOk_renameFile {target : Path} {c : FileBytes} (hc : d.content (resolve path) = some c) :
    wpOk S (renameFile path target : Io ε Disk Unit) d fun _ d' =>
      d'.content (resolve target) = some c := by
  refine wpOk_sysAt fun u d' _ hd => ?_
  simp only [Disk.content_eq_some.1 hc] at hd
  rcases hb : d.find target with e | b <;> simp only [hb] at hd
  · cases hd
  obtain rfl := Disk.find_eq hb
  split_ifs at hd
  cases hd
  exact Disk.content_eq_some.2 (by rw [Disk.node_move, if_pos rfl])

end Done

section Dirs

variable {ε : Type} [OsError ε] {d d' : Disk} {path base : Path} {place : Place}

/-- Directories stay directories. -/
def DirsStay (d d' : Disk) : Prop := ∀ p, d.node p = some .dir → d'.node p = some .dir

theorem DirsStay.frame : Frame DirsStay := ⟨fun _ _ hp => hp, fun _ _ _ h h' p hp => h' p (h p hp)⟩

theorem dirsStay_of_node (place : Place) (hn : d.node place ≠ some .dir)
    (h : ∀ q, q ≠ place → d'.node q = d.node q) : DirsStay d d' := fun p hp => by
  rw [h p fun he => hn (he ▸ hp), hp]

theorem dirsStay_mkdir : Keeps DirsStay (mkdir path : Io ε Disk Unit) := by
  refine keeps_at DirsStay.frame fun d a d' _ hd => ?_
  split at hd <;> cases hd
  rename_i hn
  exact dirsStay_of_node (resolve path) (by simp [hn]) fun q hq => by rw [Disk.node_put, if_neg hq]

theorem dirsStay_createDirAll : Keeps DirsStay (createDirAll path : Io ε Disk Unit) :=
  keeps_createDirAll DirsStay.frame fun _ _ => dirsStay_mkdir

theorem dirsStay_createFile : Keeps DirsStay (createFile path : Io ε Disk Place) := by
  refine keeps_at DirsStay.frame fun d a d' _ hd => ?_
  split at hd <;> cases hd
  exact dirsStay_of_node _ ‹_› fun q hq => by rw [Disk.node_put, if_neg hq]

omit [OsError ε] in
theorem dirsStay_writeInto (data : FileBytes) (offset : ℕ) :
    Keeps DirsStay (writeInto place data offset : Io ε Disk Unit) := by
  refine fun S d => wp_call fun fault _ => ?_
  have written : ∀ content part, d.node place = some (.file content) →
      DirsStay d (d.fill place (pwrite content offset part)) := fun content part hn =>
    dirsStay_of_node place (by simp [hn]) fun q hq => by rw [Disk.node_fill, if_neg hq]
  rcases fault with _ | k | ⟨k, e⟩ | k <;> dsimp only <;> split
  all_goals
    first
    | exact written _ _ ‹_›
    | exact DirsStay.frame.refl d

theorem dirsStay_writeFile (data : FileBytes) :
    Keeps DirsStay (writeFile path data : Io ε Disk Unit) :=
  DirsStay.frame.seq dirsStay_createFile fun _ => dirsStay_writeInto data 0

/-- The walk along a path meets the same directories. -/
theorem Disk.walk_of_dirsStay (h : DirsStay d d') : ∀ (path : Path) (p : Place) {place : Place},
    d.walk p path = .ok place → d'.walk p path = .ok place
  | [], _, _, hw => hw
  | c :: path, p, _, hw => by
    rcases hn : d.node p with _ | b | _ <;> simp only [walk, hn] at hw
    · cases hw
    · cases hw
    · simpa only [walk, h p hn] using Disk.walk_of_dirsStay h path _ hw

theorem Disk.isDir_iff : d.isDir path ↔ d.find path = .ok (resolve path)
    ∧ d.node (resolve path) = some .dir := by
  unfold isDir stat
  rcases hf : d.find path with e | place
  · simp
  · obtain rfl := find_eq hf
    rcases hn : d.node (resolve path) with _ | c | _ <;> simp [hn]

theorem Disk.isDir_of_dirsStay (h : DirsStay d d') (hdir : d.isDir path) : d'.isDir path := by
  obtain ⟨hf, hn⟩ := Disk.isDir_iff.1 hdir
  exact Disk.isDir_iff.2 ⟨Disk.walk_of_dirsStay h path [] hf, h _ hn⟩

/-- A directory that is there is not made again. -/
theorem exec_createDirAll_isDir (h : d.isDir path) :
    exec (createDirAll path : Io ε Disk Unit) d = (.ok (), d) := by
  obtain ⟨hf, hn⟩ := Disk.isDir_iff.1 h
  rcases hrev : path.reverse with _ | ⟨c, up⟩
  · rw [createDirAll, hrev]
    rfl
  · have hpath : (c :: up).reverse = path := by rw [← hrev, List.reverse_reverse]
    have hmk : exec (mkdir path : Io ε Disk Unit) d
        = (.error (.err (OsError.ofErrno .alreadyExists)), d) := by
      rw [mkdir, exec_sysAt hf]
      simp only [hn]
    rw [createDirAll, hrev, createDirAllRev, hpath, exec_bind, exec_attempt, hmk]
    simp only [OsError.isNotFound_ofErrno]
    rw [if_neg (by decide), orIsDir, exec_bind, exec_isDir, h]
    rfl

/-- What lies below a directory that a path leads to is found there. -/
theorem Disk.Wf.find_append {q : Place} (hd : d.Wf) (hbase : d.isDir base)
    (hq : d.node (resolve base ++ q) ≠ none) :
    d.find (base ++ ofPlace q) = .ok (resolve base ++ q) := by
  obtain ⟨hf, -⟩ := Disk.isDir_iff.1 hbase
  rw [find, walk_append, show d.walk [] base = .ok (resolve base) from hf]
  refine d.walk_ofPlace q _ fun r hr hne => hd.dir_of_prefix hq ?_ fun he => hne ?_
  · exact (List.prefix_append_right_inj _).2 hr
  · exact List.append_cancel_left he

theorem Disk.Wf.isFile_append {q : Place} (hd : d.Wf) (hbase : d.isDir base) :
    d.isFile (base ++ ofPlace q) = (d.content (resolve base ++ q)).isSome := by
  have hplace : resolve (base ++ ofPlace q) = resolve base ++ q := by
    rw [resolve_append, foldl_climb_ofPlace]
  unfold isFile stat
  rcases hn : d.node (resolve base ++ q) with _ | n
  · rcases hf : d.find (base ++ ofPlace q) with e | place
    · simp [content, hn]
    · obtain rfl := find_eq hf
      rw [hplace] at *
      simp [content, hn]
  · rw [hd.find_append hbase (by simp [hn])]
    rcases n with c | _ <;> simp [content, hn]

theorem exec_readFile_append {q : Place} {c : FileBytes} (hd : d.Wf) (hbase : d.isDir base)
    (hq : d.content (resolve base ++ q) = some c) : ∃ log,
      exec (readFile (base ++ ofPlace q) : Io ε Disk FileBytes) d = (.ok c, d.relog log) := by
  have hn := Disk.content_eq_some.1 hq
  exact ⟨_, exec_readFile (hd.find_append hbase (by simp [hn])) hn⟩

theorem exec_readFile_none {q : Place} (hq : d.content (resolve base ++ q) = none) :
    ∃ e, exec (readFile (base ++ ofPlace q) : Io ε Disk FileBytes) d = (.error (.err e), d) := by
  have hplace : resolve (base ++ ofPlace q) = resolve base ++ q := by
    rw [resolve_append, foldl_climb_ofPlace]
  rcases hf : d.find (base ++ ofPlace q) with e | place
  · exact ⟨_, exec_sysAt_error hf⟩
  · rw [readFile, exec_sysAt hf]
    obtain rfl := Disk.find_eq hf
    rw [hplace] at *
    rcases hn : d.node (resolve base ++ q) with _ | b | _
    · exact ⟨_, rfl⟩
    · simp [Disk.content, hn] at hq
    · exact ⟨_, rfl⟩

end Dirs

section Stopped

variable {ε : Type} [OsError ε] {path : Path} {data : FileBytes} {w w' : World ε Disk}

/-- How many bytes a write that does not return has written; none if it has not created the file. -/
def writeStop (path : Path) (data : FileBytes) (w : World ε Disk) : Option ℕ :=
  match (createFile path : Io ε Disk Place).run w with
  | (.error _, w') => if w'.state.log = w.state.log then none else some 0
  | (.ok _, w') => match w'.faults.headD .none with
    | .fail n _ => some n
    | .kill n => some n
    | _ => some data.length

/-- A system call is not done, or done at the place of its path. -/
theorem run_sysAt {α : Type} (path : Path) (act : Disk → Place → Except Errno (α × Disk))
    (w : World ε Disk) :
    (∃ e, (sysAt path act : Io ε Disk α).run w = (.error e, ⟨w.state, w.faults.tail⟩))
      ∨ ∃ a d' r, act w.state (resolve path) = .ok (a, d')
        ∧ (sysAt path act : Io ε Disk α).run w = (r, ⟨d', w.faults.tail⟩)
        ∧ ∀ b, r = .ok b → b = a := by
  unfold sysAt sys
  rcases run_atomic (ε := ε) _ w with h | ⟨r, hrun, hr⟩
  · exact .inl h
  rw [hrun]
  rcases hf : w.state.find path with e | place <;> simp only [hf] at hr ⊢
  · rcases r with e' | b
    · exact .inl ⟨e', rfl⟩
    · cases hr b rfl
  obtain rfl := Disk.find_eq hf
  rcases ha : act w.state (resolve path) with e | ⟨a, d'⟩ <;> simp only [ha] at hr ⊢
  · rcases r with e' | b
    · exact .inl ⟨e', rfl⟩
    · cases hr b rfl
  · exact .inr ⟨a, d', r, rfl, rfl, fun b hb => (Except.ok.inj (hr b hb)).symm⟩

theorem run_createFile (path : Path) (w : World ε Disk) :
    (∃ e, (createFile path : Io ε Disk Place).run w = (.error e, ⟨w.state, w.faults.tail⟩))
      ∨ ∃ r, (createFile path : Io ε Disk Place).run w
          = (r, ⟨w.state.put (resolve path) (.file []) .create, w.faults.tail⟩)
        ∧ ∀ place, r = .ok place → place = resolve path := by
  unfold createFile
  rcases run_sysAt path _ w with h | ⟨place, d', r, hact, hrun, hr⟩
  · exact .inl h
  · split at hact <;> cases hact
    exact .inr ⟨r, hrun, hr⟩

theorem content_of_written (h : (writeFile path data : Io ε Disk Unit).run w = (.ok (), w')) :
    w'.state.content (resolve path) = some data := by
  have hwrite : wpOk (fun _ => True) (writeFile path data : Io ε Disk Unit) w.state
      fun _ d' => d'.content (resolve path) = some data := by
    refine wpOk_createFile.bind fun place d' hplace => ?_
    obtain ⟨rfl, hc⟩ := hplace
    refine wp_mono (wpOk_writeInto hc data 0) fun _ d'' hd u hu => ?_
    exact (hd u hu).trans (by rw [pwrite_of_le (Nat.zero_le _)]; simp)
  exact hwrite.run h

/-- A write that stops leaves the beginning of what it writes. -/
theorem content_of_stopped {e : Stop ε}
    (h : (writeFile path data : Io ε Disk Unit).run w = (.error e, w')) :
    w'.state.content (resolve path) = (writeStop path data w).elim
      (w.state.content (resolve path)) fun n => some (data.take n) := by
  rw [writeFile, run_bind] at h
  unfold writeStop
  rcases run_createFile path w with ⟨e', hrun⟩ | ⟨r, hrun, hplace⟩
  · rw [hrun] at h ⊢
    cases h
    simp
  · rw [hrun] at h ⊢
    have hnode : (w.state.put (resolve path) (.file []) .create).node (resolve path)
        = some (.file []) := by simp [Disk.node_put]
    rcases r with e' | place
    · cases h
      have hlog : (w.state.put (resolve path) (.file []) .create).log ≠ w.state.log := by
        simp [Disk.put]
      simp [hlog, Disk.content, hnode]
    · obtain rfl := hplace place rfl
      have hfill : ∀ part : FileBytes, ((w.state.put (resolve path) (.file []) .create).fill
          (resolve path) (pwrite [] 0 part)).content (resolve path) = some part := fun part => by
        rw [Disk.content, Disk.node_fill, if_pos rfl, pwrite_of_le (Nat.zero_le _)]
        simp
      simp only [writeInto, call, hnode] at h ⊢
      rcases hfault : w.faults.tail.headD .none with _ | k | ⟨k, e'⟩ | k <;>
        rw [hfault] at h <;> cases h
      · exact hfill _
      · exact hfill _

end Stopped

section Becomes

variable {Q : Place → Option FileBytes → Prop} {d d' : Disk} {path : Path}

/-- A content that has changed is one that `Q` allows at its place. -/
def Becomes (Q : Place → Option FileBytes → Prop) (d d' : Disk) : Prop :=
  ∀ p, d'.content p = d.content p ∨ Q p (d'.content p)

theorem Becomes.frame : Frame (Becomes Q) where
  refl _ _ := .inl rfl
  trans a b c h h' p := by
    rcases h' p with hsame | hQ
    · rw [hsame]
      exact h p
    · exact .inr hQ

theorem Becomes.mono {R : Place → Option FileBytes → Prop} (h : Becomes Q d d')
    (hQR : ∀ p c, Q p c → R p c) : Becomes R d d' := fun p => (h p).imp_right (hQR p _)

theorem Within.becomes {P : Place → Prop} (h : Within P d d') (hQ : ∀ p c, P p → Q p c) :
    Becomes Q d d' := fun p => by
  by_cases hp : P p
  · exact .inr (hQ p _ hp)
  · exact .inl (h.content p hp)

variable {ε : Type} [OsError ε]

theorem becomes_removeFile (h : Q (resolve path) none) :
    Keeps (Becomes Q) (removeFile path : Io ε Disk Unit) := by
  refine keeps_at Becomes.frame fun d a d' hf hd p => ?_
  split at hd <;> cases hd
  rcases eq_or_ne p (resolve path) with rfl | hp
  · have hgone : (d.del (resolve path)).content (resolve path) = none := by
      simp [Disk.content, Disk.node_del]
    exact .inr (hgone.symm ▸ h)
  · exact .inl (Disk.content_congr (by rw [Disk.node_del, if_neg hp]))

/-- A rename brings the content of its source to its target, or does nothing. -/
theorem becomes_renameFile {S : Fault ε → Prop} {target : Path} {c : FileBytes}
    (hc : d.content (resolve path) = some c) (hQ : Q (resolve path) none)
    (hQ' : Q (resolve target) (some c)) :
    wp S (renameFile path target : Io ε Disk Unit) d fun _ d' => Becomes Q d d' := by
  intro fs hfs
  rcases run_sysAt path _ ⟨d, fs⟩ with ⟨e, hrun⟩ | ⟨a, d', r, hact, hrun, -⟩
  · rw [renameFile, hrun]
    exact Becomes.frame.refl d
  · rw [renameFile, hrun]
    simp only [Disk.content_eq_some.1 hc] at hact
    rcases hb : d.find target with e | b <;> simp only [hb] at hact
    · cases hact
    obtain rfl := Disk.find_eq hb
    split_ifs at hact
    cases hact
    intro p
    have hnode : (d.move (resolve path) (resolve target) c).node p = if p = resolve target then
        some (.file c) else if p = resolve path then none else d.node p := Disk.node_move _ _ _ _ _
    rcases eq_or_ne p (resolve target) with rfl | htarget
    · rw [if_pos rfl] at hnode
      exact .inr ((Disk.content_eq_some.2 hnode).symm ▸ hQ')
    rw [if_neg htarget] at hnode
    rcases eq_or_ne p (resolve path) with rfl | hpath
    · rw [if_pos rfl] at hnode
      have hgone : (d.move (resolve path) (resolve target) c).content (resolve path) = none := by
        rw [Disk.content, hnode]
      exact .inr (hgone.symm ▸ hQ)
    · rw [if_neg hpath] at hnode
      exact .inl (Disk.content_congr hnode)

end Becomes

end UnixFs

import BlazeNet.Lib.FsContent

/-!
# What stays on a disk

`Stays Q d d'`: from `d` to `d'` directories have stayed directories, and what was at a place in `Q`
has not gone, though its content may have changed. Only a removal or a rename takes something away,
and it takes a file, from the place its path names.
-/

namespace UnixFs

open FaultIo Io RustStd

variable {Q : Place → Prop} {d d' : Disk} {path : Path} {place : Place}

structure Stays (Q : Place → Prop) (d d' : Disk) : Prop where
  dirs : DirsStay d d'
  kept : ∀ p, Q p → d.node p ≠ none → d'.node p ≠ none

theorem Stays.frame : Frame (Stays Q) where
  refl d := ⟨DirsStay.frame.refl d, fun _ _ h => h⟩
  trans _ _ _ h h' :=
    ⟨DirsStay.frame.trans _ _ _ h.dirs h'.dirs, fun p hp hn => h'.kept p hp (h.kept p hp hn)⟩

theorem Stays.mono {R : Place → Prop} (hQR : ∀ p, R p → Q p) (h : Stays Q d d') : Stays R d d' :=
  ⟨h.dirs, fun p hp => h.kept p (hQR p hp)⟩

/-- A change at one place, which was no directory. -/
theorem Stays.of_node (place : Place) (hn : d.node place ≠ some .dir)
    (hplace : Q place → d'.node place ≠ none) (h : ∀ q, q ≠ place → d'.node q = d.node q) :
      Stays Q d d' := by
  refine ⟨dirsStay_of_node place hn h, fun p hp hnode => ?_⟩
  rcases eq_or_ne p place with rfl | hne
  · exact hplace hp
  · rwa [h p hne]

/-- A path still leads to something. -/
theorem Stays.pathExists (h : Stays Q d d') (hQ : Q (resolve path))
    (hex : d.pathExists path = true) : d'.pathExists path = true := by
  unfold Disk.pathExists Disk.stat at hex ⊢
  rcases hf : d.find path with e | place <;> simp only [hf] at hex
  · cases hex
  obtain rfl := Disk.find_eq hf
  rcases hn : d.node (resolve path) with _ | n <;> simp only [hn] at hex
  · cases hex
  have hnode := h.kept _ hQ (by simp [hn])
  rw [show d'.find path = .ok (resolve path) from Disk.walk_of_dirsStay h.dirs path [] hf]
  obtain ⟨n', hn'⟩ := Option.ne_none_iff_exists'.1 hnode
  simp only [hn']

section Calls

variable {ε : Type} [OsError ε]

theorem stays_mkdir : Keeps (Stays Q) (mkdir path : Io ε Disk Unit) := by
  refine keeps_at Stays.frame fun d a d' _ hd => ?_
  split at hd <;> cases hd
  rename_i hn
  exact .of_node (resolve path) (by simp [hn]) (fun _ => by simp [Disk.node_put])
    fun q hq => by rw [Disk.node_put, if_neg hq]

theorem stays_createDirAll : Keeps (Stays Q) (createDirAll path : Io ε Disk Unit) :=
  keeps_createDirAll Stays.frame fun _ _ => stays_mkdir

theorem stays_note (d : Disk) (a : Access) : Stays Q d (d.note place a) :=
  ⟨fun _ h => h, fun _ _ h => h⟩

theorem stays_openFile : Keeps (Stays Q) (openFile path : Io ε Disk Place) := by
  refine keeps_at Stays.frame fun d a d' _ hd => ?_
  split at hd <;> cases hd
  exact stays_note d .open

theorem stays_readFile : Keeps (Stays Q) (readFile path : Io ε Disk FileBytes) := by
  refine keeps_at Stays.frame fun d a d' _ hd => ?_
  split at hd <;> cases hd
  exact stays_note d .open

theorem quiet_readDir : Quiet (readDir path : Io ε Disk (List Name)) := by
  refine keeps_at Frame.same fun d a d' _ hd => ?_
  split at hd <;> cases hd
  rfl

theorem stays_createFile :
    Ensures (Stays Q) (fun place => place = resolve path) (createFile path : Io ε Disk Place) := by
  refine ensures_at Stays.frame fun d a d' hf hd => ?_
  split at hd <;> cases hd
  exact ⟨.of_node (resolve path) ‹_› (fun _ => by simp [Disk.node_put])
    fun q hq => by rw [Disk.node_put, if_neg hq], rfl⟩

omit [OsError ε] in
theorem stays_writeInto (data : FileBytes) (offset : ℕ) :
    Keeps (Stays Q) (writeInto place data offset : Io ε Disk Unit) := by
  refine fun S d => wp_call fun fault _ => ?_
  have written : ∀ content part, d.node place = some (.file content) →
      Stays Q d (d.fill place (pwrite content offset part)) := fun content part hn =>
    .of_node place (by simp [hn]) (fun _ => by simp [Disk.node_fill])
      fun q hq => by rw [Disk.node_fill, if_neg hq]
  rcases fault with _ | k | ⟨k, e⟩ | k <;> dsimp only <;> split
  all_goals
    first
    | exact written _ _ ‹_›
    | exact Stays.frame.refl d

theorem stays_writeFile (data : FileBytes) :
    Keeps (Stays Q) (writeFile path data : Io ε Disk Unit) :=
  Stays.frame.seq stays_createFile.keeps fun _ => stays_writeInto data 0

theorem stays_removeFile (h : ¬ Q (resolve path)) :
    Keeps (Stays Q) (removeFile path : Io ε Disk Unit) := by
  refine keeps_at Stays.frame fun d a d' _ hd => ?_
  split at hd <;> cases hd
  rename_i hn
  exact .of_node (resolve path) (by simp [hn]) (fun hq => absurd hq h)
    fun q hq => by rw [Disk.node_del, if_neg hq]

theorem stays_renameFile {target : Path} (h : ¬ Q (resolve path)) :
    Keeps (Stays Q) (renameFile path target : Io ε Disk Unit) := by
  refine keeps_at Stays.frame fun d a d' _ hd => ?_
  split at hd <;> try cases hd
  rename_i content b hn hb
  split_ifs at hd with hdir
  cases hd
  -- the source goes, then the target is there
  have hdel : Stays Q d (d.del (resolve path)) :=
    .of_node (resolve path) (by simp [hn]) (fun hq => absurd hq h)
    fun q hq => by rw [Disk.node_del, if_neg hq]
  refine Stays.frame.trans _ _ _ hdel (.of_node b ?_ (fun _ => ?_) fun q hq => ?_)
  · rw [Disk.node_del]
    split_ifs
    · simp
    · exact hdir
  · rw [Disk.node_move, if_pos rfl]
    simp
  · rw [Disk.node_move, if_neg hq, Disk.node_del]

end Calls

end UnixFs

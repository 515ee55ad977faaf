import BlazeNet.Lib.Fs

/-!
# What a program can touch on a disk

`Touches A d d'`: between the disks `d` and `d'` only accesses that `A` allows were made, and every
place without an allowed access is as it was. Each call touches the place its path names, whatever
faults it meets; `createDirAll` touches the places of the prefixes of its path.
-/

namespace UnixFs

open FaultIo Io RustStd

section Places

theorem foldl_climb_ofPlace (q : Place) : ∀ p : Place, (ofPlace q).foldl climb p = p ++ q := by
  induction q with
  | nil => simp [ofPlace]
  | cons n q ih =>
    intro p
    have h := ih (p ++ [n])
    simp only [ofPlace, List.map_cons, List.foldl_cons, climb] at h ⊢
    simpa using h

@[simp] theorem resolve_ofPlace (p : Place) : resolve (ofPlace p) = p := by
  simpa [resolve] using foldl_climb_ofPlace p []

theorem resolve_append (path rest : Path) :
    resolve (path ++ rest) = rest.foldl climb (resolve path) := by
  simp [resolve]

theorem ofPlace_append (p q : Place) : ofPlace (p ++ q) = ofPlace p ++ ofPlace q := by
  simp [ofPlace]

theorem Disk.walk_eq (d : Disk) : ∀ (path : Path) (p place : Place),
    d.walk p path = .ok place → place = path.foldl climb p := by
  intro path
  induction path with
  | nil =>
    intro p place h
    simpa [walk, eq_comm] using h
  | cons c rest ih =>
    intro p place h
    simp only [walk] at h
    split at h
    · exact ih _ _ h
    · cases h
    · cases h

theorem Disk.find_eq {d : Disk} {path : Path} {place : Place} (h : d.find path = .ok place) :
    place = resolve path := d.walk_eq path [] place h

end Places

section Nodes

variable (d : Disk) (place p : Place)

theorem Disk.node_put (n : Node) (a : Access) :
    (d.put place n a).node p = if p = place then some n else d.node p := by
  split_ifs with h
  · rw [h]
    exact AList.lookup_insert _
  · exact AList.lookup_insert_ne h

theorem Disk.node_fill (content : FileBytes) :
    (d.fill place content).node p = if p = place then some (.file content) else d.node p :=
  d.node_put place p _ .create

theorem Disk.node_del : (d.del place).node p = if p = place then none else d.node p := by
  split_ifs with h
  · rw [h]
    exact AList.lookup_erase _ _
  · exact AList.lookup_erase_ne h

@[simp] theorem Disk.node_note (a : Access) : (d.note place a).node p = d.node p := rfl

theorem Disk.node_move (source : Place) (content : FileBytes) :
    (d.move source place content).node p
      = if p = place then some (.file content) else if p = source then none else d.node p := by
  have h := (d.del source).node_put place p (.file content) .rename
  rw [Disk.node_del] at h
  exact h

end Nodes

section Touches

/-- Only accesses in `A` were made, and nothing else changed. -/
structure Touches (A : Access → Place → Prop) (d d' : Disk) : Prop where
  log : ∀ e ∈ d'.log, e ∈ d.log ∨ A e.1 e.2
  node : ∀ place, d'.node place = d.node place ∨ ∃ a, a ≠ .open ∧ A a place

variable {A : Access → Place → Prop} {ε α : Type}

theorem Touches.refl (d : Disk) : Touches A d d := ⟨fun _ h => .inl h, fun _ => .inl rfl⟩

theorem Touches.trans (a b c : Disk) (h : Touches A a b) (h' : Touches A b c) : Touches A a c := by
  refine ⟨fun e he => ?_, fun place => ?_⟩
  · rcases h'.log e he with he | hA
    · exact h.log e he
    · exact .inr hA
  · rcases h'.node place with hn | hA
    · rw [hn]
      exact h.node place
    · exact .inr hA

theorem Touches.frame : Frame (Touches A) := ⟨Touches.refl, Touches.trans⟩

theorem Touches.mono {B : Access → Place → Prop} {d d' : Disk} (hAB : ∀ a p, A a p → B a p)
    (h : Touches A d d') : Touches B d d' :=
  ⟨fun e he => (h.log e he).imp id (hAB _ _),
    fun p => (h.node p).imp id fun ⟨a, ha, hA⟩ => ⟨a, ha, hAB _ _ hA⟩⟩

theorem touches_put {d : Disk} {place : Place} {n : Node} {a : Access} (h : A a place)
    (ha : a ≠ .open) : Touches A d (d.put place n a) := by
  refine ⟨fun e he => ?_, fun p => ?_⟩
  · rcases List.mem_cons.1 he with rfl | he
    · exact .inr h
    · exact .inl he
  · rw [Disk.node_put]
    split_ifs with hp
    · exact .inr ⟨a, ha, hp ▸ h⟩
    · exact .inl rfl

theorem touches_note {d : Disk} {place : Place} (h : A .open place) :
    Touches A d (d.note place .open) := by
  refine ⟨fun e he => ?_, fun p => .inl rfl⟩
  rcases List.mem_cons.1 he with rfl | he
  · exact .inr h
  · exact .inl he

theorem touches_fill {d : Disk} {place : Place} {content : FileBytes} (h : A .create place) :
    Touches A d (d.fill place content) := by
  refine ⟨fun e he => .inl he, fun p => ?_⟩
  rw [Disk.node_fill]
  split_ifs with hp
  · exact .inr ⟨.create, by simp, hp ▸ h⟩
  · exact .inl rfl

theorem touches_del {d : Disk} {place : Place} (h : A .remove place) :
    Touches A d (d.del place) := by
  refine ⟨fun e he => ?_, fun p => ?_⟩
  · rcases List.mem_cons.1 he with rfl | he
    · exact .inr h
    · exact .inl he
  · rw [Disk.node_del]
    split_ifs with hp
    · exact .inr ⟨.remove, by simp, hp ▸ h⟩
    · exact .inl rfl

theorem touches_move {d : Disk} {a b : Place} {content : FileBytes} (ha : A .rename a)
    (hb : A .rename b) : Touches A d (d.move a b content) := by
  refine ⟨fun e he => ?_, fun p => ?_⟩
  · rcases List.mem_cons.1 he with rfl | he
    · exact .inr ha
    · rcases List.mem_cons.1 he with rfl | he
      · exact .inr hb
      · exact .inl he
  · rw [Disk.node_move]
    split_ifs with hp hp
    · exact .inr ⟨.rename, by simp, hp ▸ hb⟩
    · exact .inr ⟨.rename, by simp, hp ▸ ha⟩
    · exact .inl rfl

end Touches

section Calls

variable {A : Access → Place → Prop} {ε α β : Type} [OsError ε] {path : Path}

omit [OsError ε] in
theorem keeps_seq {p : Io ε Disk α} {f : α → Io ε Disk β} (hp : Keeps (Touches A) p)
    (hf : ∀ a, Keeps (Touches A) (f a)) : Keeps (Touches A) (p >>= f) :=
  Keeps.bind Touches.trans hp hf

omit [OsError ε] in
theorem keeps_quiet {p : Io ε Disk α} (hp : Quiet p) : Keeps (Touches A) p :=
  hp.keeps Touches.refl

/-- A call that is done at most once, at the place its path names. -/
theorem ensures_sysAt {act : Disk → Place → Except Errno (α × Disk)} {R : α → Prop}
    (h : ∀ d a d', act d (resolve path) = .ok (a, d') → Touches A d d' ∧ R a) :
    Ensures (Touches A) R (sysAt path act : Io ε Disk α) := by
  unfold sysAt sys
  refine Ensures.atomic Touches.refl fun d => ?_
  rcases hf : d.find path with e | place <;> simp only [hf]
  · exact ⟨Touches.refl d, by simp⟩
  obtain rfl := Disk.find_eq hf
  rcases ha : act d (resolve path) with e | ⟨a, d'⟩ <;> simp only
  · exact ⟨Touches.refl d, by simp⟩
  · obtain ⟨ht, hr⟩ := h d a d' ha
    refine ⟨ht, fun b hb => ?_⟩
    cases hb
    exact hr

theorem keeps_sysAt {act : Disk → Place → Except Errno (α × Disk)}
    (h : ∀ d a d', act d (resolve path) = .ok (a, d') → Touches A d d') :
    Keeps (Touches A) (sysAt path act : Io ε Disk α) :=
  (ensures_sysAt (R := fun _ => True) fun d a d' hd => ⟨h d a d' hd, trivial⟩).keeps

/-- A call that returns an error has done nothing. -/
theorem keepsOnErr_sysAt (act : Disk → Place → Except Errno (α × Disk)) :
    KeepsOnErr (fun d d' => d' = d) (sysAt path act : Io ε Disk α) := by
  unfold sysAt sys
  refine fun S d => wp_atomic (fun e he => ?_) (fun _ _ _ _ _ => rfl) fun _ _ e he => by cases he
  rcases hf : d.find path with e' | place <;> simp only [hf] at he ⊢
  rcases ha : act d place with e' | ⟨a, d'⟩ <;> simp only [ha] at he ⊢
  cases he

theorem quiet_ask (f : Disk → Except Errno α) : Quiet (ask f : Io ε Disk α) := Quiet.query _

theorem quiet_test (yes : Node → Bool) : Quiet (test yes path : Io ε Disk Bool) := by
  refine Quiet.bind (Keeps.attempt (quiet_ask _)) fun r => ?_
  rcases r with e | n <;> exact Quiet.pure _

theorem quiet_isFile : Quiet (isFile path : Io ε Disk Bool) := quiet_test _

theorem quiet_isDir : Quiet (isDir path : Io ε Disk Bool) := quiet_test _

theorem quiet_pathExists : Quiet (pathExists path : Io ε Disk Bool) := quiet_test _

omit [OsError ε] in
theorem quiet_flushFile : Quiet (flushFile : Io ε Disk Unit) := Quiet.query _

theorem quiet_readFrom (place : Place) (n offset : ℕ) :
    Quiet (readFrom place n offset : Io ε Disk FileBytes) := by
  refine fun S d => wp_call fun fault _ => ?_
  rcases d.node place with _ | content | _
  · rfl
  · rcases fault with _ | k | ⟨k, e⟩ | k <;> rfl
  · rfl

theorem keeps_mkdir (h : A .mkdir (resolve path)) :
    Keeps (Touches A) (mkdir path : Io ε Disk Unit) := by
  refine keeps_sysAt fun d a d' hd => ?_
  split at hd <;> cases hd
  exact touches_put h (by simp)

theorem quiet_orIsDir (e : ε) : Quiet (orIsDir path e) := by
  refine Quiet.bind quiet_isDir fun b => ?_
  cases b
  · exact Quiet.stop _
  · exact Quiet.pure _

theorem keeps_createDirAllRev {K : Disk → Disk → Prop} (hK : Frame K) : ∀ up : List Component,
    (∀ q, q <+: up.reverse → Keeps K (mkdir q : Io ε Disk Unit)) →
      Keeps K (createDirAllRev up : Io ε Disk Unit)
  | [], _ => hK.pure ()
  | c :: up, h => by
    have hmk : Keeps K (attempt (mkdir (c :: up).reverse : Io ε Disk Unit)) :=
      (h _ (List.prefix_refl _)).attempt
    have hup : Keeps K (createDirAllRev up : Io ε Disk Unit) :=
      keeps_createDirAllRev hK up fun q hq => h q (hq.trans (by simp))
    refine hK.seq hmk fun r => ?_
    rcases r with e | _
    · change Keeps _ (if OsError.isNotFound e then _ else _)
      split_ifs
      · refine hK.seq hup fun _ => hK.seq hmk fun r => ?_
        rcases r with e' | _
        · exact hK.quiet (quiet_orIsDir e')
        · exact hK.pure ()
      · exact hK.quiet (quiet_orIsDir e)
    · exact hK.pure ()

theorem keeps_createDirAll {K : Disk → Disk → Prop} (hK : Frame K)
    (h : ∀ q, q <+: path → Keeps K (mkdir q : Io ε Disk Unit)) :
    Keeps K (createDirAll path : Io ε Disk Unit) :=
  keeps_createDirAllRev hK _ fun q hq => h q (by simpa using hq)

theorem ensures_openFile (h : A .open (resolve path)) :
    Ensures (Touches A) (fun place => place = resolve path) (openFile path : Io ε Disk Place) := by
  refine ensures_sysAt fun d a d' hd => ?_
  split at hd <;> cases hd
  exact ⟨touches_note h, rfl⟩

theorem ensures_createFile (h : A .create (resolve path)) :
    Ensures (Touches A) (fun place => place = resolve path)
      (createFile path : Io ε Disk Place) := by
  refine ensures_sysAt fun d a d' hd => ?_
  split at hd <;> cases hd
  exact ⟨touches_put h (by simp), rfl⟩

theorem keeps_readFile (h : A .open (resolve path)) :
    Keeps (Touches A) (readFile path : Io ε Disk FileBytes) := by
  refine keeps_sysAt fun d a d' hd => ?_
  split at hd <;> cases hd
  exact touches_note h

theorem keeps_removeFile (h : A .remove (resolve path)) :
    Keeps (Touches A) (removeFile path : Io ε Disk Unit) := by
  refine keeps_sysAt fun d a d' hd => ?_
  split at hd <;> cases hd
  exact touches_del h

theorem keeps_renameFile {target : Path} (h : A .rename (resolve path))
    (h' : A .rename (resolve target)) :
    Keeps (Touches A) (renameFile path target : Io ε Disk Unit) := by
  refine keeps_sysAt fun d a d' hd => ?_
  split at hd <;> try cases hd
  split_ifs at hd
  cases hd
  exact touches_move h (Disk.find_eq ‹_› ▸ h')

omit [OsError ε] in
theorem keeps_writeInto {place : Place} (h : A .create place) (data : FileBytes) (offset : ℕ) :
    Keeps (Touches A) (writeInto place data offset : Io ε Disk Unit) := by
  refine fun S d => wp_call fun fault _ => ?_
  rcases fault with _ | k | ⟨k, e⟩ | k <;> dsimp only <;> split
  all_goals
    first
    | exact touches_fill h
    | exact Touches.refl d

theorem keeps_writeFile (h : A .create (resolve path)) (data : FileBytes) :
    Keeps (Touches A) (writeFile path data : Io ε Disk Unit) :=
  (ensures_createFile h).bind Touches.trans fun _ hp => keeps_writeInto (hp ▸ h) data 0

end Calls

end UnixFs

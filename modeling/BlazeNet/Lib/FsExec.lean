import BlazeNet.Lib.FsFrame

/-!
# The calls of a file system when nothing fails by chance

On a well-formed disk every entry lies in a directory, so a place that holds something is reached
by the path of its names. The calls then do what the entries say: a file is read, written, removed
and renamed where it lies, and `createDirAll` makes the directories that are missing.
-/

namespace UnixFs

open FaultIo Io RustStd

/-- Every entry lies in a directory. -/
structure Disk.Wf (d : Disk) : Prop where
  root : d.node [] = some .dir
  parent : ∀ p n, d.node (p ++ [n]) ≠ none → d.node p = some .dir

namespace Disk

variable {d : Disk} {p q : Place}

/-- The content of the file at a place. -/
def content (d : Disk) (p : Place) : Option FileBytes := match d.node p with
  | some (.file c) => some c
  | _ => none

theorem content_eq_some {c : FileBytes} : d.content p = some c ↔ d.node p = some (.file c) := by
  unfold content
  rcases d.node p with _ | c' | _ <;> simp

theorem content_congr {d' : Disk} (h : d'.node p = d.node p) : d'.content p = d.content p := by
  rw [content, content, h]

theorem walk_ofPlace (d : Disk) (q : Place) : ∀ p : Place,
    (∀ r, r <+: q → r ≠ q → d.node (p ++ r) = some .dir) → d.walk p (ofPlace q) = .ok (p ++ q) := by
  induction q with
  | nil => simp [ofPlace, walk]
  | cons n q ih =>
    intro p h
    have hp : d.node p = some .dir := by simpa using h [] (by simp) (by simp)
    have hstep := ih (p ++ [n]) fun r hr hne => by
      have := h (n :: r) (List.cons_prefix_cons.2 ⟨rfl, hr⟩) (by simpa using hne)
      simpa using this
    simp only [ofPlace, List.map_cons, walk, hp, climb] at hstep ⊢
    simpa using hstep

/-- A place whose proper prefixes are directories is found. -/
theorem find_ofPlace (h : ∀ r, r <+: p → r ≠ p → d.node r = some .dir) :
    d.find (ofPlace p) = .ok p := by
  simpa [find] using d.walk_ofPlace p [] (by simpa using h)

theorem Wf.dir_of_prefix (hd : d.Wf) (hp : d.node p ≠ none) (hq : q <+: p) (hne : q ≠ p) :
    d.node q = some .dir := by
  induction p using List.reverseRecOn with
  | nil => exact absurd (List.prefix_nil.1 hq) hne
  | append_singleton p n ih =>
    have hdir := hd.parent p n hp
    rcases List.prefix_concat_iff.1 hq with rfl | hq
    · exact absurd rfl hne
    by_cases hqp : q = p
    · rw [hqp, hdir]
    · exact ih (by simp [hdir]) hq hqp

theorem Wf.dir_of_prefix_dir (hd : d.Wf) (hp : d.node p = some .dir) (hq : q <+: p) :
    d.node q = some .dir := by
  by_cases hqp : q = p
  · rw [hqp, hp]
  · exact hd.dir_of_prefix (by simp [hp]) hq hqp

theorem Wf.find_ofPlace (hd : d.Wf) (hp : d.node p ≠ none) : d.find (ofPlace p) = .ok p :=
  Disk.find_ofPlace fun _ hr hne => hd.dir_of_prefix hp hr hne

/-- A place right below a directory is found, whether something lies there or not. -/
theorem Wf.find_below (hd : d.Wf) {n : Name} (hp : d.node p = some .dir) :
    d.find (ofPlace (p ++ [n])) = .ok (p ++ [n]) := by
  refine Disk.find_ofPlace fun r hr hne => ?_
  rcases List.prefix_concat_iff.1 hr with rfl | hr
  · exact absurd rfl hne
  exact hd.dir_of_prefix_dir hp hr

theorem Wf.stat_ofPlace (hd : d.Wf) (p : Place) : d.stat (ofPlace p) = match d.node p with
    | some n => .ok n
    | none => .error (match d.find (ofPlace p) with
      | .ok _ => .notFound
      | .error e => e) := by
  rcases hp : d.node p with _ | n
  · rcases hf : d.find (ofPlace p) with e | place
    · simp [stat, hf]
    · obtain rfl : place = p := by simpa using find_eq hf
      simp [stat, hf, hp]
  · simp [stat, hd.find_ofPlace (p := p) (by simp [hp]), hp]

theorem Wf.isFile_ofPlace (hd : d.Wf) (p : Place) :
    d.isFile (ofPlace p) = (d.content p).isSome := by
  rw [isFile, hd.stat_ofPlace, content]
  rcases d.node p with _ | c | _ <;> rfl

theorem Wf.isDir_ofPlace (hd : d.Wf) (p : Place) :
    d.isDir (ofPlace p) = decide (d.node p = some .dir) := by
  rw [isDir, hd.stat_ofPlace]
  rcases d.node p with _ | c | _ <;> simp

theorem Wf.pathExists_ofPlace (hd : d.Wf) (p : Place) :
    d.pathExists (ofPlace p) = (d.node p).isSome := by
  rw [pathExists, hd.stat_ofPlace]
  rcases d.node p with _ | c | _ <;> rfl

/-- A change of one entry keeps the disk well formed where the parent is a directory and no
directory is replaced. -/
theorem Wf.of_update {d' : Disk} (hd : d.Wf) {n : Name} (hp : d.node p = some .dir)
    (hpn : d.node (p ++ [n]) ≠ some .dir)
    (h : ∀ q, q ≠ p ++ [n] → d'.node q = d.node q) : d'.Wf := by
  refine ⟨?_, fun q m hq => ?_⟩
  · rw [h [] (by simp), hd.root]
  · have hne : q ≠ p ++ [n] → d'.node q = d.node q := h q
    by_cases hqm : q ++ [m] = p ++ [n]
    · obtain ⟨rfl, -⟩ := List.append_inj' hqm rfl
      rw [h q (by simp), hp]
    · have hdir := hd.parent q m (by rwa [h _ hqm] at hq)
      rw [hne fun hq' => hpn (hq' ▸ hdir), hdir]

theorem mem_entries_of_node {n : Node} (h : d.node p = some n) :
    (⟨p, n⟩ : Sigma fun _ : Place => Node) ∈ d.nodes.entries := AList.mem_lookup_iff.1 h

/-- It is enough to look at the entries. -/
theorem wf_of_entries (hroot : d.node [] = some .dir)
    (h : ∀ e ∈ d.nodes.entries, e.1 = [] ∨ d.node e.1.dropLast = some .dir) : d.Wf := by
  refine ⟨hroot, fun p n hp => ?_⟩
  obtain ⟨node, hnode⟩ := Option.ne_none_iff_exists'.1 hp
  have := h _ (mem_entries_of_node hnode)
  simpa using this

theorem Wf.congr {d' : Disk} (hd : d.Wf) (h : ∀ q, d'.node q = d.node q) : d'.Wf :=
  ⟨by rw [h, hd.root], fun q m hq => by rw [h, hd.parent q m (by rwa [h] at hq)]⟩

end Disk

section Exec

variable {ε α : Type} [OsError ε] {d : Disk} {path : Path} {place : Place}

theorem exec_test (yes : Node → Bool) : exec (test yes path : Io ε Disk Bool) d
    = (.ok (match d.stat path with
        | .ok n => yes n
        | .error _ => false), d) := by
  unfold test
  rw [exec_bind, exec_attempt, ask, exec_query]
  rcases d.stat path with e | n <;> rfl

theorem exec_isFile : exec (isFile path : Io ε Disk Bool) d = (.ok (d.isFile path), d) := by
  rw [isFile, exec_test, Disk.isFile]
  rcases d.stat path with e | c | _ <;> rfl

theorem exec_isDir : exec (isDir path : Io ε Disk Bool) d = (.ok (d.isDir path), d) := by
  rw [isDir, exec_test, Disk.isDir]
  rcases d.stat path with e | c | _ <;> rfl

theorem exec_pathExists :
    exec (pathExists path : Io ε Disk Bool) d = (.ok (d.pathExists path), d) := by
  rw [pathExists, exec_test, Disk.pathExists]
  rcases d.stat path with e | c | _ <;> rfl

theorem exec_sysAt {act : Disk → Place → Except Errno (α × Disk)} (hf : d.find path = .ok place) :
    exec (sysAt path act : Io ε Disk α) d = match act d place with
      | .ok (a, d') => (.ok a, d')
      | .error e => (.error (.err (OsError.ofErrno e)), d) := by
  unfold sysAt sys
  rw [exec_atomic]
  simp only [hf]
  rcases act d place with e | ⟨a, d'⟩ <;> rfl

theorem exec_sysAt_error {act : Disk → Place → Except Errno (α × Disk)} {e : Errno}
    (hf : d.find path = .error e) :
    exec (sysAt path act : Io ε Disk α) d = (.error (.err (OsError.ofErrno e)), d) := by
  unfold sysAt sys
  rw [exec_atomic]
  simp only [hf]
  rfl

theorem exec_sysAt_cases (act : Disk → Place → Except Errno (α × Disk)) :
    (∃ a d', exec (sysAt path act : Io ε Disk α) d = (.ok a, d'))
      ∨ ∃ e, exec (sysAt path act : Io ε Disk α) d = (.error (.err e), d) := by
  rcases hf : d.find path with e | place
  · exact .inr ⟨_, exec_sysAt_error hf⟩
  · rw [exec_sysAt hf]
    rcases act d place with e | ⟨a, d'⟩
    · exact .inr ⟨_, rfl⟩
    · exact .inl ⟨a, d', rfl⟩

theorem exec_openFile (hf : d.find path = .ok place) (hn : d.node place ≠ none) :
    exec (openFile path : Io ε Disk Place) d = (.ok place, d.note place .open) := by
  rw [openFile, exec_sysAt hf]
  rcases h : d.node place with _ | n
  · exact absurd h hn
  · rfl

theorem exec_createFile (hf : d.find path = .ok place) (hn : d.node place ≠ some .dir) :
    exec (createFile path : Io ε Disk Place) d = (.ok place, d.put place (.file []) .create) := by
  rw [createFile, exec_sysAt hf]
  rcases h : d.node place with _ | c | _
  · rfl
  · rfl
  · exact absurd h hn

theorem exec_createFile_dir (hf : d.find path = .ok place) (hn : d.node place = some .dir) :
    exec (createFile path : Io ε Disk Place) d
      = (.error (.err (OsError.ofErrno .isDirectory)), d) := by
  rw [createFile, exec_sysAt hf]
  simp only [hn]

theorem exec_readFile {c : FileBytes} (hf : d.find path = .ok place)
    (hn : d.node place = some (.file c)) :
    exec (readFile path : Io ε Disk FileBytes) d = (.ok c, d.note place .open) := by
  rw [readFile, exec_sysAt hf]
  simp only [hn]

theorem exec_readFrom {c : FileBytes} (hn : d.node place = some (.file c)) (n offset : ℕ) :
    exec (readFrom place n offset : Io ε Disk FileBytes) d = (.ok (pread c offset n), d) := by
  rw [readFrom, exec_call]
  simp only [hn]

omit [OsError ε] in
theorem exec_writeInto {c : FileBytes} (hn : d.node place = some (.file c)) (data : FileBytes)
    (offset : ℕ) : exec (writeInto place data offset : Io ε Disk Unit) d
      = (.ok (), d.fill place (pwrite c offset data)) := by
  rw [writeInto, exec_call]
  simp only [hn]

theorem exec_removeFile {c : FileBytes} (hf : d.find path = .ok place)
    (hn : d.node place = some (.file c)) :
    exec (removeFile path : Io ε Disk Unit) d = (.ok (), d.del place) := by
  rw [removeFile, exec_sysAt hf]
  simp only [hn]

theorem exec_renameFile {target : Path} {b : Place} {c : FileBytes} (hf : d.find path = .ok place)
    (hn : d.node place = some (.file c)) (hb : d.find target = .ok b)
    (hnb : d.node b ≠ some .dir) :
    exec (renameFile path target : Io ε Disk Unit) d = (.ok (), d.move place b c) := by
  rw [renameFile, exec_sysAt hf]
  simp only [hn, hb, if_neg hnb]

theorem exec_renameFile_none {target : Path} (hf : d.find path = .ok place)
    (hn : d.node place = none) : exec (renameFile path target : Io ε Disk Unit) d
      = (.error (.err (OsError.ofErrno .notFound)), d) := by
  rw [renameFile, exec_sysAt hf]
  simp only [hn]

/-- `fs::write` into a directory that is there. -/
theorem exec_writeFile (hf : d.find path = .ok place) (hn : d.node place ≠ some .dir)
    (data : FileBytes) : ∃ d', exec (writeFile path data : Io ε Disk Unit) d = (.ok (), d')
      ∧ ∀ q, d'.node q = if q = place then some (.file data) else d.node q := by
  have hfile : (d.put place (.file []) .create).node place = some (.file []) := by
    simp [Disk.node_put]
  refine ⟨(d.put place (.file []) .create).fill place (pwrite [] 0 data), ?_, fun q => ?_⟩
  · rw [writeFile, exec_bind, exec_createFile hf hn]
    exact exec_writeInto hfile data 0
  · have hdata : pwrite [] 0 data = data := by
      rw [pwrite_of_le (Nat.zero_le _)]
      simp
    rw [Disk.node_fill, Disk.node_put, hdata]
    split_ifs <;> rfl

end Exec

section Looks

variable {ε α β : Type} {d : Disk} {log : List (Access × Place)} {path : Path}

/-- The disk with another log. -/
def Disk.relog (d : Disk) (log : List (Access × Place)) : Disk := { d with log := log }

@[simp] theorem Disk.node_relog (p : Place) : (d.relog log).node p = d.node p := rfl

@[simp] theorem Disk.walk_relog : ∀ (path : Path) (p : Place),
    (d.relog log).walk p path = d.walk p path
  | [], _ => rfl
  | c :: rest, p => by
    simp only [walk, node_relog]
    split
    · exact Disk.walk_relog rest _
    · rfl
    · rfl

@[simp] theorem Disk.find_relog : (d.relog log).find path = d.find path := Disk.walk_relog path []

@[simp] theorem Disk.stat_relog : (d.relog log).stat path = d.stat path := by
  simp only [Disk.stat, Disk.find_relog, Disk.node_relog]

@[simp] theorem Disk.isDir_relog : (d.relog log).isDir path = d.isDir path := by
  rw [Disk.isDir, Disk.isDir, Disk.stat_relog]

@[simp] theorem Disk.isFile_relog : (d.relog log).isFile path = d.isFile path := by
  simp only [Disk.isFile, Disk.stat_relog]

/-- A program that looks at the entries of a disk and changes none, and does not see the log. -/
def Looks (p : Io ε Disk α) : Prop :=
  ∀ d log, ∃ log', exec p (d.relog log) = ((exec p d).1, d.relog log')

namespace Looks

theorem here {p : Io ε Disk α} (hp : Looks p) (d : Disk) :
    ∃ log, exec p d = ((exec p d).1, d.relog log) := hp d d.log

theorem pure (a : α) : Looks (pure a : Io ε Disk α) := fun _ log => ⟨log, rfl⟩

theorem stop (e : Stop ε) : Looks (Io.stop e : Io ε Disk α) := fun _ log => ⟨log, rfl⟩

theorem exec_seq {p : Io ε Disk α} (hp : Looks p) {f : α → Io ε Disk β} (hf : ∀ a, Looks (f a))
    (d : Disk) (log : List (Access × Place)) :
    ∃ log', exec (p >>= f) (d.relog log) = (match (exec p d).1 with
      | .ok a => (exec (f a) d).1
      | .error e => .error e, d.relog log') := by
  obtain ⟨log₁, h₁⟩ := hp d log
  rw [exec_bind, h₁]
  rcases (exec p d).1 with e | a
  · exact ⟨log₁, rfl⟩
  · exact hf a d log₁

theorem bind {p : Io ε Disk α} (hp : Looks p) {f : α → Io ε Disk β} (hf : ∀ a, Looks (f a)) :
    Looks (p >>= f) := by
  intro d log
  obtain ⟨log₁, h₁⟩ := exec_seq hp hf d log
  obtain ⟨log₂, h₂⟩ := exec_seq hp hf d d.log
  have hd : exec (p >>= f) d = _ := h₂
  exact ⟨log₁, by rw [h₁, hd]⟩

theorem onErr {p : Io ε Disk α} (hp : Looks p) (g : ε → ε) : Looks (Io.onErr g p) := by
  intro d log
  obtain ⟨log₁, h₁⟩ := hp d log
  obtain ⟨log₂, h₂⟩ := hp.here d
  refine ⟨log₁, ?_⟩
  rw [exec_onErr, exec_onErr, h₁, h₂]
  rcases (exec p d).1 with (e | _) | a <;> rfl

variable [OsError ε]

theorem isFile : Looks (isFile path : Io ε Disk Bool) := fun d log =>
  ⟨log, by rw [exec_isFile, exec_isFile, Disk.isFile_relog]⟩

theorem sysAt {act : Disk → Place → Except Errno (α × Disk)}
    (h : ∀ d log place, ∃ log', act (d.relog log) place
      = (act d place).map fun r => (r.1, d.relog log')) : Looks (sysAt path act : Io ε Disk α) := by
  intro d log
  rcases hf : d.find path with e | place
  · exact ⟨log, by rw [exec_sysAt_error hf, exec_sysAt_error (by rw [Disk.find_relog, hf])]⟩
  · obtain ⟨log', h⟩ := h d log place
    rw [exec_sysAt hf, exec_sysAt (by rw [Disk.find_relog, hf]), h]
    rcases act d place with e | ⟨a, d'⟩
    · exact ⟨log, rfl⟩
    · exact ⟨log', rfl⟩

theorem readFile : Looks (readFile path : Io ε Disk FileBytes) := by
  refine sysAt fun d log place => ⟨(.open, place) :: log, ?_⟩
  rw [Disk.node_relog]
  rcases d.node place with _ | c | _ <;> rfl

theorem readDir : Looks (readDir path : Io ε Disk (List Name)) := by
  refine sysAt fun d log place => ⟨log, ?_⟩
  rw [Disk.node_relog]
  rcases d.node place with _ | c | _ <;> rfl

end Looks

end Looks

section CreateDirAll

variable {ε : Type} [OsError ε] {d : Disk} {p : Place}

theorem Disk.walk_append (d : Disk) (x y : Path) : ∀ p : Place,
    d.walk p (x ++ y) = match d.walk p x with
      | .ok q => d.walk q y
      | .error e => .error e := by
  induction x with
  | nil => simp [walk]
  | cons c x ih =>
    intro p
    simp only [List.cons_append, walk]
    split
    · exact ih _
    · rfl
    · rfl

/-- A place that no file is on the way to is found, or a directory is missing. -/
theorem Disk.find_ofPlace_cases (hp : ∀ q, q <+: p → q ≠ p → d.content q = none) :
    d.find (ofPlace p) = .ok p ∨ d.find (ofPlace p) = .error .notFound := by
  induction p using List.reverseRecOn with
  | nil => exact .inl rfl
  | append_singleton p n ih =>
    have hpre : p <+: p ++ [n] := List.prefix_append _ _
    rw [ofPlace_append]
    unfold find at ih ⊢
    rw [walk_append]
    rcases ih fun q hq hne => hp q (hq.trans hpre) (by rintro rfl; simpa using hq.length_le) with
      h | h <;> rw [h]
    · have hc := hp p hpre (by simp)
      simp only [ofPlace, List.map_cons, List.map_nil, walk]
      rcases hn : d.node p with _ | c | _
      · exact .inr rfl
      · simp [content, hn] at hc
      · exact .inl rfl
    · exact .inr rfl

theorem Disk.dir_of_find {n : Name} {place : Place}
    (h : d.find (ofPlace (p ++ [n])) = .ok place) : d.node p = some .dir := by
  rw [ofPlace_append, find, walk_append] at h
  rcases hw : d.walk [] (ofPlace p) with e | q <;> simp only [hw] at h
  · cases h
  obtain rfl : q = p := by simpa using find_eq hw
  simp only [ofPlace, List.map_cons, List.map_nil, walk] at h
  split at h
  · assumption
  · cases h
  · cases h

theorem exec_mkdir_new {n : Name} (hd : d.Wf) (hdir : d.node p = some .dir)
    (hn : d.node (p ++ [n]) = none) :
    exec (mkdir (ofPlace (p ++ [n])) : Io ε Disk Unit) d
      = (.ok (), d.put (p ++ [n]) .dir .mkdir) := by
  rw [mkdir, exec_sysAt (hd.find_below hdir)]
  simp only [hn]

theorem exec_mkdir_dir (hd : d.Wf) (hn : d.node p = some .dir) :
    exec (mkdir (ofPlace p) : Io ε Disk Unit) d
      = (.error (.err (OsError.ofErrno .alreadyExists)), d) := by
  rw [mkdir, exec_sysAt (hd.find_ofPlace (by simp [hn]))]
  simp only [hn]

theorem exec_orIsDir (hd : d.Wf) (hn : d.node p = some .dir) (e : ε) :
    exec (orIsDir (ofPlace p) e) d = (.ok (), d) := by
  rw [orIsDir, exec_bind, exec_isDir, hd.isDir_ofPlace, hn]
  rfl

theorem Disk.Wf.put_dir {n : Name} (hd : d.Wf) (hdir : d.node p = some .dir)
    (hn : d.node (p ++ [n]) = none) : (d.put (p ++ [n]) .dir .mkdir).Wf :=
  hd.of_update (n := n) hdir (by simp [hn]) fun q hq => by rw [Disk.node_put, if_neg hq]

/-- The directories on the way to a place are made where they are missing. -/
theorem exec_createDirAll (hd : d.Wf) (hp : ∀ q, q <+: p → d.content q = none) :
    ∃ d', exec (createDirAll (ofPlace p) : Io ε Disk Unit) d = (.ok (), d') ∧ d'.Wf
      ∧ ∀ q, d'.node q = if q <+: p then some .dir else d.node q := by
  induction p using List.reverseRecOn with
  | nil =>
    refine ⟨d, rfl, hd, fun q => ?_⟩
    split_ifs with hq
    · rw [List.prefix_nil.1 hq, hd.root]
    · rfl
  | append_singleton p n ih =>
    have hpre : p <+: p ++ [n] := List.prefix_append _ _
    have hself := hp (p ++ [n]) (List.prefix_refl _)
    have hrun : (createDirAll (ofPlace (p ++ [n])) : Io ε Disk Unit)
        = createDirAllRev (.normal n :: (ofPlace p).reverse) := by
      simp [createDirAll, ofPlace]
    have hback : (Component.normal n :: (ofPlace p).reverse).reverse = ofPlace (p ++ [n]) := by
      simp [ofPlace]
    rw [hrun, createDirAllRev, hback, exec_bind, exec_attempt]
    rcases hdir : d.node p with _ | c | _
    · -- the parent is missing and is made first
      have hnone : d.node (p ++ [n]) = none := by
        by_contra hne
        simp [hd.parent p n hne] at hdir
      have hmk : exec (mkdir (ofPlace (p ++ [n])) : Io ε Disk Unit) d
          = (.error (.err (OsError.ofErrno .notFound)), d) := by
        refine exec_sysAt_error ?_
        rcases Disk.find_ofPlace_cases fun q hq _ => hp q hq with h | h
        · simp [Disk.dir_of_find h] at hdir
        · exact h
      obtain ⟨d₁, hex, hd₁, hnode⟩ := ih fun q hq => hp q (hq.trans hpre)
      have hnone₁ : d₁.node (p ++ [n]) = none := by
        rw [hnode, if_neg, hnone]
        intro h
        simpa using h.length_le
      have hdir₁ : d₁.node p = some .dir := by rw [hnode, if_pos (List.prefix_refl p)]
      refine ⟨d₁.put (p ++ [n]) .dir .mkdir, ?_, hd₁.put_dir hdir₁ hnone₁, fun q => ?_⟩
      · have hup : exec (createDirAllRev (ofPlace p).reverse : Io ε Disk Unit) d
            = (.ok (), d₁) := hex
        simp only [hmk, OsError.isNotFound_ofErrno, decide_true, if_true]
        rw [exec_bind, hup]
        simp only
        rw [exec_bind, exec_attempt, exec_mkdir_new hd₁ hdir₁ hnone₁]
        rfl
      · rw [Disk.node_put, hnode]
        simp only [List.prefix_concat_iff]
        split_ifs <;> simp_all
    · exact absurd (hp p hpre) (by simp [Disk.content, hdir])
    · rcases hnode : d.node (p ++ [n]) with _ | c | _
      · refine ⟨d.put (p ++ [n]) .dir .mkdir, ?_, hd.put_dir hdir hnode, fun q => ?_⟩
        · rw [exec_mkdir_new hd hdir hnode]
          rfl
        · rw [Disk.node_put]
          simp only [List.prefix_concat_iff]
          split_ifs with h1 h2 h3
          · rfl
          · exact absurd (.inl h1) h2
          · exact hd.dir_of_prefix_dir hdir (h3.resolve_left h1)
          · rfl
      · simp [Disk.content, hnode] at hself
      · refine ⟨d, ?_, hd, fun q => ?_⟩
        · rw [exec_mkdir_dir hd hnode]
          simp only [OsError.isNotFound_ofErrno, reduceCtorEq, decide_false, Bool.false_eq_true,
            if_false]
          exact exec_orIsDir hd hnode _
        · split_ifs with h
          · exact hd.dir_of_prefix_dir hnode h
          · rfl

end CreateDirAll

end UnixFs

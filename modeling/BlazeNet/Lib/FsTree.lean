import BlazeNet.Lib.FsExec
import BlazeNet.Lib.FsPath

/-!
# What lies below a directory

A directory lists the names right below it, each once. A proper name has no slash in it, and is
neither empty nor one of the two that are made of dots, so that the text of a path of such names is
read back as the path.
-/

namespace UnixFs

open FaultIo Io RustStd

section Definitions

variable {ε : Type} [OsError ε]

/-- `File::create_new`. -/
def createNewFile (path : Path) : Io ε Disk Place := sysAt path fun d place =>
  match d.node place with
  | some _ => .error .alreadyExists
  | none => .ok (place, d.put place (.file []) .create)

def ProperName (n : Name) : Prop := n ≠ [] ∧ n ≠ ['.'] ∧ n ≠ ['.', '.'] ∧ '/' ∉ n

/-- Every entry of the disk has a proper name. -/
def Disk.Named (d : Disk) : Prop := ∀ p n, d.node (p ++ [n]) ≠ none → ProperName n

/-- `Path::to_string_lossy` of a relative path. -/
def pathText (path : Path) : String := String.ofList <| ['/'].intercalate <| path.map fun c =>
  match c with
  | .parentDir => ['.', '.']
  | .normal name => name

end Definitions

section Names

variable {d : Disk} {p q : Place}

theorem Disk.Named.proper (h : d.Named) (hp : d.node p ≠ none) (hd : d.Wf) :
    ∀ n ∈ p, ProperName n := by
  induction p using List.reverseRecOn with
  | nil => simp
  | append_singleton p m ih =>
    intro n hn
    rcases List.mem_append.1 hn with hn | hn
    · exact ih (by simp [hd.parent p m hp]) n hn
    · exact List.mem_singleton.1 hn ▸ h p m hp

theorem component_proper {n : Name} (h : ProperName n) : component n = some (.normal n) := by
  simp [component, h.1, h.2.1, h.2.2.1]

theorem toList_pathText (p : Place) :
    (pathText (ofPlace p)).toList = ['/'].intercalate p := by
  simp [pathText, ofPlace, Function.comp_def]

/-- The text of a path is read back. -/
theorem components_pathText (hne : p ≠ []) (h : ∀ n ∈ p, ProperName n) :
    components (pathText (ofPlace p)) = ofPlace p := by
  rw [components, toList_pathText, List.splitOn_intercalate _ (fun n hn => (h n hn).2.2.2) hne]
  refine (List.filterMap_congr fun n hn => component_proper (h n hn)).trans ?_
  rw [List.filterMap_eq_map']
  rfl

theorem isAbsolute_pathText (hne : p ≠ []) (h : ∀ n ∈ p, ProperName n) :
    isAbsolute (pathText (ofPlace p)) = false := by
  obtain ⟨n, q, rfl⟩ := List.exists_cons_of_ne_nil hne
  obtain ⟨hn, -, -, hslash⟩ := h n List.mem_cons_self
  obtain ⟨c, cs, rfl⟩ := List.exists_cons_of_ne_nil hn
  have hc : c ≠ '/' := fun hc => hslash (hc ▸ List.mem_cons_self)
  simp [isAbsolute, toList_pathText, hc]

end Names

section Exec

variable {ε : Type} [OsError ε] {d : Disk} {p : Place}

theorem exec_createNewFile {path : Path} {place : Place} (hf : d.find path = .ok place)
    (hn : d.node place = none) :
    exec (createNewFile path : Io ε Disk Place) d
      = (.ok place, d.put place (.file []) .create) := by
  rw [createNewFile, exec_sysAt hf]
  simp only [hn]

/-- The names right below a place. -/
def Disk.children (d : Disk) (p : Place) : List Name :=
  d.nodes.keys.filterMap fun q => if q.dropLast = p then q.getLast? else none

theorem mem_children {n : Name} : n ∈ d.children p ↔ d.node (p ++ [n]) ≠ none := by
  unfold Disk.children
  rw [List.mem_filterMap]
  constructor
  · rintro ⟨q, hq, hn⟩
    split_ifs at hn with hp
    obtain rfl : q = p ++ [n] := by
      rw [← hp]
      exact (List.dropLast_append_getLast? n hn).symm
    exact fun hnone => AList.lookup_eq_none.1 hnone (AList.mem_keys.2 hq)
  · intro hn
    refine ⟨p ++ [n], ?_, by simp⟩
    by_contra hmem
    exact hn (AList.lookup_eq_none.2 fun h => hmem (AList.mem_keys.1 h))

theorem nodup_children : (d.children p).Nodup := by
  refine List.Nodup.filterMap (fun q q' n hq hq' => ?_) d.nodes.keys_nodup
  rw [Option.mem_def] at hq hq'
  split_ifs at hq hq' with h h'
  rw [← List.dropLast_append_getLast? n hq, ← List.dropLast_append_getLast? n hq', h, h']

theorem exec_readDir (hd : d.Wf) (hp : d.node p = some .dir) :
    exec (readDir (ofPlace p) : Io ε Disk (List Name)) d = (.ok (d.children p), d) := by
  rw [readDir, exec_sysAt (hd.find_ofPlace (by simp [hp]))]
  simp only [hp]
  rfl

end Exec

end UnixFs

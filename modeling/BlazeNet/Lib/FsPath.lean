import BlazeNet.Lib.FsFrame

/-!
# Paths that stay below a directory

`depth n path` is how far below its start a path ends that starts `n` levels down, or nothing where
it climbs above the start on its way. A path below a directory keeps that directory's place as a
prefix, and so does every prefix of it.
-/

namespace UnixFs

def depth : ℕ → Path → Option ℕ
  | n, [] => some n
  | n, .normal _ :: rest => depth (n + 1) rest
  | 0, .parentDir :: _ => none
  | n + 1, .parentDir :: rest => depth n rest

/-- A relative path that stays below the directory it is joined to and ends strictly below it. -/
def Confined (text : String) : Prop :=
  isAbsolute text = false ∧ ∃ n, depth 0 (components text) = some (n + 1)

section Depth

theorem foldl_climb_depth (g : Place) (path : Path) : ∀ {n m : ℕ} {q : Place},
    depth n path = some m → q.length = n →
      ∃ q', path.foldl climb (g ++ q) = g ++ q' ∧ q'.length = m := by
  induction path with
  | nil =>
    intro n m q h hq
    obtain rfl : n = m := by simpa [depth] using h
    exact ⟨q, rfl, hq⟩
  | cons c rest ih =>
    intro n m q h hq
    cases c with
    | normal name =>
      have := ih (q := q ++ [name]) h (by simp [hq])
      simpa [climb] using this
    | parentDir =>
      cases n with
      | zero => simp [depth] at h
      | succ n =>
        have hne : q ≠ [] := by
          rintro rfl
          simp at hq
        have := ih (q := q.dropLast) h (by simp [hq])
        simpa [climb, List.dropLast_append_of_ne_nil hne] using this

theorem resolve_below (base : Path) {path : Path} {n : ℕ} (h : depth 0 path = some n) :
    ∃ q, resolve (base ++ path) = resolve base ++ q ∧ q.length = n := by
  rw [resolve_append]
  simpa using foldl_climb_depth (resolve base) path h List.length_nil

theorem depth_append (path rest : Path) : ∀ {n m : ℕ}, depth n (path ++ rest) = some m →
    ∃ k, depth n path = some k ∧ depth k rest = some m := by
  induction path with
  | nil => exact fun h => ⟨_, rfl, h⟩
  | cons c path ih =>
    intro n m h
    cases c with
    | normal name => exact ih h
    | parentDir =>
      cases n with
      | zero => simp [depth] at h
      | succ n => exact ih h

theorem depth_of_prefix {path q : Path} {n : ℕ} (h : depth 0 path = some n) (hq : q <+: path) :
    ∃ k, depth 0 q = some k := by
  obtain ⟨rest, rfl⟩ := hq
  obtain ⟨k, hk, -⟩ := depth_append q rest h
  exact ⟨k, hk⟩

end Depth

section Confined

variable {text : String} (base : Path)

theorem Confined.join_eq (h : Confined text) : join base text = base ++ components text := by
  simp [join, h.1]

theorem Confined.ne_nil (h : Confined text) : components text ≠ [] := by
  obtain ⟨-, n, hn⟩ := h
  intro h0
  simp [h0, depth] at hn

/-- The target lies strictly below the base. -/
theorem Confined.resolve_join (h : Confined text) :
    ∃ q, q ≠ [] ∧ resolve (join base text) = resolve base ++ q := by
  obtain ⟨n, hn⟩ := h.2
  obtain ⟨q, hq, hlen⟩ := resolve_below base hn
  refine ⟨q, fun h0 => ?_, by rw [h.join_eq, hq]⟩
  simp [h0] at hlen

theorem Confined.dropLast_eq (h : Confined text) :
    (join base text).dropLast = base ++ (components text).dropLast := by
  rw [h.join_eq, List.dropLast_append_of_ne_nil h.ne_nil]

/-- A path under another extension keeps its parent. -/
theorem dropLast_withExtension (path : Path) (extension : Name) :
    (withExtension path extension).dropLast = path.dropLast := by
  unfold withExtension
  split
  · simp
  · rfl

/-- So does the target under another extension. -/
theorem Confined.resolve_withExtension (h : Confined text) (extension : Name) :
    ∃ q, q ≠ [] ∧ resolve (withExtension (join base text) extension) = resolve base ++ q := by
  unfold withExtension
  split
  · rename_i name _
    obtain ⟨n, hn⟩ := h.2
    obtain ⟨k, hk⟩ := depth_of_prefix hn (List.dropLast_prefix _)
    obtain ⟨q, hq, -⟩ := resolve_below base hk
    refine ⟨q ++ [fileStem name ++ '.' :: extension], by simp, ?_⟩
    rw [resolve_append, h.dropLast_eq, hq]
    simp [climb]
  · exact h.resolve_join base

/-- On the way to the target lie only the base, what leads to it and what is below it. -/
theorem Confined.resolve_prefix (h : Confined text) {q : Path}
    (hq : q <+: (join base text).dropLast) :
    q <+: base ∨ resolve base <+: resolve q := by
  rw [h.dropLast_eq] at hq
  rcases List.prefix_or_prefix_of_prefix hq (List.prefix_append base _) with hb | ⟨q', rfl⟩
  · exact .inl hb
  · have hq' := (List.prefix_append_right_inj base).1 hq
    obtain ⟨n, hn⟩ := h.2
    obtain ⟨k, hk⟩ := depth_of_prefix hn (hq'.trans (List.dropLast_prefix _))
    obtain ⟨r, hr, -⟩ := resolve_below base hk
    exact .inr ⟨r, hr.symm⟩

/-- A name without a slash, unless it is empty or made of dots only. -/
theorem components_of_name {text : String} (hslash : '/' ∉ text.toList) (h1 : text.toList ≠ [])
    (h2 : text.toList ≠ ['.']) (h3 : text.toList ≠ ['.', '.']) :
    components text = [.normal text.toList] := by
  simp [components, List.splitOn_eq_singleton hslash, component, h1, h2, h3]

theorem isAbsolute_of_name {text : String} (hslash : '/' ∉ text.toList) :
    isAbsolute text = false := by
  rcases h : text.toList with _ | ⟨c, cs⟩
  · simp [isAbsolute, h]
  · have hc : c ≠ '/' := fun hc => hslash (by simp [h, hc])
    simp [isAbsolute, h, hc]

theorem join_name {text : String} (base : Path) (hslash : '/' ∉ text.toList)
    (h1 : text.toList ≠ []) (h2 : text.toList ≠ ['.']) (h3 : text.toList ≠ ['.', '.']) :
    join base text = base ++ ofPlace [text.toList] := by
  rw [join, isAbsolute_of_name hslash, components_of_name hslash h1 h2 h3]
  rfl

end Confined

end UnixFs

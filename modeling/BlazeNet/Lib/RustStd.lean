import Mathlib.Data.List.Dedup
import Mathlib.Tactic
import Std.Data.ExtTreeMap

/-!
# Pieces of a standard library

Lookups in ordered tables, positional reads and writes on the bytes of a file, hexadecimal
formatting, and a hash set as the order its elements happen to be iterated in.
-/

namespace RustStd

/-- A `HashSet`: its elements, in the order an iteration happens to meet them. -/
structure HashSet (α : Type) where
  elems : List α
  nodup : elems.Nodup
  deriving DecidableEq

namespace HashSet

variable {α : Type}

instance : Membership α (HashSet α) := ⟨fun s a => a ∈ s.elems⟩

theorem mem_iff {s : HashSet α} {a : α} : a ∈ s ↔ a ∈ s.elems := Iff.rfl

instance [DecidableEq α] (a : α) (s : HashSet α) : Decidable (a ∈ s) :=
  inferInstanceAs (Decidable (a ∈ s.elems))

def empty : HashSet α := ⟨[], List.nodup_nil⟩

/-- `iter.collect()`. -/
def collect [DecidableEq α] (l : List α) : HashSet α := ⟨l.dedup, l.nodup_dedup⟩

def insert [DecidableEq α] (s : HashSet α) (a : α) : HashSet α := ⟨s.elems.insert a, s.nodup.insert⟩

@[simp] theorem mem_insert [DecidableEq α] {s : HashSet α} {a b : α} :
    b ∈ s.insert a ↔ b = a ∨ b ∈ s := List.mem_insert_iff

@[simp] theorem notMem_empty {a : α} : a ∉ (empty : HashSet α) := List.not_mem_nil

@[simp] theorem mem_collect [DecidableEq α] {l : List α} {a : α} : a ∈ collect l ↔ a ∈ l :=
  List.mem_dedup

/-- `extend`. -/
def extend [DecidableEq α] (s : HashSet α) (l : List α) : HashSet α := l.foldl insert s

theorem mem_extend [DecidableEq α] : ∀ {l : List α} {s : HashSet α} {a : α},
    a ∈ s.extend l ↔ a ∈ s ∨ a ∈ l
  | [], _, _ => by simp [extend]
  | b :: l, s, a => by
    rw [extend, List.foldl_cons, ← extend, mem_extend, mem_insert, List.mem_cons]
    tauto

theorem count_elems [DecidableEq α] (s : HashSet α) (a : α) :
    s.elems.count a = if a ∈ s then 1 else 0 := by
  split_ifs with h
  · exact List.count_eq_one_of_mem s.nodup h
  · exact List.count_eq_zero_of_not_mem h

end HashSet

/-- The order in which the elements of a hash set happen to be iterated. -/
structure IterOrder (α : Type) where
  order : List α → List α
  perm : ∀ l, (order l).Perm l

def IterOrder.same {α : Type} : IterOrder α := ⟨id, fun _ => .refl _⟩

/-- A `HashMap`: its entries, in the order an iteration happens to meet them. -/
structure HashMap (κ ν : Type) where
  entries : List (κ × ν)
  nodup : (entries.map (·.1)).Nodup

namespace HashMap

variable {κ ν : Type} [DecidableEq κ]

def empty : HashMap κ ν := ⟨[], List.nodup_nil⟩

def get? (m : HashMap κ ν) (k : κ) : Option ν := m.entries.lookup k

def remove (m : HashMap κ ν) (k : κ) : HashMap κ ν where
  entries := m.entries.filter fun e => e.1 ≠ k
  nodup := m.nodup.sublist (List.filter_sublist.map _)

def insert (m : HashMap κ ν) (k : κ) (v : ν) : HashMap κ ν where
  entries := (k, v) :: m.entries.filter fun e => e.1 ≠ k
  nodup := by
    refine List.nodup_cons.2 ⟨?_, (m.remove k).nodup⟩
    simp

variable {m : HashMap κ ν} {k k' : κ} {v : ν}

@[simp] theorem get?_empty : (empty : HashMap κ ν).get? k = none := rfl

theorem get?_eq_some : m.get? k = some v ↔ (k, v) ∈ m.entries := by
  rw [get?, List.lookup_eq_some_iff]
  constructor
  · rintro ⟨l₁, l₂, h, -⟩
    simp [h]
  · intro h
    obtain ⟨l₁, l₂, hl⟩ := List.append_of_mem h
    refine ⟨l₁, l₂, hl, fun e he => ?_⟩
    have hnd := m.nodup
    rw [hl, List.map_append, List.nodup_append] at hnd
    have := hnd.2.2 e.1 (List.mem_map_of_mem he) k (by simp)
    simpa using this.symm

theorem ext_get? {o : Option ν} (h : ∀ v, m.get? k = some v ↔ o = some v) : m.get? k = o := by
  rcases o with _ | v
  · rcases hm : m.get? k with _ | v
    · rfl
    · exact absurd ((h v).1 hm) (by simp)
  · exact (h v).2 rfl

theorem get?_remove : (m.remove k).get? k' = if k' = k then none else m.get? k' := by
  refine ext_get? fun v => ?_
  rw [get?_eq_some]
  split_ifs with h
  · simp [remove, h]
  · simp [remove, h, get?_eq_some]

theorem get?_insert : (m.insert k v).get? k' = if k' = k then some v else m.get? k' := by
  refine ext_get? fun v' => ?_
  rw [get?_eq_some]
  split_ifs with h
  · simp [insert, h, eq_comm]
  · simp [insert, h, get?_eq_some]

theorem get?_eq_none : m.get? k = none ↔ ∀ e ∈ m.entries, e.1 ≠ k := by
  constructor
  · rintro h e he rfl
    simp [get?_eq_some.2 he] at h
  · intro h
    by_contra hne
    obtain ⟨v, hv⟩ := Option.ne_none_iff_exists'.1 hne
    exact h _ (get?_eq_some.1 hv) rfl

/-- The entries of a key. -/
theorem filter_key (m : HashMap κ ν) (k : κ) :
    m.entries.filter (fun e => e.1 = k) = (m.get? k).toList.map fun v => (k, v) := by
  rcases hm : m.get? k with _ | v
  · rw [get?_eq_none] at hm
    exact List.filter_eq_nil_iff.2 fun e he => by simpa using hm e he
  obtain ⟨l₁, l₂, hl⟩ := List.append_of_mem (get?_eq_some.1 hm)
  have hnd := m.nodup
  rw [hl, List.map_append, List.map_cons, List.nodup_append, List.nodup_cons] at hnd
  have h₁ : l₁.filter (fun e => e.1 = k) = [] := List.filter_eq_nil_iff.2 fun e he => by
    simpa using hnd.2.2 e.1 (List.mem_map_of_mem he) k (by simp)
  have h₂ : l₂.filter (fun e => e.1 = k) = [] := List.filter_eq_nil_iff.2 fun e he => by
    simp only [decide_eq_true_eq]
    rintro rfl
    exact hnd.2.1.1 (List.mem_map.2 ⟨e, he, rfl⟩)
  simp [hl, h₁, h₂]

/-- `entry(k).or_insert(v)`. -/
def orInsert (m : HashMap κ ν) (k : κ) (v : ν) : HashMap κ ν := match m.get? k with
  | some _ => m
  | none => m.insert k v

theorem get?_orInsert :
    (m.orInsert k v).get? k' = (m.get? k').or (if k' = k then some v else none) := by
  rcases hk : m.get? k with _ | v'
  · rw [orInsert, hk, get?_insert]
    split_ifs with h
    · simp [h, hk]
    · simp
  · rw [orInsert, hk]
    split_ifs with h
    · simp [h, hk]
    · simp

/-- `collect`, which keeps the last of the values of a key. -/
def collect (l : List (κ × ν)) : HashMap κ ν := l.foldl (fun m e => m.insert e.1 e.2) empty

theorem get?_foldl_insert : ∀ (l : List (κ × ν)) (m : HashMap κ ν),
    (l.foldl (fun m e => m.insert e.1 e.2) m).get? k = (l.reverse.lookup k).or (m.get? k)
  | [], m => by simp
  | (k', v) :: l, m => by
    rw [List.foldl_cons, get?_foldl_insert l, List.reverse_cons, List.lookup_append,
      Option.or_assoc, get?_insert, List.lookup_cons, List.lookup_nil]
    rcases eq_or_ne k k' with rfl | h
    · simp
    · simp [h, beq_eq_false_iff_ne.2 h]

theorem get?_collect (l : List (κ × ν)) : (collect l).get? k = l.reverse.lookup k := by
  rw [collect, get?_foldl_insert, get?_empty, Option.or_none]

/-- `entry(k).or_default().push(x)`. -/
def push {α : Type} (m : HashMap κ (List α)) (k : κ) (x : α) : HashMap κ (List α) :=
  m.insert k ((m.get? k).getD [] ++ [x])

/-- A change to every value, as through `values_mut`. -/
def mapValues {ν' : Type} (f : ν → ν') (m : HashMap κ ν) : HashMap κ ν' where
  entries := m.entries.map fun e => (e.1, f e.2)
  nodup := by
    rw [List.map_map]
    exact m.nodup

/-- A measure of the values, summed up. -/
def total (f : ν → ℕ) (m : HashMap κ ν) : ℕ := (m.entries.map fun e => f e.2).sum

variable {f : ν → ℕ}

omit [DecidableEq κ] in
@[simp] theorem total_empty : total f (empty : HashMap κ ν) = 0 := rfl

theorem total_eq_remove_add (m : HashMap κ ν) (k : κ) :
    total f m = total f (m.remove k) + ((m.get? k).map f).getD 0 := by
  have hsplit := ((List.filter_append_perm (fun e : κ × ν => e.1 = k) m.entries).map
    fun e => f e.2).sum_eq
  rw [List.map_append, List.sum_append, filter_key] at hsplit
  rw [total, ← hsplit, Nat.add_comm, total, remove]
  congr 1
  · simp
  · rcases m.get? k with _ | v <;> simp

theorem total_insert (m : HashMap κ ν) (k : κ) (v : ν) :
    total f (m.insert k v) = f v + total f (m.remove k) := by
  rw [total, insert, List.map_cons, List.sum_cons]
  rfl

omit [DecidableEq κ] in
theorem total_mapValues {ν' : Type} (g : ν' → ν) (m : HashMap κ ν') :
    total f (m.mapValues g) = total (f ∘ g) m := by
  rw [total, mapValues, List.map_map]
  rfl

/-- A push adds what the new element measures. -/
theorem total_push {α : Type} {f : List α → ℕ} (hf : ∀ l x, f (l ++ [x]) = f l + f [x])
    (hnil : f [] = 0) (m : HashMap κ (List α)) (k : κ) (x : α) :
    total f (m.push k x) = total f m + f [x] := by
  rw [push, total_insert, hf, total_eq_remove_add m k]
  rcases m.get? k with _ | l
  · simp [hnil, Nat.add_comm]
  · simp only [Option.getD_some, Option.map_some]
    omega

end HashMap

section Tables

variable {κ ν : Type} [Ord κ] [Std.TransOrd κ] [Std.LawfulEqOrd κ] [DecidableEq κ]

theorem lookup_insert (t : Std.ExtTreeMap κ ν) (k k' : κ) (v : ν) :
    (t.insert k v)[k']? = if k = k' then some v else t[k']? := by
  rw [Std.ExtTreeMap.getElem?_insert]
  simp only [Std.LawfulEqCmp.compare_eq_iff_eq]

theorem lookup_erase (t : Std.ExtTreeMap κ ν) (k k' : κ) :
    (t.erase k)[k']? = if k = k' then none else t[k']? := by
  rw [Std.ExtTreeMap.getElem?_erase]
  simp only [Std.LawfulEqCmp.compare_eq_iff_eq]

end Tables

section Files

abbrev FileBytes := List UInt8

/-- The bytes a positional read of `n` bytes at `offset` finds. -/
def pread (file : FileBytes) (offset n : ℕ) : FileBytes := (file.drop offset).take n

/-- The file after a positional write; a gap before `offset` reads as zeros. -/
def pwrite (file : FileBytes) (offset : ℕ) (data : FileBytes) : FileBytes :=
  if data = [] then file
  else file.take offset ++ List.replicate (offset - file.length) 0 ++ data
    ++ file.drop (offset + data.length)

variable {file data : FileBytes} {offset n : ℕ}

theorem length_pread (file : FileBytes) (offset n : ℕ) :
    (pread file offset n).length = min n (file.length - offset) := by
  simp [pread]

@[simp] theorem pread_zero : pread file offset 0 = [] := by simp [pread]

@[simp] theorem pwrite_nil : pwrite file offset [] = file := by simp [pwrite]

theorem pread_take (k : ℕ) (hk : k ≤ n) : (pread file offset n).take k = pread file offset k := by
  simp [pread, List.take_take, hk]

/-- A read goes on where a shorter one ended. -/
theorem pread_append (file : FileBytes) (offset : ℕ) {k : ℕ} (hk : k ≤ n) :
    pread file offset k ++ pread file (offset + (pread file offset k).length)
        (n - (pread file offset k).length) = pread file offset n := by
  set got := pread file offset k with hgot
  have hle : got.length ≤ n := by
    rw [hgot, length_pread]
    omega
  have h := List.take_append_drop got.length (pread file offset n)
  have htake : (pread file offset n).take got.length = got := by
    rw [pread_take _ hle, hgot, length_pread]
    simp only [pread]
    rw [← List.take_take, List.take_of_length_le (i := file.length - offset) (by simp)]
  rw [htake] at h
  rw [← h]
  congr 1
  simp only [pread, List.drop_take, List.drop_drop]

theorem pwrite_of_le (h : offset ≤ file.length) :
    pwrite file offset data = file.take offset ++ data ++ file.drop (offset + data.length) := by
  unfold pwrite
  split_ifs with hd
  · simp [hd]
  · simp [Nat.sub_eq_zero_of_le h]

theorem length_pwrite (data : FileBytes) (h : offset ≤ file.length) :
    (pwrite file offset data).length = max file.length (offset + data.length) := by
  rw [pwrite_of_le h]
  simp only [List.length_append, List.length_take, List.length_drop]
  omega

theorem length_pwrite_of_ne (hd : data ≠ []) :
    (pwrite file offset data).length = max file.length (offset + data.length) := by
  rw [pwrite, if_neg hd]
  simp only [List.length_append, List.length_take, List.length_replicate, List.length_drop]
  omega

/-- A write that goes on where another ended. -/
theorem pwrite_pwrite {data' : FileBytes} :
    pwrite (pwrite file offset data) (offset + data.length) data'
      = pwrite file offset (data ++ data') := by
  by_cases hd : data = []
  · simp [hd]
  rw [pwrite_of_le (by rw [length_pwrite_of_ne hd]; omega), pwrite, if_neg hd, pwrite,
    if_neg (by simp [hd])]
  have hlen : (file.take offset ++ List.replicate (offset - file.length) 0 ++ data).length
      = offset + data.length := by
    simp only [List.length_append, List.length_take, List.length_replicate]
    omega
  rw [List.take_left' hlen, List.drop_append, hlen, List.drop_eq_nil_of_le (by rw [hlen]; omega)]
  simp only [List.nil_append, List.drop_drop, List.append_assoc, List.length_append]
  congr 5
  omega

theorem pread_pwrite_self : pread (pwrite file offset data) offset data.length = data := by
  rw [pwrite, pread]
  split_ifs with hd
  · simp [hd]
  have hlen : (file.take offset ++ List.replicate (offset - file.length) 0).length = offset := by
    simp only [List.length_append, List.length_take, List.length_replicate]
    omega
  rw [List.append_assoc _ data, List.drop_left' hlen, List.take_left' rfl]

/-- Outside the data a file reads as before, with zeros past its end. -/
theorem getD_pwrite_outside {i : ℕ} (h : i < offset ∨ offset + data.length ≤ i) :
    (pwrite file offset data)[i]?.getD 0 = file[i]?.getD 0 := by
  rw [pwrite]
  split_ifs with hd
  · rfl
  have hlen : (file.take offset ++ List.replicate (offset - file.length) 0).length = offset := by
    simp only [List.length_append, List.length_take, List.length_replicate]
    omega
  rcases h with h | h
  · rw [List.append_assoc _ data, List.getElem?_append_left (by omega)]
    rcases lt_or_ge i file.length with hi | hi
    · rw [List.getElem?_append_left (by rw [List.length_take]; omega), List.getElem?_take_of_lt h]
    · rw [List.getElem?_append_right (by rw [List.length_take]; omega),
        List.getElem?_eq_none hi, List.getElem?_replicate]
      split_ifs <;> rfl
  · have hlen' : (file.take offset ++ List.replicate (offset - file.length) 0 ++ data).length
        = offset + data.length := by rw [List.length_append, hlen]
    rw [List.getElem?_append_right (by omega), hlen', List.getElem?_drop,
      Nat.add_sub_cancel' h]

/-- A write leaves what lies before it. -/
theorem pread_pwrite_before {o : ℕ} (h : offset ≤ file.length) (ho : o + n ≤ offset) :
    pread (pwrite file offset data) o n = pread file o n := by
  rw [pwrite_of_le h, List.append_assoc]
  simp only [pread]
  rw [List.drop_append_of_le_length (by simp; omega), List.take_append_of_le_length
    (by simp; omega), List.drop_take, List.take_take, Nat.min_eq_left (by omega)]

end Files

section Hex

/-- `n` in `w` lower-case hexadecimal digits, its higher digits dropped. -/
def hexFixed : ℕ → ℕ → List Char
  | 0, _ => []
  | w + 1, n => hexFixed w (n / 16) ++ [Nat.digitChar (n % 16)]

def hexChars (bytes : List UInt8) : List Char := bytes.flatMap fun b => hexFixed 2 b.toNat

theorem digitChar_inj : ∀ a < 16, ∀ b < 16, Nat.digitChar a = Nat.digitChar b → a = b := by decide

@[simp] theorem length_hexFixed : ∀ w n, (hexFixed w n).length = w
  | 0, _ => rfl
  | w + 1, n => by simp [hexFixed, length_hexFixed w]

theorem hexFixed_inj : ∀ {w m n : ℕ}, m < 16 ^ w → n < 16 ^ w → hexFixed w m = hexFixed w n → m = n
  | 0, m, n, hm, hn, _ => by simp at hm hn; omega
  | w + 1, m, n, hm, hn, h => by
    simp only [hexFixed] at h
    obtain ⟨h₁, h₂⟩ := List.append_inj' h rfl
    rw [pow_succ] at hm hn
    have hq := hexFixed_inj (w := w) (by omega) (by omega) h₁
    have hr := digitChar_inj _ (Nat.mod_lt m (by decide)) _ (Nat.mod_lt n (by decide))
      (by simpa using h₂)
    omega

theorem hexChars_inj : ∀ {a b : List UInt8}, hexChars a = hexChars b → a = b
  | [], [], _ => rfl
  | [], y :: ys, h => by
    have := congrArg List.length h
    simp [hexChars] at this
    omega
  | x :: xs, [], h => by
    have := congrArg List.length h
    simp [hexChars] at this
  | x :: xs, y :: ys, h => by
    simp only [hexChars, List.flatMap_cons] at h
    obtain ⟨h₁, h₂⟩ := List.append_inj h (by simp)
    have hx : x = y := UInt8.toNat_inj.1 (hexFixed_inj x.toNat_lt y.toNat_lt h₁)
    rw [hx, hexChars_inj h₂]

end Hex

section Text

/-- The characters `str::trim` takes off. -/
def isWhite (c : Char) : Bool :=
  (9 ≤ c.toNat ∧ c.toNat ≤ 13) ∨ c.toNat ∈ [0x20, 0x85, 0xa0, 0x1680, 0x2028, 0x2029, 0x202f,
    0x205f, 0x3000] ∨ (0x2000 ≤ c.toNat ∧ c.toNat ≤ 0x200a)

def trim (text : List Char) : List Char :=
  ((text.dropWhile isWhite).reverse.dropWhile isWhite).reverse

def parseDigits : List Char → ℕ → Option ℕ
  | [], n => some n
  | c :: cs, n => if c.isDigit then parseDigits cs (10 * n + (c.toNat - 48)) else none

/-- `str::parse::<u64>()`. -/
def parseU64 (text : List Char) : Option UInt64 := do
  let digits := match text with
    | '+' :: rest => rest
    | _ => text
  if digits = [] then none
  else do
    let n ← parseDigits digits 0
    if n < 2 ^ 64 then some (UInt64.ofNat n) else none

/-- The first thing wrong with the digits. -/
def digitsError : List Char → ℕ → String
  | [], _ => "number too large to fit in target type"
  | c :: cs, n =>
    if ¬ c.isDigit then "invalid digit found in string"
    else if 2 ^ 64 ≤ 10 * n + (c.toNat - 48) then "number too large to fit in target type"
    else digitsError cs (10 * n + (c.toNat - 48))

/-- The text of the error where `parse::<u64>()` fails. -/
def parseU64Error (text : List Char) : String :=
  match text with
  | [] => "cannot parse integer from empty string"
  | ['+'] => "invalid digit found in string"
  | '+' :: digits => digitsError digits 0
  | digits => digitsError digits 0

/-- `str::strip_prefix`. -/
def stripPrefix (pre text : List Char) : Option (List Char) :=
  if pre.isPrefixOf text then some (text.drop pre.length) else none

theorem stripPrefix_eq_some {pre text rest : List Char} :
    stripPrefix pre text = some rest ↔ text = pre ++ rest := by
  unfold stripPrefix
  split_ifs with h
  · obtain ⟨tail, rfl⟩ := List.isPrefixOf_iff_prefix.1 h
    simp
  · simp only [false_iff]
    rintro rfl
    exact h (List.isPrefixOf_iff_prefix.2 (List.prefix_append _ _))

theorem parseDigits_eq : ∀ {text : List Char} (n : ℕ), (∀ c ∈ text, c.isDigit) →
    parseDigits text n = some (Nat.ofDigitChars 10 text n)
  | [], _, _ => rfl
  | c :: cs, n, h => by
    rw [parseDigits, if_pos (h c List.mem_cons_self),
      parseDigits_eq _ fun d hd => h d (List.mem_cons_of_mem _ hd)]
    rfl

theorem trim_of_notWhite {text : List Char} (h : ∀ c ∈ text, isWhite c = false) :
    trim text = text := by
  have hdrop : ∀ l : List Char, (∀ c ∈ l, isWhite c = false) → l.dropWhile isWhite = l := by
    intro l hl
    rcases l with _ | ⟨c, cs⟩
    · rfl
    · rw [List.dropWhile_cons_of_neg (by simp [hl c List.mem_cons_self])]
  rw [trim, hdrop text h, hdrop _ fun c hc => h c (List.mem_reverse.1 hc), List.reverse_reverse]

theorem isWhite_of_isDigit {c : Char} (h : c.isDigit) : isWhite c = false := by
  have hc : 48 ≤ c.toNat ∧ c.toNat ≤ 57 := by
    simpa [Char.isDigit, UInt32.le_iff_toNat_le] using h
  simp only [isWhite, List.mem_cons, List.not_mem_nil, decide_eq_false_iff_not, or_false]
  rintro (h | h | h)
  · omega
  · rcases h with h | h | h | h | h | h | h | h | h <;> omega
  · omega

/-- A number reads back as itself. -/
theorem parseU64_toDigits (n : UInt64) : parseU64 (Nat.toDigits 10 n.toNat) = some n := by
  have hdigit : ∀ c ∈ Nat.toDigits 10 n.toNat, c.isDigit := fun c hc =>
    Nat.isDigit_of_mem_toDigits (by decide) (by decide) hc
  have hne : Nat.toDigits 10 n.toNat ≠ [] := Nat.toDigits_ne_nil
  simp only [parseU64]
  split
  · rename_i rest h
    have := hdigit '+' (h ▸ List.mem_cons_self)
    simp at this
  · rw [if_neg hne, parseDigits_eq 0 hdigit, Nat.ofDigitChars_ten_toDigits]
    simp [n.toNat_lt]

end Text

end RustStd

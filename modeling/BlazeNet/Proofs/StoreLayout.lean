import BlazeNet.StoreRun
import BlazeNet.Proofs.StoreExec

/-!
# The layout of a block store

`Laid` ties the index and the pack to the record of what was stored: every place is inside the
pack, holds its bytes, and is what the index says. It survives an append (`Laid.append`), an
operation that stopped half way (`Laid.tail`) and, as an append of the live chunks to nothing, a
compaction.
-/

namespace BlazeNet

open Wire FaultIo Io RustStd GameStore

/-- The index and the first `size` bytes of the pack hold exactly what `g` says. -/
structure Laid (gameId : UInt64) (index : Index) (file : Bytes) (size : ℕ) (g : Places) :
    Prop where
  size_le : size ≤ file.length
  keys : ∀ k v, index[k]? = some v → ∃ h, k = key gameId h
  index : ∀ h, index[key gameId h]? = (g h).map fun p => pack p.1 (UInt32.ofNat p.2.length)
  fits : ∀ h p, g h = some p → p.1 < 2 ^ 32 ∧ p.2.length < 2 ^ 32
  bytes : ∀ h p, g h = some p → p.1 + p.2.length ≤ size ∧ pread file p.1 p.2.length = p.2

variable {gameId : UInt64} {index : Index} {file : Bytes} {size : ℕ} {g : Places}

theorem toNat_ofNat_length {d : Bytes} (h : d.length < 2 ^ 32) :
    (UInt32.ofNat d.length).toNat = d.length := by
  rw [UInt32.toNat_ofNat', Nat.mod_eq_of_lt h]

namespace Laid

theorem empty : Laid gameId ∅ [] 0 fun _ => none :=
  ⟨le_rfl, by simp, by simp, by simp, by simp⟩

/-- Bytes written behind the end, and an end moved up to them, do not matter. -/
theorem tail (h : Laid gameId index file size g) {file' : Bytes} {size' : ℕ} (hs : size ≤ size')
    (hs' : size' ≤ file'.length)
    (hread : ∀ o n, o + n ≤ size → pread file' o n = pread file o n) :
    Laid gameId index file' size' g where
  size_le := hs'
  keys := h.keys
  index := h.index
  fits := h.fits
  bytes k p hk := by
    obtain ⟨h₁, h₂⟩ := h.bytes k p hk
    exact ⟨h₁.trans hs, by rw [hread _ _ h₁, h₂]⟩

theorem unpack_index (h : Laid gameId index file size g) {k : Hash} {p : ℕ × Bytes}
    (hk : g k = some p) :
    ∃ v, index[key gameId k]? = some v ∧ unpack v = (p.1, UInt32.ofNat p.2.length) := by
  refine ⟨pack p.1 (UInt32.ofNat p.2.length), by rw [h.index, hk]; rfl, ?_⟩
  rw [unpack_pack, Nat.mod_eq_of_lt (h.fits k p hk).1]

theorem index_isSome (h : Laid gameId index file size g) (k : Hash) :
    (index[key gameId k]?).isSome = (g k).isSome := by
  rw [h.index, Option.isSome_map]

/-- The chunk `c` is written at the end and put into the index. -/
theorem append (h : Laid gameId index file size g) {c : Hash × Bytes}
    (hsize : size < 2 ^ 32) (hlen : c.2.length < 2 ^ 32) :
    Laid gameId (index.insert (key gameId c.1) (pack size (UInt32.ofNat c.2.length)))
      (pwrite file size c.2) (size + c.2.length)
      (Function.update g c.1 (some (size, c.2))) where
  size_le := by
    rw [length_pwrite _ h.size_le]
    exact le_max_right _ _
  keys k v hk := by
    rw [lookup_insert] at hk
    split_ifs at hk with he
    · exact ⟨c.1, he.symm⟩
    · exact h.keys k v hk
  index k := by
    rw [lookup_insert, Function.update_apply]
    by_cases he : k = c.1
    · simp [he]
    · rw [if_neg fun e => he (key_inj e).symm, if_neg he, h.index]
  fits k p hk := by
    rw [Function.update_apply] at hk
    split_ifs at hk with he
    · cases hk
      exact ⟨hsize, hlen⟩
    · exact h.fits k p hk
  bytes k p hk := by
    rw [Function.update_apply] at hk
    split_ifs at hk with he
    · cases hk
      exact ⟨le_rfl, pread_pwrite_self⟩
    · obtain ⟨h₁, h₂⟩ := h.bytes k p hk
      exact ⟨h₁.trans (Nat.le_add_right _ _), by rw [pread_pwrite_before h.size_le h₁, h₂]⟩

end Laid

section Within

/-- The layout of an open store. -/
structure StoreLaid (gameId : UInt64) (s : OpenStore) (g : Places) : Prop where
  game : s.self.gameId = gameId
  linked : s.self.packFile = .linked
  laid : Laid gameId s.index s.pack s.self.size g

variable {s : OpenStore}

theorem StoreLaid.appended (h : StoreLaid gameId s g) {c : Hash × Bytes} (hc : g c.1 = none)
    (hsize : s.self.size < 2 ^ 32) (hlen : c.2.length < 2 ^ 32) :
    StoreLaid gameId (appended s c) (Record.store ⟨s.self.size, g⟩ c).places := by
  obtain ⟨rfl, hl, hlaid⟩ := h
  refine ⟨rfl, hl, ?_⟩
  have hplaces : (Record.store ⟨s.self.size, g⟩ c).places
      = Function.update g c.1 (some (s.self.size, c.2)) := by simp [Record.store, hc]
  rw [hplaces]
  exact hlaid.append hsize hlen

/-- Storing the chunks of a list is appending those of them that are new. -/
theorem StoreLaid.storeAll : ∀ (cs : List (Hash × Bytes)) {s : OpenStore} {g : Places}
    (table : Index) (seen : List Hash), StoreLaid gameId s g →
    (∀ h, (g h).isSome ↔ h ∈ seen ∨ (table[key gameId h]?).isSome) →
    Within ⟨s.self.size, g⟩ cs →
    StoreLaid gameId (appendedAll s (freshChunks gameId table seen cs))
      (Record.storeAll ⟨s.self.size, g⟩ cs).places
    ∧ (appendedAll s (freshChunks gameId table seen cs)).self.size
      = (Record.storeAll ⟨s.self.size, g⟩ cs).size
    ∧ ∀ c ∈ freshChunks gameId table seen cs, c.2.length < 2 ^ 32
  | [], s, g, table, seen, h, hknown, _ => ⟨h, rfl, by simp [freshChunks]⟩
  | c :: cs, s, g, table, seen, h, hknown, hw => by
    obtain ⟨hc, hcs⟩ := hw
    rw [Record.storeAll, List.foldl_cons, ← Record.storeAll]
    unfold freshChunks
    by_cases hg : (g c.1).isSome
    · rw [if_pos ((hknown c.1).1 hg)]
      simp only [Record.store, hg, if_true] at hcs ⊢
      exact StoreLaid.storeAll cs table seen h hknown hcs
    · have hnone : g c.1 = none := by simpa using hg
      obtain ⟨hsize, hlen⟩ := hc hnone
      rw [if_neg (mt (hknown c.1).2 hg), appendedAll, List.foldl_cons, ← appendedAll]
      have hstore : Record.store ⟨s.self.size, g⟩ c
          = ⟨(GameStore.appended s c).self.size, (Record.store ⟨s.self.size, g⟩ c).places⟩ := by
        simp [Record.store, hnone, GameStore.appended]
      rw [hstore] at hcs ⊢
      have ih := StoreLaid.storeAll cs table (c.1 :: seen) (h.appended hnone hsize hlen)
        (fun k => ?_) hcs
      · refine ⟨ih.1, ih.2.1, fun c' hc' => ?_⟩
        rcases List.mem_cons.1 hc' with rfl | hc'
        · exact hlen
        · exact ih.2.2 c' hc'
      · simp only [Record.store, hnone, Option.isSome_none, Bool.false_eq_true, if_false,
          Function.update_apply, List.mem_cons]
        by_cases hk : k = c.1
        · simp [hk]
        · simp [hk, hknown]

end Within

end BlazeNet

import BlazeNet.Proofs.UpdateFrame

/-!
# Which file names are taken for blocks

`parse_hex` hands each pair of bytes to `u8::from_str_radix`, which also takes upper-case digits and
a sign, so a name that no lookup asks for can count as a block; and a pair that ends inside a
character panics. Apart from these, `collect_temp_hashes` finds exactly the blocks.
-/

namespace BlazeNet

open Wire FaultIo Io RustStd UnixFs

section Spec

/-- The `i`-th pair of bytes, read as a hexadecimal number. -/
def pairAt (text : Bytes) (i : ℕ) : Option UInt8 :=
  fromHexPair (text.getD (2 * i) 0) (text.getD (2 * i + 1) 0)

/-- All pairs of the text are numbers, those of the hash. -/
def Spells (stem : Name) (h : Hash) : Prop := (nameBytes (String.ofList stem)).length = 64
  ∧ ∀ i < 32, pairAt (nameBytes (String.ofList stem)) i = h.bytes[i]?

/-- The first pair that is no number ends inside a character. -/
def CutInside (stem : Name) : Prop := (nameBytes (String.ofList stem)).length = 64
  ∧ ∃ i < 32, (∀ j < i, (pairAt (nameBytes (String.ofList stem)) j).isSome)
    ∧ pairAt (nameBytes (String.ofList stem)) i = none
    ∧ ∃ c, (nameBytes (String.ofList stem))[2 * i + 2]? = some c ∧ 0x80 ≤ c ∧ c < 0xc0

end Spec

section Pairs

variable {a b : UInt8} {rest : Bytes}

theorem pairAt_zero : pairAt (a :: b :: rest) 0 = fromHexPair a b := rfl

theorem pairAt_succ (i : ℕ) : pairAt (a :: b :: rest) (i + 1) = pairAt rest i := rfl

theorem parseHexPairs_cons : parseHexPairs (a :: b :: rest) = match fromHexPair a b with
    | some byte => (parseHexPairs rest).map (Option.map (byte :: ·))
    | none => if (rest.head?.any fun c => 0x80 ≤ c ∧ c < 0xc0) then .error () else .ok none := rfl

/-- The loop finishes with the numbers of all pairs. -/
theorem parseHexPairs_eq_some : ∀ (n : ℕ) (text out : Bytes), text.length = 2 * n →
    (parseHexPairs text = .ok (some out)
      ↔ out.length = n ∧ ∀ i < n, pairAt text i = out[i]?)
  | 0, [], out, _ => by simp [parseHexPairs, eq_comm]
  | n + 1, a :: b :: rest, out, hlen => by
    have ih := parseHexPairs_eq_some n rest
    rw [parseHexPairs_cons]
    constructor
    · intro h
      rcases hpair : fromHexPair a b with _ | byte <;> rw [hpair] at h
      · dsimp only at h
        split_ifs at h
        cases h
      rcases hrest : parseHexPairs rest with _ | _ | tail <;> rw [hrest] at h <;> cases h
      obtain ⟨htail, hpairs⟩ := (ih tail (by simpa [Nat.mul_succ] using hlen)).1 hrest
      refine ⟨by rw [List.length_cons, htail], fun i hi => ?_⟩
      rcases i with _ | i
      · rw [pairAt_zero, hpair, List.getElem?_cons_zero]
      · rw [pairAt_succ, List.getElem?_cons_succ]
        exact hpairs i (by omega)
    · rintro ⟨hout, hpairs⟩
      rcases out with _ | ⟨byte, tail⟩
      · simp at hout
      have hpair := hpairs 0 (by omega)
      rw [pairAt_zero, List.getElem?_cons_zero] at hpair
      have hrest := (ih tail (by simpa [Nat.mul_succ] using hlen)).2
        ⟨by simpa using hout, fun i hi => hpairs (i + 1) (by omega)⟩
      rw [hpair, hrest]
      rfl
  | 0, _ :: _, _, h => by simp at h
  | n + 1, [], _, h => by simp at h
  | n + 1, [_], _, h => by simp at h; omega

/-- The loop panics at the first pair that is no number, if that ends inside a character. -/
theorem parseHexPairs_eq_error : ∀ (n : ℕ) (text : Bytes), text.length = 2 * n →
    (parseHexPairs text = .error () ↔ ∃ i < n, (∀ j < i, (pairAt text j).isSome)
      ∧ pairAt text i = none ∧ ∃ c, text[2 * i + 2]? = some c ∧ 0x80 ≤ c ∧ c < 0xc0)
  | 0, [], _ => by simp [parseHexPairs]
  | n + 1, a :: b :: rest, hlen => by
    have ih := parseHexPairs_eq_error n rest (by simpa [Nat.mul_succ] using hlen)
    rw [parseHexPairs_cons]
    rcases hpair : fromHexPair a b with _ | byte
    · have hhead : rest.head? = (a :: b :: rest)[2 * 0 + 2]? := by simp [List.head?_eq_getElem?]
      constructor
      · intro h
        dsimp only at h
        split_ifs at h with hcut
        rw [Option.any_eq_true] at hcut
        obtain ⟨c, hc, hcut⟩ := hcut
        exact ⟨0, by omega, by simp, hpair, c, hhead ▸ hc, by simpa using hcut⟩
      · rintro ⟨i, -, hbefore, -, c, hc, hcut⟩
        have hi : i = 0 := by
          by_contra hne
          have := hbefore 0 (by omega)
          rw [pairAt_zero, hpair] at this
          cases this
        subst hi
        rw [← hhead] at hc
        simp [hc, hcut]
    · have hstep : (parseHexPairs rest).map (Option.map (byte :: ·)) = .error ()
          ↔ parseHexPairs rest = .error () := by
        rcases parseHexPairs rest with ⟨⟩ | out <;> simp [Except.map]
      dsimp only
      rw [hstep, ih]
      constructor
      · rintro ⟨i, hi, hbefore, hnone, c, hc, hcut⟩
        refine ⟨i + 1, by omega, fun j hj => ?_, hnone, c, ?_, hcut⟩
        · rcases j with _ | j
          · rw [pairAt_zero, hpair]
            rfl
          · exact hbefore j (by omega)
        · rw [show 2 * (i + 1) + 2 = 2 * i + 2 + 1 + 1 by omega, List.getElem?_cons_succ,
            List.getElem?_cons_succ]
          exact hc
      · rintro ⟨i, hi, hbefore, hnone, c, hc, hcut⟩
        rcases i with _ | i
        · rw [pairAt_zero, hpair] at hnone
          cases hnone
        refine ⟨i, by omega, fun j hj => hbefore (j + 1) (by omega), hnone, c, ?_, hcut⟩
        rw [show 2 * (i + 1) + 2 = 2 * i + 2 + 1 + 1 by omega, List.getElem?_cons_succ,
          List.getElem?_cons_succ] at hc
        exact hc
  | 0, _ :: _, h => by simp at h
  | n + 1, [], h => by simp at h
  | n + 1, [_], h => by simp at h; omega

end Pairs

section ParseHex

variable {stem : Name} {h : Hash}

theorem parseHex_eq_some : parseHex stem = .ok (some h) ↔ Spells stem h := by
  simp only [parseHex, Spells]
  split_ifs with hlen
  · simp [hlen]
  rw [not_not] at hlen
  have hpairs := parseHexPairs_eq_some 32 (nameBytes (String.ofList stem)) h.bytes hlen
  rw [and_iff_right (show h.bytes.length = 32 from h.size)] at hpairs
  rw [and_iff_right hlen, ← hpairs]
  rcases parseHexPairs (nameBytes (String.ofList stem)) with ⟨⟩ | _ | out
  · simp [Except.map]
  · simp [Except.map]
  · simp only [Except.map, Option.bind_some, Except.ok.injEq, Hash.ofBytes?_eq_some,
      Option.some.injEq, eq_comm (a := out)]

theorem parseHex_eq_error : parseHex stem = .error () ↔ CutInside stem := by
  simp only [parseHex, CutInside]
  split_ifs with hlen
  · simp [hlen]
  rw [not_not] at hlen
  rw [and_iff_right hlen, ← parseHexPairs_eq_error 32 _ hlen]
  rcases parseHexPairs (nameBytes (String.ofList stem)) with ⟨⟩ | out <;> simp [Except.map]

end ParseHex

section Canonical

theorem nameBytes_ofList (text : List Char) :
    nameBytes (String.ofList text) = text.flatMap String.utf8EncodeChar := by
  rw [nameBytes, String.toByteArray_ofList, List.utf8Encode, List.data_toByteArray]

theorem utf8EncodeChar_digitChar : ∀ d < 16,
    String.utf8EncodeChar (Nat.digitChar d) = [UInt8.ofNat (Nat.digitChar d).toNat] := by decide

theorem fromHexPair_digitChar : ∀ x < 16, ∀ y < 16,
    fromHexPair (UInt8.ofNat (Nat.digitChar x).toNat) (UInt8.ofNat (Nat.digitChar y).toNat)
      = some (UInt8.ofNat (16 * x + y)) := by decide

theorem nameBytes_hexChars_cons (byte : UInt8) (bytes : Bytes) :
    ∃ a b, fromHexPair a b = some byte ∧ nameBytes (String.ofList (hexChars (byte :: bytes)))
      = a :: b :: nameBytes (String.ofList (hexChars bytes)) := by
  have hhigh : byte.toNat / 16 < 16 := by have := byte.toNat_lt; omega
  have hlow : byte.toNat % 16 < 16 := Nat.mod_lt _ (by decide)
  refine ⟨_, _, fromHexPair_digitChar _ hhigh _ hlow |>.trans ?_, ?_⟩
  · rw [Nat.div_add_mod, UInt8.ofNat_toNat]
  · rw [nameBytes_ofList, nameBytes_ofList]
    simp [hexChars, hexFixed, Nat.mod_eq_of_lt hhigh, utf8EncodeChar_digitChar _ hhigh,
      utf8EncodeChar_digitChar _ hlow]

/-- What `hex` writes is read back. -/
theorem parseHexPairs_hexChars : ∀ bytes : Bytes,
    (nameBytes (String.ofList (hexChars bytes))).length = 2 * bytes.length
      ∧ parseHexPairs (nameBytes (String.ofList (hexChars bytes))) = .ok (some bytes)
  | [] => by rw [nameBytes_ofList]; exact ⟨rfl, rfl⟩
  | byte :: bytes => by
    obtain ⟨hlen, hparse⟩ := parseHexPairs_hexChars bytes
    obtain ⟨a, b, hpair, hbytes⟩ := nameBytes_hexChars_cons byte bytes
    rw [hbytes, parseHexPairs_cons, hpair, hparse]
    refine ⟨?_, rfl⟩
    rw [List.length_cons, List.length_cons, hlen, List.length_cons]
    omega

theorem spells_hexChars (h : Hash) : Spells (hexChars h.bytes) h := by
  obtain ⟨hlen, hparse⟩ := parseHexPairs_hexChars h.bytes
  rw [h.size] at hlen
  exact ⟨hlen, ((parseHexPairs_eq_some 32 _ _ hlen).1 hparse).2⟩

theorem Spells.unique {stem : Name} {h h' : Hash} (hs : Spells stem h) (hs' : Spells stem h') :
    h = h' := by
  have := parseHex_eq_some.2 hs
  rw [parseHex_eq_some.2 hs'] at this
  exact (Option.some.inj (Except.ok.inj this)).symm

end Canonical

section Listing

theorem tempHash_of_stem (stem : Name) : tempHash (stem ++ ".blk".toList) = parseHex stem := by
  have hsuffix : ".blk".toList.isSuffixOf (stem ++ ".blk".toList) = true := by simp
  rw [tempHash, if_pos hsuffix]
  congr 1
  simp

/-- A name that gives a hash, or a panic, has the extension. -/
theorem exists_stem {name : Name} (h : tempHash name ≠ .ok none) :
    ∃ stem, name = stem ++ ".blk".toList := by
  rw [tempHash] at h
  split_ifs at h with hsuffix
  · obtain ⟨stem, rfl⟩ := List.isSuffixOf_iff_suffix.1 hsuffix
    exact ⟨stem, rfl⟩
  · exact absurd rfl h

theorem exists_tempHash_eq {names : List Name} {r : Except Unit (Option Hash)} (hr : r ≠ .ok none) :
    (∃ name ∈ names, tempHash name = r)
      ↔ ∃ stem, stem ++ ".blk".toList ∈ names ∧ parseHex stem = r := by
  constructor
  · rintro ⟨name, hname, rfl⟩
    obtain ⟨stem, rfl⟩ := exists_stem hr
    exact ⟨stem, hname, (tempHash_of_stem stem).symm⟩
  · rintro ⟨stem, hstem, rfl⟩
    exact ⟨_, hstem, tempHash_of_stem stem⟩

theorem mapM_tempHash : ∀ names : List Name,
    ((∃ name ∈ names, tempHash name = .error ()) ∧ names.mapM tempHash = .error ())
      ∨ (¬ ∃ name ∈ names, tempHash name = .error ()) ∧ ∃ found, names.mapM tempHash = .ok found
        ∧ ∀ r, r ∈ found ↔ ∃ name ∈ names, tempHash name = .ok r
  | [] => .inr ⟨by simp, [], rfl, by simp⟩
  | name :: names => by
    rw [List.mapM_cons]
    rcases hname : tempHash name with ⟨⟩ | r
    · exact .inl ⟨⟨name, List.mem_cons_self, hname⟩, rfl⟩
    rcases mapM_tempHash names with ⟨⟨n, hn, herr⟩, hrest⟩ | ⟨hnone, found, hrest, hfound⟩
    · exact .inl ⟨⟨n, List.mem_cons_of_mem _ hn, herr⟩, by rw [hrest]; rfl⟩
    · refine .inr ⟨?_, r :: found, by rw [hrest]; rfl, fun r' => ?_⟩
      · simpa [hname] using hnone
      · simp [hname, hfound, eq_comm]

/-- What a listing gives: a panic if a name is cut, else the hashes that names spell. -/
theorem run_collectTempHashes {tempDir : Path} {w w' : World AnyError Disk} {names : List Name}
    (hlist : (readDir tempDir : FsIo (List Name)).run w = (.ok names, w')) :
    ((∃ stem, stem ++ ".blk".toList ∈ names ∧ CutInside stem)
        ∧ (collectTempHashes tempDir).run w = (.error .killed, w'))
      ∨ (¬ ∃ stem, stem ++ ".blk".toList ∈ names ∧ CutInside stem)
        ∧ ∃ hashes, (collectTempHashes tempDir).run w = (.ok hashes, w')
          ∧ ∀ h, h ∈ hashes ↔ ∃ stem, stem ++ ".blk".toList ∈ names ∧ Spells stem h := by
  have hread : (context "读取临时目录失败" (readDir tempDir) : FsIo (List Name)).run w
      = (.ok names, w') := by rw [context, run_onErr, hlist]
  have hcut : (∃ name ∈ names, tempHash name = .error ())
      ↔ ∃ stem, stem ++ ".blk".toList ∈ names ∧ CutInside stem := by
    simp only [exists_tempHash_eq (r := .error ()) (by simp), parseHex_eq_error]
  rw [← hcut, collectTempHashes, run_bind, hread]
  rcases mapM_tempHash names with ⟨herr, hall⟩ | ⟨hnone, found, hall, hfound⟩
  · exact .inl ⟨herr, by simp only [hall]; rfl⟩
  · refine .inr ⟨hnone, HashSet.collect (found.filterMap id), by simp only [hall]; rfl, fun h => ?_⟩
    have hspell : (∃ name ∈ names, tempHash name = .ok (some h))
        ↔ ∃ stem, stem ++ ".blk".toList ∈ names ∧ Spells stem h := by
      simp only [exists_tempHash_eq (r := .ok (some h)) (by simp), parseHex_eq_some]
    rw [← hspell, ← hfound, HashSet.mem_iff, HashSet.collect, List.mem_dedup]
    simp

end Listing

/-- A text is read as the hash that `hex` writes so, unless it is cut or spells a hash in another
way; and the names of a directory give exactly the blocks in it if none is cut and each name that
spells a hash comes with the name of its block. -/
theorem collectTempHashes_exact_iff (tempDir : Path) (w w' : World AnyError Disk)
    (names : List Name) (stem : Name) :
    ((parseHex stem ≠ .error () ∧ ∀ h, parseHex stem = .ok (some h) ↔ stem = hexChars h.bytes)
        ↔ ¬ CutInside stem ∧ ∀ h, Spells stem h → stem = hexChars h.bytes)
      ∧ ((readDir tempDir : FsIo (List Name)).run w = (.ok names, w') →
          ((∃ hashes, (collectTempHashes tempDir).run w = (.ok hashes, w')
              ∧ ∀ h, h ∈ hashes ↔ (blockName h).toList ∈ names)
            ↔ ∀ stem, stem ++ ".blk".toList ∈ names →
              ¬ CutInside stem ∧ ∀ h, Spells stem h → (blockName h).toList ∈ names)) := by
  refine ⟨?_, fun hlist => ⟨?_, fun hgood => ?_⟩⟩
  · simp only [ne_eq, parseHex_eq_error, parseHex_eq_some]
    refine and_congr_right fun _ => forall_congr' fun h => ⟨Iff.mp, fun hs => ⟨hs, ?_⟩⟩
    rintro rfl
    exact spells_hexChars h
  · rintro ⟨hashes, hrun, hexact⟩ stem hstem
    rcases run_collectTempHashes hlist with ⟨-, hpanic⟩ | ⟨hcut, found, hfound, hspell⟩
    · rw [hrun] at hpanic
      cases hpanic
    · obtain rfl : hashes = found := by rw [hrun] at hfound; cases hfound; rfl
      exact ⟨fun hc => hcut ⟨stem, hstem, hc⟩,
        fun h hs => (hexact h).1 ((hspell h).2 ⟨stem, hstem, hs⟩)⟩
  · rcases run_collectTempHashes hlist with ⟨⟨stem, hstem, hc⟩, -⟩ | ⟨-, found, hfound, hspell⟩
    · exact absurd hc (hgood stem hstem).1
    · refine ⟨found, hfound, fun h => (hspell h).trans ⟨?_, fun hname => ?_⟩⟩
      · rintro ⟨stem, hstem, hs⟩
        exact (hgood stem hstem).2 h hs
      · exact ⟨hexChars h.bytes, by rwa [← toList_blockName], spells_hexChars h⟩

/-- A temporary directory with files of these names. -/
def blocksNamed (names : List Name) : Disk := .ofList <|
  ([], .dir) :: (["temp".toList], .dir) :: names.map fun n => (["temp".toList, n], .file [])

/-- A block and another file. -/
def mixedNames : List Name := [(blockName (.fill 0xab)).toList, "bad.txt".toList]

theorem eq_of_mem_mixedNames {stem : Name} (h : stem ++ ".blk".toList ∈ mixedNames) :
    stem = hexChars (Hash.fill 0xab).bytes := by
  rcases List.mem_cons.1 h with h | h
  · rw [toList_blockName] at h
    exact List.append_cancel_right h
  · have hsuffix : ".blk".toList <:+ "bad.txt".toList := ⟨stem, List.mem_singleton.1 h⟩
    exact absurd hsuffix (by decide)

theorem collectTempHashes_exact_iff_mixed :
    ∃ hashes, (collectTempHashes (components "/temp")).run ⟨blocksNamed mixedNames, []⟩
        = (.ok hashes,
          ⟨(exec (readDir (components "/temp") : FsIo (List Name)) (blocksNamed mixedNames)).2, []⟩)
      ∧ ∀ h, h ∈ hashes ↔ (blockName h).toList ∈ mixedNames := by
  have hnames : (exec (readDir (components "/temp") : FsIo (List Name)) (blocksNamed mixedNames)).1
      = .ok mixedNames := by decide +kernel
  have hlist := run_nil (readDir (components "/temp") : FsIo (List Name)) (blocksNamed mixedNames)
  rw [hnames] at hlist
  refine ((collectTempHashes_exact_iff _ _ _ _ []).2 hlist).2 fun stem hstem => ?_
  obtain rfl := eq_of_mem_mixedNames hstem
  have hspells := spells_hexChars (.fill 0xab)
  refine ⟨fun hcut => ?_, fun h hs => ?_⟩
  · have hparse := parseHex_eq_some.2 hspells
    rw [parseHex_eq_error.2 hcut] at hparse
    cases hparse
  · rw [hs.unique hspells]
    exact List.mem_cons_self

/-- A name in capitals counts as a block that no lookup finds, and one that has a character across
two pairs is a panic. -/
theorem collectTempHashes_misled :
    (exec (collectTempHashes (components "/temp"))
          (blocksNamed [List.replicate 64 'A' ++ ".blk".toList])).1.toOption.map (·.elems)
        = some [.fill 0xaa]
      ∧ (blocksNamed [List.replicate 64 'A' ++ ".blk".toList]).isFile
          (tempBlock (components "/temp") (.fill 0xaa)) = false
      ∧ parseHex (List.replicate 64 'A') = .ok (some (.fill 0xaa))
      ∧ List.replicate 64 'A' ≠ hexChars (Hash.fill 0xaa).bytes
      ∧ (exec (collectTempHashes (components "/temp"))
          (blocksNamed ['a' :: List.replicate 31 'é' ++ 'a' :: ".blk".toList])).1
        = .error .killed := by
  refine ⟨by decide +kernel, by decide +kernel, by decide +kernel, by decide +kernel,
    by decide +kernel⟩

end BlazeNet

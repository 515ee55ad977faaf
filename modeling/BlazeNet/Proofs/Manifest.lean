import BlazeNet.Manifest

/-!
# What `decode` accepts

Each reader of the manifest accepts exactly the layout of the value it returns, so `decode`
accepts exactly the documented layout, whatever the flags word, and `encode` writes it with the
flags word zero.
-/

namespace BlazeNet

open Wire

theorem fromUtf8_eq_some {bytes : Bytes} {name : String} :
    fromUtf8 bytes = some name ↔ nameBytes name = bytes := by
  unfold fromUtf8 nameBytes String.fromUTF8?
  constructor
  · intro h
    split_ifs at h
    simp only [Option.some.injEq] at h
    subst h
    simp [String.fromUTF8]
  · rintro rfl
    rw [dif_pos (by simpa using name.isValidUTF8)]
    simp [String.fromUTF8]

section Readers

theorem readU16_reads : Reads readU16 fun v pre => pre = leBytes 2 v.toNat := by
  refine ((Reads.readExact unexpectedEof 2).map fun buf => UInt16.ofNat (ofLe buf)).of_iff
    fun v pre => ?_
  constructor
  · rintro ⟨buf, rfl, rfl, hl⟩
    have hlt := ofLe_lt pre
    rw [hl] at hlt
    rw [UInt16.toNat_ofNat', Nat.mod_eq_of_lt (by omega), ← hl, leBytes_ofLe]
  · rintro rfl
    have hv : v.toNat < 256 ^ 2 := v.toNat_lt
    refine ⟨_, ?_, rfl, length_leBytes _ _⟩
    rw [ofLe_leBytes, Nat.mod_eq_of_lt hv, UInt16.ofNat_toNat]

theorem readU32_reads : Reads readU32 fun v pre => pre = leBytes 4 v.toNat := by
  refine ((Reads.readExact unexpectedEof 4).map fun buf => UInt32.ofNat (ofLe buf)).of_iff
    fun v pre => ?_
  constructor
  · rintro ⟨buf, rfl, rfl, hl⟩
    have hlt := ofLe_lt pre
    rw [hl] at hlt
    rw [UInt32.toNat_ofNat', Nat.mod_eq_of_lt (by omega), ← hl, leBytes_ofLe]
  · rintro rfl
    have hv : v.toNat < 256 ^ 4 := v.toNat_lt
    refine ⟨_, ?_, rfl, length_leBytes _ _⟩
    rw [ofLe_leBytes, Nat.mod_eq_of_lt hv, UInt32.ofNat_toNat]

theorem readHash_reads : Reads readHash fun h pre => pre = h.bytes := by
  have hd : ∀ buf : Bytes, Reads (if h : buf.length = hashLen then pure ⟨buf, h⟩
      else throw unexpectedEof : Reader AnyError Hash) fun h pre => pre = [] ∧ h.bytes = buf := by
    intro buf
    split_ifs with hl
    · refine (Reads.pure _).of_iff fun h pre => ?_
      rcases h with ⟨b, hb⟩
      simp [and_comm]
    · refine (Reads.throw _).of_iff fun h pre => ?_
      simp only [false_iff, not_and]
      rintro - rfl
      exact hl h.size
  refine (Reads.bind (Reads.readExact unexpectedEof hashLen) hd).of_iff fun h pre => ?_
  constructor
  · rintro ⟨buf, x, y, rfl, ⟨rfl, -⟩, rfl, rfl⟩
    simp
  · rintro rfl
    exact ⟨h.bytes, h.bytes, [], by simp, ⟨rfl, h.size⟩, rfl, rfl⟩

theorem readChunkMeta_reads : Reads readChunkMeta fun c pre => pre = encodeChunk c ∧ True := by
  refine (Reads.bind readHash_reads fun hash =>
    readU32_reads.map fun len => (⟨hash, len⟩ : ChunkMeta)).of_iff fun c pre => ?_
  constructor
  · rintro ⟨hash, x, y, rfl, rfl, len, rfl, rfl⟩
    exact ⟨rfl, trivial⟩
  · rintro ⟨rfl, -⟩
    exact ⟨c.hash, _, _, rfl, rfl, c.len, rfl, rfl⟩

theorem readName_reads : Reads readName fun name pre =>
    pre = leBytes 2 (nameBytes name).length ++ nameBytes name
      ∧ (nameBytes name).length ≤ 65535 := by
  refine (Reads.bind readU16_reads fun len =>
    Reads.bind (S := fun bytes name pre => pre = [] ∧ nameBytes name = bytes)
      (Reads.readExact unexpectedEof len.toNat) fun bytes => ?_).of_iff fun name pre => ?_
  · rcases hb : fromUtf8 bytes with _ | name
    · refine (Reads.throw _).of_iff fun name pre => ?_
      simp only [false_iff, not_and]
      rintro - h
      rw [fromUtf8_eq_some.2 h] at hb
      cases hb
    · refine (Reads.pure name).of_iff fun name' pre => ?_
      rw [← fromUtf8_eq_some, hb, Option.some.injEq, and_comm, eq_comm (a := name)]
  constructor
  · rintro ⟨len, x, y, rfl, rfl, bytes, x', y', rfl, ⟨rfl, hl⟩, rfl, rfl⟩
    have hlt := len.toNat_lt
    exact ⟨by simp [hl], by omega⟩
  · rintro ⟨rfl, hle⟩
    have hlen : (UInt16.ofNat (nameBytes name).length).toNat = (nameBytes name).length := by
      rw [UInt16.toNat_ofNat', Nat.mod_eq_of_lt (by omega)]
    exact ⟨UInt16.ofNat (nameBytes name).length, _, _, rfl, by rw [hlen], nameBytes name,
      nameBytes name, [], by simp, ⟨rfl, hlen.symm⟩, rfl, rfl⟩

end Readers

/-- The name and the chunk count of an entry fit their fields. -/
def FileEntry.Fits (file : FileEntry) : Prop :=
  (nameBytes file.name).length ≤ 65535 ∧ file.chunks.length < 2 ^ 32

/-- Every count and every name length of an index fits its field. -/
def GameIndex.Fits (index : GameIndex) : Prop :=
  index.files.length < 2 ^ 32 ∧ ∀ f ∈ index.files, f.Fits

theorem toNat_ofNat_of_lt {n : ℕ} (h : n < 2 ^ 32) : (UInt32.ofNat n).toNat = n := by
  rw [UInt32.toNat_ofNat', Nat.mod_eq_of_lt h]

theorem readFile_reads : Reads readFile fun f pre => pre = encodeFile f ∧ f.Fits := by
  refine (Reads.bind readName_reads fun name => Reads.bind readHash_reads fun fileHash =>
    Reads.bind readU32_reads fun count => Reads.bind (Reads.reserve count.toNat) fun _ =>
      (readChunkMeta_reads.readTimes count.toNat).map fun chunks =>
        (⟨name, fileHash, chunks⟩ : FileEntry)).of_iff fun f pre => ?_
  constructor
  · rintro ⟨name, x₁, y₁, rfl, ⟨rfl, hname⟩, fileHash, x₂, y₂, rfl, rfl, count, x₃, y₃, rfl, rfl,
      -, x₄, y₄, rfl, rfl, chunks, rfl, rfl, hl, -⟩
    have hlt := count.toNat_lt
    exact ⟨by simp [encodeFile, hl], hname, by simp only [hl]; omega⟩
  · rintro ⟨rfl, hname, hchunks⟩
    have hn := toNat_ofNat_of_lt hchunks
    exact ⟨f.name, _, f.fileHash.bytes ++ (leBytes 4 f.chunks.length
        ++ f.chunks.flatMap encodeChunk), by simp [encodeFile], ⟨rfl, hname⟩, f.fileHash,
      _, _, rfl, rfl, UInt32.ofNat f.chunks.length, _, _, by rw [hn]; rfl, rfl, (), [], _, rfl, rfl,
      f.chunks, rfl, rfl, hn.symm, fun _ _ => trivial⟩

theorem readMagic_reads : Reads readMagic fun _ pre => pre = magic := by
  have hd : ∀ buf : Bytes, Reads (if buf = magic then pure ()
      else throw (.msg "清单 magic 错误") : Reader AnyError Unit)
      fun _ pre => pre = [] ∧ buf = magic := by
    intro buf
    split_ifs with hb
    · exact (Reads.pure ()).of_iff fun _ pre => by simp [hb]
    · exact (Reads.throw _).of_iff fun _ pre => by simp [hb]
  refine (Reads.bind (Reads.readExact unexpectedEof magic.length) hd).of_iff fun _ pre => ?_
  constructor
  · rintro ⟨buf, x, y, rfl, ⟨rfl, -⟩, rfl, rfl⟩
    simp
  · rintro rfl
    exact ⟨magic, magic, [], by simp, ⟨rfl, rfl⟩, rfl, rfl⟩

/-- The documented layout of an index up to its trailing hash. -/
def documentedBody (flags : UInt16) (index : GameIndex) : Bytes :=
  magic ++ leBytes 2 index.formatVersion.toNat ++ leBytes 2 flags.toNat
    ++ leBytes 4 index.files.length ++ index.files.flatMap encodeFile

theorem readBody_reads : Reads readBody fun r pre => ∃ flags : UInt16,
    pre = magic ++ leBytes 2 r.1.toNat ++ leBytes 2 flags.toNat ++ leBytes 4 r.2.length
        ++ r.2.flatMap encodeFile
      ∧ r.2.length < 2 ^ 32 ∧ ∀ f ∈ r.2, f.Fits := by
  refine (Reads.bind readMagic_reads fun _ => Reads.bind readU16_reads fun version =>
    Reads.bind readU16_reads fun _ => Reads.bind readU32_reads fun count =>
      Reads.bind (Reads.reserve count.toNat) fun _ =>
        (readFile_reads.readTimes count.toNat).map fun files =>
          (version, files)).of_iff fun r pre => ?_
  constructor
  · rintro ⟨-, x₁, y₁, rfl, rfl, version, x₂, y₂, rfl, rfl, flags, x₃, y₃, rfl, rfl, count, x₄, y₄,
      rfl, rfl, -, x₅, y₅, rfl, rfl, files, rfl, rfl, hl, hok⟩
    have hlt := count.toNat_lt
    exact ⟨flags, by simp [hl], by simp only [hl]; omega, hok⟩
  · rintro ⟨flags, rfl, hlt, hok⟩
    have hn := toNat_ofNat_of_lt hlt
    exact ⟨(), _, leBytes 2 r.1.toNat ++ (leBytes 2 flags.toNat ++ (leBytes 4 r.2.length
        ++ r.2.flatMap encodeFile)), by simp, rfl, r.1, _, _, rfl, rfl, flags, _, _, rfl,
      rfl, UInt32.ofNat r.2.length, _, _, by rw [hn]; rfl, rfl, (), [], _, rfl, rfl, r.2, rfl, rfl,
      hn.symm, hok⟩

/-- `bytes` is the documented layout of `index` with flags word `flags`: every count fits its
field, and the trailing hash is the BLAKE3 of everything before it. -/
def DocumentedLayout (blake3 : Bytes → Hash) (flags : UInt16) (index : GameIndex)
    (bytes : Bytes) : Prop :=
  bytes = documentedBody flags index ++ index.manifestHash.bytes ∧ index.Fits
    ∧ index.manifestHash = blake3 (documentedBody flags index)

section Decode

variable (blake3 : Bytes → Hash)

theorem Hash.ofBytes?_eq_some {bytes : Bytes} {h : Hash} :
    Hash.ofBytes? bytes = some h ↔ h.bytes = bytes := by
  unfold Hash.ofBytes?
  rcases h with ⟨b, hb⟩
  constructor
  · intro h
    split_ifs at h
    simpa using h.symm
  · rintro rfl
    rw [dif_pos hb]

theorem length_documentedBody_ge (flags : UInt16) (index : GameIndex) :
    magic.length + 2 + 2 + 4 ≤ (documentedBody flags index).length := by
  simp only [documentedBody, List.length_append, length_leBytes]
  omega

theorem decode_eq_ok {bytes : Bytes} {index : GameIndex} :
    GameIndex.decode blake3 bytes = .ok index
      ↔ ∃ flags : UInt16, DocumentedLayout blake3 flags index bytes := by
  unfold GameIndex.decode
  constructor
  · intro h
    split_ifs at h with hlen
    simp only [] at h
    set body := bytes.take (bytes.length - hashLen) with hbody
    rcases hr : runReader readBody ⟨body, []⟩ with ⟨e | ⟨version, files⟩, unread, log⟩ <;>
      rw [hr] at h <;> simp only [reduceCtorEq] at h
    split_ifs at h with hun
    simp only [ne_eq, not_not] at hun
    subst hun
    rcases ht : Hash.ofBytes? (bytes.drop (bytes.length - hashLen)) with _ | tail <;>
      rw [ht] at h <;> simp only [reduceCtorEq] at h
    split_ifs at h with hh
    simp only [Except.ok.injEq] at h
    subst h
    obtain ⟨pre, hpre, flags, rfl, hcount, hfits⟩ :=
      (readBody_reads body [] (version, files) []).1 ⟨log, hr⟩
    simp only [List.append_nil] at hpre
    rw [Hash.ofBytes?_eq_some] at ht
    refine ⟨flags, ?_, ⟨hcount, hfits⟩, ?_⟩
    · simp only [documentedBody, ht, ← hpre, hbody, List.take_append_drop]
    · simp only [documentedBody, ← hpre]
      exact (not_not.1 hh).symm
  · rintro ⟨flags, rfl, ⟨hcount, hfits⟩, hh⟩
    have hge := length_documentedBody_ge flags index
    have hsize := index.manifestHash.size
    have hcut : (documentedBody flags index ++ index.manifestHash.bytes).length - hashLen
        = (documentedBody flags index).length := by
      simp only [List.length_append, hsize]
      omega
    obtain ⟨log, hr⟩ := (readBody_reads (documentedBody flags index) []
      (index.formatVersion, index.files) []).2
        ⟨_, (List.append_nil _).symm, flags, rfl, hcount, hfits⟩
    rw [if_neg (by simp only [List.length_append, hsize]; omega)]
    simp only [hcut, List.take_left, List.drop_left, hr]
    rw [if_neg (by simp), Hash.ofBytes?_eq_some.2 rfl]
    simp only [← hh, ne_eq, not_true_eq_false, if_false]

theorem encodeBody_eq (index : GameIndex) : index.encodeBody = documentedBody 0 index := rfl

/-- What `build` makes of entries that fit their fields is laid out as documented. -/
theorem build_layout {files : List FileEntry} (hcount : files.length < 2 ^ 32)
    (hfits : ∀ f ∈ files, f.Fits) :
    DocumentedLayout blake3 0 (GameIndex.build blake3 files)
      (GameIndex.build blake3 files).encode :=
  ⟨rfl, ⟨hcount, hfits⟩, rfl⟩

/-- `decode` accepts exactly the documented layout, and reads back what `build` and `encode`
make of any entries that fit their fields. -/
theorem decode_iff_documentedLayout :
    (∀ (bytes : Bytes) (index : GameIndex), GameIndex.decode blake3 bytes = .ok index
      ↔ ∃ flags : UInt16, DocumentedLayout blake3 flags index bytes)
    ∧ ∀ files : List FileEntry, files.length < 2 ^ 32 →
      (∀ f ∈ files, (nameBytes f.name).length ≤ 65535 ∧ f.chunks.length < 2 ^ 32) →
      GameIndex.decode blake3 (GameIndex.build blake3 files).encode
        = .ok (GameIndex.build blake3 files) := by
  refine ⟨fun bytes index => decode_eq_ok blake3, fun files hcount hfits => ?_⟩
  exact (decode_eq_ok blake3).2 ⟨0, build_layout blake3 hcount hfits⟩

section Reencode

variable {blake3} {bytes : Bytes} {index : GameIndex}

/-- The bytes of the flags word of a manifest. -/
def flagsWord (bytes : Bytes) : Bytes := (bytes.drop (magic.length + 2)).take 2

theorem flagsWord_layout {flags : UInt16} (h : DocumentedLayout blake3 flags index bytes) :
    flagsWord bytes = leBytes 2 flags.toNat := by
  have hmagic : magic.length + 2 = (magic ++ leBytes 2 index.formatVersion.toNat).length := by
    simp
  rw [h.1, flagsWord, documentedBody, hmagic]
  simp only [List.append_assoc]
  rw [← List.append_assoc magic, List.drop_left]
  exact List.take_left' (length_leBytes 2 _)

theorem leBytes_flags_eq_zero {flags : UInt16} : leBytes 2 flags.toNat = [0, 0] ↔ flags = 0 := by
  constructor
  · intro h
    have hv : flags.toNat < 256 ^ 2 := flags.toNat_lt
    have hn := ofLe_leBytes 2 flags.toNat
    rw [h, Nat.mod_eq_of_lt hv] at hn
    exact UInt16.toNat_inj.1 hn.symm
  · rintro rfl
    rfl

/-- Two documented layouts of one index differ only in their flags words. -/
theorem documentedBody_injective {flags flags' : UInt16}
    (h : documentedBody flags index = documentedBody flags' index) : flags = flags' := by
  simp only [documentedBody, List.append_assoc] at h
  have hword := (List.append_inj (List.append_cancel_left (List.append_cancel_left h))
    (by simp)).1
  have hof := congrArg ofLe hword
  have hv : flags.toNat < 256 ^ 2 := flags.toNat_lt
  have hv' : flags'.toNat < 256 ^ 2 := flags'.toNat_lt
  rw [ofLe_leBytes, ofLe_leBytes, Nat.mod_eq_of_lt hv, Nat.mod_eq_of_lt hv'] at hof
  exact UInt16.toNat_inj.1 hof

theorem encode_eq_iff {flags : UInt16} (h : DocumentedLayout blake3 flags index bytes) :
    index.encode = bytes ↔ flags = 0 := by
  rw [h.1, GameIndex.encode, encodeBody_eq]
  constructor
  · intro he
    exact (documentedBody_injective (List.append_cancel_right he)).symm
  · rintro rfl
    rfl

/-- `encode` gives an accepted manifest back, to be decoded to the same index again, exactly when
its flags word is zero: `decode` drops the word and `encode` writes zero for it. -/
theorem decode_encode_iff (h : GameIndex.decode blake3 bytes = .ok index) :
    (index.encode = bytes ∧ GameIndex.decode blake3 index.encode = .ok index)
      ↔ flagsWord bytes = [0, 0] := by
  obtain ⟨flags, hlay⟩ := (decode_eq_ok blake3).1 h
  rw [flagsWord_layout hlay, leBytes_flags_eq_zero, ← encode_eq_iff hlay]
  constructor
  · rintro ⟨he, -⟩
    exact he
  · intro he
    exact ⟨he, by rw [he, h]⟩

end Reencode

end Decode

/-- An index of two files, one name outside ASCII. -/
def twoFiles : GameIndex := .build (fun bytes => .fill (UInt8.ofNat bytes.length))
  [⟨"a.bin", .fill 5, [⟨.fill 1, 10⟩, ⟨.fill 2, 20⟩]⟩, ⟨"目录/b.bin", .fill 12, [⟨.fill 3, 30⟩]⟩]

def twoFilesBytes : Bytes :=
  magic ++ [1, 0] ++ [0, 0] ++ [2, 0, 0, 0]
    ++ ([5, 0] ++ [97, 46, 98, 105, 110] ++ (Hash.fill 5).bytes ++ [2, 0, 0, 0]
      ++ (Hash.fill 1).bytes ++ [10, 0, 0, 0] ++ (Hash.fill 2).bytes ++ [20, 0, 0, 0])
    ++ ([12, 0] ++ [231, 155, 174, 229, 189, 149, 47, 98, 46, 98, 105, 110] ++ (Hash.fill 12).bytes
      ++ [1, 0, 0, 0] ++ (Hash.fill 3).bytes ++ [30, 0, 0, 0])
    ++ (Hash.fill 214).bytes

theorem decode_encode_iff_two : twoFiles.encode = twoFilesBytes
    ∧ GameIndex.decode (fun bytes => .fill (UInt8.ofNat bytes.length)) twoFiles.encode
      = .ok twoFiles :=
  (decode_encode_iff (by decide +kernel)).2 (by decide +kernel)

/-- A manifest with flags word one is accepted, and what `encode` makes of it fails the check of
its own trailing hash. -/
theorem decode_drops_flags :
    GameIndex.decode (fun bytes => .fill (UInt8.ofNat (bytes.map UInt8.toNat).sum))
        (magic ++ [1, 0] ++ [1, 0] ++ [0, 0, 0, 0] ++ (Hash.fill 122).bytes)
      = .ok ⟨1, [], .fill 122⟩
    ∧ GameIndex.encode ⟨1, [], .fill 122⟩
      ≠ magic ++ [1, 0] ++ [1, 0] ++ [0, 0, 0, 0] ++ (Hash.fill 122).bytes
    ∧ GameIndex.decode (fun bytes => .fill (UInt8.ofNat (bytes.map UInt8.toNat).sum))
        (GameIndex.encode ⟨1, [], .fill 122⟩) = .error (.msg "清单哈希校验失败") := by
  decide

theorem decode_iff_documentedLayout_two :
    GameIndex.decode (fun bytes => .fill (UInt8.ofNat bytes.length)) twoFiles.encode
      = .ok twoFiles := by
  refine (decode_iff_documentedLayout _).2 _ (by decide) ?_
  simp only [List.mem_cons, List.not_mem_nil, or_false, forall_eq_or_imp, forall_eq]
  decide

end BlazeNet

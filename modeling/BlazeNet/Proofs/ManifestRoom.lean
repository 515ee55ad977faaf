import BlazeNet.Proofs.Manifest

/-!
# The room `decode` reserves

`decode` reserves room for as many files, and for as many chunks of a file, as the count in front
of them says, before any of them has been read.
-/

namespace BlazeNet

open Wire

/-- The least a file record and a chunk record take in a manifest. -/
def minFileRecord : ℕ := 2 + hashLen + 4

def minChunkRecord : ℕ := hashLen + 4

/-- The room `decode` reserves: how many entries, and how many bytes are unread at that moment.
The first is the table of files, each other one the chunk table of a file. -/
def GameIndex.reservations (bytes : Bytes) : List (ℕ × ℕ) :=
  if bytes.length < magic.length + 2 + 2 + 4 + hashLen then []
  else (runReader readBody ⟨bytes.take (bytes.length - hashLen), []⟩).2.reserved

def FitsChunks (r : ℕ × ℕ) : Prop := minChunkRecord * r.1 ≤ r.2

/-- As many minimal records as room is reserved for fit in the bytes still unread. -/
def RoomJustified : List (ℕ × ℕ) → Prop
  | [] => True
  | (count, unread) :: chunkTables =>
    minFileRecord * count ≤ unread ∧ ∀ r ∈ chunkTables, FitsChunks r

/-- The header of a manifest. -/
def headerBytes (version flags : UInt16) (fileCount : UInt32) : Bytes :=
  magic ++ leBytes 2 version.toNat ++ leBytes 2 flags.toNat ++ leBytes 4 fileCount.toNat

/-- The record of a file up to its chunks. -/
def recordStart (name : String) (fileHash : Hash) (chunkCount : UInt32) : Bytes :=
  leBytes 2 (nameBytes name).length ++ nameBytes name ++ fileHash.bytes
    ++ leBytes 4 chunkCount.toNat

/-- No count of a manifest promises more records than the rest of its body has room for: neither
the file count of its header, nor the chunk count of a file record that whole records, fewer than
the file count, lead up to. -/
structure CountsFit (bytes : Bytes) : Prop where
  files : ∀ version flags fileCount rest,
    bytes.take (bytes.length - hashLen) = headerBytes version flags fileCount ++ rest →
      minFileRecord * fileCount.toNat ≤ rest.length
  chunks : ∀ version flags fileCount (files : List FileEntry) name fileHash chunkCount rest,
    files.length < fileCount.toNat → (∀ f ∈ files, f.Fits) → (nameBytes name).length ≤ 65535 →
    bytes.take (bytes.length - hashLen) = headerBytes version flags fileCount
        ++ (files.flatMap encodeFile ++ (recordStart name fileHash chunkCount ++ rest)) →
      minChunkRecord * chunkCount.toNat ≤ rest.length

section Readers

theorem silent_readU16 : Silent readU16 := .bind (.readExact _ _) fun _ => .pure _

theorem silent_readU32 : Silent readU32 := .bind (.readExact _ _) fun _ => .pure _

theorem silent_readHash : Silent readHash := by
  refine .bind (.readExact _ _) fun buf => ?_
  split_ifs
  · exact .pure _
  · exact .throw _

theorem silent_readChunkMeta : Silent readChunkMeta :=
  .bind silent_readHash fun _ => .bind silent_readU32 fun _ => .pure _

theorem silent_readName : Silent readName := by
  refine .bind silent_readU16 fun len => .bind (.readExact _ _) fun bytes => ?_
  cases fromUtf8 bytes with
  | none => exact .throw _
  | some name => exact .pure _

theorem silent_readMagic : Silent readMagic := by
  refine .bind (.readExact _ _) fun buf => ?_
  split_ifs
  · exact .pure _
  · exact .throw _

variable {P : ℕ × ℕ → Prop}

/-- A file record reserves its chunk table once its start has been read. -/
theorem readFile_reserves : Reserves readFile (fun gained => ∀ r ∈ gained, P r)
    fun bs => ∀ name fileHash (chunkCount : UInt32) rest, (nameBytes name).length ≤ 65535 →
      bs = recordStart name fileHash chunkCount ++ rest →
        P (chunkCount.toNat, rest.length) := by
  refine (silent_readName.andThen readName_reads (by simp) fun name =>
    silent_readHash.andThen readHash_reads (by simp) fun fileHash =>
    silent_readU32.andThen readU32_reads (by simp) fun count =>
    Reserves.reserve_then (fun m => P (count.toNat, m)) (fun m gained => List.forall_mem_cons) <|
    (Silent.bind (silent_readChunkMeta.readTimes count.toNat) fun chunks =>
      .pure (⟨name, fileHash, chunks⟩ : FileEntry)).reserves (by simp)).of_iff fun bs => ?_
  constructor
  · rintro h name fileHash count rest hname rfl
    exact (h name _ (fileHash.bytes ++ (leBytes 4 count.toNat ++ rest)) (by simp [recordStart])
      ⟨rfl, hname⟩ fileHash _ _ rfl rfl count _ rest rfl rfl).1
  · rintro h name _ _ rfl ⟨rfl, hname⟩ fileHash _ _ rfl rfl count _ rest rfl rfl
    exact ⟨h name fileHash count rest hname (by simp [recordStart]), trivial⟩

/-- The body reserves the table of files after its header, then what the file records do. -/
theorem readBody_reserves {J : List (ℕ × ℕ) → Prop} {F : ℕ × ℕ → Prop} (hnil : J [])
    (hJ : ∀ r gained, J (r :: gained) ↔ F r ∧ ∀ r ∈ gained, P r) : Reserves readBody J fun bs =>
    (∀ version flags (fileCount : UInt32) rest, bs = headerBytes version flags fileCount ++ rest →
      F (fileCount.toNat, rest.length))
    ∧ ∀ version flags (fileCount : UInt32) (files : List FileEntry) name fileHash
        (chunkCount : UInt32) rest,
      files.length < fileCount.toNat → (∀ f ∈ files, f.Fits) → (nameBytes name).length ≤ 65535 →
      bs = headerBytes version flags fileCount
          ++ (files.flatMap encodeFile ++ (recordStart name fileHash chunkCount ++ rest)) →
        P (chunkCount.toNat, rest.length) := by
  refine (silent_readMagic.andThen readMagic_reads hnil fun _ =>
    silent_readU16.andThen readU16_reads hnil fun version =>
    silent_readU16.andThen readU16_reads hnil fun flags =>
    silent_readU32.andThen readU32_reads hnil fun count =>
    Reserves.reserve_then (fun m => F (count.toNat, m)) (fun m gained => hJ _ gained) <|
    Reserves.bind (readFile_reserves.readTimes readFile_reads count.toNat)
      (readFile_reads.readTimes count.toNat) fun files =>
        (Silent.pure (version, files)).reserves (by simp)).of_iff fun bs => ?_
  constructor
  · intro h
    have hat : ∀ version flags fileCount rest,
        bs = headerBytes version flags fileCount ++ rest → _ :=
      fun version flags count rest hbs =>
        h () _ (leBytes 2 version.toNat
          ++ (leBytes 2 flags.toNat ++ (leBytes 4 count.toNat ++ rest)))
          (by simp [hbs, headerBytes]) rfl version _ _ rfl rfl flags _ _ rfl rfl count
            _ rest rfl rfl
    refine ⟨fun version flags count rest hbs => (hat version flags count rest hbs).1, ?_⟩
    intro version flags count files name fileHash chunkCount rest hl hok hname hbs
    exact (hat version flags count _ hbs).2.1 files _ hl hok rfl name fileHash chunkCount rest
      hname rfl
  · rintro ⟨hfiles, hchunks⟩ - _ _ rfl rfl version _ _ rfl rfl flags _ _ rfl rfl count
      _ rest rfl rfl
    refine ⟨hfiles version flags count rest (by simp [headerBytes]), ?_, fun _ _ _ _ _ => trivial⟩
    rintro files rest' hl hok rfl name fileHash chunkCount rest hname rfl
    exact hchunks version flags count files name fileHash chunkCount rest hl hok hname
      (by simp [headerBytes])

end Readers

section Reservations

variable (bytes : Bytes)

/-- Nothing is reserved when the input is too short for a header: it has none. -/
theorem header_needs_length {version flags : UInt16} {count : UInt32} {rest : Bytes}
    (h : bytes.take (bytes.length - hashLen) = headerBytes version flags count ++ rest) :
    magic.length + 2 + 2 + 4 + hashLen ≤ bytes.length := by
  have hl := congrArg List.length h
  simp only [List.length_take, headerBytes, List.length_append, length_leBytes] at hl
  omega

/-- The reservations of `decode`, read off the input. -/
theorem reservations_iff {P F : ℕ × ℕ → Prop} {J : List (ℕ × ℕ) → Prop} (hnil : J [])
    (hJ : ∀ r gained, J (r :: gained) ↔ F r ∧ ∀ r ∈ gained, P r) :
    J (GameIndex.reservations bytes) ↔
      (∀ version flags (fileCount : UInt32) rest,
        bytes.take (bytes.length - hashLen) = headerBytes version flags fileCount ++ rest →
          F (fileCount.toNat, rest.length))
      ∧ ∀ version flags (fileCount : UInt32) (files : List FileEntry) name fileHash
          (chunkCount : UInt32) rest,
        files.length < fileCount.toNat → (∀ f ∈ files, f.Fits) → (nameBytes name).length ≤ 65535 →
        bytes.take (bytes.length - hashLen) = headerBytes version flags fileCount
            ++ (files.flatMap encodeFile ++ (recordStart name fileHash chunkCount ++ rest)) →
          P (chunkCount.toNat, rest.length) := by
  unfold GameIndex.reservations
  split_ifs with hshort
  · refine iff_of_true hnil ⟨fun version flags count rest h => ?_,
      fun version flags count files name fileHash chunkCount rest _ _ _ h => ?_⟩
    all_goals
      have := header_needs_length bytes h
      omega
  · obtain ⟨gained, hg, hiff⟩ :=
      readBody_reserves hnil hJ (bytes.take (bytes.length - hashLen)) []
    rw [hg, List.nil_append, hiff]

theorem reservations_unread_le : ∀ r ∈ GameIndex.reservations bytes, r.2 ≤ bytes.length := by
  refine (reservations_iff bytes (J := fun gained => ∀ r ∈ gained, r.2 ≤ bytes.length) (by simp)
    fun r gained => List.forall_mem_cons).2 ⟨fun version flags count rest h => ?_,
      fun version flags count files name fileHash chunkCount rest _ _ _ h => ?_⟩
  all_goals
    have hl := congrArg List.length h
    simp only [List.length_take, List.length_append] at hl
    omega

theorem RoomJustified.fits {log : List (ℕ × ℕ)} (h : RoomJustified log) :
    ∀ r ∈ log, FitsChunks r := by
  cases log with
  | nil => simp
  | cons r chunkTables =>
    have hr : FitsChunks r := by
      have hf := h.1
      unfold minFileRecord hashLen at hf
      unfold FitsChunks minChunkRecord hashLen
      omega
    exact List.forall_mem_cons.2 ⟨hr, h.2⟩

/-- Every capacity `decode` reserves is justified by the bytes still unread exactly on the inputs
none of whose counts promises more records than the rest of the body has room for; on these no
reservation asks for more than a constant multiple of the input. -/
theorem reservations_justified_iff :
    (RoomJustified (GameIndex.reservations bytes) ↔ CountsFit bytes)
      ∧ (CountsFit bytes → ∀ r ∈ GameIndex.reservations bytes,
        minChunkRecord * r.1 ≤ bytes.length) := by
  have hiff : RoomJustified (GameIndex.reservations bytes) ↔ CountsFit bytes := by
    rw [reservations_iff bytes (J := RoomJustified) trivial fun r gained => Iff.rfl]
    exact ⟨fun h => ⟨h.1, h.2⟩, fun h => ⟨h.files, h.chunks⟩⟩
  refine ⟨hiff, fun h r hr => ?_⟩
  exact ((hiff.2 h).fits r hr).trans (reservations_unread_le bytes r hr)

end Reservations

/-- A manifest of one file with one chunk. -/
theorem reservations_justified_iff_one :
    GameIndex.reservations (GameIndex.encode ⟨1, [⟨"a", .fill 5, [⟨.fill 1, 10⟩]⟩], .fill 0⟩)
        = [(1, 75), (1, 36)]
      ∧ ∀ r ∈ GameIndex.reservations
          (GameIndex.encode ⟨1, [⟨"a", .fill 5, [⟨.fill 1, 10⟩]⟩], .fill 0⟩),
        minChunkRecord * r.1
          ≤ (GameIndex.encode ⟨1, [⟨"a", .fill 5, [⟨.fill 1, 10⟩]⟩], .fill 0⟩).length := by
  have h : GameIndex.reservations (GameIndex.encode ⟨1, [⟨"a", .fill 5, [⟨.fill 1, 10⟩]⟩], .fill 0⟩)
      = [(1, 75), (1, 36)] := by decide +kernel
  refine ⟨h, (reservations_justified_iff _).2 ((reservations_justified_iff _).1.1 ?_)⟩
  rw [h]
  exact ⟨by decide, by unfold FitsChunks; decide⟩

/-- A header without a single file record that promises `2 ^ 32 - 1` of them: 45 bytes make
`decode` reserve room for all of them. -/
theorem reservations_unjustified :
    GameIndex.reservations (headerBytes 1 0 4294967295 ++ (Hash.fill 0).bytes)
        = [(4294967295, 0)]
      ∧ ¬RoomJustified (GameIndex.reservations (headerBytes 1 0 4294967295 ++ (Hash.fill 0).bytes))
      ∧ (headerBytes 1 0 4294967295 ++ (Hash.fill 0).bytes).length = 45 := by
  have h : GameIndex.reservations (headerBytes 1 0 4294967295 ++ (Hash.fill 0).bytes)
      = [(4294967295, 0)] := by decide +kernel
  refine ⟨h, ?_, by decide⟩
  rw [h]
  rintro ⟨hfiles, -⟩
  exact absurd hfiles (by decide)

end BlazeNet

import BlazeNet.Storage
import BlazeNet.Proofs.CopyRanges

/-!
# What the operations of a block store do when nothing fails

`exec_appendChunk`, `exec_appendChunksBatch`, `exec_readChunk` and their like give each operation
as a function of the state; a batch leaves what appending its new chunks one by one leaves
(`appendedAll`). Each operation is plain: faults can stop it, not make it finish with something
else.
-/

namespace BlazeNet

open Wire FaultIo Io RustStd

section Packing

theorem unpack_pack (offset : ℕ) (len : UInt32) :
    unpack (pack offset len) = (offset % 2 ^ 32, len) := by
  have hl := len.toNat_lt
  have hp : (pack offset len).toNat = (offset % 2 ^ 32) * 2 ^ 32 + len.toNat := by
    simp only [pack, UInt64.toNat_or, UInt64.toNat_shiftLeft, UInt64.toNat_ofNat',
      UInt32.toNat_toUInt64]
    rw [show (32 : UInt64).toNat % 64 = 32 from rfl, Nat.shiftLeft_eq]
    have : offset % 2 ^ 64 * 2 ^ 32 % 2 ^ 64 = (offset % 2 ^ 32) * 2 ^ 32 := by omega
    rw [this, ← Nat.shiftLeft_eq, Nat.shiftLeft_add_eq_or_of_lt hl]
  refine Prod.ext ?_ ?_
  · simp only [unpack, UInt64.toNat_shiftRight, hp]
    rw [show (32 : UInt64).toNat % 64 = 32 from rfl, Nat.shiftRight_eq_div_pow]
    omega
  · apply UInt32.toNat_inj.1
    simp only [unpack, UInt64.toNat_toUInt32, UInt64.toNat_and, hp]
    rw [show lenMask.toNat = 2 ^ 32 - 1 from rfl, Nat.and_two_pow_sub_one_eq_mod]
    omega

theorem key_inj {gameId : UInt64} {h h' : Hash} (e : key gameId h = key gameId h') : h = h' := by
  have hc := congrArg String.toList e
  simp only [key, String.toList_ofList, List.append_cancel_left_eq] at hc
  rcases h with ⟨b, hb⟩
  rcases h' with ⟨b', hb'⟩
  simpa using hexChars_inj hc

end Packing

namespace GameStore

variable {s : OpenStore}

section Calls

@[simp] theorem exec_dbCall (text : String) (s : OpenStore) :
    exec (dbCall text) s = (.ok (), s) := rfl

@[simp] theorem exec_beginRead (s : OpenStore) : exec beginRead s = (.ok s.index, s) := rfl

@[simp] theorem exec_beginWrite (s : OpenStore) : exec beginWrite s = (.ok s.index, s) := rfl

@[simp] theorem exec_tableGet (t : Index) (k : String) (s : OpenStore) :
    exec (tableGet t k) s = (.ok t[k]?, s) := rfl

@[simp] theorem exec_tableInsert (text : String) (t : Index) (k : String) (v : UInt64)
    (s : OpenStore) : exec (tableInsert text t k v) s = (.ok (t.insert k v), s) := rfl

@[simp] theorem exec_tableRemove (text : String) (t : Index) (k : String) (s : OpenStore) :
    exec (tableRemove text t k) s = (.ok (t.erase k), s) := rfl

@[simp] theorem exec_commit (text : String) (t : Index) (s : OpenStore) :
    exec (commit text t) s = (.ok (), { s with index := t }) := rfl

@[simp] theorem exec_setSize (n : ℕ) (s : OpenStore) :
    exec (setSize n) s = (.ok (), { s with self := { s.self with size := n } }) := rfl

theorem exec_writeExactAt (d : Bytes) (o : ℕ) (s : OpenStore) :
    exec (writeExactAt d o) s = (.ok (), packFileRef.put (pwrite (packFileRef.content s) o d) s) :=
  exec_writeLoop packFileRef _ s d o

theorem quiet_dbCall (text : String) : Quiet (dbCall text) := quiet_context (.query _)

theorem quiet_beginRead : Quiet beginRead :=
  .bind (quiet_dbCall _) fun _ => quiet_context (.query _)

theorem quiet_beginWrite : Quiet beginWrite :=
  .bind (quiet_dbCall _) fun _ => quiet_context (.query _)

theorem quiet_tableGet (t : Index) (k : String) : Quiet (tableGet t k) := quiet_context (.query _)

theorem quiet_tableInsert (text : String) (t : Index) (k : String) (v : UInt64) :
    Quiet (tableInsert text t k v) := quiet_context (.query _)

theorem plain_dbCall (text : String) : Plain (dbCall text) := plain_context (.query _)

theorem plain_beginRead : Plain beginRead :=
  .bind (plain_dbCall _) fun _ => plain_context (.query _)

theorem plain_beginWrite : Plain beginWrite :=
  .bind (plain_dbCall _) fun _ => plain_context (.query _)

theorem plain_tableGet (t : Index) (k : String) : Plain (tableGet t k) := plain_context (.query _)

theorem plain_tableInsert (text : String) (t : Index) (k : String) (v : UInt64) :
    Plain (tableInsert text t k v) := plain_context (.query _)

theorem plain_tableRemove (text : String) (t : Index) (k : String) :
    Plain (tableRemove text t k) := plain_context (.query _)

theorem plain_commit (text : String) (t : Index) : Plain (commit text t) :=
  plain_context (.final _)

theorem plain_setSize (n : ℕ) : Plain (setSize n) := .modify _

theorem plain_writeExactAt (d : Bytes) (o : ℕ) : Plain (writeExactAt d o) :=
  writeLoop_plain packFileRef _ d o

end Calls

section Append

/-- The store after a chunk it did not have is appended. -/
def appended (s : OpenStore) (c : Hash × Bytes) : OpenStore where
  self := { s.self with size := s.self.size + c.2.length }
  index := s.index.insert (key s.self.gameId c.1)
    (BlazeNet.pack s.self.size (UInt32.ofNat c.2.length))
  pack := pwrite s.pack s.self.size c.2
  packCompact := s.packCompact

theorem packFileRef_put (hl : s.self.packFile = .linked) (b : Bytes) :
    packFileRef.put b s = { s with pack := b } := by
  simp only [packFileRef, hl]

theorem packFileRef_content (hl : s.self.packFile = .linked) : packFileRef.content s = s.pack := by
  simp only [packFileRef, hl]

/-- The store with other bytes in its pack, on any handle: one that a rename has taken its file
from has the old file. -/
def withPack (s : OpenStore) (file : Bytes) (size : ℕ) (index : Index) : OpenStore :=
  let s' := packFileRef.put file s
  { s' with self := { s'.self with size := size }, index := index }

theorem withPack_eq (hl : s.self.packFile = .linked) (file : Bytes) (size : ℕ) (index : Index) :
    withPack s file size index
      = { s with self := { s.self with size := size }, pack := file, index := index } := by
  simp only [withPack, packFileRef_put hl]

@[simp] theorem withPack_gameId (s : OpenStore) (file : Bytes) (size : ℕ) (index : Index) :
    (withPack s file size index).self.gameId = s.self.gameId := by
  rcases s with ⟨⟨g, _ | c, z⟩, i, p, t⟩ <;> rfl

@[simp] theorem withPack_size (s : OpenStore) (file : Bytes) (size : ℕ) (index : Index) :
    (withPack s file size index).self.size = size := rfl

@[simp] theorem withPack_index (s : OpenStore) (file : Bytes) (size : ℕ) (index : Index) :
    (withPack s file size index).index = index := rfl

@[simp] theorem content_withPack (s : OpenStore) (file : Bytes) (size : ℕ) (index : Index) :
    packFileRef.content (withPack s file size index) = file := by
  rcases s with ⟨⟨g, _ | c, z⟩, i, p, t⟩ <;> rfl

@[simp] theorem withPack_withPack (s : OpenStore) (file file' : Bytes) (size size' : ℕ)
    (index index' : Index) :
    withPack (withPack s file size index) file' size' index' = withPack s file' size' index' := by
  rcases s with ⟨⟨g, _ | c, z⟩, i, p, t⟩ <;> rfl

theorem withPack_self (s : OpenStore) :
    withPack s (packFileRef.content s) s.self.size s.index = s := by
  rcases s with ⟨⟨g, _ | c, z⟩, i, p, t⟩ <;> rfl

/-- The store after a chunk it did not have is appended, on any handle. -/
def appendedTo (s : OpenStore) (c : Hash × Bytes) : OpenStore :=
  withPack s (pwrite (packFileRef.content s) s.self.size c.2) (s.self.size + c.2.length)
    (s.index.insert (key s.self.gameId c.1)
      (BlazeNet.pack s.self.size (UInt32.ofNat c.2.length)))

theorem appendedTo_eq (hl : s.self.packFile = .linked) (c : Hash × Bytes) :
    appendedTo s c = appended s c := by
  rw [appendedTo, withPack_eq hl, packFileRef_content hl, appended]

@[simp] theorem packFileRef_put_index (b : Bytes) (s : OpenStore) :
    (packFileRef.put b s).index = s.index := by
  rcases s with ⟨⟨g, _ | c, z⟩, i, p, t⟩ <;> rfl

theorem exec_appendChunkTo (s : OpenStore) (h : Hash) (d : Bytes) :
    exec (appendChunk h d) s = match s.index[key s.self.gameId h]? with
      | some v => (.ok (unpack v), s)
      | none => (.ok (s.self.size, UInt32.ofNat d.length), appendedTo s (h, d)) := by
  unfold appendChunk
  simp only [exec_bind, exec_get, exec_beginRead, exec_tableGet]
  rcases s.index[key s.self.gameId h]? with _ | v
  · simp only [exec_bind, exec_context_ok (exec_writeExactAt _ _ _), exec_setSize,
      exec_beginWrite, exec_tableInsert, exec_commit, exec_pure, packFileRef_put_index]
    rfl
  · rfl

theorem exec_appendChunk (hl : s.self.packFile = .linked) (h : Hash) (d : Bytes) :
    exec (appendChunk h d) s = match s.index[key s.self.gameId h]? with
      | some v => (.ok (unpack v), s)
      | none => (.ok (s.self.size, UInt32.ofNat d.length), appended s (h, d)) := by
  rw [exec_appendChunkTo, appendedTo_eq hl]

theorem plain_appendChunk (h : Hash) (d : Bytes) : Plain (appendChunk h d) := by
  refine .bind .get fun s => .bind plain_beginRead fun t => .bind (plain_tableGet _ _) fun v => ?_
  rcases v with _ | v
  · exact .bind (plain_context (plain_writeExactAt _ _)) fun _ => .bind (plain_setSize _) fun _ =>
      .bind plain_beginWrite fun _ => .bind (plain_tableInsert _ _ _ _) fun _ =>
        .bind (plain_commit _ _) fun _ => .pure _
  · exact .pure _

end Append

section Scan

variable (gameId : UInt64) (table : Index)

/-- `scanChunks` without its calls to the database. -/
def scanned : ℕ → List (Hash × Bytes) → BatchScan → BatchScan
  | _, [], scan => scan
  | idx, (hash, data) :: chunks, scan =>
    match scan.seenNew.lookup hash with
    | some first => scanned (idx + 1) chunks (scan.dup idx first)
    | none => match table[key gameId hash]? with
      | some value => scanned (idx + 1) chunks (scan.old value)
      | none => scanned (idx + 1) chunks (scan.fresh idx hash data)

/-- The chunks of a batch the index does not know, the first of each hash; `seen` are the hashes
met before. -/
def freshChunks : List Hash → List (Hash × Bytes) → List (Hash × Bytes)
  | _, [] => []
  | seen, (hash, data) :: chunks =>
    if hash ∈ seen ∨ (table[key gameId hash]?).isSome then freshChunks seen chunks
    else (hash, data) :: freshChunks (hash :: seen) chunks

theorem exec_scanChunks (s : OpenStore) : ∀ (chunks : List (Hash × Bytes)) (idx : ℕ)
    (scan : BatchScan), exec (scanChunks gameId table idx chunks scan) s
      = (.ok (scanned gameId table idx chunks scan), s)
  | [], _, _ => rfl
  | (hash, data) :: chunks, idx, scan => by
    unfold scanChunks scanned
    rcases scan.seenNew.lookup hash with _ | first
    · simp only [exec_bind, exec_tableGet]
      rcases table[key gameId hash]? with _ | value
      · exact exec_scanChunks s chunks _ _
      · exact exec_scanChunks s chunks _ _
    · exact exec_scanChunks s chunks _ _

theorem plain_scanChunks : ∀ (chunks : List (Hash × Bytes)) (idx : ℕ) (scan : BatchScan),
    Plain (scanChunks gameId table idx chunks scan)
  | [], _, _ => .pure _
  | (hash, data) :: chunks, idx, scan => by
    unfold scanChunks
    rcases scan.seenNew.lookup hash with _ | first
    · refine .bind (plain_tableGet _ _) fun v => ?_
      rcases v with _ | v
      · exact plain_scanChunks chunks _ _
      · exact plain_scanChunks chunks _ _
    · exact plain_scanChunks chunks _ _

theorem quiet_scanChunks : ∀ (chunks : List (Hash × Bytes)) (idx : ℕ) (scan : BatchScan),
    Quiet (scanChunks gameId table idx chunks scan)
  | [], _, _ => .pure _
  | (hash, data) :: chunks, idx, scan => by
    unfold scanChunks
    rcases scan.seenNew.lookup hash with _ | first
    · refine .bind (quiet_tableGet _ _) fun v => ?_
      rcases v with _ | v
      · exact quiet_scanChunks chunks _ _
      · exact quiet_scanChunks chunks _ _
    · exact quiet_scanChunks chunks _ _

theorem lookup_isSome_iff {β : Type} {l : List (Hash × β)} {h : Hash} :
    (∃ n, l.lookup h = some n) ↔ h ∈ l.map (·.1) := by
  induction l with
  | nil => simp
  | cons x l ih =>
    rw [List.lookup_cons, List.map_cons, List.mem_cons]
    by_cases hx : h = x.1
    · simp [hx]
    · simp only [hx, false_or, ← ih, beq_eq_false_iff_ne.2 hx]

/-- What the scan has found after `idx` chunks. -/
structure ScanOk (idx : ℕ) (scan : BatchScan) : Prop where
  out : scan.out.length = idx
  length : scan.newPos.length = scan.newData.length
  below : ∀ p ∈ scan.newPos, p < idx
  sorted : scan.newPos.Pairwise (· < ·)
  dups : ∀ d ∈ scan.dupOfNew, d.1 ∉ scan.newPos ∧ d.1 < idx

theorem ScanOk.dup {idx : ℕ} {scan : BatchScan} (h : ScanOk idx scan) (first : ℕ) :
    ScanOk (idx + 1) (scan.dup idx first) where
  out := by simp [BatchScan.dup, h.out]
  length := h.length
  below p hp := (h.below p hp).trans (Nat.lt_succ_self idx)
  sorted := h.sorted
  dups d hd := by
    simp only [BatchScan.dup, List.mem_append, List.mem_singleton] at hd
    rcases hd with hd | rfl
    · exact ⟨(h.dups d hd).1, (h.dups d hd).2.trans (Nat.lt_succ_self idx)⟩
    · exact ⟨fun hp => absurd (h.below _ hp) (lt_irrefl _), Nat.lt_succ_self idx⟩

theorem ScanOk.old {idx : ℕ} {scan : BatchScan} (h : ScanOk idx scan) (value : UInt64) :
    ScanOk (idx + 1) (scan.old value) where
  out := by simp [BatchScan.old, h.out]
  length := h.length
  below p hp := (h.below p hp).trans (Nat.lt_succ_self idx)
  sorted := h.sorted
  dups d hd := ⟨(h.dups d hd).1, (h.dups d hd).2.trans (Nat.lt_succ_self idx)⟩

theorem ScanOk.fresh {idx : ℕ} {scan : BatchScan} (h : ScanOk idx scan) (hash : Hash)
    (data : Bytes) : ScanOk (idx + 1) (scan.fresh idx hash data) where
  out := by simp [BatchScan.fresh, h.out]
  length := by simp [BatchScan.fresh, h.length]
  below p hp := by
    simp only [BatchScan.fresh, List.mem_append, List.mem_singleton] at hp
    rcases hp with hp | rfl
    · exact (h.below p hp).trans (Nat.lt_succ_self idx)
    · exact Nat.lt_succ_self p
  sorted := by
    simp only [BatchScan.fresh, List.pairwise_append, List.mem_singleton]
    exact ⟨h.sorted, List.pairwise_singleton _ _, fun p hp q hq => hq ▸ h.below p hp⟩
  dups d hd := by
    have := h.dups d hd
    simp only [BatchScan.fresh, List.mem_append, List.mem_singleton, not_or]
    exact ⟨⟨this.1, this.2.ne⟩, this.2.trans (Nat.lt_succ_self idx)⟩

/-- The scan finds the fresh chunks, in order, each with its position in the batch. -/
theorem scanned_spec : ∀ (chunks : List (Hash × Bytes)) (idx : ℕ) (scan : BatchScan),
    ScanOk idx scan → ScanOk (idx + chunks.length) (scanned gameId table idx chunks scan)
      ∧ (scanned gameId table idx chunks scan).newData
        = scan.newData ++ freshChunks gameId table (scan.seenNew.map (·.1)) chunks
  | [], idx, scan, h => ⟨h, by simp [scanned, freshChunks]⟩
  | (hash, data) :: chunks, idx, scan, h => by
    unfold scanned freshChunks
    rw [List.length_cons, Nat.add_comm chunks.length 1, ← Nat.add_assoc]
    rcases hl : scan.seenNew.lookup hash with _ | first
    · have hseen : hash ∉ scan.seenNew.map (·.1) := by
        rw [← lookup_isSome_iff, hl]
        simp
      rcases ht : table[key gameId hash]? with _ | value
      · have := scanned_spec chunks (idx + 1) _ (h.fresh hash data)
        rw [if_neg (by simp [hseen])]
        refine ⟨this.1, ?_⟩
        rw [this.2]
        simp [BatchScan.fresh]
      · have := scanned_spec chunks (idx + 1) _ (h.old value)
        rw [if_pos (by simp)]
        exact this
    · have hseen : hash ∈ scan.seenNew.map (·.1) := lookup_isSome_iff.1 ⟨first, hl⟩
      have := scanned_spec chunks (idx + 1) _ (h.dup first)
      rw [if_pos (.inl hseen)]
      exact this

theorem freshChunks_spec : ∀ (chunks : List (Hash × Bytes)) (seen : List Hash),
    ((freshChunks gameId table seen chunks).map (·.1)).Nodup
      ∧ ∀ c ∈ freshChunks gameId table seen chunks,
        c ∈ chunks ∧ c.1 ∉ seen ∧ table[key gameId c.1]? = none
  | [], _ => by simp [freshChunks]
  | (hash, data) :: chunks, seen => by
    unfold freshChunks
    split_ifs with hc
    · obtain ⟨h₁, h₂⟩ := freshChunks_spec chunks seen
      exact ⟨h₁, fun c hc => ⟨List.mem_cons_of_mem _ (h₂ c hc).1, (h₂ c hc).2⟩⟩
    · obtain ⟨h₁, h₂⟩ := freshChunks_spec chunks (hash :: seen)
      push Not at hc
      refine ⟨?_, fun c hmem => ?_⟩
      · rw [List.map_cons, List.nodup_cons]
        refine ⟨fun hm => ?_, h₁⟩
        obtain ⟨c, hm, rfl⟩ := List.mem_map.1 hm
        exact (h₂ c hm).2.1 List.mem_cons_self
      · rcases List.mem_cons.1 hmem with rfl | hmem
        · exact ⟨List.mem_cons_self, hc.1, by simpa using hc.2⟩
        · have := h₂ c hmem
          exact ⟨List.mem_cons_of_mem _ this.1, fun h => this.2.1 (List.mem_cons_of_mem _ h),
            this.2.2⟩

end Scan

section Batch

/-- The places a batch gives the chunks it writes. -/
def placesFrom : ℕ → List Bytes → List (ℕ × UInt32)
  | _, [] => []
  | offset, d :: ds =>
    (offset, UInt32.ofNat d.length) :: placesFrom (offset + (UInt32.ofNat d.length).toNat) ds

def endFrom : ℕ → List Bytes → ℕ
  | offset, [] => offset
  | offset, d :: ds => endFrom (offset + (UInt32.ofNat d.length).toNat) ds

def packFrom : ℕ → List Bytes → Bytes → Bytes
  | _, [], file => file
  | offset, d :: ds, file =>
    packFrom (offset + (UInt32.ofNat d.length).toNat) ds (pwrite file offset d)

def setAll (l : List (ℕ × ℕ × UInt32)) (out : List (ℕ × UInt32)) : List (ℕ × UInt32) :=
  l.foldl (fun out x => out.set x.1 x.2) out

theorem length_placesFrom : ∀ (ds : List Bytes) (o : ℕ), (placesFrom o ds).length = ds.length
  | [], _ => rfl
  | d :: ds, o => by simp [placesFrom, length_placesFrom ds]

theorem exec_writeNew (s : OpenStore) : ∀ (ds : List Bytes) (ps : List ℕ) (o : ℕ)
    (out : List (ℕ × UInt32)) (file : Bytes), ps.length = ds.length →
    exec (writeNew (ps.zip ds) o out) (packFileRef.put file s)
      = (.ok (setAll (ps.zip (placesFrom o ds)) out, endFrom o ds),
          packFileRef.put (packFrom o ds file) s)
  | [], ps, o, out, file, hlen => by
    rw [List.length_nil, List.length_eq_zero_iff] at hlen
    subst hlen
    rfl
  | d :: ds, [], o, out, file, hlen => by simp at hlen
  | d :: ds, p :: ps, o, out, file, hlen => by
    simp only [List.zip_cons_cons, writeNew, exec_bind, exec_context_ok (exec_writeExactAt _ _ _),
      packFileRef.content_put, packFileRef.put_put]
    exact exec_writeNew s ds ps _ _ _ (by simpa using hlen)

theorem plain_writeNew : ∀ (ps : List (ℕ × Bytes)) (o : ℕ) (out : List (ℕ × UInt32)),
    Plain (writeNew ps o out)
  | [], _, _ => .pure _
  | (_, _) :: ps, _, _ => .bind (plain_context (plain_writeExactAt _ _)) fun _ =>
    plain_writeNew ps _ _

theorem getD_setAll_of_not_mem : ∀ (l : List (ℕ × ℕ × UInt32)) (out : List (ℕ × UInt32)) {p : ℕ},
    p ∉ l.map (·.1) → (setAll l out).getD p (0, 0) = out.getD p (0, 0)
  | [], _, _, _ => rfl
  | x :: l, out, p, h => by
    simp only [List.map_cons, List.mem_cons, not_or] at h
    rw [setAll, List.foldl_cons, ← setAll, getD_setAll_of_not_mem l _ h.2]
    simp only [List.getD_eq_getElem?_getD, List.getElem?_set_ne (Ne.symm h.1)]

theorem getD_setAll : ∀ (ps : List ℕ) (locs : List (ℕ × UInt32)) (out : List (ℕ × UInt32)),
    ps.Pairwise (· < ·) → (∀ p ∈ ps, p < out.length) → ps.length = locs.length →
    ps.map (fun p => (setAll (ps.zip locs) out).getD p (0, 0)) = locs
  | [], [], _, _, _, _ => rfl
  | [], _ :: _, _, _, _, hlen => by simp at hlen
  | _ :: _, [], _, _, _, hlen => by simp at hlen
  | p :: ps, loc :: locs, out, hsorted, hlt, hlen => by
    rw [List.pairwise_cons] at hsorted
    have hp : p ∉ (ps.zip locs).map (·.1) := by
      rw [List.map_fst_zip (by simpa using hlen.le)]
      exact fun h => lt_irrefl _ (hsorted.1 p h)
    simp only [List.zip_cons_cons, List.map_cons, setAll, List.foldl_cons]
    rw [← setAll, getD_setAll_of_not_mem _ _ hp]
    refine List.cons_eq_cons.2 ⟨?_, ?_⟩
    · have := hlt p List.mem_cons_self
      simp [List.getD_eq_getElem?_getD, List.getElem?_set_self this]
    · exact getD_setAll ps locs _ hsorted.2
        (fun q hq => by simpa using hlt q (List.mem_cons_of_mem _ hq)) (by simpa using hlen)

theorem length_setAll : ∀ (l : List (ℕ × ℕ × UInt32)) (out : List (ℕ × UInt32)),
    (setAll l out).length = out.length
  | [], _ => rfl
  | x :: l, out => by
    rw [setAll, List.foldl_cons, ← setAll, length_setAll l]
    simp

theorem getD_fillDups : ∀ (dups : List (ℕ × ℕ)) (out : List (ℕ × UInt32)) {p : ℕ},
    (∀ d ∈ dups, d.1 ≠ p) → (fillDups dups out).getD p (0, 0) = out.getD p (0, 0)
  | [], _, _, _ => rfl
  | d :: dups, out, p, h => by
    rw [fillDups, List.foldl_cons, ← fillDups,
      getD_fillDups dups _ fun d' hd => h d' (List.mem_cons_of_mem _ hd)]
    simp only [List.getD_eq_getElem?_getD, List.getElem?_set_ne (h d List.mem_cons_self)]

def insertAt (gameId : UInt64) (l : List (Hash × ℕ × UInt32)) (table : Index) : Index :=
  l.foldl (fun t x => t.insert (key gameId x.1) (BlazeNet.pack x.2.1 x.2.2)) table

theorem exec_insertNew (gameId : UInt64) (out : List (ℕ × UInt32)) (s : OpenStore) :
    ∀ (hs : List (Hash × ℕ)) (table : Index), exec (insertNew gameId out hs table) s
      = (.ok (insertAt gameId (hs.map fun x => (x.1, out.getD x.2 (0, 0))) table), s)
  | [], _ => rfl
  | (h, p) :: hs, table => by
    simp only [insertNew, exec_bind, exec_tableInsert]
    exact exec_insertNew gameId out s hs _

theorem plain_insertNew (gameId : UInt64) (out : List (ℕ × UInt32)) :
    ∀ (hs : List (Hash × ℕ)) (table : Index), Plain (insertNew gameId out hs table)
  | [], _ => .pure _
  | (_, _) :: hs, _ => .bind (plain_tableInsert _ _ _ _) fun _ => plain_insertNew gameId out hs _

theorem quiet_insertNew (gameId : UInt64) (out : List (ℕ × UInt32)) :
    ∀ (hs : List (Hash × ℕ)) (table : Index), Quiet (insertNew gameId out hs table)
  | [], _ => .pure _
  | (_, _) :: hs, _ => .bind (quiet_tableInsert _ _ _ _) fun _ => quiet_insertNew gameId out hs _

/-- Chunks appended one by one. -/
def appendedAll (s : OpenStore) (cs : List (Hash × Bytes)) : OpenStore := cs.foldl appended s

theorem appendedAll_eq : ∀ (cs : List (Hash × Bytes)) (s : OpenStore),
    (∀ c ∈ cs, c.2.length < 2 ^ 32) → appendedAll s cs
      = { self := { s.self with size := endFrom s.self.size (cs.map (·.2)) }
          index := insertAt s.self.gameId
            ((cs.map (·.1)).zip (placesFrom s.self.size (cs.map (·.2)))) s.index
          pack := packFrom s.self.size (cs.map (·.2)) s.pack
          packCompact := s.packCompact }
  | [], _, _ => rfl
  | c :: cs, s, h => by
    have hc : (UInt32.ofNat c.2.length).toNat = c.2.length := by
      rw [UInt32.toNat_ofNat', Nat.mod_eq_of_lt (h c List.mem_cons_self)]
    rw [appendedAll, List.foldl_cons, ← appendedAll,
      appendedAll_eq cs _ fun c' hc' => h c' (List.mem_cons_of_mem _ hc')]
    simp only [appended, List.map_cons, placesFrom, endFrom, packFrom, hc, List.zip_cons_cons]
    rfl

/-- The scan of a batch against the index of `s`. -/
def batchScan (s : OpenStore) (chunks : List (Hash × Bytes)) : BatchScan :=
  scanned s.self.gameId s.index 0 chunks ⟨[], [], [], [], []⟩

/-- The places a batch returns. -/
def batchOut (s : OpenStore) (chunks : List (Hash × Bytes)) : List (ℕ × UInt32) :=
  fillDups (batchScan s chunks).dupOfNew (setAll ((batchScan s chunks).newPos.zip
    (placesFrom s.self.size ((batchScan s chunks).newData.map (·.2)))) (batchScan s chunks).out)

theorem batchScan_spec (s : OpenStore) (chunks : List (Hash × Bytes)) :
    ScanOk chunks.length (batchScan s chunks)
      ∧ (batchScan s chunks).newData = freshChunks s.self.gameId s.index [] chunks := by
  have := scanned_spec s.self.gameId s.index chunks 0 ⟨[], [], [], [], []⟩
    ⟨rfl, rfl, by simp, List.Pairwise.nil, by simp⟩
  simpa [batchScan] using this

/-- The returned places of the new chunks are those they were written at. -/
theorem batchOut_newPos (s : OpenStore) (chunks : List (Hash × Bytes)) :
    (batchScan s chunks).newPos.map (fun p => (batchOut s chunks).getD p (0, 0))
      = placesFrom s.self.size ((batchScan s chunks).newData.map (·.2)) := by
  obtain ⟨hok, -⟩ := batchScan_spec s chunks
  rw [← getD_setAll _ (placesFrom s.self.size ((batchScan s chunks).newData.map (·.2)))
    (batchScan s chunks).out hok.sorted (fun p hp => by rw [hok.out]; exact hok.below p hp)
    (by rw [length_placesFrom, List.length_map, hok.length])]
  refine List.map_congr_left fun p hp => getD_fillDups _ _ fun d hd h => ?_
  exact (hok.dups d hd).1 (h ▸ hp)

theorem zip_map_right {α β γ : Type} (f : β → γ) : ∀ (as : List α) (bs : List β),
    (as.zip bs).map (fun x => (x.1, f x.2)) = as.zip (bs.map f)
  | [], _ => rfl
  | _ :: _, [] => rfl
  | a :: as, b :: bs => by simp [zip_map_right f as bs]

/-- What a batch does, also when a chunk is too long for its length to be kept. -/
theorem exec_appendChunksBatchTo (s : OpenStore) (chunks : List (Hash × Bytes)) :
    exec (appendChunksBatch chunks) s = (.ok (batchOut s chunks),
      let fresh := freshChunks s.self.gameId s.index [] chunks
      withPack s (packFrom s.self.size (fresh.map (·.2)) (packFileRef.content s))
        (endFrom s.self.size (fresh.map (·.2)))
        (insertAt s.self.gameId
          ((fresh.map (·.1)).zip (placesFrom s.self.size (fresh.map (·.2)))) s.index)) := by
  obtain ⟨hok, hnew⟩ := batchScan_spec s chunks
  have hw := exec_writeNew s ((batchScan s chunks).newData.map (·.2)) (batchScan s chunks).newPos
    s.self.size (batchScan s chunks).out (packFileRef.content s)
    (by rw [List.length_map, hok.length])
  rw [packFileRef.put_content] at hw
  unfold appendChunksBatch
  simp only [exec_bind, exec_get, exec_beginRead, exec_scanChunks]
  rw [← batchScan, hw]
  simp only [exec_setSize]
  rw [← hnew]
  split_ifs with hempty
  · rw [List.isEmpty_iff] at hempty
    simp only [exec_pure, batchOut, hempty, List.map_nil, packFrom, packFileRef.put_content]
    exact congrArg _ (withPack_self s).symm
  · simp only [exec_bind, exec_beginWrite, exec_insertNew, exec_commit, exec_pure,
      packFileRef_put_index]
    rw [← batchOut, zip_map_right (fun p => (batchOut s chunks).getD p (0, 0)), batchOut_newPos]
    rfl

theorem exec_appendChunksBatch (hl : s.self.packFile = .linked) (chunks : List (Hash × Bytes)) :
    exec (appendChunksBatch chunks) s = (.ok (batchOut s chunks),
      let fresh := freshChunks s.self.gameId s.index [] chunks
      { self := { s.self with size := endFrom s.self.size (fresh.map (·.2)) }
        index := insertAt s.self.gameId
          ((fresh.map (·.1)).zip (placesFrom s.self.size (fresh.map (·.2)))) s.index
        pack := packFrom s.self.size (fresh.map (·.2)) s.pack
        packCompact := s.packCompact }) := by
  rw [exec_appendChunksBatchTo, packFileRef_content hl, withPack_eq hl]

/-- A batch appends its new chunks one by one. -/
theorem exec_appendChunksBatch_of_fits (hl : s.self.packFile = .linked)
    (chunks : List (Hash × Bytes))
    (hfit : ∀ c ∈ freshChunks s.self.gameId s.index [] chunks, c.2.length < 2 ^ 32) :
    exec (appendChunksBatch chunks) s
      = (.ok (batchOut s chunks), appendedAll s (freshChunks s.self.gameId s.index [] chunks)) := by
  rw [exec_appendChunksBatch hl, appendedAll_eq _ _ hfit]

theorem plain_appendChunksBatch (chunks : List (Hash × Bytes)) :
    Plain (appendChunksBatch chunks) := by
  refine .bind .get fun s => .bind plain_beginRead fun t => .bind (plain_scanChunks _ _ _ _ _)
    fun scan => .bind (plain_writeNew _ _ _) fun r => .bind (plain_setSize _) fun _ => ?_
  split_ifs
  · exact .pure _
  · exact .bind plain_beginWrite fun _ => .bind (plain_insertNew _ _ _ _) fun _ =>
      .bind (plain_commit _ _) fun _ => .pure _

end Batch

end GameStore

/-- The bytes a batch adds to the pack. -/
def newBytes (s : OpenStore) (chunks : List (Hash × Bytes)) : ℕ :=
  ((GameStore.freshChunks s.self.gameId s.index [] chunks).map fun c => c.2.length).sum

end BlazeNet

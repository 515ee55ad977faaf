import BlazeNet.Ledger
import BlazeNet.Proofs.Backup

/-!
# The ledger of chunk holders is exact

The keys of different chunks differ, so a report touches its own chunk only; what is stored under a
key is the list of the nodes that were taken for it, without repetitions.
-/

namespace BlazeNet

open Wire FaultIo Io RustStd

variable {json : JsonList} {gameId : UInt64} {hash : Bytes}

section Keys

theorem chunkKey_inj {g g' : UInt64} {h h' : Bytes} :
    Store.chunkKey g h = Store.chunkKey g' h' ↔ g = g' ∧ h = h' := by
  constructor
  · intro heq
    obtain ⟨hgame, hhash⟩ := List.append_inj (String.ofList_inj.1 heq) (by simp)
    exact ⟨UInt64.toNat_inj.1 (hexFixed_inj g.toNat_lt g'.toNat_lt hgame), hexChars_inj hhash⟩
  · rintro ⟨rfl, rfl⟩
    rfl

end Keys

section Transactions

variable (json) (nodeId gameId : UInt64) (hash : Bytes) (t : ChunkTexts)

/-- The holders that a text of the table lists, as a report reads them. -/
def heldIn (key : String) : List UInt64 :=
  (t[key]?.map fun text => (json.ofText text).getD []).getD []

theorem allOrNothing_recordText :
    AllOrNothing (Ledger.recordChunkHolder json nodeId gameId hash) := by
  refine .bind (quiet_tableCall _) fun _ => .bind (quiet_tableCall _) fun _ =>
    .bind (quiet_context (.query _)) fun held => ?_
  dsimp only
  split_ifs
  · exact .onErr _ (.final _)
  · exact .bind (quiet_tableCall _) fun _ => .onErr _ (.final _)

theorem plain_recordText : Plain (Ledger.recordChunkHolder json nodeId gameId hash) := by
  refine .bind (plain_tableCall _) fun _ => .bind (plain_tableCall _) fun _ =>
    .bind (plain_context (.query _)) fun held => ?_
  dsimp only
  split_ifs
  · exact .onErr _ (.final _)
  · exact .bind (plain_tableCall _) fun _ => .onErr _ (.final _)

theorem exec_recordText : exec (Ledger.recordChunkHolder json nodeId gameId hash) t
    = (.ok (), if nodeId ∈ heldIn json t (Store.chunkKey gameId hash) then t
      else t.insert (Store.chunkKey gameId hash)
        (json.toText (heldIn json t (Store.chunkKey gameId hash) ++ [nodeId]))) := by
  change exec (if (heldIn json t _).contains nodeId then _ else _) t = _
  simp only [List.contains_iff_mem]
  split_ifs <;> rfl

/-- A report is taken, with its entry in the table, or changes nothing. -/
theorem report_cases (s : LedgerRun) (r : ChunkReport) (faults : List (Fault AnyError)) :
    s.report json (r, faults)
        = ⟨(exec (Ledger.recordChunkHolder json r.nodeId r.gameId r.hash) s.texts).2,
          s.taken ++ [r]⟩
      ∨ s.report json (r, faults) = s := by
  unfold LedgerRun.report
  rcases (allOrNothing_recordText json r.nodeId r.gameId r.hash).run_cases
    (plain_recordText json r.nodeId r.gameId r.hash).sound s.texts faults
    with ⟨a, fs, hr, -⟩ | ⟨e, fs, hr⟩ <;> rw [hr]
  · exact .inl rfl
  · exact .inr rfl

end Transactions

section Exact

theorem eraseDups_concat (l : List UInt64) (n : UInt64) :
    (l ++ [n]).eraseDups = if n ∈ l then l.eraseDups else l.eraseDups ++ [n] := by
  rw [List.eraseDups_append]
  split_ifs with h <;> simp [List.removeAll, h, List.eraseDups_cons]

/-- What a report does to the list of a chunk. -/
theorem reportedHolders_append (taken : List ChunkReport) (r : ChunkReport) :
    reportedHolders (taken ++ [r]) gameId hash
      = if (r.gameId = gameId ∧ r.hash = hash) ∧ r.nodeId ∉ reportedHolders taken gameId hash then
        reportedHolders taken gameId hash ++ [r.nodeId]
      else reportedHolders taken gameId hash := by
  by_cases hr : r.gameId = gameId ∧ r.hash = hash
  · have happend : reportedHolders (taken ++ [r]) gameId hash
        = (((taken.filter fun r => r.gameId = gameId ∧ r.hash = hash).map (·.nodeId))
          ++ [r.nodeId]).eraseDups := by
      unfold reportedHolders
      simp [hr]
    rw [happend, eraseDups_concat]
    split_ifs with hold hnot hnot
    · exact absurd (List.mem_eraseDups.2 hold) hnot.2
    · rfl
    · rfl
    · exact absurd ⟨hr, fun h => hold (List.mem_eraseDups.1 h)⟩ hnot
  · rw [if_neg fun h => hr h.1]
    unfold reportedHolders
    simp [hr]

/-- Under the key of a chunk lies the text of the list of its holders, once there is one. -/
def Exact (json : JsonList) (s : LedgerRun) : Prop := ∀ gameId hash,
  s.texts[Store.chunkKey gameId hash]? = if reportedHolders s.taken gameId hash = [] then none
    else some (json.toText (reportedHolders s.taken gameId hash))

theorem Exact.heldIn {s : LedgerRun} (h : Exact json s) (gameId : UInt64) (hash : Bytes) :
    heldIn json s.texts (Store.chunkKey gameId hash) = reportedHolders s.taken gameId hash := by
  unfold BlazeNet.heldIn
  rw [h]
  split_ifs with hnil
  · rw [hnil]
    rfl
  · simp [json.ofText_toText]

theorem Exact.report {s : LedgerRun} (h : Exact json s)
    (call : ChunkReport × List (Fault AnyError)) : Exact json (s.report json call) := by
  obtain ⟨r, faults⟩ := call
  rcases report_cases json s r faults with hs | hs <;> rw [hs]
  swap
  · exact h
  intro g k
  rw [reportedHolders_append, exec_recordText, h.heldIn]
  by_cases hold : r.nodeId ∈ reportedHolders s.taken r.gameId r.hash
  · rw [if_pos hold, h g k]
    have hsame : ¬((r.gameId = g ∧ r.hash = k) ∧ r.nodeId ∉ reportedHolders s.taken g k) := by
      rintro ⟨⟨rfl, rfl⟩, hnot⟩
      exact hnot hold
    rw [if_neg hsame]
  · rw [if_neg hold, lookup_insert]
    simp only [chunkKey_inj]
    by_cases hkey : r.gameId = g ∧ r.hash = k
    · obtain ⟨rfl, rfl⟩ := hkey
      simp [hold]
    · have hsame : ¬((r.gameId = g ∧ r.hash = k) ∧ r.nodeId ∉ reportedHolders s.taken g k) :=
        fun h => hkey h.1
      rw [if_neg hkey, h g k, if_neg hsame]

theorem exact_reportAll (calls : List (ChunkReport × List (Fault AnyError))) :
    Exact json (LedgerRun.reportAll json calls) := by
  unfold LedgerRun.reportAll
  have hinit : Exact json LedgerRun.init := fun _ _ => by simp [LedgerRun.init, reportedHolders]
  generalize LedgerRun.init = s at hinit
  induction calls generalizing s with
  | nil => exact hinit
  | cons call calls ih => exact ih _ (hinit.report call)

theorem exec_holdersText {t : ChunkTexts} {l : List UInt64}
    (h : t[Store.chunkKey gameId hash]? = if l = [] then none else some (json.toText l)) :
    exec (Ledger.chunkHolders json gameId hash) t = (.ok l, t) := by
  have hcall : ∀ text, exec (tableCall text) t = (.ok (), t) := fun _ => rfl
  have hget : ∀ text, exec (context text (query fun t : ChunkTexts =>
      .ok t[Store.chunkKey gameId hash]?)) t
        = (.ok t[Store.chunkKey gameId hash]?, t) := fun _ => rfl
  simp only [Ledger.chunkHolders, exec_bind, hcall, hget, h]
  split_ifs with hnil
  · rw [hnil]
    rfl
  · simp only [json.ofText_toText]
    rfl

theorem Exact.chunkHolders {s : LedgerRun} (h : Exact json s) (gameId : UInt64) (hash : Bytes) :
    exec (Ledger.chunkHolders json gameId hash) s.texts
      = (.ok (reportedHolders s.taken gameId hash), s.texts) := exec_holdersText (h gameId hash)

theorem taken_of_benign (calls : List (ChunkReport × List (Fault AnyError)))
    (h : ∀ call ∈ calls, ∀ f ∈ call.2, Benign f) :
    (LedgerRun.reportAll json calls).taken = calls.map (·.1) := by
  unfold LedgerRun.reportAll
  suffices hrun : ∀ s : LedgerRun, (calls.foldl (LedgerRun.report json) s).taken
      = s.taken ++ calls.map (·.1) from hrun LedgerRun.init
  intro s
  induction calls generalizing s with
  | nil => simp
  | cons call calls ih =>
    have hrun := (plain_recordText json call.1.nodeId call.1.gameId call.1.hash).steady.run s.texts
      (h call List.mem_cons_self)
    rw [List.foldl_cons, ih fun c hc => h c (List.mem_cons_of_mem _ hc), LedgerRun.report]
    rw [exec_recordText] at hrun
    rcases hr : (Ledger.recordChunkHolder json call.1.nodeId call.1.gameId call.1.hash).run
      ⟨s.texts, call.2⟩ with ⟨e | _, w⟩ <;> rw [hr] at hrun
    · cases congrArg Prod.fst hrun
    · simp

/-- The holders of a chunk are the nodes that have reported it, each once and in the order of their
first reports, and no report of another chunk changes them. -/
theorem chunkHolders_reported (json : JsonList) (calls : List (ChunkReport × List (Fault AnyError)))
    (gameId : UInt64) (hash : Bytes) :
    let s := LedgerRun.reportAll json calls
    exec (Ledger.chunkHolders json gameId hash) s.texts
        = (.ok (reportedHolders s.taken gameId hash), s.texts)
      ∧ ((∀ call ∈ calls, ∀ f ∈ call.2, Benign f) → s.taken = calls.map (·.1))
      ∧ ∀ call : ChunkReport × List (Fault AnyError),
        call.1.gameId ≠ gameId ∨ call.1.hash ≠ hash →
          (exec (Ledger.chunkHolders json gameId hash) (s.report json call).texts).1
            = (exec (Ledger.chunkHolders json gameId hash) s.texts).1 := by
  intro s
  have hs : Exact json s := exact_reportAll calls
  refine ⟨hs.chunkHolders gameId hash, taken_of_benign calls, fun call hne => ?_⟩
  rw [(hs.report call).chunkHolders, hs.chunkHolders]
  rcases report_cases json s call.1 call.2 with hr | hr <;> rw [hr]
  have hother : ¬((call.1.gameId = gameId ∧ call.1.hash = hash)
      ∧ call.1.nodeId ∉ reportedHolders s.taken gameId hash) := by
    rintro ⟨⟨hg, hh⟩, -⟩
    exact hne.elim (absurd hg) (absurd hh)
  rw [reportedHolders_append, if_neg hother]

end Exact

section Lists

/-- The texts read as the lists of the tables of `Sched`. -/
def ReadsAs (json : JsonList) (t : ChunkTexts) (s : Sched) : Prop := ∀ key : String,
  t[key]?.map json.ofText = s.chunks[key]?.map some

variable {t : ChunkTexts} {s : Sched}

theorem ReadsAs.heldIn (h : ReadsAs json t s) (key : String) :
    heldIn json t key = (s.chunks[key]?).getD [] := by
  have hkey := h key
  unfold BlazeNet.heldIn
  rcases ht : t[key]? with _ | text <;> rcases hs : s.chunks[key]? with _ | l <;>
    rw [ht, hs] at hkey <;> simp at hkey
  · rfl
  · simp [hkey]

/-- A report on the texts does what the one on the lists does. -/
theorem ReadsAs.record (h : ReadsAs json t s) (nodeId gameId : UInt64) (hash : Bytes) :
    ReadsAs json (exec (Ledger.recordChunkHolder json nodeId gameId hash) t).2
      (exec (Store.recordChunkHolder nodeId gameId hash) s).2 := by
  have hlists : (exec (Store.recordChunkHolder nodeId gameId hash) s).2.chunks
      = if nodeId ∈ (s.chunks[Store.chunkKey gameId hash]?).getD [] then s.chunks
        else s.chunks.insert (Store.chunkKey gameId hash)
          ((s.chunks[Store.chunkKey gameId hash]?).getD [] ++ [nodeId]) := by
    simp only [Store.recordChunkHolder, exec_bind, exec_storeCall, exec_storeLook,
      List.contains_iff_mem]
    split_ifs <;> rfl
  intro key
  rw [exec_recordText, hlists, h.heldIn]
  split_ifs
  · exact h key
  · rw [lookup_insert, lookup_insert]
    split_ifs
    · simp [json.ofText_toText]
    · exact h key

theorem ReadsAs.holders (h : ReadsAs json t s) (gameId : UInt64) (hash : Bytes) :
    (exec (Ledger.chunkHolders json gameId hash) t).1
      = (exec (Store.chunkHolders gameId hash) s).1 := by
  have hcall : ∀ text, exec (tableCall text) t = (.ok (), t) := fun _ => rfl
  have hget : ∀ text, exec (context text (query fun t : ChunkTexts =>
      .ok t[Store.chunkKey gameId hash]?)) t
        = (.ok t[Store.chunkKey gameId hash]?, t) := fun _ => rfl
  have hlists : exec (Store.chunkHolders gameId hash) s
      = (.ok ((s.chunks[Store.chunkKey gameId hash]?).getD []), s) := rfl
  have hkey := h (Store.chunkKey gameId hash)
  simp only [Ledger.chunkHolders, exec_bind, hcall, hget, hlists]
  rcases ht : t[Store.chunkKey gameId hash]? with _ | text <;>
    rcases hs : s.chunks[Store.chunkKey gameId hash]? with _ | l <;>
    rw [ht, hs] at hkey <;> simp at hkey
  · rfl
  · simp only [hkey]
    rfl

end Lists

section Compact

def commaSeparated : List (List Char) → List Char
  | [] => []
  | [f] => f
  | f :: g :: fs => f ++ ',' :: commaSeparated (g :: fs)

def fieldsOf : List Char → List Char → List (List Char)
  | [], f => [f]
  | c :: cs, f => if c = ',' then f :: fieldsOf cs [] else fieldsOf cs (f ++ [c])

theorem fieldsOf_append : ∀ {f : List Char}, ',' ∉ f → ∀ pre rest,
    fieldsOf (f ++ rest) pre = fieldsOf rest (pre ++ f)
  | [], _, pre, rest => by simp
  | c :: f, h, pre, rest => by
    simp only [List.mem_cons, not_or] at h
    rw [List.cons_append, fieldsOf, if_neg (Ne.symm h.1), fieldsOf_append h.2]
    simp

theorem fieldsOf_commaSeparated : ∀ {fs : List (List Char)}, fs ≠ [] → (∀ f ∈ fs, ',' ∉ f) →
    fieldsOf (commaSeparated fs) [] = fs
  | [f], _, h => by
    have := fieldsOf_append (h f List.mem_cons_self) [] []
    simpa [commaSeparated, fieldsOf] using this
  | f :: g :: fs, _, h => by
    rw [commaSeparated, fieldsOf_append (h f List.mem_cons_self), fieldsOf, if_pos rfl,
      fieldsOf_commaSeparated (List.cons_ne_nil g fs) fun x hx => h x (List.mem_cons_of_mem _ hx)]
    rfl

/-- `[1,2,3]`, as `serde_json` writes it. -/
def compactText (l : List UInt64) : List Char :=
  '[' :: commaSeparated (l.map fun n => Nat.toDigits 10 n.toNat) ++ [']']

def ofCompactText (text : List Char) : Option (List UInt64) := do
  let rest ← stripPrefix ['['] text
  if rest.getLast? ≠ some ']' then none
  else if rest.dropLast = [] then some []
  else (fieldsOf rest.dropLast []).mapM parseU64

theorem mapM_parseU64 : ∀ l : List UInt64,
    (l.map fun n => Nat.toDigits 10 n.toNat).mapM parseU64 = some l
  | [] => rfl
  | n :: l => by
    rw [List.map_cons, List.mapM_cons, parseU64_toDigits, mapM_parseU64 l]
    rfl

theorem ofCompactText_compactText (l : List UInt64) : ofCompactText (compactText l) = some l := by
  have hstrip : stripPrefix ['['] (compactText l)
      = some (commaSeparated (l.map fun n => Nat.toDigits 10 n.toNat) ++ [']']) :=
    stripPrefix_eq_some.2 rfl
  rw [ofCompactText, hstrip]
  simp only [Option.bind_eq_bind, Option.bind_some, List.getLast?_concat, ne_eq, not_true_eq_false,
    if_false, List.dropLast_concat]
  rcases l with _ | ⟨n, l⟩
  · rfl
  have hcomma : ∀ f ∈ (n :: l).map fun n => Nat.toDigits 10 n.toNat, ',' ∉ f := by
    intro f hf hc
    obtain ⟨m, -, rfl⟩ := List.mem_map.1 hf
    have := Nat.isDigit_of_mem_toDigits (by decide) (by decide) hc
    simp at this
  have hfields := fieldsOf_commaSeparated (by simp) hcomma
  rw [if_neg, hfields, mapM_parseU64]
  intro hnil
  rw [hnil] at hfields
  have hdigits : Nat.toDigits 10 n.toNat = [] := by
    simpa [fieldsOf] using (congrArg List.head? hfields).symm
  exact Nat.toDigits_ne_nil hdigits

def JsonList.compact : JsonList where
  toText l := String.ofList (compactText l)
  ofText text := ofCompactText text.toList
  ofText_toText l := by rw [String.toList_ofList, ofCompactText_compactText]

/-- Two nodes report a chunk, one of them twice, and another chunk meanwhile. -/
def threeReports : List (ChunkReport × List (Fault AnyError)) :=
  [(⟨1, 3, [7]⟩, []), (⟨2, 3, [7]⟩, []), (⟨5, 3, [8]⟩, []), (⟨1, 3, [7]⟩, [])]

theorem chunkHolders_reported_three :
    reportedHolders (LedgerRun.reportAll .compact threeReports).taken 3 [7] = [1, 2]
      ∧ exec (Ledger.chunkHolders .compact 3 [7]) (LedgerRun.reportAll .compact threeReports).texts
        = (.ok [1, 2], (LedgerRun.reportAll .compact threeReports).texts) := by
  have hrun := chunkHolders_reported .compact threeReports 3 [7]
  have htaken := hrun.2.1 (by simp [threeReports])
  have hlist : reportedHolders (LedgerRun.reportAll .compact threeReports).taken 3 [7]
      = [1, 2] := by
    rw [htaken]
    decide +kernel
  exact ⟨hlist, hlist ▸ hrun.1⟩

end Compact

end BlazeNet

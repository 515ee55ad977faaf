import BlazeNet.Origin
import BlazeNet.Proofs.Manifest
import BlazeNet.Proofs.StoreMap

/-!
# A published version is complete

Uploads only add chunks that have their hash, lookups and failed writes take none away, so what a
commit has found in the store stays there (`Kept`). A commit that misses a chunk writes nothing.
-/

namespace BlazeNet

open Wire FaultIo Io RustStd GameStore

variable {blake3 : Bytes → Hash} {gameId : UInt64} {g : Places} {faults : List (Fault AnyError)}

section Stores

/-- Every place holds bytes of its hash. -/
def Verified (blake3 : Bytes → Hash) (g : Places) : Prop :=
  ∀ h p, g h = some p → blake3 p.2 = h

/-- A store that is laid out with verified chunks is so after the step, with all it had. -/
def Kept (blake3 : Bytes → Hash) (gameId : UInt64) (sys sys' : StoreSys) : Prop :=
  ∀ g, SysLaid gameId g sys → Verified blake3 g →
    ∃ g', SysLaid gameId g' sys' ∧ Verified blake3 g' ∧ ∀ h, (g h).isSome → (g' h).isSome

theorem Kept.of_laid {sys sys' : StoreSys} (h : ∀ g, SysLaid gameId g sys → SysLaid gameId g sys') :
    Kept blake3 gameId sys sys' := fun g hl hv => ⟨g, h g hl, hv, fun _ => id⟩

theorem Kept.refl (sys : StoreSys) : Kept blake3 gameId sys sys := .of_laid fun _ h => h

theorem Kept.trans {a b c : StoreSys} (h : Kept blake3 gameId a b) (h' : Kept blake3 gameId b c) :
    Kept blake3 gameId a c := by
  intro g hl hv
  obtain ⟨g₁, hl₁, hv₁, hsome₁⟩ := h g hl hv
  obtain ⟨g₂, hl₂, hv₂, hsome₂⟩ := h' g₁ hl₁ hv₁
  exact ⟨g₂, hl₂, hv₂, fun k hk => hsome₂ k (hsome₁ k hk)⟩

theorem Kept.close (sys : StoreSys) : Kept blake3 gameId sys (.closed sys.dir) :=
  .of_laid fun _ h => h.dirLaid

/-- A verified chunk is appended, or the append fails. -/
theorem kept_append {store : OpenStore} {hash : Hash} {data : Bytes} (hdata : blake3 data = hash)
    (hpack : store.pack.length < 2 ^ 32)
    (hafter : ((appendChunk hash data).run ⟨store, faults⟩).2.state.pack.length < 2 ^ 32) :
    Kept blake3 gameId (.opened store)
      (.opened ((appendChunk hash data).run ⟨store, faults⟩).2.state) := by
  intro g hl hv
  have hl : StoreLaid gameId store g := hl
  rcases hr : (appendChunk hash data).run ⟨store, faults⟩ with ⟨e | loc, w⟩ <;> rw [hr] at hafter
  · refine ⟨g, ?_, hv, fun _ => id⟩
    exact hl.tailed
      (run_of_wp (unlessDone_appendChunk hl.linked hl.laid.size_le hash data) hr (by simp)).1
  · have he := exec_of_run (plain_appendChunk hash data) hr
    have hprog : exec (StoreOp.append hash data).prog store = (.ok (.place loc), w.state) := by
      rw [StoreOp.prog, exec_bind, he]
      rfl
    have hfit : (StoreOp.append hash data).OffsetsFit store g :=
      hl.offsetsFit hpack (by rw [hprog]; exact hafter)
    refine ⟨_, hl.appendChunk hfit he, fun k p hk => ?_, fun k hk => ?_⟩
    · unfold Record.store at hk
      split_ifs at hk
      · exact hv k p hk
      · change Function.update g hash (some (store.self.size, data)) k = some p at hk
        rw [Function.update_apply] at hk
        split_ifs at hk with hkh
        · obtain rfl := Option.some.inj hk
          rw [hkh]
          exact hdata
        · exact hv k p hk
    · unfold Record.store
      split_ifs with hsome
      · exact hk
      · simp only [Function.update_apply]
        split_ifs
        · rfl
        · exact hk

/-- What is laid out with verified chunks holds them. -/
theorem StoreLaid.holds {s : OpenStore} (hl : StoreLaid gameId s g) (hv : Verified blake3 g)
    {hash : Hash} (hh : (g hash).isSome) : s.Holds blake3 hash := by
  obtain ⟨p, hp⟩ := Option.isSome_iff_exists.1 hh
  have hshow := hl.shows
  refine ⟨?_, p.2, ?_, hv hash p hp⟩
  · rw [hshow.contains, hp]
    rfl
  · rw [hshow.read, hp]
    rfl

theorem SysLaid.holds {sys : StoreSys} (hl : SysLaid gameId g sys) (hv : Verified blake3 g)
    {hash : Hash} (hh : (g hash).isSome) : sys.Holds blake3 gameId hash := by
  rcases sys with dir | s
  · have hre := hl.reopen []
    exact ⟨_, rfl, StoreLaid.holds hre hv hh⟩
  · exact StoreLaid.holds hl hv hh

theorem SysLaid.knows {sys : StoreSys} (hl : SysLaid gameId g sys) (hash : Hash) :
    sys.knows gameId hash = (g hash).isSome :=
  hl.dirLaid.index_isSome hash

end Stores

section Handlers

variable {σ α β : Type} {S : Fault AnyError → Prop} {s : σ}

theorem wp_orStatus {text : String} {p : Io AnyError σ α}
    {Q : Except (Stop AnyError) (Except Status α) → σ → Prop}
    (h : wp S p s fun r s' => match r with
      | .ok a => Q (.ok (.ok a)) s'
      | .error (.err e) => Q (.ok (.error (internal text e))) s'
      | .error .killed => Q (.error .killed) s') :
    wp S (orStatus text p).run s Q := by
  refine wp_bind (wp_attempt (wp_mono h fun r s' h' => ?_))
  rcases r with (e | _) | a
  · exact wp_pure h'
  · exact h'
  · exact wp_pure h'

/-- A message appends a verified chunk, or leaves the store as it was. -/
theorem processChunk_cases (blake3 : Bytes → Hash) (chunkHash data : Bytes) (store : OpenStore)
    (faults : List (Fault AnyError)) :
    ((processChunk blake3 chunkHash data).run.run ⟨store, faults⟩).2.state = store
      ∨ ∃ hash, blake3 data = hash
        ∧ ((processChunk blake3 chunkHash data).run.run ⟨store, faults⟩).2.state
          = ((appendChunk hash data).run ⟨store, faults⟩).2.state := by
  unfold processChunk
  rcases Hash.ofBytes? chunkHash with _ | hash
  · exact .inl rfl
  · dsimp only
    split_ifs with hne
    · exact .inl rfl
    · refine .inr ⟨hash, not_not.1 hne, ?_⟩
      change ((andThen (attempt (appendChunk hash data)) _).run ⟨store, faults⟩).2.state = _
      rw [run_andThen, run_attempt]
      rcases (appendChunk hash data).run ⟨store, faults⟩ with ⟨(e | _) | a, w⟩ <;> rfl

theorem quiet_existingChunks : ∀ hashes : List Bytes, Quiet (existingChunks hashes).run
  | [] => .pure _
  | bytes :: rest => by
    unfold existingChunks
    rcases Hash.ofBytes? bytes with _ | hash
    · exact .pure _
    · intro S s
      refine wp_exceptT_bind (wp_orStatus (wp_mono (quiet_contains hash S s) fun r s' h => ?_))
      rcases r with (e | _) | found
      · exact h
      · exact h
      · refine wp_exceptT_bind (wp_mono (quiet_existingChunks rest S s') fun r s'' h' => ?_)
        rcases r with e | e | more
        · exact h'.trans h
        · exact h'.trans h
        · exact wp_pure (h'.trans h)

theorem quiet_findMissing : ∀ hashes missing : List Hash, Quiet (findMissing hashes missing)
  | [], _ => .pure _
  | hash :: hashes, missing => by
    refine .bind (quiet_contains hash) fun found => ?_
    split_ifs
    · exact quiet_findMissing hashes missing
    · exact .pure _
    · exact quiet_findMissing hashes (missing ++ [hash])

theorem plain_findMissing : ∀ hashes missing : List Hash, Plain (findMissing hashes missing)
  | [], _ => .pure _
  | hash :: hashes, missing => by
    refine .bind (plain_contains hash) fun found => ?_
    split_ifs
    · exact plain_findMissing hashes missing
    · exact .pure _
    · exact plain_findMissing hashes (missing ++ [hash])

/-- What is missing is empty just when every chunk has its entry. -/
theorem exec_findMissing (s : OpenStore) : ∀ hashes missing : List Hash,
    ∃ all, exec (findMissing hashes missing) s = (.ok all, s)
      ∧ (all = [] ↔ missing = [] ∧ ∀ h ∈ hashes, (s.index[key s.self.gameId h]?).isSome)
  | [], missing => ⟨missing, rfl, by simp⟩
  | hash :: hashes, missing => by
    rw [findMissing, exec_bind, exec_contains]
    rcases hfound : (s.index[key s.self.gameId hash]?).isSome with _ | _
    · simp only [hfound, Bool.false_eq_true, if_false, List.forall_mem_cons, false_and, and_false,
        iff_false]
      split_ifs
      · exact ⟨_, rfl, by simp⟩
      · obtain ⟨all, hall, hiff⟩ := exec_findMissing s hashes (missing ++ [hash])
        exact ⟨all, hall, by simp [hiff]⟩
    · obtain ⟨all, hall, hiff⟩ := exec_findMissing s hashes missing
      refine ⟨all, ?_, ?_⟩
      · simp only [if_true, hall]
      · rw [hiff, List.forall_mem_cons, hfound]
        simp

theorem keeps_writePath {dst : PathRef σ} (data : Bytes) :
    Keeps (OnlyAt dst) (writePath dst data) := by
  refine .bind (OnlyAt.trans dst) (fun S s => wp_atomic ⟨_, rfl⟩ (fun _ _ _ => .refl dst s)
    fun n _ => ?_) fun _ => keeps_writeAllAt data 0
  split_ifs
  · exact ⟨_, rfl⟩
  · exact .refl dst s

theorem plain_writePath {dst : PathRef σ} (data : Bytes) : Plain (writePath dst data) :=
  .bind (.atomic _) fun _ => plain_writeAllAt data 0

theorem exec_writePath {dst : PathRef σ} (data : Bytes) (s : σ) :
    exec (writePath dst data) s = (.ok (), dst.put (some data) s) := by
  have hw : exec (writeAllAt dst data 0) (dst.put (some []) s) = (.ok (), dst.put (some data) s) :=
    exec_writeAllAt data [] s
  rw [writePath, exec_bind, exec_atomic]
  exact hw

/-- Under the lock: something is missing or cannot be looked up and the manifests stay as they are,
or all chunks are there and the file of the version is written, perhaps not to its end. -/
theorem commitLocked_cases (version : UInt64) (manifest : Bytes) (hashes : List Hash)
    (d : CommitDisk) (faults : List (Fault AnyError)) :
    ∃ r w, (commitLocked version manifest hashes).run.run ⟨d, faults⟩ = (r, w)
      ∧ w.state.store = d.store
      ∧ (w.state.published = d.published ∧ r ≠ .ok (.ok [])
        ∨ (∀ h ∈ hashes, (d.store.index[key d.store.self.gameId h]?).isSome)
          ∧ ∃ b, w.state.published = Function.update d.published version b
            ∧ ∀ missing, r = .ok (.ok missing) → missing = [] ∧ b = some manifest) := by
  have hwp : wp (fun _ => True) (commitLocked version manifest hashes).run d fun r d' =>
      d'.store = d.store ∧ (d'.published = d.published ∧ r ≠ .ok (.ok [])
        ∨ (∀ h ∈ hashes, (d.store.index[key d.store.self.gameId h]?).isSome)
          ∧ ∃ b, d'.published = Function.update d.published version b
            ∧ ∀ missing, r = .ok (.ok missing) → missing = [] ∧ b = some manifest) := by
    have hlook : wp (fun _ => True) (findMissing hashes []) d.store fun r st => st = d.store
        ∧ ∀ all, r = .ok all → exec (findMissing hashes []) d.store = (.ok all, st) :=
      fun fs hfs => ⟨quiet_findMissing hashes [] _ d.store fs hfs,
        (plain_findMissing hashes []).sound _ d.store fs hfs⟩
    refine wp_exceptT_bind (wp_orStatus (wp_zoom (wp_mono hlook fun r st h => ?_)))
    obtain ⟨rfl, hdone⟩ := h
    rcases r with (e | _) | all
    · exact ⟨rfl, .inl ⟨rfl, by simp⟩⟩
    · exact ⟨rfl, .inl ⟨rfl, by simp⟩⟩
    obtain ⟨all', hall, hiff⟩ := exec_findMissing d.store hashes []
    obtain rfl : all' = all := by simpa [hall] using hdone all rfl
    rcases all' with _ | ⟨hash, missing⟩
    swap
    · exact wp_pure ⟨rfl, .inl ⟨rfl, by simp⟩⟩
    have hknown := (hiff.1 rfl).2
    have hkeep : Function.update d.published version (d.published version) = d.published :=
      Function.update_eq_self ..
    refine wp_exceptT_bind (wp_orStatus (wp_query ?_ (fun _ _ _ => ?_) fun _ _ => ?_))
    · refine wp_exceptT_bind (wp_orStatus ?_)
      have hwrite : wp (fun _ => True) (writePath (publishedPath version) manifest) d
          fun r d' => OnlyAt (publishedPath version) d d'
            ∧ ∀ u, r = .ok u → exec (writePath (publishedPath version) manifest) d = (.ok u, d') :=
        fun fs hfs => ⟨keeps_writePath manifest _ d fs hfs,
          (plain_writePath manifest).sound _ d fs hfs⟩
      refine wp_mono hwrite fun r d' h => ?_
      obtain ⟨⟨b, rfl⟩, hfull⟩ := h
      rcases r with (e | _) | u
      · exact ⟨rfl, .inr ⟨hknown, b, rfl, by simp⟩⟩
      · exact ⟨rfl, .inr ⟨hknown, b, rfl, by simp⟩⟩
      · refine wp_pure ⟨rfl, .inr ⟨hknown, b, rfl, fun missing hm => ?_⟩⟩
        have hb := hfull u rfl
        rw [exec_writePath, Prod.mk.injEq] at hb
        have hcontent := congrArg (fun d => d.published version) hb.2
        simp only [publishedPath, Function.update_self] at hcontent
        refine ⟨?_, hcontent.symm⟩
        simpa using hm.symm
    · exact ⟨rfl, .inr ⟨hknown, _, hkeep.symm, by simp⟩⟩
    · exact ⟨rfl, .inr ⟨hknown, _, hkeep.symm, by simp⟩⟩
  have := hwp faults fun _ _ => trivial
  rcases hr : (commitLocked version manifest hashes).run.run ⟨d, faults⟩ with ⟨r, w⟩
  rw [hr] at this
  exact ⟨r, w, rfl, this⟩

end Handlers

section Settled

/-- The same files, and the same layout of them. -/
structure SameStore (gameId : UInt64) (sys sys' : StoreSys) : Prop where
  laid : ∀ g, SysLaid gameId g sys → SysLaid gameId g sys'
  files : SameFiles sys.dir sys'.dir

theorem SameStore.refl (sys : StoreSys) : SameStore gameId sys sys := ⟨fun _ h => h, rfl, rfl⟩

theorem SameStore.trans {a b c : StoreSys} (h : SameStore gameId a b) (h' : SameStore gameId b c) :
    SameStore gameId a c :=
  ⟨fun g hg => h'.laid g (h.laid g hg), h'.files.1.trans h.files.1, h'.files.2.trans h.files.2⟩

theorem SameStore.close (sys : StoreSys) : SameStore gameId sys (.closed sys.dir) :=
  ⟨fun _ h => h.dirLaid, rfl, rfl⟩

/-- A step that answers no commit; those in progress go on or are lost with the process. -/
structure Unanswered (s s' : Origin) : Prop where
  replies : s'.replies = s.replies
  sched : s'.sched = s.sched
  scheduler : s'.scheduler = s.scheduler
  commits : s'.commits = s.commits ∨ s'.commits = []

theorem Unanswered.trans {a b c : Origin} (h : Unanswered a b) (h' : Unanswered b c) :
    Unanswered a c where
  replies := h'.replies.trans h.replies
  sched := h'.sched.trans h.sched
  scheduler := h'.scheduler.trans h.scheduler
  commits := by
    rcases h'.commits with hc | hc
    · rw [hc]
      exact h.commits
    · exact .inr hc

theorem Unanswered.mem_commits {s s' : Origin} (h : Unanswered s s') {c : PendingPublish}
    (hc : c ∈ s'.commits) : c ∈ s.commits := by
  rcases h.commits with he | he <;> rw [he] at hc
  · exact hc
  · simp at hc

/-- The same stores, seen from a process that may have opened some or have started again. -/
structure Settled (s s' : Origin) : Prop extends Unanswered s s' where
  games : ∀ n, SameStore n (s.games n) (s'.games n)
  published : s'.published = s.published

theorem Settled.refl (s : Origin) : Settled s s :=
  ⟨⟨rfl, rfl, rfl, .inl rfl⟩, fun _ => .refl _, rfl⟩

theorem Settled.trans {a b c : Origin} (h : Settled a b) (h' : Settled b c) : Settled a c :=
  ⟨h.toUnanswered.trans h'.toUnanswered, fun n => (h.games n).trans (h'.games n),
    h'.published.trans h.published⟩

theorem settled_restart (s : Origin) : Settled s s.restart :=
  ⟨⟨rfl, rfl, rfl, .inr rfl⟩, fun _ => .close _, rfl⟩

theorem settled_setGame {s : Origin} {n : UInt64} {sys : StoreSys}
    (h : SameStore n (s.games n) sys) : Settled s (s.setGame n sys) := by
  refine ⟨⟨rfl, rfl, rfl, .inl rfl⟩, fun m => ?_, rfl⟩
  rcases eq_or_ne m n with rfl | hne
  · simpa only [Origin.setGame, Function.update_self] using h
  · simpa only [Origin.setGame, Function.update_of_ne hne] using SameStore.refl _

/-- Opening a store keeps what is in the files. -/
theorem openGame_settled (s : Origin) (n : UInt64) (faults : List (Fault AnyError)) :
    Settled s (s.openGame n faults).1 ∧ ∀ store, (s.openGame n faults).2 = .ok store →
      (s.openGame n faults).1.games n = .opened store := by
  unfold Origin.openGame
  rcases hg : s.games n with dir | store
  swap
  · exact ⟨.refl s, fun _ h => by rw [hg]; exact congrArg StoreSys.opened (Except.ok.inj h)⟩
  have hlaid : ∀ g, SysLaid n g (.closed dir) →
      SysLaid n g ((StoreSys.closed dir).reopen n faults) := fun _ h => h.reopen faults
  have hsame := (keeps_openStore n).run dir faults
  unfold StoreSys.reopen at hlaid
  dsimp only [StoreSys.dir] at hlaid ⊢
  rcases hr : (openStore n).run ⟨dir, faults⟩ with ⟨(e | _) | self, w⟩ <;> rw [hr] at hlaid hsame
  · exact ⟨settled_setGame (hg ▸ ⟨hlaid, hsame⟩), by simp⟩
  · exact ⟨(settled_setGame (hg ▸ ⟨hlaid, hsame⟩)).trans (settled_restart _), by simp⟩
  · refine ⟨settled_setGame (hg ▸ ⟨hlaid, hsame.1, hsame.2⟩), fun store h => ?_⟩
    obtain rfl := Except.ok.inj h
    simp only [Origin.setGame, Function.update_self]

theorem settled_query (s : Origin) (n : UInt64) (hashes : List Bytes)
    (openFaults faults : List (Fault AnyError)) :
    Settled s (s.queryExisting n hashes openFaults faults) := by
  unfold Origin.queryExisting
  split_ifs
  · exact .refl s
  obtain ⟨hset, hopened⟩ := openGame_settled s n openFaults
  rcases ho : s.openGame n openFaults with ⟨s₁, e | store⟩ <;> rw [ho] at hset hopened
  · exact hset
  have hq := (quiet_existingChunks hashes).run store faults
  have hsame : Settled s₁ (s₁.setGame n (.opened store)) :=
    settled_setGame (by rw [hopened store rfl]; exact .refl _)
  dsimp only
  rcases hr : (existingChunks hashes).run.run ⟨store, faults⟩ with ⟨e | r, st, fs⟩ <;>
    rw [hr] at hq <;> obtain rfl : st = store := hq
  · exact hset.trans (hsame.trans (settled_restart _))
  · exact hset.trans hsame

end Settled

section Steps

def Origin.wrote (s : Origin) (n version : UInt64) (b : Option Bytes) : Origin :=
  { s with published := Function.update s.published n (Function.update (s.published n) version b) }

/-- Every chunk of a list has its entry in the store. -/
def Stores (sys : StoreSys) (n : UInt64) (hashes : List Hash) : Prop :=
  ∃ store, SameStore n sys (.opened store)
    ∧ ∀ h ∈ hashes, (store.index[key store.self.gameId h]?).isSome

/-- How a commit can end: it dies or answers without a write, or all chunks are there and the file
is written; then it dies, fails, or goes on to publish. -/
theorem commit_cases (blake3 : Bytes → Hash) (s : Origin) (req : CommitRequest)
    (order : IterOrder Hash) (openFaults faults : List (Fault AnyError)) :
    ∃ s₁, Settled s s₁ ∧
      (s.commit blake3 req order openFaults faults = s₁
        ∨ (∃ reply, s.commit blake3 req order openFaults faults = s₁.answer req reply
          ∧ ∀ error, reply ≠ .ok ⟨true, error⟩)
        ∨ ∃ index b, checkCommit blake3 req = .ok index
          ∧ Stores (s.games req.gameId) req.gameId index.chunkSet
          ∧ (s.commit blake3 req order openFaults faults
              = (s₁.wrote req.gameId req.version b).restart
            ∨ (∃ status, s.commit blake3 req order openFaults faults
              = (s₁.wrote req.gameId req.version b).answer req (.error status))
            ∨ b = some req.manifest ∧ s.commit blake3 req order openFaults faults
              = if s.scheduler then { s₁.wrote req.gameId req.version b with
                  commits := s₁.commits ++ [⟨req.gameId, req.version, req.manifest⟩] }
                else (s₁.wrote req.gameId req.version b).answer req (.ok ⟨true, ""⟩))) := by
  unfold Origin.commit
  rcases hcheck : checkCommit blake3 req with status | index
  · exact ⟨s, .refl s, .inr (.inl ⟨_, rfl, by simp⟩)⟩
  obtain ⟨hset, hopened⟩ := openGame_settled s req.gameId openFaults
  dsimp only
  rcases ho : s.openGame req.gameId openFaults with ⟨s₁, (_ | status) | store⟩ <;>
    rw [ho] at hset hopened
  · exact ⟨s₁, hset, .inl rfl⟩
  · exact ⟨s₁, hset, .inr (.inl ⟨_, rfl, by simp⟩)⟩
  have hstore : s₁.games req.gameId = .opened store := hopened store rfl
  have hsame : SameStore req.gameId (s.games req.gameId) (.opened store) :=
    hstore ▸ hset.games req.gameId
  have hset' : Settled s (s₁.setGame req.gameId (.opened store)) :=
    hset.trans (settled_setGame (by rw [hstore]; exact .refl _))
  obtain ⟨r, ⟨d, fs⟩, hr, hd, hcases⟩ := commitLocked_cases req.version req.manifest
    (order.order index.chunkSet) ⟨store, s₁.published req.gameId⟩ faults
  dsimp only at hd hcases
  simp only [hr, hd]
  rcases hcases with ⟨hpub, hne⟩ | ⟨hknown, b, hpub, hdone⟩
  · have hself : ({ s₁.setGame req.gameId (.opened store) with
          published := Function.update s₁.published req.gameId d.published } : Origin)
        = s₁.setGame req.gameId (.opened store) := by
      rw [hpub, Function.update_eq_self]
      rfl
    rw [hself]
    rcases r with e | status | _ | ⟨hash, missing⟩
    · exact ⟨_, hset'.trans (settled_restart _), .inl rfl⟩
    · exact ⟨_, hset', .inr (.inl ⟨_, rfl, by simp⟩)⟩
    · exact absurd rfl hne
    · exact ⟨_, hset', .inr (.inl ⟨_, rfl, by simp [missingReply]⟩)⟩
  · refine ⟨_, hset', .inr (.inr ⟨index, b, rfl, ?_, ?_⟩)⟩
    · exact ⟨store, hsame, fun h hh => hknown h ((order.perm _).mem_iff.2 hh)⟩
    rw [hpub]
    rcases r with e | status | missing
    · exact .inl rfl
    · exact .inr (.inl ⟨status, rfl⟩)
    · obtain ⟨rfl, hb⟩ := hdone missing rfl
      refine .inr (.inr ⟨hb, ?_⟩)
      rw [← hset'.scheduler]
      rfl

/-- A publish call answers its commit, as published only where the scheduler is done with it. -/
theorem publish_cases (s : Origin) (i : ℕ) (call : PublishCall) :
    s.publish i call = s ∨ ∃ c reply sched, s.commits[i]? = some c
      ∧ s.publish i call = { s with
        commits := s.commits.eraseIdx i
        replies := ⟨c.gameId, c.version, c.manifest, .ok reply⟩ :: s.replies
        sched := sched }
      ∧ (sched = s.sched ∧ reply.published = false ∨ ∃ faults r w,
        (publishVersion c.gameId c.version c.manifest).run.run ⟨s.sched, faults⟩ = (r, w)
          ∧ sched.versions = w.state.versions ∧ (reply.published = true → r = .ok (.ok ()))) := by
  unfold Origin.publish
  rcases hc : s.commits[i]? with _ | c
  · exact .inl rfl
  refine .inr ?_
  dsimp only
  rcases call with error | ⟨faults, lost⟩
  · exact ⟨c, _, s.sched, rfl, rfl, .inl ⟨rfl, rfl⟩⟩
  · dsimp only
    rcases hr : (publishVersion c.gameId c.version c.manifest).run.run ⟨s.sched, faults⟩ with
      ⟨e | status | _, w⟩
    · exact ⟨c, _, _, rfl, rfl, .inr ⟨faults, _, w, hr, rfl, by simp⟩⟩
    · exact ⟨c, _, _, rfl, rfl, .inr ⟨faults, _, w, hr, rfl, by simp⟩⟩
    · rcases lost with _ | error <;>
        exact ⟨c, _, _, rfl, rfl, .inr ⟨faults, _, w, hr, rfl, fun _ => rfl⟩⟩

end Steps

section Runs

variable {s s' : Origin} {G : UInt64 → Places}

/-- The manifest decodes, and its chunks are among the places. -/
def Backed (blake3 : Bytes → Hash) (G : UInt64 → Places) (n : UInt64) (manifest : Bytes) : Prop :=
  ∃ index, GameIndex.decode blake3 manifest = .ok index ∧ ∀ h ∈ index.chunkSet, (G n h).isSome

/-- The stores are laid out with verified chunks, and the commits that found theirs still have
them. -/
structure Stocked (blake3 : Bytes → Hash) (s : Origin) (G : UInt64 → Places) : Prop where
  laid : ∀ n, SysLaid n (G n) (s.games n)
  verified : ∀ n, Verified blake3 (G n)
  commits : ∀ c ∈ s.commits, Backed blake3 G c.gameId c.manifest
  replies : ∀ c ∈ s.replies, ∀ error, c.reply = .ok ⟨true, error⟩ →
    Backed blake3 G c.gameId c.manifest

theorem stocked_init (scheduler : Bool) :
    Stocked blake3 (.init scheduler) fun _ _ => none :=
  ⟨fun _ => Laid.empty, fun _ _ _ h => by simp at h, by simp [Origin.init], by simp [Origin.init]⟩

/-- A step that keeps the chunks keeps what was found. -/
theorem Stocked.step (h : Stocked blake3 s G)
    (hkept : ∀ n, Kept blake3 n (s.games n) (s'.games n))
    (hcommits : ∀ c ∈ s'.commits, c ∈ s.commits ∨ Backed blake3 G c.gameId c.manifest)
    (hreplies : ∀ c ∈ s'.replies, ∀ error, c.reply = .ok ⟨true, error⟩ →
      c ∈ s.replies ∨ Backed blake3 G c.gameId c.manifest) :
    ∃ G', Stocked blake3 s' G' := by
  choose G' hlaid hverified hsome using fun n => hkept n (G n) (h.laid n) (h.verified n)
  have hback : ∀ {n manifest}, Backed blake3 G n manifest → Backed blake3 G' n manifest :=
    fun ⟨index, hd, hall⟩ => ⟨index, hd, fun k hk => hsome _ k (hall k hk)⟩
  refine ⟨G', hlaid, hverified, fun c hc => hback ?_, fun c hc error he => hback ?_⟩
  · exact (hcommits c hc).elim (h.commits c) id
  · exact (hreplies c hc error he).elim (fun hc => h.replies c hc error he) id

theorem Settled.kept (h : Settled s s') (n : UInt64) :
    Kept blake3 n (s.games n) (s'.games n) := .of_laid (h.games n).laid

theorem Stocked.settled (h : Stocked blake3 s G) (hset : Settled s s') :
    ∃ G', Stocked blake3 s' G' :=
  h.step hset.kept (fun _ hc => .inl (hset.mem_commits hc))
    fun _ hc _ _ => .inl (hset.replies ▸ hc)

theorem Settled.packsFit (h : Settled s s') (hfit : s.PacksFit) : s'.PacksFit := fun n => by
  rw [(h.games n).files.2]
  exact hfit n

/-- A message of a stream leaves the game with its chunks and perhaps one more. -/
theorem message_kept {n : UInt64} {store : OpenStore} (hstore : s.games n = .opened store)
    (hfit : s.PacksFit) {chunkHash data : Bytes} {next : Option UploadAck → Origin → Origin}
    (hgames : ∀ r s, (next r s).games = s.games)
    (hafter : (s.message blake3 n store chunkHash data faults next).PacksFit) (m : UInt64) :
    Kept blake3 m (s.games m)
      ((s.message blake3 n store chunkHash data faults next).games m) := by
  -- the store after the message, whether the process lives or not
  obtain ⟨st, hst, hkept⟩ : ∃ st,
      ((s.message blake3 n store chunkHash data faults next).games
          = (s.setGame n (.opened st)).games
        ∨ (s.message blake3 n store chunkHash data faults next).games
          = (s.setGame n (.opened st)).restart.games)
      ∧ (st = store ∨ ∃ hash, blake3 data = hash
        ∧ st = ((appendChunk hash data).run ⟨store, faults⟩).2.state) := by
    have hcases := processChunk_cases blake3 chunkHash data store faults
    unfold Origin.message
    rcases hr : (processChunk blake3 chunkHash data).run.run ⟨store, faults⟩ with
      ⟨e | e | ack, w⟩ <;> rw [hr] at hcases
    · exact ⟨w.state, .inr rfl, hcases⟩
    · exact ⟨w.state, .inl (hgames _ _), hcases⟩
    · exact ⟨w.state, .inl (hgames _ _), hcases⟩
  have hpack : st.pack.length < 2 ^ 32 := by
    have := hafter n
    rcases hst with hst | hst <;>
      simpa [hst, Origin.restart, Origin.setGame, StoreSys.dir, OpenStore.dir] using this
  have hgame : Kept blake3 n (s.games n) (.opened st) := by
    rw [hstore]
    have hbefore := hfit n
    rw [hstore] at hbefore
    rcases hkept with rfl | ⟨hash, hdata, rfl⟩
    · exact .refl _
    · exact kept_append hdata hbefore hpack
  have hset : Kept blake3 m (s.games m) ((s.setGame n (.opened st)).games m) := by
    rcases eq_or_ne m n with rfl | hne
    · simpa only [Origin.setGame, Function.update_self] using hgame
    · simpa only [Origin.setGame, Function.update_of_ne hne] using Kept.refl _
  rcases hst with hst | hst <;> rw [hst]
  · exact hset
  · exact hset.trans (.close _)

theorem message_unanswered (blake3 : Bytes → Hash) (s : Origin) (n : UInt64) (store : OpenStore)
    (chunkHash data : Bytes) (faults : List (Fault AnyError))
    {next : Option UploadAck → Origin → Origin}
    (hnext : ∀ r s, ∃ streams, next r s = { s with streams := streams }) :
    Unanswered s (s.message blake3 n store chunkHash data faults next) := by
  unfold Origin.message
  rcases (processChunk blake3 chunkHash data).run.run ⟨store, faults⟩ with ⟨e | e | ack, w⟩
  · exact ⟨rfl, rfl, rfl, .inr rfl⟩
  · obtain ⟨streams, h⟩ := hnext none (s.setGame n (.opened w.state))
    simp only [h]
    exact ⟨rfl, rfl, rfl, .inl rfl⟩
  · obtain ⟨streams, h⟩ := hnext (some ack) (s.setGame n (.opened w.state))
    simp only [h]
    exact ⟨rfl, rfl, rfl, .inl rfl⟩

theorem Stocked.message (h : Stocked blake3 s G) {n : UInt64} {store : OpenStore}
    (hstore : s.games n = .opened store) (hfit : s.PacksFit) {chunkHash data : Bytes}
    {next : Option UploadAck → Origin → Origin}
    (hnext : ∀ r s, ∃ streams, next r s = { s with streams := streams })
    (hafter : (s.message blake3 n store chunkHash data faults next).PacksFit) :
    ∃ G', Stocked blake3 (s.message blake3 n store chunkHash data faults next) G' := by
  have hrest := message_unanswered blake3 s n store chunkHash data faults hnext
  refine h.step (message_kept hstore hfit (fun r s => ?_) hafter)
    (fun c hc => .inl (hrest.mem_commits hc)) fun c hc _ _ => .inl (hrest.replies ▸ hc)
  obtain ⟨streams, hs⟩ := hnext r s
  rw [hs]

theorem Stocked.stores (h : Stocked blake3 s G) {n : UInt64} {hashes : List Hash}
    (hs : Stores (s.games n) n hashes) : ∀ k ∈ hashes, (G n k).isSome := by
  intro k hk
  obtain ⟨store, hsame, hall⟩ := hs
  have hlaid : StoreLaid n store (G n) := hsame.laid _ (h.laid n)
  have hfound := hall k hk
  rwa [hlaid.game, hlaid.laid.index_isSome] at hfound

theorem decode_of_checkCommit {req : CommitRequest} {index : GameIndex}
    (h : checkCommit blake3 req = .ok index) :
    GameIndex.decode blake3 req.manifest = .ok index := by
  unfold checkCommit at h
  split_ifs at h
  split at h
  · cases h
  · split_ifs at h
    split at h
    · cases h
    · rename_i hdecode
      rw [hdecode, Except.ok.inj h]

theorem Stocked.commit (h : Stocked blake3 s G) (req : CommitRequest) (order : IterOrder Hash)
    (openFaults faults : List (Fault AnyError)) :
    ∃ G', Stocked blake3 (s.commit blake3 req order openFaults faults) G' := by
  obtain ⟨s₁, hset, hend | ⟨reply, hend, hnot⟩ | ⟨index, b, hcheck, hstores, hend⟩⟩ :=
    commit_cases blake3 s req order openFaults faults
  · rw [hend]
    exact h.settled hset
  · rw [hend]
    refine h.step hset.kept (fun _ hc => .inl (hset.mem_commits hc)) fun c hc error he => ?_
    rcases List.mem_cons.1 hc with rfl | hc
    · exact absurd he (hnot error)
    · exact .inl (hset.replies ▸ hc)
  have hback : Backed blake3 G req.gameId req.manifest :=
    ⟨index, decode_of_checkCommit hcheck, h.stores hstores⟩
  rcases hend with hend | ⟨status, hend⟩ | ⟨-, hend⟩
  · rw [hend]
    exact h.step (fun n => (hset.kept n).trans (.close _)) (by simp [Origin.restart])
      fun _ hc _ _ => .inl (hset.replies ▸ hc)
  · rw [hend]
    refine h.step hset.kept (fun _ hc => .inl (hset.mem_commits hc)) fun c hc error he => ?_
    rcases List.mem_cons.1 hc with rfl | hc
    · cases he
    · exact .inl (hset.replies ▸ hc)
  · rw [hend]
    split_ifs
    · refine h.step hset.kept (fun c hc => ?_) fun c hc _ _ => .inl (hset.replies ▸ hc)
      rcases List.mem_append.1 hc with hc | hc
      · exact .inl (hset.mem_commits hc)
      · obtain rfl := List.mem_singleton.1 hc
        exact .inr hback
    · refine h.step hset.kept (fun _ hc => .inl (hset.mem_commits hc)) fun c hc error he => ?_
      rcases List.mem_cons.1 hc with rfl | hc
      · exact .inr hback
      · exact .inl (hset.replies ▸ hc)

theorem Stocked.publish (h : Stocked blake3 s G) (i : ℕ) (call : PublishCall) :
    ∃ G', Stocked blake3 (s.publish i call) G' := by
  rcases publish_cases s i call with hend | ⟨c, reply, sched, hc, hend, -⟩ <;> rw [hend]
  · exact ⟨G, h⟩
  · refine h.step (fun _ => .refl _) (fun c' hc' => .inl (List.mem_of_mem_eraseIdx hc'))
      fun c' hc' _ _ => ?_
    rcases List.mem_cons.1 hc' with rfl | hc'
    · exact .inr (h.commits c (List.mem_of_getElem? hc))
    · exact .inl hc'

theorem Stocked.firstChunk (h : Stocked blake3 s G) (hfit : s.PacksFit) {n : UInt64}
    {chunkHash data : Bytes} {openFaults : List (Fault AnyError)}
    (hafter : (s.firstChunk blake3 n chunkHash data openFaults faults).PacksFit) :
    ∃ G', Stocked blake3 (s.firstChunk blake3 n chunkHash data openFaults faults) G' := by
  unfold Origin.firstChunk at hafter ⊢
  split_ifs at hafter ⊢
  · exact ⟨G, h⟩
  obtain ⟨hset, hopened⟩ := openGame_settled s n openFaults
  rcases ho : s.openGame n openFaults with ⟨s₁, e | store⟩ <;> rw [ho] at hset hopened hafter
  · exact h.settled hset
  · obtain ⟨G₁, h₁⟩ := h.settled hset
    refine h₁.message (hopened store rfl) (hset.packsFit hfit) (fun r s => ?_) hafter
    rcases r with _ | ack <;> exact ⟨_, rfl⟩

theorem Stocked.nextChunk (h : Stocked blake3 s G) (hfit : s.PacksFit) {i : ℕ}
    {chunkHash data : Bytes} (hafter : (s.nextChunk blake3 i chunkHash data faults).PacksFit) :
    ∃ G', Stocked blake3 (s.nextChunk blake3 i chunkHash data faults) G' := by
  unfold Origin.nextChunk at hafter ⊢
  rcases hi : s.streams[i]? with _ | stream <;> simp only [hi] at hafter
  · exact ⟨G, h⟩
  dsimp only
  rcases hstore : s.games stream.gameId with dir | store <;> simp only [hstore] at hafter
  · exact ⟨G, h⟩
  · refine h.message hstore hfit (fun r s => ?_) hafter
    rcases r with _ | ack <;> exact ⟨_, rfl⟩

/-- Every step keeps the stores stocked. -/
theorem Stocked.act (h : Stocked blake3 s G) (a : OriginAct) (hfit : s.PacksFit)
    (hafter : (s.step blake3 a).PacksFit) : ∃ G', Stocked blake3 (s.step blake3 a) G' := by
  cases a with
  | firstChunk n chunkHash data openFaults faults => exact h.firstChunk hfit hafter
  | nextChunk i chunkHash data faults => exact h.nextChunk hfit hafter
  | endStream i => exact ⟨G, h.laid, h.verified, h.commits, h.replies⟩
  | query n hashes openFaults faults => exact h.settled (settled_query s n hashes openFaults faults)
  | commit req order openFaults faults => exact h.commit req order openFaults faults
  | publish i call => exact h.publish i call
  | restart => exact h.settled (settled_restart s)

theorem Stocked.run : ∀ (acts : List OriginAct) {s : Origin} {G : UInt64 → Places},
    Stocked blake3 s G → s.FitRun blake3 acts → ∃ G', Stocked blake3 (s.run blake3 acts) G'
  | [], _, G, h, _ => ⟨G, h⟩
  | a :: acts, s, G, h, hfit => by
    have hafter : (s.step blake3 a).PacksFit := by
      rcases acts with _ | ⟨b, acts⟩
      · exact hfit.2
      · exact hfit.2.1
    obtain ⟨G', h'⟩ := h.act a hfit.1 hafter
    exact Stocked.run acts h' hfit.2

theorem Stocked.complete (h : Stocked blake3 s G) : s.Complete blake3 := by
  intro c hc error he
  obtain ⟨index, hdecode, hall⟩ := h.replies c hc error he
  exact ⟨index, hdecode, fun k hk => (h.laid c.gameId).holds (h.verified c.gameId) (hall k hk)⟩

section Absent

variable {req : CommitRequest} {index : GameIndex} {hash : Hash}

theorem Stocked.absent (h : Stocked blake3 s G) {n : UInt64}
    (habsent : ¬(s.games n).Holds blake3 n hash) : G n hash = none := by
  by_contra hsome
  exact habsent ((h.laid n).holds (h.verified n) (Option.isSome_iff_ne_none.2 hsome))

/-- A commit that refers to an absent chunk writes nothing and is not answered as published. -/
theorem Stocked.commit_absent (h : Stocked blake3 s G) (hcheck : checkCommit blake3 req = .ok index)
    (hmem : hash ∈ index.chunkSet) (habsent : ¬(s.games req.gameId).Holds blake3 req.gameId hash)
    (order : IterOrder Hash) (openFaults faults : List (Fault AnyError)) :
    ∃ s₁, Settled s s₁ ∧ (s.commit blake3 req order openFaults faults = s₁
      ∨ ∃ reply, s.commit blake3 req order openFaults faults = s₁.answer req reply
        ∧ ∀ error, reply ≠ .ok ⟨true, error⟩) := by
  obtain ⟨s₁, hset, hend | hend | ⟨index', b, hcheck', hstores, -⟩⟩ :=
    commit_cases blake3 s req order openFaults faults
  · exact ⟨s₁, hset, .inl hend⟩
  · exact ⟨s₁, hset, .inr hend⟩
  · obtain rfl := Except.ok.inj (hcheck.symm.trans hcheck')
    have hsome := h.stores hstores hash hmem
    simp [h.absent habsent] at hsome

theorem openGame_nil (s : Origin) (n : UInt64) : ∃ store, (s.openGame n []).2 = .ok store := by
  unfold Origin.openGame
  rcases s.games n with dir | store
  · dsimp only
    rw [run_nil, exec_openStore]
    exact ⟨_, rfl⟩
  · exact ⟨store, rfl⟩

theorem commitLocked_missing (version : UInt64) (manifest : Bytes) {hashes : List Hash}
    {d : CommitDisk} (hmem : hash ∈ hashes)
    (hnone : d.store.index[key d.store.self.gameId hash]? = none) :
    ∃ first missing w, (commitLocked version manifest hashes).run.run ⟨d, []⟩
      = (.ok (.ok (first :: missing)), w) := by
  obtain ⟨all, hall, hiff⟩ := exec_findMissing d.store hashes []
  obtain ⟨first, missing, rfl⟩ := List.exists_cons_of_ne_nil fun hnil => by
    simpa [hnone] using (hiff.1 hnil).2 hash hmem
  have hwp : wp Benign (commitLocked version manifest hashes).run d
      fun r _ => r = .ok (.ok (first :: missing)) := by
    refine wp_exceptT_bind (wp_orStatus (wp_zoom (wp_mono
      ((plain_findMissing hashes []).steady d.store) fun r st h => ?_)))
    rw [hall, Prod.mk.injEq] at h
    rw [h.1]
    exact wp_pure rfl
  have hr := hwp [] (by simp)
  rcases hw : (commitLocked version manifest hashes).run.run ⟨d, []⟩ with ⟨r, w⟩
  rw [hw] at hr
  exact ⟨first, missing, w, by rw [show r = _ from hr]⟩

theorem Stocked.commit_absent_nil (h : Stocked blake3 s G)
    (hcheck : checkCommit blake3 req = .ok index) (hmem : hash ∈ index.chunkSet)
    (habsent : ¬(s.games req.gameId).Holds blake3 req.gameId hash) (order : IterOrder Hash) :
    ∃ error, (s.commit blake3 req order [] []).replies
      = ⟨req.gameId, req.version, req.manifest, .ok ⟨false, error⟩⟩ :: s.replies := by
  obtain ⟨hset, hopened⟩ := openGame_settled s req.gameId []
  obtain ⟨store, hstore⟩ := openGame_nil s req.gameId
  rcases ho : s.openGame req.gameId [] with ⟨s₁, r⟩
  rw [ho] at hset hopened hstore
  obtain rfl : r = .ok store := hstore
  have hlaid : StoreLaid req.gameId store (G req.gameId) := by
    have hgame := (hset.games req.gameId).laid _ (h.laid req.gameId)
    rwa [hopened store rfl] at hgame
  have hnone : store.index[key store.self.gameId hash]? = none := by
    rw [hlaid.game, hlaid.laid.index, h.absent habsent]
    rfl
  obtain ⟨first, missing, w, hr⟩ := commitLocked_missing req.version req.manifest
    (d := ⟨store, s₁.published req.gameId⟩) ((order.perm _).mem_iff.2 hmem) hnone
  refine ⟨(missingReply (first :: missing)).error, ?_⟩
  unfold Origin.commit
  simp only [hcheck, ho, hr]
  rw [← hset.replies]
  rfl

end Absent

/-- Whatever streams, lookups, commits and publish calls interleave, a version that was answered as
published has all its chunks, now and later; a commit that refers to an absent chunk touches no
manifest and is not answered as published. -/
theorem run_complete (blake3 : Bytes → Hash) (scheduler : Bool) (acts : List OriginAct)
    (hfit : (Origin.init scheduler).FitRun blake3 acts) :
    ((Origin.init scheduler).run blake3 acts).Complete blake3
      ∧ ∀ req index hash order openFaults faults,
        let s := (Origin.init scheduler).run blake3 acts
        let s' := s.commit blake3 req order openFaults faults
        checkCommit blake3 req = .ok index → hash ∈ index.chunkSet →
          ¬(s.games req.gameId).Holds blake3 req.gameId hash →
          s'.published = s.published
            ∧ (s'.commits = s.commits ∨ s'.commits = [])
            ∧ (s'.replies = s.replies ∨ ∃ reply, (∀ error, reply ≠ .ok ⟨true, error⟩)
              ∧ s'.replies = ⟨req.gameId, req.version, req.manifest, reply⟩ :: s.replies)
            ∧ (openFaults = [] → faults = [] → ∃ error, s'.replies
              = ⟨req.gameId, req.version, req.manifest, .ok ⟨false, error⟩⟩ :: s.replies) := by
  obtain ⟨G, h⟩ := (stocked_init scheduler).run acts hfit
  refine ⟨h.complete, fun req index hash order openFaults faults => ?_⟩
  intro s s' hcheck hmem habsent
  have hnil : openFaults = [] → faults = [] → ∃ error, s'.replies
      = ⟨req.gameId, req.version, req.manifest, .ok ⟨false, error⟩⟩ :: s.replies := by
    rintro rfl rfl
    exact h.commit_absent_nil hcheck hmem habsent order
  obtain ⟨s₁, hset, hend | ⟨reply, hend, hnot⟩⟩ :=
    h.commit_absent hcheck hmem habsent order openFaults faults
  · obtain rfl : s' = s₁ := hend
    exact ⟨hset.published, hset.commits, .inl hset.replies, hnil⟩
  · have hs' : s' = s₁.answer req reply := hend
    rw [hs'] at hnil ⊢
    refine ⟨hset.published, hset.commits, .inr ⟨reply, hnot, ?_⟩, hnil⟩
    rw [Origin.answer, hset.replies]

end Runs

section Stored

theorem commitLocked_stored (version : UInt64) (manifest : Bytes) (hashes : List Hash)
    {d : CommitDisk} (hall : ∀ h ∈ hashes, (d.store.index[key d.store.self.gameId h]?).isSome) :
    (commitLocked version manifest hashes).run.run ⟨d, []⟩ = (.ok (.ok []),
      ⟨{ d with published := Function.update d.published version manifest }, []⟩) := by
  obtain ⟨all, hexec, hiff⟩ := exec_findMissing d.store hashes []
  obtain rfl := hiff.2 ⟨rfl, hall⟩
  have hwp : wp Benign (commitLocked version manifest hashes).run d fun r d' => r = .ok (.ok [])
      ∧ d' = { d with published := Function.update d.published version manifest } := by
    refine wp_exceptT_bind (wp_orStatus (wp_zoom (wp_mono
      ((plain_findMissing hashes []).steady d.store) fun r st h => ?_)))
    rw [hexec, Prod.mk.injEq] at h
    rw [h.1, h.2]
    refine wp_exceptT_bind (wp_orStatus (wp_query ?_ (fun _ _ h => h.elim) fun _ h => h.elim))
    refine wp_exceptT_bind (wp_orStatus (wp_mono ((plain_writePath manifest).steady d)
      fun r d' h => ?_))
    rw [exec_writePath, Prod.mk.injEq] at h
    rw [h.1, h.2]
    exact wp_pure ⟨rfl, rfl⟩
  have hr := hwp [] (by simp)
  rw [run_nil] at hr ⊢
  dsimp only at hr
  rw [hr.1, hr.2]

/-- A commit without faults of a version whose chunks are all there. -/
theorem commit_stored (blake3 : Bytes → Hash) (s : Origin) (order : IterOrder Hash)
    {req : CommitRequest} {index : GameIndex} (hcheck : checkCommit blake3 req = .ok index)
    {s₁ : Origin} {store : OpenStore} (hopen : s.openGame req.gameId [] = (s₁, .ok store))
    (hall : ∀ h ∈ index.chunkSet, (store.index[key store.self.gameId h]?).isSome) :
    s.commit blake3 req order [] [] =
      let s' := (s₁.setGame req.gameId (.opened store)).wrote req.gameId req.version req.manifest
      if s₁.scheduler then
        { s' with commits := s₁.commits ++ [⟨req.gameId, req.version, req.manifest⟩] }
      else s'.answer req (.ok ⟨true, ""⟩) := by
  have hr := commitLocked_stored req.version req.manifest (order.order index.chunkSet)
    (d := ⟨store, s₁.published req.gameId⟩) fun h hh => hall h ((order.perm _).mem_iff.1 hh)
  unfold Origin.commit
  simp only [hcheck, hopen, hr]
  rfl

/-- What `build` makes of entries that fit their fields passes the checks of a commit. -/
theorem checkCommit_build (blake3 : Bytes → Hash) {n version : UInt64} (hn : n ≠ 0)
    (hversion : version ≠ 0) {files : List FileEntry} (hcount : files.length < 2 ^ 32)
    (hfits : ∀ f ∈ files, f.Fits) :
    checkCommit blake3 ⟨n, version, (GameIndex.build blake3 files).encode,
        (GameIndex.build blake3 files).manifestHash.bytes⟩
      = .ok (GameIndex.build blake3 files) := by
  have hdecode : GameIndex.decode blake3 (GameIndex.build blake3 files).encode
      = .ok (GameIndex.build blake3 files) :=
    (decode_eq_ok blake3).2 ⟨0, build_layout blake3 hcount hfits⟩
  have hsize := (GameIndex.build blake3 files).manifestHash.size
  have hlen : (GameIndex.build blake3 files).encode.length
      = (GameIndex.build blake3 files).encodeBody.length + 32 := by
    rw [GameIndex.encode, List.length_append, hsize]
    rfl
  have hbody : (GameIndex.build blake3 files).encode.take
      ((GameIndex.build blake3 files).encode.length - 32)
      = (GameIndex.build blake3 files).encodeBody := by
    rw [hlen, Nat.add_sub_cancel, GameIndex.encode, List.take_left]
  unfold checkCommit
  dsimp only
  rw [if_neg (by simp [hn, hversion]), if_neg (by omega), Hash.ofBytes?_eq_some.2 rfl]
  dsimp only
  rw [if_neg (by rw [hbody]; exact not_not.2 rfl), hdecode]

/-- The hash function of the run below: the length, over and over. -/
def lengthHash (bytes : Bytes) : Hash := .fill (UInt8.ofNat bytes.length)

/-- A version of one file, with one chunk of one byte. -/
def index₁ : GameIndex := .build lengthHash [⟨"a", .fill 1, [⟨.fill 1, 1⟩]⟩]

def commit₁ : CommitRequest := ⟨7, 1, index₁.encode, index₁.manifestHash.bytes⟩

theorem checkCommit_commit₁ : checkCommit lengthHash commit₁ = .ok index₁ := by
  refine checkCommit_build lengthHash (by decide) (by decide) (by decide) fun f hf => ?_
  obtain rfl := List.mem_singleton.1 hf
  exact ⟨by decide, by decide⟩

/-- The origin once the chunk of `index₁` is uploaded. -/
def uploaded₁ : Origin :=
  { (Origin.init true).setGame 7 (.opened (appended (opened₀ 7) (.fill 1, [5]))) with
    streams := [⟨7, [⟨(Hash.fill 1).bytes, true, ""⟩]⟩] }

theorem processChunk_five (hdata : blake3 [5] = .fill 1) :
    (processChunk blake3 (Hash.fill 1).bytes [5]).run.run ⟨opened₀ 7, []⟩
      = (.ok (.ok ⟨(Hash.fill 1).bytes, true, ""⟩), ⟨appended (opened₀ 7) (.fill 1, [5]), []⟩) := by
  have hnone : (opened₀ 7).index[key (opened₀ 7).self.gameId (.fill 1)]? = none :=
    Std.ExtTreeMap.getElem?_empty
  have he := exec_appendChunk (s := opened₀ 7) rfl (.fill 1) [5]
  rw [hnone] at he
  rw [processChunk, show Hash.ofBytes? (Hash.fill 1).bytes = some (.fill 1) by rfl]
  dsimp only
  rw [if_neg (not_not.2 hdata)]
  change (andThen (attempt (appendChunk (.fill 1) [5])) _).run ⟨opened₀ 7, []⟩ = _
  rw [run_andThen, run_attempt, run_nil, he]
  rfl

theorem firstChunk_uploaded (hdata : blake3 [5] = .fill 1) :
    (Origin.init true).firstChunk blake3 7 (Hash.fill 1).bytes [5] [] [] = uploaded₁ := by
  have ho : (Origin.init true).openGame 7 []
      = ((Origin.init true).setGame 7 (.opened (opened₀ 7)), .ok (opened₀ 7)) := rfl
  unfold Origin.firstChunk
  rw [if_neg (by decide), ho]
  dsimp only
  unfold Origin.message
  rw [processChunk_five hdata]
  simp [uploaded₁, Origin.setGame, Origin.init]

/-- `uploaded₁` once the version is written. -/
def written₁ : Origin :=
  { uploaded₁.wrote 7 1 index₁.encode with commits := [⟨7, 1, index₁.encode⟩] }

theorem commit₁_written :
    uploaded₁.commit lengthHash commit₁ ⟨id, fun _ => .refl _⟩ [] [] = written₁ := by
  rw [commit_stored lengthHash uploaded₁ _ checkCommit_commit₁ rfl (by decide)]
  simp [written₁, uploaded₁, Origin.setGame, Origin.wrote, Origin.init, commit₁]

theorem uploaded₁_packsFit : uploaded₁.PacksFit := by
  intro n
  rcases eq_or_ne n 7 with rfl | hne
  · decide
  · simp [uploaded₁, Origin.setGame, Origin.init, Function.update_of_ne hne, StoreSys.dir]

/-- A chunk is uploaded, its version committed and published. -/
theorem run_complete_one :
    let acts : List OriginAct := [.firstChunk 7 (Hash.fill 1).bytes [5] [] [],
      .commit commit₁ ⟨id, fun _ => .refl _⟩ [] [], .publish 0 (.handled [] none)]
    ((Origin.init true).run lengthHash acts).replies.map (·.reply) = [.ok ⟨true, ""⟩]
      ∧ ((Origin.init true).run lengthHash acts).Complete lengthHash := by
  intro acts
  have hfirst := firstChunk_uploaded (show lengthHash [5] = .fill 1 by rfl)
  have hrun : (Origin.init true).run lengthHash acts = written₁.publish 0 (.handled [] none) := by
    simp only [acts, Origin.run, List.foldl_cons, List.foldl_nil, Origin.step, hfirst,
      commit₁_written]
  refine ⟨by rw [hrun]; rfl, (run_complete lengthHash true acts ?_).1⟩
  simp only [acts, Origin.FitRun, Origin.step, hfirst, commit₁_written]
  exact ⟨fun _ => by simp [Origin.init, StoreSys.dir], uploaded₁_packsFit, uploaded₁_packsFit,
    uploaded₁_packsFit⟩

end Stored

end BlazeNet

import BlazeNet.Proofs.Assign
import BlazeNet.Proofs.Origin

/-!
# The two records of a version

A commit writes the manifest to the origin's file first and has the scheduler save it after the
lock is given back. A commit that is alone with its version and is answered as published leaves the
two the same; one that fails half way, or overlaps another, need not.
-/

namespace BlazeNet

open Wire FaultIo Io RustStd GameStore

variable {blake3 : Bytes → Hash} {g v : UInt64}

section Scheduler

theorem toList_versionKey (g v : UInt64) : (Store.versionKey g v).toList
    = Nat.toDigits 10 g.toNat ++ ':' :: Nat.toDigits 10 v.toNat := by
  have hkey : Store.versionKey g v = toString g ++ ":" ++ toString v := rfl
  have hdigits : ∀ n : UInt64, (toString n).toList = Nat.toDigits 10 n.toNat := fun n =>
    Nat.toList_repr
  rw [hkey, String.toList_append, String.toList_append, hdigits, hdigits, List.append_assoc]
  rfl

theorem colon_notMem_toDigits (n : ℕ) : ':' ∉ Nat.toDigits 10 n := fun h => by
  have := Nat.isDigit_of_mem_toDigits (by decide) (by decide) h
  simp at this

theorem toDigits_injective {a b : UInt64} (h : Nat.toDigits 10 a.toNat = Nat.toDigits 10 b.toNat) :
    a = b := by
  have hn := congrArg (fun l => Nat.ofDigitChars 10 l 0) h
  simp only [Nat.ofDigitChars_ten_toDigits] at hn
  exact UInt64.toNat_inj.1 hn

theorem versionKey_inj {g' v' : UInt64} (h : Store.versionKey g v = Store.versionKey g' v') :
    g = g' ∧ v = v' := by
  have hlist := congrArg String.toList h
  rw [toList_versionKey, toList_versionKey, List.append_cons_inj_of_notMem
    (colon_notMem_toDigits _) (colon_notMem_toDigits _)] at hlist
  exact ⟨toDigits_injective hlist.1, toDigits_injective hlist.2.2⟩

theorem allOrNothing_saveVersion (manifest : Bytes) :
    AllOrNothing (Store.saveVersion g v manifest) :=
  .bind (quiet_call _) fun _ => .bind (quiet_call _) fun _ => .bind (quiet_call _) fun _ =>
    allOrNothing_storeCommit _ _

theorem plain_saveVersion (manifest : Bytes) : Plain (Store.saveVersion g v manifest) :=
  .bind (plain_call _) fun _ => .bind (plain_call _) fun _ => .bind (plain_call _) fun _ =>
    plain_storeCommit _ _

def SameVersions (s s' : Sched) : Prop := s'.versions = s.versions

theorem SameVersions.refl (s : Sched) : SameVersions s s := rfl

theorem SameVersions.trans (a b c : Sched) (h : SameVersions a b) (h' : SameVersions b c) :
    SameVersions a c := Eq.trans h' h

/-- A publish request saves the manifest or leaves the versions as they are; where it is answered
as done it has saved it. -/
theorem publishVersion_versions (manifest : Bytes) (sched : Sched)
    (faults : List (Fault AnyError)) :
    ∃ r w, (publishVersion g v manifest).run.run ⟨sched, faults⟩ = (r, w)
      ∧ (w.state.versions = sched.versions ∧ r ≠ .ok (.ok ())
        ∨ w.state.versions = sched.versions.insert (Store.versionKey g v) manifest) := by
  unfold publishVersion
  split_ifs
  · exact ⟨_, _, rfl, .inl ⟨rfl, by rintro ⟨⟩⟩⟩
  · exact ⟨_, _, rfl, .inl ⟨rfl, by rintro ⟨⟩⟩⟩
  rcases run_orFail_cases (allOrNothing_saveVersion manifest) (plain_saveVersion manifest).sound
    (internal "保存版本清单失败") sched faults with ⟨_, fs, hr, -⟩ | ⟨r, fs, hr, hne⟩
  · have hraise : Keeps SameVersions
        (ExceptT.lift (raiseLatest g v) : Handler Status Unit).run :=
      .bind .trans (keeps_raiseLatest .refl .trans (fun _ _ => rfl) g v) fun _ =>
        (Quiet.pure _).keeps .refl
    have hkeep := hraise.run (exec (Store.saveVersion g v manifest) sched).2 fs
    rw [run_handler_bind, hr]
    exact ⟨_, _, rfl, .inr hkeep⟩
  · obtain ⟨r', hr', hne'⟩ := run_handler_stops hr hne
      fun _ => (ExceptT.lift (raiseLatest g v) : Handler Status Unit)
    exact ⟨r', _, hr', .inl ⟨rfl, hne' ()⟩⟩

end Scheduler

section Agree

variable {s s' : Origin} {alone : Bool}

/-- What the file and the scheduler have of a version that is alone: the same, or the manifest of
the one commit in progress is in the file. -/
def Agree (g v : UInt64) (s : Origin) (alone : Bool) : Prop :=
  alone = true →
    s.pendingOf g v = [] ∧ s.published g v = s.sched.versions[Store.versionKey g v]?
      ∨ ∃ c, s.pendingOf g v = [c] ∧ s.published g v = some c.manifest

/-- A step that neither publishes nor goes on to. -/
theorem Agree.quiet (h : Agree g v s alone) (hsched : s'.sched = s.sched)
    (hpending : s'.pendingOf g v = s.pendingOf g v ∨ s'.pendingOf g v = [])
    (hreply : s.answeredPublished s' = false) : Agree g v s' (s.aloneAfter g v s' alone) := by
  intro halone
  have hle : (s'.pendingOf g v).length ≤ (s.pendingOf g v).length := by
    rcases hpending with hp | hp <;> rw [hp]
    exact Nat.zero_le _
  rw [Origin.aloneAfter, if_neg (Nat.not_lt.2 hle), hreply] at halone
  split_ifs at halone with hlt
  · simp at halone
  simp only [Bool.and_eq_true, decide_eq_true_eq] at halone
  have hsame : s'.pendingOf g v = s.pendingOf g v := by
    rcases hpending with hp | hp
    · exact hp
    · have hnil : s.pendingOf g v = [] :=
        List.length_eq_zero_iff.1 (by rw [hp] at hlt; simpa using hlt)
      rw [hp, hnil]
  rw [hsame, halone.2, hsched]
  exact h halone.1

theorem answeredPublished_of_eq (h : s'.replies = s.replies) : s.answeredPublished s' = false := by
  unfold Origin.answeredPublished
  rw [h]
  rcases hr : s.replies with _ | ⟨⟨_, _, _, status | reply⟩, rest⟩
  · rfl
  · rfl
  · simp

theorem answeredPublished_cons {c : Committed} (h : s'.replies = c :: s.replies)
    (hc : ∀ error, c.reply ≠ .ok ⟨true, error⟩) : s.answeredPublished s' = false := by
  unfold Origin.answeredPublished
  rw [h]
  rcases c with ⟨_, _, _, status | ⟨_ | _, error⟩⟩
  · rfl
  · simp
  · exact absurd rfl (hc error)

theorem Unanswered.pendingOf (h : Unanswered s s') :
    s'.pendingOf g v = s.pendingOf g v ∨ s'.pendingOf g v = [] := by
  rcases h.commits with hc | hc
  · exact .inl (congrArg _ hc)
  · exact .inr (by rw [Origin.pendingOf, hc]; rfl)

theorem Agree.unanswered (h : Agree g v s alone) (hs : Unanswered s s') :
    Agree g v s' (s.aloneAfter g v s' alone) :=
  h.quiet hs.sched hs.pendingOf (answeredPublished_of_eq hs.replies)

/-- A commit that goes on to publish has written its manifest. -/
theorem Agree.pend (h : Agree g v s alone) {s₁ : Origin} (hset : Settled s s₁)
    (c : PendingPublish) :
    let s' := { s₁.wrote c.gameId c.version c.manifest with commits := s₁.commits ++ [c] }
    Agree g v s' (s.aloneAfter g v s' alone) := by
  intro s'
  have hreply : s.answeredPublished s' = false := answeredPublished_of_eq hset.replies
  by_cases hown : c.gameId = g ∧ c.version = v
  · obtain ⟨rfl, rfl⟩ := hown
    have hfile : s'.published c.gameId c.version = some c.manifest := by
      simp [s', Origin.wrote]
    have hpending : s'.pendingOf c.gameId c.version = s₁.pendingOf c.gameId c.version ++ [c] := by
      simp [s', Origin.pendingOf, List.filter_append]
    intro halone
    refine .inr ⟨c, ?_, hfile⟩
    rcases hset.pendingOf (g := c.gameId) (v := c.version) with hp | hp <;>
      rw [hp] at hpending <;> rw [hpending]
    · rw [Origin.aloneAfter, hpending, if_pos (by simp)] at halone
      rw [List.isEmpty_iff.1 halone]
      rfl
    · rfl
  · have hpending : s'.pendingOf g v = s₁.pendingOf g v := by
      rw [Origin.pendingOf, List.filter_append, List.filter_cons_of_neg, List.filter_nil,
        List.append_nil]
      · rfl
      · simpa using hown
    exact h.quiet hset.sched (hpending ▸ hset.pendingOf) hreply

theorem Agree.commit (h : Agree g v s alone) (hscheduler : s.scheduler = true)
    (req : CommitRequest) (order : IterOrder Hash) (openFaults faults : List (Fault AnyError)) :
    Agree g v (s.commit blake3 req order openFaults faults)
      (s.aloneAfter g v (s.commit blake3 req order openFaults faults) alone) := by
  obtain ⟨s₁, hset, hend | ⟨reply, hend, hnot⟩ | ⟨index, b, -, -, hend⟩⟩ :=
    commit_cases blake3 s req order openFaults faults
  · rw [hend]
    exact h.unanswered hset.toUnanswered
  · rw [hend]
    exact h.quiet hset.sched hset.pendingOf
      (answeredPublished_cons (congrArg _ hset.replies) hnot)
  rcases hend with hend | ⟨status, hend⟩ | ⟨rfl, hend⟩
  · rw [hend]
    exact h.quiet hset.sched (.inr rfl) (answeredPublished_of_eq hset.replies)
  · rw [hend]
    exact h.quiet hset.sched hset.pendingOf
      (answeredPublished_cons (congrArg _ hset.replies) (by simp))
  · rw [hend, if_pos hscheduler]
    exact h.pend hset ⟨req.gameId, req.version, req.manifest⟩

/-- What a publish call does to the versions. -/
theorem publish_versions {c : PendingPublish} {reply : CommitReply} {sched : Sched}
    (h : sched = s.sched ∧ reply.published = false ∨ ∃ faults r w,
      (publishVersion c.gameId c.version c.manifest).run.run ⟨s.sched, faults⟩ = (r, w)
        ∧ sched.versions = w.state.versions ∧ (reply.published = true → r = .ok (.ok ()))) :
    sched.versions = s.sched.versions ∧ reply.published = false
      ∨ sched.versions
        = s.sched.versions.insert (Store.versionKey c.gameId c.version) c.manifest := by
  rcases h with ⟨rfl, hreply⟩ | ⟨faults, r, w, hr, hversions, hdone⟩
  · exact .inl ⟨rfl, hreply⟩
  · obtain ⟨r', w', hr', hcases⟩ := publishVersion_versions c.manifest s.sched faults
    obtain ⟨rfl, rfl⟩ := Prod.mk.inj (hr.symm.trans hr')
    rw [hversions]
    rcases hcases with ⟨hsame, hne⟩ | hsaved
    · exact .inl ⟨hsame, Bool.eq_false_iff.2 fun ht => hne (hdone ht)⟩
    · exact .inr hsaved

/-- The commits of a version with one commit taken out. -/
theorem pendingOf_eraseIdx {i : ℕ} {c : PendingPublish} (hc : s.commits[i]? = some c)
    (g v : UInt64) :
    ∃ l r, s.pendingOf g v = l ++ (if c.gameId = g ∧ c.version = v then [c] else []) ++ r
      ∧ (s.commits.eraseIdx i).filter (fun c => c.gameId = g && c.version = v) = l ++ r := by
  obtain ⟨hi, rfl⟩ := List.getElem?_eq_some_iff.1 hc
  refine ⟨(s.commits.take i).filter fun c => c.gameId = g && c.version = v,
    (s.commits.drop (i + 1)).filter fun c => c.gameId = g && c.version = v, ?_, ?_⟩
  · have hsplit : s.commits = s.commits.take i ++ [s.commits[i]] ++ s.commits.drop (i + 1) := by
      rw [List.append_assoc, List.singleton_append, ← List.drop_eq_getElem_cons hi,
        List.take_append_drop]
    rw [Origin.pendingOf]
    nth_rewrite 1 [hsplit]
    rw [List.filter_append, List.filter_append, List.filter_singleton]
    simp only [Bool.cond_eq_ite, Bool.and_eq_true, decide_eq_true_eq]
  · rw [List.eraseIdx_eq_take_drop_succ, List.filter_append]

theorem Agree.publish (h : Agree g v s alone) (i : ℕ) (call : PublishCall) :
    Agree g v (s.publish i call) (s.aloneAfter g v (s.publish i call) alone) := by
  rcases publish_cases s i call with hend | ⟨c, reply, sched, hc, hend, hsched⟩
  · rw [hend]
    exact h.unanswered (Settled.refl s).toUnanswered
  have hversions := publish_versions hsched
  obtain ⟨l, r, hpending, hleft⟩ := pendingOf_eraseIdx hc g v
  have herase : (s.publish i call).pendingOf g v = l ++ r := by rw [← hleft, hend]; rfl
  have hfile : (s.publish i call).published g v = s.published g v := by rw [hend]
  intro halone
  by_cases hown : c.gameId = g ∧ c.version = v
  · rw [if_pos hown] at hpending
    obtain ⟨rfl, rfl⟩ := hown
    rw [Origin.aloneAfter, if_neg (by simp [herase, hpending]),
      if_pos (by simp [herase, hpending])] at halone
    obtain ⟨hbefore, hanswer⟩ := Bool.and_eq_true_iff.1 halone
    rcases h hbefore with ⟨hnil, -⟩ | ⟨c', hone, hmanifest⟩
    · simp [hpending] at hnil
    -- the commit that is answered is the only one in progress
    obtain ⟨rfl, rfl, rfl⟩ : l = [] ∧ r = [] ∧ c = c' := by
      have hsingle := hpending.symm.trans hone
      rcases l with _ | ⟨x, l⟩
      · simpa [and_comm] using hsingle
      · simp at hsingle
    have hreply : reply.published = true := by
      rw [Origin.answeredPublished, hend] at hanswer
      simpa using hanswer
    refine .inl ⟨herase, ?_⟩
    rcases hversions with ⟨-, hfalse⟩ | hsaved
    · simp [hfalse] at hreply
    · rw [hfile, hmanifest, hend, hsaved, Std.ExtTreeMap.getElem?_insert_self]
  · rw [if_neg hown, List.append_nil] at hpending
    have hsame : (s.publish i call).pendingOf g v = s.pendingOf g v := by rw [herase, hpending]
    have hlook : (s.publish i call).sched.versions[Store.versionKey g v]?
        = s.sched.versions[Store.versionKey g v]? := by
      rw [hend]
      rcases hversions with ⟨hkeep, -⟩ | hsaved
      · rw [hkeep]
      · rw [hsaved, lookup_insert, if_neg fun he => hown (versionKey_inj he)]
    rw [Origin.aloneAfter, if_neg (by rw [hsame]; omega), if_neg (by rw [hsame]; omega),
      Bool.and_eq_true_iff] at halone
    rw [hsame, hfile, hlook]
    exact h halone.1

theorem firstChunk_unanswered (blake3 : Bytes → Hash) (s : Origin) (n : UInt64)
    (chunkHash data : Bytes) (openFaults faults : List (Fault AnyError)) :
    Unanswered s (s.firstChunk blake3 n chunkHash data openFaults faults) := by
  unfold Origin.firstChunk
  split_ifs
  · exact (Settled.refl s).toUnanswered
  have hset := (openGame_settled s n openFaults).1.toUnanswered
  rcases ho : s.openGame n openFaults with ⟨s₁, e | store⟩ <;> rw [ho] at hset
  · exact hset
  · refine hset.trans (message_unanswered blake3 s₁ n store chunkHash data faults fun r s => ?_)
    rcases r with _ | ack <;> exact ⟨_, rfl⟩

theorem nextChunk_unanswered (blake3 : Bytes → Hash) (s : Origin) (i : ℕ)
    (chunkHash data : Bytes) (faults : List (Fault AnyError)) :
    Unanswered s (s.nextChunk blake3 i chunkHash data faults) := by
  unfold Origin.nextChunk
  rcases s.streams[i]? with _ | stream
  · exact (Settled.refl s).toUnanswered
  dsimp only
  rcases s.games stream.gameId with dir | store
  · exact (Settled.refl s).toUnanswered
  · refine message_unanswered blake3 s _ store chunkHash data faults fun r s => ?_
    rcases r with _ | ack <;> exact ⟨_, rfl⟩

theorem commit_scheduler (blake3 : Bytes → Hash) (s : Origin) (req : CommitRequest)
    (order : IterOrder Hash) (openFaults faults : List (Fault AnyError)) :
    (s.commit blake3 req order openFaults faults).scheduler = s.scheduler := by
  obtain ⟨s₁, hset, hend | ⟨reply, hend, -⟩ | ⟨index, b, -, -,
    hend | ⟨status, hend⟩ | ⟨-, hend⟩⟩⟩ :=
    commit_cases blake3 s req order openFaults faults <;> rw [hend]
  · exact hset.scheduler
  · exact hset.scheduler
  · exact hset.scheduler
  · exact hset.scheduler
  · split_ifs <;> exact hset.scheduler

/-- Every step keeps the records of a version in agreement while its commits are alone. -/
theorem Agree.step (h : Agree g v s alone) (hscheduler : s.scheduler = true) (a : OriginAct) :
    Agree g v (s.step blake3 a) (s.aloneAfter g v (s.step blake3 a) alone)
      ∧ (s.step blake3 a).scheduler = true := by
  have hquiet : ∀ {s'}, Unanswered s s' → Agree g v s' (s.aloneAfter g v s' alone)
      ∧ s'.scheduler = true := fun hs => ⟨h.unanswered hs, hs.scheduler.trans hscheduler⟩
  cases a with
  | firstChunk n chunkHash data openFaults faults => exact hquiet (firstChunk_unanswered ..)
  | nextChunk i chunkHash data faults => exact hquiet (nextChunk_unanswered ..)
  | endStream i => exact hquiet ⟨rfl, rfl, rfl, .inl rfl⟩
  | query n hashes openFaults faults =>
    exact hquiet (settled_query s n hashes openFaults faults).toUnanswered
  | commit req order openFaults faults =>
    exact ⟨h.commit hscheduler req order openFaults faults,
      (commit_scheduler blake3 s req order openFaults faults).trans hscheduler⟩
  | publish i call =>
    refine ⟨h.publish i call, ?_⟩
    rcases publish_cases s i call with hend | ⟨c, reply, sched, -, hend, -⟩
    · exact (congrArg _ hend).trans hscheduler
    · exact (congrArg _ hend).trans hscheduler
  | restart => exact hquiet (settled_restart s).toUnanswered

theorem Agree.run : ∀ (acts : List OriginAct) {s : Origin} {alone : Bool}, Agree g v s alone →
    s.scheduler = true →
    Agree g v (s.run blake3 acts) (s.aloneRun blake3 g v alone acts)
  | [], _, _, h, _ => h
  | a :: acts, _, _, h, hscheduler =>
    Agree.run acts (h.step hscheduler a).1 (h.step hscheduler a).2

/-- Whenever no commit of a version is in progress and the last one that got to its file was alone
with it and answered as published, the origin's file and the scheduler have the same manifest. -/
theorem run_records_agree (blake3 : Bytes → Hash) (acts : List OriginAct) (g v : UInt64)
    (hidle : ((Origin.init true).run blake3 acts).pendingOf g v = [])
    (halone : (Origin.init true).aloneRun blake3 g v true acts = true) :
    exec (Store.getVersion g v) ((Origin.init true).run blake3 acts).sched
      = (.ok (((Origin.init true).run blake3 acts).published g v),
        ((Origin.init true).run blake3 acts).sched) := by
  have hinit : Agree g v (.init true) true := fun _ =>
    .inl ⟨rfl, by simp [Origin.init, Sched.empty]⟩
  rw [exec_getVersion]
  rcases hinit.run acts rfl halone with ⟨-, hsame⟩ | ⟨c, hone, -⟩
  · rw [hsame]
  · simp [hidle] at hone

end Agree

section Examples

/-- A version without files. -/
def index₂ : GameIndex := .build lengthHash []

def commit₂ : CommitRequest := ⟨7, 1, index₂.encode, index₂.manifestHash.bytes⟩

/-- The origin once that version is written. -/
def written₂ : Origin :=
  { ((Origin.init true).setGame 7 (.opened (opened₀ 7))).wrote 7 1 index₂.encode with
    commits := [⟨7, 1, index₂.encode⟩] }

theorem commit₂_written :
    (Origin.init true).commit lengthHash commit₂ ⟨id, fun _ => .refl _⟩ [] [] = written₂ := by
  have hcheck : checkCommit lengthHash commit₂ = .ok index₂ :=
    checkCommit_build lengthHash (by decide) (by decide) (by decide) (by simp)
  have hopen : (Origin.init true).openGame commit₂.gameId []
      = ((Origin.init true).setGame 7 (.opened (opened₀ 7)), .ok (opened₀ 7)) := rfl
  rw [commit_stored lengthHash _ _ hcheck hopen (by decide)]
  simp [written₂, Origin.setGame, Origin.wrote, Origin.init, commit₂]

/-- The version is published. -/
theorem run_records_agree_one :
    let acts : List OriginAct := [.commit commit₂ ⟨id, fun _ => .refl _⟩ [] [],
      .publish 0 (.handled [] none)]
    ((Origin.init true).run lengthHash acts).published 7 1 = some index₂.encode
      ∧ exec (Store.getVersion 7 1) ((Origin.init true).run lengthHash acts).sched
        = (.ok (((Origin.init true).run lengthHash acts).published 7 1),
          ((Origin.init true).run lengthHash acts).sched) := by
  intro acts
  have hrun : (Origin.init true).run lengthHash acts = written₂.publish 0 (.handled [] none) := by
    simp only [acts, Origin.run, List.foldl_cons, List.foldl_nil, Origin.step, commit₂_written]
  refine ⟨by rw [hrun]; rfl, run_records_agree lengthHash acts 7 1 (by rw [hrun]; rfl) ?_⟩
  simp only [acts, Origin.aloneRun, Origin.step, commit₂_written]
  rfl

/-- The scheduler is not reached: the origin has the manifest, the scheduler has none. -/
theorem run_records_differ :
    let acts : List OriginAct := [.commit commit₂ ⟨id, fun _ => .refl _⟩ [] [],
      .publish 0 (.unreachable "连接调度中心失败")]
    ((Origin.init true).run lengthHash acts).commits = []
      ∧ ((Origin.init true).run lengthHash acts).published 7 1 = some index₂.encode
      ∧ exec (Store.getVersion 7 1) ((Origin.init true).run lengthHash acts).sched
        = (.ok none, ((Origin.init true).run lengthHash acts).sched) := by
  intro acts
  have hrun : (Origin.init true).run lengthHash acts
      = written₂.publish 0 (.unreachable "连接调度中心失败") := by
    simp only [acts, Origin.run, List.foldl_cons, List.foldl_nil, Origin.step, commit₂_written]
  rw [hrun]
  exact ⟨rfl, rfl, rfl⟩

end Examples

end BlazeNet

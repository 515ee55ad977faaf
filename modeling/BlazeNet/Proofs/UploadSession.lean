import BlazeNet.UploadSession
import BlazeNet.Proofs.UploadDelta
import BlazeNet.Proofs.Uploads

/-!
# What an upload has delivered

What the query finds and what is acked as written is in the index of the game (`Backs`), and stays
there; the acks are of chunks that were sent once each. So the summary of a call counts chunks that
the origin has (`session_delivers`).
-/

namespace BlazeNet

open Wire FaultIo Io RustStd GameStore

variable {blake3 : Bytes → Hash} {o : Origin}

section Query

variable {store : OpenStore} {gameId : UInt64} {hashes : List Hash} {reply : List Bytes}
  {openFaults faults : List (Fault AnyError)}

/-- Whatever the faults, an answer to a query is what the index has. -/
theorem wp_existingChunks (store : OpenStore) : ∀ hashes : List Hash,
    wp (fun _ => True) (existingChunks (hashes.map (·.bytes))).run store fun r s' => s' = store
      ∧ ∀ reply, r = .ok (.ok reply) → reply = (hashes.filter fun hash =>
        (store.index[key store.self.gameId hash]?).isSome).map (·.bytes)
  | [] => wp_pure ⟨rfl, fun _ h => (Except.ok.inj (Except.ok.inj h)).symm⟩
  | hash :: hashes => by
    rw [List.map_cons, existingChunks, Hash.ofBytes?_eq_some.2 rfl]
    have hfound := wp_and (quiet_contains hash (fun _ => True) store)
      ((plain_contains hash).sound (fun _ => True) store)
    refine wp_exceptT_bind (wp_orStatus (wp_mono hfound fun r s' h => ?_))
    obtain ⟨rfl, hsound⟩ := h
    rcases r with (e | _) | found
    · exact ⟨rfl, by simp⟩
    · exact ⟨rfl, by simp⟩
    have heq := hsound found rfl
    rw [exec_contains, Prod.mk.injEq] at heq
    obtain rfl := Except.ok.inj heq.1
    refine wp_exceptT_bind (wp_mono (wp_existingChunks s' hashes) fun r s'' h => ?_)
    obtain ⟨rfl, hmore⟩ := h
    rcases r with e | e | more
    · exact ⟨rfl, by simp⟩
    · exact ⟨rfl, by simp⟩
    refine wp_pure ⟨rfl, fun reply h => ?_⟩
    obtain rfl := Except.ok.inj (Except.ok.inj h)
    rw [hmore more rfl, List.filter_cons]
    split_ifs <;> rfl

/-- The query is answered with the hashes that the game has, in their order. -/
theorem existing_answered (ht : Titled o)
    (h : o.existing gameId (hashes.map (·.bytes)) openFaults faults = some (.ok reply)) :
    reply = (hashes.filter fun hash => (o.games gameId).knows gameId hash).map (·.bytes) := by
  unfold Origin.existing at h
  split_ifs at h with hzero
  · cases Option.some.inj h
  obtain ⟨hset, hopened⟩ := openGame_settled o gameId openFaults
  have htitled := (onward_openGame lengthHash o gameId openFaults).titled ht
  rcases ho : o.openGame gameId openFaults with ⟨o₁, (_ | status) | store⟩ <;>
    rw [ho] at h hset hopened htitled
  · cases h
  · cases Option.some.inj h
  have hgame : o₁.games gameId = .opened store := hopened store rfl
  have hanswer := wp_existingChunks store hashes faults fun _ _ => trivial
  have hindex : ∀ hash, (o.games gameId).knows gameId hash
      = (store.index[key store.self.gameId hash]?).isSome := fun hash => by
    rw [htitled.stores gameId store hgame, ← knows_opened, ← hgame]
    exact congrArg (fun t : Index => (t[key gameId hash]?).isSome) (hset.indexOf gameId).symm
  simp only [hindex]
  refine hanswer.2 reply ?_
  dsimp only at h
  rcases hr : ((existingChunks (hashes.map (·.bytes))).run.run ⟨store, faults⟩).1 with e | r <;>
    rw [hr] at h
  · cases h
  · exact hr.trans (congrArg Except.ok (Option.some.inj h))

end Query

section Backs

variable {s : UploadSession} {c : UploadState} {existing : List Hash}

/-- What the client counts, against the store of its game. -/
structure Backs (s : UploadSession) (c : UploadState) (existing : List Hash) : Prop where
  found : ∀ hash ∈ existing, (s.origin.games s.call.gameId).knows s.call.gameId hash = true
  among : existing.Sublist s.call.hashes
  skipped : c.summary.skipped = existing.length
  uploaded : c.summary.uploaded = (c.acks.filter (·.ok)).length
  game : ∀ chunk ∈ c.sent, chunk.gameId = s.call.gameId
  taken : s.taken ≤ c.sent.length
  /-- What is sent and what is to be read are missing chunks, in their order. -/
  order : (c.sent.map (·.chunkHash) ++ c.unread.map (·.1.bytes)).Sublist
    ((s.call.missing (existing.map (·.bytes))).map (·.bytes))
  /-- No chunk is acked as written more than once. -/
  once : (((c.acks ++ s.acks).filter (·.ok)).map (·.chunkHash)).Sublist
    ((c.sent.take s.taken).map (·.chunkHash))
  stored : ∀ ack ∈ c.acks ++ s.acks, ack.ok = true → ∃ hash : Hash, hash.bytes = ack.chunkHash
    ∧ (s.origin.games s.call.gameId).knows s.call.gameId hash = true
  returned : ∀ summary, c.phase = .returned (.ok summary) → summary = c.summary

/-- The call has failed, or counts what is there. -/
def Counts (s : UploadSession) (c : UploadState) : Prop :=
  (∃ e, c.phase = .returned (.error e)) ∨ ∃ existing, Backs s c existing

theorem Backs.onward (h : Backs s c existing) (ht : Titled s.origin)
    (ho : Onward blake3 s.origin o) : Backs { s with origin := o } c existing where
  __ := h
  found hash hmem := ho.knows ht (h.found hash hmem)
  stored ack hack hok := by
    obtain ⟨hash, hbytes, hknows⟩ := h.stored ack hack hok
    exact ⟨hash, hbytes, ho.knows ht hknows⟩

theorem Counts.onward (h : Counts s c) (ht : Titled s.origin) (ho : Onward blake3 s.origin o) :
    Counts { s with origin := o } c :=
  h.imp id fun ⟨existing, h⟩ => ⟨existing, h.onward ht ho⟩

theorem Counts.goOn (h : Counts s c) (client : Option UploadState) :
    Counts { s with client := client } c := h.imp id fun ⟨existing, h⟩ => ⟨existing, { __ := h }⟩

theorem Backs.phase (h : Backs s c existing) {phase : UploadPhase}
    (hphase : ∀ summary, phase = .returned (.ok summary) → summary = c.summary) :
    Backs s { c with phase := phase } existing := { h with returned := hphase }

/-- What is sent is the next of the chunks that are to be read. -/
theorem Backs.read (h : Backs s c existing) : Backs s (s.call.read c) existing := by
  unfold UploadCall.read
  have horder := h.order
  rcases hunread : c.unread with _ | ⟨⟨hash, seq⟩, rest⟩
  · exact h
  rw [hunread] at horder
  dsimp only
  rcases hdata : s.call.content hash with _ | data
  · refine { h with order := .trans ?_ horder }
    exact (List.Sublist.refl _).append (List.sublist_cons_self _ _)
  · refine { h with game := fun chunk hchunk => ?_, taken := ?_, order := ?_, once := ?_ }
    · rcases List.mem_append.1 hchunk with hchunk | hchunk
      · exact h.game chunk hchunk
      · rw [List.mem_singleton.1 hchunk]
    · exact h.taken.trans (by simp)
    · simpa [List.append_assoc] using horder
    · dsimp only
      rw [List.take_append_of_le_length h.taken]
      exact h.once

/-- A move of the client that takes no ack. -/
theorem Backs.step (h : Backs s c existing) {m : UploadMove} (hm : ∀ item, m ≠ .recv item) :
    Counts s (s.call.step c m) := by
  cases m with
  | read => exact .inr ⟨existing, h.read⟩
  | recv item => exact absurd rfl (hm item)
  | opened refused =>
    unfold UploadCall.step
    dsimp only
    split
    · exact .inr ⟨existing, h.phase (by simp)⟩
    · exact .inl ⟨_, rfl⟩
    · exact .inr ⟨existing, h⟩
  | ended =>
    unfold UploadCall.step
    dsimp only
    split
    · rcases hfailures : c.failures with _ | ⟨hash, rest⟩
      · refine .inr ⟨existing, h.phase fun summary hphase => ?_⟩
        simpa [UploadState.finish, hfailures, eq_comm] using hphase
      · exact .inl ⟨_, by simp only [UploadState.returning, UploadState.finish, hfailures]; rfl⟩
    · exact .inr ⟨existing, h⟩

/-- The loop takes the next ack. -/
theorem Backs.count (h : Backs s c existing) {ack : UploadAck} {acks : List UploadAck}
    (hacks : s.acks = ack :: acks) (hphase : c.phase = .receiving) :
    Counts { s with acks := acks } (c.count ack) := by
  have hstored := h.stored
  have honce := h.once
  rw [hacks, List.append_cons] at hstored honce
  unfold UploadState.count
  dsimp only
  have hlen : ((c.acks ++ [ack]).filter (·.ok)).length
      = c.summary.uploaded + if ack.ok then 1 else 0 := by
    rw [List.filter_append, List.length_append, h.uploaded]
    cases hok : ack.ok <;> simp [hok]
  split_ifs with hok
  · refine .inr ⟨existing, { h with
      uploaded := ?_, once := honce, stored := hstored, returned := by simp [hphase] }⟩
    rw [hlen, if_pos hok]
  · split
    · exact .inl ⟨_, rfl⟩
    · refine .inr ⟨existing, { h with
        uploaded := ?_, once := honce, stored := hstored, returned := by simp [hphase] }⟩
      rw [hlen, if_neg hok, Nat.add_zero]

/-- The origin takes the next chunk. -/
theorem Backs.serve (h : Backs s c existing) (ht : Titled s.origin) {chunk : UploadChunk}
    (hchunk : c.sent[s.taken]? = some chunk) {stream : Option ℕ} (htakes : s.takes stream = true)
    (openFaults faults : List (Fault AnyError)) :
    Backs { s with
      origin := s.origin.receive blake3 stream chunk openFaults faults
      taken := s.taken + 1
      acks := s.acks
        ++ ((s.origin.ackOf blake3 stream chunk openFaults faults).map (·.2)).toList } c
          existing := by
  obtain ⟨a, hstep⟩ := @receive_eq_step blake3 s.origin stream chunk openFaults faults
  have hon := h.onward ht (hstep ▸ onward_step s.origin a)
  obtain ⟨hlt, hget⟩ := List.getElem?_eq_some_iff.1 hchunk
  have htake : c.sent.take (s.taken + 1) = c.sent.take s.taken ++ [chunk] := by
    rw [List.take_add_one, hchunk]
    rfl
  have honce := h.once
  rcases hack : s.origin.ackOf blake3 stream chunk openFaults faults with _ | ⟨g, ack⟩
  · refine { hon with taken := hlt, once := ?_, stored := by simpa using hon.stored }
    dsimp only
    rw [htake, Option.map_none, Option.toList_none, List.append_nil, List.map_append]
    exact honce.trans (List.sublist_append_left _ _)
  have hgame : g = s.call.gameId := by
    have hsent := h.game chunk (List.mem_of_getElem? hchunk)
    unfold Origin.ackOf at hack
    rcases stream with _ | i <;> dsimp only at hack
    · split_ifs at hack
      rcases ho : s.origin.openGame chunk.gameId openFaults with ⟨o₁, e | store⟩ <;> rw [ho] at hack
      · cases hack
      obtain ⟨_, -, hpair⟩ := Option.map_eq_some_iff.1 hack
      exact (congrArg Prod.fst hpair).symm.trans hsent
    · rcases hi : s.origin.streams[i]? with _ | stream <;> rw [hi] at hack
      · cases hack
      dsimp only at hack
      rcases hg : s.origin.games stream.gameId with dir | store <;> rw [hg] at hack
      · cases hack
      obtain ⟨_, -, hpair⟩ := Option.map_eq_some_iff.1 hack
      have hours : stream.gameId = s.call.gameId := by
        simpa [UploadSession.takes, hi] using (Bool.and_eq_true_iff.1 htakes).2
      exact (congrArg Prod.fst hpair).symm.trans hours
  subst hgame
  obtain ⟨-, hacked⟩ := receive_acked ht hack
  refine { hon with taken := hlt, once := ?_, stored := ?_ }
  · dsimp only
    rw [htake, Option.map_some, Option.toList_some, ← List.append_assoc, List.filter_append,
      List.map_append, List.map_append]
    refine honce.append ?_
    by_cases hok : ack.ok = true
    · obtain ⟨hash, -, heq, -⟩ := hacked.stored hok
      simp [hok, heq]
    · simp [hok]
  · intro ack' hmem hok
    dsimp only at hmem
    rw [Option.map_some, Option.toList_some, ← List.append_assoc] at hmem
    rcases List.mem_append.1 hmem with hmem | hmem
    · exact hon.stored ack' hmem hok
    · obtain rfl := List.mem_singleton.1 hmem
      obtain ⟨hash, hbytes, heq, hknows⟩ := hacked.stored hok
      exact ⟨hash, hbytes.trans heq.symm, hknows⟩

end Backs

section Steps

variable {s : UploadSession} {c : UploadState} {existing : List Hash}

/-- A call that has been answered begins to count. -/
theorem counts_start (hacks : s.acks = []) (htaken : s.taken = 0)
    (hreply : s.call.reply = .ok (existing.map (·.bytes))) (hamong : existing.Sublist s.call.hashes)
    (hfound : ∀ hash ∈ existing, (s.origin.games s.call.gameId).knows s.call.gameId hash = true) :
    Counts s s.call.start := by
  have hbacks : ∀ (unread : List (Hash × ℕ)) (phase : UploadPhase),
      (unread.map Prod.fst).Sublist (s.call.missing (existing.map (·.bytes))) →
      (∀ summary, phase = .returned (.ok summary) → summary = ⟨0, existing.length, []⟩) →
      Backs s ⟨unread, [], [], ⟨0, existing.length, []⟩, [], phase⟩ existing :=
    fun unread phase hunread hphase =>
      { found := hfound, among := hamong, skipped := rfl, uploaded := rfl, game := by simp,
        taken := by simp [htaken]
        order := by simpa [List.map_map, Function.comp_def] using hunread.map (·.bytes)
        once := by simp [hacks], stored := by simp [hacks], returned := hphase }
  rcases htoken : s.call.attachToken with e | ⟨⟩
  · exact .inl ⟨e, by simp [UploadCall.start, UploadCall.queryExisting, htoken,
      Bind.bind, Except.bind]⟩
  have hquery : s.call.queryExisting = .ok existing := by
    rw [UploadCall.queryExisting, htoken, hreply]
    exact mapM_hashOfReply existing
  unfold UploadCall.start
  simp only [hquery, filter_contains, htoken]
  split_ifs
  · exact .inr ⟨existing, hbacks [] _ (by simp) (by simp [eq_comm])⟩
  · split
    · exact .inl ⟨_, rfl⟩
    · exact .inr ⟨existing, hbacks _ _ (by rw [List.zipIdx_map_fst]) (by simp)⟩

/-- The call counts what is there, whether it has been answered or not. -/
structure Honest (s : UploadSession) : Prop where
  titled : Titled s.origin
  nodup : s.call.hashes.Nodup
  idle : s.client = none → s.acks = [] ∧ s.taken = 0
  client : ∀ c, s.client = some c → Counts s c

theorem honest_begin (scheduler : Bool) {call : UploadCall} (h : call.hashes.Nodup) :
    Honest (.begin (.init scheduler) call) :=
  ⟨titled_init scheduler, h, fun _ => ⟨rfl, rfl⟩, by simp [UploadSession.begin]⟩

theorem Honest.query (h : Honest s) (openFaults faults : List (Fault AnyError))
    (lost : Option Status)
    (died : Status) : Honest (s.query openFaults faults lost died) := by
  unfold UploadSession.query
  rcases hclient : s.client with _ | c
  swap
  · exact h
  obtain ⟨hacks, htaken⟩ := h.idle hclient
  have hon : Onward lengthHash s.origin _ := onward_query s.origin s.call.gameId
    (s.call.hashes.map (·.bytes)) openFaults faults
  rcases htoken : s.call.attachToken with e | ⟨⟩
  · refine { h with idle := by simp, client := fun c hc => ?_ }
    obtain rfl := Option.some.inj hc
    exact .inl ⟨e, by simp [UploadCall.start, UploadCall.queryExisting, htoken,
      Bind.bind, Except.bind]⟩
  refine ⟨hon.titled h.titled, h.nodup, by simp, fun c hc => ?_⟩
  obtain rfl := Option.some.inj hc
  rcases hreply : s.replyOf openFaults faults lost died with status | reply
  · exact .inl ⟨.status status, by
      simp [UploadCall.start, UploadCall.queryExisting, Bind.bind, Except.bind,
        show UploadCall.attachToken { s.call with reply := .error status } = .ok () from htoken]⟩
  have hexisting : s.origin.existing s.call.gameId (s.call.hashes.map (·.bytes)) openFaults faults
      = some (.ok reply) := by
    unfold UploadSession.replyOf at hreply
    split at hreply
    · cases hreply
    · cases hreply
    · rename_i heq
      rw [heq, hreply]
  have heq := existing_answered h.titled hexisting
  refine counts_start hacks htaken (congrArg Except.ok heq) List.filter_sublist fun hash hmem => ?_
  exact hon.knows h.titled (List.mem_filter.1 hmem).2

/-- A move of the client's own. -/
theorem Honest.move (h : Honest s) {m : UploadMove} (hm : ∀ item, m ≠ .recv item) :
    Honest (s.move m) := by
  refine ⟨h.titled, h.nodup, fun hnone => h.idle (Option.map_eq_none_iff.1 hnone), fun c hc => ?_⟩
  obtain ⟨c, hclient, rfl⟩ := Option.map_eq_some_iff.1 hc
  rcases h.client c hclient with ⟨e, hphase⟩ | ⟨existing, hbacks⟩
  · exact .inl ⟨e, (foldl_returned (c := s.call) [m] hphase).1⟩
  · exact (hbacks.step hm).goOn _

theorem Honest.recv (h : Honest s) (failed : Option Status) : Honest (s.recv failed) := by
  unfold UploadSession.recv
  rcases hclient : s.client with _ | c
  · exact h
  have hcounts := h.client c hclient
  rw [Option.map_some]
  split
  · rename_i status hphase
    refine ⟨h.titled, h.nodup, by simp [UploadSession.move, hclient], fun c' hc => ?_⟩
    obtain rfl : s.call.step c (.recv (.error status)) = c' := by
      simpa [UploadSession.move, hclient] using hc
    refine .inl ⟨.status status, ?_⟩
    simp only [UploadCall.step, Option.some.inj hphase, UploadState.returning]
  · rename_i ack acks hphase hacks
    refine ⟨h.titled, h.nodup, by simp [UploadSession.move, hclient], fun c' hc => ?_⟩
    obtain rfl : s.call.step c (.recv (.ok ack)) = c' := by
      simpa [UploadSession.move, hclient] using hc
    have hreceiving := Option.some.inj hphase
    rcases hcounts with ⟨e, hreturned⟩ | ⟨existing, hbacks⟩
    · rw [hreturned] at hreceiving
      cases hreceiving
    · have hstep : s.call.step c (.recv (.ok ack)) = c.count ack := by
        simp only [UploadCall.step, hreceiving]
      rw [hstep]
      exact (hbacks.count hacks hreceiving).goOn _
  · exact h

theorem Honest.serve (h : Honest s) (stream : Option ℕ)
    (openFaults faults : List (Fault AnyError)) :
    Honest (s.serve blake3 stream openFaults faults) := by
  unfold UploadSession.serve
  rcases hclient : s.client with _ | c
  · exact h
  rw [Option.bind_some]
  rcases hchunk : c.sent[s.taken]? with _ | chunk
  · exact h
  dsimp only
  split_ifs with htakes
  swap
  · exact h
  obtain ⟨a, hstep⟩ := @receive_eq_step blake3 s.origin stream chunk openFaults faults
  have hon : Onward blake3 s.origin (s.origin.receive blake3 stream chunk openFaults faults) :=
    hstep ▸ onward_step s.origin a
  refine ⟨hon.titled h.titled, h.nodup, by simp, fun c' hc => ?_⟩
  obtain rfl := Option.some.inj hc
  exact Counts.goOn ((h.client c hclient).imp id fun ⟨existing, hbacks⟩ =>
    ⟨existing, hbacks.serve h.titled hchunk htakes openFaults faults⟩) _

theorem Honest.step (h : Honest s) (m : SessionMove) : Honest (s.step blake3 m) := by
  cases m with
  | query openFaults faults lost died => exact h.query openFaults faults lost died
  | read => exact h.move (by simp)
  | opened refused => exact h.move (by simp)
  | serve stream openFaults faults => exact h.serve stream openFaults faults
  | recv failed => exact h.recv failed
  | ended =>
    unfold UploadSession.step
    dsimp only
    split_ifs
    · exact h.move (by simp)
    · exact h
  | other a =>
    have hon : Onward blake3 s.origin (s.origin.step blake3 a) := onward_step s.origin a
    exact ⟨hon.titled h.titled, h.nodup, h.idle, fun c hc =>
      (h.client c hc).onward h.titled hon⟩

theorem Honest.run (h : Honest s) (moves : List SessionMove) : Honest (s.run blake3 moves) :=
  List.foldlRecOn moves _ h fun _ h m _ => h.step m

/-- A step of the session is a step of the origin, or leaves it as it is. -/
theorem origin_step (s : UploadSession) (m : SessionMove) :
    (s.step blake3 m).origin = s.origin
      ∨ ∃ a, (s.step blake3 m).origin = s.origin.step blake3 a := by
  cases m with
  | query openFaults faults lost died =>
    unfold UploadSession.step UploadSession.query
    dsimp only
    split
    · exact .inl rfl
    · exact .inl rfl
    · exact .inr ⟨.query s.call.gameId (s.call.hashes.map (·.bytes)) openFaults faults, rfl⟩
  | serve stream openFaults faults =>
    unfold UploadSession.step UploadSession.serve
    dsimp only
    split
    · exact .inl rfl
    · split_ifs
      · exact .inr (receive_eq_step s.origin stream _ openFaults faults)
      · exact .inl rfl
  | recv failed =>
    unfold UploadSession.step UploadSession.recv
    dsimp only
    split <;> exact .inl rfl
  | ended =>
    unfold UploadSession.step
    dsimp only
    split_ifs <;> exact .inl rfl
  | other a => exact .inr ⟨a, rfl⟩
  | _ => exact .inl rfl

theorem UploadSession.FitRun.now {moves : List SessionMove} (h : s.FitRun blake3 moves) :
    s.origin.PacksFit := by
  cases moves with
  | nil => exact h
  | cons m moves => exact h.1

theorem stocked_sessionRun : ∀ (moves : List SessionMove) {s : UploadSession} {G : UInt64 → Places},
    Stocked blake3 s.origin G → s.FitRun blake3 moves →
      ∃ G', Stocked blake3 (s.run blake3 moves).origin G'
  | [], _, G, h, _ => ⟨G, h⟩
  | m :: moves, s, G, h, hfit => by
    have hafter := hfit.2.now
    obtain ⟨G', h'⟩ : ∃ G', Stocked blake3 (s.step blake3 m).origin G' := by
      rcases @origin_step blake3 s m with heq | ⟨a, heq⟩ <;> rw [heq] at hafter ⊢
      · exact ⟨G, h⟩
      · exact h.act a hfit.1 hafter
    exact stocked_sessionRun moves h' hfit.2

end Steps

section Delivers

variable {s : UploadSession} {c : UploadState} {existing : List Hash} {g : UInt64}

/-- A summary counts different chunks, each in the index. -/
theorem Backs.held (h : Backs s c existing) (hnodup : s.call.hashes.Nodup) :
    ∃ held : List Hash, held.Nodup ∧ held ⊆ s.call.hashes
      ∧ held.length = c.summary.skipped + c.summary.uploaded
      ∧ ∀ hash ∈ held, (s.origin.games s.call.gameId).knows s.call.gameId hash = true := by
  have hacked : ((c.acks.filter (·.ok)).map (·.chunkHash)).Sublist
      ((s.call.missing (existing.map (·.bytes))).map (·.bytes)) := by
    have hcounted := ((List.sublist_append_left c.acks s.acks).filter (·.ok)).map (·.chunkHash)
    have hsent := (List.take_sublist s.taken c.sent).map (·.chunkHash)
    exact (hcounted.trans h.once).trans (hsent.trans ((List.sublist_append_left _ _).trans h.order))
  obtain ⟨uploaded, hsub, heq⟩ := List.sublist_map_iff.1 hacked
  have hmissing : ∀ hash ∈ uploaded, hash ∈ s.call.hashes ∧ hash ∉ existing := fun hash hmem => by
    obtain ⟨hin, hnot⟩ := mem_missing.1 (hsub.subset hmem)
    exact ⟨hin, fun hfound => hnot (List.mem_map_of_mem hfound)⟩
  refine ⟨existing ++ uploaded, ?_, ?_, ?_, fun hash hmem => ?_⟩
  · refine List.Nodup.append (h.among.nodup hnodup)
      ((hsub.trans List.filter_sublist).nodup hnodup) ?_
    exact fun hash hfound hmem => (hmissing hash hmem).2 hfound
  · exact List.append_subset.2 ⟨h.among.subset, fun hash hmem => (hmissing hash hmem).1⟩
  · have hlen := congrArg List.length heq
    rw [List.length_map, List.length_map] at hlen
    rw [List.length_append, h.skipped, h.uploaded, hlen]
  · rcases List.mem_append.1 hmem with hmem | hmem
    · exact h.found hash hmem
    · have hbytes := List.mem_map_of_mem (f := (·.bytes)) hmem
      rw [← heq] at hbytes
      obtain ⟨ack, hack, hash_eq⟩ := List.mem_map.1 hbytes
      obtain ⟨hin, hok⟩ := List.mem_filter.1 hack
      obtain ⟨hash', hbytes', hknows⟩ := h.stored ack (List.mem_append_left _ hin) hok
      rwa [hash_bytes_injective (hbytes'.trans hash_eq)] at hknows

/-- What is in the index of a game is held there from then on. -/
theorem Stocked.keepsHolding {G : UInt64 → Places} (h : Stocked blake3 o G) (ht : Titled o)
    {hash : Hash} (hknows : (o.games g).knows g hash = true) : o.KeepsHolding blake3 g hash := by
  intro later hfit
  obtain ⟨G', h'⟩ := h.run later hfit
  have hlater := (@onward_run blake3 later o).knows ht hknows
  rw [(h'.laid g).knows] at hlater
  exact (h'.laid g).holds (h'.verified g) hlater

/-- Without faults a store opens, and nothing else changes. -/
theorem openGame_setGame (o : Origin) (n : UInt64) :
    ∃ store, o.openGame n [] = (o.setGame n (.opened store), .ok store) := by
  unfold Origin.openGame
  rcases hg : o.games n with dir | store
  · dsimp only
    rw [run_nil, exec_openStore]
    exact ⟨_, rfl⟩
  · have hsame : o.setGame n (.opened store) = o := by
      rw [Origin.setGame, ← hg, Function.update_eq_self]
    exact ⟨store, by rw [hsame]⟩

/-- A commit is accepted whose chunks are all in the index. -/
theorem accepts_of_knows (ht : Titled o) {req : CommitRequest} {index : GameIndex}
    (hcheck : checkCommit blake3 req = .ok index)
    (hall : ∀ hash ∈ index.chunkSet, (o.games req.gameId).knows req.gameId hash = true) :
    o.Accepts blake3 req := by
  intro order
  obtain ⟨store, hopen⟩ := openGame_setGame o req.gameId
  have hset := (openGame_settled o req.gameId []).1
  have htitled := (onward_openGame blake3 o req.gameId []).titled ht
  rw [hopen] at hset htitled
  have hgame : (o.setGame req.gameId (.opened store)).games req.gameId = .opened store := by
    simp [Origin.setGame]
  have hindex := hset.indexOf req.gameId
  rw [Origin.indexOf, hgame] at hindex
  rw [commit_stored blake3 o order hcheck hopen fun hash hmem => by
    rw [htitled.stores req.gameId store hgame]
    exact (congrArg (fun t : Index => (t[key req.gameId hash]?).isSome) hindex).trans
      (hall hash hmem)]
  dsimp only
  have hscheduler : (o.setGame req.gameId (.opened store)).scheduler = o.scheduler := rfl
  rw [hscheduler]
  split_ifs
  · exact ⟨by simp [Origin.wrote], rfl⟩
  · exact ⟨by simp [Origin.wrote, Origin.answer], rfl⟩

/-- Whatever interleaves with an upload at the origin, whatever is lost and whatever faults there
are: its summary counts different chunks that the origin has and keeps, and if it counts all of them
then every version that refers to them only is accepted. -/
theorem session_delivers (blake3 : Bytes → Hash) (scheduler : Bool) (call : UploadCall)
    (moves : List SessionMove) (hnodup : call.hashes.Nodup)
    (hfit : (UploadSession.begin (.init scheduler) call).FitRun blake3 moves)
    (summary : UploadSummary)
    (hreturns : ((UploadSession.begin (.init scheduler) call).run blake3 moves).Returns summary) :
    ((UploadSession.begin (.init scheduler) call).run blake3 moves).Delivers blake3 summary := by
  obtain ⟨G, hstocked⟩ := stocked_sessionRun moves (stocked_init scheduler) hfit
  have hhonest := @Honest.run blake3 _ (honest_begin scheduler hnodup) moves
  generalize (UploadSession.begin (.init scheduler) call).run blake3 moves = s at *
  obtain ⟨c, hclient, hphase⟩ := Option.map_eq_some_iff.1 hreturns
  obtain ⟨existing, hbacks⟩ : ∃ existing, Backs s c existing := by
    refine (hhonest.client c hclient).resolve_left ?_
    rintro ⟨e, herror⟩
    rw [hphase] at herror
    cases herror
  obtain rfl := hbacks.returned summary hphase
  obtain ⟨held, hdistinct, hsub, hlen, hknows⟩ := hbacks.held hhonest.nodup
  refine ⟨⟨held, hdistinct, hsub, hlen, fun hash hmem =>
    hstocked.keepsHolding hhonest.titled (hknows hash hmem)⟩, ?_⟩
  intro hall later req index hcheck hgame hchunks
  have hperm : held.Perm s.call.hashes :=
    (hdistinct.subperm hsub).perm_of_length_le (by omega)
  have hlater := @onward_run blake3 later s.origin
  refine accepts_of_knows (hlater.titled hhonest.titled) hcheck fun hash hmem => ?_
  rw [hgame]
  exact hlater.knows hhonest.titled (hknows hash (hperm.symm.subset (hchunks hmem)))

/-- The chunk is looked up, uploaded and acked. -/
def uploadMoves : List SessionMove := [.query [] [] none ⟨.internal, ""⟩, .opened none, .read,
  .serve none [] [], .recv none, .ended]

/-- The origin once the query is answered. -/
def queried₁ : Origin := (Origin.init true).setGame 7 (.opened (opened₀ 7))

theorem query_queried :
    UploadSession.query (.begin (.init true) oneStaged) [] [] none ⟨.internal, ""⟩
    = ⟨queried₁, oneStaged, some ⟨[(.fill 1, 0)], [], [], ⟨0, 0, []⟩, [], .opening⟩, 0, []⟩ := by
  have ho : (Origin.init true).openGame 7 [] = (queried₁, .ok (opened₀ 7)) := rfl
  have hr : (existingChunks [(Hash.fill 1).bytes]).run.run ⟨opened₀ 7, []⟩
      = (.ok (.ok []), ⟨opened₀ 7, []⟩) := rfl
  have hexisting : (Origin.init true).existing 7 [(Hash.fill 1).bytes] [] [] = some (.ok []) := by
    rw [Origin.existing, if_neg (by decide), ho]
    dsimp only
    rw [hr]
    rfl
  have hreply : UploadSession.replyOf (.begin (.init true) oneStaged) [] [] none ⟨.internal, ""⟩
      = .ok [] := by
    simp only [UploadSession.replyOf, UploadSession.begin, oneStaged, List.map_cons, List.map_nil,
      hexisting]
  have hquery : (Origin.init true).queryExisting 7 [(Hash.fill 1).bytes] [] [] = queried₁ := by
    rw [Origin.queryExisting, if_neg (by decide), ho]
    dsimp only
    rw [hr]
    simp [queried₁, Origin.setGame]
  have hstart : oneStaged.start = ⟨[(.fill 1, 0)], [], [], ⟨0, 0, []⟩, [], .opening⟩ := rfl
  unfold UploadSession.query
  rw [hreply]
  simp only [UploadSession.begin, oneStaged, List.map_cons, List.map_nil, hquery,
    UploadCall.attachToken]
  exact congrArg (fun c => UploadSession.mk queried₁ oneStaged (some c) 0 []) hstart

theorem receive_uploaded : queried₁.receive lengthHash none ⟨7, (Hash.fill 1).bytes, [5], 0⟩ [] []
    = uploaded₁ := by
  have ho : queried₁.openGame 7 [] = (queried₁, .ok (opened₀ 7)) := rfl
  unfold Origin.receive Origin.firstChunk
  dsimp only
  rw [if_neg (by decide), ho]
  dsimp only
  unfold Origin.message
  rw [processChunk_five (by rfl)]
  simp [uploaded₁, queried₁, Origin.setGame, Origin.init]

theorem ackOf_queried : queried₁.ackOf lengthHash none ⟨7, (Hash.fill 1).bytes, [5], 0⟩ [] []
    = some (7, ⟨(Hash.fill 1).bytes, true, ""⟩) := by
  have ho : queried₁.openGame 7 [] = (queried₁, .ok (opened₀ 7)) := rfl
  simp only [Origin.ackOf, ho, OpenStore.ack,
    processChunk_five (show lengthHash [5] = .fill 1 by rfl)]
  rfl

theorem move_sent : UploadSession.move (.move ⟨queried₁, oneStaged, some ⟨[(.fill 1, 0)], [], [],
      ⟨0, 0, []⟩, [], .opening⟩, 0, []⟩ (.opened none)) .read
    = ⟨queried₁, oneStaged, some ⟨[], [⟨7, (Hash.fill 1).bytes, [5], 0⟩], [], ⟨0, 0, []⟩, [],
      .receiving⟩, 0, []⟩ := rfl

theorem serve_uploaded : UploadSession.serve lengthHash ⟨queried₁, oneStaged, some ⟨[],
      [⟨7, (Hash.fill 1).bytes, [5], 0⟩], [], ⟨0, 0, []⟩, [], .receiving⟩, 0, []⟩ none [] []
    = ⟨uploaded₁, oneStaged, some ⟨[], [⟨7, (Hash.fill 1).bytes, [5], 0⟩], [], ⟨0, 0, []⟩, [],
      .receiving⟩, 1, [⟨(Hash.fill 1).bytes, true, ""⟩]⟩ := by
  simp only [UploadSession.serve, Option.bind_some, List.getElem?_cons_zero, UploadSession.takes,
    decide_true, if_true, receive_uploaded, ackOf_queried, Option.map_some, Option.toList_some,
    List.nil_append]

theorem run_uploadMoves : (UploadSession.begin (.init true) oneStaged).run lengthHash uploadMoves
    = ⟨uploaded₁, oneStaged, some ⟨[], [⟨7, (Hash.fill 1).bytes, [5], 0⟩], [], ⟨1, 0, []⟩,
      [⟨(Hash.fill 1).bytes, true, ""⟩], .returned (.ok ⟨1, 0, []⟩)⟩, 1, []⟩ := by
  simp only [UploadSession.run, uploadMoves, List.foldl_cons, List.foldl_nil, UploadSession.step,
    query_queried, move_sent, serve_uploaded]
  rfl

theorem fitRun_uploadMoves :
    (UploadSession.begin (.init true) oneStaged).FitRun lengthHash uploadMoves := by
  have hinit : (Origin.init true).PacksFit := fun _ => by simp [Origin.init, StoreSys.dir]
  have hqueried : queried₁.PacksFit := by
    intro n
    rcases eq_or_ne n 7 with rfl | hne
    · decide
    · simp [queried₁, Origin.setGame, Origin.init, Function.update_of_ne hne, StoreSys.dir]
  simp only [UploadSession.FitRun, uploadMoves, UploadSession.step, query_queried, move_sent,
    serve_uploaded]
  exact ⟨hinit, hqueried, hqueried, hqueried, uploaded₁_packsFit, uploaded₁_packsFit,
    uploaded₁_packsFit⟩

/-- The upload of the one chunk of `index₁`, whose commit is accepted after a restart. -/
theorem session_delivers_one :
    uploaded₁.restart.Accepts lengthHash commit₁ := by
  have hreturns : ((UploadSession.begin (.init true) oneStaged).run lengthHash uploadMoves).Returns
      ⟨1, 0, []⟩ := by
    rw [run_uploadMoves]
    rfl
  have h := (session_delivers lengthHash true oneStaged uploadMoves
    (by decide) fitRun_uploadMoves ⟨1, 0, []⟩
    hreturns).accepted
  rw [run_uploadMoves] at h
  exact h (by decide) [.restart] commit₁ index₁ checkCommit_commit₁ rfl (by decide)

end Delivers

end BlazeNet

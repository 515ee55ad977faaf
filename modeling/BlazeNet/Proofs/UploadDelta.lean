import BlazeNet.UploadDelta
import BlazeNet.Proofs.Fetch

/-!
# What a summary accounts for

The loop takes every ack that comes, and the end of the acks for the end of the upload. So a call
returns a summary whenever the acks end without an error (`ends_of_returned`, `returned_of_ends`),
and the summary accounts for every chunk just where those acks were one for each.
-/

namespace BlazeNet

open Wire FaultIo Io RustStd

variable {c : UploadCall} {s : UploadState} {moves : List UploadMove} {acks : List UploadAck}
  {summary : UploadSummary}

section Steps

/-- Whether the stream of acks is open, where the call still waits. -/
def UploadState.Waits (s : UploadState) (opened : Bool) : Prop :=
  s.phase = if opened then .receiving else .opening

theorem phase_read (c : UploadCall) (s : UploadState) : (c.read s).phase = s.phase := by
  unfold UploadCall.read
  split
  · rfl
  · split <;> rfl

theorem acks_read (c : UploadCall) (s : UploadState) : (c.read s).acks = s.acks := by
  unfold UploadCall.read
  split
  · rfl
  · split <;> rfl

theorem summary_read (c : UploadCall) (s : UploadState) : (c.read s).summary = s.summary := by
  unfold UploadCall.read
  split
  · rfl
  · split <;> rfl

/-- A call that has returned takes no more acks. -/
theorem foldl_returned {result : Except UploadError UploadSummary} :
    ∀ (moves : List UploadMove) {s : UploadState}, s.phase = .returned result →
      (moves.foldl c.step s).phase = .returned result ∧ (moves.foldl c.step s).acks = s.acks
  | [], _, h => ⟨h, rfl⟩
  | m :: moves, s, h => by
    have hstep : (c.step s m).phase = .returned result ∧ (c.step s m).acks = s.acks := by
      cases m with
      | read => exact ⟨(phase_read c s).trans h, acks_read c s⟩
      | _ => simp [UploadCall.step, h]
    obtain ⟨hphase, hacks⟩ := foldl_returned moves hstep.1
    exact ⟨hphase, hacks.trans hstep.2⟩

/-- The acks end without an error, and what is read by then can be read. -/
structure AcksEnd (c : UploadCall) (s : UploadState) (opened : Bool) (moves : List UploadMove)
    (acks : List UploadAck) : Prop where
  stream : acksUntilEnd opened moves = some acks
  failures : s.failures = []
  reads : ∀ e ∈ s.unread.take (readsUntilEnd opened moves), (c.content e.1).isSome

theorem ends_read {opened : Bool} :
    AcksEnd c s opened (.read :: moves) acks ↔ AcksEnd c (c.read s) opened moves acks := by
  have hstream : acksUntilEnd opened (.read :: moves) = acksUntilEnd opened moves := by
    cases opened <;> rfl
  have hreads : readsUntilEnd opened (.read :: moves) = readsUntilEnd opened moves + 1 := by
    cases opened <;> rfl
  rcases s with ⟨_ | ⟨⟨hash, seq⟩, rest⟩, sent, failures, summary, taken, phase⟩
  · constructor
    · rintro ⟨h, hf, -⟩
      exact ⟨hstream ▸ h, hf, by simp [UploadCall.read]⟩
    · rintro ⟨h, hf, -⟩
      exact ⟨hstream.trans h, hf, by simp⟩
  · rcases hdata : c.content hash with _ | data
    · -- the task goes on after a chunk it cannot read, but the call fails in the end
      constructor
      · rintro ⟨-, -, hr⟩
        have := hr (hash, seq) (by rw [hreads]; simp)
        simp [hdata] at this
      · rintro ⟨-, hf, -⟩
        simp [UploadCall.read, hdata] at hf
    · constructor
      · rintro ⟨h, hf, hr⟩
        rw [hreads] at hr
        refine ⟨hstream ▸ h, by simpa [UploadCall.read, hdata] using hf, fun e he => hr e ?_⟩
        simp only [UploadCall.read, hdata] at he
        exact List.mem_cons_of_mem _ he
      · rintro ⟨h, hf, hr⟩
        simp only [UploadCall.read, hdata] at hf hr
        refine ⟨hstream.trans h, hf, fun e he => ?_⟩
        rw [hreads] at he
        rcases List.mem_cons.mp he with rfl | he
        · exact hdata ▸ rfl
        · exact hr e he

/-- What a call has counted, once it has returned a summary. -/
structure Counted (s s' : UploadState) (acks : List UploadAck) (summary : UploadSummary) :
    Prop where
  returned : s'.phase = .returned (.ok summary)
  taken : s'.acks = s.acks ++ acks
  skipped : summary.skipped = s.summary.skipped
  counts : summary.uploaded + summary.failed.length
    = s.summary.uploaded + s.summary.failed.length + acks.length

/-- An ack that can be counted is. -/
theorem count_readable {ack : UploadAck} (h : ack.Readable) :
    (s.count ack).phase = s.phase ∧ (s.count ack).acks = s.acks ++ [ack]
      ∧ (s.count ack).unread = s.unread ∧ (s.count ack).failures = s.failures
      ∧ (s.count ack).summary.skipped = s.summary.skipped
      ∧ (s.count ack).summary.uploaded + (s.count ack).summary.failed.length
        = s.summary.uploaded + s.summary.failed.length + 1 := by
  by_cases hok : ack.ok
  · have hcount : s.count ack = { s with
        acks := s.acks ++ [ack]
        summary := { s.summary with uploaded := s.summary.uploaded + 1 } } := by
      simp [UploadState.count, hok]
    rw [hcount]
    exact ⟨rfl, rfl, rfl, rfl, rfl, Nat.add_right_comm _ _ _⟩
  · rcases hhash : Hash.ofBytes? ack.chunkHash with _ | hash
    · simp [UploadAck.Readable, hok, hhash] at h
    · have hcount : s.count ack = { s with
          acks := s.acks ++ [ack]
          summary := { s.summary with failed := s.summary.failed ++ [hash] } } := by
        simp [UploadState.count, hok, hhash]
      rw [hcount]
      exact ⟨rfl, rfl, rfl, rfl, rfl, by simp [Nat.add_assoc]⟩

theorem count_unreadable {ack : UploadAck} (h : ¬ ack.Readable) :
    (s.count ack).phase = .returned (.error (.panicked "服务端返回 32 字节哈希")) := by
  have h' : ack.ok = false ∧ Hash.ofBytes? ack.chunkHash = none := by
    simpa [UploadAck.Readable] using h
  simp [UploadState.count, h'.1, h'.2, UploadState.returning]

/-- What a move does to a call that waits, and to what its stream gives. -/
inductive Turn (c : UploadCall) (s : UploadState) : Bool → UploadMove → Prop
  | skips {opened : Bool} {m : UploadMove} (step : c.step s m = s)
    (stream : ∀ moves, acksUntilEnd opened (m :: moves) = acksUntilEnd opened moves)
    (reads : ∀ moves, readsUntilEnd opened (m :: moves) = readsUntilEnd opened moves) :
    Turn c s opened m
  | reads {opened : Bool} : Turn c s opened .read
  | opens (step : c.step s (.opened none) = { s with phase := .receiving }) :
    Turn c s false (.opened none)
  | fails {opened : Bool} {m : UploadMove} (e : UploadError)
    (step : (c.step s m).phase = .returned (.error e))
    (stream : ∀ moves, acksUntilEnd opened (m :: moves) = none) : Turn c s opened m
  | counts (ack : UploadAck) (readable : ack.Readable)
    (step : c.step s (.recv (.ok ack)) = s.count ack) : Turn c s true (.recv (.ok ack))
  | ends (step : c.step s .ended = s.returning s.finish) : Turn c s true .ended

theorem turn_of_waits {opened : Bool} (h : s.Waits opened) (m : UploadMove) :
    Turn c s opened m := by
  cases opened with
  | false =>
    have hphase : s.phase = .opening := h
    cases m with
    | read => exact .reads
    | opened refused =>
      cases refused with
      | none => exact .opens (by simp [UploadCall.step, hphase])
      | some status =>
        refine .fails (.status status) ?_ fun _ => rfl
        simp [UploadCall.step, hphase, UploadState.returning]
    | recv item => exact .skips (by simp [UploadCall.step, hphase]) (fun _ => rfl) fun _ => rfl
    | ended => exact .skips (by simp [UploadCall.step, hphase]) (fun _ => rfl) fun _ => rfl
  | true =>
    have hphase : s.phase = .receiving := h
    cases m with
    | read => exact .reads
    | opened refused =>
      refine .skips (by simp [UploadCall.step, hphase]) (fun _ => ?_) fun _ => rfl
      cases refused <;> rfl
    | recv item =>
      cases item with
      | error status =>
        refine .fails (.status status) ?_ fun _ => rfl
        simp [UploadCall.step, hphase, UploadState.returning]
      | ok ack =>
        have hstep : c.step s (.recv (.ok ack)) = s.count ack := by
          simp [UploadCall.step, hphase]
        by_cases hread : ack.Readable
        · exact .counts ack hread hstep
        · refine .fails _ (hstep ▸ count_unreadable hread) fun _ => ?_
          simp [acksUntilEnd, hread]
    | ended => exact .ends (by simp [UploadCall.step, hphase])

end Steps

section Runs

/-- Where the acks end without an error the call returns a summary of them. -/
theorem returned_of_ends {opened : Bool} (hs : s.Waits opened) (h : AcksEnd c s opened moves acks) :
    ∃ summary, Counted s (moves.foldl c.step s) acks summary := by
  induction moves generalizing s opened acks with
  | nil =>
    have := h.stream
    cases opened <;> simp [acksUntilEnd] at this
  | cons m moves ih =>
    rw [List.foldl_cons]
    cases turn_of_waits (c := c) hs m with
    | skips hstep hstream hreads =>
      rw [hstep]
      exact ih hs ⟨hstream moves ▸ h.stream, h.failures, hreads moves ▸ h.reads⟩
    | reads =>
      obtain ⟨summary, hc⟩ := ih ((phase_read c s).trans hs) (ends_read.mp h)
      have hsummary := summary_read c s
      exact ⟨summary, hc.returned, acks_read c s ▸ hc.taken, hsummary ▸ hc.skipped,
        hsummary ▸ hc.counts⟩
    | opens hstep =>
      have hs' : ({ s with phase := .receiving } : UploadState).Waits true := rfl
      obtain ⟨summary, hc⟩ := ih hs' ⟨h.stream, h.failures, h.reads⟩
      rw [hstep]
      exact ⟨summary, hc.returned, hc.taken, hc.skipped, hc.counts⟩
    | fails e hstep hstream => exact absurd h.stream (by simp [hstream moves])
    | counts ack hread hstep =>
      have hstream := h.stream
      rw [acksUntilEnd, if_pos hread] at hstream
      obtain ⟨acks, hrest, rfl⟩ := Option.map_eq_some_iff.mp hstream
      obtain ⟨hp, ha, hu, hf, hk, hn⟩ := count_readable (s := s) hread
      have hs' : (s.count ack).Waits true := hp.trans hs
      obtain ⟨summary, hc⟩ := ih hs' ⟨hrest, hf.trans h.failures, hu ▸ h.reads⟩
      rw [hstep]
      refine ⟨summary, hc.returned, ?_, hc.skipped.trans hk, ?_⟩
      · rw [hc.taken, ha, List.append_assoc, List.singleton_append]
      · rw [hc.counts, hn, List.length_cons]
        omega
    | ends hstep =>
      have hacks : acks = [] := (Option.some.inj h.stream).symm
      have hfinish : s.finish = .ok s.summary := by simp [UploadState.finish, h.failures]
      obtain ⟨hp, ha⟩ := foldl_returned (c := c) moves (s := s.returning (.ok s.summary)) rfl
      rw [hstep, hfinish, hacks]
      exact ⟨s.summary, hp, ha.trans (List.append_nil _).symm, rfl, rfl⟩

/-- A call returns a summary only there. -/
theorem ends_of_returned {opened : Bool} (hs : s.Waits opened)
    (h : (moves.foldl c.step s).phase = .returned (.ok summary)) :
    ∃ acks, AcksEnd c s opened moves acks := by
  induction moves generalizing s opened with
  | nil =>
    have hphase : s.phase = if opened then .receiving else .opening := hs
    rw [List.foldl_nil, hphase] at h
    cases opened <;> cases h
  | cons m moves ih =>
    rw [List.foldl_cons] at h
    cases turn_of_waits (c := c) hs m with
    | skips hstep hstream hreads =>
      obtain ⟨acks, he⟩ := ih hs (hstep ▸ h)
      exact ⟨acks, (hstream moves).trans he.stream, he.failures, (hreads moves).symm ▸ he.reads⟩
    | reads =>
      obtain ⟨acks, he⟩ := ih ((phase_read c s).trans hs) h
      exact ⟨acks, ends_read.mpr he⟩
    | opens hstep =>
      have hs' : ({ s with phase := .receiving } : UploadState).Waits true := rfl
      obtain ⟨acks, he⟩ := ih hs' (hstep ▸ h)
      exact ⟨acks, he.stream, he.failures, he.reads⟩
    | fails e hstep hstream =>
      rw [(foldl_returned moves hstep).1] at h
      cases h
    | counts ack hread hstep =>
      obtain ⟨hp, -, hu, hf, -, -⟩ := count_readable (s := s) hread
      have hs' : (s.count ack).Waits true := hp.trans hs
      obtain ⟨acks, he⟩ := ih hs' (hstep ▸ h)
      refine ⟨ack :: acks, ?_, hf ▸ he.failures, hu ▸ he.reads⟩
      rw [acksUntilEnd, if_pos hread, he.stream, Option.map_some]
    | ends hstep =>
      rw [hstep, (foldl_returned moves rfl).1] at h
      refine ⟨[], rfl, ?_, by simp [readsUntilEnd]⟩
      rcases hf : s.failures with _ | ⟨hash, rest⟩
      · rfl
      · simp [UploadState.finish, hf] at h

end Runs

section Start

theorem hash_bytes_injective : Function.Injective Hash.bytes := by
  rintro ⟨a, ha⟩ ⟨b, hb⟩ rfl
  rfl

theorem mapM_hashOfReply (existing : List Hash) :
    (existing.map (·.bytes)).mapM UploadCall.hashOfReply = .ok existing := by
  induction existing with
  | nil => rfl
  | cons hash existing ih =>
    rw [List.map_cons, List.mapM_cons, ih, UploadCall.hashOfReply, ofBytes?_bytes]
    rfl

/-- The client finds missing what the answer does not hold. -/
theorem filter_contains (c : UploadCall) (existing : List Hash) :
    (c.hashes.filter fun hash => !existing.contains hash)
      = c.missing (existing.map (·.bytes)) := by
  refine List.filter_congr fun hash _ => ?_
  simp [hash_bytes_injective.eq_iff]

/-- The task and the loop as they stand once the upload is begun. -/
theorem start_begins {reply : List Bytes} (hanswers : c.AnswersSome) (h : c.Begins reply) :
    ∃ existing : List Hash, reply = existing.map (·.bytes) ∧ c.start
      = ⟨(c.missing reply).zipIdx, [], [], ⟨0, existing.length, []⟩, [], .opening⟩ := by
  obtain ⟨existing, rfl, -⟩ := hanswers reply h.answered
  have hquery : c.queryExisting = .ok existing := by
    rw [UploadCall.queryExisting, h.token, h.answered]
    exact mapM_hashOfReply existing
  have hstaged : ((c.missing (existing.map (·.bytes))).find? fun hash => !c.staged hash) = none :=
    List.find?_eq_none.mpr fun hash hmem => by simp [h.staged hash hmem]
  have hneeded := h.needed
  refine ⟨existing, rfl, ?_⟩
  simp only [UploadCall.start, hquery, filter_contains, hstaged, h.token, List.isEmpty_iff]
  rw [if_neg hneeded]

/-- A call that begins no upload has failed, or has nothing to upload. -/
theorem start_not_begins (hanswers : c.AnswersSome) (h : ∀ reply, ¬ c.Begins reply) :
    (∃ e, c.start.phase = .returned (.error e)) ∨ ∃ existing : List Hash,
      c.reply = .ok (existing.map (·.bytes)) ∧ c.missing (existing.map (·.bytes)) = []
        ∧ c.start.phase = .returned (.ok ⟨0, existing.length, []⟩) := by
  rcases htoken : c.attachToken with e | ⟨⟩
  · have hquery : c.queryExisting = .error e := by rw [UploadCall.queryExisting, htoken]; rfl
    exact .inl ⟨e, by simp [UploadCall.start, hquery]⟩
  rcases hreply : c.reply with status | reply
  · have hquery : c.queryExisting = .error (.status status) := by
      rw [UploadCall.queryExisting, htoken, hreply]
      rfl
    exact .inl ⟨.status status, by simp [UploadCall.start, hquery]⟩
  obtain ⟨existing, rfl, -⟩ := hanswers reply hreply
  have hquery : c.queryExisting = .ok existing := by
    rw [UploadCall.queryExisting, htoken, hreply]
    exact mapM_hashOfReply existing
  have hstart := filter_contains c existing
  by_cases hneeded : c.missing (existing.map (·.bytes)) = []
  · refine .inr ⟨existing, rfl, hneeded, ?_⟩
    simp only [UploadCall.start, hquery, hstart, hneeded, List.isEmpty_nil, if_true]
  · rcases hstaged : (c.missing (existing.map (·.bytes))).find? fun hash => !c.staged hash
      with _ | hash
    · refine absurd ⟨htoken, hreply, hneeded, fun hash hmem => ?_⟩ (h (existing.map (·.bytes)))
      simpa using List.find?_eq_none.mp hstaged hash hmem
    · refine .inl ⟨.msg s!"暂存块缺失: {c.stagePath hash}", ?_⟩
      simp only [UploadCall.start, hquery, hstart, hstaged, List.isEmpty_iff]
      rw [if_neg hneeded]

end Start

section Accounts

/-- With the chunks the server has, those missing make up all of them. -/
theorem length_existing_missing {existing : List Hash} (hnodup : c.hashes.Nodup)
    (hexisting : existing.Nodup) (hsub : ∀ hash ∈ existing, hash ∈ c.hashes) :
    existing.length + (c.missing (existing.map (·.bytes))).length = c.hashes.length := by
  have hperm : existing.Perm (c.hashes.filter fun hash => existing.contains hash) := by
    refine (List.perm_ext_iff_of_nodup hexisting (hnodup.filter _)).mpr fun hash => ?_
    simp only [List.mem_filter, List.contains_iff_mem]
    exact ⟨fun h => ⟨hsub hash h, h⟩, And.right⟩
  rw [← filter_contains, hperm.length_eq]
  exact (List.length_eq_length_filter_add _).symm

theorem mem_missing {reply : List Bytes} {hash : Hash} :
    hash ∈ c.missing reply ↔ hash ∈ c.hashes ∧ hash.bytes ∉ reply := by
  simp [UploadCall.missing]

/-- The task reads the missing chunks in their order. -/
theorem reads_zipIdx (c : UploadCall) (missing : List Hash) (n : ℕ) :
    (∀ e ∈ missing.zipIdx.take n, (c.content e.1).isSome)
      ↔ ∀ hash ∈ missing.take n, (c.content hash).isSome := by
  have hmap : (missing.zipIdx.take n).map Prod.fst = missing.take n := by
    rw [List.map_take, List.zipIdx_map_fst]
  rw [← hmap]
  simp only [List.mem_map, forall_exists_index, and_imp, forall_apply_eq_imp_iff₂]

/-- A summary of `acks` accounts for every chunk if and only if they are one for each missing. -/
theorem counted_iff_perm {existing : List Hash} (hnodup : c.hashes.Nodup)
    (hexisting : existing.Nodup) (hsub : ∀ hash ∈ existing, hash ∈ c.hashes)
    (hreply : c.reply = .ok (existing.map (·.bytes))) (hskipped : summary.skipped = existing.length)
    (hcounts : summary.uploaded + summary.failed.length = acks.length) :
    ((∀ hash ∈ c.hashes, (∃ reply, c.reply = .ok reply ∧ hash.bytes ∈ reply)
        ∨ ∃ ack ∈ acks, ack.chunkHash = hash.bytes)
      ∧ summary.skipped + summary.uploaded + summary.failed.length = c.hashes.length)
      ↔ (acks.map (·.chunkHash)).Perm ((c.missing (existing.map (·.bytes))).map (·.bytes)) := by
  have hlength := length_existing_missing hnodup hexisting hsub
  constructor
  · rintro ⟨hcover, hsum⟩
    have hmissing : ((c.missing (existing.map (·.bytes))).map (·.bytes)).Nodup :=
      (hnodup.filter _).map hash_bytes_injective
    refine ((hmissing.subperm fun bytes hbytes => ?_).perm_of_length_le ?_).symm
    · obtain ⟨hash, hmem, rfl⟩ := List.mem_map.mp hbytes
      obtain ⟨hhash, hnot⟩ := mem_missing.mp hmem
      rcases hcover hash hhash with ⟨reply, hr, hin⟩ | ⟨ack, hack, heq⟩
      · rw [hreply] at hr
        exact absurd (Except.ok.inj hr ▸ hin) hnot
      · exact List.mem_map.mpr ⟨ack, hack, heq⟩
    · rw [List.length_map, List.length_map]
      omega
  · intro hperm
    refine ⟨fun hash hhash => ?_, ?_⟩
    · by_cases hin : hash.bytes ∈ existing.map (·.bytes)
      · exact .inl ⟨_, hreply, hin⟩
      · have hmem := hperm.symm.subset (List.mem_map_of_mem (mem_missing.mpr ⟨hhash, hin⟩))
        exact .inr (List.mem_map.mp hmem)
    · have := hperm.length_eq
      rw [List.length_map, List.length_map] at this
      omega

theorem accounts_begins {reply : List Bytes} (hnodup : c.hashes.Nodup) (hanswers : c.AnswersSome)
    (hb : c.Begins reply) : c.Accounts moves ↔ c.AckedOnce moves := by
  obtain ⟨existing, rfl, hstart⟩ := start_begins hanswers hb
  obtain ⟨existing', heq, hdistinct, hsub⟩ := hanswers _ hb.answered
  obtain rfl : existing' = existing :=
    List.map_injective_iff.mpr hash_bytes_injective heq.symm
  have hwaits : c.start.Waits false := by rw [hstart]; rfl
  have htaken : ∀ {acks summary}, Counted c.start (c.run moves) acks summary →
      (c.run moves).acks = acks := fun h => h.taken.trans (by rw [hstart]; rfl)
  have hiff : ∀ {acks summary}, Counted c.start (c.run moves) acks summary → _ := fun h =>
    counted_iff_perm hnodup hdistinct hsub hb.answered (h.skipped.trans (by rw [hstart]))
      (h.counts.trans (by rw [hstart]; exact Nat.zero_add _))
  constructor
  · intro haccounts reply hb' acks hacks hreads
    obtain rfl : reply = existing'.map (·.bytes) :=
      Except.ok.inj (hb'.answered.symm.trans hb.answered)
    have hends : AcksEnd c c.start false moves acks := by
      rw [hstart]
      exact ⟨hacks, rfl, (reads_zipIdx c _ _).mpr hreads⟩
    obtain ⟨summary, hcounted⟩ := returned_of_ends hwaits hends
    exact (hiff hcounted).mp (htaken hcounted ▸ haccounts summary hcounted.returned)
  · intro honce summary hreturned
    obtain ⟨acks, hends⟩ := ends_of_returned hwaits hreturned
    obtain ⟨summary', hcounted⟩ := returned_of_ends hwaits hends
    obtain rfl : summary' = summary := by
      simpa using hcounted.returned.symm.trans hreturned
    have hreads := hends.reads
    rw [hstart] at hreads
    rw [htaken hcounted]
    exact (hiff hcounted).mpr (honce _ hb acks hends.stream ((reads_zipIdx c _ _).mp hreads))

/-- A call that has nothing to upload has all its chunks skipped. -/
theorem accounts_not_begins (hnodup : c.hashes.Nodup) (hanswers : c.AnswersSome)
    (h : ∀ reply, ¬ c.Begins reply) : c.Accounts moves := by
  intro summary hreturned
  rcases start_not_begins hanswers h with ⟨e, hphase⟩ | ⟨existing, hreply, hmissing, hphase⟩
  · rw [UploadCall.run, (foldl_returned moves hphase).1] at hreturned
    cases hreturned
  · obtain ⟨existing', heq, hdistinct, hsub⟩ := hanswers _ hreply
    obtain rfl : existing' = existing :=
      List.map_injective_iff.mpr hash_bytes_injective heq.symm
    rw [UploadCall.run, (foldl_returned moves hphase).1] at hreturned
    obtain rfl : ⟨0, existing'.length, []⟩ = summary := by simpa using hreturned
    have hlength := length_existing_missing hnodup hdistinct hsub
    rw [hmissing] at hlength
    refine ⟨fun hash hhash => .inl ⟨_, hreply, ?_⟩, hlength⟩
    by_contra hnot
    have hmem := mem_missing.mpr ⟨hhash, hnot⟩
    rw [hmissing] at hmem
    cases hmem

/-- A call never returns a summary that leaves chunks out if and only if acks that end without an
error are one for each missing chunk. -/
theorem accounts_iff_ackedOnce (c : UploadCall) (moves : List UploadMove) (hnodup : c.hashes.Nodup)
    (hanswers : c.AnswersSome) : c.Accounts moves ↔ c.AckedOnce moves := by
  by_cases hbegins : ∃ reply, c.Begins reply
  · obtain ⟨reply, hb⟩ := hbegins
    exact accounts_begins hnodup hanswers hb
  · have hnot : ∀ reply, ¬ c.Begins reply := fun reply hb => hbegins ⟨reply, hb⟩
    exact ⟨fun _ reply hb => absurd hb (hnot reply),
      fun _ => accounts_not_begins hnodup hanswers hnot⟩

/-- Three staged chunks, of which the server has the second. -/
def threeStaged : UploadCall where
  gameId := 7
  stageDir := "stage"
  hashes := [.fill 1, .fill 2, .fill 3]
  token := none
  tokenOk := fun _ => true
  reply := .ok [(Hash.fill 2).bytes]
  staged := fun _ => true
  content := fun _ => some [5]

/-- The acks of the other two come in another order, and one says that its chunk has failed. -/
def ackedMoves : List UploadMove :=
  [.read, .opened none, .read, .recv (.ok ⟨(Hash.fill 3).bytes, true, ""⟩),
    .recv (.ok ⟨(Hash.fill 1).bytes, false, "full"⟩), .ended]

theorem accounts_iff_ackedOnce_acked : threeStaged.Accounts ackedMoves
    ∧ (threeStaged.run ackedMoves).phase = .returned (.ok ⟨1, 1, [.fill 1]⟩) := by
  refine ⟨(accounts_iff_ackedOnce threeStaged ackedMoves (by decide) ?_).2 ?_, by decide⟩
  · intro reply hreply
    obtain rfl : [(Hash.fill 2).bytes] = reply := Except.ok.inj hreply
    exact ⟨[.fill 2], rfl, List.nodup_singleton _, by decide⟩
  · intro reply hbegins acks hacks _
    obtain rfl : [(Hash.fill 2).bytes] = reply := Except.ok.inj hbegins.answered
    obtain rfl : [⟨(Hash.fill 3).bytes, true, ""⟩, ⟨(Hash.fill 1).bytes, false, "full"⟩] = acks :=
      Option.some.inj hacks
    decide

/-- One staged chunk, which the server does not have. -/
def oneStaged : UploadCall where
  gameId := 7
  stageDir := "stage"
  hashes := [.fill 1]
  token := none
  tokenOk := fun _ => true
  reply := .ok []
  staged := fun _ => true
  content := fun _ => some [5]

/-- The server's stream ends before the first ack, and the call returns a summary all the same. -/
theorem accounts_emptyStream : ¬ ∀ (c : UploadCall) (moves : List UploadMove), c.hashes.Nodup →
    c.AnswersSome → c.Accounts moves := by
  intro h
  have hreturned : (oneStaged.run [.opened none, .read, .ended]).phase
      = .returned (.ok ⟨0, 0, []⟩) := by decide
  have hanswers : oneStaged.AnswersSome := fun reply hreply => by
    obtain rfl : [] = reply := Except.ok.inj hreply
    exact ⟨[], rfl, List.nodup_nil, by simp⟩
  have hsum := (h oneStaged [.opened none, .read, .ended] (by decide) hanswers _ hreturned).2
  cases hsum

end Accounts

end BlazeNet

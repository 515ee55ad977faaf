import BlazeNet.Proofs.Uploads

/-!
# The lengths of a published version

A commit looks up the hashes of its manifest and never the lengths that the manifest declares. What
the store has under a hash is the length of data of that hash (`run_recorded`), so the two agree
where the reference was made from the data.
-/

namespace BlazeNet

open Wire FaultIo Io RustStd GameStore

variable {blake3 : Bytes → Hash} {s s' : Origin}

section Recorded

/-- Every entry of an index has the length of data of its hash. -/
def Recorded (blake3 : Bytes → Hash) (g : UInt64) (t : Index) : Prop :=
  ∀ (hash : Hash) (value : UInt64), t[key g hash]? = some value →
    ∃ data, blake3 data = hash ∧ (unpack value).2 = UInt32.ofNat data.length

theorem inserts_recorded (blake3 : Bytes → Hash) (g : UInt64) :
    Inserts blake3 g (Recorded blake3 g) := by
  intro t hash data offset hdata hrec hash' value hvalue
  rw [lookup_insert] at hvalue
  split_ifs at hvalue with hkey
  · obtain rfl := Option.some.inj hvalue
    exact ⟨data, hdata.trans (key_inj hkey), by rw [unpack_pack]⟩
  · exact hrec hash' value hvalue

theorem run_recorded (blake3 : Bytes → Hash) (scheduler : Bool) (acts : List OriginAct)
    (g : UInt64) :
    Recorded blake3 g (((Origin.init scheduler).run blake3 acts).indexOf g) := by
  refine (onward_run acts _).index (titled_init scheduler) g _ (inserts_recorded blake3 g) ?_
  intro hash value h
  simp [Origin.indexOf, Origin.init, StoreSys.dir] at h

end Recorded

section Found

/-- The manifest decodes, and its chunks are in the index of the game. -/
def Found (blake3 : Bytes → Hash) (s : Origin) (g : UInt64) (manifest : Bytes) : Prop :=
  ∃ index, GameIndex.decode blake3 manifest = .ok index
    ∧ ∀ hash ∈ index.chunkSet, (s.games g).knows g hash = true

/-- The commits that found their chunks, and those that were answered as published, still do. -/
structure Accepted (blake3 : Bytes → Hash) (s : Origin) : Prop where
  commits : ∀ c ∈ s.commits, Found blake3 s c.gameId c.manifest
  replies : ∀ c ∈ s.replies, ∀ error, c.reply = .ok ⟨true, error⟩ →
    Found blake3 s c.gameId c.manifest

theorem Found.onward (h : Onward blake3 s s') (ht : Titled s) {g : UInt64} {manifest : Bytes}
    (hf : Found blake3 s g manifest) : Found blake3 s' g manifest := by
  obtain ⟨index, hdecode, hall⟩ := hf
  exact ⟨index, hdecode, fun hash hh => h.knows ht (hall hash hh)⟩

theorem Accepted.onward (ha : Accepted blake3 s) (ht : Titled s) (h : Onward blake3 s s')
    (hcommits : ∀ c ∈ s'.commits, c ∈ s.commits ∨ Found blake3 s c.gameId c.manifest)
    (hreplies : ∀ c ∈ s'.replies, ∀ error, c.reply = .ok ⟨true, error⟩ →
      c ∈ s.replies ∨ Found blake3 s c.gameId c.manifest) : Accepted blake3 s' where
  commits c hc := ((hcommits c hc).elim (ha.commits c) id).onward h ht
  replies c hc error he :=
    ((hreplies c hc error he).elim (fun h => ha.replies c h error he) id).onward
    h ht

theorem Accepted.unanswered (ha : Accepted blake3 s) (ht : Titled s) (h : Onward blake3 s s')
    (hu : Unanswered s s') : Accepted blake3 s' :=
  ha.onward ht h (fun _ hc => .inl (hu.mem_commits hc)) fun _ hc _ _ => .inl (hu.replies ▸ hc)

theorem unanswered_firstChunk (blake3 : Bytes → Hash) (s : Origin) (g : UInt64)
    (chunkHash data : Bytes) (openFaults faults : List (Fault AnyError)) :
    Unanswered s (s.firstChunk blake3 g chunkHash data openFaults faults) := by
  unfold Origin.firstChunk
  split_ifs
  · exact (Settled.refl s).toUnanswered
  have hset := (openGame_settled s g openFaults).1
  rcases ho : s.openGame g openFaults with ⟨s₁, e | store⟩ <;> rw [ho] at hset
  · exact hset.toUnanswered
  refine hset.toUnanswered.trans (message_unanswered blake3 _ g store chunkHash data faults
    fun r s => ?_)
  rcases r with _ | ack <;> exact ⟨_, rfl⟩

theorem unanswered_nextChunk (blake3 : Bytes → Hash) (s : Origin) (i : ℕ) (chunkHash data : Bytes)
    (faults : List (Fault AnyError)) :
    Unanswered s (s.nextChunk blake3 i chunkHash data faults) := by
  unfold Origin.nextChunk
  rcases s.streams[i]? with _ | stream
  · exact (Settled.refl s).toUnanswered
  dsimp only
  rcases s.games stream.gameId with dir | store
  · exact (Settled.refl s).toUnanswered
  refine message_unanswered blake3 s stream.gameId store chunkHash data faults fun r s => ?_
  rcases r with _ | ack <;> exact ⟨_, rfl⟩

/-- A commit that goes on to publish, or is answered as published, has found all its chunks. -/
theorem commit_found (blake3 : Bytes → Hash) (ht : Titled s) (req : CommitRequest)
    (order : IterOrder Hash)
    (openFaults faults : List (Fault AnyError)) :
    let s' := s.commit blake3 req order openFaults faults
    (∀ c ∈ s'.commits, c ∈ s.commits ∨ Found blake3 s c.gameId c.manifest)
      ∧ ∀ c ∈ s'.replies, ∀ error, c.reply = .ok ⟨true, error⟩ →
        c ∈ s.replies ∨ Found blake3 s c.gameId c.manifest := by
  have hset := (openGame_settled s req.gameId openFaults).1
  have hopened := (openGame_settled s req.gameId openFaults).2
  have htitled := (onward_openGame blake3 s req.gameId openFaults).titled ht
  unfold Origin.commit
  rcases hcheck : checkCommit blake3 req with status | index
  · exact ⟨fun _ => .inl, fun c hc error he => .inl ((List.mem_cons.1 hc).resolve_left
      (by rintro rfl; cases he))⟩
  dsimp only
  rcases ho : s.openGame req.gameId openFaults with ⟨s₁, (_ | status) | store⟩ <;>
    rw [ho] at hset hopened htitled
  · exact ⟨fun _ hc => .inl (hset.mem_commits hc), fun _ hc _ _ => .inl (hset.replies ▸ hc)⟩
  · refine ⟨fun _ hc => .inl (hset.mem_commits hc), fun c hc error he => .inl ?_⟩
    rcases List.mem_cons.1 hc with rfl | hc
    · cases he
    · exact hset.replies ▸ hc
  have hgame : s₁.games req.gameId = .opened store := hopened store rfl
  obtain ⟨r, ⟨d, fs⟩, hr, hd, hcases⟩ := commitLocked_cases req.version req.manifest
    (order.order index.chunkSet) ⟨store, s₁.published req.gameId⟩ faults
  dsimp only at hd
  have hfound : r = .ok (.ok []) → Found blake3 s req.gameId req.manifest := by
    intro hr
    rcases hcases with ⟨-, hne⟩ | ⟨hknown, -⟩
    · exact absurd hr hne
    refine ⟨index, decode_of_checkCommit hcheck, fun hash hh => ?_⟩
    have hin := hknown hash ((order.perm _).mem_iff.2 hh)
    rw [htitled.stores _ store hgame] at hin
    have hindex := hset.indexOf req.gameId
    rw [Origin.indexOf, hgame] at hindex
    rw [StoreSys.knows]
    change ((s.indexOf req.gameId)[key req.gameId hash]?).isSome = true
    rw [← hindex]
    exact hin
  have hold : ∀ c ∈ s₁.replies, c ∈ s.replies := fun c hc => hset.replies ▸ hc
  simp only [hr, hd]
  rcases r with e | status | _ | ⟨hash, missing⟩
  · exact ⟨by simp [Origin.restart], fun c hc _ _ => .inl (hold c hc)⟩
  · refine ⟨fun _ hc => .inl (hset.mem_commits hc), fun c hc error he => .inl ?_⟩
    rcases List.mem_cons.1 hc with rfl | hc
    · cases he
    · exact hold c hc
  · dsimp only
    split_ifs
    · refine ⟨fun c hc => ?_, fun c hc _ _ => .inl (hold c hc)⟩
      rcases List.mem_append.1 hc with hc | hc
      · exact .inl (hset.mem_commits hc)
      · obtain rfl := List.mem_singleton.1 hc
        exact .inr (hfound rfl)
    · refine ⟨fun _ hc => .inl (hset.mem_commits hc), fun c hc error he => ?_⟩
      rcases List.mem_cons.1 hc with rfl | hc
      · exact .inr (hfound rfl)
      · exact .inl (hold c hc)
  · refine ⟨fun _ hc => .inl (hset.mem_commits hc), fun c hc error he => .inl ?_⟩
    rcases List.mem_cons.1 hc with rfl | hc
    · simp [missingReply] at he
    · exact hold c hc

theorem Accepted.step (ha : Accepted blake3 s) (ht : Titled s) (a : OriginAct) :
    Accepted blake3 (s.step blake3 a) := by
  have hon := @onward_step blake3 s a
  cases a with
  | firstChunk g chunkHash data openFaults faults =>
    exact ha.unanswered ht hon (unanswered_firstChunk blake3 s g chunkHash data openFaults faults)
  | nextChunk i chunkHash data faults =>
    exact ha.unanswered ht hon (unanswered_nextChunk blake3 s i chunkHash data faults)
  | endStream i => exact ha.unanswered ht hon ⟨rfl, rfl, rfl, .inl rfl⟩
  | query g hashes openFaults faults =>
    exact ha.unanswered ht hon (settled_query s g hashes openFaults faults).toUnanswered
  | commit req order openFaults faults =>
    have hfound := commit_found blake3 ht req order openFaults faults
    exact ha.onward ht hon hfound.1 hfound.2
  | publish i call =>
    rcases publish_cases s i call with hend | ⟨c, reply, sched, hc, hend, -⟩
    · exact ha.onward ht hon (fun c hc => .inl (hend ▸ hc)) fun c hc _ _ => .inl (hend ▸ hc)
    · refine ha.onward ht hon (fun c' hc' => .inl ?_) fun c' hc' error he => ?_
      · change c' ∈ (s.publish i call).commits at hc'
        rw [hend] at hc'
        exact List.mem_of_mem_eraseIdx hc'
      · change c' ∈ (s.publish i call).replies at hc'
        rw [hend] at hc'
        rcases List.mem_cons.1 hc' with rfl | hc'
        · exact .inr (ha.commits c (List.mem_of_getElem? hc))
        · exact .inl hc'
  | restart => exact ha.unanswered ht hon (settled_restart s).toUnanswered

theorem Accepted.run : ∀ (acts : List OriginAct) {s : Origin}, Accepted blake3 s → Titled s →
    Accepted blake3 (s.run blake3 acts)
  | [], _, ha, _ => ha
  | a :: acts, _, ha, ht => Accepted.run acts (ha.step ht a) ((onward_step _ a).titled ht)

end Found

section Lengths

/-- Whatever interleaves, the store has for every reference of a published version the length of
data of its hash, which is the declared one where that is the length of data of the hash and no
other data have it. -/
theorem published_lengths (blake3 : Bytes → Hash) (scheduler : Bool) (acts : List OriginAct) :
    let s := (Origin.init scheduler).run blake3 acts
    ∀ c ∈ s.replies, ∀ error, c.reply = .ok ⟨true, error⟩ →
      ∃ index, GameIndex.decode blake3 c.manifest = .ok index
        ∧ ∀ f ∈ index.files, ∀ ref ∈ f.chunks, s.LengthOf blake3 c.gameId ref
          ∧ (ref.Genuine blake3 → Unshared blake3 ref.hash →
            s.storedLen c.gameId ref.hash = some ref.len) := by
  intro s c hc error he
  have ha : Accepted blake3 s := Accepted.run acts
    ⟨by simp [Origin.init], by simp [Origin.init]⟩ (titled_init scheduler)
  obtain ⟨index, hdecode, hall⟩ := ha.replies c hc error he
  refine ⟨index, hdecode, fun f hf ref href => ?_⟩
  have hmem : ref.hash ∈ index.chunkSet := by
    rw [GameIndex.chunkSet, List.mem_dedup, GameIndex.chunkHashes]
    exact List.mem_flatMap.2 ⟨f, hf, List.mem_map_of_mem href⟩
  obtain ⟨value, hvalue⟩ := Option.isSome_iff_exists.1 (hall ref.hash hmem)
  obtain ⟨data, hdata, hlen⟩ := run_recorded blake3 scheduler acts c.gameId ref.hash value hvalue
  have hstored : s.storedLen c.gameId ref.hash = some (UInt32.ofNat data.length) := by
    have hindex : (s.indexOf c.gameId)[key c.gameId ref.hash]? = some value := hvalue
    rw [Origin.storedLen, hindex, Option.map_some, hlen]
  refine ⟨⟨data, hdata, hstored⟩, ?_⟩
  rintro ⟨source, hsource, hdeclared⟩ hunshared
  rw [hstored, hunshared data source hdata hsource, hdeclared, UInt32.ofNat_toNat]

end Lengths

section Example

/-- A hash function under which the chunk of the run below is alone. -/
def fiveHash (bytes : Bytes) : Hash := if bytes = [5] then .fill 1 else .fill 0

/-- A version of one file whose chunk is declared with a length. -/
def indexOfLen (blake3 : Bytes → Hash) (len : UInt32) : GameIndex :=
  .build blake3 [⟨"a", .fill 1, [⟨.fill 1, len⟩]⟩]

def commitOfLen (blake3 : Bytes → Hash) (len : UInt32) : CommitRequest :=
  ⟨7, 1, (indexOfLen blake3 len).encode, (indexOfLen blake3 len).manifestHash.bytes⟩

/-- The chunk is uploaded, and the version committed and published. -/
def publishedOfLen (blake3 : Bytes → Hash) (len : UInt32) : List OriginAct :=
  [.firstChunk 7 (Hash.fill 1).bytes [5] [] [], .commit (commitOfLen blake3 len) .same [] [],
    .publish 0 (.handled [] none)]

theorem checkCommit_ofLen (blake3 : Bytes → Hash) (len : UInt32) :
    checkCommit blake3 (commitOfLen blake3 len) = .ok (indexOfLen blake3 len) := by
  refine checkCommit_build blake3 (by decide) (by decide) (Nat.one_lt_two_pow (by decide))
    fun f hf => ?_
  obtain rfl := List.mem_singleton.1 hf
  have hname : (nameBytes "a").length ≤ 65535 := by decide
  exact ⟨hname, Nat.one_lt_two_pow (by decide)⟩

theorem run_publishedOfLen {blake3 : Bytes → Hash} (hdata : blake3 [5] = .fill 1) (len : UInt32) :
    let s := (Origin.init true).run blake3 (publishedOfLen blake3 len)
    s.replies = [⟨7, 1, (indexOfLen blake3 len).encode, .ok ⟨true, ""⟩⟩]
      ∧ s.games = uploaded₁.games := by
  have hset : (indexOfLen blake3 len).chunkSet = [.fill 1] := rfl
  have hopen : uploaded₁.openGame 7 []
      = (uploaded₁, .ok (appended (opened₀ 7) (.fill 1, [5]))) := rfl
  have hcommit := commit_stored blake3 uploaded₁ .same (checkCommit_ofLen blake3 len) hopen
    fun h hh => by
    rw [hset, List.mem_singleton] at hh
    rw [hh]
    decide
  have hgames : (uploaded₁.setGame 7 (.opened (appended (opened₀ 7) (.fill 1, [5])))).games
      = uploaded₁.games := Function.update_eq_self_iff.2 rfl
  have hrun : (Origin.init true).run blake3 (publishedOfLen blake3 len)
      = (uploaded₁.commit blake3 (commitOfLen blake3 len) .same [] []).publish 0
        (.handled [] none) := by
    simp only [publishedOfLen, Origin.run, List.foldl_cons, List.foldl_nil, Origin.step,
      firstChunk_uploaded hdata]
  intro s
  have hs : s = _ := hrun
  rw [hs, hcommit]
  exact ⟨rfl, hgames⟩

theorem published_lengths_five :
    ((Origin.init true).run fiveHash (publishedOfLen fiveHash 1)).storedLen 7 (.fill 1)
      = some 1 := by
  have hreplies := (run_publishedOfLen (show fiveHash [5] = .fill 1 by rfl) 1).1
  obtain ⟨index, hdecode, hall⟩ := published_lengths fiveHash true (publishedOfLen fiveHash 1) _
    (hreplies ▸ List.mem_cons_self) "" rfl
  obtain rfl : indexOfLen fiveHash 1 = index :=
    Except.ok.inj ((decode_of_checkCommit (checkCommit_ofLen fiveHash 1)).symm.trans hdecode)
  refine (hall _ List.mem_cons_self _ List.mem_cons_self).2 ⟨[5], rfl, rfl⟩ fun x y hx hy => ?_
  have honly : ∀ x, fiveHash x = .fill 1 → x = [5] := by
    intro x hx
    unfold fiveHash at hx
    split_ifs at hx with h
    · exact h
    · exact absurd hx (by decide)
  exact (honly x hx).trans (honly y hy).symm

/-- A manifest that declares two bytes for the chunk of one is published. -/
theorem published_otherLength :
    let s := (Origin.init true).run lengthHash (publishedOfLen lengthHash 2)
    s.replies = [⟨7, 1, (indexOfLen lengthHash 2).encode, .ok ⟨true, ""⟩⟩]
      ∧ GameIndex.decode lengthHash (indexOfLen lengthHash 2).encode = .ok (indexOfLen lengthHash 2)
      ∧ (∃ f ∈ (indexOfLen lengthHash 2).files, ⟨.fill 1, 2⟩ ∈ f.chunks)
      ∧ s.storedLen 7 (.fill 1) = some 1 := by
  obtain ⟨hreplies, hgames⟩ := run_publishedOfLen (show lengthHash [5] = .fill 1 by rfl) 2
  refine ⟨hreplies, decode_of_checkCommit (checkCommit_ofLen lengthHash 2),
    ⟨_, List.mem_cons_self, List.mem_cons_self⟩, ?_⟩
  have hlen : uploaded₁.storedLen 7 (.fill 1) = some 1 := by
    have hindex : uploaded₁.indexOf 7 = (opened₀ 7).index.insert (key 7 (.fill 1)) (pack 0 1) := rfl
    rw [Origin.storedLen, hindex, lookup_insert, if_pos rfl, Option.map_some, unpack_pack]
  rw [← hlen]
  unfold Origin.storedLen Origin.indexOf
  rw [hgames]

end Example

end BlazeNet

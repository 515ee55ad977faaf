import BlazeNet.Proofs.Compact

/-!
# Operations that stop half way

An append that fails, or whose process dies, leaves bytes behind the end of the pack and the index
as it was (`unlessDone_appendChunk`, `unlessDone_appendChunksBatch`). A compaction leaves the store
alone unless its rename is made; from then on only a run to the end is good (`compact_cases`).
-/

namespace BlazeNet

open Wire FaultIo Io RustStd GameStore

variable {gameId : UInt64} {s s' : OpenStore} {g : Places} {S : Fault AnyError → Prop}

section Append

/-- Something may have been written behind the end of `s`, and the end moved up to it. -/
structure Tailed (s s' : OpenStore) : Prop where
  game : s'.self.gameId = s.self.gameId
  linked : s'.self.packFile = .linked
  index : s'.index = s.index
  size_le : s.self.size ≤ s'.self.size
  end_le : s'.self.size ≤ s'.pack.length
  read : ∀ o n, o + n ≤ s.self.size → pread s'.pack o n = pread s.pack o n

theorem Tailed.refl (hl : s.self.packFile = .linked) (hs : s.self.size ≤ s.pack.length) :
    Tailed s s := ⟨rfl, hl, rfl, le_rfl, hs, fun _ _ _ => rfl⟩

theorem StoreLaid.tailed (h : StoreLaid gameId s g) (ht : Tailed s s') :
    StoreLaid gameId s' g where
  game := ht.game.trans h.game
  linked := ht.linked
  laid := ht.index ▸ h.laid.tail ht.size_le ht.end_le ht.read

theorem wp_writeExactAt (hl : s.self.packFile = .linked) (d : Bytes) (o : ℕ) :
    wp S (writeExactAt d o) s fun r s' => ∃ k,
      s' = { s with pack := pwrite s.pack o (d.take k) } ∧ (r = .ok () → d.length ≤ k) := by
  refine wp_mono (wp_writeLoop packFileRef _ S _ s d o rfl) fun r s' h => ?_
  rw [packFileRef_content hl] at h
  obtain ⟨k, h, hk⟩ := h
  exact ⟨k, by rwa [packFileRef_put hl] at h, hk⟩

theorem wp_context_write {text : String} (hl : s.self.packFile = .linked) (d : Bytes) (o : ℕ) :
    wp S (context text (writeExactAt d o)) s fun r s' => ∃ k,
      s' = { s with pack := pwrite s.pack o (d.take k) } ∧ (r = .ok () → d.length ≤ k) := by
  refine wp_onErr (wp_mono (wp_writeExactAt hl d o) fun r s' h => ?_)
  obtain ⟨k, hs, hk⟩ := h
  rcases r with (e | _) | ⟨⟩
  · exact ⟨k, hs, by simp⟩
  · exact ⟨k, hs, by simp⟩
  · exact ⟨k, hs, hk⟩

theorem allOrNothing_commit {α : Type} (text : String) (t : Index) (a : α) :
    AllOrNothing (commit text t >>= fun _ => pure a : StoreIo α) :=
  .bind_pure _ (.onErr _ (.final _))

theorem newBytes_single {h : Hash} (hnone : s.index[key s.self.gameId h]? = none) (d : Bytes) :
    newBytes s [(h, d)] = d.length := by
  simp [newBytes, freshChunks, hnone]

/-- An append that is not done has left a part of its bytes at most. -/
theorem unlessDone_appendChunk (hl : s.self.packFile = .linked) (hs : s.self.size ≤ s.pack.length)
    (h : Hash) (d : Bytes) :
    wp S (appendChunk h d) s fun r s' => (∀ a, r ≠ .ok a) →
      Tailed s s' ∧ s'.pack.length ≤ s.pack.length + newBytes s [(h, d)] := by
  have hrefl : Tailed s s ∧ s.pack.length ≤ s.pack.length + newBytes s [(h, d)] :=
    ⟨.refl hl hs, Nat.le_add_right _ _⟩
  refine wp_bind (wp_get (wp_bind (wp_mono
    (plain_beginRead.wp_quiet quiet_beginRead (exec_beginRead s)) fun r s' hread => ?_)))
  obtain ⟨rfl, htable⟩ := hread
  rcases r with e | table
  · exact fun _ => hrefl
  obtain rfl := htable table rfl
  refine wp_bind (wp_mono ((plain_tableGet _ _).wp_quiet (quiet_tableGet _ _)
    (exec_tableGet _ _ s')) fun r s hget => ?_)
  obtain ⟨rfl, hvalue⟩ := hget
  rcases r with e | _ | v
  · exact fun _ => hrefl
  · have hnew := newBytes_single (hvalue none rfl).symm d
    refine wp_bind (wp_mono (wp_context_write hl _ _) fun r s' hwrite => ?_)
    obtain ⟨k, rfl, hk⟩ := hwrite
    have hlen := length_pwrite (d.take k) hs
    have htake := List.length_take_le' k d
    -- the bytes are written, or a part of them, and the end has not moved yet
    have hwritten : ∀ n, n ≤ (d.take k).length → Tailed s
        { s with pack := pwrite s.pack s.self.size (d.take k),
                 self := { s.self with size := s.self.size + n } } := fun n hn =>
      ⟨rfl, hl, rfl, Nat.le_add_right _ _, by
        rw [hlen]
        exact (Nat.add_le_add_left hn _).trans (le_max_right _ _),
        fun o n ho => pread_pwrite_before hs ho⟩
    have hbound : (pwrite s.pack s.self.size (d.take k)).length
        ≤ s.pack.length + newBytes s [(h, d)] := by omega
    rcases r with e | ⟨⟩
    · exact fun _ => ⟨hwritten 0 (Nat.zero_le _), hbound⟩
    refine wp_bind (wp_modify ?_)
    have hdone := hwritten d.length (by rw [List.length_take, Nat.min_eq_right (hk rfl)])
    refine wp_mono (AllOrNothing.bind quiet_beginWrite (fun t => .bind (quiet_tableInsert _ _ _ _)
      fun t' => allOrNothing_commit _ _ _) S _) fun r s'' h'' hr => ?_
    rw [h'' hr]
    exact ⟨hdone, hbound⟩
  · exact wp_pure fun _ => hrefl

theorem wp_writeNew : ∀ (ps : List (ℕ × Bytes)) (s : OpenStore) (offset : ℕ)
    (out : List (ℕ × UInt32)), s.self.packFile = .linked → offset ≤ s.pack.length →
    wp S (writeNew ps offset out) s fun r s' => ∃ file, s' = { s with pack := file }
      ∧ s.pack.length ≤ file.length
      ∧ file.length ≤ s.pack.length + (ps.map fun p => p.2.length).sum
      ∧ (∀ o n, o + n ≤ offset → pread file o n = pread s.pack o n)
      ∧ ∀ a, r = .ok a → offset ≤ a.2 ∧ a.2 ≤ file.length
  | [], s, offset, out, hl, ho => wp_pure ⟨s.pack, rfl, le_rfl, le_rfl, fun _ _ _ => rfl, by
      rintro a ⟨⟩
      exact ⟨le_rfl, ho⟩⟩
  | (p, d) :: ps, s, offset, out, hl, ho => by
    refine wp_bind (wp_mono (wp_context_write hl d offset) fun r s' h => ?_)
    obtain ⟨k, rfl, hk⟩ := h
    have hlen := length_pwrite (d.take k) ho
    have hle := List.length_take_le' k d
    simp only [List.map_cons, List.sum_cons]
    have hread : ∀ o n, o + n ≤ offset →
        pread (pwrite s.pack offset (d.take k)) o n = pread s.pack o n :=
      fun o n h => pread_pwrite_before ho h
    rcases r with e | ⟨⟩
    · exact ⟨_, rfl, by omega, by omega, hread, by simp⟩
    have hmod : (UInt32.ofNat d.length).toNat ≤ d.length := by
      rw [UInt32.toNat_ofNat']
      exact Nat.mod_le _ _
    have htake : (d.take k).length = d.length := by
      rw [List.length_take, Nat.min_eq_right (hk rfl)]
    have hnext : offset + (UInt32.ofNat d.length).toNat
        ≤ (pwrite s.pack offset (d.take k)).length := by omega
    refine wp_mono (wp_writeNew ps { s with pack := pwrite s.pack offset (d.take k) } _ _ hl hnext)
      fun r s' h => ?_
    obtain ⟨file, rfl, h₁, h₁', h₂, h₃⟩ := h
    dsimp only at h₁ h₁' h₂ ⊢
    refine ⟨file, rfl, by omega, by omega, fun o n hon => ?_, fun a ha => ?_⟩
    · rw [h₂ o n (by omega), hread o n hon]
    · have := h₃ a ha
      exact ⟨by omega, this.2⟩

theorem sum_newPieces (s : OpenStore) (cs : List (Hash × Bytes)) :
    (((batchScan s cs).newPos.zip ((batchScan s cs).newData.map (·.2))).map fun p =>
      p.2.length).sum = newBytes s cs := by
  obtain ⟨hok, hnew⟩ := batchScan_spec s cs
  have hsnd : (((batchScan s cs).newPos.zip ((batchScan s cs).newData.map (·.2))).map Prod.snd)
      = (batchScan s cs).newData.map (·.2) :=
    List.map_snd_zip (by rw [List.length_map, hok.length])
  rw [newBytes, ← hnew]
  change (List.map (List.length ∘ Prod.snd) _).sum = _
  rw [← List.map_map, hsnd, List.map_map]
  rfl

theorem unlessDone_appendChunksBatch (hl : s.self.packFile = .linked)
    (hs : s.self.size ≤ s.pack.length) (cs : List (Hash × Bytes)) :
    wp S (appendChunksBatch cs) s fun r s' => (∀ a, r ≠ .ok a) →
      Tailed s s' ∧ s'.pack.length ≤ s.pack.length + newBytes s cs := by
  have hrefl : Tailed s s ∧ s.pack.length ≤ s.pack.length + newBytes s cs :=
    ⟨.refl hl hs, Nat.le_add_right _ _⟩
  refine wp_bind (wp_get (wp_bind (wp_mono
    (plain_beginRead.wp_quiet quiet_beginRead (exec_beginRead s)) fun r s' hread => ?_)))
  obtain ⟨rfl, htable⟩ := hread
  rcases r with e | table
  · exact fun _ => hrefl
  obtain rfl := htable table rfl
  refine wp_bind (wp_mono ((plain_scanChunks _ _ _ _ _).wp_quiet (quiet_scanChunks _ _ _ _ _)
    (exec_scanChunks _ _ s' cs 0 _)) fun r s hscan => ?_)
  obtain ⟨rfl, hscanned⟩ := hscan
  rcases r with e | scan
  · exact fun _ => hrefl
  obtain rfl : scan = batchScan s cs := hscanned scan rfl
  refine wp_bind (wp_mono (wp_writeNew _ s _ _ hl hs) fun r s' hwrite => ?_)
  obtain ⟨file, rfl, hlen, hbound, hread, hr⟩ := hwrite
  rw [sum_newPieces] at hbound
  rcases r with e | ⟨out, offset⟩
  · exact fun _ => ⟨⟨rfl, hl, rfl, le_rfl, hs.trans hlen, hread⟩, hbound⟩
  obtain ⟨hge, hle⟩ := hr _ rfl
  refine wp_bind (wp_modify ?_)
  have hdone : Tailed s { s with pack := file, self := { s.self with size := offset } } :=
    ⟨rfl, hl, rfl, hge, hle, hread⟩
  dsimp only
  split_ifs
  · exact wp_pure fun h => absurd rfl (h _)
  refine wp_mono (AllOrNothing.bind quiet_beginWrite (fun t => .bind (quiet_insertNew _ _ _ _)
    fun t' => allOrNothing_commit _ _ _) S _) fun r s'' h'' hr => ?_
  rw [h'' hr]
  exact ⟨hdone, hbound⟩

end Append

section Compact

variable {live : HashSet Hash} {below : ℕ → ℕ → Bool} {space : ℕ}

theorem StoreLaid.packCompact (h : StoreLaid gameId s g) (b : Option Bytes) :
    StoreLaid gameId { s with packCompact := b } g := ⟨h.game, h.linked, h.laid⟩

/-- A rename that is not made ends the compaction without a change. -/
theorem compactSwitch_undone (plan : CompactPlan) {f : Fault AnyError} (hf : Undone f)
    (rest : List (Fault AnyError)) : ∃ e w, (compactSwitch plan).run ⟨s, f :: rest⟩ = (.error e, w)
      ∧ w.state = s := by
  rcases f with _ | n | ⟨n, e⟩ | n
  · exact hf.elim
  · exact hf.elim
  · exact ⟨_, _, rfl, rfl⟩
  · cases hf
    exact ⟨_, _, rfl, rfl⟩

/-- How a compaction can end: unchanged but for the file it writes, or done. -/
theorem compact_cases (h : StoreLaid gameId s g) {faults : List (Fault AnyError)}
    (hswitch : (StoreOp.compact live below space).SwitchUndisturbed s faults) :
    (∃ r w b, (GameStore.compact live below space).run ⟨s, faults⟩ = (r, w)
        ∧ w.state = { s with packCompact := b } ∧ r ≠ .ok true
        ∧ (r = .ok false → ¬ Rewrites s live below space ∧ w.state = s))
      ∨ ∃ w, (GameStore.compact live below space).run ⟨s, faults⟩ = (.ok true, w)
        ∧ w.state = appendedAll (emptied s) (liveChunks s live g)
        ∧ Rewrites s live below space := by
  have hkeep := keeps_compactRewrite live below space (fun _ => True) s faults fun _ _ => trivial
  have hsound :=
    (plain_compactRewrite live below space).sound (fun _ => True) s faults fun _ _ => trivial
  have hexec := exec_compactRewrite h live below space
  have hrun := run_compact live below space ⟨s, faults⟩
  simp only [StoreOp.SwitchUndisturbed] at hswitch
  rw [hrun]
  rcases hr : (compactRewrite live below space).run ⟨s, faults⟩ with ⟨e | _ | plan, w⟩
  · rw [hr] at hkeep
    obtain ⟨b, hb⟩ := hkeep
    exact .inl ⟨_, _, b, rfl, hb, by simp, by simp⟩
  · rw [hr] at hkeep hsound
    have hs := hsound none rfl
    rw [hexec] at hs
    split_ifs at hs with hrw
    · simp at hs
    · have hs : s = w.state := by simpa using hs
      exact .inl ⟨_, _, s.packCompact, rfl, hs.symm, by simp, fun _ => ⟨hrw, hs.symm⟩⟩
  · have hsw := hswitch plan w hr
    rw [hr] at hsound
    have hs := hsound _ rfl
    rw [hexec] at hs
    split_ifs at hs with hrw
    · simp only [Prod.mk.injEq, Except.ok.injEq, Option.some.injEq] at hs
      obtain ⟨rfl, hst⟩ := hs
      change (∃ r w' b, (andThen _ _).run w = _ ∧ _) ∨ ∃ w', (andThen _ _).run w = _ ∧ _
      rcases w with ⟨st, fs⟩
      dsimp only at hst hsw
      subst hst
      simp only [run_andThen]
      rcases hsw with ⟨f, rest, rfl, hf⟩ | hb
      · obtain ⟨e, w', he, hw'⟩ := compactSwitch_undone
          (s := { s with packCompact := some ((liveChunks s live g).flatMap (·.2)) })
          ⟨s.index.toList, relocate 0 (liveSorted s live)⟩ hf rest
        rw [he]
        exact .inl ⟨_, _, _, rfl, hw', by simp, by simp⟩
      · have hrun' := (plain_compactSwitch
          ⟨s.index.toList, relocate 0 (liveSorted s live)⟩).steady.run
          { s with packCompact := some ((liveChunks s live g).flatMap (·.2)) } hb
        rw [exec_compactSwitch h] at hrun'
        simp only [Prod.mk.injEq] at hrun'
        rcases hc : (compactSwitch ⟨s.index.toList, relocate 0 (liveSorted s live)⟩).run
          ⟨{ s with packCompact := some ((liveChunks s live g).flatMap (·.2)) }, fs⟩ with ⟨r, w'⟩
        rw [hc] at hrun'
        obtain ⟨rfl, hw'⟩ := hrun'
        exact .inr ⟨_, rfl, hw', hrw⟩
    · simp at hs

end Compact

end BlazeNet

import BlazeNet.DownloadManager

/-!
# Where the chunks of a download are

Dealing out puts every waiting chunk on one list (`total_deal`), and a failed peer's chunks wait
again (`copies_peerFailed`). But dealing out also forgets the lists that there were: every chunk is
in one place all along exactly when no peer is left with one whenever chunks are dealt out
(`managerRun_inOnePlace_iff`).
-/

namespace BlazeNet

open RustStd DownloadManager

variable {chunks : List Hash} {ops : List ManagerOp} {self self' : DownloadManager} {hash : Hash}

section Operations

theorem total_push_count (plan : HashMap ℕ (List Hash)) (peer : ℕ) (h : Hash) :
    (plan.push peer h).total (List.count hash) = plan.total (List.count hash) + [h].count hash :=
  HashMap.total_push (fun _ _ => List.count_append) List.count_nil plan peer h

theorem total_deal (peerCount : ℕ) : ∀ (sorted : List Hash) (index : ℕ)
    (plan : HashMap ℕ (List Hash)), (deal peerCount index sorted plan).total (List.count hash)
      = plan.total (List.count hash) + sorted.count hash
  | [], _, _ => by simp [deal]
  | h :: sorted, index, plan => by
    rw [deal, total_deal peerCount sorted, total_push_count, Nat.add_assoc, ← List.count_append,
      List.singleton_append]

/-- After dealing out, the chunks that waited are assigned, and no others. -/
theorem copies_assign {peerCount : ℕ} {plan : HashMap ℕ (List Hash)}
    (h : self.assign peerCount = some (plan, self')) :
    self'.copies hash = self.pending.elems.count hash := by
  unfold assign at h
  dsimp only at h
  split_ifs at h
  obtain ⟨rfl, rfl⟩ := Prod.mk.inj (Option.some.inj h)
  rw [copies, total_deal, HashMap.total_empty, (List.mergeSort_perm _ _).count_eq]
  simp [HashSet.empty]

theorem assign_isSome {peerCount : ℕ} (h : 1 ≤ peerCount) :
    ∃ plan self', self.assign peerCount = some (plan, self') := by
  unfold assign
  dsimp only
  rw [if_neg (by omega)]
  exact ⟨_, _, rfl⟩

/-- A chunk of a failed peer waits again, and others stay where they are. -/
theorem copies_peerFailed (peer : ℕ) (h : self.copies hash = 1) :
    (self.peerFailed peer).copies hash = 1 := by
  unfold peerFailed
  rcases hpeer : self.assigned.get? peer with _ | chunks
  · exact h
  have hsplit := self.assigned.total_eq_remove_add (f := List.count hash) peer
  rw [hpeer, Option.map_some, Option.getD_some] at hsplit
  rw [copies, HashSet.count_elems, hsplit] at h
  rw [copies, HashSet.count_elems]
  dsimp only
  by_cases hpending : hash ∈ self.pending
  · rw [if_pos hpending] at h
    rw [if_pos (HashSet.mem_extend.2 (.inl hpending))]
    omega
  · rw [if_neg hpending] at h
    by_cases hchunks : hash ∈ chunks
    · have hcount := List.count_pos_iff.2 hchunks
      rw [if_pos (HashSet.mem_extend.2 (.inr hchunks))]
      omega
    · have hcount := List.count_eq_zero_of_not_mem hchunks
      rw [if_neg (mt HashSet.mem_extend.1 (not_or.2 ⟨hpending, hchunks⟩))]
      omega

theorem copies_chunkDone {done : Hash} (h : hash ≠ done) :
    (self.chunkDone done).copies hash = self.copies hash := by
  have hcount : List.count hash ∘ (fun chunks : List Hash => chunks.filter (· ≠ done))
      = List.count hash := by
    funext chunks
    exact List.count_filter (by simpa using h)
  rw [copies, chunkDone, HashMap.total_mapValues, hcount]
  rfl

end Operations

section Runs

theorem managerRun_concat (ops : List ManagerOp) (op : ManagerOp) :
    managerRun chunks (ops ++ [op]) = (managerRun chunks ops).bind op.apply := by
  rw [managerRun, List.foldlM_append, ← managerRun]
  simp only [List.foldlM_cons, List.foldlM_nil, bind_pure]
  rfl

/-- One operation keeps every chunk in one place, dealing out where nothing is left to forget. -/
theorem EachInOnePlace.apply (h : EachInOnePlace chunks ops self) {op : ManagerOp}
    (hop : op.apply self = some self')
    (hassign : ∀ peerCount, op = .assign peerCount → NoneOutstanding chunks ops self) :
    EachInOnePlace chunks (ops ++ [op]) self' := by
  intro hash hmem hdone
  rw [List.mem_append, not_or, List.mem_singleton] at hdone
  have hone := h hash hmem hdone.1
  cases op with
  | assign peerCount =>
    obtain ⟨⟨plan, self''⟩, ha, rfl⟩ := Option.map_eq_some_iff.1 hop
    rw [copies_assign ha]
    rwa [copies, hassign peerCount rfl hash hmem hdone.1] at hone
  | peerFailed peer =>
    obtain rfl := Option.some.inj hop
    exact copies_peerFailed peer hone
  | chunkDone done =>
    obtain rfl := Option.some.inj hop
    rw [copies_chunkDone (fun he => hdone.2 (by rw [he])), hone]

theorem apply_isSome {op : ManagerOp} (hop : ∀ peerCount, op = .assign peerCount → 1 ≤ peerCount) :
    ∃ self', op.apply self = some self' := by
  cases op with
  | assign peerCount =>
    have hsome : ∃ plan self', self.assign peerCount = some (plan, self') :=
      assign_isSome (hop peerCount rfl)
    obtain ⟨plan, self', ha⟩ := hsome
    exact ⟨self', by rw [ManagerOp.apply, ha, Option.map_some]⟩
  | peerFailed peer => exact ⟨_, rfl⟩
  | chunkDone done => exact ⟨_, rfl⟩

theorem managerRun_isSome (hops : ∀ peerCount, .assign peerCount ∈ ops → 1 ≤ peerCount) :
    ∃ self, managerRun chunks ops = some self := by
  induction ops using List.reverseRecOn with
  | nil => exact ⟨_, rfl⟩
  | append_singleton ops op ih =>
    obtain ⟨self, hself⟩ := ih fun n hn => hops n (List.mem_append_left _ hn)
    rw [managerRun_concat, hself]
    exact apply_isSome fun n hn => hops n (List.mem_append_right _ (by simp [hn]))

theorem eachInOnePlace_new (chunks : List Hash) : EachInOnePlace chunks [] (.new chunks) := by
  intro hash hmem _
  rw [copies, HashSet.count_elems, new, if_pos (HashSet.mem_collect.2 hmem)]
  rfl

/-- In a run of operations every chunk that has not been reported done is waiting or on one peer's
list, at every time, exactly when no peer is left with such a chunk whenever `assign` is called. -/
theorem managerRun_inOnePlace_iff (chunks : List Hash) (ops : List ManagerOp)
    (hops : ∀ peerCount, .assign peerCount ∈ ops → 1 ≤ peerCount) :
    (∀ pre, pre <+: ops → ∃ self, managerRun chunks pre = some self
        ∧ EachInOnePlace chunks pre self)
      ↔ ∀ pre peerCount, pre ++ [.assign peerCount] <+: ops →
        ∀ self, managerRun chunks pre = some self → NoneOutstanding chunks pre self := by
  constructor
  · intro h pre peerCount hpre self hself hash hmem hdone
    obtain ⟨self', hself', hafter⟩ := h _ hpre
    obtain ⟨self₁, hself₁, hbefore⟩ := h pre ((List.prefix_append _ _).trans hpre)
    obtain rfl : self = self₁ := Option.some.inj (hself.symm.trans hself₁)
    rw [managerRun_concat, hself] at hself'
    obtain ⟨⟨plan, self''⟩, ha, rfl⟩ := Option.map_eq_some_iff.1 hself'
    have hone := hafter hash hmem (by simpa using hdone)
    have hbefore := hbefore hash hmem hdone
    rw [copies_assign ha] at hone
    rw [copies, hone] at hbefore
    omega
  · intro h pre hpre
    induction pre using List.reverseRecOn with
    | nil => exact ⟨_, rfl, eachInOnePlace_new chunks⟩
    | append_singleton pre op ih =>
      obtain ⟨self, hself, hplaces⟩ := ih ((List.prefix_append _ _).trans hpre)
      have hmem : op ∈ ops := hpre.mem (by simp)
      have hsome : ∃ self', op.apply self = some self' :=
        apply_isSome fun n hn => hops n (hn ▸ hmem)
      obtain ⟨self', hop⟩ := hsome
      refine ⟨self', by rw [managerRun_concat, hself]; exact hop, hplaces.apply hop ?_⟩
      rintro peerCount rfl
      exact h pre peerCount hpre self hself

/-- Dealing out chunks that wait in their order. -/
theorem apply_assign {peerCount : ℕ} (hcount : 1 ≤ peerCount)
    (hsorted : self.pending.elems.Pairwise (fun a b => hashLe a b)) :
    ManagerOp.apply (.assign peerCount) self
      = some ⟨.empty, deal peerCount 0 self.pending.elems .empty⟩ := by
  rw [ManagerOp.apply, assign, List.mergeSort_of_pairwise hsorted]
  dsimp only
  rw [if_neg (by omega)]
  rfl

/-- Two chunks, given out to two peers. -/
theorem managerRun_two : managerRun [.fill 1, .fill 2] [.assign 2]
    = some ⟨.empty, deal 2 0 [.fill 1, .fill 2] .empty⟩ := by
  rw [show [ManagerOp.assign 2] = [] ++ [.assign 2] from rfl, managerRun_concat]
  exact apply_assign (by decide) (by decide)

/-- Where the first of two peers fails and the second one's chunk is done, the first chunk can be
given out again. -/
theorem managerRun_inOnePlace_iff_again : ∃ self,
    managerRun [.fill 1, .fill 2]
      [.assign 2, .peerFailed 0, .chunkDone (.fill 2), .assign 1] = some self
    ∧ EachInOnePlace [.fill 1, .fill 2]
      [.assign 2, .peerFailed 0, .chunkDone (.fill 2), .assign 1] self := by
  refine (managerRun_inOnePlace_iff [.fill 1, .fill 2]
    [.assign 2, .peerFailed 0, .chunkDone (.fill 2), .assign 1] (by simp)).2
    (fun pre peerCount hpre self hself => ?_) _ (List.prefix_refl _)
  rcases pre with _ | ⟨a, _ | ⟨b, _ | ⟨c, _ | ⟨d, pre⟩⟩⟩⟩
  · obtain rfl : DownloadManager.new _ = self := Option.some.inj hself
    intro hash _ _
    rfl
  · simp at hpre
  · simp at hpre
  · obtain ⟨rfl, rfl, rfl, -⟩ : a = .assign 2 ∧ b = .peerFailed 0 ∧ c = .chunkDone (.fill 2)
        ∧ peerCount = 1 := by simpa [eq_comm] using hpre
    change managerRun _ (([.assign 2] ++ [_]) ++ [_]) = _ at hself
    rw [managerRun_concat, managerRun_concat, managerRun_two] at hself
    obtain rfl := Option.some.inj hself
    intro hash hmem _
    rcases List.mem_pair.1 hmem with rfl | rfl <;> decide
  · have := hpre.length_le
    simp only [List.length_append, List.length_cons, List.length_nil] at this
    omega

/-- Without the second chunk being done, giving out the first again forgets it. -/
theorem managerRun_forgets : ∃ self,
    managerRun [.fill 1, .fill 2] [.assign 2, .peerFailed 0, .assign 1] = some self
    ∧ .chunkDone (.fill 2) ∉ [ManagerOp.assign 2, .peerFailed 0, .assign 1]
    ∧ self.copies (.fill 2) = 0
    ∧ ¬ EachInOnePlace [.fill 1, .fill 2] [.assign 2, .peerFailed 0, .assign 1] self := by
  change ∃ self, managerRun _ (([.assign 2] ++ [_]) ++ [_]) = some self ∧ _
  rw [managerRun_concat, managerRun_concat, managerRun_two]
  refine ⟨_, apply_assign (by decide) (by decide), by decide, by decide, fun h => ?_⟩
  have hone := h (.fill 2) (by simp) (by decide)
  revert hone
  decide

end Runs

end BlazeNet

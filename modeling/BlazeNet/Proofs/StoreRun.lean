import BlazeNet.Proofs.StoreFaults

/-!
# What a run of a block store keeps

As long as no chunk is written past 4 GiB and no compaction is disturbed once its new pack is in
place, the index leads every stored hash to the bytes that were stored (`placesRun_read`). With
nothing failing and a pack below 4 GiB the store is a map that keeps the first bytes it is given
for a hash (`mapRun_shows`).
-/

namespace BlazeNet

open Wire FaultIo Io RustStd GameStore

variable {gameId : UInt64} {s s' : OpenStore} {g : Places}

section Lookups

theorem plain_readChunk (h : Hash) : Plain (readChunk h) := by
  refine .bind .get fun s => .bind plain_beginRead fun t => .bind (plain_tableGet _ _) fun v => ?_
  rcases v with _ | v
  · exact .pure _
  · exact .bind (plain_context (readLoop_plain _ _ _ _)) fun _ => .pure _

theorem quiet_readChunk (h : Hash) : Quiet (readChunk h) := by
  refine .bind .get fun s => .bind quiet_beginRead fun t => .bind (quiet_tableGet _ _) fun v => ?_
  rcases v with _ | v
  · exact .pure _
  · refine .bind (quiet_context fun S s => ?_) fun _ => .pure _
    exact wp_mono (wp_readLoop _ _ S s _ _) fun _ _ h => h.1

theorem plain_contains (h : Hash) : Plain (GameStore.contains h) :=
  .bind .get fun _ => .bind plain_beginRead fun _ => .bind (plain_tableGet _ _) fun _ => .pure _

theorem quiet_contains (h : Hash) : Quiet (GameStore.contains h) :=
  .bind .get fun _ => .bind quiet_beginRead fun _ => .bind (quiet_tableGet _ _) fun _ => .pure _

theorem exec_contains (hash : Hash) (s : OpenStore) : exec (contains hash) s
    = (.ok (s.index[key s.self.gameId hash]?).isSome, s) := rfl

theorem plain_entries : Plain GameStore.entries :=
  .bind plain_beginRead fun _ => .bind (plain_tableIter _) fun _ => .pure _

theorem quiet_entries : Quiet GameStore.entries :=
  .bind quiet_beginRead fun _ => .bind (quiet_tableIter _) fun _ => .pure _

theorem exec_readChunk_content (s : OpenStore) (h : Hash) :
    exec (readChunk h) s = match s.index[key s.self.gameId h]? with
      | none => (.ok none, s)
      | some v => if (unpack v).1 + (unpack v).2.toNat
            ≤ max (unpack v).1 (packFileRef.content s).length
        then (.ok (some (pread (packFileRef.content s) (unpack v).1 (unpack v).2.toNat)), s)
        else (.error (.err (.context "读取块数据失败" (.msg "读取块数据遇到文件末尾"))), s) := by
  unfold readChunk
  simp only [exec_bind, exec_get, exec_beginRead, exec_tableGet]
  rcases s.index[key s.self.gameId h]? with _ | v
  · rfl
  · simp only [exec_bind, context, exec_onErr, readExactAt, exec_readLoop]
    split_ifs <;> rfl

theorem exec_readChunk (hl : s.self.packFile = .linked) (h : Hash) :
    exec (readChunk h) s = match s.index[key s.self.gameId h]? with
      | none => (.ok none, s)
      | some v => if (unpack v).1 + (unpack v).2.toNat ≤ max (unpack v).1 s.pack.length
        then (.ok (some (pread s.pack (unpack v).1 (unpack v).2.toNat)), s)
        else (.error (.err (.context "读取块数据失败" (.msg "读取块数据遇到文件末尾"))), s) := by
  rw [exec_readChunk_content, packFileRef_content hl]

theorem StoreLaid.exec_readChunk (hs : StoreLaid gameId s g) (h : Hash) :
    exec (readChunk h) s = (.ok ((g h).map (·.2)), s) := by
  rw [BlazeNet.exec_readChunk hs.linked, hs.game]
  rcases hg : g h with _ | p
  · rw [hs.laid.index, hg]
    rfl
  · obtain ⟨v, hv, hu⟩ := hs.laid.unpack_index hg
    obtain ⟨hend, hbytes⟩ := hs.laid.bytes h p hg
    have := hs.laid.size_le
    simp only [hv, hu, toNat_ofNat_length (hs.laid.fits h p hg).2, hbytes]
    rw [if_pos (by omega)]
    rfl

theorem StoreLaid.shows (hs : StoreLaid gameId s g) : Shows gameId s fun h => (g h).map (·.2) where
  read := hs.exec_readChunk
  contains h := by
    unfold GameStore.contains
    simp only [exec_bind, exec_get, exec_beginRead, exec_tableGet, exec_pure, hs.game,
      hs.laid.index_isSome, Option.isSome_map]
  entries := by
    refine ⟨s.index.toList.map fun item => (item.1, unpack item.2), ?_, ?_, ?_, ?_⟩
    · unfold GameStore.entries
      simp only [exec_bind, exec_beginRead, exec_tableIter, exec_pure]
    · rw [List.map_map, List.Nodup, List.pairwise_map]
      refine (Std.ExtTreeMap.distinct_keys_toList (t := s.index)).imp fun {a b} hne he => hne ?_
      exact Std.LawfulEqCmp.compare_eq_iff_eq.2 he
    · intro h d hd
      rw [Option.map_eq_some_iff] at hd
      obtain ⟨p, hp, rfl⟩ := hd
      obtain ⟨v, hv, hu⟩ := hs.laid.unpack_index hp
      refine ⟨p.1, List.mem_map.2 ⟨(key gameId h, v), ?_, by rw [hu]⟩⟩
      exact Std.ExtTreeMap.mem_toList_iff_getElem?_eq_some.2 hv
    · intro e he
      obtain ⟨⟨k, v⟩, hk, rfl⟩ := List.mem_map.1 he
      rw [Std.ExtTreeMap.mem_toList_iff_getElem?_eq_some] at hk
      obtain ⟨h, rfl⟩ := hs.laid.keys k v hk
      have hi := hs.laid.index h
      rw [hk, eq_comm, Option.map_eq_some_iff] at hi
      obtain ⟨p, hp, rfl⟩ := hi
      have hf := hs.laid.fits h p hp
      refine ⟨h, p.2, by rw [hp]; rfl, rfl, ?_, ?_⟩
      · rw [unpack_pack, toNat_ofNat_length hf.2]
      · rw [unpack_pack, Nat.mod_eq_of_lt hf.1, (hs.laid.bytes h p hp).2]

end Lookups

section Open

/-- The layout of a directory that may not hold its files yet. -/
def DirLaid (gameId : UInt64) (d : GameDir) (g : Places) : Prop :=
  Laid gameId (d.index.getD ∅) (d.pack.getD []) (d.pack.getD []).length g

def SysLaid (gameId : UInt64) (g : Places) : StoreSys → Prop
  | .closed d => DirLaid gameId d g
  | .opened s => StoreLaid gameId s g

theorem StoreLaid.dirLaid (h : StoreLaid gameId s g) : DirLaid gameId s.dir g :=
  h.laid.tail h.laid.size_le le_rfl fun _ _ _ => rfl

theorem SysLaid.dirLaid {sys : StoreSys} (h : SysLaid gameId g sys) : DirLaid gameId sys.dir g := by
  rcases sys with d | s
  · exact h
  · exact StoreLaid.dirLaid h

theorem exec_openStore (d : GameDir) : exec (openStore gameId) d
    = (.ok ⟨gameId, .linked, (d.pack.getD []).length⟩,
        { d with index := some (d.index.getD ∅), pack := some (d.pack.getD []) }) := rfl

theorem plain_openStore (gameId : UInt64) : Plain (openStore gameId) :=
  .bind (plain_context (.query _)) fun _ => .bind (plain_context (.query _)) fun _ =>
    .bind (plain_context (.query _)) fun _ => .bind (plain_context (.query _)) fun _ =>
      .bind (plain_context (.atomic _)) fun _ => .bind (plain_context (.atomic _)) fun _ =>
        .bind (plain_context (.query _)) fun _ => .pure _

/-- The files of a directory read the same, where a missing one reads as an empty one. -/
def SameFiles (d d' : GameDir) : Prop :=
  d'.index.getD ∅ = d.index.getD ∅ ∧ d'.pack.getD [] = d.pack.getD []

theorem keeps_openStore (gameId : UInt64) : Keeps SameFiles (openStore gameId) := by
  have hr : ∀ d, SameFiles d d := fun _ => ⟨rfl, rfl⟩
  have ht : ∀ a b c, SameFiles a b → SameFiles b c → SameFiles a c :=
    fun _ _ _ h h' => ⟨h'.1.trans h.1, h'.2.trans h.2⟩
  have hq : ∀ (text : String) (α : Type) (f : GameDir → Except AnyError α),
      Keeps SameFiles (context text (query f)) :=
    fun _ _ _ => .onErr _ ((Quiet.query _).keeps hr)
  have ha : ∀ (text : String) (f : GameDir → GameDir), (∀ d, SameFiles d (f d)) →
      Keeps SameFiles (context text (atomic fun d => (.ok (), f d))) := fun _ f hf =>
    .onErr _ fun S d => wp_atomic (hf d) (fun _ _ _ => hr d) fun n _ => by
      split_ifs
      · exact hf d
      · exact hr d
  exact .bind ht (hq _ _ _) fun _ => .bind ht (hq _ _ _) fun _ => .bind ht (hq _ _ _) fun _ =>
    .bind ht (hq _ _ _) fun _ => .bind ht (ha _ _ fun _ => ⟨rfl, rfl⟩) fun _ =>
      .bind ht (ha _ _ fun _ => ⟨rfl, rfl⟩) fun _ => .bind ht (hq _ _ _) fun _ =>
        (Quiet.pure _).keeps hr

theorem SysLaid.reopen {sys : StoreSys} (h : SysLaid gameId g sys)
    (faults : List (Fault AnyError)) : SysLaid gameId g (sys.reopen gameId faults) := by
  have hd := h.dirLaid
  have hkeep := keeps_openStore gameId (fun _ => True) sys.dir faults fun _ _ => trivial
  have hsound := (plain_openStore gameId).sound (fun _ => True) sys.dir faults
    fun _ _ => trivial
  unfold StoreSys.reopen
  rcases hr : (openStore gameId).run ⟨sys.dir, faults⟩ with ⟨e | self, w⟩ <;>
    rw [hr] at hkeep hsound
  · simp only [SysLaid, DirLaid, hkeep.1, hkeep.2]
    exact hd
  · have hs := hsound self rfl
    simp only [exec_openStore, Prod.mk.injEq, Except.ok.injEq] at hs
    obtain ⟨rfl, hw⟩ := hs
    refine ⟨rfl, rfl, ?_⟩
    simp only [hkeep.1, hkeep.2]
    exact hd

end Open

section Call

theorem run_map {ε σ α β : Type} (p : Io ε σ α) (f : α → β) (w : World ε σ) :
    (p >>= fun a => pure (f a)).run w = match p.run w with
      | (.ok a, w') => (.ok (f a), w')
      | (.error e, w') => (.error e, w') := rfl

variable {α : Type} {op : StoreOp} {p : StoreIo α} {f : α → StoreReply}
  {faults : List (Fault AnyError)}

theorem call_laid_of (hprog : op.prog = p >>= fun a => pure (f a))
    (hok : ∀ a w, p.run ⟨s, faults⟩ = (.ok a, w) →
      StoreLaid gameId w.state (op.written s g (f a)))
    (herr : ∀ e w, p.run ⟨s, faults⟩ = (.error e, w) → StoreLaid gameId w.state g) :
    SysLaid gameId (op.call StoreOp.written s g faults).2
      (op.call StoreOp.written s g faults).1 := by
  unfold StoreOp.call
  rw [hprog, run_map]
  rcases hr : p.run ⟨s, faults⟩ with ⟨(e | _) | a, w⟩
  · exact herr _ w hr
  · exact (herr _ w hr).dirLaid
  · exact hok a w hr

theorem run_of_wp {Q : Except (Stop AnyError) α → OpenStore → Prop}
    (h : wp (fun _ => True) p s Q) {r : Except (Stop AnyError) α} {w : World AnyError OpenStore}
    (hr : p.run ⟨s, faults⟩ = (r, w)) : Q r w.state := by
  have := h faults fun _ _ => trivial
  rwa [hr] at this

theorem exec_of_run (hp : Plain p) {a : α} {w : World AnyError OpenStore}
    (hr : p.run ⟨s, faults⟩ = (.ok a, w)) : exec p s = (.ok a, w.state) :=
  run_of_wp (hp.sound (fun _ => True) s) hr a rfl

/-- A lookup changes neither the store nor the record. -/
theorem call_laid_of_quiet (h : StoreLaid gameId s g)
    (hprog : op.prog = p >>= fun a => pure (f a)) (hp : Quiet p)
    (hnote : ∀ a, op.written s g (f a) = g) :
    SysLaid gameId (op.call StoreOp.written s g faults).2
      (op.call StoreOp.written s g faults).1 := by
  refine call_laid_of hprog (fun a w hr => ?_) fun e w hr => ?_
  · rw [run_of_wp (hp _ s) hr, hnote]
    exact h
  · rw [run_of_wp (hp _ s) hr]
    exact h

/-- What an append leaves, whichever way it goes. -/
theorem StoreLaid.appendChunk (hs : StoreLaid gameId s g) {h : Hash} {d : Bytes}
    (hfit : Within ⟨s.self.size, g⟩ [(h, d)]) {loc : ℕ × UInt32}
    (he : exec (appendChunk h d) s = (.ok loc, s')) :
    StoreLaid gameId s' (Record.store ⟨s.self.size, g⟩ (h, d)).places := by
  rw [exec_appendChunk hs.linked, hs.game, hs.laid.index] at he
  rcases hg : g h with _ | p
  · obtain ⟨hsize, hlen⟩ := hfit.1 hg
    simp only [hg, Option.map_none, Prod.mk.injEq] at he
    exact he.2 ▸ hs.appended hg hsize hlen
  · simp only [hg, Option.map_some, Prod.mk.injEq] at he
    rw [← he.2, Record.store, if_pos (by simp [hg])]
    exact hs

theorem StoreLaid.known (hs : StoreLaid gameId s g) (h : Hash) :
    (g h).isSome ↔ h ∈ ([] : List Hash) ∨ (s.index[key gameId h]?).isSome := by
  simp [hs.laid.index_isSome]

/-- One call keeps the layout. -/
theorem StoreLaid.call (h : StoreLaid gameId s g) (hfit : op.OffsetsFit s g)
    (hswitch : op.SwitchUndisturbed s faults) :
    SysLaid gameId (op.call StoreOp.written s g faults).2
      (op.call StoreOp.written s g faults).1 := by
  cases op with
  | append k d =>
    refine call_laid_of rfl (fun loc w hr => ?_) fun e w hr => ?_
    · exact h.appendChunk hfit (exec_of_run (plain_appendChunk k d) hr)
    · exact h.tailed
        (run_of_wp (unlessDone_appendChunk h.linked h.laid.size_le k d) hr (by simp)).1
  | appendBatch cs =>
    refine call_laid_of rfl (fun loc w hr => ?_) fun e w hr => ?_
    · have he := exec_of_run (plain_appendChunksBatch cs) hr
      obtain ⟨hall, -, hlen⟩ := StoreLaid.storeAll cs s.index [] h h.known hfit
      rw [exec_appendChunksBatch_of_fits h.linked _ (by rw [h.game]; exact hlen), h.game] at he
      simp only [Prod.mk.injEq] at he
      exact he.2 ▸ hall
    · exact h.tailed
        (run_of_wp (unlessDone_appendChunksBatch h.linked h.laid.size_le cs) hr (by simp)).1
  | compact live below space =>
    rcases compact_cases h hswitch with ⟨r, w, b, hr, hw, hnot, -⟩ | ⟨w, hr, hw, hrw⟩
    · refine call_laid_of rfl (fun done w' hr' => ?_) fun e w' hr' => ?_
      · rw [hr, Prod.mk.injEq] at hr'
        obtain ⟨rfl, rfl⟩ := hr'
        have hdone : done = false := by simpa using hnot
        rw [hw, hdone]
        exact h.packCompact b
      · rw [hr, Prod.mk.injEq] at hr'
        rw [← hr'.2, hw]
        exact h.packCompact b
    · refine call_laid_of rfl (fun done w' hr' => ?_) fun e w' hr' => ?_
      · rw [hr, Prod.mk.injEq, Except.ok.injEq] at hr'
        obtain ⟨rfl, rfl⟩ := hr'
        rw [hw]
        exact (h.compacted (hfit hrw)).1
      · rw [hr, Prod.mk.injEq] at hr'
        cases hr'.1
  | read k => exact call_laid_of_quiet h rfl (quiet_readChunk k) fun _ => rfl
  | contains k => exact call_laid_of_quiet h rfl (quiet_contains k) fun _ => rfl
  | entries => exact call_laid_of_quiet h rfl quiet_entries fun _ => rfl

end Call

section Runs

variable {γ : Type} {note : StoreOp → OpenStore → γ → StoreReply → γ}

theorem runSteps_concat (g : γ) (steps : List StoreStep) (step : StoreStep) :
    runSteps gameId note g (steps ++ [step])
      = step.apply gameId note (runSteps gameId note g steps) := by
  rw [runSteps, List.foldl_append]
  rfl

theorem SysLaid.apply {st : StoreSys × Places} (h : SysLaid gameId st.2 st.1) {step : StoreStep}
    (hstep : step.Addressable st) :
    SysLaid gameId (step.apply gameId StoreOp.written st).2
      (step.apply gameId StoreOp.written st).1 := by
  rcases step with faults | ⟨op, faults⟩
  · exact h.reopen faults
  · rcases st with ⟨d | s, g⟩
    · exact h
    · exact StoreLaid.call h hstep.1 hstep.2

/-- Every run of addressable steps keeps the layout. -/
theorem placesRun_laid (steps : List StoreStep)
    (hsteps : ∀ pre step, pre ++ [step] <+: steps → step.Addressable (placesRun gameId pre)) :
    SysLaid gameId (placesRun gameId steps).2 (placesRun gameId steps).1 := by
  induction steps using List.reverseRecOn with
  | nil => exact Laid.empty
  | append_singleton steps step ih =>
    have hlast := hsteps steps step (List.prefix_refl _)
    have hpre := ih fun pre x hx => hsteps pre x (hx.trans (List.prefix_append _ _))
    rw [placesRun, runSteps_concat]
    exact hpre.apply hlast

/-- In every run whose steps write nothing past 4 GiB and disturb no compaction after its rename,
every stored chunk is found where it was written and read back as it was. -/
theorem placesRun_read (gameId : UInt64) (steps : List StoreStep)
    (hsteps : ∀ pre step, pre ++ [step] <+: steps → step.Addressable (placesRun gameId pre))
    (s : OpenStore) (hs : (placesRun gameId steps).1 = .opened s) (h : Hash) (o : ℕ) (d : Bytes)
    (hd : (placesRun gameId steps).2 h = some (o, d)) :
    (∃ v, s.index[key gameId h]? = some v ∧ unpack v = (o, UInt32.ofNat d.length))
      ∧ (UInt32.ofNat d.length).toNat = d.length
      ∧ exec (readChunk h) s = (.ok (some d), s)
      ∧ ∀ faults r w, (readChunk h).run ⟨s, faults⟩ = (.ok r, w) → r = some d := by
  have hlaid := placesRun_laid steps hsteps
  rw [hs] at hlaid
  have hread := StoreLaid.exec_readChunk hlaid h
  rw [hd, Option.map_some] at hread
  refine ⟨hlaid.laid.unpack_index hd, toNat_ofNat_length (hlaid.laid.fits h _ hd).2, hread, ?_⟩
  intro faults r w hr
  have := exec_of_run (plain_readChunk h) hr
  rw [hread, Prod.mk.injEq, Except.ok.injEq] at this
  exact this.1.symm

/-- The store of game `gameId` opened in an empty directory. -/
def opened₀ (gameId : UInt64) : OpenStore := ⟨⟨gameId, .linked, 0⟩, ∅, [], none⟩

theorem runSteps_reopen (g : γ) :
    runSteps gameId note g [.reopen []] = (.opened (opened₀ gameId), g) :=
  rfl

/-- Appending a new chunk without faults. -/
theorem apply_append (hl : s.self.packFile = .linked) {h : Hash}
    (hnew : s.index[key s.self.gameId h]? = none) (d : Bytes) (g : γ) :
    (StoreStep.call (.append h d) []).apply gameId note (.opened s, g)
      = (.opened (appended s (h, d)),
          note (.append h d) s g (.place (s.self.size, UInt32.ofNat d.length))) := by
  have he := exec_appendChunk hl h d
  rw [hnew] at he
  simp only [StoreStep.apply, StoreOp.call, StoreOp.prog, run_map, run_nil, he]

theorem switchUndisturbed_of_benign {op : StoreOp} {faults : List (Fault AnyError)}
    (hb : ∀ f ∈ faults, Benign f) : op.SwitchUndisturbed s faults := by
  cases op with
  | compact live below space =>
    intro plan w hr
    have hu := (compactRewrite live below space).uses ⟨s, faults⟩
    rw [hr] at hu
    exact .inr fun f hf => hb f (hu.mem hf)
  | append h d => trivial
  | appendBatch cs => trivial
  | read h => trivial
  | contains h => trivial
  | entries => trivial

/-- The offsets of a call on an open store fit. -/
def StoreStep.Fits : StoreStep → StoreSys × Places → Prop
  | .call op _, (.opened s, g) => op.OffsetsFit s g
  | _, _ => True

instance decidableWithin : ∀ (r : Record) (cs : List (Hash × Bytes)), Decidable (Within r cs)
  | _, [] => isTrue trivial
  | r, c :: cs =>
    have := decidableWithin (r.store c) cs
    inferInstanceAs (Decidable (_ ∧ Within (r.store c) cs))

instance (op : StoreOp) (s : OpenStore) (g : Places) : Decidable (op.OffsetsFit s g) := by
  cases op <;> unfold StoreOp.OffsetsFit <;> infer_instance

instance (step : StoreStep) : ∀ st : StoreSys × Places, Decidable (step.Fits st)
  | (.opened s, g) => by cases step <;> unfold StoreStep.Fits <;> infer_instance
  | (.closed _, _) => by cases step <;> unfold StoreStep.Fits <;> infer_instance

theorem StoreStep.Fits.addressable {step : StoreStep} {st : StoreSys × Places} (h : step.Fits st)
    (hio : step.IoSucceeds) : step.Addressable st := by
  rcases step with faults | ⟨op, faults⟩
  · trivial
  · rcases st with ⟨dir | s, g⟩
    · trivial
    · exact ⟨h, switchUndisturbed_of_benign hio⟩

def StoreSys.store : StoreSys → Option OpenStore
  | .opened s => some s
  | .closed _ => none

theorem opened_of_store {sys : StoreSys} (h : sys.store.isSome) : ∃ s, sys = .opened s := by
  cases sys with
  | opened s => exact ⟨s, rfl⟩
  | closed dir => cases h

/-- A write that takes two transfers, a batch that repeats its hash, a compaction that keeps the
other chunk, and a restart. -/
def mixedSteps : List StoreStep :=
  [.reopen [], .call (.append (.fill 1) [5, 5]) [.none, .none, .none, .short 1],
    .call (.appendBatch [(.fill 1, [9]), (.fill 2, [6, 7])]) [],
    .call (.compact (HashSet.collect [.fill 2]) (fun _ _ => false) 100) [], .reopen []]

theorem mixedSteps_ioSucceeds : ∀ step ∈ mixedSteps, step.IoSucceeds := by
  simp [mixedSteps, StoreStep.IoSucceeds, StoreStep.faults, Benign]

theorem mixedSteps_fits : ∀ n < mixedSteps.length, ∀ step ∈ mixedSteps[n]?,
    step.Fits (placesRun 7 (mixedSteps.take n)) := by decide +kernel

theorem mixedSteps_addressable (pre : List StoreStep) (step : StoreStep)
    (hp : pre ++ [step] <+: mixedSteps) : step.Addressable (placesRun 7 pre) := by
  have hio := mixedSteps_ioSucceeds step (hp.mem (by simp))
  obtain ⟨rest, hrest⟩ := hp
  have htake : mixedSteps.take pre.length = pre := by simp [← hrest]
  have hstep : mixedSteps[pre.length]? = some step := by simp [← hrest]
  rw [← htake]
  exact (mixedSteps_fits _ (List.getElem?_eq_some_iff.1 hstep).1 step hstep).addressable hio

theorem placesRun_read_mixed : ∃ s, (placesRun 7 mixedSteps).1 = .opened s
    ∧ exec (readChunk (.fill 2)) s = (.ok (some [6, 7]), s) := by
  have hrun : (placesRun 7 mixedSteps).1.store.isSome
      ∧ (placesRun 7 mixedSteps).2 (.fill 2) = some (0, [6, 7]) := by decide +kernel
  obtain ⟨s, hs⟩ := opened_of_store hrun.1
  exact ⟨s, hs, (placesRun_read 7 mixedSteps mixedSteps_addressable s hs (.fill 2) 0 [6, 7]
    hrun.2).2.2.1⟩

end Runs

section Overflow

/-- A chunk whose bytes start at 4 GiB: the index forgets that, and leads to the start. -/
theorem appended_read_wrong {d : Bytes} (hd : d.length = 2 ^ 32 - 1) {h₁ h₂ h₃ : Hash}
    (s₁ s₂ s₃ : OpenStore) (hs₁ : s₁ = appended (opened₀ 7) (h₁, [1]))
    (hs₂ : s₂ = appended s₁ (h₂, d)) (hs₃ : s₃ = appended s₂ (h₃, [2])) :
    s₂.self.size = 2 ^ 32 ∧ exec (readChunk h₃) s₃ = (.ok (some [1]), s₃) := by
  have hp₁ : s₁.pack = [1] := by
    rw [hs₁]
    rfl
  have hz₂ : s₂.self.size = 2 ^ 32 := by
    rw [hs₂, hs₁]
    simp only [appended, opened₀, hd]
    rfl
  have hz₁ : s₁.self.size = 1 := by
    rw [hs₁]
    rfl
  have hp₂ : s₂.pack = pwrite [1] 1 d := by rw [hs₂, appended, hz₁, hp₁]
  have hlen₂ : s₂.pack.length = 2 ^ 32 := by
    rw [hp₂, length_pwrite _ (by simp), hd]
    rfl
  have hp₃ : s₃.pack = pwrite s₂.pack (2 ^ 32) [2] := by rw [hs₃, appended, hz₂]
  have hfirst : pread s₃.pack 0 1 = [1] := by
    rw [hp₃, pread_pwrite_before hlen₂.ge (by norm_num), hp₂,
      pread_pwrite_before (by simp) (by norm_num)]
    rfl
  have hlen₃ : 1 ≤ s₃.pack.length := by
    have := congrArg List.length hfirst
    rw [length_pread, List.length_singleton] at this
    omega
  have hl : s₃.self.packFile = .linked := by
    rw [hs₃, hs₂, hs₁]
    rfl
  have hindex : s₃.index[key s₃.self.gameId h₃]? = some (BlazeNet.pack (2 ^ 32) 1) := by
    rw [hs₃]
    simp only [appended, lookup_insert, if_true, hz₂]
    rfl
  refine ⟨hz₂, ?_⟩
  rw [exec_readChunk hl, hindex]
  simp only [unpack_pack]
  rw [if_pos (by simp; omega)]
  simp only [Nat.mod_self]
  exact congrArg (fun b => (Except.ok (some b), s₃)) hfirst

theorem key_fill_ne {a b : UInt8} (hab : a ≠ b) : key gameId (.fill a) ≠ key gameId (.fill b) := by
  intro he
  have := congrArg (fun h => h.bytes.head?) (key_inj he)
  exact hab (by simpa [Hash.fill, hashLen] using this)

theorem run_past_four_gib {d : Bytes} (hd : d.length = 2 ^ 32 - 1) :
    ∃ s, (placesRun 7 [.reopen [], .call (.append (.fill 1) [1]) [],
        .call (.append (.fill 2) d) [], .call (.append (.fill 3) [2]) []]).1 = .opened s
      ∧ (placesRun 7 [.reopen [], .call (.append (.fill 1) [1]) [],
        .call (.append (.fill 2) d) [], .call (.append (.fill 3) [2]) []]).2 (.fill 3)
        = some (2 ^ 32, [2])
      ∧ exec (readChunk (.fill 3)) s = (.ok (some [1]), s) := by
  set s₁ := appended (opened₀ 7) (.fill 1, [1]) with hs₁
  set s₂ := appended s₁ (.fill 2, d) with hs₂
  set s₃ := appended s₂ (.fill 3, [2]) with hs₃
  obtain ⟨hsize, hread⟩ := appended_read_wrong hd s₁ s₂ s₃ hs₁ hs₂ hs₃
  have h₂ : s₁.index[key 7 (.fill 2)]? = none := by
    simp only [hs₁, appended, lookup_insert, opened₀]
    rw [if_neg (key_fill_ne (by decide)), Std.ExtTreeMap.getElem?_empty]
  have h₃ : s₂.index[key 7 (.fill 3)]? = none := by
    simp only [hs₂, hs₁, appended, lookup_insert, opened₀]
    rw [if_neg (key_fill_ne (by decide)), if_neg (key_fill_ne (by decide)),
      Std.ExtTreeMap.getElem?_empty]
  have hrun : placesRun 7 [.reopen [], .call (.append (.fill 1) [1]) [],
      .call (.append (.fill 2) d) [], .call (.append (.fill 3) [2]) []]
      = (.opened s₃, (Record.store ⟨s₂.self.size, (Record.store ⟨s₁.self.size, (Record.store
          ⟨0, fun _ => none⟩ (.fill 1, [1])).places⟩ (.fill 2, d)).places⟩
          (.fill 3, [2])).places) := by
    change runSteps 7 _ _ ((([.reopen []] ++ [_]) ++ [_]) ++ [_]) = _
    rw [runSteps_concat, runSteps_concat, runSteps_concat, runSteps_reopen,
      apply_append rfl Std.ExtTreeMap.getElem?_empty, ← hs₁, apply_append rfl h₂, ← hs₂,
      apply_append rfl h₃, ← hs₃]
    rfl
  have hfill : ∀ a b : UInt8, a ≠ b → Hash.fill a ≠ Hash.fill b := fun a b hab he =>
    key_fill_ne hab (congrArg (key 7) he)
  refine ⟨s₃, congrArg Prod.fst hrun, ?_, hread⟩
  rw [hrun, hsize]
  simp [Record.store, hfill 3 1 (by decide), hfill 3 2 (by decide), hfill 2 1 (by decide)]

/-- Three chunks stored without any fault, the last of them at 4 GiB: it is read back as the
first. -/
theorem placesRun_read_wrong : ∃ s,
    (placesRun 7 [.reopen [], .call (.append (.fill 1) [1]) [],
      .call (.append (.fill 2) (List.replicate (2 ^ 32 - 1) 0)) [],
      .call (.append (.fill 3) [2]) []]).1 = .opened s
    ∧ (placesRun 7 [.reopen [], .call (.append (.fill 1) [1]) [],
      .call (.append (.fill 2) (List.replicate (2 ^ 32 - 1) 0)) [],
      .call (.append (.fill 3) [2]) []]).2 (.fill 3) = some (2 ^ 32, [2])
    ∧ exec (readChunk (.fill 3)) s = (.ok (some [1]), s) :=
  run_past_four_gib List.length_replicate

end Overflow

end BlazeNet

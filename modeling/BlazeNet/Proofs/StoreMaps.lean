import BlazeNet.StoreMaps

/-!
# One store per game

Whoever has the lock of `pack_stores` knows how the map and the open stores compare
(`StoreJob.Knows`), and only its owner changes them; without an owner every open store is the one in
the map (`StoreMaps.Settled`). An entry of that map stays, so what is served as `Pack` is it.
-/

namespace BlazeNet

open Wire FaultIo Io RustStd StoreMaps

section Invariant

/-- The open stores of a game are those in the map. -/
def StoreMaps.SettledAt (s : StoreMaps) (gameId : UInt64) : Prop :=
  s.storesOf gameId = (s.packStores gameId).toList

def StoreMaps.Settled (s : StoreMaps) : Prop := ∀ gameId, s.SettledAt gameId

/-- At most one store of a game is open, the maps are settled while nobody has the lock, and what is
served as a pack is the store in the map. -/
structure MapsOk (s : StoreMaps) : Prop where
  few : ∀ gameId, (s.storesOf gameId).length ≤ 1
  settled : s.packLock = none → s.Settled
  shared : ∀ gameId store, s.dataStores gameId = some (.pack store) →
    s.packStores gameId = some store

/-- What job `i` knows at its point. -/
def StoreJob.Knows (s : StoreMaps) (i : ℕ) : StoreJob → Prop
  | .packLooking _ _ => s.packLock = some i ∧ s.Settled
  | .opening _ gameId => s.packLock = some i ∧ s.Settled ∧ s.packStores gameId = none
  | .inserting _ gameId store => s.packLock = some i ∧ (∀ g, g ≠ gameId → s.SettledAt g)
    ∧ s.storesOf gameId = [store] ∧ s.packStores gameId = none
  | .got _ gameId store => s.packLock = some i ∧ s.Settled ∧ s.packStores gameId = some store
  | .unlocking _ => s.packLock = some i ∧ s.Settled
  | .entering gameId store => s.packStores gameId = some store
  | _ => True

variable {s : Jobs StoreMaps StoreJob} {i : ℕ} {t : StoreMaps}

/-- A step that leaves the packs, their lock and the open stores alone. -/
theorem undisturbed_data (h : Held MapsOk StoreJob.Knows s)
    (hlock : t.packLock = s.shared.packLock) (hpacks : t.packStores = s.shared.packStores)
    (hopened : t.opened = s.shared.opened)
    (hshared : ∀ gameId store, t.dataStores gameId = some (.pack store) →
      t.packStores gameId = some store) : Undisturbed MapsOk StoreJob.Knows s i t := by
  have hstores : ∀ g, t.storesOf g = s.shared.storesOf g := fun g => by
    rw [storesOf, storesOf, hopened]
  have hsettled : ∀ g, s.shared.SettledAt g → t.SettledAt g := fun g hg => by
    rwa [SettledAt, hstores, hpacks]
  refine ⟨⟨fun g => ?_, fun hfree g => ?_, hshared⟩, fun k j _ hj => ?_⟩
  · rw [hstores]
    exact h.shared.few g
  · exact hsettled g (h.shared.settled (hlock ▸ hfree) g)
  · have hknows := h.job k j hj
    cases j with
    | packLooking user g => exact ⟨hlock ▸ hknows.1, fun g' => hsettled g' (hknows.2 g')⟩
    | opening user g =>
      exact ⟨hlock ▸ hknows.1, fun g' => hsettled g' (hknows.2.1 g'), hpacks ▸ hknows.2.2⟩
    | inserting user g store =>
      exact ⟨hlock ▸ hknows.1, fun g' hg' => hsettled g' (hknows.2.1 g' hg'),
        (hstores g).trans hknows.2.2.1, hpacks ▸ hknows.2.2.2⟩
    | got user g store =>
      exact ⟨hlock ▸ hknows.1, fun g' => hsettled g' (hknows.2.1 g'), hpacks ▸ hknows.2.2⟩
    | unlocking user => exact ⟨hlock ▸ hknows.1, fun g' => hsettled g' (hknows.2 g')⟩
    | entering g store => exact (congrFun hpacks g).trans hknows
    | _ => trivial

/-- Only the owner of the lock changes the packs; it takes no entry out of the map. -/
theorem undisturbed_owner (h : Held MapsOk StoreJob.Knows s)
    (hlock : s.shared.packLock = none ∨ s.shared.packLock = some i) (ht : MapsOk t)
    (hpacks : ∀ gameId store, s.shared.packStores gameId = some store →
      t.packStores gameId = some store) : Undisturbed MapsOk StoreJob.Knows s i t := by
  refine ⟨ht, fun k j hk hj => ?_⟩
  have hknows := h.job k j hj
  have hother : s.shared.packLock ≠ some k := by
    rcases hlock with hlock | hlock <;> rw [hlock]
    · simp
    · simpa using hk.symm
  cases j with
  | packLooking user g => exact absurd hknows.1 hother
  | opening user g => exact absurd hknows.1 hother
  | inserting user g store => exact absurd hknows.1 hother
  | got user g store => exact absurd hknows.1 hother
  | unlocking user => exact absurd hknows.1 hother
  | entering g store => exact hpacks g store hknows
  | _ => trivial

end Invariant

section Steps

variable {s : Jobs StoreMaps StoreJob} {i : ℕ} {j locked wait : StoreJob}
  {faults : List (Fault AnyError)}

/-- Whoever takes the lock of `pack_stores` finds the maps settled. -/
theorem lands_lockPack (h : Held MapsOk StoreJob.Knows s)
    (hlocked : ∀ t : StoreMaps, t.packLock = some i → t.Settled → locked.Knows t i)
    (hwait : wait.Knows s.shared i) :
    Lands MapsOk StoreJob.Knows s i j ((lockPack i locked wait).run ⟨s.shared, faults⟩) := by
  change Lands _ _ _ _ _ ((if s.shared.packLock.isNone then _ else _ : MapsIo StoreJob).run _)
  split_ifs with hfree
  · rw [Option.isNone_iff_eq_none] at hfree
    have hsettled := h.shared.settled hfree
    exact Held.modify (undisturbed_owner h (.inl hfree)
      ⟨h.shared.few, (fun hnone => by cases hnone), h.shared.shared⟩ fun _ _ hg => hg)
      (hlocked _ rfl hsettled)
  · exact h.pure hwait

theorem lands_lockData (h : Held MapsOk StoreJob.Knows s) (hlocked : ∀ t, locked.Knows t i)
    (hwait : wait.Knows s.shared i) :
    Lands MapsOk StoreJob.Knows s i j ((lockData i locked wait).run ⟨s.shared, faults⟩) := by
  change Lands _ _ _ _ _ ((if s.shared.dataLock.isNone then _ else _ : MapsIo StoreJob).run _)
  split_ifs
  · exact Held.modify (undisturbed_data h rfl rfl rfl h.shared.shared) (hlocked _)
  · exact h.pure hwait

/-- The owner gives the lock back with the maps settled. -/
theorem undisturbed_unlockPack (h : Held MapsOk StoreJob.Knows s)
    (hlock : s.shared.packLock = some i) (hsettled : s.shared.Settled) :
    Undisturbed MapsOk StoreJob.Knows s i s.shared.unlockPack :=
  undisturbed_owner h (.inr hlock) ⟨h.shared.few, fun _ => hsettled, h.shared.shared⟩
    fun _ _ hg => hg

theorem allOrNothing_openGame (gameId : UInt64) : AllOrNothing (openGame gameId) :=
  .bind (.query _) fun _ => .bind .get fun _ => .bind_pure _ (.modify _)

theorem sound_openGame (gameId : UInt64) : Sound (openGame gameId) :=
  .bind (.query _) fun _ => .bind .get fun _ => .bind (.modify _) fun _ => .pure _

theorem storesOf_addOpened (t : StoreMaps) (gameId g : UInt64) : (t.addOpened gameId).storesOf g
    = if gameId = g then t.opened.length :: t.storesOf g else t.storesOf g := by
  rw [storesOf, addOpened, List.filter_cons]
  simp only [decide_eq_true_eq]
  split_ifs <;> rfl

theorem packStores_insertPack (t : StoreMaps) (gameId g : UInt64) (store : ℕ) :
    (t.insertPack gameId store).packStores g
      = if g = gameId then some store else t.packStores g := Function.update_apply _ _ _ _

theorem dataStores_insertData (t : StoreMaps) (gameId g : UInt64) (store : NodeStore) :
    (t.insertData gameId store).dataStores g
      = if g = gameId then some store else t.dataStores g := Function.update_apply _ _ _ _

/-- A store that is opened for a game without one is the only one. -/
theorem lands_opening (h : Held MapsOk StoreJob.Knows s) {user : PackUser} {gameId : UInt64}
    (hknows : (StoreJob.opening user gameId).Knows s.shared i) :
    Lands MapsOk StoreJob.Knows s i j ((transact (openGame gameId) fun r => match r with
      | .ok store => .inserting user gameId store
      | .error _ => .unlocking user).run ⟨s.shared, faults⟩) := by
  obtain ⟨hlock, hsettled, hnone⟩ := hknows
  have hempty : s.shared.storesOf gameId = [] := by rw [hsettled gameId, hnone]; rfl
  refine h.transact (allOrNothing_openGame gameId) (sound_openGame gameId) (fun store hstore => ?_)
    fun _ _ => ⟨hlock, hsettled⟩
  obtain rfl : s.shared.opened.length = store := Except.ok.inj hstore
  change Undisturbed _ _ _ _ (s.shared.addOpened gameId) ∧ _
  refine ⟨undisturbed_owner h (.inr hlock) ⟨fun g => ?_, fun hfree => ?_, h.shared.shared⟩
    fun _ _ hg => hg, hlock, fun g hg => ?_, ?_, hnone⟩
  · rw [storesOf_addOpened]
    split_ifs with hg
    · rw [← hg, hempty]
      simp
    · exact h.shared.few g
  · cases hlock.symm.trans hfree
  · exact (storesOf_addOpened s.shared gameId g).trans ((if_neg hg.symm).trans (hsettled g))
  · exact (storesOf_addOpened s.shared gameId gameId).trans ((if_pos rfl).trans (by rw [hempty]))

/-- The entry of a store that has just been opened. -/
theorem lands_inserting (h : Held MapsOk StoreJob.Knows s) {user : PackUser} {gameId : UInt64}
    {store : ℕ} (hknows : (StoreJob.inserting user gameId store).Knows s.shared i) :
    Undisturbed MapsOk StoreJob.Knows s i (s.shared.insertPack gameId store)
      ∧ (StoreJob.got user gameId store).Knows (s.shared.insertPack gameId store) i := by
  obtain ⟨hlock, hsettled, hopened, hnone⟩ := hknows
  have hkeeps : ∀ g store', s.shared.packStores g = some store' →
      (s.shared.insertPack gameId store).packStores g = some store' := by
    intro g store' hg
    have hne : g ≠ gameId := by
      rintro rfl
      cases hnone.symm.trans hg
    rw [packStores_insertPack, if_neg hne]
    exact hg
  refine ⟨undisturbed_owner h (.inr hlock) ⟨h.shared.few, fun hfree => ?_, fun g store' hg =>
    hkeeps g store' (h.shared.shared g store' hg)⟩ hkeeps, hlock, fun g => ?_,
    (packStores_insertPack _ _ _ _).trans (if_pos rfl)⟩
  · cases hlock.symm.trans hfree
  · by_cases hg : g = gameId
    · subst hg
      rw [SettledAt, packStores_insertPack, if_pos rfl]
      exact hopened
    · rw [SettledAt, packStores_insertPack, if_neg hg]
      exact hsettled g hg

/-- Every step keeps the invariant. -/
theorem storeSystem_keeping (blake3 : Bytes → Hash) (packDefault : Bool) :
    Keeping (storeSystem blake3 packDefault) MapsOk StoreJob.Knows fun _ _ => True where
  start s r _ := by cases r <;> trivial
  env _ e := nomatch e
  restart _ _ := ⟨fun _ => by simp [storeSystem, StoreMaps.empty, storesOf], fun _ _ => rfl,
    fun _ _ h => by cases h⟩
  go s i j faults h hj _ := by
    have hknows := h.job i j hj
    change Lands _ _ _ _ _ ((j.next blake3 packDefault i).run _)
    cases j with
    | conn g => exact lands_lockData h (fun _ => trivial) trivial
    | looking g =>
      rw [StoreJob.next, run_bind]
      simp only [Io.get]
      rcases s.shared.dataStores g with _ | store <;> dsimp only
      · split_ifs <;> exact h.pure trivial
      · exact h.pure trivial
    | idc g => exact h.pure trivial
    | upload g =>
      rw [StoreJob.next]
      split_ifs <;> exact h.pure trivial
    | query g =>
      rw [StoreJob.next]
      split_ifs <;> exact h.pure trivial
    | commit req =>
      rw [StoreJob.next]
      rcases checkCommit blake3 req with e | index <;> exact h.pure trivial
    | waiting user g => exact lands_lockPack h (fun _ hlock hsettled => ⟨hlock, hsettled⟩) trivial
    | packLooking user g =>
      obtain ⟨hlock, hsettled⟩ := hknows
      rw [StoreJob.next, run_bind]
      simp only [Io.get]
      rcases hg : s.shared.packStores g with _ | store <;> dsimp only
      · exact h.pure ⟨hlock, hsettled, hg⟩
      · exact h.pure ⟨hlock, hsettled, hg⟩
    | opening user g => exact lands_opening h hknows
    | inserting user g store =>
      obtain ⟨hothers, hgot⟩ := lands_inserting h hknows
      exact Held.modify hothers hgot
    | got user g store =>
      obtain ⟨hlock, hsettled, hstore⟩ := hknows
      cases user with
      | conn => exact Held.modify (undisturbed_unlockPack h hlock hsettled) hstore
      | _ => exact h.pure ⟨hlock, hsettled⟩
    | unlocking user =>
      refine Held.modify (undisturbed_unlockPack h hknows.1 hknows.2) ?_
      cases user <;> trivial
    | entering g store =>
      refine Held.modify (undisturbed_data h rfl rfl rfl fun g' store' hg' => ?_) trivial
      rw [dataStores_insertData] at hg'
      split_ifs at hg' with hg
      · obtain rfl : store = store' := by simpa using hg'
        rw [hg]
        exact hknows
      · exact h.shared.shared g' store' hg'
    | serving => exact h.pure trivial
    | leaving => exact Held.modify (undisturbed_data h rfl rfl rfl h.shared.shared) trivial
    | cafe g source => exact lands_lockData h (fun _ => trivial) trivial
    | cafeEntering g source =>
      refine Held.modify ?_ trivial
      rw [orInsertData]
      rcases s.shared.dataStores g with _ | store
      · refine undisturbed_data h rfl rfl rfl fun g' store' hg' => ?_
        rw [dataStores_insertData] at hg'
        split_ifs at hg' with hg
        · cases hg'
        · exact h.shared.shared g' store' hg'
      · exact h.undisturbed i
    | finished => exact h.pure trivial

/-- In every run at most one store of a game is open, and what the data path serves as a pack is the
store in `pack_stores`. -/
theorem storeSystem_one_store (blake3 : Bytes → Hash) (packDefault : Bool)
    (moves : List (Move AnyError StoreRequest Empty)) :
    let s := ((storeSystem blake3 packDefault).run noStores moves).shared
    (∀ gameId, (s.storesOf gameId).length ≤ 1)
      ∧ ∀ gameId store, s.dataStores gameId = some (.pack store) →
        s.packStores gameId = some store := by
  have hempty : Held MapsOk StoreJob.Knows noStores :=
    ⟨(storeSystem_keeping blake3 packDefault).restart .empty ⟨fun _ => by
      simp [StoreMaps.empty, storesOf], fun _ _ => rfl, fun _ _ h => by cases h⟩,
      fun k j hk => by simp [noStores] at hk⟩
  have hall : ∀ (moves : List (Move AnyError StoreRequest Empty)) (s : Jobs StoreMaps StoreJob),
      (storeSystem blake3 packDefault).Along (fun _ _ => True) s moves := by
    intro moves
    induction moves with
    | nil => exact fun _ => trivial
    | cons m moves ih => exact fun s => ⟨trivial, ih _⟩
  have hheld := (storeSystem_keeping blake3 packDefault).run moves noStores hempty (hall moves _)
  exact ⟨hheld.shared.few, hheld.shared.shared⟩

end Steps

end BlazeNet

import BlazeNet.GameJobs
import BlazeNet.Proofs.Assign
import BlazeNet.Proofs.Publish

/-!
# Games under interleavings

A roll back that is going to write a record back relies on the latest version in it being the stored
one, a publication that raises the latest version on the stored one being lower, and one that has
yet to reply on its version having been reached (`GameJob.Relies`). What one move can do to the
games is said once (`gameSystem_games`): it writes back a record that its request holds, deletes a
game or creates one.
-/

namespace BlazeNet

open Wire FaultIo Io RustStd

section Transactions

theorem plain_getGame (id : UInt64) : Plain (Store.getGame id) :=
  .bind (plain_call _) fun _ => .bind (plain_call _) fun _ => plain_look _ _

theorem allOrNothing_insertGame (game : GameRecord) : AllOrNothing (Store.insertGame game) :=
  .bind (quiet_call _) fun _ => .bind (quiet_call _) fun _ => .bind (quiet_call _) fun _ =>
    allOrNothing_storeCommit _ _

theorem plain_insertGame (game : GameRecord) : Plain (Store.insertGame game) :=
  .bind (plain_call _) fun _ => .bind (plain_call _) fun _ => .bind (plain_call _) fun _ =>
    plain_storeCommit _ _

theorem allOrNothing_deleteGame (id : UInt64) : AllOrNothing (Store.deleteGame id) :=
  .bind (quiet_call _) fun _ => .bind (quiet_call _) fun _ => .bind (quiet_look _ _) fun _ =>
    .bind_pure _ (allOrNothing_storeCommit _ _)

theorem plain_deleteGame (id : UInt64) : Plain (Store.deleteGame id) :=
  .bind (plain_call _) fun _ => .bind (plain_call _) fun _ => .bind (plain_look _ _) fun _ =>
    .bind (plain_storeCommit _ _) fun _ => .pure _

theorem quiet_getVersion (gameId version : UInt64) : Quiet (Store.getVersion gameId version) :=
  .bind (quiet_call _) fun _ => .bind (quiet_call _) fun _ => quiet_look _ _

theorem plain_getVersion (gameId version : UInt64) : Plain (Store.getVersion gameId version) :=
  .bind (plain_call _) fun _ => .bind (plain_call _) fun _ => plain_look _ _

theorem willing_call (text : String) : Willing (Store.call text) := .onErr _ (.query _)

theorem willing_getGame (id : UInt64) : Willing (Store.getGame id) :=
  .bind (willing_call _) fun _ => .bind (willing_call _) fun _ => .onErr _ (.query _)

theorem willing_insertGame (game : GameRecord) : Willing (Store.insertGame game) :=
  .bind (willing_call _) fun _ => .bind (willing_call _) fun _ => .bind (willing_call _) fun _ =>
    .onErr _ (.final _)

namespace GameShared

variable {α : Type} {p : SchedIo α}

theorem quiet_db (hp : Quiet p) : Quiet (db p) := hp.zoom fun _ => rfl

theorem allOrNothing_db (hp : AllOrNothing p) : AllOrNothing (db p) := hp.zoom fun _ => rfl

theorem sound_db (hp : Plain p) : Sound (db p) := hp.sound.zoom

/-- A transaction none of whose calls fails does not end in an error. -/
theorem db_no_error (hp : Willing p) {s : GameShared} {faults : List (Fault AnyError)}
    (hfaults : ∀ f ∈ faults, Unfailing f) (e : AnyError) (w : World AnyError GameShared) :
    (db p).run ⟨s, faults⟩ ≠ (.error (.err e), w) := fun h =>
  (hp.zoom : Willing (db p)) s faults hfaults e (congrArg Prod.fst h)

theorem allOrNothing_createGame (game : GameRecord) : AllOrNothing (createGame game) :=
  .bind_modify _ (allOrNothing_db (allOrNothing_insertGame game))

theorem sound_createGame (game : GameRecord) : Sound (createGame game) :=
  .bind (sound_db (plain_insertGame game)) fun _ => .modify _

end GameShared

end Transactions

section Invariant

namespace GameShared

/-- The game is stored, with the latest version of this record. -/
def Same (s : GameShared) (game : GameRecord) : Prop :=
  ∃ stored : GameRecord, s.sched.games[game.id]? = some stored
    ∧ stored.latestVersion = game.latestVersion

/-- The game is stored, with a latest version that is not above the one of this record. -/
def Below (s : GameShared) (game : GameRecord) : Prop :=
  ∃ stored : GameRecord, s.sched.games[game.id]? = some stored
    ∧ stored.latestVersion ≤ game.latestVersion

theorem Same.below {s : GameShared} {game : GameRecord} (h : s.Same game) : s.Below game := by
  obtain ⟨stored, hstored, hlatest⟩ := h
  exact ⟨stored, hstored, hlatest ▸ UInt64.le_refl _⟩

end GameShared

/-- Every game is kept under its id, and no completed publication is ahead of its game. -/
structure GamesOk (s : GameShared) : Prop where
  keyed : ∀ (id : UInt64) (game : GameRecord), s.sched.games[id]? = some game → game.id = id
  completed : ∀ gameId version, (gameId, version) ∈ s.completed → s.AtLeast gameId version

/-- What a request relies on about the games. -/
def GameJob.Relies (s : GameShared) (_ : ℕ) : GameJob → Prop
  | .raising gameId version game => game.id = gameId ∧ game.latestVersion = version ∧ s.Below game
  | .replying gameId version => s.AtLeast gameId version
  | j => ∀ game, j.holds = some game → s.Same game

variable {s t : GameShared} {j : GameJob} {game held : GameRecord} {k : ℕ}

/-- A request that holds nothing and has nothing to reply relies on nothing. -/
theorem relies_idle (hholds : j.holds = none) (hreply : ∀ g v, j ≠ .replying g v) :
    j.Relies s k := by
  cases j with
  | replying g v => exact absurd rfl (hreply g v)
  | raising g v game => cases hholds
  | _ => exact fun game h => by cases hholds.symm.trans h

theorem relies_holds_below (hj : j.Relies s k) (hheld : j.holds = some held) : s.Below held := by
  cases j with
  | raising g v game =>
    obtain rfl : game = held := Option.some.inj hheld
    exact hj.2.2
  | replying g v => cases hheld
  | _ => exact (hj held hheld).below

/-- A change under which the records that a request holds, and the game it has to reply about, fare
well. -/
theorem GameJob.Relies.of (hj : j.Relies s k)
    (hbelow : ∀ held, j.holds = some held → s.Below held → t.Below held)
    (hsame : ∀ held, j.holds = some held → s.Same held → t.Same held)
    (hreply : ∀ g v, j = .replying g v → s.AtLeast g v → t.AtLeast g v) : j.Relies t k := by
  cases j with
  | raising g v game => exact ⟨hj.1, hj.2.1, hbelow game rfl hj.2.2⟩
  | replying g v => exact hreply g v rfl hj
  | _ => exact fun game h => hsame game h (hj game h)

end Invariant

section Disturbing

variable {s : Jobs GameShared GameJob} {i : ℕ} {game : GameRecord}

/-- A move that leaves the games alone. -/
theorem undisturbed_games (h : Held GamesOk GameJob.Relies s) {t : GameShared}
    (hgames : t.sched.games = s.shared.sched.games)
    (hcompleted : t.completed = s.shared.completed) :
    Undisturbed GamesOk GameJob.Relies s i t := by
  have hat : ∀ g v, s.shared.AtLeast g v → t.AtLeast g v := fun g v h game hgame =>
    h game (hgames ▸ hgame)
  refine ⟨⟨fun id game hgame => h.shared.keyed id game (hgames ▸ hgame), fun g v hmem =>
    hat g v (h.shared.completed g v (hcompleted ▸ hmem))⟩, fun k j _ hk => ?_⟩
  refine (h.job k j hk).of (fun held _ hheld => ?_) (fun held _ hheld => ?_) fun g v _ => hat g v
  · rwa [GameShared.Below, hgames]
  · rwa [GameShared.Same, hgames]

/-- The tables after `insert_game`. -/
def GameShared.withGame (s : GameShared) (game : GameRecord) : GameShared :=
  { s with sched := { s.sched with games := s.sched.games.insert game.id game } }

theorem GameShared.AtLeast.withGame {t : GameShared} {g v : UInt64} (h : t.AtLeast g v)
    (hbelow : t.Below game) : (t.withGame game).AtLeast g v := by
  intro game' hgame'
  rw [GameShared.withGame, lookup_insert] at hgame'
  split_ifs at hgame' with hid
  · obtain ⟨stored, hstored, hle⟩ := hbelow
    rw [← Option.some.inj hgame']
    exact UInt64.le_trans (h stored (hid ▸ hstored)) hle
  · exact h game' hgame'

/-- A write of a record whose latest version is between the stored one and those that the other
requests hold. -/
theorem undisturbed_withGame (h : Held GamesOk GameJob.Relies s) (hbelow : s.shared.Below game)
    (hothers : ∀ k j held, k ≠ i → s.jobs[k]? = some j → j.holds = some held → held.id = game.id →
      game.latestVersion ≤ held.latestVersion) :
    Undisturbed GamesOk GameJob.Relies s i (s.shared.withGame game) := by
  refine ⟨⟨fun id game' hgame' => ?_, fun g v hmem =>
    (h.shared.completed g v hmem).withGame hbelow⟩, fun k j hk hj => ?_⟩
  · rw [GameShared.withGame, lookup_insert] at hgame'
    split_ifs at hgame' with hid
    · rw [← Option.some.inj hgame', hid]
    · exact h.shared.keyed id game' hgame'
  obtain ⟨stored, hstored, hle⟩ := hbelow
  refine (h.job k j hj).of (fun held hheld hstays => ?_) (fun held hheld hstays => ?_)
    fun g v _ hat => hat.withGame ⟨stored, hstored, hle⟩
  · simp only [GameShared.Below, GameShared.withGame, lookup_insert]
    split_ifs with hid
    · exact ⟨game, rfl, hothers k j held hk hj hheld hid.symm⟩
    · exact hstays
  · simp only [GameShared.Same, GameShared.withGame, lookup_insert]
    split_ifs with hid
    · obtain ⟨stored', hstored', hlatest⟩ := hstays
      obtain rfl : stored = stored' := Option.some.inj (hstored.symm.trans (hid ▸ hstored'))
      exact ⟨game, rfl, UInt64.le_antisymm (hothers k j held hk hj hheld hid.symm)
        (hlatest ▸ hle)⟩
    · exact hstays

/-- A roll back writes the stored latest version back, which disturbs nobody. -/
theorem undisturbed_withSame (h : Held GamesOk GameJob.Relies s) (hsame : s.shared.Same game) :
    Undisturbed GamesOk GameJob.Relies s i (s.shared.withGame game) := by
  refine undisturbed_withGame h hsame.below fun k j held _ hj hheld hid => ?_
  obtain ⟨stored, hstored, hlatest⟩ := hsame
  obtain ⟨stored', hstored', hle⟩ := relies_holds_below (h.job k j hj) hheld
  rw [hid, hstored, Option.some.injEq] at hstored'
  rwa [← hlatest, hstored']

/-- The tables after `delete_game`. -/
def GameShared.withoutGame (s : GameShared) (id : UInt64) : GameShared :=
  { s with sched := { s.sched with games := s.sched.games.erase id } }

theorem GameShared.AtLeast.withoutGame {t : GameShared} {g v id : UInt64} (h : t.AtLeast g v) :
    (t.withoutGame id).AtLeast g v := by
  intro game hgame
  rw [GameShared.withoutGame, lookup_erase] at hgame
  split_ifs at hgame
  exact h game hgame

theorem undisturbed_withoutGame (h : Held GamesOk GameJob.Relies s) {id : UInt64}
    (hnone : ∀ (k : ℕ) (j : GameJob) (held : GameRecord), s.jobs[k]? = some j →
      j.holds = some held → held.id ≠ id) :
    Undisturbed GamesOk GameJob.Relies s i (s.shared.withoutGame id) := by
  refine ⟨⟨fun id' game hgame => ?_, fun g v hmem => (h.shared.completed g v hmem).withoutGame⟩,
    fun k j _ hj => ?_⟩
  · rw [GameShared.withoutGame, lookup_erase] at hgame
    split_ifs at hgame
    exact h.shared.keyed id' game hgame
  refine (h.job k j hj).of (fun held hheld hstays => ?_) (fun held hheld hstays => ?_)
    fun g v _ hat => hat.withoutGame
  · simpa only [GameShared.Below, GameShared.withoutGame, lookup_erase,
      if_neg (hnone k j held hj hheld).symm] using hstays
  · simpa only [GameShared.Same, GameShared.withoutGame, lookup_erase,
      if_neg (hnone k j held hj hheld).symm] using hstays

/-- A game is created where there is none and no publication has yet to reply. -/
theorem undisturbed_created (h : Held GamesOk GameJob.Relies s)
    (habsent : s.shared.sched.games[game.id]? = none)
    (hreply : ∀ (k : ℕ) (version : UInt64), s.jobs[k]? ≠ some (.replying game.id version)) :
    Undisturbed GamesOk GameJob.Relies s i
      ((s.shared.withGame game).restartCompleted game.id) := by
  have hother : ∀ g v, g ≠ game.id → s.shared.AtLeast g v →
      GameShared.AtLeast ((s.shared.withGame game).restartCompleted game.id) g v := by
    intro g v hg hat game' hgame'
    rw [GameShared.restartCompleted, GameShared.withGame, lookup_insert, if_neg hg.symm] at hgame'
    exact hat game' hgame'
  refine ⟨⟨fun id game' hgame' => ?_, fun g v hmem => ?_⟩, fun k j _ hj => ?_⟩
  · rw [GameShared.restartCompleted, GameShared.withGame, lookup_insert] at hgame'
    split_ifs at hgame' with hid
    · rw [← Option.some.inj hgame', hid]
    · exact h.shared.keyed id game' hgame'
  · obtain ⟨hmem, hg⟩ := List.mem_filter.1 hmem
    exact hother g v (by simpa using hg) (h.shared.completed g v hmem)
  -- whoever holds a record has one of a game that is stored
  have hstored : ∀ held, j.holds = some held → held.id ≠ game.id := by
    intro held hheld hid
    obtain ⟨stored, hstored, -⟩ := relies_holds_below (h.job k j hj) hheld
    rw [hid, habsent] at hstored
    cases hstored
  refine (h.job k j hj).of (fun held hheld hstays => ?_) (fun held hheld hstays => ?_)
    fun g v hj' => hother g v fun hg => hreply k v (by rw [hj, hj', hg])
  · simpa only [GameShared.Below, GameShared.restartCompleted, GameShared.withGame, lookup_insert,
      if_neg (hstored held hheld).symm] using hstays
  · simpa only [GameShared.Same, GameShared.restartCompleted, GameShared.withGame, lookup_insert,
      if_neg (hstored held hheld).symm] using hstays

end Disturbing

section Steps

variable {s : Jobs GameShared GameJob} {i : ℕ} {j j' : GameJob} {faults : List (Fault AnyError)}

/-- A lookup that ends without a record. -/
theorem lands_lookup {α : Type} (h : Held GamesOk GameJob.Relies s) {p : SchedIo α} (hq : Quiet p)
    (hp : Plain p) {k : Except AnyError α → GameJob}
    (hok : ∀ a, (exec p s.shared.sched).1 = .ok a → (k (.ok a)).Relies s.shared i)
    (herr : ∀ e, (k (.error e)).Relies s.shared i) :
    Lands GamesOk GameJob.Relies s i j
      ((transact (GameShared.db p) k).run ⟨s.shared, faults⟩) :=
  h.lookup (GameShared.quiet_db hq) (GameShared.sound_db hp) hok fun e _ => herr e

/-- A transaction on the other tables. -/
theorem lands_aside {α : Type} (h : Held GamesOk GameJob.Relies s) {p : SchedIo α}
    (ha : AllOrNothing p) (hp : Plain p)
    (hgames : (exec p s.shared.sched).2.games = s.shared.sched.games)
    {k : Except AnyError α → GameJob} (hk : ∀ r, (k r).Relies s.shared i) :
    Lands GamesOk GameJob.Relies s i j
      ((transact (GameShared.db p) k).run ⟨s.shared, faults⟩) := by
  refine h.transact (GameShared.allOrNothing_db ha) (GameShared.sound_db hp) (fun a _ => ?_)
    fun e _ => hk _
  refine ⟨undisturbed_games h hgames rfl, (hk _).of (fun held _ hheld => ?_)
    (fun held _ hheld => ?_) fun g v _ hat game hgame => hat game (hgames ▸ hgame)⟩
  · change ∃ stored, (exec p s.shared.sched).2.games[_]? = some stored ∧ _
    rwa [hgames]
  · change ∃ stored, (exec p s.shared.sched).2.games[_]? = some stored ∧ _
    rwa [hgames]

/-- No move takes away what a request relies on, while all are careful. -/
theorem gameSystem_keeping : Keeping gameSystem GamesOk GameJob.Relies GameCareful where
  start s r _ := by
    cases r <;> exact relies_idle rfl fun _ _ => by simp [gameSystem]
  env s others h _ := by
    have hothers : Undisturbed GamesOk GameJob.Relies s s.jobs.length _ :=
      undisturbed_games h (t := { s.shared with
        sched := { others with games := s.shared.sched.games } }) rfl rfl
    refine ⟨hothers.shared, fun k j hk => hothers.others k j ?_ hk⟩
    exact ne_of_lt (List.getElem?_eq_some_iff.1 hk).1
  restart t h := ⟨h.keyed, h.completed⟩
  go s i j faults h hj hcareful := by
    have hidle : GameJob.finished.Relies s.shared i := relies_idle rfl fun _ _ => by simp
    have hrelies := h.job i j hj
    have hcareful := hcareful j hj
    change Lands _ _ _ _ _ (j.next.run _)
    cases j with
    | publishing g v manifest =>
      rw [GameJob.next]
      split_ifs
      · exact h.pure hidle
      · refine lands_aside h (allOrNothing_saveVersion manifest) (plain_saveVersion manifest) rfl
          fun r => ?_
        rcases r with e | u <;> exact relies_idle rfl fun _ _ => by simp
    | saved g v =>
      refine h.lookup (GameShared.quiet_db (quiet_getGame g))
        (GameShared.sound_db (plain_getGame g))
        (fun a ha => ?_) fun e he => ?_
      · rcases a with _ | game
        · intro game hgame
          cases hgame.symm.trans (Except.ok.inj ha)
        have hgame : s.shared.sched.games[g]? = some game := Except.ok.inj ha
        dsimp only
        split_ifs with hnewer
        · refine ⟨h.shared.keyed g game hgame, rfl, game, ?_, UInt64.le_of_lt hnewer⟩
          rw [h.shared.keyed g game hgame]
          exact hgame
        · intro game' hgame'
          rw [Option.some.inj (hgame'.symm.trans hgame)]
          exact UInt64.not_lt.1 hnewer
      · rcases hcareful with hwilling | hat
        · obtain ⟨w, hw⟩ := he
          exact absurd hw (GameShared.db_no_error (willing_getGame g) hwilling e w)
        · exact hat
    | raising g v game =>
      obtain ⟨hid, hv, hbelow⟩ := hrelies
      obtain ⟨hwilling, hothers⟩ := hcareful
      refine h.transact (GameShared.allOrNothing_db (allOrNothing_insertGame game))
        (GameShared.sound_db (plain_insertGame game)) (fun a _ => ⟨?_, ?_⟩) fun e he => ?_
      · refine undisturbed_withGame h hbelow fun k j' held hk hj' hheld hheldId => ?_
        rw [hv]
        exact hothers k j' held hk hj' hheld (hheldId.trans hid)
      · intro game' hgame'
        change (s.shared.sched.games.insert game.id game)[g]? = _ at hgame'
        rw [lookup_insert, if_pos hid, Option.some.injEq] at hgame'
        rw [← hgame', hv]
        exact UInt64.le_refl _
      · rcases hwilling with hwilling | hat
        · obtain ⟨w, hw⟩ := he
          exact absurd hw (GameShared.db_no_error (willing_insertGame game) hwilling e w)
        · exact hat
    | replying g v =>
      refine Held.modify
        ⟨⟨h.shared.keyed, fun g' v' hmem => ?_⟩, fun k j' _ hk => h.job k j' hk⟩ hidle
      rcases List.mem_cons.1 hmem with heq | hmem
      · obtain ⟨rfl, rfl⟩ := Prod.mk.inj heq
        exact hrelies
      · exact h.shared.completed g' v' hmem
    | rollingBack g req =>
      rw [GameJob.next]
      split_ifs
      · exact h.pure hidle
      · refine lands_lookup h (quiet_getGame g) (plain_getGame g) (fun a ha => ?_) fun _ => hidle
        rcases a with _ | game
        · exact hidle
        have hgame : s.shared.sched.games[g]? = some game := Except.ok.inj ha
        intro held hheld
        obtain rfl : game = held := Option.some.inj hheld
        exact ⟨game, by rwa [h.shared.keyed g game hgame], rfl⟩
    | found game g req =>
      refine lands_lookup h (quiet_getVersion g req.version) (plain_getVersion g req.version)
        (fun a _ => ?_) fun _ => hidle
      rcases a with _ | manifest
      · exact hidle
      · exact hrelies
    | versioned game g req =>
      refine lands_lookup h (quiet_getNode req.nodeId) (plain_getNode req.nodeId) (fun a _ => ?_)
        fun _ => hidle
      rcases a with _ | node
      · exact hidle
      · exact hrelies
    | located game g req =>
      refine lands_aside h (allOrNothing_nextId _) (plain_nextId _) rfl fun r => ?_
      rcases r with e | id
      · exact hidle
      · intro held hheld
        obtain rfl : { game with currentVersion := req.version } = held := Option.some.inj hheld
        exact hrelies game rfl
    | numbered game task =>
      refine lands_aside h (allOrNothing_insertTask task) (plain_insertTask task) rfl fun r => ?_
      rcases r with e | u
      · exact hidle
      · exact hrelies
    | pushing game task => exact Held.modify (undisturbed_games h rfl rfl) hrelies
    | switching game =>
      exact h.transact (GameShared.allOrNothing_db (allOrNothing_insertGame game))
        (GameShared.sound_db (plain_insertGame game))
        (fun _ _ => ⟨undisturbed_withSame h (hrelies game rfl), relies_idle rfl fun _ _ => by simp⟩)
        fun _ _ => hidle
    | deleting g =>
      exact h.transact (GameShared.allOrNothing_db (allOrNothing_deleteGame g))
        (GameShared.sound_db (plain_deleteGame g))
        (fun _ _ => ⟨undisturbed_withoutGame h hcareful, relies_idle rfl fun _ _ => by simp⟩)
        fun _ _ => hidle
    | creating req =>
      rw [GameJob.next]
      split_ifs
      · exact h.pure hidle
      rcases req.id with _ | id <;> dsimp only
      · refine lands_aside h (allOrNothing_nextId _) (plain_nextId _) rfl fun r => ?_
        rcases r with e | id <;> exact relies_idle rfl fun _ _ => by simp
      · split_ifs
        · exact h.pure hidle
        · refine lands_lookup h (quiet_getGame id) (plain_getGame id) (fun a _ => ?_) fun _ => hidle
          rcases a with _ | game <;> exact relies_idle rfl fun _ _ => by simp
    | absent game =>
      exact h.transact (GameShared.allOrNothing_createGame game) (GameShared.sound_createGame game)
        (fun _ _ => ⟨undisturbed_created h hcareful.1 hcareful.2,
          relies_idle rfl fun _ _ => by simp⟩) fun _ _ => hidle
    | finished => exact h.pure hidle

end Steps

section Runs

/-- The record that a request's next transaction writes. -/
def GameJob.writes : GameJob → Option GameRecord
  | .raising _ _ game => some game
  | .switching game => some game
  | .absent game => some game
  | _ => none

/-- A transaction on the other tables leaves the games alone, whether it is done or not. -/
theorem transact_games {α : Type} {p : SchedIo α} (ha : AllOrNothing p) (hp : Plain p)
    {s : GameShared} (hgames : (exec p s.sched).2.games = s.sched.games)
    (k : Except AnyError α → GameJob) (faults : List (Fault AnyError)) :
    ((transact (GameShared.db p) k).run ⟨s, faults⟩).2.state.sched.games = s.sched.games := by
  rcases transact_state (GameShared.allOrNothing_db ha) (GameShared.sound_db hp) k s faults
    with h | h <;> rw [h]
  exact hgames

/-- What the next transaction of a request can do to the games. -/
theorem next_games (j : GameJob) (s : GameShared) (faults : List (Fault AnyError)) :
    (j.next.run ⟨s, faults⟩).2.state.sched.games = s.sched.games
      ∨ (∃ game, j.writes = some game
        ∧ (j.next.run ⟨s, faults⟩).2.state.sched.games = s.sched.games.insert game.id game)
      ∨ ∃ id, j = .deleting id
        ∧ (j.next.run ⟨s, faults⟩).2.state.sched.games = s.sched.games.erase id := by
  have hlook : ∀ {α : Type} {p : SchedIo α} (_ : Quiet p) (_ : Plain p)
      (k : Except AnyError α → GameJob),
      ((transact (GameShared.db p) k).run ⟨s, faults⟩).2.state.sched.games = s.sched.games :=
    fun hq hp k => transact_games hq.allOrNothing hp (by rw [hq.exec]) k faults
  cases j with
  | publishing g v manifest =>
    rw [GameJob.next]
    split_ifs
    · exact .inl rfl
    · exact .inl (transact_games (allOrNothing_saveVersion manifest)
        (plain_saveVersion manifest) rfl
        _ _)
  | saved g v => exact .inl (hlook (quiet_getGame g) (plain_getGame g) _)
  | raising g v game =>
    rcases transact_state (GameShared.allOrNothing_db (allOrNothing_insertGame game))
      (GameShared.sound_db (plain_insertGame game)) (fun _ => GameJob.replying g v) s faults
      with h | h
    · exact .inl (congrArg (·.sched.games) h)
    · exact .inr (.inl ⟨game, rfl, congrArg (·.sched.games) h⟩)
  | replying g v => exact .inl rfl
  | rollingBack g req =>
    rw [GameJob.next]
    split_ifs
    · exact .inl rfl
    · exact .inl (hlook (quiet_getGame g) (plain_getGame g) _)
  | found game g req =>
    exact .inl (hlook (quiet_getVersion g req.version) (plain_getVersion g req.version) _)
  | versioned game g req => exact .inl (hlook (quiet_getNode _) (plain_getNode _) _)
  | located game g req =>
    exact .inl (transact_games (allOrNothing_nextId _) (plain_nextId _) rfl _ _)
  | numbered game task =>
    exact .inl (transact_games (allOrNothing_insertTask task) (plain_insertTask task) rfl _ _)
  | pushing game task => exact .inl rfl
  | switching game =>
    rcases transact_state (GameShared.allOrNothing_db (allOrNothing_insertGame game))
      (GameShared.sound_db (plain_insertGame game)) (fun _ => GameJob.finished) s faults with h | h
    · exact .inl (congrArg (·.sched.games) h)
    · exact .inr (.inl ⟨game, rfl, congrArg (·.sched.games) h⟩)
  | deleting g =>
    rcases transact_state (GameShared.allOrNothing_db (allOrNothing_deleteGame g))
      (GameShared.sound_db (plain_deleteGame g)) (fun _ => GameJob.finished) s faults with h | h
    · exact .inl (congrArg (·.sched.games) h)
    · exact .inr (.inr ⟨g, rfl, congrArg (·.sched.games) h⟩)
  | creating req =>
    rw [GameJob.next]
    split_ifs
    · exact .inl rfl
    rcases req.id with _ | id <;> dsimp only
    · exact .inl (transact_games (allOrNothing_nextId _) (plain_nextId _) rfl _ _)
    · split_ifs
      · exact .inl rfl
      · exact .inl (hlook (quiet_getGame id) (plain_getGame id) _)
  | absent game =>
    rcases transact_state (GameShared.allOrNothing_createGame game)
      (GameShared.sound_createGame game) (fun _ => GameJob.finished) s faults with h | h
    · exact .inl (congrArg (·.sched.games) h)
    · exact .inr (.inl ⟨game, rfl, congrArg (·.sched.games) h⟩)
  | finished => exact .inl rfl

/-- What one move can do to the games. -/
theorem gameSystem_games (s : Jobs GameShared GameJob) (m : Move AnyError GameRequest Sched) :
    (gameSystem.apply s m).shared.sched.games = s.shared.sched.games
      ∨ ∃ i faults j, m = .go i faults ∧ s.jobs[i]? = some j
        ∧ ((∃ game, j.writes = some game ∧ (gameSystem.apply s m).shared.sched.games
            = s.shared.sched.games.insert game.id game)
          ∨ ∃ id, j = .deleting id
            ∧ (gameSystem.apply s m).shared.sched.games = s.shared.sched.games.erase id) := by
  cases m with
  | start r => exact .inl rfl
  | env others => exact .inl rfl
  | crash => exact .inl rfl
  | go i faults =>
    rcases hj : s.jobs[i]? with _ | j
    · exact .inl (by simp only [JobSystem.apply, hj])
    have hgames : (gameSystem.apply s (.go i faults)).shared.sched.games
        = (j.next.run ⟨s.shared, faults⟩).2.state.sched.games := by
      rcases JobSystem.apply_go_shared hj faults with h | h <;> exact congrArg (·.sched.games) h
    rw [hgames]
    rcases next_games j s.shared faults with h | h
    · exact .inl h
    · exact .inr ⟨i, faults, j, rfl, hj, h⟩

/-- The claim's three parts at one careful move. -/
theorem gameLawful_apply {s : Jobs GameShared GameJob} (h : Held GamesOk GameJob.Relies s)
    {m : Move AnyError GameRequest Sched} (hm : GameCareful s m) :
    GameLawful s m (gameSystem.apply s m) := by
  have hcompleted := (gameSystem_keeping.apply h hm).shared.completed
  rcases gameSystem_games s m with hgames | ⟨i, faults, j, rfl, hj, ⟨game, hwrites, hgames⟩ |
    ⟨id, rfl, hgames⟩⟩
  · refine ⟨fun id before after hbefore hafter => ?_, fun id hnone hsome => ?_, hcompleted⟩
    · rw [hgames, hbefore, Option.some.injEq] at hafter
      exact hafter ▸ UInt64.le_refl _
    · rw [hgames] at hsome
      exact absurd hnone hsome
  · -- a request that writes a record back has read it, and the game is still there
    have hwriter : j = .absent game ∨ s.shared.Below game := by
      cases j with
      | absent game' => exact .inl (by rw [Option.some.inj hwrites])
      | raising g v game' =>
        exact .inr (relies_holds_below (h.job i _ hj) (Option.some.inj hwrites ▸ rfl))
      | switching game' =>
        exact .inr (relies_holds_below (h.job i _ hj) (Option.some.inj hwrites ▸ rfl))
      | _ => cases hwrites
    refine ⟨fun id before after hbefore hafter => ?_, fun id hnone hsome => ?_, hcompleted⟩
    · rw [hgames, lookup_insert] at hafter
      split_ifs at hafter with hid
      · subst hid
        rw [← Option.some.inj hafter]
        rcases hwriter with rfl | ⟨stored, hstored, hle⟩
        · have habsent := (hm _ hj).1
          cases habsent.symm.trans hbefore
        · rwa [Option.some.inj (hbefore.symm.trans hstored)]
      · rw [Option.some.inj (hbefore.symm.trans hafter)]
        exact UInt64.le_refl _
    · rw [hgames, lookup_insert] at hsome
      split_ifs at hsome with hid
      · rcases hwriter with rfl | ⟨stored, hstored, -⟩
        · exact ⟨i, faults, game, rfl, hj, hid⟩
        · rw [hid, hnone] at hstored
          cases hstored
      · exact absurd hnone hsome
  · refine ⟨fun id' before after hbefore hafter => ?_, fun id' hnone hsome => ?_, hcompleted⟩
    · rw [hgames, lookup_erase] at hafter
      split_ifs at hafter
      rw [Option.some.inj (hbefore.symm.trans hafter)]
      exact UInt64.le_refl _
    · rw [hgames, lookup_erase] at hsome
      split_ifs at hsome
      · exact absurd rfl hsome
      · exact absurd hnone hsome

/-- In a run from empty tables whose moves are all careful, every move is lawful. -/
theorem gameSystem_lawful (before after : List (Move AnyError GameRequest Sched))
    (m : Move AnyError GameRequest Sched)
    (hrun : gameSystem.Along GameCareful noGames (before ++ m :: after)) :
    GameLawful (gameSystem.run noGames before) m (gameSystem.run noGames (before ++ [m])) := by
  have hempty : Held GamesOk GameJob.Relies noGames :=
    ⟨⟨by simp [noGames, Sched.empty], by simp [noGames]⟩, fun k j hk => by simp [noGames] at hk⟩
  rw [JobSystem.along_append] at hrun
  rw [JobSystem.run_append]
  exact gameLawful_apply (gameSystem_keeping.run before noGames hempty hrun.1) hrun.2.1

end Runs

section Example

/-- The game whose publication a job is about to reply to. -/
def GameJob.replies : GameJob → Option UInt64
  | .replying gameId _ => some gameId
  | _ => none

/-- What a careful move without faults demands, told from the jobs that are there. -/
def CarefulStep (s : Jobs GameShared GameJob) (i : ℕ) : GameJob → Prop
  | .raising gameId version _ => ∀ e ∈ s.jobs.zipIdx, e.2 ≠ i → ∀ held ∈ e.1.holds,
      held.id = gameId → version ≤ held.latestVersion
  | .deleting gameId => ∀ j ∈ s.jobs, ∀ held ∈ j.holds, held.id ≠ gameId
  | .absent game => s.shared.sched.games[game.id]? = none
      ∧ ∀ j ∈ s.jobs, game.id ∉ j.replies
  | _ => True

instance (s : Jobs GameShared GameJob) (i : ℕ) (j : GameJob) : Decidable (CarefulStep s i j) := by
  cases j <;> unfold CarefulStep <;> infer_instance

def CarefulMove (s : Jobs GameShared GameJob) : Move AnyError GameRequest Sched → Prop
  | .go i faults => faults.isEmpty ∧ ∀ j ∈ s.jobs[i]?, CarefulStep s i j
  | _ => True

instance (s : Jobs GameShared GameJob) :
    ∀ m : Move AnyError GameRequest Sched, Decidable (CarefulMove s m)
  | .go i faults => inferInstanceAs
    (Decidable (faults.isEmpty ∧ ∀ j ∈ s.jobs[i]?, CarefulStep s i j))
  | .start _ => isTrue trivial
  | .env _ => isTrue trivial
  | .crash => isTrue trivial

theorem CarefulMove.gameCareful {s : Jobs GameShared GameJob}
    {m : Move AnyError GameRequest Sched} (h : CarefulMove s m) : GameCareful s m := by
  rcases m with r | ⟨i, faults⟩ | others | _
  · trivial
  · obtain ⟨hfaults, hstep⟩ := h
    obtain rfl : faults = [] := List.isEmpty_iff.1 hfaults
    intro j hj
    have hstep := hstep j hj
    cases j with
    | saved g v => exact .inl (by simp)
    | raising g v game =>
      exact ⟨.inl (by simp), fun k j' held hk hj' hheld hid =>
        hstep (j', k) (List.mem_zipIdx_iff_getElem?.2 hj') hk held hheld hid⟩
    | deleting g =>
      exact fun k j' held hj' hheld => hstep j' (List.mem_of_getElem? hj') held hheld
    | absent game =>
      exact ⟨hstep.1, fun k version hk => hstep.2 _ (List.mem_of_getElem? hk) rfl⟩
    | _ => trivial
  · trivial
  · trivial

/-- Game 1 is created. -/
def created : List (Move AnyError GameRequest Sched) :=
  [.start (.create ⟨"g", some 1⟩), .go 0 [], .go 0 []]

/-- Versions 5 and 6 of it are published side by side: both read the record of the game as it was,
and version 5 writes it back first. -/
def publishedTogether : List (Move AnyError GameRequest Sched) :=
  [.start (.publish 1 5 [0]), .start (.publish 1 6 [0]), .go 1 [], .go 2 [], .go 2 [],
    .go 1 [], .go 1 []]

theorem gameSystem_lawful_published :
    GameLawful (gameSystem.run noGames (created ++ publishedTogether)) (.go 2 [])
      (gameSystem.run noGames (created ++ publishedTogether ++ [.go 2 []])) := by
  have hcareful : gameSystem.Along CarefulMove noGames
      (created ++ publishedTogether ++ .go 2 [] :: [.go 1 [], .go 2 []]) := by
    decide +kernel
  exact gameSystem_lawful (created ++ publishedTogether) [.go 1 [], .go 2 []] (.go 2 [])
    (hcareful.mono fun _ _ => CarefulMove.gameCareful)

/-- A node with version 1 of game 1 is there; a roll back to it has read the game's record when
version 2 is published and its publication replies. -/
def publishedMeanwhile : List (Move AnyError GameRequest Sched) :=
  .env { Sched.empty with nodes := Std.ExtTreeMap.insert ∅ 1 ⟨1, "cafe", "e", "", [], "online", 0⟩ }
    :: created ++ [.start (.publish 1 1 [0]), .go 1 [], .go 1 [], .go 1 [], .go 1 [],
    .start (.rollback 1 ⟨1, 1⟩), .go 2 [], .start (.publish 1 2 [0]), .go 3 [], .go 3 [], .go 3 [],
    .go 3 [], .go 2 [], .go 2 [], .go 2 [], .go 2 [], .go 2 []]

/-- A publication has read the record of a game that is then deleted. -/
def deletedMeanwhile : List (Move AnyError GameRequest Sched) :=
  created ++ [.start (.publish 1 1 [0]), .go 1 [], .go 1 [], .start (.delete 1), .go 2 []]

/-- The roll back takes the latest version back to 1, and the publication brings the game back. -/
theorem gameSystem_update_lost :
    ¬ GameLawful (gameSystem.run noGames publishedMeanwhile) (.go 2 [])
        (gameSystem.run noGames (publishedMeanwhile ++ [.go 2 []]))
      ∧ ¬ GameLawful (gameSystem.run noGames deletedMeanwhile) (.go 1 [])
        (gameSystem.run noGames (deletedMeanwhile ++ [.go 1 []])) := by
  constructor <;> intro h
  · have hbefore : (gameSystem.run noGames publishedMeanwhile).shared.sched.games[(1 : UInt64)]?
        = some ⟨1, "g", "uploading", 0, 2⟩ := by decide +kernel
    have hafter : (gameSystem.run noGames (publishedMeanwhile ++ [.go 2 []])).shared.sched.games[
        (1 : UInt64)]? = some ⟨1, "g", "uploading", 1, 1⟩ := by decide +kernel
    exact absurd (h.grows 1 _ _ hbefore hafter) (by decide)
  · have hgone : (gameSystem.run noGames deletedMeanwhile).shared.sched.games[(1 : UInt64)]?
        = none :=
      by decide +kernel
    have hback : (gameSystem.run noGames (deletedMeanwhile ++ [.go 1 []])).shared.sched.games[
        (1 : UInt64)]? ≠ none := by decide +kernel
    have hjob : (gameSystem.run noGames deletedMeanwhile).jobs[1]?
        = some (.raising 1 1 ⟨1, "g", "uploading", 0, 1⟩) := by decide +kernel
    obtain ⟨i, faults, game, hm, hj, -⟩ := h.created 1 hgone hback
    obtain ⟨rfl, rfl⟩ : i = 1 ∧ faults = [] := by cases hm; exact ⟨rfl, rfl⟩
    cases hjob.symm.trans hj

end Example

end BlazeNet

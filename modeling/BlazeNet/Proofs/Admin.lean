import BlazeNet.Admin
import BlazeNet.Proofs.Backup
import BlazeNet.Proofs.GameJobs

/-!
# What the administrator's requests do

Every request does one of a few things to the tables (`AdminEffect`), or nothing, apart from the
counters and the audit log (`Aside`). The results about runs of requests split on these cases.
-/

namespace BlazeNet

open Wire FaultIo Io RustStd Admin

variable {α ν : Type} {S : Fault AnyError → Prop} {d d' : Db}

section Aside

/-- Only the counters, the audit log and the memory of the process have changed. -/
def Aside (d d' : Db) : Prop := ∃ counters pending audits,
  d' = { d with
    sched := { d.sched with counters := counters, pending := pending }, audits := audits }

theorem Aside.refl (d : Db) : Aside d d := ⟨_, _, _, rfl⟩

theorem Aside.trans {d'' : Db} (h : Aside d d') (h' : Aside d' d'') : Aside d d'' := by
  obtain ⟨c, p, a, rfl⟩ := h
  obtain ⟨c', p', a', rfl⟩ := h'
  exact ⟨c', p', a', rfl⟩

theorem frame_aside : FaultIo.Frame Aside := ⟨.refl, fun _ _ _ => .trans⟩

/-- A change that does not look at the counters or the audit log, nor touch them. -/
def PutsAside (U : Db → Db) : Prop := ∀ d counters pending audits,
  U { d with sched := { d.sched with counters := counters, pending := pending }, audits := audits }
    = { U d with
      sched := { (U d).sched with counters := counters, pending := pending }, audits := audits }

theorem Aside.put {U : Db → Db} (hput : PutsAside U) (h : Aside d d') :
    Aside (U d) (U d') := by
  obtain ⟨c, p, a, rfl⟩ := h
  exact ⟨c, p, a, hput d c p a⟩

theorem aside_restart (d : Db) : Aside d (dbSystem.restart d) := ⟨_, _, _, rfl⟩

end Aside

section Transactions

variable {p : DbIo α}

/-- A transaction is done, refused with a server error, or the process dies before it. -/
theorem wp_orStoreError {Q : Except (Stop AnyError) (Except StatusCode α) → Db → Prop}
    (ha : AllOrNothing p) (hs : Sound p)
    (hok : ∀ a, (exec p d).1 = .ok a → Q (.ok (.ok a)) (exec p d).2)
    (herr : Q (.ok (.error .internalServerError)) d) (hdie : ∀ e, Q (.error e) d) :
    wp S (orStoreError p).run d Q := by
  refine wp_bind (wp_attempt (wp_mono (ha.wp hs S d) fun r d' h => ?_))
  rcases r with (e | _) | a
  · obtain rfl : d' = d := h
    exact wp_pure herr
  · obtain rfl : d' = d := h
    exact hdie _
  · have h : exec p d = (.ok a, d') := h
    have hq := hok a (by rw [h])
    rw [h] at hq
    exact wp_pure hq

theorem keeps_audit (timeMs : UInt64) (action detail : String) :
    Keeps Aside (audit timeMs action detail).run := by
  have hid : Keeps Aside (Db.onSched (Store.nextId BackupJob.nextAuditIdKey)) := fun S d =>
    wp_zoom (wp_mono ((allOrNothing_nextId _).wp (plain_nextId _).sound S d.sched) fun r s h => by
      rcases r with e | a
      · obtain rfl : s = d.sched := h
        exact .refl d
      · rw [exec_nextId] at h
        obtain rfl := congrArg Prod.snd h
        exact ⟨_, _, _, rfl⟩)
  have hrecord : ∀ id : UInt64, ∀ r : AuditRecord, Keeps Aside (Db.onAudits (insertJson id r)) :=
    fun id r S d => wp_zoom
      (wp_mono ((allOrNothing_insertJson id r).wp (plain_insertJson id r).sound
      S d.audits) fun r s h => ⟨_, _, s, rfl⟩)
  refine frame_aside.seq (frame_aside.seq (Keeps.attempt (frame_aside.seq hid fun id => ?_))
    fun _ => frame_aside.pure _) fun _ => frame_aside.pure _
  exact frame_aside.seq (hrecord id _) fun _ => frame_aside.pure _

end Transactions

section Ends

/-- How a request on `d` ends: nothing is done and it is not answered with a result, or `M` says
what is, which is its result if it has one. -/
def Ends (d : Db) (M : α → Db → Prop) (r : Except (Stop AnyError) (Except StatusCode α))
    (d' : Db) : Prop :=
  (Aside d d' ∧ ∀ a, r ≠ .ok (.ok a))
    ∨ ∃ a dm, M a dm ∧ Aside dm d' ∧ ∀ x, r = .ok (.ok x) → x = a

variable {M : α → Db → Prop} {r : Except (Stop AnyError) (Except StatusCode α)}

theorem Ends.undone (h : Aside d d') (hr : ∀ a, r ≠ .ok (.ok a)) : Ends d M r d' := .inl ⟨h, hr⟩

/-- What comes after does no more than the audit. -/
theorem wp_ends_audited {a : α} {dm : Db} (hmade : M a dm) (h : Aside dm d') (timeMs : UInt64)
    (action detail : String) :
    wp S (do audit timeMs action detail; pure a : AdminHandler α).run d' (Ends d M) := by
  refine wp_exceptT_bind (wp_mono (keeps_audit timeMs action detail S d') fun r d'' h' => ?_)
  rcases r with e | e | u
  · exact .inr ⟨a, dm, hmade, h.trans h', by simp⟩
  · exact .inr ⟨a, dm, hmade, h.trans h', by simp⟩
  · exact wp_pure (.inr ⟨a, dm, hmade, h.trans h', fun x hx => by simpa using hx.symm⟩)

theorem wp_ends_audit {M : Unit → Db → Prop} {dm : Db} (hmade : M () dm) (h : Aside dm d')
    (timeMs : UInt64) (action detail : String) :
    wp S (audit timeMs action detail).run d' (Ends d M) := by
  simpa using wp_ends_audited hmade h timeMs action detail

theorem wp_ends_throw (code : StatusCode) :
    wp S (throw code : AdminHandler α).run d (Ends d M) :=
  wp_pure (.undone (.refl d) (by simp))

theorem wp_ends_reply {p : AdminHandler α} {f : α → ν} {M' : ν → Db → Prop}
    (h : wp S p.run d (Ends d M)) (hmade : ∀ a dm, M a dm → M' (f a) dm) :
    wp S (do return f (← p) : AdminHandler ν).run d (Ends d M') := by
  refine wp_exceptT_bind (wp_mono h fun r d' h' => ?_)
  rcases h' with ⟨haside, hr⟩ | ⟨a, dm, ha, haside, hr⟩
  · rcases r with e | e | a
    · exact .undone haside (by simp)
    · exact .undone haside (by simp)
    · exact absurd rfl (hr a)
  · rcases r with e | e | x
    · exact .inr ⟨_, dm, hmade a dm ha, haside, by simp⟩
    · exact .inr ⟨_, dm, hmade a dm ha, haside, by simp⟩
    · obtain rfl := hr x rfl
      exact wp_pure (.inr ⟨_, dm, hmade x dm ha, haside, fun y hy => by simpa using hy.symm⟩)

/-- A transaction that comes first in a request. -/
theorem wp_ends_first {β : Type} {p : DbIo β} {f : β → AdminHandler α} (ha : AllOrNothing p)
    (hs : Sound p) (hok : ∀ b, (exec p d').1 = .ok b → wp S (f b).run (exec p d').2 (Ends d M))
    (h : Aside d d') : wp S (orStoreError p >>= f).run d' (Ends d M) :=
  wp_exceptT_bind (wp_orStoreError ha hs hok (.undone h (by simp)) fun _ => .undone h (by simp))

theorem aside_nextId (counter : String) (d : Db) :
    Aside d (exec (Db.onSched (Store.nextId counter)) d).2 := ⟨_, _, _, rfl⟩

theorem wp_created {counter : String} {record : UInt64 → ν} {insert : ν → DbIo Unit}
    {U : ν → Db → Db} (ha : ∀ v, AllOrNothing (insert v)) (hs : ∀ v, Sound (insert v))
    (hput : ∀ v d, exec (insert v) d = (.ok (), U v d))
    (haside : ∀ v, PutsAside (U v)) (timeMs : UInt64) (action : String) (detail : ν → String) :
    wp S (do
      let v ← createRecord counter record insert
      audit timeMs action (detail v)
      pure v : AdminHandler ν).run d
      (Ends d fun v dm => dm = U v d) := by
  have hid := aside_nextId counter d
  rw [createRecord, bind_assoc]
  refine wp_ends_first (.zoom (fun _ => rfl) (allOrNothing_nextId counter))
    (plain_nextId counter).sound.zoom (fun id _ => ?_) (.refl d)
  rw [bind_assoc]
  refine wp_ends_first (ha _) (hs _) (fun _ _ => ?_) hid
  rw [hput, pure_bind]
  exact wp_ends_audited (M := fun v dm => dm = U v d) rfl (hid.put (haside _)) _ _ _

theorem wp_deleted {delete : DbIo Bool} {erase : Db → Db} (ha : AllOrNothing delete)
    (hs : Sound delete) (herase : (exec delete d).2 = erase d) (timeMs : UInt64)
    (action detail : String) :
    wp S (do
      deleteRecord delete
      audit timeMs action detail : AdminHandler Unit).run d (Ends d fun _ dm => dm = erase d) := by
  rw [deleteRecord, bind_assoc]
  refine wp_ends_first ha hs (fun found _ => ?_) (.refl d)
  rw [herase]
  rcases found with _ | _
  · exact wp_pure (.inr ⟨(), _, rfl, .refl _, by simp⟩)
  · exact wp_ends_audit (M := fun _ dm => dm = erase d) rfl (.refl _) timeMs action detail

end Ends

section Effects

/-- What a request that is granted does to the tables, with its answer. -/
inductive AdminEffect (d : Db) : AdminRequest → AdminReply → Db → Prop
  | createUser (req : CreateUserRequest) (user : UserRecord) : AdminEffect d (.createUser req)
      (.user user) { d with users := d.users.insert user.id user }
  | deleteUser (id : UInt64) :
      AdminEffect d (.deleteUser id) .noContent { d with users := d.users.erase id }
  | createPlace (req : CreatePlaceRequest) (place : PlaceRecord) : AdminEffect d (.createPlace req)
      (.place place) { d with places := d.places.insert place.id place }
  | deletePlace (id : UInt64) :
      AdminEffect d (.deletePlace id) .noContent { d with places := d.places.erase id }
  | createGroup (req : CreateGroupRequest) (group : GroupRecord) : AdminEffect d (.createGroup req)
      (.group group) { d with groups := d.groups.insert group.id group }
  | deleteGroup (id : UInt64) :
      AdminEffect d (.deleteGroup id) .noContent { d with groups := d.groups.erase id }
  | bind (req : BindRequest) (valid : validKind req.kind = true) : AdminEffect d (.bind req)
      .noContent { d with bindings := d.bindings.insert s!"{req.kind}/{req.a}/{req.b}" 1 }
  | createGame (req : CreateGameRequest) (id : UInt64) (named : req.name.isEmpty = false)
      (asked : ∀ id', req.id = some id' → id = id' ∧ d.sched.games[id]? = none)
      (next : req.id = none → id = d.sched.nextCount Store.nextGameIdKey) :
      AdminEffect d (.createGame req) (.game (GameJob.newGame id req.name))
        { d with sched := { d.sched with
          games := d.sched.games.insert id (GameJob.newGame id req.name) } }
  | deleteGame (id : UInt64) : AdminEffect d (.deleteGame id) .noContent
      { d with sched := { d.sched with games := d.sched.games.erase id } }

theorem wp_createGame (timeMs : UInt64) (req : CreateGameRequest) :
    wp S (createGame timeMs req).run d (Ends d fun game dm =>
      AdminEffect d (.createGame req) (.game game) dm) := by
  unfold createGame
  split_ifs with hname
  · exact wp_ends_throw _
  have hinsert : ∀ (id : UInt64) (d₁ : Db), Aside d d₁ →
      (∀ id', req.id = some id' → id = id' ∧ d.sched.games[id]? = none) →
      (req.id = none → id = d.sched.nextCount Store.nextGameIdKey) →
      wp S (do
        let game := GameJob.newGame id req.name
        orStoreError (Db.onSched (Store.insertGame game))
        audit timeMs "创建游戏" s!"游戏 ID {game.id}"
        pure game : AdminHandler GameRecord).run d₁
        (Ends d fun game dm => AdminEffect d (.createGame req) (.game game) dm) := by
    intro id d₁ haside hasked hnext
    refine wp_ends_first (.zoom (fun _ => rfl) (allOrNothing_insertGame _))
      (plain_insertGame _).sound.zoom (fun _ _ => ?_) haside
    refine wp_ends_audited (.createGame req id (by simpa using hname) hasked hnext) ?_ _ _ _
    exact haside.put (U := fun d => { d with sched := { d.sched with
      games := d.sched.games.insert id (GameJob.newGame id req.name) } }) fun _ _ _ _ => rfl
  unfold newGameId
  rcases hid : req.id with _ | id
  · refine wp_ends_first (.zoom (fun _ => rfl) (allOrNothing_nextId _))
      (plain_nextId _).sound.zoom (fun id hexec => ?_) (.refl d)
    refine hinsert id _ (aside_nextId _ d) (by simp [hid]) fun _ => ?_
    rw [← Except.ok.inj hexec]
    rfl
  · dsimp only
    split_ifs
    · exact wp_ends_throw _
    rw [bind_assoc]
    refine wp_ends_first ((quiet_getGame id).zoom fun _ => rfl).allOrNothing
      (plain_getGame id).sound.zoom (fun found hexec => ?_) (.refl d)
    have hfound : found = d.sched.games[id]? := (Except.ok.inj hexec).symm
    rcases found with _ | game
    · rw [pure_bind]
      exact hinsert id _ (.refl d) (by simp [hid, ← hfound]) (by simp [hid])
    · exact wp_ends_throw _

variable {blake3 : Bytes → Hash}

/-- Every request ends with its effect or with none. -/
theorem handler_ends (c : AdminCall) :
    wp S (c.handler blake3).run d (Ends d (AdminEffect d c.request)) := by
  rcases c with ⟨req | id | req | id | req | id | req | req | id, nowMs, auditMs, faults⟩
  · refine wp_ends_reply (f := AdminReply.user)
      (M := fun user dm => dm = { d with users := d.users.insert user.id user }) ?_
      fun user dm h => h ▸ .createUser req user
    unfold createUser
    split_ifs
    · exact wp_ends_throw _
    · exact wp_created (U := fun user d => { d with users := d.users.insert user.id user })
        (fun user => .zoom (fun _ => rfl) (allOrNothing_insertJson _ _))
        (fun user => (plain_insertJson _ _).sound.zoom) (fun _ _ => rfl)
        (fun _ _ _ _ _ => rfl) _ _ _
  · refine wp_ends_reply (f := fun _ : Unit => AdminReply.noContent)
      (M := fun _ dm => dm = { d with users := d.users.erase id }) ?_ fun _ dm h =>
        h ▸ .deleteUser id
    exact wp_deleted (.zoom (fun _ => rfl) (allOrNothing_deleteJson id))
      (plain_deleteJson id).sound.zoom rfl _ _ _
  · refine wp_ends_reply (f := AdminReply.place)
      (M := fun place dm => dm = { d with places := d.places.insert place.id place }) ?_
      fun place dm h => h ▸ .createPlace req place
    unfold createPlace
    split_ifs
    · exact wp_ends_throw _
    · exact wp_created (U := fun place d => { d with places := d.places.insert place.id place })
        (fun place => .zoom (fun _ => rfl) (allOrNothing_insertJson _ _))
        (fun place => (plain_insertJson _ _).sound.zoom) (fun _ _ => rfl)
        (fun _ _ _ _ _ => rfl) _ _ _
  · refine wp_ends_reply (f := fun _ : Unit => AdminReply.noContent)
      (M := fun _ dm => dm = { d with places := d.places.erase id }) ?_ fun _ dm h =>
        h ▸ .deletePlace id
    exact wp_deleted (.zoom (fun _ => rfl) (allOrNothing_deleteJson id))
      (plain_deleteJson id).sound.zoom rfl _ _ _
  · refine wp_ends_reply (f := AdminReply.group)
      (M := fun group dm => dm = { d with groups := d.groups.insert group.id group }) ?_
      fun group dm h => h ▸ .createGroup req group
    unfold createGroup
    split_ifs
    · exact wp_ends_throw _
    · exact wp_created (U := fun group d => { d with groups := d.groups.insert group.id group })
        (fun group => .zoom (fun _ => rfl) (allOrNothing_insertJson _ _))
        (fun group => (plain_insertJson _ _).sound.zoom) (fun _ _ => rfl)
        (fun _ _ _ _ _ => rfl) _ _ _
  · refine wp_ends_reply (f := fun _ : Unit => AdminReply.noContent)
      (M := fun _ dm => dm = { d with groups := d.groups.erase id }) ?_ fun _ dm h =>
        h ▸ .deleteGroup id
    exact wp_deleted (.zoom (fun _ => rfl) (allOrNothing_deleteJson id))
      (plain_deleteJson id).sound.zoom rfl _ _ _
  · refine wp_ends_reply (f := fun _ : Unit => AdminReply.noContent)
      (M := fun _ dm => AdminEffect d (.bind req) .noContent dm) ?_ fun _ _ h => h
    change wp S (bindRecords auditMs req).run d _
    unfold bindRecords
    split_ifs with hkind
    · exact wp_ends_throw _
    · refine wp_ends_first (.zoom (fun _ => rfl) (allOrNothing_bind _ _ _))
        (plain_bind _ _ _).sound.zoom (fun _ _ => ?_) (.refl d)
      exact wp_ends_audit (M := fun _ dm => AdminEffect d (.bind req) .noContent dm)
        (AdminEffect.bind req (by simpa using hkind)) (.refl _) _ _ _
  · exact wp_ends_reply (f := AdminReply.game) (wp_createGame auditMs req) fun _ _ h => h
  · refine wp_ends_reply (f := fun _ : Unit => AdminReply.noContent)
      (M := fun _ dm => dm = { d with sched := { d.sched with games := d.sched.games.erase id } })
        ?_ fun _ dm h => h ▸ .deleteGame id
    exact wp_deleted (.zoom (fun _ => rfl) (allOrNothing_deleteGame id))
      (plain_deleteGame id).sound.zoom rfl _ _ _

/-- What a request does to the tables: one of the effects, or nothing. -/
theorem serve_cases (blake3 : Bytes → Hash) (d : Db) (c : AdminCall) :
    (Aside d (d.serve blake3 c) ∧ ∀ reply, d.reply blake3 c ≠ some (.ok reply))
      ∨ ∃ reply dm, AdminEffect d c.request reply dm ∧ Aside dm (d.serve blake3 c)
        ∧ ∀ x, d.reply blake3 c = some (.ok x) → x = reply := by
  have h := @handler_ends (fun _ => True) d blake3 c c.faults fun _ _ => trivial
  have hstate : Aside ((c.handler blake3).run.run ⟨d, c.faults⟩).2.state (d.serve blake3 c) := by
    unfold Db.serve
    rcases (c.handler blake3).run.run ⟨d, c.faults⟩ with ⟨(e | _) | r, w⟩
    · exact .refl _
    · exact aside_restart _
    · exact .refl _
  have hreply : ∀ x, d.reply blake3 c = some x →
      ((c.handler blake3).run.run ⟨d, c.faults⟩).1 = .ok x := by
    intro x hx
    unfold Db.reply at hx
    rcases hr : ((c.handler blake3).run.run ⟨d, c.faults⟩).1 with e | r <;> rw [hr] at hx
    · cases hx
    · rw [Option.some.inj hx]
  rcases h with ⟨haside, hr⟩ | ⟨reply, dm, heffect, haside, hr⟩
  · exact .inl ⟨haside.trans hstate, fun reply hreply' => hr reply (hreply _ hreply')⟩
  · exact .inr ⟨reply, dm, heffect, haside.trans hstate, fun x hx => hr x (hreply _ hx)⟩

end Effects

section Games

variable {blake3 : Bytes → Hash}

theorem Aside.games (h : Aside d d') : d'.sched.games = d.sched.games := by
  obtain ⟨c, p, a, rfl⟩ := h
  rfl

/-- How `create_game` can end, as far as the games are concerned. -/
theorem createGame_games {c : AdminCall} {req : CreateGameRequest}
    (hreq : c.request = .createGame req) :
    ((d.serve blake3 c).sched.games = d.sched.games ∧ ∀ r, d.reply blake3 c ≠ some (.ok r))
      ∨ ∃ id, req.name.isEmpty = false
        ∧ (∀ id', req.id = some id' → id = id' ∧ d.sched.games[id]? = none)
        ∧ (req.id = none → id = d.sched.nextCount Store.nextGameIdKey)
        ∧ (d.serve blake3 c).sched.games = d.sched.games.insert id (GameJob.newGame id req.name)
        ∧ ∀ r, d.reply blake3 c = some (.ok r) → r = .game (GameJob.newGame id req.name) := by
  rcases serve_cases blake3 d c with ⟨haside, hr⟩ | ⟨reply, dm, heffect, haside, hr⟩
  · exact .inl ⟨haside.games, hr⟩
  · rw [hreq] at heffect
    cases heffect with
    | createGame _ id hname hasked hnext =>
      exact .inr ⟨id, hname, hasked, hnext, haside.games, hr⟩

theorem reply_not_game {c : AdminCall} (hreq : ∀ req, c.request ≠ .createGame req)
    (game : GameRecord) :
    d.reply blake3 c ≠ some (.ok (.game game)) := by
  intro hr
  rcases serve_cases blake3 d c with ⟨-, hnot⟩ | ⟨reply, dm, heffect, -, hx⟩
  · exact hnot _ hr
  · obtain rfl := hx _ hr
    cases h : c.request <;> rw [h] at heffect <;> cases heffect
    exact hreq _ h

theorem createsApart_of_free {c : AdminCall} (hfree : NextIdFree d c) :
    CreatesApart blake3 d c := by
  by_cases hcreate : ∃ req, c.request = .createGame req
  swap
  · have hnot : ∀ game, d.reply blake3 c ≠ some (.ok (.game game)) :=
      reply_not_game fun req h => hcreate ⟨req, h⟩
    exact ⟨fun g h => absurd h (hnot g), fun g h => absurd h (hnot g), fun g h => absurd h (hnot g),
      fun req h => absurd ⟨req, h⟩ hcreate⟩
  obtain ⟨req, hreq⟩ := hcreate
  rcases @createGame_games d blake3 c req hreq with
    ⟨hsame, hnot⟩ | ⟨id, hname, hasked, hnext, hgames, hr⟩
  · exact ⟨fun _ h => absurd h (hnot _), fun _ h => absurd h (hnot _), fun _ h => absurd h (hnot _),
      fun _ _ id game h => by rw [hsame, h]⟩
  have hnew : d.sched.games[id]? = none := by
    rcases hid : req.id with _ | id'
    · rw [hnext hid]
      exact hfree req hreq hname hid
    · exact (hasked id' hid).2
  have hgame : ∀ game, d.reply blake3 c = some (.ok (.game game)) →
      game = GameJob.newGame id req.name := fun game h => AdminReply.game.inj (hr _ h)
  refine ⟨fun game h => ?_, fun game h => ?_, fun game h id' hne => ?_, fun _ _ id' game h => ?_⟩
  · rw [hgame game h]
    exact hnew
  · rw [hgame game h, hgames, lookup_insert]
    exact if_pos rfl
  · rw [hgame game h] at hne
    rw [hgames, lookup_insert]
    exact if_neg (Ne.symm hne)
  · rw [hgames, lookup_insert, if_neg, h]
    rintro rfl
    rw [hnew] at h
    cases h

/-- Without faults an id is given out whenever none is asked for. -/
theorem reply_createGame {c : AdminCall} {req : CreateGameRequest}
    (hreq : c.request = .createGame req)
    (hname : req.name.isEmpty = false) (hid : req.id = none) (hfaults : c.faults = []) :
    d.reply blake3 c = some (.ok (.game
      (GameJob.newGame (d.sched.nextCount Store.nextGameIdKey) req.name))) := by
  rcases c with ⟨_, nowMs, auditMs, _⟩
  obtain rfl := hreq
  obtain rfl := hfaults
  rcases req with ⟨name, _⟩
  obtain rfl := hid
  unfold Db.reply AdminCall.handler createGame
  dsimp only
  rw [if_neg (by simpa using hname)]
  rfl

theorem free_of_createsApart {c : AdminCall} (hfaults : c.faults = [])
    (h : CreatesApart blake3 d c) :
    NextIdFree d c := fun _ hreq hname hid =>
  h.fresh _ (reply_createGame hreq hname hid hfaults)

theorem servesAlong_mono {C D : Db → AdminCall → Prop} : ∀ {calls : List AdminCall} {d : Db},
    (∀ d, ∀ c ∈ calls, C d c → D d c) → Db.ServesAlong blake3 C d calls →
      Db.ServesAlong blake3 D d calls
  | [], _, _, _ => trivial
  | c :: _, d, h, hs => ⟨h d c List.mem_cons_self hs.1,
      servesAlong_mono (fun d c hc => h d c (List.mem_cons_of_mem _ hc)) hs.2⟩

/-- Games are created apart as long as the counter gives out no id that a game has; without faults
just as long. -/
theorem serveAll_createsApart (blake3 : Bytes → Hash) (d : Db) (calls : List AdminCall) :
    (Db.ServesAlong blake3 NextIdFree d calls → Db.ServesAlong blake3 (CreatesApart blake3) d calls)
      ∧ ((∀ c ∈ calls, c.faults = []) → Db.ServesAlong blake3 (CreatesApart blake3) d calls →
        Db.ServesAlong blake3 NextIdFree d calls) :=
  ⟨servesAlong_mono fun _ _ _ => createsApart_of_free,
    fun hfaults => servesAlong_mono fun _ c hc => free_of_createsApart (hfaults c hc)⟩

/-- A call without faults. -/
def called (request : AdminRequest) : AdminCall := ⟨request, 0, 0, []⟩

/-- Games with ids of their own choice beside one with the first id of the counter. -/
def chosenAhead : List AdminCall := [called (.createGame ⟨"a", some 2⟩),
  called (.createGame ⟨"b", none⟩), called (.deleteGame 2), called (.createGame ⟨"c", none⟩)]

theorem serveAll_createsApart_chosen :
    Db.ServesAlong hash₀ (CreatesApart hash₀) Db.empty chosenAhead := by
  refine (serveAll_createsApart hash₀ Db.empty chosenAhead).1 ⟨?_, ?_, ?_, ?_, trivial⟩
  · rintro _ ⟨⟩ - ⟨⟩
  · rintro _ - - -
    decide +kernel
  · rintro _ ⟨⟩
  · rintro _ - - -
    decide +kernel

/-- The counter gives out the id of a game that has been created under it, and the game is lost. -/
theorem createGame_overwrites :
    ¬ Db.ServesAlong hash₀ (CreatesApart hash₀) Db.empty
      [called (.createGame ⟨"a", some 1⟩), called (.createGame ⟨"b", none⟩)] := by
  rintro ⟨-, h, -⟩
  have := h.kept _ rfl 1 ⟨1, "a", "uploading", 0, 0⟩ (by decide +kernel)
  revert this
  decide +kernel

end Games

end BlazeNet

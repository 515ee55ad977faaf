import BlazeNet.Proofs.Admin
import BlazeNet.Proofs.Publish

/-!
# The places of a user

The key of a binding says its kind and its two ids, so the textual scan for a prefix finds the
bindings of one id and no others (`mem_idsOf`). The places of a user are those of its bindings and
of its groups' bindings, whether or not the records behind the ids exist.
-/

namespace BlazeNet

open Wire FaultIo Io RustStd Admin

variable {t : Bindings} {kind : String} {a b : UInt64}

section Keys

theorem toList_prefixKey (kind : String) (a : UInt64) :
    s!"{kind}/{a}/".toList = kind.toList ++ '/' :: (Nat.toDigits 10 a.toNat ++ ['/']) := by
  have hkey : s!"{kind}/{a}/" = kind ++ "/" ++ toString a ++ "/" := rfl
  have hdigits : (toString a).toList = Nat.toDigits 10 a.toNat := Nat.toList_repr
  rw [hkey, String.toList_append, String.toList_append, String.toList_append, hdigits]
  simp

theorem BindRequest.toList_key (r : BindRequest) : r.key.toList
    = r.kind.toList ++ '/' :: (Nat.toDigits 10 r.a.toNat ++ '/' :: Nat.toDigits 10 r.b.toNat) := by
  have hkey : r.key = s!"{r.kind}/{r.a}/" ++ toString r.b := rfl
  have hdigits : (toString r.b).toList = Nat.toDigits 10 r.b.toNat := Nat.toList_repr
  rw [hkey, String.toList_append, toList_prefixKey, hdigits]
  simp

theorem slash_notMem_toDigits (n : ℕ) : '/' ∉ Nat.toDigits 10 n := fun h => by
  have := Nat.isDigit_of_mem_toDigits (by decide) (by decide) h
  simp at this

theorem validKind_bindUp : validKind bindUp = true := by decide

theorem validKind_bindUg : validKind bindUg = true := by decide

theorem validKind_bindGp : validKind bindGp = true := by decide

theorem slash_notMem_kind (h : validKind kind = true) : '/' ∉ kind.toList := by
  simp only [validKind, Bool.or_eq_true, decide_eq_true_eq] at h
  rcases h with (rfl | rfl) | rfl <;> decide

theorem append_slash_inj : ∀ {x y : List Char} {u v : List Char}, '/' ∉ x → '/' ∉ y →
    (x ++ '/' :: u = y ++ '/' :: v ↔ x = y ∧ u = v)
  | [], [], _, _, _, _ => by simp
  | [], c :: y, u, v, _, hy => by
    simp only [List.mem_cons, not_or] at hy
    simp [hy.1]
  | c :: x, [], u, v, hx, _ => by
    simp only [List.mem_cons, not_or] at hx
    simp [Ne.symm hx.1]
  | c :: x, d :: y, u, v, hx, hy => by
    simp only [List.mem_cons, not_or] at hx hy
    simp [append_slash_inj hx.2 hy.2, and_assoc]

/-- The prefix of a kind and an id comes off the keys of its own bindings. -/
theorem stripPrefix_key {r : BindRequest} (hk : validKind kind = true)
    (hr : validKind r.kind = true) {rest : List Char} :
    stripPrefix s!"{kind}/{a}/".toList r.key.toList = some rest
      ↔ r.kind = kind ∧ r.a = a ∧ rest = Nat.toDigits 10 r.b.toNat := by
  rw [stripPrefix_eq_some, toList_prefixKey, r.toList_key, List.append_assoc, List.cons_append,
    append_slash_inj (slash_notMem_kind hr) (slash_notMem_kind hk), List.append_assoc,
    List.singleton_append, append_slash_inj (slash_notMem_toDigits _) (slash_notMem_toDigits _),
    String.toList_inj]
  constructor
  · rintro ⟨hkind, ha, hb⟩
    exact ⟨hkind, toDigits_injective ha, hb.symm⟩
  · rintro ⟨hkind, rfl, hb⟩
    exact ⟨hkind, rfl, hb.symm⟩

theorem BindRequest.key_inj {r r' : BindRequest} (hr : validKind r.kind = true)
    (hr' : validKind r'.kind = true) (h : r.key = r'.key) : r = r' := by
  have hself := (stripPrefix_key (a := r.a) hr hr).2 ⟨rfl, rfl, rfl⟩
  rw [h] at hself
  obtain ⟨hkind, ha, hb⟩ := (stripPrefix_key hr hr').1 hself
  rcases r with ⟨k, x, y⟩
  rcases r' with ⟨k', x', y'⟩
  obtain rfl : k' = k := hkind
  obtain rfl : x' = x := ha
  obtain rfl : y = y' := toDigits_injective hb
  rfl

end Keys

section Tables

/-- Every key of the table is that of a binding. -/
def WellBound (t : Bindings) : Prop :=
  ∀ key ∈ t, ∃ r : BindRequest, validKind r.kind = true ∧ r.key = key

/-- The ids that a scan of the table for a prefix yields. -/
def idsOf (t : Bindings) (kind : String) (a : UInt64) : List UInt64 :=
  t.toList.filterMap fun item =>
    (stripPrefix s!"{kind}/{a}/".toList item.1.toList).bind parseU64

theorem exec_bindingIds (kind : String) (a : UInt64) (t : Bindings) :
    exec (bindingIds kind a) t = (.ok (idsOf t kind a), t) := by
  simp only [bindingIds, exec_bind, exec_listTable, exec_pure]
  rfl

theorem mem_idsOf (ht : WellBound t) (hk : validKind kind = true) :
    b ∈ idsOf t kind a ↔ Bound t kind a b := by
  unfold idsOf Bound
  simp only [List.mem_filterMap, Option.bind_eq_some_iff]
  constructor
  · rintro ⟨item, hitem, rest, hrest, hparse⟩
    have hmem : item.1 ∈ t := by
      rw [Std.ExtTreeMap.mem_iff_isSome_getElem?,
        Std.ExtTreeMap.mem_toList_iff_getElem?_eq_some.1 hitem]
      rfl
    obtain ⟨r, hr, hkey⟩ := ht item.1 hmem
    rw [← hkey, stripPrefix_key hk hr] at hrest
    obtain ⟨hkind, ha, rfl⟩ := hrest
    rw [parseU64_toDigits] at hparse
    rcases r with ⟨k, x, y⟩
    obtain rfl : k = kind := hkind
    obtain rfl : x = a := ha
    obtain rfl : y = b := Option.some.inj hparse
    rwa [hkey]
  · intro hmem
    obtain ⟨v, hv⟩ := Option.isSome_iff_exists.1 (Std.ExtTreeMap.mem_iff_isSome_getElem?.1 hmem)
    exact ⟨(_, v), Std.ExtTreeMap.mem_toList_iff_getElem?_eq_some.2 hv, _,
      (stripPrefix_key hk hk).2 ⟨rfl, rfl, rfl⟩, parseU64_toDigits b⟩

theorem exec_insertGroupPlaces : ∀ (groups : List UInt64) (places : HashSet UInt64),
    ∃ places', exec (insertGroupPlaces groups places) t = (.ok places', t)
      ∧ ∀ p, p ∈ places' ↔ p ∈ places ∨ ∃ g ∈ groups, p ∈ idsOf t bindGp g
  | [], places => ⟨places, rfl, by simp⟩
  | group :: groups, places => by
    obtain ⟨places', hexec, hmem⟩ :=
      exec_insertGroupPlaces groups (places.extend (idsOf t bindGp group))
    refine ⟨places', ?_, fun p => ?_⟩
    · rw [insertGroupPlaces, exec_bind, exec_bindingIds]
      exact hexec
    · rw [hmem, HashSet.mem_extend]
      simp only [List.mem_cons, exists_eq_or_imp]
      exact or_assoc

/-- The places of a user, in ascending order. -/
theorem exec_placesOfUser (ht : WellBound t) (u : UInt64) :
    ∃ places, exec (placesOfUser u) t = (.ok places, t) ∧ places.Pairwise (· < ·)
      ∧ ∀ p, p ∈ places ↔ Bound t bindUp u p ∨ ∃ g, Bound t bindUg u g ∧ Bound t bindGp g p := by
  obtain ⟨places, hexec, hmem⟩ := exec_insertGroupPlaces (t := t) (idsOf t bindUg u)
    (HashSet.collect (idsOf t bindUp u))
  refine ⟨places.elems.mergeSort (· ≤ ·), ?_, ?_, fun p => ?_⟩
  · rw [placesOfUser, exec_bind, exec_bindingIds]
    dsimp only
    rw [exec_bind, exec_bindingIds]
    dsimp only
    rw [exec_bind, hexec]
    rfl
  · have hsorted := List.pairwise_mergeSort' (r := (· ≤ ·)) places.elems
    have hnodup := (List.mergeSort_perm places.elems (· ≤ ·)).nodup_iff.2 places.nodup
    exact hsorted.imp₂ (fun _ _ hle hne => UInt64.lt_of_le_of_ne hle hne) hnodup
  · rw [List.mem_mergeSort, ← HashSet.mem_iff, hmem, HashSet.mem_collect,
      mem_idsOf ht validKind_bindUp]
    refine or_congr_right (exists_congr fun g => ?_)
    rw [mem_idsOf ht validKind_bindUg, mem_idsOf ht validKind_bindGp]

end Tables

section Runs

theorem exec_bind_key (r : BindRequest) (t : Bindings) :
    exec (bind r.kind r.a r.b) t = (.ok (), t.insert r.key 1) := rfl

/-- A call of `bind` returns with its binding written, or leaves the table as it is. -/
theorem BindRun.bind_cases (s : BindRun) (call : BindRequest × List (Fault AnyError)) :
    s.bind call = ⟨s.table.insert call.1.key 1, s.bound ++ [call.1]⟩ ∨ s.bind call = s := by
  unfold BindRun.bind
  rcases (allOrNothing_bind call.1.kind call.1.a call.1.b).run_cases
    (plain_bind _ _ _).sound s.table
    call.2 with ⟨a, fs, hr, -⟩ | ⟨e, fs, hr⟩ <;> rw [hr]
  · exact .inl rfl
  · exact .inr rfl

/-- The table has the keys of the bindings made, and no others. -/
def Keyed (s : BindRun) : Prop :=
  (∀ r ∈ s.bound, validKind r.kind = true) ∧ ∀ key, key ∈ s.table ↔ ∃ r ∈ s.bound, r.key = key

theorem Keyed.bind {s : BindRun} (h : Keyed s) {call : BindRequest × List (Fault AnyError)}
    (hkind : validKind call.1.kind = true) : Keyed (s.bind call) := by
  rcases s.bind_cases call with hr | hr <;> rw [hr]
  · refine ⟨fun r hr => ?_, fun key => ?_⟩
    · rcases List.mem_append.1 hr with hold | hnew
      · exact h.1 r hold
      · rwa [List.mem_singleton.1 hnew]
    · rw [Std.ExtTreeMap.mem_insert, h.2, Std.LawfulEqCmp.compare_eq_iff_eq]
      simp only [List.mem_append, List.mem_singleton, or_and_right, exists_or, exists_eq_left]
      exact Or.comm
  · exact h

theorem keyed_bindAll (calls : List (BindRequest × List (Fault AnyError)))
    (hkinds : ∀ call ∈ calls, validKind call.1.kind = true) : Keyed (BindRun.bindAll calls) := by
  unfold BindRun.bindAll
  have hinit : Keyed ⟨∅, []⟩ := ⟨by simp, by simp⟩
  generalize (⟨∅, []⟩ : BindRun) = s at hinit
  induction calls generalizing s with
  | nil => exact hinit
  | cons call calls ih =>
    exact ih (fun c hc => hkinds c (List.mem_cons_of_mem _ hc)) _
      (hinit.bind (hkinds call List.mem_cons_self))

theorem Keyed.wellBound {s : BindRun} (h : Keyed s) : WellBound s.table := fun key hkey => by
  obtain ⟨r, hr, rfl⟩ := (h.2 key).1 hkey
  exact ⟨r, h.1 r hr, rfl⟩

theorem Keyed.bound_iff {s : BindRun} (h : Keyed s) (hk : validKind kind = true) :
    Bound s.table kind a b ↔ ⟨kind, a, b⟩ ∈ s.bound := by
  rw [Bound, h.2]
  constructor
  · rintro ⟨r, hr, hkey⟩
    rwa [← BindRequest.key_inj (h.1 r hr) hk hkey]
  · exact fun hr => ⟨_, hr, rfl⟩

theorem bound_of_benign (calls : List (BindRequest × List (Fault AnyError)))
    (h : ∀ call ∈ calls, ∀ f ∈ call.2, Benign f) :
    (BindRun.bindAll calls).bound = calls.map (·.1) := by
  unfold BindRun.bindAll
  suffices hrun : ∀ s : BindRun, (calls.foldl BindRun.bind s).bound = s.bound ++ calls.map (·.1)
    from hrun ⟨∅, []⟩
  intro s
  induction calls generalizing s with
  | nil => simp
  | cons call calls ih =>
    have hrun := (plain_bind call.1.kind call.1.a call.1.b).steady.run s.table
      (h call List.mem_cons_self)
    rw [List.foldl_cons, ih fun c hc => h c (List.mem_cons_of_mem _ hc), BindRun.bind]
    rw [exec_bind_key] at hrun
    rcases hr : (bind call.1.kind call.1.a call.1.b).run ⟨s.table, call.2⟩ with ⟨e | _, w⟩ <;>
      rw [hr] at hrun
    · cases congrArg Prod.fst hrun
    · simp

/-- The places of a user are those it is bound to and those that a group it is bound to is bound to,
in ascending order; a run without faults has bound all that it was asked to. -/
theorem placesOfUser_bound (calls : List (BindRequest × List (Fault AnyError)))
    (hkinds : ∀ call ∈ calls, validKind call.1.kind = true) (u : UInt64) :
    let s := BindRun.bindAll calls
    ((∀ call ∈ calls, ∀ f ∈ call.2, Benign f) → s.bound = calls.map (·.1))
      ∧ ∃ places, exec (placesOfUser u) s.table = (.ok places, s.table) ∧ places.Pairwise (· < ·)
        ∧ ∀ p, p ∈ places ↔ ⟨"user_place", u, p⟩ ∈ s.bound
          ∨ ∃ g, ⟨"user_group", u, g⟩ ∈ s.bound ∧ ⟨"group_place", g, p⟩ ∈ s.bound := by
  intro s
  have hs : Keyed s := keyed_bindAll calls hkinds
  obtain ⟨places, hexec, hsorted, hmem⟩ := exec_placesOfUser hs.wellBound u
  refine ⟨bound_of_benign calls, places, hexec, hsorted, fun p => ?_⟩
  rw [hmem, hs.bound_iff validKind_bindUp]
  refine or_congr Iff.rfl (exists_congr fun g => ?_)
  rw [hs.bound_iff validKind_bindUg, hs.bound_iff validKind_bindGp]
  rfl

/-- User 1 and user 12, whose ids have a common prefix, and a place that they share over a group. -/
def twoUsers : List (BindRequest × List (Fault AnyError)) :=
  [(⟨"user_place", 1, 30⟩, []), (⟨"user_place", 12, 4⟩, []), (⟨"user_group", 1, 2⟩, []),
    (⟨"group_place", 2, 7⟩, []), (⟨"group_place", 23, 8⟩, [])]

theorem placesOfUser_bound_two : (∀ call ∈ twoUsers, validKind call.1.kind = true)
    ∧ ∃ places, exec (placesOfUser 1) (BindRun.bindAll twoUsers).table
        = (.ok places, (BindRun.bindAll twoUsers).table)
      ∧ 7 ∈ places ∧ 30 ∈ places ∧ 4 ∉ places := by
  have hkinds : ∀ call ∈ twoUsers, validKind call.1.kind = true := by decide
  obtain ⟨hbound, places, hexec, -, hmem⟩ := placesOfUser_bound twoUsers hkinds 1
  have hall := hbound (by simp [twoUsers])
  refine ⟨hkinds, places, hexec, ?_⟩
  simp only [hmem, hall]
  refine ⟨.inr ⟨2, by decide, by decide⟩, .inl (by decide), ?_⟩
  simp [twoUsers]

end Runs

section Visible

variable {blake3 : Bytes → Hash} {d : Db} {c : AdminCall}

theorem Aside.bindings {d' : Db} (h : Aside d d') :
    d'.users = d.users ∧ d'.places = d.places ∧ d'.groups = d.groups
      ∧ d'.bindings = d.bindings := by
  obtain ⟨c, p, a, rfl⟩ := h
  exact ⟨rfl, rfl, rfl, rfl⟩

/-- No request but that for a binding changes the bindings. -/
theorem bindings_serve (hreq : ∀ req, c.request ≠ .bind req) :
    (d.serve blake3 c).bindings = d.bindings := by
  rcases serve_cases blake3 d c with ⟨haside, -⟩ | ⟨reply, dm, heffect, haside, -⟩
  · exact haside.bindings.2.2.2
  · rw [haside.bindings.2.2.2]
    cases h : c.request <;> rw [h] at heffect <;> cases heffect <;>
      first | rfl | exact absurd h (hreq _)

theorem wellBound_serve (h : WellBound d.bindings) (c : AdminCall) :
    WellBound (d.serve blake3 c).bindings := by
  by_cases hreq : ∃ req, c.request = .bind req
  swap
  · rwa [bindings_serve fun req h => hreq ⟨req, h⟩]
  obtain ⟨req, hreq⟩ := hreq
  rcases serve_cases blake3 d c with ⟨haside, -⟩ | ⟨reply, dm, heffect, haside, -⟩
  · rwa [haside.bindings.2.2.2]
  · rw [hreq] at heffect
    rw [haside.bindings.2.2.2]
    cases heffect with
    | bind _ hvalid =>
      intro key hkey
      rw [Std.ExtTreeMap.mem_insert, Std.LawfulEqCmp.compare_eq_iff_eq] at hkey
      exact hkey.elim (fun hnew => ⟨req, hvalid, hnew⟩) (h key)

theorem wellBound_serveAll : ∀ (calls : List AdminCall) {d : Db}, WellBound d.bindings →
    WellBound (d.serveAll blake3 calls).bindings
  | [], _, h => h
  | c :: calls, _, h => wellBound_serveAll calls (wellBound_serve h c)

/-- What the bindings name is there. -/
def Referring (d : Db) : Prop :=
  ∀ r : BindRequest, validKind r.kind = true → r.key ∈ d.bindings → Named d r

theorem Referring.serve (h : Referring d) (hc : Careful d c) :
    Referring (d.serve blake3 c) := by
  intro r hr hkey
  rcases serve_cases blake3 d c with ⟨haside, -⟩ | ⟨reply, dm, heffect, haside, -⟩
  · obtain ⟨-, hplaces, hgroups, hbindings⟩ := haside.bindings
    rw [hbindings] at hkey
    simpa only [Named, hplaces, hgroups] using h r hr hkey
  obtain ⟨-, hplaces, hgroups, hbindings⟩ := haside.bindings
  rw [hbindings] at hkey
  rw [Named, hplaces, hgroups]
  unfold Careful at hc
  cases hreq : c.request <;> rw [hreq] at heffect hc <;> cases heffect
  case createPlace req place =>
    refine ⟨fun p hp => ?_, (h r hr hkey).2⟩
    exact Std.ExtTreeMap.mem_insert.2 (.inr ((h r hr hkey).1 p hp))
  case createGroup req group =>
    refine ⟨(h r hr hkey).1, fun g hg => ?_⟩
    exact Std.ExtTreeMap.mem_insert.2 (.inr ((h r hr hkey).2 g hg))
  case deletePlace id =>
    refine ⟨fun p hp => Std.ExtTreeMap.mem_erase.2 ⟨?_, (h r hr hkey).1 p hp⟩, (h r hr hkey).2⟩
    rw [ne_eq, Std.LawfulEqCmp.compare_eq_iff_eq]
    rintro rfl
    exact hc r hr hkey hp
  case deleteGroup id =>
    refine ⟨(h r hr hkey).1, fun g hg => Std.ExtTreeMap.mem_erase.2 ⟨?_, (h r hr hkey).2 g hg⟩⟩
    rw [ne_eq, Std.LawfulEqCmp.compare_eq_iff_eq]
    rintro rfl
    exact hc r hr hkey hg
  case bind req hvalid =>
    rw [Std.ExtTreeMap.mem_insert, Std.LawfulEqCmp.compare_eq_iff_eq] at hkey
    rcases hkey with hnew | hold
    · rw [← BindRequest.key_inj hvalid hr hnew]
      exact hc hvalid
    · exact h r hr hold
  all_goals exact h r hr hkey

theorem referring_serveAll : ∀ (calls : List AdminCall) {d : Db}, Referring d →
    d.ServesAlong blake3 Careful calls → Referring (d.serveAll blake3 calls)
  | [], _, h, _ => h
  | _ :: calls, _, h, hs => referring_serveAll calls (h.serve hs.1) hs.2

theorem quiet_bindingIds (kind : String) (a : UInt64) : Quiet (bindingIds kind a) :=
  .bind (quiet_listTable _ _ _ _) fun _ => .pure _

theorem plain_bindingIds (kind : String) (a : UInt64) : Plain (bindingIds kind a) :=
  .bind (plain_listTable _ _ _ _) fun _ => .pure _

theorem quiet_insertGroupPlaces : ∀ (groups : List UInt64) (places : HashSet UInt64),
    Quiet (insertGroupPlaces groups places)
  | [], _ => .pure _
  | _ :: groups, _ => .bind (quiet_bindingIds _ _) fun _ => quiet_insertGroupPlaces groups _

theorem plain_insertGroupPlaces : ∀ (groups : List UInt64) (places : HashSet UInt64),
    Plain (insertGroupPlaces groups places)
  | [], _ => .pure _
  | _ :: groups, _ => .bind (plain_bindingIds _ _) fun _ => plain_insertGroupPlaces groups _

theorem quiet_placesOfUser (u : UInt64) : Quiet (placesOfUser u) :=
  .bind (quiet_bindingIds _ _) fun _ => .bind (quiet_bindingIds _ _) fun _ =>
    .bind (quiet_insertGroupPlaces _ _) fun _ => .pure _

theorem plain_placesOfUser (u : UInt64) : Plain (placesOfUser u) :=
  .bind (plain_bindingIds _ _) fun _ => .bind (plain_bindingIds _ _) fun _ =>
    .bind (plain_insertGroupPlaces _ _) fun _ => .pure _

theorem exec_userPlaces {places : List UInt64} {u : UInt64}
    (h : exec (placesOfUser u) d.bindings = (.ok places, d.bindings)) :
    exec (userPlaces u).run d = (.ok (.ok places), d) := by
  have hzoom : exec (Db.onBindings (placesOfUser u)) d = (.ok places, d) := by
    rw [Db.onBindings, exec_zoom, h]
  have hattempt := exec_attempt (Db.onBindings (placesOfUser u)) d
  rw [hzoom] at hattempt
  change exec (attempt (Db.onBindings (placesOfUser u)) >>= _) d = _
  rw [exec_bind, hattempt]
  rfl

/-- The answer to a request for a user's places, whatever faults it meets. -/
theorem userPlaces_run {places : List UInt64} {u : UInt64} (faults : List (Fault AnyError))
    (h : ((userPlaces u).run.run ⟨d, faults⟩).1 = .ok (.ok places)) :
    exec (placesOfUser u) d.bindings = (.ok places, d.bindings) := by
  have hrun : wp (fun _ => True) (userPlaces u).run d fun r _ => ∀ ps, r = .ok (.ok ps) →
      (exec (placesOfUser u) d.bindings).1 = .ok ps := by
    refine wp_orStoreError ((quiet_placesOfUser u).zoom fun _ => rfl).allOrNothing
      (plain_placesOfUser u).sound.zoom (fun ps hps x hx => ?_) (by simp) (by simp)
    obtain rfl : ps = x := by simpa using hx
    exact hps
  exact Prod.ext (hrun faults (fun _ _ => trivial) places h) ((quiet_placesOfUser u).exec _)

/-- In any run a user's places are just what the bindings say, and no other request changes them; in
a careful run they exist, as do the groups on the way to them. -/
theorem userPlaces_careful (blake3 : Bytes → Hash) (calls : List AdminCall) (u : UInt64) :
    let d := Db.empty.serveAll blake3 calls
    (∃ places, exec (userPlaces u).run d = (.ok (.ok places), d))
      ∧ ∀ faults places, ((userPlaces u).run.run ⟨d, faults⟩).1 = .ok (.ok places) →
        (∀ p, p ∈ places ↔ Bound d.bindings bindUp u p
          ∨ ∃ g, Bound d.bindings bindUg u g ∧ Bound d.bindings bindGp g p)
        ∧ (∀ c : AdminCall, (∀ req, c.request ≠ .bind req) →
          (exec (userPlaces u).run (d.serve blake3 c)).1 = .ok (.ok places))
        ∧ (Db.empty.ServesAlong blake3 Careful calls → ∀ p ∈ places, p ∈ d.places
          ∧ ∀ g, Bound d.bindings bindUg u g → Bound d.bindings bindGp g p → g ∈ d.groups) := by
  intro d
  have hwell : WellBound d.bindings := wellBound_serveAll calls fun key h => by simp [Db.empty] at h
  obtain ⟨places, hexec, -, hmem⟩ := exec_placesOfUser hwell u
  refine ⟨⟨places, exec_userPlaces hexec⟩, fun faults ps hps => ?_⟩
  obtain rfl : places = ps := by
    have := (userPlaces_run faults hps).symm.trans hexec
    exact (Except.ok.inj (congrArg Prod.fst this)).symm
  refine ⟨hmem, fun c hc => ?_, fun hcareful p hp => ?_⟩
  · rw [exec_userPlaces (by rwa [bindings_serve hc])]
  have href : Referring d :=
    referring_serveAll calls (fun _ _ h => by simp [Db.empty] at h) hcareful
  refine ⟨?_, fun g hug _ => (href ⟨bindUg, u, g⟩ validKind_bindUg hug).2 g
    (by simp [BindRequest.groupIds])⟩
  rcases (hmem p).1 hp with hup | ⟨g, -, hgp⟩
  · exact (href ⟨bindUp, u, p⟩ validKind_bindUp hup).1 p (by simp [BindRequest.placeIds])
  · exact (href ⟨bindGp, g, p⟩ validKind_bindGp hgp).1 p (by simp [BindRequest.placeIds])

/-- A place and a group, bound to a user as they should be. -/
def boundWell : List AdminCall := [called (.createPlace ⟨"p", ""⟩), called (.createGroup ⟨"g"⟩),
  called (.bind ⟨"user_group", 1, 1⟩), called (.bind ⟨"group_place", 1, 1⟩)]

theorem userPlaces_careful_well : ∃ places,
    exec (userPlaces 1).run (Db.empty.serveAll hash₀ boundWell)
      = (.ok (.ok places), Db.empty.serveAll hash₀ boundWell)
      ∧ 1 ∈ places ∧ 1 ∈ (Db.empty.serveAll hash₀ boundWell).places := by
  obtain ⟨⟨places, hexec⟩, hrun⟩ := userPlaces_careful hash₀ boundWell 1
  have hreply : ((userPlaces 1).run.run ⟨Db.empty.serveAll hash₀ boundWell, []⟩).1
      = .ok (.ok places) := congrArg Prod.fst hexec
  obtain ⟨hmem, -, hcareful⟩ := hrun [] places hreply
  have hone : 1 ∈ places := (hmem 1).2 (.inr ⟨1, by decide +kernel, by decide +kernel⟩)
  have hgroup : Named (Db.empty.serveAll hash₀ (boundWell.take 2)) ⟨"user_group", 1, 1⟩ := by
    decide +kernel
  have hplace : Named (Db.empty.serveAll hash₀ (boundWell.take 3)) ⟨"group_place", 1, 1⟩ := by
    decide +kernel
  have halong : Db.empty.ServesAlong hash₀ Careful boundWell :=
    ⟨trivial, trivial, fun _ => hgroup, fun _ => hplace, trivial⟩
  exact ⟨places, hexec, hone, (hcareful halong 1 hone).1⟩

/-- A place is deleted and the user it was bound to still sees it. -/
theorem userPlaces_dangling :
    let d := Db.empty.serveAll hash₀ [called (.createPlace ⟨"p", ""⟩),
      called (.bind ⟨"user_place", 1, 1⟩), called (.deletePlace 1)]
    ∃ places, exec (userPlaces 1).run d = (.ok (.ok places), d) ∧ 1 ∈ places ∧ 1 ∉ d.places := by
  intro d
  have hwell : WellBound d.bindings := wellBound_serveAll _ fun key h => by simp [Db.empty] at h
  obtain ⟨places, hexec, -, hmem⟩ := exec_placesOfUser hwell 1
  exact ⟨places, exec_userPlaces hexec, (hmem 1).2 (.inl (by decide +kernel)), by decide +kernel⟩

end Visible

end BlazeNet

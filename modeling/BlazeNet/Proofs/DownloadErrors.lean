import BlazeNet.Proofs.LeftChunks
import BlazeNet.Proofs.Peers
import Mathlib.Data.List.TakeWhile

/-!
# What an error of a download means

A chosen address that cannot be parsed makes `choose_ep` fail, and with it the whole download,
though other peers may serve what they were asked for. Apart from that, an error means what it
should where no fetch of a round fails once the sink has taken a chunk of it.
-/

namespace BlazeNet

open Wire FaultIo Io RustStd

section Groups

variable {Sock : Type} {net : NetText Sock} {exclude : List String}

theorem groupHashes_error_iff {answers : Hash → Except AnyError (List PeerEntry)} :
    ∀ (hashes : List Hash) (groups : List (Target × List Hash)) (next : List Hash),
      (∃ e, groupHashes net answers exclude hashes groups next = .error e)
        ↔ ∃ h ∈ hashes, ∃ e, answers h = .error e
  | [], _, _ => by simp [groupHashes]
  | hash :: hashes, groups, next => by
    unfold groupHashes
    rcases hanswer : answers hash with e | peers
    · simp [hanswer]
    · rcases hpeer : choosePeer (fun id => (net.canon id).isSome) exclude peers hash
        with _ | peer <;>
        simp only [hpeer, groupHashes_error_iff hashes] <;> simp [hanswer]

theorem spawned_eq_iff {groups : List (Target × List Hash)} :
    spawned groups = groups ↔ ∀ g ∈ groups, g.1.addr.isSome := List.takeWhile_eq_self_iff

end Groups

section Rounds

variable {τ Sock : Type} {net : NetText Sock} {blake3 : Bytes → Hash}
  {sink : Hash → Bytes → Io AnyError τ Unit} {input : RoundInput} {exclude : List String}
  {unresolved : List Hash} {s s' : τ}

/-- A round fails for one of two reasons. -/
theorem runRound_error {e : AnyError}
    (h : runRound net blake3 sink input exclude unresolved s = some (.error e, s')) :
    QueryFails input exclude unresolved s
      ∨ AddressAborts net blake3 sink input exclude unresolved s := by
  unfold runRound at h
  rcases hgroups : groupHashes net input.answers exclude unresolved [] []
    with e' | ⟨groups, next⟩ <;>
    simp only [hgroups] at h
  · exact .inl ((groupHashes_error_iff unresolved [] []).1 ⟨e', hgroups⟩)
  split_ifs at h with hempty
  · cases h
  obtain ⟨pool, hrun, hend⟩ := Option.bind_eq_some_iff.1 h
  refine .inr ⟨⟨groups, next, hgroups, ?_⟩, ?_⟩
  · by_contra hall
    push Not at hall
    have heq : spawned groups = groups :=
      spawned_eq_iff.2 fun g hg => Option.isSome_iff_ne_none.2 (hall g hg)
    simp only [endRound, heq, lt_irrefl, if_false] at hend
    split_ifs at hend
    cases hend
  · simp [roundPool, hgroups, hrun]

theorem runRound_of_queryFails (h : QueryFails input exclude unresolved s) :
    ∃ e s', runRound net blake3 sink input exclude unresolved s = some (.error e, s') := by
  obtain ⟨e, he⟩ := (@groupHashes_error_iff Sock net exclude input.answers unresolved [] []).2 h
  exact ⟨e, s, by simp only [runRound, he]⟩

theorem runRound_of_addressAborts (h : AddressAborts net blake3 sink input exclude unresolved s) :
    ∃ e s', runRound net blake3 sink input exclude unresolved s = some (.error e, s') := by
  obtain ⟨⟨groups, next, hgroups, g, hg, haddr⟩, hpool⟩ := h
  simp only [roundPool, hgroups] at hpool
  obtain ⟨pool, hrun⟩ := Option.isSome_iff_exists.1 hpool
  have hne : spawned groups ≠ groups := fun heq => by
    have := spawned_eq_iff.1 heq g hg
    rw [haddr] at this
    cases this
  have hlt : (spawned groups).length < groups.length := by
    refine lt_of_le_of_ne (List.takeWhile_prefix _).length_le fun heq => hne ?_
    exact (List.takeWhile_prefix _).eq_of_length heq
  have hnonempty : groups.isEmpty = false := by
    rw [List.isEmpty_eq_false_iff]
    exact List.ne_nil_of_mem hg
  refine ⟨.msg "源无直连地址，无法传输数据（relay 只打洞不传数据）", pool.shared, ?_⟩
  simp only [runRound, hgroups, hnonempty, Bool.false_eq_true, if_false, hrun, Option.bind_some,
    endRound, if_pos hlt]

theorem not_addressAborts_of_queryFails (h : QueryFails input exclude unresolved s) :
    ¬AddressAborts net blake3 sink input exclude unresolved s := by
  rintro ⟨⟨groups, next, hgroups, -⟩, -⟩
  obtain ⟨e, he⟩ := (@groupHashes_error_iff Sock net exclude input.answers unresolved [] []).2 h
  cases hgroups.symm.trans he

/-- What the rounds return when they fail. -/
theorem runRounds_error {e : AnyError} : ∀ (inputs : List RoundInput) (exclude : List String)
    (unresolved : List Hash) (s : τ),
    runRounds net blake3 sink inputs exclude unresolved s = some (.error e, s') →
      SomeRound net blake3 sink QueryFails inputs exclude unresolved s
        ∨ SomeRound net blake3 sink (AddressAborts net blake3 sink) inputs exclude unresolved s
  | [], _, _, _, h => by cases h
  | input :: inputs, exclude, unresolved, s, h => by
    unfold runRounds at h
    split_ifs at h with hempty
    · cases h
    have hne : unresolved ≠ [] := fun hnil => hempty (by rw [hnil]; rfl)
    rcases hround : runRound net blake3 sink input exclude unresolved s with
      _ | ⟨e' | r, s₁⟩ <;> simp only [hround] at h
    · cases h
    · exact (runRound_error hround).imp (fun hq => ⟨hne, .inl hq⟩) fun ha => ⟨hne, .inl ha⟩
    · split_ifs at h with hstop
      · cases h
      · exact (runRounds_error inputs r.exclude r.unresolved s₁ h).imp
          (fun hq => ⟨hne, .inr ⟨r, s₁, hround, by simpa using hstop, hq⟩⟩)
          fun ha => ⟨hne, .inr ⟨r, s₁, hround, by simpa using hstop, ha⟩⟩

variable {Q R : RoundInput → List String → List Hash → τ → Prop}

/-- What makes a round fail makes the rounds fail. -/
theorem runRounds_of_someRound (hQ : ∀ input exclude unresolved s, Q input exclude unresolved s →
      ∃ e s', runRound net blake3 sink input exclude unresolved s = some (.error e, s')) :
    ∀ (inputs : List RoundInput) (exclude : List String) (unresolved : List Hash) (s : τ),
      SomeRound net blake3 sink Q inputs exclude unresolved s →
        ∃ e s', runRounds net blake3 sink inputs exclude unresolved s = some (.error e, s')
  | [], _, _, _, h => h.elim
  | input :: inputs, exclude, unresolved, s, ⟨hne, hfails⟩ => by
    have hempty : unresolved.isEmpty = false := List.isEmpty_eq_false_iff.2 hne
    rcases hfails with hq | ⟨r, s₁, hround, hstop, hrest⟩
    · obtain ⟨e, s', hround⟩ := hQ _ _ _ _ hq
      exact ⟨e, s', by simp [runRounds, hempty, hround]⟩
    · obtain ⟨e, s', hrun⟩ := runRounds_of_someRound hQ inputs r.exclude r.unresolved s₁ hrest
      exact ⟨e, s', by simp [runRounds, hempty, hround, hstop, hrun]⟩

/-- The rounds fail for one reason only. -/
theorem someRound_exclusive (hQ : ∀ input exclude unresolved s, Q input exclude unresolved s →
      ∃ e s', runRound net blake3 sink input exclude unresolved s = some (.error e, s'))
    (hR : ∀ input exclude unresolved s, R input exclude unresolved s →
      ∃ e s', runRound net blake3 sink input exclude unresolved s = some (.error e, s'))
    (hQR : ∀ input exclude unresolved s, Q input exclude unresolved s →
      ¬R input exclude unresolved s) :
    ∀ (inputs : List RoundInput) (exclude : List String) (unresolved : List Hash) (s : τ),
      SomeRound net blake3 sink Q inputs exclude unresolved s →
        ¬SomeRound net blake3 sink R inputs exclude unresolved s
  | [], _, _, _, h => h.elim
  | input :: inputs, exclude, unresolved, s, ⟨_, hq⟩ => by
    rintro ⟨-, hr⟩
    rcases hq with hq | ⟨r, s₁, hround, -, hq⟩ <;> rcases hr with hr | ⟨r', s₁', hround', -, hr⟩
    · exact hQR _ _ _ _ hq hr
    · obtain ⟨e, s', hfails⟩ := hQ _ _ _ _ hq
      cases hfails.symm.trans hround'
    · obtain ⟨e, s', hfails⟩ := hR _ _ _ _ hr
      cases hfails.symm.trans hround
    · cases hround.symm.trans hround'
      exact someRound_exclusive hQ hR hQR inputs r.exclude r.unresolved s₁ hq hr

theorem not_someRound_of_everyRound (hQR : ∀ input exclude unresolved s,
      Q input exclude unresolved s → R input exclude unresolved s) :
    ∀ (inputs : List RoundInput) (exclude : List String) (unresolved : List Hash) (s : τ),
      EveryRound net blake3 sink (fun input exclude unresolved s => ¬R input exclude unresolved s)
        inputs exclude unresolved s →
      ¬SomeRound net blake3 sink Q inputs exclude unresolved s
  | [], _, _, _, _, h => h
  | input :: inputs, exclude, unresolved, s, hevery, ⟨hne, hsome⟩ => by
    obtain ⟨hnot, hlater⟩ := hevery hne
    rcases hsome with hq | ⟨r, s₁, hround, hstop, hq⟩
    · exact hnot (hQR _ _ _ _ hq)
    · exact not_someRound_of_everyRound hQR inputs r.exclude r.unresolved s₁
        (hlater r s₁ hround hstop) hq

end Rounds

section Download

variable {σ Sock : Type} {net : NetText Sock} {cfg : Config} {blake3 : Bytes → Hash}
  {sink : Hash → Bytes → Io AnyError σ Unit} {gameId : UInt64} {missing assigned : List Hash}
  {input : DownloadInput} {s : σ} {origin : Option Target}

/-- A download that gets to its rounds. -/
theorem downloadMissing_rounds (blake3 : Bytes → Hash) (sink : Hash → Bytes → Io AnyError σ Unit)
    (gameId : UInt64) (assigned : List Hash) (s : σ) (hmissing : missing ≠ [])
    (horigin : originTarget net cfg = .ok origin) (hendpoint : input.endpoint = .ok ()) :
    downloadMissing net cfg blake3 (takenSink sink) gameId missing assigned input (s, [])
      = match takenRounds net blake3 sink missing input s with
        | none => none
        | some (.error e, t) => some (.error e, t.1)
        | some (.ok unresolved, t) => finishDownload blake3 (takenSink sink) gameId origin assigned
          input.fallback unresolved t := by
  have hempty : missing.isEmpty = false := List.isEmpty_eq_false_iff.2 hmissing
  unfold downloadMissing downloadRun takenRounds
  simp only [hempty, Bool.false_eq_true, if_false, horigin, hendpoint]
  rcases runRounds net blake3 (recordSink (takenSink sink)) [input.first, input.second] [] missing
    ((s, []), []) with _ | ⟨e | unresolved, t⟩ <;> rfl

theorem takenRounds_within {unresolved : List Hash} {t : (σ × List (Hash × Bytes)) × List Hash}
    (h : takenRounds net blake3 sink missing input s = some (.ok unresolved, t)) :
    ∀ hash ∈ unresolved, hash ∈ missing := runRounds_within _ _ _ _ (fun _ h => h) h

/-- Where nothing left over after the rounds has been taken, what follows fails only with some chunk
undelivered. -/
theorem finishDownload_undelivered {unresolved : List Hash}
    {t : (σ × List (Hash × Bytes)) × List Hash} {e : AnyError} {s' : σ × List (Hash × Bytes)}
    (hwithin : ∀ hash ∈ unresolved, hash ∈ missing) (huntaken : ∀ hash ∈ unresolved, Untaken t hash)
    (h : finishDownload blake3 (takenSink sink) gameId origin assigned input.fallback unresolved t
      = some (.error e, s')) : Undelivered missing s' := by
  have hfinish := finishDownload_request blake3 (takenSink sink) gameId origin assigned
    input.fallback unresolved t
  rcases hrequest : originRequest origin assigned unresolved with _ | ⟨target, retry⟩ <;>
    simp only [hrequest] at hfinish
  · split_ifs at hfinish with hnil
    · cases hfinish.symm.trans h
    · obtain ⟨e', he'⟩ := hfinish
      cases he'.symm.trans h
      obtain ⟨hash, hh⟩ := List.exists_mem_of_ne_nil unresolved (by simpa using hnil)
      exact ⟨hash, hwithin hash hh, huntaken hash hh⟩
  · obtain ⟨-, hmem⟩ := mem_originRequest hrequest
    obtain ⟨hash, hh, hout⟩ := fetchOrigin_left (originRequest_nodup hrequest)
      (originRequest_ne_nil hrequest) (fun hash hh => huntaken hash ((hmem hash).1 hh))
      (hfinish.symm.trans h)
    exact ⟨hash, hwithin hash ((hmem hash).1 hh), hout⟩

/-- An error of a download means what it should where in each round that is run no chosen address
fails, and no fetch fails once the sink has taken a chunk of it. A chosen address that fails makes
the download fail for no other reason. -/
theorem downloadMissing_errorsJustified (net : NetText Sock) (cfg : Config) (blake3 : Bytes → Hash)
    (sink : Hash → Bytes → Io AnyError σ Unit) (gameId : UInt64) (missing assigned : List Hash)
    (input : DownloadInput) (s : σ) (hnodup : missing.Nodup) :
    ((∀ origin, originTarget net cfg = .ok origin → input.endpoint = .ok () →
        RoundsGoWell net blake3 sink missing input s) →
      ErrorsJustified net cfg blake3 sink gameId missing assigned input s)
    ∧ ∀ origin, originTarget net cfg = .ok origin → input.endpoint = .ok () →
      SomeRound net blake3 (recordSink (takenSink sink))
        (AddressAborts net blake3 (recordSink (takenSink sink))) [input.first, input.second] []
        missing ((s, []), []) →
      ¬ErrorsJustified net cfg blake3 sink gameId missing assigned input s := by
  constructor
  · intro hwell e s' herror
    by_cases hmissing : missing = []
    · subst hmissing
      cases herror
    rcases horigin : originTarget net cfg with e' | origin
    · exact .inl ⟨e', rfl⟩
    rcases hendpoint : input.endpoint with e' | ⟨⟩
    · exact .inr (.inl ⟨e', rfl⟩)
    obtain ⟨haddresses, hfetches⟩ := hwell origin horigin hendpoint
    rw [downloadMissing_rounds blake3 sink gameId assigned s hmissing horigin hendpoint] at herror
    refine .inr (.inr ?_)
    rcases hrounds : takenRounds net blake3 sink missing input s with _ | ⟨e' | unresolved, t⟩ <;>
      simp only [hrounds] at herror
    · cases herror
    · exact .inl ((runRounds_error _ _ _ _ hrounds).resolve_right
        (not_someRound_of_everyRound (fun _ _ _ _ h => h.1) _ _ _ _ haddresses))
    · obtain ⟨-, huntaken⟩ :=
        runRounds_left _ _ _ _ hnodup (fun _ _ _ => List.not_mem_nil) hfetches hrounds
      exact .inr ⟨⟨unresolved, t, rfl⟩,
        finishDownload_undelivered (takenRounds_within hrounds) huntaken herror⟩
  · intro origin horigin hendpoint haddress h
    have hrounds := downloadMissing_rounds blake3 sink gameId assigned s haddress.1
      horigin hendpoint
    obtain ⟨e, t, hfails⟩ := runRounds_of_someRound (fun _ _ _ _ => runRound_of_addressAborts)
      _ _ _ _ haddress
    have hfails : takenRounds net blake3 sink missing input s = some (.error e, t) := hfails
    rw [hfails] at hrounds
    obtain ⟨e', he'⟩ | ⟨e', he'⟩ | hquery | ⟨⟨unresolved, t', hok⟩, -⟩ := h e t.1 hrounds
    · cases horigin.symm.trans he'
    · cases hendpoint.symm.trans he'
    · exact someRound_exclusive (fun _ _ _ _ => runRound_of_queryFails)
        (fun _ _ _ _ => runRound_of_addressAborts) (fun _ _ _ _ => not_addressAborts_of_queryFails)
        _ _ _ _ hquery haddress
    · cases hfails.symm.trans hok

end Download

section Example

/-- Both chunks are held by two peers. The first byte of the first picks the one whose address is no
socket address. -/
def abortedInput : DownloadInput where
  endpoint := .ok ()
  first := ⟨fun _ => .ok [peerAt "a" "nowhere", peerAt "b" "1.2.3.4:42002"], []⟩
  second := ⟨fun _ => .ok [], []⟩
  fallback := []

/-- The download is given up before anything is fetched. -/
theorem downloadMissing_aborted : ¬ErrorsJustified ⟨twoSockets, some⟩ (cafeConfig none)
    (fun _ => .fill 0) (fun _ _ => pure ()) 1 [.fill 0, .fill 1] [] abortedInput () := by
  intro h
  have haddress : SomeRound ⟨twoSockets, some⟩ (fun _ => .fill 0)
      (recordSink (takenSink fun _ _ => (pure () : Io AnyError Unit Unit)))
      (AddressAborts ⟨twoSockets, some⟩ (fun _ => .fill 0)
        (recordSink (takenSink fun _ _ => pure ())))
      [abortedInput.first, abortedInput.second] [] [.fill 0, .fill 1] (((), []), []) := by
    refine ⟨by simp, .inl ⟨⟨[(⟨"a", none, false⟩, [.fill 0]),
      (⟨"b", some "1.2.3.4:42002", false⟩, [.fill 1])], [], by decide +kernel,
      ?_⟩, by decide +kernel⟩⟩
    exact ⟨_, List.mem_cons_self, rfl⟩
  obtain ⟨e, t, hfails⟩ := runRounds_of_someRound (fun _ _ _ _ => runRound_of_addressAborts)
    _ _ _ _ haddress
  have herror : downloadMissing ⟨twoSockets, some⟩ (cafeConfig none) (fun _ => .fill 0)
      (takenSink fun _ _ => (pure () : Io AnyError Unit Unit)) 1 [.fill 0, .fill 1] [] abortedInput
      ((), []) = some (.error (.msg "源无直连地址，无法传输数据（relay 只打洞不传数据）"), ((), [])) := by
    decide +kernel
  obtain ⟨e', he'⟩ | ⟨e', he'⟩ | hquery | ⟨⟨unresolved, t', hok⟩, -⟩ := h _ _ herror
  · cases he'
  · cases he'
  · exact someRound_exclusive (fun _ _ _ _ => runRound_of_queryFails)
      (fun _ _ _ _ => runRound_of_addressAborts) (fun _ _ _ _ => not_addressAborts_of_queryFails)
      _ _ _ _ hquery haddress
  · cases hfails.symm.trans hok

/-- The one peer refuses the connection, and is excluded from the second round. -/
def refusedInput : DownloadInput where
  endpoint := .ok ()
  first := ⟨fun _ => .ok [peerAt "b" "1.2.3.4:42002"], [⟨0, .broken (.msg "refused"), []⟩]⟩
  second := ⟨fun _ => .ok [peerAt "b" "1.2.3.4:42002"], []⟩
  fallback := []

theorem roundsGoWell_refused : RoundsGoWell ⟨twoSockets, some⟩ (fun _ => .fill 0)
    (fun _ _ => (pure () : Io AnyError Unit Unit)) [.fill 0, .fill 1] refusedInput () where
  addresses := by
    refine fun _ => ⟨?_, fun r s' hround _ => ?_⟩
    · rintro ⟨groups, next, hgroups, haddr⟩
      cases hgroups
      exact absurd haddr (by decide +kernel)
    · cases hround
      refine fun _ => ⟨?_, fun _ _ _ _ => trivial⟩
      rintro ⟨groups, next, hgroups, g, hg, -⟩
      cases hgroups
      cases hg
  fetches := by
    refine ⟨fun groups next hgroups => ?_, fun r s' hround => ?_⟩
    · cases hgroups
      refine ⟨fun task htask rest stats hphase => ?_, fun _ _ => trivial⟩
      cases htask
      cases hphase
    · exact ⟨fun _ _ _ => trivial, fun _ _ _ => trivial⟩

/-- The download fails with both chunks undelivered. -/
theorem downloadMissing_errorsJustified_refused :
    ErrorsJustified ⟨twoSockets, some⟩ (cafeConfig none)
      (fun _ => .fill 0) (fun _ _ => (pure () : Io AnyError Unit Unit)) 1 [.fill 0, .fill 1] []
      refusedInput ()
    ∧ downloadMissing ⟨twoSockets, some⟩ (cafeConfig none) (fun _ => .fill 0)
        (takenSink fun _ _ => (pure () : Io AnyError Unit Unit)) 1 [.fill 0, .fill 1]
          [] refusedInput
        ((), []) = some (.error (.msg "块无候选源且未配置原始节点: 游戏 1 缺 2 块"), ((), [])) :=
  ⟨(downloadMissing_errorsJustified ⟨twoSockets, some⟩ (cafeConfig none) (fun _ => .fill 0)
    (fun _ _ => pure ()) 1 [.fill 0, .fill 1] [] refusedInput () (by decide)).1
      fun _ _ _ => roundsGoWell_refused, by decide +kernel⟩

end Example

end BlazeNet

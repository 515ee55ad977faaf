import BlazeNet.Uploads
import BlazeNet.Proofs.Download
import BlazeNet.Proofs.Origin

/-!
# What an ack says

A message that is acked as written is in the index of the game of its stream (`known_processChunk`),
and no step of the origin takes an entry out of an index (`Onward`).
-/

namespace BlazeNet

open Wire FaultIo Io RustStd GameStore

variable {blake3 : Bytes → Hash} {s s' s'' : Origin} {store : OpenStore} {chunk : UploadChunk}
  {faults : List (Fault AnyError)}

section Appends

/-- An append that does not return leaves the index as it was. -/
theorem unlessDone_appendChunk_index (hash : Hash) (data : Bytes) :
    KeepsUnlessDone SameIndex (appendChunk hash data) := by
  refine .bind SameIndex.trans (keeps_quietIndex Quiet.get) fun s => ?_
  refine .bind SameIndex.trans (keeps_quietIndex quiet_beginRead) fun table => ?_
  refine .bind SameIndex.trans (keeps_quietIndex (quiet_tableGet _ _)) fun value => ?_
  rcases value with _ | value
  · refine .bind SameIndex.trans ((keeps_writeExactAt _ _).onErr _) fun _ => ?_
    refine .bind SameIndex.trans (keeps_setSize _) fun _ => ?_
    refine .bind SameIndex.trans (keeps_quietIndex quiet_beginWrite) fun table => ?_
    refine .bind SameIndex.trans (keeps_quietIndex (quiet_tableInsert _ _ _ _)) fun table => ?_
    intro S s
    refine wp_mono (allOrNothing_commit _ table _ S s) fun r s' h hr => ?_
    rw [h hr]
    exact ⟨rfl, rfl⟩
  · exact (keeps_quietIndex (Quiet.pure _)).unlessDone

/-- An append that returns is in the index. -/
theorem known_appendChunk {s s' : OpenStore} {hash : Hash} {data : Bytes} {loc : ℕ × UInt32}
    (h : exec (appendChunk hash data) s = (.ok loc, s')) : s'.Known hash := by
  rw [exec_appendChunkTo] at h
  rcases hv : s.index[key s.self.gameId hash]? with _ | v <;> rw [hv] at h <;>
    obtain rfl := (Prod.mk.inj h).2
  · simp [OpenStore.Known, appendedTo]
  · rw [OpenStore.Known, hv]
    rfl

/-- The index is as it was, or has an entry more, for data of its hash. -/
def Appends (blake3 : Bytes → Hash) (s s' : OpenStore) : Prop :=
  s'.self.gameId = s.self.gameId ∧ (s'.index = s.index ∨ ∃ hash data offset, blake3 data = hash
    ∧ s'.index = s.index.insert (key s.self.gameId hash)
      (BlazeNet.pack offset (UInt32.ofNat data.length)))

theorem appends_appendChunk (s : OpenStore) {hash : Hash} {data : Bytes}
    (hdata : blake3 data = hash)
    (faults : List (Fault AnyError)) :
    Appends blake3 s ((appendChunk hash data).run ⟨s, faults⟩).2.state := by
  have hleft := unlessDone_appendChunk_index hash data (fun _ => True) s faults fun _ _ => trivial
  rcases hr : (appendChunk hash data).run ⟨s, faults⟩ with ⟨e | loc, w⟩ <;> rw [hr] at hleft
  · have hsame : SameIndex s w.state := hleft (by simp)
    exact ⟨hsame.1, .inl hsame.2⟩
  · have he := exec_of_run (plain_appendChunk hash data) hr
    rw [exec_appendChunkTo] at he
    change Appends blake3 s w.state
    rcases hv : s.index[key s.self.gameId hash]? with _ | v <;> rw [hv] at he <;>
      rw [← (Prod.mk.inj he).2]
    · exact ⟨withPack_gameId .., .inr ⟨hash, data, s.self.size, hdata, withPack_index ..⟩⟩
    · exact ⟨rfl, .inl rfl⟩

theorem appends_processChunk (blake3 : Bytes → Hash) (chunkHash data : Bytes) (store : OpenStore)
    (faults : List (Fault AnyError)) :
    Appends blake3 store
      ((processChunk blake3 chunkHash data).run.run ⟨store, faults⟩).2.state := by
  rcases processChunk_cases blake3 chunkHash data store faults with h | ⟨hash, hdata, h⟩ <;> rw [h]
  · exact ⟨rfl, .inl rfl⟩
  · exact appends_appendChunk store hdata faults

/-- What is acked as written is in the index. -/
theorem known_processChunk {chunkHash data : Bytes} {ack : UploadAck}
    {w : World AnyError OpenStore}
    (h : (processChunk blake3 chunkHash data).run.run ⟨store, faults⟩ = (.ok (.ok ack), w))
    (hok : ack.ok = true) :
    ∃ hash : Hash, hash.bytes = chunkHash ∧ ack.chunkHash = chunkHash ∧ w.state.Known hash := by
  unfold processChunk at h
  rcases hh : Hash.ofBytes? chunkHash with _ | hash <;> rw [hh] at h
  · cases congrArg Prod.fst h
  obtain hbytes := Hash.ofBytes?_eq_some.1 hh
  dsimp only at h
  split_ifs at h with hne
  · obtain rfl := Except.ok.inj (Except.ok.inj (congrArg Prod.fst h))
    cases hok
  change (andThen (attempt (appendChunk hash data)) _).run ⟨store, faults⟩ = _ at h
  rw [run_andThen, run_attempt] at h
  rcases hr : (appendChunk hash data).run ⟨store, faults⟩ with ⟨(e | _) | loc, w'⟩ <;> rw [hr] at h
  · obtain rfl := Except.ok.inj (Except.ok.inj (congrArg Prod.fst h))
    cases hok
  · cases congrArg Prod.fst h
  · obtain rfl := Except.ok.inj (Except.ok.inj (congrArg Prod.fst h))
    obtain rfl := congrArg Prod.snd h
    exact ⟨hash, hbytes, hbytes, known_appendChunk (exec_of_run (plain_appendChunk hash data) hr)⟩

end Appends

section Steps

/-- An open store is of its game, and the streams are of games that there can be. -/
structure Titled (s : Origin) : Prop where
  stores : ∀ g store, s.games g = .opened store → store.self.gameId = g
  streams : ∀ stream ∈ s.streams, stream.gameId ≠ 0

/-- What holds of an index holds still once a chunk of the game is in it. -/
def Inserts (blake3 : Bytes → Hash) (g : UInt64) (P : Index → Prop) : Prop :=
  ∀ (t : Index) hash data offset, blake3 data = hash → P t →
    P (t.insert (key g hash) (BlazeNet.pack offset (UInt32.ofNat data.length)))

/-- A step that keeps the titles and does nothing to the indices but put verified chunks in. -/
structure Onward (blake3 : Bytes → Hash) (s s' : Origin) : Prop where
  titled : Titled s → Titled s'
  index : Titled s → ∀ g P, Inserts blake3 g P → P (s.indexOf g) → P (s'.indexOf g)

theorem Onward.refl (s : Origin) : Onward blake3 s s := ⟨id, fun _ _ _ _ => id⟩

theorem Onward.trans (h : Onward blake3 s s') (h' : Onward blake3 s' s'') : Onward blake3 s s'' :=
  ⟨fun ht => h'.titled (h.titled ht),
    fun ht g P hP hk => h'.index (h.titled ht) g P hP (h.index ht g P hP hk)⟩

/-- What happens outside of the stores and the streams does not count. -/
theorem Onward.aside (h : Onward blake3 s s') (hgames : s''.games = s'.games)
    (hstreams : s''.streams = s'.streams) : Onward blake3 s s'' :=
  h.trans ⟨fun ht => ⟨hgames ▸ ht.stores, hstreams ▸ ht.streams⟩, fun _ g P _ hk => by
    rwa [Origin.indexOf, hgames]⟩

theorem Settled.indexOf (h : Settled s s') (g : UInt64) : s'.indexOf g = s.indexOf g :=
  (h.games g).files.1

/-- What is in an index stays there. -/
theorem Onward.knows (h : Onward blake3 s s') (ht : Titled s) {g : UInt64} {hash : Hash}
    (hk : (s.games g).knows g hash = true) : (s'.games g).knows g hash = true := by
  refine h.index ht g (fun t => (t[key g hash]?).isSome = true)
    (fun t hash' data offset _ hsome => ?_) hk
  beta_reduce at hsome ⊢
  rw [lookup_insert]
  split_ifs
  · rfl
  · exact hsome

theorem knows_opened (g : UInt64) (store : OpenStore) (hash : Hash) :
    (StoreSys.opened store).knows g hash = (store.index[key g hash]?).isSome := rfl

theorem onward_restart (s : Origin) : Onward blake3 s s.restart :=
  ⟨fun _ => ⟨by simp [Origin.restart], by simp [Origin.restart]⟩,
    fun _ g P _ h => (settled_restart s).indexOf g ▸ h⟩

/-- The store of a game goes on with a chunk more in its index. -/
theorem onward_setGame {g : UInt64} {store' : OpenStore} (hg : s.games g = .opened store)
    (h : Appends blake3 store store') : Onward blake3 s (s.setGame g (.opened store')) := by
  refine ⟨fun ht => ⟨fun g' st hst => ?_, ht.streams⟩, fun ht g' P hP hk => ?_⟩
  · rcases eq_or_ne g' g with rfl | hne
    · simp only [Origin.setGame, Function.update_self, StoreSys.opened.injEq] at hst
      rw [← hst, h.1]
      exact ht.stores _ store hg
    · simp only [Origin.setGame, Function.update_of_ne hne] at hst
      exact ht.stores g' st hst
  · rcases eq_or_ne g' g with rfl | hne
    · rw [Origin.indexOf, hg] at hk
      simp only [Origin.indexOf, Origin.setGame, Function.update_self]
      change P store'.index
      rcases h.2 with hsame | ⟨hash, data, offset, hdata, hnew⟩
      · rw [hsame]
        exact hk
      · rw [hnew, ht.stores _ store hg]
        exact hP _ hash data offset hdata hk
    · simpa only [Origin.indexOf, Origin.setGame, Function.update_of_ne hne] using hk

theorem gameId_openStore {gameId : UInt64} {dir : GameDir} {self : GameStore}
    {w : World AnyError GameDir} (h : (openStore gameId).run ⟨dir, faults⟩ = (.ok self, w)) :
    self.gameId = gameId := by
  have hexec := (plain_openStore gameId).sound (fun _ => True) dir faults fun _ _ => trivial
  rw [h] at hexec
  have hself := hexec self rfl
  rw [exec_openStore] at hself
  exact congrArg GameStore.gameId (Except.ok.inj (congrArg Prod.fst hself)).symm

theorem onward_openGame (blake3 : Bytes → Hash) (s : Origin) (g : UInt64)
    (faults : List (Fault AnyError)) :
    Onward blake3 s (s.openGame g faults).1 := by
  refine ⟨fun ht => ?_, fun _ g' P _ hk => ?_⟩
  swap
  · rwa [(openGame_settled s g faults).1.indexOf]
  have hset : ∀ sys : StoreSys, (∀ st, sys = .opened st → st.self.gameId = g) →
      Titled (s.setGame g sys) := by
    refine fun sys hsys => ⟨fun g' st hst => ?_, ht.streams⟩
    rcases eq_or_ne g' g with rfl | hne
    · simp only [Origin.setGame, Function.update_self] at hst
      exact hsys st hst
    · simp only [Origin.setGame, Function.update_of_ne hne] at hst
      exact ht.stores g' st hst
  unfold Origin.openGame
  rcases hg : s.games g with dir | store
  swap
  · exact ht
  dsimp only
  rcases hr : (openStore g).run ⟨dir, faults⟩ with ⟨(e | _) | self, w⟩
  · exact hset _ (by simp)
  · exact (@onward_restart blake3 _).titled (hset _ (by simp))
  · refine hset _ ?_
    rintro _ ⟨⟩
    exact gameId_openStore hr

theorem onward_message {g : UInt64} (hg : s.games g = .opened store) (chunkHash data : Bytes)
    {next : Option UploadAck → Origin → Origin}
    (hnext : ∀ r s', (s'.streams = s.streams) → Onward blake3 s' (next r s')) :
    Onward blake3 s (s.message blake3 g store chunkHash data faults next) := by
  have hgrown := onward_setGame hg (appends_processChunk blake3 chunkHash data store faults)
  unfold Origin.message
  rcases hr : (processChunk blake3 chunkHash data).run.run ⟨store, faults⟩ with ⟨e | e | ack, w⟩ <;>
    rw [hr] at hgrown
  · exact hgrown.trans (onward_restart _)
  · exact hgrown.trans (hnext _ _ rfl)
  · exact hgrown.trans (hnext _ _ rfl)

theorem onward_streams (s : Origin) {streams : List UploadStream}
    (h : Titled s → ∀ stream ∈ streams, stream.gameId ≠ 0) :
      Onward blake3 s { s with streams := streams } :=
  ⟨fun ht => ⟨ht.stores, h ht⟩, fun _ _ _ _ => id⟩

theorem onward_firstChunk (s : Origin) (g : UInt64) (chunkHash data : Bytes)
    (openFaults faults : List (Fault AnyError)) :
    Onward blake3 s (s.firstChunk blake3 g chunkHash data openFaults faults) := by
  unfold Origin.firstChunk
  split_ifs with hzero
  · exact .refl s
  have hopen := onward_openGame blake3 s g openFaults
  have hopened := (openGame_settled s g openFaults).2
  rcases ho : s.openGame g openFaults with ⟨s₁, e | store⟩ <;> rw [ho] at hopen hopened
  · exact hopen
  refine hopen.trans (onward_message (hopened store rfl) chunkHash data fun r s' _ => ?_)
  rcases r with _ | ack
  · exact .refl s'
  · refine onward_streams s' fun ht stream hs => ?_
    rcases List.mem_append.1 hs with hs | hs
    · exact ht.streams stream hs
    · rw [List.mem_singleton.1 hs]
      exact hzero

theorem onward_nextChunk (s : Origin) (i : ℕ) (chunkHash data : Bytes)
    (faults : List (Fault AnyError)) :
    Onward blake3 s (s.nextChunk blake3 i chunkHash data faults) := by
  unfold Origin.nextChunk
  rcases hi : s.streams[i]? with _ | stream
  · exact .refl s
  dsimp only
  rcases hg : s.games stream.gameId with dir | store
  · exact .refl s
  refine onward_message hg chunkHash data fun r s' hstreams => ?_
  rcases r with _ | ack
  · exact onward_streams s' fun ht st hst => ht.streams st (List.mem_of_mem_eraseIdx hst)
  · refine onward_streams s' fun ht st hst => ?_
    rcases List.mem_or_eq_of_mem_set hst with hst | rfl
    · exact ht.streams st hst
    · exact ht.streams stream (hstreams ▸ List.mem_of_getElem? hi)

theorem onward_query (s : Origin) (g : UInt64) (hashes : List Bytes)
    (openFaults faults : List (Fault AnyError)) :
    Onward blake3 s (s.queryExisting g hashes openFaults faults) := by
  unfold Origin.queryExisting
  split_ifs
  · exact .refl s
  have hopen := onward_openGame blake3 s g openFaults
  have hopened := (openGame_settled s g openFaults).2
  rcases ho : s.openGame g openFaults with ⟨s₁, e | store⟩ <;> rw [ho] at hopen hopened
  · exact hopen
  have hq := (quiet_existingChunks hashes).run store faults
  dsimp only
  rcases hr : (existingChunks hashes).run.run ⟨store, faults⟩ with ⟨e | r, st, fs⟩ <;>
    rw [hr] at hq <;> obtain rfl : st = store := hq
  · exact (hopen.trans (onward_setGame (hopened st rfl) ⟨rfl, .inl rfl⟩)).trans (onward_restart _)
  · exact hopen.trans (onward_setGame (hopened st rfl) ⟨rfl, .inl rfl⟩)

theorem onward_commit (s : Origin) (req : CommitRequest) (order : IterOrder Hash)
    (openFaults faults : List (Fault AnyError)) :
    Onward blake3 s (s.commit blake3 req order openFaults faults) := by
  unfold Origin.commit
  rcases checkCommit blake3 req with status | index
  · exact (Onward.refl s).aside rfl rfl
  have hopen := onward_openGame blake3 s req.gameId openFaults
  have hopened := (openGame_settled s req.gameId openFaults).2
  dsimp only
  rcases ho : s.openGame req.gameId openFaults with ⟨s₁, (_ | status) | store⟩ <;>
    rw [ho] at hopen hopened
  · exact hopen
  · exact hopen.aside rfl rfl
  obtain ⟨r, ⟨d, fs⟩, hr, hd, -⟩ := commitLocked_cases req.version req.manifest
    (order.order index.chunkSet) ⟨store, s₁.published req.gameId⟩ faults
  dsimp only at hd
  have hset := hopen.trans (onward_setGame (hopened store rfl) ⟨rfl, .inl rfl⟩)
  have hwritten : Onward blake3 s { s₁.setGame req.gameId (.opened store) with
      published := Function.update s₁.published req.gameId d.published } := hset.aside rfl rfl
  simp only [hr, hd]
  rcases r with e | status | _ | ⟨hash, missing⟩
  · exact hwritten.trans (onward_restart _)
  · exact hwritten.aside rfl rfl
  · dsimp only
    split_ifs <;> exact hwritten.aside rfl rfl
  · exact hwritten.aside rfl rfl

theorem onward_publish (s : Origin) (i : ℕ) (call : PublishCall) :
    Onward blake3 s (s.publish i call) := by
  rcases publish_cases s i call with hend | ⟨c, reply, sched, -, hend, -⟩ <;> rw [hend]
  · exact .refl s
  · exact (Onward.refl s).aside rfl rfl

theorem onward_step (s : Origin) (a : OriginAct) : Onward blake3 s (s.step blake3 a) := by
  cases a with
  | firstChunk g chunkHash data openFaults faults => exact onward_firstChunk s g chunkHash data _ _
  | nextChunk i chunkHash data faults => exact onward_nextChunk s i chunkHash data faults
  | endStream i =>
    exact onward_streams s fun ht st hst => ht.streams st (List.mem_of_mem_eraseIdx hst)
  | query g hashes openFaults faults => exact onward_query s g hashes openFaults faults
  | commit req order openFaults faults => exact onward_commit s req order openFaults faults
  | publish i call => exact onward_publish s i call
  | restart => exact onward_restart s

theorem onward_run : ∀ (acts : List OriginAct) (s : Origin), Onward blake3 s (s.run blake3 acts)
  | [], s => .refl s
  | a :: acts, s => (onward_step s a).trans (onward_run acts _)

theorem titled_init (scheduler : Bool) : Titled (.init scheduler) :=
  ⟨by simp [Origin.init], by simp [Origin.init]⟩

end Steps

section Acks

theorem receive_eq_step (s : Origin) (stream : Option ℕ) (chunk : UploadChunk)
    (openFaults faults : List (Fault AnyError)) :
    ∃ a, s.receive blake3 stream chunk openFaults faults = s.step blake3 a := by
  rcases stream with _ | i
  · exact ⟨.firstChunk chunk.gameId chunk.chunkHash chunk.data openFaults faults, rfl⟩
  · exact ⟨.nextChunk i chunk.chunkHash chunk.data faults, rfl⟩

/-- The store has been acked from, and is left with the chunk. -/
theorem known_of_ack {ack : UploadAck} (h : store.ack blake3 chunk faults = some ack) :
    ∃ w, (processChunk blake3 chunk.chunkHash chunk.data).run.run ⟨store, faults⟩
        = (.ok (.ok ack), w)
      ∧ (ack.ok = true → ∃ hash : Hash, hash.bytes = chunk.chunkHash
        ∧ ack.chunkHash = chunk.chunkHash ∧ w.state.Known hash) := by
  unfold OpenStore.ack at h
  rcases hr : (processChunk blake3 chunk.chunkHash chunk.data).run.run ⟨store, faults⟩ with
    ⟨e | e | ack', w⟩ <;> rw [hr] at h
  · cases h
  · cases h
  · obtain rfl := Option.some.inj h
    exact ⟨w, rfl, known_processChunk hr⟩

/-- What holds wherever a stream goes on after its ack holds of the acked message. -/
theorem message_acked (P : Origin → Prop) {g : UInt64} {ack : UploadAck}
    {next : Option UploadAck → Origin → Origin} (hs : store.self.gameId = g)
    (h : store.ack blake3 chunk faults = some ack)
    (hnext : ∀ store', (ack.ok = true → ∃ hash : Hash, hash.bytes = chunk.chunkHash
      ∧ ack.chunkHash = chunk.chunkHash ∧ (StoreSys.opened store').knows g hash = true) →
        P (next (some ack) (s.setGame g (.opened store')))) :
    P (s.message blake3 g store chunk.chunkHash chunk.data faults next) := by
  obtain ⟨w, hr, hknown⟩ := known_of_ack h
  have hgame := (appends_processChunk blake3 chunk.chunkHash chunk.data store faults).1
  rw [hr] at hgame
  unfold Origin.message
  rw [hr]
  refine hnext w.state fun hok => ?_
  obtain ⟨hash, hbytes, hack, hin⟩ := hknown hok
  rw [OpenStore.Known, hgame, hs] at hin
  exact ⟨hash, hbytes, hack, hin⟩

/-- What an ack says: its stream goes on with it, and the game of the stream has the chunk. -/
structure Acked (chunk : UploadChunk) (g : UInt64) (ack : UploadAck) (s : Origin) : Prop where
  sent : ∃ stream ∈ s.streams, stream.gameId = g ∧ stream.acks.getLast? = some ack
  stored : ack.ok = true → ∃ hash : Hash, hash.bytes = chunk.chunkHash
    ∧ ack.chunkHash = chunk.chunkHash ∧ (s.games g).knows g hash = true

theorem receive_acked (ht : Titled s) {stream : Option ℕ} {openFaults : List (Fault AnyError)}
    {g : UInt64} {ack : UploadAck}
    (h : s.ackOf blake3 stream chunk openFaults faults = some (g, ack)) :
    g ≠ 0 ∧ Acked chunk g ack (s.receive blake3 stream chunk openFaults faults) := by
  rcases stream with _ | i
  · unfold Origin.ackOf at h
    unfold Origin.receive Origin.firstChunk
    dsimp only at h ⊢
    split_ifs at h ⊢ with hzero
    have hopened := (openGame_settled s chunk.gameId openFaults).2
    have htitled := (onward_openGame blake3 s chunk.gameId openFaults).titled ht
    rcases ho : s.openGame chunk.gameId openFaults with ⟨s₁, e | store⟩ <;>
      rw [ho] at h hopened htitled
    · cases h
    obtain ⟨a, hack, hpair⟩ := Option.map_eq_some_iff.1 h
    obtain ⟨rfl, rfl⟩ := Prod.mk.inj hpair
    refine ⟨hzero, message_acked (Acked chunk chunk.gameId a)
      (htitled.stores _ store (hopened store rfl)) hack fun store' hknown => ⟨?_, ?_⟩⟩
    · exact ⟨_, List.mem_append_right _ (List.mem_singleton.2 rfl), rfl, rfl⟩
    · simpa only [Origin.setGame, Function.update_self] using hknown
  · unfold Origin.ackOf at h
    unfold Origin.receive Origin.nextChunk
    dsimp only at h ⊢
    rcases hi : s.streams[i]? with _ | stream <;> rw [hi] at h
    · cases h
    dsimp only at h ⊢
    rcases hg : s.games stream.gameId with dir | store <;> rw [hg] at h
    · cases h
    obtain ⟨a, hack, hpair⟩ := Option.map_eq_some_iff.1 h
    obtain ⟨rfl, rfl⟩ := Prod.mk.inj hpair
    refine ⟨ht.streams stream (List.mem_of_getElem? hi), message_acked (Acked chunk stream.gameId a)
      (ht.stores _ store hg) hack fun store' hknown => ⟨?_, ?_⟩⟩
    · exact ⟨_, List.mem_set (List.getElem?_eq_some_iff.1 hi).1 _, rfl, by simp⟩
    · simpa only [Origin.setGame, Function.update_self] using hknown

theorem exec_existingChunks_known {hash : Hash} (hknown : store.Known hash) :
    exec (existingChunks [hash.bytes]).run store = (.ok (.ok [hash.bytes]), store) := by
  have hloop : exec (existingChunks [hash.bytes]).run store = (.ok (.ok
      (if (store.index[key store.self.gameId hash]?).isSome then [hash.bytes] else [])),
      store) := by
    unfold existingChunks
    rw [Hash.ofBytes?_eq_some.2 rfl]
    rfl
  rw [OpenStore.Known] at hknown
  rw [hloop, if_pos hknown]

/-- What is in the index of a game is found. -/
theorem existing_known (ht : Titled s) {g : UInt64} (hg : g ≠ 0) {hash : Hash}
    (hknows : (s.games g).knows g hash = true) :
    s.existing g [hash.bytes] [] [] = some (.ok [hash.bytes]) := by
  have hopen := onward_openGame lengthHash s g []
  have hopened := (openGame_settled s g []).2
  obtain ⟨store, hstore⟩ := openGame_nil s g
  rcases ho : s.openGame g [] with ⟨s₁, r⟩
  rw [ho] at hopen hopened hstore
  obtain rfl : r = .ok store := hstore
  have hgame : s₁.games g = .opened store := hopened store rfl
  have hknown : store.Known hash := by
    have := hopen.knows ht hknows
    rw [hgame, knows_opened] at this
    rwa [OpenStore.Known, (hopen.titled ht).stores g store hgame]
  unfold Origin.existing
  rw [if_neg hg, ho]
  dsimp only
  rw [run_nil, exec_existingChunks_known hknown]
  rfl

/-- A message acked as written is in the store of the game that its stream began with, and a lookup
there finds it, right after the ack and ever after. -/
theorem ackOf_existing (blake3 : Bytes → Hash) (scheduler : Bool) (acts : List OriginAct)
    (stream : Option ℕ) (chunk : UploadChunk) (openFaults faults : List (Fault AnyError))
    (g : UInt64) (ack : UploadAck) (later : List OriginAct) :
    let s := (Origin.init scheduler).run blake3 acts
    let s' := s.receive blake3 stream chunk openFaults faults
    s.ackOf blake3 stream chunk openFaults faults = some (g, ack) →
      Acked chunk g ack s'
        ∧ (ack.ok = true → (s'.run blake3 later).existing g [chunk.chunkHash] [] []
          = some (.ok [chunk.chunkHash])) := by
  intro s s' hack
  have ht : Titled s := (onward_run acts _).titled (titled_init scheduler)
  obtain ⟨hg, hacked⟩ := receive_acked ht hack
  refine ⟨hacked, fun hok => ?_⟩
  obtain ⟨hash, hbytes, -, hknows⟩ := hacked.stored hok
  obtain ⟨a, hstep⟩ : ∃ a, s' = s.step blake3 a := receive_eq_step s stream chunk openFaults faults
  have hlater : Onward blake3 s' (s'.run blake3 later) := onward_run later s'
  have ht' : Titled s' := hstep ▸ (onward_step s a).titled ht
  rw [← hbytes]
  exact existing_known (hlater.titled ht') hg (hlater.knows ht' hknows)

/-- A chunk of game 7. -/
def firstOfSeven : UploadChunk := ⟨7, (Hash.fill 1).bytes, [5], 0⟩

theorem ackOf_existing_first :
    ((Origin.init true).receive lengthHash none firstOfSeven [] []).existing 7
      [(Hash.fill 1).bytes] [] [] = some (.ok [(Hash.fill 1).bytes]) := by
  have hack : (Origin.init true).ackOf lengthHash none firstOfSeven [] []
      = some (7, ⟨(Hash.fill 1).bytes, true, ""⟩) := by
    have ho : (Origin.init true).openGame 7 []
        = ((Origin.init true).setGame 7 (.opened (opened₀ 7)), .ok (opened₀ 7)) := rfl
    simp only [Origin.ackOf, firstOfSeven, ho, OpenStore.ack,
      processChunk_five (show lengthHash [5] = .fill 1 by rfl)]
    rfl
  exact (ackOf_existing lengthHash true [] none firstOfSeven [] [] 7 _ [] hack).2 rfl

/-- A chunk that is there is acked again. -/
theorem processChunk_known {hash : Hash} {data : Bytes} (hknown : store.Known hash)
    (hdata : blake3 data = hash) : (processChunk blake3 hash.bytes data).run.run ⟨store, []⟩
      = (.ok (.ok ⟨hash.bytes, true, ""⟩), ⟨store, []⟩) := by
  obtain ⟨v, hv⟩ := Option.isSome_iff_exists.1 hknown
  have he := exec_appendChunkTo store hash data
  rw [hv] at he
  rw [processChunk, Hash.ofBytes?_eq_some.2 rfl]
  dsimp only
  rw [if_neg (not_not.2 hdata)]
  change (andThen (attempt (appendChunk hash data)) _).run ⟨store, []⟩ = _
  rw [run_andThen, run_attempt, run_nil, he]
  rfl

/-- The same chunk, named for game 8. -/
def namedEight : UploadChunk := ⟨8, (Hash.fill 1).bytes, [5], 1⟩

/-- The stream of game 7 acks a message that names game 8, which does not have its chunk. -/
theorem ackOf_otherGame :
    let s := (Origin.init true).receive lengthHash none firstOfSeven [] []
    s.ackOf lengthHash (some 0) namedEight [] [] = some (7, ⟨namedEight.chunkHash, true, ""⟩)
      ∧ ((s.receive lengthHash (some 0) namedEight [] []).games 8).knows 8 (.fill 1) = false
      ∧ (s.receive lengthHash (some 0) namedEight [] []).existing 8 [namedEight.chunkHash] [] []
        = some (.ok []) := by
  intro s
  have hs : s = uploaded₁ := firstChunk_uploaded (by rfl)
  have hknown : (appended (opened₀ 7) (.fill 1, [5])).Known (.fill 1) := by
    rw [OpenStore.Known, appended, lookup_insert, if_pos rfl]
    rfl
  have hrun : (processChunk lengthHash namedEight.chunkHash namedEight.data).run.run
      ⟨appended (opened₀ 7) (.fill 1, [5]), []⟩ = (.ok (.ok ⟨namedEight.chunkHash, true, ""⟩),
        ⟨appended (opened₀ 7) (.fill 1, [5]), []⟩) := processChunk_known hknown (by rfl)
  have hstream : uploaded₁.streams[0]? = some ⟨7, [⟨(Hash.fill 1).bytes, true, ""⟩]⟩ := rfl
  have hgame : uploaded₁.games 7 = .opened (appended (opened₀ 7) (.fill 1, [5])) := rfl
  have hother : (s.receive lengthHash (some 0) namedEight [] []).games 8
      = .closed ⟨none, none, none⟩ := by
    rw [hs]
    simp only [Origin.receive, Origin.nextChunk, hstream, hgame, Origin.message, hrun]
    rfl
  refine ⟨?_, ?_, ?_⟩
  · rw [hs]
    simp only [Origin.ackOf, hstream, hgame, OpenStore.ack, hrun]
    rfl
  · rw [hother]
    rfl
  · simp only [Origin.existing, Origin.openGame, hother]
    rfl

end Acks

end BlazeNet

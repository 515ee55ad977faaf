import BlazeNet.Datapath

/-!
# What a connection is served

The gate prints that it refuses and lets the connection pass, so what is written to the peer does
not depend on the paths seen (`handleConn_chunkBytes`): chunk bytes go out whenever the request
gets as far as a chunk, and only then.
-/

namespace BlazeNet

open Wire

section Wait

/-- One of the observations is of a direct path, and before it there were relay paths only. -/
def DirectSeen (observed : List Paths) : Prop :=
  ∃ pre hasRelay post, observed = pre ++ (true, hasRelay) :: post ∧ ∀ o ∈ pre, o = (false, true)

theorem directSeen_cons (o : Paths) (rest : List Paths) :
    DirectSeen (o :: rest) ↔ o.1 = true ∨ o = (false, true) ∧ DirectSeen rest := by
  refine ⟨?_, ?_⟩
  · rintro ⟨_ | ⟨p, pre⟩, r, post, he, hpre⟩
    · obtain ⟨rfl, -⟩ := List.cons_eq_cons.1 he
      exact .inl rfl
    · obtain ⟨rfl, rfl⟩ := List.cons_eq_cons.1 he
      exact .inr ⟨hpre _ List.mem_cons_self, pre, r, post, rfl,
        fun o ho => hpre o (List.mem_cons_of_mem _ ho)⟩
  · rintro (ho | ⟨rfl, pre, r, post, rfl, hpre⟩)
    · exact ⟨[], o.2, rest, by rw [← ho]; rfl, by simp⟩
    · refine ⟨(false, true) :: pre, r, post, rfl, fun o ho => ?_⟩
      rcases List.mem_cons.1 ho with rfl | ho
      · rfl
      · exact hpre o ho

/-- Waiting ends with `true` exactly when a direct path was seen. -/
theorem waitForDirectPath_iff : ∀ (first : Paths) (later : List Paths),
    waitForDirectPath first later = true ↔ DirectSeen (first :: later)
  | (true, r), later => by
    rw [waitForDirectPath.eq_def]
    simp [directSeen_cons]
  | (false, false), later => by
    rw [waitForDirectPath.eq_def]
    simp [directSeen_cons]
  | (false, true), [] => by
    have hnil : ¬ DirectSeen [] := by
      rintro ⟨_ | ⟨_, _⟩, _, _, he, -⟩ <;> simp at he
    simp [waitForDirectPath, directSeen_cons, hnil]
  | (false, true), next :: later => by
    rw [directSeen_cons, waitForDirectPath]
    simp [waitForDirectPath_iff next later]

end Wait

section Run

variable {σ α β : Type}

def runConn (p : ConnIo σ α) (c : Conn σ) : Except AnyError α × Conn σ := p.run.run c

@[simp] theorem runConn_pure (a : α) (c : Conn σ) :
    runConn (pure a : ConnIo σ α) c = (.ok a, c) := rfl

@[simp] theorem runConn_throw (e : AnyError) (c : Conn σ) :
    runConn (throw e : ConnIo σ α) c = (.error e, c) := rfl

@[simp] theorem runConn_get (c : Conn σ) : runConn (get : ConnIo σ (Conn σ)) c = (.ok c, c) := rfl

@[simp] theorem runConn_set (c c' : Conn σ) :
    runConn (set c' : ConnIo σ Unit) c = (.ok (), c') := rfl

@[simp] theorem runConn_modify (f : Conn σ → Conn σ) (c : Conn σ) :
    runConn (modify f : ConnIo σ Unit) c = (.ok (), f c) := rfl

theorem runConn_bind (p : ConnIo σ α) (f : α → ConnIo σ β) (c : Conn σ) :
    runConn (p >>= f) c = match runConn p c with
      | (.ok a, c') => runConn (f a) c'
      | (.error e, c') => (.error e, c') := by
  unfold runConn
  rw [ExceptT.run_bind, StateT.run_bind]
  change (match p.run.run c with | (x, c') => _ : Id _) = _
  rcases p.run.run c with ⟨e | a, c'⟩ <;> rfl

theorem runConn_context (text : String) (p : ConnIo σ α) (c : Conn σ) :
    runConn (connContext text p) c = match runConn p c with
      | (.ok a, c') => (.ok a, c')
      | (.error e, c') => (.error (e.context text), c') := by
  unfold runConn
  change (ExceptT.tryCatch p _).run.run c = _
  unfold ExceptT.tryCatch
  rw [ExceptT.run_mk, StateT.run_bind, ExceptT.run]
  generalize StateT.run p c = x
  rcases x with ⟨e | a, c'⟩ <;> rfl

theorem runConn_recvExact (e : AnyError) (n : ℕ) (c : Conn σ) :
    runConn (recvExact e n) c = if c.unread.length < n then (.error e, c)
      else (.ok (c.unread.take n), { c with unread := c.unread.drop n }) := by
  unfold recvExact
  rw [runConn_bind]
  simp only [runConn_get]
  split_ifs <;> rfl

@[simp] theorem runConn_liftExcept (r : Except AnyError Unit) (c : Conn σ) :
    runConn (println.liftExcept r) c = (r, c) := by
  rcases r with e | ⟨⟩ <;> rfl

theorem runConn_println (out : Printed) (c : Conn σ) :
    runConn (println out) c = (out.2, { c with printed := c.printed ++ out.1 }) := by
  rw [println, runConn_bind]
  simp only [runConn_modify, runConn_liftExcept]

theorem gateOrReject_ok (ready : Bool) : (gateOrReject ready).2 = .ok () := by
  cases ready <;> rfl

/-- What a peer with that much room takes of some bytes. -/
def taken (room : Option (ℕ × AnyError)) (bytes : Bytes) : Bytes :=
  match room with
  | none => bytes
  | some (n, _) => bytes.take n

@[simp] theorem taken_nil (room : Option (ℕ × AnyError)) : taken room [] = [] := by
  rcases room with _ | ⟨n, e⟩ <;> simp [taken]

theorem runConn_sendAll (frame : Frame) (c : Conn σ) :
    runConn (sendAll frame) c
      = (match c.room with
          | none => .ok ()
          | some (n, e) => if n < frame.bytes.length then .error e else .ok (),
        { c with
          sent := c.sent ++ [{ frame with bytes := taken c.room frame.bytes }]
          room := c.room.map fun r => (r.1 - frame.bytes.length, r.2) }) := by
  unfold sendAll
  rw [runConn_bind]
  simp only [runConn_get]
  rcases hr : c.room with _ | ⟨n, e⟩
  · simp [taken]
  · simp only [runConn_bind, runConn_set]
    split_ifs <;> simp [taken]

end Run

section Serve

variable {σ : Type} (readChunk : σ → Hash → Except AnyError (Option Bytes))
  (openStore : UInt64 → Except AnyError σ)

/-- The hashes that are complete in the rest of a request for `count` chunks. -/
def askedHashes : ℕ → Bytes → List Hash
  | 0, _ => []
  | count + 1, unread => match Hash.ofBytes? (unread.take hashLen) with
    | none => []
    | some hash => hash :: askedHashes count (unread.drop hashLen)

/-- Before a hash that is missing or cannot be read there is one whose chunk is not empty, and the
peer takes a byte of that chunk. -/
def ReachesData (read : Hash → Except AnyError (Option Bytes)) : Option ℕ → List Hash → Prop
  | _, [] => False
  | room, hash :: hashes => match read hash with
    | .ok (some []) => (∀ n, room = some n → 4 ≤ n) ∧ ReachesData read (room.map (· - 4)) hashes
    | .ok (some (_ :: _)) => ∀ n, room = some n → 4 < n
    | _ => False

/-- The store a request for a game is served from. -/
def storeFor (packDefault : Bool) (stores packStores : UInt64 → Option σ) (gameId : UInt64) :
    Option σ :=
  (stores gameId).or (if packDefault then
    (packStores gameId).or (openStore gameId).toOption else none)

/-- The request of the peer gets as far as the bytes of a chunk. -/
def Reaches (packDefault : Bool) (stores packStores : UInt64 → Option σ) (peer : Peer) : Prop :=
  peer.acceptBi = .ok () ∧ 12 ≤ peer.request.length
    ∧ ∃ store, storeFor openStore packDefault stores packStores
        (UInt64.ofNat (ofLe (peer.request.take 8).reverse)) = some store
      ∧ ReachesData (readChunk store) (peer.room.map (·.1))
        (askedHashes (ofLe ((peer.request.drop 8).take 4).reverse) (peer.request.drop 12))

theorem sendAll_chunkBytes (frame : Frame) (c : Conn σ) :
    (runConn (sendAll frame) c).2.chunkBytes
      = c.chunkBytes ++ if frame.ofChunk then taken c.room frame.bytes else [] := by
  rw [runConn_sendAll]
  unfold Conn.chunkBytes
  dsimp only
  rw [List.filter_append, List.flatMap_append]
  congr 1
  rcases frame with ⟨_ | _, b⟩ <;> simp

/-- How much of a chunk gets out: nothing unless its length does, and then what there is room
for. -/
theorem sendChunk_spec (data : Bytes) (c : Conn σ) :
    (runConn (sendChunk data) c).2.unread = c.unread
      ∧ (runConn (sendChunk data) c).2.chunkBytes
        = c.chunkBytes ++ taken (c.room.map fun r => (r.1 - 4, r.2)) data
      ∧ ((runConn (sendChunk data) c).1 = .ok ()
        ↔ ∀ n, c.room.map (·.1) = some n → 4 + data.length ≤ n)
      ∧ ((runConn (sendChunk data) c).1 = .ok () → (runConn (sendChunk data) c).2.room.map (·.1)
        = (c.room.map (·.1)).map (· - (4 + data.length))) := by
  have hhead := sendAll_chunkBytes ⟨false, (leBytes 4 data.length).reverse⟩ c
  have hsize : (leBytes 4 data.length).reverse.length = 4 := by simp
  rw [sendChunk, runConn_bind]
  rw [runConn_sendAll] at hhead ⊢
  simp only [hsize, Bool.false_eq_true, if_false, List.append_nil] at hhead ⊢
  rcases hroom : c.room with _ | ⟨n, e⟩
  · rw [hroom] at hhead
    simp only [sendAll_chunkBytes, hhead]
    simp [runConn_sendAll]
  · rw [hroom] at hhead
    by_cases hn : n < 4
    · simp only [hn, if_true]
      refine ⟨trivial, ?_, by simp; omega, by simp⟩
      rw [hhead]
      simp [taken, Nat.sub_eq_zero_of_le hn.le]
    · simp only [hn, if_false, sendAll_chunkBytes, hhead]
      rw [runConn_sendAll]
      refine ⟨rfl, by simp, ?_, fun _ => ?_⟩
      · simp only [Option.map_some, Option.some.injEq]
        split_ifs with hd
        · simp
          omega
        · simp
          omega
      · simp only [Option.map_some]
        congr 1
        omega

/-- Bytes that are sent stay sent. -/
theorem sendChunks_keeps_bytes (ending : AnyError) (store : σ) : ∀ (count : ℕ) (c : Conn σ),
    c.chunkBytes ≠ [] → (runConn (sendChunks readChunk ending store count) c).2.chunkBytes ≠ []
  | 0, c, hc => hc
  | count + 1, c, hc => by
    rw [sendChunks, runConn_bind, runConn_context, runConn_recvExact]
    split_ifs
    · exact hc
    dsimp only
    rcases Hash.ofBytes? (c.unread.take hashLen) with _ | hash
    · exact hc
    dsimp only
    rcases readChunk store hash with e | _ | data
    · exact hc
    · exact hc
    obtain ⟨-, hbytes, -⟩ := sendChunk_spec data { c with unread := c.unread.drop hashLen }
    dsimp only
    rw [runConn_bind]
    rcases hr : runConn (sendChunk data) { c with unread := c.unread.drop hashLen }
      with ⟨e | ⟨⟩, c₁⟩ <;> rw [hr] at hbytes <;> dsimp only at hbytes ⊢
    · rw [hbytes]
      exact List.append_ne_nil_of_left_ne_nil hc _
    · refine sendChunks_keeps_bytes ending store count c₁ ?_
      rw [hbytes]
      exact List.append_ne_nil_of_left_ne_nil hc _

/-- The loop sends bytes of a chunk exactly when it reaches one. -/
theorem sendChunks_chunkBytes (ending : AnyError) (store : σ) : ∀ (count : ℕ) (c : Conn σ),
    c.chunkBytes = [] →
    ((runConn (sendChunks readChunk ending store count) c).2.chunkBytes ≠ []
      ↔ ReachesData (readChunk store) (c.room.map (·.1)) (askedHashes count c.unread))
  | 0, c, hc => by simp [sendChunks, askedHashes, ReachesData, hc]
  | count + 1, c, hc => by
    rw [sendChunks, runConn_bind, runConn_context, runConn_recvExact, askedHashes]
    split_ifs with hshort
    · have hnone : Hash.ofBytes? (c.unread.take hashLen) = none := by
        rw [Hash.ofBytes?, dif_neg]
        rw [List.length_take]
        omega
      simp [hnone, ReachesData, hc]
    have hlen : (c.unread.take hashLen).length = hashLen := by
      rw [List.length_take]
      omega
    simp only [Hash.ofBytes?, dif_pos hlen, ReachesData]
    generalize (⟨c.unread.take hashLen, hlen⟩ : Hash) = hash
    generalize hc₀ : ({ c with unread := c.unread.drop hashLen } : Conn σ) = c₀
    have hb₀ : c₀.chunkBytes = [] := hc₀ ▸ hc
    have hu₀ : c₀.unread = c.unread.drop hashLen := hc₀ ▸ rfl
    have hr₀ : c₀.room = c.room := hc₀ ▸ rfl
    rcases hread : readChunk store hash with e | _ | data
    · simp only [runConn_throw, hb₀, ne_eq, not_true_eq_false]
    · simp only [runConn_throw, hb₀, ne_eq, not_true_eq_false]
    obtain ⟨hunread, hbytes, hok, hroom⟩ := sendChunk_spec data c₀
    rw [hb₀, List.nil_append] at hbytes
    rw [← hu₀, ← hr₀]
    simp only [runConn_bind]
    rcases hr : runConn (sendChunk data) c₀ with ⟨e | ⟨⟩, c₁⟩ <;>
      rw [hr] at hunread hbytes hok hroom <;> dsimp only at hunread hbytes hok hroom ⊢
    · rcases data with _ | ⟨x, xs⟩
      · exact iff_of_false (by simp [hbytes]) fun h => by simpa using hok.2 h.1
      · rw [hbytes]
        have hno := mt hok.2 (by simp)
        push Not at hno
        obtain ⟨n, hn, -⟩ := hno
        obtain ⟨⟨n', e'⟩, hroom', rfl⟩ := Option.map_eq_some_iff.1 hn
        simp [hroom', taken]
        omega
    · have hfits := hok.1 rfl
      rcases data with _ | ⟨x, xs⟩
      · have ih := sendChunks_chunkBytes ending store count c₁ (by rw [hbytes, taken_nil])
        rw [hunread, hroom rfl] at ih
        rw [ih]
        exact ⟨fun h => ⟨hfits, h⟩, fun h => h.2⟩
      · refine iff_of_true (sendChunks_keeps_bytes readChunk ending store count c₁ ?_)
          fun n hn => ?_
        · rw [hbytes]
          rcases hroom' : c₀.room with _ | ⟨n, e'⟩
          · simp [taken]
          · have := hfits n (by rw [hroom']; rfl)
            simp only [List.length_cons] at this
            simp [taken]
            omega
        · have := hfits n hn
          simp only [List.length_cons] at this
          omega

theorem storeEntry_cases (packDefault : Bool) (gameId : UInt64) (c : Conn σ) :
    (∃ store c', storeFor openStore packDefault c.stores c.packStores gameId = some store
        ∧ runConn (storeEntry openStore packDefault gameId) c = (.ok store, c')
        ∧ c'.sent = c.sent ∧ c'.unread = c.unread ∧ c'.room = c.room)
      ∨ ∃ e, storeFor openStore packDefault c.stores c.packStores gameId = none
        ∧ runConn (storeEntry openStore packDefault gameId) c = (.error e, c) := by
  unfold storeEntry storeFor
  rw [runConn_bind]
  simp only [runConn_get]
  rcases c.stores gameId with _ | store
  · rcases packDefault with _ | _
    · exact .inr ⟨_, rfl, rfl⟩
    rcases c.packStores gameId with _ | pack
    · rcases openStore gameId with e | pack
      · exact .inr ⟨e, rfl, rfl⟩
      · exact .inl ⟨pack, _, rfl, rfl, rfl, rfl, rfl⟩
    · exact .inl ⟨pack, _, rfl, rfl, rfl, rfl, rfl⟩
  · exact .inl ⟨store, c, rfl, rfl, rfl, rfl, rfl⟩

/-- What a connection is sent does not depend on the paths it has. -/
theorem handleConn_chunkBytes (packDefault : Bool) (first : Paths) (later : List Paths)
    (peer : Peer) (stores packStores : UInt64 → Option σ) :
    (runConn (handleConn readChunk openStore packDefault first later peer)
        (peer.connect stores packStores)).2.chunkBytes ≠ []
      ↔ Reaches readChunk openStore packDefault stores packStores peer := by
  unfold handleConn Reaches
  simp only [runConn_bind, runConn_println, gateOrReject_ok, runConn_context, runConn_liftExcept,
    runConn_recvExact, Peer.connect]
  rcases peer.acceptBi with e | ⟨⟩
  · simp [Conn.chunkBytes]
  dsimp only
  by_cases h8 : peer.request.length < 8
  · rw [if_pos h8]
    exact iff_of_false (by simp [Conn.chunkBytes]) fun h => by omega
  rw [if_neg h8]
  dsimp only
  by_cases h12 : (peer.request.drop 8).length < 4
  · rw [if_pos h12]
    rw [List.length_drop] at h12
    exact iff_of_false (by simp [Conn.chunkBytes]) fun h => by omega
  rw [if_neg h12, List.drop_drop]
  rw [List.length_drop] at h12
  have hlong : 12 ≤ peer.request.length := by omega
  dsimp only
  rcases storeEntry_cases openStore packDefault (UInt64.ofNat (ofLe (peer.request.take 8).reverse))
      (⟨stores, packStores, peer.request.drop (8 + 4), peer.room, [],
        [] ++ (gateOrReject (waitForDirectPath first later)).1⟩ : Conn σ)
    with ⟨store, c, hstore, hrun, hsent, hunread, hroom⟩ | ⟨e, hnone, hrun⟩
  · have hempty : c.chunkBytes = [] := by simp [Conn.chunkBytes, hsent]
    have hloop := sendChunks_chunkBytes readChunk peer.ending store
      (ofLe ((peer.request.drop 8).take 4).reverse) c hempty
    simp only at hstore hunread hroom
    rw [hunread, hroom] at hloop
    simp only [hrun, hstore, hlong, Option.some.injEq, exists_eq_left', true_and, ← hloop]
    rcases runConn (sendChunks readChunk peer.ending store _) c with ⟨e | ⟨⟩, c'⟩
    · rfl
    · rcases peer.finish with e | ⟨⟩ <;> rfl
  · simp only at hnone
    simp only [hrun, hnone]
    simp [Conn.chunkBytes]

/-- A connection without a direct path is refused chunk bytes exactly when its request does not
get as far as a chunk. -/
theorem handleConn_needs_direct_iff (packDefault : Bool) (first : Paths) (later : List Paths)
    (peer : Peer) (stores packStores : UInt64 → Option σ) :
    ((runConn (handleConn readChunk openStore packDefault first later peer)
        (peer.connect stores packStores)).2.chunkBytes ≠ [] → DirectSeen (first :: later))
      ↔ waitForDirectPath first later = true
        ∨ ¬ Reaches readChunk openStore packDefault stores packStores peer := by
  rw [handleConn_chunkBytes, waitForDirectPath_iff]
  tauto

/-- A connection that only shows a relay path asks for one chunk and gets it. -/
theorem handleConn_serves_relay_only :
    ¬ DirectSeen [(false, true), (false, true)] ∧
    (runConn (handleConn (fun (_ : Unit) _ => .ok (some [5])) (fun _ => .ok ()) true (false, true)
        [(false, true)] ⟨.ok (), [0, 0, 0, 0, 0, 0, 0, 7, 0, 0, 0, 1] ++ List.replicate 32 1,
          .msg "early eof", none, .ok ()⟩)
      (Peer.connect ⟨.ok (), [0, 0, 0, 0, 0, 0, 0, 7, 0, 0, 0, 1] ++ List.replicate 32 1,
          .msg "early eof", none, .ok ()⟩ (fun _ => some ()) fun _ => none)).2.chunkBytes
            = [5] := by
  refine ⟨fun h => ?_, by rfl⟩
  rw [← waitForDirectPath_iff] at h
  exact absurd h (by decide)

end Serve

end BlazeNet

import BlazeNet.Fetch
import BlazeNet.Proofs.Datapath
import BlazeNet.Proofs.StoreRun

/-!
# What a fetch gets from a peer

The server writes whole frames, one for each hash up to the first that its store does not have
(`serve_written`), and the client reads back one by one those that have arrived when the connection
is dropped (`receiveChunks_cut`). At the end of the stream every hash that is left has failed,
whether or not the store has its chunk.
-/

namespace BlazeNet

open Wire FaultIo Io RustStd

section Store

open GameStore

/-- A block store whose reads do not fail is such a store. -/
theorem exists_storeContent {s : OpenStore}
    (hreads : ∀ hash, ∃ r, (exec (readChunk hash) s).1 = .ok r) :
    ∃ store : StoreContent, ∀ hash, (exec (readChunk hash) s).1 = .ok (store.chunk hash) := by
  choose chunk hchunk using hreads
  refine ⟨⟨chunk, fun hash data hdata => ?_⟩, hchunk⟩
  have hread := hchunk hash
  rw [hdata, exec_readChunk_content] at hread
  split at hread
  · cases hread
  · rename_i v _
    split_ifs at hread
    · have hlen := (unpack v).2.toNat_lt
      rw [← Option.some.inj (Except.ok.inj hread), length_pread]
      omega

end Store

section Server

variable {link : Link} {store : StoreContent} {gameId : UInt64}

/-- A chunk on the wire. -/
def frameOf (data : Bytes) : Bytes := (leBytes 4 data.length).reverse ++ data

/-- What has been written to the peer. -/
def Conn.written {σ : Type} (c : Conn σ) : Bytes := c.sent.flatMap (·.bytes)

theorem runConn_sendChunk {σ : Type} (data : Bytes) {c : Conn σ} (hroom : c.room = none) :
    runConn (sendChunk data) c = (.ok (), { c with
      sent := c.sent ++ [⟨false, (leBytes 4 data.length).reverse⟩, ⟨true, data⟩] }) := by
  rcases c with ⟨stores, packStores, unread, room, sent, printed⟩
  dsimp only at hroom
  subst hroom
  rw [sendChunk, runConn_bind, runConn_sendAll]
  simp only [runConn_sendAll, taken, Option.map_none, List.append_assoc]
  rfl

theorem ofBytes?_bytes (hash : Hash) : Hash.ofBytes? hash.bytes = some hash := by
  rw [Hash.ofBytes?, dif_pos hash.size]

theorem take_request (hash : Hash) (rest : Bytes) :
    (hash.bytes ++ rest).take hashLen = hash.bytes ∧ (hash.bytes ++ rest).drop hashLen = rest := by
  have hlen : hash.bytes.length = hashLen := hash.size
  exact ⟨List.take_left' hlen, List.drop_left' hlen⟩

/-- The loop writes the frames of the hashes up to the first that is missing, and fails there. -/
theorem sendChunks_written (ending : AnyError) (store : StoreContent) :
    ∀ (hashes : List Hash) (count : ℕ) (c : Conn StoreContent), c.room = none →
      c.unread = hashes.flatMap (·.bytes) →
      (runConn (sendChunks (fun (store : StoreContent) hash => .ok (store.chunk hash)) ending store
          (min count hashes.length)) c).2.written
        = c.written ++ (((hashes.take count).takeWhile fun h => (store.chunk h).isSome).filterMap
          store.chunk).flatMap frameOf
      ∧ ((∀ hash ∈ hashes, (store.chunk hash).isSome) →
        (runConn (sendChunks
          (fun (store : StoreContent) hash => .ok (store.chunk hash)) ending store
          (min count hashes.length)) c).1 = .ok ())
  | [], count, c, hroom, hunread => by simp [sendChunks]
  | hash :: hashes, 0, c, hroom, hunread => by simp [sendChunks]
  | hash :: hashes, count + 1, c, hroom, hunread => by
    rw [List.length_cons, Nat.add_min_add_right, sendChunks, runConn_bind, runConn_context,
      runConn_recvExact, hunread, List.flatMap_cons]
    obtain ⟨htake, hdrop⟩ := take_request hash (hashes.flatMap (·.bytes))
    have hlen : hash.bytes.length = hashLen := hash.size
    rw [if_neg (by rw [List.length_append]; omega), htake, hdrop]
    simp only [ofBytes?_bytes]
    rcases hchunk : store.chunk hash with _ | data
    · refine ⟨by simp [hchunk, Conn.written], fun hall => ?_⟩
      have hsome := hall hash List.mem_cons_self
      rw [hchunk] at hsome
      cases hsome
    · simp only [runConn_bind]
      rw [runConn_sendChunk data (by exact hroom)]
      obtain ⟨hwritten, hok⟩ := sendChunks_written ending store hashes count { c with
        unread := hashes.flatMap (·.bytes)
        sent := c.sent ++ [⟨false, (leBytes 4 data.length).reverse⟩, ⟨true, data⟩] } hroom rfl
      refine ⟨hwritten.trans ?_, fun hall => hok fun h hh => hall h (List.mem_cons_of_mem _ hh)⟩
      simp [hchunk, Conn.written, frameOf]

theorem ofLe_gameId (gameId : UInt64) :
    UInt64.ofNat (ofLe (leBytes 8 gameId.toNat).reverse.reverse) = gameId := by
  rw [List.reverse_reverse, ofLe_leBytes]
  have := gameId.toNat_lt
  rw [Nat.mod_eq_of_lt (by omega)]
  exact UInt64.ofNat_toNat

/-- The answer to a request is made of the frames of the hashes that are answered. Where the store
has all of them, `handle_conn` gets to `finish`. -/
theorem serve_written (link : Link) (store : StoreContent) (gameId : UInt64) (hashes : List Hash) :
    (link.serve store gameId (fetchRequest gameId hashes)).2
        = ((answered store hashes).filterMap store.chunk).flatMap frameOf
      ∧ ((∀ hash ∈ hashes, (store.chunk hash).isSome) → link.finish = .ok () →
        (link.serve store gameId (fetchRequest gameId hashes)).1 = .ok ()) := by
  have hgame : ((leBytes 8 gameId.toNat).reverse).length = 8 := by simp
  have hcount : ((leBytes 4 hashes.length).reverse).length = 4 := by simp
  have hmod : ofLe (leBytes 4 hashes.length) = hashes.length % 2 ^ 32 := ofLe_leBytes 4 _
  have hle : hashes.length % 2 ^ 32 ≤ hashes.length := Nat.mod_le _ _
  have hloop := sendChunks_written link.ending store hashes (hashes.length % 2 ^ 32)
    ⟨Function.update (fun _ => none) gameId (some store), fun _ => none,
      hashes.flatMap (·.bytes), none, [], [] ++ (gateOrReject (waitForDirectPath link.first
        link.later)).1⟩ rfl rfl
  rw [Nat.min_eq_left hle] at hloop
  unfold Link.serve answered
  change Conn.written (runConn (handleConn _ _ _ _ _ _) _).2 = _
    ∧ (_ → _ → (runConn (handleConn _ _ _ _ _ _) _).1 = _)
  unfold handleConn
  simp only [runConn_bind, runConn_println, gateOrReject_ok, runConn_context, runConn_liftExcept,
    runConn_recvExact, Peer.connect, fetchRequest, List.append_assoc]
  rw [if_neg (by simp), List.take_left' hgame, List.drop_left' hgame]
  dsimp only
  rw [ofLe_gameId, if_neg (by simp), List.take_left' hcount, List.drop_left' hcount]
  dsimp only
  rw [List.reverse_reverse, hmod]
  have hentry : ∀ c : Conn StoreContent, c.stores gameId = some store →
      runConn (storeEntry (fun _ => .error link.ending) link.packDefault gameId) c
        = (.ok store, c) := by
    intro c hc
    rw [storeEntry, runConn_bind]
    simp only [runConn_get, hc]
    rfl
  rw [hentry _ (by simp)]
  dsimp only
  rcases hr : runConn (sendChunks (fun (store : StoreContent) hash => .ok (store.chunk hash))
    link.ending store (hashes.length % 2 ^ 32)) _ with ⟨e | ⟨⟩, c⟩ <;> rw [hr] at hloop
  · exact ⟨hloop.1, fun hall _ => hloop.2 hall⟩
  · rcases link.finish with e | ⟨⟩
    · exact ⟨hloop.1, fun _ h => by cases h⟩
    · exact ⟨hloop.1, fun _ _ => rfl⟩

end Server

section Client

variable {blake3 : Bytes → Hash} {ending : AnyError}

theorem recvU32_length {len : ℕ} (hlen : len < 2 ^ 32) (rest : Bytes) :
    recvU32 ((leBytes 4 len).reverse ++ rest) = (some len, rest) := by
  have hfour : ((leBytes 4 len).reverse).length = 4 := by simp
  rw [recvU32, if_neg (by simp), List.take_left' hfour, List.drop_left' hfour, List.reverse_reverse,
    ofLe_leBytes, Nat.mod_eq_of_lt (by omega)]

/-- At the end of the stream every hash that is left fails. -/
theorem receiveChunks_end : ∀ (hashes : List Hash) (stats : FetchStats)
    (got : List (Hash × Bytes)),
    exec (receiveChunks blake3 collect ending hashes [] stats) got
      = (.ok { stats with failed := stats.failed ++ hashes }, got)
  | [], stats, got => by
    rw [List.append_nil]
    rfl
  | hash :: hashes, stats, got => by
    refine (receiveChunks_end hashes { stats with failed := stats.failed ++ [hash] } got).trans ?_
    rw [List.append_assoc, List.singleton_append]

theorem receiveChunks_short {hash : Hash} {hashes : List Hash} {unread : Bytes}
    (hshort : unread.length < 4) (stats : FetchStats) (got : List (Hash × Bytes)) :
    exec (receiveChunks blake3 collect ending (hash :: hashes) unread stats) got
      = (.ok { stats with failed := stats.failed ++ hash :: hashes }, got) := by
  rw [receiveChunks, recvU32, if_pos hshort]
  refine (receiveChunks_end hashes _ got).trans ?_
  rw [List.append_assoc, List.singleton_append]

/-- What the client counts for hashes whose frames it reads. -/
def countFrames (blake3 : Bytes → Hash) (store : StoreContent) (hashes : List Hash)
    (stats : FetchStats) : FetchStats where
  downloaded := stats.downloaded + (hashes.filterMap (soundChunk blake3 store)).length
  bytes := stats.bytes + ((hashes.filterMap (soundChunk blake3 store)).map (·.2.length)).sum
  failed := stats.failed ++ hashes.filter fun hash => (soundChunk blake3 store hash).isNone

theorem countFrames_cons (blake3 : Bytes → Hash) (store : StoreContent) (hash : Hash)
    (hashes : List Hash) (stats : FetchStats) : countFrames blake3 store (hash :: hashes) stats
      = countFrames blake3 store hashes (countFrames blake3 store [hash] stats) := by
  rcases hchunk : soundChunk blake3 store hash with _ | c <;>
    simp [countFrames, hchunk, Nat.add_assoc, Nat.add_comm 1]

/-- A frame that has arrived is read. -/
theorem receiveChunks_frame {store : StoreContent} {hash : Hash} {data : Bytes}
    (hdata : store.chunk hash = some data) (hashes : List Hash) (unread : Bytes)
    (stats : FetchStats)
    (got : List (Hash × Bytes)) :
    exec (receiveChunks blake3 collect ending (hash :: hashes) (frameOf data ++ unread) stats) got
      = exec (receiveChunks blake3 collect ending hashes unread
          (countFrames blake3 store [hash] stats))
            (got ++ [hash].filterMap (soundChunk blake3 store)) := by
  rw [receiveChunks, frameOf, List.append_assoc, recvU32_length (store.fits hash data hdata)]
  dsimp only
  rw [if_neg (by simp), List.take_left, List.drop_left, exec_bind]
  by_cases hsound : blake3 data = hash
  · have hchunk : soundChunk blake3 store hash = some (hash, data) := by
      rw [soundChunk, hdata, Option.bind_some, if_pos hsound]
    have hstore : exec (storeChunk blake3 collect hash data) got
        = (.ok true, got ++ [(hash, data)]) := by
      rw [storeChunk, if_neg (not_not.2 hsound)]
      rfl
    rw [hstore]
    simp [countFrames, hchunk]
  · have hchunk : soundChunk blake3 store hash = none := by
      rw [soundChunk, hdata, Option.bind_some, if_neg hsound]
    have hstore : exec (storeChunk blake3 collect hash data) got = (.ok false, got) := by
      rw [storeChunk, if_pos hsound]
      rfl
    rw [hstore]
    simp [countFrames, hchunk]

/-- The frames of hashes that the store has are read back one by one. -/
theorem receiveChunks_frames (store : StoreContent) (rest : List Hash) :
    ∀ (hashes : List Hash) (stats : FetchStats) (got : List (Hash × Bytes)),
    (∀ hash ∈ hashes, (store.chunk hash).isSome) →
    exec (receiveChunks blake3 collect ending (hashes ++ rest)
        ((hashes.filterMap store.chunk).flatMap frameOf) stats) got
      = exec (receiveChunks blake3 collect ending rest [] (countFrames blake3 store hashes stats))
        (got ++ hashes.filterMap (soundChunk blake3 store))
  | [], stats, got, _ => by simp [countFrames]
  | hash :: hashes, stats, got, h => by
    obtain ⟨data, hdata⟩ := Option.isSome_iff_exists.1 (h hash List.mem_cons_self)
    rw [List.cons_append, List.filterMap_cons_some hdata, List.flatMap_cons,
      receiveChunks_frame hdata,
      receiveChunks_frames store rest hashes _ _ fun h' hh => h h' (List.mem_cons_of_mem _ hh),
      ← countFrames_cons, List.append_assoc, ← List.filterMap_append, List.singleton_append]

/-- Where the stream is cut, the frames before the cut are read. What follows them has failed, or
the cut lies in the bytes of a chunk, and the fetch fails. -/
theorem receiveChunks_cut (store : StoreContent) (rest : List Hash) :
    ∀ (hashes : List Hash) (n : ℕ) (stats : FetchStats) (got : List (Hash × Bytes)),
    (∀ hash ∈ hashes, (store.chunk hash).isSome) →
    ∃ part r, part <+: hashes
      ∧ exec (receiveChunks blake3 collect ending (hashes ++ rest)
          (((hashes.filterMap store.chunk).flatMap frameOf).take n) stats) got
        = (r, got ++ part.filterMap (soundChunk blake3 store))
      ∧ ∀ stats', r = .ok stats' → stats' = { countFrames blake3 store part stats with
          failed := (countFrames blake3 store part stats).failed
            ++ (hashes ++ rest).drop part.length }
  | [], n, stats, got, _ => by
    refine ⟨[], _, List.nil_prefix, ?_, fun stats' hr => (Except.ok.inj hr).symm⟩
    simp [receiveChunks_end, countFrames]
  | hash :: hashes, n, stats, got, h => by
    obtain ⟨data, hdata⟩ := Option.isSome_iff_exists.1 (h hash List.mem_cons_self)
    have hlen : ((leBytes 4 data.length).reverse).length = 4 := by simp
    rw [List.cons_append, List.filterMap_cons_some hdata, List.flatMap_cons]
    by_cases hframe : (frameOf data).length ≤ n
    · -- the frame has arrived
      rw [List.take_append, List.take_of_length_le hframe, receiveChunks_frame hdata]
      obtain ⟨part, r, hpart, hrun, hstats⟩ := receiveChunks_cut store rest hashes
        (n - (frameOf data).length) (countFrames blake3 store [hash] stats)
        (got ++ [hash].filterMap (soundChunk blake3 store))
        fun h' hh => h h' (List.mem_cons_of_mem _ hh)
      refine ⟨hash :: part, r, (List.prefix_cons_inj hash).2 hpart, ?_, fun stats' hr => ?_⟩
      · rw [hrun, List.append_assoc, ← List.filterMap_append, List.singleton_append]
      · rw [countFrames_cons]
        exact hstats stats' hr
    · rcases Nat.lt_or_ge n 4 with hn | hn
      · -- nothing, or a part of the length
        refine ⟨[], _, List.nil_prefix, ?_, fun stats' hr => (Except.ok.inj hr).symm⟩
        rw [receiveChunks_short (by rw [List.length_take]; omega)]
        simp [countFrames]
      · refine ⟨[], .error (.err (ending.context "读取块数据失败")), List.nil_prefix, ?_, nofun⟩
        have hshort : ((data ++ (hashes.filterMap store.chunk).flatMap frameOf).take (n - 4)).length
            < data.length := by
          rw [frameOf, List.length_append, hlen] at hframe
          rw [List.length_take]
          omega
        rw [frameOf, List.append_assoc, List.take_append, hlen, List.take_of_length_le (by omega),
          receiveChunks, recvU32_length (store.fits hash data hdata)]
        dsimp only
        rw [if_pos hshort, List.filterMap_nil, List.append_nil]
        rfl

end Client

section Accounts

variable {σ : Type} {blake3 : Bytes → Hash} {sink : Hash → Bytes → Io AnyError σ Unit}
  {ending : AnyError} {hash : Hash} {hashes : List Hash} {outcome : List (Option Bytes)}

@[simp] theorem deliveries_nil : deliveries hashes [] = [] := by simp [deliveries]

@[simp] theorem failures_nil : failures hashes [] = [] := by simp [failures]

@[simp] theorem deliveries_some (data : Bytes) :
    deliveries (hash :: hashes) (some data :: outcome)
      = (hash, data) :: deliveries hashes outcome := rfl

@[simp] theorem deliveries_none :
    deliveries (hash :: hashes) (none :: outcome) = deliveries hashes outcome := rfl

@[simp] theorem failures_some (data : Bytes) :
    failures (hash :: hashes) (some data :: outcome) = failures hashes outcome := rfl

@[simp] theorem failures_none :
    failures (hash :: hashes) (none :: outcome) = hash :: failures hashes outcome := rfl

/-- Every request with an outcome is delivered or has failed. -/
theorem deliveries_add_failures : ∀ (hashes : List Hash) (outcome : List (Option Bytes)),
    outcome.length = hashes.length →
    (deliveries hashes outcome).length + (failures hashes outcome).length = hashes.length
  | [], [], _ => rfl
  | [], _ :: _, h => by simp at h
  | _ :: _, [], h => by simp at h
  | hash :: hashes, o :: outcome, h => by
    have ih := deliveries_add_failures hashes outcome (by simpa using h)
    cases o with
    | none =>
      rw [deliveries_none, failures_none, List.length_cons, List.length_cons]
      omega
    | some data =>
      rw [deliveries_some, failures_some, List.length_cons, List.length_cons]
      omega

/-- What is left of the loop has done, whatever the sink met. -/
def LoopDid (blake3 : Bytes → Hash) (hashes : List Hash) (stats : FetchStats)
    (t : σ × List (Hash × Bytes)) (r : Except (Stop AnyError) FetchStats)
    (t' : σ × List (Hash × Bytes)) : Prop :=
  ∃ outcome : List (Option Bytes), outcome.length ≤ hashes.length
    ∧ t'.2 = t.2 ++ deliveries hashes outcome
    ∧ (∀ c ∈ deliveries hashes outcome, blake3 c.2 = c.1)
    ∧ ∀ stats', r = .ok stats' → outcome.length = hashes.length
      ∧ stats'.failed = stats.failed ++ failures hashes outcome
      ∧ stats'.downloaded = stats.downloaded + (deliveries hashes outcome).length
      ∧ stats'.bytes = stats.bytes + ((deliveries hashes outcome).map (·.2.length)).sum

variable {stats : FetchStats} {t t' : σ × List (Hash × Bytes)}
  {r : Except (Stop AnyError) FetchStats}

/-- A loop that stops at once has called nothing. -/
theorem LoopDid.stopped (e : Stop AnyError) : LoopDid blake3 hashes stats t (.error e) t :=
  ⟨[], by simp, by simp, by simp, by simp⟩

theorem LoopDid.fail
    (h : LoopDid blake3 hashes { stats with failed := stats.failed ++ [hash] } t r t') :
    LoopDid blake3 (hash :: hashes) stats t r t' := by
  obtain ⟨outcome, hlen, hcalls, hsound, hok⟩ := h
  refine ⟨none :: outcome, by simpa using hlen, hcalls, hsound, fun stats' hr => ?_⟩
  obtain ⟨hall, hfailed, hdown, hbytes⟩ := hok stats' hr
  exact ⟨by simp [hall], by simp [hfailed], hdown, hbytes⟩

theorem LoopDid.deliver {data : Bytes} {len : ℕ} (hlen : data.length = len)
    (hsound : blake3 data = hash) {s : σ}
    (h : LoopDid blake3 hashes { stats with
        downloaded := stats.downloaded + 1, bytes := stats.bytes + len }
      (s, t.2 ++ [(hash, data)]) r t') :
    LoopDid blake3 (hash :: hashes) stats t r t' := by
  subst hlen
  obtain ⟨outcome, hlen, hcalls, hrest, hok⟩ := h
  refine ⟨some data :: outcome, by simpa using hlen, by simp [hcalls], ?_, fun stats' hr => ?_⟩
  · rw [deliveries_some, List.forall_mem_cons]
    exact ⟨hsound, hrest⟩
  · obtain ⟨hall, hfailed, hdown, hbytes⟩ := hok stats' hr
    refine ⟨by simp [hall], hfailed, ?_, ?_⟩
    · simp only [hdown, deliveries_some, List.length_cons]
      omega
    · simp only [hbytes, deliveries_some, List.map_cons, List.sum_cons, Nat.add_assoc]

/-- The loop over the hashes, on any stream and with any sink. -/
theorem receiveChunks_did : ∀ (hashes : List Hash) (unread : Bytes) (stats : FetchStats)
    (t : σ × List (Hash × Bytes)),
    wp (fun _ => True) (receiveChunks blake3 (notedSink sink) ending hashes unread stats) t
      (LoopDid blake3 hashes stats t)
  | [], _, stats, t => wp_pure ⟨[], le_rfl, by simp, by simp, by simp⟩
  | hash :: hashes, unread, stats, t => by
    unfold receiveChunks
    rcases recvU32 unread with ⟨_ | len, unread⟩
    · exact wp_mono (receiveChunks_did hashes _ _ t) fun r t' h => h.fail
    · dsimp only
      split_ifs with hshort
      · exact wp_stop (LoopDid.stopped _)
      have hlen : (unread.take len).length = len := by simp only [List.length_take]; omega
      refine wp_bind ?_
      unfold storeChunk
      split_ifs with hhash
      · -- the bytes have another hash
        exact wp_pure (wp_mono (receiveChunks_did hashes _ _ t) fun r t' h => h.fail)
      · rw [not_not] at hhash
        refine wp_bind (wp_bind (wp_modify (wp_zoom fun fs _ => ?_)))
        rcases hrun : (sink hash (unread.take len)).run ⟨t.1, fs⟩ with ⟨e | u, w⟩
        · -- the sink was called and has failed
          exact LoopDid.deliver hlen hhash (LoopDid.stopped _)
        · refine wp_pure ?_
          dsimp only
          rw [if_pos rfl]
          exact wp_mono (receiveChunks_did hashes _ _ _) fun r t' h => h.deliver hlen hhash

/-- Whatever bytes the peer sends and whatever its sink meets, `fetch_chunks` delivers pairs of a
request and data of its hash, in the order of the requests and each request once at most. When it
returns its statistics, each request has been delivered or has failed, and they count them. -/
theorem fetchChunks_accounts (blake3 : Bytes → Hash) (sink : Hash → Bytes → Io AnyError σ Unit)
    (ending : AnyError) (respond : Bytes → Except AnyError Bytes) (gameId : UInt64)
    (hashes : List Hash) (s : σ)
    (faults : List (Fault AnyError)) :
    let run := (fetchChunks blake3 (notedSink sink) ending respond gameId hashes).run
      ⟨(s, []), faults⟩
    ∃ outcome, Accounts blake3 hashes outcome run.2.state.2 run.1 := by
  have hdid : wp (fun _ => True) (fetchChunks blake3 (notedSink sink) ending respond gameId hashes)
      (s, []) (LoopDid blake3 hashes .empty (s, [])) := by
    unfold fetchChunks
    split_ifs with hempty
    · rw [List.isEmpty_iff] at hempty
      subst hempty
      exact wp_pure ⟨[], le_rfl, by simp, by simp, by simp⟩
    · rcases respond (fetchRequest gameId hashes) with e | arrived
      · exact wp_stop (LoopDid.stopped _)
      · exact receiveChunks_did hashes _ _ _
  obtain ⟨outcome, hlen, hcalls, hsound, hok⟩ := hdid faults fun _ _ => trivial
  rw [List.nil_append] at hcalls
  refine ⟨outcome, hlen, hcalls, hcalls ▸ hsound, fun stats hr => ?_⟩
  obtain ⟨hall, hfailed, hdown, hbytes⟩ := hok stats hr
  have hfailed' : stats.failed = failures hashes outcome := hfailed
  have hdown' : stats.downloaded = (deliveries hashes outcome).length :=
    hdown.trans (Nat.zero_add _)
  rw [hcalls]
  refine ⟨hall, hfailed', hdown', ?_, hbytes.trans (Nat.zero_add _)⟩
  rw [hdown', hfailed']
  exact deliveries_add_failures hashes outcome hall

end Accounts

section Fetch

variable {blake3 : Bytes → Hash} {link : Link} {store : StoreContent} {gameId : UInt64}
  {hashes : List Hash}

theorem Link.respond_cases (link : Link) (store : StoreContent) (gameId : UInt64)
    (hashes : List Hash) :
    (∃ e, link.respond store gameId (fetchRequest gameId hashes) = .error e)
      ∨ ∃ n, link.respond store gameId (fetchRequest gameId hashes)
        = .ok ((((answered store hashes).filterMap store.chunk).flatMap frameOf).take n) := by
  obtain ⟨hwritten, -⟩ := serve_written link store gameId hashes
  rw [← hwritten, Link.respond]
  rcases (link.serve store gameId (fetchRequest gameId hashes)).1 with e | ⟨⟩
  · rcases link.dropped with e | n
    · exact .inl ⟨e, rfl⟩
    · exact .inr ⟨n, rfl⟩
  · rcases link.late with _ | n
    · exact .inr ⟨_, congrArg Except.ok List.take_length.symm⟩
    · exact .inr ⟨n, rfl⟩

theorem arrivesWhole_of_has (h : ∀ hash ∈ hashes, (store.chunk hash).isSome)
    (hup : link.StaysUp) : ArrivesWhole link store gameId hashes := by
  obtain ⟨hfinish, hlate⟩ := hup
  have hok := (serve_written link store gameId hashes).2 h hfinish
  rw [ArrivesWhole, Link.respond]
  rw [hok, hlate]

theorem answered_head (store : StoreContent) (hashes : List Hash) :
    answered store hashes ++ hashes.drop (answered store hashes).length = hashes :=
  List.prefix_iff_eq_append.1 ((List.takeWhile_prefix _).trans (List.take_prefix _ _))

theorem answered_isSome (hash : Hash) (h : hash ∈ answered store hashes) :
    (store.chunk hash).isSome := List.all_eq_true.1 List.all_takeWhile hash h

theorem fetchFrom_whole (h : ArrivesWhole link store gameId hashes) :
    fetchFrom blake3 link store gameId hashes
      = (.ok (partStats blake3 store hashes (answered store hashes)),
        (answered store hashes).filterMap (soundChunk blake3 store)) := by
  unfold fetchFrom fetchChunks
  by_cases hempty : hashes = []
  · subst hempty
    rfl
  rw [if_neg (by simpa using hempty), h, (serve_written link store gameId hashes).1]
  have hframes := @receiveChunks_frames blake3 link.ending store
    (hashes.drop (answered store hashes).length) (answered store hashes) .empty [] answered_isSome
  rw [answered_head] at hframes
  dsimp only
  rw [hframes, receiveChunks_end]
  simp [countFrames, partStats, FetchStats.empty]

/-- The sink gets the chunks of the first hashes that are answered, those whose bytes have another
hash left out. If the fetch returns, these and every hash behind have failed. Where all that is
written arrives, it returns and has read every answer; and all arrives where the store has every
chunk and the connection stays up until the client has read. -/
theorem fetchFrom_answered (blake3 : Bytes → Hash) (link : Link) (store : StoreContent)
    (gameId : UInt64) (hashes : List Hash) :
    (∃ part, part <+: answered store hashes
      ∧ (fetchFrom blake3 link store gameId hashes).2 = part.filterMap (soundChunk blake3 store)
      ∧ ∀ stats, (fetchFrom blake3 link store gameId hashes).1 = .ok stats →
        stats = partStats blake3 store hashes part)
    ∧ (ArrivesWhole link store gameId hashes →
      fetchFrom blake3 link store gameId hashes
        = (.ok (partStats blake3 store hashes (answered store hashes)),
          (answered store hashes).filterMap (soundChunk blake3 store)))
    ∧ ((∀ hash ∈ hashes, (store.chunk hash).isSome) → link.StaysUp →
      ArrivesWhole link store gameId hashes) := by
  refine ⟨?_, fetchFrom_whole, arrivesWhole_of_has⟩
  by_cases hempty : hashes = []
  · subst hempty
    exact ⟨[], List.nil_prefix, rfl, fun stats hr => (Except.ok.inj hr).symm⟩
  obtain ⟨e, he⟩ | ⟨n, hn⟩ := link.respond_cases store gameId hashes
  · refine ⟨[], List.nil_prefix, ?_, fun stats hr => ?_⟩ <;>
      rw [fetchFrom, fetchChunks, if_neg (by simpa using hempty), he] at *
    · rfl
    · cases hr
  · obtain ⟨part, r, hpart, hrun, hstats⟩ := @receiveChunks_cut blake3 link.ending store
      (hashes.drop (answered store hashes).length)
      (answered store hashes) n .empty [] answered_isSome
    rw [answered_head] at hrun hstats
    have hfetch : fetchFrom blake3 link store gameId hashes
        = (r, part.filterMap (soundChunk blake3 store)) := by
      rw [fetchFrom, fetchChunks, if_neg (by simpa using hempty), hn]
      simpa using hrun
    rw [hfetch]
    refine ⟨part, hpart, rfl, fun stats hr => (hstats stats hr).trans ?_⟩
    simp [countFrames, partStats, FetchStats.empty]

/-- A store that has the chunk `[5]` and no other. -/
def onlyFive : StoreContent where
  chunk hash := if hash = .fill 2 then some [5] else none
  fits hash data h := by
    split_ifs at h
    cases h
    decide

/-- Its chunk is requested behind a missing one, and does not arrive. -/
theorem fetchFrom_loses_second : ¬ MissingAlone (fun _ => .fill 2)
    ⟨true, (true, false), [], .msg "closed", .ok (), .ok 0, none⟩ onlyFive 7
      [.fill 1, .fill 2] := by
  rintro ⟨stats, hstats, -⟩
  have hgot : (fetchFrom (fun _ => .fill 2)
    ⟨true, (true, false), [], .msg "closed", .ok (), .ok 0, none⟩
      onlyFive 7 [.fill 1, .fill 2]).2 = [(.fill 2, [5])] := congrArg Prod.snd hstats
  revert hgot
  decide +kernel

end Fetch

end BlazeNet

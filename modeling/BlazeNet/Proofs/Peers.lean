import BlazeNet.Peers
import BlazeNet.Proofs.Control

/-!
# Who is named as a source, and which addresses are dialled

`query_peers` cuts the ledger off at the limit before it looks which holders are online, so an
offline holder takes the place of an online one that stands behind it. It hands out the addresses of
a node as they were registered, the keepalive address among them, and the choice takes any of them:
an odd first byte of the hash takes the second one.
-/

namespace BlazeNet

open Wire FaultIo Io RustStd

section Answers

/-- What `collectPeers` returns: the entries of those of the nodes that are online. -/
def onlinePeers (s : Sched) (ids : List UInt64) : List PeerEntry :=
  ids.filterMap fun id => (s.nodes[id]?).bind fun node =>
    if node.status = "online" then some (peerOf node) else none

theorem onlinePeers_online {s : Sched} {id : UInt64} {node : NodeRecord} (ids : List UInt64)
    (hnode : s.nodes[id]? = some node) (honline : node.status = "online") :
    onlinePeers s (id :: ids) = peerOf node :: onlinePeers s ids :=
  List.filterMap_cons_some (by rw [hnode, Option.bind_some, if_pos honline])

theorem onlinePeers_offline {s : Sched} {id : UInt64} (ids : List UInt64)
    (h : ∀ node : NodeRecord, s.nodes[id]? = some node → node.status ≠ "online") :
    onlinePeers s (id :: ids) = onlinePeers s ids := by
  refine List.filterMap_cons_none ?_
  rcases hnode : s.nodes[id]? with _ | node
  · rfl
  · rw [Option.bind_some, if_neg (h node hnode)]

theorem exec_collectPeers (s : Sched) : ∀ ids : List UInt64,
    exec (collectPeers ids).run s = (.ok (.ok (onlinePeers s ids)), s)
  | [] => rfl
  | id :: ids => by
    have hget : exec (Store.getNode id) s = (.ok s.nodes[id]?, s) := exec_getNode id s
    rw [collectPeers, exec_handler_bind, exec_orFail hget]
    rcases hnode : s.nodes[id]? with _ | node
    · rw [onlinePeers_offline ids (by simp [hnode])]
      exact exec_collectPeers s ids
    dsimp only
    split_ifs with honline
    · rw [onlinePeers_offline ids (by simpa [hnode] using honline)]
      exact exec_collectPeers s ids
    · rw [exec_handler_bind, exec_collectPeers s ids,
        onlinePeers_online ids hnode (not_not.1 honline)]
      rfl

/-- Whatever the faults, an answer that is returned is the one without faults. -/
theorem collectPeers_ok {s : Sched} : ∀ (ids : List UInt64) (faults : List (Fault AnyError))
    (peers : List PeerEntry) (w : World AnyError Sched),
    (collectPeers ids).run.run ⟨s, faults⟩ = (.ok (.ok peers), w) → peers = onlinePeers s ids
  | [], _, _, _, h => by
    cases h
    rfl
  | id :: ids, faults, peers, w, h => by
    rw [collectPeers, run_handler_bind] at h
    rcases run_orFail_cases (quiet_getNode id).allOrNothing (plain_getNode id).sound
      (internal "查询节点失败") s faults with ⟨found, fs, hr, hfound⟩ | ⟨r, fs, hr, hne⟩
    swap
    · rw [hr] at h
      rcases r with e | e | a
      · cases h
      · cases h
      · exact absurd rfl (hne a)
    rw [hr] at h
    rw [exec_getNode] at h hfound
    have hfound : s.nodes[id]? = found := Except.ok.inj hfound
    rcases found with _ | node
    · rw [onlinePeers_offline ids (by simp [hfound])]
      exact collectPeers_ok ids fs peers w h
    dsimp only at h
    split_ifs at h with honline
    · rw [onlinePeers_offline ids (by simpa [hfound] using honline)]
      exact collectPeers_ok ids fs peers w h
    rw [run_handler_bind] at h
    rcases hrest : (collectPeers ids).run.run ⟨s, fs⟩ with ⟨e | e | rest, w₁⟩ <;>
      rw [hrest] at h
    · cases h
    · cases h
    cases h
    rw [onlinePeers_online ids hfound (not_not.1 honline), collectPeers_ok ids fs rest _ hrest]
    rfl

theorem quiet_chunkHolders (gameId : UInt64) (chunkHash : Bytes) :
    Quiet (Store.chunkHolders gameId chunkHash) :=
  .bind (quiet_call _) fun _ => .bind (quiet_call _) fun _ => .bind (quiet_look _ _) fun _ =>
    .pure _

theorem plain_chunkHolders (gameId : UInt64) (chunkHash : Bytes) :
    Plain (Store.chunkHolders gameId chunkHash) :=
  .bind (plain_call _) fun _ => .bind (plain_call _) fun _ => .bind (plain_look _ _) fun _ =>
    .pure _

theorem exec_chunkHolders (gameId : UInt64) (chunkHash : Bytes) (s : Sched) :
    exec (Store.chunkHolders gameId chunkHash) s = (.ok (s.ledger gameId chunkHash), s) := rfl

/-- The holders that `query_peers` looks up. -/
def limited (limit : UInt32) (holders : List UInt64) : List UInt64 :=
  if limit = 0 then holders else holders.take limit.toNat

theorem exec_queryPeers (gameId : UInt64) (chunkHash : Bytes) (limit : UInt32) (s : Sched) :
    exec (queryPeers gameId chunkHash limit).run s
      = (.ok (.ok (onlinePeers s (limited limit (s.ledger gameId chunkHash)))), s) := by
  rw [queryPeers, exec_handler_bind, exec_orFail (exec_chunkHolders gameId chunkHash s)]
  exact exec_collectPeers s _

theorem queryPeers_ok {s : Sched} {gameId : UInt64} {chunkHash : Bytes} {limit : UInt32}
    {faults : List (Fault AnyError)} {peers : List PeerEntry} {w : World AnyError Sched}
    (h : (queryPeers gameId chunkHash limit).run.run ⟨s, faults⟩ = (.ok (.ok peers), w)) :
    peers = onlinePeers s (limited limit (s.ledger gameId chunkHash)) := by
  rw [queryPeers, run_handler_bind] at h
  rcases run_orFail_cases (quiet_chunkHolders gameId chunkHash).allOrNothing
    (plain_chunkHolders gameId chunkHash).sound (internal "块账本操作失败") s faults
    with ⟨holders, fs, hr, hholders⟩ | ⟨r, fs, hr, hne⟩
  · rw [hr, exec_chunkHolders] at h
    rw [exec_chunkHolders] at hholders
    obtain rfl : s.ledger gameId chunkHash = holders := Except.ok.inj hholders
    exact collectPeers_ok _ fs peers w h
  · rw [hr] at h
    rcases r with e | e | a
    · cases h
    · cases h
    · exact absurd rfl (hne a)

/-- A peer of the answer is a node of the table, with its addresses. -/
theorem mem_queryPeers {s : Sched} {gameId : UInt64} {chunkHash : Bytes} {limit : UInt32}
    {faults : List (Fault AnyError)} {peers : List PeerEntry} {w : World AnyError Sched}
    (h : (queryPeers gameId chunkHash limit).run.run ⟨s, faults⟩ = (.ok (.ok peers), w))
    {peer : PeerEntry} (hpeer : peer ∈ peers) :
    ∃ (k : UInt64) (node : NodeRecord), s.nodes[k]? = some node ∧ peer.nodeId = node.id
      ∧ peer.addrs = node.addrs := by
  rw [queryPeers_ok h] at hpeer
  obtain ⟨k, -, hk⟩ := List.mem_filterMap.1 hpeer
  obtain ⟨node, hnode, hpeer⟩ := Option.bind_eq_some_iff.1 hk
  split_ifs at hpeer
  exact ⟨k, node, hnode, by rw [← Option.some.inj hpeer]; exact ⟨rfl, rfl⟩⟩

theorem choosePeer_mem {isEndpoint : String → Bool} {exclude : List String}
    {peers : List PeerEntry} {hash : Hash} {peer : PeerEntry}
    (h : choosePeer isEndpoint exclude peers hash = some peer) : peer ∈ peers :=
  (List.mem_filter.1 (List.mem_filter.1 (List.mem_of_getElem? h)).1).1

end Answers

section Full

variable {s : Sched}

theorem onlinePeers_eq (s : Sched) (ids : List UInt64) :
    (ids.filter s.isOnline).map (fun id => (s.nodes[id]?).map peerOf)
      = (onlinePeers s ids).map some := by
  induction ids with
  | nil => rfl
  | cons id ids ih =>
    rcases hnode : s.nodes[id]? with _ | node
    · rw [List.filter_cons_of_neg (by simp [Sched.isOnline, hnode]), ih,
        onlinePeers_offline ids (by simp [hnode])]
    by_cases honline : node.status = "online"
    · rw [List.filter_cons_of_pos (by simp [Sched.isOnline, hnode, honline]), List.map_cons, ih,
        onlinePeers_online ids hnode honline, hnode]
      rfl
    · rw [List.filter_cons_of_neg (by simp [Sched.isOnline, hnode, honline]), ih,
        onlinePeers_offline ids (by simpa [hnode] using honline)]

theorem length_onlinePeers (s : Sched) (ids : List UInt64) :
    (onlinePeers s ids).length = (ids.filter s.isOnline).length := by
  simpa using (congrArg List.length (onlinePeers_eq s ids)).symm

theorem limited_sublist (limit : UInt32) (holders : List UInt64) :
    (limited limit holders).Sublist holders := by
  unfold limited
  split_ifs
  · exact .refl _
  · exact List.take_sublist _ _

/-- The answer is full when it is long enough. -/
theorem fullAnswer_iff_length (gameId : UInt64) (chunkHash : Bytes) (limit : UInt32) :
    FullAnswer s gameId chunkHash limit (onlinePeers s (limited limit (s.ledger gameId chunkHash)))
      ↔ ((limited limit (s.ledger gameId chunkHash)).filter s.isOnline).length
        = (if limit = 0 then ((s.ledger gameId chunkHash).filter s.isOnline).length
          else min limit.toNat ((s.ledger gameId chunkHash).filter s.isOnline).length) := by
  constructor
  · rintro ⟨ids, hids, -, -, -, hlength⟩
    rw [← hlength, ← length_onlinePeers]
    simpa using (congrArg List.length hids).symm
  · intro h
    have hsub : ((limited limit (s.ledger gameId chunkHash)).filter s.isOnline).Sublist
        (s.ledger gameId chunkHash) := List.filter_sublist.trans (limited_sublist limit _)
    exact ⟨_, onlinePeers_eq s _, fun id hid => (List.mem_filter.1 hid).2, hsub, hsub.nodup, h⟩

/-- A prefix has as many of the elements as the limit allows when it has no others, or when there
are no more of them behind it. -/
theorem length_filter_take_iff {α : Type} (p : α → Bool) (n : ℕ) (l : List α) :
    ((l.take n).filter p).length = min n (l.filter p).length
      ↔ (∀ a ∈ l.take n, p a = true) ∨ ∀ a ∈ l.drop n, p a = false := by
  have hsplit : (l.filter p).length = ((l.take n).filter p).length
      + ((l.drop n).filter p).length := by
    rw [← List.length_append, ← List.filter_append, List.take_append_drop]
  have hle : ((l.take n).filter p).length ≤ (l.take n).length := List.length_filter_le p _
  have htake : (l.take n).length = min n l.length := List.length_take
  constructor
  · intro h
    by_cases hn : n ≤ (l.filter p).length
    · refine .inl (List.length_filter_eq_length_iff.1 (le_antisymm hle ?_))
      omega
    · right
      have hnone : ((l.drop n).filter p).length = 0 := by omega
      intro a ha
      exact Bool.eq_false_iff.2 (List.filter_eq_nil_iff.1 (List.length_eq_zero_iff.1 hnone) a ha)
  · rintro (h | h)
    · have hall := List.length_filter_eq_length_iff.2 h
      have hfull : (l.filter p).length ≤ l.length := List.length_filter_le p l
      rcases le_or_gt n l.length with hn | hn
      · omega
      · rw [List.take_of_length_le hn.le] at hall ⊢
        omega
    · have hnone : (l.drop n).filter p = [] :=
        List.filter_eq_nil_iff.2 fun a ha => by rw [h a ha]; exact Bool.false_ne_true
      rw [hnone, List.length_nil] at hsplit
      omega

/-- `query_peers` answers, with one answer whatever the faults it survives, and the answer is full
exactly when the holders before the limit are all online, or none behind it is. -/
theorem queryPeers_full_iff (s : Sched) (gameId : UInt64) (chunkHash : Bytes) (limit : UInt32) :
    ∃ peers, exec (queryPeers gameId chunkHash limit).run s = (.ok (.ok peers), s)
      ∧ (∀ faults peers' w, (queryPeers gameId chunkHash limit).run.run ⟨s, faults⟩
        = (.ok (.ok peers'), w) → peers' = peers)
      ∧ (FullAnswer s gameId chunkHash limit peers
        ↔ LimitReaches s limit (s.ledger gameId chunkHash)) := by
  refine ⟨_, exec_queryPeers gameId chunkHash limit s, fun _ _ _ h => queryPeers_ok h, ?_⟩
  rw [fullAnswer_iff_length, LimitReaches]
  by_cases hzero : limit = 0
  · simp [limited, hzero]
  · rw [limited, if_neg hzero, if_neg hzero, length_filter_take_iff]
    simp [hzero]

/-- Node 1 is offline and node 2 online; both hold the chunk, and node 1 has reported it first. -/
def halfOnline : Sched := { Sched.empty with
  nodes := (Std.ExtTreeMap.insert ∅ 1 ⟨1, "idc", "a", "", [], "offline", 0⟩).insert 2
    ⟨2, "idc", "b", "", [], "online", 0⟩
  chunks := Std.ExtTreeMap.insert ∅ (Store.chunkKey 7 [1]) [1, 2] }

/-- With a limit of one the online holder is not named. -/
theorem queryPeers_limit_hides :
    exec (queryPeers 7 [1] 1).run halfOnline = (.ok (.ok []), halfOnline)
    ∧ ¬ FullAnswer halfOnline 7 [1] 1 [] := by
  have hledger : halfOnline.ledger 7 [1] = [1, 2] := by simp [Sched.ledger, halfOnline]
  have hoffline : halfOnline.isOnline 1 = false := by
    simp only [Sched.isOnline, halfOnline, lookup_insert]
    decide
  have honline : halfOnline.isOnline 2 = true := by
    simp only [Sched.isOnline, halfOnline, lookup_insert]
    decide
  have hnone : onlinePeers halfOnline (limited 1 (halfOnline.ledger 7 [1])) = [] := by
    refine List.length_eq_zero_iff.1 ?_
    rw [length_onlinePeers, hledger]
    simp [limited, hoffline]
  refine ⟨by rw [exec_queryPeers, hnone], ?_⟩
  rw [← hnone, fullAnswer_iff_length, hledger]
  simp [limited, hoffline, honline]

end Full

section Registration

variable {Sock : Type} {net : SocketText Sock} {cfg : Config} {discovered external : Option Sock}

/-- An address that is registered is the external one, or the keepalive address. -/
theorem mem_registeredAddrs {record : AddrRecord}
    (h : record ∈ cfg.registeredAddrs net external) :
    record.kind = "config" ∨ record.kind = "stun" ∨ cfg.keepaliveAddr net = some record := by
  rcases List.mem_append.1 h with h | h
  · obtain ⟨socket, -, rfl⟩ := Option.map_eq_some_iff.1 (Option.mem_toList.1 h)
    dsimp only
    split_ifs
    · exact .inl rfl
    · exact .inr (.inl rfl)
  · exact .inr (.inr (Option.mem_toList.1 h))

/-- A keepalive address is registered in the second place. -/
theorem registeredAddrs_keepalive (hext : cfg.externalSocket net discovered = some external)
    {record : AddrRecord} (h : cfg.keepaliveAddr net = some record) :
    record.kind = "keepalive"
      ∧ ∃ main, cfg.registeredAddrs net external = [main, record] := by
  rw [Config.registeredAddrs, h]
  unfold Config.keepaliveAddr at h
  unfold Config.externalSocket at hext
  rcases ha : cfg.externalAddr with _ | addr <;> rw [ha] at h hext
  · cases h
  rcases hp : cfg.keepalivePort with _ | port <;> rw [hp] at h
  · cases h
  obtain ⟨socket, hsocket, rfl⟩ := Option.map_eq_some_iff.1 h
  dsimp only at hext
  rw [hsocket] at hext
  obtain rfl : some socket = external := Option.some.inj hext
  exact ⟨rfl, _, rfl⟩

/-- A keepalive address that is a socket address gets dialled. -/
theorem not_dialsDataPlane (isEndpoint : String → Bool) (endpointId : String)
    (hendpoint : isEndpoint endpointId = true)
    (hext : cfg.externalSocket net discovered = some external) {record : AddrRecord}
    (hkeep : cfg.keepaliveAddr net = some record) {dialled : Sock}
    (hdialled : net.parse record.addr = some dialled) :
    ¬ DialsDataPlane net isEndpoint endpointId (cfg.registeredAddrs net external) := by
  intro h
  obtain ⟨hkeepalive, main, haddrs⟩ := registeredAddrs_keepalive hext hkeep
  -- the agent is the only node, and holds a chunk whose hash begins with 1
  let node : NodeRecord :=
    ⟨1, "cafe", endpointId, "", cfg.registeredAddrs net external, "online", 0⟩
  let s : Sched := { Sched.empty with
    nodes := Std.ExtTreeMap.insert ∅ 1 node
    chunks := Std.ExtTreeMap.insert ∅ (Store.chunkKey 7 (Hash.fill 1).bytes) [1] }
  have hnode : s.nodes[(1 : UInt64)]? = some node := by
    simp only [s, lookup_insert, if_true]
  have hholders : s.chunks[Store.chunkKey 7 (Hash.fill 1).bytes]? = some [1] := by
    simp only [s, lookup_insert, if_true]
  have hreg : s.Registered 1 endpointId (cfg.registeredAddrs net external) := by
    refine ⟨fun k n hk => ?_, node, hnode, rfl, rfl⟩
    simp only [s, lookup_insert, Std.ExtTreeMap.getElem?_empty] at hk
    split_ifs at hk with hk1
    rw [← Option.some.inj hk, ← hk1]
  have hquery : (queryPeers 7 (Hash.fill 1).bytes 5).run.run ⟨s, []⟩
      = (.ok (.ok [⟨1, endpointId, cfg.registeredAddrs net external, true⟩]), ⟨s, []⟩) := by
    rw [run_nil]
    have hchunks : exec (Store.chunkHolders 7 (Hash.fill 1).bytes) s = (.ok [1], s) := by
      simp only [Store.chunkHolders, exec_bind, exec_storeCall, exec_storeLook, hholders,
        exec_pure, Option.getD_some]
    have hget : exec (Store.getNode 1) s = (.ok (some node), s) := by rw [exec_getNode, hnode]
    have hpeers : exec (queryPeers 7 (Hash.fill 1).bytes 5).run s
        = (.ok (.ok [⟨1, endpointId, cfg.registeredAddrs net external, true⟩]), s) := by
      rw [queryPeers, exec_handler_bind, exec_orFail hchunks]
      change exec (collectPeers [1]).run s = _
      rw [collectPeers, exec_handler_bind, exec_orFail hget]
      rfl
    rw [hpeers]
  have hchoose : choosePeer isEndpoint []
      [⟨1, endpointId, cfg.registeredAddrs net external, true⟩] (Hash.fill 1)
      = some ⟨1, endpointId, cfg.registeredAddrs net external, true⟩ := by
    simp [choosePeer, candidates, haddrs, hendpoint, Nat.mod_one]
  have haddr : chooseAddr ⟨1, endpointId, cfg.registeredAddrs net external, true⟩ (Hash.fill 1)
      = some record := by
    rw [chooseAddr, haddrs]
    rfl
  have hkind := h s 1 hreg 7 (Hash.fill 1) [] _ _ hquery [] _ rfl hchoose _ dialled haddr hdialled
  simp [hkeepalive] at hkind

/-- The agent's addresses are dialled as they should be exactly when the keepalive address it
registers, if any, is not the text of a socket address. -/
theorem dialsDataPlane_iff (isEndpoint : String → Bool) (endpointId : String)
    (hendpoint : isEndpoint endpointId = true)
    (hext : cfg.externalSocket net discovered = some external) :
    DialsDataPlane net isEndpoint endpointId (cfg.registeredAddrs net external)
      ↔ ∀ addr port socket, cfg.externalAddr = some addr → cfg.keepalivePort = some port →
        net.parse addr = some socket →
          net.parse (net.ipText socket ++ ":" ++ toString port.toNat) = none := by
  constructor
  · intro h addr port socket haddr hport hsocket
    by_contra hparse
    obtain ⟨dialled, hdialled⟩ := Option.ne_none_iff_exists'.1 hparse
    have hkeep : cfg.keepaliveAddr net
        = some ⟨net.ipText socket ++ ":" ++ toString port.toNat, "keepalive", ""⟩ := by
      rw [Config.keepaliveAddr, haddr, hport]
      dsimp only
      rw [hsocket, Option.map_some]
    exact not_dialsDataPlane isEndpoint endpointId hendpoint hext hkeep hdialled h
  · intro h s n hreg gameId hash faults peers w hquery exclude peer hpeer hchoose record socket
      haddr hparse
    obtain ⟨hkeys, node, hnode, -, haddrs⟩ := hreg
    obtain ⟨k, node', hnode', hid, haddrs'⟩ := mem_queryPeers hquery (choosePeer_mem hchoose)
    have hk := hkeys k node' hnode'
    rw [← hk, ← hid, hpeer, hnode] at hnode'
    obtain rfl := Option.some.inj hnode'
    have hmem : record ∈ cfg.registeredAddrs net external := by
      rw [← haddrs, ← haddrs']
      exact List.mem_of_getElem? haddr
    rcases mem_registeredAddrs hmem with hkind | hkind | hkeep
    · exact .inl hkind
    · exact .inr hkind
    · unfold Config.keepaliveAddr at hkeep
      split at hkeep
      · rename_i addr port ha hp
        obtain ⟨sock, hsock, rfl⟩ := Option.map_eq_some_iff.1 hkeep
        rw [h addr port sock ha hp hsock] at hparse
        cases hparse
      · cases hkeep

end Registration

section Example

/-- Two addresses and their texts. -/
def twoSockets : SocketText ℕ where
  parse text := if text = "1.2.3.4:42001" then some 42001
    else if text = "1.2.3.4:42002" then some 42002 else none
  text port := "1.2.3.4:" ++ toString port
  ipText _ := "1.2.3.4"

/-- A peer with one address. -/
def peerAt (endpointId addr : String) : PeerEntry := ⟨1, endpointId, [⟨addr, "config", ""⟩], false⟩

def cafeConfig (keepalivePort : Option UInt16) : Config where
  nodeType := .cafe
  dataDir := "/data"
  concurrentGames := 5
  chunkConcurrency := 4
  diskFreeThreshold := 1
  compactThreshold := some (3 / 10)
  listenPort := 42001
  tempTtlHours := 24
  downloadMbps := none
  originEndpoint := none
  originAddr := none
  keepalivePort := keepalivePort
  externalAddr := some "1.2.3.4:42001"
  stunAddr := none
  controlAddr := some "http://scheduler:50051"

theorem dialsDataPlane_without_port : (cafeConfig none).validate twoSockets = .ok ()
    ∧ DialsDataPlane twoSockets (fun _ => true) "e"
      ((cafeConfig none).registeredAddrs twoSockets (some 42001)) := by
  refine ⟨by decide +kernel, ?_⟩
  have hext : (cafeConfig none).externalSocket twoSockets none = some (some 42001) := by
    decide +kernel
  refine (dialsDataPlane_iff (fun _ => true) "e" rfl hext).2 ?_
  intro addr port socket _ hport
  cases hport

/-- With an external address and a keepalive port every odd first byte picks the keepalive
address. -/
theorem dials_keepalive : (cafeConfig (some 42002)).validate twoSockets = .ok ()
    ∧ (cafeConfig (some 42002)).externalSocket twoSockets none = some (some 42001)
    ∧ ¬ DialsDataPlane twoSockets (fun _ => true) "e"
      ((cafeConfig (some 42002)).registeredAddrs twoSockets (some 42001)) := by
  have hext : (cafeConfig (some 42002)).externalSocket twoSockets none = some (some 42001) := by
    decide +kernel
  have hkeep : (cafeConfig (some 42002)).keepaliveAddr twoSockets
      = some ⟨"1.2.3.4:42002", "keepalive", ""⟩ := by
    decide +kernel
  have hparse : twoSockets.parse "1.2.3.4:42002" = some 42002 := by decide +kernel
  exact ⟨by decide +kernel, hext, not_dialsDataPlane (fun _ => true) "e" rfl hext hkeep hparse⟩

end Example

end BlazeNet

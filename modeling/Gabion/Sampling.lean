/-
  Which peers a tick sends to, and what (`handle_gossip_tick` in `gossip/runtime.rs`).

  A tick shuffles the front of its list of peers and sends one frame to each of the first
  `pick_count`, as long as there are free buffers.  The list never has an address twice, so no
  peer gets two frames (`tick_sends_each_peer_once`).
-/
import Gabion.Convergence
import Gabion.Discovery
import Gabion.PeerSlots

namespace Gabion

namespace Runtime

variable {w : CountWidth} {r r' : Runtime w} {env : Platform}

/-! ## The peers of a node -/

theorem peerAddrs_cachePeer (src : SocketAddr) (senderId : NodeId) (peerSlot : ℕ)
    (peers : List Peer) :
    (cachePeer src senderId peerSlot peers).map Peer.addr = peers.map Peer.addr := by
  induction peers with
  | nil => rfl
  | cons p ps ih =>
    rw [cachePeer]
    split_ifs
    · rfl
    · rw [List.map_cons, ih, List.map_cons]

theorem peerAddrs_inbound (bytes : List UInt8) (src : SocketAddr) :
    (r.handleInbound env bytes src).peerAddrs = r.peerAddrs := by
  unfold handleInbound
  split
  · rfl
  · dsimp only
    split
    · rfl
    · exact peerAddrs_cachePeer ..

theorem gossip_peers (peers : List ℕ) (r : Runtime w) :
    (peers.foldl (gossipTo env) r).peers = r.peers :=
  congrArg Contacts.peers (gossip_contacts peers r)

/-- The peers in the order of a tick. -/
def shuffled (env : Platform) (r : Runtime w) : List Peer :=
  (shufflePeers r.rng r.peers (r.pickCount env)).2

theorem shuffled_perm (env : Platform) (r : Runtime w) : (r.shuffled env).Perm r.peers :=
  shufflePeers_perm ..

theorem tick_peers (env : Platform) (r : Runtime w) (now : ℕ) :
    (r.handleGossipTick env now).peerAddrs.Perm r.peerAddrs := by
  unfold handleGossipTick
  dsimp only
  split_ifs
  · exact .refl _
  · have hpeers : (((List.range ((r.expireTick now).pickCount env)).foldl (gossipTo env)
        ((r.expireTick now).pickPeers ((r.expireTick now).pickCount env))).resetPending now).peers =
          r.shuffled env := gossip_peers _ _
    rw [peerAddrs, hpeers]
    exact (shuffled_perm env r).map _

/-- **No address twice**, whatever arm fires. -/
theorem nodup_iteration {now : ℕ} {arm : ArmOutcome} (hnodup : r.peerAddrs.Nodup)
    (h : r.iteration env now arm = some r') : r'.peerAddrs.Nodup := by
  rw [iteration_eq] at h
  obtain ⟨r₁, h₁, rfl⟩ := Option.map_eq_some_iff.1 h
  have hfinish : r₁.finish.peerAddrs = r₁.peerAddrs := by
    unfold finish
    dsimp only
    split <;> rfl
  rw [hfinish]
  unfold handled at h₁
  split_ifs at h₁
  · cases h₁
    exact (tick_peers env _ now).nodup_iff.2 hnodup
  · cases arm with
    | request req =>
      match req with
      | none => cases h₁
      | some .shutdown => cases h₁
      | some (.limit req) =>
        cases h₁
        obtain ⟨_, _, _, hnote⟩ := r.noteHits_cases now req
        rw [handleLimitRequest, hnote]
        exact hnodup
    | inbound recv =>
      cases recv with
      | none => cases h₁
      | some recv =>
        cases h₁
        rw [peerAddrs_inbound]
        exact hnodup
    | writable result =>
      change r.drainOneSend result = some r₁ at h₁
      unfold drainOneSend at h₁
      split at h₁
      · cases h₁
        exact hnodup
      · split at h₁ <;> cases h₁ <;> exact hnodup
    | peerEvent evt =>
      match evt with
      | none =>
        cases h₁
        exact hnodup
      | some (.added addr) =>
        cases h₁
        rw [peerAddrs_added]
        split_ifs with hmem
        · exact hnodup
        · rw [List.nodup_append']
          exact ⟨hnodup, by simp, by simpa using hmem⟩
      | some (.removed addr) =>
        cases h₁
        rw [peerAddrs_removed]
        exact hnodup.erase addr
    | admin =>
      cases h₁
      exact hnodup
    | tick =>
      cases h₁
      exact (tick_peers env r now).nodup_iff.2 hnodup

/-! ## The packets of a tick -/

/-- The queued packets: for whom, and their bytes. -/
def packets (r : Runtime w) : List (SocketAddr × List UInt8) :=
  r.sendPending.map fun p => (p.1, r.sendPool p.2)

/-- Every queued packet has taken a buffer. -/
theorem Fills.length_eq (h : Fills r r') :
    r'.sendFree.length + r'.packets.length = r.sendFree.length + r.packets.length := by
  obtain ⟨k, hfree, hqueued⟩ := h.moved
  have hlen := congrArg List.length hqueued
  simp only [queued, List.length_map, List.length_append, List.length_take] at hlen
  simp only [packets, List.length_map, hfree, List.length_drop, hlen]
  omega

theorem new_accepted {header : Wire.Header} {handles : List CellHandle} {key : Option Wire.HmacKey}
    {limits : Wire.FrameLimits} {p : Wire.Packets}
    (h : Wire.Packets.new w header handles key limits = .ok p) :
    p.Accepted w ∧ p.handles = handles := by
  unfold Wire.Packets.new at h
  split_ifs at h with hsmall
  cases h
  exact ⟨not_lt.1 hsmall, rfl⟩

theorem encodePacketsFor_packets (hnodup : (r.sendFree ++ r.queued).Nodup) (dst : SocketAddr)
    {handles : List CellHandle} {p : Wire.Packets} {frame : List (List UInt8)}
    (hnew : Wire.Packets.new w r.headerTemplate handles r.config.authKey r.config.wireLimits =
      .ok p)
    (hdrain : p.drain env.mac r.store.toCellTable (handles.length + 1) = some frame) :
    (r.encodePacketsFor env dst handles).packets =
      r.packets ++ (frame.map (dst, ·)).take r.sendFree.length := by
  obtain ⟨hfree, -, hdisj⟩ := List.nodup_append'.1 hnodup
  obtain ⟨hpending, hpool, -⟩ := packetLoop_drain env.mac r.store.toCellTable dst r.sendFree
    r.sendPool r.sendPending (new_accepted hnew).1 hdrain hfree
  obtain ⟨-, -, -, hkept⟩ := packetLoop_fills env.mac r.store.toCellTable dst r.sendFree p
    r.sendPool r.sendPending
  rw [encodePacketsFor, hnew]
  simp only [packets, hpending, List.map_append, List.map_map]
  congr 1
  · -- what was queued before is in other buffers
    refine List.map_congr_left fun q hq => ?_
    rw [hkept q.2 fun hmem => hdisj hmem (List.mem_map_of_mem hq)]
  · rw [← List.map_take, ← hpool, List.map_map]
    rfl

/-- **One peer**: the packets of its frame are queued, as far as there are free buffers. -/
theorem gossipTo_packets (hnodup : (r.sendFree ++ r.queued).Nodup) {i : ℕ} {peer : Peer}
    (hpeer : r.peers[i]? = some peer) : (r.gossipTo env i).packets =
      r.packets ++ ((r.stepPackets env i).map (peer.addr, ·)).take r.sendFree.length := by
  unfold gossipTo stepPackets frameFor
  split_ifs with hfree
  · simp
  · rw [hpeer, Option.map_some]
    dsimp only
    obtain ⟨store, handles⟩ := r.store.fillFrameFor r.config.maxCellsPerTick peer.peerSlot
    dsimp only
    cases hnew : Wire.Packets.new w { r with store }.headerTemplate handles r.config.authKey
        r.config.wireLimits with
    | error e =>
      dsimp only
      rw [List.map_nil, List.take_nil, List.append_nil]
      split_ifs
      · rfl
      · rw [encodePacketsFor, hnew]
        rfl
    | ok p =>
      have hp := new_accepted hnew
      obtain ⟨frame, hdrain, hlen⟩ := Wire.drain_length (s := store.toCellTable) env.mac
        (handles.length + 1) p hp.1 (by rw [hp.2]; exact Nat.lt_succ_self _)
      dsimp only
      rw [hdrain, Option.getD_some]
      split_ifs with hhandles
      · -- no handles, no packets
        have hempty : frame = [] := by
          rw [hp.2, hhandles, Wire.packetCount, if_pos rfl] at hlen
          exact List.length_eq_zero_iff.1 hlen
        rw [hempty, List.map_nil, List.take_nil, List.append_nil]
        rfl
      · exact encodePacketsFor_packets (r := { r with store }) hnodup peer.addr hnew hdrain

/-- The packets of the first `i` peers of a tick, in its order. -/
def tickPackets (env : Platform) (r : Runtime w) (now i : ℕ) : List (SocketAddr × List UInt8) :=
  ((r.shuffled env).take i).zipIdx.flatMap fun target =>
    ((tickState env r now target.2).stepPackets env target.2).map (target.1.addr, ·)

theorem tickState_packets {n : ℕ} (h : Pooled n r) (now i : ℕ) (hi : i ≤ r.peers.length) :
    (tickState env r now i).packets =
      r.packets ++ (tickPackets env r now i).take r.sendFree.length := by
  induction i with
  | zero =>
    rw [tickPackets, List.take_zero, List.zipIdx_nil, List.flatMap_nil, List.take_nil,
      List.append_nil]
    rfl
  | succ i ih =>
    have hbefore := ih (by omega)
    have hlt : i < (r.shuffled env).length := by
      rw [(shuffled_perm env r).length_eq]
      omega
    have hpeers : (tickState env r now i).peers = r.shuffled env := gossip_peers _ _
    have hfills := tickState_fills env r now i
    -- the buffers that the peers before have left
    have hleft : (tickState env r now i).sendFree.length =
        r.sendFree.length - (tickPackets env r now i).length := by
      have hlen := hfills.length_eq
      rw [hbefore, List.length_append, List.length_take] at hlen
      omega
    have hnext : tickPackets env r now (i + 1) = tickPackets env r now i ++
        ((tickState env r now i).stepPackets env i).map ((r.shuffled env)[i].addr, ·) := by
      have hlength : ((r.shuffled env).take i).length = i := by
        rw [List.length_take]
        omega
      rw [tickPackets, List.take_add_one, List.getElem?_eq_getElem hlt, List.zipIdx_append,
        List.flatMap_append, hlength]
      simp [tickPackets]
    rw [tickState_succ, gossipTo_packets (h.fills hfills).nodup
      (by rw [hpeers, List.getElem?_eq_getElem hlt]), hbefore, hleft, hnext, List.take_append,
      List.append_assoc]

/-- The peers that a tick at `now` sends to, in its order. -/
def targets (env : Platform) (r : Runtime w) (now : ℕ) : List Peer :=
  if (r.expireTick now).Idle then [] else (r.shuffled env).take (r.pickCount env)

/-- **A tick sends to each peer once.**  Start a node whose bootstrap peers are distinct and run
    its loop in any way.  The next tick sends to the first peers of its shuffled list, as many as
    the fanout, the coverage and the number of peers say, and none of them twice.  What it queues
    are the packets of the frame composed for the first of them, then those for the second, and so
    on until the free buffers run out; and the node has the same peers afterwards. -/
theorem tick_sends_each_peer_once (env : Platform) (config : GossipConfig) (s₀ : CellStore w)
    (aggregates : DashMapStore) (hboot : config.bootstrapPeers.Nodup)
    (arms : List (ℕ × ArmOutcome)) (hrun : (fromParts config s₀ aggregates).run env arms = some r)
    (now : ℕ) :
    ((r.tickStart.targets env now).map Peer.addr).Nodup ∧ r.tickStart.targets env now ⊆ r.peers ∧
      (r.tickStart.targets env now).length = (if (r.tickStart.expireTick now).Idle then 0
        else min (max r.config.fanout (env.coverage r.peers.length)) r.peers.length) ∧
      (r.tickStart.handleGossipTick env now).packets = r.packets ++
        ((r.tickStart.targets env now).zipIdx.flatMap fun target =>
          (framePackets env r now target.2).map (target.1.addr, ·)).take r.sendFree.length ∧
      (r.tickStart.handleGossipTick env now).peerAddrs.Perm r.peerAddrs := by
  have hstart : (fromParts config s₀ aggregates).peerAddrs.Nodup := by
    simpa [peerAddrs, fromParts, Function.comp_def] using hboot
  have haddrs : r.peerAddrs.Nodup := run_induct (P := fun r => r.peerAddrs.Nodup)
    (fun h hstep => nodup_iteration h hstep) arms hstart hrun
  have hpool := ((pooled_fromParts config s₀ aggregates).run hrun).fills (tickStart_fills r)
  have hsame : r.tickStart.peers = r.peers ∧ r.tickStart.config = r.config ∧
      r.tickStart.packets = r.packets ∧ r.tickStart.sendFree = r.sendFree := by
    unfold tickStart
    split_ifs <;> exact ⟨rfl, rfl, rfl, rfl⟩
  obtain ⟨hpeers, hconfig, hpackets, hfree⟩ := hsame
  have hperm := shuffled_perm env r.tickStart
  rw [hpeers] at hperm
  have hpick : r.tickStart.pickCount env ≤ r.peers.length := hpeers ▸ Nat.min_le_right _ _
  have htick : (r.tickStart.handleGossipTick env now).peerAddrs.Perm r.peerAddrs := by
    have := tick_peers env r.tickStart now
    rwa [peerAddrs, peerAddrs, hpeers] at this
  unfold targets
  by_cases hidle : (r.tickStart.expireTick now).Idle
  · have hearly : r.tickStart.handleGossipTick env now = r.tickStart.expireTick now := by
      unfold handleGossipTick
      exact if_pos hidle
    rw [if_pos hidle, if_pos hidle]
    refine ⟨List.nodup_nil, List.nil_subset _, rfl, ?_, htick⟩
    rw [hearly, ← hpackets, List.zipIdx_nil, List.flatMap_nil, List.take_nil, List.append_nil]
    rfl
  · rw [if_neg hidle, if_neg hidle]
    refine ⟨?_, ?_, ?_, ?_, htick⟩
    · rw [List.map_take]
      exact ((hperm.map _).nodup_iff.2 haddrs).sublist (List.take_sublist _ _)
    · exact fun peer hpeer => hperm.mem_iff.1 (List.mem_of_mem_take hpeer)
    · rw [List.length_take, hperm.length_eq, Nat.min_eq_left hpick, pickCount, hpeers, hconfig]
    · rw [handleGossipTick_states env now hidle, ← hpackets, ← hfree]
      exact tickState_packets hpool now _ (hpeers ▸ hpick)

/-- Two peers, and a buffer for each. -/
def pairGossip : GossipConfig :=
  { tinyGossip with
    bootstrapPeers := [{ ip := 2, port := 7000 }, { ip := 3, port := 7000 }]
    sendQueueCapacity := 2 }

/-- A node with one key: both peers get its frame, a packet each. -/
theorem tick_sends_each_peer_once_pair : ∃ (s₀ : CellStore .u32) (r : Runtime .u32),
    CellStore.new .u32 CellStore.tinyConfig CellStore.tinyNode = some s₀ ∧
    (fromParts pairGossip (s₀.run [.internRule tinyRule]) .empty).run tinyPlatform
      [(5000, .request (some (.limit tinyRequest)))] = some r ∧
    (r.tickStart.handleGossipTick tinyPlatform 6000).packets.map Prod.fst =
      [⟨3, 7000⟩, ⟨2, 7000⟩] ∧
    (r.tickStart.handleGossipTick tinyPlatform 6000).packets = r.packets ++
      ((r.tickStart.targets tinyPlatform 6000).zipIdx.flatMap fun target =>
        (framePackets tinyPlatform r 6000 target.2).map (target.1.addr, ·)).take
          r.sendFree.length := by
  have heval : (((fromParts pairGossip (tinyStore.run [.internRule tinyRule]) .empty).run
      tinyPlatform [(5000, .request (some (.limit tinyRequest)))]).map fun r =>
          (r.tickStart.handleGossipTick tinyPlatform 6000).packets.map Prod.fst) =
      some [⟨3, 7000⟩, ⟨2, 7000⟩] := by decide +kernel
  obtain ⟨r, hrun, hpackets⟩ := Option.map_eq_some_iff.1 heval
  obtain ⟨-, -, -, hframes, -⟩ :=
    tick_sends_each_peer_once tinyPlatform _ _ _ (by decide) _ hrun 6000
  exact ⟨tinyStore, r, tinyStore_new, hrun, hpackets, hframes⟩

end Runtime

end Gabion

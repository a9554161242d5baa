/-
  The gossip runtime (`gossip/runtime.rs`): the state of a node and one iteration of its loop.

  `select!` and the clock are inputs of an iteration: which arm fired with what, and what
  `now_millis` answers.  The buffers that every handler clears before it uses them
  (`obs_buf`, `ack_buf`, `frame_handles`, the encoder's scratch) are local values, and the
  transport and the reply channels are logs of what was sent.
-/
import Gabion.Aggregate
import Gabion.Wire.Packets

namespace Gabion

open Function

structure SocketAddr where
  ip : BitVec 128
  port : BitVec 16
deriving DecidableEq, Repr

structure GossipConfig where
  clusterIdHash : BitVec 128
  bootstrapPeers : List SocketAddr
  fanout : ℕ
  maxCellsPerTick : ℕ
  wireLimits : Wire.FrameLimits
  sendQueueCapacity : ℕ
  authKey : Option Wire.HmacKey
  rngSeed : BitVec 64
  targetErrBps : ℕ
  minEmitIntervalMillis : ℕ

structure Peer where
  addr : SocketAddr
  nodeId : Option NodeId
  peerSlot : Option ℕ
deriving DecidableEq, Repr

structure LimitRequest where
  ruleFingerprint : Fingerprint
  keyHash : KeyHash
  bucket : BucketEpoch
  hits : ℕ
  ruleLimit : ℕ
  nowMillis : ℕ
  reply : Option ℕ
deriving DecidableEq, Repr

/-- The row a limit request is ingested as. -/
def LimitRequest.observation (w : CountWidth) (req : LimitRequest) : Observation w where
  ruleFingerprint := req.ruleFingerprint
  keyHash := req.keyHash
  bucket := req.bucket
  origin := 0
  incarnation := 0
  count := w.saturatingFromU64 req.hits
  lastUpdateMillis := req.nowMillis
  count_le := min_le_right _ _

/-- What a limit request counts under. -/
def LimitRequest.identity (req : LimitRequest) : CellIdentity where
  ruleFingerprint := req.ruleFingerprint
  keyHash := req.keyHash
  bucket := req.bucket

inductive Request
  | limit (req : LimitRequest)
  | shutdown

inductive PeerEvent
  | added (addr : SocketAddr)
  | removed (addr : SocketAddr)

/-- What `try_send_to` answers. -/
inductive SendResult
  | ok
  | wouldBlock
  | failed

/-- The arm of `select!` that fired; `none` is a closed channel or a failed `recv_from`. -/
inductive ArmOutcome
  | request (req : Option Request)
  | inbound (recv : Option (List UInt8 × SocketAddr))
  | writable (result : SendResult)
  | peerEvent (evt : Option PeerEvent)
  | admin
  | tick

/-- What the runtime takes from libraries: HMAC-SHA256, and the fanout
    `((n as f64).ln() + GOSSIP_COVERAGE_MARGIN).ceil()`. -/
structure Platform where
  mac : Wire.Mac
  coverage : ℕ → ℕ

/-! ## SplitMix64 -/

def splitMixGamma : BitVec 64 := 0x9E3779B97F4A7C15

def splitMixNew (seed : BitVec 64) : BitVec 64 := seed + splitMixGamma

/-- `next_u64`: the new state and the output. -/
def splitMixNext (state : BitVec 64) : BitVec 64 × BitVec 64 :=
  let state := state + splitMixGamma
  let z := (state ^^^ (state >>> 30)) * 0xBF58476D1CE4E5B9#64
  let z := (z ^^^ (z >>> 27)) * 0x94D049BB133111EB#64
  (state, z ^^^ (z >>> 31))

/-! ## State -/

structure Runtime (w : CountWidth) where
  config : GossipConfig
  store : CellStore w
  aggregates : DashMapStore
  sinkBuf : List CellDelta
  expirationBuf : List CellExpiration
  sendPool : ℕ → List UInt8
  sendPending : List (SocketAddr × ℕ)
  sendFree : List ℕ
  peers : List Peer
  rng : BitVec 64
  pendingReply : Option ℕ
  decodeRejectCount : ℕ
  maxSendPendingDepth : ℕ
  rulePending : ℕ → ℕ
  ruleLastEmitMs : ℕ → ℕ
  wantImmediateFlush : Bool
  ticksTotal : ℕ
  thresholdFires : ℕ
  dirtyTicks : ℕ
  lastEffectiveFanout : ℕ
  peakEffectiveFanout : ℕ
  lastErrorBudget : ℕ
  /-- packets handed to the transport, latest first -/
  sent : List (SocketAddr × List UInt8)
  /-- replies sent, latest first -/
  replied : List ℕ

namespace Runtime

variable {w : CountWidth}

/-- `from_parts`; `send_free` is a stack with its top in front. -/
def fromParts (config : GossipConfig) (store : CellStore w) (aggregates : DashMapStore) :
    Runtime w where
  config := config
  store := store
  aggregates := aggregates
  sinkBuf := []
  expirationBuf := []
  sendPool := fun _ => []
  sendPending := []
  sendFree := List.range (max config.sendQueueCapacity 1 % 2 ^ 8)
  peers := config.bootstrapPeers.map fun addr => { addr, nodeId := none, peerSlot := none }
  rng := splitMixNew config.rngSeed
  pendingReply := none
  decodeRejectCount := 0
  maxSendPendingDepth := 0
  rulePending := fun _ => 0
  ruleLastEmitMs := fun _ => 0
  wantImmediateFlush := false
  ticksTotal := 0
  thresholdFires := 0
  dirtyTicks := 0
  lastEffectiveFanout := 0
  peakEffectiveFanout := 0
  lastErrorBudget := 0
  sent := []
  replied := []

/-! ## Limit requests -/

/-- The error-budget check at the start of `handle_limit_request`. -/
def noteHits (r : Runtime w) (now : ℕ) (req : LimitRequest) : Runtime w :=
  match r.store.ruleDictionary.find req.ruleFingerprint with
  | none => r
  | some slot =>
    let pending := min (r.rulePending slot + min req.hits u32Max) u32Max
    let peers := max r.peers.length 1
    let limit := max req.ruleLimit 1
    let bps := max r.config.targetErrBps 1
    let epsilon := max (min (limit * bps) u64Max / (10000 * peers)) 1
    let last := r.ruleLastEmitMs slot
    let due := decide (pending > epsilon) &&
      (last == 0 || decide (now - last ≥ r.config.minEmitIntervalMillis))
    { r with
      rulePending := update r.rulePending slot pending
      lastErrorBudget := epsilon
      wantImmediateFlush := r.wantImmediateFlush || due }

def handleLimitRequest (r : Runtime w) (now : ℕ) (req : LimitRequest) : Runtime w :=
  let r := r.noteHits now req
  let (store, sink) := r.store.ingestLocal [req.observation w] []
  { r with store, sinkBuf := sink, pendingReply := req.reply }

/-! ## Inbound datagrams -/

/-- The row a wire cell is merged as. -/
def observationFromWire (cell : Wire.WireCell w) : Observation w where
  ruleFingerprint := cell.ruleFingerprint
  keyHash := cell.keyHash
  bucket := cell.bucket
  origin := cell.originNodeId
  incarnation := cell.originIncarnation
  count := cell.count
  lastUpdateMillis := cell.lastUpdateMillis
  count_le := cell.count_le

/-- One step of the acknowledgement loop of `handle_inbound`. -/
def ackCell (peerSlot : ℕ) (s : CellStore w) (cell : Wire.WireCell w) : CellStore w :=
  match s.nodeDictionary.find
      { nodeId := cell.originNodeId, incarnation := cell.originIncarnation } with
  | none => s
  | some nodeSlot =>
    { s with peerFrontiers := s.peerFrontiers.recordAcked peerSlot nodeSlot cell.originSequence }

/-- Store the sender in the first peer entry with its address. -/
def cachePeer (src : SocketAddr) (senderId : NodeId) (peerSlot : ℕ) : List Peer → List Peer
  | [] => []
  | p :: ps =>
    if p.addr = src then { p with nodeId := some senderId, peerSlot := some peerSlot } :: ps
    else p :: cachePeer src senderId peerSlot ps

/-- The datagram of an inbound arm; both `accept_header` hooks are `|_| true`. -/
def decodeInbound (env : Platform) (r : Runtime w) (bytes : List UInt8) :
    List (Wire.WireCell w) × Except Wire.DecodeError Wire.DecodedSummary :=
  Wire.decodeInner env.mac w r.config.authKey r.config.wireLimits (fun _ => true) bytes

def handleInbound (env : Platform) (r : Runtime w) (bytes : List UInt8) (src : SocketAddr) :
    Runtime w :=
  match r.decodeInbound env bytes with
  | (_, .error _) =>
    { r with sinkBuf := [], decodeRejectCount := min (r.decodeRejectCount + 1) u64Max }
  | (cells, .ok summary) =>
    let (store, sink) := r.store.mergeRemote (cells.map observationFromWire) []
    let senderId := summary.header.senderNodeId
    match store.peerFrontiers.internPeer senderId with
    | (peerFrontiers, none) => { r with store := { store with peerFrontiers }, sinkBuf := sink }
    | (peerFrontiers, some peerSlot) =>
      { r with
        store := cells.foldl (ackCell peerSlot) { store with peerFrontiers }
        sinkBuf := sink
        peers := cachePeer src senderId peerSlot r.peers }

/-! ## Sends and peer events -/

/-- `drain_one_send`; `none` when the error ends the loop. -/
def drainOneSend (r : Runtime w) (result : SendResult) : Option (Runtime w) :=
  match r.sendPending with
  | [] => some r
  | (dst, slot) :: rest =>
    match result with
    | .ok =>
      some { r with
        sendPending := rest
        sendFree := slot :: r.sendFree
        sent := (dst, r.sendPool slot) :: r.sent }
    | .wouldBlock => some r
    | .failed => none

def handlePeerEvent (r : Runtime w) : PeerEvent → Runtime w
  | .added addr =>
    if r.peers.any fun p => p.addr = addr then r
    else { r with peers := r.peers ++ [{ addr, nodeId := none, peerSlot := none }] }
  | .removed addr =>
    match r.peers.find? fun p => p.addr = addr with
    | none => r
    | some removed =>
      let r := { r with peers := r.peers.eraseP fun p => p.addr = addr }
      match removed.nodeId with
      | none => r
      | some nodeId =>
        { r with store := { r.store with peerFrontiers := r.store.peerFrontiers.removePeer nodeId } }

/-! ## Ticks -/

def swapAt {α : Type} (xs : List α) (i j : ℕ) : List α :=
  match xs[i]?, xs[j]? with
  | some a, some b => (xs.set i b).set j a
  | _, _ => xs

/-- The partial shuffle of `handle_gossip_tick`. -/
def shufflePeers (rng : BitVec 64) (peers : List Peer) (pickCount : ℕ) : BitVec 64 × List Peer :=
  (List.range pickCount).foldl
    (fun acc i =>
      let (rng, z) := splitMixNext acc.1
      (rng, swapAt acc.2 i (i + z.toNat % (peers.length - i))))
    (rng, peers)

/-- The packet loop of `encode_packets_for`, over the stack of free buffers. -/
def packetLoop (mac : Wire.Mac) (s : CellTable w) (dst : SocketAddr) :
    List ℕ → Wire.Packets → (ℕ → List UInt8) → List (SocketAddr × ℕ) →
      List ℕ × (ℕ → List UInt8) × List (SocketAddr × ℕ)
  | [], _, pool, pending => ([], pool, pending)
  | slot :: free, packets, pool, pending =>
    match packets.nextInto mac s with
    | (packets, buf, .ok (some _)) =>
      packetLoop mac s dst free packets (update pool slot buf) (pending ++ [(dst, slot)])
    | (_, buf, _) => (slot :: free, update pool slot buf, pending)

def headerTemplate (r : Runtime w) : Wire.Header where
  clusterIdHash := r.config.clusterIdHash
  senderNodeId := r.store.localIdentity.nodeId
  senderIncarnation := r.store.localIdentity.incarnation
  countWidth := 0
  cellCount := 0
  bodyLen := 0
  minOriginSequence := 0
  maxOriginSequence := 0
  flags := 0

def encodePacketsFor (env : Platform) (r : Runtime w) (dst : SocketAddr)
    (handles : List CellHandle) : Runtime w :=
  match Wire.Packets.new w r.headerTemplate handles r.config.authKey r.config.wireLimits with
  | .error _ => r
  | .ok packets =>
    let (sendFree, sendPool, sendPending) :=
      packetLoop env.mac r.store.toCellTable dst r.sendFree packets r.sendPool r.sendPending
    { r with sendFree, sendPool, sendPending }

/-- One step of the peer loop of `handle_gossip_tick`; once the free list is empty, every
    further step is the `break`. -/
def gossipTo (env : Platform) (r : Runtime w) (peerIdx : ℕ) : Runtime w :=
  if r.sendFree = [] then r
  else
    match r.peers[peerIdx]? with
    | none => r
    | some peer =>
      let (store, handles) := r.store.fillFrameFor r.config.maxCellsPerTick peer.peerSlot
      let r := { r with store }
      if handles = [] then r else r.encodePacketsFor env peer.addr handles

/-- The first part of `handle_gossip_tick`. -/
def expireTick (r : Runtime w) (now : ℕ) : Runtime w :=
  let (store, expirations) := r.store.expireAt now []
  { r with
    ticksTotal := min (r.ticksTotal + 1) u64Max
    store
    expirationBuf := expirations }

/-- The number of peers a tick sends to. -/
def pickCount (env : Platform) (r : Runtime w) : ℕ :=
  min (max r.config.fanout (env.coverage r.peers.length)) r.peers.length

/-- The fanout counters and the shuffle of a tick that sends. -/
def pickPeers (r : Runtime w) (pickCount : ℕ) : Runtime w :=
  let (rng, peers) := shufflePeers r.rng r.peers pickCount
  { r with
    dirtyTicks := min (r.dirtyTicks + 1) u64Max
    lastEffectiveFanout := pickCount
    peakEffectiveFanout := max r.peakEffectiveFanout pickCount
    rng
    peers }

/-- The last loop of `handle_gossip_tick`. -/
def resetPending (r : Runtime w) (now : ℕ) : Runtime w :=
  { r with
    rulePending := fun _ => 0
    ruleLastEmitMs := fun slot => if r.rulePending slot ≠ 0 then max now 1 else r.ruleLastEmitMs slot }

def handleGossipTick (env : Platform) (r : Runtime w) (now : ℕ) : Runtime w :=
  let r := r.expireTick now
  if r.store.activeLen = 0 ∨ r.peers = [] ∨ r.sendFree = [] then r
  else
    let n := r.pickCount env
    ((List.range n).foldl (gossipTo env) (r.pickPeers n)).resetPending now

/-! ## The loop -/

/-- The handler of an arm; `none` when the loop returns.  `recv_from` cuts a datagram off at
    the length of `recv_buf`. -/
def handle (env : Platform) (r : Runtime w) (now : ℕ) : ArmOutcome → Option (Runtime w)
  | .request none => none
  | .request (some .shutdown) => none
  | .request (some (.limit req)) => some (r.handleLimitRequest now req)
  | .inbound none => none
  | .inbound (some (datagram, src)) =>
    some (r.handleInbound env (datagram.take r.config.wireLimits.maxPayloadBytes) src)
  | .writable result => r.drainOneSend result
  | .peerEvent none => some r
  | .peerEvent (some evt) => some (r.handlePeerEvent evt)
  | .admin => some r
  | .tick => some (r.handleGossipTick env now)

/-- What follows the handler: aggregates, depth watermark, reply. -/
def finish (r : Runtime w) : Runtime w :=
  let r :=
    if r.sinkBuf ≠ [] ∨ r.expirationBuf ≠ [] then
      { r with
        aggregates := r.aggregates.apply r.sinkBuf r.expirationBuf
        sinkBuf := []
        expirationBuf := [] }
    else r
  { r with
    maxSendPendingDepth := max r.maxSendPendingDepth r.sendPending.length
    replied := r.pendingReply.toList ++ r.replied
    pendingReply := none }

/-- **One iteration of the loop.**  A wanted flush comes before every arm. -/
def iteration (env : Platform) (r : Runtime w) (now : ℕ) (arm : ArmOutcome) : Option (Runtime w) :=
  if r.wantImmediateFlush then
    let r := { r with
      wantImmediateFlush := false
      thresholdFires := min (r.thresholdFires + 1) u64Max }
    some (r.handleGossipTick env now).finish
  else (r.handle env now arm).map finish

/-- A run of the loop; `none` once it has returned. -/
def run (env : Platform) : Runtime w → List (ℕ × ArmOutcome) → Option (Runtime w)
  | r, [] => some r
  | r, (now, arm) :: rest => (r.iteration env now arm).bind fun r => run env r rest

end Runtime

end Gabion

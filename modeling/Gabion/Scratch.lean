/-
  The buffers that outlive an iteration.

  `recv_buf`, `obs_buf` and `ack_buf` are fields of the runtime.  The decoder calls its
  visitor before it has seen the whole packet, so a refused datagram leaves a prefix of its
  cells in them.  `Loop` is the runtime with these buffers; `Runtime`, in which they are
  local values, is what is left of it when they are forgotten (`Loop.run_runtime`).
-/
import Gabion.Agreement

namespace Gabion

/-- `ack_buf` is one list of its three columns. -/
structure Buffers (w : CountWidth) where
  recvBuf : List UInt8
  obsBuf : List (Observation w)
  ackBuf : List (NodeIdentity × ℕ)

structure Loop (w : CountWidth) where
  runtime : Runtime w
  buffers : Buffers w

namespace Buffers

variable {w : CountWidth}

/-- `recv_from(recv_buf)`: the front of the buffer is overwritten, and the number of bytes
    returned. -/
def recvFrom (b : Buffers w) (datagram : List UInt8) : Buffers w × ℕ :=
  let got := datagram.take b.recvBuf.length
  ({ b with recvBuf := got ++ b.recvBuf.drop got.length }, got.length)

/-- The visitor of `handle_inbound`. -/
def onCell (b : Buffers w) (cell : Wire.WireCell w) : Buffers w :=
  { b with
    ackBuf := b.ackBuf ++ [({ nodeId := cell.originNodeId, incarnation := cell.originIncarnation },
      cell.originSequence)]
    obsBuf := b.obsBuf ++ [Runtime.observationFromWire cell] }

end Buffers

namespace Loop

variable {w : CountWidth}

def fromParts (config : GossipConfig) (store : CellStore w) (aggregates : DashMapStore) :
    Loop w where
  runtime := .fromParts config store aggregates
  buffers := {
    recvBuf := List.replicate config.wireLimits.maxPayloadBytes 0
    obsBuf := []
    ackBuf := [] }

def handleLimitRequest (l : Loop w) (now : ℕ) (req : LimitRequest) : Loop w :=
  let r := l.runtime.noteHits now req
  let obsBuf := [req.observation w]
  let (store, sink) := r.store.ingestLocal obsBuf []
  { runtime := { r with store, sinkBuf := sink, pendingReply := req.reply }
    buffers := { l.buffers with obsBuf } }

/-- One step of the loop over `ack_buf`. -/
def ackEntry (peerSlot : ℕ) (s : CellStore w) (ack : NodeIdentity × ℕ) : CellStore w :=
  match s.nodeDictionary.find ack.1 with
  | none => s
  | some nodeSlot =>
    { s with peerFrontiers := s.peerFrontiers.recordAcked peerSlot nodeSlot ack.2 }

/-- `handle_inbound` on the first `n` bytes of `recv_buf`. -/
def handleInbound (env : Platform) (l : Loop w) (n : ℕ) (src : SocketAddr) : Loop w :=
  let b := { l.buffers with obsBuf := [], ackBuf := [] }
  let r := { l.runtime with sinkBuf := [] }
  let (cells, decoded) := r.decodeInbound env (b.recvBuf.take n)
  let b := cells.foldl Buffers.onCell b
  match decoded with
  | .error _ =>
    { runtime := { r with decodeRejectCount := min (r.decodeRejectCount + 1) u64Max }
      buffers := b }
  | .ok summary =>
    let (store, sink) := r.store.mergeRemote b.obsBuf r.sinkBuf
    let senderId := summary.header.senderNodeId
    match store.peerFrontiers.internPeer senderId with
    | (peerFrontiers, none) =>
      { runtime := { r with store := { store with peerFrontiers }, sinkBuf := sink }
        buffers := b }
    | (peerFrontiers, some peerSlot) =>
      { runtime := { r with
          store := b.ackBuf.foldl (ackEntry peerSlot) { store with peerFrontiers }
          sinkBuf := sink
          peers := Runtime.cachePeer src senderId peerSlot r.peers }
        buffers := b }

/-- The handler of an arm; the others do not touch the buffers. -/
def handle (env : Platform) (l : Loop w) (now : ℕ) : ArmOutcome → Option (Loop w)
  | .request (some (.limit req)) => some (l.handleLimitRequest now req)
  | .inbound (some (datagram, src)) =>
    let (b, n) := l.buffers.recvFrom datagram
    some (handleInbound env { l with buffers := b } n src)
  | arm => (l.runtime.handle env now arm).map fun r => { l with runtime := r }

def iteration (env : Platform) (l : Loop w) (now : ℕ) (arm : ArmOutcome) : Option (Loop w) :=
  if l.runtime.wantImmediateFlush then
    (l.runtime.iteration env now arm).map fun r => { l with runtime := r }
  else (l.handle env now arm).map fun l => { l with runtime := l.runtime.finish }

def run (env : Platform) : Loop w → List (ℕ × ArmOutcome) → Option (Loop w)
  | l, [] => some l
  | l, (now, arm) :: rest => (l.iteration env now arm).bind fun l => run env l rest

variable {env : Platform} {l l' : Loop w}

/-! ## Forgetting the buffers -/

theorem onCells (cells : List (Wire.WireCell w)) (b : Buffers w) :
    cells.foldl Buffers.onCell b = { b with
      ackBuf := b.ackBuf ++ cells.map fun c =>
        ({ nodeId := c.originNodeId, incarnation := c.originIncarnation }, c.originSequence)
      obsBuf := b.obsBuf ++ cells.map Runtime.observationFromWire } := by
  induction cells generalizing b with
  | nil => simp
  | cons c cs ih => simp [ih, Buffers.onCell]

/-- `recv_buf` is as long as the configuration says. -/
def Sized (l : Loop w) : Prop :=
  l.buffers.recvBuf.length = l.runtime.config.wireLimits.maxPayloadBytes

theorem recvFrom_take (b : Buffers w) (datagram : List UInt8) :
    (b.recvFrom datagram).1.recvBuf.take (b.recvFrom datagram).2 =
      datagram.take b.recvBuf.length := by
  simp [Buffers.recvFrom]

theorem recvFrom_length (b : Buffers w) (datagram : List UInt8) :
    (b.recvFrom datagram).1.recvBuf.length = b.recvBuf.length := by
  simp only [Buffers.recvFrom, List.length_append, List.length_take, List.length_drop]
  omega

/-- A handler that clears `obs_buf` and `ack_buf` first never reads what was left there. -/
theorem handleInbound_runtime (n : ℕ) (src : SocketAddr) :
    (l.handleInbound env n src).runtime =
      l.runtime.handleInbound env (l.buffers.recvBuf.take n) src := by
  unfold handleInbound Runtime.handleInbound
  have hdecode : Runtime.decodeInbound env { l.runtime with sinkBuf := [] }
      (l.buffers.recvBuf.take n) = l.runtime.decodeInbound env (l.buffers.recvBuf.take n) := rfl
  simp only [hdecode]
  rcases l.runtime.decodeInbound env (l.buffers.recvBuf.take n) with ⟨cells, e | summary⟩
  · rfl
  · simp only [onCells, List.nil_append]
    rcases (l.runtime.store.mergeRemote (cells.map Runtime.observationFromWire)
      []).1.peerFrontiers.internPeer summary.header.senderNodeId with ⟨frontiers, _ | slot⟩
    · rfl
    · simp only [List.foldl_map]
      rfl

theorem handle_runtime (hl : l.Sized) (now : ℕ) (arm : ArmOutcome) :
    (l.handle env now arm).map Loop.runtime = l.runtime.handle env now arm := by
  unfold handle
  split
  · rfl
  · rename_i datagram src
    simp only [Option.map_some, handleInbound_runtime, recvFrom_take, Runtime.handle]
    rw [hl]
  · cases l.runtime.handle env now arm <;> rfl

theorem iteration_runtime (env : Platform) (hl : l.Sized) (now : ℕ) (arm : ArmOutcome) :
    (l.iteration env now arm).map Loop.runtime = l.runtime.iteration env now arm := by
  unfold iteration
  split_ifs with hflush
  · cases l.runtime.iteration env now arm <;> rfl
  · rw [Runtime.iteration, if_neg hflush, ← handle_runtime hl, Option.map_map, Option.map_map]
    rfl

theorem handleInbound_recvBuf (l : Loop w) (n : ℕ) (src : SocketAddr) :
    (l.handleInbound env n src).buffers.recvBuf = l.buffers.recvBuf := by
  have hcells : ∀ (cells : List (Wire.WireCell w)) (b : Buffers w),
      (cells.foldl Buffers.onCell b).recvBuf = b.recvBuf := fun cells b => by rw [onCells]
  unfold handleInbound
  dsimp only
  split
  · exact hcells ..
  · split
    · exact hcells ..
    · exact hcells ..

theorem handle_recvBuf {now : ℕ} {arm : ArmOutcome} (h : l.handle env now arm = some l') :
    l'.buffers.recvBuf.length = l.buffers.recvBuf.length := by
  unfold handle at h
  split at h
  · cases h; rfl
  · rename_i datagram src
    cases h
    refine Eq.trans ?_ (recvFrom_length l.buffers datagram)
    exact congrArg List.length (handleInbound_recvBuf ..)
  · obtain ⟨r, -, rfl⟩ := Option.map_eq_some_iff.1 h
    rfl

theorem iteration_recvBuf {now : ℕ} {arm : ArmOutcome} (h : l.iteration env now arm = some l') :
    l'.buffers.recvBuf.length = l.buffers.recvBuf.length := by
  unfold iteration at h
  split_ifs at h
  · obtain ⟨r, -, rfl⟩ := Option.map_eq_some_iff.1 h
    rfl
  · obtain ⟨l₁, h₁, rfl⟩ := Option.map_eq_some_iff.1 h
    exact (handle_recvBuf h₁ :)

/-- **The state between iterations**, with its buffers. -/
structure Between (pins : ℕ → Bool) (l : Loop w) : Prop where
  runtime : l.runtime.Between pins
  sized : l.Sized

variable {pins : ℕ → Bool}

theorem Between.iteration {now : ℕ} {arm : ArmOutcome} (h : Between pins l)
    (hi : l.iteration env now arm = some l') : Between pins l' := by
  have hr : l.runtime.iteration env now arm = some l'.runtime := by
    rw [← iteration_runtime env h.sized, hi]
    rfl
  refine ⟨h.runtime.iteration hr, ?_⟩
  have hspec := Runtime.iteration_spec hr h.runtime.sinkBuf h.runtime.expirationBuf
  rw [Sized, hspec.config, iteration_recvBuf hi]
  exact h.sized

theorem between_fromParts {s : CellStore w} (h : s.toCellTable.Inv pins) (config : GossipConfig)
    (aggregates : DashMapStore) : Between pins (fromParts config s aggregates) :=
  ⟨Runtime.between_fromParts h config aggregates, List.length_replicate⟩

theorem Between.run : ∀ (arms : List (ℕ × ArmOutcome)) {l : Loop w}, Between pins l →
    l.run env arms = some l' → Between pins l'
  | [], _, h, hr => by cases hr; exact h
  | (now, arm) :: rest, _, h, hr => by
    obtain ⟨l₁, h₁, hr⟩ := Option.bind_eq_some_iff.1 hr
    exact Between.run rest (h.iteration h₁) hr

/-- **The buffers are never seen**: with or without them, a run has the same states. -/
theorem Between.run_runtime : ∀ (arms : List (ℕ × ArmOutcome)) {l : Loop w}, Between pins l →
    (l.run env arms).map Loop.runtime = l.runtime.run env arms
  | [], _, _ => rfl
  | (now, arm) :: rest, l, h => by
    rw [Loop.run, Runtime.run, ← iteration_runtime env h.sized]
    cases hi : l.iteration env now arm with
    | none => rfl
    | some l₁ => exact Between.run_runtime rest (h.iteration hi)

end Loop

/-! ## The reject counter is never read -/

namespace Runtime

variable {w : CountWidth} {env : Platform} {r : Runtime w}

def withRejects (r : Runtime w) (count : ℕ) : Runtime w := { r with decodeRejectCount := count }

theorem withRejects_ite {c : Prop} [Decidable c] (r r' : Runtime w) (count : ℕ) :
    (if c then r else r').withRejects count =
      if c then r.withRejects count else r'.withRejects count :=
  apply_ite (fun r : Runtime w => r.withRejects count) _ _ _

theorem noteHits_withRejects (count now : ℕ) (req : LimitRequest) :
    (r.withRejects count).noteHits now req = (r.noteHits now req).withRejects count := by
  simp only [noteHits, withRejects]
  split <;> rfl

theorem handleLimitRequest_withRejects (count now : ℕ) (req : LimitRequest) :
    (r.withRejects count).handleLimitRequest now req =
      (r.handleLimitRequest now req).withRejects count := by
  unfold handleLimitRequest
  rw [noteHits_withRejects]
  rfl

/-- Only a refused datagram touches the counter. -/
theorem handleInbound_withRejects (env : Platform) (r : Runtime w) (count : ℕ)
    (bytes : List UInt8) (src : SocketAddr) :
    ∃ count', (r.withRejects count).handleInbound env bytes src =
      (r.handleInbound env bytes src).withRejects count' := by
  have hdecode : (r.withRejects count).decodeInbound env bytes = r.decodeInbound env bytes := rfl
  unfold handleInbound
  rw [hdecode]
  rcases r.decodeInbound env bytes with ⟨cells, e | summary⟩
  · exact ⟨_, rfl⟩
  · refine ⟨count, ?_⟩
    simp only [withRejects]
    split <;> rfl

theorem handlePeerEvent_withRejects (count : ℕ) (evt : PeerEvent) :
    (r.withRejects count).handlePeerEvent evt = (r.handlePeerEvent evt).withRejects count := by
  cases evt with
  | added addr =>
    unfold handlePeerEvent
    rw [withRejects_ite]
    exact if_congr Iff.rfl rfl rfl
  | removed addr =>
    simp only [handlePeerEvent, withRejects]
    split
    · rfl
    · split <;> rfl

theorem drainOneSend_withRejects (count : ℕ) (result : SendResult) :
    (r.withRejects count).drainOneSend result =
      (r.drainOneSend result).map (·.withRejects count) := by
  simp only [drainOneSend, withRejects]
  split
  · rfl
  · split <;> rfl

theorem gossipTo_withRejects (count peerIdx : ℕ) :
    (r.withRejects count).gossipTo env peerIdx = (r.gossipTo env peerIdx).withRejects count := by
  unfold gossipTo
  rw [withRejects_ite]
  refine if_congr Iff.rfl rfl ?_
  rw [show (r.withRejects count).peers = r.peers from rfl]
  cases r.peers[peerIdx]? with
  | none => rfl
  | some peer =>
    dsimp only
    rw [withRejects_ite]
    refine if_congr Iff.rfl rfl ?_
    simp only [encodePacketsFor, headerTemplate, withRejects]
    split <;> rfl

theorem gossip_withRejects (count : ℕ) (peers : List ℕ) (r : Runtime w) :
    peers.foldl (gossipTo env) (r.withRejects count) =
      (peers.foldl (gossipTo env) r).withRejects count := by
  induction peers generalizing r with
  | nil => rfl
  | cons i is ih => rw [List.foldl_cons, List.foldl_cons, gossipTo_withRejects, ih]

theorem handleGossipTick_withRejects (count now : ℕ) :
    (r.withRejects count).handleGossipTick env now =
      (r.handleGossipTick env now).withRejects count := by
  have hexpire : (r.withRejects count).expireTick now = (r.expireTick now).withRejects count := rfl
  unfold handleGossipTick
  rw [hexpire]
  dsimp only
  generalize r.expireTick now = r₁
  have hpick : (r₁.withRejects count).pickPeers ((r₁.withRejects count).pickCount env) =
      (r₁.pickPeers (r₁.pickCount env)).withRejects count := rfl
  rw [hpick, gossip_withRejects]
  rw [withRejects_ite]
  exact if_congr Iff.rfl rfl rfl

theorem handle_withRejects (env : Platform) (r : Runtime w) (count now : ℕ) (arm : ArmOutcome) :
    ∃ count', (r.withRejects count).handle env now arm =
      (r.handle env now arm).map (·.withRejects count') := by
  cases arm with
  | request req =>
    rcases req with _ | (req | _)
    · exact ⟨count, rfl⟩
    · exact ⟨count, congrArg some (handleLimitRequest_withRejects count now req)⟩
    · exact ⟨count, rfl⟩
  | inbound recv =>
    rcases recv with _ | ⟨datagram, src⟩
    · exact ⟨count, rfl⟩
    · obtain ⟨count', h⟩ := handleInbound_withRejects env r count
        (datagram.take r.config.wireLimits.maxPayloadBytes) src
      exact ⟨count', congrArg some h⟩
  | writable result => exact ⟨count, drainOneSend_withRejects count result⟩
  | peerEvent evt =>
    rcases evt with _ | evt
    · exact ⟨count, rfl⟩
    · exact ⟨count, congrArg some (handlePeerEvent_withRejects count evt)⟩
  | admin => exact ⟨count, rfl⟩
  | tick => exact ⟨count, congrArg some (handleGossipTick_withRejects count now)⟩

theorem finish_withRejects (r : Runtime w) (count : ℕ) :
    (r.withRejects count).finish = r.finish.withRejects count := by
  unfold finish
  by_cases h : r.sinkBuf ≠ [] ∨ r.expirationBuf ≠ []
  · have h' : (r.withRejects count).sinkBuf ≠ [] ∨ (r.withRejects count).expirationBuf ≠ [] := h
    rw [if_pos h, if_pos h']
    rfl
  · have h' : ¬ ((r.withRejects count).sinkBuf ≠ [] ∨ (r.withRejects count).expirationBuf ≠ []) := h
    rw [if_neg h, if_neg h']
    rfl

theorem iteration_withRejects (env : Platform) (r : Runtime w) (count now : ℕ) (arm : ArmOutcome) :
    ∃ count', (r.withRejects count).iteration env now arm =
      (r.iteration env now arm).map (·.withRejects count') := by
  by_cases hflush : r.wantImmediateFlush = true
  · refine ⟨count, ?_⟩
    have hr : (r.withRejects count).wantImmediateFlush = true := hflush
    rw [iteration, iteration, if_pos hr, if_pos hflush]
    refine congrArg some ?_
    dsimp only
    rw [← finish_withRejects, ← handleGossipTick_withRejects]
    rfl
  · obtain ⟨count', h⟩ := handle_withRejects env r count now arm
    have hr : ¬ (r.withRejects count).wantImmediateFlush = true := hflush
    refine ⟨count', ?_⟩
    rw [iteration, iteration, if_neg hr, if_neg hflush, h, Option.map_map, Option.map_map]
    exact congrArg (Option.map · _) (funext fun r => finish_withRejects r count')

theorem run_withRejects (env : Platform) : ∀ (arms : List (ℕ × ArmOutcome)) (r : Runtime w) (count : ℕ),
    ∃ count', (r.withRejects count).run env arms = (r.run env arms).map (·.withRejects count')
  | [], _, count => ⟨count, rfl⟩
  | (now, arm) :: rest, r, count => by
    obtain ⟨count₁, h₁⟩ := iteration_withRejects env r count now arm
    cases hi : r.iteration env now arm with
    | none =>
      refine ⟨count, ?_⟩
      rw [run, run, h₁, hi]
      rfl
    | some r₁ =>
      obtain ⟨count', h'⟩ := run_withRejects env rest r₁ count₁
      refine ⟨count', ?_⟩
      rw [run, run, h₁, hi]
      exact h'

/-- The decoder refuses the bytes. -/
def Refuses (env : Platform) (r : Runtime w) (bytes : List UInt8) : Prop :=
  ∃ e, (r.decodeInbound env bytes).2 = .error e

/-- Nothing waits for the end of an iteration. -/
theorem Between.finish_eq {pins : ℕ → Bool} (hb : Between pins r) : r.finish = r := by
  have hreply := hb.pendingReply
  have hdepth := max_eq_left hb.depth
  unfold finish
  rw [if_neg (by simp [hb.sinkBuf, hb.expirationBuf])]
  cases r
  dsimp only at hreply hdepth
  simp [hreply, hdepth]

/-- Between iterations, a refused datagram is counted and nothing else. -/
theorem iteration_refused {pins : ℕ → Bool} (hb : Between pins r)
    (hflush : r.wantImmediateFlush = false) {datagram : List UInt8} (src : SocketAddr) (now : ℕ)
    (href : r.Refuses env (datagram.take r.config.wireLimits.maxPayloadBytes)) :
    r.iteration env now (.inbound (some (datagram, src))) =
      some (r.withRejects (min (r.decodeRejectCount + 1) u64Max)) := by
  have hhandled : r.handleInbound env (datagram.take r.config.wireLimits.maxPayloadBytes) src =
      r.withRejects (min (r.decodeRejectCount + 1) u64Max) := by
    unfold Refuses at href
    unfold handleInbound
    generalize r.decodeInbound env (datagram.take r.config.wireLimits.maxPayloadBytes) = decoded at *
    obtain ⟨e, he⟩ := href
    rcases decoded with ⟨cells, e' | summary⟩
    · rw [← hb.sinkBuf]
      rfl
    · cases he
  rw [iteration, if_neg (by rw [hflush]; exact Bool.false_ne_true), handle, hhandled, Option.map_some,
    finish_withRejects, hb.finish_eq]

end Runtime

namespace Loop

variable {w : CountWidth}

/-- **Refused datagrams have no effect.**  Rules are registered, then the loop runs on any
    arms, with or without a key.  An iteration that handles a datagram the decoder refuses
    moves the reject counter and nothing else, however many of its cells the visitor has
    seen; and every continuation gives the same states as without the datagram, up to that
    counter. -/
theorem refused_datagram_no_effect (env : Platform) {config : CellStoreConfig} {id : NodeIdentity}
    {s₀ : CellStore w} (hnew : CellStore.new w config id = some s₀) (rules : List RuleDescriptor)
    (gossip : GossipConfig) (arms : List (ℕ × ArmOutcome)) {l : Loop w}
    (hrun : (fromParts gossip (s₀.internRules rules) .empty).run env arms = some l)
    (hflush : l.runtime.wantImmediateFlush = false) (now : ℕ) (datagram : List UInt8)
    (src : SocketAddr)
    (href : l.runtime.Refuses env
      (datagram.take l.runtime.config.wireLimits.maxPayloadBytes)) :
    ∃ l', l.iteration env now (.inbound (some (datagram, src))) = some l' ∧
      l'.runtime = { l.runtime with
        decodeRejectCount := min (l.runtime.decodeRejectCount + 1) u64Max } ∧
      ∀ rest, ∃ count, (l'.run env rest).map Loop.runtime =
        (l.run env rest).map fun m => { m.runtime with decodeRejectCount := count } := by
  obtain ⟨pins, hreg⟩ := CellStore.internRules_registering hnew rules
  have hb : Between pins l := (between_fromParts hreg.inv gossip .empty).run arms hrun
  have hruntime := iteration_runtime env hb.sized now (.inbound (some (datagram, src)))
  rw [Runtime.iteration_refused hb.runtime hflush src now href] at hruntime
  obtain ⟨l', hit, hl'⟩ := Option.map_eq_some_iff.1 hruntime
  refine ⟨l', hit, hl', fun rest => ?_⟩
  obtain ⟨count, hcount⟩ := Runtime.run_withRejects env rest l.runtime
    (min (l.runtime.decodeRejectCount + 1) u64Max)
  refine ⟨count, ?_⟩
  rw [(hb.iteration hit).run_runtime, hl', hcount, ← hb.run_runtime, Option.map_map]
  rfl

/-! ### A refused prefix -/

/-- Hits on two keys, the second after the first packet has been sent. -/
def twoKeysArms : List (ℕ × ArmOutcome) :=
  [(5000, .request (some (.limit Runtime.tinyRequest))), (5001, .admin), (5002, .writable .ok),
    (5003, .request (some (.limit { Runtime.tinyRequest with keyHash := 4 }))), (5004, .tick),
    (5005, .writable .ok)]

/-- The last packet of node 2, with the node slot of its second cell out of range. -/
def badSlotPacket : Option (List UInt8) := do
  let s₀ ← CellStore.new .u32 CellStore.tinyConfig { nodeId := 2, incarnation := 1 }
  let r ← (Runtime.fromParts Runtime.tinyGossip (s₀.internRules [Runtime.tinyRule]) .empty).run
    Runtime.tinyPlatform twoKeysArms
  r.sent.head?.map fun p => p.2.set 149 9

/-- One cell was visited and stays in `obs_buf`; the counter moved. -/
theorem refused_datagram_badSlot : ∃ (s₀ : CellStore .u32) (l l' : Loop .u32)
    (datagram : List UInt8),
    CellStore.new .u32 CellStore.tinyConfig CellStore.tinyNode = some s₀ ∧
      badSlotPacket = some datagram ∧
      (fromParts Runtime.tinyGossip (s₀.internRules [Runtime.tinyRule]) .empty).run
        Runtime.tinyPlatform [] = some l ∧
      l.runtime.Refuses Runtime.tinyPlatform
        (datagram.take l.runtime.config.wireLimits.maxPayloadBytes) ∧
      l.iteration Runtime.tinyPlatform 5000
        (.inbound (some (datagram, { ip := 2, port := 7000 }))) = some l' ∧
      l'.buffers.obsBuf.length = 1 ∧ l'.runtime = { l.runtime with decodeRejectCount := 1 } := by
  have heval : (badSlotPacket.bind fun datagram =>
        ((fromParts Runtime.tinyGossip (tinyStore.internRules [Runtime.tinyRule]) .empty).run
          Runtime.tinyPlatform []).bind fun l =>
          (l.iteration Runtime.tinyPlatform 5000
            (.inbound (some (datagram, { ip := 2, port := 7000 })))).map fun l' =>
              (l.runtime.wantImmediateFlush, l.runtime.decodeRejectCount,
                (l.runtime.decodeInbound Runtime.tinyPlatform
                  (datagram.take l.runtime.config.wireLimits.maxPayloadBytes)).2.toBool,
                l'.buffers.obsBuf.length)) = some (false, 0, false, 1) := by
    decide +kernel
  obtain ⟨datagram, hpacket, hrest⟩ := Option.bind_eq_some_iff.1 heval
  obtain ⟨l, hrun, hrest⟩ := Option.bind_eq_some_iff.1 hrest
  obtain ⟨l', hit, hvals⟩ := Option.map_eq_some_iff.1 hrest
  simp only [Prod.mk.injEq] at hvals
  obtain ⟨hflush, hcount, hdecode, hobs⟩ := hvals
  have href : l.runtime.Refuses Runtime.tinyPlatform
      (datagram.take l.runtime.config.wireLimits.maxPayloadBytes) := by
    unfold Runtime.Refuses
    generalize (l.runtime.decodeInbound Runtime.tinyPlatform
      (datagram.take l.runtime.config.wireLimits.maxPayloadBytes)).2 = decoded at *
    cases decoded with
    | error e => exact ⟨e, rfl⟩
    | ok summary => cases hdecode
  obtain ⟨l₁, hit₁, hl₁, -⟩ := refused_datagram_no_effect Runtime.tinyPlatform tinyStore_new
    [Runtime.tinyRule] Runtime.tinyGossip [] hrun hflush 5000 datagram { ip := 2, port := 7000 } href
  cases hit.symm.trans hit₁
  refine ⟨tinyStore, l, l', datagram, tinyStore_new, hpacket, hrun, href, hit, hobs, ?_⟩
  rw [hl₁, hcount]
  rfl

end Loop

end Gabion

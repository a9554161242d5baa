/-
  What one iteration of the runtime loop does.

  Seen from the cell table, an iteration is at most one store call (`tableCall`): a limit
  request ingests one row, a decoded datagram merges its rows, a tick expires.  The rest of
  an iteration composes frames, encodes packets and keeps frontiers and counters.
  `iteration_spec` says this once for all arms, `iteration_follows` lists the store calls of
  the rest.
-/
import Gabion.Runtime

namespace Gabion

open Function

/-- The sink rows a store call emits. -/
def CellStore.callRows {w : CountWidth} (s : CellStore w) :
    StoreCall w → List CellDelta × List CellExpiration
  | .ingestLocal obs => ((s.ingestLocal obs []).2, [])
  | .mergeRemote obs => ((s.mergeRemote obs []).2, [])
  | .expire cur live => ([], (s.expire cur live []).2)
  | .expireAt now => ([], (s.expireAt now []).2)
  | _ => ([], [])

namespace Runtime

variable {w : CountWidth} {env : Platform} {r r' : Runtime w}

/-- The arm an iteration serves: a wanted flush fires the tick. -/
def firedArm (r : Runtime w) (arm : ArmOutcome) : ArmOutcome :=
  if r.wantImmediateFlush then .tick else arm

/-- The store call an arm makes on the cell table. -/
def tableCall (env : Platform) (r : Runtime w) (now : ℕ) : ArmOutcome → Option (StoreCall w)
  | .request (some (.limit req)) => some (.ingestLocal [req.observation w])
  | .inbound (some (datagram, _)) =>
    match r.decodeInbound env (datagram.take r.config.wireLimits.maxPayloadBytes) with
    | (_, .error _) => none
    | (cells, .ok _) => some (.mergeRemote (cells.map observationFromWire))
  | .tick => some (.expireAt now)
  | _ => none

/-- The calls the loop makes on the cell table. -/
inductive LoopCall : Option (StoreCall w) → Prop
  | none : LoopCall none
  | ingestLocal (obs : List (Observation w)) : LoopCall (some (.ingestLocal obs))
  | mergeRemote (obs : List (Observation w)) : LoopCall (some (.mergeRemote obs))
  | expireAt (now : ℕ) : LoopCall (some (.expireAt now))

theorem tableCall_loopCall (env : Platform) (r : Runtime w) (now : ℕ) (arm : ArmOutcome) :
    LoopCall (r.tableCall env now arm) := by
  unfold tableCall
  split
  · exact .ingestLocal _
  · split
    · exact .none
    · exact .mergeRemote _
  · exact .expireAt _
  · exact .none

/-- The store after the call. -/
def storeAfter (r : Runtime w) (call : Option (StoreCall w)) : CellStore w :=
  call.elim r.store r.store.call

/-- The rows the call emits. -/
def rowsOf (r : Runtime w) (call : Option (StoreCall w)) : List CellDelta × List CellExpiration :=
  call.elim ([], []) r.store.callRows

/-- A buffer that holds what it held before, or what the encoder wrote for this table. -/
def Buffered (mac : Wire.Mac) (t : CellTable w) (pool pool' : ℕ → List UInt8) : Prop :=
  ∀ slot, pool' slot = pool slot ∨
    ∃ packets : Wire.Packets, pool' slot = (packets.nextInto mac t).2.1

theorem Buffered.refl {mac : Wire.Mac} {t : CellTable w} {pool : ℕ → List UInt8} :
    Buffered mac t pool pool := fun _ => .inl rfl

theorem Buffered.trans {mac : Wire.Mac} {t : CellTable w} {p₁ p₂ p₃ : ℕ → List UInt8}
    (h : Buffered mac t p₁ p₂) (h' : Buffered mac t p₂ p₃) : Buffered mac t p₁ p₃ := by
  intro slot
  rcases h' slot with h2 | h2
  · rw [h2]; exact h slot
  · exact .inr h2

/-! ## Steps that leave cells and rows alone -/

/-- What sending frames does: buffers are filled, nothing else a reader of the store or of
    the aggregates can see. -/
structure Quiet (env : Platform) (r r' : Runtime w) : Prop where
  table : r'.store.toCellTable = r.store.toCellTable
  aggregates : r'.aggregates = r.aggregates
  sinkBuf : r'.sinkBuf = r.sinkBuf
  expirationBuf : r'.expirationBuf = r.expirationBuf
  config : r'.config = r.config
  sent : r'.sent = r.sent
  pool : Buffered env.mac r.store.toCellTable r.sendPool r'.sendPool

theorem Quiet.refl (r : Runtime w) : Quiet env r r := ⟨rfl, rfl, rfl, rfl, rfl, rfl, .refl⟩

theorem Quiet.trans {r₁ r₂ : Runtime w} (h : Quiet env r r₁) (h' : Quiet env r₁ r₂) :
    Quiet env r r₂ :=
  ⟨h'.1.trans h.1, h'.2.trans h.2, h'.3.trans h.3, h'.4.trans h.4, h'.5.trans h.5,
    h'.6.trans h.6, h.pool.trans (h.table ▸ h'.pool)⟩

theorem packetLoop_pool (mac : Wire.Mac) (s : CellTable w) (dst : SocketAddr) (free : List ℕ) :
    ∀ packets pool pending,
      Buffered mac s pool (packetLoop mac s dst free packets pool pending).2.1 := by
  induction free with
  | nil => intro _ pool _; exact .refl
  | cons slot free ih =>
    intro packets pool pending
    -- the popped buffer receives what `next_into` wrote, also when it wrote no packet
    have hone : Buffered mac s pool (update pool slot (packets.nextInto mac s).2.1) := by
      intro x
      by_cases hx : x = slot
      · exact .inr ⟨packets, by rw [hx, update_self]⟩
      · exact .inl (update_of_ne hx _ _)
    unfold packetLoop
    split
    · rename_i packets' buf _ heq
      have hbuf : (packets.nextInto mac s).2.1 = buf := by rw [heq]
      rw [← hbuf]
      exact hone.trans (ih _ _ _)
    · rename_i buf _ _ heq
      have hbuf : (packets.nextInto mac s).2.1 = buf := by rw [heq]
      rw [← hbuf]
      exact hone

theorem encodePacketsFor_quiet (r : Runtime w) (dst : SocketAddr) (handles : List CellHandle) :
    Quiet env r (r.encodePacketsFor env dst handles) := by
  unfold encodePacketsFor
  split
  · exact .refl r
  · exact ⟨rfl, rfl, rfl, rfl, rfl, rfl, packetLoop_pool _ _ _ _ _ _ _⟩

/-- **Induction over the peer loop of a tick**: what composing a frame and encoding its packets
    keep, the loop keeps. -/
theorem gossip_induct {R : Runtime w → Runtime w → Prop} (hrefl : ∀ r, R r r)
    (htrans : ∀ {r₁ r₂ r₃}, R r₁ r₂ → R r₂ r₃ → R r₁ r₃)
    (hfill : ∀ (r : Runtime w) maxCells dest,
      R r { r with store := (r.store.fillFrameFor maxCells dest).1 })
    (hencode : ∀ (r : Runtime w) dst handles, R r (r.encodePacketsFor env dst handles))
    (peers : List ℕ) (r : Runtime w) : R r (peers.foldl (gossipTo env) r) := by
  induction peers generalizing r with
  | nil => exact hrefl r
  | cons i is ih =>
    refine htrans ?_ (ih _)
    unfold gossipTo
    split_ifs
    · exact hrefl r
    split
    · exact hrefl r
    · rename_i peer _
      dsimp only
      split_ifs
      · exact hfill r _ peer.peerSlot
      · exact htrans (hfill r _ peer.peerSlot) (hencode ..)

theorem gossip_quiet (r : Runtime w) (peers : List ℕ) :
    Quiet env r (peers.foldl (gossipTo env) r) := by
  refine gossip_induct .refl .trans (fun r maxCells dest => ?_) encodePacketsFor_quiet peers r
  refine ⟨?_, rfl, rfl, rfl, rfl, rfl, .refl⟩
  rw [CellStore.fillFrameFor_eq]
  exact (CellStore.sameData_fillFrame r.store _ _).table

theorem ackCells_table (peerSlot : ℕ) (cells : List (Wire.WireCell w)) (s : CellStore w) :
    (cells.foldl (ackCell peerSlot) s).toCellTable = s.toCellTable := by
  induction cells generalizing s with
  | nil => rfl
  | cons c cs ih =>
    rw [List.foldl_cons, ih]
    unfold ackCell
    split <;> rfl

/-! ## Handlers -/

/-- What a handler does that amounts to `call`. -/
structure Handled (env : Platform) (r : Runtime w) (call : Option (StoreCall w)) (r' : Runtime w) :
    Prop where
  table : r'.store.toCellTable = (r.storeAfter call).toCellTable
  aggregates : r'.aggregates = r.aggregates
  sinkBuf : r'.sinkBuf = (r.rowsOf call).1
  expirationBuf : r'.expirationBuf = (r.rowsOf call).2
  config : r'.config = r.config
  sent : ∀ p ∈ r'.sent, p ∈ r.sent ∨ ∃ slot, p.2 = r.sendPool slot
  pool : Buffered env.mac r'.store.toCellTable r.sendPool r'.sendPool

/-- A step that only sends frames after a handler. -/
theorem Handled.quiet {call : Option (StoreCall w)} {r₁ : Runtime w} (h : Handled env r call r₁)
    (hq : Quiet env r₁ r') : Handled env r call r' := by
  refine ⟨hq.table.trans h.table, hq.aggregates.trans h.aggregates, hq.sinkBuf.trans h.sinkBuf,
    hq.expirationBuf.trans h.expirationBuf, hq.config.trans h.config, ?_, ?_⟩
  · rw [hq.sent]; exact h.sent
  · rw [hq.table]; exact h.pool.trans hq.pool

/-- A handler that touches no cell. -/
theorem Handled.idle (ht : r'.store.toCellTable = r.store.toCellTable)
    (ha : r'.aggregates = r.aggregates) (hs : r'.sinkBuf = []) (he : r'.expirationBuf = [])
    (hc : r'.config = r.config) (hsent : ∀ p ∈ r'.sent, p ∈ r.sent ∨ ∃ slot, p.2 = r.sendPool slot)
    (hpool : r'.sendPool = r.sendPool) : Handled env r none r' :=
  ⟨ht, ha, hs, he, hc, hsent, fun _ => .inl (by rw [hpool])⟩

/-- The error-budget check only touches its own counters. -/
theorem noteHits_cases (r : Runtime w) (now : ℕ) (req : LimitRequest) :
    ∃ pending budget flush, r.noteHits now req = { r with
      rulePending := pending, lastErrorBudget := budget, wantImmediateFlush := flush } := by
  unfold noteHits
  split
  · exact ⟨_, _, _, rfl⟩
  · exact ⟨_, _, _, rfl⟩

theorem handleLimitRequest_spec (hs : r.expirationBuf = []) (now : ℕ) (req : LimitRequest) :
    Handled env r (some (.ingestLocal [req.observation w])) (r.handleLimitRequest now req) := by
  obtain ⟨pending, budget, flush, hnote⟩ := r.noteHits_cases now req
  unfold handleLimitRequest
  rw [hnote]
  exact ⟨rfl, rfl, rfl, hs, rfl, fun _ hp => .inl hp, .refl⟩

theorem handleInbound_spec (he : r.expirationBuf = []) (now : ℕ) (datagram : List UInt8)
    (src : SocketAddr) :
    Handled env r (r.tableCall env now (.inbound (some (datagram, src))))
      (r.handleInbound env (datagram.take r.config.wireLimits.maxPayloadBytes) src) := by
  unfold handleInbound tableCall
  dsimp only
  generalize r.decodeInbound env (datagram.take r.config.wireLimits.maxPayloadBytes) = decoded
  obtain ⟨cells, e | summary⟩ := decoded
  · exact .idle rfl rfl rfl he rfl (fun _ hp => .inl hp) rfl
  · dsimp only
    split
    · exact ⟨rfl, rfl, rfl, he, rfl, fun _ hp => .inl hp, .refl⟩
    · exact ⟨ackCells_table .., rfl, rfl, he, rfl, fun _ hp => .inl hp, .refl⟩

theorem handlePeerEvent_spec (hs : r.sinkBuf = []) (he : r.expirationBuf = []) (evt : PeerEvent) :
    Handled env r none (r.handlePeerEvent evt) := by
  have hidle : ∀ (peers : List Peer) (frontiers : PeerFrontierTable), Handled env r none
      { r with peers, store := { r.store with peerFrontiers := frontiers } } := fun _ _ =>
    .idle rfl rfl hs he rfl (fun _ hp => .inl hp) rfl
  cases evt with
  | added addr =>
    simp only [handlePeerEvent]
    split_ifs
    · exact hidle r.peers r.store.peerFrontiers
    · exact hidle _ r.store.peerFrontiers
  | removed addr =>
    simp only [handlePeerEvent]
    split
    · exact hidle r.peers r.store.peerFrontiers
    · split
      · exact hidle _ r.store.peerFrontiers
      · exact hidle _ _

theorem drainOneSend_spec {result : SendResult} (h : r.drainOneSend result = some r')
    (hs : r.sinkBuf = []) (he : r.expirationBuf = []) : Handled env r none r' := by
  have hidle : Handled env r none r := .idle rfl rfl hs he rfl (fun _ hp => .inl hp) rfl
  unfold drainOneSend at h
  split at h
  · cases h; exact hidle
  · rename_i dst slot rest _
    split at h
    · cases h
      refine .idle rfl rfl hs he rfl (fun p hp => ?_) rfl
      rcases List.mem_cons.1 hp with rfl | hp
      · exact .inr ⟨slot, rfl⟩
      · exact .inl hp
    · cases h; exact hidle
    · cases h

theorem handleGossipTick_spec (hs : r.sinkBuf = []) (now : ℕ) :
    Handled env r (some (.expireAt now)) (r.handleGossipTick env now) := by
  have hexpire : Handled env r (some (.expireAt now)) (r.expireTick now) :=
    ⟨rfl, rfl, hs, rfl, rfl, fun _ hp => .inl hp, .refl⟩
  unfold handleGossipTick
  dsimp only
  split_ifs with hidle
  · exact hexpire
  · -- shuffling, sending and resetting the pending hits leave cells and rows alone
    have hpick : ∀ (r : Runtime w) n, Quiet env r (r.pickPeers n) := fun r n =>
      ⟨rfl, rfl, rfl, rfl, rfl, rfl, .refl⟩
    have hreset : ∀ r : Runtime w, Quiet env r (r.resetPending now) := fun r =>
      ⟨rfl, rfl, rfl, rfl, rfl, rfl, .refl⟩
    exact hexpire.quiet (((hpick _ _).trans (gossip_quiet _ _)).trans (hreset _))

theorem handle_spec {now : ℕ} {arm : ArmOutcome} (h : r.handle env now arm = some r')
    (hs : r.sinkBuf = []) (he : r.expirationBuf = []) :
    Handled env r (r.tableCall env now arm) r' := by
  have hidle : Handled env r none r := .idle rfl rfl hs he rfl (fun _ hp => .inl hp) rfl
  cases arm with
  | request req =>
    rcases req with _ | (req | _)
    · cases h
    · cases h; exact handleLimitRequest_spec he now req
    · cases h
  | inbound recv =>
    rcases recv with _ | ⟨datagram, src⟩
    · cases h
    · cases h; exact handleInbound_spec he now datagram src
  | writable result => exact drainOneSend_spec h hs he
  | peerEvent evt =>
    rcases evt with _ | evt
    · cases h; exact hidle
    · cases h; exact handlePeerEvent_spec hs he evt
  | admin => cases h; exact hidle
  | tick => cases h; exact handleGossipTick_spec hs now

/-! ## Iterations -/

/-- **What an iteration does**: the store call of the fired arm, whose rows go to the
    aggregates. -/
structure Iterated (env : Platform) (r : Runtime w) (call : Option (StoreCall w)) (r' : Runtime w) :
    Prop where
  table : r'.store.toCellTable = (r.storeAfter call).toCellTable
  aggregates : r'.aggregates = r.aggregates.apply (r.rowsOf call).1 (r.rowsOf call).2
  sinkBuf : r'.sinkBuf = []
  expirationBuf : r'.expirationBuf = []
  config : r'.config = r.config
  sent : ∀ p ∈ r'.sent, p ∈ r.sent ∨ ∃ slot, p.2 = r.sendPool slot
  pool : Buffered env.mac r'.store.toCellTable r.sendPool r'.sendPool

theorem Handled.finish {call : Option (StoreCall w)} (h : Handled env r call r') :
    Iterated env r call r'.finish := by
  unfold Runtime.finish
  dsimp only
  split_ifs with hne
  · refine ⟨h.table, ?_, rfl, rfl, h.config, h.sent, h.pool⟩
    rw [← h.sinkBuf, ← h.expirationBuf, ← h.aggregates]
  · push Not at hne
    refine ⟨h.table, ?_, hne.1, hne.2, h.config, h.sent, h.pool⟩
    rw [← h.sinkBuf, ← h.expirationBuf, hne.1, hne.2]
    exact h.aggregates

/-- An iteration up to its end. -/
def handled (env : Platform) (r : Runtime w) (now : ℕ) (arm : ArmOutcome) : Option (Runtime w) :=
  if r.wantImmediateFlush then
    let r := { r with
      wantImmediateFlush := false
      thresholdFires := min (r.thresholdFires + 1) u64Max }
    some (r.handleGossipTick env now)
  else r.handle env now arm

theorem iteration_eq (r : Runtime w) (now : ℕ) (arm : ArmOutcome) :
    r.iteration env now arm = (r.handled env now arm).map finish := by
  unfold iteration handled
  split_ifs <;> rfl

theorem handled_spec {now : ℕ} {arm : ArmOutcome} (h : r.handled env now arm = some r')
    (hs : r.sinkBuf = []) (he : r.expirationBuf = []) :
    Handled env r (r.tableCall env now (r.firedArm arm)) r' := by
  unfold handled at h
  unfold firedArm
  split_ifs at h ⊢ with hflush
  · cases h
    -- the flush flag is not read by the tick
    have htick : Handled env _ _ _ := handleGossipTick_spec (r := { r with
      wantImmediateFlush := false, thresholdFires := min (r.thresholdFires + 1) u64Max }) hs now
    exact ⟨htick.1, htick.2, htick.3, htick.4, htick.5, htick.6, htick.7⟩
  · exact handle_spec h hs he

theorem iteration_spec {now : ℕ} {arm : ArmOutcome} (h : r.iteration env now arm = some r')
    (hs : r.sinkBuf = []) (he : r.expirationBuf = []) :
    Iterated env r (r.tableCall env now (r.firedArm arm)) r' := by
  rw [iteration_eq] at h
  obtain ⟨r₁, h₁, rfl⟩ := Option.map_eq_some_iff.1 h
  exact (handled_spec h₁ hs he).finish

/-! ## Runs -/

/-- **Induction over runs**: what every iteration keeps holds along a run. -/
theorem run_induct {P : Runtime w → Prop}
    (hstep : ∀ {r r' : Runtime w} {now arm}, P r → r.iteration env now arm = some r' → P r') :
    ∀ (arms : List (ℕ × ArmOutcome)) {r : Runtime w}, P r → r.run env arms = some r' → P r'
  | [], _, h, hr => by cases hr; exact h
  | (now, arm) :: rest, _, h, hr => by
    obtain ⟨r₁, h₁, hr⟩ := Option.bind_eq_some_iff.1 hr
    exact run_induct hstep rest (hstep h h₁) hr

/-- **The state between iterations**: the table is sound, nothing waits for the end of an
    iteration. -/
structure Between (pins : ℕ → Bool) (r : Runtime w) : Prop where
  inv : r.store.toCellTable.Inv pins
  sinkBuf : r.sinkBuf = []
  expirationBuf : r.expirationBuf = []
  pendingReply : r.pendingReply = none
  depth : r.sendPending.length ≤ r.maxSendPendingDepth

variable {pins : ℕ → Bool}

theorem between_fromParts {s : CellStore w} (h : s.toCellTable.Inv pins) (config : GossipConfig)
    (aggregates : DashMapStore) : Between pins (fromParts config s aggregates) :=
  ⟨h, rfl, rfl, rfl, le_refl 0⟩

theorem storeAfter_inv (h : r.store.toCellTable.Inv pins) {call : Option (StoreCall w)}
    (hcall : LoopCall call) : (r.storeAfter call).toCellTable.Inv pins := by
  cases hcall with
  | none => exact h
  | ingestLocal obs => exact (CellStore.ingestLocal_step h obs []).inv
  | mergeRemote obs => exact (CellStore.mergeRemote_step h obs []).inv
  | expireAt now => exact (CellStore.expire_spec h _ _ []).1.inv

/-- An iteration ends with `finish`. -/
theorem iteration_finish {now : ℕ} {arm : ArmOutcome} (h : r.iteration env now arm = some r') :
    ∃ r₁ : Runtime w, r' = r₁.finish := by
  rw [iteration_eq] at h
  obtain ⟨r₁, -, rfl⟩ := Option.map_eq_some_iff.1 h
  exact ⟨r₁, rfl⟩

theorem Between.iteration {now : ℕ} {arm : ArmOutcome} (h : Between pins r)
    (hi : r.iteration env now arm = some r') : Between pins r' := by
  have hspec := iteration_spec hi h.sinkBuf h.expirationBuf
  refine ⟨?_, hspec.sinkBuf, hspec.expirationBuf, ?_, ?_⟩
  · rw [hspec.table]
    exact storeAfter_inv h.inv (tableCall_loopCall ..)
  · obtain ⟨r₁, rfl⟩ := iteration_finish hi
    rfl
  · obtain ⟨r₁, rfl⟩ := iteration_finish hi
    unfold finish
    dsimp only
    split_ifs
    · exact le_max_right _ _
    · exact le_max_right _ _

theorem Between.run {arms : List (ℕ × ArmOutcome)} (h : Between pins r)
    (hr : r.run env arms = some r') : Between pins r' :=
  run_induct (fun h hi => h.iteration hi) arms h hr

theorem Between.run_config {arms : List (ℕ × ArmOutcome)} (h : Between pins r)
    (hr : r.run env arms = some r') : r'.config = r.config :=
  (run_induct (P := fun r' => Between pins r' ∧ r'.config = r.config)
    (fun h hi => ⟨h.1.iteration hi,
      (iteration_spec hi h.1.sinkBuf h.1.expirationBuf).config.trans h.2⟩) arms ⟨h, rfl⟩ hr).2

end Runtime

/-! ## The loop makes store calls and nothing else -/

namespace CellStore

variable {w : CountWidth} {s s₁ s₂ t : CellStore w} {c : StoreCall w}

/-- `s'` comes from `s` by store calls. -/
def LeadsTo (s s' : CellStore w) : Prop := ∃ calls, s' = s.run calls

theorem LeadsTo.call (s : CellStore w) (c : StoreCall w) : LeadsTo s (s.call c) := ⟨[c], rfl⟩

theorem LeadsTo.trans (h : LeadsTo s s₁) (h' : LeadsTo s₁ s₂) : LeadsTo s s₂ := by
  obtain ⟨calls, rfl⟩ := h
  obtain ⟨calls', rfl⟩ := h'
  exact ⟨calls ++ calls', (CellStore.run_append ..).symm⟩

theorem LeadsTo.reachable (h : LeadsTo s s₁) (hs : s.Reachable) : s₁.Reachable := by
  obtain ⟨calls, rfl⟩ := h
  exact hs.run calls

/-- The calls that follow the table call of an iteration, which leaves the store `s`: frames,
    peers that come and go, and acknowledgements for identities the dictionary finds. -/
inductive FollowUp (s : CellStore w) : StoreCall w → Prop
  | fillFrame (maxCells : ℕ) (dest : Option ℕ) : FollowUp s (.fillFrame maxCells dest)
  | internPeer (peer : NodeId) : FollowUp s (.frontier (.internPeer peer))
  | removePeer (peer : NodeId) : FollowUp s (.frontier (.removePeer peer))
  | recordAcked {id : NodeIdentity} {nodeSlot : ℕ} (peerSlot sequence : ℕ)
      (hfind : s.nodeDictionary.find id = some nodeSlot) :
      FollowUp s (.frontier (.recordAcked peerSlot nodeSlot sequence))

theorem FollowUp.table (h : FollowUp s c) (t : CellStore w) :
    (t.call c).toCellTable = t.toCellTable := by
  cases h with
  | fillFrame maxCells dest =>
    show (t.fillFrameFor maxCells dest).1.toCellTable = t.toCellTable
    rw [fillFrameFor_eq]
    exact (sameData_fillFrame t _ _).table
  | _ => rfl

theorem FollowUp.congr (ht : t.toCellTable = s.toCellTable) (h : FollowUp t c) : FollowUp s c := by
  cases h with
  | fillFrame maxCells dest => exact .fillFrame maxCells dest
  | internPeer peer => exact .internPeer peer
  | removePeer peer => exact .removePeer peer
  | recordAcked peerSlot sequence hfind =>
    rw [ht] at hfind
    exact .recordAcked peerSlot sequence hfind

/-- `s'` comes from `s` by calls of this kind. -/
def FollowedBy (s s' : CellStore w) : Prop := ∃ calls, s' = s.run calls ∧ ∀ c ∈ calls, FollowUp s c

namespace FollowedBy

theorem refl (s : CellStore w) : FollowedBy s s := ⟨[], rfl, fun _ hc => by cases hc⟩

theorem call (h : FollowUp s c) : FollowedBy s (s.call c) :=
  ⟨[c], rfl, fun _ hc => List.mem_singleton.1 hc ▸ h⟩

theorem leadsTo (h : FollowedBy s s₁) : LeadsTo s s₁ := by
  obtain ⟨calls, h, -⟩ := h
  exact ⟨calls, h⟩

/-- What such calls keep, on stores with the same table. -/
theorem induct {P : CellStore w → Prop} (h : FollowedBy s s₁) (hs : P s)
    (hstep : ∀ t c, t.toCellTable = s.toCellTable → FollowUp s c → P t → P (t.call c)) : P s₁ := by
  obtain ⟨calls, rfl, hcalls⟩ := h
  suffices ∀ t, t.toCellTable = s.toCellTable → P t → P (t.run calls) from this s rfl hs
  induction calls with
  | nil => exact fun _ _ ht => ht
  | cons c cs ih =>
    intro t htable ht
    have hc := hcalls c (List.mem_cons_self ..)
    exact ih (fun c' h' => hcalls c' (List.mem_cons_of_mem _ h')) (t.call c)
      ((hc.table t).trans htable) (hstep t c htable hc ht)

theorem table (h : FollowedBy s s₁) : s₁.toCellTable = s.toCellTable :=
  h.induct (P := fun t => t.toCellTable = s.toCellTable) rfl fun t _ ht hc _ => (hc.table t).trans ht

theorem trans (h : FollowedBy s s₁) (h' : FollowedBy s₁ s₂) : FollowedBy s s₂ := by
  have ht := h.table
  obtain ⟨calls, rfl, hcalls⟩ := h
  obtain ⟨calls', rfl, hcalls'⟩ := h'
  refine ⟨calls ++ calls', (CellStore.run_append ..).symm, fun c hc => ?_⟩
  rcases List.mem_append.1 hc with hc | hc
  · exact hcalls c hc
  · exact (hcalls' c hc).congr ht

end FollowedBy

end CellStore

namespace Runtime

open CellStore (LeadsTo FollowedBy)

variable {w : CountWidth} {env : Platform} {r r' : Runtime w}

theorem ackCells_follow (peerSlot : ℕ) (cells : List (Wire.WireCell w)) (s : CellStore w) :
    FollowedBy s (cells.foldl (ackCell peerSlot) s) := by
  induction cells generalizing s with
  | nil => exact .refl s
  | cons c cs ih =>
    refine FollowedBy.trans ?_ (ih _)
    unfold ackCell
    split
    · exact .refl s
    · rename_i hfind
      exact .call (.recordAcked peerSlot c.originSequence hfind)

theorem handleInbound_follows (r : Runtime w) (now : ℕ) (datagram : List UInt8) (src : SocketAddr) :
    FollowedBy (r.storeAfter (r.tableCall env now (.inbound (some (datagram, src)))))
      (r.handleInbound env (datagram.take r.config.wireLimits.maxPayloadBytes) src).store := by
  unfold handleInbound tableCall
  dsimp only
  generalize r.decodeInbound env (datagram.take r.config.wireLimits.maxPayloadBytes) = decoded
  obtain ⟨cells, e | summary⟩ := decoded
  · exact .refl _
  · have hmerge : r.storeAfter (some (.mergeRemote (cells.map observationFromWire))) =
        (r.store.mergeRemote (cells.map observationFromWire) []).1 := rfl
    dsimp only
    rw [hmerge]
    generalize (r.store.mergeRemote (cells.map observationFromWire) []).1 = s
    have hpeer : FollowedBy s { s with
        peerFrontiers := (s.peerFrontiers.internPeer summary.header.senderNodeId).1 } :=
      .call (.internPeer summary.header.senderNodeId)
    split
    · rename_i hi
      rwa [hi] at hpeer
    · rename_i hi
      rw [hi] at hpeer
      exact hpeer.trans (ackCells_follow _ cells _)

theorem handlePeerEvent_follows (r : Runtime w) (evt : PeerEvent) :
    FollowedBy r.store (r.handlePeerEvent evt).store := by
  cases evt with
  | added addr =>
    simp only [handlePeerEvent]
    split_ifs <;> exact .refl _
  | removed addr =>
    simp only [handlePeerEvent]
    split
    · exact .refl _
    · split
      · exact .refl _
      · rename_i nodeId _
        exact .call (.removePeer nodeId)

theorem gossip_follows (peers : List ℕ) (r : Runtime w) :
    FollowedBy r.store (peers.foldl (gossipTo env) r).store := by
  refine gossip_induct (R := fun r r' => FollowedBy r.store r'.store) (fun r => .refl r.store)
    .trans (fun r maxCells dest => .call (.fillFrame maxCells dest)) (fun r dst handles => ?_) peers r
  unfold encodePacketsFor
  split <;> exact .refl r.store

theorem handleGossipTick_follows (r : Runtime w) (now : ℕ) :
    FollowedBy (r.storeAfter (some (.expireAt now))) (r.handleGossipTick env now).store := by
  have hexpire : r.storeAfter (some (.expireAt now)) = (r.expireTick now).store := rfl
  rw [hexpire]
  unfold handleGossipTick
  dsimp only
  split_ifs
  · exact .refl _
  · exact gossip_follows (List.range _) ((r.expireTick now).pickPeers _)

theorem handle_follows {now : ℕ} {arm : ArmOutcome} (h : r.handle env now arm = some r') :
    FollowedBy (r.storeAfter (r.tableCall env now arm)) r'.store := by
  cases arm with
  | request req =>
    rcases req with _ | (req | _)
    · cases h
    · cases h
      have hstore : (r.handleLimitRequest now req).store =
          r.storeAfter (some (.ingestLocal [req.observation w])) := by
        obtain ⟨pending, budget, flush, hnote⟩ := r.noteHits_cases now req
        unfold handleLimitRequest
        rw [hnote]
        rfl
      rw [hstore]
      exact .refl _
    · cases h
  | inbound recv =>
    rcases recv with _ | ⟨datagram, src⟩
    · cases h
    · cases h
      exact handleInbound_follows r now datagram src
  | writable result =>
    simp only [handle, drainOneSend] at h
    split at h
    · cases h; exact .refl _
    · split at h <;> cases h <;> exact .refl _
  | peerEvent evt =>
    rcases evt with _ | evt
    · cases h; exact .refl _
    · cases h; exact handlePeerEvent_follows r evt
  | admin => cases h; exact .refl _
  | tick => cases h; exact handleGossipTick_follows r now

theorem finish_store (r : Runtime w) : r.finish.store = r.store := by
  unfold finish
  dsimp only
  split_ifs <;> rfl

/-- **What an iteration does to the store besides its table call.** -/
theorem iteration_follows {now : ℕ} {arm : ArmOutcome} (h : r.iteration env now arm = some r') :
    FollowedBy (r.storeAfter (r.tableCall env now (r.firedArm arm))) r'.store := by
  unfold firedArm
  unfold iteration at h
  split_ifs at h ⊢
  · cases h
    rw [finish_store]
    exact handleGossipTick_follows { r with
      wantImmediateFlush := false, thresholdFires := min (r.thresholdFires + 1) u64Max } now
  · obtain ⟨r₁, h₁, rfl⟩ := Option.map_eq_some_iff.1 h
    rw [finish_store]
    exact handle_follows h₁

theorem storeAfter_leadsTo (r : Runtime w) (call : Option (StoreCall w)) :
    LeadsTo r.store (r.storeAfter call) := by
  cases call with
  | none => exact ⟨[], rfl⟩
  | some c => exact .call r.store c

/-- **The store of a run is reachable by store calls**, so what holds of every reachable
    store holds along every run of the loop. -/
theorem run_reachable {arms : List (ℕ × ArmOutcome)} (hs : r.store.Reachable)
    (hr : r.run env arms = some r') : r'.store.Reachable :=
  run_induct (P := fun r => r.store.Reachable)
    (fun h hi => ((storeAfter_leadsTo ..).trans (iteration_follows hi).leadsTo).reachable h)
    arms hs hr

end Runtime

end Gabion

/-
  What a tick makes of the frames it composes.

  A frame is split into packets, one to a buffer, until the handles or the free buffers run
  out.  `packetCount` says how many packets the handles take; a frame is sent as a whole
  exactly when there are that many free buffers (`tick_sends_frames_iff`).
-/
import Gabion.SendPool
import Gabion.Sweep
import Gabion.Wire.Limits

namespace Gabion

open Function

namespace Wire

variable {w : CountWidth} {s : CellTable w}

/-! ## How many packets a frame takes -/

/-- The packets that the handles take with `budget` bytes of body. -/
def packetCount (s : CellTable w) (budget : ℕ) : ℕ → List CellHandle → ℕ
  | 0, _ => 0
  | fuel + 1, handles =>
    if handles = [] then 0
    else packetCount s budget fuel
      (handles.drop (planPacket s budget handles Plan.start).consumed) + 1

/-- What the iterator gives: nothing, or the next packet and the packets after it. -/
theorem drain_cases {mac : Mac} {p : Packets} (hp : p.Accepted w) {fuel : ℕ}
    {packets : List (List UInt8)} (h : p.drain mac s fuel = some packets) :
    (p.handles = [] ∧ packets = []) ∨ (p.handles ≠ [] ∧ ∃ fuel' packets',
      packets = p.nextPacket mac s :: packets' ∧ (p.after s).drain mac s fuel' = some packets') := by
  cases fuel with
  | zero => cases h
  | succ fuel =>
    by_cases hnil : p.handles = []
    · rw [Packets.drain, Packets.nextInto_nil mac hnil] at h
      cases h
      exact .inl ⟨hnil, rfl⟩
    · rw [Packets.drain, Packets.nextInto_eq mac hp hnil] at h
      obtain ⟨packets', hrest, rfl⟩ := Option.map_eq_some_iff.1 h
      exact .inr ⟨hnil, fuel, packets', rfl, hrest⟩

theorem drain_length (mac : Mac) : ∀ (fuel : ℕ) (p : Packets), p.Accepted w →
    p.handles.length < fuel → ∃ packets, p.drain mac s fuel = some packets ∧
      packets.length = packetCount s p.bodyBudget fuel p.handles
  | 0, _, _, hf => absurd hf (Nat.not_lt_zero _)
  | fuel + 1, p, hp, hf => by
    by_cases hnil : p.handles = []
    · refine ⟨[], ?_, ?_⟩
      · rw [Packets.drain, Packets.nextInto_nil mac hnil]
      · rw [packetCount, if_pos hnil]
        rfl
    · have hpos := Packets.encoded_pos (s := s) hp hnil
      have hlt : (p.after s).handles.length < fuel := by
        have := List.length_pos_iff.2 hnil
        rw [Packets.after, List.length_drop]
        omega
      obtain ⟨packets, hdrain, hlen⟩ := drain_length mac fuel (p.after s) hp hlt
      refine ⟨p.nextPacket mac s :: packets, ?_, ?_⟩
      · rw [Packets.drain, Packets.nextInto_eq mac hp hnil]
        simp only [hdrain, Option.map_some]
      · rw [packetCount, if_neg hnil, List.length_cons, hlen]
        rw [← handlesConsumed_eq]
        rfl

end Wire

namespace Runtime

variable {w : CountWidth} {env : Platform} {r r' : Runtime w}

/-! ## The packet loop -/

/-- The iterator as `encode_packets_for` drops it. -/
def packetsLeft (mac : Wire.Mac) (s : CellTable w) : List ℕ → Wire.Packets → Wire.Packets
  | [], packets => packets
  | _ :: free, packets =>
    match packets.nextInto mac s with
    | (packets, _, .ok (some _)) => packetsLeft mac s free packets
    | (packets, _, _) => packets

/-- **The packet loop** fills one free buffer after another, and leaves handles exactly when
    the packets outnumber the buffers. -/
theorem packetLoop_drain (mac : Wire.Mac) (s : CellTable w) (dst : SocketAddr) (free : List ℕ) :
    ∀ {p : Wire.Packets} (pool : ℕ → List UInt8) (pending : List (SocketAddr × ℕ)) {fuel : ℕ}
      {packets : List (List UInt8)}, p.Accepted w → p.drain mac s fuel = some packets → free.Nodup →
      (packetLoop mac s dst free p pool pending).2.2 =
          pending ++ (free.take packets.length).map (dst, ·) ∧
        (free.take packets.length).map (packetLoop mac s dst free p pool pending).2.1 =
          packets.take free.length ∧
        ((packetsLeft mac s free p).handles = [] ↔ packets.length ≤ free.length) := by
  induction free with
  | nil =>
    intro p pool pending fuel packets hp hd _
    refine ⟨by simp [packetLoop], by simp, ?_⟩
    rcases Wire.drain_cases hp hd with ⟨hnil, rfl⟩ | ⟨hne, -, packets', rfl, -⟩
    · exact iff_of_true hnil (le_refl _)
    · exact iff_of_false hne (by simp)
  | cons slot free ih =>
    intro p pool pending fuel packets hp hd hnodup
    rw [packetLoop, packetsLeft]
    rcases Wire.drain_cases hp hd with ⟨hnil, rfl⟩ | ⟨hne, fuel', packets', rfl, hd'⟩
    · rw [Wire.Packets.nextInto_nil mac hnil]
      refine ⟨by simp, rfl, iff_of_true hnil (Nat.zero_le _)⟩
    · rw [Wire.Packets.nextInto_eq mac hp hne]
      dsimp only
      obtain ⟨h1, h2, h3⟩ := ih (p := p.after s) (update pool slot (p.nextPacket mac s))
        (pending ++ [(dst, slot)]) hp hd' (List.nodup_cons.1 hnodup).2
      obtain ⟨-, -, -, hkept⟩ := packetLoop_fills mac s dst free (p.after s)
        (update pool slot (p.nextPacket mac s)) (pending ++ [(dst, slot)])
      refine ⟨?_, ?_, ?_⟩
      · rw [h1]
        simp
      · -- the loop does not come back to the first buffer
        rw [List.length_cons, List.take_succ_cons, List.map_cons, h2,
          hkept slot (List.nodup_cons.1 hnodup).1, update_self]
        rfl
      · rw [h3, List.length_cons, List.length_cons, Nat.add_le_add_iff_right]

/-! ## One frame -/

/-- **The frame is sent as a whole**: the iterator is dropped without handles, and all its
    packets wait in the queue for `dst`, each in its buffer. -/
def SentWhole (env : Platform) (r : Runtime w) (dst : SocketAddr) (handles : List CellHandle)
    (r' : Runtime w) : Prop :=
  ∃ (p : Wire.Packets) (packets : List (List UInt8)) (slots : List ℕ),
    Wire.Packets.new w r.headerTemplate handles r.config.authKey r.config.wireLimits = .ok p ∧
    (packetsLeft env.mac r.store.toCellTable r.sendFree p).handles = [] ∧
    p.drain env.mac r.store.toCellTable (handles.length + 1) = some packets ∧
    r'.sendPending = r.sendPending ++ slots.map (dst, ·) ∧ slots.map r'.sendPool = packets

/-- The payload admits a cell, and the free buffers the packets of the frame. -/
def Fits (r : Runtime w) (handles : List CellHandle) : Prop :=
  Wire.minPayloadBytes w.size (Wire.authOverhead r.config.authKey) ≤
      r.config.wireLimits.maxPayloadBytes ∧
    Wire.packetCount r.store.toCellTable (Wire.bodyRoom r.config.authKey r.config.wireLimits)
      (handles.length + 1) handles ≤ r.sendFree.length

instance (r : Runtime w) (handles : List CellHandle) : Decidable (r.Fits handles) :=
  inferInstanceAs (Decidable (_ ∧ _))

theorem sentWhole_iff (hnodup : r.sendFree.Nodup) (dst : SocketAddr) (handles : List CellHandle) :
    SentWhole env r dst handles (r.encodePacketsFor env dst handles) ↔ r.Fits handles := by
  by_cases hsmall : r.config.wireLimits.maxPayloadBytes <
      Wire.minPayloadBytes w.size (Wire.authOverhead r.config.authKey)
  · -- the constructor fails and the frame is forgotten
    refine iff_of_false ?_ fun h => absurd h.1 (not_le.2 hsmall)
    rintro ⟨p, packets, slots, hnew, -⟩
    rw [Wire.Packets.new, if_pos hsmall] at hnew
    cases hnew
  · set p : Wire.Packets := {
      header := r.headerTemplate
      handles
      key := r.config.authKey
      limits := r.config.wireLimits } with hp
    have hnew : Wire.Packets.new w r.headerTemplate handles r.config.authKey
        r.config.wireLimits = .ok p := by
      rw [Wire.Packets.new, if_neg hsmall]
    have hacc : p.Accepted w := not_lt.1 hsmall
    obtain ⟨packets, hdrain, hlen⟩ := Wire.drain_length (s := r.store.toCellTable) env.mac
      (handles.length + 1) p hacc (Nat.lt_succ_self _)
    obtain ⟨hpending, hpool, hleft⟩ := packetLoop_drain env.mac r.store.toCellTable dst r.sendFree
      r.sendPool r.sendPending hacc hdrain hnodup
    have hfits : r.Fits handles ↔ packets.length ≤ r.sendFree.length := by
      rw [hlen]
      exact ⟨fun h => h.2, fun h => ⟨not_lt.1 hsmall, h⟩⟩
    rw [hfits]
    constructor
    · rintro ⟨p', packets', slots, hnew', hnil, -⟩
      cases hnew.symm.trans hnew'
      exact hleft.1 hnil
    · intro hle
      rw [List.take_of_length_le hle] at hpool
      refine ⟨p, packets, r.sendFree.take packets.length, hnew, hleft.2 hle, hdrain, ?_, ?_⟩
      · rw [encodePacketsFor, hnew]
        exact hpending
      · rw [encodePacketsFor, hnew]
        exact hpool

/-! ## The frames of a tick -/

/-- The tick returns before the peer loop. -/
def Idle (r : Runtime w) : Prop := r.store.activeLen = 0 ∨ r.peers = [] ∨ r.sendFree = []

instance (r : Runtime w) : Decidable r.Idle := inferInstanceAs (Decidable (_ ∨ _ ∨ _))

/-- A tick before its `i`-th peer. -/
def tickState (env : Platform) (r : Runtime w) (now i : ℕ) : Runtime w :=
  let r := r.expireTick now
  (List.range i).foldl (gossipTo env) (r.pickPeers (r.pickCount env))

theorem handleGossipTick_states (env : Platform) (now : ℕ) (h : ¬ (r.expireTick now).Idle) :
    r.handleGossipTick env now =
      (tickState env r now ((r.expireTick now).pickCount env)).resetPending now := by
  unfold handleGossipTick
  exact if_neg h

theorem tickState_succ (env : Platform) (r : Runtime w) (now i : ℕ) :
    tickState env r now (i + 1) = (tickState env r now i).gossipTo env i := by
  unfold tickState
  dsimp only
  rw [List.range_succ, List.foldl_append]
  rfl

theorem tickState_fills (env : Platform) (r : Runtime w) (now i : ℕ) :
    Fills r (tickState env r now i) := by
  have hpick : ∀ n, Fills r ((r.expireTick now).pickPeers n) := fun n => .of_eq rfl rfl rfl
  exact (hpick _).trans (gossip_fills _ _)

theorem tickState_leadsTo (r : Runtime w) (now i : ℕ) :
    r.store.LeadsTo (tickState env r now i).store :=
  (CellStore.LeadsTo.call r.store (.expireAt now)).trans (gossip_follows _ (pickPeers _ _)).leadsTo

/-- The frame a step of the peer loop composes: its destination, the store afterwards and the
    handles.  Without a free buffer the loop breaks. -/
def frameFor (r : Runtime w) (peerIdx : ℕ) : Option (SocketAddr × CellStore w × List CellHandle) :=
  if r.sendFree = [] then none
  else (r.peers[peerIdx]?).map fun peer =>
    (peer.addr, r.store.fillFrameFor r.config.maxCellsPerTick peer.peerSlot)

/-- The packets of the frame that a step of the peer loop composes. -/
def stepPackets (env : Platform) (r : Runtime w) (peerIdx : ℕ) : List (List UInt8) :=
  match r.frameFor peerIdx with
  | none => []
  | some (_, store, handles) =>
    match Wire.Packets.new w { r with store }.headerTemplate handles r.config.authKey
        r.config.wireLimits with
    | .error _ => []
    | .ok p => (p.drain env.mac store.toCellTable (handles.length + 1)).getD []

theorem gossipTo_frame {i : ℕ} {dst : SocketAddr} {store : CellStore w} {handles : List CellHandle}
    (h : r.frameFor i = some (dst, store, handles)) (hne : handles ≠ []) :
    r.gossipTo env i = { r with store }.encodePacketsFor env dst handles := by
  unfold frameFor at h
  split_ifs at h with hfree
  obtain ⟨peer, hpeer, hframe⟩ := Option.map_eq_some_iff.1 h
  obtain ⟨rfl, hfill⟩ := Prod.mk.inj hframe
  unfold gossipTo
  rw [if_neg hfree, hpeer]
  dsimp only
  rw [hfill]
  exact if_neg hne

/-- A frame names cells that are there. -/
theorem frameFor_rows (hs : r.store.Reachable) {i : ℕ} {dst : SocketAddr} {store : CellStore w}
    {handles : List CellHandle} (h : r.frameFor i = some (dst, store, handles)) :
    ∀ handle ∈ handles, (Wire.rowOf store.toCellTable handle).isSome := by
  obtain ⟨pins, hinv, hlanes⟩ := hs.inv
  unfold frameFor at h
  split_ifs at h
  obtain ⟨peer, -, hframe⟩ := Option.map_eq_some_iff.1 h
  obtain ⟨-, hfill⟩ := Prod.mk.inj hframe
  rw [CellStore.fillFrameFor_eq] at hfill
  have htable := (CellStore.sameData_fillFrame r.store (r.store.lacksFor peer.peerSlot)
    r.config.maxCellsPerTick).table
  have hframed := CellStore.fillFrame_framed hlanes (r.store.lacksFor peer.peerSlot)
    r.config.maxCellsPerTick
  rw [hfill] at htable hframed
  intro handle hmem
  obtain ⟨hact, heq⟩ := hframed.handle handle hmem
  obtain ⟨row, hrow, -⟩ := Wire.rowOf_handleFor hinv hact
  rw [htable, heq, hrow]
  rfl

/-- The tick at `now` composes a frame for its `i`-th peer. -/
structure Composes (env : Platform) (r : Runtime w) (now i : ℕ) (dst : SocketAddr)
    (store : CellStore w) (handles : List CellHandle) : Prop where
  busy : ¬ (r.expireTick now).Idle
  picked : i < (r.expireTick now).pickCount env
  frame : (tickState env r now i).frameFor i = some (dst, store, handles)
  nonempty : handles ≠ []

/-- **A tick sends a frame as a whole exactly when its packets fit the free buffers.**  In
    every run, whenever a tick composes a frame that is not empty: every handle of it has a
    cell, the next state of the tick is what `encode_packets_for` makes, and all of it is
    queued if and only if the payload limit admits a cell at all and the packets of the frame
    are at most the buffers still free. -/
theorem tick_sends_frames_iff (env : Platform) {storeConfig : CellStoreConfig} {id : NodeIdentity}
    {s₀ : CellStore w} (hnew : CellStore.new w storeConfig id = some s₀)
    (calls : List (StoreCall w)) (config : GossipConfig) (aggregates : DashMapStore)
    (arms : List (ℕ × ArmOutcome)) {r : Runtime w}
    (hr : (fromParts config (s₀.run calls) aggregates).run env arms = some r) (now i : ℕ)
    {dst : SocketAddr} {store : CellStore w} {handles : List CellHandle}
    (hframe : r.tickStart.Composes env now i dst store handles) :
    (∀ handle ∈ handles, (Wire.rowOf store.toCellTable handle).isSome) ∧
      r.tickStart.handleGossipTick env now = (tickState env r.tickStart now
        ((r.tickStart.expireTick now).pickCount env)).resetPending now ∧
      tickState env r.tickStart now (i + 1) =
        { tickState env r.tickStart now i with store }.encodePacketsFor env dst handles ∧
      (SentWhole env { tickState env r.tickStart now i with store } dst handles
          (tickState env r.tickStart now (i + 1)) ↔
        { tickState env r.tickStart now i with store }.Fits handles) := by
  have hreach : r.store.Reachable := run_reachable ⟨_, _, s₀, calls, hnew, rfl⟩ hr
  have hstart : r.tickStart.store = r.store := by
    unfold tickStart
    split_ifs <;> rfl
  have hpooled := ((pooled_fromParts config (s₀.run calls) aggregates).run hr).fills
    ((tickStart_fills r).trans (tickState_fills env r.tickStart now i))
  have hstep : tickState env r.tickStart now (i + 1) =
      { tickState env r.tickStart now i with store }.encodePacketsFor env dst handles := by
    rw [tickState_succ]
    exact gossipTo_frame hframe.frame hframe.nonempty
  refine ⟨?_, handleGossipTick_states env now hframe.busy, hstep, ?_⟩
  · refine frameFor_rows ?_ hframe.frame
    exact (tickState_leadsTo r.tickStart now i).reachable (hstart ▸ hreach)
  · rw [hstep]
    exact sentWhole_iff (r := { tickState env r.tickStart now i with store })
      (List.nodup_append.1 hpooled.nodup).1 dst handles

/-! ### Two ticks to look at -/

/-- Hits on two keys, then a peer. -/
def twoKeyArms : List (ℕ × ArmOutcome) :=
  [(5000, .request (some (.limit tinyRequest))),
    (5001, .request (some (.limit { tinyRequest with keyHash := 4 }))),
    (5001, .request (some (.limit { tinyRequest with keyHash := 4 }))),
    (5002, .peerEvent (some (.added { ip := 2, port := 7000 }))),
    (5002, .peerEvent (some (.added { ip := 2, port := 7000 })))]

/-- One packet of one cell, and one buffer. -/
def narrowSettings : GossipSettings :=
  { GossipSettings.default with
    maxPayloadBytes := Wire.minPayloadBytes 4 0
    sendQueueCapacity := 1 }

/-- The node after the two keys. -/
def twoKeys (settings : GossipSettings) : Option (CellStore .u32 × Runtime .u32) :=
  (CellStore.new .u32 CellStore.tinyConfig CellStore.tinyNode).bind fun s₀ =>
    ((fromParts (settings.intoRuntimeConfig 7) (s₀.run [.internRule tinyRule]) .empty).run
      tinyPlatform twoKeyArms).map fun r => (s₀, r)

theorem twoKeys_eq_some {settings : GossipSettings} {s₀ : CellStore .u32} {r : Runtime .u32}
    (h : twoKeys settings = some (s₀, r)) :
    CellStore.new .u32 CellStore.tinyConfig CellStore.tinyNode = some s₀ ∧
      (fromParts (settings.intoRuntimeConfig 7) (s₀.run [.internRule tinyRule]) .empty).run
        tinyPlatform twoKeyArms = some r := by
  obtain ⟨s₁, hnew, hrest⟩ := Option.bind_eq_some_iff.1 h
  obtain ⟨r₁, hrun, hpair⟩ := Option.map_eq_some_iff.1 hrest
  cases hpair
  exact ⟨hnew, hrun⟩

/-- The frame for the first peer of a tick at 6000, if the tick gets there. -/
def firstFrame (r : Runtime w) : Option (SocketAddr × CellStore w × List CellHandle) :=
  if (r.expireTick 6000).Idle ∨ (r.expireTick 6000).pickCount tinyPlatform = 0 then none
  else (tickState tinyPlatform r 6000 0).frameFor 0

theorem firstFrame_composes {dst : SocketAddr} {store : CellStore w} {handles : List CellHandle}
    (h : r.firstFrame = some (dst, store, handles)) (hlen : handles.length = 2) :
    r.Composes tinyPlatform 6000 0 dst store handles := by
  unfold firstFrame at h
  split_ifs at h with hgo
  push Not at hgo
  refine ⟨hgo.1, Nat.pos_of_ne_zero hgo.2, h, ?_⟩
  rintro rfl
  cases hlen

/-- With the default settings the frame of both cells is sent. -/
theorem tick_sends_frames_default : ∃ (s₀ : CellStore .u32) (r : Runtime .u32) (dst : SocketAddr)
    (store : CellStore .u32) (handles : List CellHandle),
    twoKeys GossipSettings.default = some (s₀, r) ∧
      r.tickStart.Composes tinyPlatform 6000 0 dst store handles ∧ handles.length = 2 ∧
      SentWhole tinyPlatform { tickState tinyPlatform r.tickStart 6000 0 with store } dst handles
        (tickState tinyPlatform r.tickStart 6000 1) := by
  have heval : ((twoKeys GossipSettings.default).bind fun p => p.2.tickStart.firstFrame.map fun f =>
      (f.2.2.length, decide ({ tickState tinyPlatform p.2.tickStart 6000 0 with
        store := f.2.1 }.Fits f.2.2))) = some (2, true) := by decide +kernel
  obtain ⟨⟨s₀, r⟩, htwo, hrest⟩ := Option.bind_eq_some_iff.1 heval
  obtain ⟨⟨dst, store, handles⟩, hframe, hvals⟩ := Option.map_eq_some_iff.1 hrest
  simp only [Prod.mk.injEq, decide_eq_true_eq] at hvals
  obtain ⟨hlen, hfits⟩ := hvals
  have hcomposes := firstFrame_composes hframe hlen
  obtain ⟨hnew, hrun⟩ := twoKeys_eq_some htwo
  obtain ⟨-, -, -, hsent⟩ := tick_sends_frames_iff tinyPlatform hnew _ _ _ _ hrun 6000 0 hcomposes
  exact ⟨s₀, r, dst, store, handles, htwo, hcomposes, hlen, hsent.2 hfits⟩

/-- **A frame of two packets and one free buffer**: the iterator is dropped with the second
    cell. -/
theorem second_cell_dropped : ∃ (s₀ : CellStore .u32) (r before : Runtime .u32) (dst : SocketAddr)
    (store : CellStore .u32) (handles : List CellHandle) (p : Wire.Packets),
    twoKeys narrowSettings = some (s₀, r) ∧
      r.tickStart.Composes tinyPlatform 6000 0 dst store handles ∧ handles.length = 2 ∧
      before = { tickState tinyPlatform r.tickStart 6000 0 with store } ∧
      Wire.Packets.new .u32 before.headerTemplate handles before.config.authKey
        before.config.wireLimits = .ok p ∧
      (packetsLeft tinyPlatform.mac before.store.toCellTable before.sendFree p).handles.length = 1 ∧
      ¬ SentWhole tinyPlatform before dst handles (tickState tinyPlatform r.tickStart 6000 1) := by
  have heval : ((twoKeys narrowSettings).bind fun q => q.2.tickStart.firstFrame.bind fun f =>
      let before := { tickState tinyPlatform q.2.tickStart 6000 0 with store := f.2.1 }
      (Wire.Packets.new .u32 before.headerTemplate f.2.2 before.config.authKey
        before.config.wireLimits).toOption.map fun p =>
          (f.2.2.length, (packetsLeft tinyPlatform.mac before.store.toCellTable
            before.sendFree p).handles.length)) = some (2, 1) := by decide +kernel
  obtain ⟨⟨s₀, r⟩, htwo, hrest⟩ := Option.bind_eq_some_iff.1 heval
  obtain ⟨⟨dst, store, handles⟩, hframe, hrest⟩ := Option.bind_eq_some_iff.1 hrest
  obtain ⟨p, hp, hvals⟩ := Option.map_eq_some_iff.1 hrest
  obtain ⟨hlen, hleft⟩ := Prod.mk.inj hvals
  replace hp := eq_ok_of_toOption hp
  refine ⟨s₀, r, _, dst, store, handles, p, htwo, firstFrame_composes hframe hlen, hlen, rfl, hp,
    hleft, ?_⟩
  rintro ⟨p', packets, slots, hp', hnil, -⟩
  cases hp.symm.trans hp'
  rw [hnil] at hleft
  cases hleft

end Runtime

end Gabion

/-
  Counts that reach every node.

  A tick whose frame has room for all cells of a node sends its whole map.  Once each packet of
  the frame has reached another node, in any order and between any other arms of all nodes, that
  node holds at least what the sender held (`Hop`).  Hops follow one another (`Path`).  With the
  bound of `Cluster.Sound`, a node at the end of a path from an origin that has counted nothing
  since holds exactly what the origin has accepted.
-/
import Gabion.Cluster
import Gabion.Exchange
import Gabion.TickFrames

namespace Gabion

open Function SlotMap

/-! ## One iteration -/

namespace CellStore

variable {w : CountWidth} {pins : ℕ → Bool} {s s' : CellStore w}

/-- A row never lowers an entry. -/
theorem RowEffect.toMap_le {k : CellId} {mode : UpsertMode} {a : Bool} {sink sink' : List CellDelta}
    {res : RowResult} (hstep : RowStep pins s s')
    (he : RowEffect w s.view s'.view k mode a sink sink' res) (h : s.toCellTable.Inv pins)
    (id : CellId) : s.toMap id ≤ s'.toMap id := by
  rw [toMap_of_row h hstep he]
  split_ifs with hok
  · by_cases hid : id = k
    · rw [hid, update_self]
      cases hm : s.toMap k with
      | bot => exact bot_le
      | coe n =>
        obtain ⟨x, hx, -, hn⟩ := h.toMap_eq_coe.1 hm
        have hmax : n ≤ w.max := hn ▸ h.count_le x hx
        exact WithBot.coe_le_coe.2 (le_next hmax)
    · rw [update_of_ne hid]
  · exact le_rfl

theorem rows_toMap_le {row : CellStore w → Observation w → List CellDelta →
    CellStore w × List CellDelta × RowResult}
    (hrow : ∀ {s : CellStore w} (o : Observation w) (sink : List CellDelta),
      s.toCellTable.Inv pins → (row s o sink).1.toCellTable.Inv pins ∧
        ∀ id, s.toMap id ≤ (row s o sink).1.toMap id)
    (h : s.toCellTable.Inv pins) (obs : List (Observation w)) (id : CellId) :
    s.toMap id ≤ (rows row s obs []).1.toMap id := by
  refine (rows_induct (P := fun s' _ => s'.toCellTable.Inv pins ∧ s.toMap id ≤ s'.toMap id)
    (fun s' o sink hp => ?_) obs s [] ⟨h, le_rfl⟩).2
  obtain ⟨hinv, hle⟩ := hrow o sink hp.1
  exact ⟨hinv, hp.2.trans (hle id)⟩

/-- **A frame with room for all cells** is encoded completely, and decodes to all entries. -/
theorem fullFrame_decodes (mac : Wire.Mac) (h : s.toCellTable.Inv pins) (hl : Lanes s)
    {maxCells : ℕ} (hroom : s.activeLen ≤ maxCells) (dest : Option ℕ) (header : Wire.Header)
    (key : Option Wire.HmacKey) (limits : Wire.FrameLimits)
    (hpayload : Wire.minPayloadBytes w.size (Wire.authOverhead key) ≤ limits.maxPayloadBytes)
    (hbudget : limits.maxPayloadBytes < 2 ^ 32) : ∃ p packets groups,
      Wire.Packets.new w header (s.fillFrameFor maxCells dest).2 key limits = .ok p ∧
      p.drain mac (s.fillFrameFor maxCells dest).1.toCellTable
        ((s.fillFrameFor maxCells dest).2.length + 1) = some packets ∧
      List.Forall₂ (Wire.DecodesTo mac w key) packets groups ∧
      groups.flatten.length ≤ s.activeLen ∧
      ∀ id, s.toMap id ≠ ⊥ → ∃ row ∈ groups.flatten, (observed w row).entry = (id, s.toMap id) := by
  rw [fillFrameFor_eq, (sameData_fillFrame s _ maxCells).table]
  have hframed := fillFrame_framed hl (s.lacksFor dest) maxCells
  have hcomplete := fun x => fillFrame_complete h hl (s.lacksFor dest) hroom (x := x)
  generalize (s.fillFrame (s.lacksFor dest) maxCells).2 = frame at hframed hcomplete ⊢
  obtain ⟨packets, groups, hdrain, hall, hflat⟩ := Wire.drain_spec mac (Wire.countsFit h)
    (frame.length + 1) ⟨header, frame, key, limits⟩ (Nat.lt_succ_self _) hpayload hbudget
  refine ⟨⟨header, frame, key, limits⟩, packets, groups, ?_, hdrain, hall, ?_, ?_⟩
  · rw [Wire.Packets.new, if_neg (not_lt.2 hpayload)]
  · rw [hflat]
    exact (List.length_filterMap_le _ _).trans (hframed.length_le_active h)
  · rw [hflat]
    exact (entries_of_frame h hcomplete).2

end CellStore

namespace Runtime

variable {w : CountWidth} {env : Platform} {pins : ℕ → Bool} {r r' : Runtime w}

/-- **An iteration lowers no entry** that its tick does not find aged. -/
theorem Iterated.toMap_le {call : Option (StoreCall w)} {id : CellId}
    (hinv : r.store.toCellTable.Inv pins) (hcall : LoopCall call) (hit : Iterated env r call r')
    (hkept : ∀ now, call = some (.expireAt now) → r.store.agedAt now id = false) :
    r.store.toMap id ≤ r'.store.toMap id := by
  rw [hit.table]
  cases hcall with
  | none => exact le_rfl
  | ingestLocal obs =>
    refine CellStore.rows_toMap_le (fun o sink h => ?_) hinv obs id
    obtain ⟨hstep, heff⟩ := CellStore.ingestRow_spec h o sink
    exact ⟨hstep.inv, heff.toMap_le hstep h⟩
  | mergeRemote obs =>
    refine CellStore.rows_toMap_le (fun o sink h => ?_) hinv obs id
    obtain ⟨hstep, heff⟩ := CellStore.mergeRow_spec h o sink
    exact ⟨hstep.inv, heff.toMap_le hstep h⟩
  | expireAt now =>
    refine le_of_eq (Eq.symm ?_)
    show (r.store.expireAt now []).1.toMap id = _
    rw [CellStore.expireAt, CellStore.expire_toMap hinv, CellStore.agedAt_eq hinv, hkept now rfl]
    rfl

/-- The tick of the iteration expires the cell. -/
def ages (r : Runtime w) (now : ℕ) (arm : ArmOutcome) (id : CellId) : Bool :=
  match r.firedArm arm with
  | .tick => r.store.agedAt now id
  | _ => false

theorem agedAt_of_tableCall {now now' : ℕ} {arm : ArmOutcome} {id : CellId}
    (hages : r.ages now arm id = false)
    (hcall : r.tableCall env now (r.firedArm arm) = some (.expireAt now')) :
    r.store.agedAt now' id = false := by
  unfold ages at hages
  unfold tableCall at hcall
  split at hcall
  · cases hcall
  · split at hcall <;> cases hcall
  · rename_i htick
    cases hcall
    rwa [htick] at hages
  · cases hcall

/-! ## A frame with all cells -/

/-- The packets of the frame that a tick composes for its `i`-th peer. -/
def framePackets (env : Platform) (r : Runtime w) (now i : ℕ) : List (List UInt8) :=
  (tickState env r.tickStart now i).stepPackets env i

/-- The tick composes a frame for its `i`-th peer that has room for all cells, under a payload
    budget that the encoder accepts. -/
structure FullFrame (env : Platform) (r : Runtime w) (now i : ℕ) : Prop where
  composes : ∃ dst store handles, r.tickStart.Composes env now i dst store handles
  room : (r.store.expireAt now []).1.activeLen ≤ r.config.maxCellsPerTick
  payload : Wire.minPayloadBytes w.size (Wire.authOverhead r.config.authKey) ≤
    r.config.wireLimits.maxPayloadBytes
  budget : r.config.wireLimits.maxPayloadBytes < 2 ^ 32

theorem tickStart_eq (r : Runtime w) :
    r.tickStart.store = r.store ∧ r.tickStart.config = r.config := by
  unfold tickStart
  split_ifs <;> exact ⟨rfl, rfl⟩

/-- A tick before its `i`-th peer has expired what is aged, and nothing else. -/
theorem tickState_same (env : Platform) (r : Runtime w) (now i : ℕ) :
    (tickState env r.tickStart now i).store.toCellTable =
        (r.store.expireAt now []).1.toCellTable ∧
      (tickState env r.tickStart now i).config = r.config := by
  have hquiet : Quiet env ((r.tickStart.expireTick now).pickPeers
      ((r.tickStart.expireTick now).pickCount env)) (tickState env r.tickStart now i) :=
    gossip_quiet _ _
  have hstart := r.tickStart_eq
  refine ⟨hquiet.table.trans ?_, hquiet.config.trans hstart.2⟩
  show (r.tickStart.store.expireAt now []).1.toCellTable = _
  rw [hstart.1]

/-- **The packets of a full frame** decode to all entries of the node after its tick. -/
theorem framePackets_spec (hs : r.store.Reachable) {now i : ℕ} (h : FullFrame env r now i) :
    ∃ groups, List.Forall₂ (Wire.DecodesTo env.mac w r.config.authKey) (framePackets env r now i)
        groups ∧
      groups.flatten.length ≤ (r.store.expireAt now []).1.activeLen ∧
      ∀ id, (r.store.expireAt now []).1.toMap id ≠ ⊥ → ∃ row ∈ groups.flatten,
        (CellStore.observed w row).entry = (id, (r.store.expireAt now []).1.toMap id) := by
  obtain ⟨dst, store, handles, hcomposes⟩ := h.composes
  obtain ⟨htable, hconfig⟩ := tickState_same env r now i
  have hreach : (tickState env r.tickStart now i).store.Reachable :=
    (tickState_leadsTo r.tickStart now i).reachable (r.tickStart_eq.1 ▸ hs)
  obtain ⟨pins, hinv, hlanes⟩ := hreach.inv
  have hframe := hcomposes.frame
  have hactive : (tickState env r.tickStart now i).store.activeLen ≤ r.config.maxCellsPerTick := by
    rw [htable]
    exact h.room
  obtain ⟨peer, hfill⟩ : ∃ peer : Peer, (tickState env r.tickStart now i).store.fillFrameFor
      r.config.maxCellsPerTick peer.peerSlot = (store, handles) := by
    unfold frameFor at hframe
    split_ifs at hframe
    obtain ⟨peer, -, hpeer⟩ := Option.map_eq_some_iff.1 hframe
    rw [hconfig] at hpeer
    exact ⟨peer, (Prod.mk.inj hpeer).2⟩
  obtain ⟨p, packets, groups, hnew, hdrain, hall, hlen, hentries⟩ :=
    CellStore.fullFrame_decodes env.mac hinv hlanes hactive peer.peerSlot
      { tickState env r.tickStart now i with store }.headerTemplate r.config.authKey
      r.config.wireLimits h.payload h.budget
  rw [hfill] at hnew hdrain
  rw [htable] at hlen hentries
  have hpackets : framePackets env r now i = packets := by
    unfold framePackets stepPackets
    rw [hframe]
    dsimp only at hnew hdrain ⊢
    rw [← hconfig] at hnew
    rw [hnew]
    dsimp only
    rw [hdrain, Option.getD_some]
  exact ⟨groups, hpackets ▸ hall, hlen, hentries⟩

/-! ## A node that takes a packet -/

/-- The node takes the packet of a sender with this key and at most `cells` cells in a frame, and
    rejects no row of it. -/
structure Takes (env : Platform) (key : Option Wire.HmacKey) (cells : ℕ) (r : Runtime w) (now : ℕ)
    (arm : ArmOutcome) (packet : List UInt8) : Prop where
  fired : ∃ src, r.firedArm arm = .inbound (some (packet, src))
  key : r.config.authKey = key
  payload : packet.length ≤ r.config.wireLimits.maxPayloadBytes
  cells : cells ≤ r.config.wireLimits.maxCells
  accepted : ∀ call, r.tableCall env now (r.firedArm arm) = some call → r.store.accepted call = true

/-- **A packet raises the entries it carries.** -/
theorem Takes.le_toMap {key : Option Wire.HmacKey} {cells now : ℕ} {arm : ArmOutcome}
    {packet : List UInt8} {rows : List Wire.Row} (h : Takes env key cells r now arm packet)
    (hinv : r.store.toCellTable.Inv pins) (hdec : Wire.DecodesTo env.mac w key packet rows)
    (hrows : rows.length ≤ cells)
    (hit : Iterated env r (r.tableCall env now (r.firedArm arm)) r') {row : Wire.Row}
    (hrow : row ∈ rows) :
    (CellStore.observed w row).entry.2 ≤ r'.store.toMap (CellStore.observed w row).entry.1 := by
  obtain ⟨src, hfired⟩ := h.fired
  obtain ⟨summary, hdec⟩ := hdec r.config.wireLimits (fun _ => true) h.payload
    (hrows.trans h.cells) fun _ => rfl
  have hcall : r.tableCall env now (r.firedArm arm) =
      some (.mergeRemote (rows.map (CellStore.observed w))) := by
    rw [hfired]
    simp only [tableCall, decodeInbound, List.take_of_length_le h.payload, h.key, hdec,
      List.map_map]
    rfl
  have haccepted := h.accepted _ hcall
  rw [hit.table, hcall]
  have hmap := CellStore.call_toMap hinv _ haccepted
  show _ ≤ (r.store.call (.mergeRemote (rows.map (CellStore.observed w)))).toMap _
  rw [hmap]
  refine ((mergeAll_le_iff _ _ _ _).1 le_rfl).2 _ ?_ rfl
  exact List.mem_map_of_mem (List.mem_map_of_mem hrow)

end Runtime

/-! ## The steps of a run -/

namespace Cluster

variable {ι : Type} [DecidableEq ι] {w : CountWidth} {env : Platform} {ids : ι → NodeIdentity}
  {c₀ c c' : Cluster ι w} {events : List (ι × ℕ × ArmOutcome)} {id : CellId}

theorem run_append (c : Cluster ι w) (xs ys : List (ι × ℕ × ArmOutcome)) :
    c.run env (xs ++ ys) = (c.run env xs).bind fun c => c.run env ys := by
  induction xs generalizing c with
  | nil => rfl
  | cons e xs ih =>
    obtain ⟨i, now, arm⟩ := e
    rw [List.cons_append, run, run, Option.bind_assoc]
    exact congrArg _ (funext ih)

/-- The run has a state before each of its steps. -/
theorem exists_run_take (hrun : c₀.run env events = some c) (t : ℕ) :
    ∃ cₜ, c₀.run env (events.take t) = some cₜ := by
  rw [← List.take_append_drop t events, run_append] at hrun
  obtain ⟨cₜ, hcₜ, -⟩ := Option.bind_eq_some_iff.1 hrun
  exact ⟨cₜ, hcₜ⟩

theorem run_take_succ {t : ℕ} {n : ι} {now : ℕ} {arm : ArmOutcome}
    (hbefore : c₀.run env (events.take t) = some c) (hevent : events[t]? = some (n, now, arm)) :
    c₀.run env (events.take (t + 1)) = c.step env n now arm := by
  rw [List.take_add_one, hevent, run_append, hbefore]
  show (c.step env n now arm).bind some = _
  cases c.step env n now arm <;> rfl

/-- The state before the last step, unless the run was over by then. -/
theorem run_take_cases (hrun : c₀.run env events = some c) {t : ℕ} {cₜ : Cluster ι w}
    (ht : c₀.run env (events.take (t + 1)) = some cₜ) :
    ∃ cᵤ, c₀.run env (events.take t) = some cᵤ ∧ (cₜ = cᵤ ∨ ∃ n now arm,
      events[t]? = some (n, now, arm) ∧ cᵤ.step env n now arm = some cₜ) := by
  obtain ⟨cᵤ, hu⟩ := exists_run_take hrun t
  refine ⟨cᵤ, hu, ?_⟩
  cases hevent : events[t]? with
  | none =>
    have hlen := List.getElem?_eq_none_iff.1 hevent
    rw [List.take_of_length_le (by omega)] at hu ht
    rw [hu] at ht
    exact .inl (Option.some.inj ht).symm
  | some e =>
    obtain ⟨n, now, arm⟩ := e
    rw [run_take_succ hu hevent] at ht
    exact .inr ⟨n, now, arm, rfl, ht⟩

/-- What every state of a run has. -/
structure Running (env : Platform) (ids : ι → NodeIdentity) (c : Cluster ι w) : Prop where
  sound : Sound env ids c
  reachable : ∀ n, (c.nodes n).store.Reachable

/-- What a step does to the nodes. -/
theorem step_nodes (h : Sound env ids c) {n : ι} {now : ℕ} {arm : ArmOutcome}
    (hs : c.step env n now arm = some c') :
    (c.nodes n).iteration env now arm = some (c'.nodes n) ∧
      Runtime.Iterated env (c.nodes n) ((c.nodes n).tableCall env now ((c.nodes n).firedArm arm))
        (c'.nodes n) ∧ ∀ m, m ≠ n → c'.nodes m = c.nodes m := by
  unfold Cluster.step at hs
  split_ifs at hs
  obtain ⟨r', hr', rfl⟩ := Option.map_eq_some_iff.1 hs
  rw [advance_nodes_self]
  exact ⟨hr', Runtime.iteration_spec hr' (h.sinkBuf n) (h.expirationBuf n),
    fun m hm => advance_nodes_of_ne c n arm r' hm⟩

theorem Running.step (h : Running env ids c) {n : ι} {now : ℕ} {arm : ArmOutcome}
    (hs : c.step env n now arm = some c') : Running env ids c' := by
  refine ⟨h.sound.step hs, fun m => ?_⟩
  obtain ⟨hiteration, -, hothers⟩ := step_nodes h.sound hs
  by_cases hm : m = n
  · rw [hm]
    exact ((Runtime.storeAfter_leadsTo ..).trans
      (Runtime.iteration_follows hiteration).leadsTo).reachable (h.reachable n)
  · rw [hothers m hm]
    exact h.reachable m

theorem Running.run : ∀ (events : List (ι × ℕ × ArmOutcome)) {c : Cluster ι w}, Running env ids c →
    c.run env events = some c' → Running env ids c'
  | [], _, h, hr => by cases hr; exact h
  | (n, now, arm) :: rest, _, h, hr => by
    obtain ⟨c₁, h₁, hr⟩ := Option.bind_eq_some_iff.1 hr
    exact Running.run rest (h.step h₁) hr

omit [DecidableEq ι] in
theorem Start.running (h : Start ids c) : Running env ids c := by
  refine ⟨h.sound, fun n => ?_⟩
  obtain ⟨config, s₀, rules, gossip, hnew, hnode⟩ := h.nodes n
  rw [hnode]
  refine ⟨config, ids n, s₀, rules.map .internRule, hnew, ?_⟩
  show s₀.internRules rules = _
  rw [CellStore.internRules, CellStore.run, List.foldl_map]
  rfl

/-! ## Entries along a run -/

/-- No tick of the run expires the cell anywhere. -/
def Kept (env : Platform) (c₀ : Cluster ι w) (events : List (ι × ℕ × ArmOutcome)) (id : CellId) :
    Prop :=
  ∀ t c n now arm, c₀.run env (events.take t) = some c → events[t]? = some (n, now, arm) →
    (c.nodes n).ages now arm id = false

/-- A step lowers no entry that it does not expire. -/
theorem toMap_le_step (h : Sound env ids c) {n : ι} {now : ℕ} {arm : ArmOutcome}
    (hages : (c.nodes n).ages now arm id = false) (hs : c.step env n now arm = some c') (m : ι) :
    (c.nodes m).store.toMap id ≤ (c'.nodes m).store.toMap id := by
  obtain ⟨-, hit, hothers⟩ := step_nodes h hs
  by_cases hm : m = n
  · obtain ⟨pins, hinv⟩ := h.inv n
    rw [hm]
    exact hit.toMap_le hinv (Runtime.tableCall_loopCall ..) fun now' hcall =>
      Runtime.agedAt_of_tableCall hages hcall
  · rw [hothers m hm]

/-- **No entry is lowered** along a run that keeps the cell. -/
theorem toMap_mono (h : Running env ids c₀) (hrun : c₀.run env events = some c)
    (hkept : Kept env c₀ events id) {s t : ℕ} (hle : s ≤ t) {cₛ cₜ : Cluster ι w}
    (hs : c₀.run env (events.take s) = some cₛ) (ht : c₀.run env (events.take t) = some cₜ)
    (m : ι) : (cₛ.nodes m).store.toMap id ≤ (cₜ.nodes m).store.toMap id := by
  induction t, hle using Nat.le_induction generalizing cₜ with
  | base =>
    rw [hs] at ht
    cases ht
    exact le_rfl
  | succ t _ ih =>
    obtain ⟨cᵤ, hu, rfl | ⟨n, now, arm, hevent, hstep⟩⟩ := run_take_cases hrun ht
    · exact ih hu
    · exact (ih hu).trans
        (toMap_le_step (h.run _ hu).sound (hkept t cᵤ n now arm hu hevent) hstep m)

/-! ## Hops -/

/-- **Between steps `s` and `t` a full frame of `a` reaches `b`.**  At step `s` node `a` ticks, with
    a full frame for one of its peers, and at steps before `t` node `b` takes each packet of it. -/
def Hop (env : Platform) (c₀ : Cluster ι w) (events : List (ι × ℕ × ArmOutcome)) (s t : ℕ)
    (a b : ι) : Prop :=
  ∃ c now arm i, c₀.run env (events.take s) = some c ∧ events[s]? = some (a, now, arm) ∧
    (c.nodes a).firedArm arm = .tick ∧ Runtime.FullFrame env (c.nodes a) now i ∧
    ∀ packet ∈ Runtime.framePackets env (c.nodes a) now i, ∃ u cᵤ now' arm', s < u ∧ u < t ∧
      c₀.run env (events.take u) = some cᵤ ∧ events[u]? = some (b, now', arm') ∧
      Runtime.Takes env (c.nodes a).config.authKey ((c.nodes a).store.expireAt now []).1.activeLen
        (cᵤ.nodes b) now' arm' packet

/-- A row of one of the packets. -/
theorem exists_packet_of_row {R : List UInt8 → List Wire.Row → Prop} {packets : List (List UInt8)}
    {groups : List (List Wire.Row)} (h : List.Forall₂ R packets groups) {row : Wire.Row}
    (hrow : row ∈ groups.flatten) : ∃ packet ∈ packets, ∃ rows, R packet rows ∧ row ∈ rows ∧
      rows.length ≤ groups.flatten.length := by
  induction h with
  | nil => cases hrow
  | @cons packet rows packets groups hR _ ih =>
    rw [List.flatten_cons, List.length_append]
    rcases List.mem_append.1 hrow with hrow | hrow
    · exact ⟨packet, List.mem_cons_self, rows, hR, hrow, Nat.le_add_right _ _⟩
    · obtain ⟨packet', hmem, rows', hR', hrow', hlen⟩ := ih hrow
      exact ⟨packet', List.mem_cons_of_mem _ hmem, rows', hR', hrow', by omega⟩

/-- **After a hop the receiver holds at least what the sender held.** -/
theorem Hop.le (h : Running env ids c₀) (hrun : c₀.run env events = some c)
    (hkept : Kept env c₀ events id) {s t : ℕ} {a b : ι} (hop : Hop env c₀ events s t a b)
    {cₛ cₜ : Cluster ι w} (hs : c₀.run env (events.take s) = some cₛ)
    (ht : c₀.run env (events.take t) = some cₜ) :
    (cₛ.nodes a).store.toMap id ≤ (cₜ.nodes b).store.toMap id := by
  obtain ⟨c₁, now, arm, i, hc₁, hevent, htick, hfull, htaken⟩ := hop
  rw [hs] at hc₁
  cases hc₁
  have hrunning := h.run _ hs
  obtain ⟨pins, hinv⟩ := hrunning.sound.inv a
  -- the tick keeps the entry
  have hkeeps : ((cₛ.nodes a).store.expireAt now []).1.toMap id = (cₛ.nodes a).store.toMap id := by
    have hages := hkept s cₛ a now arm hs hevent
    rw [Runtime.ages, htick] at hages
    dsimp only at hages
    rw [CellStore.expireAt, CellStore.expire_toMap hinv, CellStore.agedAt_eq hinv, hages]
    rfl
  cases hm : (cₛ.nodes a).store.toMap id with
  | bot => exact bot_le
  | coe count =>
    obtain ⟨groups, hall, hlen, hentries⟩ :=
      Runtime.framePackets_spec (hrunning.reachable a) hfull
    obtain ⟨row, hrow, hentry⟩ := hentries id (by rw [hkeeps, hm]; exact WithBot.coe_ne_bot)
    obtain ⟨packet, hpacket, rows, hdec, hmem, hrows⟩ := exists_packet_of_row hall hrow
    obtain ⟨u, cᵤ, now', arm', -, hut, hu, hevent', htakes⟩ := htaken packet hpacket
    have hrunning' := h.run _ hu
    obtain ⟨pins', hinv'⟩ := hrunning'.sound.inv b
    obtain ⟨cᵥ, hv⟩ := exists_run_take hrun (u + 1)
    have hstep := run_take_succ hu hevent'
    rw [hv] at hstep
    obtain ⟨-, hit, -⟩ := step_nodes hrunning'.sound hstep.symm
    have hraised := htakes.le_toMap hinv' hdec (hrows.trans hlen) hit hmem
    rw [hentry] at hraised
    calc WithBot.some count = ((cₛ.nodes a).store.expireAt now []).1.toMap id := by rw [hkeeps, hm]
      _ ≤ (cᵥ.nodes b).store.toMap id := hraised
      _ ≤ (cₜ.nodes b).store.toMap id := toMap_mono h hrun hkept hut hv ht b

/-- **What a node holds at step `s` reaches another by step `t`**, over any number of hops. -/
inductive Path (env : Platform) (c₀ : Cluster ι w) (events : List (ι × ℕ × ArmOutcome)) (s : ℕ)
    (a : ι) : ℕ → ι → Prop
  | here : Path env c₀ events s a s a
  | later {t t' : ℕ} {b : ι} : Path env c₀ events s a t b → t ≤ t' → Path env c₀ events s a t' b
  | hop {t t' : ℕ} {b b' : ι} : Path env c₀ events s a t b → Hop env c₀ events t t' b b' →
      Path env c₀ events s a t' b'

theorem Path.le (h : Running env ids c₀) (hrun : c₀.run env events = some c)
    (hkept : Kept env c₀ events id) {s t : ℕ} {a b : ι} (path : Path env c₀ events s a t b)
    {cₛ cₜ : Cluster ι w} (hs : c₀.run env (events.take s) = some cₛ)
    (ht : c₀.run env (events.take t) = some cₜ) :
    (cₛ.nodes a).store.toMap id ≤ (cₜ.nodes b).store.toMap id := by
  induction path generalizing cₜ with
  | here =>
    rw [hs] at ht
    cases ht
    exact le_rfl
  | @later t t' b path hle ih =>
    obtain ⟨cᵤ, hu⟩ := exists_run_take hrun t
    exact (ih hu).trans (toMap_mono h hrun hkept hle hu ht b)
  | @hop t t' b b' path hop ih =>
    obtain ⟨cᵤ, hu⟩ := exists_run_take hrun t
    exact (ih hu).trans (hop.le h hrun hkept hu ht)

/-- A run that keeps the cell never marks it expired. -/
theorem not_expired (hstart : Start ids c₀) (hrun : c₀.run env events = some c) {o : ι}
    {k : CellIdentity} (hkept : Kept env c₀ events (k.ofNode (ids o))) {t : ℕ} {cₜ : Cluster ι w}
    (ht : c₀.run env (events.take t) = some cₜ) : cₜ.expired o k = false := by
  induction t generalizing cₜ with
  | zero =>
    cases ht
    rw [hstart.expired]
  | succ t ih =>
    obtain ⟨cᵤ, hu, rfl | ⟨n, now, arm, hevent, hstep⟩⟩ := run_take_cases hrun ht
    · exact ih hu
    · have hsound : Sound env ids cᵤ := hstart.sound.run _ hu
      have hle := toMap_le_step hsound (hkept t cᵤ n now arm hu hevent) hstep o
      have hidentity := (hsound.step hstep).identity o
      unfold Cluster.step at hstep
      split_ifs at hstep
      obtain ⟨r', -, rfl⟩ := Option.map_eq_some_iff.1 hstep
      by_cases hon : o = n
      · subst hon
        rw [advance_nodes_self] at hle hidentity
        rw [advance_expired_self, ih hu, Bool.false_or]
        -- the entry does not fall to nothing
        by_contra hlost
        rw [Bool.not_eq_false, Bool.and_eq_true, Bool.not_eq_true', holdsOwn, holdsOwn,
          hsound.identity o, hidentity, decide_eq_true_eq, decide_eq_false_iff_not,
          not_not] at hlost
        exact hlost.1 (le_bot_iff.1 (hlost.2 ▸ hle))
      · rw [advance_expired_of_ne cᵤ n arm r' hon]
        exact ih hu

/-- **The cluster converges.**  Start any nodes with distinct identities and run any interleaving
    of their loops, in which every datagram received was sent before.  If no tick of the run
    expires the cell that counts `k` for origin `o`, then a node that a path of full frames has
    reached, from `o` after its last hit on `k`, holds exactly what `o` has accepted, up to
    saturation; whatever else was sent, lost, repeated or reordered on the way. -/
theorem cluster_converges (env : Platform) (ids : ι → NodeIdentity) {c₀ c : Cluster ι w}
    (hstart : Start ids c₀) (events : List (ι × ℕ × ArmOutcome))
    (hrun : c₀.run env events = some c) {o n : ι} {k : CellIdentity}
    (hkept : Kept env c₀ events (k.ofNode (ids o))) {s : ℕ} {cₛ : Cluster ι w}
    (hs : c₀.run env (events.take s) = some cₛ) (hlast : cₛ.accepted o k = c.accepted o k)
    (hpath : Path env c₀ events s o events.length n) :
    ((c.nodes n).store.toMap (k.ofNode (ids o))).unbotD 0 =
      w.saturatingFromU64 (c.accepted o k) := by
  have hsound : Sound env ids c := hstart.sound.run events hrun
  have hsoundₛ : Sound env ids cₛ := hstart.sound.run _ hs
  have hend : c₀.run env (events.take events.length) = some c := by rwa [List.take_length]
  have hle := hpath.le hstart.running hrun hkept hs hend
  have hown := hsoundₛ.own o k (not_expired hstart hrun hkept hs)
  have htotal : cₛ.total o k = c.total o k := congrArg w.saturatingFromU64 hlast
  rw [htotal] at hown
  refine le_antisymm ?_ ?_
  · -- no node holds more
    cases hm : (c.nodes n).store.toMap (k.ofNode (ids o)) with
    | bot => exact Nat.zero_le _
    | coe count => exact hsound.bounded n _ count hm o rfl
  · refine hown.ge.trans ?_
    cases hm : (cₛ.nodes o).store.toMap (k.ofNode (ids o)) with
    | bot => exact Nat.zero_le _
    | coe count =>
      rw [hm] at hle
      obtain ⟨more, hmore, hcount⟩ := WithBot.coe_le_iff.1 hle
      rw [hmore, WithBot.unbotD_coe]
      exact hcount

/-! ### Four hits at one of two nodes -/

/-- No step of the run expires the cell, as a check. -/
def keptCheck (env : Platform) (c₀ : Cluster ι w) (events : List (ι × ℕ × ArmOutcome))
    (id : CellId) : Bool :=
  (List.range events.length).all fun t =>
    match c₀.run env (events.take t), events[t]? with
    | some c, some (n, now, arm) => !(c.nodes n).ages now arm id
    | _, _ => true

theorem kept_of_check (h : keptCheck env c₀ events id = true) : Kept env c₀ events id := by
  intro t c n now arm hc hevent
  have ht : t < events.length := (List.getElem?_eq_some_iff.1 hevent).1
  have hcheck := List.all_eq_true.1 h t (List.mem_range.2 ht)
  rw [hc, hevent] at hcheck
  simpa using hcheck

/-- The packet of the first node's flush brings its four hits to the second. -/
theorem cluster_converges_pair : ∃ (c₀ c : Cluster Bool .u32) (packet : List UInt8),
    Start pairIds c₀ ∧ c₀.run Runtime.tinyPlatform (pairEvents packet) = some c ∧
      c.accepted false Runtime.tinyRequest.identity = 4 ∧
      ((c.nodes true).store.toMap (Runtime.tinyRequest.identity.ofNode (pairIds false))).unbotD 0 =
        CountWidth.u32.saturatingFromU64 (c.accepted false Runtime.tinyRequest.identity) := by
  have heval : (pair.bind fun c₀ =>
      (c₀.run Runtime.tinyPlatform ((pairEvents []).take 3)).bind fun c₁ =>
        (c₀.run Runtime.tinyPlatform (pairEvents (c₁.network.headD []))).bind fun c =>
        (c₀.run Runtime.tinyPlatform ((pairEvents (c₁.network.headD [])).take 1)).bind fun cₛ =>
        (c₀.run Runtime.tinyPlatform ((pairEvents (c₁.network.headD [])).take 3)).bind fun cᵤ =>
        ((Runtime.tickState Runtime.tinyPlatform (cₛ.nodes false).tickStart 5001 0).frameFor 0).map
          fun (_, _, handles) =>
          (decide (cₛ.accepted false Runtime.tinyRequest.identity = 4 ∧
              c.accepted false Runtime.tinyRequest.identity = 4 ∧
              (cₛ.nodes false).wantImmediateFlush = true ∧
              ¬ ((cₛ.nodes false).tickStart.expireTick 5001).Idle ∧
              0 < ((cₛ.nodes false).tickStart.expireTick 5001).pickCount Runtime.tinyPlatform ∧
              handles.length ≠ 0 ∧
              ((cₛ.nodes false).store.expireAt 5001 []).1.activeLen ≤
                (cₛ.nodes false).config.maxCellsPerTick ∧
              Wire.minPayloadBytes 4 (Wire.authOverhead (cₛ.nodes false).config.authKey) ≤
                (cₛ.nodes false).config.wireLimits.maxPayloadBytes ∧
              (cₛ.nodes false).config.wireLimits.maxPayloadBytes < 2 ^ 32 ∧
              Runtime.framePackets Runtime.tinyPlatform (cₛ.nodes false) 5001 0 =
                [c₁.network.headD []]),
            decide ((cᵤ.nodes true).wantImmediateFlush = false ∧
              (cᵤ.nodes true).config.authKey = (cₛ.nodes false).config.authKey ∧
              (c₁.network.headD []).length ≤ (cᵤ.nodes true).config.wireLimits.maxPayloadBytes ∧
              ((cₛ.nodes false).store.expireAt 5001 []).1.activeLen ≤
                (cᵤ.nodes true).config.wireLimits.maxCells),
            ((cᵤ.nodes true).tableCall Runtime.tinyPlatform 5003
              (.inbound (some (c₁.network.headD [], ⟨1, 7000⟩)))).all
                (cᵤ.nodes true).store.accepted,
            keptCheck Runtime.tinyPlatform c₀ (pairEvents (c₁.network.headD []))
              (Runtime.tinyRequest.identity.ofNode (pairIds false)))) =
      some (true, true, true, true) := by decide +kernel
  obtain ⟨c₀, hpair, hrest⟩ := Option.bind_eq_some_iff.1 heval
  obtain ⟨c₁, -, hrest⟩ := Option.bind_eq_some_iff.1 hrest
  obtain ⟨c, hrun, hrest⟩ := Option.bind_eq_some_iff.1 hrest
  obtain ⟨cₛ, hs, hrest⟩ := Option.bind_eq_some_iff.1 hrest
  obtain ⟨cᵤ, hu, hrest⟩ := Option.bind_eq_some_iff.1 hrest
  obtain ⟨⟨dst, store, handles⟩, hframe, hvals⟩ := Option.map_eq_some_iff.1 hrest
  simp only [Prod.mk.injEq, decide_eq_true_eq] at hvals
  obtain ⟨⟨hfour, hfour', hflush, hbusy, hpicked, hhandles, hroom, hpayload, hbudget, hpackets⟩,
    ⟨hcalm, hkey, hlength, hcells⟩, haccepted, hkept⟩ := hvals
  have hfull : Runtime.FullFrame Runtime.tinyPlatform (cₛ.nodes false) 5001 0 := by
    refine ⟨⟨dst, store, handles, hbusy, hpicked, hframe, ?_⟩, hroom, hpayload, hbudget⟩
    exact fun hnil => hhandles (congrArg List.length hnil)
  have hfired : (cᵤ.nodes true).firedArm (.inbound (some (c₁.network.headD [], ⟨1, 7000⟩))) =
      .inbound (some (c₁.network.headD [], ⟨1, 7000⟩)) := by
    rw [Runtime.firedArm, if_neg (by rw [hcalm]; decide)]
  have hop : Hop Runtime.tinyPlatform c₀ (pairEvents (c₁.network.headD [])) 1 6 false true := by
    refine ⟨cₛ, 5001, .admin, 0, hs, rfl, by rw [Runtime.firedArm, if_pos hflush], hfull, ?_⟩
    intro packet hpacket
    rw [hpackets, List.mem_singleton] at hpacket
    subst hpacket
    refine ⟨3, cᵤ, 5003, _, by decide, by decide, hu, rfl, ⟨_, hfired⟩, hkey, hlength, hcells, ?_⟩
    intro call hcall
    rw [hfired] at hcall
    rw [hcall] at haccepted
    exact haccepted
  have hstart := pair_start hpair
  exact ⟨c₀, c, _, hstart, hrun, hfour',
    cluster_converges Runtime.tinyPlatform pairIds hstart _ hrun (kept_of_check hkept)
      hs (hfour.trans hfour'.symm) (.hop .here hop)⟩

end Cluster

end Gabion

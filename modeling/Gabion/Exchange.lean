/-
  One full exchange between two stores.

  A frame with room for all active cells of the sender is cut into packets; the packets
  arrive in any order, each at least once.  The receiver then holds the pointwise maximum of
  the two maps (`exchange_synchronises`).
-/
import Gabion.Refinement
import Gabion.Runtime
import Gabion.Sweep
import Gabion.Wire.Delivery

namespace Gabion

open Function SlotMap Wire

namespace CellStore

variable {w : CountWidth} {pins : ℕ → Bool}

/-- The rows a receiver reads from a datagram. -/
def received (mac : Mac) (w : CountWidth) (key : Option HmacKey) (limits : FrameLimits)
    (bytes : List UInt8) : Except DecodeError (List (Observation w)) :=
  match decodeInner mac w key limits (fun _ => true) bytes with
  | (cells, .ok _) => .ok (cells.map Runtime.observationFromWire)
  | (_, .error e) => .error e

/-- What a datagram makes the receiver do: a merge of its rows, if it decodes. -/
def inboundCalls (mac : Mac) (w : CountWidth) (key : Option HmacKey) (limits : FrameLimits)
    (bytes : List UInt8) : List (StoreCall w) :=
  match received mac w key limits bytes with
  | .ok obs => [.mergeRemote obs]
  | .error _ => []

section
variable {mac : Mac} {key : Option HmacKey} {limits : FrameLimits}

/-- The row of a cell as its receiver sees it. -/
def observed (w : CountWidth) (row : Row) : Observation w :=
  Runtime.observationFromWire (row.wireCell w)

theorem received_eq {bytes : List UInt8} {rows : List Row} (h : DecodesTo mac w key bytes rows)
    (hpay : bytes.length ≤ limits.maxPayloadBytes) (hcells : rows.length ≤ limits.maxCells) :
    received mac w key limits bytes = .ok (rows.map (observed w)) := by
  obtain ⟨summary, hdec⟩ := h limits (fun _ => true) hpay hcells fun _ => rfl
  unfold received
  rw [hdec]
  dsimp only
  rw [List.map_map]
  rfl

/-- The packets of a frame together are received as its rows. -/
theorem received_all {packets : List (List UInt8)} {groups : List (List Row)}
    (hall : List.Forall₂ (DecodesTo mac w key) packets groups)
    (hpay : ∀ packet ∈ packets, packet.length ≤ limits.maxPayloadBytes)
    (hcells : groups.flatten.length ≤ limits.maxCells) :
    (∀ packet ∈ packets, ∃ obs, received mac w key limits packet = .ok obs) ∧
      ∀ o, (∃ packet ∈ packets, ∃ obs, received mac w key limits packet = .ok obs ∧ o ∈ obs) ↔
        ∃ row ∈ groups.flatten, observed w row = o := by
  induction hall with
  | nil => simp
  | @cons packet rows packets groups hdec _ ih =>
    rw [List.flatten_cons, List.length_append] at hcells
    rw [List.forall_mem_cons] at hpay
    obtain ⟨hok, hmem⟩ := ih hpay.2 (by omega)
    have hrec := received_eq hdec hpay.1 (by omega)
    refine ⟨List.forall_mem_cons.2 ⟨⟨_, hrec⟩, hok⟩, fun o => ?_⟩
    rw [List.exists_mem_cons_iff, hmem, hrec, List.flatten_cons]
    simp only [Except.ok.injEq, exists_eq_left', List.mem_map, List.mem_append, or_and_right,
      exists_or]

/-- Datagrams that decode are merged one batch after the other. -/
theorem inboundCalls_eq : ∀ deliveries : List (List UInt8),
    (∀ d ∈ deliveries, ∃ obs, received mac w key limits d = .ok obs) →
    ∃ batches : List (List (Observation w)),
      deliveries.flatMap (inboundCalls mac w key limits) = batches.map .mergeRemote ∧
      ∀ o, o ∈ batches.flatten ↔
        ∃ d ∈ deliveries, ∃ obs, received mac w key limits d = .ok obs ∧ o ∈ obs
  | [], _ => ⟨[], rfl, by simp⟩
  | d :: deliveries, h => by
    obtain ⟨⟨obs, hobs⟩, hrest⟩ := List.forall_mem_cons.1 h
    obtain ⟨batches, hcalls, hmem⟩ := inboundCalls_eq deliveries hrest
    refine ⟨obs :: batches, ?_, fun o => ?_⟩
    · rw [List.flatMap_cons, hcalls, inboundCalls, hobs]
      rfl
    · rw [List.flatten_cons, List.mem_append, hmem, List.exists_mem_cons_iff, hobs]
      simp only [Except.ok.injEq, exists_eq_left']

end

/-- The rows of a frame with all active cells are the entries of the map. -/
theorem entries_of_frame {t : CellTable w} (h : t.Inv pins) {frame : List CellHandle}
    (hall : ∀ x, t.isActive x = true → t.handleFor x ∈ frame) :
    (∀ row ∈ frame.filterMap (rowOf t), (observed w row).entry.2 = t.toMap (observed w row).entry.1) ∧
      ∀ k, t.toMap k ≠ ⊥ →
        ∃ row ∈ frame.filterMap (rowOf t), (observed w row).entry = (k, t.toMap k) := by
  have hentry : ∀ {c : CellHandle} {row : Row}, rowOf t c = some row →
      (observed w row).entry.2 = t.toMap (observed w row).entry.1 := fun hrow =>
    (rowOf_toMap h hrow).symm
  refine ⟨fun row hrow => ?_, fun k hk => ?_⟩
  · obtain ⟨c, -, hc⟩ := List.mem_filterMap.1 hrow
    exact hentry hc
  · obtain ⟨n, hn⟩ := WithBot.ne_bot_iff_exists.1 hk
    obtain ⟨x, hx, hid, -⟩ := h.toMap_eq_coe.1 hn.symm
    obtain ⟨row, hrow, hrid⟩ := rowOf_handleFor h hx
    have hkey : (observed w row).entry.1 = k := hrid.trans hid
    refine ⟨row, List.mem_filterMap.2 ⟨_, hall x hx, hrow⟩, Prod.ext hkey ?_⟩
    rw [hentry hrow, hkey]

/-- **One full exchange synchronises.**  Whatever is in the rings and frontiers of `a`, a frame
    of at least `a.activeLen` cells is encoded completely under any accepted payload budget
    below 4 GiB; and a store `b` that gets each of the packets at least once, in any order,
    and rejects no row, ends with the pointwise maximum of the two maps. -/
theorem exchange_synchronises (mac : Mac) (a b : CellStore w) (ha : a.Reachable) (hb : b.Reachable)
    (dest : Option ℕ) (maxCells : ℕ) (hmax : a.activeLen ≤ maxCells) (header : Header)
    (key : Option HmacKey) (limits : FrameLimits) (hbudget : limits.maxPayloadBytes < 2 ^ 32)
    (p : Packets)
    (hp : Packets.new w header (a.fillFrameFor maxCells dest).2 key limits = .ok p) :
    ∃ packets, p.drain mac (a.fillFrameFor maxCells dest).1.toCellTable (p.handles.length + 1) =
        some packets ∧
      ∀ (limitsB : FrameLimits) (deliveries : List (List UInt8)),
        (∀ packet ∈ packets, packet.length ≤ limitsB.maxPayloadBytes) →
        a.activeLen ≤ limitsB.maxCells →
        (∀ d, d ∈ deliveries ↔ d ∈ packets) →
        b.runAccepted (deliveries.flatMap (inboundCalls mac w key limitsB)) = true →
        (b.run (deliveries.flatMap (inboundCalls mac w key limitsB))).toMap = a.toMap ⊔ b.toMap := by
  obtain ⟨pa, hia, hla⟩ := ha.inv
  obtain ⟨pb, hib, hlb⟩ := hb.inv
  rw [fillFrameFor_eq] at hp ⊢
  have hframed := fillFrame_framed hla (a.lacksFor dest) maxCells
  have hcomplete := fun x => fillFrame_complete hia hla (a.lacksFor dest) hmax (x := x)
  rw [(sameData_fillFrame a _ maxCells).table]
  generalize (a.fillFrame (a.lacksFor dest) maxCells).2 = frame at hp hframed hcomplete
  unfold Packets.new at hp
  split_ifs at hp with hmin
  cases hp
  obtain ⟨packets, groups, hdrain, hall, hflat⟩ := drain_spec mac (countsFit hia)
    (frame.length + 1) ⟨header, frame, key, limits⟩ (Nat.lt_succ_self _) (not_lt.1 hmin) hbudget
  refine ⟨packets, hdrain, fun limitsB deliveries hpay hcells hdel hacc => ?_⟩
  dsimp only at hall hflat
  -- the packets are received as the rows of the frame, which are the entries of `a`
  have hlen : groups.flatten.length ≤ limitsB.maxCells := by
    rw [hflat]
    exact (List.length_filterMap_le _ _).trans ((hframed.length_le_active hia).trans hcells)
  obtain ⟨hok, hrows⟩ := received_all hall hpay hlen
  obtain ⟨batches, hcalls, hmem⟩ := inboundCalls_eq deliveries fun d hd => hok d ((hdel d).1 hd)
  have hobs : ∀ o, o ∈ batches.flatten ↔ ∃ row ∈ frame.filterMap (rowOf a.toCellTable),
      observed w row = o := fun o => by
    rw [hmem, ← hflat, ← hrows]
    simp only [hdel]
  obtain ⟨hentry, hfull⟩ := entries_of_frame hia hcomplete
  rw [hcalls] at hacc ⊢
  rw [run_toMap _ _ _ hib hlb hacc, specRun_merges]
  refine mergeAll_eq_sup (fun e he => ?_) (fun k hk => ?_) _
  · obtain ⟨o, ho, rfl⟩ := List.mem_map.1 he
    obtain ⟨row, hrow, rfl⟩ := (hobs o).1 ho
    exact hentry row hrow
  · obtain ⟨row, hrow, he⟩ := hfull k hk
    exact he ▸ List.mem_map_of_mem ((hobs _).2 ⟨row, hrow, rfl⟩)

/-- Two cells, of which the peer is believed to have everything. -/
def senderCalls : List (StoreCall .u32) :=
  [.ingestLocal [tinyHits], .mergeRemote [tinyHits], .frontier (.internPeer 2),
    .frontier (.recordAcked 0 0 9), .frontier (.recordAcked 0 1 9)]

def tinyMac : Mac := fun _ bytes => Vector.replicate 32 (bytes.headD 0)

def tinyKey : Option HmacKey := some (Vector.replicate 32 0)

/-- Room for one cell in a packet. -/
def tinyLimits : FrameLimits where
  maxPayloadBytes := minPayloadBytes 4 authTagLen
  maxCells := 2

def tinyHeader : Header where
  clusterIdHash := 5
  senderNodeId := 1
  senderIncarnation := 1
  countWidth := 0
  cellCount := 0
  bodyLen := 0
  minOriginSequence := 0
  maxOriginSequence := 0
  flags := 0

/-- The two packets of the frame arrive twice, once in reverse. -/
theorem exchange_synchronises_tiny : ∃ (a₀ a b₀ b : CellStore .u32) (p : Packets)
    (packets : List (List UInt8)),
    new .u32 tinyConfig tinyNode = some a₀ ∧ a = a₀.run senderCalls ∧
      new .u32 tinyConfig { nodeId := 2, incarnation := 1 } = some b₀ ∧
      b = b₀.run [.ingestLocal [tinyHits]] ∧
      Packets.new .u32 tinyHeader (a.fillFrameFor 2 (some 0)).2 tinyKey tinyLimits = .ok p ∧
      p.drain tinyMac (a.fillFrameFor 2 (some 0)).1.toCellTable (p.handles.length + 1) =
        some packets ∧
      packets.length = 2 ∧
      (b.run ((packets.reverse ++ packets).flatMap
        (inboundCalls tinyMac .u32 tinyKey tinyLimits))).toMap = a.toMap ⊔ b.toMap := by
  have heval : ((new .u32 tinyConfig { nodeId := 2, incarnation := 1 }).bind fun b₀ =>
      ((Packets.new .u32 tinyHeader ((tinyStore.run senderCalls).fillFrameFor 2 (some 0)).2
          tinyKey tinyLimits).toOption).bind fun p =>
        (p.drain tinyMac ((tinyStore.run senderCalls).fillFrameFor 2 (some 0)).1.toCellTable
            (p.handles.length + 1)).map fun packets =>
          (packets.length, (tinyStore.run senderCalls).activeLen,
            decide (∀ packet ∈ packets, packet.length ≤ tinyLimits.maxPayloadBytes),
            (b₀.run [.ingestLocal [tinyHits]]).runAccepted ((packets.reverse ++ packets).flatMap
              (inboundCalls tinyMac .u32 tinyKey tinyLimits)))) =
      some (2, 2, true, true) := by decide +kernel
  obtain ⟨b₀, hb, hrest⟩ := Option.bind_eq_some_iff.1 heval
  obtain ⟨p, hp, hrest⟩ := Option.bind_eq_some_iff.1 hrest
  obtain ⟨packets, hdrain, hvals⟩ := Option.map_eq_some_iff.1 hrest
  simp only [Prod.mk.injEq, decide_eq_true_eq] at hvals
  obtain ⟨hlen, hactive, hpay, hacc⟩ := hvals
  obtain ⟨packets', hdrain', h⟩ := exchange_synchronises tinyMac (tinyStore.run senderCalls)
    (b₀.run [.ingestLocal [tinyHits]]) ⟨_, _, _, _, tinyStore_new, rfl⟩ ⟨_, _, _, _, hb, rfl⟩
    (some 0) 2 hactive.le tinyHeader tinyKey tinyLimits (by decide) p (eq_ok_of_toOption hp)
  obtain rfl : packets = packets' := Option.some.inj (hdrain.symm.trans hdrain')
  exact ⟨tinyStore, _, b₀, _, p, packets, tinyStore_new, rfl, hb, rfl, eq_ok_of_toOption hp, hdrain,
    hlen, h tinyLimits _ hpay hactive.le (fun d => by simp) hacc⟩

end CellStore

end Gabion

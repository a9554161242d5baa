/-
  A frame survives the wire.

  The packets of an iterator are at most as long as its budget, only the last one goes
  without `FLAG_MORE`, and a receiver with the same key reads from them, packet by packet,
  the rows of the handles with every field as it was (`encode_decode_fidelity`).
-/
import Gabion.Refinement
import Gabion.Wire.Delivery

namespace Gabion

open Bytes

namespace Wire

variable {w : CountWidth} {s : CellTable w}

/-! ## Sequences -/

/-- The columns hold values of their types. -/
def Typed (s : CellTable w) : Prop := ∀ h row, rowOf s h = some row →
  row.cell.count ≤ w.max ∧ row.cell.lastUpdateMillis ≤ u64Max ∧ row.cell.originSequence ≤ u64Max

theorem Typed.countsFit (h : Typed s) : CountsFit s := fun handle row hrow => (h handle row hrow).1

theorem typed_of_columns (h : ∀ x < s.capacity, (s.cells x).count ≤ w.max ∧
    (s.cells x).lastUpdateMillis ≤ u64Max ∧ (s.cells x).originSequence ≤ u64Max) : Typed s := by
  intro handle row hrow
  obtain ⟨x, hx, hcell⟩ := Option.map_eq_some_iff.1 (rowOf_eq_some hrow).1
  obtain ⟨rfl, hlt, -, -⟩ := CellTable.resolve_eq_some hx
  rw [← hcell]
  exact h _ hlt

/-- The plan's sequences are the least and the greatest of its rows. -/
structure Plan.Spans (rows : List Row) (p : Plan) : Prop where
  start : rows = [] → p.minSeq = u64Max ∧ p.maxSeq = 0
  min_le : ∀ row ∈ rows, p.minSeq ≤ row.cell.originSequence
  min_mem : rows ≠ [] → ∃ row ∈ rows, row.cell.originSequence = p.minSeq
  le_max : ∀ row ∈ rows, row.cell.originSequence ≤ p.maxSeq
  max_mem : rows ≠ [] → ∃ row ∈ rows, row.cell.originSequence = p.maxSeq

theorem Plan.spans_start : Plan.Spans [] Plan.start := by
  constructor <;> simp [Plan.start]

theorem Plan.Spans.drop {rows : List Row} {p : Plan} (h : p.Spans rows) : p.drop.Spans rows :=
  ⟨h.1, h.2, h.3, h.4, h.5⟩

theorem Plan.Spans.emit {rows : List Row} {p : Plan} (h : p.Spans rows) {row : Row}
    (hrow : row.cell.originSequence ≤ u64Max) : (p.emit row).Spans (rows ++ [row]) := by
  have hlast : row ∈ rows ++ [row] := List.mem_append_right _ (List.mem_singleton_self row)
  have hmem : ∀ {q}, (∃ row' ∈ rows, row'.cell.originSequence = q) →
      ∃ row' ∈ rows ++ [row], row'.cell.originSequence = q := by
    rintro q ⟨row', hr, hq⟩
    exact ⟨row', List.mem_append_left _ hr, hq⟩
  constructor
  · intro hnil
    simp at hnil
  · intro row' hr
    rcases List.mem_append.1 hr with hr | hr
    · exact min_le_of_right_le (h.min_le row' hr)
    · rw [List.mem_singleton.1 hr]
      exact min_le_left _ _
  · intro _
    rcases le_total row.cell.originSequence p.minSeq with hle | hle
    · exact ⟨row, hlast, (min_eq_left hle).symm⟩
    · show ∃ row' ∈ rows ++ [row], row'.cell.originSequence = min row.cell.originSequence p.minSeq
      rw [min_eq_right hle]
      by_cases hnil : rows = []
      · rw [(h.start hnil).1] at hle ⊢
        exact ⟨row, hlast, le_antisymm hrow hle⟩
      · exact hmem (h.min_mem hnil)
  · intro row' hr
    rcases List.mem_append.1 hr with hr | hr
    · exact le_max_of_le_right (h.le_max row' hr)
    · rw [List.mem_singleton.1 hr]
      exact le_max_left _ _
  · intro _
    rcases le_total p.maxSeq row.cell.originSequence with hle | hle
    · exact ⟨row, hlast, (max_eq_left hle).symm⟩
    · show ∃ row' ∈ rows ++ [row], row'.cell.originSequence = max row.cell.originSequence p.maxSeq
      rw [max_eq_right hle]
      by_cases hnil : rows = []
      · rw [(h.start hnil).2] at hle ⊢
        exact ⟨row, hlast, Nat.le_zero.1 hle⟩
      · exact hmem (h.max_mem hnil)

/-- The rows of the handles a packet consumes. -/
def consumedRows (s : CellTable w) (handles : List CellHandle) (budget : ℕ) : List Row :=
  (handles.take (encodePacketBody s handles budget).1.handlesConsumed).filterMap (rowOf s)

/-- **The sequence bounds of a packet** are those of its rows; a packet without rows has 0. -/
theorem encodePacketBody_seq (hs : Typed s) (handles : List CellHandle) (budget : ℕ) :
    (encodePacketBody s handles budget).1.minOriginSequence =
        ((consumedRows s handles budget).map (·.cell.originSequence)).min?.getD 0 ∧
      (encodePacketBody s handles budget).1.maxOriginSequence =
        ((consumedRows s handles budget).map (·.cell.originSequence)).max?.getD 0 := by
  obtain ⟨k, -, hc, hok, hspan⟩ := planPacket_induct (s := s) budget
    (P := fun rows p => p.Ok s budget rows ∧ p.Spans rows) (fun h => ⟨h.1.drop, h.2.drop⟩)
    (fun h hrow hR hD hB => ⟨h.1.emit hrow hR hD hB, h.2.emit (hs _ _ hrow).2.2⟩)
    handles ⟨Plan.ok_start budget, Plan.spans_start⟩
  rw [List.nil_append] at hok hspan
  have hrows : consumedRows s handles budget = (handles.take k).filterMap (rowOf s) := by
    rw [consumedRows, handlesConsumed_eq, hc]
    congr 2
    exact Nat.zero_add k
  rw [hrows]
  unfold encodePacketBody
  dsimp only
  split_ifs with h0
  · -- nothing was taken
    rw [hok.emitted] at h0
    have hnil : (handles.take k).filterMap (rowOf s) = [] := by
      refine List.length_eq_zero_iff.1 ?_
      have : 0 < u32Max := by decide
      omega
    rw [hnil]
    exact ⟨rfl, rfl⟩
  · have hne : (handles.take k).filterMap (rowOf s) ≠ [] := by
      intro hnil
      rw [hok.emitted, hnil] at h0
      exact h0 rfl
    constructor
    · obtain ⟨row, hr, hq⟩ := hspan.min_mem hne
      rw [List.min?_eq_some_iff.2 ⟨List.mem_map.2 ⟨row, hr, hq⟩, ?_⟩]
      · rfl
      · intro q hq'
        obtain ⟨row', hr', rfl⟩ := List.mem_map.1 hq'
        exact hspan.min_le row' hr'
    · obtain ⟨row, hr, hq⟩ := hspan.max_mem hne
      rw [List.max?_eq_some_iff.2 ⟨List.mem_map.2 ⟨row, hr, hq⟩, ?_⟩]
      · rfl
      · intro q hq'
        obtain ⟨row', hr', rfl⟩ := List.mem_map.1 hq'
        exact hspan.le_max row' hr'

/-! ## One packet -/

namespace Packets

variable (mac : Mac) (s : CellTable w) (p : Packets)

/-- The bytes left for the body of a packet. -/
def bodyBudget : ℕ := p.limits.maxPayloadBytes - (headerLen + authOverhead p.key)

/-- What the encoder makes of the next handles. -/
def encoded : EncodedBody × List UInt8 := encodePacketBody s p.handles p.bodyBudget

/-- The iterator after the next packet. -/
def after : Packets := { p with handles := p.handles.drop (p.encoded s).1.handlesConsumed }

/-- The flags of the next packet. -/
def nextFlags : BitVec 16 :=
  packetFlags p.header.flags (decide ((p.after s).handles ≠ [])) p.key.isSome

/-- The header of the next packet. -/
def nextHeader : Header := packetHeader w p.header (p.encoded s).1 (p.nextFlags s)

/-- The bytes of the next packet. -/
def nextPacket : List UInt8 :=
  sealFrame mac p.key (patchHeader (p.nextHeader s) ++ (p.encoded s).2)

/-- The rows of the next packet. -/
def nextRows : List Row := (consumedRows s p.handles p.bodyBudget).take u32Max

variable {p s}

theorem encoded_pos (hp : p.Accepted w) (hne : p.handles ≠ []) :
    0 < (p.encoded s).1.handlesConsumed := by
  have hb : dictLenBytes + 32 + perCellIdentBytes + w.size ≤ p.bodyBudget := by
    unfold Packets.Accepted minPayloadBytes at hp
    unfold bodyBudget
    omega
  rw [encoded, handlesConsumed_eq]
  exact planPacket_progress hb hne

/-- **`next_into` never fails** on an accepted budget while handles are left. -/
theorem nextInto_eq (hp : p.Accepted w) (hne : p.handles ≠ []) :
    p.nextInto mac s = (p.after s, p.nextPacket mac s, .ok (some {
      cellsEmitted := (p.encoded s).1.cellsEmitted
      cellsDropped := (p.encoded s).1.cellsDropped
      flags := p.nextFlags s })) := by
  have hpos : ¬ ((encodePacketBody s p.handles
      (p.limits.maxPayloadBytes - (headerLen + authOverhead p.key))).1.cellsEmitted = 0 ∧
      (encodePacketBody s p.handles
        (p.limits.maxPayloadBytes - (headerLen + authOverhead p.key))).1.handlesConsumed = 0) := by
    rintro ⟨-, hzero⟩
    exact (encoded_pos (s := s) hp hne).ne' hzero
  unfold nextInto
  simp only [if_neg hne, if_neg hpos]
  rfl

theorem nextInto_nil (hnil : p.handles = []) : p.nextInto mac s = (p, [], .ok none) := by
  unfold nextInto
  rw [if_pos hnil]

theorem next_carries (hs : CountsFit s) :
    Carries s p.handles p.bodyBudget (p.nextRows s) (p.encoded s).1 (p.encoded s).2 := by
  obtain ⟨rows, h⟩ := encodePacketBody_carries hs p.handles p.bodyBudget
  have hrows : rows = p.nextRows s := h.rows_eq
  rw [← hrows]
  exact h

/-- Below 4 GiB the row counter does not saturate. -/
theorem nextRows_eq (hs : CountsFit s) (hb : p.bodyBudget < 2 ^ 32) :
    p.nextRows s = consumedRows s p.handles p.bodyBudget := by
  have hlt := (next_carries (p := p) hs).length_lt hb
  rw [nextRows, List.length_take] at hlt
  rw [nextRows, List.take_of_length_le (by omega)]

theorem nextRows_append (hs : CountsFit s) (hb : p.bodyBudget < 2 ^ 32) :
    p.nextRows s ++ (p.after s).handles.filterMap (rowOf s) = p.handles.filterMap (rowOf s) := by
  rw [nextRows_eq hs hb, consumedRows, after, encoded, ← List.filterMap_append,
    List.take_append_drop]

/-- A packet keeps to the payload limit. -/
theorem length_nextPacket (hs : CountsFit s) (hp : p.Accepted w) :
    (p.nextPacket mac s).length ≤ p.limits.maxPayloadBytes := by
  have hfits : (p.encoded s).2.length ≤ p.limits.maxPayloadBytes - (headerLen + authOverhead p.key) :=
    (next_carries (p := p) hs).fits
  rw [nextPacket, length_sealFrame, List.length_append, length_patchHeader]
  unfold Accepted minPayloadBytes at hp
  omega

end Packets

/-! ## What a receiver reads -/

/-- The cell has the fields of the row. -/
structure Row.Same (row : Row) (c : WireCell w) : Prop where
  ruleFingerprint : c.ruleFingerprint = row.fingerprint
  keyHash : c.keyHash = row.cell.key.keyHash
  bucket : c.bucket = row.cell.key.bucket
  originNodeId : c.originNodeId = row.nodeId
  originIncarnation : c.originIncarnation = row.cell.key.incarnation
  count : c.count = row.cell.count
  lastUpdateMillis : c.lastUpdateMillis = row.cell.lastUpdateMillis
  originSequence : c.originSequence = row.cell.originSequence

theorem Typed.same (hs : Typed s) {handle : CellHandle} {row : Row} (hrow : rowOf s handle = some row) :
    row.Same (row.wireCell w) := by
  obtain ⟨hcount, htime, hseq⟩ := hs handle row hrow
  have hlt : ∀ {n}, n ≤ u64Max → n < 2 ^ 64 := fun h => lt_of_le_of_lt h (by decide)
  exact ⟨rfl, rfl, rfl, rfl, rfl, min_eq_left hcount, Nat.mod_eq_of_lt (hlt htime),
    Nat.mod_eq_of_lt (hlt hseq)⟩

/-- What a receiver with the same key and a sufficient cell limit reads from a packet: its
    cells, whether more packets follow, and the range of the sequences. -/
def Reads (mac : Mac) (key : Option HmacKey) (limits : FrameLimits) (bytes : List UInt8)
    (more : Prop) (cells : List (WireCell w)) : Prop :=
  ∀ maxCells, cells.length ≤ maxCells → ∃ summary,
    decodeInner mac w key { limits with maxCells } (fun _ => true) bytes = (cells, .ok summary) ∧
      (summary.flags &&& flagMore ≠ 0 ↔ more) ∧
      summary.header.minOriginSequence.toNat = (cells.map (·.originSequence)).min?.getD 0 ∧
      summary.header.maxOriginSequence.toNat = (cells.map (·.originSequence)).max?.getD 0

/-- The packets of an iterator, with the cells read from each; more follow after all but the
    last. -/
inductive Stream (mac : Mac) (key : Option HmacKey) (limits : FrameLimits) :
    List (List UInt8) → List (List (WireCell w)) → Prop
  | nil : Stream mac key limits [] []
  | cons {bytes : List UInt8} {packets : List (List UInt8)} {cells : List (WireCell w)}
      {groups : List (List (WireCell w))} (hlen : bytes.length ≤ limits.maxPayloadBytes)
      (hreads : Reads mac key limits bytes (packets ≠ []) cells)
      (hrest : Stream mac key limits packets groups) :
      Stream mac key limits (bytes :: packets) (cells :: groups)

theorem packetFlags_more (flags : BitVec 16) (more auth : Bool) :
    packetFlags flags more auth &&& flagMore ≠ 0 ↔ more = true := by
  have hbit : ∀ f : BitVec 16, f &&& flagMore ≠ 0 ↔ f.getLsbD 0 = true := by
    intro f
    rw [show flagMore = 1#16 from rfl, BitVec.and_one_eq_setWidth_ofBool_getLsbD]
    cases f.getLsbD 0 <;> decide
  rw [hbit]
  cases more <;> cases auth <;> simp [packetFlags, flagMore, flagAuthenticated]

theorem Typed.sequence (hs : Typed s) {rows : List Row}
    (hrows : ∀ row ∈ rows, ∃ handle, rowOf s handle = some row) :
    (rows.map (Row.wireCell w)).map (·.originSequence) = rows.map (·.cell.originSequence) := by
  rw [List.map_map]
  refine List.map_congr_left fun row hrow => ?_
  obtain ⟨handle, hh⟩ := hrows row hrow
  exact (hs.same hh).originSequence

theorem nextPacket_reads (mac : Mac) (hs : Typed s) {p : Packets} (hp : p.Accepted w)
    (hpay : p.limits.maxPayloadBytes < 2 ^ 32) :
    Reads mac p.key p.limits (p.nextPacket mac s) ((p.after s).handles ≠ [])
      ((p.nextRows s).map (Row.wireCell w)) := by
  have hb : p.bodyBudget < 2 ^ 32 := lt_of_le_of_lt (Nat.sub_le _ _) hpay
  have hcar := Packets.next_carries (p := p) hs.countsFit
  have hrows : ∀ row ∈ p.nextRows s, ∃ handle, rowOf s handle = some row := by
    intro row hrow
    obtain ⟨handle, -, hh⟩ := List.mem_filterMap.1 (List.mem_of_mem_take hrow)
    exact ⟨handle, hh⟩
  -- the range fits the header's 64 bits
  have hbound : ∀ q ∈ (p.nextRows s).map (·.cell.originSequence), q ≤ u64Max := by
    intro q hq
    obtain ⟨row, hrow, rfl⟩ := List.mem_map.1 hq
    obtain ⟨handle, hh⟩ := hrows row hrow
    exact (hs handle row hh).2.2
  obtain ⟨hmin, hmax⟩ := encodePacketBody_seq hs p.handles p.bodyBudget
  rw [← Packets.nextRows_eq hs.countsFit hb] at hmin hmax
  intro maxCells hcells
  rw [List.length_map] at hcells
  refine ⟨_, hcar.decodeInner_sealFrame (hcar.fits.trans_lt hb) p.key p.header (p.nextFlags s)
    (Packets.length_nextPacket mac hs.countsFit hp) hcells (fun _ => rfl), ?_, ?_, ?_⟩
  · rw [Packets.nextFlags, packetFlags_more, decide_eq_true_eq]
  · rw [hs.sequence hrows]
    show (BitVec.ofNat 64 (p.encoded s).1.minOriginSequence).toNat = _
    rw [show (p.encoded s).1.minOriginSequence = _ from hmin, BitVec.toNat_ofNat]
    refine Nat.mod_eq_of_lt ?_
    cases hm : ((p.nextRows s).map (·.cell.originSequence)).min? with
    | none => decide
    | some q => exact lt_of_le_of_lt (hbound q (List.min?_eq_some_iff.1 hm).1) (by decide)
  · rw [hs.sequence hrows]
    show (BitVec.ofNat 64 (p.encoded s).1.maxOriginSequence).toNat = _
    rw [show (p.encoded s).1.maxOriginSequence = _ from hmax, BitVec.toNat_ofNat]
    refine Nat.mod_eq_of_lt ?_
    cases hm : ((p.nextRows s).map (·.cell.originSequence)).max? with
    | none => decide
    | some q => exact lt_of_le_of_lt (hbound q (List.max?_eq_some_iff.1 hm).1) (by decide)

/-! ## All packets -/

theorem drain_stream (mac : Mac) (hs : Typed s) : ∀ (fuel : ℕ) (p : Packets), p.handles.length < fuel →
    p.Accepted w → p.limits.maxPayloadBytes < 2 ^ 32 →
    ∃ (packets : List (List UInt8)) (groups : List (List Row)),
      p.drain mac s fuel = some packets ∧ (packets = [] ↔ p.handles = []) ∧
      Stream mac p.key p.limits packets (groups.map (List.map (Row.wireCell w))) ∧
      groups.flatten = p.handles.filterMap (rowOf s)
  | 0, _, hf, _, _ => absurd hf (Nat.not_lt_zero _)
  | fuel + 1, p, hf, hp, hpay => by
    by_cases hnil : p.handles = []
    · refine ⟨[], [], ?_, by simp [hnil], .nil, by simp [hnil]⟩
      rw [Packets.drain, Packets.nextInto_nil mac hnil]
    · have hpos := Packets.encoded_pos (s := s) hp hnil
      have hlt : (p.after s).handles.length < fuel := by
        have := List.length_pos_iff.2 hnil
        rw [Packets.after, List.length_drop]
        omega
      obtain ⟨packets, groups, hdrain, hlast, hstream, hflat⟩ :=
        drain_stream mac hs fuel (p.after s) hlt hp hpay
      have hb : p.bodyBudget < 2 ^ 32 := lt_of_le_of_lt (Nat.sub_le _ _) hpay
      refine ⟨p.nextPacket mac s :: packets, p.nextRows s :: groups, ?_, by simp [hnil], ?_, ?_⟩
      · rw [Packets.drain, Packets.nextInto_eq mac hp hnil]
        simp only [hdrain, Option.map_some]
      · have hreads := nextPacket_reads mac hs hp hpay
        rw [Ne, ← hlast] at hreads
        exact .cons (Packets.length_nextPacket mac hs.countsFit hp) hreads hstream
      · rw [List.flatten_cons, hflat, Packets.nextRows_append hs.countsFit hb]

/-- In a sound table every handle that resolves has a row. -/
theorem rowOf_isSome {pins : ℕ → Bool} (h : s.Inv pins) (handle : CellHandle) :
    (rowOf s handle).isSome = (s.resolve handle).isSome := by
  cases hr : s.resolve handle with
  | none => simp [rowOf, CellTable.get, hr]
  | some x =>
    obtain ⟨rfl, -, hact, hhandle⟩ := CellTable.resolve_eq_some hr
    obtain ⟨row, hrow, -⟩ := rowOf_handleFor h hact
    rw [hhandle, hrow]
    rfl

/-- **Encoding and decoding are faithful, with splitting.**  Whatever the table, the handles,
    the width, the key and a payload budget below 4 GiB that the constructor accepts: the
    iterator ends without an error, its packets keep to the budget, exactly those that are
    not the last have `FLAG_MORE`, each one decodes on its own once the cell limit admits
    its cells, and the cells read one after another are the rows of the handles that have
    one, in order and with every field.  In a sound table these are the handles that
    resolve. -/
theorem encode_decode_fidelity (mac : Mac) (hs : Typed s) (header : Header)
    (handles : List CellHandle) (key : Option HmacKey) (limits : FrameLimits)
    (hlimits : limits.maxPayloadBytes < 2 ^ 32) {p : Packets}
    (hp : Packets.new w header handles key limits = .ok p) :
    (∃ (packets : List (List UInt8)) (groups : List (List (WireCell w))),
      p.drain mac s (handles.length + 1) = some packets ∧
      Stream mac key limits packets groups ∧
      List.Forall₂ Row.Same (handles.filterMap (rowOf s)) groups.flatten) ∧
    ∀ pins, s.Inv pins → ∀ handle, (rowOf s handle).isSome = (s.resolve handle).isSome := by
  refine ⟨?_, fun pins h handle => rowOf_isSome h handle⟩
  unfold Packets.new at hp
  split_ifs at hp with hsmall
  cases hp
  obtain ⟨packets, groups, hdrain, -, hstream, hflat⟩ := drain_stream mac hs
    (handles.length + 1) { header, handles, key, limits } (Nat.lt_succ_self _) (not_lt.1 hsmall) hlimits
  refine ⟨packets, _, hdrain, hstream, ?_⟩
  rw [← List.map_flatten, hflat, List.forall₂_map_right_iff, List.forall₂_same]
  intro row hrow
  obtain ⟨handle, -, hh⟩ := List.mem_filterMap.1 hrow
  exact hs.same hh

/-! ### A frame to look at -/

/-- The smallest budget without a key: one cell of 32 bits to a packet. -/
def oneCellLimits : FrameLimits where
  maxPayloadBytes := minPayloadBytes 4 0
  maxCells := 1

def plainHeader : Header where
  clusterIdHash := 9
  senderNodeId := 1
  senderIncarnation := 1
  countWidth := 0
  cellCount := 0
  bodyLen := 0
  minOriginSequence := 0
  maxOriginSequence := 0
  flags := 0

/-- A store of two cells. -/
def mixedStore : CellStore .u32 :=
  tinyStore.run [.ingestLocal [CellStore.tinyHits], .mergeRemote [CellStore.tinyHits]]

/-- A live handle, a stale one, another live one, and the first again. -/
def mixedHandles : List CellHandle :=
  [{ index := 0, generation := 1 }, { index := 1, generation := 7 }, { index := 1, generation := 1 },
    { index := 0, generation := 1 }]

/-- The handles travel in three packets. -/
theorem encode_decode_fidelity_mixed : ∃ (s₀ : CellStore .u32) (p : Packets)
    (packets : List (List UInt8)) (groups : List (List (WireCell .u32))),
    CellStore.new .u32 CellStore.tinyConfig CellStore.tinyNode = some s₀ ∧
      Packets.new .u32 plainHeader mixedHandles none oneCellLimits = .ok p ∧
      p.drain (fun _ _ => Vector.replicate 32 0)
        (s₀.run [.ingestLocal [CellStore.tinyHits], .mergeRemote [CellStore.tinyHits]]).toCellTable 5 =
          some packets ∧ packets.length = 3 ∧
      Stream (fun _ _ => Vector.replicate 32 0) none oneCellLimits packets groups ∧
      List.Forall₂ Row.Same (mixedHandles.filterMap (rowOf
        (s₀.run [.ingestLocal [CellStore.tinyHits], .mergeRemote [CellStore.tinyHits]]).toCellTable))
          groups.flatten := by
  have heval : ((Packets.new .u32 plainHeader mixedHandles none oneCellLimits).toOption.bind
      fun p =>
      (p.drain (fun _ _ => Vector.replicate 32 0) mixedStore.toCellTable 5).map fun packets =>
        (packets.length, decide (∀ x < mixedStore.capacity,
          (mixedStore.cells x).count ≤ CountWidth.max .u32 ∧
          (mixedStore.cells x).lastUpdateMillis ≤ u64Max ∧
          (mixedStore.cells x).originSequence ≤ u64Max))) = some (3, true) := by
    decide +kernel
  obtain ⟨p, hp, hrest⟩ := Option.bind_eq_some_iff.1 heval
  obtain ⟨packets, hdrain, hvals⟩ := Option.map_eq_some_iff.1 hrest
  simp only [Prod.mk.injEq, decide_eq_true_eq] at hvals
  obtain ⟨hlen, htyped⟩ := hvals
  replace hp := eq_ok_of_toOption hp
  obtain ⟨⟨packets', groups, hdrain', hstream, hsame⟩, -⟩ := encode_decode_fidelity
    (fun _ _ => Vector.replicate 32 0) (typed_of_columns htyped) plainHeader mixedHandles none
    oneCellLimits (by decide) hp
  cases hdrain.symm.trans hdrain'
  exact ⟨tinyStore, p, packets, groups, tinyStore_new, hp, hdrain, hlen, hstream, hsame⟩

end Wire

end Gabion

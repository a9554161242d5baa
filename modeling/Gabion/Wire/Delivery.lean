/-
  From a frame to the cells a receiver decodes.

  An iterator whose budget was accepted writes packets until its handles are used up
  (`drain_spec`).  Each packet decodes to the rows it was made of, and the packets together
  hold the row of every handle.
-/
import Gabion.Wire.RoundTrip

namespace Gabion

open Bytes

namespace Wire

variable {w : CountWidth} {s : CellTable w} {mac : Mac}

/-- The packets of an iterator: `next_into` until it returns `None`. -/
def Packets.drain (mac : Mac) (s : CellTable w) : ℕ → Packets → Option (List (List UInt8))
  | 0, _ => none
  | fuel + 1, p =>
    match p.nextInto mac s with
    | (_, _, .ok none) => some []
    | (rest, buf, .ok (some _)) => (rest.drain mac s fuel).map (buf :: ·)
    | (_, _, .error _) => none

/-! ## Encoding does not get stuck -/

/-- A packet with the smallest accepted budget takes the first handle. -/
theorem planPacket_progress {budget : ℕ} (hb : dictLenBytes + 32 + perCellIdentBytes + w.size ≤ budget)
    {handles : List CellHandle} (hne : handles ≠ []) :
    0 < (planPacket s budget handles Plan.start).consumed := by
  obtain ⟨handle, rest, rfl⟩ := List.exists_cons_of_ne_nil hne
  have hok := Plan.ok_start (s := s) budget
  cases hrow : rowOf s handle with
  | none =>
    -- a stale handle is dropped
    obtain ⟨k, -, hc, -⟩ := planPacket_spec budget rest hok.drop
    simp only [planPacket, hrow]
    rw [hc]
    exact Nat.add_pos_left Nat.one_pos _
  | some row =>
    have hR : Plan.start.newR row = 1 := rfl
    have hD : Plan.start.newD row = 1 := rfl
    have hB : Plan.start.projectedBody w.size row ≤ budget := by
      refine le_trans (le_of_eq ?_) hb
      show dictLenBytes + 16 * 1 + 16 * 1 + (0 + 1) * (perCellIdentBytes + w.size) = _
      ring
    obtain ⟨k, -, hc, -⟩ := planPacket_spec budget rest (hok.emit hrow (by rw [hR]; decide)
      (by rw [hD]; decide) hB)
    simp only [planPacket, hrow]
    rw [if_neg (by rw [hR, hD]; decide), if_neg (not_lt.2 hB), hc]
    exact Nat.add_pos_left Nat.one_pos _

theorem handlesConsumed_eq (s : CellTable w) (handles : List CellHandle) (budget : ℕ) :
    (encodePacketBody s handles budget).1.handlesConsumed =
      (planPacket s budget handles Plan.start).consumed := by
  unfold encodePacketBody
  dsimp only
  split_ifs <;> rfl

/-- The budget test of `Packets::auth` and `Packets::unauth`. -/
def Packets.Accepted (w : CountWidth) (p : Packets) : Prop :=
  minPayloadBytes w.size (authOverhead p.key) ≤ p.limits.maxPayloadBytes

theorem nextInto_wrote (mac : Mac) (hs : CountsFit s) {p : Packets} (hp : p.Accepted w)
    (hne : p.handles ≠ []) :
    ∃ rows written, (p.nextInto mac s).2.2 = .ok (some written) ∧
      p.Wrote mac s (p.nextInto mac s).1 (p.nextInto mac s).2.1 rows := by
  rcases nextInto_cases mac hs p with ⟨-, hnil, -⟩ | ⟨-, -, hzero⟩ | ⟨rows, ⟨written, hw⟩, hwrote⟩
  · exact absurd hnil hne
  · rw [handlesConsumed_eq] at hzero
    refine absurd hzero (planPacket_progress ?_ hne).ne'
    unfold Packets.Accepted minPayloadBytes at hp
    omega
  · exact ⟨rows, written, hw, hwrote⟩

/-! ## Decoding a packet -/

/-- The bytes decode to the cells of these rows, for a receiver with the same key whose
    limits they keep. -/
def DecodesTo (mac : Mac) (w : CountWidth) (key : Option HmacKey) (bytes : List UInt8)
    (rows : List Row) : Prop :=
  ∀ (limits : FrameLimits) (accept : Header → Bool), bytes.length ≤ limits.maxPayloadBytes →
    rows.length ≤ limits.maxCells → (∀ header, accept header = true) →
    ∃ summary, decodeInner mac w key limits accept bytes = (rows.map (Row.wireCell w), .ok summary)

section
variable {handles : List CellHandle} {budget : ℕ} {rows : List Row} {e : EncodedBody}
  {body : List UInt8}

/-- A body below 4 GiB has fewer rows than the row counter can hold. -/
theorem Carries.length_lt (h : Carries s handles budget rows e body) (hb : budget < 2 ^ 32) :
    rows.length < u32Max := by
  obtain ⟨p, -, hbody⟩ := h.body
  have hfits := h.fits
  split_ifs at hbody with hnil
  · rw [hnil]; decide
  · rw [hbody, length_body] at hfits
    have hsize : rows.length ≤ rows.length * (perCellIdentBytes + w.size) :=
      Nat.le_mul_of_pos_right _ (Nat.add_pos_left (by decide) _)
    unfold u32Max
    omega

/-- The packet of a body below 4 GiB reads back as its header and its rows. -/
theorem Carries.decodeInner_sealFrame (h : Carries s handles budget rows e body)
    (hb : body.length < 2 ^ 32) (key : Option HmacKey) (hdr : Header) (flags : BitVec 16)
    {limits : FrameLimits} {accept : Header → Bool}
    (hpay : (sealFrame mac key (patchHeader (packetHeader w hdr e flags) ++ body)).length ≤
      limits.maxPayloadBytes)
    (hcells : rows.length ≤ limits.maxCells) (haccept : ∀ header, accept header = true) :
    decodeInner mac w key limits accept
        (sealFrame mac key (patchHeader (packetHeader w hdr e flags) ++ body)) =
      (rows.map (Row.wireCell w), .ok {
        header := packetHeader w hdr e flags
        cellCount := (packetHeader w hdr e flags).cellCount
        flags }) := by
  have hwidth : (packetHeader w hdr e flags).countWidth.toNat = w.size := by cases w <;> rfl
  have hcount := h.cellCount hdr flags
  have hbody : (packetHeader w hdr e flags).bodyLen.toNat = body.length := by
    show (BitVec.ofNat 32 e.bodyLen).toNat = _
    rw [h.bodyLen, BitVec.toNat_ofNat]
    exact Nat.mod_eq_of_lt hb
  rw [Wire.decodeInner_sealFrame hpay hwidth (hcount.le.trans hcells) hbody (haccept _), hcount,
    h.decode]
  rfl

theorem Carries.decodesTo (h : Carries s handles budget rows e body) (hb : body.length < 2 ^ 32)
    (key : Option HmacKey) (hdr : Header) (flags : BitVec 16) :
    DecodesTo mac w key (sealFrame mac key (patchHeader (packetHeader w hdr e flags) ++ body))
      rows := fun _ _ hpay hcells haccept =>
  ⟨_, h.decodeInner_sealFrame hb key hdr flags hpay hcells haccept⟩

end

/-- What a packet takes from the iterator and what it decodes to. -/
theorem Packets.Wrote.split {p p' : Packets} {buf : List UInt8} {rows : List Row}
    (hw : p.Wrote mac s p' buf rows) (hpay : p.limits.maxPayloadBytes < 2 ^ 32) :
    DecodesTo mac w p.key buf rows ∧ p'.handles.length < p.handles.length ∧
      rows ++ p'.handles.filterMap (rowOf s) = p.handles.filterMap (rowOf s) := by
  obtain ⟨e, body, flags, hcar, hbuf⟩ := hw.frame
  obtain ⟨k, hk, hpos, hrest, hrows⟩ := hw.rest
  have hb : p.limits.maxPayloadBytes - (headerLen + authOverhead p.key) < 2 ^ 32 := by omega
  refine ⟨hbuf ▸ hcar.decodesTo (hcar.fits.trans_lt hb) p.key p.header flags, ?_, ?_⟩
  · rw [hrest, List.length_drop]
    omega
  · have hlen := hcar.length_lt hb
    have hall : rows = (p.handles.take k).filterMap (rowOf s) := by
      rw [hrows, List.length_take] at hlen
      rw [hrows, List.take_of_length_le (by omega)]
    rw [hall, hrest, ← List.filterMap_append, List.take_append_drop]

/-! ## All packets -/

/-- **An iterator delivers every row**: it ends, its packets decode to groups of rows, and
    the groups in order are the rows of the handles. -/
theorem drain_spec (mac : Mac) (hs : CountsFit s) : ∀ (fuel : ℕ) (p : Packets),
    p.handles.length < fuel → p.Accepted w → p.limits.maxPayloadBytes < 2 ^ 32 →
    ∃ packets groups, p.drain mac s fuel = some packets ∧
      List.Forall₂ (DecodesTo mac w p.key) packets groups ∧
      groups.flatten = p.handles.filterMap (rowOf s)
  | 0, _, hf, _, _ => absurd hf (Nat.not_lt_zero _)
  | fuel + 1, p, hf, hp, hpay => by
    by_cases hnil : p.handles = []
    · have hnext : p.nextInto mac s = (p, [], .ok none) := by
        unfold Packets.nextInto
        rw [if_pos hnil]
      refine ⟨[], [], ?_, .nil, by rw [hnil]; rfl⟩
      rw [Packets.drain, hnext]
    · obtain ⟨rows, written, hres, hw⟩ := nextInto_wrote mac hs hp hnil
      rcases hnext : p.nextInto mac s with ⟨rest, buf, res⟩
      rw [hnext] at hres hw
      obtain rfl : res = .ok (some written) := hres
      obtain ⟨hdec, hlt, hsplit⟩ := hw.split hpay
      obtain ⟨-, hkey, hlim⟩ := hw.same
      have hp' : rest.Accepted w := by
        unfold Packets.Accepted
        rw [hkey, hlim]
        exact hp
      obtain ⟨packets, groups, hdrain, hall, hflat⟩ := drain_spec mac hs fuel rest
        (by dsimp only at hlt; omega) hp' (by rw [hlim]; exact hpay)
      rw [hkey] at hall
      refine ⟨buf :: packets, rows :: groups, ?_, .cons hdec hall, ?_⟩
      · rw [Packets.drain, hnext]
        simp only [hdrain, Option.map_some]
      · rw [List.flatten_cons, hflat, hsplit]

/-- An active cell has a row, and it is the cell's entry of the map. -/
theorem rowOf_handleFor {pins : ℕ → Bool} (h : s.Inv pins) {x : ℕ} (hx : s.isActive x = true) :
    ∃ row, rowOf s (s.handleFor x) = some row ∧ (row.wireCell w).id = s.idOf x := by
  have hget : s.get (s.handleFor x) = some (s.cells x) := by
    rw [CellTable.get, h.resolve_handleFor hx]
    rfl
  have hnode := h.nodes.descriptor_of_pos (h.node_pos hx)
  refine ⟨⟨s.cells x, _, _⟩, ?_, rfl⟩
  simp only [rowOf, hget, Option.bind_eq_bind, Option.bind_some, h.descriptor_rule hx, hnode]
  rfl

end Wire

end Gabion

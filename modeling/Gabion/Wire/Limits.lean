/-
  Which limits let peers understand each other.

  The encoder bounds the bytes of a packet, the decoder its bytes and its cells, and the
  length of the body travels in 32 bits.  `Roomy` says when the cells that fit the bytes
  stay within the other two bounds; below it, some frame makes a packet that a receiver
  with the same limits refuses (`packets_understood_iff`).
-/
import Gabion.Wire.Fidelity

namespace Gabion

open Function Bytes

namespace Wire

variable {w : CountWidth} {s : CellTable w}

/-! ## Packets that take everything -/

/-- One handle of a plan that never stops. -/
def Plan.take (s : CellTable w) (p : Plan) (handle : CellHandle) : Plan :=
  match rowOf s handle with
  | none => p.drop
  | some row => p.emit row

theorem Plan.length_take (s : CellTable w) (p : Plan) (handle : CellHandle) :
    p.rules.entries.length ≤ (p.take s handle).rules.entries.length ∧
      p.nodes.entries.length ≤ (p.take s handle).nodes.entries.length ∧
      (p.take s handle).cellsEmitted ≤ p.cellsEmitted + 1 := by
  unfold Plan.take
  cases rowOf s handle with
  | none => exact ⟨le_rfl, le_rfl, Nat.le_succ _⟩
  | some row =>
    refine ⟨?_, ?_, min_le_left _ _⟩
    · show _ ≤ (p.rules.add _ _).entries.length
      rw [PacketDict.length_add]
      exact Nat.le_add_right _ _
    · show _ ≤ (p.nodes.add _ _).entries.length
      rw [PacketDict.length_add]
      exact Nat.le_add_right _ _

theorem Plan.length_takes (s : CellTable w) (handles : List CellHandle) (p : Plan) :
    p.rules.entries.length ≤ (handles.foldl (Plan.take s) p).rules.entries.length ∧
      p.nodes.entries.length ≤ (handles.foldl (Plan.take s) p).nodes.entries.length := by
  induction handles generalizing p with
  | nil => exact ⟨le_rfl, le_rfl⟩
  | cons handle rest ih =>
    obtain ⟨h1, h2, -⟩ := p.length_take s handle
    obtain ⟨h3, h4⟩ := ih (p.take s handle)
    exact ⟨h1.trans h3, h2.trans h4⟩

/-- **A plan that fits as a whole never stops.** -/
theorem planPacket_all (budget : ℕ) : ∀ (handles : List CellHandle) (p : Plan),
    (handles.foldl (Plan.take s) p).rules.entries.length ≤ maxDictSlots →
    (handles.foldl (Plan.take s) p).nodes.entries.length ≤ maxDictSlots →
    dictLenBytes + 16 * (handles.foldl (Plan.take s) p).rules.entries.length +
      16 * (handles.foldl (Plan.take s) p).nodes.entries.length +
      (p.cellsEmitted + handles.length) * (perCellIdentBytes + w.size) ≤ budget →
    planPacket s budget handles p = handles.foldl (Plan.take s) p
  | [], _, _, _, _ => rfl
  | handle :: rest, p, hR, hD, hB => by
    have htake := p.length_take s handle
    have hrest := Plan.length_takes s rest (p.take s handle)
    rw [List.foldl_cons] at hR hD hB ⊢
    have hcells : ((p.take s handle).cellsEmitted + rest.length) * (perCellIdentBytes + w.size) ≤
        (p.cellsEmitted + (handle :: rest).length) * (perCellIdentBytes + w.size) := by
      refine Nat.mul_le_mul_right _ ?_
      rw [List.length_cons]
      omega
    have hnext := planPacket_all budget rest (p.take s handle) hR hD (by omega)
    unfold Plan.take at htake hrest hnext ⊢
    cases hrow : rowOf s handle with
    | none =>
      simp only [hrow] at hnext
      simp only [planPacket, hrow]
      exact hnext
    | some row =>
      simp only [hrow] at hnext hrest
      have hRlen : p.newR row = (p.emit row).rules.entries.length :=
        (PacketDict.length_add p.rules _ row.fingerprint).symm
      have hDlen : p.newD row = (p.emit row).nodes.entries.length :=
        (PacketDict.length_add p.nodes _ row.nodeId).symm
      unfold Plan.take at hR hD hB
      simp only [hrow] at hR hD hB
      have hone : (p.cellsEmitted + 1) * (perCellIdentBytes + w.size) ≤
          (p.cellsEmitted + (handle :: rest).length) * (perCellIdentBytes + w.size) := by
        refine Nat.mul_le_mul_right _ ?_
        rw [List.length_cons]
        omega
      have hbody : p.projectedBody w.size row ≤ budget := by
        rw [Plan.projectedBody, hRlen, hDlen]
        omega
      simp only [planPacket, hrow]
      rw [if_neg (by rw [hRlen, hDlen]; omega), if_neg (not_lt.2 hbody)]
      exact hnext

/-- The plan has seen the rule and the origin of the row. -/
def Plan.Seen (p : Plan) (row : Row) : Prop :=
  (p.rules.remap row.cell.key.rule).isSome = true ∧ (p.nodes.remap row.cell.key.origin).isSome = true

theorem PacketDict.add_seen {α : Type} {d : PacketDict α} {slot : ℕ}
    (h : (d.remap slot).isSome = true) (entry : α) : d.add slot entry = d := by
  have : d.unseen slot = false := by
    rw [PacketDict.unseen]
    cases hd : d.remap slot with
    | none => simp [hd] at h
    | some i => rfl
  simp [PacketDict.add, this]

/-- Repeating a handle whose rule and origin are in the packet only adds cells. -/
theorem Plan.take_replicate {handle : CellHandle} {row : Row} (hrow : rowOf s handle = some row) :
    ∀ (m : ℕ) (p : Plan), p.Seen row → p.cellsEmitted ≤ u32Max →
      ((List.replicate m handle).foldl (Plan.take s) p).rules = p.rules ∧
      ((List.replicate m handle).foldl (Plan.take s) p).nodes = p.nodes ∧
      ((List.replicate m handle).foldl (Plan.take s) p).cellsEmitted =
        min (p.cellsEmitted + m) u32Max
  | 0, p, _, hle => ⟨rfl, rfl, (min_eq_left hle).symm⟩
  | m + 1, p, hseen, hle => by
    have htake : p.take s handle = p.emit row := by
      rw [Plan.take, hrow]
    have hrules : (p.emit row).rules = p.rules := PacketDict.add_seen hseen.1 _
    have hnodes : (p.emit row).nodes = p.nodes := PacketDict.add_seen hseen.2 _
    have hseen' : (p.emit row).Seen row := by
      rw [Plan.Seen, hrules, hnodes]
      exact hseen
    obtain ⟨h1, h2, h3⟩ := Plan.take_replicate hrow m (p.emit row) hseen' (min_le_right _ _)
    rw [List.replicate_succ, List.foldl_cons, htake]
    refine ⟨h1.trans hrules, h2.trans hnodes, ?_⟩
    rw [h3]
    show min (min (p.cellsEmitted + 1) u32Max + m) u32Max = _
    omega

/-! ## What the decoder accepts -/

def Accepts (mac : Mac) (w : CountWidth) (key : Option HmacKey) (limits : FrameLimits)
    (bytes : List UInt8) : Prop :=
  ∃ cells summary, decodeInner mac w key limits (fun _ => true) bytes = (cells, .ok summary)

section
variable {handles : List CellHandle} {budget : ℕ} {rows : List Row} {e : EncodedBody}
  {body : List UInt8} {mac : Mac}

/-- More cells than the limit, or a body whose length does not fit its field. -/
theorem Carries.refused (h : Carries s handles budget rows e body) (key : Option HmacKey)
    (hdr : Header) (flags : BitVec 16) {limits : FrameLimits}
    (hbad : limits.maxCells < rows.length ∨ 2 ^ 32 ≤ body.length) :
    ¬ Accepts mac w key limits
      (sealFrame mac key (patchHeader (packetHeader w hdr e flags) ++ body)) := by
  rintro ⟨cells, summary, hd⟩
  have hread : readHeader (patchHeader (packetHeader w hdr e flags) ++ body) =
      .ok (packetHeader w hdr e flags) := readHeader_patchHeader _ _
  have hlen : (patchHeader (packetHeader w hdr e flags) ++ body).length =
      headerLen + body.length := by
    rw [List.length_append, length_patchHeader]
  have hbody : (packetHeader w hdr e flags).bodyLen.toNat = body.length % 2 ^ 32 := by
    show (BitVec.ofNat 32 e.bodyLen).toNat = _
    rw [h.bodyLen, BitVec.toNat_ofNat]
  unfold decodeInner at hd
  rw [openFrame_sealFrame] at hd
  dsimp only at hd
  unfold decodeFrame at hd
  rw [hread] at hd
  dsimp only at hd
  rw [h.cellCount, hbody, hlen] at hd
  -- a frame that decodes passed both tests
  suffices hpass : rows.length ≤ limits.maxCells ∧ body.length % 2 ^ 32 = body.length by
    have := Nat.mod_lt body.length (show 0 < 2 ^ 32 by decide)
    omega
  split_ifs at hd with h1 h2 h3 h4 h5
  · cases hd
  · cases hd
  · cases hd
  · cases hd
  · cases hd
  · cases hd
  all_goals exact ⟨not_lt.1 h4, Nat.add_left_cancel (not_not.1 h5)⟩

/-- The length of a body with rows. -/
theorem Carries.length_eq (h : Carries s handles budget rows e body) (hne : rows ≠ []) :
    ∃ R D, 1 ≤ R ∧ 1 ≤ D ∧
      body.length = dictLenBytes + 16 * R + 16 * D + rows.length * (perCellIdentBytes + w.size) := by
  obtain ⟨p, hcov, hbody⟩ := h.body
  obtain ⟨row, hrow⟩ := List.exists_mem_of_ne_nil rows hne
  obtain ⟨i, -, hi⟩ := hcov.rule row hrow
  obtain ⟨j, -, hj⟩ := hcov.node row hrow
  have hR := (List.getElem?_eq_some_iff.1 hi).1
  have hD := (List.getElem?_eq_some_iff.1 hj).1
  refine ⟨p.rules.entries.length, p.nodes.entries.length, by omega, by omega, ?_⟩
  rw [hbody, if_neg hne, length_body, dictLenBytes]
  ring

end

/-! ## Limits with room -/

/-- The bytes of body the limits leave. -/
def bodyRoom (key : Option HmacKey) (limits : FrameLimits) : ℕ :=
  limits.maxPayloadBytes - (headerLen + authOverhead key)

/-- The shortest body whose length does not fit 32 bits.  With counts of 16 bits every
    length is two more than a multiple of four. -/
def bodyLimit : CountWidth → ℕ
  | .u16 => 2 ^ 32 + 2
  | .u32 => 2 ^ 32
  | .u64 => 2 ^ 32

/-- As many cells of one rule and one origin as the bytes admit are within the cell limit,
    and no body is too long for its length field. -/
structure Roomy (w : CountWidth) (key : Option HmacKey) (limits : FrameLimits) : Prop where
  cells : (bodyRoom key limits - (dictLenBytes + 32)) / (perCellIdentBytes + w.size) ≤ limits.maxCells
  body : bodyRoom key limits < bodyLimit w

instance (w : CountWidth) (key : Option HmacKey) (limits : FrameLimits) :
    Decidable (Roomy w key limits) :=
  decidable_of_iff ((bodyRoom key limits - (dictLenBytes + 32)) / (perCellIdentBytes + w.size) ≤
    limits.maxCells ∧ bodyRoom key limits < bodyLimit w) ⟨fun h => ⟨h.1, h.2⟩, fun h => ⟨h.1, h.2⟩⟩

theorem Roomy.nextPacket (mac : Mac) (hs : CountsFit s) {p : Packets} (hp : p.Accepted w)
    (h : Roomy w p.key p.limits) : Accepts mac w p.key p.limits (p.nextPacket mac s) := by
  have hcar := Packets.next_carries (p := p) hs
  have hfits : (p.encoded s).2.length ≤ bodyRoom p.key p.limits := hcar.fits
  have hroom := h.body
  have hboth : (p.encoded s).2.length < 2 ^ 32 ∧ (p.nextRows s).length ≤ p.limits.maxCells := by
    by_cases hne : p.nextRows s = []
    · obtain ⟨plan, -, hbody⟩ := hcar.body
      rw [hbody, if_pos hne, hne]
      exact ⟨by decide, Nat.zero_le _⟩
    · obtain ⟨R, D, hR, hD, hlen⟩ := hcar.length_eq hne
      refine ⟨?_, (Nat.le_div_iff_mul_le (Nat.add_pos_left (by decide) _)).2 ?_ |>.trans h.cells⟩
      · unfold bodyLimit at hroom
        cases w with
        | u16 =>
          have hsize : perCellIdentBytes + CountWidth.size .u16 = 44 := rfl
          rw [hsize, dictLenBytes] at hlen
          dsimp only at hroom
          omega
        | u32 => exact hfits.trans_lt hroom
        | u64 => exact hfits.trans_lt hroom
      · rw [dictLenBytes] at hlen ⊢
        omega
  exact ⟨_, _, hcar.decodeInner_sealFrame hboth.1 p.key p.header (p.nextFlags s)
    (Packets.length_nextPacket mac hs hp) hboth.2 fun _ => rfl⟩

/-- The packets an iterator writes. -/
inductive Packets.Emits (mac : Mac) (s : CellTable w) : Packets → List UInt8 → Prop
  | next {p p' : Packets} {bytes : List UInt8} {written : PacketWritten}
      (h : p.nextInto mac s = (p', bytes, .ok (some written))) : Emits mac s p bytes
  | later {p p' : Packets} {first bytes : List UInt8} {written : PacketWritten}
      (h : p.nextInto mac s = (p', first, .ok (some written))) (hrest : Emits mac s p' bytes) :
      Emits mac s p bytes

theorem Packets.nextInto_some {mac : Mac} {p p' : Packets} {bytes : List UInt8}
    {written : PacketWritten} (hp : p.Accepted w)
    (h : p.nextInto mac s = (p', bytes, .ok (some written))) :
    p' = p.after s ∧ bytes = p.nextPacket mac s := by
  by_cases hnil : p.handles = []
  · rw [Packets.nextInto_nil mac hnil] at h
    cases h
  · rw [Packets.nextInto_eq mac hp hnil] at h
    cases h
    exact ⟨rfl, rfl⟩

theorem Roomy.emits {mac : Mac} (hs : CountsFit s) {p : Packets} {bytes : List UInt8}
    (he : p.Emits mac s bytes) (hp : p.Accepted w) (h : Roomy w p.key p.limits) :
    Accepts mac w p.key p.limits bytes := by
  induction he with
  | next hnext =>
    rw [(Packets.nextInto_some hp hnext).2]
    exact h.nextPacket mac hs hp
  | later hnext _ ih =>
    obtain ⟨rfl, -⟩ := Packets.nextInto_some hp hnext
    exact ih hp h

/-! ## Frames that need the room -/

theorem encodePacketBody_plan (s : CellTable w) (handles : List CellHandle) (budget : ℕ) :
    (encodePacketBody s handles budget).1.cellsEmitted =
        (planPacket s budget handles Plan.start).cellsEmitted ∧
      (encodePacketBody s handles budget).1.bodyLen =
        (planPacket s budget handles Plan.start).bodyLen w.size := by
  unfold encodePacketBody
  dsimp only
  split_ifs with h
  · rw [h, Plan.bodyLen, if_pos h]
    exact ⟨rfl, rfl⟩
  · exact ⟨rfl, rfl⟩

/-- The first `R` handles bring `R` rules and one origin, and a row of theirs is `row`. -/
structure Opening (s : CellTable w) (R : ℕ) (first : List CellHandle) (row : Row) : Prop where
  rules : (first.foldl (Plan.take s) Plan.start).rules.entries.length = R
  nodes : (first.foldl (Plan.take s) Plan.start).nodes.entries.length = 1
  cells : (first.foldl (Plan.take s) Plan.start).cellsEmitted = R
  seen : (first.foldl (Plan.take s) Plan.start).Seen row

/-- **A frame of `R` rules and `n` cells in one packet**, refused when the cells are too many
    or the body too long. -/
theorem Opening.refused {R n : ℕ} {first : List CellHandle} {row : Row} {handle : CellHandle}
    (h : Opening s R first row) (hrow : rowOf s handle = some row) (hs : CountsFit s)
    (hlen : first.length = R) (hpos : 0 < R) (hR : R ≤ maxDictSlots) (hn : R ≤ n) (mac : Mac)
    (header : Header) (key : Option HmacKey) (limits : FrameLimits)
    (hp : minPayloadBytes w.size (authOverhead key) ≤ limits.maxPayloadBytes)
    (hfits : dictLenBytes + 16 * R + 16 + n * (perCellIdentBytes + w.size) ≤ bodyRoom key limits)
    (hbad : limits.maxCells < min n u32Max ∨
      2 ^ 32 ≤ dictLenBytes + 16 * R + 16 + min n u32Max * (perCellIdentBytes + w.size)) :
    ∃ handles p bytes, Packets.new w header handles key limits = .ok p ∧
      p.Emits mac s bytes ∧ ¬ Accepts mac w key limits bytes := by
  have hRmax : maxDictSlots ≤ u32Max := by decide
  obtain ⟨m, rfl⟩ := Nat.exists_eq_add_of_le hn
  set handles := first ++ List.replicate m handle with hhandles
  obtain ⟨hrules, hnodes, hcells⟩ := Plan.take_replicate hrow m _ h.seen
    (by rw [h.cells]; exact hR.trans hRmax)
  rw [← List.foldl_append, ← hhandles] at hrules hnodes hcells
  -- the whole list is taken
  have hplan : planPacket s (bodyRoom key limits) handles Plan.start =
      handles.foldl (Plan.take s) Plan.start := by
    refine planPacket_all _ handles Plan.start ?_ ?_ ?_
    · rw [hrules, h.rules]; exact hR
    · rw [hnodes, h.nodes]; decide
    · rw [hrules, hnodes, h.rules, h.nodes, hhandles, List.length_append, List.length_replicate, hlen]
      show _ + (0 + (R + m)) * _ ≤ _
      rw [Nat.zero_add, Nat.mul_one]
      exact hfits
  obtain ⟨hemitted, hbodyLen⟩ := encodePacketBody_plan s handles (bodyRoom key limits)
  rw [hplan, hcells, h.cells] at hemitted
  have hne : handles ≠ [] := by
    intro hnil
    rw [hhandles] at hnil
    have := congrArg List.length (List.append_eq_nil_iff.1 hnil).1
    rw [hlen] at this
    exact hpos.ne' this
  set p : Packets := { header, handles, key, limits } with hpdef
  have hnew : Packets.new w header handles key limits = .ok p := by
    rw [Packets.new, if_neg (not_lt.2 hp)]
  have hcar := Packets.next_carries (p := p) hs
  refine ⟨handles, p, p.nextPacket mac s, hnew, .next (Packets.nextInto_eq mac hp hne),
    hcar.refused key header (p.nextFlags s) ?_⟩
  have hrows : (p.nextRows s).length = min (R + m) u32Max := hcar.emitted.symm.trans hemitted
  have hbody : (p.encoded s).2.length =
      dictLenBytes + 16 * R + 16 + min (R + m) u32Max * (perCellIdentBytes + w.size) := by
    refine hcar.bodyLen.symm.trans (hbodyLen.trans ?_)
    have hzero : ¬ min (R + m) u32Max = 0 := by
      have : 0 < u32Max := by decide
      omega
    rw [hplan, Plan.bodyLen, hcells, h.cells, if_neg hzero, hrules, hnodes, h.rules, h.nodes]
    ring
  rw [hrows, hbody]
  exact hbad

/-! ### Stores with many rules -/

def manyRulesConfig : CellStoreConfig where
  cellCapacity := 16
  ruleDictionaryCapacity := 16
  nodeDictionaryCapacity := 2
  localDirtyCapacity := 1
  forwardedDirtyCapacity := 1
  peerCapacity := 1

def oneHit (w : CountWidth) (rule : ℕ) : Observation w where
  ruleFingerprint := BitVec.ofNat 128 rule
  keyHash := 3
  bucket := 5
  origin := 1
  incarnation := 1
  count := 1
  lastUpdateMillis := 5000
  count_le := w.one_le_max

/-- One hit on each of fourteen rules. -/
def manyRulesCalls (w : CountWidth) : List (StoreCall w) :=
  [.ingestLocal ((List.range 14).map (oneHit w))]

def cellHandle (index : ℕ) : CellHandle := { index, generation := 1 }

/-- The rules that bring a body to `bodyLimit` exactly, and its number of cells. -/
def longRules : CountWidth → ℕ
  | .u16 => 2
  | .u32 => 14
  | .u64 => 8

def longCells : CountWidth → ℕ
  | .u16 => 97612892
  | .u32 => 93368849
  | .u64 => 85899343

theorem longBody_length (w : CountWidth) :
    dictLenBytes + 16 * longRules w + 16 + longCells w * (perCellIdentBytes + w.size) =
      bodyLimit w := by
  cases w <;> rfl

theorem opening_manyRules (w : CountWidth) {R : ℕ} (hR : R = 1 ∨ R = longRules w) :
    ∃ s₀ row, CellStore.new w manyRulesConfig CellStore.tinyNode = some s₀ ∧
      rowOf (s₀.run (manyRulesCalls w)).toCellTable (cellHandle 0) = some row ∧
      Opening (s₀.run (manyRulesCalls w)).toCellTable R ((List.range R).map cellHandle) row := by
  have heval : ((CellStore.new w manyRulesConfig CellStore.tinyNode).bind fun s₀ =>
      (rowOf (s₀.run (manyRulesCalls w)).toCellTable (cellHandle 0)).map fun row =>
        let p := ((List.range R).map cellHandle).foldl
          (Plan.take (s₀.run (manyRulesCalls w)).toCellTable) Plan.start
        (p.rules.entries.length, p.nodes.entries.length, p.cellsEmitted,
          (p.rules.remap row.cell.key.rule).isSome && (p.nodes.remap row.cell.key.origin).isSome)) =
      some (R, 1, R, true) := by
    rcases hR with rfl | rfl
    · cases w <;> decide +kernel
    · cases w <;> decide +kernel
  obtain ⟨s₀, hnew, hrest⟩ := Option.bind_eq_some_iff.1 heval
  obtain ⟨row, hrow, hvals⟩ := Option.map_eq_some_iff.1 hrest
  simp only [Prod.mk.injEq, Bool.and_eq_true] at hvals
  obtain ⟨h1, h2, h3, h4⟩ := hvals
  exact ⟨s₀, row, hnew, hrow, h1, h2, h3, h4⟩

/-! ## Peers with the same limits -/

/-- Every packet that a store makes under the limits is accepted under the same limits. -/
def Understood (mac : Mac) (w : CountWidth) (key : Option HmacKey) (limits : FrameLimits) : Prop :=
  ∀ (config : CellStoreConfig) (id : NodeIdentity) (s₀ : CellStore w),
    CellStore.new w config id = some s₀ → ∀ (calls : List (StoreCall w)) (header : Header)
      (handles : List CellHandle) (p : Packets), Packets.new w header handles key limits = .ok p →
    ∀ bytes, p.Emits mac (s₀.run calls).toCellTable bytes → Accepts mac w key limits bytes

/-- **Peers with the same limits understand each other exactly when the limits have room.** -/
theorem packets_understood_iff (mac : Mac) (w : CountWidth) (key : Option HmacKey)
    (limits : FrameLimits) (hcells : limits.maxCells ≤ u32Max)
    (hp : minPayloadBytes w.size (authOverhead key) ≤ limits.maxPayloadBytes) :
    Understood mac w key limits ↔ Roomy w key limits := by
  constructor
  · intro hall
    by_contra hnot
    -- some frame of a reachable store is refused
    suffices hbad : ∃ R n, (R = 1 ∨ R = longRules w) ∧ R ≤ n ∧
        dictLenBytes + 16 * R + 16 + n * (perCellIdentBytes + w.size) ≤ bodyRoom key limits ∧
        (limits.maxCells < min n u32Max ∨
          2 ^ 32 ≤ dictLenBytes + 16 * R + 16 + min n u32Max * (perCellIdentBytes + w.size)) by
      obtain ⟨R, n, hR, hn, hfits, hbad⟩ := hbad
      obtain ⟨s₀, row, hnew, hrow, hopen⟩ := opening_manyRules w hR
      obtain ⟨h0, hl0, -⟩ := CellStore.new_spec hnew
      obtain ⟨pins, hinv, -⟩ := CellStore.run_inv h0 hl0 (manyRulesCalls w)
      have hbounds : 0 < R ∧ R ≤ maxDictSlots := by
        rcases hR with rfl | rfl
        · exact ⟨by decide, by decide⟩
        · cases w <;> exact ⟨by decide, by decide⟩
      obtain ⟨handles, p, bytes, hpk, hemits, hrefused⟩ := hopen.refused hrow (countsFit hinv)
        (by simp) hbounds.1 hbounds.2 hn mac plainHeader key limits hp hfits hbad
      exact hrefused (hall _ _ s₀ hnew _ _ _ p hpk bytes hemits)
    have hsize : 44 ≤ perCellIdentBytes + w.size := by cases w <;> decide
    by_cases hroom : bodyRoom key limits < bodyLimit w
    · -- more cells fit the bytes than the limit allows
      have hmany : limits.maxCells + 1 ≤
          (bodyRoom key limits - (dictLenBytes + 32)) / (perCellIdentBytes + w.size) := by
        by_contra hle
        exact hnot ⟨by omega, hroom⟩
      rw [Nat.le_div_iff_mul_le (by omega)] at hmany
      have hone : 44 ≤ (limits.maxCells + 1) * (perCellIdentBytes + w.size) :=
        hsize.trans (Nat.le_mul_of_pos_left _ (Nat.succ_pos _))
      refine ⟨1, limits.maxCells + 1, .inl rfl, Nat.le_add_left 1 _, ?_, ?_⟩
      · rw [dictLenBytes] at hmany ⊢
        omega
      · rcases Nat.lt_or_ge limits.maxCells u32Max with hlt | hge
        · exact .inl (lt_min (Nat.lt_succ_self _) hlt)
        · right
          rw [min_eq_right (hge.trans (Nat.le_succ _))]
          have hlong : u32Max * 44 ≤ u32Max * (perCellIdentBytes + w.size) :=
            Nat.mul_le_mul_left _ hsize
          have h32 : 2 ^ 32 ≤ u32Max * 44 := by decide
          omega
    · -- a body of `bodyLimit` bytes fits
      have hlen := longBody_length w
      have hlimit : 2 ^ 32 ≤ bodyLimit w := by cases w <;> decide
      have hmin : min (longCells w) u32Max = longCells w := by cases w <;> decide
      refine ⟨longRules w, longCells w, .inr rfl, by cases w <;> decide, by omega, .inr ?_⟩
      rw [hmin, hlen]
      exact hlimit
  · intro hroomy config id s₀ hnew calls header handles p hpk bytes hemits
    obtain ⟨h0, hl0, -⟩ := CellStore.new_spec hnew
    obtain ⟨pins, hinv, -⟩ := CellStore.run_inv h0 hl0 calls
    unfold Packets.new at hpk
    split_ifs at hpk
    cases hpk
    exact Roomy.emits (countsFit hinv) hemits hp hroomy

/-- Nineteen cells of 32 bits fit 1000 bytes. -/
theorem packets_understood_nineteen : Understood (fun _ _ => Vector.replicate 32 0) .u32 none
    { maxPayloadBytes := 1000, maxCells := 19 } :=
  (packets_understood_iff _ .u32 none { maxPayloadBytes := 1000, maxCells := 19 } (by decide)
    (by decide)).2 (by decide)

/-- **Two cells in one packet, with a limit of one**: the receiver refuses what a sender with
    the same limits writes. -/
theorem two_cells_refused : ∃ (s₀ : CellStore .u32) (p : Packets) (bytes : List UInt8),
    CellStore.new .u32 manyRulesConfig CellStore.tinyNode = some s₀ ∧
      Packets.new .u32 plainHeader [cellHandle 0, cellHandle 1] none
        { maxPayloadBytes := 1000, maxCells := 1 } = .ok p ∧
      p.Emits (fun _ _ => Vector.replicate 32 0) (s₀.run (manyRulesCalls .u32)).toCellTable bytes ∧
      ¬ Accepts (fun _ _ => Vector.replicate 32 0) .u32 none
        { maxPayloadBytes := 1000, maxCells := 1 } bytes := by
  have heval : ((CellStore.new .u32 manyRulesConfig CellStore.tinyNode).bind fun s₀ =>
      (Packets.new .u32 plainHeader [cellHandle 0, cellHandle 1] none
        { maxPayloadBytes := 1000, maxCells := 1 }).toOption.bind fun p =>
        (p.nextInto (fun _ _ => Vector.replicate 32 0)
          (s₀.run (manyRulesCalls .u32)).toCellTable).2.2.toOption.join.map fun _ =>
            (decodeInner (fun _ _ => Vector.replicate 32 0) .u32 none
              { maxPayloadBytes := 1000, maxCells := 1 } (fun _ => true)
              (p.nextInto (fun _ _ => Vector.replicate 32 0)
                (s₀.run (manyRulesCalls .u32)).toCellTable).2.1).2.toBool) = some false := by
    decide +kernel
  obtain ⟨s₀, hnew, hrest⟩ := Option.bind_eq_some_iff.1 heval
  obtain ⟨p, hp, hrest⟩ := Option.bind_eq_some_iff.1 hrest
  obtain ⟨written, hw, hdecode⟩ := Option.map_eq_some_iff.1 hrest
  rcases hnext : p.nextInto (fun _ _ => Vector.replicate 32 0)
      (s₀.run (manyRulesCalls .u32)).toCellTable with ⟨p', bytes, res⟩
  rw [hnext] at hw hdecode
  obtain rfl : res = .ok (some written) := by
    rcases res with e | _ | written'
    · cases hw
    · cases hw
    · cases hw; rfl
  refine ⟨s₀, p, bytes, hnew, eq_ok_of_toOption hp, .next hnext, ?_⟩
  rintro ⟨cells, summary, hd⟩
  rw [hd] at hdecode
  cases hdecode

end Wire

end Gabion

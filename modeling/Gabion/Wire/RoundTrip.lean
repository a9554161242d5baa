/-
  Packets carry the rows they were planned for.

  `Plan.Ok` is the invariant of the planning loop: every row taken so far has its rule and
  its origin in the packet's dictionaries, under the slots the remap tables give.  It makes
  the body decodable (`decodeBody_bodyParts`).  A packet that was cut off, or that is read
  with another key, decodes to nothing else (`decode_nextInto`).
-/
import Gabion.StoreInv
import Gabion.Wire.Packets

namespace Gabion

open Function Bytes

namespace Wire

variable {w : CountWidth} {s : CellTable w}

/-! ## Rows of a table -/

theorem rowOf_eq_some {h : CellHandle} {row : Row} (hr : rowOf s h = some row) :
    s.get h = some row.cell ∧
      row.fingerprint = (s.ruleDictionary.descriptors row.cell.key.rule).fingerprint ∧
      row.nodeId = (s.nodeDictionary.descriptors row.cell.key.origin).nodeId := by
  simp only [rowOf, Option.bind_eq_bind, Option.bind_eq_some_iff, Option.pure_def,
    Option.some.injEq] at hr
  obtain ⟨cell, hc, rule, hrule, node, hnode, rfl⟩ := hr
  simp only [Dictionary.descriptor, Option.ite_none_right_eq_some, Option.some.injEq] at hrule hnode
  exact ⟨hc, by rw [← hrule.2], by rw [← hnode.2]⟩

/-- The cell a decoder makes of a row. -/
def Row.wireCell (w : CountWidth) (row : Row) : WireCell w where
  ruleFingerprint := row.fingerprint
  keyHash := row.cell.key.keyHash
  bucket := row.cell.key.bucket
  originNodeId := row.nodeId
  originIncarnation := row.cell.key.incarnation
  count := w.saturatingFromU64 row.cell.count
  lastUpdateMillis := row.cell.lastUpdateMillis % 2 ^ 64
  originSequence := row.cell.originSequence % 2 ^ 64
  count_le := min_le_right _ _

/-! ## Planning -/

/-- The packet slot of a store slot holds the entry of that store slot. -/
def PacketDict.Ok {α : Type} (f : ℕ → α) (d : PacketDict α) : Prop :=
  ∀ slot i, d.remap slot = some i → d.entries[i]? = some (f slot)

theorem PacketDict.Ok.add {α : Type} {f : ℕ → α} {d : PacketDict α} (h : d.Ok f) (x : ℕ) :
    (d.add x (f x)).Ok f := by
  intro slot i hi
  unfold PacketDict.add at hi ⊢
  split_ifs at hi ⊢ with hx
  · dsimp only at hi ⊢
    by_cases hs : slot = x
    · rw [hs, update_self, Option.some.injEq] at hi
      rw [← hi, List.getElem?_concat_length, hs]
    · rw [update_of_ne hs] at hi
      have hold := h slot i hi
      rw [List.getElem?_append_left (List.getElem?_eq_some_iff.1 hold).1, hold]
  · exact h slot i hi

theorem PacketDict.remap_add {α : Type} (d : PacketDict α) (x : ℕ) (a : α) (slot : ℕ) :
    ((d.add x a).remap slot).isSome = true ↔ (d.remap slot).isSome = true ∨ slot = x := by
  unfold PacketDict.add PacketDict.unseen
  split_ifs with hx
  · by_cases hs : slot = x
    · simp [hs]
    · simp [hs]
  · have hsome : (d.remap x).isSome = true := by
      rw [Option.isNone_iff_eq_none] at hx
      exact Option.isSome_iff_ne_none.2 hx
    constructor
    · exact .inl
    · rintro (h | rfl)
      · exact h
      · exact hsome

theorem PacketDict.length_add {α : Type} (d : PacketDict α) (x : ℕ) (a : α) :
    (d.add x a).entries.length = d.lenWith x := by
  unfold PacketDict.add PacketDict.lenWith
  split_ifs
  · rw [List.length_append]; rfl
  · rfl

/-- The invariant of `plan_packet`, where `rows` have been taken so far. -/
structure Plan.Ok (s : CellTable w) (budget : ℕ) (rows : List Row) (p : Plan) : Prop where
  emitted : p.cellsEmitted = min rows.length u32Max
  rules : p.rules.Ok fun slot => (s.ruleDictionary.descriptors slot).fingerprint
  nodes : p.nodes.Ok fun slot => (s.nodeDictionary.descriptors slot).nodeId
  seenRule : ∀ row ∈ rows, (p.rules.remap row.cell.key.rule).isSome = true
  seenNode : ∀ row ∈ rows, (p.nodes.remap row.cell.key.origin).isSome = true
  ruleLen : p.rules.entries.length ≤ maxDictSlots
  nodeLen : p.nodes.entries.length ≤ maxDictSlots
  fits : p.bodyLen w.size ≤ budget

theorem Plan.ok_start (budget : ℕ) : Plan.Ok s budget [] Plan.start := by
  refine ⟨rfl, ?_, ?_, by simp, by simp, Nat.zero_le _, Nat.zero_le _, Nat.zero_le _⟩
  · intro slot i h; cases h
  · intro slot i h; cases h

theorem Plan.Ok.drop {budget : ℕ} {rows : List Row} {p : Plan} (h : p.Ok s budget rows) :
    p.drop.Ok s budget rows := ⟨h.1, h.2, h.3, h.4, h.5, h.6, h.7, h.8⟩

theorem Plan.Ok.emit {budget : ℕ} {rows : List Row} {p : Plan} (h : p.Ok s budget rows)
    {handle : CellHandle} {row : Row} (hr : rowOf s handle = some row)
    (hR : p.newR row ≤ maxDictSlots) (hD : p.newD row ≤ maxDictSlots)
    (hB : p.projectedBody w.size row ≤ budget) : (p.emit row).Ok s budget (rows ++ [row]) := by
  obtain ⟨-, hf, hn⟩ := rowOf_eq_some hr
  refine ⟨?_, ?_, ?_, ?_, ?_, ?_, ?_, ?_⟩
  · show min (p.cellsEmitted + 1) u32Max = _
    rw [h.emitted, List.length_append, List.length_singleton]
    omega
  · show (p.rules.add _ row.fingerprint).Ok _
    rw [hf]
    exact h.rules.add _
  · show (p.nodes.add _ row.nodeId).Ok _
    rw [hn]
    exact h.nodes.add _
  · intro row' hrow'
    rw [Plan.emit, PacketDict.remap_add]
    rcases List.mem_append.1 hrow' with h' | h'
    · exact .inl (h.seenRule row' h')
    · rw [List.mem_singleton.1 h']; exact .inr rfl
  · intro row' hrow'
    rw [Plan.emit, PacketDict.remap_add]
    rcases List.mem_append.1 hrow' with h' | h'
    · exact .inl (h.seenNode row' h')
    · rw [List.mem_singleton.1 h']; exact .inr rfl
  · rw [Plan.emit, PacketDict.length_add]; exact hR
  · rw [Plan.emit, PacketDict.length_add]; exact hD
  · refine le_trans ?_ hB
    unfold Plan.bodyLen
    split_ifs
    · exact Nat.zero_le _
    · rw [Plan.emit, PacketDict.length_add, PacketDict.length_add, Plan.projectedBody, Plan.newR,
        Plan.newD, Nat.mul_add, ← Nat.add_assoc]
      exact Nat.add_le_add_left (Nat.mul_le_mul_right _ (min_le_left _ _)) _

/-- **Induction over a plan**: what dropping a handle and taking a row keep holds of the
    finished plan and the rows of the handles it consumed. -/
theorem planPacket_induct (budget : ℕ) {P : List Row → Plan → Prop}
    (hdrop : ∀ {rows p}, P rows p → P rows p.drop)
    (hemit : ∀ {rows p handle row}, P rows p → rowOf s handle = some row →
      p.newR row ≤ maxDictSlots → p.newD row ≤ maxDictSlots →
      p.projectedBody w.size row ≤ budget → P (rows ++ [row]) (p.emit row)) :
    ∀ (handles : List CellHandle) {rows : List Row} {p : Plan}, P rows p →
      ∃ k ≤ handles.length, (planPacket s budget handles p).consumed = p.consumed + k ∧
        P (rows ++ (handles.take k).filterMap (rowOf s)) (planPacket s budget handles p)
  | [], rows, p, h => ⟨0, le_rfl, rfl, by simpa [planPacket] using h⟩
  | handle :: rest, rows, p, h => by
    have hstop : ∃ k ≤ (handle :: rest).length, p.consumed = p.consumed + k ∧
        P (rows ++ ((handle :: rest).take k).filterMap (rowOf s)) p :=
      ⟨0, Nat.zero_le _, rfl, by simpa using h⟩
    rw [planPacket]
    split
    · rename_i hrow
      obtain ⟨k, hk, hc, hok⟩ := planPacket_induct budget (P := P) hdrop hemit rest (hdrop h)
      refine ⟨k + 1, by simpa using hk, ?_, ?_⟩
      · rw [hc]; simp only [Plan.drop]; omega
      · rw [List.take_succ_cons, List.filterMap_cons_none hrow]
        exact hok
    · rename_i row hrow
      split_ifs with hdict hbody
      · exact hstop
      · exact hstop
      · push Not at hdict hbody
        obtain ⟨k, hk, hc, hok⟩ := planPacket_induct budget (P := P) hdrop hemit rest
          (hemit h hrow hdict.1 hdict.2 hbody)
        refine ⟨k + 1, by simpa using hk, ?_, ?_⟩
        · rw [hc]; simp only [Plan.emit]; omega
        · rw [List.take_succ_cons, List.filterMap_cons_some hrow, List.append_cons]
          exact hok

/-- **What a plan covers**: the rows of the handles it consumed. -/
theorem planPacket_spec (budget : ℕ) (handles : List CellHandle) {rows : List Row} {p : Plan}
    (h : p.Ok s budget rows) : ∃ k ≤ handles.length,
      (planPacket s budget handles p).consumed = p.consumed + k ∧
      (planPacket s budget handles p).Ok s budget (rows ++ (handles.take k).filterMap (rowOf s)) :=
  planPacket_induct budget (P := fun rows p => p.Ok s budget rows) (fun h => h.drop)
    (fun h => h.emit) handles h

/-! ## Bodies -/

/-- The dictionaries of a plan hold what the rows need, and the counts fit their column. -/
structure Plan.Covers (w : CountWidth) (p : Plan) (rows : List Row) : Prop where
  rule : ∀ row ∈ rows, ∃ i, p.rules.remap row.cell.key.rule = some i ∧
    p.rules.entries[i]? = some row.fingerprint
  node : ∀ row ∈ rows, ∃ i, p.nodes.remap row.cell.key.origin = some i ∧
    p.nodes.entries[i]? = some row.nodeId
  ruleLen : p.rules.entries.length ≤ maxDictSlots
  nodeLen : p.nodes.entries.length ≤ maxDictSlots
  count : ∀ row ∈ rows, row.cell.count ≤ w.max

section Body

variable {p : Plan} {rows : List Row}

theorem bodyParts_lengths (w : CountWidth) (p : Plan) (rows : List Row) :
    (bodyParts w p rows).map List.length =
      [1, 16 * p.rules.entries.length, 1, 16 * p.nodes.entries.length, 1 * rows.length,
        16 * rows.length, 4 * rows.length, 1 * rows.length, 4 * rows.length, 8 * rows.length,
        8 * rows.length, w.size * rows.length] := by
  simp [bodyParts, List.length_flatMap, slotByte, Nat.mul_comm]

theorem length_body (w : CountWidth) (p : Plan) (rows : List Row) :
    (bodyParts w p rows).flatten.length =
      1 + 16 * p.rules.entries.length + 1 + 16 * p.nodes.entries.length +
        rows.length * (perCellIdentBytes + w.size) := by
  rw [List.length_flatten, bodyParts_lengths]
  simp only [List.sum_cons, List.sum_nil, perCellIdentBytes]
  ring

theorem byteAt_of_slice {bytes : List UInt8} {off : ℕ} {b : UInt8} (h : slice bytes off 1 = [b]) :
    byteAt bytes off = b.toNat := by
  have : bytes[off]? = some b := by
    have := congrArg List.head? h
    simpa [slice, List.head?_take, List.head?_drop] using this
  rw [byteAt, List.getD_eq_getElem?_getD, this]
  rfl

/-- Where a part of the body starts. -/
theorem bodyParts_offset {i off : ℕ}
    (h : ([1, 16 * p.rules.entries.length, 1, 16 * p.nodes.entries.length, 1 * rows.length,
        16 * rows.length, 4 * rows.length, 1 * rows.length, 4 * rows.length, 8 * rows.length,
        8 * rows.length, w.size * rows.length].take i).sum = off) :
    (((bodyParts w p rows).take i).map List.length).sum = off := by
  rw [List.map_take, bodyParts_lengths]
  exact h

theorem ofLE_count (w : CountWidth) {c : ℕ} (hc : c ≤ w.max) : ofLE (toLE w.size c) = c := by
  have : w.max < 256 ^ w.size := by cases w <;> decide
  rw [ofLE_toLE, Nat.mod_eq_of_lt (by omega)]

/-- **A row of a body reads back.** -/
theorem readCell_body (h : p.Covers w rows) {i : ℕ} {row : Row} (hi : rows[i]? = some row) :
    readCell w (bodyParts w p rows).flatten 1 p.rules.entries.length
        (1 + 16 * p.rules.entries.length + 1) p.nodes.entries.length
        (1 + 16 * p.rules.entries.length + 1 + 16 * p.nodes.entries.length) rows.length i =
      .ok (row.wireCell w) := by
  have hmem : row ∈ rows := List.mem_of_getElem? hi
  obtain ⟨rs, hrs, hfp⟩ := h.rule row hmem
  obtain ⟨ns, hns, hid⟩ := h.node row hmem
  have hrs_lt : rs < p.rules.entries.length := (List.getElem?_eq_some_iff.1 hfp).1
  have hns_lt : ns < p.nodes.entries.length := (List.getElem?_eq_some_iff.1 hid).1
  have hruleLen : p.rules.entries.length ≤ 255 := h.ruleLen
  have hnodeLen : p.nodes.entries.length ≤ 255 := h.nodeLen
  have hbyte : ∀ {x : ℕ}, x < 255 → (UInt8.ofNat x).toNat = x := fun hx =>
    UInt8.toNat_ofNat_of_lt' (lt_trans hx (by decide))
  -- the field of this row in one of the columns
  have column : ∀ {off k : ℕ} {f : Row → List UInt8} (part : ℕ),
      (bodyParts w p rows)[part]? = some (rows.flatMap f) →
      ([1, 16 * p.rules.entries.length, 1, 16 * p.nodes.entries.length, 1 * rows.length,
        16 * rows.length, 4 * rows.length, 1 * rows.length, 4 * rows.length, 8 * rows.length,
        8 * rows.length, w.size * rows.length].take part).sum = off →
      (∀ a, (f a).length = k) → slice (bodyParts w p rows).flatten (off + i * k) k = f row :=
    fun _ h1 h2 h3 => slice_column h1 (bodyParts_offset h2) h3 hi
  have hrule : byteAt (bodyParts w p rows).flatten
      (1 + 16 * p.rules.entries.length + 1 + 16 * p.nodes.entries.length + i) = rs := by
    have hs : slice _ (1 + 16 * p.rules.entries.length + 1 + 16 * p.nodes.entries.length + i * 1) 1 =
      slotByte p.rules.remap row.cell.key.rule := column 4 rfl (by simp; omega) fun _ => rfl
    rw [slotByte, hrs, Nat.mul_one] at hs
    exact (byteAt_of_slice hs).trans (hbyte (hrs_lt.trans_le hruleLen))
  have hnode : byteAt (bodyParts w p rows).flatten
      (1 + 16 * p.rules.entries.length + 1 + 16 * p.nodes.entries.length + 21 * rows.length + i) =
        ns := by
    have hs : slice _ (1 + 16 * p.rules.entries.length + 1 + 16 * p.nodes.entries.length +
      21 * rows.length + i * 1) 1 = slotByte p.nodes.remap row.cell.key.origin :=
        column 7 rfl (by simp; omega) fun _ => rfl
    rw [slotByte, hns, Nat.mul_one] at hs
    exact (byteAt_of_slice hs).trans (hbyte (hns_lt.trans_le hnodeLen))
  unfold readCell
  simp only [hrule, hnode, ge_iff_le, not_le.2 hrs_lt, not_le.2 hns_lt, if_false]
  -- the dictionary entries, then the fields of the row
  refine congrArg Except.ok (WireCell.ext ?_ ?_ ?_ ?_ ?_ ?_ ?_ ?_)
  · exact read_of_slice rfl (slice_column (i := 1) rfl (bodyParts_offset rfl)
      (fun a => length_ofBitVec a) hfp)
  · exact read_of_slice rfl (column 5 rfl (by simp; omega) fun _ => length_ofBitVec _)
  · exact read_of_slice rfl (column 6 rfl (by simp; omega) fun _ => length_ofBitVec _)
  · exact read_of_slice rfl (slice_column (i := 3) rfl (bodyParts_offset (by simp; omega))
      (fun a => length_ofBitVec a) hid)
  · exact read_of_slice rfl (column 8 rfl (by simp; omega) fun _ => length_ofBitVec _)
  · exact congrArg w.saturatingFromU64 ((congrArg ofLE (column 11 rfl (by simp; omega) fun _ =>
      length_toLE _ _)).trans (ofLE_count w (h.count row hmem)))
  · exact (congrArg ofLE (column 9 rfl (by simp; omega) fun _ => length_toLE _ _)).trans
      (ofLE_toLE ..)
  · exact (congrArg ofLE (column 10 rfl (by simp; omega) fun _ => length_toLE _ _)).trans
      (ofLE_toLE ..)

theorem visit_ok {α : Type} {read : ℕ → Except DecodeError α} {f : ℕ → α} :
    ∀ {is : List ℕ}, (∀ i ∈ is, read i = .ok (f i)) → visit read is = (is.map f, .ok ())
  | [], _ => rfl
  | i :: is, h => by
    have htail := visit_ok fun j hj => h j (List.mem_cons_of_mem i hj)
    simp only [visit, h i (List.mem_cons_self ..), htail, List.map_cons]

theorem byteAt_rules (w : CountWidth) (h : p.rules.entries.length ≤ maxDictSlots) :
    byteAt (bodyParts w p rows).flatten 0 = p.rules.entries.length := by
  have hpart : (bodyParts w p rows)[0]? = some [UInt8.ofNat p.rules.entries.length] := rfl
  have hs := slice_flatten hpart rfl
  exact (byteAt_of_slice hs).trans (UInt8.toNat_ofNat_of_lt' (lt_of_le_of_lt h (by decide)))

theorem byteAt_nodes (w : CountWidth) (h : p.nodes.entries.length ≤ maxDictSlots) :
    byteAt (bodyParts w p rows).flatten (1 + 16 * p.rules.entries.length) =
      p.nodes.entries.length := by
  have hpart : (bodyParts w p rows)[2]? = some [UInt8.ofNat p.nodes.entries.length] := rfl
  have hoff : (((bodyParts w p rows).take 2).map List.length).sum = 1 + 16 * p.rules.entries.length :=
    bodyParts_offset (by simp)
  have hs := slice_flatten hpart hoff
  exact (byteAt_of_slice hs).trans (UInt8.toNat_ofNat_of_lt' (lt_of_le_of_lt h (by decide)))

/-- **A body decodes to its rows.** -/
theorem decodeBody_body (h : p.Covers w rows) (hne : rows ≠ []) :
    decodeBodyVisit w (bodyParts w p rows).flatten rows.length =
      (rows.map (Row.wireCell w), .ok ()) := by
  obtain ⟨row, hrow⟩ := List.exists_mem_of_ne_nil rows hne
  have hR : 0 < p.rules.entries.length := by
    obtain ⟨i, -, hi⟩ := h.rule row hrow
    exact (Nat.zero_le i).trans_lt (List.getElem?_eq_some_iff.1 hi).1
  have hD : 0 < p.nodes.entries.length := by
    obtain ⟨i, -, hi⟩ := h.node row hrow
    exact (Nat.zero_le i).trans_lt (List.getElem?_eq_some_iff.1 hi).1
  have hlen := length_body w p rows
  have hbytes : (bodyParts w p rows).flatten ≠ [] := by
    intro hnil
    rw [hnil, List.length_nil] at hlen
    omega
  have hn : rows.length ≠ 0 := fun h0 => hne (List.length_eq_zero_iff.1 h0)
  unfold decodeBodyVisit
  simp only [byteAt_rules w h.ruleLen, byteAt_nodes w h.nodeLen, hn, hbytes, hR.ne', hD.ne', hlen,
    if_false, ne_eq, not_true_eq_false]
  rw [if_neg (by omega)]
  -- every index of the loop is the index of a row
  have hread : ∀ i ∈ List.range rows.length, readCell w (bodyParts w p rows).flatten 1
      p.rules.entries.length (1 + 16 * p.rules.entries.length + 1) p.nodes.entries.length
      (1 + 16 * p.rules.entries.length + 1 + 16 * p.nodes.entries.length) rows.length i =
      .ok ((rows.getD i row).wireCell w) := by
    intro i hi
    have hget : rows[i]? = some (rows.getD i row) := by
      rw [List.getD_eq_getElem?_getD, List.getElem?_eq_getElem (List.mem_range.1 hi), Option.getD_some]
    exact readCell_body h hget
  rw [visit_ok hread]
  congr 1
  refine List.ext_getElem? fun i => ?_
  by_cases hi : i < rows.length
  · simp [hi]
  · simp [hi]

end Body

/-- The lengths a decoded body must have. -/
theorem decodeBody_length {bytes : List UInt8} {n : ℕ} {cells : List (WireCell w)} (hn : n ≠ 0)
    (h : decodeBodyVisit w bytes n = (cells, .ok ())) :
    1 + 16 * byteAt bytes 0 + 1 ≤ bytes.length ∧
      bytes.length = 1 + 16 * byteAt bytes 0 + 1 + 16 * byteAt bytes (1 + 16 * byteAt bytes 0) +
        n * (perCellIdentBytes + w.size) := by
  unfold decodeBodyVisit at h
  simp only [hn, if_false] at h
  split_ifs at h with h1 h2 h3 h4 h5
  · cases h
  · cases h
  · cases h
  · cases h
  · cases h
  · exact ⟨not_lt.1 h3, not_not.1 h5⟩

theorem byteAt_take {bytes : List UInt8} {n off : ℕ} (h : off < n) :
    byteAt (bytes.take n) off = byteAt bytes off := by
  rw [byteAt, byteAt, List.getD_eq_getElem?_getD, List.getD_eq_getElem?_getD,
    List.getElem?_take_of_lt h]

/-- **A body that was cut off does not decode**: its lengths do not add up. -/
theorem decodeBody_take {p : Plan} {rows : List Row} (h : p.Covers w rows) (hne : rows ≠ []) {n : ℕ}
    {cells : List (WireCell w)}
    (hd : decodeBodyVisit w ((bodyParts w p rows).flatten.take n) rows.length = (cells, .ok ())) :
    cells = rows.map (Row.wireCell w) := by
  have hn0 : rows.length ≠ 0 := fun h0 => hne (List.length_eq_zero_iff.1 h0)
  obtain ⟨h1, h2⟩ := decodeBody_length hn0 hd
  have hlt : ∀ {off}, off < ((bodyParts w p rows).flatten.take n).length → off < n := fun ho => by
    rw [List.length_take] at ho; omega
  have hR : byteAt ((bodyParts w p rows).flatten.take n) 0 = p.rules.entries.length := by
    rw [byteAt_take (hlt (by omega)), byteAt_rules w h.ruleLen]
  rw [hR] at h1 h2
  rw [byteAt_take (hlt (by omega)), byteAt_nodes w h.nodeLen, ← length_body w p rows,
    List.length_take] at h2
  rw [List.take_of_length_le (by omega), decodeBody_body h hne] at hd
  exact (congrArg Prod.fst hd).symm

/-! ## Packets -/

/-- The encoder's output for the first handles of a list: the body of the rows it took. -/
structure Carries (s : CellTable w) (handles : List CellHandle) (budget : ℕ) (rows : List Row)
    (e : EncodedBody) (body : List UInt8) : Prop where
  consumed_le : e.handlesConsumed ≤ handles.length
  rows_eq : rows = ((handles.take e.handlesConsumed).filterMap (rowOf s)).take u32Max
  emitted : e.cellsEmitted = rows.length
  bodyLen : e.bodyLen = body.length
  fits : body.length ≤ budget
  body : ∃ p : Plan, p.Covers w rows ∧
    body = if rows = [] then [] else (bodyParts w p rows).flatten

/-- The rows of a table have counts that fit. -/
def CountsFit (s : CellTable w) : Prop := ∀ h row, rowOf s h = some row → row.cell.count ≤ w.max

theorem encodePacketBody_carries (hs : CountsFit s) (handles : List CellHandle) (budget : ℕ) :
    ∃ rows, Carries s handles budget rows (encodePacketBody s handles budget).1
      (encodePacketBody s handles budget).2 := by
  obtain ⟨k, hk, hc, hok⟩ := planPacket_spec budget handles (Plan.ok_start (s := s) budget)
  rw [List.nil_append] at hok
  rw [show Plan.start.consumed + k = k from Nat.zero_add k] at hc
  set p := planPacket s budget handles Plan.start with hp
  set rows := plannedRows s handles p with hrows
  have hrows_eq : rows = ((handles.take k).filterMap (rowOf s)).take u32Max := by
    rw [hrows, plannedRows, hc, hok.emitted, List.take_eq_take_iff]
    omega
  have hlen : p.cellsEmitted = rows.length := by
    rw [hok.emitted, hrows_eq, List.length_take, min_comm]
  have hmem : ∀ row ∈ rows, row ∈ (handles.take k).filterMap (rowOf s) := fun row hrow => by
    rw [hrows_eq] at hrow
    exact List.mem_of_mem_take hrow
  have hrow : ∀ row ∈ rows, ∃ h, rowOf s h = some row := fun row hr => by
    obtain ⟨h, -, hh⟩ := List.mem_filterMap.1 (hmem row hr)
    exact ⟨h, hh⟩
  have hcov : p.Covers w rows := by
    refine ⟨fun row hr => ?_, fun row hr => ?_, hok.ruleLen, hok.nodeLen, fun row hr => ?_⟩
    · obtain ⟨h, hh⟩ := hrow row hr
      obtain ⟨i, hi⟩ := Option.isSome_iff_exists.1 (hok.seenRule row (hmem row hr))
      exact ⟨i, hi, (rowOf_eq_some hh).2.1 ▸ hok.rules _ i hi⟩
    · obtain ⟨h, hh⟩ := hrow row hr
      obtain ⟨i, hi⟩ := Option.isSome_iff_exists.1 (hok.seenNode row (hmem row hr))
      exact ⟨i, hi, (rowOf_eq_some hh).2.2 ▸ hok.nodes _ i hi⟩
    · obtain ⟨h, hh⟩ := hrow row hr
      exact hs h row hh
  refine ⟨rows, ?_⟩
  unfold encodePacketBody
  rw [← hp]
  dsimp only
  split_ifs with h0
  · have hnil : rows = [] := List.length_eq_zero_iff.1 (by rw [← hlen, h0])
    exact ⟨by rw [hc]; exact hk, by rw [hc]; exact hrows_eq, by rw [hnil]; rfl, rfl, Nat.zero_le _,
      p, hcov, by rw [if_pos hnil]⟩
  · have hne : rows ≠ [] := fun hnil => h0 (by rw [hlen, hnil]; rfl)
    have hbl : (writeBody s handles p).length = p.bodyLen w.size := by
      rw [writeBody, length_body, ← hrows, Plan.bodyLen, if_neg h0, hlen, dictLenBytes]
      ring
    exact ⟨by rw [hc]; exact hk, by rw [hc]; exact hrows_eq, hlen, hbl.symm, hbl ▸ hok.fits,
      p, hcov, by rw [if_neg hne]; rfl⟩

theorem Carries.decode {handles : List CellHandle} {budget : ℕ} {rows : List Row} {e : EncodedBody}
    {body : List UInt8} (h : Carries s handles budget rows e body) :
    decodeBodyVisit w body rows.length = (rows.map (Row.wireCell w), .ok ()) := by
  obtain ⟨p, hcov, hbody⟩ := h.body
  split_ifs at hbody with hnil
  · rw [hbody, hnil]; rfl
  · rw [hbody]; exact decodeBody_body hcov hnil

theorem Carries.decode_take {handles : List CellHandle} {budget : ℕ} {rows : List Row}
    {e : EncodedBody} {body : List UInt8} (h : Carries s handles budget rows e body) {n : ℕ}
    {cells : List (WireCell w)}
    (hd : decodeBodyVisit w (body.take n) rows.length = (cells, .ok ())) :
    cells = rows.map (Row.wireCell w) := by
  obtain ⟨p, hcov, hbody⟩ := h.body
  split_ifs at hbody with hnil
  · rw [hbody, hnil, List.take_nil] at hd
    rw [hnil]
    exact (congrArg Prod.fst hd).symm
  · rw [hbody] at hd
    exact Wire.decodeBody_take hcov hnil hd

/-- What `next_into` did when it wrote a packet. -/
structure Packets.Wrote (mac : Mac) (s : CellTable w) (p p' : Packets) (buf : List UInt8)
    (rows : List Row) : Prop where
  rest : ∃ k ≤ p.handles.length, 0 < k ∧ p'.handles = p.handles.drop k ∧
    rows = ((p.handles.take k).filterMap (rowOf s)).take u32Max
  same : p'.header = p.header ∧ p'.key = p.key ∧ p'.limits = p.limits
  frame : ∃ e body flags,
    Carries s p.handles (p.limits.maxPayloadBytes - (headerLen + authOverhead p.key)) rows e body ∧
      buf = sealFrame mac p.key (patchHeader (packetHeader w p.header e flags) ++ body)

/-- **The outcomes of `next_into`**: nothing left, no room for the first row, or a packet. -/
theorem nextInto_cases (mac : Mac) (hs : CountsFit s) (p : Packets) :
    ((p.nextInto mac s).2.1 = [] ∧ p.handles = [] ∧ (p.nextInto mac s).2.2 = .ok none) ∨
    ((p.nextInto mac s).2.1 = List.replicate headerLen 0 ∧
      (p.nextInto mac s).2.2 = .error .budgetTooSmall ∧
      (encodePacketBody s p.handles
        (p.limits.maxPayloadBytes - (headerLen + authOverhead p.key))).1.handlesConsumed = 0) ∨
    ∃ rows, (∃ written, (p.nextInto mac s).2.2 = .ok (some written)) ∧
      p.Wrote mac s (p.nextInto mac s).1 (p.nextInto mac s).2.1 rows := by
  unfold Packets.nextInto
  split_ifs with hnil
  · exact .inl ⟨rfl, hnil, rfl⟩
  dsimp only
  obtain ⟨rows, hrows⟩ := encodePacketBody_carries hs p.handles
    (p.limits.maxPayloadBytes - (headerLen + authOverhead p.key))
  split_ifs with hzero
  · refine .inr (.inl ⟨?_, rfl, hzero.2⟩)
    have hrows0 : rows = [] := List.length_eq_zero_iff.1 (by rw [← hrows.emitted, hzero.1])
    obtain ⟨plan, -, hbody⟩ := hrows.body
    rw [hbody, if_pos hrows0, List.append_nil]
  · refine .inr (.inr ⟨rows, ⟨_, rfl⟩, ⟨_, hrows.consumed_le, ?_, rfl, hrows.rows_eq⟩,
      ⟨rfl, rfl, rfl⟩, _, _, _, hrows, rfl⟩)
    -- a body with rows has consumed their handles
    by_contra hk
    have hk : (encodePacketBody s p.handles
        (p.limits.maxPayloadBytes - (headerLen + authOverhead p.key))).1.handlesConsumed = 0 := by
      omega
    refine hzero ⟨?_, hk⟩
    rw [hrows.emitted, hrows.rows_eq, hk]
    rfl

section Frames

variable {handles : List CellHandle} {budget : ℕ} {rows : List Row} {e : EncodedBody}
  {body : List UInt8}

theorem Carries.cellCount (h : Carries s handles budget rows e body) (hdr : Header)
    (flags : BitVec 16) : (packetHeader w hdr e flags).cellCount.toNat = rows.length := by
  have hle : rows.length ≤ u32Max := by
    rw [h.rows_eq, List.length_take]; exact min_le_left _ _
  show (BitVec.ofNat 32 e.cellsEmitted).toNat = _
  rw [h.emitted, BitVec.toNat_ofNat]
  exact Nat.mod_eq_of_lt (lt_of_le_of_lt hle (by decide))

/-- **A cut-off frame decodes to the rows of the packet, or not at all.** -/
theorem Carries.decodeFrame_take (h : Carries s handles budget rows e body) {hdr : Header}
    {flags : BitVec 16} {limits : FrameLimits} {accept : Header → Bool} {tail : List UInt8} {n : ℕ}
    {cells : List (WireCell w)} {summary : DecodedSummary}
    (hd : decodeFrame w limits accept
      ((patchHeader (packetHeader w hdr e flags) ++ (body ++ tail)).take n) = (cells, .ok summary)) :
    cells = rows.map (Row.wireCell w) ∨ cells = [] := by
  set hdr' := packetHeader w hdr e flags with hhdr
  -- a frame without a whole header is too short
  by_cases hn : n < headerLen
  · unfold decodeFrame readHeader at hd
    rw [if_pos (by rw [List.length_take]; omega)] at hd
    cases hd
  have hsplit : (patchHeader hdr' ++ (body ++ tail)).take n =
      patchHeader hdr' ++ (body ++ tail).take (n - headerLen) := by
    rw [List.take_append, length_patchHeader, List.take_of_length_le (by rw [length_patchHeader]; omega)]
  rw [hsplit] at hd
  unfold decodeFrame at hd
  rw [readHeader_patchHeader] at hd
  dsimp only at hd
  split_ifs at hd with h1 h2 h3 h4 h5
  · cases hd
  · cases hd
  · cases hd
  · cases hd
  · -- the bytes after the header are the first `body_len` bytes of the body
    have hbl : hdr'.bodyLen.toNat ≤ body.length := by
      rw [← h.bodyLen]
      exact (BitVec.toNat_ofNat ..).trans_le (Nat.mod_le _ _)
    have hlen : ((body ++ tail).take (n - headerLen)).length = hdr'.bodyLen.toNat := by
      rw [not_not, List.length_append, length_patchHeader] at h3
      omega
    have hslice : slice (patchHeader hdr' ++ (body ++ tail).take (n - headerLen)) headerLen
        hdr'.bodyLen.toNat = body.take hdr'.bodyLen.toNat := by
      rw [slice_append_right (length_patchHeader hdr').le, length_patchHeader, Nat.sub_self,
        slice_self hlen, take_append_eq hlen hbl]
    rw [hslice, h.cellCount] at hd
    left
    rcases hb : decodeBodyVisit w (body.take hdr'.bodyLen.toNat) rows.length with ⟨cells', res⟩
    rw [hb] at hd
    cases res with
    | error err => cases hd
    | ok u =>
      cases hd
      exact h.decode_take hb
  · cases hd
    exact .inr rfl

end Frames

/-- What is decoded is the header and body of a prefix of the bytes. -/
theorem decodeInner_ok {mac : Mac} {key : Option HmacKey} {limits : FrameLimits}
    {accept : Header → Bool} {bytes : List UInt8} {cells : List (WireCell w)}
    {summary : DecodedSummary}
    (h : decodeInner mac w key limits accept bytes = (cells, .ok summary)) :
    ∃ n, decodeFrame w limits accept (bytes.take n) = (cells, .ok summary) := by
  unfold decodeInner at h
  split_ifs at h with h1 h2
  · cases h
  · cases h
  · unfold openFrame at h
    cases key with
    | none => exact ⟨bytes.length, by rw [List.take_length]; exact h⟩
    | some key =>
      dsimp only at h
      by_cases hv : verify mac key (bytes.take (bytes.length - authTagLen))
          (bytes.drop (bytes.length - authTagLen)) = true
      · rw [if_pos hv] at h
        exact ⟨_, h⟩
      · rw [if_neg hv] at h
        cases h

theorem decodeFrame_zeros {limits : FrameLimits} {accept : Header → Bool} {n : ℕ}
    {cells : List (WireCell w)} {summary : DecodedSummary} :
    decodeFrame w limits accept ((List.replicate headerLen 0).take n) ≠ (cells, .ok summary) := by
  intro h
  unfold decodeFrame readHeader at h
  split_ifs at h with hlen hmagic
  · cases h
  · cases h
  all_goals
    refine hmagic ?_
    rw [List.length_take, List.length_replicate] at hlen
    rw [List.take_of_length_le (by rw [List.length_replicate]; omega)]
    decide

/-- **A datagram carries only rows of the sender's table**, whatever buffer content of the
    encoder it is, however short it was cut, and with whatever key it is read. -/
theorem decode_nextInto {mac : Mac} (hs : CountsFit s) (p : Packets) {n : ℕ} {key : Option HmacKey}
    {limits : FrameLimits} {accept : Header → Bool} {cells : List (WireCell w)}
    {summary : DecodedSummary}
    (h : decodeInner mac w key limits accept ((p.nextInto mac s).2.1.take n) = (cells, .ok summary)) :
    ∀ c ∈ cells, ∃ handle ∈ p.handles, ∃ row, rowOf s handle = some row ∧ c = row.wireCell w := by
  intro c hc
  obtain ⟨m, hd⟩ := decodeInner_ok h
  rw [List.take_take] at hd
  rcases nextInto_cases mac hs p with ⟨hbuf, -, -⟩ | ⟨hbuf, -, -⟩ | ⟨rows, -, hw⟩
  · rw [hbuf, List.take_nil] at hd
    cases hd
  · rw [hbuf] at hd
    exact absurd hd decodeFrame_zeros
  · obtain ⟨e, body, flags, hcar, hbuf⟩ := hw.frame
    obtain ⟨k, -, -, -, hrows⟩ := hw.rest
    have htail : ∃ tail, (p.nextInto mac s).2.1 =
        patchHeader (packetHeader w p.header e flags) ++ (body ++ tail) := by
      rw [hbuf]
      cases p.key with
      | none => exact ⟨[], by rw [List.append_nil]; rfl⟩
      | some key => exact ⟨_, by rw [← List.append_assoc]; rfl⟩
    obtain ⟨tail, htail⟩ := htail
    rw [htail] at hd
    rcases hcar.decodeFrame_take hd with hcells | hcells
    · rw [hcells, List.mem_map] at hc
      obtain ⟨row, hrow, rfl⟩ := hc
      rw [hrows] at hrow
      obtain ⟨handle, hmem, hro⟩ := List.mem_filterMap.1 (List.mem_of_mem_take hrow)
      exact ⟨handle, List.mem_of_mem_take hmem, row, hro, rfl⟩
    · rw [hcells] at hc
      cases hc

/-! ## Tables -/

/-- The identity of a decoded cell. -/
def WireCell.id (c : WireCell w) : CellId where
  ruleFingerprint := c.ruleFingerprint
  keyHash := c.keyHash
  bucket := c.bucket
  nodeId := c.originNodeId
  incarnation := c.originIncarnation

variable {pins : ℕ → Bool}

theorem get_eq_some {h : CellHandle} {cell : Cell} (hc : s.get h = some cell) :
    s.isActive h.index = true ∧ cell = s.cells h.index ∧ h.index < s.capacity := by
  obtain ⟨x, hx, rfl⟩ := Option.map_eq_some_iff.1 hc
  obtain ⟨rfl, hlt, ha, -⟩ := CellTable.resolve_eq_some hx
  exact ⟨ha, rfl, hlt⟩

theorem countsFit (h : s.Inv pins) : CountsFit s := by
  intro handle row hr
  obtain ⟨ha, hc, -⟩ := get_eq_some (rowOf_eq_some hr).1
  rw [hc]
  exact h.count_le _ ha

/-- A row of a table is an entry of its map. -/
theorem rowOf_toMap (h : s.Inv pins) {handle : CellHandle} {row : Row}
    (hr : rowOf s handle = some row) :
    s.toMap (row.wireCell w).id = WithBot.some (row.wireCell w).count := by
  obtain ⟨hget, hf, hn⟩ := rowOf_eq_some hr
  obtain ⟨ha, hc, -⟩ := get_eq_some hget
  refine h.toMap_eq_coe.2 ⟨handle.index, ha, ?_, ?_⟩
  · simp only [CellTable.idOf, CellTable.idOfKey, WireCell.id, Row.wireCell, hf, hn, hc]
  · have hle : row.cell.count ≤ w.max := countsFit h handle row hr
    rw [← hc]
    exact (min_eq_left hle).symm

end Wire

end Gabion

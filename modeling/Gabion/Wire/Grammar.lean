/-
  The frames of the wire format, and that the decoder accepts these and no others.

  `Body` and `Frame` are the layout that `wire/body.rs` and `wire/header.rs` document, as data:
  a value of `Frame w` has its slots inside the dictionaries and a header that agrees with its
  body.  `Frame.bytes` writes it down.  A body is read off the bytes the decoder accepts
  (`bodyAt`) field by field, so that writing it down gives the bytes back.
-/
import Gabion.Wire.Checked
import Gabion.Wire.Delivery

namespace Gabion

open Bytes

namespace Wire

variable {w : CountWidth}

/-! ## The format -/

/-- A row of the columns, for dictionaries of these lengths. -/
structure BodyRow (w : CountWidth) (ruleDictLen nodeDictLen : ℕ) where
  ruleSlot : Fin ruleDictLen
  keyHash : KeyHash
  bucket : BucketEpoch
  nodeSlot : Fin nodeDictLen
  originIncarnation : Incarnation
  lastUpdateMillis : BitVec 64
  originSequence : BitVec 64
  count : ℕ
  count_le : count ≤ w.max

/-- A body with cells: two non-empty dictionaries and the columns. -/
structure Body (w : CountWidth) where
  rules : List Fingerprint
  nodes : List NodeId
  rows : List (BodyRow w rules.length nodes.length)
  rules_ne : rules ≠ []
  nodes_ne : nodes ≠ []
  rows_ne : rows ≠ []
  rules_le : rules.length ≤ maxDictSlots
  nodes_le : nodes.length ≤ maxDictSlots

namespace Body

/-- The dictionaries behind their lengths, then the eight columns. -/
def parts (b : Body w) : List (List UInt8) :=
  [[UInt8.ofNat b.rules.length],
    b.rules.flatMap ofBitVec,
    [UInt8.ofNat b.nodes.length],
    b.nodes.flatMap ofBitVec,
    b.rows.flatMap fun row => [UInt8.ofNat row.ruleSlot],
    b.rows.flatMap fun row => ofBitVec row.keyHash,
    b.rows.flatMap fun row => ofBitVec row.bucket,
    b.rows.flatMap fun row => [UInt8.ofNat row.nodeSlot],
    b.rows.flatMap fun row => ofBitVec row.originIncarnation,
    b.rows.flatMap fun row => ofBitVec row.lastUpdateMillis,
    b.rows.flatMap fun row => ofBitVec row.originSequence,
    b.rows.flatMap fun row => toLE w.size row.count]

def bytes (b : Body w) : List UInt8 := b.parts.flatten

/-- The cell a row stands for. -/
def cell (b : Body w) (row : BodyRow w b.rules.length b.nodes.length) : WireCell w where
  ruleFingerprint := b.rules.get row.ruleSlot
  keyHash := row.keyHash
  bucket := row.bucket
  originNodeId := b.nodes.get row.nodeSlot
  originIncarnation := row.originIncarnation
  count := row.count
  lastUpdateMillis := row.lastUpdateMillis.toNat
  originSequence := row.originSequence.toNat
  count_le := row.count_le

def cells (b : Body w) : List (WireCell w) := b.rows.map b.cell

end Body

/-- The bytes after the header: nothing when there are no cells. -/
def bodyBytes (body : Option (Body w)) : List UInt8 := body.elim [] Body.bytes

def bodyCells (body : Option (Body w)) : List (WireCell w) := body.elim [] Body.cells

/-- A frame: its header has the width of the counts, the number of cells and the length of
    the body. -/
structure Frame (w : CountWidth) where
  header : Header
  body : Option (Body w)
  countWidth : header.countWidth.toNat = w.size
  cellCount : header.cellCount.toNat = (bodyCells body).length
  bodyLen : header.bodyLen.toNat = (bodyBytes body).length

/-- A frame on the wire, with its tag if there is a key. -/
def Frame.bytes (mac : Mac) (key : Option HmacKey) (f : Frame w) : List UInt8 :=
  sealFrame mac key (patchHeader f.header ++ bodyBytes f.body)

def Frame.cells (f : Frame w) : List (WireCell w) := bodyCells f.body

def Frame.summary (f : Frame w) : DecodedSummary :=
  { header := f.header, cellCount := f.header.cellCount, flags := f.header.flags }

/-! ## Frames decode -/

namespace Body

/-- The encoder's plan and rows that write this body: packet slots are store slots. -/
def plan (b : Body w) : Plan :=
  { Plan.start with
    rules := { remap := some, entries := b.rules }
    nodes := { remap := some, entries := b.nodes } }

def row (b : Body w) (r : BodyRow w b.rules.length b.nodes.length) : Row where
  cell := {
    key := {
      rule := r.ruleSlot
      keyHash := r.keyHash
      bucket := r.bucket
      origin := r.nodeSlot
      incarnation := r.originIncarnation }
    count := r.count
    lastUpdateMillis := r.lastUpdateMillis.toNat
    originSequence := r.originSequence.toNat }
  fingerprint := b.rules.get r.ruleSlot
  nodeId := b.nodes.get r.nodeSlot

theorem bodyParts_plan (b : Body w) : bodyParts w b.plan (b.rows.map b.row) = b.parts := by
  simp only [bodyParts, parts, List.flatMap_map]
  rfl

theorem covers_plan (b : Body w) : b.plan.Covers w (b.rows.map b.row) := by
  refine ⟨?_, ?_, b.rules_le, b.nodes_le, ?_⟩
  · rintro _ hrow
    obtain ⟨r, -, rfl⟩ := List.mem_map.1 hrow
    exact ⟨r.ruleSlot, rfl, List.getElem?_eq_getElem r.ruleSlot.isLt⟩
  · rintro _ hrow
    obtain ⟨r, -, rfl⟩ := List.mem_map.1 hrow
    exact ⟨r.nodeSlot, rfl, List.getElem?_eq_getElem r.nodeSlot.isLt⟩
  · rintro _ hrow
    obtain ⟨r, -, rfl⟩ := List.mem_map.1 hrow
    exact r.count_le

theorem wireCell_row (b : Body w) (r : BodyRow w b.rules.length b.nodes.length) :
    (b.row r).wireCell w = b.cell r := by
  refine WireCell.ext rfl rfl rfl rfl rfl ?_ ?_ ?_
  · exact min_eq_left r.count_le
  · exact Nat.mod_eq_of_lt r.lastUpdateMillis.isLt
  · exact Nat.mod_eq_of_lt r.originSequence.isLt

theorem decodeBody (b : Body w) :
    decodeBodyVisit w b.bytes b.rows.length = (b.cells, .ok ()) := by
  have h := decodeBody_body b.covers_plan (by simpa using b.rows_ne)
  rw [bodyParts_plan, List.length_map, List.map_map] at h
  rw [bytes, h, cells]
  exact congrArg (fun f => (b.rows.map f, Except.ok ())) (funext b.wireCell_row)

end Body

theorem decodeBodyVisit_bodyBytes (body : Option (Body w)) :
    decodeBodyVisit w (bodyBytes body) (bodyCells body).length = (bodyCells body, .ok ()) := by
  cases body with
  | none => rfl
  | some b =>
    have hlen : (bodyCells (some b)).length = b.rows.length := List.length_map ..
    rw [hlen]
    exact b.decodeBody

/-! ## What decodes is a frame -/

section Read
variable {bytes : List UInt8}

theorem slice_byteAt {off : ℕ} (h : off < bytes.length) :
    slice bytes off 1 = [UInt8.ofNat (byteAt bytes off)] := by
  rw [slice, List.drop_eq_getElem_cons h, List.take_succ_cons, List.take_zero, byteAt,
    List.getD_eq_getElem?_getD, List.getElem?_eq_getElem h, Option.getD_some, UInt8.ofNat_toNat]

theorem toLE_readCount {off : ℕ} (h : off + w.size ≤ bytes.length) :
    toLE w.size (readCount w bytes off) = slice bytes off w.size := by
  have hlen := length_slice h
  have hlt := ofLE_lt (slice bytes off w.size)
  have hmax : 256 ^ w.size = w.max + 1 := by cases w <;> rfl
  rw [hlen, hmax] at hlt
  rw [readCount, CountWidth.saturatingFromU64, min_eq_left (by omega)]
  nth_rewrite 1 [← hlen]
  exact toLE_ofLE _

/-- The loop visits every index when it does not fail. -/
theorem visit_inv {α : Type} {read : ℕ → Except DecodeError α} :
    ∀ {is : List ℕ}, (visit read is).2 = .ok () → ∀ i ∈ is, ∃ a, read i = .ok a
  | [], _, i, hi => by cases hi
  | j :: is, h, i, hi => by
    unfold visit at h
    cases hread : read j with
    | error e =>
      rw [hread] at h
      cases h
    | ok a =>
      rw [hread] at h
      rcases List.mem_cons.1 hi with rfl | hi
      · exact ⟨a, hread⟩
      · exact visit_inv h i hi

variable {ruleDictLen nodeDictLen n : ℕ}

/-- A body of this length whose slots all lie in the dictionaries. -/
structure Readable (w : CountWidth) (bytes : List UInt8) (ruleDictLen nodeDictLen n : ℕ) : Prop where
  rules : ruleDictLen = byteAt bytes 0
  rules_pos : 0 < ruleDictLen
  nodes : nodeDictLen = byteAt bytes (1 + 16 * ruleDictLen)
  nodes_pos : 0 < nodeDictLen
  length : bytes.length =
    1 + 16 * ruleDictLen + 1 + 16 * nodeDictLen + n * (perCellIdentBytes + w.size)
  n_pos : 0 < n
  ruleSlot : ∀ i < n, byteAt bytes (1 + 16 * ruleDictLen + 1 + 16 * nodeDictLen + i) < ruleDictLen
  nodeSlot : ∀ i < n,
    byteAt bytes (1 + 16 * ruleDictLen + 1 + 16 * nodeDictLen + 21 * n + i) < nodeDictLen

theorem readCell_slots {rules nodes cursor i : ℕ} {cell : WireCell w}
    (h : readCell w bytes rules ruleDictLen nodes nodeDictLen cursor n i = .ok cell) :
    byteAt bytes (cursor + i) < ruleDictLen ∧ byteAt bytes (cursor + 21 * n + i) < nodeDictLen := by
  unfold readCell at h
  dsimp only at h
  split_ifs at h with hrule hnode
  exact ⟨not_le.1 hrule, not_le.1 hnode⟩

/-- What `decode_body_visit` has checked when it succeeds. -/
theorem readable_of_decodeBodyVisit (h : (decodeBodyVisit w bytes n).2 = .ok ()) :
    n = 0 ∧ bytes = [] ∨ ∃ ruleDictLen nodeDictLen, Readable w bytes ruleDictLen nodeDictLen n := by
  unfold decodeBodyVisit at h
  dsimp only at h
  split_ifs at h with hn hne hnil hR hshort hD hlen
  · exact .inl ⟨hn, not_not.1 hne⟩
  · have hslots := fun i hi => readCell_slots (visit_inv h i (List.mem_range.2 hi)).choose_spec
    exact .inr ⟨_, _, rfl, Nat.pos_of_ne_zero hR, rfl, Nat.pos_of_ne_zero hD, not_not.1 hlen,
      Nat.pos_of_ne_zero hn, fun i hi => (hslots i hi).1, fun i hi => (hslots i hi).2⟩

/-- Row `i` of a readable body. -/
def rowAt (w : CountWidth) (bytes : List UInt8) (cursor n i : ℕ) {R D : ℕ}
    (hrule : byteAt bytes (cursor + i) < R) (hnode : byteAt bytes (cursor + 21 * n + i) < D) :
    BodyRow w R D where
  ruleSlot := ⟨byteAt bytes (cursor + i), hrule⟩
  keyHash := Bytes.read 128 bytes (cursor + n + i * 16)
  bucket := Bytes.read 32 bytes (cursor + 17 * n + i * 4)
  nodeSlot := ⟨byteAt bytes (cursor + 21 * n + i), hnode⟩
  originIncarnation := Bytes.read 32 bytes (cursor + 22 * n + i * 4)
  lastUpdateMillis := Bytes.read 64 bytes (cursor + 26 * n + i * 8)
  originSequence := Bytes.read 64 bytes (cursor + 34 * n + i * 8)
  count := readCount w bytes (cursor + 42 * n + i * w.size)
  count_le := readCount_row_le w bytes cursor n i

/-- The body the bytes are. -/
def bodyAt (h : Readable w bytes ruleDictLen nodeDictLen n) : Body w where
  rules := List.ofFn fun i : Fin ruleDictLen => Bytes.read 128 bytes (1 + i * 16)
  nodes := List.ofFn fun i : Fin nodeDictLen =>
    Bytes.read 128 bytes (1 + 16 * ruleDictLen + 1 + i * 16)
  rows := List.ofFn fun i : Fin n =>
    rowAt w bytes (1 + 16 * ruleDictLen + 1 + 16 * nodeDictLen) n i
      ((h.ruleSlot i i.isLt).trans_eq List.length_ofFn.symm)
      ((h.nodeSlot i i.isLt).trans_eq List.length_ofFn.symm)
  rules_ne := fun hnil => h.rules_pos.ne' (List.ofFn_eq_nil_iff.1 hnil)
  nodes_ne := fun hnil => h.nodes_pos.ne' (List.ofFn_eq_nil_iff.1 hnil)
  rows_ne := fun hnil => h.n_pos.ne' (List.ofFn_eq_nil_iff.1 hnil)
  rules_le := by
    have := byteAt_lt bytes 0
    rw [List.length_ofFn, h.rules, maxDictSlots]
    omega
  nodes_le := by
    have := byteAt_lt bytes (1 + 16 * ruleDictLen)
    rw [List.length_ofFn, h.nodes, maxDictSlots]
    omega

/-- Every part of the body that was read is where the decoder looked for it. -/
theorem parts_bodyAt (h : Readable w bytes ruleDictLen nodeDictLen n) {cursor : ℕ}
    (hcursor : cursor = 1 + 16 * ruleDictLen + 1 + 16 * nodeDictLen) :
    (bodyAt h).parts =
      [slice bytes 0 1, slice bytes 1 (16 * ruleDictLen), slice bytes (1 + 16 * ruleDictLen) 1,
        slice bytes (1 + 16 * ruleDictLen + 1) (16 * nodeDictLen), slice bytes cursor (1 * n),
        slice bytes (cursor + n) (16 * n), slice bytes (cursor + 17 * n) (4 * n),
        slice bytes (cursor + 21 * n) (1 * n), slice bytes (cursor + 22 * n) (4 * n),
        slice bytes (cursor + 26 * n) (8 * n), slice bytes (cursor + 34 * n) (8 * n),
        slice bytes (cursor + 42 * n) (w.size * n)] := by
  have hlen := Checked.length_body_columns h.length
  rw [← hcursor] at hlen
  have hcount : ∀ i : Fin n, i * w.size + w.size ≤ w.size * n := fun i => by
    rw [← Nat.succ_mul, Nat.mul_comm]
    exact Nat.mul_le_mul_left _ i.isLt
  have hfirst : [UInt8.ofNat (bodyAt h).rules.length] = slice bytes 0 1 := by
    have hlength : (bodyAt h).rules.length = byteAt bytes 0 := List.length_ofFn.trans h.rules
    rw [hlength, slice_byteAt (by omega)]
  have hsecond : [UInt8.ofNat (bodyAt h).nodes.length] = slice bytes (1 + 16 * ruleDictLen) 1 := by
    have hlength : (bodyAt h).nodes.length = byteAt bytes (1 + 16 * ruleDictLen) :=
      List.length_ofFn.trans h.nodes
    rw [hlength, slice_byteAt (by omega)]
  unfold Body.parts
  rw [hfirst, hsecond]
  subst hcursor
  refine congrArg₂ _ rfl <| congrArg₂ _ ?_ <| congrArg₂ _ rfl <| congrArg₂ _ ?_ <|
    congrArg₂ _ ?_ <| congrArg₂ _ ?_ <| congrArg₂ _ ?_ <| congrArg₂ _ ?_ <| congrArg₂ _ ?_ <|
    congrArg₂ _ ?_ <| congrArg₂ _ ?_ <| congrArg₂ _ ?_ rfl
  · exact flatMap_ofFn fun i => ofBitVec_read rfl (by omega)
  · exact flatMap_ofFn fun i => ofBitVec_read rfl (by omega)
  · exact flatMap_ofFn fun i => by rw [Nat.mul_one]; exact (slice_byteAt (by omega)).symm
  · exact flatMap_ofFn fun i => ofBitVec_read rfl (by omega)
  · exact flatMap_ofFn fun i => ofBitVec_read rfl (by omega)
  · exact flatMap_ofFn fun i => by rw [Nat.mul_one]; exact (slice_byteAt (by omega)).symm
  · exact flatMap_ofFn fun i => ofBitVec_read rfl (by omega)
  · exact flatMap_ofFn fun i => ofBitVec_read rfl (by omega)
  · exact flatMap_ofFn fun i => ofBitVec_read rfl (by omega)
  · exact flatMap_ofFn fun i => toLE_readCount (by have := hcount i; omega)

/-- **Writing down the body that was read gives the bytes back.** -/
theorem bytes_bodyAt (h : Readable w bytes ruleDictLen nodeDictLen n) : (bodyAt h).bytes = bytes := by
  have hlen := Checked.length_body_columns h.length
  rw [Body.bytes, parts_bodyAt h rfl]
  simp (disch := omega) only [List.flatten_cons, List.flatten_nil, List.append_nil, slice_concat]
  exact slice_self (by omega)

end Read

/-- **A decoded body is a body of the format.** -/
theorem eq_bodyBytes_of_decodeBodyVisit {bytes : List UInt8} {n : ℕ}
    (h : (decodeBodyVisit w bytes n).2 = .ok ()) :
    ∃ body : Option (Body w), bytes = bodyBytes body ∧ n = (bodyCells body).length := by
  obtain ⟨hn, hnil⟩ | ⟨ruleDictLen, nodeDictLen, hr⟩ := readable_of_decodeBodyVisit h
  · exact ⟨none, hnil, hn⟩
  · refine ⟨some (bodyAt hr), (bytes_bodyAt hr).symm, ?_⟩
    exact ((List.length_map ..).trans List.length_ofFn).symm

/-! ## The decoder and the format -/

theorem Frame.decodeInner {mac : Mac} {key : Option HmacKey} {limits : FrameLimits}
    {accept : Header → Bool} (f : Frame w) (hpay : (f.bytes mac key).length ≤ limits.maxPayloadBytes)
    (hcells : f.header.cellCount.toNat ≤ limits.maxCells) (haccept : accept f.header = true) :
    Wire.decodeInner mac w key limits accept (f.bytes mac key) = (f.cells, .ok f.summary) := by
  rw [Frame.bytes, decodeInner_sealFrame hpay f.countWidth hcells f.bodyLen haccept, f.cellCount,
    decodeBodyVisit_bodyBytes]
  rfl

/-- **The decoder accepts exactly the frames of the format.**  No step of it panics, and it
    succeeds on bytes that are a frame within the limits, whose rows it visits in order, and
    on no others. -/
theorem decodeInner_iff_frame (usizeMax : ℕ) (hword : 2 ^ 32 - 1 ≤ usizeMax) (mac : Mac)
    (w : CountWidth) (key : Option HmacKey) (limits : FrameLimits) (bytes : List UInt8)
    (hlen : bytes.length ≤ usizeMax) :
    Checked.decodeInner usizeMax mac w key limits (fun _ => true) bytes =
        some (decodeInner mac w key limits (fun _ => true) bytes) ∧
      ∀ cells summary,
        decodeInner mac w key limits (fun _ => true) bytes = (cells, .ok summary) ↔
          ∃ f : Frame w, bytes = f.bytes mac key ∧ bytes.length ≤ limits.maxPayloadBytes ∧
            f.header.cellCount.toNat ≤ limits.maxCells ∧ cells = f.cells ∧ summary = f.summary := by
  refine ⟨Checked.decodeInner_eq hword hlen mac key limits _, fun cells summary => ?_⟩
  constructor
  · intro h
    obtain ⟨hpay, hdr, body, rfl, hwidth, hcells, hbody, hdecode⟩ := eq_of_decodeInner h fun _ => rfl
    obtain ⟨body, rfl, hcount⟩ := eq_bodyBytes_of_decodeBodyVisit hdecode
    -- the cells follow, since the frame decodes to its own
    let f : Frame w := ⟨hdr, body, hwidth, hcount, hbody⟩
    have hf : decodeInner mac w key limits (fun _ => true) (f.bytes mac key) =
        (f.cells, .ok f.summary) := f.decodeInner hpay hcells rfl
    rw [Frame.bytes, h] at hf
    exact ⟨f, rfl, hpay, hcells, congrArg Prod.fst hf, Except.ok.inj (congrArg Prod.snd hf)⟩
  · rintro ⟨f, rfl, hpay, hcells, rfl, rfl⟩
    exact f.decodeInner hpay hcells rfl

/-- A frame with one cell. -/
def oneCellFrame : Frame .u16 where
  header := {
    clusterIdHash := 0
    senderNodeId := 2
    senderIncarnation := 1
    countWidth := 2
    cellCount := 1
    bodyLen := 78
    minOriginSequence := 1
    maxOriginSequence := 1
    flags := 0 }
  body := some {
    rules := [7]
    nodes := [2]
    rows := [{
      ruleSlot := 0
      keyHash := 9
      bucket := 3
      nodeSlot := 0
      originIncarnation := 1
      lastUpdateMillis := 100
      originSequence := 1
      count := 5
      count_le := by decide }]
    rules_ne := List.cons_ne_nil _ _
    nodes_ne := List.cons_ne_nil _ _
    rows_ne := List.cons_ne_nil _ _
    rules_le := by decide
    nodes_le := by decide }
  countWidth := rfl
  cellCount := rfl
  bodyLen := rfl

theorem decodeInner_iff_frame_oneCell :
    let mac : Mac := fun _ _ => Vector.replicate 32 1
    let key : Option HmacKey := some (Vector.replicate 32 0)
    let limits : FrameLimits := { maxPayloadBytes := 1200, maxCells := 16 }
    let bytes := oneCellFrame.bytes mac key
    bytes.length = 182 ∧
      Checked.decodeInner (2 ^ 64 - 1) mac .u16 key limits (fun _ => true) bytes =
        some (oneCellFrame.cells, .ok oneCellFrame.summary) := by
  intro mac key limits bytes
  have hlen : bytes.length = 182 := rfl
  have h := decodeInner_iff_frame (2 ^ 64 - 1) (by norm_num) mac .u16 key limits bytes
    (by rw [hlen]; norm_num)
  refine ⟨hlen, h.1.trans (congrArg some ((h.2 _ _).2 ⟨oneCellFrame, rfl, ?_, ?_, rfl, rfl⟩))⟩
  · rw [hlen]
    decide
  · decide

end Wire

end Gabion

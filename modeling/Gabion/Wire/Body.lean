/-
  Packet bodies (`wire/body.rs`): the per-packet dictionaries and the cell columns.

  The encoder plans a packet over a list of handles (`planPacket`) and then writes the rows
  it planned (`writeBody`).  `u8::MAX` in a remap table is `none`; the counters `r` and `d`
  of the source are the lengths of the two dictionaries.
-/
import Gabion.CellStore
import Gabion.Wire.Header

namespace Gabion

open Function Bytes

namespace Wire

variable {w : CountWidth}

def perCellIdentBytes : ℕ := 1 + 16 + 4 + 1 + 4 + 8 + 8
def dictLenBytes : ℕ := 2
def maxDictSlots : ℕ := 255

/-- A decoded cell: counts fit the width. -/
@[ext]
structure WireCell (w : CountWidth) where
  ruleFingerprint : Fingerprint
  keyHash : KeyHash
  bucket : BucketEpoch
  originNodeId : NodeId
  originIncarnation : Incarnation
  count : ℕ
  lastUpdateMillis : ℕ
  originSequence : ℕ
  count_le : count ≤ w.max

instance : DecidableEq (WireCell w) := fun _ _ => decidable_of_iff' _ WireCell.ext_iff

/-- The row the encoder takes from a cell: its columns and the two dictionary entries. -/
structure Row where
  cell : Cell
  fingerprint : Fingerprint
  nodeId : NodeId
deriving DecidableEq, Repr

/-- The three lookups both passes of the encoder begin with. -/
def rowOf (s : CellTable w) (handle : CellHandle) : Option Row := do
  let cell ← s.get handle
  let rule ← s.ruleDictionary.descriptor cell.key.rule
  let node ← s.nodeDictionary.descriptor cell.key.origin
  return { cell, fingerprint := rule.fingerprint, nodeId := node.nodeId }

/-! ## Encoder -/

/-- One dictionary of a packet, as `WireScratch` holds it: `remap` gives the packet slot of a
    store slot. -/
structure PacketDict (α : Type) where
  remap : ℕ → Option ℕ
  entries : List α

namespace PacketDict

variable {α : Type}

def empty : PacketDict α := { remap := fun _ => none, entries := [] }

def unseen (d : PacketDict α) (slot : ℕ) : Bool := (d.remap slot).isNone

/-- The length once `slot` is in the dictionary: `new_r` and `new_d`. -/
def lenWith (d : PacketDict α) (slot : ℕ) : ℕ := d.entries.length + if d.unseen slot then 1 else 0

def add (d : PacketDict α) (slot : ℕ) (entry : α) : PacketDict α :=
  if d.unseen slot then
    { remap := update d.remap slot (some d.entries.length), entries := d.entries ++ [entry] }
  else d

end PacketDict

/-- The state of `plan_packet`. -/
structure Plan where
  consumed : ℕ
  cellsEmitted : ℕ
  cellsDropped : ℕ
  rules : PacketDict Fingerprint
  nodes : PacketDict NodeId
  minSeq : ℕ
  maxSeq : ℕ

/-- The plan before the first handle: `WireScratch::reset`. -/
def Plan.start : Plan where
  consumed := 0
  cellsEmitted := 0
  cellsDropped := 0
  rules := .empty
  nodes := .empty
  minSeq := u64Max
  maxSeq := 0

def Plan.drop (p : Plan) : Plan :=
  { p with consumed := p.consumed + 1, cellsDropped := min (p.cellsDropped + 1) u32Max }

def Plan.newR (p : Plan) (row : Row) : ℕ := p.rules.lenWith row.cell.key.rule

def Plan.newD (p : Plan) (row : Row) : ℕ := p.nodes.lenWith row.cell.key.origin

/-- The body size if the row is taken. -/
def Plan.projectedBody (p : Plan) (countSize : ℕ) (row : Row) : ℕ :=
  dictLenBytes + 16 * p.newR row + 16 * p.newD row +
    (p.cellsEmitted + 1) * (perCellIdentBytes + countSize)

def Plan.emit (p : Plan) (row : Row) : Plan :=
  { p with
    rules := p.rules.add row.cell.key.rule row.fingerprint
    nodes := p.nodes.add row.cell.key.origin row.nodeId
    cellsEmitted := min (p.cellsEmitted + 1) u32Max
    minSeq := min row.cell.originSequence p.minSeq
    maxSeq := max row.cell.originSequence p.maxSeq
    consumed := p.consumed + 1 }

/-- The loop of `plan_packet`: it stops at the first row that does not fit. -/
def planPacket (s : CellTable w) (bodyBudget : ℕ) : List CellHandle → Plan → Plan
  | [], p => p
  | handle :: rest, p =>
    match rowOf s handle with
    | none => planPacket s bodyBudget rest p.drop
    | some row =>
      if p.newR row > maxDictSlots ∨ p.newD row > maxDictSlots then p
      else if p.projectedBody w.size row > bodyBudget then p
      else planPacket s bodyBudget rest (p.emit row)

def Plan.bodyLen (p : Plan) (countSize : ℕ) : ℕ :=
  if p.cellsEmitted = 0 then 0
  else dictLenBytes + 16 * (p.rules.entries.length + p.nodes.entries.length) +
    p.cellsEmitted * (perCellIdentBytes + countSize)

/-- One byte of a remap column. -/
def slotByte (remap : ℕ → Option ℕ) (slot : ℕ) : List UInt8 :=
  [UInt8.ofNat ((remap slot).getD 255)]

/-- The columns of `write_body`, one field of every row after the other. -/
def bodyParts (w : CountWidth) (p : Plan) (rows : List Row) : List (List UInt8) :=
  [[UInt8.ofNat p.rules.entries.length],
    p.rules.entries.flatMap ofBitVec,
    [UInt8.ofNat p.nodes.entries.length],
    p.nodes.entries.flatMap ofBitVec,
    rows.flatMap fun row => slotByte p.rules.remap row.cell.key.rule,
    rows.flatMap fun row => ofBitVec row.cell.key.keyHash,
    rows.flatMap fun row => ofBitVec row.cell.key.bucket,
    rows.flatMap fun row => slotByte p.nodes.remap row.cell.key.origin,
    rows.flatMap fun row => ofBitVec row.cell.key.incarnation,
    rows.flatMap fun row => toLE 8 row.cell.lastUpdateMillis,
    rows.flatMap fun row => toLE 8 row.cell.originSequence,
    rows.flatMap fun row => toLE w.size row.cell.count]

/-- The rows of the second pass: those of the consumed handles, at most as many as planned. -/
def plannedRows (s : CellTable w) (handles : List CellHandle) (p : Plan) : List Row :=
  ((handles.take p.consumed).filterMap (rowOf s)).take p.cellsEmitted

def writeBody (s : CellTable w) (handles : List CellHandle) (p : Plan) : List UInt8 :=
  (bodyParts w p (plannedRows s handles p)).flatten

structure EncodedBody where
  bodyLen : ℕ
  cellsEmitted : ℕ
  cellsDropped : ℕ
  minOriginSequence : ℕ
  maxOriginSequence : ℕ
  handlesConsumed : ℕ

/-- `encode_packet_body` from the handle at the cursor on; also the bytes it appends. -/
def encodePacketBody (s : CellTable w) (handles : List CellHandle) (bodyBudget : ℕ) :
    EncodedBody × List UInt8 :=
  let plan := planPacket s bodyBudget handles Plan.start
  if plan.cellsEmitted = 0 then
    ({ bodyLen := 0
       cellsEmitted := 0
       cellsDropped := plan.cellsDropped
       minOriginSequence := 0
       maxOriginSequence := 0
       handlesConsumed := plan.consumed }, [])
  else
    ({ bodyLen := plan.bodyLen w.size
       cellsEmitted := plan.cellsEmitted
       cellsDropped := plan.cellsDropped
       minOriginSequence := plan.minSeq
       maxOriginSequence := plan.maxSeq
       handlesConsumed := plan.consumed }, writeBody s handles plan)

/-! ## Decoder -/

def byteAt (bytes : List UInt8) (off : ℕ) : ℕ := (bytes.getD off 0).toNat

theorem byteAt_lt (bytes : List UInt8) (off : ℕ) : byteAt bytes off < 256 := UInt8.toNat_lt _

def readCount (w : CountWidth) (bytes : List UInt8) (off : ℕ) : ℕ :=
  w.saturatingFromU64 (ofLE (slice bytes off w.size))

theorem readCount_row_le (w : CountWidth) (bytes : List UInt8) (cursor n i : ℕ) :
    readCount w bytes (cursor + 42 * n + i * w.size) ≤ w.max := min_le_right _ _

/-- The body of the cell loop of `decode_body_visit`: row `i` of `n`, where the columns start
    at `cursor` and the dictionaries at `rules` and `nodes`. -/
def readCell (w : CountWidth) (bytes : List UInt8) (rules ruleDictLen nodes nodeDictLen cursor n i : ℕ) :
    Except DecodeError (WireCell w) :=
  let rs := byteAt bytes (cursor + i)
  if rs ≥ ruleDictLen then .error .badSlot
  else
    let ns := byteAt bytes (cursor + 21 * n + i)
    if ns ≥ nodeDictLen then .error .badSlot
    else .ok {
      ruleFingerprint := Bytes.read 128 bytes (rules + rs * 16)
      originNodeId := Bytes.read 128 bytes (nodes + ns * 16)
      keyHash := Bytes.read 128 bytes (cursor + n + i * 16)
      bucket := Bytes.read 32 bytes (cursor + 17 * n + i * 4)
      originIncarnation := Bytes.read 32 bytes (cursor + 22 * n + i * 4)
      lastUpdateMillis := ofLE (slice bytes (cursor + 26 * n + i * 8) 8)
      originSequence := ofLE (slice bytes (cursor + 34 * n + i * 8) 8)
      count := readCount w bytes (cursor + 42 * n + i * w.size)
      count_le := readCount_row_le w bytes cursor n i }

/-- A loop that stops at the first error: the items visited so far, and the result. -/
def visit {α : Type} (read : ℕ → Except DecodeError α) : List ℕ → List α × Except DecodeError Unit
  | [] => ([], .ok ())
  | i :: is =>
    match read i with
    | .error e => ([], .error e)
    | .ok a => (a :: (visit read is).1, (visit read is).2)

/-- `decode_body_visit`: the cells passed to `on_cell`, and the result. -/
def decodeBodyVisit (w : CountWidth) (bytes : List UInt8) (cellCount : ℕ) :
    List (WireCell w) × Except DecodeError Unit :=
  if cellCount = 0 then
    if bytes ≠ [] then ([], .error .bodyLenMismatch) else ([], .ok ())
  else if bytes = [] then ([], .error .bodyLenMismatch)
  else
    let ruleDictLen := byteAt bytes 0
    if ruleDictLen = 0 then ([], .error .bodyLenMismatch)
    else
      let ruleDictEnd := 1 + 16 * ruleDictLen
      if bytes.length < ruleDictEnd + 1 then ([], .error .bodyLenMismatch)
      else
        let nodeDictLen := byteAt bytes ruleDictEnd
        if nodeDictLen = 0 then ([], .error .bodyLenMismatch)
        else
          let nodeDictStart := ruleDictEnd + 1
          let nodeDictEnd := nodeDictStart + 16 * nodeDictLen
          if bytes.length ≠ nodeDictEnd + cellCount * (perCellIdentBytes + w.size) then
            ([], .error .bodyLenMismatch)
          else
            visit (readCell w bytes 1 ruleDictLen nodeDictStart nodeDictLen nodeDictEnd cellCount)
              (List.range cellCount)

end Wire

end Gabion

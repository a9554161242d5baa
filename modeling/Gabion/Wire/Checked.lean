/-
  The decoder with its checks.

  `Wire.decodeInner` reads bytes with a default and adds without a bound.  Here the decoder is
  translated a second time, with the slices and cursors of the source: an index or a range
  out of bounds, a conversion to an array of another length, an assertion that fails and a
  sum that does not fit `usize` are all `none`.  `decodeInner_eq` says that none of them
  happens, and that the two decoders agree.
-/
import Gabion.Wire.Packets

namespace Gabion

open Bytes

namespace Wire.Checked

/-! ## Operations that panic -/

/-- `bytes[a..b]`. -/
def range (bytes : List UInt8) (a b : ℕ) : Option (List UInt8) :=
  if a ≤ b ∧ b ≤ bytes.length then some (slice bytes a (b - a)) else none

/-- `bytes[a..]`. -/
def rangeFrom (bytes : List UInt8) (a : ℕ) : Option (List UInt8) := range bytes a bytes.length

/-- `bytes[i] as usize`. -/
def index (bytes : List UInt8) (i : ℕ) : Option ℕ := (bytes[i]?).map UInt8.toNat

/-- `bytes.split_at(mid)`. -/
def splitAt (bytes : List UInt8) (mid : ℕ) : Option (List UInt8 × List UInt8) :=
  if mid ≤ bytes.length then some (bytes.take mid, bytes.drop mid) else none

/-- `from_le_bytes(src.try_into().unwrap())`. -/
def fromLeBytes (n : ℕ) (src : List UInt8) : Option (BitVec n) :=
  if src.length = n / 8 then some (Bytes.read n src 0) else none

/-- A field of the header, `bytes[a..b]`. -/
def field (n : ℕ) (bytes : List UInt8) (a b : ℕ) : Option (BitVec n) := do
  fromLeBytes n (← range bytes a b)

/-- `read_u32`, `read_u64` and `read_u128`. -/
def readUint (n : ℕ) (src : List UInt8) : Option (BitVec n) := do
  fromLeBytes n (← range src 0 (n / 8))

/-- `read_count`: the bytes are copied to the start of an array of eight. -/
def readCount (w : CountWidth) (src : List UInt8) : Option ℕ := do
  let head ← range src 0 w.size
  let tail ← rangeFrom (List.replicate 8 0) w.size
  return w.saturatingFromU64 (ofLE (head ++ tail))

section
variable (usizeMax : ℕ)

/-- `a + b`, and `a.checked_add(b)` where the source expects that it may not fit. -/
def add (a b : ℕ) : Option ℕ := if a + b ≤ usizeMax then some (a + b) else none

/-- `a * b` and `a.checked_mul(b)`. -/
def mul (a b : ℕ) : Option ℕ := if a * b ≤ usizeMax then some (a * b) else none

def sub (a b : ℕ) : Option ℕ := if b ≤ a then some (a - b) else none

/-! ## The decoder -/

def readHeader (bytes : List UInt8) : Option (Except DecodeError Header) :=
  if bytes.length < headerLen then some (.error .tooShort)
  else do
    let magic' ← field 32 bytes 0 4
    if magic' ≠ magic then some (.error .badMagic)
    else
      let version' ← field 16 bytes 4 6
      if version' ≠ version then some (.error .badVersion)
      else
        let flags ← field 16 bytes 6 8
        let clusterIdHash ← field 128 bytes 8 24
        let senderNodeId ← field 128 bytes 24 40
        let senderIncarnation ← field 32 bytes 40 44
        let countWidth ← field 32 bytes 44 48
        let cellCount ← field 32 bytes 48 52
        let bodyLen ← field 32 bytes 52 56
        let minOriginSequence ← field 64 bytes 56 64
        let maxOriginSequence ← field 64 bytes 64 72
        some (.ok {
          clusterIdHash, senderNodeId, senderIncarnation, countWidth, cellCount, bodyLen,
          minOriginSequence, maxOriginSequence, flags })

/-- The slices `decode_body_visit` cuts the body into. -/
structure Slabs where
  ruleDict : List UInt8
  nodeDict : List UInt8
  ruleSlot : List UInt8
  keyHash : List UInt8
  bucket : List UInt8
  nodeSlot : List UInt8
  originInc : List UInt8
  lastUpdate : List UInt8
  originSeq : List UInt8
  count : List UInt8

/-- The slab of `n` fields of `k` bytes at the cursor, and the cursor behind it. -/
def column (bytes : List UInt8) (cursor k n : ℕ) : Option (List UInt8 × ℕ) := do
  let stop ← add usizeMax cursor (← mul usizeMax k n)
  return (← range bytes cursor stop, stop)

def slabs (w : CountWidth) (bytes : List UInt8)
    (ruleDictStart ruleDictEnd nodeDictStart nodeDictEnd n : ℕ) : Option Slabs := do
  let ruleDict ← range bytes ruleDictStart ruleDictEnd
  let nodeDict ← range bytes nodeDictStart nodeDictEnd
  let (ruleSlot, cursor) ← column usizeMax bytes nodeDictEnd 1 n
  let (keyHash, cursor) ← column usizeMax bytes cursor 16 n
  let (bucket, cursor) ← column usizeMax bytes cursor 4 n
  let (nodeSlot, cursor) ← column usizeMax bytes cursor 1 n
  let (originInc, cursor) ← column usizeMax bytes cursor 4 n
  let (lastUpdate, cursor) ← column usizeMax bytes cursor 8 n
  let (originSeq, cursor) ← column usizeMax bytes cursor 8 n
  let (count, cursor) ← column usizeMax bytes cursor w.size n
  -- the `debug_assert_eq!` at the end
  if cursor = bytes.length then
    return {
      ruleDict, nodeDict, ruleSlot, keyHash, bucket, nodeSlot, originInc, lastUpdate, originSeq,
      count }
  else none

/-- The field of `n` bits at `slab[i * k..]`. -/
def slabField (n : ℕ) (slab : List UInt8) (i k : ℕ) : Option (BitVec n) := do
  readUint n (← rangeFrom slab (← mul usizeMax i k))

/-- `read_count::<C>(&count_slab[i * count_size..])`. -/
def slabCount (w : CountWidth) (slab : List UInt8) (i : ℕ) : Option ℕ := do
  readCount w (← rangeFrom slab (← mul usizeMax i w.size))

/-- The fields of row `i`, whose slots in the dictionaries are `rs` and `ns`. -/
def rowFields (w : CountWidth) (b : Slabs) (rs ns i : ℕ) : Option (WireCell w) := do
  let ruleFingerprint ← slabField usizeMax 128 b.ruleDict rs 16
  let originNodeId ← slabField usizeMax 128 b.nodeDict ns 16
  let keyHash ← slabField usizeMax 128 b.keyHash i 16
  let bucket ← slabField usizeMax 32 b.bucket i 4
  let originIncarnation ← slabField usizeMax 32 b.originInc i 4
  let lastUpdateMillis ← slabField usizeMax 64 b.lastUpdate i 8
  let originSequence ← slabField usizeMax 64 b.originSeq i 8
  let count ← slabCount usizeMax w b.count i
  -- `C` holds no larger value than `w.max`
  if h : count ≤ w.max then
    some {
      ruleFingerprint, keyHash, bucket, originNodeId, originIncarnation, count
      lastUpdateMillis := lastUpdateMillis.toNat
      originSequence := originSequence.toNat
      count_le := h }
  else none

def readCell (w : CountWidth) (ruleDictLen nodeDictLen : ℕ) (b : Slabs) (i : ℕ) :
    Option (Except DecodeError (WireCell w)) := do
  let rs ← index b.ruleSlot i
  if rs ≥ ruleDictLen then some (.error .badSlot)
  else
    let ns ← index b.nodeSlot i
    if ns ≥ nodeDictLen then some (.error .badSlot)
    else (rowFields usizeMax w b rs ns i).map .ok

/-- The cell loop: the cells visited before the first error, and the result. -/
def visit {α : Type} (read : ℕ → Option (Except DecodeError α)) :
    List ℕ → Option (List α × Except DecodeError Unit)
  | [] => some ([], .ok ())
  | i :: is => do
    match ← read i with
    | .error e => some ([], .error e)
    | .ok a =>
      let (as, res) ← visit read is
      some (a :: as, res)

def decodeBodyVisit (w : CountWidth) (bytes : List UInt8) (cellCount : ℕ) :
    Option (List (WireCell w) × Except DecodeError Unit) :=
  if cellCount = 0 then
    some (if bytes ≠ [] then ([], .error .bodyLenMismatch) else ([], .ok ()))
  else if bytes = [] then some ([], .error .bodyLenMismatch)
  else do
    let ruleDictLen ← index bytes 0
    if ruleDictLen = 0 then some ([], .error .bodyLenMismatch)
    else
      let ruleDictEnd ← add usizeMax 1 (← mul usizeMax 16 ruleDictLen)
      let nodeDictStart ← add usizeMax ruleDictEnd 1
      if bytes.length < nodeDictStart then some ([], .error .bodyLenMismatch)
      else
        let nodeDictLen ← index bytes ruleDictEnd
        if nodeDictLen = 0 then some ([], .error .bodyLenMismatch)
        else
          let nodeDictEnd ← add usizeMax nodeDictStart (← mul usizeMax 16 nodeDictLen)
          let perCell ← add usizeMax perCellIdentBytes w.size
          -- `checked_mul` and `checked_add`: the only overflow the source expects
          match (mul usizeMax cellCount perCell).bind (add usizeMax nodeDictEnd) with
          | none => some ([], .error .bodyLenMismatch)
          | some expectedTotal =>
            if bytes.length ≠ expectedTotal then some ([], .error .bodyLenMismatch)
            else
              let b ← slabs usizeMax w bytes 1 ruleDictEnd nodeDictStart nodeDictEnd cellCount
              visit (readCell usizeMax w ruleDictLen nodeDictLen b) (List.range cellCount)

/-- The tag check: with a key, the frame in front of a valid tag. -/
def openFrame (mac : Mac) (key : Option HmacKey) (bytes : List UInt8) :
    Option (Except DecodeError (List UInt8)) :=
  match key with
  | some key => do
    let (frame, tag) ← splitAt bytes (← sub bytes.length authTagLen)
    some (if verify mac key frame tag then .ok frame else .error .authenticationFailed)
  | none => some (.ok bytes)

def decodeFrame (w : CountWidth) (limits : FrameLimits) (acceptHeader : Header → Bool)
    (frame : List UInt8) : Option (List (WireCell w) × Except DecodeError DecodedSummary) := do
  match ← readHeader frame with
  | .error e => some ([], .error e)
  | .ok header =>
    if header.countWidth.toNat ≠ w.size then some ([], .error .badCountWidth)
    else if header.cellCount.toNat > limits.maxCells then some ([], .error .capacityExceeded)
    else
      -- `checked_add`
      match add usizeMax headerLen header.bodyLen.toNat with
      | none => some ([], .error .bodyLenMismatch)
      | some totalRequired =>
        if totalRequired ≠ frame.length then
          some ([], .error (if totalRequired > frame.length then .bodyLenMismatch else .trailing))
        else
          let summary := { header, cellCount := header.cellCount, flags := header.flags }
          if acceptHeader header then
            let body ← range frame headerLen (← add usizeMax headerLen header.bodyLen.toNat)
            let (cells, res) ← decodeBodyVisit usizeMax w body header.cellCount.toNat
            some (cells, res.map fun _ => summary)
          else some ([], .ok summary)

def decodeInner (mac : Mac) (w : CountWidth) (key : Option HmacKey) (limits : FrameLimits)
    (acceptHeader : Header → Bool) (bytes : List UInt8) :
    Option (List (WireCell w) × Except DecodeError DecodedSummary) :=
  if bytes.length > limits.maxPayloadBytes then some ([], .error .payloadTooLarge)
  else do
    if bytes.length < (← add usizeMax headerLen (authOverhead key)) then some ([], .error .tooShort)
    else
      match ← openFrame mac key bytes with
      | .error e => some ([], .error e)
      | .ok frame => decodeFrame usizeMax w limits acceptHeader frame

end

/-! ## No operation fails -/

theorem range_eq {bytes : List UInt8} {a b : ℕ} (hab : a ≤ b) (hb : b ≤ bytes.length) :
    range bytes a b = some (slice bytes a (b - a)) := if_pos ⟨hab, hb⟩

theorem index_eq {bytes : List UInt8} {i : ℕ} (h : i < bytes.length) :
    index bytes i = some (byteAt bytes i) := by
  rw [index, byteAt, List.getD_eq_getElem?_getD, List.getElem?_eq_getElem h]
  rfl

theorem field_eq {n a b : ℕ} {bytes : List UInt8} (hb : b = a + n / 8) (hle : b ≤ bytes.length) :
    field n bytes a b = some (Bytes.read n bytes a) := by
  subst hb
  have hlen : (slice bytes a (a + n / 8 - a)).length = n / 8 := by
    rw [Nat.add_sub_cancel_left]
    exact length_slice hle
  rw [field, range_eq (Nat.le_add_right ..) hle]
  show fromLeBytes n _ = _
  rw [fromLeBytes, if_pos hlen, read_slice (by omega), Nat.add_zero]

theorem readHeader_eq (bytes : List UInt8) :
    readHeader bytes = some (Wire.readHeader bytes) := by
  unfold readHeader Wire.readHeader
  by_cases hlen : bytes.length < headerLen
  · rw [if_pos hlen, if_pos hlen]
  have hle : 72 ≤ bytes.length := not_lt.1 hlen
  have hfield : ∀ {n a b : ℕ}, b = a + n / 8 → b ≤ 72 →
      field n bytes a b = some (Bytes.read n bytes a) := fun h1 h2 => field_eq h1 (h2.trans hle)
  rw [if_neg hlen, if_neg hlen, hfield (n := 32) (a := 0) rfl (by norm_num),
    hfield (n := 16) (a := 4) rfl (by norm_num), hfield (n := 16) (a := 6) rfl (by norm_num),
    hfield (n := 128) (a := 8) rfl (by norm_num), hfield (n := 128) (a := 24) rfl (by norm_num),
    hfield (n := 32) (a := 40) rfl (by norm_num), hfield (n := 32) (a := 44) rfl (by norm_num),
    hfield (n := 32) (a := 48) rfl (by norm_num), hfield (n := 32) (a := 52) rfl (by norm_num),
    hfield (n := 64) (a := 56) rfl (by norm_num), hfield (n := 64) (a := 64) rfl (by norm_num)]
  simp only [Option.bind_eq_bind, Option.bind_some]
  split_ifs <;> rfl

section
variable {usizeMax : ℕ}

theorem add_eq {a b : ℕ} (h : a + b ≤ usizeMax) : add usizeMax a b = some (a + b) := if_pos h

theorem mul_eq {a b : ℕ} (h : a * b ≤ usizeMax) : mul usizeMax a b = some (a * b) := if_pos h

variable {w : CountWidth} {bytes : List UInt8}

theorem column_eq (hmax : bytes.length ≤ usizeMax) {cursor k n : ℕ}
    (h : cursor + k * n ≤ bytes.length) :
    column usizeMax bytes cursor k n = some (slice bytes cursor (k * n), cursor + k * n) := by
  rw [column, mul_eq (by omega)]
  simp only [Option.bind_eq_bind, Option.bind_some]
  rw [add_eq (by omega)]
  simp only [Option.bind_some]
  rw [range_eq (Nat.le_add_right ..) h, Nat.add_sub_cancel_left]
  rfl

/-- The rest of a slab from its `i`-th field on. -/
theorem rangeFrom_slice {off len i k : ℕ} (hoff : off + len ≤ bytes.length) (hi : i * k ≤ len) :
    rangeFrom (slice bytes off len) (i * k) = some (slice bytes (off + i * k) (len - i * k)) := by
  rw [rangeFrom, length_slice hoff, range_eq hi (length_slice hoff).ge, slice_slice (by omega)]

theorem slabField_eq (hmax : bytes.length ≤ usizeMax) {n off len i k : ℕ} (hk : k = n / 8)
    (hoff : off + len ≤ bytes.length) (hi : i * k + k ≤ len) :
    slabField usizeMax n (slice bytes off len) i k = some (Bytes.read n bytes (off + i * k)) := by
  have hrest : (slice bytes (off + i * k) (len - i * k)).length = len - i * k :=
    length_slice (by omega)
  rw [slabField, mul_eq (by omega)]
  simp only [Option.bind_eq_bind, Option.bind_some]
  rw [rangeFrom_slice hoff (by omega)]
  simp only [Option.bind_some]
  show field n _ 0 (n / 8) = _
  rw [field_eq (by omega) (by omega), read_slice (by omega), Nat.add_zero]

theorem readCount_eq (w : CountWidth) {src : List UInt8} (h : w.size ≤ src.length) :
    readCount w src = some (Wire.readCount w src 0) := by
  have hzeros : rangeFrom (List.replicate 8 0) w.size = some (List.replicate (8 - w.size) 0) := by
    cases w <;> rfl
  rw [readCount, range_eq (Nat.zero_le _) h, hzeros]
  simp only [Option.bind_eq_bind, Option.bind_some, ofLE_append_zeros]
  rfl

theorem slabCount_eq (hmax : bytes.length ≤ usizeMax) {off len i : ℕ}
    (hoff : off + len ≤ bytes.length) (hi : i * w.size + w.size ≤ len) :
    slabCount usizeMax w (slice bytes off len) i =
      some (Wire.readCount w bytes (off + i * w.size)) := by
  have hrest : (slice bytes (off + i * w.size) (len - i * w.size)).length = len - i * w.size :=
    length_slice (by omega)
  rw [slabCount, mul_eq (by omega)]
  simp only [Option.bind_eq_bind, Option.bind_some]
  rw [rangeFrom_slice hoff (by omega)]
  simp only [Option.bind_some]
  rw [readCount_eq w (by omega), Wire.readCount, Wire.readCount, slice_slice (by omega), Nat.add_zero]

theorem index_slice {off len i : ℕ} (hoff : off + len ≤ bytes.length) (hi : i < len) :
    index (slice bytes off len) i = some (byteAt bytes (off + i)) := by
  have hget : (slice bytes off len)[i]? = bytes[off + i]? := by
    rw [slice, List.getElem?_take_of_lt hi, List.getElem?_drop]
  rw [index, hget]
  exact index_eq (by omega)

/-- The slabs of a body with `R` rules, `D` nodes and `n` rows. -/
def slabsOf (w : CountWidth) (bytes : List UInt8) (R D n : ℕ) : Slabs :=
  let cursor := 1 + 16 * R + 1 + 16 * D
  { ruleDict := slice bytes 1 (16 * R)
    nodeDict := slice bytes (1 + 16 * R + 1) (16 * D)
    ruleSlot := slice bytes cursor n
    keyHash := slice bytes (cursor + n) (16 * n)
    bucket := slice bytes (cursor + 17 * n) (4 * n)
    nodeSlot := slice bytes (cursor + 21 * n) n
    originInc := slice bytes (cursor + 22 * n) (4 * n)
    lastUpdate := slice bytes (cursor + 26 * n) (8 * n)
    originSeq := slice bytes (cursor + 34 * n) (8 * n)
    count := slice bytes (cursor + 42 * n) (w.size * n) }

variable {R D n : ℕ}

theorem length_body_columns
    (hlen : bytes.length = 1 + 16 * R + 1 + 16 * D + n * (perCellIdentBytes + w.size)) :
    bytes.length = 1 + 16 * R + 1 + 16 * D + 42 * n + w.size * n := by
  rw [hlen, perCellIdentBytes]
  ring

theorem slabs_eq (hmax : bytes.length ≤ usizeMax)
    (hlen : bytes.length = 1 + 16 * R + 1 + 16 * D + n * (perCellIdentBytes + w.size)) :
    slabs usizeMax w bytes 1 (1 + 16 * R) (1 + 16 * R + 1) (1 + 16 * R + 1 + 16 * D) n =
      some (slabsOf w bytes R D n) := by
  have htotal := length_body_columns hlen
  unfold slabs
  rw [range_eq (by omega) (by omega), range_eq (by omega) (by omega)]
  simp only [Option.bind_eq_bind, Option.bind_some]
  -- one column after the other
  iterate 8
    rw [column_eq hmax (by omega)]
    simp only [Option.bind_some]
  rw [if_pos (by omega)]
  refine congrArg some ?_
  unfold slabsOf
  congr 2 <;> omega

section
variable (hmax : bytes.length ≤ usizeMax)
  (hlen : bytes.length = 1 + 16 * R + 1 + 16 * D + n * (perCellIdentBytes + w.size)) {i : ℕ}
  (hi : i < n)
include hmax hlen hi

theorem rowFields_eq {rs ns : ℕ} (hrs : rs < R) (hns : ns < D) :
    rowFields usizeMax w (slabsOf w bytes R D n) rs ns i = some {
      ruleFingerprint := Bytes.read 128 bytes (1 + rs * 16)
      originNodeId := Bytes.read 128 bytes (1 + 16 * R + 1 + ns * 16)
      keyHash := Bytes.read 128 bytes (1 + 16 * R + 1 + 16 * D + n + i * 16)
      bucket := Bytes.read 32 bytes (1 + 16 * R + 1 + 16 * D + 17 * n + i * 4)
      originIncarnation := Bytes.read 32 bytes (1 + 16 * R + 1 + 16 * D + 22 * n + i * 4)
      lastUpdateMillis := ofLE (slice bytes (1 + 16 * R + 1 + 16 * D + 26 * n + i * 8) 8)
      originSequence := ofLE (slice bytes (1 + 16 * R + 1 + 16 * D + 34 * n + i * 8) 8)
      count := Wire.readCount w bytes (1 + 16 * R + 1 + 16 * D + 42 * n + i * w.size)
      count_le := min_le_right _ _ } := by
  have htotal := length_body_columns hlen
  have hcount : i * w.size + w.size ≤ w.size * n := by
    rw [← Nat.succ_mul, Nat.mul_comm]
    exact Nat.mul_le_mul_left _ hi
  have hle : ∀ off, Wire.readCount w bytes off ≤ w.max := fun _ => min_le_right _ _
  unfold rowFields slabsOf
  dsimp only
  rw [slabField_eq hmax rfl (by omega) (by omega), slabField_eq hmax rfl (by omega) (by omega),
    slabField_eq hmax rfl (by omega) (by omega), slabField_eq hmax rfl (by omega) (by omega),
    slabField_eq hmax rfl (by omega) (by omega), slabField_eq hmax rfl (by omega) (by omega),
    slabField_eq hmax rfl (by omega) (by omega), slabCount_eq hmax (by omega) hcount]
  simp only [Option.bind_eq_bind, Option.bind_some]
  rw [dif_pos (hle _), toNat_read rfl (by omega), toNat_read rfl (by omega)]

/-- **A row is read without a failure.** -/
theorem readCell_eq : readCell usizeMax w R D (slabsOf w bytes R D n) i =
    some (Wire.readCell w bytes 1 R (1 + 16 * R + 1) D (1 + 16 * R + 1 + 16 * D) n i) := by
  have htotal := length_body_columns hlen
  have hrule : index (slabsOf w bytes R D n).ruleSlot i =
      some (byteAt bytes (1 + 16 * R + 1 + 16 * D + i)) := index_slice (by omega) hi
  have hnode : index (slabsOf w bytes R D n).nodeSlot i =
      some (byteAt bytes (1 + 16 * R + 1 + 16 * D + 21 * n + i)) := index_slice (by omega) hi
  unfold readCell Wire.readCell
  rw [hrule, hnode]
  simp only [Option.bind_eq_bind, Option.bind_some]
  split_ifs with hrs hns
  · rfl
  · rfl
  · rw [rowFields_eq hmax hlen hi (not_le.1 hrs) (not_le.1 hns)]
    rfl

end

theorem visit_eq {α : Type} {read : ℕ → Option (Except DecodeError α)}
    {read' : ℕ → Except DecodeError α} :
    ∀ {is : List ℕ}, (∀ i ∈ is, read i = some (read' i)) → visit read is = some (Wire.visit read' is)
  | [], _ => rfl
  | i :: is, h => by
    have htail := visit_eq fun j hj => h j (List.mem_cons_of_mem i hj)
    rw [visit, Wire.visit, h i (List.mem_cons_self ..)]
    simp only [Option.bind_eq_bind, Option.bind_some]
    cases read' i with
    | error e => rfl
    | ok a =>
      dsimp only
      rw [htail]
      rfl

/-- **The body is read without a failure**, on every platform whose `usize` has 32 bits. -/
theorem decodeBodyVisit_eq (hword : 2 ^ 32 - 1 ≤ usizeMax) (hmax : bytes.length ≤ usizeMax)
    (cellCount : ℕ) :
    decodeBodyVisit usizeMax w bytes cellCount = some (Wire.decodeBodyVisit w bytes cellCount) := by
  have hsize : w.size ≤ 8 := by cases w <;> decide
  have hR := byteAt_lt bytes 0
  have hD := byteAt_lt bytes (1 + 16 * byteAt bytes 0)
  unfold decodeBodyVisit Wire.decodeBodyVisit
  by_cases h0 : cellCount = 0
  · rw [if_pos h0, if_pos h0]
  rw [if_neg h0, if_neg h0]
  by_cases hnil : bytes = []
  · rw [if_pos hnil, if_pos hnil]
  have hpos : 0 < bytes.length := List.length_pos_iff.2 hnil
  rw [if_neg hnil, if_neg hnil, index_eq hpos]
  simp only [Option.bind_eq_bind, Option.bind_some]
  generalize byteAt bytes 0 = R at hR hD
  by_cases hR0 : R = 0
  · rw [if_pos hR0, if_pos hR0]
  rw [if_neg hR0, if_neg hR0, mul_eq (by omega)]
  simp only [Option.bind_some]
  rw [add_eq (by omega)]
  simp only [Option.bind_some]
  rw [add_eq (by omega)]
  simp only [Option.bind_some]
  by_cases hshort : bytes.length < 1 + 16 * R + 1
  · rw [if_pos hshort, if_pos hshort]
  rw [if_neg hshort, if_neg hshort, index_eq (by omega)]
  simp only [Option.bind_some]
  generalize byteAt bytes (1 + 16 * R) = D at hD
  by_cases hD0 : D = 0
  · rw [if_pos hD0, if_pos hD0]
  rw [if_neg hD0, if_neg hD0, mul_eq (by omega)]
  simp only [Option.bind_some]
  rw [add_eq (by omega)]
  simp only [Option.bind_some]
  rw [add_eq (by unfold perCellIdentBytes; omega)]
  simp only [Option.bind_some]
  by_cases hlen : bytes.length = 1 + 16 * R + 1 + 16 * D + cellCount * (perCellIdentBytes + w.size)
  · rw [mul_eq (by omega), Option.bind_some, add_eq (by omega), if_neg (not_not.2 hlen)]
    dsimp only
    rw [if_neg (not_not.2 hlen), slabs_eq hmax hlen]
    simp only [Option.bind_some]
    exact visit_eq fun i hi => readCell_eq hmax hlen (List.mem_range.1 hi)
  · -- a total that does not fit is not the length of anything
    rw [if_pos hlen]
    split
    · rfl
    · rename_i total htotal
      rw [if_pos]
      rintro rfl
      obtain ⟨tail, htail, hsum⟩ := Option.bind_eq_some_iff.1 htotal
      simp only [mul, add, Option.ite_none_right_eq_some, Option.some.injEq] at htail hsum
      omega

theorem openFrame_eq (mac : Mac) (key : Option HmacKey) (h : authOverhead key ≤ bytes.length) :
    openFrame mac key bytes = some (Wire.openFrame mac key bytes) := by
  cases key with
  | none => rfl
  | some key =>
    have hle : authTagLen ≤ bytes.length := h
    unfold openFrame Wire.openFrame sub splitAt
    rw [if_pos hle]
    simp only [Option.bind_eq_bind, Option.bind_some]
    rw [if_pos (Nat.sub_le ..)]
    rfl

theorem decodeFrame_eq (hword : 2 ^ 32 - 1 ≤ usizeMax) (hmax : bytes.length ≤ usizeMax)
    (limits : FrameLimits) (accept : Header → Bool) :
    decodeFrame usizeMax w limits accept bytes = some (Wire.decodeFrame w limits accept bytes) := by
  unfold decodeFrame Wire.decodeFrame
  rw [readHeader_eq]
  simp only [Option.bind_eq_bind, Option.bind_some]
  cases Wire.readHeader bytes with
  | error e => rfl
  | ok header =>
    dsimp only
    by_cases hwidth : header.countWidth.toNat ≠ w.size
    · rw [if_pos hwidth, if_pos hwidth]
    rw [if_neg hwidth, if_neg hwidth]
    by_cases hcells : header.cellCount.toNat > limits.maxCells
    · rw [if_pos hcells, if_pos hcells]
    rw [if_neg hcells, if_neg hcells]
    by_cases hlen : headerLen + header.bodyLen.toNat = bytes.length
    · have hbody : (slice bytes headerLen header.bodyLen.toNat).length ≤ usizeMax := by
        rw [length_slice hlen.le]
        omega
      rw [add_eq (by omega), if_neg (not_not.2 hlen)]
      dsimp only
      rw [if_neg (not_not.2 hlen)]
      split_ifs
      · simp only [Option.bind_some]
        rw [range_eq (Nat.le_add_right ..) hlen.le, Nat.add_sub_cancel_left]
        simp only [Option.bind_some]
        rw [decodeBodyVisit_eq hword hbody]
        rfl
      · rfl
    · rw [if_pos hlen]
      by_cases hfits : headerLen + header.bodyLen.toNat ≤ usizeMax
      · rw [add_eq hfits]
        dsimp only
        rw [if_pos hlen]
        split_ifs <;> rfl
      · -- a sum that does not fit is larger than the frame
        have hlong : headerLen + header.bodyLen.toNat > bytes.length := by omega
        rw [add, if_neg hfits, if_pos hlong]

/-- **Decoding never panics**, and every check of it is in the plain model. -/
theorem decodeInner_eq (hword : 2 ^ 32 - 1 ≤ usizeMax) (hmax : bytes.length ≤ usizeMax) (mac : Mac)
    (key : Option HmacKey) (limits : FrameLimits) (accept : Header → Bool) :
    decodeInner usizeMax mac w key limits accept bytes =
      some (Wire.decodeInner mac w key limits accept bytes) := by
  have hover : authOverhead key ≤ 32 := by
    cases key <;> simp [authOverhead, authTagLen]
  unfold decodeInner Wire.decodeInner
  by_cases hpay : bytes.length > limits.maxPayloadBytes
  · rw [if_pos hpay, if_pos hpay]
  rw [if_neg hpay, if_neg hpay, add_eq (by unfold headerLen; omega)]
  simp only [Option.bind_eq_bind, Option.bind_some]
  by_cases hshort : bytes.length < headerLen + authOverhead key
  · rw [if_pos hshort, if_pos hshort]
  rw [if_neg hshort, if_neg hshort, openFrame_eq mac key (by omega)]
  simp only [Option.bind_some]
  cases hopen : Wire.openFrame mac key bytes with
  | error e => rfl
  | ok frame =>
    have hframe := congrArg List.length (eq_sealFrame_of_openFrame hopen)
    rw [length_sealFrame] at hframe
    exact decodeFrame_eq hword (by omega) limits accept

end

end Wire.Checked

end Gabion

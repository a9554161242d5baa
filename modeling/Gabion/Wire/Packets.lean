/-
  Packets (`wire.rs`): the iterator that turns a frame into packets, and the decoder.

  `Packets` holds the handles not yet consumed in place of the whole slice and a cursor.
-/
import Gabion.Wire.Body

namespace Gabion

open Bytes

namespace Wire

variable {w : CountWidth}

structure PacketWritten where
  cellsEmitted : ℕ
  cellsDropped : ℕ
  flags : BitVec 16
deriving DecidableEq, Repr

structure DecodedSummary where
  header : Header
  cellCount : BitVec 32
  flags : BitVec 16
deriving DecidableEq, Repr

/-! ## Encoding -/

structure Packets where
  header : Header
  handles : List CellHandle
  key : Option HmacKey
  limits : FrameLimits

def minPayloadBytes (countSize authOverhead : ℕ) : ℕ :=
  headerLen + dictLenBytes + 16 + 16 + perCellIdentBytes + countSize + authOverhead

/-- `Packets::auth` and `Packets::unauth`. -/
def Packets.new (w : CountWidth) (header : Header) (handles : List CellHandle)
    (key : Option HmacKey) (limits : FrameLimits) : Except EncodeError Packets :=
  if limits.maxPayloadBytes < minPayloadBytes w.size (authOverhead key) then .error .budgetTooSmall
  else .ok { header, handles, key, limits }

/-- The flags of a packet. -/
def packetFlags (flags : BitVec 16) (more authenticated : Bool) : BitVec 16 :=
  let flags := if more then flags ||| flagMore else flags &&& ~~~flagMore
  if authenticated then flags ||| flagAuthenticated else flags &&& ~~~flagAuthenticated

/-- The header of a packet: the template with the packet's own fields patched in. -/
def packetHeader (w : CountWidth) (template : Header) (encoded : EncodedBody) (flags : BitVec 16) :
    Header :=
  { template with
    flags
    countWidth := BitVec.ofNat 32 w.size
    cellCount := BitVec.ofNat 32 encoded.cellsEmitted
    bodyLen := BitVec.ofNat 32 encoded.bodyLen
    minOriginSequence := BitVec.ofNat 64 encoded.minOriginSequence
    maxOriginSequence := BitVec.ofNat 64 encoded.maxOriginSequence }

/-- The frame with its tag, if there is a key. -/
def sealFrame (mac : Mac) (key : Option HmacKey) (frame : List UInt8) : List UInt8 :=
  match key with
  | some key => frame ++ sign mac key frame
  | none => frame

/-- `next_into`: the iterator afterwards, the content of the buffer, and the result. -/
def Packets.nextInto (mac : Mac) (s : CellTable w) (p : Packets) :
    Packets × List UInt8 × Except EncodeError (Option PacketWritten) :=
  if p.handles = [] then (p, [], .ok none)
  else
    let bodyBudget := p.limits.maxPayloadBytes - (headerLen + authOverhead p.key)
    let (encoded, body) := encodePacketBody s p.handles bodyBudget
    if encoded.cellsEmitted = 0 ∧ encoded.handlesConsumed = 0 then
      (p, List.replicate headerLen 0 ++ body, .error .budgetTooSmall)
    else
      let rest := p.handles.drop encoded.handlesConsumed
      let flags := packetFlags p.header.flags (rest ≠ []) p.key.isSome
      let frame := patchHeader (packetHeader w p.header encoded flags) ++ body
      ({ p with handles := rest }, sealFrame mac p.key frame,
        .ok (some {
          cellsEmitted := encoded.cellsEmitted
          cellsDropped := encoded.cellsDropped
          flags }))

/-! ## Decoding -/

/-- The frame inside the bytes: with a key, what precedes a valid tag. -/
def openFrame (mac : Mac) (key : Option HmacKey) (bytes : List UInt8) :
    Except DecodeError (List UInt8) :=
  match key with
  | some key =>
    let split := bytes.length - authTagLen
    if verify mac key (bytes.take split) (bytes.drop split) then .ok (bytes.take split)
    else .error .authenticationFailed
  | none => .ok bytes

/-- `decode_inner` after the tag check. -/
def decodeFrame (w : CountWidth) (limits : FrameLimits) (acceptHeader : Header → Bool)
    (frame : List UInt8) : List (WireCell w) × Except DecodeError DecodedSummary :=
  match readHeader frame with
  | .error e => ([], .error e)
  | .ok header =>
    if header.countWidth.toNat ≠ w.size then ([], .error .badCountWidth)
    else if header.cellCount.toNat > limits.maxCells then ([], .error .capacityExceeded)
    else
      let bodyLen := header.bodyLen.toNat
      if headerLen + bodyLen ≠ frame.length then
        if headerLen + bodyLen > frame.length then ([], .error .bodyLenMismatch)
        else ([], .error .trailing)
      else
        let summary := { header, cellCount := header.cellCount, flags := header.flags }
        if acceptHeader header then
          let (cells, res) := decodeBodyVisit w (slice frame headerLen bodyLen) header.cellCount.toNat
          (cells, res.map fun _ => summary)
        else ([], .ok summary)

/-- `decode_inner`: the cells passed to `on_cell`, and the result. -/
def decodeInner (mac : Mac) (w : CountWidth) (key : Option HmacKey) (limits : FrameLimits)
    (acceptHeader : Header → Bool) (bytes : List UInt8) :
    List (WireCell w) × Except DecodeError DecodedSummary :=
  if bytes.length > limits.maxPayloadBytes then ([], .error .payloadTooLarge)
  else if bytes.length < headerLen + authOverhead key then ([], .error .tooShort)
  else
    match openFrame mac key bytes with
    | .error e => ([], .error e)
    | .ok frame => decodeFrame w limits acceptHeader frame

/-! ## Sealing -/

theorem openFrame_sealFrame (mac : Mac) (key : Option HmacKey) (frame : List UInt8) :
    openFrame mac key (sealFrame mac key frame) = .ok frame := by
  cases key with
  | none => rfl
  | some key =>
    have hsplit : (frame ++ sign mac key frame).length - authTagLen = frame.length := by
      rw [List.length_append, length_sign]; omega
    simp only [openFrame, sealFrame, hsplit, List.take_left, List.drop_left, verify, decide_true,
      if_true]

theorem length_sealFrame (mac : Mac) (key : Option HmacKey) (frame : List UInt8) :
    (sealFrame mac key frame).length = frame.length + authOverhead key := by
  cases key with
  | none => rfl
  | some key =>
    rw [sealFrame, List.length_append, length_sign]
    rfl

/-- What the tag check lets through was sealed with the key. -/
theorem eq_sealFrame_of_openFrame {mac : Mac} {key : Option HmacKey} {bytes frame : List UInt8}
    (h : openFrame mac key bytes = .ok frame) : bytes = sealFrame mac key frame := by
  cases key with
  | none => exact Except.ok.inj h
  | some key =>
    simp only [openFrame, verify, decide_eq_true_eq] at h
    split_ifs at h with htag
    rw [← Except.ok.inj h, sealFrame, ← htag, List.take_append_drop]

/-- **Decoding a sealed frame** is decoding its body. -/
theorem decodeInner_sealFrame {mac : Mac} {key : Option HmacKey} {limits : FrameLimits}
    {accept : Header → Bool} {hdr : Header} {body : List UInt8}
    (hpay : (sealFrame mac key (patchHeader hdr ++ body)).length ≤ limits.maxPayloadBytes)
    (hwidth : hdr.countWidth.toNat = w.size) (hcells : hdr.cellCount.toNat ≤ limits.maxCells)
    (hbody : hdr.bodyLen.toNat = body.length) (haccept : accept hdr = true) :
    decodeInner mac w key limits accept (sealFrame mac key (patchHeader hdr ++ body)) =
      ((decodeBodyVisit w body hdr.cellCount.toNat).1,
        (decodeBodyVisit w body hdr.cellCount.toNat).2.map fun _ =>
          { header := hdr, cellCount := hdr.cellCount, flags := hdr.flags }) := by
  set frame := patchHeader hdr ++ body with hframe
  have hlen : frame.length = headerLen + body.length := by
    rw [hframe, List.length_append, length_patchHeader]
  have hslice : slice frame headerLen body.length = body := by
    rw [hframe, slice_append_right (by rw [length_patchHeader]), length_patchHeader, Nat.sub_self]
    exact slice_self rfl
  have hread : readHeader frame = .ok hdr := readHeader_patchHeader _ _
  unfold decodeInner
  rw [if_neg (not_lt.2 hpay), if_neg (by rw [length_sealFrame, hlen]; omega), openFrame_sealFrame]
  unfold decodeFrame
  dsimp only
  rw [hread]
  dsimp only
  rw [if_neg (not_not.2 hwidth), if_neg (not_lt.2 hcells), hbody, if_neg (not_not.2 hlen.symm),
    if_pos haccept, hslice]

/-- Bytes that pass `read_header` and every check after it. -/
theorem eq_of_decodeFrame {limits : FrameLimits} {accept : Header → Bool} {frame : List UInt8}
    {cells : List (WireCell w)} {summary : DecodedSummary}
    (h : decodeFrame w limits accept frame = (cells, .ok summary))
    (haccept : ∀ header, accept header = true) :
    ∃ hdr body, frame = patchHeader hdr ++ body ∧ hdr.countWidth.toNat = w.size ∧
      hdr.cellCount.toNat ≤ limits.maxCells ∧ hdr.bodyLen.toNat = body.length ∧
      (decodeBodyVisit w body hdr.cellCount.toNat).2 = .ok () := by
  unfold decodeFrame at h
  split at h
  · cases h
  · rename_i hdr hread
    have hframe := eq_patchHeader_of_readHeader hread
    dsimp only at h
    rw [if_pos (haccept hdr)] at h
    split_ifs at h with hwidth hcells hlen hlong
    · cases h
    · cases h
    · cases h
    · cases h
    · rw [not_not] at hwidth hlen
      have hbody : (frame.drop headerLen).length = hdr.bodyLen.toNat := by
        rw [List.length_drop, ← hlen, Nat.add_sub_cancel_left]
      have hslice : slice frame headerLen hdr.bodyLen.toNat = frame.drop headerLen := by
        rw [slice, ← hbody, List.take_length]
      refine ⟨hdr, frame.drop headerLen, hframe, hwidth, not_lt.1 hcells, hbody.symm, ?_⟩
      rw [hslice] at h
      have hres := congrArg Prod.snd h
      generalize (decodeBodyVisit w (frame.drop headerLen) hdr.cellCount.toNat).2 = res at hres ⊢
      cases res with
      | error e => cases hres
      | ok u => rfl

/-- **What decodes is a sealed frame** whose header passes every check and whose body
    decodes. -/
theorem eq_of_decodeInner {mac : Mac} {key : Option HmacKey} {limits : FrameLimits}
    {accept : Header → Bool} {bytes : List UInt8} {cells : List (WireCell w)}
    {summary : DecodedSummary}
    (h : decodeInner mac w key limits accept bytes = (cells, .ok summary))
    (haccept : ∀ header, accept header = true) :
    bytes.length ≤ limits.maxPayloadBytes ∧
      ∃ hdr body, bytes = sealFrame mac key (patchHeader hdr ++ body) ∧
        hdr.countWidth.toNat = w.size ∧ hdr.cellCount.toNat ≤ limits.maxCells ∧
        hdr.bodyLen.toNat = body.length ∧
        (decodeBodyVisit w body hdr.cellCount.toNat).2 = .ok () := by
  unfold decodeInner at h
  split_ifs at h with hpay hshort
  · cases h
  · cases h
  · refine ⟨not_lt.1 hpay, ?_⟩
    cases hopen : openFrame mac key bytes with
    | error e =>
      rw [hopen] at h
      cases h
    | ok frame =>
      rw [hopen] at h
      obtain ⟨hdr, body, hframe, hchecks⟩ := eq_of_decodeFrame h haccept
      exact ⟨hdr, body, hframe ▸ eq_sealFrame_of_openFrame hopen, hchecks⟩

end Wire

end Gabion

/-
  Packet headers and authentication tags (`wire.rs`, `wire/header.rs`, `wire/auth.rs`).

  The header is a record of fixed-width fields; `patch_header` returns the bytes it writes.
  HMAC-SHA256 is a parameter: any function from a key and a payload to 32 bytes.
-/
import Gabion.Lib.Bytes
import Gabion.Types

namespace Gabion

open Bytes

namespace Wire

structure FrameLimits where
  maxPayloadBytes : ℕ
  maxCells : ℕ
deriving DecidableEq, Repr

inductive EncodeError
  | budgetTooSmall
deriving DecidableEq, Repr

inductive DecodeError
  | tooShort
  | badMagic
  | badVersion
  | badCountWidth
  | payloadTooLarge
  | capacityExceeded
  | bodyLenMismatch
  | badSlot
  | authenticationFailed
  | trailing
deriving DecidableEq, Repr

/-! ## Header -/

def headerLen : ℕ := 72
def magic : BitVec 32 := 0x47424732
def version : BitVec 16 := 1
def flagMore : BitVec 16 := 0x01
def flagAuthenticated : BitVec 16 := 0x02

@[ext]
structure Header where
  clusterIdHash : BitVec 128
  senderNodeId : NodeId
  senderIncarnation : Incarnation
  countWidth : BitVec 32
  cellCount : BitVec 32
  bodyLen : BitVec 32
  minOriginSequence : BitVec 64
  maxOriginSequence : BitVec 64
  flags : BitVec 16
deriving DecidableEq, Repr

/-- The fields `patch_header` writes, in order. -/
def headerFields (hdr : Header) : List (List UInt8) :=
  [ofBitVec magic, ofBitVec version, ofBitVec hdr.flags, ofBitVec hdr.clusterIdHash,
    ofBitVec hdr.senderNodeId, ofBitVec hdr.senderIncarnation, ofBitVec hdr.countWidth,
    ofBitVec hdr.cellCount, ofBitVec hdr.bodyLen, ofBitVec hdr.minOriginSequence,
    ofBitVec hdr.maxOriginSequence]

def patchHeader (hdr : Header) : List UInt8 := (headerFields hdr).flatten

def readHeader (bytes : List UInt8) : Except DecodeError Header :=
  if bytes.length < headerLen then .error .tooShort
  else if Bytes.read 32 bytes 0 ≠ magic then .error .badMagic
  else if Bytes.read 16 bytes 4 ≠ version then .error .badVersion
  else .ok {
    flags := Bytes.read 16 bytes 6
    clusterIdHash := Bytes.read 128 bytes 8
    senderNodeId := Bytes.read 128 bytes 24
    senderIncarnation := Bytes.read 32 bytes 40
    countWidth := Bytes.read 32 bytes 44
    cellCount := Bytes.read 32 bytes 48
    bodyLen := Bytes.read 32 bytes 52
    minOriginSequence := Bytes.read 64 bytes 56
    maxOriginSequence := Bytes.read 64 bytes 64 }

@[simp] theorem length_patchHeader (hdr : Header) : (patchHeader hdr).length = headerLen := by
  simp [patchHeader, headerFields, headerLen]

/-- The `i`-th field reads back from where the fields before it end. -/
theorem read_patchHeader {hdr : Header} {n off : ℕ} {v : BitVec n} (i : ℕ) (rest : List UInt8)
    (hi : (headerFields hdr)[i]? = some (ofBitVec v))
    (hoff : (((headerFields hdr).take i).map List.length).sum = off) (hn : 8 * (n / 8) = n)
    (hle : off + n / 8 ≤ headerLen) : Bytes.read n (patchHeader hdr ++ rest) off = v := by
  have hs := slice_flatten hi hoff
  rw [length_ofBitVec] at hs
  refine read_of_slice hn ((slice_append_left ?_ _).trans hs)
  rwa [length_patchHeader]

/-- **A header reads back**, whatever follows it. -/
theorem readHeader_patchHeader (hdr : Header) (rest : List UInt8) :
    readHeader (patchHeader hdr ++ rest) = .ok hdr := by
  have hlen : ¬ (patchHeader hdr ++ rest).length < headerLen := by
    rw [List.length_append, length_patchHeader]; omega
  have hmagic : Bytes.read 32 (patchHeader hdr ++ rest) 0 = magic :=
    read_patchHeader 0 rest rfl (by simp [headerFields]) rfl (by decide)
  have hversion : Bytes.read 16 (patchHeader hdr ++ rest) 4 = version :=
    read_patchHeader 1 rest rfl (by simp [headerFields]) rfl (by decide)
  rw [readHeader, if_neg hlen, if_neg (not_not.2 hmagic), if_neg (not_not.2 hversion)]
  refine congrArg Except.ok (Header.ext ?_ ?_ ?_ ?_ ?_ ?_ ?_ ?_ ?_)
  · exact read_patchHeader 3 rest rfl (by simp [headerFields]) rfl (by decide)
  · exact read_patchHeader 4 rest rfl (by simp [headerFields]) rfl (by decide)
  · exact read_patchHeader 5 rest rfl (by simp [headerFields]) rfl (by decide)
  · exact read_patchHeader 6 rest rfl (by simp [headerFields]) rfl (by decide)
  · exact read_patchHeader 7 rest rfl (by simp [headerFields]) rfl (by decide)
  · exact read_patchHeader 8 rest rfl (by simp [headerFields]) rfl (by decide)
  · exact read_patchHeader 9 rest rfl (by simp [headerFields]) rfl (by decide)
  · exact read_patchHeader 10 rest rfl (by simp [headerFields]) rfl (by decide)
  · exact read_patchHeader 2 rest rfl (by simp [headerFields]) rfl (by decide)

/-- What reads as a header is that header. -/
theorem eq_patchHeader_of_readHeader {bytes : List UInt8} {hdr : Header}
    (h : readHeader bytes = .ok hdr) : bytes = patchHeader hdr ++ bytes.drop headerLen := by
  unfold readHeader at h
  split_ifs at h with hlen hmagic hversion
  rw [not_lt, headerLen] at hlen
  rw [not_not] at hmagic hversion
  have hfields : patchHeader hdr = slice bytes 0 headerLen := by
    rw [← Except.ok.inj h]
    simp (disch := first | rfl | omega) only [patchHeader, headerFields, ← hmagic, ← hversion,
      ofBitVec_read, List.flatten_cons, List.flatten_nil, List.append_nil]
    simp (disch := rfl) only [slice_concat]
    rfl
  rw [hfields, slice, List.drop_zero, List.take_append_drop]

/-! ## Authentication -/

def authTagLen : ℕ := 32

abbrev HmacKey := Vector UInt8 32

/-- HMAC-SHA256. -/
abbrev Mac := HmacKey → List UInt8 → Vector UInt8 32

def authOverhead (key : Option HmacKey) : ℕ := if key.isSome then authTagLen else 0

def sign (mac : Mac) (key : HmacKey) (payload : List UInt8) : List UInt8 := (mac key payload).toList

def verify (mac : Mac) (key : HmacKey) (payload tag : List UInt8) : Bool :=
  decide (tag = sign mac key payload)

@[simp] theorem length_sign (mac : Mac) (key : HmacKey) (payload : List UInt8) :
    (sign mac key payload).length = authTagLen := Vector.length_toList

end Wire

end Gabion

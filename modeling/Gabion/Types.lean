/-
  The identities and counters of the cell store (`crdt.rs`, `crdt/hash.rs`).

  Hashes, node ids, incarnations and bucket epochs are the machine words of the
  source; slots, counts, clocks and sequence numbers are natural numbers, with the
  saturation and wrap-around of the source written out where they are computed.
-/
import Mathlib.Tactic

namespace Gabion

theorem eq_ok_of_toOption {ε α : Type} {a : α} : ∀ {e : Except ε α}, e.toOption = some a → e = .ok a
  | .ok _, h => congrArg Except.ok (Option.some.inj h)

/-! ## Identities -/

/-- Canonical hash of a rule (`u128`). -/
abbrev Fingerprint := BitVec 128

abbrev KeyHash := BitVec 128

abbrev NodeId := BitVec 128

abbrev Incarnation := BitVec 32

abbrev BucketEpoch := BitVec 32

structure NodeIdentity where
  nodeId : NodeId
  incarnation : Incarnation
deriving DecidableEq, Repr

/-- The key of a cell inside one store: rule and origin are dictionary slots. -/
structure CompactCellKey where
  rule : ℕ
  keyHash : KeyHash
  bucket : BucketEpoch
  origin : ℕ
  incarnation : Incarnation
deriving DecidableEq, Repr

/-- The key of an aggregate row: a cell without its origin. -/
structure CellIdentity where
  ruleFingerprint : Fingerprint
  keyHash : KeyHash
  bucket : BucketEpoch
deriving DecidableEq, Repr

/-- A slot together with its generation; generations are odd while the slot is in use. -/
structure CellHandle where
  index : ℕ
  generation : ℕ
deriving DecidableEq, Repr

/-! ## Counts -/

def u64Max : ℕ := 2 ^ 64 - 1

/-- The counter type of a store: the three implementations of `Count`. -/
inductive CountWidth
  | u16
  | u32
  | u64
deriving DecidableEq, Repr

namespace CountWidth

def max : CountWidth → ℕ
  | u16 => 2 ^ 16 - 1
  | u32 => 2 ^ 32 - 1
  | u64 => 2 ^ 64 - 1

/-- `size_of::<C>()`. -/
def size : CountWidth → ℕ
  | u16 => 2
  | u32 => 4
  | u64 => 8

def saturatingFromU64 (w : CountWidth) (value : ℕ) : ℕ := min value w.max

def saturatingAddHits (w : CountWidth) (count hits : ℕ) : ℕ := min (min (count + hits) u64Max) w.max

def saturatingDelta (new old : ℕ) : ℕ := new - old

variable (w : CountWidth)

theorem max_le_u64Max : w.max ≤ u64Max := by cases w <;> decide

theorem one_le_max : 1 ≤ w.max := by cases w <;> decide

theorem saturatingAddHits_eq (count hits : ℕ) :
    w.saturatingAddHits count hits = min (count + hits) w.max := by
  have := w.max_le_u64Max
  rw [saturatingAddHits, min_assoc, min_eq_right this]

theorem saturatingAddHits_le (count hits : ℕ) : w.saturatingAddHits count hits ≤ w.max :=
  min_le_right _ _

theorem le_saturatingAddHits {count : ℕ} (hits : ℕ) (h : count ≤ w.max) :
    count ≤ w.saturatingAddHits count hits := by
  rw [saturatingAddHits_eq]; omega

end CountWidth

/-! ## Hash functions

Robin Hood lookups compare the stored key after the hash, so no proof below looks into
these functions. -/

def mix64 (h : BitVec 64) : BitVec 64 :=
  let h := h ^^^ (h >>> 33)
  let h := h * 0xff51afd7ed558ccd#64
  let h := h ^^^ (h >>> 33)
  let h := h * 0xc4ceb9fe1a85ec53#64
  h ^^^ (h >>> 33)

def hashCompactCellKey (key : CompactCellKey) : BitVec 64 :=
  let lo := key.keyHash.setWidth 64
  let hi := (key.keyHash >>> 64).setWidth 64
  let packA := BitVec.ofNat 64 key.rule ||| (BitVec.ofNat 64 key.origin <<< 16) |||
    (key.bucket.setWidth 64 <<< 32)
  let packB := key.incarnation.setWidth 64
  mix64 (lo ^^^ packA) ^^^ mix64 (hi + packB + 0x9E3779B97F4A7C15#64)

def hashFingerprint (fingerprint : Fingerprint) : BitVec 64 :=
  let lo := fingerprint.setWidth 64
  let hi := (fingerprint >>> 64).setWidth 64
  mix64 lo ^^^ mix64 (hi + 0x517CC1B727220A95#64)

def hashNodeIdentity (id : NodeIdentity) : BitVec 64 :=
  let lo := id.nodeId.setWidth 64
  let hi := (id.nodeId >>> 64).setWidth 64
  mix64 (lo ^^^ id.incarnation.setWidth 64) ^^^ mix64 (hi + 0xBF58476D1CE4E5B9#64)

end Gabion

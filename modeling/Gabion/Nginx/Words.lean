/-
  How cells and events lie in shared memory (`nginx/src/shm/aggregate.rs`,
  `nginx/src/shm/queue.rs`): as 64-bit atomics that are stored and loaded one after the other.
  A fingerprint and a key hash take two words each.
-/
import Gabion.Lib.Threads
import Gabion.Nginx.Queue
import Gabion.Nginx.Table

namespace Gabion

namespace Nginx

open Function Threads

/-! ## Two words for 128 bits -/

/-- `x as u64`. -/
def low (x : BitVec 128) : ℕ := x.toNat % 2 ^ 64

/-- `(x >> 64) as u64`. -/
def high (x : BitVec 128) : ℕ := x.toNat >>> 64

/-- `(high as u128) << 64 | low as u128`. -/
def join (high low : ℕ) : BitVec 128 := BitVec.ofNat 128 (high <<< 64 ||| low)

theorem low_lt (x : BitVec 128) : low x < 2 ^ 64 := Nat.mod_lt _ (by decide)

theorem high_lt (x : BitVec 128) : high x < 2 ^ 64 := by
  have hx := x.isLt
  rw [high, Nat.shiftRight_eq_div_pow]
  omega

theorem toNat_join {h l : ℕ} (hh : h < 2 ^ 64) (hl : l < 2 ^ 64) :
    (join h l).toNat = h * 2 ^ 64 + l := by
  rw [join, BitVec.toNat_ofNat, ← Nat.shiftLeft_add_eq_or_of_lt hl, Nat.shiftLeft_eq]
  omega

@[simp] theorem low_join (x y : BitVec 128) : low (join (high x) (low y)) = low y := by
  have hl := low_lt y
  rw [low, toNat_join (high_lt x) hl]
  omega

@[simp] theorem high_join (x y : BitVec 128) : high (join (high x) (low y)) = high x := by
  have hl := low_lt y
  rw [high, toNat_join (high_lt x) hl, Nat.shiftRight_eq_div_pow]
  omega

theorem eq_of_words {x y : BitVec 128} (hlow : low x = low y) (hhigh : high x = high y) : x = y := by
  rw [high, high, Nat.shiftRight_eq_div_pow, Nat.shiftRight_eq_div_pow] at hhigh
  rw [low, low] at hlow
  refine BitVec.eq_of_toNat_eq ?_
  omega

/-! ## Cells -/

inductive CellWord
  | ruleFingerprintLo
  | ruleFingerprintHi
  | keyHashLo
  | keyHashHi
  | bucket
  | count
  | lastUpdateMillis
deriving DecidableEq

namespace AggregateCell

def word (cell : AggregateCell) : CellWord → ℕ
  | .ruleFingerprintLo => low cell.ruleFingerprint
  | .ruleFingerprintHi => high cell.ruleFingerprint
  | .keyHashLo => low cell.keyHash
  | .keyHashHi => high cell.keyHash
  | .bucket => cell.bucket.toNat
  | .count => cell.count
  | .lastUpdateMillis => cell.lastUpdateMillis

/-- Store one word of `src` into `dst`. -/
def copy (f : CellWord) (src dst : AggregateCell) : AggregateCell :=
  match f with
  | .ruleFingerprintLo =>
    { dst with ruleFingerprint := join (high dst.ruleFingerprint) (low src.ruleFingerprint) }
  | .ruleFingerprintHi =>
    { dst with ruleFingerprint := join (high src.ruleFingerprint) (low dst.ruleFingerprint) }
  | .keyHashLo => { dst with keyHash := join (high dst.keyHash) (low src.keyHash) }
  | .keyHashHi => { dst with keyHash := join (high src.keyHash) (low dst.keyHash) }
  | .bucket => { dst with bucket := src.bucket }
  | .count => { dst with count := src.count }
  | .lastUpdateMillis => { dst with lastUpdateMillis := src.lastUpdateMillis }

instance : Words AggregateCell CellWord ℕ where
  word := word
  copy := copy
  word_copy := by
    intro f src dst
    funext f'
    cases f <;> cases f' <;> simp [word, copy, update]
  word_injective := by
    intro a b h
    have hw := congrFun h
    cases a
    cases b
    simp only [AggregateCell.mk.injEq]
    exact ⟨eq_of_words (hw .ruleFingerprintLo) (hw .ruleFingerprintHi),
      eq_of_words (hw .keyHashLo) (hw .keyHashHi), BitVec.eq_of_toNat_eq (hw .bucket), hw .count,
      hw .lastUpdateMillis⟩

/-- The order of the stores in `AggregateSlot::write`. -/
def writeOrder : List CellWord :=
  [.ruleFingerprintLo, .ruleFingerprintHi, .keyHashLo, .keyHashHi, .bucket, .count,
    .lastUpdateMillis]

/-- The order of the loads in `AggregateSlot::read`. -/
def readOrder : List CellWord :=
  [.ruleFingerprintHi, .ruleFingerprintLo, .keyHashHi, .keyHashLo, .bucket, .count,
    .lastUpdateMillis]

theorem mem_writeOrder (f : CellWord) : f ∈ writeOrder := by
  cases f <;> decide

theorem mem_readOrder (f : CellWord) : f ∈ readOrder := by
  cases f <;> decide

end AggregateCell

/-! ## Events -/

inductive EventWord
  | ruleFingerprintLo
  | ruleFingerprintHi
  | keyHashLo
  | keyHashHi
  | bucket
  | hits
  | ruleLimit
  | nowMillis
deriving DecidableEq

namespace QueueEvent

def word (event : QueueEvent) : EventWord → ℕ
  | .ruleFingerprintLo => low event.ruleFingerprint
  | .ruleFingerprintHi => high event.ruleFingerprint
  | .keyHashLo => low event.keyHash
  | .keyHashHi => high event.keyHash
  | .bucket => event.bucket.toNat
  | .hits => event.hits
  | .ruleLimit => event.ruleLimit
  | .nowMillis => event.nowMillis

/-- Store one word of `src` into `dst`. -/
def copy (f : EventWord) (src dst : QueueEvent) : QueueEvent :=
  match f with
  | .ruleFingerprintLo =>
    { dst with ruleFingerprint := join (high dst.ruleFingerprint) (low src.ruleFingerprint) }
  | .ruleFingerprintHi =>
    { dst with ruleFingerprint := join (high src.ruleFingerprint) (low dst.ruleFingerprint) }
  | .keyHashLo => { dst with keyHash := join (high dst.keyHash) (low src.keyHash) }
  | .keyHashHi => { dst with keyHash := join (high src.keyHash) (low dst.keyHash) }
  | .bucket => { dst with bucket := src.bucket }
  | .hits => { dst with hits := src.hits }
  | .ruleLimit => { dst with ruleLimit := src.ruleLimit }
  | .nowMillis => { dst with nowMillis := src.nowMillis }

instance : Words QueueEvent EventWord ℕ where
  word := word
  copy := copy
  word_copy := by
    intro f src dst
    funext f'
    cases f <;> cases f' <;> simp [word, copy, update]
  word_injective := by
    intro a b h
    have hw := congrFun h
    cases a
    cases b
    simp only [QueueEvent.mk.injEq]
    exact ⟨eq_of_words (hw .ruleFingerprintLo) (hw .ruleFingerprintHi),
      eq_of_words (hw .keyHashLo) (hw .keyHashHi), BitVec.eq_of_toNat_eq (hw .bucket), hw .hits,
      hw .ruleLimit, hw .nowMillis⟩

end QueueEvent

end Nginx

end Gabion

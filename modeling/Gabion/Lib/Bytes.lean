/-
  Little-endian numbers and columns of fixed-width fields in byte strings.

  `toLE` and `ofLE` are the usual conversions; `slice` is a subrange.  The slice lemmas read
  one part of a concatenation back, `slice_flatMap` one field of a column.
-/
import Mathlib.Tactic

namespace Bytes

/-- The low `k` bytes of `n`, least significant first. -/
def toLE : ℕ → ℕ → List UInt8
  | 0, _ => []
  | k + 1, n => UInt8.ofNat n :: toLE k (n / 256)

def ofLE : List UInt8 → ℕ
  | [] => 0
  | b :: bs => b.toNat + 256 * ofLE bs

@[simp] theorem length_toLE : ∀ k n, (toLE k n).length = k
  | 0, _ => rfl
  | k + 1, n => by rw [toLE, List.length_cons, length_toLE k]

theorem ofLE_toLE : ∀ k n, ofLE (toLE k n) = n % 256 ^ k
  | 0, n => by simp [toLE, ofLE, Nat.mod_one]
  | k + 1, n => by
    have h8 : (UInt8.ofNat n).toNat = n % 256 := UInt8.toNat_ofNat'
    rw [toLE, ofLE, ofLE_toLE k, h8, pow_succ' 256 k, Nat.mod_mul]

theorem toLE_ofLE : ∀ bs : List UInt8, toLE bs.length (ofLE bs) = bs
  | [] => rfl
  | b :: bs => by
    have hb : UInt8.ofNat (b.toNat + 256 * ofLE bs) = b := by
      rw [← UInt8.toNat_inj, UInt8.toNat_ofNat']
      have := b.toNat_lt
      omega
    have hdiv : (b.toNat + 256 * ofLE bs) / 256 = ofLE bs := by
      have := b.toNat_lt
      omega
    rw [List.length_cons, toLE, ofLE, hb, hdiv, toLE_ofLE bs]

theorem ofLE_lt : ∀ bs : List UInt8, ofLE bs < 256 ^ bs.length
  | [] => by simp [ofLE]
  | b :: bs => by
    have hb := b.toNat_lt
    have ih := ofLE_lt bs
    rw [ofLE, List.length_cons, pow_succ']
    omega

theorem ofLE_zeros (k : ℕ) : ofLE (List.replicate k 0) = 0 := by
  induction k with
  | zero => rfl
  | succ k ih =>
    rw [List.replicate_succ, ofLE, ih]
    rfl

/-- Zeros above the last byte. -/
theorem ofLE_append_zeros (bs : List UInt8) (k : ℕ) : ofLE (bs ++ List.replicate k 0) = ofLE bs := by
  induction bs with
  | nil => rw [List.nil_append, ofLE_zeros, ofLE]
  | cons b bs ih => rw [List.cons_append, ofLE, ih, ofLE]

/-! ## Slices -/

section
variable {α β : Type*}

/-- `xs[off .. off + len]`. -/
def slice (xs : List α) (off len : ℕ) : List α := (xs.drop off).take len

theorem slice_append_right {xs : List α} {off : ℕ} (h : xs.length ≤ off) (ys : List α) (len : ℕ) :
    slice (xs ++ ys) off len = slice ys (off - xs.length) len := by
  rw [slice, List.drop_append, List.drop_eq_nil_of_le h, List.nil_append, slice]

theorem slice_append_left {xs : List α} {off len : ℕ} (h : off + len ≤ xs.length) (ys : List α) :
    slice (xs ++ ys) off len = slice xs off len := by
  rw [slice, List.drop_append_of_le_length (by omega),
    List.take_append_of_le_length (by rw [List.length_drop]; omega), slice]

theorem slice_prefix {xs : List α} {len : ℕ} (h : xs.length = len) (ys : List α) :
    slice (xs ++ ys) 0 len = xs := by
  rw [slice, List.drop_zero, List.take_append_of_le_length (by omega), ← h, List.take_length]

theorem slice_self {xs : List α} {len : ℕ} (h : xs.length = len) : slice xs 0 len = xs := by
  rw [slice, List.drop_zero, ← h, List.take_length]

theorem length_slice {xs : List α} {off len : ℕ} (h : off + len ≤ xs.length) :
    (slice xs off len).length = len := by
  rw [slice, List.length_take, List.length_drop]
  omega

/-- Two ranges next to each other. -/
theorem slice_concat {off off' a : ℕ} (h : off + a = off') (xs : List α) (b : ℕ) :
    slice xs off a ++ slice xs off' b = slice xs off (a + b) := by
  rw [slice, slice, slice, List.take_add, List.drop_drop, h]

/-- A range of a range. -/
theorem slice_slice {off len a b : ℕ} (h : a + b ≤ len) (xs : List α) :
    slice (slice xs off len) a b = slice xs (off + a) b := by
  rw [slice, slice, slice, List.drop_take, List.take_take, List.drop_drop,
    Nat.min_eq_left (by omega)]

/-- What is left of a concatenation that was cut off inside its first part. -/
theorem take_append_eq {xs ys : List α} {n m : ℕ} (h : ((xs ++ ys).take n).length = m)
    (hm : m ≤ xs.length) : (xs ++ ys).take n = xs.take m := by
  rw [← List.take_append_of_le_length hm, List.take_eq_take_iff]
  rw [List.length_take] at h
  omega

/-- A range that lies in one part of a concatenation. -/
theorem slice_flatten_at : ∀ {fs : List (List α)} {i off inner len : ℕ} {x : List α},
    fs[i]? = some x → ((fs.take i).map List.length).sum = off → inner + len ≤ x.length →
      slice fs.flatten (off + inner) len = slice x inner len
  | [], _, _, _, _, _, h, _, _ => by simp at h
  | f :: fs, 0, off, inner, len, x, h, ho, hl => by
    cases h
    cases ho
    rw [List.flatten_cons, List.take_zero, List.map_nil, List.sum_nil, Nat.zero_add,
      slice_append_left hl]
  | f :: fs, i + 1, off, inner, len, x, h, ho, hl => by
    rw [List.take_succ_cons, List.map_cons, List.sum_cons] at ho
    rw [List.flatten_cons, slice_append_right (by omega),
      show off + inner - f.length = (off - f.length) + inner by omega]
    exact slice_flatten_at h (by omega) hl

/-- One part of a concatenation. -/
theorem slice_flatten {fs : List (List α)} {i off : ℕ} {x : List α} (h : fs[i]? = some x)
    (ho : ((fs.take i).map List.length).sum = off) : slice fs.flatten off x.length = x := by
  have hx : slice fs.flatten (off + 0) x.length = slice x 0 x.length :=
    slice_flatten_at h ho (Nat.zero_add _).le
  rwa [Nat.add_zero, slice_self rfl] at hx

/-! ## Columns -/

variable {f : α → List β} {k : ℕ}

theorem length_flatMap (hf : ∀ a, (f a).length = k) (xs : List α) :
    (xs.flatMap f).length = k * xs.length := by
  induction xs with
  | nil => simp
  | cons a xs ih => rw [List.flatMap_cons, List.length_append, ih, hf, List.length_cons]; ring

theorem slice_flatMap (hf : ∀ a, (f a).length = k) :
    ∀ {xs : List α} {i : ℕ} {a : α}, xs[i]? = some a → slice (xs.flatMap f) (i * k) k = f a
  | [], _, _, h => by simp at h
  | b :: xs, 0, a, h => by
    cases h
    rw [List.flatMap_cons, Nat.zero_mul, slice_prefix (hf _)]
  | b :: xs, i + 1, a, h => by
    have hle : (f b).length ≤ (i + 1) * k := by rw [hf, Nat.add_mul]; omega
    have hsub : (i + 1) * k - (f b).length = i * k := by rw [hf, Nat.add_mul]; omega
    rw [List.flatMap_cons, slice_append_right hle, hsub]
    exact slice_flatMap hf h

/-- A range is the column of its fields. -/
theorem flatMap_slice (xs : List β) (off k n : ℕ) :
    (List.range n).flatMap (fun i => slice xs (off + i * k) k) = slice xs off (k * n) := by
  induction n with
  | zero => rfl
  | succ n ih =>
    rw [List.range_succ, List.flatMap_append, ih, List.flatMap_singleton, Nat.mul_comm n k,
      slice_concat rfl, Nat.mul_succ]

/-- A column whose fields are those of a range. -/
theorem flatMap_ofFn {n off : ℕ} {g : Fin n → α} {xs : List β}
    (h : ∀ i : Fin n, f (g i) = slice xs (off + i * k) k) :
    (List.ofFn g).flatMap f = slice xs off (k * n) := by
  rw [List.ofFn_eq_map, List.flatMap_map, ← flatMap_slice, ← List.map_coe_finRange_eq_range,
    List.flatMap_map]
  exact congrArg (List.flatMap · (List.finRange n)) (funext h)

/-- One field of a column that is part of a concatenation. -/
theorem slice_column {fs : List (List β)} {i off j : ℕ} {xs : List α} {a : α}
    (hi : fs[i]? = some (xs.flatMap f)) (ho : ((fs.take i).map List.length).sum = off)
    (hf : ∀ a, (f a).length = k) (hj : xs[j]? = some a) :
    slice fs.flatten (off + j * k) k = f a := by
  have hlt : j < xs.length := (List.getElem?_eq_some_iff.1 hj).1
  have hle : j * k + k ≤ (xs.flatMap f).length := by
    rw [length_flatMap hf, ← Nat.succ_mul, Nat.mul_comm k]
    exact Nat.mul_le_mul_right k hlt
  rw [slice_flatten_at hi ho hle, slice_flatMap hf hj]

end

/-! ## Fixed-width fields -/

/-- `to_le_bytes` of a machine integer. -/
def ofBitVec {n : ℕ} (v : BitVec n) : List UInt8 := toLE (n / 8) v.toNat

/-- `from_le_bytes` of the field at `off`. -/
def read (n : ℕ) (bs : List UInt8) (off : ℕ) : BitVec n :=
  BitVec.ofNat n (ofLE (slice bs off (n / 8)))

@[simp] theorem length_ofBitVec {n : ℕ} (v : BitVec n) : (ofBitVec v).length = n / 8 :=
  length_toLE ..

theorem ofLE_ofBitVec {n : ℕ} (hn : 8 * (n / 8) = n) (v : BitVec n) :
    ofLE (ofBitVec v) = v.toNat := by
  have h256 : (256 : ℕ) ^ (n / 8) = 2 ^ n := by
    rw [show (256 : ℕ) = 2 ^ 8 from rfl, ← pow_mul, hn]
  rw [ofBitVec, ofLE_toLE, h256, Nat.mod_eq_of_lt v.isLt]

/-- A field reads back from where it was written. -/
theorem read_of_slice {n : ℕ} (hn : 8 * (n / 8) = n) {bs : List UInt8} {off : ℕ} {v : BitVec n}
    (h : slice bs off (n / 8) = ofBitVec v) : read n bs off = v := by
  rw [read, h, ofLE_ofBitVec hn, BitVec.ofNat_toNat, BitVec.setWidth_eq]

/-- A field that lies in the bytes is what was read there. -/
theorem ofBitVec_read {n : ℕ} (hn : 8 * (n / 8) = n) {bs : List UInt8} {off : ℕ}
    (h : off + n / 8 ≤ bs.length) : ofBitVec (read n bs off) = slice bs off (n / 8) := by
  have hlen := length_slice h
  have hlt := ofLE_lt (slice bs off (n / 8))
  have h256 : (256 : ℕ) ^ (n / 8) = 2 ^ n := by
    rw [show (256 : ℕ) = 2 ^ 8 from rfl, ← pow_mul, hn]
  rw [hlen, h256] at hlt
  rw [ofBitVec, read, BitVec.toNat_ofNat, Nat.mod_eq_of_lt hlt]
  nth_rewrite 1 [← hlen]
  exact toLE_ofLE _

theorem toNat_read {n : ℕ} (hn : 8 * (n / 8) = n) {bs : List UInt8} {off : ℕ}
    (h : off + n / 8 ≤ bs.length) : (read n bs off).toNat = ofLE (slice bs off (n / 8)) := by
  rw [← ofLE_ofBitVec hn, ofBitVec_read hn h]

/-- A field of a range. -/
theorem read_slice {n off len a : ℕ} (h : a + n / 8 ≤ len) (bs : List UInt8) :
    read n (slice bs off len) a = read n bs (off + a) := by
  rw [read, read, slice_slice h]

end Bytes

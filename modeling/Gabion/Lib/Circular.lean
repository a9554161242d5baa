/-
  Circular positions: the successor and the forward distance on a ring of `n` slots.
-/
import Mathlib.Tactic

namespace Circular

/-- The forward distance from `a` to `b` on a ring of `n` slots. -/
def dist (n a b : ℕ) : ℕ := (b + n - a) % n

theorem succ_eq {n i : ℕ} (hi : i < n) : (i + 1) % n = if i + 1 = n then 0 else i + 1 := by
  split_ifs with h
  · rw [h, Nat.mod_self]
  · exact Nat.mod_eq_of_lt (by omega)

theorem succ_lt {n i : ℕ} (hi : i < n) : (i + 1) % n < n := Nat.mod_lt _ (by omega)

theorem dist_eq {n a b : ℕ} (ha : a < n) (hb : b < n) :
    dist n a b = if a ≤ b then b - a else b + n - a := by
  unfold dist
  split_ifs with h
  · rw [show b + n - a = b - a + n by omega, Nat.add_mod_right, Nat.mod_eq_of_lt (by omega)]
  · exact Nat.mod_eq_of_lt (by omega)

theorem dist_lt {n a b : ℕ} (ha : a < n) : dist n a b < n := Nat.mod_lt _ (by omega)

@[simp] theorem dist_self {n a : ℕ} (ha : a < n) : dist n a a = 0 := by
  rw [dist_eq ha ha]; simp

theorem eq_of_dist_zero {n a b : ℕ} (ha : a < n) (hb : b < n) (h : dist n a b = 0) : a = b := by
  rw [dist_eq ha hb] at h; split_ifs at h <;> omega

/-- One step forward adds one to the distance, unless it closes the ring. -/
theorem dist_succ {n a b : ℕ} (ha : a < n) (hb : b < n) (h : dist n a b + 1 < n) :
    dist n a ((b + 1) % n) = dist n a b + 1 := by
  rw [dist_eq ha (succ_lt hb), succ_eq hb]
  rw [dist_eq ha hb] at h ⊢
  split_ifs at h ⊢ <;> omega

/-- A position other than the start is one step further than its predecessor. -/
theorem dist_succ_of_ne {n a b : ℕ} (ha : a < n) (hb : b < n) (h : 0 < dist n a ((b + 1) % n)) :
    dist n a ((b + 1) % n) = dist n a b + 1 := by
  rw [dist_eq ha (succ_lt hb), succ_eq hb] at h ⊢
  rw [dist_eq ha hb]
  split_ifs at h ⊢ <;> omega

/-- Moving the start one step forward takes one from the distance. -/
theorem dist_succ_left {n a b : ℕ} (ha : a < n) (hb : b < n) (h : a ≠ b) :
    dist n ((a + 1) % n) b + 1 = dist n a b := by
  rw [dist_eq (succ_lt ha) hb, succ_eq ha, dist_eq ha hb]
  split_ifs <;> omega

theorem add_dist {n a b : ℕ} (ha : a < n) (hb : b < n) : (a + dist n a b) % n = b := by
  rw [dist_eq ha hb]
  split_ifs with h
  · rw [show a + (b - a) = b by omega, Nat.mod_eq_of_lt hb]
  · rw [show a + (b + n - a) = b + n by omega, Nat.add_mod_right, Nat.mod_eq_of_lt hb]

/-- Moving the start forward, but not past `b`, takes as much from the distance. -/
theorem dist_advance {n a b k : ℕ} (ha : a < n) (hb : b < n) (h : k ≤ dist n a b) :
    dist n ((a + k) % n) b + k = dist n a b := by
  have hk : k < n := h.trans_lt (dist_lt ha)
  have hlt : (a + k) % n < n := Nat.mod_lt _ (by omega)
  rw [dist_eq ha hb] at h ⊢
  rw [dist_eq hlt hb]
  by_cases hw : a + k < n
  · rw [Nat.mod_eq_of_lt hw]
    split_ifs at h ⊢ <;> omega
  · rw [Nat.mod_eq_sub_mod (by omega), Nat.mod_eq_of_lt (by omega)]
    split_ifs at h ⊢ <;> omega

/-- The position that `k` steps lead to is `k` steps away, up to rounds. -/
theorem dist_add_mod {n a k : ℕ} (ha : a < n) : dist n a ((a + k) % n) = k % n := by
  unfold dist
  rw [show (a + k) % n + n - a = (a + k) % n + (n - a) by omega, Nat.mod_add_mod,
    show a + k + (n - a) = k + n by omega, Nat.add_mod_right]

theorem add_succ_mod {n a k : ℕ} : ((a + k) % n + 1) % n = (a + (k + 1)) % n := by
  rw [Nat.mod_add_mod, Nat.add_assoc]

/-- Every position has a predecessor. -/
theorem exists_pred {n i : ℕ} (hi : i < n) : ∃ j < n, (j + 1) % n = i := by
  rcases Nat.eq_zero_or_pos i with rfl | h
  · exact ⟨n - 1, by omega, by rw [Nat.sub_add_cancel (by omega), Nat.mod_self]⟩
  · exact ⟨i - 1, by omega, by rw [Nat.sub_add_cancel h, Nat.mod_eq_of_lt hi]⟩

theorem succ_inj {n i j : ℕ} (hi : i < n) (hj : j < n) (h : (i + 1) % n = (j + 1) % n) :
    i = j := by
  rw [succ_eq hi, succ_eq hj] at h; split_ifs at h <;> omega

end Circular

/-
  Slots handed out from an intrusive free list, and sums over them.

  * `Free next head k P`: following `next` from `head` visits exactly the slots that
    satisfy `P`, each once, `k` in all.  `Free.pop` and `Free.push` are the two list operations.
  * `sum_change`, `card_change`: a sum, or a count, over the slots below `n` after one
    slot has changed.
-/
import Mathlib.Tactic
import Mathlib.Algebra.BigOperators.Group.Finset.Basic
import Mathlib.Algebra.Order.BigOperators.Group.Finset

namespace Slots

open Function

/-! ## Free lists -/

/-- Following `next` from `head` visits the slots `l`. -/
def Chain (next : ℕ → Option ℕ) : Option ℕ → List ℕ → Prop
  | head, [] => head = none
  | head, x :: l => head = some x ∧ Chain next (next x) l

/-- The free list starting at `head` holds exactly the `k` slots satisfying `P`. -/
def Free (next : ℕ → Option ℕ) (head : Option ℕ) (k : ℕ) (P : ℕ → Prop) : Prop :=
  ∃ l, Chain next head l ∧ l.Nodup ∧ l.length = k ∧ ∀ x, x ∈ l ↔ P x

variable {next next' : ℕ → Option ℕ} {head : Option ℕ} {k : ℕ} {P Q : ℕ → Prop}

theorem Chain.congr : ∀ {l : List ℕ} {head : Option ℕ}, (∀ x ∈ l, next x = next' x) →
    Chain next head l → Chain next' head l
  | [], _, _, h => h
  | x :: l, _, hl, ⟨h1, h2⟩ =>
    ⟨h1, Chain.congr (fun y hy => hl y (by simp [hy])) (hl x (by simp) ▸ h2)⟩

theorem Free.iff (h : Free next head k P) (hPQ : ∀ x, P x ↔ Q x) : Free next head k Q := by
  obtain ⟨l, hc, hn, hk, hl⟩ := h
  exact ⟨l, hc, hn, hk, fun x => (hl x).trans (hPQ x)⟩

theorem Free.head_none (h : Free next none k P) (x : ℕ) : ¬ P x := by
  obtain ⟨l, hc, -, -, hl⟩ := h
  cases l with
  | nil => rw [← hl]; simp
  | cons y l => cases hc.1

/-- Taking the head off the list; the link of the taken slot is free to change. -/
theorem Free.pop {x : ℕ} (h : Free next (some x) k P) (hn : ∀ y, y ≠ x → next y = next' y) :
    P x ∧ ∃ j, k = j + 1 ∧ Free next' (next x) j (fun y => P y ∧ y ≠ x) := by
  obtain ⟨l, hc, hnd, hk, hl⟩ := h
  cases l with
  | nil => cases hc
  | cons y l =>
    obtain ⟨h1, h2⟩ := hc
    cases h1
    obtain ⟨hx, hnd⟩ := List.nodup_cons.1 hnd
    refine ⟨(hl x).1 (by simp), l.length, hk.symm, l,
      h2.congr fun y hy => hn y fun h => hx (h ▸ hy), hnd, rfl,
      fun y => ⟨fun hy => ⟨(hl y).1 (by simp [hy]), fun h => hx (h ▸ hy)⟩, fun ⟨hy, hne⟩ => ?_⟩⟩
    exact (List.mem_cons.1 ((hl y).2 hy)).resolve_left hne

/-- Putting a slot back at the head. -/
theorem Free.push {x : ℕ} (h : Free next head k P) (hx : ¬ P x) :
    Free (update next x head) (some x) (k + 1) (fun y => P y ∨ y = x) := by
  obtain ⟨l, hc, hnd, hk, hl⟩ := h
  have hxl : x ∉ l := fun h => hx ((hl x).1 h)
  refine ⟨x :: l, ⟨rfl, ?_⟩, List.nodup_cons.2 ⟨hxl, hnd⟩, by simp [hk], fun y => ?_⟩
  · rw [update_self]
    exact hc.congr fun y hy => (update_of_ne (fun h => hxl (by rwa [← h])) _ _).symm
  · rw [List.mem_cons, hl]; tauto

/-- The links of the initial list: every slot points to the next one. -/
def initNext (n : ℕ) (i : ℕ) : Option ℕ := if i + 1 < n then some (i + 1) else none

theorem chain_init {n : ℕ} : ∀ k s, s + k = n → 0 < k →
    Chain (initNext n) (some s) (List.range' s k)
  | 0, _, _, hk => absurd hk (lt_irrefl 0)
  | k + 1, s, hs, _ => by
    rw [List.range'_succ]
    refine ⟨rfl, ?_⟩
    rcases Nat.eq_zero_or_pos k with rfl | hk
    · simp [Chain, initNext, show ¬ s + 1 < n by omega]
    · simp only [initNext, show s + 1 < n by omega, if_true]
      exact chain_init k (s + 1) (by omega) hk

theorem free_init {n : ℕ} (hn : 0 < n) : Free (initNext n) (some 0) n (· < n) :=
  ⟨List.range' 0 n, chain_init n 0 (by omega) hn, List.nodup_range', by simp, by simp⟩

/-! ## Sums over slots -/

theorem sum_change {n x : ℕ} {f g : ℕ → ℕ} (hx : x < n) (h : ∀ y < n, y ≠ x → f y = g y) :
    ∑ y ∈ Finset.range n, f y + g x = ∑ y ∈ Finset.range n, g y + f x := by
  have h1 := Finset.sum_erase_add _ f (Finset.mem_range.2 hx)
  have h2 := Finset.sum_erase_add _ g (Finset.mem_range.2 hx)
  have h3 : ∑ y ∈ (Finset.range n).erase x, f y = ∑ y ∈ (Finset.range n).erase x, g y :=
    Finset.sum_congr rfl fun y hy =>
      h y (Finset.mem_range.1 (Finset.mem_of_mem_erase hy)) (Finset.ne_of_mem_erase hy)
  omega

theorem sum_le_mul {n c : ℕ} {f : ℕ → ℕ} (h : ∀ y < n, f y ≤ c) :
    ∑ y ∈ Finset.range n, f y ≤ n * c := by
  simpa using Finset.sum_le_card_nsmul (Finset.range n) f c fun y hy => h y (Finset.mem_range.1 hy)

/-- The number of slots below `n` that satisfy `p`. -/
def tally (n : ℕ) (p : ℕ → Bool) : ℕ := ∑ y ∈ Finset.range n, (p y).toNat

theorem tally_le (n : ℕ) (p : ℕ → Bool) : tally n p ≤ n :=
  (sum_le_mul fun y _ => Bool.toNat_le (p y)).trans_eq (Nat.mul_one n)

theorem tally_congr {n : ℕ} {p q : ℕ → Bool} (h : ∀ y < n, p y = q y) : tally n p = tally n q :=
  Finset.sum_congr rfl fun y hy => by rw [h y (Finset.mem_range.1 hy)]

/-- The count after slot `x` has changed. -/
theorem tally_change {n x : ℕ} {p q : ℕ → Bool} (hx : x < n) (h : ∀ y < n, y ≠ x → p y = q y) :
    tally n p + (q x).toNat = tally n q + (p x).toNat :=
  sum_change (f := fun y => (p y).toNat) (g := fun y => (q y).toNat) hx
    fun y hy hne => congrArg Bool.toNat (h y hy hne)

theorem tally_pos {n : ℕ} {p : ℕ → Bool} : 0 < tally n p ↔ ∃ x < n, p x = true := by
  rw [tally, Nat.pos_iff_ne_zero, Ne, Finset.sum_eq_zero_iff]
  push Not
  simp only [Finset.mem_range, ne_eq, Bool.toNat_eq_zero, Bool.not_eq_false]

theorem tally_zero {n : ℕ} {p : ℕ → Bool} (h : ∀ x < n, p x = false) : tally n p = 0 := by
  by_contra hc
  obtain ⟨x, hx, hp⟩ := tally_pos.1 (Nat.pos_of_ne_zero hc)
  rw [h x hx] at hp; cases hp

theorem Free.tally_add {n : ℕ} {p : ℕ → Bool}
    (h : Free next head k (fun x => x < n ∧ p x = false)) : tally n p + k = n := by
  obtain ⟨l, -, hnd, hk, hl⟩ := h
  have hfree : l.toFinset = (Finset.range n).filter fun x => ¬ p x = true := by
    ext x; simp [hl]
  have hcard := Finset.card_filter_add_card_filter_not (s := Finset.range n) fun x => p x = true
  rw [← hfree, List.toFinset_card_of_nodup hnd, hk, Finset.card_range, Finset.card_filter] at hcard
  have hsum : tally n p = ∑ x ∈ Finset.range n, if p x = true then 1 else 0 :=
    Finset.sum_congr rfl fun x _ => by cases p x <;> rfl
  rw [hsum, hcard]

/-- A sum over a finite family of which one member has changed. -/
theorem sum_comp_update {ι α : Type*} [Fintype ι] [DecidableEq ι] (g : ι → α) (i : ι) (x : α)
    (f : α → ℕ) : (∑ j, f (update g i x j)) + f (g i) = (∑ j, f (g j)) + f x := by
  have hothers : ∑ j ∈ Finset.univ.erase i, f (update g i x j) =
      ∑ j ∈ Finset.univ.erase i, f (g j) :=
    Finset.sum_congr rfl fun j hj => by rw [update_of_ne (Finset.ne_of_mem_erase hj)]
  rw [← Finset.add_sum_erase _ _ (Finset.mem_univ i), update_self, hothers,
    ← Finset.add_sum_erase _ (fun j => f (g j)) (Finset.mem_univ i)]
  omega

end Slots

/-
  Maps held in slots, and max-merge on maps.

  * A `View` gives for every slot the entry it holds.  When no two slots hold the same
    key (`Inj`), the view is a finite map, `lookup`; writing a slot updates it at one key
    (`lookup_set`).  `total` sums the counts of some keys.
  * `merge` raises a map at one key.  The result of merging a list of entries depends only
    on which entries it contains (`mergeAll_congr`); merging all entries of a map joins it
    (`mergeAll_eq_sup`).
-/
import Gabion.Lib.Slots
import Mathlib.Tactic
import Mathlib.Order.WithBot
import Mathlib.Order.Lattice

namespace SlotMap

open Function

variable {K : Type*}

/-! ## Views -/

/-- The entry, key and count, that every slot holds. -/
abbrev View (K : Type*) := ℕ → Option (K × ℕ)

/-- No key is held by two slots. -/
def Inj (V : View K) : Prop := ∀ x y k c d, V x = some (k, c) → V y = some (k, d) → x = y

/-- Only slots below `n` hold entries. -/
def Below (n : ℕ) (V : View K) : Prop := ∀ x e, V x = some e → x < n

/-- The count held under `k` in the slots below `n`; `⊥` if there is none. -/
def lookup [DecidableEq K] (n : ℕ) (V : View K) (k : K) : WithBot ℕ :=
  (List.range n).findSome? fun x => (V x).bind fun e => if e.1 = k then some e.2 else none

variable [DecidableEq K] {n : ℕ} {V : View K}

theorem lookup_eq_coe (hi : Inj V) (hb : Below n V) {k : K} {c : ℕ} :
    lookup n V k = WithBot.some c ↔ ∃ x, V x = some (k, c) := by
  have key : ∀ x d, ((V x).bind fun e => if e.1 = k then some e.2 else none) = some d ↔
      V x = some (k, d) := by
    intro x d
    rcases V x with _ | ⟨k', c'⟩
    · simp
    · simp only [Option.bind_some, Option.ite_none_right_eq_some, Option.some.injEq, Prod.mk.injEq]
  constructor
  · intro h
    obtain ⟨x, -, hx⟩ := List.exists_of_findSome?_eq_some h
    exact ⟨x, (key x c).1 hx⟩
  · rintro ⟨x, hx⟩
    have hs : ((List.range n).findSome? fun x => (V x).bind fun e =>
        if e.1 = k then some e.2 else none).isSome :=
      List.findSome?_isSome_iff.2 ⟨x, List.mem_range.2 (hb x _ hx), by
        rw [(key x c).2 hx]; rfl⟩
    obtain ⟨d, hd⟩ := Option.isSome_iff_exists.1 hs
    obtain ⟨y, -, hy⟩ := List.exists_of_findSome?_eq_some hd
    have hy := (key y d).1 hy
    have hxy := hi y x k d c hy hx
    rw [hxy, hx] at hy
    cases hy
    exact hd

theorem lookup_eq_bot (hi : Inj V) (hb : Below n V) {k : K} :
    lookup n V k = ⊥ ↔ ∀ x c, V x ≠ some (k, c) := by
  rw [← not_iff_not, ← ne_eq, WithBot.ne_bot_iff_exists]
  push Not
  constructor
  · rintro ⟨c, hc⟩
    obtain ⟨x, hx⟩ := (lookup_eq_coe hi hb).1 hc.symm
    exact ⟨x, c, hx⟩
  · rintro ⟨x, c, hx⟩
    exact ⟨c, ((lookup_eq_coe hi hb).2 ⟨x, hx⟩).symm⟩

/-- Two views with the same entries are the same map. -/
theorem lookup_ext {V' : View K} {n' : ℕ} (hi : Inj V) (hb : Below n V) (hi' : Inj V')
    (hb' : Below n' V') {k k' : K}
    (h : ∀ c, (∃ x, V x = some (k, c)) ↔ ∃ x, V' x = some (k', c)) :
    lookup n V k = lookup n' V' k' := by
  cases hv : lookup n V k with
  | coe c => exact ((lookup_eq_coe hi' hb').2 ((h c).1 ((lookup_eq_coe hi hb).1 hv))).symm
  | bot =>
    have hv := (lookup_eq_bot hi hb).1 hv
    refine ((lookup_eq_bot hi' hb').2 fun x c hx => ?_).symm
    obtain ⟨y, hy⟩ := (h c).2 ⟨x, hx⟩
    exact hv y c hy

/-- Slot `x` may be given key `k`: it holds `k` already, or it is empty and no slot
    holds `k`. -/
def Open (V : View K) (x : ℕ) (k : K) : Prop :=
  (∃ c, V x = some (k, c)) ∨ (V x = none ∧ ∀ y c, V y ≠ some (k, c))

omit [DecidableEq K] in
theorem Open.only {x : ℕ} {k : K} (h : Open V x k) (hi : Inj V) {y c : ℕ}
    (hy : V y = some (k, c)) : y = x := by
  rcases h with ⟨d, hd⟩ | ⟨-, hn⟩
  · exact hi y x k c d hy hd
  · exact absurd hy (hn y c)

omit [DecidableEq K] in
theorem Inj.set {x : ℕ} {k : K} (hi : Inj V) (ho : Open V x k) (c : ℕ) :
    Inj (update V x (some (k, c))) := by
  intro y z k' d e hy hz
  by_cases hyx : y = x <;> by_cases hzx : z = x
  · rw [hyx, hzx]
  · subst hyx
    rw [update_self] at hy; cases hy
    rw [update_of_ne hzx] at hz
    exact absurd (ho.only hi hz) hzx
  · subst hzx
    rw [update_self] at hz; cases hz
    rw [update_of_ne hyx] at hy
    exact absurd (ho.only hi hy) hyx
  · rw [update_of_ne hyx] at hy
    rw [update_of_ne hzx] at hz
    exact hi y z k' d e hy hz

theorem lookup_set {x : ℕ} {k : K} (hi : Inj V) (hb : Below n V) (hx : x < n)
    (ho : Open V x k) (c : ℕ) :
    lookup n (update V x (some (k, c))) = update (lookup n V) k (WithBot.some c) := by
  have hi' := hi.set ho c
  have hb' : Below n (update V x (some (k, c))) := fun y e hy => by
    by_cases h : y = x
    · exact h ▸ hx
    · rw [update_of_ne h] at hy
      exact hb y e hy
  funext k'
  by_cases hk : k' = k
  · subst hk
    rw [update_self]
    exact (lookup_eq_coe hi' hb').2 ⟨x, update_self ..⟩
  · rw [update_of_ne hk]
    refine lookup_ext hi' hb' hi hb fun d => ⟨?_, ?_⟩
    · rintro ⟨y, hy⟩
      by_cases h : y = x
      · rw [h, update_self] at hy; cases hy; exact absurd rfl hk
      · exact ⟨y, by rwa [update_of_ne h] at hy⟩
    · rintro ⟨y, hy⟩
      have h : y ≠ x := by
        rintro rfl
        rcases ho with ⟨e, he⟩ | ⟨hn, -⟩
        · rw [he] at hy; cases hy; exact hk rfl
        · rw [hn] at hy; cases hy
      exact ⟨y, by rwa [update_of_ne h]⟩

omit [DecidableEq K] in
/-! ## Sums of counts -/

/-- What an entry counts towards the keys that satisfy `p`. -/
def entryCount (p : K → Bool) : Option (K × ℕ) → ℕ
  | some (k, c) => if p k then c else 0
  | none => 0

/-- The sum of the counts held under the keys that satisfy `p`. -/
def total (n : ℕ) (V : View K) (p : K → Bool) : ℕ := ∑ x ∈ Finset.range n, entryCount p (V x)

omit [DecidableEq K] in
/-- The sum after slot `x` has been written or cleared. -/
theorem total_update {x : ℕ} (hx : x < n) (e : Option (K × ℕ)) (p : K → Bool) :
    total n (update V x e) p + entryCount p (V x) = total n V p + entryCount p e := by
  have := Slots.sum_change (f := fun y => entryCount p (update V x e y))
    (g := fun y => entryCount p (V y)) hx fun y _ hy => by rw [update_of_ne hy]
  rwa [update_self] at this

omit [DecidableEq K] in
theorem total_le {c : ℕ} (h : ∀ x k d, V x = some (k, d) → d ≤ c) (p : K → Bool) :
    total n V p ≤ n * c := by
  refine Slots.sum_le_mul fun x _ => ?_
  rcases hx : V x with _ | ⟨k, d⟩
  · exact Nat.zero_le _
  · simp only [entryCount]
    split_ifs
    · exact h x k d hx
    · exact Nat.zero_le _

omit [DecidableEq K] in
theorem le_total {x c : ℕ} {k : K} {p : K → Bool} (hx : x < n) (hV : V x = some (k, c))
    (hk : p k = true) : c ≤ total n V p := by
  have hentry : entryCount p (V x) = c := by rw [hV, entryCount, if_pos hk]
  rw [← hentry]
  exact Finset.single_le_sum (f := fun x => entryCount p (V x)) (fun _ _ => Nat.zero_le _)
    (Finset.mem_range.2 hx)

omit [DecidableEq K] in
theorem total_empty (h : ∀ x, V x = none) (p : K → Bool) : total n V p = 0 :=
  Finset.sum_eq_zero fun x _ => by rw [h, entryCount]

/-- If `k` is the only key with `p` that is stored, the sum is its count. -/
theorem total_eq_lookup (hi : Inj V) (hb : Below n V) {k : K} {p : K → Bool} (hk : p k = true)
    (hp : ∀ x k' c, V x = some (k', c) → p k' = true → k' = k) :
    total n V p = (lookup n V k).unbotD 0 := by
  have hzero : ∀ y, (∀ c, V y ≠ some (k, c)) → entryCount p (V y) = 0 := by
    intro y hy
    rcases hV : V y with _ | ⟨k', d⟩
    · rfl
    · rw [entryCount, if_neg]
      intro hk'
      obtain rfl := hp y k' d hV hk'
      exact hy d hV
  by_cases hex : ∃ x c, V x = some (k, c)
  · obtain ⟨x, c, hx⟩ := hex
    rw [(lookup_eq_coe hi hb).2 ⟨x, hx⟩, WithBot.unbotD_coe]
    refine (Finset.sum_eq_single x (fun y _ hy => hzero y fun d hd => ?_) fun hn => ?_).trans ?_
    · exact hy (hi y x k d c hd hx)
    · exact absurd (Finset.mem_range.2 (hb x _ hx)) hn
    · rw [hx, entryCount, if_pos hk]
  · push Not at hex
    rw [(lookup_eq_bot hi hb).2 hex, WithBot.unbotD_bot]
    exact Finset.sum_eq_zero fun y _ => hzero y (hex y)

/-! ## Max-merge -/

section
variable {α : Type*} [SemilatticeSup α]

/-- Raise the entry of `e.1` to at least `e.2`. -/
def merge (m : K → α) (e : K × α) : K → α := update m e.1 (m e.1 ⊔ e.2)

theorem merge_apply (m : K → α) (e : K × α) (k : K) :
    merge m e k = if k = e.1 then m k ⊔ e.2 else m k := by
  unfold merge
  split_ifs with h
  · rw [h, update_self]
  · rw [update_of_ne h]

theorem mergeAll_le_iff (l : List (K × α)) (m : K → α) (k : K) (b : α) :
    l.foldl merge m k ≤ b ↔ m k ≤ b ∧ ∀ e ∈ l, e.1 = k → e.2 ≤ b := by
  induction l generalizing m with
  | nil => simp
  | cons e l ih =>
    rw [List.foldl_cons, ih, merge_apply]
    simp only [List.forall_mem_cons]
    split_ifs with h
    · rw [sup_le_iff, and_assoc]
      exact and_congr_right fun _ => and_congr_left fun _ => by simp [h]
    · exact and_congr_right fun _ => (and_iff_right fun h' => absurd h'.symm h).symm

/-- **Merging is insensitive to order and repetition.** -/
theorem mergeAll_congr {l l' : List (K × α)} (h : ∀ e, e ∈ l ↔ e ∈ l') (m : K → α) :
    l.foldl merge m = l'.foldl merge m := by
  funext k
  refine eq_of_forall_ge_iff fun b => ?_
  rw [mergeAll_le_iff, mergeAll_le_iff]
  simp only [h]

/-- Merging exactly the entries of a map gives the pointwise maximum. -/
theorem mergeAll_eq_sup [OrderBot α] {l : List (K × α)} {f : K → α} (hl : ∀ e ∈ l, e.2 = f e.1)
    (hf : ∀ k, f k ≠ ⊥ → (k, f k) ∈ l) (m : K → α) : l.foldl merge m = f ⊔ m := by
  funext k
  refine eq_of_forall_ge_iff fun b => ?_
  rw [mergeAll_le_iff, Pi.sup_apply, sup_le_iff, and_comm]
  refine and_congr_left fun _ => ⟨fun h => ?_, fun h e he hk => ?_⟩
  · by_cases hbot : f k = ⊥
    · rw [hbot]; exact bot_le
    · exact h (k, f k) (hf k hbot) rfl
  · rw [hl e he, hk]
    exact h

end

end SlotMap

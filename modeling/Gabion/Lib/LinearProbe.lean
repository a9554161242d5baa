/-
  Linear probing on a ring of `n` slots with a bound on the probe distance, and deletion that
  shifts entries back.

  A table is a function from slots to optional entries; an entry sits at some distance from
  the home of its key, and a search walks from the home until it finds the key or an empty
  slot, for at most `bound` slots.

  * `Layout` is the invariant: every entry is within the bound, all slots from its home to it
    are occupied, and no key is stored twice.  `Passes` is a search under way;
    `Layout.not_stored_of_empty` and `Layout.not_stored_of_bound` say what it means that it ends
    without the key.
  * `Hole` is the invariant of a deletion under way.  The hole is skipped past entries that
    need not move (`Hole.skip`), moves to an entry that is pulled back into it (`Hole.move`),
    and is emptied when no entry needs it any more (`Hole.close_empty`, `Hole.close_bound`).
    `shift` is what the moves use up (`Hole.shift_lt`).
-/
import Gabion.Lib.Circular
import Gabion.Lib.Slots

namespace LinearProbe

open Circular Function

variable {α K : Type} (n bound : ℕ) (key : α → K) (home : K → ℕ)

/-- The distance of the entry `a` in slot `i` from its home. -/
def disp (a : α) (i : ℕ) : ℕ := dist n (home (key a)) i

/-- The entry `a` is stored. -/
def Stored (T : ℕ → Option α) (a : α) : Prop := ∃ i < n, T i = some a

/-- The entry `a` is stored outside the hole. -/
def StoredBut (T : ℕ → Option α) (hole : ℕ) (a : α) : Prop := ∃ i < n, i ≠ hole ∧ T i = some a

/-- **The layout of a table.** -/
structure Layout (T : ℕ → Option α) : Prop where
  near : ∀ i < n, ∀ a, T i = some a → disp n key home a i < bound
  reach : ∀ i < n, ∀ a, T i = some a → ∀ d < disp n key home a i,
    T ((home (key a) + d) % n) ≠ none
  distinct : ∀ i < n, ∀ j < n, ∀ a b, T i = some a → T j = some b → key a = key b → i = j

/-- A search for `k` passes the first `d` slots: they hold other keys. -/
def Passes (T : ℕ → Option α) (k : K) (d : ℕ) : Prop :=
  ∀ d' < d, ∃ a, T ((home k + d') % n) = some a ∧ key a ≠ k

/-- **The layout around a hole**: the content of the slot `hole` does not count, and an entry
    whose way from home leads over the hole is more than `gap` slots behind it. -/
structure Hole (T : ℕ → Option α) (hole gap : ℕ) : Prop where
  lt : hole < n
  near : ∀ i < n, i ≠ hole → ∀ a, T i = some a → disp n key home a i < bound
  reach : ∀ i < n, i ≠ hole → ∀ a, T i = some a → ∀ d < disp n key home a i,
    (home (key a) + d) % n ≠ hole → T ((home (key a) + d) % n) ≠ none
  past : ∀ i < n, i ≠ hole → ∀ a, T i = some a → ∀ d < disp n key home a i,
    (home (key a) + d) % n = hole → gap < dist n hole i
  distinct : ∀ i < n, i ≠ hole → ∀ j < n, j ≠ hole → ∀ a b, T i = some a → T j = some b →
    key a = key b → i = j

variable {n bound key home} {T : ℕ → Option α} {a : α} {i d : ℕ} {k : K}

theorem layout_empty : Layout n bound key home (fun _ => none) :=
  ⟨nofun, nofun, nofun⟩

/-! ## What is stored -/

theorem update_eq_some {b : α} {j : ℕ} (h : update T i (some a) j = some b) :
    j = i ∧ b = a ∨ j ≠ i ∧ T j = some b := by
  by_cases hj : j = i
  · rw [hj, update_self, Option.some.injEq] at h
    exact .inl ⟨hj, h.symm⟩
  · rw [update_of_ne hj] at h
    exact .inr ⟨hj, h⟩

theorem update_ne_none {j : ℕ} (h : j ≠ i → T j ≠ none) : update T i (some a) j ≠ none := by
  by_cases hj : j = i
  · rw [hj, update_self]
    exact Option.some_ne_none a
  · rw [update_of_ne hj]
    exact h hj

theorem stored_update {b : α} (hi : i < n) :
    Stored n (update T i (some a)) b ↔ b = a ∨ StoredBut n T i b := by
  constructor
  · rintro ⟨j, hj, hb⟩
    rcases update_eq_some hb with ⟨-, hba⟩ | ⟨hji, hb⟩
    · exact .inl hba
    · exact .inr ⟨j, hj, hji, hb⟩
  · rintro (rfl | ⟨j, hj, hji, hb⟩)
    · exact ⟨i, hi, update_self ..⟩
    · exact ⟨j, hj, by rw [update_of_ne hji, hb]⟩

theorem Layout.storedBut_iff {b : α} (h : Layout n bound key home T) (hi : i < n)
    (ha : T i = some a) : StoredBut n T i b ↔ Stored n T b ∧ key b ≠ key a := by
  constructor
  · rintro ⟨j, hj, hji, hb⟩
    exact ⟨⟨j, hj, hb⟩, fun hk => hji (h.distinct j hj i hi b a hb ha hk)⟩
  · rintro ⟨⟨j, hj, hb⟩, hk⟩
    refine ⟨j, hj, ?_, hb⟩
    rintro rfl
    rw [ha, Option.some.injEq] at hb
    exact hk (by rw [hb])

section
variable (hh : ∀ k, home k < n)
include hh

theorem disp_lt (a : α) (i : ℕ) : disp n key home a i < n := dist_lt (hh _)

theorem home_add_disp (hi : i < n) : (home (key a) + disp n key home a i) % n = i :=
  add_dist (hh _) hi

/-- The distance of the slot that `d` steps lead to. -/
theorem disp_add_le : disp n key home a ((home (key a) + d) % n) ≤ d := by
  rw [disp, dist_add_mod (hh _)]
  exact Nat.mod_le d n

/-! ## Searching -/

/-- A search that ends at an empty slot. -/
theorem Layout.not_stored_of_empty (h : Layout n bound key home T)
    (hpass : Passes n key home T k d) (hempty : T ((home k + d) % n) = none) :
    ∀ i < n, ∀ a, T i = some a → key a ≠ k := by
  rintro i hi a ha rfl
  rcases lt_trichotomy (disp n key home a i) d with hlt | heq | hgt
  · obtain ⟨b, hb, hne⟩ := hpass _ hlt
    rw [home_add_disp hh hi, ha] at hb
    cases hb
    exact hne rfl
  · rw [← heq, home_add_disp hh hi, ha] at hempty
    cases hempty
  · exact h.reach i hi a ha d hgt hempty

/-- A search that has walked as far as an entry may sit. -/
theorem Layout.not_stored_of_bound (h : Layout n bound key home T)
    (hpass : Passes n key home T k bound) : ∀ i < n, ∀ a, T i = some a → key a ≠ k := by
  rintro i hi a ha rfl
  obtain ⟨b, hb, hne⟩ := hpass _ (h.near i hi a ha)
  rw [home_add_disp hh hi, ha] at hb
  cases hb
  exact hne rfl

/-! ## Storing -/

/-- A new entry goes to the empty slot at which the search for its key ended. -/
theorem Layout.insert (h : Layout n bound key home T)
    (hpass : Passes n key home T (key a) d) (hd : d < bound)
    (hempty : T ((home (key a) + d) % n) = none) :
    Layout n bound key home (update T ((home (key a) + d) % n) (some a)) := by
  have hnew := h.not_stored_of_empty hh hpass hempty
  refine ⟨fun j hj b hb => ?_, fun j hj b hb d' hd' => update_ne_none fun _ => ?_,
    fun j hj j' hj' b b' hb hb' hkey => ?_⟩
  · rcases update_eq_some hb with ⟨rfl, rfl⟩ | ⟨-, hb⟩
    · exact (disp_add_le hh).trans_lt hd
    · exact h.near j hj b hb
  · rcases update_eq_some hb with ⟨rfl, rfl⟩ | ⟨-, hb⟩
    · obtain ⟨c, hc, -⟩ := hpass d' (hd'.trans_le (disp_add_le hh))
      rw [hc]
      exact Option.some_ne_none c
    · exact h.reach j hj b hb d' hd'
  · rcases update_eq_some hb with ⟨hi, hba⟩ | ⟨-, hi⟩ <;>
      rcases update_eq_some hb' with ⟨hi', hba'⟩ | ⟨-, hi'⟩
    · rw [hi, hi']
    · exact absurd (hba ▸ hkey.symm) (hnew j' hj' b' hi')
    · exact absurd (hba' ▸ hkey) (hnew j hj b hi)
    · exact h.distinct j hj j' hj' b b' hi hi' hkey

omit hh in
/-- An entry with the same key takes the place of a stored one. -/
theorem Layout.overwrite {b : α} (h : Layout n bound key home T) (ha : T i = some a)
    (hkey : key b = key a) : Layout n bound key home (update T i (some b)) := by
  have hold : ∀ j c, update T i (some b) j = some c → ∃ c', T j = some c' ∧ key c' = key c := by
    intro j c hc
    rcases update_eq_some hc with ⟨rfl, rfl⟩ | ⟨-, hc⟩
    · exact ⟨a, ha, hkey.symm⟩
    · exact ⟨c, hc, rfl⟩
  refine ⟨fun j hj c hc => ?_, fun j hj c hc d hd => ?_, fun j hj j' hj' c c' hc hc' hcc => ?_⟩
  · obtain ⟨c', hc', hk⟩ := hold j c hc
    rw [disp, ← hk]
    exact h.near j hj c' hc'
  · obtain ⟨c', hc', hk⟩ := hold j c hc
    rw [disp, ← hk] at hd
    rw [← hk]
    exact update_ne_none fun _ => h.reach j hj c' hc' d hd
  · obtain ⟨e, he, hk⟩ := hold j c hc
    obtain ⟨e', he', hk'⟩ := hold j' c' hc'
    exact h.distinct j hj j' hj' e e' he he' (by rw [hk, hk', hcc])

/-! ## Deleting -/

omit hh in
/-- Any slot may become the hole. -/
theorem Layout.hole (h : Layout n bound key home T) (hi : i < n) : Hole n bound key home T i 0 where
  lt := hi
  near := fun j hj _ => h.near j hj
  reach := fun j hj _ a ha d hd _ => h.reach j hj a ha d hd
  past := fun _ hj hne _ _ _ _ _ =>
    Nat.pos_of_ne_zero fun hzero => hne (eq_of_dist_zero hi hj hzero).symm
  distinct := fun j hj _ j' hj' _ a b ha hb => h.distinct j hj j' hj' a b ha hb

/-- An entry whose way leads over the hole is at least as far from home as from the hole. -/
theorem dist_le_disp {hole : ℕ} (hi : i < n) (hd : d < disp n key home a i)
    (hover : (home (key a) + d) % n = hole) : d + dist n hole i = disp n key home a i := by
  have hadv := dist_advance (hh (key a)) hi hd.le
  rw [hover] at hadv
  rw [disp]
  omega

variable {hole gap : ℕ}

/-- The next entry need not move: its home is behind the hole. -/
theorem Hole.skip {b : α} (h : Hole n bound key home T hole gap)
    (hb : T ((hole + (gap + 1)) % n) = some b)
    (hnear : disp n key home b ((hole + (gap + 1)) % n) < gap + 1) :
    Hole n bound key home T hole (gap + 1) := by
  refine ⟨h.lt, h.near, h.reach, fun i hi hne a ha d hd hover => ?_, h.distinct⟩
  have hpast := h.past i hi hne a ha d hd hover
  by_contra hc
  have heq : dist n hole i = gap + 1 := by omega
  have hindex : (hole + (gap + 1)) % n = i := heq ▸ add_dist h.lt hi
  rw [hindex] at hb hnear
  cases hb.symm.trans ha
  have := dist_le_disp hh hi hd hover
  omega

/-- An entry behind the hole, whose way leads over it, is as much closer to home there. -/
theorem disp_hole_add (hhole : hole < n)
    (hfar : gap + 1 ≤ disp n key home a ((hole + (gap + 1)) % n)) :
    disp n key home a hole + (gap + 1) = disp n key home a ((hole + (gap + 1)) % n) := by
  have hindex : (hole + (gap + 1)) % n < n := Nat.mod_lt _ (by omega)
  have hlt : disp n key home a ((hole + (gap + 1)) % n) < n := disp_lt hh a _
  have hway : (home (key a) + disp n key home a ((hole + (gap + 1)) % n)) % n =
      (hole + (gap + 1)) % n := home_add_disp hh hindex
  generalize disp n key home a ((hole + (gap + 1)) % n) = far at *
  have hmod : (home (key a) + (far - (gap + 1)) + (gap + 1)) % n = (hole + (gap + 1)) % n := by
    rw [Nat.add_assoc, Nat.sub_add_cancel hfar, hway]
  have hover : home (key a) + (far - (gap + 1)) ≡ hole [MOD n] := Nat.ModEq.add_right_cancel' _ hmod
  have hdist := dist_add_mod (k := far - (gap + 1)) (hh (key a))
  rw [hover, Nat.mod_eq_of_lt hhole, Nat.mod_eq_of_lt (by omega)] at hdist
  rw [disp, hdist]
  omega

omit hh in
theorem next_ne_hole (hhole : hole < n) (hgap : gap + 1 < n) : (hole + (gap + 1)) % n ≠ hole := by
  intro heq
  have hdist := dist_add_mod (k := gap + 1) hhole
  rw [heq, dist_self hhole, Nat.mod_eq_of_lt hgap] at hdist
  omega

omit hh in
/-- An entry that is not farther from home in the hole takes its place there. -/
theorem Hole.pull {index : ℕ} (h : Hole n bound key home T hole gap) (hindex : index < n)
    (hne : index ≠ hole) (ha : T index = some a)
    (hback : disp n key home a hole ≤ disp n key home a index) :
    Hole n bound key home (update T hole (some a)) index 0 := by
  refine ⟨hindex, fun i hi hne' b hb => ?_, fun i hi hne' b hb d hd _ => update_ne_none fun hnot => ?_,
    fun i hi hne' _ _ _ _ _ => Nat.pos_of_ne_zero fun hzero =>
      hne' (eq_of_dist_zero hindex hi hzero).symm,
    fun i hi hne' j hj hne'' b c hb hc hkey => ?_⟩
  · rcases update_eq_some hb with ⟨rfl, rfl⟩ | ⟨hih, hb⟩
    · exact hback.trans_lt (h.near index hindex hne b ha)
    · exact h.near i hi hih b hb
  · rcases update_eq_some hb with ⟨rfl, rfl⟩ | ⟨hih, hb⟩
    · exact h.reach index hindex hne b ha d (hd.trans_le hback) hnot
    · exact h.reach i hi hih b hb d hd hnot
  · rcases update_eq_some hb with ⟨hi', hba⟩ | ⟨hih, hb⟩ <;>
      rcases update_eq_some hc with ⟨hj', hca⟩ | ⟨hjh, hc⟩
    · rw [hi', hj']
    · exact absurd (h.distinct index hindex hne j hj hjh a c ha hc (hba ▸ hkey)) (Ne.symm hne'')
    · exact absurd (h.distinct i hi hih index hindex hne b a hb ha (hca ▸ hkey)) hne'
    · exact h.distinct i hi hih j hj hjh b c hb hc hkey

omit hh in
theorem storedBut_pull {index : ℕ} {b : α} (hhole : hole < n) (hindex : index < n)
    (hne : index ≠ hole) (ha : T index = some a) :
    StoredBut n (update T hole (some a)) index b ↔ StoredBut n T hole b := by
  constructor
  · rintro ⟨i, hi, hne', hb⟩
    rcases update_eq_some hb with ⟨-, rfl⟩ | ⟨hih, hb⟩
    · exact ⟨index, hindex, hne, ha⟩
    · exact ⟨i, hi, hih, hb⟩
  · rintro ⟨i, hi, hih, hb⟩
    by_cases hii : i = index
    · subst hii
      cases hb.symm.trans ha
      exact ⟨hole, hhole, Ne.symm hne, update_self _ _ _⟩
    · exact ⟨i, hi, hii, by rw [update_of_ne hih]; exact hb⟩

/-- **The next entry is pulled back** into the hole, and its slot is the new hole. -/
theorem Hole.move (h : Hole n bound key home T hole gap)
    (ha : T ((hole + (gap + 1)) % n) = some a)
    (hfar : gap + 1 ≤ disp n key home a ((hole + (gap + 1)) % n)) :
    Hole n bound key home (update T hole (some a)) ((hole + (gap + 1)) % n) 0 ∧
      ∀ b, StoredBut n (update T hole (some a)) ((hole + (gap + 1)) % n) b ↔
        StoredBut n T hole b := by
  have hindex : (hole + (gap + 1)) % n < n := Nat.mod_lt _ (Nat.zero_lt_of_lt h.lt)
  have hne := next_ne_hole h.lt (hfar.trans_lt (disp_lt hh a _))
  have hback := disp_hole_add hh h.lt hfar
  exact ⟨h.pull hindex hne ha (by omega), fun b => storedBut_pull h.lt hindex hne ha⟩

omit hh in
/-- Once no entry's way leads over the hole it can be emptied. -/
theorem Hole.close (h : Hole n bound key home T hole gap)
    (hfree : ∀ i < n, i ≠ hole → ∀ a, T i = some a → ∀ d < disp n key home a i,
      (home (key a) + d) % n ≠ hole) :
    Layout n bound key home (update T hole none) ∧
      ∀ a, Stored n (update T hole none) a ↔ StoredBut n T hole a := by
  have hold : ∀ i a, update T hole none i = some a → i ≠ hole ∧ T i = some a := by
    intro i a ha
    by_cases hi : i = hole
    · rw [hi, update_self] at ha
      cases ha
    · rw [update_of_ne hi] at ha
      exact ⟨hi, ha⟩
  refine ⟨⟨fun i hi a ha => ?_, fun i hi a ha d hd => ?_, fun i hi j hj a b ha hb => ?_⟩,
    fun a => ⟨?_, ?_⟩⟩
  · obtain ⟨hne, ha⟩ := hold i a ha
    exact h.near i hi hne a ha
  · obtain ⟨hne, ha⟩ := hold i a ha
    have hnot := hfree i hi hne a ha d hd
    rw [update_of_ne hnot]
    exact h.reach i hi hne a ha d hd hnot
  · obtain ⟨hne, ha⟩ := hold i a ha
    obtain ⟨hne', hb⟩ := hold j b hb
    exact h.distinct i hi hne j hj hne' a b ha hb
  · rintro ⟨i, hi, ha⟩
    obtain ⟨hne, ha⟩ := hold i a ha
    exact ⟨i, hi, hne, ha⟩
  · rintro ⟨i, hi, hne, ha⟩
    exact ⟨i, hi, by rw [update_of_ne hne]; exact ha⟩

/-- The next slot is empty: no entry behind it can have come over the hole. -/
theorem Hole.close_empty (h : Hole n bound key home T hole gap)
    (hempty : T ((hole + (gap + 1)) % n) = none) :
    Layout n bound key home (update T hole none) ∧
      ∀ a, Stored n (update T hole none) a ↔ StoredBut n T hole a := by
  refine h.close fun i hi hne a ha d hd hover => ?_
  have hpast := h.past i hi hne a ha d hd hover
  have hsum := dist_le_disp hh hi hd hover
  have hlt : dist n hole i < n := dist_lt h.lt
  rcases Nat.lt_or_ge (gap + 1) (dist n hole i) with hbefore | hat
  · -- the empty slot is on the way
    have hslot : (home (key a) + (d + (gap + 1))) % n = (hole + (gap + 1)) % n := by
      rw [← Nat.add_assoc, ← Nat.mod_add_mod, hover]
    have hnot : (hole + (gap + 1)) % n ≠ hole := fun heq => by
      have hdist := dist_add_mod (k := gap + 1) h.lt
      rw [heq, dist_self h.lt, Nat.mod_eq_of_lt (by omega)] at hdist
      omega
    have hreach := h.reach i hi hne a ha (d + (gap + 1)) (by omega)
    rw [hslot] at hreach
    exact hreach hnot hempty
  · have heq : dist n hole i = gap + 1 := by omega
    rw [← heq, add_dist h.lt hi, ha] at hempty
    cases hempty

/-- All slots that an entry over the hole could be in have been looked at. -/
theorem Hole.close_bound (h : Hole n bound key home T hole gap) (hgap : bound ≤ gap) :
    Layout n bound key home (update T hole none) ∧
      ∀ a, Stored n (update T hole none) a ↔ StoredBut n T hole a := by
  refine h.close fun i hi hne a ha d hd hover => ?_
  have hpast := h.past i hi hne a ha d hd hover
  have hnear := h.near i hi hne a ha
  have hsum := dist_le_disp hh hi hd hover
  omega

end

/-! ## The number of moves -/

variable (n key home) in
/-- The distances of all entries outside the hole from their homes. -/
def shift (T : ℕ → Option α) (hole : ℕ) : ℕ :=
  ∑ i ∈ Finset.range n, if i = hole then 0 else (T i).elim 0 fun a => disp n key home a i

theorem Hole.shift_le {hole gap : ℕ} (h : Hole n bound key home T hole gap) :
    shift n key home T hole ≤ n * bound := by
  refine Slots.sum_le_mul fun i hi => ?_
  split_ifs with hne
  · exact Nat.zero_le _
  · cases ha : T i with
    | none => exact Nat.zero_le _
    | some a => exact (h.near i hi hne a ha).le

variable (key home) in
/-- A move takes from the sum what the entry is pulled back. -/
theorem shift_move {hole index : ℕ} (hhole : hole < n) (hindex : index < n) (hne : index ≠ hole)
    (ha : T index = some a) :
    shift n key home (update T hole (some a)) index + disp n key home a index =
      shift n key home T hole + disp n key home a hole := by
  have h1 := Slots.sum_change (f := fun i => if i = index then 0 else
      (update T hole (some a) i).elim 0 fun a => disp n key home a i)
    (g := fun i => if i = index ∨ i = hole then 0 else (T i).elim 0 fun a => disp n key home a i)
    hhole fun i _ hi => by
      rw [update_of_ne hi]
      simp [hi]
  have h2 := Slots.sum_change (f := fun i => if i = hole then 0 else
      (T i).elim 0 fun a => disp n key home a i)
    (g := fun i => if i = index ∨ i = hole then 0 else (T i).elim 0 fun a => disp n key home a i)
    hindex fun i _ hi => by simp [hi]
  simp only [hne, Ne.symm hne, if_true, if_false, or_true, true_or, update_self, Option.elim_some,
    ha] at h1 h2
  unfold shift
  omega

theorem Hole.shift_lt (hh : ∀ k, home k < n) {hole gap : ℕ} (h : Hole n bound key home T hole gap)
    (ha : T ((hole + (gap + 1)) % n) = some a)
    (hfar : gap + 1 ≤ disp n key home a ((hole + (gap + 1)) % n)) :
    shift n key home (update T hole (some a)) ((hole + (gap + 1)) % n) < shift n key home T hole := by
  have hindex : (hole + (gap + 1)) % n < n := Nat.mod_lt _ (Nat.zero_lt_of_lt h.lt)
  have hne := next_ne_hole h.lt (hfar.trans_lt (disp_lt hh a _))
  have hback := disp_hole_add hh h.lt hfar
  have hmove := shift_move key home h.lt hindex hne ha
  omega

end LinearProbe

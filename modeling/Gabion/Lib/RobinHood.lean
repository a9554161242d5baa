/-
  Robin Hood open addressing on a ring of `n` buckets, with backshift deletion.

  A table is a function from buckets to optional entries; `home a` is the bucket the
  entry `a` hashes to, and its probe distance is the forward distance from there.

  * `Layout` is the invariant: an entry away from its home has an occupied bucket
    before it, whose probe distance is at most one smaller.
  * `findLoop_sound`, `findLoop_complete`: probing from the home bucket and giving up
    at an empty bucket or at an entry closer to its home finds what is stored.
  * `InsertRun.spec`: insertion with swaps keeps the layout and adds one entry, and it ends as
    long as one bucket is empty (`insertLoop_runs`).
  * `ShiftRun.spec`: closing the hole left by an entry keeps the layout and the other entries.
    The shift ends on every table with an empty bucket or an entry in its home bucket
    (`backshift_runs`), also on a full one.
-/
import Gabion.Lib.Circular

namespace RobinHood

open Circular Function

variable {α : Type} (n : ℕ) (home : α → ℕ)

/-- The probe distance of the entry `a` in bucket `i`. -/
def probe (a : α) (i : ℕ) : ℕ := dist n (home a) i

/-! ## The loops -/

/-- Probe from bucket `i` at distance `k`: stop at an empty bucket, at an entry
    closer to its home than `k`, or after `fuel` buckets. -/
def findLoop (T : ℕ → Option α) (p : α → Bool) : ℕ → ℕ → ℕ → Option (ℕ × α)
  | 0, _, _ => none
  | fuel + 1, i, k =>
    match T i with
    | none => none
    | some a =>
      if probe n home a i < k then none
      else if p a then some (i, a)
      else findLoop T p fuel ((i + 1) % n) (k + 1)

/-- Insert `cur`, probing from bucket `i` at distance `k`: take the first empty
    bucket, and steal a bucket from an entry closer to its home. -/
def insertLoop : ℕ → (ℕ → Option α) → ℕ → α → ℕ → ℕ → Option α
  | 0, T, _, _, _ => T
  | fuel + 1, T, i, cur, k =>
    match T i with
    | none => update T i (some cur)
    | some a =>
      if probe n home a i < k then
        insertLoop fuel (update T i (some cur)) ((i + 1) % n) a (probe n home a i + 1)
      else insertLoop fuel T ((i + 1) % n) cur (k + 1)

/-- Close the hole in bucket `i`: move the following entries back by one until an
    empty bucket or an entry in its home bucket. -/
def backshift : ℕ → (ℕ → Option α) → ℕ → ℕ → Option α
  | 0, T, _ => T
  | fuel + 1, T, i =>
    match T ((i + 1) % n) with
    | none => update T i none
    | some a =>
      if probe n home a ((i + 1) % n) = 0 then update T i none
      else backshift fuel (update T i (some a)) ((i + 1) % n)

/-! ## The layout -/

/-- The entry `a` is stored. -/
def Stored (T : ℕ → Option α) (a : α) : Prop := ∃ i < n, T i = some a

/-- The number of occupied buckets. -/
def occupied (T : ℕ → Option α) : ℕ := ((Finset.range n).filter fun i => (T i).isSome).card

/-- Bucket `j = i + 1` is consistent with bucket `i`: if it holds an entry away from
    its home, bucket `i` holds an entry with a probe distance at most one smaller. -/
def Ordered (T : ℕ → Option α) (i : ℕ) : Prop :=
  ∀ a, T ((i + 1) % n) = some a → 0 < probe n home a ((i + 1) % n) →
    ∃ b, T i = some b ∧ probe n home a ((i + 1) % n) ≤ probe n home b i + 1

/-- **The Robin Hood layout.** -/
structure Layout (T : ℕ → Option α) : Prop where
  ordered : ∀ i < n, Ordered n home T i
  distinct : ∀ i < n, ∀ j < n, ∀ a, T i = some a → T j = some a → i = j

variable {n home} {T : ℕ → Option α}

theorem layout_empty : Layout n home (fun _ => none) :=
  ⟨fun _ _ _ h => by simp at h, fun _ _ _ _ _ h => by simp at h⟩

theorem occupied_empty : occupied n (fun _ => (none : Option α)) = 0 := by simp [occupied]

theorem occupied_pos {i : ℕ} (hi : i < n) {a : α} (h : T i = some a) : 0 < occupied n T :=
  Finset.card_pos.2 ⟨i, by simp [hi, h]⟩

theorem exists_empty (h : occupied n T < n) : ∃ e < n, T e = none := by
  by_contra hc
  push Not at hc
  have : occupied n T = n := by
    rw [occupied, Finset.filter_true_of_mem, Finset.card_range]
    intro i hi
    exact Option.isSome_iff_ne_none.2 (hc i (Finset.mem_range.1 hi))
  omega

section
variable (hh : ∀ a, home a < n)
include hh

theorem probe_lt (a : α) (i : ℕ) : probe n home a i < n := dist_lt (hh a)

theorem probe_succ {a : α} {i : ℕ} (hi : i < n) (h : 0 < probe n home a ((i + 1) % n)) :
    probe n home a ((i + 1) % n) = probe n home a i + 1 :=
  dist_succ_of_ne (hh a) hi h

/-- Going back from an entry, the buckets up to its home are occupied, by entries at
    least as far from their homes as the search is. -/
theorem Layout.reach (hT : Layout n home T) {j : ℕ} (hj : j < n) {a : α} (ha : T j = some a) :
    ∀ m ≤ probe n home a j, ∃ b, T ((home a + m) % n) = some b ∧
      m ≤ probe n home b ((home a + m) % n) := by
  have hd := probe_lt hh a j
  -- induction on the number of steps back from `j`
  have key : ∀ s ≤ probe n home a j, ∃ b, T ((home a + (probe n home a j - s)) % n) = some b ∧
      probe n home a j - s ≤ probe n home b ((home a + (probe n home a j - s)) % n) := by
    intro s
    induction s with
    | zero =>
      intro _
      have : (home a + probe n home a j) % n = j := add_dist (hh a) hj
      exact ⟨a, by simpa [this] using ha, by simp [this]⟩
    | succ s ih =>
      intro hs
      obtain ⟨b, hb, hle⟩ := ih (by omega)
      set i := (home a + (probe n home a j - (s + 1))) % n with hi
      have hin : i < n := Nat.mod_lt _ (by omega)
      have hsucc : (i + 1) % n = (home a + (probe n home a j - s)) % n := by
        rw [hi, add_succ_mod]; congr 2; omega
      rw [← hsucc] at hb hle
      obtain ⟨c, hc, hle'⟩ := hT.ordered i hin b hb (by omega)
      exact ⟨c, hc, by omega⟩
  intro m hm
  obtain ⟨b, hb, hle⟩ := key (probe n home a j - m) (by omega)
  rw [show probe n home a j - (probe n home a j - m) = m by omega] at hb hle
  exact ⟨b, hb, hle⟩

end

/-! ## Searching -/

theorem findLoop_sound {p : α → Bool} {i' : ℕ} {a : α} :
    ∀ fuel i k, i < n → findLoop n home T p fuel i k = some (i', a) →
      i' < n ∧ T i' = some a ∧ p a = true
  | 0, _, _, _, h => by simp [findLoop] at h
  | fuel + 1, i, k, hi, h => by
    unfold findLoop at h
    split at h
    · cases h
    · rename_i b hb
      split_ifs at h with h1 h2
      · cases h; exact ⟨hi, hb, h2⟩
      · exact findLoop_sound fuel _ _ (succ_lt hi) h

/-- **Probing from its home finds a stored entry** (or an earlier one that also
    satisfies the predicate). -/
theorem findLoop_complete (hh : ∀ a, home a < n) (hT : Layout n home T) {p : α → Bool} {j : ℕ}
    (hj : j < n) {a : α} (ha : T j = some a) (hp : p a = true) :
    ∀ fuel k, k ≤ probe n home a j → probe n home a j < k + fuel →
      (findLoop n home T p fuel ((home a + k) % n) k).isSome
  | 0, k, hk, hf => by omega
  | fuel + 1, k, hk, hf => by
    obtain ⟨b, hb, hle⟩ := hT.reach hh hj ha k hk
    unfold findLoop
    simp only [hb, show ¬ probe n home b ((home a + k) % n) < k by omega, if_false]
    split_ifs with hpb
    · rfl
    · have hne : k ≠ probe n home a j := by
        rintro rfl
        have : (home a + probe n home a j) % n = j := add_dist (hh a) hj
        rw [this, ha] at hb; cases hb; exact hpb hp
      rw [add_succ_mod]
      exact findLoop_complete hh hT hj ha hp fuel (k + 1) (by omega) (by omega)

/-! ## Insertion -/

theorem occupied_update_some {i : ℕ} {a b : α} (h : T i = some b) :
    occupied n (update T i (some a)) = occupied n T := by
  unfold occupied; congr 1; ext j
  by_cases hj : j = i
  · subst hj; simp [h]
  · simp [update_of_ne hj]

theorem occupied_update_none {i : ℕ} (hi : i < n) {a : α} (h : T i = none) :
    occupied n (update T i (some a)) = occupied n T + 1 := by
  unfold occupied
  rw [← Finset.card_insert_of_notMem (s := (Finset.range n).filter fun j => (T j).isSome) (a := i)
    (by simp [h])]
  congr 1; ext j
  by_cases hj : j = i
  · subst hj; simp [hi]
  · simp [hj]

theorem occupied_clear {i : ℕ} (hi : i < n) {a : α} (h : T i = some a) :
    occupied n (update T i none) + 1 = occupied n T := by
  have h1 := occupied_update_none (T := update T i none) hi (a := a) (by simp)
  rw [update_idem, ← h, update_eq_self] at h1
  exact h1.symm

/-- The entry `cur` may be put into bucket `i` at distance `k`. -/
structure Fits (n : ℕ) (home : α → ℕ) (T : ℕ → Option α) (i : ℕ) (cur : α) (k : ℕ) : Prop where
  probe_eq : probe n home cur i = k
  before : ∀ j < n, (j + 1) % n = i → 0 < k → ∃ b, T j = some b ∧ k ≤ probe n home b j + 1

theorem fits_home (hh : ∀ a, home a < n) (cur : α) : Fits n home T (home cur) cur 0 :=
  ⟨dist_self (hh cur), fun _ _ _ h => absurd h (lt_irrefl 0)⟩

/-- While a bucket is empty, the distance of a fitting entry stays below `n - 1`. -/
theorem Fits.lt (hh : ∀ a, home a < n) (hT : Layout n home T) {i k : ℕ} {cur a : α} (hi : i < n)
    (hf : Fits n home T i cur k) (ha : T i = some a) {e : ℕ} (he : e < n) (hn : T e = none) :
    k + 1 < n := by
  have hk : k < n := hf.probe_eq ▸ probe_lt hh cur i
  by_contra hc
  rcases Nat.eq_zero_or_pos k with h0 | h0
  · have hei : e = i := by omega
    rw [hei, ha] at hn; cases hn
  · obtain ⟨j, hj, hji⟩ := exists_pred hi
    obtain ⟨b, hb, hle⟩ := hf.before j hj hji h0
    have hbl := probe_lt hh b j
    have hne : e ≠ i := fun h => by rw [h, ha] at hn; cases hn
    -- `e` is one of the buckets between the home of `b` and `j`
    have hde : dist n (home b) e ≤ probe n home b j := by
      unfold probe at hle hbl ⊢
      rw [dist_eq (hh b) he]
      rw [dist_eq (hh b) hj] at hle hbl ⊢
      rw [succ_eq hj] at hji
      split_ifs at * <;> omega
    obtain ⟨c, hc', -⟩ := hT.reach hh hj hb _ hde
    rw [add_dist (hh b) he, hn] at hc'; cases hc'

theorem Fits.next (hh : ∀ a, home a < n) (hT : Layout n home T) {i k : ℕ} {cur a : α} (hi : i < n)
    (hf : Fits n home T i cur k) (ha : T i = some a) (hka : k ≤ probe n home a i)
    {e : ℕ} (he : e < n) (hn : T e = none) : Fits n home T ((i + 1) % n) cur (k + 1) := by
  have hlt := hf.lt hh hT hi ha he hn
  refine ⟨?_, fun j hj hji _ => ?_⟩
  · have hp : probe n home cur i + 1 < n := by rw [hf.probe_eq]; exact hlt
    exact (dist_succ (hh cur) hi hp).trans (congrArg (· + 1) hf.probe_eq)
  · rw [succ_inj hj hi hji]; exact ⟨a, ha, by omega⟩

/-- Placing a fitting entry keeps the bucket order, provided the next bucket is
    consistent with it. -/
theorem Fits.ordered (hT : Layout n home T) {i k : ℕ} {cur : α} (hi : i < n)
    (hf : Fits n home T i cur k)
    (hnext : ∀ a, T ((i + 1) % n) = some a → 0 < probe n home a ((i + 1) % n) →
      probe n home a ((i + 1) % n) ≤ k + 1) :
    ∀ j < n, Ordered n home (update T i (some cur)) j := by
  intro j hj a ha hpos
  by_cases hji : (j + 1) % n = i
  · rw [hji, update_self] at ha; cases ha
    rw [hji, hf.probe_eq] at hpos ⊢
    obtain ⟨b, hb, hle⟩ := hf.before j hj hji hpos
    by_cases h : j = i
    · subst h
      refine ⟨cur, update_self .., ?_⟩
      have := hf.probe_eq; omega
    · exact ⟨b, by rwa [update_of_ne h], hle⟩
  · rw [update_of_ne hji] at ha
    by_cases h : j = i
    · subst h
      exact ⟨cur, update_self .., by rw [hf.probe_eq]; exact hnext a ha hpos⟩
    · obtain ⟨b, hb, hle⟩ := hT.ordered j hj a ha hpos
      exact ⟨b, by rwa [update_of_ne h], hle⟩

/-- Placing an entry that is not stored keeps the entries distinct. -/
theorem distinct_place (hT : Layout n home T) {i : ℕ} {cur : α} (hnew : ¬ Stored n T cur) :
    ∀ j < n, ∀ l < n, ∀ a, update T i (some cur) j = some a →
      update T i (some cur) l = some a → j = l := by
  intro j hj l hl a h1 h2
  by_cases hji : j = i <;> by_cases hli : l = i
  · rw [hji, hli]
  · rw [hji, update_self] at h1; cases h1
    rw [update_of_ne hli] at h2; exact absurd ⟨l, hl, h2⟩ hnew
  · rw [hli, update_self] at h2; cases h2
    rw [update_of_ne hji] at h1; exact absurd ⟨j, hj, h1⟩ hnew
  · rw [update_of_ne hji] at h1; rw [update_of_ne hli] at h2
    exact hT.distinct j hj l hl a h1 h2

/-- Stealing the bucket of an entry `a` closer to its home than `cur`. -/
theorem Fits.steal (hh : ∀ a, home a < n) (hT : Layout n home T) {i k : ℕ} {cur a : α} (hi : i < n)
    (hf : Fits n home T i cur k) (ha : T i = some a) (hka : probe n home a i < k)
    (hnew : ¬ Stored n T cur) :
    Layout n home (update T i (some cur)) ∧ ¬ Stored n (update T i (some cur)) a ∧
      Fits n home (update T i (some cur)) ((i + 1) % n) a (probe n home a i + 1) := by
  have hacur : a ≠ cur := fun h => hnew ⟨i, hi, h ▸ ha⟩
  refine ⟨⟨hf.ordered hT hi fun b hb hpos => ?_, distinct_place hT hnew⟩, ?_, ?_, ?_⟩
  · obtain ⟨c, hc, hle⟩ := hT.ordered i hi b hb hpos
    rw [ha] at hc; cases hc; omega
  · rintro ⟨j, hj, h⟩
    by_cases hji : j = i
    · rw [hji, update_self] at h; cases h; exact hacur rfl
    · rw [update_of_ne hji] at h; exact hji (hT.distinct j hj i hi a h ha)
  · have hk := probe_lt hh cur i
    rw [hf.probe_eq] at hk
    exact dist_succ (hh a) hi (show probe n home a i + 1 < n by omega)
  · intro j hj hji _
    rw [succ_inj hj hi hji]
    exact ⟨cur, update_self .., by rw [hf.probe_eq]; omega⟩

/-- Filling the empty bucket the probe reached. -/
theorem Fits.fill (hT : Layout n home T) {i k : ℕ} {cur : α} (hi : i < n)
    (hf : Fits n home T i cur k) (hn : T i = none) (hnew : ¬ Stored n T cur) :
    Layout n home (update T i (some cur)) := by
  refine ⟨hf.ordered hT hi fun b hb hpos => ?_, distinct_place hT hnew⟩
  obtain ⟨c, hc, -⟩ := hT.ordered i hi b hb hpos
  rw [hn] at hc; cases hc

theorem stored_fill {i : ℕ} (hi : i < n) {cur : α} (hn : T i = none) (a : α) :
    Stored n (update T i (some cur)) a ↔ Stored n T a ∨ a = cur := by
  constructor
  · rintro ⟨j, hj, h⟩
    by_cases hji : j = i
    · rw [hji, update_self] at h; exact Or.inr (Option.some.inj h).symm
    · rw [update_of_ne hji] at h; exact Or.inl ⟨j, hj, h⟩
  · rintro (⟨j, hj, h⟩ | rfl)
    · refine ⟨j, hj, ?_⟩
      rwa [update_of_ne fun hji => by rw [hji, hn] at h; cases h]
    · exact ⟨i, hi, update_self ..⟩

theorem stored_steal {i : ℕ} (hi : i < n) {cur a : α} (ha : T i = some a) (b : α) :
    Stored n (update T i (some cur)) b ∨ b = a ↔ Stored n T b ∨ b = cur := by
  constructor
  · rintro (⟨j, hj, h⟩ | rfl)
    · by_cases hji : j = i
      · rw [hji, update_self] at h; exact Or.inr (Option.some.inj h).symm
      · rw [update_of_ne hji] at h; exact Or.inl ⟨j, hj, h⟩
    · exact Or.inl ⟨i, hi, ha⟩
  · rintro (⟨j, hj, h⟩ | rfl)
    · by_cases hji : j = i
      · rw [hji, ha] at h; exact Or.inr (Option.some.inj h).symm
      · exact Or.inl ⟨j, hj, by rwa [update_of_ne hji]⟩
    · exact Or.inl ⟨i, hi, update_self ..⟩

/-- An execution of the insertion loop: it puts `cur` into the table from bucket `i` at
    distance `k` on and ends with the table `T'`.  A loop that goes on forever has none. -/
inductive InsertRun (n : ℕ) (home : α → ℕ) :
    (ℕ → Option α) → ℕ → α → ℕ → (ℕ → Option α) → Prop
  | fill {T : ℕ → Option α} {i : ℕ} {cur : α} {k : ℕ} (h : T i = none) :
      InsertRun n home T i cur k (update T i (some cur))
  | steal {T T' : ℕ → Option α} {i : ℕ} {cur a : α} {k : ℕ} (h : T i = some a)
      (hlt : probe n home a i < k)
      (rest : InsertRun n home (update T i (some cur)) ((i + 1) % n) a (probe n home a i + 1) T') :
      InsertRun n home T i cur k T'
  | next {T T' : ℕ → Option α} {i : ℕ} {cur a : α} {k : ℕ} (h : T i = some a)
      (hge : ¬ probe n home a i < k) (rest : InsertRun n home T ((i + 1) % n) cur (k + 1) T') :
      InsertRun n home T i cur k T'

/-- **The insertion loop ends** when an empty bucket lies within reach of the fuel. -/
theorem insertLoop_runs : ∀ fuel (T : ℕ → Option α) i cur k, i < n →
    (∃ e < n, T e = none ∧ dist n i e < fuel) →
    InsertRun n home T i cur k (insertLoop n home fuel T i cur k)
  | 0, _, _, _, _, _, ⟨_, _, _, h⟩ => absurd h (Nat.not_lt_zero _)
  | fuel + 1, T, i, cur, k, hi, ⟨e, he, hne, hde⟩ => by
    unfold insertLoop
    cases ha : T i with
    | none => exact .fill ha
    | some a =>
      have hie : i ≠ e := fun h => by rw [← h, ha] at hne; cases hne
      have hde' := dist_succ_left hi he hie
      simp only
      split_ifs with hka
      · exact .steal ha hka (insertLoop_runs fuel _ _ a _ (succ_lt hi)
          ⟨e, he, by rwa [update_of_ne hie.symm], by omega⟩)
      · exact .next ha hka (insertLoop_runs fuel T _ cur _ (succ_lt hi) ⟨e, he, hne, by omega⟩)

/-- The shift stops before bucket `z`: it is empty, or its entry is at home. -/
def Stops (n : ℕ) (home : α → ℕ) (T : ℕ → Option α) (z : ℕ) : Prop :=
  ∀ a, T z = some a → probe n home a z = 0

theorem stops_of_none {z : ℕ} (h : T z = none) : Stops n home T z := fun a ha => by
  rw [h] at ha; cases ha

/-- Behind an empty bucket the shift stops. -/
theorem Layout.stops_succ (hT : Layout n home T) {i : ℕ} (hi : i < n) (hn : T i = none) :
    Stops n home T ((i + 1) % n) := by
  intro a ha
  by_contra hpos
  obtain ⟨b, hb, -⟩ := hT.ordered i hi a ha (Nat.pos_of_ne_zero hpos)
  rw [hn] at hb; cases hb

/-- Also the table with its last bucket filled has an entry at home. -/
theorem Layout.stops_fill (hh : ∀ a, home a < n) (hT : Layout n home T) {i : ℕ} (hi : i < n)
    (hn : T i = none) (cur : α) :
    ∃ z < n, Stops n home (update T i (some cur)) z := by
  by_cases hne : (i + 1) % n = i
  · -- a ring of one bucket
    have hn1 : n = 1 := by rw [succ_eq hi] at hne; split_ifs at hne <;> omega
    refine ⟨i, hi, fun a _ => ?_⟩
    have := probe_lt hh a i
    omega
  · refine ⟨(i + 1) % n, succ_lt hi, ?_⟩
    unfold Stops
    rw [update_of_ne hne]
    exact hT.stops_succ hi hn

/-- **Insertion** of an entry that is not stored keeps the layout and adds the entry; the shift
    stops somewhere on the new table, also when that is full. -/
theorem InsertRun.spec (hh : ∀ a, home a < n) {T T' : ℕ → Option α} {i k : ℕ} {cur : α}
    (h : InsertRun n home T i cur k T') (hT : Layout n home T) (hi : i < n)
    (hf : Fits n home T i cur k) (hnew : ¬ Stored n T cur) (he : ∃ e < n, T e = none) :
    Layout n home T' ∧ (∀ a, Stored n T' a ↔ Stored n T a ∨ a = cur) ∧
      occupied n T' = occupied n T + 1 ∧ ∃ z < n, Stops n home T' z := by
  induction h with
  | fill hn =>
    exact ⟨hf.fill hT hi hn hnew, stored_fill hi hn, occupied_update_none hi hn,
      hT.stops_fill hh hi hn _⟩
  | steal ha hka _ ih =>
    obtain ⟨hT', hnew', hf'⟩ := hf.steal hh hT hi ha hka hnew
    obtain ⟨e, he, hne⟩ := he
    obtain ⟨h1, h2, h3, h4⟩ := ih hT' (succ_lt hi) hf' hnew'
      ⟨e, he, by rwa [update_of_ne fun h => by rw [h, ha] at hne; cases hne]⟩
    refine ⟨h1, fun b => (h2 b).trans (stored_steal hi ha b), ?_, h4⟩
    rw [h3, occupied_update_some ha]
  | next ha hka _ ih =>
    obtain ⟨e, he, hne⟩ := he
    exact ih hT (succ_lt hi) (hf.next hh hT hi ha (not_lt.1 hka) he hne) hnew ⟨e, he, hne⟩

/-! ## Removal -/

/-- The layout with a hole in bucket `i`: the other buckets are consistent, and the
    entry after the hole may move into it. -/
structure Hole (n : ℕ) (home : α → ℕ) (T : ℕ → Option α) (i : ℕ) : Prop where
  ordered : ∀ j < n, j ≠ i → (j + 1) % n ≠ i → Ordered n home T j
  across : ∀ j < n, (j + 1) % n = i → ∀ a, T ((i + 1) % n) = some a →
    1 < probe n home a ((i + 1) % n) →
    ∃ b, T j = some b ∧ probe n home a ((i + 1) % n) ≤ probe n home b j + 2
  distinct : ∀ j < n, ∀ l < n, ∀ a, j ≠ i → l ≠ i → T j = some a → T l = some a → j = l

/-- The entry `a` is stored outside bucket `i`. -/
def StoredOff (n : ℕ) (T : ℕ → Option α) (i : ℕ) (a : α) : Prop := ∃ j < n, j ≠ i ∧ T j = some a

theorem Layout.hole (hT : Layout n home T) {i : ℕ} (hi : i < n) {r : α} (hr : T i = some r) :
    Hole n home T i := by
  refine ⟨fun j hj _ _ => hT.ordered j hj, fun j hj hji a ha h1 => ?_,
    fun j hj l hl a _ _ => hT.distinct j hj l hl a⟩
  obtain ⟨b, hb, hle⟩ := hT.ordered i hi a ha (by omega)
  rw [hr] at hb; cases hb
  obtain ⟨c, hc, hle'⟩ := hT.ordered j hj r (by rwa [hji]) (by rw [hji]; omega)
  rw [hji] at hle'
  exact ⟨c, hc, by omega⟩

/-- Clearing the hole when the shift stops. -/
theorem Hole.clear {i : ℕ} (hi : i < n) (hT : Hole n home T i)
    (hs : Stops n home T ((i + 1) % n)) : Layout n home (update T i none) := by
  refine ⟨fun j hj a ha hpos => ?_, fun j hj l hl a h1 h2 => ?_⟩
  · have hji : (j + 1) % n ≠ i := fun h => by rw [h, update_self] at ha; cases ha
    rw [update_of_ne hji] at ha
    have hne : j ≠ i := by
      rintro rfl
      have := hs a ha; omega
    obtain ⟨b, hb, hle⟩ := hT.ordered j hj hne hji a ha hpos
    exact ⟨b, by rwa [update_of_ne hne], hle⟩
  · have hji : j ≠ i := fun h => by rw [h, update_self] at h1; cases h1
    have hli : l ≠ i := fun h => by rw [h, update_self] at h2; cases h2
    rw [update_of_ne hji] at h1; rw [update_of_ne hli] at h2
    exact hT.distinct j hj l hl a hji hli h1 h2

/-- The entry after the hole is not the hole itself when it can move. -/
theorem succ_ne_of_probe_pos (hh : ∀ a, home a < n) {i : ℕ} (hi : i < n) {a : α}
    (hpos : 0 < probe n home a ((i + 1) % n)) : (i + 1) % n ≠ i := by
  intro h
  have : n = 1 := by rw [succ_eq hi] at h; split_ifs at h <;> omega
  have := probe_lt hh a ((i + 1) % n)
  omega

/-- Moving the entry after the hole into it moves the hole forward. -/
theorem Hole.shift (hh : ∀ a, home a < n) {i : ℕ} (hi : i < n) (hT : Hole n home T i) {a : α}
    (ha : T ((i + 1) % n) = some a) (hpos : 0 < probe n home a ((i + 1) % n)) :
    Hole n home (update T i (some a)) ((i + 1) % n) := by
  have hj := succ_lt hi
  have hne := succ_ne_of_probe_pos hh hi hpos
  have hstep : probe n home a ((i + 1) % n) = probe n home a i + 1 := probe_succ hh hi hpos
  refine ⟨fun j hj' hjh hsh b hb hbpos => ?_, fun j hj' hji b hb h1 => ?_,
    fun j hj' l hl b hjh hlh h1 h2 => ?_⟩
  · -- the pair before the old hole is the entry moved into it
    by_cases hji : (j + 1) % n = i
    · rw [hji, update_self] at hb; cases hb
      rw [hji] at hbpos ⊢
      obtain ⟨c, hc, hle⟩ := hT.across j hj' hji a ha (by omega)
      exact ⟨c, by rwa [update_of_ne (fun h => by
        rw [h] at hji; exact hne hji)], by omega⟩
    · have hjn : j ≠ i := fun h => hsh (by rw [h])
      rw [update_of_ne hji] at hb
      obtain ⟨c, hc, hle⟩ := hT.ordered j hj' hjn hji b hb hbpos
      exact ⟨c, by rwa [update_of_ne hjn], hle⟩
  · have hj2 : j = i := succ_inj hj' hi hji
    subst hj2
    refine ⟨a, update_self .., ?_⟩
    by_cases h : ((j + 1) % n + 1) % n = j
    · rw [h, update_self] at hb; cases hb
      rw [h] at h1 ⊢; omega
    · rw [update_of_ne h] at hb
      obtain ⟨c, hc, hle⟩ := hT.ordered _ hj hne h b hb (by omega)
      rw [ha] at hc; cases hc; omega
  · have hl' : ∀ m < n, m ≠ (i + 1) % n → update T i (some a) m = some b →
        (m = i ∧ b = a) ∨ (m ≠ i ∧ T m = some b) := by
      intro m _ _ h
      by_cases hmi : m = i
      · rw [hmi, update_self] at h; exact Or.inl ⟨hmi, (Option.some.inj h).symm⟩
      · rw [update_of_ne hmi] at h; exact Or.inr ⟨hmi, h⟩
    rcases hl' j hj' hjh h1 with ⟨hji, hb⟩ | ⟨hji, h3⟩ <;>
      rcases hl' l hl hlh h2 with ⟨hli, hb'⟩ | ⟨hli, h4⟩
    · rw [hji, hli]
    · rw [hb] at h4; exact absurd (hT.distinct l hl _ hj a hli hne h4 ha) hlh
    · rw [hb'] at h3; exact absurd (hT.distinct j hj' _ hj a hji hne h3 ha) hjh
    · exact hT.distinct j hj' l hl b hji hli h3 h4

theorem storedOff_shift {i : ℕ} (hi : i < n) {a : α} (ha : T ((i + 1) % n) = some a)
    (hne : (i + 1) % n ≠ i) (b : α) :
    StoredOff n (update T i (some a)) ((i + 1) % n) b ↔ StoredOff n T i b := by
  constructor
  · rintro ⟨j, hj, hjh, h⟩
    by_cases hji : j = i
    · rw [hji, update_self] at h; cases h; exact ⟨_, succ_lt hi, hne, ha⟩
    · rw [update_of_ne hji] at h; exact ⟨j, hj, hji, h⟩
  · rintro ⟨j, hj, hji, h⟩
    by_cases hjh : j = (i + 1) % n
    · rw [hjh, ha] at h; cases h; exact ⟨i, hi, hne.symm, update_self ..⟩
    · exact ⟨j, hj, hjh, by rwa [update_of_ne hji]⟩

/-- An execution of the shift: it closes the hole in bucket `i` and ends with the table `T'`. -/
inductive ShiftRun (n : ℕ) (home : α → ℕ) : (ℕ → Option α) → ℕ → (ℕ → Option α) → Prop
  | stop {T : ℕ → Option α} {i : ℕ} (h : Stops n home T ((i + 1) % n)) :
      ShiftRun n home T i (update T i none)
  | move {T T' : ℕ → Option α} {i : ℕ} {a : α} (h : T ((i + 1) % n) = some a)
      (hpos : 0 < probe n home a ((i + 1) % n))
      (rest : ShiftRun n home (update T i (some a)) ((i + 1) % n) T') : ShiftRun n home T i T'

/-- One round of the loop. -/
theorem backshift_succ_runs {fuel i : ℕ}
    (h : ∀ a, T ((i + 1) % n) = some a → 0 < probe n home a ((i + 1) % n) →
      ShiftRun n home (update T i (some a)) ((i + 1) % n)
        (backshift n home fuel (update T i (some a)) ((i + 1) % n))) :
    ShiftRun n home T i (backshift n home (fuel + 1) T i) := by
  unfold backshift
  cases ha : T ((i + 1) % n) with
  | none => exact .stop (stops_of_none ha)
  | some a =>
    simp only
    split_ifs with h0
    · exact .stop fun b hb => by rw [ha] at hb; cases hb; exact h0
    · exact .move ha (Nat.pos_of_ne_zero h0) (h a ha (Nat.pos_of_ne_zero h0))

/-- The shift ends at a bucket other than the hole that stops it. -/
theorem backshift_runs_to (hh : ∀ a, home a < n) : ∀ fuel (T : ℕ → Option α) i, i < n →
    (∃ z < n, z ≠ i ∧ Stops n home T z ∧ dist n i z ≤ fuel) →
    ShiftRun n home T i (backshift n home fuel T i)
  | 0, _, i, hi, ⟨z, hz, hzi, _, h⟩ =>
    absurd (eq_of_dist_zero hi hz (Nat.le_zero.1 h)) hzi.symm
  | fuel + 1, T, i, hi, ⟨z, hz, hzi, hs, hd⟩ => by
    have hd' := dist_succ_left hi hz hzi.symm
    refine backshift_succ_runs fun a ha hpos => ?_
    -- the shift has not stopped, so `z` lies beyond the next bucket
    have hzn : z ≠ (i + 1) % n := fun h => by
      have := hs a (by rwa [h])
      rw [h] at this; omega
    exact backshift_runs_to hh fuel _ _ (succ_lt hi)
      ⟨z, hz, hzn, by unfold Stops; rwa [update_of_ne hzi], by omega⟩

/-- **The shift ends** within `n` rounds if some bucket stops it.  That may be the one that is
    cleared: the entry after it then moves into its home bucket, and the shift stops there once
    it has gone round the ring. -/
theorem backshift_runs (hh : ∀ a, home a < n) (hT : Layout n home T) {i : ℕ} (hi : i < n) {r : α}
    (hr : T i = some r) (hz : ∃ z < n, Stops n home T z) :
    ShiftRun n home T i (backshift n home n T i) := by
  obtain ⟨z, hz, hs⟩ := hz
  by_cases hzi : z = i
  · subst hzi
    obtain ⟨m, rfl⟩ : ∃ m, n = m + 1 := ⟨n - 1, by omega⟩
    refine backshift_succ_runs fun a ha hpos => ?_
    have hne := succ_ne_of_probe_pos hh hi hpos
    -- the entry after the hole is one step from its home
    obtain ⟨b, hb, hle⟩ := hT.ordered z hi a ha hpos
    rw [hr] at hb; cases hb
    have hstep := probe_succ hh hi hpos
    have h0 := hs r hr
    refine backshift_runs_to hh m _ _ (succ_lt hi) ⟨z, hz, hne.symm, fun b hb => ?_, ?_⟩
    · rw [update_self] at hb; cases hb
      omega
    · exact Nat.le_of_lt_succ (dist_lt (succ_lt hi))
  · exact backshift_runs_to hh n T i hi ⟨z, hz, hzi, hs, (dist_lt hi).le⟩

/-- **Closing a hole** keeps the entries outside it and restores the layout. -/
theorem ShiftRun.spec (hh : ∀ a, home a < n) {T T' : ℕ → Option α} {i : ℕ}
    (h : ShiftRun n home T i T') (hi : i < n) (hT : Hole n home T i) (hr : ∃ r, T i = some r) :
    Layout n home T' ∧ (∀ a, Stored n T' a ↔ StoredOff n T i a) ∧
      occupied n T' + 1 = occupied n T := by
  induction h with
  | @stop T i hs =>
    obtain ⟨r, hr⟩ := hr
    refine ⟨hT.clear hi hs, fun a => ⟨?_, ?_⟩, occupied_clear hi hr⟩
    · rintro ⟨j, hj, h⟩
      have hji : j ≠ i := fun hji => by rw [hji, update_self] at h; cases h
      exact ⟨j, hj, hji, by rwa [update_of_ne hji] at h⟩
    · rintro ⟨j, hj, hji, h⟩; exact ⟨j, hj, by rwa [update_of_ne hji]⟩
  | @move T T' i a ha hpos _ ih =>
    obtain ⟨r, hr⟩ := hr
    have hne := succ_ne_of_probe_pos hh hi hpos
    obtain ⟨h1, h2, h3⟩ := ih (succ_lt hi) (hT.shift hh hi ha hpos) ⟨a, by rwa [update_of_ne hne]⟩
    refine ⟨h1, fun b => (h2 b).trans (storedOff_shift hi ha hne b), ?_⟩
    rw [h3, occupied_update_some hr]

end RobinHood

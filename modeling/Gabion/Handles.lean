/-
  Handles and the lifetimes of a slot.

  A step leaves the generation of a slot alone or advances it by one (`step_generation`), and a
  slot is active when its generation is odd.  So along a run generations count lifetimes, two for
  each (`runSteps_generation`), and they come round after `2 ^ 31` of them.  Until then a handle
  resolves exactly while the cell it was obtained for stays active (`handle_resolves_iff`).
-/
import Gabion.History

namespace Gabion

namespace CellStore

variable {w : CountWidth} {pins : ℕ → Bool} {s s' : CellStore w} {x : ℕ} {steps : List (StoreStep w)}

/-! ## Generations of a run -/

theorem Change.generation {e : Option DirtyEntry} (h : Change s s' e) (x : ℕ) :
    s'.generations x = s.generations x ∨ s'.generations x = (s.generations x + 1) % 2 ^ 32 := by
  cases h with
  | still hs => exact .inl (congrFun hs.generations x)
  | announced y ha =>
    by_cases hxy : x = y
    · subst hxy
      rcases ha.lifetime with ⟨hgen, -⟩ | ⟨-, hgen⟩
      · exact .inl hgen
      · exact .inr hgen
    · exact .inl (ha.generations x hxy)
  | freed y hf =>
    rw [hf.generations]
    by_cases hxy : x = y
    · subst hxy
      exact .inr (Function.update_self ..)
    · exact .inl (Function.update_of_ne hxy ..)

/-- **A step begins a lifetime, ends one, or leaves the generation.** -/
theorem step_generation (h : s.toCellTable.Inv pins) (st : StoreStep w) (x : ℕ) :
    (s.step st).generations x = s.generations x ∨
      (s.step st).generations x = (s.generations x + 1) % 2 ^ 32 := by
  cases st with
  | clearDirty => exact .inl rfl
  | setFrontiers table => exact .inl rfl
  | _ => exact (step_change h _ (by simp) (by simp)).generation x

/-- How many lifetimes of slot `x` begin in a run. -/
def lifetimesBegun (s : CellStore w) : List (StoreStep w) → ℕ → ℕ
  | [], _ => 0
  | st :: steps, x =>
    (if s.isActive x = false ∧ (s.step st).isActive x = true then 1 else 0) +
      (s.step st).lifetimesBegun steps x

/-- Slot `x` is active before the run and after each of its steps. -/
def StaysActive (s : CellStore w) (steps : List (StoreStep w)) (x : ℕ) : Prop :=
  ∀ i ≤ steps.length, (s.runSteps (steps.take i)).isActive x = true

theorem staysActive_cons {st : StoreStep w} : s.StaysActive (st :: steps) x ↔
    s.isActive x = true ∧ (s.step st).StaysActive steps x := by
  constructor
  · intro h
    refine ⟨h 0 (Nat.zero_le _), fun i hi => ?_⟩
    have hnext := h (i + 1) (Nat.succ_le_succ hi)
    rwa [List.take_succ_cons] at hnext
  · rintro ⟨hx, h⟩ i hi
    cases i with
    | zero => exact hx
    | succ i =>
      rw [List.take_succ_cons]
      exact h i (Nat.le_of_succ_le_succ hi)

theorem StaysActive.last (h : s.StaysActive steps x) : (s.runSteps steps).isActive x = true := by
  have hlast := h steps.length le_rfl
  rwa [List.take_length] at hlast

/-- A slot that ends active has stayed so, unless a lifetime has begun. -/
theorem staysActive_iff : s.StaysActive steps x ↔
    (s.runSteps steps).isActive x = true ∧ s.lifetimesBegun steps x = 0 := by
  induction steps generalizing s with
  | nil => simp [StaysActive, lifetimesBegun, runSteps]
  | cons st steps ih =>
    rw [staysActive_cons, ih]
    have hrun : s.runSteps (st :: steps) = (s.step st).runSteps steps := rfl
    rw [hrun, lifetimesBegun]
    constructor
    · rintro ⟨hx, hlast, hbegun⟩
      exact ⟨hlast, by simp [hx, hbegun]⟩
    · rintro ⟨hlast, hbegun⟩
      have hrest : (s.step st).lifetimesBegun steps x = 0 := by omega
      have hnext := (ih.2 ⟨hlast, hrest⟩) 0 (Nat.zero_le _)
      have hnext : (s.step st).isActive x = true := hnext
      refine ⟨?_, hlast, hrest⟩
      by_contra hx
      rw [if_pos ⟨Bool.eq_false_iff.2 hx, hnext⟩] at hbegun
      omega

theorem isActive_false_iff (s : CellStore w) (x : ℕ) :
    s.isActive x = false ↔ s.generations x % 2 = 0 := by
  simp [CellTable.isActive]

/-- A generation, rounded up to the end of the lifetime, counts the lifetimes twice. -/
theorem runSteps_generation (h : s.toCellTable.Inv pins) (steps : List (StoreStep w)) (x : ℕ) :
    ((s.runSteps steps).generations x + (s.runSteps steps).generations x % 2) % 2 ^ 32 =
      (s.generations x + s.generations x % 2 + 2 * s.lifetimesBegun steps x) % 2 ^ 32 := by
  induction steps generalizing s pins with
  | nil => rfl
  | cons st steps ih =>
    have hrest := ih (step_spec h st).inv
    have hrun : s.runSteps (st :: steps) = (s.step st).runSteps steps := rfl
    rw [hrun, hrest, lifetimesBegun]
    simp only [isActive_false_iff, CellTable.isActive_eq]
    generalize (s.step st).lifetimesBegun steps x = begun
    rcases step_generation h st x with hgen | hgen
    · rw [hgen, if_neg (by omega), Nat.zero_add]
    · rw [hgen]
      split_ifs <;> omega

/-- **A cell keeps its generation, key and identity** as long as it stays active. -/
theorem StaysActive.keeps (h : s.toCellTable.Inv pins) (hstay : s.StaysActive steps x) :
    (s.runSteps steps).generations x = s.generations x ∧
      ((s.runSteps steps).cells x).key = (s.cells x).key ∧
      (s.runSteps steps).idOf x = s.idOf x := by
  induction steps generalizing s pins with
  | nil => exact ⟨rfl, rfl, rfl⟩
  | cons st steps ih =>
    obtain ⟨hx, hstay⟩ := staysActive_cons.1 hstay
    have hnext : (s.step st).isActive x = true := hstay 0 (Nat.zero_le _)
    obtain ⟨hgen, hkey, hid⟩ := ih (step_spec h st).inv hstay
    obtain ⟨hkey', hid'⟩ := (step_spec h st).keeps x hx hnext
    have hgen' : (s.step st).generations x = s.generations x := by
      rcases step_generation h st x with hgen | hgen
      · exact hgen
      · rw [CellTable.isActive_eq] at hx hnext
        omega
    exact ⟨hgen.trans hgen', hkey.trans hkey', hid.trans hid'⟩

/-! ## Handles -/

/-- **A handle resolves as long as its cell lives**, until the generations come round. -/
theorem handle_resolves_iff (h : s.toCellTable.Inv pins)
    (hbegun : s.lifetimesBegun steps x < 2 ^ 31) :
    (s.runSteps steps).resolve (s.handleFor x) = some x ↔ s.StaysActive steps x := by
  have hinv := runSteps_inv h steps
  constructor
  · intro hres
    obtain ⟨-, -, hactive, hhandle⟩ := CellTable.resolve_eq_some hres
    have hgen : (s.runSteps steps).generations x = s.generations x :=
      (congrArg CellHandle.generation hhandle).symm
    have hcount := runSteps_generation h steps x
    refine staysActive_iff.2 ⟨hactive, ?_⟩
    -- the count of lifetimes is a multiple of `2 ^ 31`
    rw [hgen] at hcount
    omega
  · intro hstay
    have hhandle : s.handleFor x = (s.runSteps steps).handleFor x := by
      rw [CellTable.handleFor, CellTable.handleFor, (hstay.keeps h).1]
    rw [hhandle]
    exact hinv.resolve_handleFor hstay.last

/-- **Handles are safe against reuse of their slot.**  A handle is obtained for the cell in slot
    `x` after `before`; while fewer than `2 ^ 31` lifetimes of the slot begin in `later`, it
    resolves if and only if the cell has been active all the time, and what `get` reads then is
    the identity the cell had at first and the count the map has for it now.  Every run of public
    calls is a run of steps (`publicRun_steps`). -/
theorem handle_aba_safe (config : CellStoreConfig) (id : NodeIdentity) (s₀ : CellStore w)
    (hnew : new w config id = some s₀) (before later : List (StoreStep w)) (x : ℕ)
    (hbegun : (s₀.runSteps before).lifetimesBegun later x < 2 ^ 31) :
    let s₁ := s₀.runSteps before
    let s₂ := s₁.runSteps later
    let handle := s₁.handleFor x
    ((s₂.resolve handle).isSome = true ↔ s₁.StaysActive later x) ∧
    ((s₂.get handle).isSome = true ↔ s₁.StaysActive later x) ∧
    ∀ row, s₂.get handle = some row → row.key = (s₁.cells x).key ∧
      s₂.idOfKey row.key = s₁.idOfKey (s₁.cells x).key ∧
      s₂.toMap (s₁.idOf x) = WithBot.some row.count := by
  intro s₁ s₂ handle
  have hinv := runSteps_inv (new_spec hnew).1 before
  have hinv₂ := runSteps_inv hinv later
  have hsame : s₂.resolve handle = some x ↔ s₁.StaysActive later x :=
    handle_resolves_iff hinv hbegun
  have hsome : (s₂.resolve handle).isSome = true ↔ s₁.StaysActive later x := by
    rw [← hsame, Option.isSome_iff_exists]
    refine ⟨?_, fun hres => ⟨x, hres⟩⟩
    rintro ⟨y, hres⟩
    rw [hres, (CellTable.resolve_eq_some hres).1]
    rfl
  refine ⟨hsome, ?_, fun row hget => ?_⟩
  · rw [CellTable.get, Option.isSome_map]
    exact hsome
  · obtain ⟨y, hres, hrow⟩ := Option.map_eq_some_iff.1 hget
    have hstay : s₁.StaysActive later x := hsome.1 (Option.isSome_iff_exists.2 ⟨y, hres⟩)
    have hy : y = x := Option.some.inj (hres.symm.trans (hsame.2 hstay))
    obtain ⟨-, hkey, hid⟩ := hstay.keeps hinv
    rw [← hrow, hy]
    exact ⟨hkey, hid, hinv₂.toMap_eq_coe.2 ⟨x, hstay.last, hid, rfl⟩⟩

/-- A slot that is freed and taken again: one lifetime begins, and the old handle is void. -/
theorem handle_aba_safe_reused : ∃ s₀ : CellStore .u32, new .u32 tinyConfig tinyNode = some s₀ ∧
    let s₁ := s₀.runSteps [.ingestRow tinyHits]
    let s₂ := s₁.runSteps [.clearSlot 0, .ingestRow tinyHits]
    s₁.isActive 0 = true ∧ s₂.isActive 0 = true ∧ (s₂.resolve (s₁.handleFor 0)).isSome = false := by
  have hrun :
      let s₁ := tinyStore.runSteps [.ingestRow tinyHits]
      s₁.isActive 0 = true ∧
        (s₁.runSteps [.clearSlot 0, .ingestRow tinyHits]).isActive 0 = true ∧
        (s₁.runSteps [.clearSlot 0]).isActive 0 = false ∧
        s₁.lifetimesBegun [.clearSlot 0, .ingestRow tinyHits] 0 = 1 := by decide +kernel
  obtain ⟨hactive, hagain, hfreed, hbegun⟩ := hrun
  obtain ⟨hres, -⟩ := handle_aba_safe _ _ _ tinyStore_new [.ingestRow tinyHits]
    [.clearSlot 0, .ingestRow tinyHits] 0 (by rw [hbegun]; norm_num)
  refine ⟨tinyStore, tinyStore_new, hactive, hagain, Bool.eq_false_iff.2 fun hsome => ?_⟩
  have hstay := hres.1 hsome 1 (by simp)
  exact absurd (hfreed.symm.trans hstay) (by simp)

end CellStore

end Gabion

/-
  Words with a terminator, and splits at a separator.

  A list of words that do not hold the terminator can be read back from its concatenation
  (`join_inj`).  Where the parts may hold the separator, two ways to split one word are related
  by a part that stands before the separator in one and behind it in the other
  (`append_cons_eq_append_cons`).
-/
import Mathlib.Data.List.Basic

namespace Delimited

variable {α : Type*} {stop sep : α}

/-- The words one after the other, each followed by the terminator. -/
def join (stop : α) (words : List (List α)) : List α := words.flatMap (· ++ [stop])

theorem join_cons (stop : α) (w : List α) (ws : List (List α)) :
    join stop (w :: ws) = w ++ stop :: join stop ws := by
  rw [join, List.flatMap_cons, List.append_assoc, List.singleton_append]
  rfl

/-- **Two ways to split a word at separators**: they are the same, or the first part of one is
    that of the other, a separator and something more. -/
theorem append_cons_eq_append_cons {a b r s : List α} : a ++ sep :: r = b ++ sep :: s ↔
    (a = b ∧ r = s) ∨ (∃ m, b = a ++ sep :: m ∧ r = m ++ sep :: s) ∨
      ∃ m, a = b ++ sep :: m ∧ s = m ++ sep :: r := by
  constructor
  · intro h
    rcases List.append_eq_append_iff.1 h with ⟨e, rfl, he⟩ | ⟨e, rfl, he⟩
    · cases e with
      | nil => exact .inl ⟨(List.append_nil a).symm, (List.cons.inj he).2⟩
      | cons c m =>
        obtain ⟨rfl, hr⟩ := List.cons.inj he
        exact .inr (.inl ⟨m, rfl, hr⟩)
    · cases e with
      | nil => exact .inl ⟨List.append_nil b, ((List.cons.inj he).2).symm⟩
      | cons c m =>
        obtain ⟨rfl, hs⟩ := List.cons.inj he
        exact .inr (.inr ⟨m, rfl, hs⟩)
  · rintro (⟨rfl, rfl⟩ | ⟨m, rfl, rfl⟩ | ⟨m, rfl, rfl⟩)
    · rfl
    · rw [List.append_assoc, List.cons_append]
    · rw [List.append_assoc, List.cons_append]

/-- Both sides split at the first separator. -/
theorem append_cons_inj {a b r s : List α} (ha : sep ∉ a) (hb : sep ∉ b) :
    a ++ sep :: r = b ++ sep :: s ↔ a = b ∧ r = s := by
  rw [append_cons_eq_append_cons]
  constructor
  · rintro (h | ⟨m, rfl, -⟩ | ⟨m, rfl, -⟩)
    · exact h
    · exact absurd (List.mem_append_right a List.mem_cons_self) hb
    · exact absurd (List.mem_append_right b List.mem_cons_self) ha
  · exact .inl

/-- **Terminated words can be told apart.** -/
theorem join_inj {ws vs : List (List α)} (hw : ∀ w ∈ ws, stop ∉ w) (hv : ∀ v ∈ vs, stop ∉ v) :
    join stop ws = join stop vs ↔ ws = vs := by
  refine ⟨fun h => ?_, congrArg (join stop)⟩
  induction ws generalizing vs with
  | nil =>
    cases vs with
    | nil => rfl
    | cons v vs =>
      rw [join_cons] at h
      simp [join] at h
  | cons w ws ih =>
    cases vs with
    | nil =>
      rw [join_cons] at h
      simp [join] at h
    | cons v vs =>
      rw [join_cons, join_cons,
        append_cons_inj (hw w List.mem_cons_self) (hv v List.mem_cons_self)] at h
      rw [h.1, ih (fun u hu => hw u (List.mem_cons_of_mem _ hu))
        (fun u hu => hv u (List.mem_cons_of_mem _ hu)) h.2]

end Delimited

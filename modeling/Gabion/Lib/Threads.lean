/-
  Interleavings of threads over a shared memory.

  Every thread has a local state; an atomic step of a thread reads and writes its own local
  state and the shared memory, and takes an input that settles whatever the thread or its
  surroundings may choose.  A step that is not possible changes nothing.  A schedule is a list
  of steps of any threads, so a thread can stall anywhere for any time.

  * `Along.run`: what every step keeps, under a condition on the steps taken, holds after every
    schedule.  `along_of_final` gets such a condition from a bound on the final state.
  * `Solo`: steps of one thread alone, which are a run (`Solo.exists_run_of_locals`).
  * `Holds J A`: an invariant `J` of the shared memory and an assertion `A` of every thread.
    `Holds.step` keeps it if the step keeps `J` and the thread's own assertion, and does not
    interfere with the other threads'.
  * `Words`: records that are copied one word after the other.  `Copied` is a copy under way.
-/
import Mathlib.Data.List.Basic
import Mathlib.Logic.Function.Basic
import Mathlib.Logic.Relation

namespace Threads

open Function

variable {T I L G : Type}

structure Config (T L G : Type) where
  locals : T → L
  shared : G

section
variable [DecidableEq T] (next : T → I → L → G → L × G)

def step (c : Config T L G) (e : T × I) : Config T L G where
  locals := update c.locals e.1 (next e.1 e.2 (c.locals e.1) c.shared).1
  shared := (next e.1 e.2 (c.locals e.1) c.shared).2

def run (c : Config T L G) (schedule : List (T × I)) : Config T L G :=
  schedule.foldl (step next) c

/-- A condition on every step of a run. -/
def Along (ok : Config T L G → T × I → Prop) : Config T L G → List (T × I) → Prop
  | _, [] => True
  | c, e :: schedule => ok c e ∧ Along ok (step next c e) schedule

instance Along.decidable (ok : Config T L G → T × I → Prop) [∀ c e, Decidable (ok c e)] :
    ∀ (c : Config T L G) (schedule : List (T × I)), Decidable (Along next ok c schedule)
  | _, [] => inferInstanceAs (Decidable True)
  | c, e :: schedule =>
    have := Along.decidable ok (step next c e) schedule
    inferInstanceAs (Decidable (ok c e ∧ _))

end

variable [DecidableEq T] {next : T → I → L → G → L × G} {c : Config T L G}

/-! ## Runs -/

theorem Along.run {ok : Config T L G → T × I → Prop} {P : Config T L G → Prop}
    (hstep : ∀ c e, P c → ok c e → P (step next c e)) {schedule : List (T × I)} (h : P c)
    (hok : Along next ok c schedule) : P (run next c schedule) := by
  induction schedule generalizing c with
  | nil => exact h
  | cons e schedule ih => exact ih (hstep c e h hok.1) hok.2

/-- A bound on the final state that no step can restore has held all along. -/
theorem along_of_final {B : Config T L G → Prop} (hback : ∀ c e, B (step next c e) → B c)
    {schedule : List (T × I)} (h : B (run next c schedule)) :
    B c ∧ Along next (fun c e => B (step next c e)) c schedule := by
  induction schedule generalizing c with
  | nil => exact ⟨h, trivial⟩
  | cons e schedule ih =>
    obtain ⟨hnext, hrest⟩ := ih h
    exact ⟨hback c e hnext, hnext, hrest⟩

/-! ## One thread alone -/

/-- The thread steps while no other one does. -/
def Solo (next : T → I → L → G → L × G) (t : T) : L × G → L × G → Prop :=
  Relation.ReflTransGen fun s s' => ∃ i, next t i s.1 s.2 = s'

section
omit [DecidableEq T]
variable {t : T} {l : L} {g : G} {s s' s'' : L × G}

theorem Solo.head (i : I) (h : Solo next t (next t i l g) s) : Solo next t (l, g) s :=
  Relation.ReflTransGen.head ⟨i, rfl⟩ h

theorem Solo.trans (h : Solo next t s s') (h' : Solo next t s' s'') : Solo next t s s'' :=
  Relation.ReflTransGen.trans h h'

end

theorem Solo.exists_run {t : T} {s : L × G} (h : Solo next t (c.locals t, c.shared) s) :
    ∃ inputs : List I, run next c (inputs.map (t, ·)) = ⟨update c.locals t s.1, s.2⟩ := by
  induction h with
  | refl => exact ⟨[], by rw [update_eq_self]; rfl⟩
  | tail _ hstep ih =>
    obtain ⟨i, rfl⟩ := hstep
    obtain ⟨inputs, hrun⟩ := ih
    refine ⟨inputs ++ [i], ?_⟩
    rw [Threads.run] at hrun ⊢
    rw [List.map_append, List.foldl_append, hrun]
    simp [step]

/-- A thread that ends in the local state it started in. -/
theorem Solo.exists_run_of_locals {t : T} {l : L} {g : G} (h : Solo next t (l, c.shared) (l, g))
    (hl : c.locals t = l) : ∃ inputs : List I, run next c (inputs.map (t, ·)) = ⟨c.locals, g⟩ := by
  subst hl
  obtain ⟨inputs, hrun⟩ := h.exists_run
  rw [update_eq_self] at hrun
  exact ⟨inputs, hrun⟩

/-! ## Assertions of threads -/

/-- **An invariant of the memory with assertions of the threads.** -/
structure Holds (J : G → Prop) (A : T → L → G → Prop) (c : Config T L G) : Prop where
  shared : J c.shared
  thread : ∀ t, A t (c.locals t) c.shared

theorem Holds.step {J : G → Prop} {A : T → L → G → Prop} {e : T × I} {r : L × G}
    (h : Holds J A c) (hr : next e.1 e.2 (c.locals e.1) c.shared = r) (hshared : J r.2)
    (hown : A e.1 r.1 r.2)
    (hother : ∀ u, u ≠ e.1 → A u (c.locals u) c.shared → A u (c.locals u) r.2) :
    Holds J A (step next c e) := by
  subst hr
  refine ⟨hshared, (forall_update_iff c.locals fun u l => A u l _).2 ⟨hown, fun u hu => ?_⟩⟩
  exact hother u hu (h.thread u)

/-! ## Copying word by word -/

/-- Records of words: `copy f src dst` writes the word `f` of `src` into `dst`. -/
class Words (α : Type) (F V : outParam Type) [DecidableEq F] where
  word : α → F → V
  copy : F → α → α → α
  word_copy : ∀ f src dst, word (copy f src dst) = update (word dst) f (word src f)
  word_injective : Injective word

section
variable {α F V : Type} [DecidableEq F] [Words α F V] {src dst : α} {f : F} {left : List F}

/-- All words but those `left` have been copied. -/
def Copied (left : List F) (src dst : α) : Prop :=
  ∀ f, f ∉ left → Words.word dst f = Words.word src f

theorem copied_of_forall (hall : ∀ f, f ∈ left) : Copied left src dst :=
  fun f hf => absurd (hall f) hf

theorem Copied.copy (h : Copied (f :: left) src dst) : Copied left src (Words.copy f src dst) := by
  intro f' hf'
  rw [Words.word_copy]
  by_cases hff : f' = f
  · rw [hff, update_self]
  · rw [update_of_ne hff]
    exact h f' (by simp [hff, hf'])

theorem Copied.eq (h : Copied [] src dst) : dst = src :=
  Words.word_injective (funext fun f => h f List.not_mem_nil)

end

end Threads

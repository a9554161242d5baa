/-
  Calls that return although other threads disturb them.

  A call that retries when it loses an exchange has no bound on its steps: it can lose again and
  again.  What it does have is a rank.  Each of its own steps lowers the rank, and nothing raises
  it but a disturbance, by a fixed price.  So it has returned, with rank 0, once it has made as
  many steps as its rank and the price of all disturbances (`Ranked.run`).
-/
import Gabion.Lib.Threads

namespace Threads

variable {T I L G : Type} [DecidableEq T]

/-- The number of steps of a run with a property. -/
def count (next : T → I → L → G → L × G) (p : Config T L G → T × I → Bool) :
    Config T L G → List (T × I) → ℕ
  | _, [] => 0
  | c, e :: schedule => (if p c e then 1 else 0) + count next p (step next c e) schedule

/-- **A rank**: at 0 it stays there, the steps `own` lower it, and the others raise it by at most
    the price, and only if they disturb. -/
structure Ranked (next : T → I → L → G → L × G) (P : Config T L G → Prop)
    (ok : Config T L G → T × I → Prop) (own disturbs : Config T L G → T × I → Bool) (price : ℕ)
    (rank : Config T L G → ℕ) : Prop where
  keeps : ∀ c e, P c → ok c e → P (step next c e)
  returned : ∀ c e, P c → ok c e → rank c = 0 → rank (step next c e) = 0
  own_lt : ∀ c e, P c → ok c e → own c e = true → rank c ≠ 0 → rank (step next c e) < rank c
  other_le : ∀ c e, P c → ok c e → own c e = false →
    rank (step next c e) ≤ rank c + if disturbs c e then price else 0

variable {next : T → I → L → G → L × G} {P : Config T L G → Prop}
  {ok : Config T L G → T × I → Prop} {own disturbs : Config T L G → T × I → Bool} {price : ℕ}
  {rank : Config T L G → ℕ} {c : Config T L G} {schedule : List (T × I)}

theorem locals_step_self (c : Config T L G) (t : T) (i : I) :
    (step next c (t, i)).locals t = (next t i (c.locals t) c.shared).1 := Function.update_self ..

theorem locals_step_of_ne {t u : T} (h : u ≠ t) (c : Config T L G) (i : I) :
    (step next c (u, i)).locals t = c.locals t := Function.update_of_ne (Ne.symm h) ..

theorem shared_step (c : Config T L G) (t : T) (i : I) :
    (step next c (t, i)).shared = (next t i (c.locals t) c.shared).2 := rfl

theorem along_of_mem {q : T × I → Prop} (hq : ∀ e ∈ schedule, q e) :
    Along next (fun _ e => q e) c schedule := by
  induction schedule generalizing c with
  | nil => trivial
  | cons e schedule ih =>
    exact ⟨hq e List.mem_cons_self, ih fun e' he' => hq e' (List.mem_cons_of_mem _ he')⟩

theorem Along.and_mem {q : T × I → Prop} (h : Along next ok c schedule)
    (hq : ∀ e ∈ schedule, q e) : Along next (fun c e => ok c e ∧ q e) c schedule := by
  induction schedule generalizing c with
  | nil => trivial
  | cons e schedule ih =>
    exact ⟨⟨h.1, hq e List.mem_cons_self⟩, ih h.2 fun e' he' => hq e' (List.mem_cons_of_mem _ he')⟩

/-- A condition that fails along a run fails at some step. -/
theorem exists_of_not_along (h : ¬ Along next ok c schedule) : ∃ before e after,
    schedule = before ++ e :: after ∧ ¬ ok (run next c before) e := by
  induction schedule generalizing c with
  | nil => exact absurd trivial h
  | cons e schedule ih =>
    by_cases hok : ok c e
    · obtain ⟨before, e', after, rfl, hnot⟩ := ih fun hrest => h ⟨hok, hrest⟩
      exact ⟨e :: before, e', after, rfl, hnot⟩
    · exact ⟨[], e, schedule, rfl, hok⟩

/-- Steps that can be told from the schedule. -/
theorem count_eq_countP (p : T × I → Bool) (c : Config T L G) (schedule : List (T × I)) :
    count next (fun _ e => p e) c schedule = schedule.countP p := by
  induction schedule generalizing c with
  | nil => rfl
  | cons e schedule ih => rw [count, ih, List.countP_cons, Nat.add_comm]

theorem Ranked.stays (h : Ranked next P ok own disturbs price rank) (hP : P c)
    (hok : Along next ok c schedule) (hzero : rank c = 0) : rank (run next c schedule) = 0 := by
  have hboth : P (run next c schedule) ∧ rank (run next c schedule) = 0 :=
    hok.run (P := fun c => P c ∧ rank c = 0)
      (fun c e hc he => ⟨h.keeps c e hc.1 he, h.returned c e hc.1 he hc.2⟩) ⟨hP, hzero⟩
  exact hboth.2

/-- Until it is 0, the rank has gone down with every own step and up with every disturbance. -/
theorem Ranked.add_count_le (h : Ranked next P ok own disturbs price rank) (hP : P c)
    (hok : Along next ok c schedule) : rank (run next c schedule) = 0 ∨
      rank (run next c schedule) + count next own c schedule ≤
        rank c + price * count next disturbs c schedule := by
  induction schedule generalizing c with
  | nil => exact .inr (by simp [run, count])
  | cons e schedule ih =>
    by_cases hzero : rank c = 0
    · exact .inl (h.stays hP hok hzero)
    · rcases ih (h.keeps c e hP hok.1) hok.2 with hdone | hle
      · exact .inl hdone
      · refine .inr ?_
        have hrun : run next c (e :: schedule) = run next (step next c e) schedule := rfl
        rw [hrun, count, count, Nat.mul_add]
        cases hown : own c e with
        | true =>
          have hlt := h.own_lt c e hP hok.1 hown hzero
          rw [if_pos rfl]
          omega
        | false =>
          have hstep := h.other_le c e hP hok.1 hown
          rw [if_neg Bool.false_ne_true]
          split_ifs at hstep ⊢ <;> omega

/-- **The call returns** when it has made enough steps. -/
theorem Ranked.run (h : Ranked next P ok own disturbs price rank) (hP : P c)
    (hok : Along next ok c schedule)
    (hsteps : rank c + price * count next disturbs c schedule ≤ count next own c schedule) :
    rank (run next c schedule) = 0 := by
  rcases h.add_count_le hP hok with hdone | hle
  · exact hdone
  · omega

end Threads

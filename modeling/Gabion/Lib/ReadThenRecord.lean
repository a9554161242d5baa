/-
  Read, then record: admission against a limit over a sliding window.

  A decision reads what is recorded for the buckets of its window and admits while the limit
  leaves room.  What it admits is recorded later, and may be lost on the way, so a decision does
  not see what is still pending.  It reads the window of its own time, which may lie in an earlier
  bucket than the clock by the time it is taken.  If hits of a later bucket have been admitted by
  then, it is late: those escape it altogether.

  `Account.Within` is the invariant.  `Within.quiet` and `Within.settle` keep it over any step that
  admits nothing: recording, losing, withdrawing, ageing, and counts that come from elsewhere.
  `Within.decided` keeps it over a decision.  In any window from now on, what is admitted stays
  within the limit and the bound on what was pending at a decision, apart from what was lost or
  late.
-/
import Mathlib.Algebra.Order.BigOperators.Group.Finset
import Mathlib.Tactic

namespace ReadThenRecord

/-- The buckets that count at a time.  A later window holds no older bucket. -/
structure Windows where
  span : ℕ → Finset ℕ
  mem_of_later : ∀ {now later bucket}, now ≤ later → bucket ∈ span later → bucket ≤ now →
    bucket ∈ span now

/-- What there is for each bucket, and the bucket of the clock.  `recorded` may hold more than
    was admitted here. -/
structure Account where
  now : ℕ
  admitted : ℕ → ℕ
  recorded : ℕ → ℕ
  pending : ℕ → ℕ
  lost : ℕ → ℕ
  late : ℕ → ℕ

namespace Account

/-- What was admitted and not lost is recorded or pending, or the record is at its cap. -/
def Accounted (s : Account) (cap bucket : ℕ) : Prop :=
  s.admitted bucket ≤ s.recorded bucket + s.pending bucket + s.lost bucket ∨ cap ≤ s.recorded bucket

/-- **The invariant.** -/
structure Within (W : Windows) (limit slack cap : ℕ) (s : Account) : Prop where
  past : ∀ bucket, s.admitted bucket ≠ 0 → bucket ≤ s.now
  accounted : ∀ bucket ∈ W.span s.now, s.Accounted cap bucket
  bound : ∀ later, s.now ≤ later → ∑ bucket ∈ W.span later, s.admitted bucket ≤
    limit + slack + ∑ bucket ∈ W.span later, (s.lost bucket + s.late bucket)

/-- A step that admits nothing.  In a bucket that still counts, what is accounted for does not
    shrink by more than was withdrawn. -/
structure Quiet (W : Windows) (cap : ℕ) (s s' : Account) : Prop where
  now : s.now ≤ s'.now
  admitted : ∀ bucket, s'.admitted bucket ≤ s.admitted bucket
  lost : ∀ bucket, s.lost bucket ≤ s'.lost bucket
  late : ∀ bucket, s.late bucket ≤ s'.late bucket
  accounted : ∀ bucket ∈ W.span s'.now,
    s'.admitted bucket + (s.recorded bucket + s.pending bucket + s.lost bucket) ≤
      s.admitted bucket + (s'.recorded bucket + s'.pending bucket + s'.lost bucket) ∨
    cap ≤ s'.recorded bucket
  capped : ∀ bucket ∈ W.span s'.now, cap ≤ s.recorded bucket → cap ≤ s'.recorded bucket

/-- A decision at a time in `bucket` that admits `hits b` in each bucket `b`: none, or some in
    `bucket` alone, if it has read that there is room. -/
structure Admits (W : Windows) (limit slack bucket : ℕ) (hits : ℕ → ℕ) (s s' : Account) : Prop where
  now : s'.now = s.now
  time : bucket ≤ s.now
  single : ∀ b, hits b ≠ 0 → b = bucket
  admitted : ∀ b, s'.admitted b = s.admitted b + hits b
  recorded : ∀ b, s'.recorded b = s.recorded b
  pending : ∀ b, s.pending b + hits b ≤ s'.pending b
  lost : ∀ b, s'.lost b = s.lost b
  late_le : ∀ b, s.late b ≤ s'.late b
  late : ∀ b', bucket < b' → s.admitted b' ≠ 0 → ∀ b, s.late b + hits b ≤ s'.late b
  room : hits bucket ≠ 0 → ∑ b ∈ W.span bucket, s.recorded b + hits bucket ≤ limit
  slack : hits bucket ≠ 0 → ∑ b ∈ W.span s.now, s.pending b ≤ slack

variable {W : Windows} {limit slack cap : ℕ} {s s' : Account}

theorem within_zero (now : ℕ) (recorded pending lost late : ℕ → ℕ) :
    Within W limit slack cap ⟨now, fun _ => 0, recorded, pending, lost, late⟩ where
  past := fun _ h => absurd rfl h
  accounted := fun _ _ => .inl (Nat.zero_le _)
  bound := fun _ _ => by simp only [Finset.sum_const_zero, Nat.zero_le]

/-- A step that admits nothing and leaves everything accounted for keeps the invariant. -/
theorem Within.settle (h : Within W limit slack cap s) (hnow : s.now ≤ s'.now)
    (hadmitted : ∀ bucket, s'.admitted bucket ≤ s.admitted bucket)
    (hlost : ∀ bucket, s.lost bucket ≤ s'.lost bucket)
    (hlate : ∀ bucket, s.late bucket ≤ s'.late bucket)
    (haccounted : ∀ bucket ∈ W.span s.now, bucket ∈ W.span s'.now → s'.Accounted cap bucket) :
    Within W limit slack cap s' := by
  have hpast : ∀ bucket, s'.admitted bucket ≠ 0 → bucket ≤ s.now := fun bucket hne =>
    h.past bucket fun hzero => hne (Nat.eq_zero_of_le_zero (hzero ▸ hadmitted bucket))
  refine ⟨fun bucket hne => (hpast bucket hne).trans hnow, fun bucket hmem => ?_,
    fun later hlater => ?_⟩
  · by_cases hzero : s'.admitted bucket = 0
    · exact .inl (hzero ▸ Nat.zero_le _)
    · -- a bucket with admitted hits was in the window before
      exact haccounted bucket (W.mem_of_later hnow hmem (hpast bucket hzero)) hmem
  · calc ∑ bucket ∈ W.span later, s'.admitted bucket
        ≤ ∑ bucket ∈ W.span later, s.admitted bucket :=
          Finset.sum_le_sum fun bucket _ => hadmitted bucket
      _ ≤ limit + slack + ∑ bucket ∈ W.span later, (s.lost bucket + s.late bucket) :=
          h.bound later (hnow.trans hlater)
      _ ≤ _ := Nat.add_le_add_left (Finset.sum_le_sum fun bucket _ =>
          Nat.add_le_add (hlost bucket) (hlate bucket)) _

/-- **A step that admits nothing** keeps the invariant. -/
theorem Within.quiet (h : Within W limit slack cap s) (hq : Quiet W cap s s') :
    Within W limit slack cap s' := by
  refine h.settle hq.now hq.admitted hq.lost hq.late fun bucket hold hmem => ?_
  rcases h.accounted bucket hold with hle | hcap
  · exact (hq.accounted bucket hmem).imp_left fun hnext => by omega
  · exact .inr (hq.capped bucket hmem hcap)

/-- What a decision that is not late has not read is pending or lost. -/
theorem Within.admitted_le_read (h : Within W limit slack cap s) {bucket : ℕ}
    (htime : bucket ≤ s.now) (hpast : ∀ b, s.admitted b ≠ 0 → b ≤ bucket)
    (hroom : ∑ b ∈ W.span bucket, s.recorded b < cap) {later : ℕ} (hlater : s.now ≤ later) :
    ∑ b ∈ W.span later, s.admitted b ≤
      ∑ b ∈ W.span bucket, s.recorded b + ∑ b ∈ W.span s.now, s.pending b +
        ∑ b ∈ W.span later, s.lost b := by
  have hbelow : ∀ b ∈ W.span bucket, s.recorded b < cap := fun b hb =>
    (Finset.single_le_sum (f := s.recorded) (fun _ _ => Nat.zero_le _) hb).trans_lt hroom
  -- a bucket with admitted hits that counts later counts now, and did at the time of the decision
  have hread : ∀ b ∈ W.span later, s.admitted b ≠ 0 →
      b ∈ W.span later ∩ (W.span bucket ∩ W.span s.now) := fun b hb hne =>
    Finset.mem_inter.2 ⟨hb, Finset.mem_inter.2
      ⟨W.mem_of_later (htime.trans hlater) hb (hpast b hne),
        W.mem_of_later hlater hb (h.past b hne)⟩⟩
  calc ∑ b ∈ W.span later, s.admitted b
      ≤ ∑ b ∈ W.span later ∩ (W.span bucket ∩ W.span s.now), s.admitted b :=
        Finset.sum_le_sum_of_ne_zero hread
    _ ≤ ∑ b ∈ W.span later ∩ (W.span bucket ∩ W.span s.now),
          (s.recorded b + s.pending b + s.lost b) := by
        refine Finset.sum_le_sum fun b hb => ?_
        obtain ⟨hmem, hnow⟩ := Finset.mem_inter.1 (Finset.mem_inter.1 hb).2
        exact (h.accounted b hnow).resolve_right (hbelow b hmem).not_ge
    _ ≤ _ := by
        rw [Finset.sum_add_distrib, Finset.sum_add_distrib]
        refine Nat.add_le_add (Nat.add_le_add ?_ ?_) ?_
        · exact Finset.sum_le_sum_of_subset
            (Finset.inter_subset_right.trans Finset.inter_subset_left)
        · exact Finset.sum_le_sum_of_subset
            (Finset.inter_subset_right.trans Finset.inter_subset_right)
        · exact Finset.sum_le_sum_of_subset Finset.inter_subset_left

theorem sum_single_le (span : Finset ℕ) {hits : ℕ → ℕ} (bucket : ℕ)
    (h : ∀ b ∈ span, hits b ≠ 0 → b = bucket) : ∑ b ∈ span, hits b ≤ hits bucket := by
  by_cases hb : bucket ∈ span
  · exact (Finset.sum_eq_single_of_mem bucket hb fun b hmem => not_imp_comm.1 (h b hmem)).le
  · rw [Finset.sum_eq_zero fun b hmem => not_imp_comm.1 (h b hmem) fun heq => hb (heq ▸ hmem)]
    exact Nat.zero_le _

/-- **A decision** keeps the invariant. -/
theorem Within.decided (h : Within W limit slack cap s) (bucket : ℕ) (hits : ℕ → ℕ)
    (hcap : limit ≤ cap) (ha : Admits W limit slack bucket hits s s') :
    Within W limit slack cap s' := by
  refine ⟨fun b hne => ?_, fun b hmem => ?_, fun later hlater => ?_⟩
  · rw [ha.now]
    rw [ha.admitted] at hne
    by_cases hzero : hits b = 0
    · exact h.past b (by rwa [hzero] at hne)
    · exact ha.single b hzero ▸ ha.time
  · rw [ha.now] at hmem
    have hpending := ha.pending b
    unfold Accounted
    rw [ha.admitted, ha.recorded, ha.lost]
    exact (h.accounted b hmem).imp_left fun hle => by omega
  · rw [ha.now] at hlater
    simp only [ha.admitted, ha.lost, Finset.sum_add_distrib]
    have hbound := h.bound later hlater
    rw [Finset.sum_add_distrib] at hbound
    have hmono : ∑ b ∈ W.span later, s.late b ≤ ∑ b ∈ W.span later, s'.late b :=
      Finset.sum_le_sum fun b _ => ha.late_le b
    have hsingle := sum_single_le (W.span later) bucket fun b _ => ha.single b
    by_cases hlate : ∃ b', bucket < b' ∧ s.admitted b' ≠ 0
    · -- late: what is admitted now is late in full
      obtain ⟨b', hb', hne⟩ := hlate
      have hlate : ∑ b ∈ W.span later, s.late b + ∑ b ∈ W.span later, hits b ≤
          ∑ b ∈ W.span later, s'.late b := by
        rw [← Finset.sum_add_distrib]
        exact Finset.sum_le_sum fun b _ => ha.late b' hb' hne b
      omega
    · by_cases hnone : hits bucket = 0
      · omega
      · -- the decision has read all but what is pending or lost
        have hpast : ∀ b, s.admitted b ≠ 0 → b ≤ bucket := fun b hne =>
          not_lt.1 fun hlt => hlate ⟨b, hlt, hne⟩
        have hroom := ha.room hnone
        have hslack := ha.slack hnone
        have hread := h.admitted_le_read ha.time hpast (by omega) hlater
        omega

end Account

end ReadThenRecord

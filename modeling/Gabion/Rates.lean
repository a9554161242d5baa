/-
  Rates and the budgets they resolve to (`parse_rate`, `resolve_rate` and `Rule::new` in
  `rules.rs`).

  Window, period and bucket are cut to whole milliseconds one by one, and the number of buckets
  to 32 bits.  `RateExact` is the budget meant by the durations as given; `rate_exact_iff` says
  for which durations the source resolves to it.
-/
import Gabion.Lib.Fallible
import Gabion.Rules
import Gabion.Window

namespace Gabion

open Fallible

/-- **The window totals of a rule are over `n` buckets**, the current one and those before it, on
    the server and in nginx. -/
structure Rule.SumsBuckets (rule : Rule) (n : ℕ) : Prop where
  server : ∀ (m : DashMapStore) (keyHash : KeyHash) (now : ℕ), now ≤ u64Max →
    m.windowTotal rule.fingerprint keyHash now rule.bucketMillis rule.liveBuckets =
      min (∑ bucket ∈ windowSpan (now / rule.bucketMillis % 2 ^ 32) n,
        m.countFor rule.fingerprint keyHash bucket) u64Max
  nginx : ∀ (t : AggregateTable) (keyHash : KeyHash) (now : ℕ), now ≤ u64Max →
    t.windowTotal rule.fingerprint keyHash now rule.bucketMillis rule.liveBuckets =
      min (∑ bucket ∈ windowSpan (now / rule.bucketMillis % 2 ^ 32) n,
        (t.get ⟨rule.fingerprint, keyHash, BitVec.ofNat 32 bucket⟩).getD 0) u64Max

/-- **The budget of a rate over a window.**  The limit is the rate scaled to the window, rounded
    down, and the window is covered by its buckets. -/
structure RateExact (count : ℕ) (period window : Duration) (resolved : ResolvedRate) : Prop where
  limit : resolved.limit = count * window / period
  count_le : count ≤ resolved.limit
  limit_pos : 0 < resolved.limit
  window_pos : 1 ≤ resolved.windowMillis
  bucket_pos : 1 ≤ resolved.bucketMillis
  buckets : ∀ (x : RuleCrates) (id : ℕ) (domain : String) (descriptors : List DescriptorPattern)
    (mode : EnforcementMode), (Rule.new x id domain descriptors resolved.limit resolved.windowMillis
      resolved.bucketMillis mode).SumsBuckets
        ((resolved.windowMillis + resolved.bucketMillis - 1) / resolved.bucketMillis)

/-- What a duration has beyond its whole milliseconds, of which 64 bits are counted. -/
def cutOff (d : ℕ) : ℕ := if d / 10 ^ 6 ≤ u64Max then d % 10 ^ 6 else d - u64Max * 10 ^ 6

/-- **Durations whose parts below the millisecond do not matter.**  The rate means `meant` requests
    in the window, and `rest` nanoseconds of all of them are left over.  What is cut off the window
    has to be left over, or made up for by what is cut off the period; and the latter may not
    be enough for one more request.  A period below the millisecond is lengthened to it. -/
def CutKeepsBudget (count period window : ℕ) : Prop :=
  let meant := count * window / period
  let rest := count * window % period
  if period < 10 ^ 6 then meant * (10 ^ 6 - period) + count * cutOff window ≤ rest
  else count * cutOff window ≤ rest + meant * cutOff period ∧
    rest + (meant + 1) * cutOff period < period + count * cutOff window

variable {x : RuleCrates} {input : String} {count period w : ℕ} {window bucket : Option Duration}
  {resolved : ResolvedRate}

/-! ## What is accepted -/

theorem parseRate_ok (h : parseRate x input = .ok (count, period)) : 0 < count ∧ 0 < period := by
  -- the two guards, whatever the period was read from
  have hguards : ∀ {c : ℕ} (d : ℕ), ¬ c = 0 →
      (if d = 0 then Except.error "rate period must be greater than zero" else .ok (c, d)) =
        .ok (count, period) → 0 < count ∧ 0 < period := by
    intro c d hc hguard
    obtain ⟨hd, heq⟩ := guard_eq_ok.1 hguard
    cases heq
    exact ⟨Nat.pos_of_ne_zero hc, Nat.pos_of_ne_zero hd⟩
  unfold parseRate at h
  split at h
  · split at h
    · dsimp only at h
      split at h
      · cases h
      · rename_i hc
        split at h
        · exact hguards (Duration.fromSecs 1) hc h
        · exact hguards (Duration.fromSecs 60) hc h
        · exact hguards (Duration.fromSecs (60 * 60)) hc h
        · exact hguards (Duration.fromSecs (60 * 60 * 24)) hc h
        · split at h
          · exact hguards _ hc h
          · cases h
    · cases h
  · cases h

theorem resolveRate_ok (h : resolveRate count period window bucket = .ok resolved) :
    period ≤ window.getD period ∧
      resolved = {
        limit := count * durationToMillis (window.getD period) / max (durationToMillis period) 1
        windowMillis := durationToMillis (window.getD period)
        bucketMillis := durationToMillis (bucket.getD (window.getD period)) } := by
  unfold resolveRate at h
  dsimp only at h
  split_ifs at h with hzero hshort hbucket hlimit
  cases h
  exact ⟨not_lt.1 hshort, rfl⟩

/-! ## Whole milliseconds -/

theorem one_le_durationToMillis {d : ℕ} : 1 ≤ durationToMillis d ↔ 10 ^ 6 ≤ d := by
  have hmax : 1 ≤ u64Max := by decide
  unfold durationToMillis
  omega

theorem eq_millis_add_cutOff (d : ℕ) : d = durationToMillis d * 10 ^ 6 + cutOff d := by
  unfold durationToMillis cutOff
  by_cases h : d / 10 ^ 6 ≤ u64Max
  · rw [if_pos h, Nat.min_eq_left h]
    omega
  · rw [if_neg h, Nat.min_eq_right (by omega)]
    omega

/-- **The limit is the one that is meant** if what is cut off does not matter. -/
theorem limit_eq_iff (hperiod : 0 < period) :
    count * durationToMillis w / max (durationToMillis period) 1 = count * w / period ↔
      CutKeepsBudget count period w := by
  unfold CutKeepsBudget
  dsimp only
  have hmeant : count * w / period * period + count * w % period = count * w :=
    Nat.div_add_mod' _ _
  have hrest : count * w % period < period := Nat.mod_lt _ hperiod
  have hwindow : count * w = count * durationToMillis w * 10 ^ 6 + count * cutOff w := by
    rw [Nat.mul_assoc, ← Nat.mul_add, ← eq_millis_add_cutOff]
  generalize count * w / period = meant at *
  generalize count * w % period = rest at *
  rw [hwindow] at hmeant
  generalize count * durationToMillis w = scaled at *
  split_ifs with hsmall
  · have hzero : durationToMillis period = 0 := by
      unfold durationToMillis
      omega
    have hsum : meant * period + meant * (10 ^ 6 - period) = meant * 10 ^ 6 := by
      rw [← Nat.mul_add, Nat.add_sub_cancel' hsmall.le]
    rw [hzero, Nat.max_eq_right (Nat.zero_le 1), Nat.div_one]
    omega
  · have hone : 1 ≤ durationToMillis period := one_le_durationToMillis.2 (not_lt.1 hsmall)
    have hcut := eq_millis_add_cutOff period
    have hsum : meant * period =
        meant * durationToMillis period * 10 ^ 6 + meant * cutOff period := by
      rw [Nat.mul_assoc, ← Nat.mul_add, ← hcut]
    rw [Nat.max_eq_left hone, Nat.div_eq_iff hone, Nat.add_mul, Nat.one_mul]
    omega

/-- Durations of whole milliseconds are not cut at all. -/
theorem cutKeepsBudget_of_dvd (hperiod : 0 < period) (hp : 10 ^ 6 ∣ period) (hw : 10 ^ 6 ∣ w)
    (hle : period ≤ w) (hmax : w / 10 ^ 6 ≤ u64Max) : CutKeepsBudget count period w := by
  have hwhole : ∀ {d : ℕ}, 10 ^ 6 ∣ d → d ≤ w → cutOff d = 0 := fun hd hle => by
    rw [cutOff, if_pos ((Nat.div_le_div_right hle).trans hmax), Nat.mod_eq_zero_of_dvd hd]
  unfold CutKeepsBudget
  dsimp only
  rw [if_neg (Nat.le_of_dvd hperiod hp).not_gt, hwhole hp hle, hwhole hw le_rfl]
  simpa using Nat.mod_lt _ hperiod

/-- A window that is the period has the budget of the rate, from one millisecond on. -/
theorem cutKeepsBudget_of_eq (hp : 10 ^ 6 ≤ period) : CutKeepsBudget count period period := by
  have hone := one_le_durationToMillis.2 hp
  rw [← limit_eq_iff (by omega), Nat.max_eq_left hone, Nat.mul_div_cancel _ hone,
    Nat.mul_div_cancel _ (by omega)]

/-! ## Buckets -/

/-- Window totals are over `n` buckets unless the number does not fit 32 bits. -/
theorem sumsBuckets_iff {rule : Rule} {n : ℕ} (hlive : rule.liveBuckets = n % 2 ^ 32) (hn : 1 ≤ n)
    (hb : 1 ≤ rule.bucketMillis) (hfull : 2 ^ 32 ≤ n → (2 ^ 32 - 1) * rule.bucketMillis ≤ u64Max) :
    rule.SumsBuckets n ↔ n < 2 ^ 32 := by
  constructor
  · intro h
    by_contra hlarge
    rw [not_lt] at hlarge
    -- every bucket counts one, and the current one is the last there is
    have htotal := h.server ⟨fun _ => some 1⟩ 0 ((2 ^ 32 - 1) * rule.bucketMillis) (hfull hlarge)
    have hone : ∀ bucket, DashMapStore.countFor ⟨fun _ => some 1⟩ rule.fingerprint 0 bucket = 1 :=
      fun _ => rfl
    rw [windowTotal_eq, Nat.mul_div_cancel _ hb] at htotal
    simp only [hone, Finset.sum_const, smul_eq_mul, mul_one] at htotal
    have hfew := card_windowSpan_le ((2 ^ 32 - 1) % 2 ^ 32) rule.liveBuckets
    have hall : windowSpan ((2 ^ 32 - 1) % 2 ^ 32) n = Finset.range (2 ^ 32) := by
      ext bucket
      rw [mem_windowSpan, Finset.mem_range]
      omega
    rw [hall, Finset.card_range] at htotal
    have hmax : u64Max = 2 ^ 64 - 1 := rfl
    omega
  · intro hlt
    have hsame : rule.liveBuckets = n := by rw [hlive, Nat.mod_eq_of_lt hlt]
    constructor
    · intro m keyHash now _
      rw [windowTotal_eq, hsame]
    · intro t keyHash now _
      rw [AggregateTable.windowTotal_eq, windowTotal_eq, hsame, Nat.max_eq_left hb,
        Nat.max_eq_left hn]
      rfl

/-- The rule of a window sums its buckets if they are fewer than `2 ^ 32`. -/
theorem new_sumsBuckets_iff {windowMillis bucketMillis : ℕ} (hw : 1 ≤ windowMillis)
    (hb : 1 ≤ bucketMillis) (hmax : windowMillis ≤ u64Max) (id : ℕ) (domain : String)
    (descriptors : List DescriptorPattern) (limit : ℕ) (mode : EnforcementMode) :
    (Rule.new x id domain descriptors limit windowMillis bucketMillis mode).SumsBuckets
        ((windowMillis + bucketMillis - 1) / bucketMillis) ↔
      windowMillis ≤ (2 ^ 32 - 1) * bucketMillis := by
  have hpos : 1 ≤ (windowMillis + bucketMillis - 1) / bucketMillis :=
    (Nat.one_le_div_iff hb).2 (by omega)
  have hcount : (windowMillis + bucketMillis - 1) / bucketMillis < 2 ^ 32 ↔
      windowMillis ≤ (2 ^ 32 - 1) * bucketMillis := by
    rw [Nat.div_lt_iff_lt_mul hb]
    omega
  have hbucket : (Rule.new x id domain descriptors limit windowMillis bucketMillis
      mode).bucketMillis = bucketMillis := Nat.max_eq_left hb
  rw [sumsBuckets_iff ?_ hpos (by rw [hbucket]; exact hb) ?_, hcount]
  · show liveBucketsFor (max windowMillis 1) (max bucketMillis 1) = _
    rw [liveBucketsFor, Nat.max_eq_left hw, Nat.max_eq_left hb, Nat.max_eq_left hpos]
  · intro hlarge
    rw [hbucket]
    have := mt hcount.2 (by omega)
    omega

/-- The number of buckets in terms of the durations. -/
theorem millis_le_iff {bucket : ℕ} : durationToMillis w ≤ (2 ^ 32 - 1) * durationToMillis bucket ↔
    min (w / 10 ^ 6) u64Max ≤ (2 ^ 32 - 1) * (bucket / 10 ^ 6) := by
  unfold durationToMillis
  omega

/-! ## When a rate is exact -/

/-- **A rate resolves to the budget its durations mean if and only if** window and bucket are at
    least a millisecond, the window has fewer than `2 ^ 32` buckets, and the parts of window and
    period below the millisecond do not matter.  They do not for whole milliseconds, nor for a
    window that is the period. -/
theorem rate_exact_iff (hparse : parseRate x input = .ok (count, period))
    (hresolve : resolveRate count period window bucket = .ok resolved) :
    let w := window.getD period
    let b := bucket.getD w
    (RateExact count period w resolved ↔
      10 ^ 6 ≤ w ∧ 10 ^ 6 ≤ b ∧ min (w / 10 ^ 6) u64Max ≤ (2 ^ 32 - 1) * (b / 10 ^ 6) ∧
        CutKeepsBudget count period w) ∧
    (10 ^ 6 ∣ period → 10 ^ 6 ∣ w → w / 10 ^ 6 ≤ u64Max → CutKeepsBudget count period w) ∧
    (w = period → 10 ^ 6 ≤ period → CutKeepsBudget count period w) := by
  intro w b
  obtain ⟨hcount, hperiod⟩ := parseRate_ok hparse
  obtain ⟨hle, rfl⟩ := resolveRate_ok hresolve
  have hmax : durationToMillis w ≤ u64Max := Nat.min_le_right _ _
  refine ⟨⟨fun h => ?_, ?_⟩, fun hp hw hmax => cutKeepsBudget_of_dvd hperiod hp hw hle hmax, ?_⟩
  · refine ⟨one_le_durationToMillis.1 h.window_pos, one_le_durationToMillis.1 h.bucket_pos, ?_,
      (limit_eq_iff hperiod).1 h.limit⟩
    exact millis_le_iff.1 ((new_sumsBuckets_iff h.window_pos h.bucket_pos hmax 0 "" [] _ .enforce).1
      (h.buckets x 0 "" [] .enforce))
  · rintro ⟨hw, hb, hbuckets, hcut⟩
    have hexact := (limit_eq_iff hperiod).2 hcut
    have hge : count ≤ count * durationToMillis w / max (durationToMillis period) 1 := by
      rw [hexact, Nat.le_div_iff_mul_le hperiod]
      exact Nat.mul_le_mul_left count hle
    have hw := one_le_durationToMillis.2 hw
    have hb := one_le_durationToMillis.2 hb
    exact ⟨hexact, hge, hcount.trans_le hge, hw, hb, fun x id domain ds mode =>
      (new_sumsBuckets_iff hw hb hmax id domain ds _ mode).2 (millis_le_iff.2 hbuckets)⟩
  · intro hsame hp
    rw [hsame]
    exact cutKeepsBudget_of_eq hp

/-- A crate that reads two periods below the millisecond grid. -/
def fineCrates : RuleCrates where
  hash := fun _ => 0
  parseDuration := fun text =>
    if text = "500us" then some (5 * 10 ^ 5)
    else if text = "1500us" then some (15 * 10 ^ 5)
    else none

/-- A hundred requests a second, counted in buckets of a quarter of a second. -/
theorem rate_exact_iff_second :
    parseRate fineCrates "100r/s" = .ok (100, Duration.fromSecs 1) ∧
      resolveRate 100 (Duration.fromSecs 1) none (some (25 * 10 ^ 7)) = .ok ⟨100, 1000, 250⟩ ∧
      RateExact 100 (Duration.fromSecs 1) (Duration.fromSecs 1) ⟨100, 1000, 250⟩ := by
  have hparse : parseRate fineCrates "100r/s" = .ok (100, Duration.fromSecs 1) := rfl
  have hresolve : resolveRate 100 (Duration.fromSecs 1) none (some (25 * 10 ^ 7)) =
      .ok ⟨100, 1000, 250⟩ := by decide
  obtain ⟨hiff, -, hsame⟩ := rate_exact_iff hparse hresolve
  exact ⟨hparse, hresolve, hiff.2 ⟨by decide, by decide, by decide, hsame rfl (by decide)⟩⟩

/-- **Three rates that miss their budget.**  A hundred requests each half millisecond are a budget
    of zero; one request each millisecond and a half, over three milliseconds, is a budget of three;
    and of a window of `2 ^ 32` buckets none is summed. -/
theorem fine_rates_miss :
    (parseRate fineCrates "100r/500us" = .ok (100, 5 * 10 ^ 5) ∧
      resolveRate 100 (5 * 10 ^ 5) none none = .ok ⟨0, 0, 0⟩ ∧
      ¬ RateExact 100 (5 * 10 ^ 5) (5 * 10 ^ 5) ⟨0, 0, 0⟩) ∧
    (parseRate fineCrates "1r/1500us" = .ok (1, 15 * 10 ^ 5) ∧
      resolveRate 1 (15 * 10 ^ 5) (some (3 * 10 ^ 6)) none = .ok ⟨3, 3, 3⟩ ∧
      ¬ RateExact 1 (15 * 10 ^ 5) (3 * 10 ^ 6) ⟨3, 3, 3⟩) ∧
    (parseRate fineCrates "1r/s" = .ok (1, Duration.fromSecs 1) ∧
      resolveRate 1 (Duration.fromSecs 1) (some (2 ^ 32 * 10 ^ 6)) (some (10 ^ 6)) =
        .ok ⟨4294967, 2 ^ 32, 1⟩ ∧
      (Rule.new fineCrates 1 "d" [] 4294967 (2 ^ 32) 1 .enforce).liveBuckets = 0 ∧
      ¬ RateExact 1 (Duration.fromSecs 1) (2 ^ 32 * 10 ^ 6) ⟨4294967, 2 ^ 32, 1⟩) := by
  refine ⟨⟨rfl, by decide, fun h => absurd h.limit_pos (by decide)⟩,
    ⟨rfl, by decide, fun h => absurd h.limit (by decide)⟩, rfl, by decide, by decide, fun h => ?_⟩
  exact absurd ((new_sumsBuckets_iff h.window_pos h.bucket_pos (by decide) 1 "d" [] _ .enforce).1
    (h.buckets fineCrates 1 "d" [] .enforce)) (by decide)

end Gabion

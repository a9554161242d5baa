/-
  Limits are 64-bit numbers, the counters of a bucket 32-bit ones.

  A counter that saturates reads `u32::MAX`, which is above every smaller limit.  A limit of
  `u32::MAX` or more is never exceeded by the hits of a single bucket, however many there are
  (`limit_survives_iff`).
-/
import Gabion.Ledger

namespace Gabion

open Function SlotMap

/-! ## Hits of the live buckets -/

/-- The request was served no later than `now` and counts in the rule's bucket of its time. -/
def LimitRequest.DatedFor (req : LimitRequest) (rule : Rule) (now : ℕ) : Prop :=
  req.nowMillis ≤ now ∧ req.bucket = BitVec.ofNat 32 (req.nowMillis / rule.bucketMillis)

instance (req : LimitRequest) (rule : Rule) (now : ℕ) : Decidable (req.DatedFor rule now) :=
  inferInstanceAs (Decidable (_ ∧ _))

namespace Rule

variable (rule : Rule) (keyHash : KeyHash) (now : ℕ)

/-- The request is for the rule and key, at a time whose bucket is still live at `now`. -/
def Live (req : LimitRequest) : Prop :=
  req.ruleFingerprint = rule.fingerprint ∧ req.keyHash = keyHash ∧
    now / rule.bucketMillis < req.nowMillis / rule.bucketMillis + rule.liveBuckets

instance (req : LimitRequest) : Decidable (rule.Live keyHash now req) :=
  inferInstanceAs (Decidable (_ ∧ _))

/-- The true sum of the hits recorded in the live buckets. -/
def liveHits (reqs : List LimitRequest) : ℕ :=
  (reqs.map fun req => if rule.Live keyHash now req then req.hits else 0).sum

/-- No live bucket is from before the last time the bucket number wrapped around. -/
def Unwrapped : Prop :=
  now / rule.bucketMillis < 2 ^ 32 ∨ rule.liveBuckets ≤ rule.current now + 1

instance : Decidable (rule.Unwrapped now) := inferInstanceAs (Decidable (_ ∨ _))

theorem liveBuckets_lt : rule.liveBuckets < 2 ^ 32 := by
  rw [rule.live_eq]
  exact Nat.mod_lt _ (Nat.two_pow_pos 32)

variable {rule keyHash now}

/-- The bucket of a live request is one that `window_total` sums. -/
theorem Live.mem_windowSpan {req : LimitRequest} (hwrap : rule.Unwrapped now)
    (hd : req.DatedFor rule now) (h : rule.Live keyHash now req) :
    req.bucket.toNat ∈ windowSpan (rule.current now) rule.liveBuckets := by
  obtain ⟨hle, hbucket⟩ := hd
  obtain ⟨-, -, hlive⟩ := h
  have hdiv : req.nowMillis / rule.bucketMillis ≤ now / rule.bucketMillis :=
    Nat.div_le_div_right hle
  rw [Gabion.mem_windowSpan, hbucket, BitVec.toNat_ofNat]
  unfold Unwrapped at hwrap
  unfold current at hwrap ⊢
  generalize req.nowMillis / rule.bucketMillis = b, now / rule.bucketMillis = c at *
  omega

/-- The rows of the window hold every live hit. -/
theorem liveHits_le (keyHash : KeyHash) (hwrap : rule.Unwrapped now) (reqs : List LimitRequest)
    (hd : ∀ req ∈ reqs, req.ruleFingerprint = rule.fingerprint → req.DatedFor rule now) :
    rule.liveHits keyHash now reqs ≤ ∑ bucket ∈ windowSpan (rule.current now) rule.liveBuckets,
      counted reqs ⟨rule.fingerprint, keyHash, BitVec.ofNat 32 bucket⟩ := by
  induction reqs with
  | nil => exact Nat.zero_le _
  | cons req rest ih =>
    have hrest := ih fun req' hr => hd req' (List.mem_cons_of_mem _ hr)
    simp only [counted_cons, Finset.sum_add_distrib]
    rw [liveHits, List.map_cons, List.sum_cons]
    refine Nat.add_le_add ?_ hrest
    split_ifs with hlive
    · have hmem := hlive.mem_windowSpan hwrap (hd req List.mem_cons_self hlive.1)
      refine le_trans ?_ (Finset.single_le_sum (fun _ _ => Nat.zero_le _) hmem)
      have hk : req.identity =
          ⟨rule.fingerprint, keyHash, BitVec.ofNat 32 req.bucket.toNat⟩ := by
        rw [LimitRequest.identity, BitVec.ofNat_toNat, BitVec.setWidth_eq, hlive.1, hlive.2.1]
      exact (if_pos hk).ge
    · exact Nat.zero_le _

theorem liveHits_replicate {req : LimitRequest} (hreq : rule.Live keyHash now req)
    (hone : req.hits = 1) (n : ℕ) : rule.liveHits keyHash now (List.replicate n req) = n := by
  rw [liveHits, List.map_replicate, if_pos hreq, hone, List.sum_replicate, smul_eq_mul, mul_one]

end Rule

/-! ## Saturated sums -/

/-- Cutting each summand off at `m` keeps a sum above every bound below `m`. -/
theorem lt_sum_min {S : Finset ℕ} {f : ℕ → ℕ} {a m : ℕ} (ha : a < m) (h : a < ∑ b ∈ S, f b) :
    a < ∑ b ∈ S, min (f b) m := by
  by_cases hall : ∀ b ∈ S, f b ≤ m
  · rwa [Finset.sum_congr rfl fun b hb => min_eq_left (hall b hb)]
  · push Not at hall
    obtain ⟨b, hb, hm⟩ := hall
    calc a < m := ha
      _ = min (f b) m := (min_eq_right hm.le).symm
      _ ≤ ∑ b ∈ S, min (f b) m :=
        Finset.single_le_sum (f := fun b => min (f b) m) (fun _ _ => Nat.zero_le _) hb

theorem counted_replicate_of_ne {req : LimitRequest} {k : CellIdentity} (h : req.identity ≠ k)
    (n : ℕ) : counted (List.replicate n req) k = 0 := by
  rw [counted, List.map_replicate, if_neg h, List.sum_replicate, smul_zero]

namespace Ledger

variable {pins : ℕ → Bool} {s : CellStore .u32} {l : Ledger} {req : LimitRequest} {n : ℕ}
  {fp : Fingerprint} {keyHash : KeyHash} {now bucketMillis live : ℕ}

/-- One request served any number of times is in one row, so a window total of it is at most
    what one counter holds; it is nothing if the row is not in the window. -/
theorem windowTotal_replicate_le (h : s.Registering pins)
    (hrun : (Ledger.mk s .empty).records (List.replicate n req) = some l) :
    l.aggregates.windowTotal fp keyHash now bucketMillis live ≤
      if s.appliesTo fp ∧ req.bucket.toNat ∈ windowSpan (now / bucketMillis % 2 ^ 32) live
        then u32Max else 0 := by
  have hrow : ∀ bucket ∈ windowSpan (now / bucketMillis % 2 ^ 32) live,
      l.aggregates.countFor fp keyHash bucket ≤
        if bucket = req.bucket.toNat then (if s.appliesTo fp then u32Max else 0) else 0 := by
    intro bucket hb
    have hlt : bucket < 2 ^ 32 :=
      (mem_windowSpan.1 hb).1.trans_lt (Nat.mod_lt _ (Nat.two_pow_pos 32))
    rw [records_rows h (sound_start h) hrun]
    split_ifs with happ hb
    · exact min_le_right _ _
    · -- the request is not for another bucket
      rw [counted_replicate_of_ne, Nat.zero_min]
      intro hk
      have hbucket : req.bucket = BitVec.ofNat 32 bucket := congrArg CellIdentity.bucket hk
      exact hb (by rw [hbucket, BitVec.toNat_ofNat, Nat.mod_eq_of_lt hlt])
    · exact le_rfl
    · exact le_rfl
  rw [windowTotal_eq]
  refine (min_le_left _ _).trans ((Finset.sum_le_sum hrow).trans_eq ?_)
  rw [Finset.sum_ite_eq', ← ite_and]
  exact if_congr and_comm rfl rfl

end Ledger

/-! ## The limit -/

/-- **More than the limit in one bucket**: `limit + 1` requests of one hit at a live time are
    accepted, and the window total of them is at most what one counter holds. -/
theorem overfull_bucket {pins : ℕ → Bool} {s : CellStore .u32} {slot : ℕ} {d : RuleDescriptor}
    (h : s.Registering pins) (hslot : s.Holds pins slot d) {rule : Rule}
    (hfp : d.fingerprint = rule.fingerprint) (keyHash : KeyHash) {now time : ℕ} (hle : time ≤ now)
    (hin : now / rule.bucketMillis < time / rule.bucketMillis + rule.liveBuckets) :
    ∃ reqs l, (∀ req ∈ reqs, req.DatedFor rule now) ∧
      (Ledger.mk s .empty).records reqs = some l ∧
      rule.limit < rule.liveHits keyHash now reqs ∧
      l.aggregates.windowTotal rule.fingerprint keyHash now rule.bucketMillis rule.liveBuckets ≤
        if s.appliesTo rule.fingerprint ∧ time / rule.bucketMillis % 2 ^ 32 ∈
          windowSpan (rule.current now) rule.liveBuckets then u32Max else 0 := by
  let req : LimitRequest :=
    { ruleFingerprint := rule.fingerprint, keyHash,
      bucket := BitVec.ofNat 32 (time / rule.bucketMillis), hits := 1,
      ruleLimit := rule.limit, nowMillis := time, reply := none }
  have hreq : rule.Live keyHash now req := ⟨rfl, rfl, hin⟩
  obtain ⟨l, hrun⟩ := Ledger.records_replicate h hslot req hfp.symm (rule.limit + 1)
  refine ⟨_, l, fun req' hr => ?_, hrun, ?_, ?_⟩
  · rw [List.eq_of_mem_replicate hr]
    exact ⟨hle, rfl⟩
  · rw [Rule.liveHits_replicate hreq rfl]
    exact Nat.lt_succ_self _
  · have hbucket : req.bucket.toNat = time / rule.bucketMillis % 2 ^ 32 := BitVec.toNat_ofNat _ _
    rw [← hbucket]
    exact Ledger.windowTotal_replicate_le h hrun

/-- **A limit survives saturation exactly below `u32::MAX`.**  Take a node with any rules, one
    of them, a key and a time.  Whatever requests the node has recorded without rejecting one,
    if the true sum of the live hits is above the rule's limit, so is `window_total`: this
    holds if and only if the limit is below `u32::MAX`, the rule registered last under the
    fingerprint is not the one numbered `u32::MAX`, and no live bucket is from before a wrap
    of the bucket number (or no bucket is live). -/
theorem limit_survives_iff {config : CellStoreConfig} {node : NodeIdentity} {s₀ s : CellStore .u32}
    (hnew : CellStore.new .u32 config node = some s₀) {table : RuleTable}
    (hreg : registerRules s₀ table = some s) {rule : Rule} (hrule : rule ∈ table)
    (keyHash : KeyHash) (now : ℕ) :
    (∀ (reqs : List LimitRequest) (l : Ledger),
      (∀ req ∈ reqs, req.ruleFingerprint = rule.fingerprint → req.DatedFor rule now) →
      (Ledger.mk s .empty).records reqs = some l → rule.limit < rule.liveHits keyHash now reqs →
        rule.limit < l.aggregates.windowTotal rule.fingerprint keyHash now rule.bucketMillis
          rule.liveBuckets) ↔
      rule.liveBuckets = 0 ∨ rule.limit < u32Max ∧
        (∀ last ∈ lastRule table rule.fingerprint, last.id ≠ u32Max) ∧ rule.Unwrapped now := by
  obtain ⟨pins₀, hstart⟩ := CellStore.internRules_registering hnew []
  obtain ⟨pins, hready, hholds, -⟩ := registerRules_holds hstart hreg
  obtain ⟨last, hlast⟩ := lastRule_of_mem hrule
  have hfp : last.descriptor.fingerprint = rule.fingerprint := lastRule_fingerprint hlast
  obtain ⟨slot, hslot⟩ := hholds _ last hlast
  have hsound := Ledger.sound_start hready
  have happ : s.appliesTo rule.fingerprint = true ↔ last.id ≠ u32Max := by
    rw [hslot.appliesTo hready.inv hfp]
    exact bne_iff_ne
  constructor
  · intro hall
    by_contra hnot
    obtain ⟨hlive, hnot⟩ := not_or.1 hnot
    have key : ∀ time ≤ now,
        now / rule.bucketMillis < time / rule.bucketMillis + rule.liveBuckets →
        rule.limit < if s.appliesTo rule.fingerprint ∧ time / rule.bucketMillis % 2 ^ 32 ∈
          windowSpan (rule.current now) rule.liveBuckets then u32Max else 0 := by
      intro time hle hin
      obtain ⟨reqs, l, hdated, hrun, hmany, htotal⟩ :=
        overfull_bucket hready hslot hfp keyHash hle hin
      exact (hall reqs l (fun req hr _ => hdated req hr) hrun hmany).trans_le htotal
    have hnow := key now le_rfl (by omega)
    split_ifs at hnow with hrow
    · refine hnot ⟨hnow, fun last' hl => ?_, ?_⟩
      · cases hlast.symm.trans hl
        exact happ.1 hrow.1
      · -- otherwise the bucket before the wrap is live but not in the window
        by_contra hwrap
        obtain ⟨hbig, hshort⟩ := not_or.1 hwrap
        unfold Rule.current at hshort
        have hlt := rule.liveBuckets_lt
        have hdiv : (now / rule.bucketMillis - rule.current now - 1) * rule.bucketMillis /
            rule.bucketMillis = now / rule.bucketMillis - rule.current now - 1 :=
          Nat.mul_div_cancel _ rule.bucket_pos
        have hwrapped := key ((now / rule.bucketMillis - rule.current now - 1) * rule.bucketMillis)
          (le_trans (Nat.mul_le_mul_right _ (by omega)) (Nat.div_mul_le_self now rule.bucketMillis))
          (by rw [hdiv]; unfold Rule.current; omega)
        rw [hdiv, if_neg] at hwrapped
        · exact absurd hwrapped (Nat.not_lt_zero _)
        · rw [mem_windowSpan]
          unfold Rule.current
          omega
    · exact absurd hnow (Nat.not_lt_zero _)
  · rintro (hzero | ⟨hlimit, hid, hwrap⟩) reqs l hd hrun hmany
    · -- no request is live
      have hle := Rule.liveHits_le keyHash (.inr (by omega)) reqs hd
      rw [hzero, windowSpan_zero, Finset.sum_empty] at hle
      omega
    · rw [Ledger.records_windowTotal hready hsound hrun (happ.2 (hid last hlast)) keyHash now
        rule.bucketMillis rule.liveBuckets_lt]
      exact lt_sum_min hlimit (hmany.trans_le (Rule.liveHits_le keyHash hwrap reqs hd))

/-! ### Two limits to look at -/

open Gabion.Runtime (hourly tinyCrates registered registered_spec)

/-- A limit of 1000 an hour, two hours into the epoch. -/
theorem limit_survives_hourly : ∃ (s₀ s : CellStore .u32) (rule : Rule) (table : RuleTable),
    ruleTable tinyCrates [hourly] = .ok table ∧ rule ∈ table ∧
      CellStore.new .u32 CellStore.tinyConfig CellStore.tinyNode = some s₀ ∧
      registerRules s₀ table = some s ∧
      ∀ (reqs : List LimitRequest) (l : Ledger),
        (∀ req ∈ reqs, req.ruleFingerprint = rule.fingerprint → req.DatedFor rule 7200500) →
        (Ledger.mk s .empty).records reqs = some l → rule.limit < rule.liveHits 3 7200500 reqs →
          rule.limit < l.aggregates.windowTotal rule.fingerprint 3 7200500 rule.bucketMillis
            rule.liveBuckets := by
  have heval : (registered [hourly]).map (fun (rule, table, _) =>
      (decide (rule.limit < u32Max),
        decide (∀ last ∈ lastRule table rule.fingerprint, last.id ≠ u32Max),
        decide (rule.Unwrapped 7200500))) = some (true, true, true) := by decide +kernel
  obtain ⟨⟨rule, table, s⟩, hreg, hvals⟩ := Option.map_eq_some_iff.1 heval
  simp only [Prod.mk.injEq, decide_eq_true_eq] at hvals
  obtain ⟨s₀, htable, hrule, hnew, hreg⟩ := registered_spec hreg
  exact ⟨s₀, s, rule, table, htable, hrule, hnew, hreg,
    (limit_survives_iff hnew hreg hrule 3 7200500).2 (.inr hvals)⟩

/-- Five thousand million requests an hour. -/
def vast : LimitRuleConfig := { hourly with name := "vast", rate := "5000000000r/h" }

/-- A request of two thousand million hits in the hour's first minute. -/
def vastRequest : LimitRequest :=
  { Runtime.hourlyRequest with hits := 2000000000, ruleLimit := 5000000000 }

/-- **Six thousand million hits pass a limit of five thousand million**: their minute's counter
    stands at `u32::MAX`, and so does the window total. -/
theorem vast_limit_disabled : ∃ (s₀ s : CellStore .u32) (rule : Rule) (table : RuleTable)
    (l : Ledger), ruleTable tinyCrates [vast] = .ok table ∧ rule ∈ table ∧
      CellStore.new .u32 CellStore.tinyConfig CellStore.tinyNode = some s₀ ∧
      registerRules s₀ table = some s ∧
      (Ledger.mk s .empty).records [vastRequest, vastRequest, vastRequest] = some l ∧
      vastRequest.DatedFor rule 7200000 ∧ rule.limit = 5000000000 ∧
      rule.liveHits vastRequest.keyHash 7200000 [vastRequest, vastRequest, vastRequest] =
        6000000000 ∧
      l.aggregates.windowTotal rule.fingerprint vastRequest.keyHash 7200000 rule.bucketMillis
        rule.liveBuckets = 4294967295 := by
  have heval : ((registered [vast]).bind fun (rule, _, s) =>
      ((Ledger.mk s .empty).records [vastRequest, vastRequest, vastRequest]).map fun l =>
        (decide (vastRequest.DatedFor rule 7200000), rule.limit,
          rule.liveHits vastRequest.keyHash 7200000 [vastRequest, vastRequest, vastRequest],
          l.aggregates.windowTotal rule.fingerprint vastRequest.keyHash 7200000 rule.bucketMillis
            rule.liveBuckets)) = some (true, 5000000000, 6000000000, 4294967295) := by
    decide +kernel
  obtain ⟨⟨rule, table, s⟩, hreg, hrest⟩ := Option.bind_eq_some_iff.1 heval
  obtain ⟨l, hrun, hvals⟩ := Option.map_eq_some_iff.1 hrest
  simp only [Prod.mk.injEq, decide_eq_true_eq] at hvals
  obtain ⟨hdated, hlimit, htrue, htotal⟩ := hvals
  obtain ⟨s₀, htable, hrule, hnew, hreg⟩ := registered_spec hreg
  exact ⟨s₀, s, rule, table, l, htable, hrule, hnew, hreg, hrun, hdated, hlimit, htrue, htotal⟩

end Gabion

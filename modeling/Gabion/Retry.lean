/-
  The retry time that a rejection advertises.

  A rule rejects until enough of the hits in its window have aged off, and
  `time_until_admit_millis` is the time until then (`Quota.admits_iff`).  A request is admitted
  when all rules that apply admit it, but it is told the time of one of them: the one with the
  longest window in nginx, the first one that rejects in the server.  The window of a rule says
  little about its time: a long window can be about to let go of its hits.
-/
import Gabion.Limiter
import Gabion.Nginx.Access

namespace Gabion

/-! ## One rule and key -/

/-- What a rule compares with its limit: the counts of one key, bucket by bucket. -/
structure Quota where
  bucketMillis : ℕ
  liveBuckets : ℕ
  limit : ℕ
  countFor : ℕ → ℕ
  bucket_pos : 0 < bucketMillis

namespace Quota

variable (q : Quota) (now later hits : ℕ)

def total : ℕ :=
  min (∑ bucket ∈ windowSpan (now / q.bucketMillis % 2 ^ 32) q.liveBuckets, q.countFor bucket) u64Max

def Rejects : Prop := q.limit < min (q.total now + hits) u64Max

instance : Decidable (q.Rejects now hits) := inferInstanceAs (Decidable (_ < _))

/-- The rule's own time until it admits the request. -/
def wait : ℕ :=
  timeUntilAdmitMillis now q.bucketMillis q.liveBuckets q.limit (q.total now) hits q.countFor

/-- Between `now` and `later` nothing but the passing of time changes what the rule sees: the
    bucket numbers fit 32 bits, no hit is dated ahead into a bucket that opens by then, and
    the sums and times are below `u64::MAX`. -/
structure Clear : Prop where
  unwrapped : later / q.bucketMillis < 2 ^ 32
  settled : ∀ bucket, now / q.bucketMillis < bucket → bucket ≤ later / q.bucketMillis →
    q.countFor bucket = 0
  sum_le : ∑ bucket ∈ windowSpan (now / q.bucketMillis) q.liveBuckets, q.countFor bucket + hits ≤
    u64Max
  time_le : (now / q.bucketMillis + q.liveBuckets) * q.bucketMillis ≤ u64Max

end Quota

theorem windowSpan_eq_Ico {current live : ℕ} (h : 0 < live) :
    windowSpan current live = Finset.Ico (current - (live - 1)) (current + 1) := by
  ext bucket
  rw [mem_windowSpan, Finset.mem_Ico]
  omega

/-- **The walk over the buckets** ends at the first one with which enough has aged off. -/
theorem agedOffFrom_spec (countFor : ℕ → ℕ) {need : ℕ} (hneed : need ≤ u64Max) :
    ∀ fuel bucket agedOff : ℕ, agedOff < need →
      need ≤ agedOff + ∑ b ∈ Finset.Ico bucket (bucket + fuel), countFor b →
      ∃ last, agedOffFrom countFor need fuel bucket agedOff = some last ∧ bucket ≤ last ∧
        last < bucket + fuel ∧ agedOff + ∑ b ∈ Finset.Ico bucket last, countFor b < need ∧
        need ≤ agedOff + ∑ b ∈ Finset.Ico bucket (last + 1), countFor b := by
  intro fuel
  induction fuel with
  | zero =>
    intro bucket agedOff hlt hall
    rw [Nat.add_zero, Finset.Ico_self, Finset.sum_empty] at hall
    omega
  | succ fuel ih =>
    intro bucket agedOff hlt hall
    have hsplit : ∀ stop, bucket < stop → ∑ b ∈ Finset.Ico bucket stop, countFor b =
        countFor bucket + ∑ b ∈ Finset.Ico (bucket + 1) stop, countFor b := fun stop h =>
      Finset.sum_eq_sum_Ico_succ_bot h countFor
    unfold agedOffFrom
    dsimp only
    split_ifs with hnow
    · refine ⟨bucket, rfl, le_rfl, by omega, by simpa using hlt, ?_⟩
      rw [hsplit _ (by omega), Finset.Ico_self, Finset.sum_empty]
      omega
    · have hsum : min (agedOff + countFor bucket) u64Max = agedOff + countFor bucket := by omega
      rw [hsum] at hnow ⊢
      rw [hsplit _ (by omega), ← Nat.add_assoc, show bucket + (fuel + 1) = bucket + 1 + fuel by omega]
        at hall
      obtain ⟨last, hwalk, hge, hlast, hbefore, hafter⟩ := ih _ _ (not_le.1 hnow) hall
      refine ⟨last, hwalk, by omega, by omega, ?_, ?_⟩
      · rw [hsplit _ (by omega), ← Nat.add_assoc]
        exact hbefore
      · rw [hsplit _ (by omega), ← Nat.add_assoc]
        exact hafter

/-- What is left of a window fits the limit exactly when the last bucket that has to go is no
    longer live. -/
theorem left_le_iff {countFor : ℕ → ℕ} {current later live last hits limit : ℕ} (hlive : 0 < live)
    (hle : current ≤ later) (hlimit : hits ≤ limit) (hlast : last ≤ current)
    (hbefore : ∑ b ∈ Finset.Ico (current - (live - 1)) last, countFor b <
      ∑ b ∈ Finset.Ico (current - (live - 1)) (current + 1), countFor b + hits - limit)
    (hafter : ∑ b ∈ Finset.Ico (current - (live - 1)) (current + 1), countFor b + hits - limit ≤
      ∑ b ∈ Finset.Ico (current - (live - 1)) (last + 1), countFor b) :
    ∑ b ∈ Finset.Ico (later - (live - 1)) (current + 1), countFor b + hits ≤ limit ↔
      last + live ≤ later := by
  rcases Nat.lt_or_ge (current + 1) (later - (live - 1)) with hgone | hstill
  · rw [Finset.Ico_eq_empty (by omega), Finset.sum_empty]
    omega
  · have hmono : ∀ {a b : ℕ}, a ≤ b → ∑ b ∈ Finset.Ico (current - (live - 1)) a, countFor b ≤
        ∑ b ∈ Finset.Ico (current - (live - 1)) b, countFor b := fun hab =>
      Finset.sum_le_sum_of_subset (Finset.Ico_subset_Ico_right hab)
    have hsplit := Finset.sum_Ico_consecutive countFor
      (show current - (live - 1) ≤ later - (live - 1) by omega) hstill
    constructor
    · intro hfit
      by_contra hc
      have := hmono (show later - (live - 1) ≤ last by omega)
      omega
    · intro hgone
      have := hmono (show last + 1 ≤ later - (live - 1) by omega)
      omega

/-- If not enough is there to age off, the walk ends at no bucket. -/
theorem agedOffFrom_eq_none (countFor : ℕ → ℕ) {need : ℕ} : ∀ fuel bucket agedOff : ℕ,
    agedOff + ∑ b ∈ Finset.Ico bucket (bucket + fuel), countFor b < need →
    agedOffFrom countFor need fuel bucket agedOff = none := by
  intro fuel
  induction fuel with
  | zero => intro bucket agedOff _; rfl
  | succ fuel ih =>
    intro bucket agedOff hlt
    rw [Finset.sum_eq_sum_Ico_succ_bot (by omega), ← Nat.add_assoc,
      show bucket + (fuel + 1) = bucket + 1 + fuel by omega] at hlt
    unfold agedOffFrom
    dsimp only
    rw [if_neg (by omega)]
    refine ih _ _ (lt_of_le_of_lt ?_ hlt)
    omega

section
variable {now bm live limit total hits : ℕ} {countFor : ℕ → ℕ}

/-- What `time_until_admit_millis` waits for, in 32-bit bucket numbers and without overflow: the
    last bucket that has to go. -/
theorem timeUntilAdmitMillis_eq (hbm : 0 < bm) (hlive : 0 < live) (hfit : now / bm < 2 ^ 32)
    (htotal : total = ∑ b ∈ Finset.Ico (now / bm - (live - 1)) (now / bm + 1), countFor b)
    (hover : limit < total + hits) (hsum : total + hits ≤ u64Max)
    (htime : (now / bm + live) * bm ≤ u64Max) (hlimit : hits ≤ limit) : ∃ last,
      timeUntilAdmitMillis now bm live limit total hits countFor = (last + live) * bm - now ∧
      last ≤ now / bm ∧ now / bm < last + live ∧
      ∑ b ∈ Finset.Ico (now / bm - (live - 1)) last, countFor b < total + hits - limit ∧
      total + hits - limit ≤ ∑ b ∈ Finset.Ico (now / bm - (live - 1)) (last + 1), countFor b := by
  rw [timeUntilAdmitMillis, max_eq_left (Nat.succ_le_of_lt hbm),
    max_eq_left (Nat.succ_le_of_lt hlive), Nat.mod_eq_of_lt hfit, min_eq_left hsum]
  generalize now / bm = current at *
  obtain ⟨last, hwalk, hfirst, hlast, hbefore, hafter⟩ := agedOffFrom_spec countFor
    (show total + hits - limit ≤ u64Max by omega)
    (current - (current - (live - 1)) + 1) (current - (live - 1)) 0 (by omega) (by
      rw [show current - (live - 1) + (current - (current - (live - 1)) + 1) = current + 1 by omega]
      omega)
  have hfall : (last + live) * bm ≤ u64Max :=
    le_trans (Nat.mul_le_mul_right _ (by omega)) htime
  rw [Nat.zero_add] at hbefore hafter
  refine ⟨last, ?_, by omega, by omega, hbefore, hafter⟩
  dsimp only
  rw [if_neg (by omega), hwalk, Option.getD_some, min_eq_left hfall]

/-- A request above the limit waits for the newest bucket. -/
theorem timeUntilAdmitMillis_above (hbm : 0 < bm) (hlive : 0 < live) (hfit : now / bm < 2 ^ 32)
    (htotal : total = ∑ b ∈ Finset.Ico (now / bm - (live - 1)) (now / bm + 1), countFor b)
    (hsum : total + hits ≤ u64Max) (htime : (now / bm + live) * bm ≤ u64Max)
    (hlimit : limit < hits) :
    timeUntilAdmitMillis now bm live limit total hits countFor = (now / bm + live) * bm - now := by
  rw [timeUntilAdmitMillis, max_eq_left (Nat.succ_le_of_lt hbm),
    max_eq_left (Nat.succ_le_of_lt hlive), Nat.mod_eq_of_lt hfit, min_eq_left hsum]
  generalize now / bm = current at *
  have hwalk : agedOffFrom countFor (total + hits - limit) (current - (current - (live - 1)) + 1)
      (current - (live - 1)) 0 = none := by
    refine agedOffFrom_eq_none countFor _ _ _ ?_
    rw [show current - (live - 1) + (current - (current - (live - 1)) + 1) = current + 1 by omega]
    omega
  dsimp only
  rw [if_neg (by omega), hwalk, Option.getD_none, min_eq_left htime]

end

namespace Quota

variable {q : Quota} {now later hits : ℕ}

/-- The total at `now`. -/
theorem Clear.total_now (h : q.Clear now later hits) (hle : now ≤ later) : q.total now =
    ∑ bucket ∈ windowSpan (now / q.bucketMillis) q.liveBuckets, q.countFor bucket := by
  have hlt := (Nat.div_le_div_right hle).trans_lt h.unwrapped
  have hs := h.sum_le
  rw [total, Nat.mod_eq_of_lt hlt, min_eq_left (by omega)]

/-- What is left of the window later: the buckets of today that are still live. -/
theorem Clear.total_later (h : q.Clear now later hits) (hle : now ≤ later)
    (hlive : 0 < q.liveBuckets) : q.total later =
    ∑ bucket ∈ Finset.Ico (later / q.bucketMillis - (q.liveBuckets - 1)) (now / q.bucketMillis + 1),
      q.countFor bucket := by
  have hdiv : now / q.bucketMillis ≤ later / q.bucketMillis := Nat.div_le_div_right hle
  have hs := h.sum_le
  have hsettled := h.settled
  rw [total, Nat.mod_eq_of_lt h.unwrapped]
  rw [windowSpan_eq_Ico hlive] at hs ⊢
  generalize now / q.bucketMillis = current, later / q.bucketMillis = current' at *
  have hsum : ∑ bucket ∈ Finset.Ico (current' - (q.liveBuckets - 1)) (current' + 1),
      q.countFor bucket =
      ∑ bucket ∈ Finset.Ico (current' - (q.liveBuckets - 1)) (current + 1), q.countFor bucket := by
    refine (Finset.sum_subset (Finset.Ico_subset_Ico_right (by omega)) fun bucket hb hnot => ?_).symm
    rw [Finset.mem_Ico] at hb hnot
    exact hsettled bucket (by omega) (by omega)
  have hsub : ∑ bucket ∈ Finset.Ico (current' - (q.liveBuckets - 1)) (current + 1),
      q.countFor bucket ≤
      ∑ bucket ∈ Finset.Ico (current - (q.liveBuckets - 1)) (current + 1), q.countFor bucket :=
    Finset.sum_le_sum_of_subset (Finset.Ico_subset_Ico_left (by omega))
  rw [hsum, min_eq_left (by omega)]

/-- A rule that admits the request goes on to admit it. -/
theorem Clear.admits_of_admits (h : q.Clear now later hits) (hle : now ≤ later)
    (hnow : ¬ q.Rejects now hits) : ¬ q.Rejects later hits := by
  have hmono : q.total later ≤ q.total now := by
    rcases Nat.eq_zero_or_pos q.liveBuckets with hzero | hlive
    · rw [total, total, hzero, windowSpan_zero, windowSpan_zero]
    · have hdiv : now / q.bucketMillis ≤ later / q.bucketMillis := Nat.div_le_div_right hle
      rw [h.total_later hle hlive, h.total_now hle, windowSpan_eq_Ico hlive]
      exact Finset.sum_le_sum_of_subset (Finset.Ico_subset_Ico_left (Nat.sub_le_sub_right hdiv _))
  unfold Rejects at hnow ⊢
  omega

/-- The time of a rule that rejects: until the last bucket that has to go ages off. -/
theorem Clear.wait_eq (h : q.Clear now later hits) (hle : now ≤ later) (hlive : 0 < q.liveBuckets)
    (hrej : q.Rejects now hits) (hlimit : hits ≤ q.limit) : ∃ last,
      q.wait now hits = (last + q.liveBuckets) * q.bucketMillis - now ∧
      now < (last + q.liveBuckets) * q.bucketMillis ∧
      (¬ q.Rejects later hits ↔ last + q.liveBuckets ≤ later / q.bucketMillis) := by
  have hdiv : now / q.bucketMillis ≤ later / q.bucketMillis := Nat.div_le_div_right hle
  have hs := h.sum_le
  have htotal := h.total_now hle
  rw [windowSpan_eq_Ico hlive] at hs htotal
  unfold Rejects at hrej ⊢
  obtain ⟨last, hwait, hlast, hafter, hbefore, hgone⟩ := timeUntilAdmitMillis_eq q.bucket_pos hlive
    (hdiv.trans_lt h.unwrapped) htotal (show q.limit < q.total now + hits by omega) (by omega)
    h.time_le hlimit
  refine ⟨last, hwait, (Nat.div_lt_iff_lt_mul q.bucket_pos).1 hafter, ?_⟩
  have hleft := left_le_iff hlive hdiv hlimit hlast (htotal ▸ hbefore) (htotal ▸ hgone)
  have hsub : ∑ bucket ∈ Finset.Ico (later / q.bucketMillis - (q.liveBuckets - 1))
      (now / q.bucketMillis + 1), q.countFor bucket ≤ q.total now := by
    rw [htotal]
    exact Finset.sum_le_sum_of_subset (Finset.Ico_subset_Ico_left (Nat.sub_le_sub_right hdiv _))
  rw [h.total_later hle hlive, ← hleft]
  omega

/-- **The rule's own time is exact.**  A rule whose limit is not below the request's hits admits
    the request from the time on that `time_until_admit_millis` gives, and not before. -/
theorem Clear.admits_iff (h : q.Clear now later hits) (hle : now ≤ later)
    (hlimit : q.Rejects now hits → hits ≤ q.limit) :
    ¬ q.Rejects later hits ↔ now + q.wait now hits ≤ later := by
  by_cases hrej : q.Rejects now hits
  · have hlive : 0 < q.liveBuckets := by
      rcases Nat.eq_zero_or_pos q.liveBuckets with hzero | hpos
      · have hlim := hlimit hrej
        rw [Rejects, total, hzero, windowSpan_zero, Finset.sum_empty] at hrej
        omega
      · exact hpos
    obtain ⟨last, hwait, hafter, hadmits⟩ := h.wait_eq hle hlive hrej (hlimit hrej)
    rw [hadmits, hwait, Nat.le_div_iff_mul_le q.bucket_pos]
    omega
  · -- nothing has to age off
    have hwait : q.wait now hits = 0 := by
      unfold Rejects at hrej
      rw [wait, timeUntilAdmitMillis]
      exact if_pos (by omega)
    simp [hwait, h.admits_of_admits hle hrej, hle]

end Quota

/-- Rules of their own times admit the request later exactly if none of them needs more time. -/
theorem forall_admits_iff {α : Type} {rules : List α} {quota : α → Quota} {now later hits : ℕ}
    (hle : now ≤ later) (hclear : ∀ x ∈ rules, (quota x).Clear now later hits)
    (hlimit : ∀ x ∈ rules, (quota x).Rejects now hits → hits ≤ (quota x).limit) :
    (∀ x ∈ rules, ¬ (quota x).Rejects later hits) ↔
      ∀ x ∈ rules, (quota x).Rejects now hits → now + (quota x).wait now hits ≤ later := by
  refine forall₂_congr fun x hx => ?_
  constructor
  · exact fun h _ => ((hclear x hx).admits_iff hle (hlimit x hx)).1 h
  · intro h
    by_cases hrej : (quota x).Rejects now hits
    · exact ((hclear x hx).admits_iff hle (hlimit x hx)).2 (h hrej)
    · exact (hclear x hx).admits_of_admits hle hrej

/-! ## The least time -/

/-- The total of a window at `later` if no hit is counted after `now`: buckets that open after
    `now` are empty. -/
def quietTotal (countFor : ℕ → ℕ) (bucketMillis liveBuckets now later : ℕ) : ℕ :=
  ∑ bucket ∈ windowSpan (later / bucketMillis) liveBuckets with bucket ≤ now / bucketMillis,
    countFor bucket

theorem quietTotal_eq (countFor : ℕ → ℕ) {bm live now later : ℕ} (hlive : 0 < live)
    (hle : now ≤ later) : quietTotal countFor bm live now later =
      ∑ bucket ∈ Finset.Ico (later / bm - (live - 1)) (now / bm + 1), countFor bucket := by
  have hdiv : now / bm ≤ later / bm := Nat.div_le_div_right hle
  refine Finset.sum_congr ?_ fun _ _ => rfl
  ext bucket
  rw [Finset.mem_filter, windowSpan_eq_Ico hlive, Finset.mem_Ico, Finset.mem_Ico]
  omega

/-- `window_total` sees the quiet total of a store that has no row ahead of `now`. -/
theorem windowTotal_quiet {m : DashMapStore} {fp : Fingerprint} {keyHash : KeyHash}
    {countFor : ℕ → ℕ} {bm live now later : ℕ} (hfit : later / bm < 2 ^ 32)
    (hrows : ∀ bucket < 2 ^ 32, m.countFor fp keyHash bucket =
      if bucket ≤ now / bm then countFor bucket else 0)
    (hsum : quietTotal countFor bm live now later ≤ u64Max) :
    m.windowTotal fp keyHash later bm live = quietTotal countFor bm live now later := by
  have hcount : ∑ bucket ∈ windowSpan (later / bm) live, m.countFor fp keyHash bucket =
      quietTotal countFor bm live now later := by
    rw [quietTotal, Finset.sum_filter]
    refine Finset.sum_congr rfl fun bucket hb => hrows bucket ?_
    rw [mem_windowSpan] at hb
    omega
  rw [windowTotal_eq, Nat.mod_eq_of_lt hfit, hcount, min_eq_left hsum]

/-- The waiting times after which bucket `last` has left the window. -/
theorem isLeast_wait {bm now last live : ℕ} (hbm : 0 < bm) (hnow : now / bm < last + live) :
    IsLeast {d | last + live ≤ (now + d) / bm} ((last + live) * bm - now) := by
  have hlt : now < (last + live) * bm := (Nat.div_lt_iff_lt_mul hbm).1 hnow
  constructor
  · rw [Set.mem_ofPred_eq, Nat.le_div_iff_mul_le hbm]
    omega
  · intro d hd
    rw [Set.mem_ofPred_eq, Nat.le_div_iff_mul_le hbm] at hd
    omega

/-- **The retry time of one rule is the least one.**  The total is that of the live buckets, it
    and the request's hits exceed the limit, no sum overflows, and the bucket numbers up to one
    window from now fit 32 bits.  A request within the limit is told the least time after which,
    with no new hits, the total of the window and its hits are at most the limit; one above the
    limit the least time after which every bucket counted now has left the window.  The totals
    are those that `window_total` reads from a store to which no hit is added. -/
theorem retry_delay_least (now bucketMillis liveBuckets limit hits : ℕ) (countFor : ℕ → ℕ) :
    let bm := max bucketMillis 1
    let live := max liveBuckets 1
    let total := ∑ bucket ∈ windowSpan (now / bm) live, countFor bucket
    let delay := timeUntilAdmitMillis now bucketMillis liveBuckets limit total hits countFor
    limit < total + hits → total + hits ≤ u64Max → now + live * bm ≤ u64Max →
    (now + live * bm) / bm < 2 ^ 32 →
      (hits ≤ limit →
        IsLeast {d | quietTotal countFor bm live now (now + d) + hits ≤ limit} delay) ∧
      (limit < hits → IsLeast {d | ∀ bucket ∈ windowSpan (now / bm) live,
        bucket ∉ windowSpan ((now + d) / bm) live} delay) ∧
      ∀ (m : DashMapStore) fp keyHash, (∀ bucket < 2 ^ 32, m.countFor fp keyHash bucket =
          if bucket ≤ now / bm then countFor bucket else 0) →
        ∀ d ≤ live * bm, m.windowTotal fp keyHash (now + d) bm live =
          quietTotal countFor bm live now (now + d) := by
  intro bm live total delay hover hsum htime hfit
  have hbm : 0 < bm := by omega
  have hlive : 0 < live := by omega
  have htotal : total = ∑ b ∈ Finset.Ico (now / bm - (live - 1)) (now / bm + 1), countFor b := by
    rw [← windowSpan_eq_Ico hlive]
  have hdelay : delay = timeUntilAdmitMillis now bm live limit total hits countFor := by
    simp only [delay, bm, live, timeUntilAdmitMillis, max_assoc, max_self]
  have hnow : now / bm < 2 ^ 32 := (Nat.div_le_div_right (Nat.le_add_right _ _)).trans_lt hfit
  have hend : (now / bm + live) * bm ≤ u64Max := by
    have := Nat.div_mul_le_self now bm
    rw [Nat.add_mul]
    omega
  have hstep : ∀ d, now / bm ≤ (now + d) / bm := fun d => Nat.div_le_div_right (Nat.le_add_right _ _)
  refine ⟨fun hlimit => ?_, fun hlimit => ?_, fun m fp keyHash hrows d hd => ?_⟩
  · obtain ⟨last, hwait, hlast, hafter, hbefore, hgone⟩ :=
      timeUntilAdmitMillis_eq hbm hlive hnow htotal hover hsum hend hlimit
    rw [hdelay, hwait]
    convert isLeast_wait hbm hafter using 1
    ext d
    rw [Set.mem_ofPred_eq, Set.mem_ofPred_eq, quietTotal_eq countFor hlive (Nat.le_add_right _ _)]
    exact left_le_iff hlive (hstep d) hlimit hlast (htotal ▸ hbefore) (htotal ▸ hgone)
  · rw [hdelay, timeUntilAdmitMillis_above hbm hlive hnow htotal hsum hend hlimit]
    convert isLeast_wait hbm (Nat.lt_add_of_pos_right hlive) using 1
    ext d
    have := hstep d
    simp only [Set.mem_ofPred_eq, mem_windowSpan]
    constructor
    · intro hleft
      have := hleft (now / bm)
      omega
    · intro hleft bucket
      omega
  · refine windowTotal_quiet ((Nat.div_le_div_right ?_).trans_lt hfit) hrows ?_
    · omega
    · refine le_trans ?_ (le_trans (Nat.le_add_right total hits) hsum)
      rw [quietTotal_eq countFor hlive (Nat.le_add_right _ _), htotal]
      exact Finset.sum_le_sum_of_subset
        (Finset.Ico_subset_Ico_left (Nat.sub_le_sub_right (hstep d) _))

/-- Three hits in the first second and four in the third, in a window of three: two more fit a
    limit of five when the third second has left the window. -/
theorem retry_delay_third_second :
    timeUntilAdmitMillis 2500 1000 3 5 7 2 (fun b => if b = 0 then 3 else if b = 2 then 4 else 0) =
      2500 ∧
    IsLeast {d | quietTotal (fun b => if b = 0 then 3 else if b = 2 then 4 else 0) 1000 3 2500
      (2500 + d) + 2 ≤ 5} 2500 := by
  have hwait : timeUntilAdmitMillis 2500 1000 3 5 7 2
      (fun b => if b = 0 then 3 else if b = 2 then 4 else 0) = 2500 := by decide +kernel
  have htotal : ∑ b ∈ windowSpan (2500 / max 1000 1) (max 3 1),
      (if b = 0 then 3 else if b = 2 then 4 else 0) = 7 := by decide +kernel
  have h := retry_delay_least 2500 1000 3 5 2 (fun b => if b = 0 then 3 else if b = 2 then 4 else 0)
  simp only [htotal] at h
  have hleast := (h (by decide) (by decide) (by decide) (by decide)).1 (by decide)
  rw [hwait] at hleast
  exact ⟨hwait, hleast⟩

/-! ## nginx -/

namespace Nginx

/-- The budget of an evaluated rule; the clamp is the table's own. -/
def quota (ctx : AccessCtx) (x : Rule × List Descriptor) : Quota where
  bucketMillis := x.1.bucketMillis
  liveBuckets := max x.1.liveBuckets 1
  limit := x.1.limit
  countFor := fun bucket => (ctx.aggregate.get ⟨x.1.fingerprint,
    hashKey ctx.crates x.1.id ctx.domain x.2, BitVec.ofNat 32 bucket⟩).getD 0
  bucket_pos := x.1.bucket_pos

/-- The listed rules that can reject the request. -/
def enforced (ctx : AccessCtx) (vars : VariableLookup) (ruleIndices : List ℕ) :
    List (Rule × List Descriptor) :=
  (ruleIndices.filterMap (evaluated ctx vars)).filter fun x => x.1.mode = .enforce

/-- Those that reject it at `now`. -/
def rejecting (ctx : AccessCtx) (vars : VariableLookup) (ruleIndices : List ℕ) (now : ℕ) :
    List (Rule × List Descriptor) :=
  (enforced ctx vars ruleIndices).filter fun x => (quota ctx x).Rejects now 1

/-- **The longest window waits longest**: no rejecting rule needs more time than the first of
    those with the longest window. -/
def LongestWindowWaits (ctx : AccessCtx) (vars : VariableLookup) (ruleIndices : List ℕ)
    (now : ℕ) : Prop :=
  ∀ x ∈ (rejecting ctx vars ruleIndices now).argmax fun x => x.1.windowMillis,
    ∀ y ∈ rejecting ctx vars ruleIndices now, (quota ctx y).wait now 1 ≤ (quota ctx x).wait now 1

section
variable {ctx : AccessCtx} {vars : VariableLookup} {now : ℕ} {ruleIndices : List ℕ}

theorem quota_total (x : Rule × List Descriptor) :
    (quota ctx x).total now = windowTotalFor ctx now x.1 x.2 := by
  rw [windowTotalFor, AggregateTable.windowTotal_eq, windowTotal_eq, Quota.total,
    max_eq_left (Nat.succ_le_of_lt x.1.bucket_pos)]
  rfl

theorem exceeds_iff (x : Rule × List Descriptor) :
    Exceeds ctx now x.1 x.2 ↔ (quota ctx x).Rejects now 1 := by
  rw [Exceeds, Quota.Rejects, quota_total]
  rfl

/-- What a rejecting rule reports. -/
def rejectInfo (ctx : AccessCtx) (now : ℕ) (x : Rule × List Descriptor) : RejectInfo where
  spec := x.1.spec
  total := (quota ctx x).total now
  nowMillis := now
  deltaUntilAdmitMillis := (quota ctx x).wait now 1

def RuleOutcome.rejection : RuleOutcome → Option RejectInfo
  | .reject info => some info
  | _ => none

theorem evaluateRule_rejection (x : Rule × List Descriptor) :
    (evaluateRule ctx now x.1 x.2).rejection =
      if x.1.mode = .enforce ∧ (quota ctx x).Rejects now 1 then some (rejectInfo ctx now x)
      else none := by
  have hwait : (quota ctx x).wait now 1 = timeUntilAdmitMillis now x.1.bucketMillis
      x.1.liveBuckets x.1.limit (windowTotalFor ctx now x.1 x.2) 1 (quota ctx x).countFor := by
    rw [Quota.wait, quota_total, timeUntilAdmitMillis, timeUntilAdmitMillis]
    simp only [quota, max_assoc, max_self]
  have hexceeds : x.1.limit < min (windowTotalFor ctx now x.1 x.2 + 1) u64Max ↔
      (quota ctx x).Rejects now 1 := exceeds_iff x
  unfold evaluateRule
  by_cases hrej : x.1.mode = .enforce ∧ (quota ctx x).Rejects now 1
  · rw [if_pos hrej, if_neg (by rw [hrej.1]; decide), if_pos ⟨hexceeds.2 hrej.2, hrej.1⟩]
    simp only [RuleOutcome.rejection, rejectInfo, hwait, quota_total]
    rfl
  · rw [if_neg hrej]
    split_ifs with hdisabled
    · rfl
    · rw [if_neg fun hover => hrej ⟨hover.2, hexceeds.1 hover.1⟩]
      rfl

theorem decideOne_rejections (ruleIndices : List ℕ) :
    (ruleIndices.map fun index => decideOne ctx index vars now).filterMap RuleOutcome.rejection =
      (rejecting ctx vars ruleIndices now).map (rejectInfo ctx now) := by
  induction ruleIndices with
  | nil => rfl
  | cons index rest ih =>
    have hspec := decideOne_spec ctx vars now index
    rw [List.map_cons, List.filterMap_cons, ih]
    unfold rejecting enforced
    rw [List.filterMap_cons]
    cases he : evaluated ctx vars index with
    | none =>
      rw [he] at hspec
      have hnone : (decideOne ctx index vars now).rejection = none := by
        generalize decideOne ctx index vars now = outcome at hspec
        cases outcome with
        | allow | reject => cases hspec
        | decline | cardinality | exempt => rfl
      rw [hnone]
    | some x =>
      rw [he] at hspec
      simp only at hspec
      rw [hspec, evaluateRule_rejection x]
      simp only [List.filter_cons, decide_eq_true_eq]
      split_ifs with h1 h2 h3 <;> simp_all

/-- **Of the rejections, `decide_all` keeps** the first with the longest window. -/
theorem foldl_pickLongestWindow (rules : List (Rule × List Descriptor)) :
    (rules.map (rejectInfo ctx now)).foldl (fun worst i => some (pickLongestWindow worst i)) none =
      (rules.argmax fun x => x.1.windowMillis).map (rejectInfo ctx now) := by
  induction rules using List.reverseRecOn with
  | nil => rfl
  | append_singleton rules last ih =>
    rw [List.map_append, List.foldl_append, ih, List.argmax_concat]
    cases rules.argmax fun x => x.1.windowMillis with
    | none => rfl
    | some worst =>
      simp only [Option.map_some, List.map_cons, List.map_nil, List.foldl_cons, List.foldl_nil,
        pickLongestWindow, rejectInfo, Rule.spec, ge_iff_le]
      split_ifs <;> first | rfl | omega

theorem foldl_add_worst (outcomes : List RuleOutcome) : ∀ t : Tally,
    (outcomes.foldl Tally.add t).worstReject = (outcomes.filterMap RuleOutcome.rejection).foldl
      (fun worst i => some (pickLongestWindow worst i)) t.worstReject := by
  induction outcomes with
  | nil => intro t; rfl
  | cons outcome rest ih =>
    intro t
    rw [List.foldl_cons, ih]
    cases outcome <;> rfl

/-- **`decide_all` rejects** exactly if some listed rule does, and reports the time of the first
    rule with the longest window. -/
theorem decideAll_eq_reject {queue queue' : RequestQueue} {info : RejectInfo} :
    decideAll ctx queue ruleIndices vars now = some (.reject info, queue') ↔ queue' = queue ∧
      ((rejecting ctx vars ruleIndices now).argmax fun x => x.1.windowMillis).map
        (rejectInfo ctx now) = some info := by
  have hworst : (ruleIndices.foldl (fun t index => t.add (decideOne ctx index vars now))
      Tally.new).worstReject = ((rejecting ctx vars ruleIndices now).argmax
        fun x => x.1.windowMillis).map (rejectInfo ctx now) := by
    rw [← List.foldl_map (f := fun index => decideOne ctx index vars now) (g := Tally.add),
      foldl_add_worst, decideOne_rejections]
    exact foldl_pickLongestWindow _
  rw [← hworst]
  unfold decideAll
  dsimp only
  generalize ruleIndices.foldl (fun t index => t.add (decideOne ctx index vars now)) Tally.new = t
  cases t.worstReject with
  | some worst => simp [and_comm, eq_comm]
  | none =>
    dsimp only
    split_ifs <;> simp

theorem decideAll_not_reject_iff (queue : RequestQueue) : (∀ info queue',
    decideAll ctx queue ruleIndices vars now ≠ some (.reject info, queue')) ↔
      ∀ x ∈ enforced ctx vars ruleIndices, ¬ (quota ctx x).Rejects now 1 := by
  have hnil : rejecting ctx vars ruleIndices now = [] ↔
      ∀ x ∈ enforced ctx vars ruleIndices, ¬ (quota ctx x).Rejects now 1 := by
    simp [rejecting, List.filter_eq_nil_iff]
  rw [← hnil, ← List.argmax_eq_none (f := fun x => x.1.windowMillis)]
  constructor
  · intro hnot
    by_contra hne
    obtain ⟨worst, hworst⟩ := Option.ne_none_iff_exists'.1 hne
    exact hnot _ queue (decideAll_eq_reject.2 ⟨rfl, by rw [hworst]; rfl⟩)
  · intro hempty info queue' h
    have hinfo := (decideAll_eq_reject.1 h).2
    rw [hempty] at hinfo
    cases hinfo

end

end Nginx

/-! ## The server -/

namespace Server

variable {x : RuleCrates} {counts : DashMapStore} {request : LimitRequest} {now : ℕ}

/-- The budget of a rule that matches the request. -/
def quota (x : RuleCrates) (counts : DashMapStore) (request : LimitRequest) (rule : Rule) :
    Quota where
  bucketMillis := rule.bucketMillis
  liveBuckets := rule.liveBuckets
  limit := rule.limit
  countFor := counts.countFor rule.fingerprint
    (hashKey x rule.id request.domain request.descriptors)
  bucket_pos := rule.bucket_pos

/-- The matching rules that can reject the request: one more than the buffer for the planned
    hits holds is looked at. -/
def enforced (l : SharedLimiter) (request : LimitRequest) : List Rule :=
  ((l.ruleTable.matching l.crates request.domain request.descriptors).take
    (maxMatchedRules + 1)).filter fun rule => rule.mode = .enforce

/-- Those that reject it at `now`. -/
def rejecting (l : SharedLimiter) (counts : DashMapStore) (request : LimitRequest) (now : ℕ) :
    List Rule :=
  (enforced l request).filter fun rule =>
    (quota l.crates counts request rule).Rejects now request.hits

/-- **The first rejection waits longest**: no rejecting rule needs more time than the first. -/
def FirstRejectionWaits (l : SharedLimiter) (counts : DashMapStore) (request : LimitRequest)
    (now : ℕ) : Prop :=
  ∀ first rest, rejecting l counts request now = first :: rest → ∀ rule ∈ rest,
    (quota l.crates counts request rule).wait now request.hits ≤
      (quota l.crates counts request first).wait now request.hits

theorem quota_total (rule : Rule) :
    (quota x counts request rule).total now = windowTotalFor x counts request now rule :=
  (windowTotal_eq counts rule.fingerprint _ now rule.bucketMillis rule.liveBuckets).symm

theorem quota_rejects (rule : Rule) : (quota x counts request rule).Rejects now request.hits ↔
    rule.limit < min (windowTotalFor x counts request now rule + request.hits) u64Max := by
  rw [Quota.Rejects, quota_total]
  rfl

theorem rejectContext_duration (rule : Rule) :
    (rejectContext x counts request now rule).durationUntilResetMillis =
      (quota x counts request rule).wait now request.hits := by
  rw [Quota.wait, quota_total]
  rfl

variable (x counts request now) in
/-- **Pass 1 ends at the first rule that rejects**, of the rules it looks at. -/
theorem planRules_cases : ∀ (rules : List Rule) (planned : List Planned)
    (tightest : Option QuotaContext), planned.length ≤ maxMatchedRules →
    match ((rules.take (maxMatchedRules - planned.length + 1)).filter fun rule =>
        rule.mode = .enforce).filter fun rule => (quota x counts request rule).Rejects now request.hits
      with
    | [] => ∃ plan, planRules x counts request now rules planned tightest = .ok plan
    | rule :: _ => planRules x counts request now rules planned tightest =
        .error (.reject .globalLimit (some (rejectContext x counts request now rule)))
  | [], planned, tightest, _ => by
    rw [List.take_nil]
    exact ⟨_, rfl⟩
  | rule :: rules, planned, tightest, hlen => by
    rw [List.take_succ_cons, List.filter_filter, List.filter_cons, planRules]
    by_cases hrej : min (windowTotalFor x counts request now rule + request.hits) u64Max >
        rule.limit ∧ rule.mode = .enforce
    · have hhead : ((quota x counts request rule).Rejects now request.hits &&
          decide (rule.mode = .enforce)) = true := by
        simpa [quota_rejects] using hrej
      rw [if_pos hhead]
      exact if_pos hrej
    · have hhead : ¬ ((quota x counts request rule).Rejects now request.hits &&
          decide (rule.mode = .enforce)) = true := by
        simpa [quota_rejects] using hrej
      rw [if_neg hhead]
      dsimp only
      rw [if_neg hrej]
      split_ifs with hroom
      · have ih := planRules_cases rules (planned ++ [plan x request now rule])
          (some (pickMinRemainingCtx tightest (quotaContext x counts request now rule)))
          (by rw [List.length_append, List.length_singleton]; omega)
        rw [List.length_append, List.length_singleton, List.filter_filter,
          show maxMatchedRules - (planned.length + 1) + 1 = maxMatchedRules - planned.length by omega]
          at ih
        exact ih
      · rw [show maxMatchedRules - planned.length = 0 by omega, List.take_zero]
        exact ⟨_, rfl⟩

variable {l : SharedLimiter}

/-- `evaluate` rejects over a limit exactly if a rule that it looks at does, and reports the
    time of the first one. -/
theorem evaluate_eq_reject {context : Option RejectContext} :
    evaluate l counts request now = .error (.reject .globalLimit context) ↔
      request.violatesCardinality l.cardinalityLimits = false ∧
      ∃ first rest, rejecting l counts request now = first :: rest ∧
        context = some (rejectContext l.crates counts request now first) := by
  unfold evaluate
  split_ifs with hcard
  · simp [hcard]
  · have hcases := planRules_cases l.crates counts request now
      (l.ruleTable.matching l.crates request.domain request.descriptors) [] none
      (Nat.zero_le _)
    change match rejecting l counts request now with
      | [] => _
      | rule :: _ => _ at hcases
    rw [Bool.not_eq_true] at hcard
    cases hrej : rejecting l counts request now with
    | nil =>
      rw [hrej] at hcases
      obtain ⟨plan, hplan⟩ := hcases
      rw [hplan]
      simp
    | cons first rest =>
      rw [hrej] at hcases
      simp only at hcases
      rw [hcases]
      simp [hcard, eq_comm]

theorem evaluate_not_reject_iff (hcard : request.violatesCardinality l.cardinalityLimits = false) :
    (∀ context, evaluate l counts request now ≠ .error (.reject .globalLimit context)) ↔
      ∀ rule ∈ enforced l request,
        ¬ (quota l.crates counts request rule).Rejects now request.hits := by
  have hnil : rejecting l counts request now = [] ↔ ∀ rule ∈ enforced l request,
      ¬ (quota l.crates counts request rule).Rejects now request.hits := by
    simp [rejecting, List.filter_eq_nil_iff]
  rw [← hnil]
  constructor
  · intro hnot
    by_contra hne
    obtain ⟨first, rest, hrej⟩ := List.exists_cons_of_ne_nil hne
    exact hnot _ (evaluate_eq_reject.2 ⟨hcard, first, rest, hrej, rfl⟩)
  · intro hempty context h
    obtain ⟨-, first, rest, hrej, -⟩ := evaluate_eq_reject.1 h
    rw [hempty] at hrej
    cases hrej

end Server

/-- **When the advertised time is honest.**  A request is rejected, by rules whose limits are not
    below its hits, and from then on no hit is counted or comes in from ahead of its time.
    Made again when the advertised time has passed it is not rejected if and only if no rule
    that rejected it needs more time than the one whose time was advertised: in nginx the first
    with the longest window, in the server the first that rejects. -/
theorem retry_honest_iff (now : ℕ) :
    (∀ (ctx : Nginx.AccessCtx) (vars : Nginx.VariableLookup) (ruleIndices : List ℕ)
      (queue queue' laterQueue : Nginx.RequestQueue) (info : Nginx.RejectInfo),
      Nginx.decideAll ctx queue ruleIndices vars now = some (.reject info, queue') →
      (∀ x ∈ Nginx.enforced ctx vars ruleIndices,
        (Nginx.quota ctx x).Rejects now 1 → 1 ≤ x.1.limit) →
      (∀ x ∈ Nginx.enforced ctx vars ruleIndices,
        (Nginx.quota ctx x).Clear now (now + info.deltaUntilAdmitMillis) 1) →
      ((∀ info' queue'', Nginx.decideAll ctx laterQueue ruleIndices vars
          (now + info.deltaUntilAdmitMillis) ≠ some (.reject info', queue'')) ↔
        Nginx.LongestWindowWaits ctx vars ruleIndices now)) ∧
    (∀ (l : Server.SharedLimiter) (counts : DashMapStore) (request : Server.LimitRequest)
      (context : Server.RejectContext),
      Server.evaluate l counts request now = .error (.reject .globalLimit (some context)) →
      (∀ rule ∈ Server.enforced l request,
        (Server.quota l.crates counts request rule).Rejects now request.hits →
          request.hits ≤ rule.limit) →
      (∀ rule ∈ Server.enforced l request, (Server.quota l.crates counts request rule).Clear now
        (now + context.durationUntilResetMillis) request.hits) →
      ((∀ context', Server.evaluate l counts request (now + context.durationUntilResetMillis) ≠
          .error (.reject .globalLimit context')) ↔
        Server.FirstRejectionWaits l counts request now)) := by
  constructor
  · intro ctx vars ruleIndices queue queue' laterQueue info hdecide hlimit hclear
    obtain ⟨-, hinfo⟩ := Nginx.decideAll_eq_reject.1 hdecide
    obtain ⟨x, hx, rfl⟩ := Option.map_eq_some_iff.1 hinfo
    have hx : x ∈ (Nginx.rejecting ctx vars ruleIndices now).argmax fun x => x.1.windowMillis := hx
    rw [Nginx.decideAll_not_reject_iff, forall_admits_iff (Nat.le_add_right _ _) hclear hlimit]
    simp only [Nginx.LongestWindowWaits, Nginx.rejecting, List.mem_filter, decide_eq_true_eq,
      and_imp, Nat.add_le_add_iff_left]
    constructor
    · intro hwait y hy z hz hrej
      cases Option.mem_unique hx hy
      exact hwait z hz hrej
    · exact fun hwait z hz hrej => hwait x hx z hz hrej
  · intro l counts request context heval hlimit hclear
    obtain ⟨hcard, first, rest, hrej, hcontext⟩ := Server.evaluate_eq_reject.1 heval
    cases hcontext
    rw [Server.rejectContext_duration] at hclear ⊢
    rw [Server.evaluate_not_reject_iff hcard,
      forall_admits_iff (Nat.le_add_right _ _) hclear hlimit]
    have hmem : ∀ rule, rule ∈ Server.enforced l request ∧
        (Server.quota l.crates counts request rule).Rejects now request.hits ↔
          rule ∈ first :: rest := fun rule => by
      rw [← hrej, Server.rejecting, List.mem_filter, decide_eq_true_eq]
    simp only [← and_imp, hmem, Nat.add_le_add_iff_left, Server.FirstRejectionWaits, hrej,
      List.cons.injEq]
    constructor
    · rintro hwait _ _ ⟨rfl, rfl⟩ rule hrule
      exact hwait rule (List.mem_cons_of_mem _ hrule)
    · intro hwait rule hrule
      rcases List.mem_cons.1 hrule with rfl | hrule
      · exact le_rfl
      · exact hwait first rest ⟨rfl, rfl⟩ rule hrule

/-! ### Two rules on one address -/

namespace Nginx

/-- Two requests a minute and one in ten seconds, in buckets of a second. -/
def stackedConfigs : List RuleConfig :=
  [{ siteConfig 2 with name := "minute", window := Duration.fromSecs 60 },
    { siteConfig 1 with name := "burst", window := Duration.fromSecs 10 }]

/-- Every address has made a request in the first second and one in the last of the minute. -/
def stackedSite : AccessCtx where
  crates := siteCrates
  rules := (compileWith siteCrates .default siteCompiler stackedConfigs).toOption.getD []
  aggregate := ⟨fun k => if k.bucket = 0 ∨ k.bucket = 59 then some 1 else none⟩
  domain := "nginx"
  cardinality := .default

/-- One rule alone: the burst has to wait for its own hit to age off, and no longer. -/
theorem retry_honest_burst : ∃ info queue',
    decideAll stackedSite siteQueue [1] siteVars 59900 = some (.reject info, queue') ∧
      ∀ info' queue'', decideAll stackedSite siteQueue [1] siteVars
        (59900 + info.deltaUntilAdmitMillis) ≠ some (.reject info', queue'') := by
  have hrule : (enforced stackedSite siteVars [1]).map (fun x =>
      (x.1.bucketMillis, x.1.liveBuckets, x.1.limit)) = [(1000, 10, 1)] := by decide +kernel
  have hreject : (decideAll stackedSite siteQueue [1] siteVars 59900).map (fun p =>
      match p.1 with | .reject info => info.deltaUntilAdmitMillis | _ => 0) = some 9100 := by
    decide +kernel
  obtain ⟨x, henforced, hx⟩ := List.map_eq_singleton_iff.1 hrule
  simp only [Prod.mk.injEq] at hx
  obtain ⟨⟨outcome, queue'⟩, hdecide, hdelta⟩ := Option.map_eq_some_iff.1 hreject
  cases outcome with
  | allow | cardinality | decline => cases hdelta
  | reject info =>
    change info.deltaUntilAdmitMillis = 9100 at hdelta
    refine ⟨info, queue', hdecide, ((retry_honest_iff 59900).1 stackedSite siteVars [1] siteQueue
      queue' siteQueue info hdecide ?_ ?_).2 ?_⟩
    · intro y hy _
      rw [henforced, List.mem_singleton] at hy
      rw [hy, hx.2.2]
    · intro y hy
      rw [henforced, List.mem_singleton] at hy
      have hcount : ∀ bucket, (quota stackedSite y).countFor bucket =
          if BitVec.ofNat 32 bucket = 0 ∨ BitVec.ofNat 32 bucket = 59 then 1 else 0 := by
        intro bucket
        simp only [quota, stackedSite]
        split_ifs <;> rfl
      have hbucket : (quota stackedSite y).bucketMillis = 1000 := by rw [hy]; exact hx.1
      have hlive : (quota stackedSite y).liveBuckets = 10 := by
        rw [hy]; simp only [quota, hx.2.1]; rfl
      rw [hdelta]
      refine ⟨?_, fun bucket hfrom hto => ?_, ?_, ?_⟩
      · rw [hbucket]; decide
      · rw [hbucket] at hfrom hto
        rw [hcount]
        have : bucket < 70 := by omega
        interval_cases bucket <;> first | omega | decide
      · rw [hbucket, hlive]; simp only [hcount]; decide +kernel
      · rw [hbucket, hlive]; decide
    · intro y hy z hz
      have hy := List.argmax_mem hy
      rw [rejecting, henforced] at hy hz
      rw [List.mem_singleton.1 (List.mem_filter.1 hy).1,
        List.mem_singleton.1 (List.mem_filter.1 hz).1]

end Nginx

namespace Server

/-- The same two rules in a server. -/
def stackedLimiter : SharedLimiter where
  crates := Nginx.siteCrates
  ruleTable := [.new Nginx.siteCrates 1 "nginx" [⟨"addr", "*"⟩] 2 60000 1000 .enforce,
    .new Nginx.siteCrates 2 "nginx" [⟨"addr", "*"⟩] 1 10000 1000 .enforce]
  cardinalityLimits := ⟨16, 512, 128⟩

def stackedRequest : LimitRequest where
  domain := "nginx"
  descriptors := [⟨"addr", "10.0.0.1"⟩]
  hits := 1

end Server

/-- **The rule with the longest window hides the burst rule.**  The minute is over in 100 ms and
    lets go of its first hit; the burst rule needs nine seconds more.  Both the nginx module and
    the server say 100 ms, and reject the request again then. -/
theorem minute_hides_burst :
    (∃ info queue' info' queue'',
      Nginx.decideAll Nginx.stackedSite Nginx.siteQueue [0, 1] Nginx.siteVars 59900 =
        some (.reject info, queue') ∧
      (∀ x ∈ Nginx.enforced Nginx.stackedSite Nginx.siteVars [0, 1], 1 ≤ x.1.limit) ∧
      info.deltaUntilAdmitMillis = 100 ∧
      Nginx.decideAll Nginx.stackedSite Nginx.siteQueue [0, 1] Nginx.siteVars (59900 + 100) =
        some (.reject info', queue'')) ∧
    (∃ context context',
      Server.evaluate Server.stackedLimiter ⟨Nginx.stackedSite.aggregate.get⟩ Server.stackedRequest
        59900 = .error (.reject .globalLimit (some context)) ∧
      (∀ rule ∈ Server.enforced Server.stackedLimiter Server.stackedRequest, 1 ≤ rule.limit) ∧
      context.durationUntilResetMillis = 100 ∧
      Server.evaluate Server.stackedLimiter ⟨Nginx.stackedSite.aggregate.get⟩ Server.stackedRequest
        (59900 + 100) = .error (.reject .globalLimit (some context'))) := by
  constructor
  · have hnow : (Nginx.decideAll Nginx.stackedSite Nginx.siteQueue [0, 1] Nginx.siteVars 59900).map
        (fun p => match p.1 with | .reject info => some info.deltaUntilAdmitMillis | _ => none) =
          some (some 100) := by decide +kernel
    have hlater : (Nginx.decideAll Nginx.stackedSite Nginx.siteQueue [0, 1] Nginx.siteVars 60000).map
        (fun p => match p.1 with | .reject info => some info.deltaUntilAdmitMillis | _ => none) =
          some (some 9000) := by decide +kernel
    have hlimit : ∀ x ∈ Nginx.enforced Nginx.stackedSite Nginx.siteVars [0, 1], 1 ≤ x.1.limit := by
      decide +kernel
    obtain ⟨⟨outcome, queue'⟩, hnow, hdelta⟩ := Option.map_eq_some_iff.1 hnow
    obtain ⟨⟨outcome', queue''⟩, hlater, hdelta'⟩ := Option.map_eq_some_iff.1 hlater
    cases outcome with
    | allow | cardinality | decline => cases hdelta
    | reject info =>
      cases outcome' with
      | allow | cardinality | decline => cases hdelta'
      | reject info' => exact ⟨info, queue', info', queue'', hnow, hlimit, Option.some.inj hdelta, hlater⟩
  · refine ⟨⟨2, 0, 100⟩, ⟨1, 0, 9000⟩, ?_, ?_, rfl, ?_⟩
    · decide +kernel
    · decide +kernel
    · decide +kernel

end Gabion

/-
  Bucket numbers are quotients cut off at 32 bits.

  `window_total` and `expire_at` compare them as if they never wrapped around.  Their answers
  are about the true buckets as long as the current one is below 2³²; from then on a hit of
  2³² buckets ago stands in the current bucket (`window_accounting_iff`).
-/
import Gabion.Ledger

namespace Gabion

open Function SlotMap

/-- Hits on a key at some time. -/
structure Hit where
  keyHash : KeyHash
  time : ℕ
  hits : ℕ
deriving DecidableEq, Repr

/-- The hits as the server records them: the bucket is `(now / bucket_millis) as u32`. -/
def Hit.request (d : RuleDescriptor) (bucketMillis : ℕ) (h : Hit) : LimitRequest where
  ruleFingerprint := d.fingerprint
  keyHash := h.keyHash
  bucket := BitVec.ofNat 32 (h.time / bucketMillis)
  hits := h.hits
  ruleLimit := d.limit
  nowMillis := h.time
  reply := none

/-- The hits on the key whose true bucket is one of the last `live` up to the one of `now`. -/
def hitsInWindow (hits : List Hit) (keyHash : KeyHash) (now bucketMillis live : ℕ) : ℕ :=
  (hits.map fun h =>
    if h.keyHash = keyHash ∧ now / bucketMillis < h.time / bucketMillis + live then h.hits else 0).sum

theorem hitsInWindow_cons (h : Hit) (rest : List Hit) (keyHash : KeyHash)
    (now bucketMillis live : ℕ) : hitsInWindow (h :: rest) keyHash now bucketMillis live =
      (if h.keyHash = keyHash ∧ now / bucketMillis < h.time / bucketMillis + live then h.hits else 0) +
        hitsInWindow rest keyHash now bucketMillis live := by
  rw [hitsInWindow, List.map_cons, List.sum_cons, hitsInWindow]

/-! ## Below the wrap -/

section
variable (d : RuleDescriptor) (keyHash : KeyHash) {now bucketMillis : ℕ} (live : ℕ)

/-- One hit counts in the window if its true bucket is in it. -/
theorem window_hit (hnow : now / bucketMillis < 2 ^ 32) {h : Hit} (ht : h.time ≤ now) :
    (∑ bucket ∈ windowSpan (now / bucketMillis) live,
      if (h.request d bucketMillis).identity = ⟨d.fingerprint, keyHash, BitVec.ofNat 32 bucket⟩
        then h.hits else 0) =
      if h.keyHash = keyHash ∧ now / bucketMillis < h.time / bucketMillis + live
        then h.hits else 0 := by
  have hle : h.time / bucketMillis ≤ now / bucketMillis := Nat.div_le_div_right ht
  -- buckets up to the current one are told apart by their 32 bits
  have hiff : ∀ bucket ∈ windowSpan (now / bucketMillis) live,
      ((h.request d bucketMillis).identity = ⟨d.fingerprint, keyHash, BitVec.ofNat 32 bucket⟩ ↔
        h.keyHash = keyHash ∧ h.time / bucketMillis = bucket) := by
    intro bucket hb
    have hb := (mem_windowSpan.1 hb).1
    simp only [LimitRequest.identity, Hit.request, CellIdentity.mk.injEq, true_and]
    refine and_congr_right fun _ => ?_
    rw [← BitVec.toNat_inj, BitVec.toNat_ofNat, BitVec.toNat_ofNat, Nat.mod_eq_of_lt (by omega),
      Nat.mod_eq_of_lt (by omega)]
  rw [Finset.sum_congr rfl fun bucket hb => if_congr (hiff bucket hb) rfl rfl]
  by_cases hk : h.keyHash = keyHash
  · simp only [hk, true_and]
    rw [Finset.sum_ite_eq]
    refine if_congr ?_ rfl rfl
    rw [mem_windowSpan]
    exact and_iff_right hle
  · simp [hk]

/-- **Below the wrap the window's rows are the hits of the true buckets.** -/
theorem window_hits (hnow : now / bucketMillis < 2 ^ 32) (hits : List Hit)
    (ht : ∀ h ∈ hits, h.time ≤ now) :
    ∑ bucket ∈ windowSpan (now / bucketMillis) live,
      counted (hits.map (Hit.request d bucketMillis)) ⟨d.fingerprint, keyHash, BitVec.ofNat 32 bucket⟩ =
      hitsInWindow hits keyHash now bucketMillis live := by
  induction hits with
  | nil => exact Finset.sum_const_zero
  | cons h rest ih =>
    have hone := window_hit d keyHash live hnow (ht h List.mem_cons_self)
    have hrest := ih fun h' hh => ht h' (List.mem_cons_of_mem _ hh)
    simp only [List.map_cons, counted_cons, Finset.sum_add_distrib, hitsInWindow_cons]
    rw [hrest]
    exact congrArg (· + _) hone

end

/-! ## At the wrap -/

/-- The window total of recorded hits is the number of hits in the true window. -/
def WindowExact (s : CellStore .u32) (d : RuleDescriptor) (keyHash : KeyHash)
    (now bucketMillis live : ℕ) : Prop :=
  ∀ (hits : List Hit) (l : Ledger), (∀ h ∈ hits, h.time ≤ now) →
    (∀ k, counted (hits.map (Hit.request d bucketMillis)) k ≤ u32Max) →
    (Ledger.mk s .empty).records (hits.map (Hit.request d bucketMillis)) = some l →
      l.aggregates.windowTotal d.fingerprint keyHash now bucketMillis live =
        hitsInWindow hits keyHash now bucketMillis live

/-- Expiry leaves no cell of hits that are more than the live buckets old. -/
def ExpiryExact (s : CellStore .u32) (d : RuleDescriptor) (now : ℕ) : Prop :=
  ∀ (hits : List Hit) (l : Ledger), (∀ h ∈ hits, h.time ≤ now) →
    (Ledger.mk s .empty).records (hits.map (Hit.request d d.bucketMillis)) = some l →
      ∀ h ∈ hits, h.time / d.bucketMillis + d.liveBuckets < now / d.bucketMillis →
        ∀ id : CellId, id.identity = (h.request d d.bucketMillis).identity →
          (l.store.expireAt now []).1.toMap id = ⊥

/-- A hit of 2³² buckets ago. -/
def staleHit (keyHash : KeyHash) (now bucketMillis : ℕ) : Hit where
  keyHash := keyHash
  time := (now / bucketMillis - 2 ^ 32) * bucketMillis
  hits := 1

section
variable {keyHash : KeyHash} {now bucketMillis : ℕ}

theorem staleHit_bucket (hbm : 0 < bucketMillis) :
    (staleHit keyHash now bucketMillis).time / bucketMillis = now / bucketMillis - 2 ^ 32 :=
  Nat.mul_div_cancel _ hbm

theorem staleHit_earlier : (staleHit keyHash now bucketMillis).time ≤ now :=
  (Nat.mul_le_mul_right _ (Nat.sub_le _ _)).trans (Nat.div_mul_le_self _ _)

/-- It is recorded in the current bucket. -/
theorem staleHit_request (hbm : 0 < bucketMillis) (hnow : 2 ^ 32 ≤ now / bucketMillis)
    (d : RuleDescriptor) : ((staleHit keyHash now bucketMillis).request d bucketMillis).bucket =
      BitVec.ofNat 32 (now / bucketMillis % 2 ^ 32) := by
  show BitVec.ofNat 32 ((staleHit keyHash now bucketMillis).time / bucketMillis) = _
  rw [staleHit_bucket hbm, ← BitVec.toNat_inj, BitVec.toNat_ofNat, BitVec.toNat_ofNat, Nat.mod_mod,
    ← Nat.mod_eq_sub_mod hnow]

end

variable {pins : ℕ → Bool} {s : CellStore .u32} {slot : ℕ} {d : RuleDescriptor} {keyHash : KeyHash}
  {now bucketMillis live : ℕ}

/-- The number of live buckets fits its 32 bits. -/
theorem RuleDescriptor.liveBuckets_lt (d : RuleDescriptor) (hbm : 0 < d.bucketMillis)
    (hwindow : d.windowMillis ≤ u32Max) : d.liveBuckets < 2 ^ 32 := by
  have hmax : u32Max < 2 ^ 32 := by decide
  rw [RuleDescriptor.liveBuckets, if_neg hbm.ne']
  rcases Nat.eq_zero_or_eq_succ_pred d.windowMillis with hw | hw
  · rw [hw, Nat.div_eq_of_lt (by omega)]
    decide
  · rw [hw, show d.windowMillis.pred.succ + d.bucketMillis - 1 = d.windowMillis.pred + d.bucketMillis
      by omega, Nat.add_div_right _ hbm]
    have := Nat.div_le_self d.windowMillis.pred d.bucketMillis
    omega

theorem windowExact_iff (h : s.Registering pins) (hd : s.Holds pins slot d)
    (hlocal : d.appliesLocally = true) (hbm : 0 < bucketMillis) (hlive : live < 2 ^ 32) :
    WindowExact s d keyHash now bucketMillis live ↔ now / bucketMillis < 2 ^ 32 ∨ live = 0 := by
  have hsound := Ledger.sound_start h
  have happ : s.appliesTo d.fingerprint = true := by
    rw [hd.appliesTo h.inv rfl]
    exact hlocal
  constructor
  · intro hexact
    by_contra hnot
    obtain ⟨hnow, hzero⟩ := not_or.1 hnot
    replace hnow := not_lt.1 hnow
    -- the stale hit is read from the current bucket
    have hrun := Ledger.records_first h hd ((staleHit keyHash now bucketMillis).request d
      bucketMillis) rfl
    have htotal := hexact [staleHit keyHash now bucketMillis] _
      (by intro h' hh; rw [List.mem_singleton.1 hh]; exact staleHit_earlier) ?_ hrun
    · rw [Ledger.records_windowTotal h hsound hrun happ keyHash now bucketMillis hlive] at htotal
      have hcur : now / bucketMillis % 2 ^ 32 ∈ windowSpan (now / bucketMillis % 2 ^ 32) live := by
        rw [mem_windowSpan]; omega
      have hpos : 1 ≤ ∑ bucket ∈ windowSpan (now / bucketMillis % 2 ^ 32) live,
          min (counted [(staleHit keyHash now bucketMillis).request d bucketMillis]
            ⟨d.fingerprint, keyHash, BitVec.ofNat 32 bucket⟩) u32Max := by
        refine le_trans ?_ (Finset.single_le_sum (fun _ _ => Nat.zero_le _) hcur)
        rw [counted_cons, if_pos]
        · show 1 ≤ min (1 + 0) u32Max
          decide
        · rw [LimitRequest.identity, staleHit_request hbm hnow]
          rfl
      rw [htotal, hitsInWindow_cons, if_neg] at hpos
      · exact absurd hpos (Nat.not_succ_le_zero 0)
      · rw [staleHit_bucket hbm]
        omega
    · intro k
      rw [List.map_singleton, counted_cons]
      show (if _ then 1 else 0) + 0 ≤ u32Max
      split_ifs <;> decide
  · rintro (hnow | rfl) hits l ht hsat hrun
    · rw [Ledger.records_windowTotal h hsound hrun happ keyHash now bucketMillis hlive,
        Nat.mod_eq_of_lt hnow, ← window_hits d keyHash live hnow hits ht]
      exact Finset.sum_congr rfl fun bucket _ => min_eq_left (hsat _)
    · rw [Ledger.records_windowTotal h hsound hrun happ keyHash now bucketMillis hlive,
        windowSpan_zero, Finset.sum_empty]
      -- no true bucket is among the last 0
      symm
      refine List.sum_eq_zero fun n hn => ?_
      obtain ⟨h', hh, rfl⟩ := List.mem_map.1 hn
      have := Nat.div_le_div_right (c := bucketMillis) (ht h' hh)
      rw [if_neg (by omega)]

theorem expiryExact_iff (h : s.Registering pins) (hd : s.Holds pins slot d)
    (hbm : 0 < d.bucketMillis) (hwindow : d.windowMillis ≤ u32Max) :
    ExpiryExact s d now ↔ now / d.bucketMillis < 2 ^ 32 := by
  have hcur : (d.currentEpoch now).toNat = now / d.bucketMillis % 2 ^ 32 := by
    rw [RuleDescriptor.currentEpoch, if_neg hbm.ne', BitVec.toNat_ofNat]
  have hlive := d.liveBuckets_lt hbm hwindow
  constructor
  · intro hexact
    by_contra hnow
    replace hnow := not_lt.1 hnow
    have hrun := Ledger.records_first h hd ((staleHit 0 now d.bucketMillis).request d
      d.bucketMillis) rfl
    obtain ⟨hsound, hstep, hmap⟩ := Ledger.records_spec _ (Ledger.sound_start h) hrun
    have hgone := hexact [staleHit 0 now d.bucketMillis] _
      (by intro h' hh; rw [List.mem_singleton.1 hh]; exact staleHit_earlier) hrun
      (staleHit 0 now d.bucketMillis) (List.mem_singleton_self _)
      (by rw [staleHit_bucket hbm]; omega)
      (((staleHit 0 now d.bucketMillis).request d d.bucketMillis).identity.ofNode s.localIdentity)
      rfl
    -- its bucket is the current one, so it stays
    have hbucket : (((staleHit 0 now d.bucketMillis).request d d.bucketMillis).identity.ofNode
        s.localIdentity).bucket = BitVec.ofNat 32 (now / d.bucketMillis % 2 ^ 32) :=
      staleHit_request hbm hnow d
    rw [(hd.rowStep hstep).expireAt_toMap hsound.inv rfl, hcur, hbucket, BitVec.toNat_ofNat,
      Nat.mod_mod, if_neg (by omega)] at hgone
    exact CellStore.ingestRow_toMap_ne_bot h.inv hd rfl h.inv.pos (h.isActive 0) [] hgone
  · intro hnow hits l ht hrun h' hh hold id hid
    obtain ⟨hsound, hstep, -⟩ := Ledger.records_spec _ (Ledger.sound_start h) hrun
    have hfp : id.ruleFingerprint = d.fingerprint := congrArg CellIdentity.ruleFingerprint hid
    have hbucket : id.bucket = BitVec.ofNat 32 (h'.time / d.bucketMillis) :=
      congrArg CellIdentity.bucket hid
    rw [(hd.rowStep hstep).expireAt_toMap hsound.inv hfp, hcur, hbucket, BitVec.toNat_ofNat,
      Nat.mod_eq_of_lt hnow, Nat.mod_eq_of_lt (by omega), if_pos hold]

/-- **Window accounting is exact exactly below 2³² buckets.**  Take a node with any rules, the
    last registered of them being `d`, any key and time.  For every bucket width and number of
    live buckets, `window_total` gives the hits of the true window, whatever was recorded
    before, if and only if the true bucket of `now` is below 2³² (or no bucket is live).
    `expire_at` removes every cell that is more than the live buckets of `d` old if and only
    if the same holds for the width of `d`.  The shared-memory table sums as the server
    does. -/
theorem window_accounting_iff {config : CellStoreConfig} {node : NodeIdentity} {s₀ s : CellStore .u32}
    (hnew : CellStore.new .u32 config node = some s₀) (ds : List RuleDescriptor)
    {d : RuleDescriptor} {slot : ℕ} (hreg : (s₀.internRules ds).internRule d = (s, some slot))
    (hlocal : d.appliesLocally = true) (hbm : 0 < d.bucketMillis) (hwindow : d.windowMillis ≤ u32Max)
    (keyHash : KeyHash) (now : ℕ) :
    (∀ bucketMillis live, 0 < bucketMillis → live < 2 ^ 32 →
      (WindowExact s d keyHash now bucketMillis live ↔ now / bucketMillis < 2 ^ 32 ∨ live = 0)) ∧
    (ExpiryExact s d now ↔ now / d.bucketMillis < 2 ^ 32) ∧
    ∀ (table : AggregateTable) (m : DashMapStore), table.get = m.cells →
      ∀ bucketMillis live, 0 < bucketMillis → 0 < live →
        table.windowTotal d.fingerprint keyHash now bucketMillis live =
          m.windowTotal d.fingerprint keyHash now bucketMillis live := by
  obtain ⟨pins₀, hstart⟩ := CellStore.internRules_registering hnew ds
  obtain ⟨pins, hready, hd, -⟩ := hstart.internRule_holds hreg
  refine ⟨fun bucketMillis live hpos hlive => windowExact_iff hready hd hlocal hpos hlive,
    expiryExact_iff hready hd hbm hwindow, ?_⟩
  intro table m hget bucketMillis live hpos hlive
  rw [table.windowTotal_eq, hget, max_eq_left hpos, max_eq_left hlive]

/-! ### Two clocks to look at -/

/-- Five seconds into the epoch, a rule of sixty one-second buckets. -/
theorem window_accounting_early : ∃ (s₀ s : CellStore .u32) (slot : ℕ),
    CellStore.new .u32 CellStore.tinyConfig CellStore.tinyNode = some s₀ ∧
      (s₀.internRules []).internRule Runtime.tinyRule = (s, some slot) ∧
      WindowExact s Runtime.tinyRule 3 5000 1000 60 ∧ ExpiryExact s Runtime.tinyRule 5000 := by
  have hslot : ((tinyStore.internRules []).internRule Runtime.tinyRule).2 = some 0 := by
    decide +kernel
  have hreg : (tinyStore.internRules []).internRule Runtime.tinyRule =
      (((tinyStore.internRules []).internRule Runtime.tinyRule).1, some 0) := Prod.ext rfl hslot
  obtain ⟨hwindow, hexpiry, -⟩ := window_accounting_iff tinyStore_new [] hreg (by decide)
    (by decide) (by decide) 3 5000
  exact ⟨tinyStore, _, 0, tinyStore_new, hreg,
    (hwindow 1000 60 (by decide) (by decide)).2 (.inl (by decide)), hexpiry.2 (by decide)⟩

/-- Buckets of a millisecond, two of them live. -/
def fastRule : RuleDescriptor := { Runtime.tinyRule with windowMillis := 2, bucketMillis := 1 }

/-- Four hits in the last millisecond before the bucket number wraps around for the 418th
    time, in November 2026. -/
def wrapHit : Hit where
  keyHash := 3
  time := 418 * 2 ^ 32 - 1
  hits := 4

/-- **A millisecond later the four hits are gone from the window, and eleven milliseconds later
    their cell is still there.** -/
theorem window_total_wraps : ∃ (s₀ s : CellStore .u32) (slot : ℕ) (l : Ledger),
    CellStore.new .u32 CellStore.tinyConfig CellStore.tinyNode = some s₀ ∧
      (s₀.internRules []).internRule fastRule = (s, some slot) ∧
      (Ledger.mk s .empty).records [wrapHit.request fastRule 1] = some l ∧
      l.aggregates.windowTotal fastRule.fingerprint 3 (418 * 2 ^ 32) 1 2 = 0 ∧
      hitsInWindow [wrapHit] 3 (418 * 2 ^ 32) 1 2 = 4 ∧
      (l.store.expireAt (418 * 2 ^ 32 + 10) []).1.activeLen = 1 := by
  have heval : (((Ledger.mk ((tinyStore.internRules []).internRule fastRule).1 .empty).records
        [wrapHit.request fastRule 1]).map fun l =>
          (((tinyStore.internRules []).internRule fastRule).2,
            l.aggregates.windowTotal fastRule.fingerprint 3 (418 * 2 ^ 32) 1 2,
            hitsInWindow [wrapHit] 3 (418 * 2 ^ 32) 1 2,
            (l.store.expireAt (418 * 2 ^ 32 + 10) []).1.activeLen)) = some (some 0, 0, 4, 1) := by
    decide +kernel
  obtain ⟨l, hrun, hvals⟩ := Option.map_eq_some_iff.1 heval
  simp only [Prod.mk.injEq] at hvals
  obtain ⟨hslot, htotal, htrue, hactive⟩ := hvals
  exact ⟨tinyStore, _, 0, l, tinyStore_new, Prod.ext rfl hslot, hrun, htotal, htrue, hactive⟩

end Gabion

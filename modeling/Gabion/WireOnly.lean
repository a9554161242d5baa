/-
  How long cells of unregistered rules live.

  A rule known from the wire only has the default descriptor: buckets of one second, a
  window of sixty.  `expire_at` measures the bucket number a peer has sent with it, whatever
  the width of the peer's own buckets (`expireAt_unregistered`).  Peers with buckets of a
  second or more are safe for 61 seconds (`unknown_rule_life_iff`); numbers of finer buckets
  grow faster than the clock of the receiver (`fine_bucket_stays`).
-/
import Gabion.Refinement

namespace Gabion

open Function

namespace CellStore

variable {w : CountWidth} {pins : ℕ → Bool} {s s' : CellStore w} {fp : Fingerprint}

/-! ## Unregistered rules -/

/-- If the rule is interned at all, it has the default descriptor. -/
def Unregistered (fp : Fingerprint) (s : CellStore w) : Prop :=
  ∀ r, s.ruleDictionary.Live r → (s.ruleDictionary.descriptors r).fingerprint = fp →
    s.ruleDictionary.descriptors r = .wireOnly fp

theorem RulesGrow.unregistered (h : RulesGrow s s') (hu : Unregistered fp s) :
    Unregistered fp s' := by
  intro r hr hfp
  rcases h.new r hr with hlive | ⟨fp', hd, -⟩
  · have hkeep := (h.keep r hlive).2
    rw [hkeep] at hfp ⊢
    exact hu r hlive hfp
  · rw [hd] at hfp ⊢
    exact congrArg RuleDescriptor.wireOnly hfp

theorem FreeStep.unregistered (h : FreeStep pins s s') (hu : Unregistered fp s) :
    Unregistered fp s' := by
  intro r hr hfp
  obtain ⟨hlive, hkeep⟩ := h.rules r hr
  rw [hkeep] at hfp ⊢
  exact hu r hlive hfp

/-- Only a registration changes the descriptor of an unregistered rule. -/
theorem call_unregistered (h : s.toCellTable.Inv pins) {c : StoreCall w}
    (hc : ∀ d, c = .internRule d → d.fingerprint ≠ fp) (hu : Unregistered fp s) :
    Unregistered fp (s.call c) := by
  cases c with
  | internRule d =>
    show Unregistered fp (s.internRule d).1
    cases hr : (s.internRule d).2 with
    | some r =>
      obtain ⟨pins', -, -, -, hreg⟩ := internRule_some h (Prod.ext rfl hr)
      intro y hy hfp
      by_cases hyr : y = r
      · rw [hyr, hreg.desc_self] at hfp
        exact absurd hfp (hc d rfl)
      · rw [hreg.desc y hyr] at hfp ⊢
        exact hu y (((hreg.live y).1 hy).resolve_right hyr) hfp
    | none =>
      intro y hy hfp
      rw [(internRule_none h (Prod.ext rfl hr)).2] at hy hfp ⊢
      exact hu y hy hfp
  | internNode id => exact (internNode_grows h id).rules.unregistered hu
  | ingestLocal obs => exact (ingestLocal_step h obs []).rules.unregistered hu
  | mergeRemote obs => exact (mergeRemote_step h obs []).rules.unregistered hu
  | expire cur live => exact (expire_spec h cur live []).1.unregistered hu
  | expireAt now => exact (expire_spec h (s.epochScratch now) s.liveScratch []).1.unregistered hu
  | fillFrame maxCells dest =>
    show Unregistered fp (s.fillFrameFor maxCells dest).1
    unfold Unregistered
    rw [fillFrameFor_eq, (sameData_fillFrame s _ maxCells).table]
    exact hu
  | frontier c => exact hu
  | clearDirty => exact hu
  | clear => exact (clearLoop_spec h s.capacity).1.unregistered hu

theorem run_unregistered {config : CellStoreConfig} {id : NodeIdentity} {s₀ : CellStore w}
    (hnew : new w config id = some s₀) (fp : Fingerprint) (calls : List (StoreCall w))
    (hcalls : ∀ d, .internRule d ∈ calls → d.fingerprint ≠ fp) :
    (∃ pins, (s₀.run calls).toCellTable.Inv pins) ∧ Unregistered fp (s₀.run calls) := by
  obtain ⟨h0, hl0, -, hnone, -⟩ := new_spec hnew
  obtain ⟨pins, h, -⟩ := run_inv h0 hl0 calls
  have hu : Unregistered fp s₀ := fun r hr => absurd hr (hnone r)
  refine ⟨⟨pins, h⟩, run_induct h0 hl0 hu fun s pins c hc h' hu' => ?_⟩
  exact call_unregistered h' (fun d hd => hcalls d (hd ▸ hc)) hu'

/-! ## Expiry -/

/-- **Expiry of an unregistered rule**: a cell goes when its bucket number is more than sixty
    behind the seconds of the receiver. -/
theorem expireAt_unregistered (h : s.toCellTable.Inv pins) (now : ℕ) (sink : List CellExpiration)
    {k : CellId} (hu : Unregistered k.ruleFingerprint s) :
    (s.expireAt now sink).1.toMap k =
      if k.bucket.toNat + 60 < now / 1000 % 2 ^ 32 then ⊥ else s.toMap k := by
  have hexp : (s.expireAt now sink).1.toMap k = if s.agedAt now k then ⊥ else s.toMap k := by
    rw [← agedAt_eq h]
    exact expire_toMap h _ _ sink k
  rw [hexp]
  cases hmap : s.toMap k with
  | bot => simp
  | coe c =>
    -- the cell keeps its rule interned
    obtain ⟨x, hx, hid, -⟩ := h.toMap_eq_coe.1 hmap
    have hfp : (s.ruleDictionary.descriptors (s.cells x).key.rule).fingerprint =
        k.ruleFingerprint := congrArg CellId.ruleFingerprint hid
    have hfind : s.ruleDictionary.find k.ruleFingerprint = some (s.cells x).key.rule :=
      h.rules.find_iff.2 ⟨h.rule_live hx, hfp⟩
    have hdesc := h.descriptor_rule hx
    rw [hu _ (h.rule_live hx) hfp] at hdesc
    have haged : s.agedAt now k = decide (k.bucket.toNat + 60 < now / 1000 % 2 ^ 32) := by
      simp only [agedAt, hfind, Option.bind_some, hdesc]
      simp [RuleDescriptor.liveBuckets, RuleDescriptor.currentEpoch, RuleDescriptor.wireOnly,
        RuleDescriptor.default]
    simp only [haged, decide_eq_true_eq]

/-- The bucket of a time, in buckets of at least a second, is at most its second. -/
theorem currentEpoch_le {d : RuleDescriptor} (hd : 1000 ≤ d.bucketMillis) (u : ℕ) :
    (d.currentEpoch u).toNat ≤ u / 1000 := by
  have hne : d.bucketMillis ≠ 0 := by omega
  rw [RuleDescriptor.currentEpoch, if_neg hne, BitVec.toNat_ofNat]
  exact (Nat.mod_le _ _).trans (Nat.div_le_div_left hd (by norm_num))

/-- One hit in bucket 62000 of a rule the receiver does not know. -/
def fineHit (w : CountWidth) : Observation w where
  ruleFingerprint := 7
  keyHash := 3
  bucket := 62000
  origin := 2
  incarnation := 1
  count := 1
  lastUpdateMillis := 0
  count_le := w.one_le_max

theorem fineHit_merged (w : CountWidth) : ∃ s₀ : CellStore w,
    new w tinyConfig tinyNode = some s₀ ∧
      (s₀.run [.mergeRemote [fineHit w]]).toMap (fineHit w).id = WithBot.some 1 := by
  have hrun : (new w tinyConfig tinyNode).map (fun s₀ =>
      let s := s₀.run [.mergeRemote [fineHit w]]
      (s.isActive 0, s.idOf 0, (s.cells 0).count)) = some (true, (fineHit w).id, 1) := by
    cases w <;> decide +kernel
  obtain ⟨s₀, hnew, hvals⟩ := Option.map_eq_some_iff.1 hrun
  simp only [Prod.mk.injEq] at hvals
  obtain ⟨⟨pins, h⟩, -⟩ := run_unregistered hnew 7 [.mergeRemote [fineHit w]] (by simp)
  exact ⟨s₀, hnew, h.toMap_eq_coe.2 ⟨0, hvals⟩⟩

/-- **Cells of unknown rules have a bounded life**, exactly for senders with buckets of at least a
    second: while the seconds of the receiver fit 32 bits, a cell merged with the sender's
    bucket of time `u` does not survive an `expire_at` 61 seconds later. -/
theorem unknown_rule_life_iff (w : CountWidth) (sender : RuleDescriptor)
    (hb : 1 ≤ sender.bucketMillis) :
    (∀ (config : CellStoreConfig) (id : NodeIdentity) (s₀ : CellStore w)
        (before after : List (StoreCall w)) (obs : Observation w) (u now : ℕ),
        new w config id = some s₀ →
        (∀ d, .internRule d ∈ before ++ after → d.fingerprint ≠ obs.ruleFingerprint) →
        obs.bucket = sender.currentEpoch u → now / 1000 < 2 ^ 32 → u + 61000 ≤ now →
        ((s₀.run (before ++ .mergeRemote [obs] :: after)).expireAt now []).1.toMap obs.id = ⊥) ↔
      1000 ≤ sender.bucketMillis := by
  constructor
  · intro hlife
    by_contra hlt
    obtain ⟨s₀, hnew, hmap⟩ := fineHit_merged w
    have hne : sender.bucketMillis ≠ 0 := by omega
    have hbucket : (fineHit w).bucket = sender.currentEpoch (62000 * sender.bucketMillis) := by
      rw [RuleDescriptor.currentEpoch, if_neg hne, Nat.mul_div_cancel _ hb]
      rfl
    have hgone := hlife tinyConfig tinyNode s₀ [] [] (fineHit w) (62000 * sender.bucketMillis)
      (62000 * sender.bucketMillis + 61000) hnew (by simp) hbucket (by omega) le_rfl
    obtain ⟨⟨pins, h⟩, hu⟩ := run_unregistered hnew 7 [.mergeRemote [fineHit w]] (by simp)
    -- the receiver is still behind the bucket
    have hnot : ¬ (fineHit w).id.bucket.toNat + 60 <
        (62000 * sender.bucketMillis + 61000) / 1000 % 2 ^ 32 := by
      have hbucket : (fineHit w).id.bucket.toNat = 62000 := rfl
      have hdiv : (62000 * sender.bucketMillis + 61000) / 1000 = 62 * sender.bucketMillis + 61 := by
        omega
      rw [hbucket, hdiv, Nat.mod_eq_of_lt (by omega)]
      omega
    rw [List.nil_append, expireAt_unregistered h _ [] hu, if_neg hnot, hmap] at hgone
    cases hgone
  · intro hle config id s₀ before after obs u now hnew hcalls hbucket hnow hlate
    obtain ⟨⟨pins, h⟩, hu⟩ := run_unregistered hnew obs.ruleFingerprint
      (before ++ .mergeRemote [obs] :: after) (by simpa using hcalls)
    rw [expireAt_unregistered h now [] hu, if_pos]
    have hsent := currentEpoch_le hle u
    rw [Nat.mod_eq_of_lt hnow]
    show obs.bucket.toNat + 60 < now / 1000
    rw [hbucket]
    omega

/-- Hits in one-second buckets, merged in their bucket and looked at 61 seconds later. -/
theorem unknown_rule_life_seconds : ∃ s₀ : CellStore .u32,
    new .u32 tinyConfig tinyNode = some s₀ ∧
      ((s₀.run [.mergeRemote [tinyHits]]).expireAt 66000 []).1.toMap tinyHits.id = ⊥ := by
  obtain ⟨s₀, hnew, -⟩ := fineHit_merged .u32
  have hlife := (unknown_rule_life_iff .u32 .default (by decide)).2 (by decide)
  exact ⟨s₀, hnew, hlife tinyConfig tinyNode s₀ [] [] tinyHits 5000 66000 hnew (by simp)
    (by decide) (by decide) (by decide)⟩

/-- Hits in the last bucket, as a sender with buckets of a millisecond numbers it. -/
def finestHits : Observation .u32 :=
  { tinyHits with
    bucket := ({ RuleDescriptor.default with bucketMillis := 1 } : RuleDescriptor).currentEpoch
      (2 ^ 32 - 1) }

/-- **A cell that no `expire_at` frees.** -/
theorem fine_bucket_stays : ∃ s₀ : CellStore .u32, new .u32 tinyConfig tinyNode = some s₀ ∧
    ∀ now, ((s₀.run [.mergeRemote [finestHits]]).expireAt now []).1.toMap finestHits.id =
      WithBot.some 4 := by
  have hcell : let s := tinyStore.run [.mergeRemote [finestHits]]
      s.isActive 0 = true ∧ s.idOf 0 = finestHits.id ∧ (s.cells 0).count = 4 := by decide +kernel
  obtain ⟨⟨pins, h⟩, hu⟩ := run_unregistered tinyStore_new 7 [.mergeRemote [finestHits]] (by simp)
  refine ⟨tinyStore, tinyStore_new, fun now => ?_⟩
  have hbucket : finestHits.id.bucket.toNat = 2 ^ 32 - 1 := by decide
  have hlt := Nat.mod_lt (now / 1000) (Nat.two_pow_pos 32)
  rw [expireAt_unregistered h now [] hu, if_neg (by omega)]
  exact h.toMap_eq_coe.2 ⟨0, hcell⟩

end CellStore

end Gabion

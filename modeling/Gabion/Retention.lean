/-
  Which counts an expiry leaves (`expire_at` against `window_total`).

  Admission sums the buckets of a rule's own window.  Expiry knows one descriptor for each
  fingerprint: the one registered last, with window and bucket clamped to 32 bits.  The two
  agree at a time exactly if the descriptor keeps the oldest bucket of the window
  (`keeps`).
-/
import Gabion.Agreement
import Gabion.ServerConfig

namespace Gabion

open Function SlotMap

/-! ## Windows -/

namespace Rule

variable (rule : Rule) (now : ℕ)

/-- The current bucket of the rule. -/
def current : ℕ := now / rule.bucketMillis % 2 ^ 32

/-- The bucket lies in the window `[current - live_buckets + 1, current]`. -/
def inWindow (bucket : BucketEpoch) : Prop :=
  bucket.toNat ≤ rule.current now ∧ rule.current now < bucket.toNat + rule.liveBuckets

instance (bucket : BucketEpoch) : Decidable (rule.inWindow now bucket) :=
  inferInstanceAs (Decidable (_ ∧ _))

/-- The oldest bucket of the window. -/
def oldest : ℕ := rule.current now - (rule.liveBuckets - 1)

theorem current_lt : rule.current now < 2 ^ 32 := Nat.mod_lt _ (Nat.two_pow_pos 32)

theorem oldest_inWindow (h : rule.liveBuckets ≠ 0) :
    rule.inWindow now (BitVec.ofNat 32 (rule.oldest now)) := by
  have hlt := rule.current_lt now
  have hold : (BitVec.ofNat 32 (rule.oldest now)).toNat = rule.oldest now := by
    rw [BitVec.toNat_ofNat, Nat.mod_eq_of_lt]
    unfold oldest
    omega
  rw [inWindow, hold, oldest]
  omega

variable {rule now}

theorem oldest_le {bucket : BucketEpoch} (h : rule.inWindow now bucket) :
    rule.oldest now ≤ bucket.toNat := by
  obtain ⟨h1, h2⟩ := h
  unfold oldest
  omega

end Rule

/-- The rule of the table that was registered last under the fingerprint. -/
def lastRule : RuleTable → Fingerprint → Option Rule
  | [], _ => none
  | rule :: rest, fp => (lastRule rest fp).or (if rule.fingerprint = fp then some rule else none)

/-- The descriptor keeps every bucket of the rule's window at `now`. -/
def RuleDescriptor.keepsWindow (d : RuleDescriptor) (rule : Rule) (now : ℕ) : Prop :=
  rule.liveBuckets = 0 ∨ (d.currentEpoch now).toNat ≤ rule.oldest now + d.liveBuckets

instance (d : RuleDescriptor) (rule : Rule) (now : ℕ) : Decidable (d.keepsWindow rule now) :=
  inferInstanceAs (Decidable (_ ∨ _))

/-- The descriptor registered for the rule's fingerprint keeps its window at `now`. -/
def RuleTable.keeps (table : RuleTable) (rule : Rule) (now : ℕ) : Prop :=
  ∀ last ∈ lastRule table rule.fingerprint, last.descriptor.keepsWindow rule now

instance (table : RuleTable) (rule : Rule) (now : ℕ) : Decidable (table.keeps rule now) :=
  inferInstanceAs (Decidable (∀ last ∈ _, _))

theorem lastRule_fingerprint : ∀ {table : RuleTable} {fp : Fingerprint} {rule : Rule},
    lastRule table fp = some rule → rule.fingerprint = fp
  | rule :: rest, fp, last, h => by
    unfold lastRule at h
    rcases Option.or_eq_some_iff.1 h with h | ⟨-, h⟩
    · exact lastRule_fingerprint h
    · split_ifs at h with hf
      cases h
      exact hf

theorem lastRule_mem : ∀ {table : RuleTable} {fp : Fingerprint} {rule : Rule},
    lastRule table fp = some rule → rule ∈ table
  | first :: rest, fp, rule, h => by
    unfold lastRule at h
    rcases Option.or_eq_some_iff.1 h with h | ⟨-, h⟩
    · exact List.mem_cons_of_mem first (lastRule_mem h)
    · split_ifs at h
      cases h
      exact List.mem_cons_self

theorem lastRule_eq_none : ∀ {table : RuleTable} {fp : Fingerprint},
    lastRule table fp = none → ∀ rule ∈ table, rule.fingerprint ≠ fp
  | [], _, _ => by simp
  | rule :: rest, fp, h => by
    unfold lastRule at h
    obtain ⟨h1, h2⟩ := Option.or_eq_none_iff.1 h
    intro rule' hmem
    rcases List.mem_cons.1 hmem with rfl | hmem
    · intro hf
      rw [if_pos hf] at h2
      cases h2
    · exact lastRule_eq_none h1 rule' hmem

theorem lastRule_of_mem {table : RuleTable} {rule : Rule} (h : rule ∈ table) :
    ∃ last, lastRule table rule.fingerprint = some last := by
  cases hl : lastRule table rule.fingerprint with
  | some last => exact ⟨last, rfl⟩
  | none => exact absurd rfl (lastRule_eq_none hl rule h)

theorem lastRule_of_distinct {table : RuleTable} (hd : (table.map Rule.fingerprint).Nodup)
    {rule : Rule} (h : rule ∈ table) : lastRule table rule.fingerprint = some rule := by
  obtain ⟨last, hlast⟩ := lastRule_of_mem h
  have heq : last = rule :=
    List.inj_on_of_nodup_map hd (lastRule_mem hlast) h (lastRule_fingerprint hlast)
  rw [hlast, heq]

/-! ## Registered descriptors -/

namespace CellStore

variable {w : CountWidth} {pins : ℕ → Bool} {s s' : CellStore w} {slot : ℕ} {d : RuleDescriptor}

/-- The slot holds the descriptor, and a reference of its own. -/
structure Holds (pins : ℕ → Bool) (s : CellStore w) (slot : ℕ) (d : RuleDescriptor) : Prop where
  pin : pins slot = true
  live : s.ruleDictionary.Live slot
  desc : s.ruleDictionary.descriptors slot = d

theorem Holds.rowStep (h : Holds pins s slot d) (hs : RowStep pins s s') : Holds pins s' slot d := by
  obtain ⟨hl, hd⟩ := hs.rules.keep slot h.live
  exact ⟨h.pin, hl, hd.trans h.desc⟩

theorem Holds.freeStep (h : Holds pins s slot d) (hs : FreeStep pins s s') :
    Holds pins s' slot d := by
  obtain ⟨hl, hd⟩ := hs.pinned h.pin
  exact ⟨h.pin, hl, hd.trans h.desc⟩

theorem Holds.agedAt (h : Holds pins s slot d) (hi : s.toCellTable.Inv pins) {id : CellId}
    (hid : id.ruleFingerprint = d.fingerprint) (now : ℕ) :
    s.agedAt now id = decide (id.bucket.toNat + d.liveBuckets < (d.currentEpoch now).toNat) := by
  have hfind : s.ruleDictionary.find id.ruleFingerprint = some slot :=
    hi.rules.find_iff.2 ⟨h.live, by rw [h.desc, hid]; rfl⟩
  have hdesc : s.ruleDictionary.descriptor slot = some d := by
    rw [hi.rules.descriptor_of_pos, h.desc]
    rw [hi.rule_refs, h.pin]
    exact Nat.succ_pos _
  rw [CellStore.agedAt, hfind, Option.bind_some, hdesc]

theorem Holds.expireAt_toMap (h : Holds pins s slot d) (hi : s.toCellTable.Inv pins) {id : CellId}
    (hid : id.ruleFingerprint = d.fingerprint) (now : ℕ) :
    (s.expireAt now []).1.toMap id =
      if id.bucket.toNat + d.liveBuckets < (d.currentEpoch now).toNat then ⊥ else s.toMap id := by
  rw [expireAt, expire_toMap hi, agedAt_eq hi, h.agedAt hi hid]
  simp only [decide_eq_true_eq]

/-- A registered rule: its slot holds its descriptor, other fingerprints keep theirs. -/
theorem Registering.internRule_holds (h : Registering pins s) {r : ℕ}
    (he : s.internRule d = (s', some r)) :
    ∃ pins', Registering pins' s' ∧ Holds pins' s' r d ∧
      ∀ slot d', Holds pins s slot d' → d'.fingerprint ≠ d.fingerprint → Holds pins' s' slot d' := by
  obtain ⟨pins', hi, hv, -, hreg⟩ := internRule_some h.inv he
  have hpin := hreg.pinned h.pinned
  refine ⟨pins', ⟨hi, hpin, hv ▸ h.empty⟩, ⟨hpin r hreg.live_self, hreg.live_self, hreg.desc_self⟩, ?_⟩
  intro slot d' hd hne
  -- the slot of another fingerprint is not the one registered
  have hslot : slot ≠ r := by
    rintro rfl
    exact hne (by rw [← hd.desc]; exact hreg.key hd.live)
  exact ⟨hreg.pins slot hd.pin, (hreg.live slot).2 (.inl hd.live),
    (hreg.desc slot hslot).trans hd.desc⟩

theorem Holds.appliesTo (h : Holds pins s slot d) (hi : s.toCellTable.Inv pins) {fp : Fingerprint}
    (hfp : d.fingerprint = fp) : s.appliesTo fp = d.appliesLocally := by
  rw [hi.appliesTo_eq h.live (by rw [h.desc, hfp]), h.desc]

/-- A row of an interned rule is upserted or fails for want of a slot. -/
theorem ingestRow_isOk_of (hi : s.toCellTable.Inv pins) (h : Holds pins s slot d)
    {obs : Observation w} (hobs : obs.ruleFingerprint = d.fingerprint)
    (hnew : (∀ x, s.isActive x → s.idOfKey (s.cells x).key ≠ obs.localId s.localIdentity) →
      s.freeHead ≠ none) (sink : List CellDelta) :
    (s.ingestRow obs sink).2.2.isOk = true := by
  have hfind : s.ruleDictionary.find obs.ruleFingerprint = some slot :=
    hi.rules.find_iff.2 ⟨h.live, by rw [h.desc, hobs]; rfl⟩
  unfold ingestRow translateRule
  rw [hfind]
  dsimp only
  unfold upsert
  split
  · unfold updateCell
    dsimp only
    split_ifs <;> rfl
  · rename_i hnone
    have hkeys := hi.slab.find_none_iff.1 hnone
    have hid := hi.local_id
    -- a cell with the row's identity would have the key that is looked up
    have hhead : s.freeHead ≠ none := hnew fun x hx he => hkeys x hx (hi.idOfKey_inj
      (hi.goodKey hx) ⟨h.live, hi.local_live, congrArg NodeIdentity.incarnation hid.symm⟩
      (he.trans (by simp only [CellTable.idOfKey, Observation.localId, h.desc, hobs, hid])))
    unfold insertCell CellTable.allocSlot
    cases hh : s.freeHead with
    | none => exact absurd hh hhead
    | some y => rfl

/-- A row of an interned rule is accepted while a slot is free. -/
theorem ingestRow_isOk (hi : s.toCellTable.Inv pins) (h : Holds pins s slot d) {obs : Observation w}
    (hobs : obs.ruleFingerprint = d.fingerprint) {x : ℕ} (hx : x < s.capacity)
    (hfree : s.isActive x = false) (sink : List CellDelta) :
    (s.ingestRow obs sink).2.2.isOk = true := by
  refine ingestRow_isOk_of hi h hobs (fun _ hh => ?_) sink
  -- an empty free list would leave no slot free
  obtain ⟨k, hk, -⟩ := hi.slab.free
  rw [hh] at hk
  exact absurd ⟨hx, by rw [hfree]; decide⟩ (hk.head_none x)

/-- A row for a cell that is there is accepted. -/
theorem ingestRow_isOk_of_stored (hi : s.toCellTable.Inv pins) (h : Holds pins s slot d)
    {obs : Observation w} (hobs : obs.ruleFingerprint = d.fingerprint)
    (hstored : s.toMap (obs.localId s.localIdentity) ≠ ⊥) (sink : List CellDelta) :
    (s.ingestRow obs sink).2.2.isOk = true := by
  obtain ⟨c, hc⟩ := WithBot.ne_bot_iff_exists.1 hstored
  obtain ⟨x, hx, hid, -⟩ := hi.toMap_eq_coe.1 hc.symm
  exact ingestRow_isOk_of hi h hobs (fun hnone => absurd hid (hnone x hx)) sink

theorem ingestRow_toMap_ne_bot (hi : s.toCellTable.Inv pins) (h : Holds pins s slot d)
    {obs : Observation w} (hobs : obs.ruleFingerprint = d.fingerprint) {x : ℕ} (hx : x < s.capacity)
    (hfree : s.isActive x = false) (sink : List CellDelta) :
    (s.ingestRow obs sink).1.toMap (obs.localId s.localIdentity) ≠ ⊥ := by
  obtain ⟨hstep, heff⟩ := ingestRow_spec hi obs sink
  rw [toMap_of_row hi hstep heff, if_pos (ingestRow_isOk hi h hobs hx hfree sink), update_self]
  exact WithBot.coe_ne_bot

end CellStore

/-! ## Registration -/

variable {pins : ℕ → Bool} {s s' : CellStore .u32}

/-- After registration every fingerprint of the table has the descriptor of its last rule. -/
theorem registerRules_holds : ∀ {table : RuleTable} {s : CellStore .u32} {pins : ℕ → Bool},
    s.Registering pins → registerRules s table = some s' → ∃ pins', s'.Registering pins' ∧
      (∀ fp last, lastRule table fp = some last → ∃ slot, s'.Holds pins' slot last.descriptor) ∧
      ∀ slot d, s.Holds pins slot d → lastRule table d.fingerprint = none → s'.Holds pins' slot d
  | [], s, pins, h, hr => by
    cases hr
    exact ⟨pins, h, nofun, fun _ _ hd _ => hd⟩
  | rule :: rest, s, pins, h, hr => by
    unfold registerRules at hr
    split at hr
    · rename_i s₁ r he
      obtain ⟨pins₁, h₁, hself, hkeep⟩ := h.internRule_holds he
      obtain ⟨pins', h', hlast, hkeep'⟩ := registerRules_holds h₁ hr
      refine ⟨pins', h', fun fp last hl => ?_, fun slot d hd hl => ?_⟩
      · unfold lastRule at hl
        rcases Option.or_eq_some_iff.1 hl with hl | ⟨hn, hl⟩
        · exact hlast fp last hl
        · split_ifs at hl with hf
          cases hl
          exact ⟨r, hkeep' r _ hself (by rw [← hf] at hn; exact hn)⟩
      · unfold lastRule at hl
        obtain ⟨hl, hne⟩ := Option.or_eq_none_iff.1 hl
        refine hkeep' slot d (hkeep slot d hd fun hf => ?_) hl
        have hf : rule.fingerprint = d.fingerprint := hf.symm
        rw [if_pos hf] at hne
        cases hne
    · cases hr

/-! ## Runs -/

namespace Runtime

variable {w : CountWidth} {env : Platform} {pins : ℕ → Bool} {r r' : Runtime w} {slot : ℕ}
  {d : RuleDescriptor}

/-- A runtime between iterations whose store holds the descriptor. -/
structure Knows (pins : ℕ → Bool) (slot : ℕ) (d : RuleDescriptor) (r : Runtime w) : Prop where
  inv : r.store.toCellTable.Inv pins
  sinkBuf : r.sinkBuf = []
  expirationBuf : r.expirationBuf = []
  holds : r.store.Holds pins slot d

theorem Knows.iterated {call : Option (StoreCall w)} (h : Knows pins slot d r)
    (hcall : LoopCall call) (hspec : Iterated env r call r') : Knows pins slot d r' := by
  suffices hstore : (r.storeAfter call).toCellTable.Inv pins ∧
      (r.storeAfter call).Holds pins slot d by
    obtain ⟨hinv, hd⟩ := hstore
    have ht := hspec.table
    exact ⟨ht ▸ hinv, hspec.sinkBuf, hspec.expirationBuf, hd.pin, ht ▸ hd.live, ht ▸ hd.desc⟩
  cases hcall with
  | none => exact ⟨h.inv, h.holds⟩
  | ingestLocal obs =>
    have hs := CellStore.ingestLocal_step h.inv obs []
    exact ⟨hs.inv, h.holds.rowStep hs⟩
  | mergeRemote obs =>
    have hs := CellStore.mergeRemote_step h.inv obs []
    exact ⟨hs.inv, h.holds.rowStep hs⟩
  | expireAt now =>
    have hs := (CellStore.expire_spec h.inv (r.store.epochScratch now) r.store.liveScratch []).1
    exact ⟨hs.inv, h.holds.freeStep hs⟩

theorem Knows.iteration {now : ℕ} {arm : ArmOutcome} (h : Knows pins slot d r)
    (hi : r.iteration env now arm = some r') : Knows pins slot d r' :=
  h.iterated (tableCall_loopCall env r now _) (iteration_spec hi h.sinkBuf h.expirationBuf)

theorem Knows.run (arms : List (ℕ × ArmOutcome)) (h : Knows pins slot d r)
    (hr : r.run env arms = some r') : Knows pins slot d r' :=
  run_induct (fun h hi => h.iteration hi) arms h hr

/-- **What expiry keeps of a rule's window.**  Rules are registered, then the loop runs on any
    arms.  At time `now` no count of the rule and key that `window_total` sums is ever freed
    if, and only if, the descriptor registered last under the rule's fingerprint keeps the
    oldest bucket of the rule's window. -/
theorem window_retained_iff (env : Platform) {config : CellStoreConfig} {node : NodeIdentity}
    {s₀ s : CellStore .u32} (hnew : CellStore.new .u32 config node = some s₀) {table : RuleTable}
    (hreg : registerRules s₀ table = some s) (gossip : GossipConfig) {rule : Rule}
    (hrule : rule ∈ table) (keyHash : KeyHash) (now : ℕ) :
    (∀ arms r, (fromParts gossip s .empty).run env arms = some r → ∀ id : CellId,
      id.ruleFingerprint = rule.fingerprint → id.keyHash = keyHash → rule.inWindow now id.bucket →
        (r.store.expireAt now []).1.toMap id = r.store.toMap id) ↔ table.keeps rule now := by
  obtain ⟨pins₀, hstart⟩ := CellStore.internRules_registering hnew []
  obtain ⟨pins, hready, hholds, -⟩ := registerRules_holds hstart hreg
  obtain ⟨last, hlast⟩ := lastRule_of_mem hrule
  have hfp : last.descriptor.fingerprint = rule.fingerprint := lastRule_fingerprint hlast
  obtain ⟨slot, hslot⟩ := hholds _ last hlast
  have hknows : Knows pins slot last.descriptor (fromParts gossip s .empty) :=
    ⟨hready.inv, rfl, rfl, hslot⟩
  constructor
  · intro hall last' hlast'
    rw [hlast] at hlast'
    cases hlast'
    by_contra hc
    obtain ⟨hlive, hold⟩ := not_or.1 hc
    -- one hit in the oldest bucket of the window is counted, and then freed
    have hwin := rule.oldest_inWindow now hlive
    generalize hb : BitVec.ofNat 32 (rule.oldest now) = bucket at hwin
    have hbucket : bucket.toNat = rule.oldest now := by
      rw [← hb, BitVec.toNat_ofNat, Nat.mod_eq_of_lt]
      exact lt_of_le_of_lt (Nat.sub_le _ _) (rule.current_lt now)
    let req : LimitRequest :=
      { ruleFingerprint := rule.fingerprint, keyHash, bucket, hits := 1, ruleLimit := rule.limit,
        nowMillis := now, reply := none }
    obtain ⟨r, hr⟩ : ∃ r, (fromParts gossip s .empty).iteration env now
        (.request (some (.limit req))) = some r := ⟨_, rfl⟩
    have hspec := iteration_spec hr rfl rfl
    have hrun : (fromParts gossip s .empty).run env [(now, .request (some (.limit req)))] =
        some r := by
      rw [run, hr]; rfl
    have hstored : r.store.toMap ((req.observation .u32).localId s.localIdentity) ≠ ⊥ := by
      rw [hspec.table]
      exact CellStore.ingestRow_toMap_ne_bot hready.inv hslot hfp.symm hready.inv.pos
        (hready.isActive 0) []
    refine hstored ?_
    rw [← hall _ r hrun _ rfl rfl hwin, (hknows.run _ hrun).holds.expireAt_toMap (hknows.run _ hrun).inv
      hfp.symm]
    refine if_pos ?_
    show bucket.toNat + _ < _
    omega
  · intro hkeeps arms r hrun id hid _ hwin
    have hk := hknows.run arms hrun
    rw [hk.holds.expireAt_toMap hk.inv (hid.trans hfp.symm)]
    refine if_neg fun hlt => ?_
    rcases hkeeps last hlast with hlive | hold
    · obtain ⟨h1, h2⟩ := hwin
      omega
    · have := rule.oldest_le hwin
      omega

/-! ### Two rules for one descriptor -/

/-- The sum of the bytes stands for the hash; no durations beyond the units are read. -/
def tinyCrates : RuleCrates where
  hash := fun bytes => BitVec.ofNat 128 (bytes.map UInt8.toNat).sum
  parseDuration := fun _ => none

/-- A budget of 1000 requests an hour in buckets of a minute. -/
def hourly : LimitRuleConfig where
  name := "hourly"
  domain := "api"
  descriptors := [⟨"user", "*"⟩]
  rate := "1000r/h"
  window := none
  bucket := some (Duration.fromSecs 60)
  mode := .enforce

/-- For the same descriptor, at most 10 requests a second. -/
def burst : LimitRuleConfig where
  name := "burst"
  domain := "api"
  descriptors := [⟨"user", "*"⟩]
  rate := "10r/s"
  window := none
  bucket := none
  mode := .enforce

/-- Four hits of one user, two hours into the epoch, under the hourly rule. -/
def hourlyRequest : LimitRequest where
  ruleFingerprint := ruleFingerprint tinyCrates "api" [⟨"user", "*"⟩]
  keyHash := hashKey tinyCrates 1 "api" [⟨"user", "alice"⟩]
  bucket := 120
  hits := 4
  ruleLimit := 1000
  nowMillis := 7200000
  reply := none

/-- The cell the request counts in. -/
def hourlyCell : CellId := (hourlyRequest.observation .u32).localId CellStore.tinyNode

/-- The store of a new node with these rules, and the first of them. -/
def registered (limits : List LimitRuleConfig) : Option (Rule × RuleTable × CellStore .u32) := do
  let table ← (ruleTable tinyCrates limits).toOption
  let s ← registerRules (← CellStore.new .u32 CellStore.tinyConfig CellStore.tinyNode) table
  return (← table.head?, table, s)

theorem registered_spec {limits : List LimitRuleConfig} {rule : Rule} {table : RuleTable}
    {s : CellStore .u32} (h : registered limits = some (rule, table, s)) :
    ∃ s₀, ruleTable tinyCrates limits = .ok table ∧ rule ∈ table ∧
      CellStore.new .u32 CellStore.tinyConfig CellStore.tinyNode = some s₀ ∧
      registerRules s₀ table = some s := by
  simp only [registered, Option.bind_eq_bind, Option.bind_eq_some_iff, Option.pure_def,
    Option.some.injEq, Prod.mk.injEq] at h
  obtain ⟨t, ht, s₀, hnew, s', hreg, rule', hrule, rfl, rfl, rfl⟩ := h
  exact ⟨s₀, eq_ok_of_toOption ht, List.mem_of_mem_head? hrule, hnew, hreg⟩

/-- With the hourly rule alone, its counts stay. -/
theorem window_retained_hourly : ∃ (s₀ s : CellStore .u32) (rule : Rule) (table : RuleTable),
    ruleTable tinyCrates [hourly] = .ok table ∧ rule ∈ table ∧
      CellStore.new .u32 CellStore.tinyConfig CellStore.tinyNode = some s₀ ∧
      registerRules s₀ table = some s ∧
      ∀ arms r, (fromParts tinyGossip s .empty).run tinyPlatform arms = some r → ∀ id : CellId,
        id.ruleFingerprint = rule.fingerprint → id.keyHash = hourlyCell.keyHash →
          rule.inWindow 7200500 id.bucket →
            (r.store.expireAt 7200500 []).1.toMap id = r.store.toMap id := by
  have heval : (registered [hourly]).map (fun (rule, table, _) =>
      decide (table.keeps rule 7200500)) = some true := by decide +kernel
  obtain ⟨⟨rule, table, s⟩, hreg, hkeeps⟩ := Option.map_eq_some_iff.1 heval
  obtain ⟨s₀, htable, hrule, hnew, hreg⟩ := registered_spec hreg
  exact ⟨s₀, s, rule, table, htable, hrule, hnew, hreg,
    (window_retained_iff tinyPlatform hnew hreg tinyGossip hrule _ _).2 (of_decide_eq_true hkeeps)⟩

/-- With the second rule for the same descriptor, four hits of the hourly rule are freed half
    a second after they were counted, in the current bucket of its window. -/
theorem window_count_lost : ∃ (s₀ s : CellStore .u32) (rule : Rule) (table : RuleTable)
    (r : Runtime .u32), ruleTable tinyCrates [hourly, burst] = .ok table ∧ rule ∈ table ∧
      CellStore.new .u32 CellStore.tinyConfig CellStore.tinyNode = some s₀ ∧
      registerRules s₀ table = some s ∧
      (fromParts tinyGossip s .empty).run tinyPlatform
        [(7200000, .request (some (.limit hourlyRequest)))] = some r ∧
      hourlyCell.ruleFingerprint = rule.fingerprint ∧ rule.inWindow 7200500 hourlyCell.bucket ∧
      r.store.toMap hourlyCell = WithBot.some 4 ∧
      (r.store.expireAt 7200500 []).1.toMap hourlyCell = ⊥ := by
  have heval : ((registered [hourly, burst]).bind fun (rule, _, s) =>
      ((fromParts tinyGossip s .empty).run tinyPlatform
        [(7200000, .request (some (.limit hourlyRequest)))]).map fun r =>
          (decide (hourlyCell.ruleFingerprint = rule.fingerprint),
            decide (rule.inWindow 7200500 hourlyCell.bucket), r.store.toMap hourlyCell,
            (r.store.expireAt 7200500 []).1.toMap hourlyCell)) =
      some (true, true, WithBot.some 4, ⊥) := by decide +kernel
  obtain ⟨⟨rule, table, s⟩, hreg, hrest⟩ := Option.bind_eq_some_iff.1 heval
  obtain ⟨r, hrun, hvals⟩ := Option.map_eq_some_iff.1 hrest
  simp only [Prod.mk.injEq, decide_eq_true_eq] at hvals
  obtain ⟨hfp, hwin, hcount, hgone⟩ := hvals
  obtain ⟨s₀, htable, hrule, hnew, hreg⟩ := registered_spec hreg
  exact ⟨s₀, s, rule, table, r, htable, hrule, hnew, hreg, hrun, hfp, hwin, hcount, hgone⟩

end Runtime

end Gabion

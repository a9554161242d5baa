/-
  The aggregates agree with the cell store.

  A runtime is started with a store in which some rules have been registered and with an
  empty `DashMapStore`.  After every iteration the rows are the non-zero sums of the active
  cells, for the rules that were registered (`Agree`).
-/
import Gabion.Refinement
import Gabion.RuntimeStep

namespace Gabion

open Function SlotMap

namespace CellStore

variable {w : CountWidth} {pins : ℕ → Bool} {s s' : CellStore w}

/-! ## Registration before the start -/

/-- Register rules one after the other; a rule that finds the dictionary full is left out. -/
def internRules (s : CellStore w) (rules : List RuleDescriptor) : CellStore w :=
  rules.foldl (fun s d => (s.internRule d).1) s

/-- A store that has only been registered with: every interned rule is pinned, and there is
    no cell. -/
structure Registering (pins : ℕ → Bool) (s : CellStore w) : Prop where
  inv : s.toCellTable.Inv pins
  pinned : ∀ r, s.ruleDictionary.Live r → pins r = true
  empty : ∀ x, s.view x = none

theorem Registered.pinned {pins' : ℕ → Bool} {d : RuleDescriptor} {r : ℕ}
    (h : Registered pins pins' s s' d r) (hp : ∀ r, s.ruleDictionary.Live r → pins r = true) :
    ∀ r, s'.ruleDictionary.Live r → pins' r = true := by
  intro y hy
  by_cases hl : s.ruleDictionary.Live y
  · exact h.pins y (hp y hl)
  · rcases (h.live y).1 hy with hy | rfl
    · exact absurd hy hl
    · exact h.pin hl

theorem Registering.internRule (h : Registering pins s) (d : RuleDescriptor) :
    ∃ pins', Registering pins' (s.internRule d).1 := by
  cases hr : (s.internRule d).2 with
  | none =>
    obtain ⟨hg, hd⟩ := internRule_none h.inv (Prod.ext rfl hr)
    refine ⟨pins, hg.inv, ?_, ?_⟩
    · rw [hd]; exact h.pinned
    · rw [hg.view]; exact h.empty
  | some r =>
    obtain ⟨pins', hi, hv, -, hreg⟩ := internRule_some h.inv (Prod.ext rfl hr)
    exact ⟨pins', hi, hreg.pinned h.pinned, hv ▸ h.empty⟩

theorem internRules_registering {config : CellStoreConfig} {id : NodeIdentity}
    (hnew : new w config id = some s) (rules : List RuleDescriptor) :
    ∃ pins, Registering pins (s.internRules rules) := by
  obtain ⟨h0, -, hact, hlive, -⟩ := new_spec hnew
  have hstart : Registering (fun _ => false) s :=
    ⟨h0, fun r hr => absurd hr (hlive r), fun x => by simp [CellTable.view, hact]⟩
  revert hstart
  generalize (fun _ : ℕ => false) = pins
  clear hnew h0 hact hlive
  intro hstart
  induction rules generalizing s pins with
  | nil => exact ⟨pins, hstart⟩
  | cons d ds ih =>
    obtain ⟨pins', h'⟩ := hstart.internRule d
    exact ih pins' h'

theorem internRules_localIdentity (s : CellStore w) (rules : List RuleDescriptor) :
    (s.internRules rules).localIdentity = s.localIdentity := by
  induction rules generalizing s with
  | nil => rfl
  | cons d ds ih =>
    refine (ih (s.internRule d).1).trans ?_
    unfold internRule
    split <;> rfl

theorem Registering.toMap (h : Registering pins s) (id : CellId) : s.toMap id = ⊥ := by
  refine (lookup_eq_bot h.inv.inj h.inv.below).2 fun x count hx => ?_
  rw [h.empty x] at hx
  cases hx

theorem Registering.isActive (h : Registering pins s) (x : ℕ) : s.isActive x = false := by
  have := h.empty x
  simpa [CellTable.view] using this

theorem Registering.localTotals (h : Registering pins s) : s.localTotals = fun _ => 0 := by
  funext k
  rw [CellTable.localTotals, CellTable.identityTotal, total_empty h.empty, ite_self]

end CellStore

namespace Runtime

variable {w : CountWidth} {env : Platform} {pins : ℕ → Bool} {r r' : Runtime w}

/-- **The invariant between iterations**: the rows are the sums, for the rules `local`
    started with. -/
structure Agree (pins : ℕ → Bool) (applies : Fingerprint → Bool) (r : Runtime w) : Prop where
  inv : r.store.toCellTable.Inv pins
  pinned : r.store.LocalPinned pins
  applies : ∀ fp, r.store.appliesTo fp = applies fp
  sinkBuf : r.sinkBuf = []
  expirationBuf : r.expirationBuf = []
  aggregates : r.aggregates = .ofTotals r.store.localTotals

theorem Agree.iterated {applies : Fingerprint → Bool} {call : Option (StoreCall w)}
    (h : Agree pins applies r) (hw : w ≠ .u64) (hcall : LoopCall call)
    (hspec : Iterated env r call r') : Agree pins applies r' := by
  -- the table moves by the call, and the aggregates by its rows
  suffices hstore : (r.storeAfter call).toCellTable.Inv pins ∧ (r.storeAfter call).LocalPinned pins ∧
      (∀ fp, (r.storeAfter call).appliesTo fp = r.store.appliesTo fp) ∧
      (DashMapStore.ofTotals r.store.localTotals).apply (r.rowsOf call).1 (r.rowsOf call).2 =
        .ofTotals (r.storeAfter call).localTotals by
    obtain ⟨hinv, hpinned, happlies, htotals⟩ := hstore
    have ht := hspec.table
    refine ⟨ht ▸ hinv, ht ▸ hpinned, fun fp => ?_, hspec.sinkBuf, hspec.expirationBuf, ?_⟩
    · rw [ht, happlies, h.applies]
    · rw [hspec.aggregates, h.aggregates, ht]
      exact htotals
  cases hcall with
  | none => exact ⟨h.inv, h.pinned, fun _ => rfl, rfl⟩
  | ingestLocal obs =>
    have hs := CellStore.ingestLocal_step h.inv obs []
    exact ⟨hs.inv, hs.rules.localPinned h.pinned, hs.rules.appliesTo_eq h.inv hs.inv,
      CellStore.ingestLocal_totals h.inv hw obs⟩
  | mergeRemote obs =>
    have hs := CellStore.mergeRemote_step h.inv obs []
    exact ⟨hs.inv, hs.rules.localPinned h.pinned, hs.rules.appliesTo_eq h.inv hs.inv,
      CellStore.mergeRemote_totals h.inv hw obs⟩
  | expireAt now =>
    have hs := (CellStore.expire_spec h.inv (r.store.epochScratch now) r.store.liveScratch []).1
    exact ⟨hs.inv, hs.localPinned h.pinned, hs.appliesTo_eq h.inv h.pinned,
      CellStore.expire_totals h.inv h.pinned _ _⟩

theorem Agree.iteration {applies : Fingerprint → Bool} {now : ℕ} {arm : ArmOutcome}
    (h : Agree pins applies r) (hw : w ≠ .u64) (hi : r.iteration env now arm = some r') :
    Agree pins applies r' :=
  h.iterated hw (tableCall_loopCall env r now _) (iteration_spec hi h.sinkBuf h.expirationBuf)

theorem Agree.run {applies : Fingerprint → Bool} (hw : w ≠ .u64) (arms : List (ℕ × ArmOutcome))
    (h : Agree pins applies r) (hr : r.run env arms = some r') : Agree pins applies r' :=
  run_induct (fun h hi => h.iteration hw hi) arms h hr

theorem agree_fromParts {s : CellStore w} (h : CellStore.Registering pins s)
    (config : GossipConfig) : Agree pins s.appliesTo (fromParts config s .empty) := by
  refine ⟨h.inv, fun r hr _ => h.pinned r hr, fun _ => rfl, rfl, rfl, ?_⟩
  show DashMapStore.empty = .ofTotals s.localTotals
  rw [h.localTotals]
  rfl

/-- **The aggregates equal the CRDT.**  Rules are registered, then the loop runs, on any
    arms, datagrams and clocks, with or without rejected rows.  The row of every registered
    rule, key and bucket is the sum of its cells over all origins and incarnations, it is
    absent exactly when the sum is zero, and other rules have no row.  Registered are the
    fingerprints whose descriptor has a local rule id when the loop starts; the id
    `u32::MAX` declares a rule as wire-only. -/
theorem aggregates_eq_sums (env : Platform) {config : CellStoreConfig} {id : NodeIdentity}
    {s₀ : CellStore w} (hnew : CellStore.new w config id = some s₀) (hw : w ≠ .u64)
    (rules : List RuleDescriptor) (gossip : GossipConfig) (arms : List (ℕ × ArmOutcome))
    {r : Runtime w} (hrun : (fromParts gossip (s₀.internRules rules) .empty).run env arms = some r)
    (k : CellIdentity) :
    ((s₀.internRules rules).appliesTo k.ruleFingerprint = true →
      (r.aggregates.cells k).getD 0 = r.store.identityTotal k ∧
      (r.aggregates.cells k = none ↔ r.store.identityTotal k = 0)) ∧
    ((s₀.internRules rules).appliesTo k.ruleFingerprint = false → r.aggregates.cells k = none) := by
  obtain ⟨pins, hreg⟩ := CellStore.internRules_registering hnew rules
  have h := (agree_fromParts hreg gossip).run hw arms hrun
  rw [h.aggregates, DashMapStore.getD_ofTotals]
  have hlocal : r.store.localTotals k =
      if (s₀.internRules rules).appliesTo k.ruleFingerprint then r.store.identityTotal k else 0 := by
    rw [CellTable.localTotals, h.applies]
  have hrow : (DashMapStore.ofTotals r.store.localTotals).cells k = none ↔
      r.store.localTotals k = 0 := by
    simp only [DashMapStore.ofTotals, ite_eq_left_iff, reduceCtorEq, imp_false, not_not]
  constructor
  · intro ha
    rw [hrow, hlocal, if_pos ha]
    exact ⟨rfl, Iff.rfl⟩
  · intro ha
    rw [hrow, hlocal, ha]
    rfl

/-! ### A run to look at -/

def tinyPlatform : Platform where
  mac := fun _ _ => Vector.replicate 32 0
  coverage := fun n => n

/-- One peer, one send buffer, no key. -/
def tinyGossip : GossipConfig where
  clusterIdHash := 9
  bootstrapPeers := [{ ip := 2, port := 7000 }]
  fanout := 1
  maxCellsPerTick := 2
  wireLimits := { maxPayloadBytes := 1000, maxCells := 2 }
  sendQueueCapacity := 1
  authKey := none
  rngSeed := 1
  targetErrBps := 100
  minEmitIntervalMillis := 10

def tinyRule : RuleDescriptor where
  fingerprint := 7
  windowMillis := 60000
  bucketMillis := 1000
  limit := 10
  flags := 0
  localRuleId := 1

/-- Four hits on one key in bucket 5. -/
def tinyRequest : LimitRequest where
  ruleFingerprint := 7
  keyHash := 3
  bucket := 5
  hits := 4
  ruleLimit := 10
  nowMillis := 5000
  reply := some 1

/-- A node that knows one rule. -/
def tinyRuntime : Runtime .u32 := fromParts tinyGossip (tinyStore.internRules [tinyRule]) .empty

/-- The hits are counted, flushed to the peer, sent, and a datagram of nonsense arrives. -/
def tinyArms : List (ℕ × ArmOutcome) :=
  [(5000, .request (some (.limit tinyRequest))), (5001, .admin), (5002, .writable .ok),
    (5003, .inbound (some ([1, 2, 3], { ip := 2, port := 7000 })))]

theorem aggregates_eq_sums_tiny : ∃ (s₀ : CellStore .u32) (r : Runtime .u32),
    CellStore.new .u32 CellStore.tinyConfig CellStore.tinyNode = some s₀ ∧
      (fromParts tinyGossip (s₀.internRules [tinyRule]) .empty).run tinyPlatform tinyArms = some r ∧
      (s₀.internRules [tinyRule]).appliesTo 7 = true ∧ r.sent.length = 1 ∧
      r.aggregates.cells ⟨7, 3, 5⟩ = some 4 ∧
      (r.aggregates.cells ⟨7, 3, 5⟩).getD 0 = r.store.identityTotal ⟨7, 3, 5⟩ := by
  have heval : ((tinyRuntime.run tinyPlatform tinyArms).map fun r =>
      ((tinyStore.internRules [tinyRule]).appliesTo 7, r.sent.length,
        r.aggregates.cells ⟨7, 3, 5⟩)) = some (true, 1, some 4) := by decide +kernel
  obtain ⟨r, hrun, hvals⟩ := Option.map_eq_some_iff.1 heval
  simp only [Prod.mk.injEq] at hvals
  obtain ⟨happ, hsent, hcell⟩ := hvals
  exact ⟨tinyStore, r, tinyStore_new, hrun, happ, hsent, hcell,
    ((aggregates_eq_sums tinyPlatform tinyStore_new (by decide) [tinyRule] tinyGossip tinyArms hrun
      ⟨7, 3, 5⟩).1 happ).1⟩

end Runtime

end Gabion

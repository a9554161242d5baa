/-
  Nodes with the same rules in another order.

  A hit is recorded under the fingerprint of the rule, a hash of the key and the bucket.  The
  fingerprint depends on what the rule matches only, but the key hash starts from the rule's
  id, which is its place in the configuration.  So two nodes share the counters of a rule
  exactly when it stands at the same place on both (`counters_shared_iff`).
-/
import Gabion.Enforcement
import Gabion.RuleBytes

namespace Gabion

open Server

/-! ## The same rules -/

/-- The rules agree in everything an operator writes. -/
structure Rule.Same (a b : Rule) : Prop where
  domain : a.domain = b.domain
  descriptors : a.descriptors = b.descriptors
  limit : a.limit = b.limit
  windowMillis : a.windowMillis = b.windowMillis
  bucketMillis : a.bucketMillis = b.bucketMillis
  mode : a.mode = b.mode

instance (a b : Rule) : Decidable (a.Same b) :=
  decidable_of_iff (a.domain = b.domain ∧ a.descriptors = b.descriptors ∧ a.limit = b.limit ∧
      a.windowMillis = b.windowMillis ∧ a.bucketMillis = b.bucketMillis ∧ a.mode = b.mode)
    ⟨fun ⟨h1, h2, h3, h4, h5, h6⟩ => ⟨h1, h2, h3, h4, h5, h6⟩,
      fun h => ⟨h.1, h.2, h.3, h.4, h.5, h.6⟩⟩

variable {x : RuleCrates} {limits : List LimitRuleConfig} {table : RuleTable}

theorem ruleTable_id (h : ruleTable x limits = .ok table) (i : Fin table.length) :
    (table.get i).id = (i + 1) % 2 ^ 32 :=
  ruleTable_get h (List.getElem?_eq_getElem i.2)

variable {a b : Rule} {request : Server.LimitRequest} {now : ℕ}

/-- The same rule matches the same requests. -/
theorem Rule.Same.fits_eq (h : a.Same b) (ha : a.Derived x) (hb : b.Derived x) (domain : String)
    (descriptors : List Descriptor) : a.fits x domain descriptors = b.fits x domain descriptors := by
  unfold Rule.fits
  rw [h.mode, h.descriptors, ha.domainHash, hb.domainHash, h.domain]

/-- **The same rule counts under one identity exactly when its ids agree**, as long as the
    hash tells the two keys apart. -/
theorem Rule.Same.identity_iff (h : a.Same b) (ha : a.Derived x) (hb : b.Derived x)
    (hida : a.id < 2 ^ 32) (hidb : b.id < 2 ^ 32)
    (hhash : hashKey x a.id request.domain request.descriptors =
        hashKey x b.id request.domain request.descriptors →
      keyInput a.id request.domain request.descriptors =
        keyInput b.id request.domain request.descriptors) :
    (plan x request now a).identity = (plan x request now b).identity ↔ a.id = b.id := by
  constructor
  · intro heq
    exact ((keyInput_inj (by omega) (by omega)).1 (hhash (congrArg CellIdentity.keyHash heq))).1
  · intro hid
    simp only [Planned.identity, plan, Rule.spec, CellIdentity.mk.injEq]
    refine ⟨?_, by rw [hid], by rw [h.bucketMillis]⟩
    rw [ha.fingerprint, hb.fingerprint, h.domain, h.descriptors]

/-- What an admitted descriptor records: one hit for each of the first matching rules. -/
theorem evaluate_records {l : SharedLimiter} {counts : DashMapStore} {planned : List Planned}
    {tightest : Option QuotaContext} (h : evaluate l counts request now = .ok (planned, tightest)) :
    planned = ((l.ruleTable.matching l.crates request.domain request.descriptors).take
      maxMatchedRules).map (plan l.crates request now) := by
  unfold evaluate at h
  split_ifs at h
  have hplan := (planRules_ok h (Nat.zero_le _)).1
  rw [List.nil_append] at hplan
  exact hplan

/-! ## Two orders -/

/-- **Counters are shared exactly by rules at the same place.**  Take two configurations with
    the same rules in two orders, `σ` leading from one to the other, any request and any time,
    and a hash without a collision among the keys of this request.  The same rules match on
    both nodes; each of them counts the request under the same fingerprint, key hash and
    bucket if and only if `σ` leaves its place alone, up to 2³².  What a node records when it
    admits the request are these identities. -/
theorem counters_shared_iff (x : RuleCrates) {limits₁ limits₂ : List LimitRuleConfig}
    {table₁ table₂ : RuleTable} (h₁ : ruleTable x limits₁ = .ok table₁)
    (h₂ : ruleTable x limits₂ = .ok table₂) (σ : Fin table₁.length ≃ Fin table₂.length)
    (hsame : ∀ i, (table₁.get i).Same (table₂.get (σ i))) (request : Server.LimitRequest) (now : ℕ)
    (hhash : ∀ a ∈ table₁, ∀ b ∈ table₂, hashKey x a.id request.domain request.descriptors =
        hashKey x b.id request.domain request.descriptors →
      keyInput a.id request.domain request.descriptors =
        keyInput b.id request.domain request.descriptors) :
    (∀ i, (table₁.get i).fits x request.domain request.descriptors =
      (table₂.get (σ i)).fits x request.domain request.descriptors) ∧
    ((∀ i, (table₁.get i).fits x request.domain request.descriptors = true →
        (plan x request now (table₁.get i)).identity =
          (plan x request now (table₂.get (σ i))).identity) ↔
      ∀ i, (table₁.get i).fits x request.domain request.descriptors = true →
        (σ i : ℕ) ≡ i [MOD 2 ^ 32]) ∧
    ∀ table ∈ [table₁, table₂], ∀ cardinalityLimits counts planned tightest,
      evaluate { crates := x, ruleTable := table, cardinalityLimits } counts request now =
          .ok (planned, tightest) →
        planned = ((table.matching x request.domain request.descriptors).take
          maxMatchedRules).map (plan x request now) := by
  have hd₁ : ∀ i, (table₁.get i).Derived x := fun i => ruleTable_derived h₁ (List.get_mem table₁ i)
  have hd₂ : ∀ i, (table₂.get i).Derived x := fun i => ruleTable_derived h₂ (List.get_mem table₂ i)
  have hlt : ∀ n, (n + 1) % 2 ^ 32 < 2 ^ 32 := fun n => Nat.mod_lt _ (by decide)
  refine ⟨fun i => (hsame i).fits_eq (hd₁ i) (hd₂ _) _ _, ?_, fun _ _ _ _ _ _ => evaluate_records⟩
  refine forall_congr' fun i => imp_congr_right fun _ => ?_
  rw [(hsame i).identity_iff (hd₁ i) (hd₂ _) (by rw [ruleTable_id h₁]; exact hlt _)
    (by rw [ruleTable_id h₂]; exact hlt _)
    (hhash _ (List.get_mem table₁ i) _ (List.get_mem table₂ _)), ruleTable_id h₁, ruleTable_id h₂]
  exact ⟨fun h => Nat.ModEq.add_right_cancel' 1 h.symm, fun h => (Nat.ModEq.add_right 1 h).symm⟩

/-! ### Two nodes to look at -/

def perAddress : LimitRuleConfig where
  name := "per-address"
  domain := "api"
  descriptors := [⟨"ip", "*"⟩]
  rate := "100r/m"
  window := none
  bucket := none
  mode := .enforce

def perPath : LimitRuleConfig := { perAddress with name := "per-path", descriptors := [⟨"path", "*"⟩] }

/-- The rules that the configuration builds, with the stand-in hash. -/
def builtRules (limits : List LimitRuleConfig) : RuleTable :=
  (ruleTable Runtime.tinyCrates limits).toOption.getD []

/-- One hit of one user. -/
def aliceRequest : Server.LimitRequest where
  domain := "api"
  descriptors := [⟨"user", "alice"⟩]
  hits := 1

/-- The other two rules change places: the hourly rule keeps its counters. -/
theorem counters_shared_hourly :
    ∃ σ : Fin (builtRules [Runtime.hourly, perAddress, perPath]).length ≃
        Fin (builtRules [Runtime.hourly, perPath, perAddress]).length,
      (σ ⟨1, by decide +kernel⟩ : ℕ) = 2 ∧
      ∀ i, ((builtRules [Runtime.hourly, perAddress, perPath]).get i).fits Runtime.tinyCrates "api"
          [⟨"user", "alice"⟩] = true →
        (plan Runtime.tinyCrates aliceRequest 7200000
            ((builtRules [Runtime.hourly, perAddress, perPath]).get i)).identity =
          (plan Runtime.tinyCrates aliceRequest 7200000
            ((builtRules [Runtime.hourly, perPath, perAddress]).get (σ i))).identity := by
  have h₁ : ruleTable Runtime.tinyCrates [Runtime.hourly, perAddress, perPath] =
      .ok (builtRules [Runtime.hourly, perAddress, perPath]) := by decide +kernel
  have h₂ : ruleTable Runtime.tinyCrates [Runtime.hourly, perPath, perAddress] =
      .ok (builtRules [Runtime.hourly, perPath, perAddress]) := by decide +kernel
  let σ : Fin (builtRules [Runtime.hourly, perAddress, perPath]).length ≃
      Fin (builtRules [Runtime.hourly, perPath, perAddress]).length :=
    (finCongr (by decide +kernel)).trans ((Equiv.swap (1 : Fin 3) 2).trans
      (finCongr (by decide +kernel)))
  exact ⟨σ, by decide +kernel, (counters_shared_iff Runtime.tinyCrates h₁ h₂ σ (by decide +kernel)
    aliceRequest 7200000 (by decide +kernel)).2.1.2 (by decide +kernel)⟩

/-- **The order of two rules splits a counter**: alice's hit on the hourly rule is recorded
    under another key hash where the rule comes second. -/
theorem order_splits_counter : ∃ (table₁ table₂ : RuleTable) (planned₁ planned₂ : List Planned)
    (t₁ t₂ : Option QuotaContext),
    ruleTable Runtime.tinyCrates [Runtime.hourly, perAddress] = .ok table₁ ∧
      ruleTable Runtime.tinyCrates [perAddress, Runtime.hourly] = .ok table₂ ∧
      evaluate ⟨Runtime.tinyCrates, table₁, ⟨16, 4096, 256⟩⟩ .empty aliceRequest 7200000 =
        .ok (planned₁, t₁) ∧
      evaluate ⟨Runtime.tinyCrates, table₂, ⟨16, 4096, 256⟩⟩ .empty aliceRequest 7200000 =
        .ok (planned₂, t₂) ∧
      planned₁.length = 1 ∧ planned₂.length = 1 ∧ ∀ p₁ ∈ planned₁, ∀ p₂ ∈ planned₂,
        p₁.spec.fingerprint = p₂.spec.fingerprint ∧ p₁.bucket = p₂.bucket ∧ p₁.keyHash ≠ p₂.keyHash := by
  have heval : ((ruleTable Runtime.tinyCrates [Runtime.hourly, perAddress]).toOption.bind fun table₁ =>
      (ruleTable Runtime.tinyCrates [perAddress, Runtime.hourly]).toOption.bind fun table₂ =>
        (evaluate ⟨Runtime.tinyCrates, table₁, ⟨16, 4096, 256⟩⟩ .empty aliceRequest
          7200000).toOption.bind fun e₁ =>
          (evaluate ⟨Runtime.tinyCrates, table₂, ⟨16, 4096, 256⟩⟩ .empty aliceRequest
            7200000).toOption.map fun e₂ =>
            (e₁.1.length, e₂.1.length, decide (∀ p₁ ∈ e₁.1, ∀ p₂ ∈ e₂.1,
              p₁.spec.fingerprint = p₂.spec.fingerprint ∧ p₁.bucket = p₂.bucket ∧
                p₁.keyHash ≠ p₂.keyHash))) = some (1, 1, true) := by decide +kernel
  obtain ⟨table₁, h₁, hrest⟩ := Option.bind_eq_some_iff.1 heval
  obtain ⟨table₂, h₂, hrest⟩ := Option.bind_eq_some_iff.1 hrest
  obtain ⟨⟨planned₁, t₁⟩, he₁, hrest⟩ := Option.bind_eq_some_iff.1 hrest
  obtain ⟨⟨planned₂, t₂⟩, he₂, hvals⟩ := Option.map_eq_some_iff.1 hrest
  simp only [Prod.mk.injEq, decide_eq_true_eq] at hvals
  exact ⟨table₁, table₂, planned₁, planned₂, t₁, t₂, eq_ok_of_toOption h₁, eq_ok_of_toOption h₂,
    eq_ok_of_toOption he₁, eq_ok_of_toOption he₂, hvals⟩

end Gabion

/-
  The rules of the server configuration (`server/src/config.rs`) and their registration
  (`register_rules` in `gabiond.rs`).
-/
import Gabion.CellStore
import Gabion.Rules

namespace Gabion

structure DescriptorConfig where
  key : String
  value : String
deriving DecidableEq, Repr

structure LimitRuleConfig where
  name : String
  domain : String
  descriptors : List DescriptorConfig
  rate : String
  window : Option Duration
  bucket : Option Duration
  mode : EnforcementMode
deriving DecidableEq, Repr

inductive ConfigError
  | emptyDescriptorSet (name : String)
  | duplicateRule (name : String)
  | invalidRate (name reason : String)
  | resolveRate (name : String) (source : RateResolveError)
  | invalidDescriptorKey (rule key : String)
deriving DecidableEq, Repr

/-- The key matches `[A-Za-z_][A-Za-z0-9_.-]*`. -/
def isDescriptorKey (s : String) : Bool :=
  match s.toList with
  | [] => false
  | c :: chars =>
    (c = '_' || c.isAlpha) &&
      chars.all fun c => c = '_' || c = '.' || c = '-' || c.isAlphanum

namespace LimitRuleConfig

def toRule (x : RuleCrates) (limit : LimitRuleConfig) (id : ℕ) : Except ConfigError Rule :=
  if limit.descriptors = [] then .error (.emptyDescriptorSet limit.name)
  else
    match limit.descriptors.find? fun d => !isDescriptorKey d.key with
    | some d => .error (.invalidDescriptorKey limit.name d.key)
    | none =>
      match parseRate x limit.rate with
      | .error reason => .error (.invalidRate limit.name reason)
      | .ok (rateCount, period) =>
        match resolveRate rateCount period limit.window limit.bucket with
        | .error source => .error (.resolveRate limit.name source)
        | .ok resolved =>
          .ok (Rule.new x id limit.domain (limit.descriptors.map fun d => ⟨d.key, d.value⟩)
            resolved.limit resolved.windowMillis resolved.bucketMillis limit.mode)

end LimitRuleConfig

/-- The loop of `rule_table`; `earlier` are the entries already read. -/
def ruleTableFrom (x : RuleCrates) (earlier : List LimitRuleConfig) :
    List LimitRuleConfig → Except ConfigError RuleTable
  | [] => .ok []
  | limit :: rest =>
    if earlier.any fun e => e.name = limit.name then .error (.duplicateRule limit.name)
    else
      match limit.toRule x ((earlier.length + 1) % 2 ^ 32) with
      | .error e => .error e
      | .ok rule =>
        match ruleTableFrom x (earlier ++ [limit]) rest with
        | .error e => .error e
        | .ok rules => .ok (rule :: rules)

/-- Rule ids are assigned in declaration order, from 1. -/
def ruleTable (x : RuleCrates) (limits : List LimitRuleConfig) : Except ConfigError RuleTable :=
  ruleTableFrom x [] limits

/-- What `register_rules` registers for a rule: windows and buckets are clamped to 32 bits. -/
def Rule.descriptor (rule : Rule) : RuleDescriptor where
  fingerprint := rule.fingerprint
  windowMillis := min rule.windowMillis u32Max
  bucketMillis := min rule.bucketMillis u32Max
  limit := rule.limit
  flags := 0
  localRuleId := rule.id

/-- `none`: the rule dictionary is full. -/
def registerRules (store : CellStore .u32) : RuleTable → Option (CellStore .u32)
  | [] => some store
  | rule :: rest =>
    match store.internRule rule.descriptor with
    | (store, some _) => registerRules store rest
    | (_, none) => none

/-! ## What the configuration builds -/

variable {x : RuleCrates} {limits : List LimitRuleConfig} {table : RuleTable}

theorem toRule_ok {limit : LimitRuleConfig} {id : ℕ} {rule : Rule}
    (h : limit.toRule x id = .ok rule) : ∃ count window bucket, rule = Rule.new x id limit.domain
      (limit.descriptors.map fun d => ⟨d.key, d.value⟩) count window bucket limit.mode := by
  unfold LimitRuleConfig.toRule at h
  split_ifs at h
  split at h
  · cases h
  · split at h
    · cases h
    · split at h
      · cases h
      · cases h
        exact ⟨_, _, _, rfl⟩

/-- The `i`-th rule comes from the `i`-th entry. -/
theorem ruleTableFrom_ok : ∀ {rest earlier : List LimitRuleConfig} {table : RuleTable},
    ruleTableFrom x earlier rest = .ok table → table.length = rest.length ∧
      ∀ (i : ℕ) (rule : Rule), table[i]? = some rule →
        ∃ limit : LimitRuleConfig, rest[i]? = some limit ∧
          limit.toRule x ((earlier.length + i + 1) % 2 ^ 32) = .ok rule
  | [], _, _, h => by
    cases h
    exact ⟨rfl, fun i rule hi => by cases hi⟩
  | limit :: rest, earlier, table, h => by
    unfold ruleTableFrom at h
    split_ifs at h
    split at h
    · cases h
    · rename_i rule hrule
      split at h
      · cases h
      · rename_i rules hrules
        cases h
        obtain ⟨hlen, hget⟩ := ruleTableFrom_ok hrules
        refine ⟨by rw [List.length_cons, List.length_cons, hlen], fun i r hi => ?_⟩
        cases i with
        | zero =>
          cases hi
          exact ⟨limit, rfl, hrule⟩
        | succ i =>
          obtain ⟨l, hl, hr⟩ := hget i r hi
          refine ⟨l, hl, ?_⟩
          rw [List.length_append, List.length_singleton] at hr
          rw [← hr, show earlier.length + (i + 1) + 1 = earlier.length + 1 + i + 1 by omega]

theorem ruleTable_get (h : ruleTable x limits = .ok table) {i : ℕ} {rule : Rule}
    (hi : table[i]? = some rule) : rule.id = (i + 1) % 2 ^ 32 := by
  obtain ⟨limit, -, hrule⟩ := (ruleTableFrom_ok h).2 i rule hi
  obtain ⟨count, window, bucket, rfl⟩ := toRule_ok hrule
  rw [List.length_nil, Nat.zero_add]
  rfl

end Gabion

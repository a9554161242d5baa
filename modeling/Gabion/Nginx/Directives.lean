/-
  The directives of the nginx module (`nginx/src/module.rs`, `nginx/src/rules.rs`).

  `gabion_limit_rule` declares a rule, `gabion_limit` lists rules by name at a level of the
  configuration (http, server or location), and `gabion` turns the module on and off there.  nginx
  reads the directives in order.  A listed name is resolved at once, to the position the rule has
  then; the positions are looked up in the compiled rules with every request.

  `limitNames` says what the directives mean by the names alone.  The positions that a location
  inherits are those of the rules with these names (`location_rules_named`).
-/
import Gabion.Nginx.Access
import Gabion.ServerConfig

namespace Gabion

namespace Nginx

/-! ## Arguments of a rule -/

/-- A legal name of an nginx variable. -/
def isSingleIdent (s : List Char) : Bool :=
  match s with
  | [] => false
  | c :: chars => (c = '_' || c.isAlpha) && chars.all fun c => c = '_' || c.isAlphanum

/-- `STORAGE_MAX_KEY_BYTES` -/
def storageMaxKeyBytes : ℕ := 128

/-- `str::split_once` at a character. -/
def splitOnce (sep : Char) : List Char → Option (List Char × List Char)
  | [] => none
  | c :: rest =>
    if c = sep then some ([], rest)
    else (splitOnce sep rest).map fun (before, after) => (c :: before, after)

def bindingExpected : String :=
  "expected `$variable`, `name:$variable`, or one of `rate=`, `window=`, `bucket=`, " ++
    "`mode=`, `dry_run`, `except_if=`, `domain=`"

def bindingKeyTooLong : String :=
  "binding key exceeds the default `gabion_storage_max_key_bytes` budget; tighten the key or " ++
    "raise the directive"

def parseBinding (rest : String) : Except String DescriptorBinding :=
  match rest.toList with
  | '$' :: stripped =>
    if isSingleIdent stripped then
      if (utf8 (String.ofList stripped)).length > storageMaxKeyBytes then .error bindingKeyTooLong
      else .ok { key := String.ofList stripped, source := rest }
    else .error bindingExpected
  | chars =>
    match splitOnce ':' chars with
    | none => .error bindingExpected
    | some (key, source) =>
      if !isDescriptorKey (String.ofList key) then
        .error ("binding key must match `[A-Za-z_][A-Za-z0-9_.-]*` (e.g. `tenant`, " ++
          "`app.tenant`, `tenant-id`)")
      else if source = [] then
        .error "binding source after `:` is empty; supply a `$variable` or template"
      else if (utf8 (String.ofList key)).length > storageMaxKeyBytes then .error bindingKeyTooLong
      else .ok { key := String.ofList key, source := String.ofList source }

inductive RuleArg
  | rate (count : ℕ) (period : Duration)
  | window (d : Duration)
  | bucket (d : Duration)
  | domain (d : String)
  | mode (m : EnforcementMode)
  | dryRunFlag
  | exceptIf (var : String)
  | binding (b : DescriptorBinding)
  | invalid (reason : String)
deriving DecidableEq, Repr

/-- `str::strip_prefix`. -/
def stripStart (start value : String) : Option String :=
  if start.toList <+: value.toList then
    some (String.ofList (value.toList.drop start.toList.length))
  else none

def parseDurationArg (x : RuleCrates) (rest unparseableMsg : String) : Except String Duration :=
  match x.parseDuration rest with
  | none => .error unparseableMsg
  | some d => .ok d

def parseRuleArg (x : RuleCrates) (value : String) : RuleArg :=
  if value = "dry_run" then .dryRunFlag
  else
    match stripStart "rate=" value with
    | some rest =>
      match parseRate x rest with
      | .ok (count, period) => .rate count period
      | .error reason => .invalid reason
    | none =>
    match stripStart "window=" value with
    | some rest =>
      match parseDurationArg x rest "expected `window=DURATION` (e.g. `window=5h`)" with
      | .ok d => .window d
      | .error reason => .invalid reason
    | none =>
    match stripStart "bucket=" value with
    | some rest =>
      match parseDurationArg x rest "expected `bucket=DURATION` (e.g. `bucket=1s`)" with
      | .ok d => .bucket d
      | .error reason => .invalid reason
    | none =>
    match stripStart "domain=" value with
    | some rest =>
      if !isDescriptorKey rest then
        .invalid "`domain=` must match `[A-Za-z_][A-Za-z0-9_.-]*` (e.g. `domain=api`)"
      else .domain rest
    | none =>
    match stripStart "mode=" value with
    | some rest =>
      match rest with
      | "enforce" => .mode .enforce
      | "dry_run" => .mode .dryRun
      | "disabled" => .mode .disabled
      | _ => .invalid "expected `mode=enforce|dry_run|disabled`"
    | none =>
    match stripStart "except_if=" value with
    | some rest =>
      let var := (stripStart "$" rest).getD rest
      if var = "" || !isSingleIdent var.toList then
        .invalid "`except_if=` expects `$variable_name`"
      else .exceptIf var
    | none =>
    match parseBinding value with
    | .ok b => .binding b
    | .error reason => .invalid reason

/-! ## `gabion_limit_rule` -/

/-- The texts of `RateResolveError`. -/
def rateResolveText : RateResolveError → String
  | .windowShorterThanPeriod =>
    "`window=` must be at least as long as the rate's period; a sub-period window would " ++
      "resolve to a zero limit. To enforce N requests in a shorter span, write the period into " ++
      "the rate itself (e.g. `rate=100r/500ms`)."
  | .zeroWindow => "`window=` must be greater than zero"
  | .zeroBucket => "`bucket=` must be greater than zero"
  | .limitOverflow =>
    "rate × window would overflow a 64-bit limit; pick a smaller `rate=` count or a shorter " ++
      "`window=`"

/-- `DEFAULT_DOMAIN` -/
def defaultDomain : String := "nginx"

/-- The local variables of `set_rule`. -/
structure RuleDraft where
  bucket : Option Duration
  window : Option Duration
  domain : String
  bindings : List DescriptorBinding
  mode : EnforcementMode
  modeExplicit : Bool
  rate : Option (ℕ × Duration)
  exceptIf : Option String

def RuleDraft.new : RuleDraft where
  bucket := none
  window := none
  domain := defaultDomain
  bindings := []
  mode := .enforce
  modeExplicit := false
  rate := none
  exceptIf := none

def RuleDraft.add (draft : RuleDraft) (value : String) : RuleArg → Except String RuleDraft
  | .rate count period => .ok { draft with rate := some (count, period) }
  | .window d => .ok { draft with window := some d }
  | .bucket d => .ok { draft with bucket := some d }
  | .domain d => .ok { draft with domain := d }
  | .mode m => .ok { draft with mode := m, modeExplicit := true }
  | .dryRunFlag =>
    if draft.modeExplicit && draft.mode ≠ .dryRun then
      .error "gabion: `gabion_limit_rule` `dry_run` flag conflicts with explicit `mode=`"
    else .ok { draft with mode := .dryRun, modeExplicit := true }
  | .exceptIf var => .ok { draft with exceptIf := some var }
  | .binding b => .ok { draft with bindings := draft.bindings ++ [b] }
  | .invalid reason =>
    .error ("gabion: `gabion_limit_rule` argument `" ++ value ++ "` is invalid: " ++ reason)

/-- The loop over the arguments; one that is no UTF-8 is `none`. -/
def readRuleArgs (x : RuleCrates) :
    RuleDraft → List (Option String) → Except String RuleDraft
  | draft, [] => .ok draft
  | _, none :: _ => .error "gabion: `gabion_limit_rule` argument is not valid UTF-8"
  | draft, some value :: rest =>
    match draft.add value (parseRuleArg x value) with
    | .error e => .error e
    | .ok draft => readRuleArgs x draft rest

def setRule (x : RuleCrates) (rules : List RuleConfig) :
    List (Option String) → Except String (List RuleConfig)
  | [] => .error "gabion: `gabion_limit_rule` requires at least a rule name"
  | none :: _ => .error "gabion: `gabion_limit_rule` rule name is not valid UTF-8"
  | some name :: args =>
    match readRuleArgs x .new args with
    | .error e => .error e
    | .ok draft =>
      match draft.rate with
      | none =>
        .error ("gabion: `gabion_limit_rule` rule `" ++ name ++ "` is missing the required " ++
          "`rate=Nr/s` argument")
      | some (rateCount, period) =>
        if draft.bindings = [] then
          .error ("gabion: `gabion_limit_rule` rule `" ++ name ++ "` declares no descriptor " ++
            "bindings; add at least one `$variable` (e.g. `$remote_addr`)")
        else if rules.any fun r => r.name = name then
          .error ("gabion: `gabion_limit_rule` rule `" ++ name ++ "` is declared more than " ++
            "once; rule names must be unique within an http \x7b\x7d block")
        else
          match resolveRate rateCount period draft.window draft.bucket with
          | .error err =>
            .error ("gabion: `gabion_limit_rule` rule `" ++ name ++ "`: " ++ rateResolveText err)
          | .ok resolved =>
            .ok (rules ++ [{
              name
              domain := draft.domain
              bindings := draft.bindings
              limit := resolved.limit
              window := resolved.windowMillis * 10 ^ 6
              bucket := resolved.bucketMillis * 10 ^ 6
              mode := draft.mode
              exceptIf := draft.exceptIf }])

/-! ## `gabion_limit` and `gabion` -/

/-- What a level of the configuration says; `none` is inherited. -/
structure LocationConfig where
  ruleIndices : Option (List ℕ)
  off : Option Bool
deriving DecidableEq, Repr

def LocationConfig.new : LocationConfig := ⟨none, none⟩

def LocationConfig.merge (self previous : LocationConfig) : LocationConfig where
  ruleIndices := if self.ruleIndices = none then previous.ruleIndices else self.ruleIndices
  off := if self.off = none then previous.off else self.off

/-- A list without repetitions, with one element more. -/
def pushNew {α : Type} [DecidableEq α] (xs : List α) (x : α) : List α :=
  if x ∈ xs then xs else xs ++ [x]

/-- The loop over the names of `set_limit`. -/
def resolveNames (rules : List RuleConfig) :
    List ℕ → List (Option String) → Except String (List ℕ)
  | indices, [] => .ok indices
  | _, none :: _ => .error "gabion: `gabion_limit` rule name is not valid UTF-8"
  | indices, some ruleName :: rest =>
    if ruleName = "off" then .error "gabion: `gabion_limit off` cannot be mixed with rule names"
    else
      match rules.findIdx? fun r => r.name = ruleName with
      | none =>
        .error ("gabion: `gabion_limit` references rule `" ++ ruleName ++ "`, which is not " ++
          "declared via `gabion_limit_rule`")
      | some index => resolveNames rules (pushNew indices index) rest

def setLimit (rules : List RuleConfig) (location : LocationConfig) :
    List (Option String) → Except String LocationConfig
  | [] => .error "gabion: `gabion_limit` requires at least one rule name (or `off`)"
  | none :: _ => .error "gabion: `gabion_limit` argument is not valid UTF-8"
  | some first :: rest =>
    if first = "off" then
      if rest ≠ [] then .error "gabion: `gabion_limit off` does not take additional arguments"
      else .ok { location with ruleIndices := some [] }
    else
      match resolveNames rules (location.ruleIndices.getD []) (some first :: rest) with
      | .error e => .error e
      | .ok indices => .ok { location with ruleIndices := some indices }

def setGabion (location : LocationConfig) : List (Option String) → Except String LocationConfig
  | [none] => .error "gabion: `gabion` argument is not valid UTF-8"
  | [some "on"] => .ok { location with off := some false }
  | [some "off"] => .ok { location with off := some true }
  | [some other] =>
    .error ("gabion: `gabion " ++ other ++ "` is not a valid value; use `on` or `off`")
  | _ => .error "gabion: `gabion` requires exactly one argument (`on` or `off`)"

/-! ## A configuration -/

/-- A directive with its arguments; the last two stand at a level. -/
inductive Directive
  | limitRule (args : List (Option String))
  | limit (level : ℕ) (args : List (Option String))
  | gabion (level : ℕ) (args : List (Option String))

/-- The configuration as far as it is read. -/
structure Conf where
  rules : List RuleConfig
  levels : ℕ → LocationConfig

namespace Conf

open Function (update)

def new : Conf := ⟨[], fun _ => .new⟩

def read (x : RuleCrates) (conf : Conf) : Directive → Except String Conf
  | .limitRule args =>
    match setRule x conf.rules args with
    | .error e => .error e
    | .ok rules => .ok { conf with rules }
  | .limit level args =>
    match setLimit conf.rules (conf.levels level) args with
    | .error e => .error e
    | .ok location => .ok { conf with levels := update conf.levels level location }
  | .gabion level args =>
    match setGabion (conf.levels level) args with
    | .error e => .error e
    | .ok location => .ok { conf with levels := update conf.levels level location }

/-- nginx stops at the first error. -/
def readAll (x : RuleCrates) : Conf → List Directive → Except String Conf
  | conf, [] => .ok conf
  | conf, directive :: rest =>
    match conf.read x directive with
    | .error e => .error e
    | .ok conf => readAll x conf rest

/-- The configuration of a location: its level, and those around it from the inside out. -/
def locationConf (conf : Conf) : List ℕ → LocationConfig
  | [] => .new
  | level :: outer => (conf.levels level).merge (conf.locationConf outer)

end Conf

/-! ## The directives by names -/

/-- What one directive does to the names listed at a level. -/
def namesAfter (level : ℕ) (names : Option (List String)) : Directive → Option (List String)
  | .limit l args =>
    if l = level then
      if args = [some "off"] then some []
      else some ((args.filterMap id).foldl pushNew (names.getD []))
    else names
  | _ => names

/-- **The names listed at a level**: those since the last `gabion_limit off`, each once. -/
def limitNames (directives : List Directive) (level : ℕ) : Option (List String) :=
  directives.foldl (namesAfter level) none

/-! ## Rules by name and by position -/

variable {x : RuleCrates} {rules rules' : List RuleConfig} {indices : List ℕ} {names : List String}

theorem nodup_pushNew {α : Type} [DecidableEq α] {xs : List α} (h : xs.Nodup) (a : α) :
    (pushNew xs a).Nodup := by
  unfold pushNew
  split_ifs with hmem
  · exact h
  · rw [List.nodup_append']
    exact ⟨h, by simp, by simpa using hmem⟩

/-- A rule is added at the end, under a new name. -/
theorem setRule_cases {args : List (Option String)} (h : setRule x rules args = .ok rules') :
    ∃ rule, rules' = rules ++ [rule] ∧ rule.name ∉ rules.map RuleConfig.name := by
  unfold setRule at h
  split at h
  · cases h
  · cases h
  · split at h
    · cases h
    · split at h
      · cases h
      · split_ifs at h with hbindings hany
        split at h
        · cases h
        · cases h
          refine ⟨_, rfl, ?_⟩
          simpa using hany

/-- The positions of names, one after the other. -/
def Resolved (rules : List RuleConfig) (indices : List ℕ) (names : List String) : Prop :=
  List.Forall₂ (fun index name => (rules.map RuleConfig.name)[index]? = some name) indices names

theorem Resolved.append (h : Resolved rules indices names) (more : List RuleConfig) :
    Resolved (rules ++ more) indices names := by
  refine h.imp fun index name hname => ?_
  rw [List.map_append, List.getElem?_append_left (List.getElem?_eq_some_iff.1 hname).1]
  exact hname

/-- With distinct names, a position is listed if and only if its name is. -/
theorem Resolved.mem_iff (h : Resolved rules indices names)
    (hnodup : (rules.map RuleConfig.name).Nodup) {index : ℕ} {name : String}
    (hname : (rules.map RuleConfig.name)[index]? = some name) : index ∈ indices ↔ name ∈ names := by
  induction h with
  | nil => simp
  | cons hhead htail ih =>
    rename_i i n is ns
    rw [List.mem_cons, List.mem_cons, ih]
    obtain ⟨hi, hn⟩ := List.getElem?_eq_some_iff.1 hhead
    obtain ⟨hindex, hn'⟩ := List.getElem?_eq_some_iff.1 hname
    have heq : index = i ↔ name = n := by
      rw [← hn, ← hn']
      exact (hnodup.getElem_inj_iff).symm
    rw [heq]

theorem Resolved.pushNew (h : Resolved rules indices names)
    (hnodup : (rules.map RuleConfig.name).Nodup) {index : ℕ} {name : String}
    (hname : (rules.map RuleConfig.name)[index]? = some name) :
    Resolved rules (Nginx.pushNew indices index) (Nginx.pushNew names name) := by
  unfold Nginx.pushNew
  by_cases hmem : index ∈ indices
  · rw [if_pos hmem, if_pos ((h.mem_iff hnodup hname).1 hmem)]
    exact h
  · rw [if_neg hmem, if_neg (mt (h.mem_iff hnodup hname).2 hmem)]
    exact List.rel_append h (.cons hname .nil)

theorem findIdx?_name {name : String} {index : ℕ}
    (h : (rules.findIdx? fun r => r.name = name) = some index) :
    (rules.map RuleConfig.name)[index]? = some name := by
  obtain ⟨hlt, hname, -⟩ := List.findIdx?_eq_some_iff_getElem.1 h
  rw [List.getElem?_map, List.getElem?_eq_getElem hlt]
  simpa using hname

/-- **The loop of `set_limit`** adds the positions of the names. -/
theorem resolveNames_spec (hnodup : (rules.map RuleConfig.name).Nodup) :
    ∀ (args : List (Option String)) {indices indices' : List ℕ} {names : List String},
      Resolved rules indices names → resolveNames rules indices args = .ok indices' →
        Resolved rules indices' ((args.filterMap id).foldl Nginx.pushNew names)
  | [], _, _, _, h, heq => by
    cases heq
    exact h
  | none :: _, _, _, _, _, heq => by cases heq
  | some name :: rest, _, _, _, h, heq => by
    unfold resolveNames at heq
    split_ifs at heq with hoff
    split at heq
    · cases heq
    · rename_i index hfind
      exact resolveNames_spec hnodup rest (h.pushNew hnodup (findIdx?_name hfind)) heq

/-! ## The configuration as it is read -/

/-- What a level lists, by positions and by names. -/
def LevelNamed (rules : List RuleConfig) (location : LocationConfig)
    (names : Option (List String)) : Prop :=
  match location.ruleIndices, names with
  | none, none => True
  | some indices, some names => Resolved rules indices names
  | _, _ => False

theorem LevelNamed.getD {location : LocationConfig} {names : Option (List String)}
    (h : LevelNamed rules location names) :
    Resolved rules (location.ruleIndices.getD []) (names.getD []) := by
  unfold LevelNamed at h
  split at h
  · rename_i hnone
    rw [hnone]
    exact .nil
  · rename_i hsome
    rw [hsome]
    exact h
  · exact h.elim

/-- One more `gabion_limit` at the level. -/
theorem setLimit_spec (hnodup : (rules.map RuleConfig.name).Nodup) {level : ℕ}
    {location location' : LocationConfig} {names : Option (List String)}
    (h : LevelNamed rules location names) {args : List (Option String)}
    (hset : setLimit rules location args = .ok location') :
    LevelNamed rules location' (namesAfter level names (.limit level args)) := by
  unfold setLimit at hset
  rw [namesAfter, if_pos rfl]
  split at hset
  · cases hset
  · cases hset
  · rename_i first rest
    split_ifs at hset with hoff hrest
    · cases hset
      rw [not_not] at hrest
      rw [hoff, hrest, if_pos rfl]
      exact .nil
    · split at hset
      · cases hset
      · rename_i indices hindices
        cases hset
        rw [if_neg (by simp [hoff])]
        exact resolveNames_spec hnodup _ h.getD hindices

theorem setGabion_ruleIndices {location location' : LocationConfig} {args : List (Option String)}
    (h : setGabion location args = .ok location') :
    location'.ruleIndices = location.ruleIndices := by
  unfold setGabion at h
  split at h <;> cases h <;> rfl

/-- **What holds of a configuration** after the directives read. -/
structure Conf.Named (conf : Conf) (names : ℕ → Option (List String)) : Prop where
  rules : (conf.rules.map RuleConfig.name).Nodup
  levels : ∀ level, LevelNamed conf.rules (conf.levels level) (names level)
  distinct : ∀ level listed, names level = some listed → listed.Nodup

theorem nodup_namesAfter {level : ℕ} {names : Option (List String)}
    (h : ∀ listed, names = some listed → listed.Nodup) (directive : Directive) :
    ∀ listed, namesAfter level names directive = some listed → listed.Nodup := by
  have hfold : ∀ (args : List String) (listed : List String), listed.Nodup →
      (args.foldl pushNew listed).Nodup := by
    intro args
    induction args with
    | nil => exact fun _ h => h
    | cons a args ih => exact fun listed hl => ih _ (nodup_pushNew hl a)
  intro listed hlisted
  cases directive with
  | limitRule args | gabion l args => exact h listed hlisted
  | limit l args =>
    simp only [namesAfter] at hlisted
    split_ifs at hlisted
    · cases hlisted
      exact List.nodup_nil
    · cases hlisted
      refine hfold _ _ ?_
      cases hnames : names with
      | none => exact List.nodup_nil
      | some names => exact h names hnames
    · exact h listed hlisted

/-- What a directive that is accepted does. -/
theorem Conf.read_cases {conf conf' : Conf} {directive : Directive}
    (h : conf.read x directive = .ok conf') :
    (∃ args rule, directive = .limitRule args ∧ rule.name ∉ conf.rules.map RuleConfig.name ∧
      conf' = { conf with rules := conf.rules ++ [rule] }) ∨
    (∃ level args location, directive = .limit level args ∧
      setLimit conf.rules (conf.levels level) args = .ok location ∧
      conf' = { conf with levels := Function.update conf.levels level location }) ∨
    ∃ level args location, directive = .gabion level args ∧
      setGabion (conf.levels level) args = .ok location ∧
      conf' = { conf with levels := Function.update conf.levels level location } := by
  cases directive with
  | limitRule args =>
    simp only [Conf.read] at h
    split at h
    · cases h
    · rename_i rules hset
      cases h
      obtain ⟨rule, rfl, hnew⟩ := setRule_cases hset
      exact .inl ⟨args, rule, rfl, hnew, rfl⟩
  | limit level args =>
    simp only [Conf.read] at h
    split at h
    · cases h
    · rename_i location hset
      cases h
      exact .inr (.inl ⟨level, args, location, rfl, hset, rfl⟩)
  | gabion level args =>
    simp only [Conf.read] at h
    split at h
    · cases h
    · rename_i location hset
      cases h
      exact .inr (.inr ⟨level, args, location, rfl, hset, rfl⟩)

theorem LevelNamed.append {location : LocationConfig} {names : Option (List String)}
    (h : LevelNamed rules location names) (more : List RuleConfig) :
    LevelNamed (rules ++ more) location names := by
  unfold LevelNamed at h ⊢
  split at h
  · trivial
  · exact Resolved.append h more
  · exact h.elim

theorem Conf.Named.read {conf conf' : Conf} {names : ℕ → Option (List String)}
    (h : conf.Named names) {directive : Directive} (hread : conf.read x directive = .ok conf') :
    conf'.Named fun level => namesAfter level (names level) directive := by
  have hdistinct : ∀ level listed, namesAfter level (names level) directive = some listed →
      listed.Nodup := fun level => nodup_namesAfter (h.distinct level) directive
  rcases Conf.read_cases hread with ⟨args, rule, rfl, hnew, rfl⟩ |
    ⟨l, args, location, rfl, hset, rfl⟩ | ⟨l, args, location, rfl, hset, rfl⟩
  · refine ⟨?_, fun level => (h.levels level).append [rule], hdistinct⟩
    rw [List.map_append, List.nodup_append']
    exact ⟨h.rules, by simp, by simpa using hnew⟩
  · refine ⟨h.rules, fun level => ?_, hdistinct⟩
    by_cases hl : l = level
    · subst hl
      simp only [Function.update_self]
      exact setLimit_spec h.rules (h.levels l) hset
    · simp only [Function.update_of_ne (Ne.symm hl), namesAfter, if_neg hl]
      exact h.levels level
  · refine ⟨h.rules, fun level => ?_, hdistinct⟩
    by_cases hl : l = level
    · subst hl
      have hlevel := h.levels l
      unfold LevelNamed at hlevel ⊢
      simp only [Function.update_self, setGabion_ruleIndices hset]
      exact hlevel
    · simp only [Function.update_of_ne (Ne.symm hl)]
      exact h.levels level

theorem Conf.Named.readAll : ∀ (directives : List Directive) {conf conf' : Conf}
    {names : ℕ → Option (List String)}, conf.Named names →
      conf.readAll x directives = .ok conf' →
        conf'.Named fun level => directives.foldl (namesAfter level) (names level)
  | [], _, _, _, h, hread => by
    cases hread
    exact h
  | directive :: rest, _, _, _, h, hread => by
    unfold Conf.readAll at hread
    split at hread
    · cases hread
    · rename_i conf₁ hfirst
      exact Conf.Named.readAll rest (h.read hfirst) hread

theorem Conf.named_new : Conf.new.Named fun _ => none :=
  ⟨List.nodup_nil, fun _ => trivial, fun _ _ h => by cases h⟩

/-! ## The rules of a location -/

/-- Rules are compiled one by one, under their names. -/
theorem compileFrom_names {cardinality : CardinalitySettings}
    {compile : String → Except String BindingLookup} : ∀ {configs : List RuleConfig} {idx : ℕ}
    {compiled : CompiledRules}, compileFrom x cardinality compile idx configs = .ok compiled →
      compiled.map CompiledRule.name = configs.map RuleConfig.name
  | [], _, _, h => by
    cases h
    rfl
  | cfg :: rest, idx, _, h => by
    unfold compileFrom at h
    split at h
    · cases h
    · rename_i rule hrule
      split at h
      · cases h
      · rename_i rules hrest
        cases h
        have hname : rule.name = cfg.name := by
          unfold compileRule at hrule
          repeat' split at hrule
          all_goals cases hrule
          rfl
        rw [List.map_cons, List.map_cons, compileFrom_names hrest, hname]

/-- The innermost level that lists rules. -/
theorem locationConf_named {conf : Conf} {names : ℕ → Option (List String)}
    (h : conf.Named names) (path : List ℕ) :
    LevelNamed conf.rules (conf.locationConf path) (path.findSome? names) := by
  induction path with
  | nil => exact trivial
  | cons level outer ih =>
    have hlevel := h.levels level
    rw [List.findSome?_cons]
    unfold LevelNamed at hlevel ⊢
    cases hindices : (conf.levels level).ruleIndices with
    | none =>
      cases hnames : names level with
      | some listed => simp [hindices, hnames] at hlevel
      | none =>
        simp only [Conf.locationConf, LocationConfig.merge, hindices, if_true]
        exact ih
    | some indices =>
      cases hnames : names level with
      | none => simp [hindices, hnames] at hlevel
      | some listed =>
        rw [hindices, hnames] at hlevel
        simp only [Conf.locationConf, LocationConfig.merge, hindices]
        exact hlevel

/-- **A location has the rules that are named for it.**  Let nginx accept any directives, in any
    order and at any levels, and compile the rules.  The rules that the access handler looks up at
    a location are those with the names listed at the innermost level around it that lists any,
    in the order listed since the last `gabion_limit off` there, each once; none of them is
    missing. -/
theorem location_rules_named (x : RuleCrates) (cardinality : CardinalitySettings)
    (compile : String → Except String BindingLookup) {directives : List Directive} {conf : Conf}
    (hread : Conf.new.readAll x directives = .ok conf) {compiled : CompiledRules}
    (hcompiled : compileWith x cardinality compile conf.rules = .ok compiled) (path : List ℕ) :
    (conf.locationConf path).ruleIndices.map (fun indices =>
        indices.map fun index => compiled[index]?.map CompiledRule.name) =
      (path.findSome? (limitNames directives)).map (fun names => names.map some) ∧
    ∀ names, path.findSome? (limitNames directives) = some names → names.Nodup := by
  have hnamed := Conf.named_new.readAll directives hread
  have hnames : compiled.map CompiledRule.name = conf.rules.map RuleConfig.name := by
    unfold compileWith at hcompiled
    split_ifs at hcompiled
    exact compileFrom_names hcompiled
  have hlocation := locationConf_named hnamed path
  constructor
  · unfold LevelNamed at hlocation
    split at hlocation
    · rename_i hindices hlisted
      rw [hindices]
      show _ = Option.map _ (path.findSome? fun level => directives.foldl (namesAfter level) none)
      rw [hlisted]
      rfl
    · rename_i indices names hindices hlisted
      rw [hindices]
      show _ = Option.map _ (path.findSome? fun level => directives.foldl (namesAfter level) none)
      rw [hlisted]
      simp only [Option.map_some, Option.some.injEq]
      refine List.forall₂_eq_eq_eq ▸ ?_
      rw [List.forall₂_map_left_iff, List.forall₂_map_right_iff]
      refine hlocation.imp fun index name hname => ?_
      rw [← List.getElem?_map, hnames]
      exact hname
    · exact hlocation.elim
  · intro names hlisted
    obtain ⟨level, -, hlevel⟩ := List.exists_of_findSome?_eq_some hlisted
    exact hnamed.distinct level names hlevel

/-- Two rules; the server lists both, the location only the second, and then a third level
    nothing. -/
def siteDirectives : List Directive :=
  [.limitRule [some "first", some "rate=5r/s", some "$remote_addr"],
    .limitRule [some "second", some "rate=9r/m", some "tenant:$http_x_tenant", some "dry_run"],
    .limit 0 [some "second", some "first", some "second"],
    .gabion 0 [some "on"],
    .limit 1 [some "first"],
    .limit 1 [some "off"],
    .limit 1 [some "second"]]

theorem location_rules_named_site : ∃ conf compiled,
    Conf.new.readAll siteCrates siteDirectives = .ok conf ∧
    compileWith siteCrates .default siteCompiler conf.rules = .ok compiled ∧
    (conf.locationConf [2, 1, 0]).ruleIndices.map (fun indices =>
      indices.map fun index => compiled[index]?.map CompiledRule.name) = some [some "second"] ∧
    (conf.locationConf [0]).ruleIndices.map (fun indices => indices.map fun index =>
      compiled[index]?.map CompiledRule.name) = some [some "second", some "first"] := by
  have heval : ((Conf.new.readAll siteCrates siteDirectives).toOption.bind fun conf =>
      (compileWith siteCrates .default siteCompiler conf.rules).toOption).isSome = true := by
    decide +kernel
  cases hread : Conf.new.readAll siteCrates siteDirectives with
  | error e =>
    rw [hread] at heval
    cases heval
  | ok conf =>
  rw [hread] at heval
  cases hcompiled : compileWith siteCrates .default siteCompiler conf.rules with
  | error e =>
    simp only [Except.toOption, Option.bind_some, hcompiled] at heval
    cases heval
  | ok compiled =>
  have hnames := fun path =>
    (location_rules_named siteCrates .default siteCompiler hread hcompiled path).1
  refine ⟨conf, compiled, rfl, hcompiled, ?_, ?_⟩
  · rw [hnames]
    decide +kernel
  · rw [hnames]
    decide +kernel

end Nginx

end Gabion

/-
  The rules of the nginx module (`nginx/src/rules.rs`).

  A rule of the nginx configuration names the variables its descriptors are bound to.  The
  compiler of variable references is nginx's own and a parameter.  A compiled rule has at
  least one binding and no more than the descriptor buffer of the access path holds.
-/
import Gabion.Rules

namespace Gabion

namespace Nginx

def maxDescriptors : ℕ := 16

/-- The envelope.  The directive for the number of descriptors accepts no more than
    `MAX_DESCRIPTORS`. -/
structure CardinalitySettings where
  maxDescriptorCount : ℕ
  maxDescriptorBytes : ℕ
  maxKeyBytes : ℕ
  count_le : maxDescriptorCount ≤ maxDescriptors

/-- The defaults of `gabion::defaults`. -/
def CardinalitySettings.default : CardinalitySettings where
  maxDescriptorCount := 16
  maxDescriptorBytes := 512
  maxKeyBytes := 128
  count_le := le_rfl

structure DescriptorBinding where
  key : String
  source : String
deriving DecidableEq, Repr

/-- A variable reference, ready to be looked up. -/
inductive BindingLookup
  | uri
  | requestUri
  | args
  | remoteAddr
  | arg (name : String)
  | indexedVariable (name : String) (index : ℤ)
  | complexValue (source : String) (compiledValue : ℕ)
deriving DecidableEq, Repr

structure CompiledBinding where
  key : String
  lookup : BindingLookup
deriving DecidableEq, Repr

structure RuleConfig where
  name : String
  domain : String
  bindings : List DescriptorBinding
  limit : ℕ
  window : Duration
  bucket : Duration
  mode : EnforcementMode
  exceptIf : Option String
deriving DecidableEq, Repr

structure CompiledRule where
  name : String
  rule : Rule
  bindings : List CompiledBinding
  exceptIf : Option BindingLookup
  bindings_ne : bindings ≠ []
  bindings_le : bindings.length ≤ maxDescriptors

/-- `CompiledRules` is looked up by position. -/
abbrev CompiledRules := List CompiledRule

inductive RuleConfigError
  | empty
  | emptyBindings (rule : String)
  | tooManyBindings (rule : String)
  | zeroLimit (rule : String)
  | keyTooLong (rule key : String)
  | compileBinding (rule spec message : String)
deriving DecidableEq, Repr

/-! ## Compilation -/

def durationMillis (d : Duration) : ℕ := max (durationToMillis d) 1

section
variable (x : RuleCrates) (cardinality : CardinalitySettings)
  (compile : String → Except String BindingLookup)

def compileSource (rule source : String) : Except RuleConfigError BindingLookup :=
  match compile source with
  | .error message => .error (.compileBinding rule source message)
  | .ok lookup => .ok lookup

def compileBindings (rule : String) :
    List DescriptorBinding → Except RuleConfigError (List CompiledBinding)
  | [] => .ok []
  | binding :: rest =>
    match compileSource compile rule binding.source with
    | .error e => .error e
    | .ok lookup =>
      match compileBindings rule rest with
      | .error e => .error e
      | .ok bindings => .ok ({ key := binding.key, lookup } :: bindings)

theorem compileBindings_length {rule : String} : ∀ {bindings : List DescriptorBinding}
    {compiled : List CompiledBinding}, compileBindings compile rule bindings = .ok compiled →
      compiled.length = bindings.length
  | [], _, h => by
    cases h
    rfl
  | binding :: rest, _, h => by
    unfold compileBindings at h
    split at h
    · cases h
    · split at h
      · cases h
      · rename_i hrest
        cases h
        rw [List.length_cons, List.length_cons, compileBindings_length hrest]

/-- The predicate of `except_if=` is named without its `$`. -/
def compileExceptIf (rule : String) : Option String → Except RuleConfigError (Option BindingLookup)
  | none => .ok none
  | some var =>
    match compileSource compile rule ("$" ++ var) with
    | .error e => .error e
    | .ok lookup => .ok (some lookup)

/-- One turn of the loop of `compile_with`. -/
def compileRule (idx : ℕ) (cfg : RuleConfig) : Except RuleConfigError CompiledRule :=
  if hempty : cfg.bindings = [] then .error (.emptyBindings cfg.name)
  else if hmany : cfg.bindings.length > cardinality.maxDescriptorCount then
    .error (.tooManyBindings cfg.name)
  else
    match cfg.bindings.find? fun b => (utf8 b.key).length > cardinality.maxKeyBytes with
    | some b => .error (.keyTooLong cfg.name b.key)
    | none =>
      if cfg.limit = 0 then .error (.zeroLimit cfg.name)
      else
        match hb : compileBindings compile cfg.name cfg.bindings with
        | .error e => .error e
        | .ok bindings =>
          match compileExceptIf compile cfg.name cfg.exceptIf with
          | .error e => .error e
          | .ok exceptIf =>
            .ok {
              name := cfg.name
              rule := Rule.new x ((idx + 1) % 2 ^ 32) cfg.domain
                (cfg.bindings.map fun b => ⟨b.key, "*"⟩) cfg.limit (durationMillis cfg.window)
                (durationMillis cfg.bucket) cfg.mode
              bindings
              exceptIf
              bindings_ne := by
                have hlen := compileBindings_length compile hb
                rintro rfl
                exact hempty (List.length_eq_zero_iff.1 hlen.symm)
              bindings_le := by
                rw [compileBindings_length compile hb]
                exact (not_lt.1 hmany).trans cardinality.count_le }

def compileFrom (idx : ℕ) : List RuleConfig → Except RuleConfigError CompiledRules
  | [] => .ok []
  | cfg :: rest =>
    match compileRule x cardinality compile idx cfg with
    | .error e => .error e
    | .ok rule =>
      match compileFrom (idx + 1) rest with
      | .error e => .error e
      | .ok rules => .ok (rule :: rules)

def compileWith (configs : List RuleConfig) : Except RuleConfigError CompiledRules :=
  if configs = [] then .error .empty else compileFrom x cardinality compile 0 configs

end

end Nginx

end Gabion

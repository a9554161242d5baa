/-
  The access decision of the nginx module (`nginx/src/access.rs`).

  `decide_all` asks each listed rule in turn and keeps what the rules say, and the events they
  want counted, in local variables.  Only when every rule has been asked and none rejects are
  the events pushed (`decide_all_commits`).
-/
import Gabion.Nginx.Queue
import Gabion.Nginx.Rules
import Gabion.Window

namespace Gabion

namespace Nginx

def maxMatchedRules : ℕ := 16

/-- The bytes of a variable, or none if it is absent. -/
abbrev VariableLookup := BindingLookup → Option (List UInt8)

structure RejectInfo where
  spec : RuleSpec
  total : ℕ
  nowMillis : ℕ
  deltaUntilAdmitMillis : ℕ
deriving DecidableEq, Repr

structure AllowInfo where
  spec : RuleSpec
  remaining : ℕ
  nowMillis : ℕ
deriving DecidableEq, Repr

inductive AccessOutcome
  | allow (info : Option AllowInfo)
  | reject (info : RejectInfo)
  | cardinality
  | decline
deriving DecidableEq, Repr

/-- What a worker decides with, apart from the queue. -/
structure AccessCtx where
  crates : RuleCrates
  rules : CompiledRules
  aggregate : AggregateTable
  domain : String
  cardinality : CardinalitySettings

structure QuotaSnapshot where
  spec : RuleSpec
  remaining : ℕ
deriving DecidableEq, Repr

inductive RuleOutcome
  | allow (snapshot : QuotaSnapshot) (events : List QueueEvent)
  | reject (info : RejectInfo)
  | decline
  | cardinality
  | exempt (ruleId : ℕ)
deriving DecidableEq, Repr

/-! ## One rule -/

def isTruthy (value : List UInt8) : Bool :=
  !(value = [] || ["0", "false", "False", "FALSE", "off", "Off", "OFF", "no", "No", "NO"].any
    fun falsy => value = utf8 falsy)

/-- The predicate of the rule is present and true. -/
def CompiledRule.isExempt (compiled : CompiledRule) (vars : VariableLookup) : Bool :=
  match compiled.exceptIf with
  | none => false
  | some predicate =>
    match vars predicate with
    | none => false
    | some value => isTruthy value

/-- `std::str::from_utf8`. -/
def fromUtf8 (bytes : List UInt8) : Option String := String.fromUTF8? bytes.toByteArray

/-- The loop over the bindings, from a number of bytes on. -/
def bindDescriptors (ctx : AccessCtx) (vars : VariableLookup) :
    ℕ → List CompiledBinding → Except RuleOutcome (List Descriptor)
  | _, [] => .ok []
  | bytes, binding :: rest =>
    match vars binding.lookup with
    | none => .error .decline
    | some value =>
      let bytes := min (min (bytes + (utf8 binding.key).length) u64Max + value.length) u64Max
      if bytes > ctx.cardinality.maxDescriptorBytes then .error .cardinality
      else
        match fromUtf8 value with
        | none => .error .decline
        | some value =>
          match bindDescriptors ctx vars bytes rest with
          | .error outcome => .error outcome
          | .ok descriptors => .ok ({ key := binding.key, value } :: descriptors)

/-- The total of the rule's window. -/
def windowTotalFor (ctx : AccessCtx) (now : ℕ) (rule : Rule) (descriptors : List Descriptor) : ℕ :=
  ctx.aggregate.windowTotal rule.fingerprint (hashKey ctx.crates rule.id ctx.domain descriptors) now
    rule.bucketMillis rule.liveBuckets

/-- The event of a rule that allows the request. -/
def eventFor (ctx : AccessCtx) (now : ℕ) (rule : Rule) (descriptors : List Descriptor) :
    QueueEvent where
  ruleFingerprint := rule.fingerprint
  keyHash := hashKey ctx.crates rule.id ctx.domain descriptors
  bucket := BitVec.ofNat 32 (now / rule.bucketMillis)
  hits := 1
  ruleLimit := rule.limit
  nowMillis := now

/-- The part of `decide_one` after the descriptors are built. -/
def evaluateRule (ctx : AccessCtx) (now : ℕ) (rule : Rule) (descriptors : List Descriptor) :
    RuleOutcome :=
  if rule.mode = .disabled then .decline
  else
    let total := windowTotalFor ctx now rule descriptors
    let keyHash := hashKey ctx.crates rule.id ctx.domain descriptors
    if min (total + 1) u64Max > rule.limit ∧ rule.mode = .enforce then
      .reject {
        spec := rule.spec
        total
        nowMillis := now
        deltaUntilAdmitMillis := timeUntilAdmitMillis now rule.bucketMillis rule.liveBuckets
          rule.limit total 1 fun bucket =>
            (ctx.aggregate.get ⟨rule.fingerprint, keyHash, BitVec.ofNat 32 bucket⟩).getD 0 }
    else
      .allow { spec := rule.spec, remaining := rule.limit - total - 1 }
        [eventFor ctx now rule descriptors]

def decideOne (ctx : AccessCtx) (ruleIndex : ℕ) (vars : VariableLookup) (now : ℕ) : RuleOutcome :=
  match ctx.rules[ruleIndex]? with
  | none => .decline
  | some compiled =>
    if compiled.isExempt vars then .exempt compiled.rule.id
    else
      match bindDescriptors ctx vars (utf8 ctx.domain).length compiled.bindings with
      | .error outcome => outcome
      | .ok descriptors => evaluateRule ctx now compiled.rule descriptors

/-! ## All rules -/

def pickLongestWindow (current : Option RejectInfo) (candidate : RejectInfo) : RejectInfo :=
  match current with
  | some c => if c.spec.windowMillis ≥ candidate.spec.windowMillis then c else candidate
  | none => candidate

def pickMinRemaining (current : Option QuotaSnapshot) (candidate : QuotaSnapshot) :
    QuotaSnapshot :=
  match current with
  | some c =>
    if c.remaining < candidate.remaining then c
    else if c.remaining = candidate.remaining ∧
      c.spec.windowMillis ≥ candidate.spec.windowMillis then c
    else candidate
  | none => candidate

/-- The local variables of `decide_all`. -/
structure Tally where
  worstReject : Option RejectInfo
  tightestAllow : Option QuotaSnapshot
  allEvents : List QueueEvent
  hadNonExemptOutcome : Bool
  anyExempt : Bool
  anyCardinality : Bool

def Tally.new : Tally where
  worstReject := none
  tightestAllow := none
  allEvents := []
  hadNonExemptOutcome := false
  anyExempt := false
  anyCardinality := false

/-- Events that do not fit the buffer are not counted. -/
def tryPushAll : List QueueEvent → List QueueEvent → List QueueEvent
  | all, [] => all
  | all, event :: rest =>
    if all.length < maxMatchedRules then tryPushAll (all ++ [event]) rest else all

def Tally.add (t : Tally) : RuleOutcome → Tally
  | .allow snapshot events =>
    { t with
      hadNonExemptOutcome := true
      tightestAllow := some (pickMinRemaining t.tightestAllow snapshot)
      allEvents := tryPushAll t.allEvents events }
  | .reject info =>
    { t with
      hadNonExemptOutcome := true
      worstReject := some (pickLongestWindow t.worstReject info) }
  | .decline => t
  | .cardinality => { t with anyCardinality := true }
  | .exempt _ => { t with anyExempt := true }

def commit : RequestQueue → List QueueEvent → Option RequestQueue
  | queue, [] => some queue
  | queue, event :: rest => (queue.push event).bind fun (queue, _) => commit queue rest

/-- `decide_all`, with the queue it leaves; `none` if a push does not return. -/
def decideAll (ctx : AccessCtx) (queue : RequestQueue) (ruleIndices : List ℕ)
    (vars : VariableLookup) (now : ℕ) : Option (AccessOutcome × RequestQueue) :=
  let t := ruleIndices.foldl (fun t index => t.add (decideOne ctx index vars now)) Tally.new
  match t.worstReject with
  | some info => some (.reject info, queue)
  | none =>
    if t.hadNonExemptOutcome then
      (commit queue t.allEvents).map fun queue =>
        (.allow (t.tightestAllow.map fun snap =>
          { spec := snap.spec, remaining := snap.remaining, nowMillis := now }), queue)
    else if t.anyExempt then some (.allow none, queue)
    else if t.anyCardinality then some (.cardinality, queue)
    else some (.decline, queue)

/-! ## What a rule asks for -/

theorem toByteArray_utf8 (s : String) : (utf8 s).toByteArray = s.toByteArray := by
  have h : s.toList.utf8Encode = s.toByteArray := by simp
  rw [← h]
  rfl

/-- Decoding gives the string with these bytes. -/
theorem fromUtf8_eq_some {bytes : List UInt8} {s : String} :
    fromUtf8 bytes = some s ↔ utf8 s = bytes := by
  unfold fromUtf8 String.fromUTF8?
  constructor
  · intro h
    split_ifs at h with hvalid
    cases h
    rw [← List.toByteArray_inj, toByteArray_utf8]
    rfl
  · rintro rfl
    rw [dif_pos (by rw [toByteArray_utf8]; exact s.isValidUTF8), Option.some.injEq,
      ← String.toByteArray_inj]
    exact toByteArray_utf8 s

/-- The descriptors, if all variables are present and valid UTF-8. -/
def resolve (vars : VariableLookup) (bindings : List CompiledBinding) : Option (List Descriptor) :=
  bindings.mapM fun binding =>
    ((vars binding.lookup).bind fromUtf8).map fun value => { key := binding.key, value }

/-- The bytes of keys and values. -/
def descriptorBytes (descriptors : List Descriptor) : ℕ :=
  (descriptors.map fun d => (utf8 d.key).length + (utf8 d.value).length).sum

/-- The domain, keys and values are within the budget; their number is a saturating sum. -/
def WithinBudget (ctx : AccessCtx) (descriptors : List Descriptor) : Prop :=
  min ((utf8 ctx.domain).length + descriptorBytes descriptors) u64Max ≤
    ctx.cardinality.maxDescriptorBytes

instance (ctx : AccessCtx) (descriptors : List Descriptor) :
    Decidable (WithinBudget ctx descriptors) := inferInstanceAs (Decidable (_ ≤ _))

/-- The listed rule with its descriptors: it is present and not exempted, its variables are
    present and valid UTF-8, and it is within the budget. -/
def evaluated (ctx : AccessCtx) (vars : VariableLookup) (ruleIndex : ℕ) :
    Option (Rule × List Descriptor) := do
  let compiled ← ctx.rules[ruleIndex]?
  if compiled.isExempt vars then none
  else
    let descriptors ← resolve vars compiled.bindings
    if WithinBudget ctx descriptors then some (compiled.rule, descriptors) else none

/-- The window total with one hit more is above the rule's limit. -/
def Exceeds (ctx : AccessCtx) (now : ℕ) (rule : Rule) (descriptors : List Descriptor) : Prop :=
  rule.limit < min (windowTotalFor ctx now rule descriptors + 1) u64Max

instance (ctx : AccessCtx) (now : ℕ) (rule : Rule) (descriptors : List Descriptor) :
    Decidable (Exceeds ctx now rule descriptors) := inferInstanceAs (Decidable (_ < _))

def Rejects (ctx : AccessCtx) (vars : VariableLookup) (now ruleIndex : ℕ) : Prop :=
  ∃ rule descriptors, evaluated ctx vars ruleIndex = some (rule, descriptors) ∧
    rule.mode = .enforce ∧ Exceeds ctx now rule descriptors

/-- The event of the listed rule, if it allows the request. -/
def allowedEvent (ctx : AccessCtx) (vars : VariableLookup) (now ruleIndex : ℕ) :
    Option QueueEvent :=
  match evaluated ctx vars ruleIndex with
  | none => none
  | some (rule, descriptors) =>
    if rule.mode = .disabled ∨ rule.mode = .enforce ∧ Exceeds ctx now rule descriptors then none
    else some (eventFor ctx now rule descriptors)

section
variable {ctx : AccessCtx} {vars : VariableLookup} {now ruleIndex : ℕ}

/-- An outcome that is no decision. -/
def RuleOutcome.isSkip : RuleOutcome → Bool
  | .allow _ _ | .reject _ => false
  | .decline | .cardinality | .exempt _ => true

/-- **The loop over the bindings** gives the descriptors, unless one is missing or invalid or
    the budget is exceeded at the end. -/
theorem bindDescriptors_eq_ok {bindings : List CompiledBinding} : ∀ {bytes : ℕ}
    {descriptors : List Descriptor}, bindDescriptors ctx vars bytes bindings = .ok descriptors ↔
      resolve vars bindings = some descriptors ∧ (bindings = [] ∨
        min (bytes + descriptorBytes descriptors) u64Max ≤ ctx.cardinality.maxDescriptorBytes) := by
  induction bindings with
  | nil => simp [bindDescriptors, resolve]
  | cons binding rest ih =>
    intro bytes descriptors
    unfold bindDescriptors resolve
    rw [List.mapM_cons]
    cases hvalue : vars binding.lookup with
    | none => simp
    | some value =>
      cases hs : fromUtf8 value with
      | none => simp [hs]; split_ifs <;> simp
      | some s =>
        have hlen : (utf8 s).length = value.length := by rw [fromUtf8_eq_some.1 hs]
        simp only [Option.bind_some, hs, Option.map_some, Option.pure_def, Option.bind_eq_bind,
          Option.bind_eq_some_iff, Option.some.injEq, reduceCtorEq, false_or]
        generalize hbytes : min (min (bytes + (utf8 binding.key).length) u64Max + value.length)
          u64Max = bytes'
        have htotal : ∀ ds : List Descriptor, min (bytes + descriptorBytes (⟨binding.key, s⟩ :: ds))
            u64Max = min (bytes' + descriptorBytes ds) u64Max := by
          intro ds
          simp only [descriptorBytes, List.map_cons, List.sum_cons, hlen]
          omega
        constructor
        · intro h
          split_ifs at h with hover
          split at h
          · cases h
          · rename_i ds hrest
            cases h
            obtain ⟨hres, hlast⟩ := ih.1 hrest
            refine ⟨⟨ds, hres, rfl⟩, ?_⟩
            rw [htotal]
            rcases hlast with rfl | hlast
            · obtain rfl : ds = [] := by simpa [resolve, eq_comm] using hres
              simp only [descriptorBytes, List.map_nil, List.sum_nil]
              omega
            · exact hlast
        · rintro ⟨⟨ds, hres, rfl⟩, hle⟩
          rw [htotal] at hle
          rw [if_neg (by omega), ih.2 ⟨hres, .inr hle⟩]

/-- The loop ends early only without a decision. -/
theorem bindDescriptors_error {bindings : List CompiledBinding} : ∀ {bytes : ℕ}
    {outcome : RuleOutcome}, bindDescriptors ctx vars bytes bindings = .error outcome →
      outcome.isSkip = true := by
  induction bindings with
  | nil => nofun
  | cons binding rest ih =>
    intro bytes outcome h
    unfold bindDescriptors at h
    split at h
    · cases h; rfl
    · dsimp only at h
      split_ifs at h
      · cases h; rfl
      · split at h
        · cases h; rfl
        · split at h
          · rename_i hrest
            cases h
            exact ih hrest
          · cases h

/-- **One rule**: what it decides if it is evaluated, and nothing otherwise. -/
theorem decideOne_spec (ctx : AccessCtx) (vars : VariableLookup) (now ruleIndex : ℕ) :
    match evaluated ctx vars ruleIndex with
    | some (rule, descriptors) =>
      decideOne ctx ruleIndex vars now = evaluateRule ctx now rule descriptors
    | none => (decideOne ctx ruleIndex vars now).isSkip = true := by
  unfold decideOne evaluated
  cases hrule : ctx.rules[ruleIndex]? with
  | none => rfl
  | some compiled =>
    simp only [Option.bind_eq_bind, Option.bind_some]
    split_ifs with hexempt
    · rfl
    · cases hbind : bindDescriptors ctx vars (utf8 ctx.domain).length compiled.bindings with
      | ok descriptors =>
        obtain ⟨hres, hbudget⟩ := bindDescriptors_eq_ok.1 hbind
        have hwithin : WithinBudget ctx descriptors := hbudget.resolve_left compiled.bindings_ne
        simp only [hres, Option.bind_some, if_pos hwithin]
      | error outcome =>
        cases hres : resolve vars compiled.bindings with
        | none => exact bindDescriptors_error hbind
        | some descriptors =>
          have hover : ¬ WithinBudget ctx descriptors := fun hwithin => by
            rw [bindDescriptors_eq_ok.2 ⟨hres, .inr hwithin⟩] at hbind
            cases hbind
          simp only [Option.bind_some, if_neg hover]
          exact bindDescriptors_error hbind

def RuleOutcome.isReject : RuleOutcome → Bool
  | .reject _ => true
  | _ => false

def RuleOutcome.events : RuleOutcome → List QueueEvent
  | .allow _ events => events
  | _ => []

theorem RuleOutcome.of_isSkip {outcome : RuleOutcome} (h : outcome.isSkip = true) :
    outcome.isReject = false ∧ outcome.events = [] := by
  cases outcome with
  | allow | reject => cases h
  | decline | cardinality | exempt => exact ⟨rfl, rfl⟩

theorem decideOne_isReject : (decideOne ctx ruleIndex vars now).isReject = true ↔
    Rejects ctx vars now ruleIndex := by
  have hspec := decideOne_spec ctx vars now ruleIndex
  unfold Rejects
  cases he : evaluated ctx vars ruleIndex with
  | none =>
    rw [he] at hspec
    simp [(RuleOutcome.of_isSkip hspec).1]
  | some found =>
    obtain ⟨rule, descriptors⟩ := found
    rw [he] at hspec
    simp only at hspec
    rw [hspec, evaluateRule]
    simp only [Option.some.injEq, Prod.mk.injEq, Exceeds]
    constructor
    · intro h
      split_ifs at h with hdisabled hover
      · cases h
      · exact ⟨rule, descriptors, ⟨rfl, rfl⟩, hover.2, hover.1⟩
      · cases h
    · rintro ⟨_, _, ⟨rfl, rfl⟩, hmode, hover⟩
      rw [if_neg (by rw [hmode]; decide), if_pos ⟨hover, hmode⟩]
      rfl

theorem decideOne_events : (decideOne ctx ruleIndex vars now).events =
    (allowedEvent ctx vars now ruleIndex).toList := by
  have hspec := decideOne_spec ctx vars now ruleIndex
  unfold allowedEvent
  cases he : evaluated ctx vars ruleIndex with
  | none =>
    rw [he] at hspec
    exact (RuleOutcome.of_isSkip hspec).2
  | some found =>
    obtain ⟨rule, descriptors⟩ := found
    rw [he] at hspec
    simp only at hspec ⊢
    rw [hspec]
    unfold evaluateRule Exceeds
    dsimp only
    split_ifs <;> first | rfl | tauto

end

/-! ## The fold over the rules -/

theorem tryPushAll_eq : ∀ (events all : List QueueEvent), all.length ≤ maxMatchedRules →
    tryPushAll all events = (all ++ events).take maxMatchedRules
  | [], all, hle => by
    rw [tryPushAll, List.append_nil, List.take_of_length_le hle]
  | event :: rest, all, hle => by
    unfold tryPushAll
    split_ifs with hroom
    · rw [tryPushAll_eq rest _ (by simpa using hroom), List.append_assoc]
      rfl
    · rw [List.take_append, show maxMatchedRules - all.length = 0 by omega, List.take_zero,
        List.append_nil, List.take_of_length_le hle]

/-- **What the local variables say** after any outcomes. -/
theorem foldl_add (outcomes : List RuleOutcome) : ∀ t : Tally,
    t.allEvents.length ≤ maxMatchedRules →
      (outcomes.foldl Tally.add t).worstReject.isSome =
        (t.worstReject.isSome || outcomes.any RuleOutcome.isReject) ∧
      (outcomes.foldl Tally.add t).allEvents =
        (t.allEvents ++ outcomes.flatMap RuleOutcome.events).take maxMatchedRules ∧
      (outcomes.foldl Tally.add t).hadNonExemptOutcome =
        (t.hadNonExemptOutcome || outcomes.any fun o => !o.isSkip) := by
  induction outcomes with
  | nil =>
    intro t hle
    simp [List.take_of_length_le hle]
  | cons outcome rest ih =>
    intro t hle
    have hevents : (t.add outcome).allEvents =
        (t.allEvents ++ outcome.events).take maxMatchedRules := by
      cases outcome with
      | allow snapshot events => exact tryPushAll_eq events t.allEvents hle
      | _ => simp [Tally.add, RuleOutcome.events, List.take_of_length_le hle]
    obtain ⟨hreject, hall, hdecided⟩ := ih (t.add outcome) (by
      rw [hevents]
      exact List.length_take_le _ _)
    rw [List.foldl_cons]
    refine ⟨?_, ?_, ?_⟩
    · rw [hreject]
      cases outcome <;> simp [Tally.add, RuleOutcome.isReject]
    · rw [hall, hevents, List.flatMap_cons, ← List.append_assoc]
      generalize t.allEvents ++ outcome.events = kept
      rw [List.take_append, List.take_append, List.take_take, min_self, List.length_take]
      congr 2
      omega
    · rw [hdecided]
      cases outcome <;> simp [Tally.add, RuleOutcome.isSkip]

/-! ## Plan, then commit -/

open RequestQueue (offer)

/-- The events go to the queue one after the other; each is kept unless the queue is full when
    it is pushed. -/
theorem commit_spec (events : List QueueEvent) : ∀ {queue : RequestQueue}
    {queued : List QueueEvent}, queue.Holds queued → ∃ queue', commit queue events = some queue' ∧
      queue'.Holds (events.foldl (offer queue.capacity) queued) := by
  induction events with
  | nil => exact fun h => ⟨_, rfl, h⟩
  | cons event rest ih =>
    intro queue queued h
    obtain ⟨queue₁, result, hpush, hbits, h₁, -⟩ := h.push event
    obtain ⟨queue', hcommit, h'⟩ := ih h₁
    have hcap : queue₁.capacity = queue.capacity := congrArg (2 ^ ·) hbits
    refine ⟨queue', ?_, ?_⟩
    · rw [commit, hpush]
      exact hcommit
    · rw [List.foldl_cons, ← hcap]
      rw [← hcap] at h'
      exact h'

section
variable (ctx : AccessCtx) (vars : VariableLookup) (ruleIndices : List ℕ) (now : ℕ)

/-- What the rules want counted: one event for each rule that allows the request, of the
    first `MAX_MATCHED_RULES` of them in the order listed. -/
def plannedEvents : List QueueEvent :=
  (ruleIndices.filterMap (allowedEvent ctx vars now)).take maxMatchedRules

/-- **What `decide_all` knows** when it has asked all rules. -/
theorem tally_spec : ∃ t : Tally,
    ruleIndices.foldl (fun t index => t.add (decideOne ctx index vars now)) Tally.new = t ∧
      (t.worstReject.isSome = true ↔ ∃ index ∈ ruleIndices, Rejects ctx vars now index) ∧
      t.allEvents = plannedEvents ctx vars ruleIndices now ∧
      (t.hadNonExemptOutcome = false → plannedEvents ctx vars ruleIndices now = []) := by
  refine ⟨_, rfl, ?_⟩
  rw [← List.foldl_map (f := fun index => decideOne ctx index vars now) (g := Tally.add)]
  obtain ⟨hreject, hall, hdecided⟩ := foldl_add
    (ruleIndices.map fun index => decideOne ctx index vars now) Tally.new (Nat.zero_le _)
  have hevents : (ruleIndices.map fun index => decideOne ctx index vars now).flatMap
      RuleOutcome.events = ruleIndices.filterMap (allowedEvent ctx vars now) := by
    rw [List.flatMap_map, List.filterMap_eq_flatMap_toList]
    exact List.flatMap_congr fun index _ => decideOne_events
  refine ⟨?_, ?_, fun hnone => ?_⟩
  · rw [hreject]
    simp only [Tally.new, Option.isSome_none, Bool.false_or, List.any_map, List.any_eq_true,
      Function.comp_apply, decideOne_isReject]
  · rw [hall, hevents]
    rfl
  · -- no rule has decided, so none has an event
    rw [hdecided] at hnone
    rw [plannedEvents, ← hevents, List.flatMap_eq_nil_iff.2, List.take_nil]
    intro outcome hmem
    have hskip : outcome.isSkip = true := by
      simpa using (List.any_eq_false.1 (Bool.or_eq_false_iff.1 hnone).2) outcome hmem
    exact (RuleOutcome.of_isSkip hskip).2

/-- **Plan, then commit.**  For every list of compiled rules and rule indices, every variable
    lookup, aggregates and queue, `decide_all` returns.  It rejects if and only if some listed
    rule is present, in mode `Enforce` and not exempted, has its variables present, valid and
    within the budget, and its window total with one hit more, as a saturating sum, is above
    its limit.  The queue is as before unless the request is allowed and some listed rule
    allows it; then the planned events are pushed, and an event is dropped only if the queue
    is full at its push. -/
theorem decide_all_commits {queue : RequestQueue} {queued : List QueueEvent}
    (hqueue : queue.Holds queued) : ∃ outcome queue',
      decideAll ctx queue ruleIndices vars now = some (outcome, queue') ∧
      ((∃ info, outcome = .reject info) ↔ ∃ index ∈ ruleIndices, Rejects ctx vars now index) ∧
      ((∀ info, outcome ≠ .allow info) ∨
        (∀ index ∈ ruleIndices, allowedEvent ctx vars now index = none) → queue' = queue) ∧
      ((∃ info, outcome = .allow info) → queue'.Holds
        ((plannedEvents ctx vars ruleIndices now).foldl (offer queue.capacity) queued)) := by
  obtain ⟨t, ht, hreject, hevents, hnone⟩ := tally_spec ctx vars ruleIndices now
  rw [← hreject]
  unfold decideAll
  rw [ht]
  dsimp only
  cases hworst : t.worstReject with
  | some info =>
    exact ⟨_, _, rfl, by simp, fun _ => rfl, by simp⟩
  | none =>
    dsimp only
    split_ifs with hdecided hexempt hcardinality
    · obtain ⟨queue', hcommit, hholds⟩ := commit_spec t.allEvents hqueue
      rw [hcommit]
      refine ⟨_, _, rfl, by simp, ?_, fun _ => hevents ▸ hholds⟩
      rintro (hnot | hquiet)
      · exact absurd rfl (hnot _)
      · -- nothing is planned
        have hnil : t.allEvents = [] := by
          rw [hevents, plannedEvents, List.filterMap_eq_nil_iff.2 hquiet, List.take_nil]
        rw [hnil] at hcommit
        exact (Option.some.inj hcommit).symm
    · refine ⟨_, _, rfl, by simp, fun _ => rfl, fun _ => ?_⟩
      rw [hnone (by simpa using hdecided)]
      exact hqueue
    · exact ⟨_, _, rfl, by simp, fun _ => rfl, by simp⟩
    · exact ⟨_, _, rfl, by simp, fun _ => rfl, by simp⟩

end

/-! ### Two sites to look at -/

/-- One rule: so many requests a second for each address, except for trusted clients. -/
def siteConfig (limit : ℕ) : RuleConfig where
  name := "per_address"
  domain := "nginx"
  bindings := [⟨"addr", "$remote_addr"⟩]
  limit := limit
  window := Duration.fromSecs 1
  bucket := Duration.fromSecs 1
  mode := .enforce
  exceptIf := some "trusted"

def siteCompiler : String → Except String BindingLookup
  | "$remote_addr" => .ok .remoteAddr
  | source => .ok (.indexedVariable source 0)

def siteCrates : RuleCrates where
  hash := fun bytes => BitVec.ofNat 128 (bytes.map UInt8.toNat).sum
  parseDuration := fun _ => none

/-- The site, with the same count in every row of the aggregates. -/
def site (limit : ℕ) (count : Option ℕ) : AccessCtx where
  crates := siteCrates
  rules := (compileWith siteCrates .default siteCompiler [siteConfig limit]).toOption.getD []
  aggregate := ⟨fun _ => count⟩
  domain := "nginx"
  cardinality := .default

/-- A request from 10.0.0.1. -/
def siteVars : VariableLookup
  | .remoteAddr => some (utf8 "10.0.0.1")
  | _ => none

/-- A ring of two slots. -/
def siteQueue : RequestQueue := .new 1 (by decide) (by decide)

/-- The first request is allowed, and its event is queued. -/
theorem decide_all_commits_first : ∃ info queue' event,
    decideAll (site 2 none) siteQueue [0] siteVars 5000 = some (.allow info, queue') ∧
      plannedEvents (site 2 none) siteVars [0] 5000 = [event] ∧ queue'.Holds [event] := by
  have hqueue : siteQueue.Holds [] := RequestQueue.new_holds 1 (by decide) (by decide)
  obtain ⟨outcome, queue', hdecide, -, -, hcommit⟩ :=
    decide_all_commits (site 2 none) siteVars [0] 5000 hqueue
  have heval : (decideAll (site 2 none) siteQueue [0] siteVars 5000).map (fun p =>
      match p.1 with | .allow _ => true | _ => false) = some true ∧
      (plannedEvents (site 2 none) siteVars [0] 5000).length = 1 := by decide +kernel
  obtain ⟨hallow, hlen⟩ := heval
  obtain ⟨event, hevent⟩ := List.length_eq_one_iff.1 hlen
  rw [hdecide] at hallow
  cases outcome with
  | allow info =>
    have hholds := hcommit ⟨info, rfl⟩
    rw [hevent] at hholds
    exact ⟨info, queue', event, hdecide, hevent, hholds⟩
  | reject | cardinality | decline => cases hallow

/-- **At the largest limit the sum saturates**: the window stands at `u64::MAX`, one hit more
    is above the limit, and the request is allowed. -/
theorem max_limit_allows : ∃ rule descriptors info queue',
    evaluated (site u64Max (some u64Max)) siteVars 0 = some (rule, descriptors) ∧
      rule.mode = .enforce ∧
      rule.limit < windowTotalFor (site u64Max (some u64Max)) 5000 rule descriptors + 1 ∧
      decideAll (site u64Max (some u64Max)) siteQueue [0] siteVars 5000 =
        some (.allow info, queue') := by
  have hrule : (evaluated (site u64Max (some u64Max)) siteVars 0).map (fun (rule, descriptors) =>
      (decide (rule.mode = .enforce), decide (rule.limit <
        windowTotalFor (site u64Max (some u64Max)) 5000 rule descriptors + 1))) =
      some (true, true) := by decide +kernel
  have hallow : (decideAll (site u64Max (some u64Max)) siteQueue [0] siteVars 5000).map (fun p =>
      match p.1 with | .allow _ => true | _ => false) = some true := by decide +kernel
  obtain ⟨⟨rule, descriptors⟩, hevaluated, hvals⟩ := Option.map_eq_some_iff.1 hrule
  simp only [Prod.mk.injEq, decide_eq_true_eq] at hvals
  obtain ⟨⟨outcome, queue'⟩, hdecide, hcode⟩ := Option.map_eq_some_iff.1 hallow
  cases outcome with
  | allow info => exact ⟨rule, descriptors, info, queue', hevaluated, hvals.1, hvals.2, hdecide⟩
  | reject | cardinality | decline => cases hcode

end Nginx

end Gabion

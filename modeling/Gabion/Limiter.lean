/-
  The gRPC rate limiter (`server/src/lib.rs`, `server/src/admission.rs`).

  `evaluate` decides one descriptor from the aggregates and plans the hits to record.  The
  hits are then sent to the gossip loop one by one; the handler waits for the loop at each of
  them, and the loop may do other things in between.  `Server.step` is this interleaving for
  one request after another.
-/
import Gabion.Rules
import Gabion.Runtime
import Gabion.Window

namespace Gabion

namespace Server

/-! ## Admission types -/

structure RejectContext where
  limit : ℕ
  remaining : ℕ
  durationUntilResetMillis : ℕ
deriving DecidableEq, Repr

structure QuotaContext where
  limit : ℕ
  remaining : ℕ
  durationUntilResetMillis : ℕ
deriving DecidableEq, Repr

inductive RejectReason
  | globalLimit
  | cardinality
deriving DecidableEq, Repr

inductive Decision
  | allow (context : Option QuotaContext)
  | reject (reason : RejectReason) (context : Option RejectContext)
deriving DecidableEq, Repr

def Decision.isReject : Decision → Bool
  | allow _ => false
  | reject _ _ => true

structure CardinalityLimits where
  maxDescriptorCount : ℕ
  maxDescriptorBytes : ℕ
  maxKeyBytes : ℕ

/-- One descriptor of a request, as the rules see it. -/
structure LimitRequest where
  domain : String
  descriptors : List Descriptor
  hits : ℕ

def descriptorBytesExceed (limits : CardinalityLimits) : ℕ → List Descriptor → Bool
  | _, [] => false
  | bytes, d :: rest =>
    if (utf8 d.key).length > limits.maxKeyBytes then true
    else
      let bytes := min (min (bytes + (utf8 d.key).length) u64Max + (utf8 d.value).length) u64Max
      if bytes > limits.maxDescriptorBytes then true else descriptorBytesExceed limits bytes rest

def LimitRequest.violatesCardinality (req : LimitRequest) (limits : CardinalityLimits) : Bool :=
  if req.descriptors.length > limits.maxDescriptorCount then true
  else descriptorBytesExceed limits (utf8 req.domain).length req.descriptors

/-! ## Deciding one descriptor -/

def maxDescriptors : ℕ := 16

def maxMatchedRules : ℕ := 16

/-- What does not change while the server runs. -/
structure SharedLimiter where
  crates : RuleCrates
  ruleTable : RuleTable
  cardinalityLimits : CardinalityLimits

/-- A hit to record. -/
structure Planned where
  spec : RuleSpec
  keyHash : KeyHash
  bucket : BucketEpoch
deriving DecidableEq

def pickMinRemainingCtx (current : Option QuotaContext) (candidate : QuotaContext) : QuotaContext :=
  match current with
  | some c => if c.remaining ≤ candidate.remaining then c else candidate
  | none => candidate

/-- What the descriptor is to record for a rule. -/
def plan (x : RuleCrates) (request : LimitRequest) (nowMillis : ℕ) (rule : Rule) : Planned where
  spec := rule.spec
  keyHash := hashKey x rule.id request.domain request.descriptors
  bucket := BitVec.ofNat 32 (nowMillis / rule.bucketMillis)

/-- The total of the rule's window, as the decision reads it. -/
def windowTotalFor (x : RuleCrates) (counts : DashMapStore) (request : LimitRequest)
    (nowMillis : ℕ) (rule : Rule) : ℕ :=
  counts.windowTotal rule.fingerprint (hashKey x rule.id request.domain request.descriptors)
    nowMillis rule.bucketMillis rule.liveBuckets

def rejectContext (x : RuleCrates) (counts : DashMapStore) (request : LimitRequest)
    (nowMillis : ℕ) (rule : Rule) : RejectContext :=
  let total := windowTotalFor x counts request nowMillis rule
  let keyHash := hashKey x rule.id request.domain request.descriptors
  { limit := rule.limit
    remaining := limitRemaining rule.limit total
    durationUntilResetMillis := timeUntilAdmitMillis nowMillis rule.bucketMillis rule.liveBuckets
      rule.limit total request.hits (counts.countFor rule.fingerprint keyHash) }

/-- A rule that is past its limit stands at zero. -/
def quotaContext (x : RuleCrates) (counts : DashMapStore) (request : LimitRequest)
    (nowMillis : ℕ) (rule : Rule) : QuotaContext where
  limit := rule.limit
  remaining := rule.limit - windowTotalFor x counts request nowMillis rule - request.hits
  durationUntilResetMillis := timeUntilNextBucketBoundaryMillis nowMillis rule.bucketMillis

/-- Pass 1 over the matching rules: the rejection, or the hits to record.  Past
    `MAX_MATCHED_RULES` the rest is ignored. -/
def planRules (x : RuleCrates) (counts : DashMapStore) (request : LimitRequest) (nowMillis : ℕ) :
    List Rule → List Planned → Option QuotaContext →
      Except Decision (List Planned × Option QuotaContext)
  | [], planned, tightest => .ok (planned, tightest)
  | rule :: rules, planned, tightest =>
    let total := windowTotalFor x counts request nowMillis rule
    if min (total + request.hits) u64Max > rule.limit ∧ rule.mode = .enforce then
      .error (.reject .globalLimit (some (rejectContext x counts request nowMillis rule)))
    else
      let tightest :=
        some (pickMinRemainingCtx tightest (quotaContext x counts request nowMillis rule))
      if planned.length < maxMatchedRules then
        planRules x counts request nowMillis rules
          (planned ++ [plan x request nowMillis rule]) tightest
      else .ok (planned, tightest)

/-- `evaluate` up to its first wait. -/
def evaluate (l : SharedLimiter) (counts : DashMapStore) (request : LimitRequest)
    (nowMillis : ℕ) : Except Decision (List Planned × Option QuotaContext) :=
  if request.violatesCardinality l.cardinalityLimits then .error (.reject .cardinality none)
  else
    planRules l.crates counts request nowMillis
      (l.ruleTable.matching l.crates request.domain request.descriptors) [] none

section
variable {x : RuleCrates} {counts : DashMapStore} {request : LimitRequest} {now : ℕ}

/-- What an admission plans and has checked: the rules that fit the buffer. -/
theorem planRules_ok : ∀ {rules : List Rule} {planned planned' : List Planned}
    {tightest tightest' : Option QuotaContext},
    planRules x counts request now rules planned tightest = .ok (planned', tightest') →
    planned.length ≤ maxMatchedRules →
      planned' = planned ++
        (rules.take (maxMatchedRules - planned.length)).map (plan x request now) ∧
      ∀ rule ∈ rules.take (maxMatchedRules - planned.length), rule.mode = .enforce →
        min (windowTotalFor x counts request now rule + request.hits) u64Max ≤ rule.limit
  | [], planned, _, _, _, h, _ => by
    cases h
    simp
  | rule :: rules, planned, planned', _, _, h, hlen => by
    unfold planRules at h
    dsimp only at h
    split_ifs at h with hover hroom
    · obtain ⟨hplan, hall⟩ := planRules_ok h (by
        rw [List.length_append, List.length_singleton]; omega)
      have hleft : maxMatchedRules - planned.length =
          maxMatchedRules - (planned ++ [plan x request now rule]).length + 1 := by
        rw [List.length_append, List.length_singleton]
        omega
      rw [hleft, List.take_succ_cons]
      refine ⟨by rw [hplan, List.append_assoc]; rfl, fun r hr hmode => ?_⟩
      rcases List.mem_cons.1 hr with rfl | hr
      · by_contra hc
        exact hover ⟨not_le.1 hc, hmode⟩
      · exact hall r hr hmode
    · -- the buffer is full: this rule and the rest are ignored
      cases h
      rw [Nat.sub_eq_zero_of_le (not_lt.1 hroom), List.take_zero]
      simp

/-- A rejection is by an enforcing rule that is past its limit. -/
theorem planRules_error : ∀ {rules : List Rule} {planned : List Planned}
    {tightest : Option QuotaContext} {decision : Decision},
    planRules x counts request now rules planned tightest = .error decision →
      ∃ rule ∈ rules, rule.mode = .enforce ∧
        rule.limit < min (windowTotalFor x counts request now rule + request.hits) u64Max
  | [], _, _, _, h => by cases h
  | rule :: rules, planned, _, _, h => by
    unfold planRules at h
    dsimp only at h
    split_ifs at h with hover hroom
    · exact ⟨rule, List.mem_cons_self, hover.2, hover.1⟩
    · obtain ⟨r, hr, hmode, hlimit⟩ := planRules_error h
      exact ⟨r, List.mem_cons_of_mem _ hr, hmode, hlimit⟩

end

/-! ## Requests and responses -/

structure RateLimitDescriptor where
  entries : List Descriptor
deriving DecidableEq

structure RateLimitRequest where
  domain : String
  descriptors : List RateLimitDescriptor
  hitsAddend : ℕ
deriving DecidableEq

inductive Code
  | ok
  | overLimit
deriving DecidableEq, Repr

structure DescriptorStatus where
  code : Code
  limitRemaining : ℕ
  /-- seconds and nanoseconds -/
  durationUntilReset : Option (ℕ × ℕ)
deriving DecidableEq, Repr

structure RateLimitResponse where
  overallCode : Code
  statuses : List DescriptorStatus
deriving DecidableEq, Repr

def durationFromMillis (millis : ℕ) : ℕ × ℕ := (millis / 1000, millis % 1000 * 1000000)

def descriptorStatusFor (decision : Decision) : DescriptorStatus :=
  let code := if decision.isReject then .overLimit else .ok
  match decision with
  | .reject _ (some ctx) =>
    { code, limitRemaining := min ctx.remaining u32Max
      durationUntilReset := some (durationFromMillis ctx.durationUntilResetMillis) }
  | .allow (some ctx) =>
    { code, limitRemaining := min ctx.remaining u32Max
      durationUntilReset := some (durationFromMillis ctx.durationUntilResetMillis) }
  | _ => { code, limitRemaining := 0, durationUntilReset := none }

def mapEnvoyDescriptor (d : RateLimitDescriptor) : Except RejectReason (List Descriptor) :=
  if d.entries.length > maxDescriptors then .error .cardinality else .ok d.entries

def RateLimitRequest.hits (request : RateLimitRequest) : ℕ := max request.hitsAddend 1

/-- What the handler asks the rules about a descriptor. -/
def RateLimitRequest.coreRequest (request : RateLimitRequest) (mapped : List Descriptor) :
    LimitRequest where
  domain := request.domain
  descriptors := mapped
  hits := request.hits

/-! ## The handler as a task -/

/-- A request in progress: the descriptors before `idx` are decided; `recording` are the hits
    the current one still has to record. -/
structure Task where
  request : RateLimitRequest
  now : ℕ
  idx : ℕ
  recording : Option (List Planned × Option QuotaContext)
  statuses : List DescriptorStatus
  overLimit : Bool

def Task.new (request : RateLimitRequest) (now : ℕ) : Task where
  request := request
  now := now
  idx := 0
  recording := none
  statuses := []
  overLimit := false

def Task.decide (t : Task) (decision : Decision) : Task :=
  { t with
    idx := t.idx + 1
    recording := none
    statuses := t.statuses ++ [descriptorStatusFor decision]
    overLimit := t.overLimit || decision.isReject }

def Task.response (t : Task) : RateLimitResponse where
  overallCode := if t.overLimit then .overLimit else .ok
  statuses := t.statuses

/-- An admitted descriptor. -/
structure Admission where
  request : LimitRequest
  now : ℕ

end Server

/-- A server between two moves of its single thread: the gossip loop, the request in progress
    and the latest time that was read.  `admitted` and `rejected` only record what happened:
    the descriptors admitted so far, and whether a recorded hit found no room. -/
structure Server where
  limiter : Server.SharedLimiter
  runtime : Runtime .u32
  clock : ℕ
  task : Option Server.Task
  responses : List Server.RateLimitResponse
  admitted : List Server.Admission
  rejected : Bool

namespace Server

def start (limiter : SharedLimiter) (runtime : Runtime .u32) : Server where
  limiter := limiter
  runtime := runtime
  clock := 0
  task := none
  responses := []
  admitted := []
  rejected := false

/-- The hit as it is sent to the loop. -/
def Planned.limitRequest (p : Planned) (t : Task) : Gabion.LimitRequest where
  ruleFingerprint := p.spec.fingerprint
  keyHash := p.keyHash
  bucket := p.bucket
  hits := t.request.hits
  ruleLimit := p.spec.limit
  nowMillis := t.now
  reply := some 0

/-- Look at the next descriptor, or answer. -/
def nextDescriptor (srv : Server) (t : Task) : Server :=
  match t.request.descriptors[t.idx]? with
  | none => { srv with task := none, responses := srv.responses ++ [t.response] }
  | some d =>
    if t.idx ≥ maxDescriptors then { srv with task := some (t.decide (.reject .cardinality none)) }
    else
      match mapEnvoyDescriptor d with
      | .error reason => { srv with task := some (t.decide (.reject reason none)) }
      | .ok mapped =>
        let request := t.request.coreRequest mapped
        match evaluate srv.limiter srv.runtime.aggregates request t.now with
        | .error decision => { srv with task := some (t.decide decision) }
        | .ok recording =>
          { srv with
            task := some { t with recording := some recording }
            admitted := srv.admitted ++ [{ request, now := t.now }] }

/-- The handler goes on, unless it waits for the loop. -/
def resume (srv : Server) : Option Server :=
  match srv.task with
  | none => none
  | some t =>
    match t.recording with
    | none => some (srv.nextDescriptor t)
    | some ([], tightest) => some { srv with task := some (t.decide (.allow tightest)) }
    | some (_ :: _, _) => none

/-- The loop takes the hit the handler waits for; a wanted flush comes first. -/
def record (env : Platform) (srv : Server) (now : ℕ) : Option Server :=
  match srv.task with
  | none => none
  | some t =>
    match t.recording with
    | some (p :: rest, tightest) =>
      let req := p.limitRequest t
      (srv.runtime.iteration env now (.request (some (.limit req)))).map fun runtime =>
        if srv.runtime.wantImmediateFlush then { srv with runtime, clock := now }
        else
          { srv with
            runtime
            clock := now
            task := some { t with recording := some (rest, tightest) }
            rejected := srv.rejected ||
              !(srv.runtime.store.ingestRow (req.observation .u32) []).2.2.isOk }
    | _ => none

inductive Event
  | arrive (request : RateLimitRequest) (now : ℕ)
  | resume
  | record (now : ℕ)
  | loop (now : ℕ) (arm : ArmOutcome)

/-- The arms that bring nothing from clients or peers. -/
def isLocal : ArmOutcome → Bool
  | .request _ | .inbound _ => false
  | _ => true

/-- **One move of the server.**  A request arrives when the one before is answered, and no
    clock is read backwards. -/
def step (env : Platform) (srv : Server) : Event → Option Server
  | .arrive request now =>
    if srv.task.isNone && srv.clock ≤ now then
      some { srv with clock := now, task := some (.new request now) }
    else none
  | .resume => srv.resume
  | .record now => if srv.clock ≤ now then srv.record env now else none
  | .loop now arm =>
    if srv.clock ≤ now && isLocal arm then
      (srv.runtime.iteration env now arm).map fun runtime => { srv with runtime, clock := now }
    else none

def run (env : Platform) : Server → List Event → Option Server
  | srv, [] => some srv
  | srv, e :: rest => (srv.step env e).bind fun srv => run env srv rest

/-- **Induction over runs.** -/
theorem run_induct {env : Platform} {P : Server → Prop} {srv' : Server} : ∀ {events : List Event}
    (_ : ∀ e ∈ events, ∀ srv srv', P srv → step env srv e = some srv' → P srv') {srv : Server},
    P srv → srv.run env events = some srv' → P srv'
  | [], _, _, h, hr => by cases hr; exact h
  | e :: _, hstep, _, h, hr => by
    obtain ⟨srv₁, h₁, hr⟩ := Option.bind_eq_some_iff.1 hr
    exact run_induct (fun e' he' => hstep e' (List.mem_cons_of_mem e he'))
      (hstep e List.mem_cons_self _ _ h h₁) hr

end Server

end Gabion

/-
  The access handler of the nginx module (`gabion_access_handler` in `nginx/src/module.rs`, and
  `nginx/src/headers.rs`).

  nginx runs the handler once for each location that a request comes to: the one it asks for, and
  further ones after internal redirects.  A pass that has counted or refused the request leaves a
  mark in a variable of the request, and the passes after it find the mark.

  * However often a request is redirected, at most one pass decides on it, and only that pass
    queues events or writes headers (`request_decided_once`).
  * An argument of the query string is the value of the first pair with its name
    (`query_arg_first_pair`).
  * The numbers in the headers are read back as they were written, and `Retry-After` is never
    early (`reject_headers_honest`).
-/
import Gabion.Nginx.Directives

namespace Gabion

namespace Nginx

/-! ## Variables of a request -/

/-- What the handler reads of a request.  Indexed variables and compiled templates are evaluated
    by nginx. -/
structure Request where
  uri : List UInt8
  unparsedUri : List UInt8
  args : List UInt8
  addrText : Option (List UInt8)
  indexedVariable : ℤ → Option (List UInt8)
  complexValue : ℕ → Option (List UInt8)

def ampersand : UInt8 := 38

def equalsSign : UInt8 := 61

/-- The value of a pair with this name. -/
def pairValue (name pair : List UInt8) : Option (List UInt8) :=
  match pair.idxOf? equalsSign with
  | none => none
  | some eq => if pair.take eq = name then some (pair.drop (eq + 1)) else none

/-- The loop of `find_query_arg`, with as many turns as there are bytes. -/
def findQueryArgFrom (name : List UInt8) : ℕ → List UInt8 → Option (List UInt8)
  | 0, _ => none
  | fuel + 1, rest =>
    if rest = [] then none
    else
      let next := (rest.idxOf? ampersand).getD rest.length
      match pairValue name (rest.take next) with
      | some value => some value
      | none =>
        if next = rest.length then none else findQueryArgFrom name fuel (rest.drop (next + 1))

def findQueryArg (args name : List UInt8) : Option (List UInt8) :=
  findQueryArgFrom name args.length args

def Request.lookup (request : Request) : VariableLookup
  | .uri => some request.uri
  | .requestUri => some request.unparsedUri
  | .args => some request.args
  | .remoteAddr => request.addrText
  | .arg name => findQueryArg request.args (utf8 name)
  | .indexedVariable _ index => request.indexedVariable index
  | .complexValue _ compiledValue => request.complexValue compiledValue

/-! ## Headers -/

def retryAfterSeconds (deltaMillis : ℕ) : ℕ := max ((deltaMillis + 999) / 1000) 1

def resetUnixSeconds (nowMillis deltaMillis : ℕ) : ℕ :=
  min (nowMillis / 1000 + retryAfterSeconds deltaMillis) u64Max

/-- `HeaderBuffer::from_u64`: the decimal digits, as far as the buffer of 32 bytes holds them. -/
def headerBuffer (value : ℕ) : String := String.ofList ((Nat.toDigits 10 value).take 32)

structure AdmissionHeaders where
  limit : String
  remaining : String
  reset : String
  retryAfter : Option String
deriving DecidableEq, Repr

def AdmissionHeaders.buildForAllow (info : AllowInfo) : AdmissionHeaders where
  limit := headerBuffer info.spec.limit
  remaining := headerBuffer info.remaining
  reset := headerBuffer (resetUnixSeconds info.nowMillis
    (timeUntilNextBucketBoundaryMillis info.nowMillis info.spec.bucketMillis))
  retryAfter := none

def AdmissionHeaders.buildForReject (info : RejectInfo) : AdmissionHeaders where
  limit := headerBuffer info.spec.limit
  remaining := headerBuffer 0
  reset := headerBuffer (resetUnixSeconds info.nowMillis info.deltaUntilAdmitMillis)
  retryAfter := some (headerBuffer (retryAfterSeconds info.deltaUntilAdmitMillis))

/-- The headers in front of `Retry-After`. -/
def AdmissionHeaders.triplet (headers : AdmissionHeaders) : List (String × String) :=
  [("X-RateLimit-Limit", headers.limit), ("X-RateLimit-Remaining", headers.remaining),
    ("X-RateLimit-Reset", headers.reset)]

def applyAdmitHeaders (info : AllowInfo) : List (String × String) :=
  (AdmissionHeaders.buildForAllow info).triplet

def applyRejectHeaders (info : RejectInfo) : List (String × String) :=
  let headers := AdmissionHeaders.buildForReject info
  headers.triplet ++ (headers.retryAfter.map fun value => ("Retry-After", value)).toList

/-! ## The handler -/

/-- What the handler reads of the main configuration.  `region` says whether a zone is mapped; its
    tables are part of what a pass sees. -/
structure MainConf where
  crates : RuleCrates
  region : Bool
  compiled : Option CompiledRules
  decided : Option ℕ
  cardinality : CardinalitySettings

def MainConf.active (main : MainConf) : Option CompiledRules :=
  if main.region then main.compiled else none

inductive Status
  | declined
  | tooManyRequests
  | badRequest
deriving DecidableEq, Repr

/-- One run of the handler: where the request is, and what the worker sees of the shared memory
    and the clock. -/
structure Pass where
  location : Option LocationConfig
  main : Option MainConf
  request : Request
  aggregate : AggregateTable
  queue : RequestQueue
  now : ℕ

structure Response where
  status : Status
  headers : List (String × String)
  queue : RequestQueue

/-- The rules to ask, with what they are asked with, unless the handler declines before. -/
def Pass.limits (p : Pass) : Option (AccessCtx × List ℕ) := do
  let config ← p.location
  if config.off = some true then none
  else
    let ruleIndices ← config.ruleIndices
    if ruleIndices = [] then none
    else
      let main ← p.main
      let rules ← main.active
      let _index ← main.decided
      return ({
        crates := main.crates
        rules
        aggregate := p.aggregate
        domain := defaultDomain
        cardinality := main.cardinality }, ruleIndices)

/-- What an outcome of `decide_all` does to the response, and whether it marks the request. -/
def respond (queue : RequestQueue) : AccessOutcome → Response × Bool
  | .allow (some info) =>
    (⟨.declined, applyAdmitHeaders info, queue⟩, true)
  | .allow none | .decline => (⟨.declined, [], queue⟩, false)
  | .reject info =>
    (⟨.tooManyRequests, applyRejectHeaders info, queue⟩, true)
  | .cardinality => (⟨.badRequest, [], queue⟩, true)

/-- **The handler**, with the mark before and after it; `none` if a push does not return. -/
def accessHandler (decided : Bool) (p : Pass) : Option (Response × Bool) :=
  match p.limits with
  | none => some (⟨.declined, [], p.queue⟩, decided)
  | some (ctx, ruleIndices) =>
    if decided then some (⟨.declined, [], p.queue⟩, true)
    else
      (decideAll ctx p.queue ruleIndices p.request.lookup p.now).map fun (outcome, queue) =>
        respond queue outcome

/-- The passes of one request. -/
def handleRequest : Bool → List Pass → Option (List Response)
  | _, [] => some []
  | decided, p :: rest => do
    let (response, decided) ← accessHandler decided p
    let responses ← handleRequest decided rest
    return response :: responses

/-! ## One pass -/

open RequestQueue (offer)

/-- A pass that leaves the request as it was. -/
def Untouched (p : Pass) (r : Response) : Prop :=
  r.status = .declined ∧ r.headers = [] ∧ r.queue = p.queue

/-- **A pass that decides** on the request: a rule rejects it, and nothing is queued; or no rule
    rejects or allows it and one finds it too large, and nothing is queued; or no rule rejects it,
    it is let through, and the events of the rules that allow it are queued, as far as there is
    room. -/
inductive Decides (p : Pass) (r : Response) : Prop
  | reject (ctx : AccessCtx) (ruleIndices : List ℕ) (info : RejectInfo)
      (hlimits : p.limits = some (ctx, ruleIndices))
      (hrejects : ∃ index ∈ ruleIndices, Rejects ctx p.request.lookup p.now index)
      (hstatus : r.status = .tooManyRequests) (hheaders : r.headers = applyRejectHeaders info)
      (hqueue : r.queue = p.queue)
  | cardinality (ctx : AccessCtx) (ruleIndices : List ℕ)
      (hlimits : p.limits = some (ctx, ruleIndices))
      (hrejects : ∀ index ∈ ruleIndices, ¬ Rejects ctx p.request.lookup p.now index)
      (hplanned : plannedEvents ctx p.request.lookup ruleIndices p.now = [])
      (hlarge : ∃ index ∈ ruleIndices, decideOne ctx index p.request.lookup p.now = .cardinality)
      (hstatus : r.status = .badRequest) (hheaders : r.headers = []) (hqueue : r.queue = p.queue)
  | allow (ctx : AccessCtx) (ruleIndices : List ℕ) (info : AllowInfo)
      (hlimits : p.limits = some (ctx, ruleIndices))
      (hrejects : ∀ index ∈ ruleIndices, ¬ Rejects ctx p.request.lookup p.now index)
      (hstatus : r.status = .declined) (hheaders : r.headers = applyAdmitHeaders info)
      (hqueue : ∀ queued, p.queue.Holds queued → r.queue.Holds
        ((plannedEvents ctx p.request.lookup ruleIndices p.now).foldl (offer p.queue.capacity)
          queued))

/-- What a tally remembers of the outcomes: one that counts is an allowance or a rejection, and
    the size of a request is complained about by a rule. -/
theorem foldl_add_remembers (outcomes : List RuleOutcome) : ∀ t : Tally,
    (t.hadNonExemptOutcome = true → t.tightestAllow.isSome ∨ t.worstReject.isSome) →
      ((outcomes.foldl Tally.add t).hadNonExemptOutcome = true →
        (outcomes.foldl Tally.add t).tightestAllow.isSome ∨
          (outcomes.foldl Tally.add t).worstReject.isSome) ∧
      ((outcomes.foldl Tally.add t).anyCardinality = true →
        t.anyCardinality = true ∨ .cardinality ∈ outcomes) := by
  induction outcomes with
  | nil => exact fun t h => ⟨h, .inl⟩
  | cons outcome rest ih =>
    intro t h
    have hadd : (t.add outcome).hadNonExemptOutcome = true →
        (t.add outcome).tightestAllow.isSome ∨ (t.add outcome).worstReject.isSome := by
      cases outcome with
      | allow snapshot events => exact fun _ => .inl rfl
      | reject info => exact fun _ => .inr rfl
      | decline | cardinality | exempt ruleId => exact h
    obtain ⟨hdecided, hlarge⟩ := ih (t.add outcome) hadd
    refine ⟨hdecided, fun hany => ?_⟩
    rcases hlarge hany with hfirst | hrest
    · cases outcome with
      | cardinality => exact .inr List.mem_cons_self
      | allow | reject | decline | exempt => exact .inl hfirst
    · exact .inr (List.mem_cons_of_mem _ hrest)

/-- **The outcomes of `decide_all`**: a rejection; an allowance, with the quota that is left or,
    if no rule counts, without; a complaint about the size; or nothing. -/
theorem decideAll_cases (ctx : AccessCtx) (ruleIndices : List ℕ) (vars : VariableLookup) (now : ℕ)
    {queue : RequestQueue} {queued : List QueueEvent} (hqueue : queue.Holds queued) :
    (∃ info, decideAll ctx queue ruleIndices vars now = some (.reject info, queue) ∧
      ∃ index ∈ ruleIndices, Rejects ctx vars now index) ∨
    (∀ index ∈ ruleIndices, ¬ Rejects ctx vars now index) ∧
      ((∃ info queue', decideAll ctx queue ruleIndices vars now =
          some (.allow (some info), queue') ∧ ∀ queued, queue.Holds queued → queue'.Holds
            ((plannedEvents ctx vars ruleIndices now).foldl (offer queue.capacity) queued)) ∨
        decideAll ctx queue ruleIndices vars now = some (.allow none, queue) ∨
        (decideAll ctx queue ruleIndices vars now = some (.cardinality, queue) ∧
          plannedEvents ctx vars ruleIndices now = [] ∧
          ∃ index ∈ ruleIndices, decideOne ctx index vars now = .cardinality) ∨
        decideAll ctx queue ruleIndices vars now = some (.decline, queue)) := by
  obtain ⟨t, ht, hreject, hevents, hnone⟩ := tally_spec ctx vars ruleIndices now
  obtain ⟨hcounts, hlarge⟩ := foldl_add_remembers
    (ruleIndices.map fun index => decideOne ctx index vars now) .new (fun h => by cases h)
  rw [List.foldl_map, ht] at hcounts hlarge
  unfold decideAll
  rw [ht]
  dsimp only
  cases hworst : t.worstReject with
  | some info => exact .inl ⟨info, rfl, hreject.1 (by rw [hworst]; rfl)⟩
  | none =>
    refine .inr ⟨fun index hmem hrej => ?_, ?_⟩
    · have hsome := hreject.2 ⟨index, hmem, hrej⟩
      rw [hworst] at hsome
      cases hsome
    dsimp only
    split_ifs with hdecided hexempt hcardinality
    · obtain ⟨snap, htight⟩ : ∃ snap, t.tightestAllow = some snap := by
        rcases hcounts hdecided with h | h
        · exact Option.isSome_iff_exists.1 h
        · rw [hworst] at h
          cases h
      obtain ⟨queue', hcommit, -⟩ := commit_spec t.allEvents hqueue
      rw [hcommit, htight]
      refine .inl ⟨_, queue', rfl, fun queued' hqueued' => ?_⟩
      obtain ⟨queue'', hcommit', hholds⟩ := commit_spec t.allEvents hqueued'
      cases hcommit.symm.trans hcommit'
      exact hevents ▸ hholds
    · exact .inr (.inl rfl)
    · have hmem : RuleOutcome.cardinality ∈ ruleIndices.map fun index =>
          decideOne ctx index vars now := (hlarge hcardinality).resolve_left (by simp [Tally.new])
      exact .inr (.inr (.inl ⟨rfl, hnone (by simpa using hdecided), List.mem_map.1 hmem⟩))
    · exact .inr (.inr (.inr rfl))

/-- A request is marked exactly by a pass that decides. -/
theorem accessHandler_spec (decided : Bool) (p : Pass) {queued : List QueueEvent}
    (hqueue : p.queue.Holds queued) : ∃ r decided', accessHandler decided p = some (r, decided') ∧
      (decided' = decided ∧ Untouched p r ∨ decided = false ∧ decided' = true ∧ Decides p r) := by
  unfold accessHandler
  cases hlimits : p.limits with
  | none => exact ⟨_, _, rfl, .inl ⟨rfl, rfl, rfl, rfl⟩⟩
  | some limits =>
    obtain ⟨ctx, ruleIndices⟩ := limits
    cases decided with
    | true => exact ⟨_, _, rfl, .inl ⟨rfl, rfl, rfl, rfl⟩⟩
    | false =>
      dsimp only
      rw [if_neg Bool.false_ne_true]
      rcases decideAll_cases ctx ruleIndices p.request.lookup p.now hqueue with
        ⟨info, hdecide, hrejects⟩ | ⟨hno, ⟨info, queue', hdecide, hholds⟩ | hdecide |
          ⟨hdecide, hplanned, hlarge⟩ | hdecide⟩ <;> rw [hdecide]
      · exact ⟨_, _, rfl, .inr ⟨rfl, rfl,
          .reject ctx ruleIndices info hlimits hrejects rfl rfl rfl⟩⟩
      · exact ⟨_, _, rfl, .inr ⟨rfl, rfl,
          .allow ctx ruleIndices info hlimits hno rfl rfl hholds⟩⟩
      · exact ⟨_, _, rfl, .inl ⟨rfl, rfl, rfl, rfl⟩⟩
      · exact ⟨_, _, rfl, .inr ⟨rfl, rfl,
          .cardinality ctx ruleIndices hlimits hno hplanned hlarge rfl rfl rfl⟩⟩
      · exact ⟨_, _, rfl, .inl ⟨rfl, rfl, rfl, rfl⟩⟩

/-! ## All passes -/

/-- After the mark, every pass leaves the request as it is. -/
theorem handleRequest_decided : ∀ (passes : List Pass),
    (∀ p ∈ passes, ∃ queued, p.queue.Holds queued) →
      ∃ responses, handleRequest true passes = some responses ∧
        List.Forall₂ Untouched passes responses
  | [], _ => ⟨[], rfl, .nil⟩
  | p :: rest, hqueues => by
    obtain ⟨queued, hqueue⟩ := hqueues p List.mem_cons_self
    obtain ⟨r, decided', hpass, hcases⟩ := accessHandler_spec true p hqueue
    obtain ⟨rfl, huntouched⟩ : decided' = true ∧ Untouched p r := by
      rcases hcases with h | ⟨h, -⟩
      · exact h
      · cases h
    obtain ⟨responses, hrest, hall⟩ :=
      handleRequest_decided rest fun q hq => hqueues q (List.mem_cons_of_mem _ hq)
    exact ⟨r :: responses, by simp [handleRequest, hpass, hrest], .cons huntouched hall⟩

/-- **A request is decided once.**  A request comes to any number of locations, one after the
    other, each with any configuration, any variables, counts and queue, at any time.  Every pass
    answers.  Either all leave the request as it is; or one of them decides on it, and all before
    and after it leave it as it is: they decline, write no header and queue nothing.  So no
    redirect counts a request twice, counts one that was refused, or refuses one that was
    counted. -/
theorem request_decided_once (passes : List Pass)
    (hqueues : ∀ p ∈ passes, ∃ queued, p.queue.Holds queued) :
    ∃ responses, handleRequest false passes = some responses ∧
      (List.Forall₂ Untouched passes responses ∨
        ∃ before p after before' r after', passes = before ++ p :: after ∧
          responses = before' ++ r :: after' ∧ List.Forall₂ Untouched before before' ∧
          Decides p r ∧ List.Forall₂ Untouched after after') := by
  induction passes with
  | nil => exact ⟨[], rfl, .inl .nil⟩
  | cons p rest ih =>
    have hrest : ∀ q ∈ rest, ∃ queued, q.queue.Holds queued := fun q hq =>
      hqueues q (List.mem_cons_of_mem _ hq)
    obtain ⟨queued, hqueue⟩ := hqueues p List.mem_cons_self
    obtain ⟨r, decided', hpass, ⟨rfl, huntouched⟩ | ⟨-, rfl, hdecides⟩⟩ :=
      accessHandler_spec false p hqueue
    · obtain ⟨responses, hresponses, hall | hone⟩ := ih hrest
      · exact ⟨r :: responses, by simp [handleRequest, hpass, hresponses],
          .inl (.cons huntouched hall)⟩
      · obtain ⟨before, q, after, before', r', after', rfl, rfl, hbefore, hq, hafter⟩ := hone
        exact ⟨r :: (before' ++ r' :: after'), by simp [handleRequest, hpass, hresponses],
          .inr ⟨p :: before, q, after, r :: before', r', after', rfl, rfl,
            .cons huntouched hbefore, hq, hafter⟩⟩
    · obtain ⟨responses, hresponses, hall⟩ := handleRequest_decided rest hrest
      exact ⟨r :: responses, by simp [handleRequest, hpass, hresponses],
        .inr ⟨[], p, rest, [], r, responses, rfl, rfl, .nil, hdecides, hall⟩⟩

/-- A request from 10.0.0.1 at a location with the rule of `siteConfig`, or with gabion off. -/
def sitePass (off : Bool) : Pass where
  location := some { ruleIndices := some [0], off := some off }
  main := some {
    crates := siteCrates
    region := true
    compiled := some (site 2 none).rules
    decided := some 7
    cardinality := .default }
  request := {
    uri := utf8 "/", unparsedUri := utf8 "/", args := [], addrText := some (utf8 "10.0.0.1")
    indexedVariable := fun _ => none, complexValue := fun _ => none }
  aggregate := ⟨fun _ => none⟩
  queue := siteQueue
  now := 5000

/-- Redirected from a location with gabion off to a limited one, and from there to itself. -/
theorem request_decided_once_redirected : ∃ first second third,
    handleRequest false [sitePass true, sitePass false, sitePass false] =
      some [first, second, third] ∧
    Untouched (sitePass true) first ∧ Decides (sitePass false) second ∧
    Untouched (sitePass false) third := by
  have hqueue : siteQueue.Holds [] := RequestQueue.new_holds 1 (by decide) (by decide)
  have hqueues : ∀ p ∈ [sitePass true, sitePass false, sitePass false],
      ∃ queued, p.queue.Holds queued := by
    intro p hp
    simp only [List.mem_cons, List.not_mem_nil, or_false] at hp
    rcases hp with rfl | rfl | rfl <;> exact ⟨[], hqueue⟩
  obtain ⟨responses, hresponses, hcases⟩ := request_decided_once _ hqueues
  have hheaders : (handleRequest false [sitePass true, sitePass false, sitePass false]).map
      (fun responses => responses.map fun r => r.headers.length) = some [0, 3, 0] := by
    decide +kernel
  rw [hresponses, Option.map_some, Option.some.injEq] at hheaders
  obtain ⟨first, second, third, rfl⟩ := List.length_eq_three.1
    ((List.length_map _).symm.trans (congrArg List.length hheaders))
  have hsecond : second.headers ≠ [] := by
    rintro hnil
    simp [hnil] at hheaders
  refine ⟨first, second, third, hresponses, ?_⟩
  -- the second pass writes headers, so it is the one that decides
  rcases hcases with hall |
    ⟨before, p, after, before', r, after', hpasses, hrs, hbefore, hp, hafter⟩
  · cases hall with
    | cons _ hrest => cases hrest with
      | cons huntouched _ => exact absurd huntouched.2.1 hsecond
  · match before, before', hbefore with
    | [], [], _ =>
      cases hpasses
      cases hrs
      cases hafter with
      | cons huntouched _ => exact absurd huntouched.2.1 hsecond
    | [_], [_], .cons hfirst .nil =>
      cases hpasses
      cases hrs
      cases hafter with
      | cons hthird _ => exact ⟨hfirst, hp, hthird⟩
    | _ :: _ :: _, _ :: _ :: _, .cons _ (.cons huntouched _) =>
      simp only [List.cons_append, List.cons.injEq] at hrs
      exact absurd (hrs.2.1 ▸ huntouched.2.1) hsecond

/-! ## Arguments of the query string -/

theorem idxOf?_append_cons {x : UInt8} {before : List UInt8} (h : x ∉ before)
    (after : List UInt8) : (before ++ x :: after).idxOf? x = some before.length := by
  rw [List.idxOf?_eq_some_iff]
  refine ⟨by simp, by simp, fun j hj hx => h ?_⟩
  rw [List.getElem_append_left hj] at hx
  exact hx ▸ List.getElem_mem hj

/-- The loop looks at one part of the query string after the other. -/
theorem findQueryArgFrom_eq (name : List UInt8) : ∀ (fuel : ℕ) (rest : List UInt8),
    rest.length ≤ fuel → findQueryArgFrom name fuel rest =
      (rest.splitOn ampersand).findSome? (pairValue name)
  | 0, rest, h => by
    rw [List.length_eq_zero_iff.1 (Nat.le_zero.1 h), List.splitOn_nil]
    rfl
  | fuel + 1, rest, h => by
    unfold findQueryArgFrom
    split_ifs with hempty
    · rw [hempty, List.splitOn_nil]
      rfl
    by_cases hmem : ampersand ∈ rest
    · obtain ⟨before, after, rfl, hbefore⟩ := List.eq_append_cons_of_mem hmem
      have hlen : after.length ≤ fuel := by
        rw [List.length_append, List.length_cons] at h
        omega
      rw [List.splitOn_append_cons_self_of_not_mem hbefore, List.findSome?_cons,
        idxOf?_append_cons hbefore]
      simp only [Option.getD_some, List.take_left]
      cases pairValue name before with
      | some value => rfl
      | none =>
        dsimp only
        rw [if_neg (by simp), ← findQueryArgFrom_eq name fuel after hlen]
        simp
    · -- the last part
      rw [List.splitOn_eq_singleton hmem, List.idxOf?_eq_none_iff.2 hmem]
      simp only [Option.getD_none, List.take_length, List.findSome?_singleton, if_true]
      cases pairValue name rest <;> rfl

/-- A part of a query string: a name, and a value unless there is no `=`. -/
def queryPart : List UInt8 × Option (List UInt8) → List UInt8
  | (key, none) => key
  | (key, some value) => key ++ equalsSign :: value

theorem pairValue_queryPart (name : List UInt8) {part : List UInt8 × Option (List UInt8)}
    (hkey : equalsSign ∉ part.1) :
    pairValue name (queryPart part) = if part.1 = name then part.2 else none := by
  obtain ⟨key, _ | value⟩ := part
  · rw [queryPart, pairValue, List.idxOf?_eq_none_iff.2 hkey]
    simp
  · rw [queryPart, pairValue, idxOf?_append_cons hkey]
    simp only [List.take_left, List.drop_length_add_append, List.drop_succ_cons, List.drop_zero]

theorem findSome?_queryPart (name : List UInt8) :
    ∀ parts : List (List UInt8 × Option (List UInt8)), (∀ part ∈ parts, equalsSign ∉ part.1) →
      (parts.map queryPart).findSome? (pairValue name) =
        parts.findSome? fun part => if part.1 = name then part.2 else none
  | [], _ => rfl
  | part :: rest, hkeys => by
    rw [List.map_cons, List.findSome?_cons, List.findSome?_cons,
      pairValue_queryPart name (hkeys part List.mem_cons_self),
      findSome?_queryPart name rest fun q hq => hkeys q (List.mem_cons_of_mem _ hq)]

/-- **An argument is the value of the first pair with its name.**  A query string is a list of
    parts with `&` between them, each a name, `=` and a value that may hold further `=`, or a
    text without `=`.  The argument a rule is bound to is the value of the first part of its name
    that has one, and there is none if no part is like that. -/
theorem query_arg_first_pair (request : Request)
    (parts : List (List UInt8 × Option (List UInt8)))
    (hargs : request.args = [ampersand].intercalate (parts.map queryPart))
    (hkeys : ∀ part ∈ parts, equalsSign ∉ part.1)
    (hparts : ∀ part ∈ parts, ampersand ∉ queryPart part) (name : String) :
    request.lookup (.arg name) =
      parts.findSome? fun part => if part.1 = utf8 name then part.2 else none := by
  show findQueryArgFrom (utf8 name) request.args.length request.args = _
  rw [findQueryArgFrom_eq _ _ _ le_rfl, hargs]
  by_cases hempty : parts = []
  · subst hempty
    rfl
  · have hno : ∀ text ∈ parts.map queryPart, ampersand ∉ text := by
      rintro text htext
      obtain ⟨part, hpart, rfl⟩ := List.mem_map.1 htext
      exact hparts part hpart
    rw [List.splitOn_intercalate ampersand hno (by simpa using hempty)]
    exact findSome?_queryPart (utf8 name) parts hkeys

/-- In `flag&k=x=y&k=2` the value of `k` is `x=y`. -/
theorem query_arg_first_pair_twice :
    ({ (sitePass false).request with args := utf8 "flag&k=x=y&k=2" } : Request).lookup (.arg "k") =
      some (utf8 "x=y") := by
  rw [query_arg_first_pair _
    [(utf8 "flag", none), (utf8 "k", some (utf8 "x=y")), (utf8 "k", some (utf8 "2"))]
    (by decide +kernel) (by decide +kernel) (by decide +kernel)]
  decide +kernel

/-! ## Numbers in headers -/

/-- The digits of a number, read from the left. -/
theorem foldlM_toDigits (n : ℕ) (hn : n ≤ u64Max) :
    (Nat.toDigits 10 n).foldlM (fun n c =>
      if c.isDigit && n * 10 + (c.toNat - '0'.toNat) ≤ u64Max then
        some (n * 10 + (c.toNat - '0'.toNat))
      else none) 0 = some n := by
  induction n using Nat.strongRecOn with
  | _ n ih =>
    by_cases hlt : n < 10
    · have hsub : n.digitChar.toNat - '0'.toNat = n := Nat.toNat_digitChar_sub_48_of_lt_ten hlt
      rw [Nat.toDigits_of_lt_base hlt, List.foldlM_cons, hsub]
      simp [Nat.isDigit_digitChar, hlt, hn]
    · -- the last digit comes after the digits of the tenth
      have hdigit : n % 10 < 10 := Nat.mod_lt n (by decide)
      have hsub : (n % 10).digitChar.toNat - '0'.toNat = n % 10 :=
        Nat.toNat_digitChar_sub_48_of_lt_ten hdigit
      have hsum : n / 10 * 10 + n % 10 = n := Nat.div_add_mod' n 10
      rw [Nat.toDigits_of_base_le (by decide) (by omega), List.foldlM_append,
        ih (n / 10) (by omega) (by omega), Option.bind_eq_bind, Option.bind_some,
        List.foldlM_cons, hsub, hsum]
      simp [Nat.isDigit_digitChar, hdigit, hn]

/-- **A header is read back.** -/
theorem parseU64_headerBuffer {value : ℕ} (h : value ≤ u64Max) :
    parseU64 (headerBuffer value).toList = some value := by
  have hlen : (Nat.toDigits 10 value).length ≤ 20 :=
    Nat.toDigits_length 10 value 20 (by decide) (h.trans_lt (by decide))
  rw [headerBuffer, String.toList_ofList, List.take_of_length_le (by omega)]
  -- the first character is a digit, not a sign
  have hsign : ∀ rest, Nat.toDigits 10 value ≠ '+' :: rest := by
    intro rest heq
    have hplus := Nat.isDigit_of_mem_toDigits (b := 10) (n := value) (c := '+') (by decide)
      (by decide) (by rw [heq]; exact List.mem_cons_self)
    cases hplus
  unfold parseU64
  split
  · rename_i rest heq
    exact absurd heq (hsign rest)
  · rw [if_neg Nat.toDigits_ne_nil]
    exact foldlM_toDigits value h

/-- **The headers of a refusal are honest.**  Whatever the limit, the time and the delay, as
    64-bit numbers: a client reads back the limit, 0, and two numbers of seconds.  The delay is
    over when `Retry-After` is, and `Retry-After` is less than a second longer (it is one second
    at least).  `X-RateLimit-Reset` is `Retry-After` past the full second of the refusal, so it
    may come before the delay is over, but by less than a second. -/
theorem reject_headers_honest (info : RejectInfo) (hlimit : info.spec.limit ≤ u64Max)
    (hnow : info.nowMillis ≤ u64Max) (hdelta : info.deltaUntilAdmitMillis ≤ u64Max) :
    ∃ reset retryAfter, (applyRejectHeaders info).map
        (fun header => (header.1, parseU64 header.2.toList)) =
          [("X-RateLimit-Limit", some info.spec.limit), ("X-RateLimit-Remaining", some 0),
            ("X-RateLimit-Reset", some reset), ("Retry-After", some retryAfter)] ∧
      info.deltaUntilAdmitMillis ≤ 1000 * retryAfter ∧
      1000 * retryAfter ≤ max (info.deltaUntilAdmitMillis + 999) 1000 ∧
      reset = info.nowMillis / 1000 + retryAfter ∧
      info.nowMillis + info.deltaUntilAdmitMillis < 1000 * reset + 1000 := by
  have hmax : u64Max = 18446744073709551615 := rfl
  have hretry : retryAfterSeconds info.deltaUntilAdmitMillis =
      max ((info.deltaUntilAdmitMillis + 999) / 1000) 1 := rfl
  have hreset : resetUnixSeconds info.nowMillis info.deltaUntilAdmitMillis =
      info.nowMillis / 1000 + retryAfterSeconds info.deltaUntilAdmitMillis := by
    rw [resetUnixSeconds, hretry]
    omega
  refine ⟨resetUnixSeconds info.nowMillis info.deltaUntilAdmitMillis,
    retryAfterSeconds info.deltaUntilAdmitMillis, ?_, ?_, ?_, hreset, ?_⟩
  · have hreset_le : resetUnixSeconds info.nowMillis info.deltaUntilAdmitMillis ≤ u64Max :=
      Nat.min_le_right _ _
    have hretry_le : retryAfterSeconds info.deltaUntilAdmitMillis ≤ u64Max := by
      rw [hretry]
      omega
    simp only [applyRejectHeaders, AdmissionHeaders.triplet, AdmissionHeaders.buildForReject,
      Option.map_some, Option.toList_some, List.map_append, List.map_cons, List.map_nil,
      parseU64_headerBuffer hlimit, parseU64_headerBuffer (Nat.zero_le u64Max),
      parseU64_headerBuffer hreset_le, parseU64_headerBuffer hretry_le]
    rfl
  · rw [hretry]
    omega
  · rw [hretry]
    omega
  · rw [hreset, hretry]
    omega

/-- Refused at 1.999 s, with one second to wait. -/
def lateReject : RejectInfo where
  spec := ⟨1, 0, 2, 1000, 1000, 1⟩
  total := 2
  nowMillis := 1999
  deltaUntilAdmitMillis := 1000

/-- The client may come again at 2.999 s, but the limit is said to be reset at 2 s. -/
theorem reject_headers_honest_early_reset :
    (applyRejectHeaders lateReject).map (fun header => (header.1, parseU64 header.2.toList)) =
      [("X-RateLimit-Limit", some 2), ("X-RateLimit-Remaining", some 0),
        ("X-RateLimit-Reset", some 2), ("Retry-After", some 1)] := by
  obtain ⟨reset, retryAfter, hheaders, hlower, hupper, hreset, -⟩ :=
    reject_headers_honest lateReject (by decide) (by decide) (by decide)
  have hretry : retryAfter = 1 := by
    simp only [lateReject] at hlower hupper
    omega
  have htwo : reset = 2 := by
    rw [hreset, hretry]
    rfl
  rw [hheaders, htwo, hretry]
  rfl

end Nginx

end Gabion

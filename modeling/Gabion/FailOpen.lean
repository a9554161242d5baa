/-
  The fail-open policy of the gRPC path.

  `OVER_LIMIT` is meant for measured overflows and for descriptors beyond the configured
  envelope.  The handler has caps of its own that reject as well: every descriptor past the
  first `MAX_DESCRIPTORS`, and every descriptor with more than `MAX_DESCRIPTORS` entries, even
  where the envelope allows more (`fail_open_iff`).
-/
import Gabion.Limiter
import Gabion.Retention

namespace Gabion

open Function

namespace Server

variable {l : SharedLimiter} {counts : ℕ → DashMapStore} {request : RateLimitRequest} {now : ℕ}

/-! ## The handler's answer -/

/-- The decision on a descriptor, with the aggregates its evaluation reads.  What the client
    answers when the hits are recorded makes no difference. -/
def decideDescriptor (l : SharedLimiter) (counts : DashMapStore) (request : RateLimitRequest)
    (now idx : ℕ) (d : RateLimitDescriptor) : Decision :=
  if idx ≥ maxDescriptors then .reject .cardinality none
  else
    match mapEnvoyDescriptor d with
    | .error reason => .reject reason none
    | .ok mapped =>
      match evaluate l counts (request.coreRequest mapped) now with
      | .error decision => decision
      | .ok (_, tightest) => .allow tightest

/-- The loop over the descriptors.  While hits are recorded others may count as well:
    `counts idx` are the aggregates when the descriptor `idx` is evaluated. -/
def decisions (l : SharedLimiter) (counts : ℕ → DashMapStore) (request : RateLimitRequest)
    (now : ℕ) : List Decision :=
  request.descriptors.mapIdx fun idx d => decideDescriptor l (counts idx) request now idx d

def shouldRateLimitAt (l : SharedLimiter) (counts : ℕ → DashMapStore) (request : RateLimitRequest)
    (now : ℕ) : RateLimitResponse where
  overallCode :=
    if (decisions l counts request now).any Decision.isReject then .overLimit else .ok
  statuses := (decisions l counts request now).map descriptorStatusFor

theorem getElem?_decisions (idx : ℕ) : (decisions l counts request now)[idx]? =
    request.descriptors[idx]?.map fun d => decideDescriptor l (counts idx) request now idx d :=
  List.getElem?_mapIdx

theorem length_decisions : (decisions l counts request now).length = request.descriptors.length :=
  List.length_mapIdx

/-- Decisions already made do not depend on what the aggregates become. -/
theorem take_decisions_update (idx : ℕ) (c : DashMapStore) :
    (decisions l (update counts idx c) request now).take idx =
      (decisions l counts request now).take idx := by
  ext1 i
  rw [List.getElem?_take, List.getElem?_take]
  split_ifs with hi
  · rw [getElem?_decisions, getElem?_decisions, update_of_ne hi.ne]
  · rfl

theorem overLimit_iff : (shouldRateLimitAt l counts request now).overallCode = .overLimit ↔
    ∃ idx d, request.descriptors[idx]? = some d ∧
      (decideDescriptor l (counts idx) request now idx d).isReject = true := by
  have hany : (shouldRateLimitAt l counts request now).overallCode = .overLimit ↔
      (decisions l counts request now).any Decision.isReject = true := by
    unfold shouldRateLimitAt
    split_ifs with h <;> simp [h]
  rw [hany, List.any_eq_true]
  constructor
  · rintro ⟨decision, hmem, hreject⟩
    obtain ⟨idx, hidx⟩ := List.mem_iff_getElem?.1 hmem
    rw [getElem?_decisions] at hidx
    obtain ⟨d, hd, rfl⟩ := Option.map_eq_some_iff.1 hidx
    exact ⟨idx, d, hd, hreject⟩
  · rintro ⟨idx, d, hd, hreject⟩
    refine ⟨_, List.mem_of_getElem? (i := idx) ?_, hreject⟩
    rw [getElem?_decisions, hd]
    rfl

/-! ## What a running server answers -/

/-- The task has made the first decisions of the handler. -/
def Task.Follows (l : SharedLimiter) (counts : ℕ → DashMapStore) (t : Task) : Prop :=
  t.statuses = ((decisions l counts t.request t.now).take t.idx).map descriptorStatusFor ∧
    t.overLimit = ((decisions l counts t.request t.now).take t.idx).any Decision.isReject

theorem Task.Follows.decide {t : Task} (h : t.Follows l counts) {decision : Decision}
    (hd : (decisions l counts t.request t.now)[t.idx]? = some decision) :
    (t.decide decision).Follows l counts := by
  have htake : (decisions l counts t.request t.now).take (t.idx + 1) =
      (decisions l counts t.request t.now).take t.idx ++ [decision] := by
    rw [List.take_add_one, hd]
    rfl
  constructor
  · show _ = ((decisions l counts t.request t.now).take (t.idx + 1)).map descriptorStatusFor
    rw [htake, List.map_append, ← h.1]
    rfl
  · show _ = ((decisions l counts t.request t.now).take (t.idx + 1)).any Decision.isReject
    rw [htake, List.any_append, ← h.2]
    simp only [Task.decide, List.any_cons, List.any_nil, Bool.or_false]

/-- What holds between two moves: every answer is the handler's for some contents of the
    aggregates, and so is the part of an answer that stands so far. -/
structure Answers (l : SharedLimiter) (srv : Server) : Prop where
  limiter : srv.limiter = l
  responses : ∀ response ∈ srv.responses, ∃ counts request now,
    response = shouldRateLimitAt l counts request now
  task : ∀ t ∈ srv.task, ∃ counts, t.Follows l counts ∧
    ∀ planned tightest, t.recording = some (planned, tightest) →
      (decisions l counts t.request t.now)[t.idx]? = some (.allow tightest)

variable {srv srv' : Server}

theorem Answers.nextDescriptor {t : Task} (h : Answers l srv) (ht : srv.task = some t) :
    Answers l (srv.nextDescriptor t) := by
  obtain ⟨rfl, hresponses, htask⟩ := h
  obtain ⟨counts, hfollows, -⟩ := htask t ht
  unfold Server.nextDescriptor
  split
  · rename_i hend
    -- every descriptor is decided
    refine ⟨rfl, fun response hr => ?_, nofun⟩
    rcases List.mem_append.1 hr with hr | hr
    · exact hresponses response hr
    · rw [List.mem_singleton.1 hr]
      refine ⟨counts, t.request, t.now, ?_⟩
      have hall : (decisions srv.limiter counts t.request t.now).take t.idx =
          decisions srv.limiter counts t.request t.now := by
        rw [List.take_of_length_le]
        rw [length_decisions]
        exact List.getElem?_eq_none_iff.1 hend
      obtain ⟨hstatuses, hover⟩ := hfollows
      rw [hall] at hstatuses hover
      rw [Task.response, hstatuses, hover]
      rfl
  · rename_i d hd
    -- the aggregates that are read now are those of this descriptor
    generalize hc : update counts t.idx srv.runtime.aggregates = counts'
    have hfollows' : t.Follows srv.limiter counts' := by
      unfold Task.Follows
      rw [← hc, take_decisions_update]
      exact hfollows
    have hat : (decisions srv.limiter counts' t.request t.now)[t.idx]? =
        some (decideDescriptor srv.limiter srv.runtime.aggregates t.request t.now t.idx d) := by
      rw [getElem?_decisions, hd, ← hc, update_self]
      rfl
    have hdecide : ∀ decision,
        decideDescriptor srv.limiter srv.runtime.aggregates t.request t.now t.idx d = decision →
          Answers srv.limiter { srv with task := some (t.decide decision) } := by
      rintro decision rfl
      refine ⟨rfl, hresponses, fun t' ht' => ?_⟩
      cases ht'
      exact ⟨counts', hfollows'.decide hat, nofun⟩
    unfold decideDescriptor at hat hdecide
    split_ifs at hat hdecide ⊢ with hidx
    · exact hdecide _ rfl
    · cases hmap : mapEnvoyDescriptor d with
      | error reason =>
        rw [hmap] at hdecide
        exact hdecide _ rfl
      | ok mapped =>
        rw [hmap] at hat hdecide
        dsimp only at hat hdecide ⊢
        cases hev : evaluate srv.limiter srv.runtime.aggregates (t.request.coreRequest mapped)
            t.now with
        | error decision =>
          rw [hev] at hdecide
          exact hdecide _ rfl
        | ok recording =>
          rw [hev] at hat
          refine ⟨rfl, hresponses, fun t' ht' => ?_⟩
          cases ht'
          refine ⟨counts', hfollows', fun planned tightest hrec => ?_⟩
          cases hrec
          exact hat

theorem Answers.step {env : Platform} {e : Event} (h : Answers l srv)
    (hs : srv.step env e = some srv') : Answers l srv' := by
  cases e with
  | arrive req time =>
    simp only [Server.step, Option.ite_none_right_eq_some, Option.some.injEq] at hs
    obtain ⟨-, rfl⟩ := hs
    refine ⟨h.limiter, h.responses, fun t ht => ?_⟩
    cases ht
    exact ⟨fun _ => .empty, ⟨rfl, rfl⟩, nofun⟩
  | resume =>
    simp only [Server.step, Server.resume] at hs
    split at hs
    · cases hs
    · rename_i t ht
      split at hs
      · cases hs
        exact h.nextDescriptor ht
      · rename_i tightest hrec
        cases hs
        obtain ⟨counts, hfollows, hallow⟩ := h.task t ht
        refine ⟨h.limiter, h.responses, fun t' ht' => ?_⟩
        cases ht'
        exact ⟨counts, hfollows.decide (hallow _ _ hrec), nofun⟩
      · cases hs
  | record time =>
    simp only [Server.step, Option.ite_none_right_eq_some] at hs
    obtain ⟨-, hs⟩ := hs
    unfold Server.record at hs
    split at hs
    · cases hs
    · rename_i t ht
      split at hs
      · rename_i p rest tightest hrec
        obtain ⟨runtime, -, rfl⟩ := Option.map_eq_some_iff.1 hs
        split_ifs
        · exact ⟨h.limiter, h.responses, h.task⟩
        · obtain ⟨counts, hfollows, hallow⟩ := h.task t ht
          refine ⟨h.limiter, h.responses, fun t' ht' => ?_⟩
          cases ht'
          refine ⟨counts, hfollows, fun planned tightest' hrec' => ?_⟩
          cases hrec'
          exact hallow _ _ hrec
      · cases hs
  | loop time arm =>
    simp only [Server.step, Option.ite_none_right_eq_some] at hs
    obtain ⟨-, hs⟩ := hs
    obtain ⟨runtime, -, rfl⟩ := Option.map_eq_some_iff.1 hs
    exact ⟨h.limiter, h.responses, h.task⟩

/-- **A running server answers as the handler does**, with what the aggregates held when each
    descriptor was evaluated. -/
theorem run_answers {env : Platform} {runtime : Runtime .u32} {events : List Event}
    (h : (start l runtime).run env events = some srv') {response : RateLimitResponse}
    (hr : response ∈ srv'.responses) :
    ∃ counts request now, response = shouldRateLimitAt l counts request now := by
  have hstart : Answers l (start l runtime) := ⟨rfl, nofun, nofun⟩
  exact (run_induct (fun _ _ _ _ h hs => h.step hs) hstart h).responses response hr

/-! ## Grounds for a rejection -/

/-- The descriptor is beyond the configured envelope. -/
def ExceedsEnvelope (limits : CardinalityLimits) (domain : String) (d : RateLimitDescriptor) :
    Prop :=
  limits.maxDescriptorCount < d.entries.length ∨
    (∃ e ∈ d.entries, limits.maxKeyBytes < (utf8 e.key).length) ∨
    limits.maxDescriptorBytes < (utf8 domain).length +
      (d.entries.map fun e => (utf8 e.key).length + (utf8 e.value).length).sum

instance (limits : CardinalityLimits) (domain : String) (d : RateLimitDescriptor) :
    Decidable (ExceedsEnvelope limits domain d) := inferInstanceAs (Decidable (_ ∨ _))

/-- A matching rule in mode `Enforce` is over its limit with the hits of the request. -/
def Overflows (l : SharedLimiter) (counts : DashMapStore) (request : RateLimitRequest) (now : ℕ)
    (d : RateLimitDescriptor) : Prop :=
  ∃ rule ∈ l.ruleTable.matching l.crates request.domain d.entries, rule.mode = .enforce ∧
    rule.limit < windowTotalFor l.crates counts (request.coreRequest d.entries) now rule +
      request.hits

/-- **The policy**: `OVER_LIMIT` is answered only if some descriptor gives grounds for it. -/
def FailOpen (l : SharedLimiter) (counts : ℕ → DashMapStore) (request : RateLimitRequest)
    (now : ℕ) : Prop :=
  (shouldRateLimitAt l counts request now).overallCode = .overLimit →
    ∃ idx d, request.descriptors[idx]? = some d ∧
      (Overflows l (counts idx) request now d ∨
        ExceedsEnvelope l.cardinalityLimits request.domain d)

/-- The request fits the handler's own caps. -/
def WithinCaps (request : RateLimitRequest) : Prop :=
  request.descriptors.length ≤ maxDescriptors ∧
    ∀ d ∈ request.descriptors, d.entries.length ≤ maxDescriptors

/-- The envelope's byte count ends where the sum of the lengths is. -/
theorem descriptorBytesExceed_spec {limits : CardinalityLimits} : ∀ {bytes : ℕ}
    {descriptors : List Descriptor}, descriptorBytesExceed limits bytes descriptors = true →
      (∃ e ∈ descriptors, limits.maxKeyBytes < (utf8 e.key).length) ∨
        limits.maxDescriptorBytes < bytes +
          (descriptors.map fun e => (utf8 e.key).length + (utf8 e.value).length).sum
  | _, [], h => by cases h
  | bytes, e :: rest, h => by
    unfold descriptorBytesExceed at h
    rw [List.map_cons, List.sum_cons]
    dsimp only at h
    split_ifs at h with hkey hbytes
    · exact .inl ⟨e, List.mem_cons_self, hkey⟩
    · right
      omega
    · rcases descriptorBytesExceed_spec h with ⟨e', hmem, hlong⟩ | hlong
      · exact .inl ⟨e', List.mem_cons_of_mem e hmem, hlong⟩
      · right
        omega

theorem violatesCardinality_spec {limits : CardinalityLimits} {d : RateLimitDescriptor}
    (h : (request.coreRequest d.entries).violatesCardinality limits = true) :
    ExceedsEnvelope limits request.domain d := by
  unfold LimitRequest.violatesCardinality at h
  split_ifs at h with hcount
  · exact .inl hcount
  · exact .inr (descriptorBytesExceed_spec h)

/-- An evaluation rejects on good grounds. -/
theorem evaluate_error {counts : DashMapStore} {d : RateLimitDescriptor} {decision : Decision}
    (h : evaluate l counts (request.coreRequest d.entries) now = .error decision) :
    Overflows l counts request now d ∨ ExceedsEnvelope l.cardinalityLimits request.domain d := by
  unfold evaluate at h
  split_ifs at h with hcard
  · exact .inr (violatesCardinality_spec hcard)
  · obtain ⟨rule, hrule, hmode, hlimit⟩ := planRules_error h
    exact .inl ⟨rule, hrule, hmode, hlimit.trans_le (min_le_left _ _)⟩

/-- Within the caps every rejection is an evaluation's. -/
theorem decideDescriptor_reject {counts : DashMapStore} {idx : ℕ} {d : RateLimitDescriptor}
    (hidx : idx < maxDescriptors) (hd : d.entries.length ≤ maxDescriptors)
    (h : (decideDescriptor l counts request now idx d).isReject = true) :
    Overflows l counts request now d ∨ ExceedsEnvelope l.cardinalityLimits request.domain d := by
  unfold decideDescriptor mapEnvoyDescriptor at h
  rw [if_neg (not_le.2 hidx), if_neg (not_lt.2 hd)] at h
  dsimp only at h
  split at h
  · rename_i decision hev
    exact evaluate_error hev
  · cases h

/-- Beyond the caps there is a rejection whatever the aggregates hold. -/
theorem overLimit_of_not_withinCaps (h : ¬ WithinCaps request) (counts : ℕ → DashMapStore)
    (now : ℕ) : (shouldRateLimitAt l counts request now).overallCode = .overLimit := by
  rw [overLimit_iff]
  by_cases hlen : request.descriptors.length ≤ maxDescriptors
  · obtain ⟨d, hd, hmany⟩ : ∃ d ∈ request.descriptors, maxDescriptors < d.entries.length := by
      by_contra hnone
      push Not at hnone
      exact h ⟨hlen, hnone⟩
    obtain ⟨idx, hidx⟩ := List.mem_iff_getElem?.1 hd
    refine ⟨idx, d, hidx, ?_⟩
    unfold decideDescriptor mapEnvoyDescriptor
    rw [if_pos hmany]
    split_ifs <;> rfl
  · have hidx := List.getElem?_eq_getElem (not_le.1 hlen)
    refine ⟨maxDescriptors, _, hidx, ?_⟩
    rw [decideDescriptor, if_pos le_rfl]
    rfl

/-- **The policy holds exactly within the caps.**  Take any rules, envelope and request.  For
    every content of the aggregates and every time an answer of `OVER_LIMIT` has its grounds
    if, and only if, the request fits the handler's caps, or some descriptor is beyond the
    envelope or has a matching rule in mode `Enforce` that the hits of the request alone
    overflow. -/
theorem fail_open_iff (l : SharedLimiter) (request : RateLimitRequest) :
    (∀ counts now, FailOpen l counts request now) ↔
      WithinCaps request ∨ ∃ d ∈ request.descriptors,
        ExceedsEnvelope l.cardinalityLimits request.domain d ∨
          ∃ rule ∈ l.ruleTable.matching l.crates request.domain d.entries,
            rule.mode = .enforce ∧ rule.limit < request.hits := by
  constructor
  · intro hall
    by_contra hnot
    obtain ⟨hcaps, hnone⟩ := not_or.1 hnot
    -- nothing has been counted: the request has only its own hits
    obtain ⟨idx, d, hd, hgrounds⟩ := hall (fun _ => .empty) 0
      (overLimit_of_not_withinCaps hcaps _ _)
    refine hnone ⟨d, List.mem_of_getElem? hd, ?_⟩
    rcases hgrounds with ⟨rule, hrule, hmode, hlimit⟩ | henvelope
    · refine .inr ⟨rule, hrule, hmode, ?_⟩
      rwa [windowTotalFor, windowTotal_empty, Nat.zero_add] at hlimit
    · exact .inl henvelope
  · rintro (⟨hlen, hentries⟩ | ⟨d, hmem, hgrounds⟩) counts now hover
    · obtain ⟨idx, d, hd, hreject⟩ := overLimit_iff.1 hover
      have hidx : idx < request.descriptors.length := (List.getElem?_eq_some_iff.1 hd).1
      exact ⟨idx, d, hd, decideDescriptor_reject (hidx.trans_le hlen)
        (hentries d (List.mem_of_getElem? hd)) hreject⟩
    · obtain ⟨idx, hd⟩ := List.mem_iff_getElem?.1 hmem
      refine ⟨idx, d, hd, ?_⟩
      rcases hgrounds with henvelope | ⟨rule, hrule, hmode, hlimit⟩
      · exact .inr henvelope
      · exact .inl ⟨rule, hrule, hmode, Nat.lt_add_left _ hlimit⟩

/-! ### Two requests beyond the caps -/

/-- No rules, and an envelope of 32 entries in 4096 bytes. -/
def openLimiter : SharedLimiter where
  crates := Runtime.tinyCrates
  ruleTable := []
  cardinalityLimits := { maxDescriptorCount := 32, maxDescriptorBytes := 4096, maxKeyBytes := 256 }

def seventeenDescriptors : RateLimitRequest where
  domain := "api"
  descriptors := List.replicate 17 ⟨[⟨"user", "alice"⟩]⟩
  hitsAddend := 1

def seventeenEntries : RateLimitRequest where
  domain := "api"
  descriptors := [⟨List.replicate 17 ⟨"user", "alice"⟩⟩]
  hitsAddend := 1

/-- Without rules, only the envelope gives grounds. -/
theorem not_failOpen_of_noRules (hrules : l.ruleTable = [])
    (hover : (shouldRateLimitAt l counts request now).overallCode = .overLimit)
    (henvelope : ∀ d ∈ request.descriptors,
      ¬ ExceedsEnvelope l.cardinalityLimits request.domain d) :
    ¬ FailOpen l counts request now := by
  intro hpolicy
  obtain ⟨idx, d, hd, ⟨rule, hrule, -⟩ | hexceeds⟩ := hpolicy hover
  · rw [hrules] at hrule
    cases hrule
  · exact henvelope d (List.mem_of_getElem? hd) hexceeds

/-- **Where no rule exists and the envelope is kept, both are answered `OVER_LIMIT`.** -/
theorem caps_reject : ¬ FailOpen openLimiter (fun _ => .empty) seventeenDescriptors 0 ∧
    ¬ FailOpen openLimiter (fun _ => .empty) seventeenEntries 0 :=
  ⟨not_failOpen_of_noRules rfl (by decide +kernel) (by decide +kernel),
    not_failOpen_of_noRules rfl (by decide +kernel) (by decide +kernel)⟩

end Server

end Gabion

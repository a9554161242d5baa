/-
  Any number of requests at a time, and peers (`server/src/lib.rs`, `gossip/client.rs`).

  The server answers all its requests on one thread.  A handler runs until it waits for the loop
  to take a hit; in between other handlers and the loop take their turns, the loop also on
  datagrams.  A handler is the task of `Limiter`, and `Service.view` is the server as one of the
  handlers sees it.  The hits that wait for the loop are taken in any order.

  A decision does not see the hits that the other handlers have admitted and still wait with.
  `Service.account` gives the account of one rule and key, and every move is a step of
  `ReadThenRecord`.
-/
import Gabion.Enforcement

namespace Gabion

open Function ReadThenRecord

/-! ## The service -/

/-- A server with room for `n` requests at a time.  An admitted descriptor is kept with the
    clock at its decision. -/
structure Service (n : ℕ) where
  limiter : Server.SharedLimiter
  runtime : Runtime .u32
  clock : ℕ
  tasks : Fin n → Option Server.Task
  responses : List Server.RateLimitResponse
  admitted : List (Server.Admission × ℕ)
  rejected : Bool

namespace Service

variable {n : ℕ}

def start (n : ℕ) (limiter : Server.SharedLimiter) (runtime : Runtime .u32) : Service n where
  limiter := limiter
  runtime := runtime
  clock := 0
  tasks := fun _ => none
  responses := []
  admitted := []
  rejected := false

/-- The server with this request alone. -/
def withTask (svc : Service n) (task : Option Server.Task) : Server where
  limiter := svc.limiter
  runtime := svc.runtime
  clock := svc.clock
  task := task
  responses := svc.responses
  admitted := []
  rejected := svc.rejected

/-- The server as the handler in slot `i` sees it. -/
def view (svc : Service n) (i : Fin n) : Server := svc.withTask (svc.tasks i)

@[simp] theorem view_task (svc : Service n) (i : Fin n) : (svc.view i).task = svc.tasks i := rfl

/-- What the handler in slot `i` leaves. -/
def put (svc : Service n) (i : Fin n) (srv : Server) : Service n where
  limiter := srv.limiter
  runtime := srv.runtime
  clock := srv.clock
  tasks := update svc.tasks i srv.task
  responses := srv.responses
  admitted := svc.admitted ++ srv.admitted.map fun a => (a, svc.clock)
  rejected := srv.rejected

inductive Event (n : ℕ)
  | arrive (i : Fin n) (request : Server.RateLimitRequest) (now : ℕ)
  | resume (i : Fin n)
  | record (i : Fin n) (now : ℕ)
  | loop (now : ℕ) (arm : ArmOutcome)

/-- The hits a move brings in. -/
def Event.hits : Event n → ℕ
  | .arrive _ request _ => request.hits
  | .resume _ | .record _ _ | .loop _ _ => 0

/-- The arms that serve the request channel. -/
def isRequest : ArmOutcome → Bool
  | .request _ => true
  | _ => false

/-- **One move of the service.**  The handlers feed the request channel; every other arm of the
    loop may fire at any time. -/
def step (env : Platform) (svc : Service n) : Event n → Option (Service n)
  | .arrive i request now => ((svc.view i).step env (.arrive request now)).map (svc.put i)
  | .resume i => ((svc.view i).step env .resume).map (svc.put i)
  | .record i now => ((svc.view i).step env (.record now)).map (svc.put i)
  | .loop now arm =>
    if svc.clock ≤ now && !isRequest arm then
      (svc.runtime.iteration env now arm).map fun runtime => { svc with runtime, clock := now }
    else none

def run (env : Platform) : Service n → List (Event n) → Option (Service n)
  | svc, [] => some svc
  | svc, e :: rest => (svc.step env e).bind fun svc => run env svc rest

/-! ## The account of a rule and key -/

/-- The admitted hits of a bucket. -/
def admittedAt (svc : Service n) (rule : Rule) (keyHash : KeyHash) (bucket : ℕ) : ℕ :=
  (svc.admitted.map fun p => p.1.counts svc.limiter.crates rule keyHash bucket).sum

/-- Those that were decided when the clock had left the bucket of the request. -/
def lateAt (svc : Service n) (rule : Rule) (keyHash : KeyHash) (bucket : ℕ) : ℕ :=
  (svc.admitted.map fun p => if rule.current p.1.now = rule.current p.2 then 0
    else p.1.counts svc.limiter.crates rule keyHash bucket).sum

/-- The hits that wait for the loop. -/
def pendingAt (svc : Service n) (k : CellIdentity) : ℕ := ∑ i, (svc.view i).pendingAt k

def account (svc : Service n) (rule : Rule) (keyHash : KeyHash) : Account where
  now := rule.current svc.clock
  admitted := svc.admittedAt rule keyHash
  recorded := fun bucket => svc.runtime.store.identityTotal (Server.identityFor rule keyHash bucket)
  pending := fun bucket => svc.pendingAt (Server.identityFor rule keyHash bucket)
  lost := fun _ => 0
  late := svc.lateAt rule keyHash

end Service

namespace Service

variable {n most : ℕ} {env : Platform} {svc svc' : Service n} {pins : ℕ → Bool}
  {l : Server.SharedLimiter}

/-- What holds of a request in progress.  Its hits are at most `most`, and the hits of one
    descriptor are for different rules. -/
structure TaskOk (l : Server.SharedLimiter) (most clock : ℕ) (t : Server.Task) : Prop where
  within : l.Within t.request
  time : t.now ≤ clock
  hits : t.request.hits ≤ most
  planned : ∀ planned tightest, t.recording = some (planned, tightest) →
    (planned.map fun p => p.spec.fingerprint).Nodup

/-- What holds of a service between moves, whatever the rule. -/
structure Ready (pins : ℕ → Bool) (l : Server.SharedLimiter) (most : ℕ) (svc : Service n) :
    Prop where
  idle : Server.Ready pins l (svc.withTask none)
  tasks : ∀ i, ∀ t ∈ svc.tasks i, TaskOk l most svc.clock t
  times : ∀ p ∈ svc.admitted, p.1.now ≤ p.2 ∧ p.2 ≤ svc.clock

theorem Ready.view (h : Ready pins l most svc) (i : Fin n) : Server.Ready pins l (svc.view i) :=
  ⟨h.idle.limiter, h.idle.distinct, h.idle.agree, h.idle.holds,
    fun t ht => (h.tasks i t ht).within, fun t ht => (h.tasks i t ht).time, fun _ ha => by cases ha⟩

/-- The handler an event belongs to, and its move. -/
def Event.handler : Event n → Option (Fin n × Server.Event)
  | .arrive i request now => some (i, .arrive request now)
  | .resume i => some (i, .resume)
  | .record i now => some (i, .record now)
  | .loop _ _ => none

/-- The moves of a service: one of a handler, or a turn of the loop that serves no handler. -/
inductive Move (env : Platform) (svc : Service n) : Event n → Service n → Prop
  | handler (e : Event n) (i : Fin n) (inner : Server.Event) (srv : Server) :
      e.handler = some (i, inner) → Server.Move env (svc.view i) inner srv →
      Move env svc e (svc.put i srv)
  | turn (now : ℕ) (arm : ArmOutcome) (runtime : Runtime .u32) (call : Option (StoreCall .u32)) :
      Runtime.Unowned now call → Runtime.Iterated env svc.runtime call runtime → svc.clock ≤ now →
      Move env svc (.loop now arm) { svc with runtime, clock := now }

theorem isRequest_firedArm {arm : ArmOutcome} (h : isRequest arm = false) (r : Runtime .u32) :
    isRequest (r.firedArm arm) = false := by
  unfold Runtime.firedArm
  split_ifs
  · rfl
  · exact h

theorem unowned_tableCall {arm : ArmOutcome} (h : isRequest arm = false) (r : Runtime .u32)
    (now : ℕ) : Runtime.Unowned now (r.tableCall env now arm) := by
  cases arm with
  | request => cases h
  | inbound recv =>
    cases recv with
    | none => exact .inl rfl
    | some recv =>
      unfold Runtime.tableCall
      dsimp only
      split
      · exact .inl rfl
      · exact .inr (.inr ⟨_, rfl⟩)
  | tick => exact .inr (.inl rfl)
  | writable => exact .inl rfl
  | peerEvent => exact .inl rfl
  | admin => exact .inl rfl

theorem Ready.step {e : Event n} (h : Ready pins l most svc) (hs : svc.step env e = some svc') :
    Move env svc e svc' := by
  obtain ⟨applies, hagree, -⟩ := h.idle.agree
  have hmove : ∀ i inner, e.handler = some (i, inner) →
      ((svc.view i).step env inner).map (svc.put i) = some svc' → Move env svc e svc' := by
    intro i inner he hs
    obtain ⟨srv, hsrv, rfl⟩ := Option.map_eq_some_iff.1 hs
    exact .handler e i inner srv he (Server.step_move hagree.sinkBuf hagree.expirationBuf hsrv)
  cases e with
  | arrive i request now => exact hmove i _ rfl hs
  | resume i => exact hmove i _ rfl hs
  | record i now => exact hmove i _ rfl hs
  | loop now arm =>
    simp only [Service.step, Bool.and_eq_true, decide_eq_true_eq, Bool.not_eq_true',
      Option.ite_none_right_eq_some] at hs
    obtain ⟨⟨hnow, harm⟩, hs⟩ := hs
    obtain ⟨runtime, hit, rfl⟩ := Option.map_eq_some_iff.1 hs
    exact .turn now arm runtime _
      (unowned_tableCall (isRequest_firedArm harm svc.runtime) svc.runtime now)
      (Runtime.iteration_spec hit hagree.sinkBuf hagree.expirationBuf) hnow

/-! ## Moves keep what holds of every rule -/

/-- The hits that a descriptor plans are for different rules. -/
theorem planned_nodup {counts : DashMapStore} {request : Server.LimitRequest} {now : ℕ}
    {planned : List Server.Planned} {tightest : Option Server.QuotaContext}
    (hdistinct : (l.ruleTable.map Rule.fingerprint).Nodup)
    (h : Server.evaluate l counts request now = .ok (planned, tightest)) :
    (planned.map fun p => p.spec.fingerprint).Nodup := by
  unfold Server.evaluate at h
  split_ifs at h
  obtain ⟨hplanned, -⟩ := Server.planRules_ok h (Nat.zero_le _)
  rw [hplanned, List.nil_append, List.map_map]
  refine hdistinct.sublist (List.Sublist.map Rule.fingerprint ?_)
  exact (List.take_sublist _ _).trans List.filter_sublist

/-- A move of a handler keeps what holds of its request. -/
theorem taskOk_move {srv srv' : Server} {e : Server.Event} (hready : Server.Ready pins l srv)
    (htask : ∀ t ∈ srv.task, TaskOk l most srv.clock t)
    (harrive : ∀ request now, e = .arrive request now → l.Within request ∧ request.hits ≤ most)
    (hm : Server.Move env srv e srv') : ∀ t ∈ srv'.task, TaskOk l most srv'.clock t := by
  cases hm with
  | arrive request now hidle hnow =>
    rintro t ⟨⟩
    obtain ⟨hwithin, hhits⟩ := harrive request now rfl
    exact ⟨hwithin, le_rfl, hhits, fun _ _ hr => by cases hr⟩
  | turn _ now runtime call hcall hit hnow =>
    intro t ht
    have hok := htask t ht
    exact ⟨hok.within, hok.time.trans hnow, hok.hits, hok.planned⟩
  | record now runtime t p rest tightest ht hr hit hnow =>
    rintro t' ⟨⟩
    have hok := htask t ht
    refine ⟨hok.within, hok.time.trans hnow, hok.hits, fun planned _ hp => ?_⟩
    cases hp
    exact (List.nodup_cons.1 (hok.planned _ _ hr)).2
  | decide t task responses ht hr htask' =>
    intro t' ht'
    have hok := htask t ht
    obtain ⟨hnone, htime, hrequest⟩ := htask' t' ht'
    refine ⟨hrequest ▸ hok.within, htime ▸ hok.time, hrequest ▸ hok.hits, fun _ _ hp => ?_⟩
    rw [hnone] at hp
    cases hp
  | accept t mapped planned tightest ht hr hd hev =>
    rintro t' ⟨⟩
    have hok := htask t ht
    refine ⟨hok.within, hok.time, hok.hits, fun planned' _ hp => ?_⟩
    cases hp
    rw [hready.limiter] at hev
    exact planned_nodup hready.distinct hev

/-- The admitted descriptors of a handler's move are decided at the time of its request. -/
theorem admitted_move {srv srv' : Server} {e : Server.Event} (hready : Server.Ready pins l srv)
    (hnone : srv.admitted = []) (hm : Server.Move env srv e srv') :
    ∀ a ∈ srv'.admitted, a.now ≤ srv.clock := by
  cases hm with
  | arrive => rw [hnone]; rintro a ⟨⟩
  | turn => rw [hnone]; rintro a ⟨⟩
  | record => rw [hnone]; rintro a ⟨⟩
  | decide => rw [hnone]; rintro a ⟨⟩
  | accept t mapped planned tightest ht hr hd hev =>
    rw [hnone, List.nil_append]
    intro a ha
    rw [List.mem_singleton.1 ha]
    exact hready.task t ht

theorem Ready.move {e : Event n} (h : Ready pins l most svc) (hm : Move env svc e svc')
    (harrive : ∀ i request now, e = .arrive i request now →
      l.Within request ∧ request.hits ≤ most) :
    Ready pins l most svc' := by
  cases hm with
  | turn now arm runtime call hcall hit hnow =>
    exact ⟨h.idle.runtime hcall.loopCall hit hnow,
      fun i t ht => ⟨(h.tasks i t ht).within, (h.tasks i t ht).time.trans hnow,
        (h.tasks i t ht).hits, (h.tasks i t ht).planned⟩,
      fun p hp => ⟨(h.times p hp).1, (h.times p hp).2.trans hnow⟩⟩
  | handler _ i inner srv he hm =>
    have hinner : ∀ request now, inner = .arrive request now →
        l.Within request ∧ request.hits ≤ most := by
      rintro request now rfl
      cases e with
      | arrive j request' now' =>
        cases he
        exact harrive i request now rfl
      | resume j => cases he
      | record j now' => cases he
      | loop now' arm => cases he
    have hnext := (h.view i).move hm fun request now hr => (hinner request now hr).1
    have hclock : svc.clock ≤ srv.clock := hm.mono.1
    refine ⟨⟨hnext.limiter, hnext.distinct, hnext.agree, hnext.holds, ?_, ?_, ?_⟩, fun j t ht => ?_,
      fun p hp => ?_⟩
    · rintro t ⟨⟩
    · rintro t ⟨⟩
    · rintro a ⟨⟩
    · change t ∈ update svc.tasks i srv.task j at ht
      by_cases hj : j = i
      · rw [hj, update_self] at ht
        exact taskOk_move (h.view i) (h.tasks i) hinner hm t ht
      · rw [update_of_ne hj] at ht
        have hok := h.tasks j t ht
        exact ⟨hok.within, hok.time.trans hclock, hok.hits, hok.planned⟩
    · rcases List.mem_append.1 hp with hp | hp
      · exact ⟨(h.times p hp).1, (h.times p hp).2.trans hclock⟩
      · obtain ⟨a, ha, rfl⟩ := List.mem_map.1 hp
        exact ⟨admitted_move (h.view i) rfl hm a ha, hclock⟩

/-! ## Moves keep the account of a rule -/

variable {rule : Rule} {keyHash : KeyHash}

theorem pendingAt_put (svc : Service n) (i : Fin n) (srv : Server) (k : CellIdentity) :
    (svc.put i srv).pendingAt k + (svc.view i).pendingAt k = svc.pendingAt k + srv.pendingAt k := by
  have hsum := Slots.sum_comp_update svc.tasks i srv.task fun task =>
    (task.map (·.pending k)).getD 0
  exact hsum

/-- The hits one descriptor plans for a rule and key fall in one bucket. -/
theorem sum_plannedHits_le (hits : ℕ) {span : Finset ℕ} (hspan : ∀ bucket ∈ span, bucket < 2 ^ 32) :
    ∀ {planned : List Server.Planned}, (planned.map fun p => p.spec.fingerprint).Nodup →
      ∑ bucket ∈ span,
        Server.plannedHits planned hits (Server.identityFor rule keyHash bucket) ≤ hits
  | [], _ => by simp [Server.plannedHits]
  | p :: rest, hnodup => by
    rw [List.map_cons, List.nodup_cons] at hnodup
    have hcons : ∀ bucket, Server.plannedHits (p :: rest) hits
        (Server.identityFor rule keyHash bucket) =
          (if p.identity = Server.identityFor rule keyHash bucket then hits else 0) +
            Server.plannedHits rest hits (Server.identityFor rule keyHash bucket) :=
      fun _ => List.sum_cons
    simp only [hcons, Finset.sum_add_distrib]
    by_cases hfp : p.spec.fingerprint = rule.fingerprint
    · -- no other hit is for this rule
      have hrest : ∀ bucket,
          Server.plannedHits rest hits (Server.identityFor rule keyHash bucket) = 0 := by
        intro bucket
        refine List.sum_eq_zero fun x hx => ?_
        obtain ⟨q, hq, rfl⟩ := List.mem_map.1 hx
        refine if_neg fun hid => hnodup.1 (List.mem_map.2 ⟨q, hq, ?_⟩)
        exact (congrArg CellIdentity.ruleFingerprint hid).trans hfp.symm
      simp only [hrest, Finset.sum_const_zero, Nat.add_zero]
      refine (Account.sum_single_le span p.bucket.toNat fun bucket hb hne => ?_).trans
        (ite_le_sup _ _ _ |>.trans (sup_le le_rfl (Nat.zero_le _)))
      have hid := congrArg CellIdentity.bucket (of_not_not fun hc => hne (if_neg hc))
      change p.bucket = BitVec.ofNat 32 bucket at hid
      rw [hid, BitVec.toNat_ofNat, Nat.mod_eq_of_lt (hspan bucket hb)]
    · have hfirst : ∀ bucket,
          (if p.identity = Server.identityFor rule keyHash bucket then hits else 0) = 0 :=
        fun bucket => if_neg fun hid => hfp (congrArg CellIdentity.ruleFingerprint hid)
      simp only [hfirst, Finset.sum_const_zero, Nat.zero_add]
      exact sum_plannedHits_le hits hspan hnodup.2

/-- **What a decision cannot see**: the hits that the other handlers wait with. -/
theorem Ready.pending_le (h : Ready pins l most svc) (rule : Rule) (keyHash : KeyHash) {i : Fin n}
    {t : Server.Task} (ht : svc.tasks i = some t) (hr : t.recording = none) (now : ℕ) :
    ∑ bucket ∈ windowSpan (rule.current now) rule.liveBuckets,
      svc.pendingAt (Server.identityFor rule keyHash bucket) ≤ (n - 1) * most := by
  have hspan : ∀ bucket ∈ windowSpan (rule.current now) rule.liveBuckets, bucket < 2 ^ 32 :=
    fun bucket hb => (mem_windowSpan.1 hb).1.trans_lt (rule.current_lt now)
  generalize windowSpan (rule.current now) rule.liveBuckets = span at hspan ⊢
  have hother : ∀ j, ∑ bucket ∈ span,
      (svc.view j).pendingAt (Server.identityFor rule keyHash bucket) ≤ most := by
    intro j
    cases hj : svc.tasks j with
    | none => simp [Server.pendingAt, hj]
    | some t' =>
      have hok := h.tasks j t' hj
      have heq : ∀ k, (svc.view j).pendingAt k = t'.pending k := fun k => by
        simp [Server.pendingAt, hj]
      simp only [heq, Server.Task.pending]
      cases hrec : t'.recording with
      | none => simp
      | some recording =>
        exact (sum_plannedHits_le t'.request.hits hspan (hok.planned _ _ hrec)).trans hok.hits
  have hself : ∑ bucket ∈ span,
      (svc.view i).pendingAt (Server.identityFor rule keyHash bucket) = 0 :=
    Finset.sum_eq_zero fun bucket _ => Server.pendingAt_of_recording ht (.inl hr) _
  unfold pendingAt
  rw [Finset.sum_comm, ← Finset.add_sum_erase _ _ (Finset.mem_univ i), hself, Nat.zero_add]
  calc _ ≤ ∑ _j ∈ Finset.univ.erase i, most := Finset.sum_le_sum fun j _ => hother j
    _ = (n - 1) * most := by
      rw [Finset.sum_const, Finset.card_erase_of_mem (Finset.mem_univ i), Finset.card_univ,
        Fintype.card_fin, smul_eq_mul]

/-- A move of a handler that admits nothing. -/
theorem quiet_put {i : Fin n} {srv : Server} (h : Server.Quiet rule keyHash (svc.view i) srv)
    (hfit : srv.clock / rule.bucketMillis < 2 ^ 32) :
    Account.Quiet rule.windows u32Max (svc.account rule keyHash)
      ((svc.put i srv).account rule keyHash) := by
  have hput : (svc.put i srv).admitted = svc.admitted := by
    have hnone : srv.admitted = [] := h.admitted
    simp only [put, hnone, List.map_nil, List.append_nil]
  have hlimiter : (svc.put i srv).limiter = svc.limiter := h.limiter
  have hadmitted : ∀ bucket, (svc.put i srv).admittedAt rule keyHash bucket =
      svc.admittedAt rule keyHash bucket := fun bucket => by
    rw [admittedAt, admittedAt, hput, hlimiter]
  have hlate : ∀ bucket, (svc.put i srv).lateAt rule keyHash bucket =
      svc.lateAt rule keyHash bucket := fun bucket => by rw [lateAt, lateAt, hput, hlimiter]
  refine ⟨(rule.current_mono h.clock hfit).1, fun bucket => (hadmitted bucket).le, fun _ => le_rfl,
    fun bucket => (hlate bucket).ge, fun bucket hb => ?_, fun bucket hb hcap => ?_⟩
  · obtain ⟨hle, hlive⟩ := mem_windowSpan.1 hb
    have hpending := svc.pendingAt_put i srv (Server.identityFor rule keyHash bucket)
    refine (h.accounted bucket (hle.trans_lt (rule.current_lt _)) hlive).imp_left fun hle => ?_
    change svc.runtime.store.identityTotal _ + _ ≤ srv.runtime.store.identityTotal _ + _ at hle
    show (svc.put i srv).admittedAt rule keyHash bucket +
      (svc.runtime.store.identityTotal _ + svc.pendingAt _ + 0) ≤
      svc.admittedAt rule keyHash bucket +
        (srv.runtime.store.identityTotal _ + (svc.put i srv).pendingAt _ + 0)
    rw [hadmitted]
    omega
  · obtain ⟨hle, hlive⟩ := mem_windowSpan.1 hb
    exact hcap.trans (h.counted bucket (hle.trans_lt (rule.current_lt _)) hlive)

theorem admittedAt_put_accept (rule : Rule) (keyHash : KeyHash) (svc : Service n) (i : Fin n)
    {srv : Server} {a : Server.Admission} (hlimiter : srv.limiter = svc.limiter)
    (ha : srv.admitted = [a]) (bucket : ℕ) :
    (svc.put i srv).admittedAt rule keyHash bucket = svc.admittedAt rule keyHash bucket +
        a.counts svc.limiter.crates rule keyHash bucket ∧
      (svc.put i srv).lateAt rule keyHash bucket = svc.lateAt rule keyHash bucket +
        if rule.current a.now = rule.current svc.clock then 0
        else a.counts svc.limiter.crates rule keyHash bucket := by
  simp only [admittedAt, lateAt, put, hlimiter, ha, List.map_append, List.sum_append, List.map_cons,
    List.map_nil, List.sum_cons, List.sum_nil, Nat.add_zero, and_self]

/-- What a handler leaves that admits a descriptor. -/
structure Accepted (svc : Service n) (i : Fin n) (request : Server.LimitRequest) (now : ℕ)
    (planned : List Server.Planned) (srv : Server) : Prop where
  limiter : srv.limiter = svc.limiter
  clock : srv.clock = svc.clock
  runtime : srv.runtime = svc.runtime
  admitted : srv.admitted = [⟨request, now⟩]
  pending : ∀ k, (svc.put i srv).pendingAt k =
    svc.pendingAt k + Server.plannedHits planned request.hits k

/-- **A handler admits a descriptor**: a decision. -/
theorem Ready.accept (h : Ready pins l most svc) (h32 : rule.Fits32) (hrule : rule ∈ l.ruleTable)
    (hmode : rule.mode = .enforce) (hfit : svc.clock / rule.bucketMillis < 2 ^ 32) {i : Fin n}
    {t : Server.Task} {mapped : List Descriptor} {planned : List Server.Planned}
    {tightest : Option Server.QuotaContext} (ht : svc.tasks i = some t) (hr : t.recording = none)
    (hd : ⟨mapped⟩ ∈ t.request.descriptors)
    (hev : Server.evaluate l svc.runtime.aggregates (t.request.coreRequest mapped) t.now =
      .ok (planned, tightest)) {srv : Server}
    (ha : Accepted svc i (t.request.coreRequest mapped) t.now planned srv)
    (hw : rule.Bounds ((n - 1) * most) (svc.account rule keyHash)) :
    rule.Bounds ((n - 1) * most) ((svc.put i srv).account rule keyHash) := by
  have hlimiter : svc.limiter = l := h.idle.limiter
  have hcap : (l.ruleTable.matching l.crates (t.request.coreRequest mapped).domain
      (t.request.coreRequest mapped).descriptors).length ≤ Server.maxMatchedRules :=
    (h.tasks i t ht).within _ hd
  have hput := svc.admittedAt_put_accept rule keyHash i ha.limiter ha.admitted
  rw [hlimiter] at hput
  refine hw.decided (rule.current t.now) (fun bucket =>
    Server.Admission.counts l.crates rule keyHash bucket ⟨t.request.coreRequest mapped, t.now⟩)
    h32.limit ⟨congrArg rule.current ha.clock, (rule.current_mono (h.tasks i t ht).time hfit).1,
    fun _ hne => (Server.Admission.of_counts_ne_zero hne).2.2.symm, fun bucket => (hput bucket).1,
    fun bucket => ?_, fun bucket => ?_, fun _ => rfl,
    fun bucket => (Nat.le_add_right _ _).trans (hput bucket).2.ge, fun b hb hne bucket => ?_,
    fun hne => ?_, fun _ => h.pending_le rule keyHash ht hr svc.clock⟩
  · show srv.runtime.store.identityTotal _ = svc.runtime.store.identityTotal _
    rw [ha.runtime]
  · show _ ≤ (svc.put i srv).pendingAt _
    rw [ha.pending]
    exact Nat.add_le_add_left
      (Server.counts_le_plannedHits h.idle.distinct hrule hcap hev bucket) _
  · -- hits of a later bucket were admitted by the clock
    have hlate : rule.current t.now ≠ rule.current svc.clock := (hb.trans_le (hw.past b hne)).ne
    show _ ≤ (svc.put i srv).lateAt rule keyHash bucket
    rw [(hput bucket).2, if_neg hlate]
    exact le_rfl
  · obtain ⟨hfits, hkey, -⟩ := Server.Admission.of_counts_ne_zero hne
    have hroom := Server.room_of_evaluate (h.view i) h32 hrule hmode hcap hev hfits hkey
    exact (Nat.add_le_add_left (Server.Admission.counts_le ..) _).trans hroom

/-- **One move** keeps the account of an enforcing rule. -/
theorem Ready.within {e : Event n} (h : Ready pins l most svc) (hm : Move env svc e svc')
    (h32 : rule.Fits32) (hrule : rule ∈ l.ruleTable) (hmode : rule.mode = .enforce)
    (hfit : svc'.clock / rule.bucketMillis < 2 ^ 32) (hrejected : svc'.rejected = false)
    (hw : rule.Bounds ((n - 1) * most) (svc.account rule keyHash)) :
    rule.Bounds ((n - 1) * most) (svc'.account rule keyHash) := by
  obtain ⟨applies, hagree, -⟩ := h.idle.agree
  obtain ⟨slot, hholds⟩ := h.idle.holds rule hrule
  cases hm with
  | turn now arm runtime call hcall hit hnow =>
    have hle : ∀ bucket ∈ rule.windows.span (rule.current now),
        svc.runtime.store.identityTotal (Server.identityFor rule keyHash bucket) ≤
          runtime.store.identityTotal (Server.identityFor rule keyHash bucket) := by
      intro bucket hb
      obtain ⟨hle, hlive⟩ := mem_windowSpan.1 hb
      exact Runtime.Iterated.identityTotal_le hagree.inv hholds h32 hcall hit keyHash
        (hle.trans_lt (rule.current_lt _)) hlive
    refine hw.quiet ⟨(rule.current_mono hnow hfit).1, fun _ => le_rfl, fun _ => le_rfl,
      fun _ => le_rfl, fun bucket hb => .inl ?_, fun bucket hb hcap => hcap.trans (hle bucket hb)⟩
    exact Nat.add_le_add_left (Nat.add_le_add_right (Nat.add_le_add_right (hle bucket hb) _) _) _
  | handler _ i inner srv he hm =>
    rcases hm.quiet_or_accept (h.view i) h32 hrule hrejected keyHash with hquiet |
      ⟨t, mapped, planned, tightest, ht, hr, hd, hev, rfl⟩
    · exact hw.quiet (quiet_put hquiet hfit)
    · refine h.accept h32 hrule hmode hfit ht hr hd hev ⟨rfl, rfl, rfl, rfl, fun k => ?_⟩ hw
      have hput := svc.pendingAt_put i { svc.view i with
        task := some { t with recording := some (planned, tightest) }
        admitted := [⟨t.request.coreRequest mapped, t.now⟩] } k
      rw [Server.pendingAt_of_recording ht (.inl hr)] at hput
      exact hput

/-! ## Runs -/

theorem Move.mono {e : Event n} (hm : Move env svc e svc') :
    svc.clock ≤ svc'.clock ∧ (svc'.rejected = false → svc.rejected = false) := by
  cases hm with
  | turn now arm runtime call hcall hit hnow => exact ⟨hnow, id⟩
  | handler _ i inner srv he hm => exact hm.mono

/-- What a run keeps for an enforcing rule and a key. -/
structure Kept (pins : ℕ → Bool) (l : Server.SharedLimiter) (most : ℕ) (rule : Rule)
    (keyHash : KeyHash) (svc : Service n) : Prop where
  ready : Ready pins l most svc
  bounds : svc.rejected = false → svc.clock / rule.bucketMillis < 2 ^ 32 →
    rule.Bounds ((n - 1) * most) (svc.account rule keyHash)

/-- **Whole runs** keep the account of an enforcing rule, if the requests are within what the
    limiter looks at and bring at most `most` hits. -/
theorem Kept.run (h32 : rule.Fits32) (hrule : rule ∈ l.ruleTable) (hmode : rule.mode = .enforce) :
    ∀ (events : List (Event n)) {svc : Service n}, Kept pins l most rule keyHash svc →
      (∀ i request now, .arrive i request now ∈ events → l.Within request ∧ request.hits ≤ most) →
      svc.run env events = some svc' → Kept pins l most rule keyHash svc'
  | [], _, h, _, hr => by cases hr; exact h
  | e :: rest, svc, h, ha, hr => by
    obtain ⟨svc₁, h₁, hr⟩ := Option.bind_eq_some_iff.1 hr
    have hm := h.ready.step h₁
    refine Kept.run h32 hrule hmode rest ⟨?_, fun hrejected hfit => ?_⟩
      (fun i request now he => ha i request now (List.mem_cons_of_mem e he)) hr
    · exact h.ready.move hm fun i request now he => ha i request now (he ▸ List.mem_cons_self)
    · have hfit₀ := (Nat.div_le_div_right hm.mono.1).trans_lt hfit
      exact h.ready.within hm h32 hrule hmode hfit hrejected
        (h.bounds (hm.mono.2 hrejected) hfit₀)

/-- The admitted hits of the rule and key in the rule's live buckets at time `t`. -/
def admittedHits (svc : Service n) (rule : Rule) (keyHash : KeyHash) (t : ℕ) : ℕ :=
  ∑ bucket ∈ windowSpan (rule.current t) rule.liveBuckets, svc.admittedAt rule keyHash bucket

/-- Those of them that were decided when the clock had left the bucket of the request. -/
def lateHits (svc : Service n) (rule : Rule) (keyHash : KeyHash) (t : ℕ) : ℕ :=
  ∑ bucket ∈ windowSpan (rule.current t) rule.liveBuckets, svc.lateAt rule keyHash bucket

variable {x : RuleCrates} {limits : List LimitRuleConfig} {table : RuleTable}
  {config : CellStoreConfig} {node : NodeIdentity} {s₀ s : CellStore .u32}

theorem ready_start (htable : ruleTable x limits = .ok table)
    (hdistinct : (table.map Rule.fingerprint).Nodup)
    (hnew : CellStore.new .u32 config node = some s₀) (hreg : registerRules s₀ table = some s)
    (gossip : GossipConfig)
    (cardinalityLimits : Server.CardinalityLimits) (n most : ℕ) :
    ∃ pins, Ready pins ⟨x, table, cardinalityLimits⟩ most
      (start n ⟨x, table, cardinalityLimits⟩ (.fromParts gossip s .empty)) := by
  obtain ⟨pins, hready⟩ :=
    Server.ready_start htable hdistinct hnew hreg gossip cardinalityLimits
  refine ⟨pins, ⟨hready.limiter, hready.distinct, hready.agree, hready.holds, ?_, ?_, ?_⟩, ?_, ?_⟩
  · rintro t ⟨⟩
  · rintro t ⟨⟩
  · rintro a ⟨⟩
  · rintro i t ⟨⟩
  · rintro p ⟨⟩

/-- What a run from the start leaves. -/
theorem kept_run (keyHash : KeyHash) (htable : ruleTable x limits = .ok table)
    (hdistinct : (table.map Rule.fingerprint).Nodup)
    (hnew : CellStore.new .u32 config node = some s₀) (hreg : registerRules s₀ table = some s)
    {gossip : GossipConfig}
    {cardinalityLimits : Server.CardinalityLimits} {events : List (Event n)}
    (hevents : ∀ i request now, .arrive i request now ∈ events →
      Server.SharedLimiter.Within ⟨x, table, cardinalityLimits⟩ request ∧ request.hits ≤ most)
    (hrun : (start n ⟨x, table, cardinalityLimits⟩ (.fromParts gossip s .empty)).run env events =
      some svc) (hrule : rule ∈ table) (h32 : rule.Fits32) (hmode : rule.mode = .enforce) :
    ∃ pins, Kept pins ⟨x, table, cardinalityLimits⟩ most rule keyHash svc := by
  obtain ⟨pins, hready⟩ :=
    ready_start htable hdistinct hnew hreg gossip cardinalityLimits n most
  exact ⟨pins, Kept.run h32 hrule hmode events
    ⟨hready, fun _ _ => Account.within_zero _ _ _ _ _⟩ hevents hrun⟩

/-- **Concurrent requests overshoot by what is in flight.**  The rules of a configuration, with
    distinct fingerprints, are registered and the server runs: up to `n` requests at a time, of at
    most `most` hits each, in any interleaving with each other and with the loop, which also
    merges any datagrams.  If no hit was rejected for capacity and no descriptor matches more
    rules than are looked at, then for an enforcing rule and a key, the admitted hits in the
    rule's live buckets, now and at every later time, are at most the limit, the hits of all
    requests but one, and the hits that were decided late: after the clock had left the bucket in
    which the request had read it. -/
theorem concurrent_overshoot (env : Platform) (htable : ruleTable x limits = .ok table)
    (hdistinct : (table.map Rule.fingerprint).Nodup)
    (hnew : CellStore.new .u32 config node = some s₀) (hreg : registerRules s₀ table = some s)
    (gossip : GossipConfig)
    (cardinalityLimits : Server.CardinalityLimits) {n most : ℕ} (events : List (Event n))
    (hevents : ∀ i request now, .arrive i request now ∈ events → request.hits ≤ most ∧
      ∀ d ∈ request.descriptors,
        (table.matching x request.domain d.entries).length ≤ Server.maxMatchedRules)
    {svc : Service n} (hrun : (start n ⟨x, table, cardinalityLimits⟩
      (.fromParts gossip s .empty)).run env events = some svc) (hrejected : svc.rejected = false)
    {rule : Rule} (hrule : rule ∈ table) (h32 : rule.Fits32) (hmode : rule.mode = .enforce)
    (keyHash : KeyHash) (t : ℕ) (ht : svc.clock ≤ t) (hepoch : t / rule.bucketMillis < 2 ^ 32) :
    svc.admittedHits rule keyHash t ≤
      rule.limit + (n - 1) * most + svc.lateHits rule keyHash t := by
  have hfit : svc.clock / rule.bucketMillis < 2 ^ 32 := (Nat.div_le_div_right ht).trans_lt hepoch
  obtain ⟨pins, h⟩ := kept_run keyHash htable hdistinct hnew hreg
    (fun i request now he => ⟨(hevents i request now he).2, (hevents i request now he).1⟩) hrun
    hrule h32 hmode
  have hbound := (h.bounds hrejected hfit).bound (rule.current t) (rule.current_mono ht hepoch).1
  simp only [account, Nat.zero_add] at hbound
  exact hbound

/-- **No admitted hit is lost.**  In the same runs, what was admitted for an enforcing rule, a key
    and a live bucket is in the row of the aggregates that the next decision reads, except for the
    hits that handlers still wait with; or the row has reached the largest count. -/
theorem admitted_hits_counted (env : Platform) (htable : ruleTable x limits = .ok table)
    (hdistinct : (table.map Rule.fingerprint).Nodup)
    (hnew : CellStore.new .u32 config node = some s₀) (hreg : registerRules s₀ table = some s)
    (gossip : GossipConfig)
    (cardinalityLimits : Server.CardinalityLimits) {n : ℕ} (events : List (Event n))
    (hevents : ∀ i request now, .arrive i request now ∈ events → ∀ d ∈ request.descriptors,
      (table.matching x request.domain d.entries).length ≤ Server.maxMatchedRules)
    {svc : Service n} (hrun : (start n ⟨x, table, cardinalityLimits⟩
      (.fromParts gossip s .empty)).run env events = some svc) (hrejected : svc.rejected = false)
    {rule : Rule} (hrule : rule ∈ table) (h32 : rule.Fits32) (hmode : rule.mode = .enforce)
    (keyHash : KeyHash) (hepoch : svc.clock / rule.bucketMillis < 2 ^ 32) {bucket : ℕ}
    (hlive : bucket ∈ windowSpan (rule.current svc.clock) rule.liveBuckets) :
    svc.admittedAt rule keyHash bucket ≤
        svc.runtime.aggregates.countFor rule.fingerprint keyHash bucket +
          svc.pendingAt (Server.identityFor rule keyHash bucket) ∨
      u32Max ≤ svc.runtime.aggregates.countFor rule.fingerprint keyHash bucket := by
  -- the largest request bounds all of them
  obtain ⟨most, hmost⟩ : ∃ most, ∀ i request now, .arrive i request now ∈ events →
      request.hits ≤ most := by
    refine ⟨(events.map Event.hits).sum, fun i request now he => ?_⟩
    exact List.single_le_sum (fun _ _ => Nat.zero_le _) _ (List.mem_map.2 ⟨_, he, rfl⟩)
  obtain ⟨pins, h⟩ := kept_run keyHash htable hdistinct hnew hreg
    (fun i request now he => ⟨hevents i request now he, hmost i request now he⟩) hrun hrule h32
    hmode
  have hcount : svc.runtime.aggregates.countFor rule.fingerprint keyHash bucket =
      svc.runtime.store.identityTotal (Server.identityFor rule keyHash bucket) :=
    h.ready.idle.countFor hrule keyHash bucket
  rw [hcount]
  exact (h.bounds hrejected hepoch).accounted bucket hlive

/-! ### Two requests at once against ten a second -/

/-- Two requests of six hits are decided before either has recorded its hits; a third, later one
    is not admitted. -/
def pairEvents : List (Event 2) :=
  [.arrive 0 (Server.aliceRequest 6) 5000, .arrive 1 (Server.aliceRequest 6) 5001, .resume 0,
    .resume 1, .record 1 5002, .loop 5003 (.inbound (some ([1, 2, 3], ⟨2, 7000⟩))), .record 0 5004,
    .resume 0, .resume 0, .resume 1, .resume 1, .arrive 0 (Server.aliceRequest 1) 5100, .resume 0,
    .resume 0]

/-- The overshoot is real: twelve hits are admitted against ten. -/
theorem concurrent_overshoot_pair : ∃ (svc : Service 2) (rule : Rule) (table : RuleTable)
    (s₀ s : CellStore .u32) (keyHash : KeyHash),
      ruleTable Runtime.tinyCrates [Runtime.burst] = .ok table ∧ rule ∈ table ∧
      CellStore.new .u32 CellStore.tinyConfig CellStore.tinyNode = some s₀ ∧
      registerRules s₀ table = some s ∧
      (start 2 ⟨Runtime.tinyCrates, table, Server.tinyLimits⟩
        (.fromParts Runtime.tinyGossip s .empty)).run Runtime.tinyPlatform pairEvents = some svc ∧
      svc.rejected = false ∧ svc.responses.map (·.overallCode) = [.ok, .ok, .overLimit] ∧
      svc.admittedHits rule keyHash 5400 = 12 ∧ rule.limit = 10 ∧
      svc.admittedHits rule keyHash 5400 ≤
        rule.limit + (2 - 1) * 6 + svc.lateHits rule keyHash 5400 := by
  have heval : ((Runtime.registered [Runtime.burst]).bind fun (rule, table, s) =>
      ((start 2 ⟨Runtime.tinyCrates, table, Server.tinyLimits⟩
        (.fromParts Runtime.tinyGossip s .empty)).run Runtime.tinyPlatform pairEvents).map
          fun svc => (svc.rejected, svc.responses.map (·.overallCode),
            svc.admittedHits rule
              (hashKey Runtime.tinyCrates rule.id "api" [⟨"user", "alice"⟩]) 5400, svc.clock,
            decide (table.length ≤ 16 ∧ (table.map Rule.fingerprint).Nodup ∧ rule.limit = 10 ∧
              rule.limit ≤ u32Max ∧ rule.windowMillis ≤ u32Max ∧ rule.bucketMillis ≤ u32Max ∧
              rule.mode = .enforce ∧ 5400 / rule.bucketMillis < 2 ^ 32))) =
      some (false, [.ok, .ok, .overLimit], 12, 5100, true) := by decide +kernel
  obtain ⟨⟨rule, table, s⟩, hreg, hrest⟩ := Option.bind_eq_some_iff.1 heval
  obtain ⟨svc, hrun, hvals⟩ := Option.map_eq_some_iff.1 hrest
  simp only [Prod.mk.injEq, decide_eq_true_eq] at hvals
  obtain ⟨hrejected, hcodes, hhits, hclock, hlen, hdistinct, hlimit, hl, hw, hb, hmode, hepoch⟩ :=
    hvals
  obtain ⟨s₀, htable, hrule, hnew, hreg⟩ := Runtime.registered_spec hreg
  refine ⟨svc, rule, table, s₀, s, _, htable, hrule, hnew, hreg, hrun, hrejected, hcodes, hhits,
    hlimit, ?_⟩
  refine concurrent_overshoot Runtime.tinyPlatform htable hdistinct hnew hreg Runtime.tinyGossip
    Server.tinyLimits pairEvents (fun i request now he => ⟨?_, fun d _ => ?_⟩) hrun hrejected hrule
    ⟨hl, hw, hb⟩ hmode _ 5400 (by omega) hepoch
  · simp only [pairEvents, List.mem_cons, Event.arrive.injEq, reduceCtorEq, false_or, or_false,
      List.not_mem_nil] at he
    rcases he with ⟨-, rfl, -⟩ | ⟨-, rfl, -⟩ | ⟨-, rfl, -⟩ <;> decide
  · exact (List.length_filter_le _ _).trans hlen

/-- Between the two recordings half of the hits are counted and half are waiting. -/
theorem admitted_hits_counted_pair : ∃ (svc : Service 2) (rule : Rule) (table : RuleTable)
    (s₀ s : CellStore .u32) (keyHash : KeyHash),
      ruleTable Runtime.tinyCrates [Runtime.burst] = .ok table ∧ rule ∈ table ∧
      CellStore.new .u32 CellStore.tinyConfig CellStore.tinyNode = some s₀ ∧
      registerRules s₀ table = some s ∧
      (start 2 ⟨Runtime.tinyCrates, table, Server.tinyLimits⟩ (.fromParts Runtime.tinyGossip s
        .empty)).run Runtime.tinyPlatform (pairEvents.take 5) = some svc ∧
      svc.admittedAt rule keyHash 5 = 12 ∧
      svc.runtime.aggregates.countFor rule.fingerprint keyHash 5 = 6 ∧
      svc.pendingAt (Server.identityFor rule keyHash 5) = 6 ∧
      (svc.admittedAt rule keyHash 5 ≤
          svc.runtime.aggregates.countFor rule.fingerprint keyHash 5 +
            svc.pendingAt (Server.identityFor rule keyHash 5) ∨
        u32Max ≤ svc.runtime.aggregates.countFor rule.fingerprint keyHash 5) := by
  have heval : ((Runtime.registered [Runtime.burst]).bind fun (rule, table, s) =>
      ((start 2 ⟨Runtime.tinyCrates, table, Server.tinyLimits⟩ (.fromParts Runtime.tinyGossip s
        .empty)).run Runtime.tinyPlatform (pairEvents.take 5)).map fun svc =>
          let keyHash := hashKey Runtime.tinyCrates rule.id "api" [⟨"user", "alice"⟩]
          (svc.rejected, svc.admittedAt rule keyHash 5,
            svc.runtime.aggregates.countFor rule.fingerprint keyHash 5,
            svc.pendingAt (Server.identityFor rule keyHash 5),
            decide (table.length ≤ 16 ∧ (table.map Rule.fingerprint).Nodup ∧
              rule.limit ≤ u32Max ∧ rule.windowMillis ≤ u32Max ∧ rule.bucketMillis ≤ u32Max ∧
              rule.mode = .enforce ∧ svc.clock / rule.bucketMillis < 2 ^ 32 ∧
              5 ≤ rule.current svc.clock ∧ rule.current svc.clock < 5 + rule.liveBuckets))) =
      some (false, 12, 6, 6, true) := by decide +kernel
  obtain ⟨⟨rule, table, s⟩, hreg, hrest⟩ := Option.bind_eq_some_iff.1 heval
  obtain ⟨svc, hrun, hvals⟩ := Option.map_eq_some_iff.1 hrest
  simp only [Prod.mk.injEq, decide_eq_true_eq] at hvals
  obtain ⟨hrejected, hadmitted, hcounted, hpending, hlen, hdistinct, hl, hw, hb, hmode, hepoch,
    hlive⟩ := hvals
  obtain ⟨s₀, htable, hrule, hnew, hreg⟩ := Runtime.registered_spec hreg
  refine ⟨svc, rule, table, s₀, s, _, htable, hrule, hnew, hreg, hrun, hadmitted, hcounted,
    hpending, ?_⟩
  refine admitted_hits_counted Runtime.tinyPlatform htable hdistinct hnew hreg Runtime.tinyGossip
    Server.tinyLimits (pairEvents.take 5) (fun i request now _ d _ => ?_) hrun hrejected hrule
    ⟨hl, hw, hb⟩ hmode _ hepoch (mem_windowSpan.2 hlive)
  exact (List.length_filter_le _ _).trans hlen

end Service

end Gabion

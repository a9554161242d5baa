/-
  A single node enforces its limits.

  The server of `Limiter` runs without peers.  `Server.account` gives the account of one rule and
  key, and every move is a step of `ReadThenRecord`.  Requests come one after the other, so a
  decision finds no hits pending and no later ones admitted: nothing is lost and nothing is late,
  and the admitted hits of any window from now on stay within the limit.
-/
import Gabion.Lib.ReadThenRecord
import Gabion.Limiter
import Gabion.Retention

namespace Gabion

open Function ReadThenRecord

/-! ## Descriptors that are not clamped -/

namespace Rule

variable {rule : Rule} {now : ℕ}

/-- Limit, window and bucket fit in 32 bits. -/
structure Fits32 (rule : Rule) : Prop where
  limit : rule.limit ≤ u32Max
  window : rule.windowMillis ≤ u32Max
  bucket : rule.bucketMillis ≤ u32Max

theorem Fits32.currentEpoch (h : rule.Fits32) (now : ℕ) :
    (rule.descriptor.currentEpoch now).toNat = rule.current now := by
  have hb : rule.descriptor.bucketMillis = rule.bucketMillis := min_eq_left h.bucket
  rw [RuleDescriptor.currentEpoch, hb, if_neg rule.bucket_pos.ne', BitVec.toNat_ofNat, current]

theorem Fits32.liveBuckets (h : rule.Fits32) :
    rule.descriptor.liveBuckets = rule.liveBuckets := by
  have hbucket : rule.descriptor.bucketMillis = rule.bucketMillis := min_eq_left h.bucket
  have hwindow : rule.descriptor.windowMillis = rule.windowMillis := min_eq_left h.window
  have hw := h.window
  have hpos := rule.bucket_pos
  have hceil : (rule.windowMillis + rule.bucketMillis - 1) / rule.bucketMillis < 2 ^ 32 := by
    rw [Nat.div_lt_iff_lt_mul hpos]
    unfold u32Max at hw
    omega
  rw [RuleDescriptor.liveBuckets, hbucket, hwindow, if_neg hpos.ne', rule.live_eq, liveBucketsFor,
    Nat.mod_eq_of_lt]
  exact max_lt hceil (by decide)

theorem current_mono (rule : Rule) {t t' : ℕ} (h : t ≤ t') (hfit : t' / rule.bucketMillis < 2 ^ 32) :
    rule.current t ≤ rule.current t' ∧ rule.current t' = t' / rule.bucketMillis := by
  have hdiv : t / rule.bucketMillis ≤ t' / rule.bucketMillis := Nat.div_le_div_right h
  unfold current
  rw [Nat.mod_eq_of_lt hfit]
  exact ⟨(Nat.mod_le _ _).trans hdiv, rfl⟩

end Rule

/-- The windows of a rule. -/
def Rule.windows (rule : Rule) : Windows where
  span := fun current => windowSpan current rule.liveBuckets
  mem_of_later := mem_windowSpan_of_later

/-- The admitted hits stay within the limit and the slack, apart from what is lost or late. -/
def Rule.Bounds (rule : Rule) (slack : ℕ) (account : Account) : Prop :=
  account.Within rule.windows rule.limit slack u32Max

def Server.identityFor (rule : Rule) (keyHash : KeyHash) (bucket : ℕ) : CellIdentity where
  ruleFingerprint := rule.fingerprint
  keyHash := keyHash
  bucket := BitVec.ofNat 32 bucket

/-! ## What an iteration does to the sums -/

namespace CellStore

variable {w : CountWidth} {pins : ℕ → Bool} {s s' : CellStore w}

/-- A row never lowers a sum. -/
theorem RowEffect.identityTotal_le {k : CellId} {mode : UpsertMode} {a : Bool}
    {sink sink' : List CellDelta} {res : RowResult} (hstep : RowStep pins s s')
    (he : RowEffect w s.view s'.view k mode a sink sink' res) (h : s.toCellTable.Inv pins)
    (k' : CellIdentity) : s.identityTotal k' ≤ s'.identityTotal k' := by
  cases hok : res.isOk with
  | true =>
    obtain ⟨c, -, htotal⟩ := he.identityTotal hstep h hok
    rw [htotal]
    split_ifs
    · exact Nat.le_add_right _ _
    · exact le_rfl
  | false =>
    cases he with
    | rejected e hv =>
      rw [CellTable.identityTotal, CellTable.identityTotal, hv, hstep.capacity]
    | same => cases hok
    | changed => cases hok

theorem mergeRemote_identityTotal_le (h : s.toCellTable.Inv pins) (obs : List (Observation w))
    (k : CellIdentity) : s.identityTotal k ≤ (s.mergeRemote obs []).1.identityTotal k := by
  refine (rows_induct (P := fun s' _ => s'.toCellTable.Inv pins ∧
    s.identityTotal k ≤ s'.identityTotal k) (fun s' o sink hp => ?_) obs s [] ⟨h, le_rfl⟩).2
  obtain ⟨hstep, heffect⟩ := mergeRow_spec hp.1 o sink
  exact ⟨hstep.inv, hp.2.trans (heffect.identityTotal_le hstep hp.1 k)⟩

end CellStore

namespace Runtime

variable {env : Platform} {pins : ℕ → Bool} {r r' : Runtime .u32}

/-- An ingested hit is counted in full, or the sum is at the largest count. -/
theorem Iterated.ingested (req : LimitRequest) (hinv : r.store.toCellTable.Inv pins)
    (hok : (r.store.ingestRow (req.observation .u32) []).2.2.isOk = true)
    (hit : Iterated env r (some (.ingestLocal [req.observation .u32])) r') (k : CellIdentity) :
    r.store.identityTotal k ≤ r'.store.identityTotal k ∧
      (r.store.identityTotal k + (if req.identity = k then req.hits else 0) ≤
          r'.store.identityTotal k ∨ u32Max ≤ r'.store.identityTotal k) := by
  obtain ⟨hstep, heff⟩ := CellStore.ingestRow_spec hinv (req.observation .u32) []
  obtain ⟨c, hc, htotal⟩ := heff.identityTotal hstep hinv hok
  have htable : r'.store.toCellTable =
      (r.store.ingestRow (req.observation .u32) []).1.toCellTable := hit.table
  have hid : ((req.observation .u32).localId r.store.localIdentity).identity = req.identity := rfl
  have hnext : (UpsertMode.accumulate (req.observation .u32).count).next .u32 c =
      CountWidth.u32.saturatingAddHits c (min req.hits u32Max) := rfl
  have hmax : CountWidth.u32.max = u32Max := rfl
  rw [hid] at hc htotal
  rw [htable, htotal, hnext, CountWidth.saturatingAddHits_eq, hmax]
  by_cases hk : k = req.identity
  · rw [hk, if_pos rfl, if_pos rfl]
    omega
  · rw [if_neg hk, if_neg (Ne.symm hk)]
    exact ⟨le_rfl, .inl le_rfl⟩

/-- A registered rule's live buckets are not aged. -/
theorem not_aged_of_live {now slot bucket : ℕ} {rule : Rule} {id : CellId}
    (hinv : r.store.toCellTable.Inv pins) (hholds : r.store.Holds pins slot rule.descriptor)
    (h32 : rule.Fits32) (keyHash : KeyHash) (hb : bucket < 2 ^ 32)
    (hid : id.identity = Server.identityFor rule keyHash bucket)
    (hlive : rule.current now < bucket + rule.liveBuckets) : r.store.agedAt now id = false := by
  have hfp : id.ruleFingerprint = rule.descriptor.fingerprint :=
    congrArg CellIdentity.ruleFingerprint hid
  have hbucket : id.bucket.toNat = bucket := by
    have hid : id.bucket = BitVec.ofNat 32 bucket := congrArg CellIdentity.bucket hid
    rw [hid, BitVec.toNat_ofNat, Nat.mod_eq_of_lt hb]
  rw [hholds.agedAt hinv hfp, h32.currentEpoch, h32.liveBuckets, hbucket]
  exact decide_eq_false (by omega)

/-- The calls that bring no hits of this node. -/
def Unowned (now : ℕ) (call : Option (StoreCall .u32)) : Prop :=
  call = none ∨ call = some (.expireAt now) ∨ ∃ obs, call = some (.mergeRemote obs)

theorem Unowned.loopCall {now : ℕ} {call : Option (StoreCall .u32)} (h : Unowned now call) :
    LoopCall call := by
  rcases h with rfl | rfl | ⟨obs, rfl⟩
  · exact .none
  · exact .expireAt now
  · exact .mergeRemote obs

/-- An iteration that ingests nothing does not lower the sums of a registered rule's live
    buckets. -/
theorem Iterated.identityTotal_le {call : Option (StoreCall .u32)} {now slot : ℕ} {rule : Rule}
    (hinv : r.store.toCellTable.Inv pins) (hholds : r.store.Holds pins slot rule.descriptor)
    (h32 : rule.Fits32) (hcall : Unowned now call) (hit : Iterated env r call r')
    (keyHash : KeyHash) {bucket : ℕ} (hb : bucket < 2 ^ 32)
    (hlive : rule.current now < bucket + rule.liveBuckets) :
    r.store.identityTotal (Server.identityFor rule keyHash bucket) ≤
      r'.store.identityTotal (Server.identityFor rule keyHash bucket) := by
  rw [hit.table]
  rcases hcall with rfl | rfl | ⟨obs, rfl⟩
  · exact le_rfl
  · refine ((CellStore.expire_identityTotal hinv (r.store.epochScratch now) r.store.liveScratch []
      _).2 fun x hx hid => ?_).ge
    rw [CellStore.expired_eq_aged hinv _ _ hx, CellStore.agedAt_eq hinv]
    exact not_aged_of_live hinv hholds h32 keyHash hb hid hlive
  · exact CellStore.mergeRemote_identityTotal_le hinv obs _

end Runtime

namespace Server

/-! ## What a move does -/

variable {env : Platform} {srv srv' : Server} {e : Event}

/-- The moves, with what the loop does in them. -/
inductive Move (env : Platform) (srv : Server) : Event → Server → Prop
  | arrive (request : RateLimitRequest) (now : ℕ) : srv.task = none → srv.clock ≤ now →
      Move env srv (.arrive request now)
        { srv with clock := now, task := some (.new request now) }
  | turn (e : Event) (now : ℕ) (runtime : Runtime .u32) (call : Option (StoreCall .u32)) :
      call = none ∨ call = some (.expireAt now) → Runtime.Iterated env srv.runtime call runtime →
      srv.clock ≤ now → Move env srv e { srv with runtime, clock := now }
  | record (now : ℕ) (runtime : Runtime .u32) (t : Task) (p : Planned) (rest : List Planned)
      (tightest : Option QuotaContext) : srv.task = some t →
      t.recording = some (p :: rest, tightest) →
      Runtime.Iterated env srv.runtime
        (some (.ingestLocal [(p.limitRequest t).observation .u32])) runtime →
      srv.clock ≤ now →
      Move env srv (.record now)
        { srv with
          runtime
          clock := now
          task := some { t with recording := some (rest, tightest) }
          rejected := srv.rejected ||
            !(srv.runtime.store.ingestRow ((p.limitRequest t).observation .u32) []).2.2.isOk }
  | decide (t : Task) (task : Option Task) (responses : List RateLimitResponse) :
      srv.task = some t → (t.recording = none ∨ ∃ q, t.recording = some ([], q)) →
      (∀ t' ∈ task, t'.recording = none ∧ t'.now = t.now ∧ t'.request = t.request) →
      Move env srv .resume { srv with task, responses }
  | accept (t : Task) (mapped : List Descriptor) (planned : List Planned)
      (tightest : Option QuotaContext) : srv.task = some t → t.recording = none →
      ⟨mapped⟩ ∈ t.request.descriptors →
      evaluate srv.limiter srv.runtime.aggregates (t.request.coreRequest mapped) t.now =
        .ok (planned, tightest) →
      Move env srv .resume
        { srv with
          task := some { t with recording := some (planned, tightest) }
          admitted := srv.admitted ++ [⟨t.request.coreRequest mapped, t.now⟩] }

theorem nextDescriptor_move {t : Task} (ht : srv.task = some t) (hr : t.recording = none) :
    Move env srv .resume (srv.nextDescriptor t) := by
  have hdecide : ∀ d, Move env srv .resume { srv with task := some (t.decide d) } := fun d =>
    .decide t _ _ ht (.inl hr) fun t' ht' => by
      cases ht'
      exact ⟨rfl, rfl, rfl⟩
  unfold nextDescriptor
  split
  · exact .decide t none _ ht (.inl hr) nofun
  · rename_i d hd
    split_ifs
    · exact hdecide _
    · split
      · exact hdecide _
      · rename_i mapped hm
        have hmapped : mapped = d.entries := by
          unfold mapEnvoyDescriptor at hm
          split_ifs at hm
          cases hm
          rfl
        dsimp only
        split
        · exact hdecide _
        · rename_i recording hev
          exact .accept t mapped _ _ ht hr (hmapped ▸ List.mem_of_getElem? hd) hev

/-- A turn of the loop on an arm that brings nothing in. -/
theorem isLocal_tableCall {arm : ArmOutcome} (h : isLocal arm = true) (r : Runtime .u32) (now : ℕ) :
    r.tableCall env now (r.firedArm arm) = none ∨
      r.tableCall env now (r.firedArm arm) = some (.expireAt now) := by
  unfold Runtime.firedArm
  split_ifs
  · exact .inr rfl
  · cases arm with
    | request => cases h
    | inbound => cases h
    | tick => exact .inr rfl
    | writable => exact .inl rfl
    | peerEvent => exact .inl rfl
    | admin => exact .inl rfl

theorem step_move (hs : srv.runtime.sinkBuf = []) (he : srv.runtime.expirationBuf = [])
    (h : srv.step env e = some srv') : Move env srv e srv' := by
  cases e with
  | arrive request now =>
    simp only [step, Bool.and_eq_true, Option.isNone_iff_eq_none, decide_eq_true_eq,
      Option.ite_none_right_eq_some, Option.some.injEq] at h
    obtain ⟨⟨hidle, hnow⟩, rfl⟩ := h
    exact .arrive request now hidle hnow
  | resume =>
    simp only [step, resume] at h
    split at h
    · cases h
    · rename_i t ht
      split at h
      · rename_i hr
        cases h
        exact nextDescriptor_move ht hr
      · rename_i tightest hr
        cases h
        exact .decide t _ _ ht (.inr ⟨tightest, hr⟩) fun t' ht' => by
          cases ht'
          exact ⟨rfl, rfl, rfl⟩
      · cases h
  | record now =>
    simp only [step, Option.ite_none_right_eq_some] at h
    obtain ⟨hnow, h⟩ := h
    unfold record at h
    split at h
    · cases h
    · rename_i t ht
      split at h
      · rename_i p rest tightest hr
        obtain ⟨runtime, hit, rfl⟩ := Option.map_eq_some_iff.1 h
        have hspec := Runtime.iteration_spec hit hs he
        unfold Runtime.firedArm at hspec
        split_ifs at hspec ⊢ with hflush
        · exact .turn _ now runtime _ (.inr rfl) hspec hnow
        · exact .record now runtime t p rest tightest ht hr hspec hnow
      · cases h
  | loop now arm =>
    simp only [step, Bool.and_eq_true, decide_eq_true_eq, Option.ite_none_right_eq_some] at h
    obtain ⟨⟨hnow, harm⟩, h⟩ := h
    obtain ⟨runtime, hit, rfl⟩ := Option.map_eq_some_iff.1 h
    exact .turn _ now runtime _ (isLocal_tableCall harm srv.runtime now)
      (Runtime.iteration_spec hit hs he) hnow

/-! ## What was admitted, and what is still to be recorded -/

/-- The hits the descriptor counts for the rule under a key hash in a bucket. -/
def Admission.counts (x : RuleCrates) (rule : Rule) (keyHash : KeyHash) (bucket : ℕ)
    (a : Admission) : ℕ :=
  if rule.fits x a.request.domain a.request.descriptors = true ∧
    hashKey x rule.id a.request.domain a.request.descriptors = keyHash ∧
    rule.current a.now = bucket then a.request.hits else 0

theorem Admission.counts_le (x : RuleCrates) (rule : Rule) (keyHash : KeyHash) (bucket : ℕ)
    (a : Admission) : a.counts x rule keyHash bucket ≤ a.request.hits := by
  unfold counts
  split_ifs
  · exact le_rfl
  · exact Nat.zero_le _

/-- A descriptor counts only for a rule that it matches, under its key, and in the bucket of its
    time. -/
theorem Admission.of_counts_ne_zero {x : RuleCrates} {rule : Rule} {keyHash : KeyHash} {bucket : ℕ}
    {a : Admission} (h : a.counts x rule keyHash bucket ≠ 0) :
    rule.fits x a.request.domain a.request.descriptors = true ∧
      hashKey x rule.id a.request.domain a.request.descriptors = keyHash ∧
      rule.current a.now = bucket := of_not_not fun hc => h (if_neg hc)

def admittedAt (srv : Server) (rule : Rule) (keyHash : KeyHash) (bucket : ℕ) : ℕ :=
  (srv.admitted.map (Admission.counts srv.limiter.crates rule keyHash bucket)).sum

def Planned.identity (p : Planned) : CellIdentity where
  ruleFingerprint := p.spec.fingerprint
  keyHash := p.keyHash
  bucket := p.bucket

/-- What a list of planned hits adds to an identity. -/
def plannedHits (planned : List Planned) (hits : ℕ) (k : CellIdentity) : ℕ :=
  (planned.map fun p => if p.identity = k then hits else 0).sum

/-- The hits of the task that the loop has not taken yet. -/
def Task.pending (t : Task) (k : CellIdentity) : ℕ :=
  match t.recording with
  | none => 0
  | some (planned, _) => plannedHits planned t.request.hits k

def pendingAt (srv : Server) (k : CellIdentity) : ℕ := (srv.task.map (·.pending k)).getD 0

/-- The sum of the cells of the rule in a bucket. -/
def countedAt (srv : Server) (k : CellIdentity) : ℕ := srv.runtime.store.identityTotal k

/-- No descriptor of the request matches more rules than are looked at. -/
def SharedLimiter.Within (l : SharedLimiter) (request : RateLimitRequest) : Prop :=
  ∀ d ∈ request.descriptors,
    (l.ruleTable.matching l.crates request.domain d.entries).length ≤ maxMatchedRules

/-- What holds of a server between moves, whatever the rule. -/
structure Ready (pins : ℕ → Bool) (l : SharedLimiter) (srv : Server) : Prop where
  limiter : srv.limiter = l
  distinct : (l.ruleTable.map Rule.fingerprint).Nodup
  agree : ∃ applies, srv.runtime.Agree pins applies ∧
    ∀ rule ∈ l.ruleTable, applies rule.fingerprint = true
  holds : ∀ rule ∈ l.ruleTable, ∃ slot, srv.runtime.store.Holds pins slot rule.descriptor
  within : ∀ t ∈ srv.task, l.Within t.request
  task : ∀ t ∈ srv.task, t.now ≤ srv.clock
  times : ∀ a ∈ srv.admitted, a.now ≤ srv.clock ∧ ∀ t ∈ srv.task, a.now ≤ t.now

/-- The account of a rule and key.  Nothing is lost, and no decision is late. -/
def account (srv : Server) (rule : Rule) (keyHash : KeyHash) : Account where
  now := rule.current srv.clock
  admitted := srv.admittedAt rule keyHash
  recorded := fun bucket => srv.countedAt (identityFor rule keyHash bucket)
  pending := fun bucket => srv.pendingAt (identityFor rule keyHash bucket)
  lost := fun _ => 0
  late := fun _ => 0

/-! ## Moves keep what holds of every rule -/

variable {pins : ℕ → Bool} {l : SharedLimiter}

theorem Ready.runtime {call : Option (StoreCall .u32)} {runtime : Runtime .u32} {now : ℕ}
    (h : Ready pins l srv) (hcall : Runtime.LoopCall call)
    (hit : Runtime.Iterated env srv.runtime call runtime) (hnow : srv.clock ≤ now) :
    Ready pins l { srv with runtime, clock := now } := by
  obtain ⟨applies, hagree, happlies⟩ := h.agree
  refine ⟨h.limiter, h.distinct, ⟨applies, hagree.iterated (by decide) hcall hit, happlies⟩,
    fun rule hrule => ?_, h.within, fun t ht => (h.task t ht).trans hnow,
    fun a ha => ⟨(h.times a ha).1.trans hnow, (h.times a ha).2⟩⟩
  obtain ⟨slot, hslot⟩ := h.holds rule hrule
  have hknows : srv.runtime.Knows pins slot rule.descriptor :=
    ⟨hagree.inv, hagree.sinkBuf, hagree.expirationBuf, hslot⟩
  exact ⟨slot, (hknows.iterated hcall hit).holds⟩

theorem Ready.move (h : Ready pins l srv) (hm : Move env srv e srv')
    (hw : ∀ request now, e = .arrive request now → l.Within request) : Ready pins l srv' := by
  cases hm with
  | arrive request now hidle hnow =>
    refine ⟨h.limiter, h.distinct, h.agree, h.holds, ?_, ?_, fun a ha => ⟨?_, ?_⟩⟩
    · rintro t ⟨⟩
      exact hw request now rfl
    · rintro t ⟨⟩
      exact le_rfl
    · exact (h.times a ha).1.trans hnow
    · rintro t ⟨⟩
      exact (h.times a ha).1.trans hnow
  | turn _ now runtime call hcall hit hnow =>
    refine h.runtime ?_ hit hnow
    rcases hcall with rfl | rfl
    · exact .none
    · exact .expireAt now
  | record now runtime t p rest tightest ht hr hit hnow =>
    have hnext := h.runtime (.ingestLocal _) hit hnow
    refine ⟨h.limiter, h.distinct, hnext.agree, hnext.holds, ?_, ?_, fun a ha => ⟨?_, ?_⟩⟩
    · rintro t' ⟨⟩
      exact h.within t ht
    · rintro t' ⟨⟩
      exact (h.task t ht).trans hnow
    · exact (h.times a ha).1.trans hnow
    · rintro t' ⟨⟩
      exact (h.times a ha).2 t ht
  | decide t task responses ht hr htask =>
    refine ⟨h.limiter, h.distinct, h.agree, h.holds, fun t' ht' => ?_, fun t' ht' => ?_,
      fun a ha => ⟨(h.times a ha).1, fun t' ht' => ?_⟩⟩
    · rw [(htask t' ht').2.2]; exact h.within t ht
    · rw [(htask t' ht').2.1]; exact h.task t ht
    · rw [(htask t' ht').2.1]; exact (h.times a ha).2 t ht
  | accept t mapped planned tightest ht hr hd hev =>
    refine ⟨h.limiter, h.distinct, h.agree, h.holds, ?_, ?_, fun a ha => ?_⟩
    · rintro t' ⟨⟩
      exact h.within t ht
    · rintro t' ⟨⟩
      exact h.task t ht
    · rcases List.mem_append.1 ha with ha | ha
      · refine ⟨(h.times a ha).1, ?_⟩
        rintro t' ⟨⟩
        exact (h.times a ha).2 t ht
      · rw [List.mem_singleton] at ha
        subst ha
        refine ⟨h.task t ht, ?_⟩
        rintro t' ⟨⟩
        exact le_rfl

/-! ## What a move does to the counts of a rule -/

variable {rule : Rule} {keyHash : KeyHash}

/-- A handler that waits with no hits has none pending. -/
theorem pendingAt_of_recording {srv : Server} {t : Task} (ht : srv.task = some t)
    (hr : t.recording = none ∨ ∃ q, t.recording = some ([], q)) (k : CellIdentity) :
    srv.pendingAt k = 0 := by
  rw [pendingAt, ht, Option.map_some, Option.getD_some, Task.pending]
  rcases hr with hr | ⟨q, hr⟩ <;> rw [hr]
  rfl

/-- A move that admits nothing: in a live bucket, what is counted or pending does not shrink, or the
    count is at its largest. -/
structure Quiet (rule : Rule) (keyHash : KeyHash) (srv srv' : Server) : Prop where
  limiter : srv'.limiter = srv.limiter
  clock : srv.clock ≤ srv'.clock
  admitted : srv'.admitted = srv.admitted
  accounted : ∀ bucket < 2 ^ 32, rule.current srv'.clock < bucket + rule.liveBuckets →
    srv.countedAt (identityFor rule keyHash bucket) +
        srv.pendingAt (identityFor rule keyHash bucket) ≤
      srv'.countedAt (identityFor rule keyHash bucket) +
        srv'.pendingAt (identityFor rule keyHash bucket) ∨
    u32Max ≤ srv'.countedAt (identityFor rule keyHash bucket)
  counted : ∀ bucket < 2 ^ 32, rule.current srv'.clock < bucket + rule.liveBuckets →
    srv.countedAt (identityFor rule keyHash bucket) ≤
      srv'.countedAt (identityFor rule keyHash bucket)

/-- A move that leaves the runtime alone, of a handler with no hits pending. -/
theorem Quiet.of_runtime (hlimiter : srv'.limiter = srv.limiter) (hclock : srv.clock ≤ srv'.clock)
    (hadmitted : srv'.admitted = srv.admitted) (hruntime : srv'.runtime = srv.runtime)
    (hpending : ∀ k, srv.pendingAt k = 0) : Quiet rule keyHash srv srv' := by
  have hcounted : ∀ k, srv'.countedAt k = srv.countedAt k := fun k => by
    rw [countedAt, countedAt, hruntime]
  refine ⟨hlimiter, hclock, hadmitted, fun bucket _ _ => .inl ?_, fun bucket _ _ =>
    (hcounted _).ge⟩
  rw [hpending, hcounted]
  exact Nat.le_add_right _ _

/-- **A move is quiet**, or it admits a descriptor. -/
theorem Move.quiet_or_accept (hm : Move env srv e srv') (h : Ready pins l srv) (h32 : rule.Fits32)
    (hrule : rule ∈ l.ruleTable) (hrejected : srv'.rejected = false) (keyHash : KeyHash) :
    Quiet rule keyHash srv srv' ∨ ∃ t mapped planned tightest, srv.task = some t ∧
      t.recording = none ∧ ⟨mapped⟩ ∈ t.request.descriptors ∧
      evaluate l srv.runtime.aggregates (t.request.coreRequest mapped) t.now =
        .ok (planned, tightest) ∧
      srv' = { srv with
        task := some { t with recording := some (planned, tightest) }
        admitted := srv.admitted ++ [⟨t.request.coreRequest mapped, t.now⟩] } := by
  obtain ⟨applies, hagree, -⟩ := h.agree
  obtain ⟨slot, hholds⟩ := h.holds rule hrule
  cases hm with
  | arrive request now hidle hnow =>
    refine .inl (.of_runtime rfl hnow rfl rfl fun k => ?_)
    rw [pendingAt, hidle]
    rfl
  | turn _ now runtime call hcall hit hnow =>
    have hle := fun bucket (hb : bucket < 2 ^ 32) hlive => Runtime.Iterated.identityTotal_le
      hagree.inv hholds h32 (hcall.imp_right .inl) hit keyHash hb hlive
    exact .inl ⟨rfl, hnow, rfl,
      fun bucket hb hlive => .inl (Nat.add_le_add_right (hle bucket hb hlive) _), hle⟩
  | record now runtime t p rest tightest ht hr hit hnow =>
    have hok : (srv.runtime.store.ingestRow ((p.limitRequest t).observation .u32) []).2.2.isOk =
        true := (Bool.not_eq_false' _).mp (Bool.or_eq_false_iff.1 hrejected).2
    have hingested := Runtime.Iterated.ingested (p.limitRequest t) hagree.inv hok hit
    refine .inl ⟨rfl, hnow, rfl, fun bucket _ _ => ?_, fun bucket _ _ => (hingested _).1⟩
    -- the hit leaves the pending ones
    have hpending : ∀ k, srv.pendingAt k = (if p.identity = k then t.request.hits else 0) +
        plannedHits rest t.request.hits k := by
      intro k
      rw [pendingAt, ht, Option.map_some, Option.getD_some, Task.pending, hr]
      exact List.sum_cons
    refine (hingested (identityFor rule keyHash bucket)).2.imp_left fun hle => ?_
    rw [hpending]
    change srv.countedAt _ + (if p.identity = _ then t.request.hits else 0) ≤ _ at hle
    show srv.countedAt _ + _ ≤ runtime.store.identityTotal _ + plannedHits rest t.request.hits _
    omega
  | decide t task responses ht hr htask =>
    exact .inl (.of_runtime rfl le_rfl rfl rfl (pendingAt_of_recording ht hr))
  | accept t mapped planned tightest ht hr hd hev =>
    exact .inr ⟨t, mapped, planned, tightest, ht, hr, hd, h.limiter ▸ hev, rfl⟩

/-- The hits planned for a rule's identity are those the descriptor counts for the rule:
    another matching rule has another fingerprint. -/
theorem plannedHits_matching (hdistinct : (l.ruleTable.map Rule.fingerprint).Nodup)
    (hrule : rule ∈ l.ruleTable) (request : LimitRequest) (now : ℕ) (keyHash : KeyHash) {bucket : ℕ}
    (hb : bucket < 2 ^ 32) :
    plannedHits ((l.ruleTable.matching l.crates request.domain request.descriptors).map
        (plan l.crates request now)) request.hits (identityFor rule keyHash bucket) =
      Admission.counts l.crates rule keyHash bucket ⟨request, now⟩ := by
  unfold plannedHits
  rw [List.map_map]
  have hother : ∀ r, r ≠ rule →
      r ∈ l.ruleTable.matching l.crates request.domain request.descriptors →
      ((fun p => if p.identity = identityFor rule keyHash bucket then request.hits else 0) ∘
        plan l.crates request now) r = 0 := by
    intro r hne hr
    refine if_neg fun hid => hne ?_
    exact List.inj_on_of_nodup_map hdistinct (List.mem_filter.1 hr).1 hrule
      (congrArg CellIdentity.ruleFingerprint hid)
  rw [List.sum_map_eq_nsmul_single rule _ hother]
  by_cases hfits : rule.fits l.crates request.domain request.descriptors = true
  · have hcount : (l.ruleTable.matching l.crates request.domain request.descriptors).count rule = 1 := by
      unfold RuleTable.matching
      rw [List.count_filter hfits]
      exact List.count_eq_one_of_mem hdistinct.of_map hrule
    have hid : (plan l.crates request now rule).identity = identityFor rule keyHash bucket ↔
        hashKey l.crates rule.id request.domain request.descriptors = keyHash ∧
          rule.current now = bucket := by
      have hbv : BitVec.ofNat 32 (now / rule.bucketMillis) = BitVec.ofNat 32 bucket ↔
          rule.current now = bucket := by
        rw [← BitVec.toNat_inj, BitVec.toNat_ofNat, BitVec.toNat_ofNat, Nat.mod_eq_of_lt hb]
        rfl
      simp only [Planned.identity, plan, Rule.spec, identityFor, CellIdentity.mk.injEq, true_and, hbv]
    rw [hcount, one_smul, Admission.counts]
    simp only [Function.comp_apply, hid, hfits, true_and]
  · have hcount : (l.ruleTable.matching l.crates request.domain request.descriptors).count rule = 0 :=
      List.count_eq_zero.2 fun hmem => hfits (List.mem_filter.1 hmem).2
    rw [hcount, zero_smul, Admission.counts, if_neg fun h => hfits h.1]

/-- The rows of the aggregates are the counted hits. -/
theorem Ready.countFor (h : Ready pins l srv) (hrule : rule ∈ l.ruleTable) (keyHash : KeyHash)
    (bucket : ℕ) : srv.runtime.aggregates.countFor rule.fingerprint keyHash bucket =
      srv.countedAt (identityFor rule keyHash bucket) := by
  obtain ⟨applies, hagree, happlies⟩ := h.agree
  have happ : srv.runtime.store.appliesTo rule.fingerprint = true :=
    (hagree.applies _).trans (happlies rule hrule)
  rw [DashMapStore.countFor, hagree.aggregates, DashMapStore.getD_ofTotals, CellTable.localTotals]
  exact if_pos happ

/-- What the check of an enforcing rule has read. -/
theorem room_of_evaluate {srv : Server} {request : LimitRequest} {now : ℕ}
    {planned : List Planned} {tightest : Option QuotaContext}
    (hready : Ready pins l srv) (h32 : rule.Fits32) (hrule : rule ∈ l.ruleTable)
    (hmode : rule.mode = .enforce)
    (hcap : (l.ruleTable.matching l.crates request.domain request.descriptors).length ≤
      maxMatchedRules)
    (hev : evaluate l srv.runtime.aggregates request now = .ok (planned, tightest))
    (hfits : rule.fits l.crates request.domain request.descriptors = true)
    (hkey : hashKey l.crates rule.id request.domain request.descriptors = keyHash) :
    ∑ bucket ∈ windowSpan (rule.current now) rule.liveBuckets,
      srv.countedAt (identityFor rule keyHash bucket) + request.hits ≤ rule.limit := by
  unfold evaluate at hev
  split_ifs at hev
  obtain ⟨-, hchecked⟩ := planRules_ok hev (Nat.zero_le _)
  rw [List.length_nil, Nat.sub_zero, List.take_of_length_le hcap] at hchecked
  have hcheck := hchecked rule (List.mem_filter.2 ⟨hrule, hfits⟩) hmode
  have hwindow : windowTotalFor l.crates srv.runtime.aggregates request now rule =
      min (∑ bucket ∈ windowSpan (rule.current now) rule.liveBuckets,
        srv.runtime.aggregates.countFor rule.fingerprint keyHash bucket) u64Max := by
    rw [← hkey]
    exact windowTotal_eq ..
  simp only [hready.countFor hrule] at hwindow
  rw [hwindow] at hcheck
  have hbig : u32Max < u64Max := by decide
  have hlim := h32.limit
  omega

/-- What an admitted descriptor counts is planned. -/
theorem counts_le_plannedHits {counts : DashMapStore} {request : LimitRequest} {now : ℕ}
    {planned : List Planned} {tightest : Option QuotaContext}
    (hdistinct : (l.ruleTable.map Rule.fingerprint).Nodup) (hrule : rule ∈ l.ruleTable)
    (hcap : (l.ruleTable.matching l.crates request.domain request.descriptors).length ≤
      maxMatchedRules)
    (hev : evaluate l counts request now = .ok (planned, tightest)) (bucket : ℕ) :
    Admission.counts l.crates rule keyHash bucket ⟨request, now⟩ ≤
      plannedHits planned request.hits (identityFor rule keyHash bucket) := by
  by_cases hb : bucket < 2 ^ 32
  · unfold evaluate at hev
    split_ifs at hev
    obtain ⟨heq, -⟩ := planRules_ok hev (Nat.zero_le _)
    rw [heq, List.length_nil, Nat.sub_zero, List.nil_append, List.take_of_length_le hcap]
    exact (plannedHits_matching hdistinct hrule request now keyHash hb).ge
  · have hzero : Admission.counts l.crates rule keyHash bucket ⟨request, now⟩ = 0 :=
      not_not.1 fun hne => hb ((Admission.of_counts_ne_zero hne).2.2 ▸ rule.current_lt _)
    exact hzero ▸ Nat.zero_le _

/-! ## Moves keep the account of a rule -/

theorem admittedAt_append (srv : Server) (task : Option Task) (a : Admission) (rule : Rule)
    (keyHash : KeyHash) (bucket : ℕ) :
    { srv with task, admitted := srv.admitted ++ [a] : Server }.admittedAt rule keyHash bucket =
      srv.admittedAt rule keyHash bucket + a.counts srv.limiter.crates rule keyHash bucket := by
  simp only [admittedAt, List.map_append, List.sum_append, List.map_cons, List.map_nil,
    List.sum_cons, List.sum_nil, Nat.add_zero]

/-- Only buckets up to the last admission count hits. -/
theorem le_current_of_admitted {keyHash : KeyHash} {bucket T : ℕ}
    (htimes : ∀ a ∈ srv.admitted, a.now ≤ T) (hfit : T / rule.bucketMillis < 2 ^ 32)
    (h : srv.admittedAt rule keyHash bucket ≠ 0) : bucket ≤ rule.current T := by
  unfold admittedAt at h
  obtain ⟨n, hn, hn0⟩ := List.exists_mem_ne_zero_of_sum_ne_zero h
  obtain ⟨a, ha, rfl⟩ := List.mem_map.1 hn
  rw [← (Admission.of_counts_ne_zero hn0).2.2]
  exact (rule.current_mono (htimes a ha) hfit).1

/-- A quiet move is one of the account. -/
theorem Quiet.account (h : Quiet rule keyHash srv srv')
    (hfit : srv'.clock / rule.bucketMillis < 2 ^ 32) :
    Account.Quiet rule.windows u32Max (srv.account rule keyHash) (srv'.account rule keyHash) := by
  have hadmitted : ∀ bucket, srv'.admittedAt rule keyHash bucket =
      srv.admittedAt rule keyHash bucket := fun bucket => by
    rw [admittedAt, admittedAt, h.admitted, h.limiter]
  refine ⟨(rule.current_mono h.clock hfit).1, fun bucket => (hadmitted bucket).le, fun _ => le_rfl,
    fun _ => le_rfl, fun bucket hb => ?_, fun bucket hb hcap => ?_⟩
  · obtain ⟨hle, hlive⟩ := mem_windowSpan.1 hb
    refine (h.accounted bucket (hle.trans_lt (rule.current_lt _)) hlive).imp_left fun hle => ?_
    show srv'.admittedAt rule keyHash bucket + (srv.countedAt _ + srv.pendingAt _ + 0) ≤
      srv.admittedAt rule keyHash bucket + (srv'.countedAt _ + srv'.pendingAt _ + 0)
    rw [hadmitted]
    omega
  · obtain ⟨hle, hlive⟩ := mem_windowSpan.1 hb
    exact hcap.trans (h.counted bucket (hle.trans_lt (rule.current_lt _)) hlive)

/-- **A descriptor is admitted**: a decision. -/
theorem Ready.accept (h : Ready pins l srv) (h32 : rule.Fits32) (hrule : rule ∈ l.ruleTable)
    (hmode : rule.mode = .enforce) (hfit : srv.clock / rule.bucketMillis < 2 ^ 32) {t : Task}
    {mapped : List Descriptor} {planned : List Planned} {tightest : Option QuotaContext}
    (ht : srv.task = some t) (hr : t.recording = none) (hd : ⟨mapped⟩ ∈ t.request.descriptors)
    (hev : evaluate l srv.runtime.aggregates (t.request.coreRequest mapped) t.now =
      .ok (planned, tightest))
    (hw : rule.Bounds 0 (srv.account rule keyHash)) :
    rule.Bounds 0 ({ srv with
      task := some { t with recording := some (planned, tightest) }
      admitted := srv.admitted ++ [⟨t.request.coreRequest mapped, t.now⟩] : Server }.account
        rule keyHash) := by
  have hcap : (l.ruleTable.matching l.crates (t.request.coreRequest mapped).domain
      (t.request.coreRequest mapped).descriptors).length ≤ maxMatchedRules := h.within t ht _ hd
  have hpending := pendingAt_of_recording ht (.inl hr)
  refine hw.decided (rule.current t.now) (fun bucket =>
    Admission.counts l.crates rule keyHash bucket ⟨t.request.coreRequest mapped, t.now⟩)
    h32.limit ⟨rfl,
    (rule.current_mono (h.task t ht) hfit).1,
    fun _ hne => (Admission.of_counts_ne_zero hne).2.2.symm, fun bucket => ?_, fun _ => rfl,
    fun bucket => ?_, fun _ => rfl, fun _ => le_rfl, fun b hb hne => ?_, fun hne => ?_, fun _ => ?_⟩
  · rw [← h.limiter]
    exact srv.admittedAt_append _ _ rule keyHash bucket
  · show srv.pendingAt _ + _ ≤ plannedHits planned t.request.hits _
    rw [hpending, Nat.zero_add]
    exact counts_le_plannedHits h.distinct hrule hcap hev bucket
  · -- no request has come after this one
    have hfit' : t.now / rule.bucketMillis < 2 ^ 32 :=
      (Nat.div_le_div_right (h.task t ht)).trans_lt hfit
    have hle := le_current_of_admitted (fun a ha => (h.times a ha).2 t ht) hfit' hne
    exact absurd hb hle.not_gt
  · obtain ⟨hfits, hkey, -⟩ := Admission.of_counts_ne_zero hne
    exact (Nat.add_le_add_left (Admission.counts_le ..) _).trans
      (room_of_evaluate h h32 hrule hmode hcap hev hfits hkey)
  · exact (Finset.sum_eq_zero fun bucket _ => hpending _).le

/-- **One move** keeps the account of an enforcing rule. -/
theorem Ready.account_move (h : Ready pins l srv) (hm : Move env srv e srv') (h32 : rule.Fits32)
    (hrule : rule ∈ l.ruleTable) (hmode : rule.mode = .enforce)
    (hfit : srv'.clock / rule.bucketMillis < 2 ^ 32) (hrejected : srv'.rejected = false)
    (hw : rule.Bounds 0 (srv.account rule keyHash)) :
    rule.Bounds 0 (srv'.account rule keyHash) := by
  rcases hm.quiet_or_accept h h32 hrule hrejected keyHash with hquiet |
    ⟨t, mapped, planned, tightest, ht, hr, hd, hev, rfl⟩
  · exact hw.quiet (hquiet.account hfit)
  · exact h.accept h32 hrule hmode hfit ht hr hd hev hw

/-! ## Runs -/

theorem Move.mono (h : Move env srv e srv') :
    srv.clock ≤ srv'.clock ∧ (srv'.rejected = false → srv.rejected = false) := by
  cases h with
  | arrive request now hidle hnow => exact ⟨hnow, id⟩
  | turn _ now runtime call hcall hit hnow => exact ⟨hnow, id⟩
  | record now runtime t p rest tightest ht hr hit hnow =>
    exact ⟨hnow, fun h => (Bool.or_eq_false_iff.1 h).1⟩
  | decide => exact ⟨le_rfl, id⟩
  | accept => exact ⟨le_rfl, id⟩

theorem Ready.step (h : Ready pins l srv) (hs : srv.step env e = some srv') :
    Move env srv e srv' := by
  obtain ⟨applies, hagree, -⟩ := h.agree
  exact step_move hagree.sinkBuf hagree.expirationBuf hs

/-- What a run keeps for an enforcing rule and a key. -/
structure Kept (pins : ℕ → Bool) (l : SharedLimiter) (rule : Rule) (keyHash : KeyHash)
    (srv : Server) : Prop where
  ready : Ready pins l srv
  bounds : srv.rejected = false → srv.clock / rule.bucketMillis < 2 ^ 32 →
    rule.Bounds 0 (srv.account rule keyHash)

theorem Kept.step (h : Kept pins l rule keyHash srv) (h32 : rule.Fits32)
    (hrule : rule ∈ l.ruleTable) (hmode : rule.mode = .enforce)
    (hw : ∀ request now, e = .arrive request now → l.Within request)
    (hs : srv.step env e = some srv') : Kept pins l rule keyHash srv' := by
  have hm := h.ready.step hs
  refine ⟨h.ready.move hm hw, fun hrejected hfit => ?_⟩
  have hfit₀ := (Nat.div_le_div_right hm.mono.1).trans_lt hfit
  exact h.ready.account_move hm h32 hrule hmode hfit hrejected
    (h.bounds (hm.mono.2 hrejected) hfit₀)

end Server

/-! ## The start -/

namespace CellStore

variable {w : CountWidth} {s : CellStore w}

theorem new_ruleCapacity_lt {config : CellStoreConfig} {id : NodeIdentity}
    (h : new w config id = some s) : s.ruleDictionary.capacity < 2 ^ 16 - 1 := by
  unfold new at h
  split_ifs at h
  simp only [Option.bind_eq_bind, Option.bind_eq_some_iff, Option.pure_def, Option.some.injEq] at h
  obtain ⟨-, -, -, -, -, -, -, -, rules, hrules, rfl⟩ := h
  obtain ⟨-, hcap, -⟩ := Dictionary.withCapacity_spec hrules
  unfold Dictionary.withCapacity at hrules
  split_ifs at hrules with hbad
  push Not at hbad
  exact hcap.trans_lt hbad.2

theorem internRule_ruleCapacity (s : CellStore w) (d : RuleDescriptor) :
    (s.internRule d).1.ruleDictionary.capacity = s.ruleDictionary.capacity := by
  have hintern : (RuleDictionary.intern s.ruleDictionary d).1.capacity = s.ruleDictionary.capacity := by
    unfold RuleDictionary.intern Dictionary.internFresh
    split
    · rfl
    · split <;> rfl
  unfold internRule
  dsimp only
  split
  · rename_i rules slot he
    rw [he] at hintern
    split_ifs
    · exact hintern
    · exact hintern
  · rfl

end CellStore

theorem registerRules_ruleCapacity : ∀ {table : RuleTable} {s s' : CellStore .u32},
    registerRules s table = some s' → s'.ruleDictionary.capacity = s.ruleDictionary.capacity
  | [], _, _, h => by cases h; rfl
  | rule :: rest, s, s', h => by
    unfold registerRules at h
    split at h
    · rename_i s₁ r he
      have hcap := s.internRule_ruleCapacity rule.descriptor
      rw [he] at hcap
      exact (registerRules_ruleCapacity h).trans hcap
    · cases h

/-- Rules with distinct fingerprints take a slot each. -/
theorem length_le_ruleCapacity {pins : ℕ → Bool} {s : CellStore .u32} {table : RuleTable}
    (hinv : s.toCellTable.Inv pins) (hdistinct : (table.map Rule.fingerprint).Nodup)
    (hholds : ∀ rule ∈ table, ∃ slot, s.Holds pins slot rule.descriptor) :
    table.length ≤ s.ruleDictionary.capacity := by
  have hfind : ∀ fp ∈ (table.map Rule.fingerprint).toFinset, ∃ slot < s.ruleDictionary.capacity,
      s.ruleDictionary.find fp = some slot ∧ (s.ruleDictionary.descriptors slot).fingerprint = fp := by
    intro fp hfp
    obtain ⟨rule, hrule, rfl⟩ := List.mem_map.1 (List.mem_toFinset.1 hfp)
    obtain ⟨slot, hslot⟩ := hholds rule hrule
    refine ⟨slot, hinv.rules.live_lt hslot.live, hinv.rules.find_iff.2 ⟨hslot.live, ?_⟩, ?_⟩
    · rw [hslot.desc]; rfl
    · rw [hslot.desc]; rfl
  calc table.length = (table.map Rule.fingerprint).toFinset.card := by
        rw [List.toFinset_card_of_nodup hdistinct, List.length_map]
    _ ≤ (Finset.range s.ruleDictionary.capacity).card := by
        refine Finset.card_le_card_of_injOn (fun fp => (s.ruleDictionary.find fp).getD 0) ?_ ?_
        · intro fp hfp
          obtain ⟨slot, hlt, hf, -⟩ := hfind fp hfp
          simp only [hf, Option.getD_some]
          exact Finset.mem_coe.2 (Finset.mem_range.2 hlt)
        · intro fp hfp fp' hfp' heq
          obtain ⟨slot, -, hf, hd⟩ := hfind fp hfp
          obtain ⟨slot', -, hf', hd'⟩ := hfind fp' hfp'
          simp only [hf, hf', Option.getD_some] at heq
          rw [← hd, ← hd', heq]
    _ = s.ruleDictionary.capacity := Finset.card_range _

namespace Server

variable {env : Platform} {x : RuleCrates} {limits : List LimitRuleConfig} {table : RuleTable}
  {config : CellStoreConfig} {node : NodeIdentity} {s₀ s : CellStore .u32}

/-- **Registered rules** with the ids of their places are held by their slots and apply locally. -/
theorem registered_apply (hnumbered : ∀ (i : ℕ) (rule : Rule), table[i]? = some rule →
      rule.id = (i + 1) % 2 ^ 32) (hdistinct : (table.map Rule.fingerprint).Nodup)
    (hnew : CellStore.new .u32 config node = some s₀) (hreg : registerRules s₀ table = some s) :
    ∃ pins, s.Registering pins ∧ (∀ rule ∈ table, ∃ slot, s.Holds pins slot rule.descriptor) ∧
      ∀ rule ∈ table, s.appliesTo rule.fingerprint = true := by
  obtain ⟨pins₀, hstart⟩ := CellStore.internRules_registering hnew []
  obtain ⟨pins, hready, hlast, -⟩ := registerRules_holds hstart hreg
  have hholds : ∀ rule ∈ table, ∃ slot, s.Holds pins slot rule.descriptor := fun rule hrule =>
    hlast _ _ (lastRule_of_distinct hdistinct hrule)
  refine ⟨pins, hready, hholds, fun rule hrule => ?_⟩
  -- an id that stands for wire-only rules would need a table longer than any dictionary
  have hlen : table.length < 2 ^ 16 - 1 :=
    (length_le_ruleCapacity hready.inv hdistinct hholds).trans_lt
      ((registerRules_ruleCapacity hreg).trans_lt (CellStore.new_ruleCapacity_lt hnew))
  obtain ⟨slot, hslot⟩ := hholds rule hrule
  obtain ⟨i, hi, hget⟩ := List.mem_iff_getElem.1 hrule
  have hne : rule.id ≠ u32Max := by
    rw [hnumbered i rule (List.getElem?_eq_some_iff.2 ⟨hi, hget⟩), u32Max]
    omega
  refine (hslot.appliesTo hready.inv rfl).trans ?_
  simpa [RuleDescriptor.appliesLocally, Rule.descriptor] using hne

/-- A server whose rules come from the configuration is ready. -/
theorem ready_start (htable : ruleTable x limits = .ok table)
    (hdistinct : (table.map Rule.fingerprint).Nodup) (hnew : CellStore.new .u32 config node = some s₀)
    (hreg : registerRules s₀ table = some s) (gossip : GossipConfig)
    (cardinalityLimits : CardinalityLimits) : ∃ pins, Ready pins ⟨x, table, cardinalityLimits⟩
      (start ⟨x, table, cardinalityLimits⟩ (.fromParts gossip s .empty)) := by
  obtain ⟨pins, hready, hholds, happlies⟩ :=
    registered_apply (fun _ _ hi => ruleTable_get htable hi) hdistinct hnew hreg
  refine ⟨pins, ⟨rfl, hdistinct, ⟨_, Runtime.agree_fromParts hready gossip, happlies⟩, hholds, ?_,
    ?_, ?_⟩⟩
  · rintro t ⟨⟩
  · rintro t ⟨⟩
  · rintro a ⟨⟩

/-- The hits of the admitted descriptors with this key that fall in the rule's live buckets
    at time `t`. -/
def admittedHits (srv : Server) (rule : Rule) (domain : String) (descriptors : List Descriptor)
    (t : ℕ) : ℕ :=
  ((srv.admitted.filter fun a => a.request.domain = domain ∧ a.request.descriptors = descriptors ∧
    rule.inWindow t (BitVec.ofNat 32 (a.now / rule.bucketMillis))).map (·.request.hits)).sum

/-- The hits of a key are among those of its hash, bucket by bucket. -/
theorem admittedHits_le {rule : Rule} {domain : String} {descriptors : List Descriptor} {t : ℕ}
    (srv : Server) (hfits : rule.fits srv.limiter.crates domain descriptors = true) :
    srv.admittedHits rule domain descriptors t ≤
      ∑ bucket ∈ windowSpan (rule.current t) rule.liveBuckets, srv.admittedAt rule
        (hashKey srv.limiter.crates rule.id domain descriptors) bucket := by
  unfold admittedHits admittedAt
  induction srv.admitted with
  | nil => exact Nat.zero_le _
  | cons a rest ih =>
    simp only [List.map_cons, List.sum_cons, Finset.sum_add_distrib]
    by_cases ha : a.request.domain = domain ∧ a.request.descriptors = descriptors ∧
        rule.inWindow t (BitVec.ofNat 32 (a.now / rule.bucketMillis))
    · rw [List.filter_cons, if_pos (by simpa using ha), List.map_cons, List.sum_cons]
      refine Nat.add_le_add ?_ ih
      obtain ⟨rfl, rfl, hwin⟩ := ha
      rw [Rule.inWindow, BitVec.toNat_ofNat] at hwin
      have hcounts : a.request.hits = a.counts srv.limiter.crates rule
          (hashKey srv.limiter.crates rule.id a.request.domain a.request.descriptors)
          (rule.current a.now) := (if_pos ⟨hfits, rfl, rfl⟩).symm
      rw [hcounts]
      exact Finset.single_le_sum (f := fun bucket => a.counts srv.limiter.crates rule _ bucket)
        (fun _ _ => Nat.zero_le _) (mem_windowSpan.2 hwin)
    · rw [List.filter_cons, if_neg (by simpa using ha)]
      exact ih.trans (Nat.le_add_left _ _)

/-- **A single node enforces its limits.**  The rules of a configuration, with distinct
    fingerprints, are registered and the server runs: requests one after another, any turns
    of the loop in between that bring nothing from peers, under one clock that never goes
    back.  If no hit was rejected for capacity and no descriptor matches more rules than are
    looked at, then for an enforcing rule and a key it matches, the admitted hits in the
    rule's live buckets are within the limit, now and at every later time. -/
theorem single_node_enforces (env : Platform) (htable : ruleTable x limits = .ok table)
    (hdistinct : (table.map Rule.fingerprint).Nodup) (hnew : CellStore.new .u32 config node = some s₀)
    (hreg : registerRules s₀ table = some s) (gossip : GossipConfig)
    (cardinalityLimits : CardinalityLimits) (events : List Event)
    (hwithin : ∀ request now, .arrive request now ∈ events → ∀ d ∈ request.descriptors,
      (table.matching x request.domain d.entries).length ≤ maxMatchedRules)
    {srv : Server} (hrun : (start ⟨x, table, cardinalityLimits⟩ (.fromParts gossip s .empty)).run env
      events = some srv) (hrejected : srv.rejected = false) {rule : Rule} (hrule : rule ∈ table)
    (h32 : rule.Fits32) (hmode : rule.mode = .enforce) {domain : String}
    {descriptors : List Descriptor} (hfits : rule.fits x domain descriptors = true) (t : ℕ)
    (ht : srv.clock ≤ t) (hepoch : t / rule.bucketMillis < 2 ^ 32) :
    srv.admittedHits rule domain descriptors t ≤ rule.limit := by
  obtain ⟨pins, hready⟩ := ready_start htable hdistinct hnew hreg gossip cardinalityLimits
  have hfit : srv.clock / rule.bucketMillis < 2 ^ 32 := (Nat.div_le_div_right ht).trans_lt hepoch
  have hstart : Kept pins ⟨x, table, cardinalityLimits⟩ rule (hashKey x rule.id domain descriptors)
      (start ⟨x, table, cardinalityLimits⟩ (.fromParts gossip s .empty)) :=
    ⟨hready, fun _ _ => Account.within_zero _ _ _ _ _⟩
  obtain ⟨hready, hbounds⟩ := run_induct (fun e he _ _ h hs => h.step h32 hrule hmode
    (fun request now hr => hwithin request now (hr ▸ he)) hs) hstart hrun
  have hle := admittedHits_le (t := t) srv (by rw [hready.limiter]; exact hfits)
  have hbound := (hbounds hrejected hfit).bound (rule.current t) (rule.current_mono ht hepoch).1
  rw [hready.limiter] at hle
  simp only [account, Finset.sum_const_zero, Nat.add_zero] at hbound
  exact hle.trans hbound

/-! ### Three requests against ten a second -/

def tinyLimits : CardinalityLimits where
  maxDescriptorCount := 16
  maxDescriptorBytes := 512
  maxKeyBytes := 128

def aliceRequest (hits : ℕ) : RateLimitRequest where
  domain := "api"
  descriptors := [⟨[⟨"user", "alice"⟩]⟩]
  hitsAddend := hits

/-- Six hits are admitted; six more are not; four are, after a tick. -/
def aliceEvents : List Event :=
  [.arrive (aliceRequest 6) 5000, .resume, .record 5000, .loop 5001 .tick, .resume, .resume,
    .arrive (aliceRequest 6) 5100, .resume, .resume, .loop 5200 .tick,
    .arrive (aliceRequest 4) 5300, .resume, .record 5300, .resume, .resume]

theorem single_node_enforces_alice : ∃ (srv : Server) (rule : Rule) (table : RuleTable)
    (s₀ s : CellStore .u32), ruleTable Runtime.tinyCrates [Runtime.burst] = .ok table ∧
      rule ∈ table ∧ CellStore.new .u32 CellStore.tinyConfig CellStore.tinyNode = some s₀ ∧
      registerRules s₀ table = some s ∧
      (start ⟨Runtime.tinyCrates, table, tinyLimits⟩ (.fromParts Runtime.tinyGossip s .empty)).run
        Runtime.tinyPlatform aliceEvents = some srv ∧ srv.rejected = false ∧
      srv.responses.map (·.overallCode) = [.ok, .overLimit, .ok] ∧
      srv.admittedHits rule "api" [⟨"user", "alice"⟩] 5400 = 10 ∧
      srv.admittedHits rule "api" [⟨"user", "alice"⟩] 5400 ≤ rule.limit := by
  have heval : ((Runtime.registered [Runtime.burst]).bind fun (rule, table, s) =>
      ((start ⟨Runtime.tinyCrates, table, tinyLimits⟩
        (.fromParts Runtime.tinyGossip s .empty)).run Runtime.tinyPlatform aliceEvents).map
          fun srv => (srv.rejected, srv.responses.map (·.overallCode),
            srv.admittedHits rule "api" [⟨"user", "alice"⟩] 5400, srv.clock,
            decide (table.length ≤ 16 ∧ (table.map Rule.fingerprint).Nodup ∧
              rule.limit ≤ u32Max ∧ rule.windowMillis ≤ u32Max ∧ rule.bucketMillis ≤ u32Max ∧
              rule.mode = .enforce ∧
              rule.fits Runtime.tinyCrates "api" [⟨"user", "alice"⟩] = true ∧
              5400 / rule.bucketMillis < 2 ^ 32))) =
      some (false, [.ok, .overLimit, .ok], 10, 5300, true) := by decide +kernel
  obtain ⟨⟨rule, table, s⟩, hreg, hrest⟩ := Option.bind_eq_some_iff.1 heval
  obtain ⟨srv, hrun, hvals⟩ := Option.map_eq_some_iff.1 hrest
  simp only [Prod.mk.injEq, decide_eq_true_eq] at hvals
  obtain ⟨hrejected, hcodes, hhits, hclock, hlen, hdistinct, hl, hw, hb, hmode, hfits, hepoch⟩ := hvals
  obtain ⟨s₀, htable, hrule, hnew, hreg⟩ := Runtime.registered_spec hreg
  refine ⟨srv, rule, table, s₀, s, htable, hrule, hnew, hreg, hrun, hrejected, hcodes, hhits, ?_⟩
  refine single_node_enforces Runtime.tinyPlatform htable hdistinct hnew hreg Runtime.tinyGossip
    tinyLimits aliceEvents (fun request now _ d _ => ?_) hrun hrejected hrule ⟨hl, hw, hb⟩ hmode hfits
    5400 (by omega) hepoch
  exact (List.length_filter_le _ _).trans hlen

end Server

end Gabion

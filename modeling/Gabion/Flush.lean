/-
  Flushes that an error budget fires (`handle_limit_request`, the end of `handle_gossip_tick`, and
  the head of the loop in `run`).

  A request adds its hits to the pending hits of its rule.  Above the budget, and at least
  `min_emit_interval` after the last emission of the rule, the loop fires a tick before it waits
  again; a tick that gets past its early return clears the pending hits and stamps the clock.
  `RuleWatch` is what an observer of a run notes of one rule, without the counters of the runtime;
  `Watched` says that the counters agree with the notes.  `threshold_flush` is read off that: the
  flushes keep their distance as long as the interval fits 64 bits, and one is missed in a single
  case, after an emission at clock zero, which is stamped as one.
-/
import Gabion.Retention

namespace Gabion

open Function

/-- The number of hits a rule may hold back: `max(1, limit * bps / (10000 * max(1, peers)))`. -/
def errorBudget (limit bps peers : ℕ) : ℕ := max 1 (limit * bps / (10000 * max 1 peers))

/-- What an observer of a run notes of one rule. -/
structure RuleWatch where
  /-- hits requested since the last full tick -/
  hits : ℕ
  /-- the clock at the last full tick that found such hits -/
  emitted : Option ℕ
  /-- the clocks of the full ticks that requests of the rule have fired, latest first -/
  fired : List ℕ
  /-- the last iteration was a request of the rule, and a flush is wanted after it -/
  armed : Bool
deriving DecidableEq, Repr

namespace RuleWatch

def start : RuleWatch where
  hits := 0
  emitted := none
  fired := []
  armed := false

/-- The hits exceed the budget, and the last emission is at least the interval ago. -/
def Due (watch : RuleWatch) (budget interval now : ℕ) : Prop :=
  budget < watch.hits ∧ ∀ t ∈ watch.emitted, t + interval ≤ now

end RuleWatch

namespace Runtime

variable {w : CountWidth} {env : Platform} {r r' : Runtime w} {pins : ℕ → Bool}
  {d : RuleDescriptor} {fp : Fingerprint} {slot floor clock now : ℕ} {arm : ArmOutcome}
  {req : LimitRequest} {watch : RuleWatch}

/-- A tick gets past its early return. -/
def FullTick (r : Runtime w) (now : ℕ) : Prop :=
  ¬ ((r.expireTick now).store.activeLen = 0 ∨ (r.expireTick now).peers = [] ∨
    (r.expireTick now).sendFree = [])

instance (r : Runtime w) (now : ℕ) : Decidable (r.FullTick now) := inferInstanceAs (Decidable (¬ _))

/-- The notes after an iteration that has led to `r'`. -/
def noteArm (fp : Fingerprint) (r : Runtime w) (now : ℕ) (r' : Runtime w) (watch : RuleWatch) :
    ArmOutcome → RuleWatch
  | .tick =>
    if r.FullTick now then
      { hits := 0
        emitted := if watch.hits = 0 then watch.emitted else some now
        fired := if watch.armed then now :: watch.fired else watch.fired
        armed := false }
    else { watch with armed := false }
  | .request (some (.limit req)) =>
    if req.ruleFingerprint = fp then
      { watch with hits := watch.hits + req.hits, armed := r'.wantImmediateFlush }
    else { watch with armed := false }
  | _ => { watch with armed := false }

/-- The notes of a run. -/
def watchRun (env : Platform) (fp : Fingerprint) :
    Runtime w → List (ℕ × ArmOutcome) → RuleWatch → RuleWatch
  | _, [], watch => watch
  | r, (now, arm) :: rest, watch =>
    (r.iteration env now arm).elim watch fun r' =>
      watchRun env fp r' rest (r.noteArm fp now r' watch (r.firedArm arm))

/-! ## What an iteration does to the counters -/

/-- The counters of the error budget stay. -/
structure SameBudget (r r' : Runtime w) : Prop where
  pending : r'.rulePending = r.rulePending
  stamps : r'.ruleLastEmitMs = r.ruleLastEmitMs
  flush : r'.wantImmediateFlush = r.wantImmediateFlush

theorem SameBudget.refl (r : Runtime w) : SameBudget r r := ⟨rfl, rfl, rfl⟩

theorem SameBudget.trans {r₁ : Runtime w} (h : SameBudget r r₁) (h' : SameBudget r₁ r') :
    SameBudget r r' :=
  ⟨h'.pending.trans h.pending, h'.stamps.trans h.stamps, h'.flush.trans h.flush⟩

theorem gossip_sameBudget (peers : List ℕ) (r : Runtime w) :
    SameBudget r (peers.foldl (gossipTo env) r) := by
  refine gossip_induct .refl .trans (fun r maxCells dest => ⟨rfl, rfl, rfl⟩) (fun r dst handles => ?_)
    peers r
  unfold encodePacketsFor
  split
  · exact .refl r
  · exact ⟨rfl, rfl, rfl⟩

theorem handleGossipTick_full (h : r.FullTick now) :
    SameBudget (r.resetPending now) (r.handleGossipTick env now) := by
  unfold handleGossipTick
  dsimp only
  rw [if_neg h]
  generalize (r.expireTick now).pickCount env = n
  have hgossip : SameBudget ((r.expireTick now).pickPeers n)
      ((List.range n).foldl (gossipTo env) ((r.expireTick now).pickPeers n)) :=
    gossip_sameBudget (List.range n) _
  refine ⟨rfl, ?_, hgossip.flush⟩
  unfold resetPending
  dsimp only
  rw [hgossip.pending, hgossip.stamps]
  rfl

theorem handleGossipTick_early (h : ¬ r.FullTick now) :
    SameBudget r (r.handleGossipTick env now) := by
  unfold handleGossipTick
  dsimp only
  rw [if_pos (not_not.1 h)]
  exact ⟨rfl, rfl, rfl⟩

theorem finish_sameBudget (r : Runtime w) : SameBudget r r.finish := by
  unfold finish
  dsimp only
  split_ifs <;> exact ⟨rfl, rfl, rfl⟩

/-- **What an iteration can do** to the counters. -/
inductive BudgetStep (r : Runtime w) (now : ℕ) (r' : Runtime w) : ArmOutcome → Prop
  | full (hfull : r.FullTick now) (hpending : r'.rulePending = fun _ => 0)
      (hstamps : r'.ruleLastEmitMs = (r.resetPending now).ruleLastEmitMs)
      (hflush : r'.wantImmediateFlush = false) : BudgetStep r now r' .tick
  | early (hearly : ¬ r.FullTick now) (hpending : r'.rulePending = r.rulePending)
      (hstamps : r'.ruleLastEmitMs = r.ruleLastEmitMs)
      (hflush : r'.wantImmediateFlush = false) : BudgetStep r now r' .tick
  | request (req : LimitRequest) (hwait : r.wantImmediateFlush = false)
      (hsame : SameBudget (r.noteHits now req) r') :
      BudgetStep r now r' (.request (some (.limit req)))
  | other (arm : ArmOutcome) (hsame : SameBudget r r')
      (hnote : ∀ fp watch, r.noteArm fp now r' watch arm = { watch with armed := false }) :
      BudgetStep r now r' arm

theorem tick_budgetStep {r₁ : Runtime w} (hpending : r₁.rulePending = r.rulePending)
    (hstamps : r₁.ruleLastEmitMs = r.ruleLastEmitMs) (hflush : r₁.wantImmediateFlush = false)
    (hfull : r₁.FullTick now ↔ r.FullTick now) :
    BudgetStep r now (r₁.handleGossipTick env now).finish .tick := by
  have hfinish := finish_sameBudget (r₁.handleGossipTick env now)
  by_cases h : r.FullTick now
  · have htick : SameBudget (r₁.resetPending now) (r₁.handleGossipTick env now).finish :=
      (handleGossipTick_full (hfull.2 h)).trans hfinish
    refine .full h htick.pending (htick.stamps.trans ?_) (htick.flush.trans hflush)
    unfold resetPending
    dsimp only
    rw [hpending, hstamps]
  · have htick : SameBudget r₁ (r₁.handleGossipTick env now).finish :=
      (handleGossipTick_early fun h' => h (hfull.1 h')).trans hfinish
    exact .early h (htick.pending.trans hpending) (htick.stamps.trans hstamps)
      (htick.flush.trans hflush)

theorem handleInbound_sameBudget (r : Runtime w) (bytes : List UInt8) (src : SocketAddr) :
    SameBudget r (r.handleInbound env bytes src) := by
  unfold handleInbound
  dsimp only
  split
  · exact ⟨rfl, rfl, rfl⟩
  · split <;> exact ⟨rfl, rfl, rfl⟩

theorem drainOneSend_sameBudget {result : SendResult} (h : r.drainOneSend result = some r') :
    SameBudget r r' := by
  unfold drainOneSend at h
  split at h
  · cases h
    exact .refl r
  · cases result with
    | ok =>
      cases h
      exact ⟨rfl, rfl, rfl⟩
    | wouldBlock =>
      cases h
      exact .refl r
    | failed => cases h

theorem handlePeerEvent_sameBudget (r : Runtime w) (evt : PeerEvent) :
    SameBudget r (r.handlePeerEvent evt) := by
  cases evt with
  | added addr =>
    simp only [handlePeerEvent]
    split_ifs <;> exact ⟨rfl, rfl, rfl⟩
  | removed addr =>
    simp only [handlePeerEvent]
    split
    · exact .refl r
    · split <;> exact ⟨rfl, rfl, rfl⟩

theorem iteration_budgetStep (hr : r.iteration env now arm = some r') :
    BudgetStep r now r' (r.firedArm arm) := by
  unfold firedArm
  unfold iteration at hr
  split_ifs at hr ⊢ with hflush
  · cases hr
    exact tick_budgetStep rfl rfl rfl Iff.rfl
  have hwait : r.wantImmediateFlush = false := Bool.eq_false_iff.2 hflush
  obtain ⟨r₁, h₁, rfl⟩ := Option.map_eq_some_iff.1 hr
  have hfinish := finish_sameBudget r₁
  cases arm with
  | request req =>
    rcases req with _ | (req | _)
    · cases h₁
    · cases h₁
      have hsame : SameBudget (r.noteHits now req) (r.handleLimitRequest now req) :=
        ⟨rfl, rfl, rfl⟩
      exact .request req hwait (hsame.trans hfinish)
    · cases h₁
  | inbound recv =>
    rcases recv with _ | ⟨datagram, src⟩
    · cases h₁
    · cases h₁
      exact .other _ ((handleInbound_sameBudget r _ src).trans hfinish) fun _ _ => rfl
  | writable result =>
    exact .other _ ((drainOneSend_sameBudget h₁).trans hfinish) fun _ _ => rfl
  | peerEvent evt =>
    rcases evt with _ | evt
    · cases h₁
      exact .other _ hfinish fun _ _ => rfl
    · cases h₁
      exact .other _ ((handlePeerEvent_sameBudget r evt).trans hfinish) fun _ _ => rfl
  | admin =>
    cases h₁
    exact .other _ hfinish fun _ _ => rfl
  | tick =>
    cases h₁
    exact tick_budgetStep rfl rfl hwait Iff.rfl

/-! ## Requests -/

/-- The budget as `handle_limit_request` computes it. -/
def epsilonOf (r : Runtime w) (req : LimitRequest) : ℕ :=
  max (min (max req.ruleLimit 1 * max r.config.targetErrBps 1) u64Max /
    (10000 * max r.peers.length 1)) 1

/-- The pending hits of the slot after the request. -/
def pendingAfter (r : Runtime w) (req : LimitRequest) (slot : ℕ) : ℕ :=
  min (r.rulePending slot + min req.hits u32Max) u32Max

theorem noteHits_of_find (now : ℕ)
    (hfind : r.store.ruleDictionary.find req.ruleFingerprint = some slot)
    (hwait : r.wantImmediateFlush = false) :
    (r.noteHits now req).rulePending = update r.rulePending slot (r.pendingAfter req slot) ∧
      (r.noteHits now req).ruleLastEmitMs = r.ruleLastEmitMs ∧
      ((r.noteHits now req).wantImmediateFlush = true ↔ r.epsilonOf req < r.pendingAfter req slot ∧
        (r.ruleLastEmitMs slot = 0 ∨
          r.config.minEmitIntervalMillis ≤ now - r.ruleLastEmitMs slot)) := by
  unfold noteHits
  rw [hfind]
  refine ⟨rfl, rfl, ?_⟩
  simp only [hwait, Bool.false_or, Bool.and_eq_true, decide_eq_true_eq, Bool.or_eq_true, beq_iff_eq,
    epsilonOf, pendingAfter, gt_iff_lt, ge_iff_le]

theorem noteHits_of_none (hfind : r.store.ruleDictionary.find req.ruleFingerprint = none) :
    r.noteHits now req = r := by
  unfold noteHits
  rw [hfind]

/-- Nothing saturates and nothing is clamped in the budget of a limit below `2 ^ 31`. -/
theorem epsilonOf_eq (hlimit : req.ruleLimit < 2 ^ 31) (hbps : 1 ≤ r.config.targetErrBps)
    (hbps' : r.config.targetErrBps ≤ 10000) :
    r.epsilonOf req = errorBudget req.ruleLimit r.config.targetErrBps r.peers.length := by
  unfold epsilonOf errorBudget
  rw [Nat.max_comm r.peers.length 1, Nat.max_eq_left hbps, Nat.max_comm _ 1]
  generalize r.config.targetErrBps = bps at hbps hbps' ⊢
  generalize hp : max 1 r.peers.length = p
  have hpos : 10000 ≤ 10000 * p := by omega
  have hbound : max req.ruleLimit 1 * bps ≤ u64Max :=
    (Nat.mul_le_mul (Nat.max_le.2 ⟨hlimit.le, by norm_num⟩) hbps').trans (by decide)
  rw [Nat.min_eq_left hbound]
  rcases Nat.eq_zero_or_pos req.ruleLimit with hzero | hlim
  · -- a limit of zero counts as one, and its share is at most one
    rw [hzero, Nat.max_eq_right (Nat.zero_le 1), Nat.one_mul, Nat.zero_mul, Nat.zero_div]
    have hone : bps / (10000 * p) ≤ 1 := by
      rw [Nat.div_le_iff_le_mul_add_pred (by omega)]
      omega
    omega
  · rw [Nat.max_eq_left hlim]

theorem errorBudget_lt {limit bps peers : ℕ} (hlimit : limit < 2 ^ 31) (hbps : bps ≤ 10000) :
    errorBudget limit bps peers < u32Max := by
  have hle : limit * bps / (10000 * max 1 peers) ≤ limit := by
    refine Nat.div_le_of_le_mul ?_
    calc limit * bps ≤ limit * 10000 := Nat.mul_le_mul_left _ hbps
      _ = 10000 * 1 * limit := by ring
      _ ≤ 10000 * max 1 peers * limit :=
        Nat.mul_le_mul_right _ (Nat.mul_le_mul_left _ (le_max_left ..))
  have hmax : 2 ^ 31 ≤ u32Max := by decide
  unfold errorBudget
  omega

/-! ## Notes and counters -/

/-- The counters of the slot agree with the notes, taken up to `clock`. -/
structure Watched (slot floor clock : ℕ) (r : Runtime w) (watch : RuleWatch) : Prop where
  pending : r.rulePending slot = min watch.hits u32Max
  stamp : r.ruleLastEmitMs slot = watch.emitted.elim 0 (max · 1)
  emitted_le : ∀ t ∈ watch.emitted, t ≤ clock
  fired_le : ∀ t ∈ watch.fired, ∃ e ∈ watch.emitted, t ≤ e
  spaced : watch.fired.Pairwise fun later earlier => earlier + floor ≤ later
  armed : watch.armed = true → r.wantImmediateFlush = true ∧ 0 < watch.hits ∧
    ∀ e ∈ watch.emitted, e + floor ≤ clock

theorem Watched.later {clock' : ℕ} (h : Watched slot floor clock r watch) (hle : clock ≤ clock') :
    Watched slot floor clock' r watch := by
  refine ⟨h.pending, h.stamp, fun t ht => (h.emitted_le t ht).trans hle, h.fired_le, h.spaced,
    fun harmed => ?_⟩
  obtain ⟨hflush, hhits, hfloor⟩ := h.armed harmed
  exact ⟨hflush, hhits, fun e he => (hfloor e he).trans hle⟩

/-- Nothing the notes are about has changed. -/
theorem Watched.unarmed (h : Watched slot floor clock r watch)
    (hpending : r'.rulePending slot = r.rulePending slot)
    (hstamps : r'.ruleLastEmitMs slot = r.ruleLastEmitMs slot) :
    Watched slot floor clock r' { watch with armed := false } :=
  ⟨hpending.trans h.pending, hstamps.trans h.stamp, h.emitted_le, h.fired_le, h.spaced, nofun⟩

/-- A full tick that finds no hits stamps nothing, and no request of the rule has fired it. -/
theorem Watched.quietTick (h : Watched slot floor clock r watch) (hle : clock ≤ now)
    (hzero : watch.hits = 0) (hpending : r'.rulePending slot = 0)
    (hstamp : r'.ruleLastEmitMs slot = r.ruleLastEmitMs slot) :
    Watched slot floor now r'
      { hits := 0
        emitted := watch.emitted
        fired := if watch.armed then now :: watch.fired else watch.fired
        armed := false } := by
  have hunarmed : ¬ watch.armed = true := by
    intro harmed
    have hpos := (h.armed harmed).2.1
    omega
  rw [if_neg hunarmed]
  refine ⟨?_, hstamp.trans h.stamp, fun t ht => (h.emitted_le t ht).trans hle, h.fired_le, h.spaced,
    nofun⟩
  rw [hpending]
  rfl

/-- A full tick that finds hits is an emission, the floor after the last one if it was fired. -/
theorem Watched.emission (h : Watched slot floor clock r watch) (hle : clock ≤ now)
    (hpending : r'.rulePending slot = 0) (hstamp : r'.ruleLastEmitMs slot = max now 1) :
    Watched slot floor now r'
      { hits := 0
        emitted := some now
        fired := if watch.armed then now :: watch.fired else watch.fired
        armed := false } := by
  have hold : ∀ t ∈ watch.fired, t ≤ now := by
    intro t ht
    obtain ⟨e, he, hte⟩ := h.fired_le t ht
    exact hte.trans ((h.emitted_le e he).trans hle)
  refine ⟨?_, hstamp, ?_, ?_, ?_, nofun⟩
  · rw [hpending]
    rfl
  · intro t ht
    cases ht
    exact le_refl now
  · intro t ht
    refine ⟨now, rfl, ?_⟩
    dsimp only at ht
    split_ifs at ht
    · rcases List.mem_cons.1 ht with rfl | ht
      · exact le_refl _
      · exact hold t ht
    · exact hold t ht
  · dsimp only
    split_ifs with harmed
    · refine List.pairwise_cons.2 ⟨fun t ht => ?_, h.spaced⟩
      -- the request that armed the flush came the floor after the last emission
      obtain ⟨e, he, hte⟩ := h.fired_le t ht
      have hfloor := (h.armed harmed).2.2 e he
      omega
    · exact h.spaced

theorem Watched.fullTick (h : Watched slot floor clock r watch) (hle : clock ≤ now)
    (hfull : r.FullTick now) (hpending : r'.rulePending = fun _ => 0)
    (hstamps : r'.ruleLastEmitMs = (r.resetPending now).ruleLastEmitMs) :
    Watched slot floor now r' (r.noteArm fp now r' watch .tick) := by
  have hmax : 0 < u32Max := by decide
  have hnote : r.noteArm fp now r' watch .tick =
      { hits := 0
        emitted := if watch.hits = 0 then watch.emitted else some now
        fired := if watch.armed then now :: watch.fired else watch.fired
        armed := false } := if_pos hfull
  have hstamp : r'.ruleLastEmitMs slot =
      if r.rulePending slot ≠ 0 then max now 1 else r.ruleLastEmitMs slot := by
    rw [hstamps]
    rfl
  have hpend := h.pending
  rw [hnote]
  rcases Nat.eq_zero_or_pos watch.hits with hzero | hpos
  · rw [if_neg (by omega)] at hstamp
    rw [if_pos hzero]
    exact h.quietTick hle hzero (congrFun hpending slot) hstamp
  · rw [if_pos (by omega)] at hstamp
    rw [if_neg hpos.ne']
    exact h.emission hle (congrFun hpending slot) hstamp

/-- A request of the rule: its hits are pending, and a wanted flush has passed the floor. -/
theorem Watched.request (h : Watched slot floor clock r watch) (hle : clock ≤ now)
    (hfind : r.store.ruleDictionary.find req.ruleFingerprint = some slot)
    (hfloor : r.config.minEmitIntervalMillis = floor) (hwait : r.wantImmediateFlush = false)
    (hsame : SameBudget (r.noteHits now req) r') :
    Watched slot floor now r'
      { watch with hits := watch.hits + req.hits, armed := r'.wantImmediateFlush } := by
  obtain ⟨hpending, hstamps, hflush⟩ := noteHits_of_find now hfind hwait
  have hpend : r.pendingAfter req slot = min (watch.hits + req.hits) u32Max := by
    rw [pendingAfter, h.pending]
    omega
  refine ⟨?_, ?_, fun t ht => (h.emitted_le t ht).trans hle, h.fired_le, h.spaced, fun harmed => ?_⟩
  · rw [hsame.pending, hpending, update_self, hpend]
  · rw [hsame.stamps, hstamps, h.stamp]
  · have hdue := hflush.1 (hsame.flush ▸ harmed)
    obtain ⟨hover, hpassed⟩ := hdue
    refine ⟨harmed, ?_, fun e he => ?_⟩
    · have hone : 1 ≤ r.epsilonOf req := le_max_right ..
      dsimp only
      omega
    · have hstamp : r.ruleLastEmitMs slot = max e 1 := by
        rw [h.stamp, show watch.emitted = some e from he]
        rfl
      have hle' := h.emitted_le e he
      rw [hstamp, hfloor] at hpassed
      omega

/-- A step for another rule leaves the slot alone. -/
theorem noteHits_other (now : ℕ) (hi : r.store.toCellTable.Inv pins)
    (hfind : r.store.ruleDictionary.find fp = some slot) (hne : req.ruleFingerprint ≠ fp) :
    (r.noteHits now req).rulePending slot = r.rulePending slot ∧
      (r.noteHits now req).ruleLastEmitMs slot = r.ruleLastEmitMs slot := by
  cases hother : r.store.ruleDictionary.find req.ruleFingerprint with
  | none =>
    rw [noteHits_of_none hother]
    exact ⟨rfl, rfl⟩
  | some slot' =>
    have hslot : slot ≠ slot' := by
      rintro rfl
      exact hne ((hi.rules.find_iff.1 hother).2.symm.trans (hi.rules.find_iff.1 hfind).2)
    unfold noteHits
    rw [hother]
    exact ⟨update_of_ne hslot .., rfl⟩

theorem Watched.iteration (h : Watched slot floor clock r watch) (hle : clock ≤ now)
    (hknows : Knows pins slot d r) (hd : d.fingerprint = fp)
    (hfloor : r.config.minEmitIntervalMillis = floor) (hr : r.iteration env now arm = some r') :
    Watched slot floor now r' (r.noteArm fp now r' watch (r.firedArm arm)) := by
  have hfind : r.store.ruleDictionary.find fp = some slot :=
    hknows.inv.rules.find_iff.2 ⟨hknows.holds.live, by rw [hknows.holds.desc]; exact hd⟩
  have hstep := iteration_budgetStep hr
  generalize r.firedArm arm = fired at hstep ⊢
  cases hstep with
  | full hfull hpending hstamps hflush => exact h.fullTick hle hfull hpending hstamps
  | early hearly hpending hstamps hflush =>
    have hnote : r.noteArm fp now r' watch .tick = { watch with armed := false } := if_neg hearly
    rw [hnote]
    exact (h.unarmed (by rw [hpending]) (by rw [hstamps])).later hle
  | other arm hsame hnote =>
    rw [hnote]
    exact (h.unarmed (by rw [hsame.pending]) (by rw [hsame.stamps])).later hle
  | request req hwait hsame =>
    by_cases hfp : req.ruleFingerprint = fp
    · have hnote : r.noteArm fp now r' watch (.request (some (.limit req))) =
          { watch with hits := watch.hits + req.hits, armed := r'.wantImmediateFlush } := if_pos hfp
      rw [hnote]
      exact h.request hle (hfp ▸ hfind) hfloor hwait hsame
    · have hnote : r.noteArm fp now r' watch (.request (some (.limit req))) =
          { watch with armed := false } := if_neg hfp
      obtain ⟨hpending, hstamps⟩ := noteHits_other now hknows.inv hfind hfp
      rw [hnote]
      exact (h.unarmed (by rw [hsame.pending, hpending]) (by rw [hsame.stamps, hstamps])).later hle

/-- **The counters agree with the notes along every run.** -/
theorem Watched.run {arms : List (ℕ × ArmOutcome)} (h : Watched slot floor clock r watch)
    (hclock : (clock :: (arms.map Prod.fst ++ [now])).Pairwise (· ≤ ·)) (hknows : Knows pins slot d r)
    (hd : d.fingerprint = fp) (hfloor : r.config.minEmitIntervalMillis = floor)
    (hr : r.run env arms = some r') :
    Watched slot floor now r' (r.watchRun env fp arms watch) := by
  induction arms generalizing r clock watch with
  | nil =>
    cases hr
    exact h.later (List.rel_of_pairwise_cons hclock (List.mem_singleton.2 rfl))
  | cons arm rest ih =>
    obtain ⟨n, arm⟩ := arm
    obtain ⟨r₁, h₁, hr⟩ := Option.bind_eq_some_iff.1 hr
    have hle : clock ≤ n := List.rel_of_pairwise_cons hclock (List.mem_cons_self ..)
    have hconfig := (iteration_spec h₁ hknows.sinkBuf hknows.expirationBuf).config
    rw [watchRun, h₁]
    exact ih (h.iteration hle hknows hd hfloor h₁) (List.pairwise_cons.1 hclock).2
      (hknows.iteration h₁) (by rw [hconfig, hfloor]) hr

/-! ## When a flush is missed -/

theorem iteration_request (hwait : r.wantImmediateFlush = false)
    (hr : r.iteration env now (.request (some (.limit req))) = some r') :
    SameBudget (r.noteHits now req) r' := by
  unfold iteration at hr
  rw [hwait] at hr
  cases hr
  have hsame : SameBudget (r.noteHits now req) (r.handleLimitRequest now req) := ⟨rfl, rfl, rfl⟩
  exact hsame.trans (finish_sameBudget _)

/-- Whether a flush is wanted after a request, read off the notes. -/
theorem Watched.flush_iff (h : Watched slot floor clock r watch)
    (hfind : r.store.ruleDictionary.find req.ruleFingerprint = some slot)
    (hfloor : r.config.minEmitIntervalMillis = floor) (hwait : r.wantImmediateFlush = false)
    (hlimit : req.ruleLimit < 2 ^ 31) (hbps : 1 ≤ r.config.targetErrBps)
    (hbps' : r.config.targetErrBps ≤ 10000)
    (hr : r.iteration env now (.request (some (.limit req))) = some r') :
    r'.wantImmediateFlush = true ↔
      errorBudget req.ruleLimit r.config.targetErrBps r.peers.length < watch.hits + req.hits ∧
        ∀ t ∈ watch.emitted, floor ≤ now - max t 1 := by
  obtain ⟨-, -, hflush⟩ := noteHits_of_find now hfind hwait
  have hsmall : errorBudget req.ruleLimit r.config.targetErrBps r.peers.length < u32Max :=
    errorBudget_lt hlimit hbps'
  have hpend : r.pendingAfter req slot = min (watch.hits + req.hits) u32Max := by
    rw [pendingAfter, h.pending]
    omega
  rw [(iteration_request hwait hr).flush, hflush, hpend, epsilonOf_eq hlimit hbps hbps', h.stamp,
    hfloor]
  refine and_congr (by omega) ?_
  cases watch.emitted with
  | none => exact iff_of_true (.inl rfl) nofun
  | some e =>
    have hstamp : (some e).elim 0 (max · 1) = max e 1 := rfl
    rw [hstamp]
    constructor
    · rintro (hzero | hpassed) t ht
      · omega
      · cases ht
        exact hpassed
    · exact fun hall => .inr (hall e rfl)

/-- A rule is due, but its floor has not passed: the stamp of its last emission is not the clock,
    which was zero. -/
theorem due_not_passed_iff {budget hits interval now : ℕ} {emitted : Option ℕ} :
    (budget < hits ∧ ∀ t ∈ emitted, t + interval ≤ now) ∧
        ¬ (budget < hits ∧ ∀ t ∈ emitted, interval % 2 ^ 64 ≤ now - max t 1) ↔
      budget < hits ∧ emitted = some 0 ∧ now = interval ∧ 1 ≤ interval ∧ interval < 2 ^ 64 := by
  cases emitted with
  | none => simp
  | some t =>
    simp only [Option.mem_some_iff, forall_eq', Option.some.injEq]
    omega

/-- **Threshold flushes.**  Rules are registered, then the loop runs on any arms, with a clock
    that never goes back.  Full ticks that requests of one rule have fired are at least the
    interval apart if it fits 64 bits.  And right after a request of the rule the loop waits
    although the rule is due in exactly one case: the last emission of the rule was at clock
    zero, and the clock is now at the interval. -/
theorem threshold_flush (env : Platform) {config : CellStoreConfig} {id : NodeIdentity}
    {s₀ : CellStore w} (hnew : CellStore.new w config id = some s₀) (rules : List RuleDescriptor)
    (gossip : GossipConfig) (aggregates : DashMapStore) (interval : ℕ)
    (hinterval : gossip.minEmitIntervalMillis = interval % 2 ^ 64) (hbps : 1 ≤ gossip.targetErrBps)
    (hbps' : gossip.targetErrBps ≤ 10000) {fp : Fingerprint}
    (hfp : (s₀.internRules rules).ruleDictionary.find fp ≠ none) (arms : List (ℕ × ArmOutcome))
    (now : ℕ) (hclock : (arms.map Prod.fst ++ [now]).Pairwise (· ≤ ·)) {r : Runtime w}
    (hr : (fromParts gossip (s₀.internRules rules) aggregates).run env arms = some r) :
    let watch := (fromParts gossip (s₀.internRules rules) aggregates).watchRun env fp arms .start
    (interval < 2 ^ 64 → watch.fired.Pairwise fun later earlier => earlier + interval ≤ later) ∧
    ∀ (req : LimitRequest) (r' : Runtime w), req.ruleFingerprint = fp → req.ruleLimit < 2 ^ 31 →
      r.wantImmediateFlush = false →
      r.iteration env now (.request (some (.limit req))) = some r' →
      let after := r.noteArm fp now r' watch (.request (some (.limit req)))
      let budget := errorBudget req.ruleLimit gossip.targetErrBps r.peers.length
      (after.Due budget interval now ∧ r'.wantImmediateFlush = false ↔
        budget < after.hits ∧ after.emitted = some 0 ∧ now = interval ∧ 1 ≤ interval ∧
          interval < 2 ^ 64) := by
  intro watch
  obtain ⟨pins, hreg⟩ := CellStore.internRules_registering hnew rules
  obtain ⟨slot, hfind⟩ := Option.ne_none_iff_exists'.1 hfp
  obtain ⟨hlive, hkey⟩ := hreg.inv.rules.find_iff.1 hfind
  have hknows : Knows pins slot ((s₀.internRules rules).ruleDictionary.descriptors slot)
      (fromParts gossip (s₀.internRules rules) aggregates) :=
    ⟨hreg.inv, rfl, rfl, hreg.pinned slot hlive, hlive, rfl⟩
  have hstart : Watched slot (interval % 2 ^ 64) 0
      (fromParts gossip (s₀.internRules rules) aggregates) .start :=
    ⟨rfl, rfl, nofun, nofun, .nil, nofun⟩
  have hwatched : Watched slot (interval % 2 ^ 64) now r watch :=
    hstart.run (List.pairwise_cons.2 ⟨fun _ _ => Nat.zero_le _, hclock⟩) hknows hkey hinterval hr
  refine ⟨fun hlt => ?_, fun req r' hreq hlimit hwait hit => ?_⟩
  · have hspaced := hwatched.spaced
    rwa [Nat.mod_eq_of_lt hlt] at hspaced
  · intro after budget
    have hconfig := (between_fromParts hreg.inv gossip aggregates).run_config hr
    have hend := hknows.run arms hr
    have hfind' : r.store.ruleDictionary.find req.ruleFingerprint = some slot :=
      hend.inv.rules.find_iff.2 ⟨hend.holds.live, by rw [hend.holds.desc, hreq]; exact hkey⟩
    have hconfig' : r.config = gossip := hconfig
    have hafter : after =
        { watch with hits := watch.hits + req.hits, armed := r'.wantImmediateFlush } := if_pos hreq
    have hiff := hwatched.flush_iff hfind' (by rw [hconfig', hinterval]) hwait hlimit
      (by rw [hconfig']; exact hbps) (by rw [hconfig']; exact hbps') hit
    rw [hconfig'] at hiff
    rw [← Bool.not_eq_true, hiff, RuleWatch.Due, hafter]
    exact due_not_passed_iff

/-- Two requests ten milliseconds apart, each of them answered by a flush; the buffer of the first
    packet is free again in between. -/
def spacedArms : List (ℕ × ArmOutcome) :=
  [(5000, .request (some (.limit tinyRequest))), (5000, .admin), (5002, .writable .ok),
    (5010, .request (some (.limit tinyRequest))), (5011, .admin)]

theorem threshold_flush_spaced : ∃ (s₀ : CellStore .u32) (r : Runtime .u32),
    CellStore.new .u32 CellStore.tinyConfig CellStore.tinyNode = some s₀ ∧
    (fromParts tinyGossip (s₀.internRules [tinyRule]) .empty).run tinyPlatform spacedArms = some r ∧
    let watch := (fromParts tinyGossip (s₀.internRules [tinyRule]) .empty).watchRun tinyPlatform 7
      spacedArms .start
    watch.fired = [5011, 5000] ∧
      watch.fired.Pairwise fun later earlier => earlier + 10 ≤ later := by
  have heval : ((tinyRuntime.run tinyPlatform spacedArms).map fun _ =>
      ((tinyStore.internRules [tinyRule]).ruleDictionary.find 7,
        (tinyRuntime.watchRun tinyPlatform 7 spacedArms .start).fired)) =
      some (some 0, [5011, 5000]) := by decide +kernel
  obtain ⟨r, hrun, hvals⟩ := Option.map_eq_some_iff.1 heval
  obtain ⟨hfind, hfired⟩ := Prod.mk.inj hvals
  obtain ⟨hspaced, -⟩ := threshold_flush tinyPlatform tinyStore_new [tinyRule] tinyGossip .empty 10
    rfl (by decide) (by decide) (by rw [hfind]; nofun) spacedArms 5011 (by decide) hrun
  exact ⟨tinyStore, r, tinyStore_new, hrun, hfired, hspaced (by norm_num)⟩

/-! ### Clock zero, and an interval of more than 64 bits -/

/-- A request and its flush at clock zero. -/
def zeroArms : List (ℕ × ArmOutcome) := [(0, .request (some (.limit tinyRequest))), (0, .admin)]

/-- The same twice, at clock ten. -/
def twiceArms : List (ℕ × ArmOutcome) :=
  [(10, .request (some (.limit tinyRequest))), (10, .admin), (10, .writable .ok),
    (10, .request (some (.limit tinyRequest))), (10, .admin)]

/-- **A flush that is missed, and two that come at once.**  Ten milliseconds after an emission at
    clock zero, with an interval of ten milliseconds, the loop waits although four hits are over
    a budget of one.  With an interval of `2 ^ 64` milliseconds, whose low 64 bits are zero, one
    rule fires two full ticks at the same clock. -/
theorem flush_missed_at_zero : ∃ (s₀ : CellStore .u32) (r r' : Runtime .u32),
    CellStore.new .u32 CellStore.tinyConfig CellStore.tinyNode = some s₀ ∧
    (fromParts tinyGossip (s₀.internRules [tinyRule]) .empty).run tinyPlatform zeroArms = some r ∧
    r.wantImmediateFlush = false ∧
    r.iteration tinyPlatform 10 (.request (some (.limit tinyRequest))) = some r' ∧
    (r.noteArm 7 10 r'
        ((fromParts tinyGossip (s₀.internRules [tinyRule]) .empty).watchRun tinyPlatform 7 zeroArms
          .start) (.request (some (.limit tinyRequest)))).Due
      (errorBudget tinyRequest.ruleLimit tinyGossip.targetErrBps r.peers.length) 10 10 ∧
    r'.wantImmediateFlush = false ∧
    ((fromParts { tinyGossip with minEmitIntervalMillis := 2 ^ 64 % 2 ^ 64 }
      (s₀.internRules [tinyRule]) .empty).watchRun tinyPlatform 7 twiceArms .start).fired =
        [10, 10] := by
  have heval : ((tinyRuntime.run tinyPlatform zeroArms).bind fun r =>
      (r.iteration tinyPlatform 10 (.request (some (.limit tinyRequest)))).map fun r' =>
        (r.wantImmediateFlush, r.noteArm 7 10 r' (tinyRuntime.watchRun tinyPlatform 7 zeroArms
          .start) (.request (some (.limit tinyRequest))), r.peers.length, r'.wantImmediateFlush,
          ((fromParts { tinyGossip with minEmitIntervalMillis := 2 ^ 64 % 2 ^ 64 }
            (tinyStore.internRules [tinyRule]) .empty).watchRun tinyPlatform 7 twiceArms
              .start).fired)) =
      some (false, ⟨4, some 0, [0], false⟩, 1, false, [10, 10]) := by decide +kernel
  obtain ⟨r, hrun, hrest⟩ := Option.bind_eq_some_iff.1 heval
  obtain ⟨r', hit, hvals⟩ := Option.map_eq_some_iff.1 hrest
  simp only [Prod.mk.injEq] at hvals
  obtain ⟨hwait, hnote, hpeers, hmissed, htwice⟩ := hvals
  refine ⟨tinyStore, r, r', tinyStore_new, hrun, hwait, hit, ?_, hmissed, htwice⟩
  unfold tinyRuntime at hnote
  rw [hnote, hpeers]
  exact ⟨by decide, fun t ht => by cases ht; decide⟩

end Runtime

end Gabion

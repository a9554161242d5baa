/-
  How far nginx overshoots a limit.

  The account of one rule and key (`Node.account`) is one of `ReadThenRecord`: what workers have
  planned or have to push, what is in the queue and what is in the channel of the newest term is
  pending.  Hits are lost in a full queue, with an earlier term, and in a newest term whose store
  has lost the lease.  Queue and channel are bounded by their capacities, and every other worker
  has at most one event for a rule under way.

  Terms may overlap, as long as each store is of a later epoch than the ones before (`Ordered`):
  then no store but the newest one writes to the table (`Leads`).
-/
import Gabion.Nginx.Pipeline

namespace Gabion

namespace Nginx

namespace Pipeline

open Function ReadThenRecord

/-! ## The hits of some events -/

/-- The hits an event has for a rule and key in a bucket. -/
def hitsAt (rule : Rule) (keyHash : KeyHash) (bucket : ℕ) (event : QueueEvent) : ℕ :=
  if event.ruleFingerprint = rule.fingerprint ∧ event.keyHash = keyHash ∧
      event.bucket.toNat = bucket then event.hits else 0

/-- The hits an event has for a rule. -/
def ruleHits (fp : Fingerprint) (event : QueueEvent) : ℕ :=
  if event.ruleFingerprint = fp then event.hits else 0

variable {rule : Rule} {keyHash : KeyHash}

theorem hitsAt_eq_identity {bucket : ℕ} (hb : bucket < 2 ^ 32) (event : QueueEvent) :
    hitsAt rule keyHash bucket event =
      if (Node.limitRequest event).identity = Server.identityFor rule keyHash bucket then event.hits
      else 0 := by
  refine if_congr ?_ rfl rfl
  simp only [Node.limitRequest, LimitRequest.identity, Server.identityFor, CellIdentity.mk.injEq]
  refine and_congr_right fun _ => and_congr_right fun _ => ?_
  rw [← BitVec.toNat_inj, BitVec.toNat_ofNat, Nat.mod_eq_of_lt hb]

/-- The hits of a key in the buckets of a window are among those of the rule. -/
theorem sum_hitsAt_le (span : Finset ℕ) (events : List QueueEvent) :
    ∑ bucket ∈ span, weigh (hitsAt rule keyHash bucket) events ≤
      weigh (ruleHits rule.fingerprint) events := by
  induction events with
  | nil => simp
  | cons event rest ih =>
    simp only [weigh_cons, Finset.sum_add_distrib]
    refine Nat.add_le_add ?_ ih
    refine (Account.sum_single_le span event.bucket.toNat fun b _ hne => ?_).trans ?_
    · exact (of_not_not fun hc => hne (if_neg hc)).2.2.symm
    · unfold hitsAt ruleHits
      split_ifs with hid hfp
      · exact le_rfl
      · exact absurd hid.1 hfp
      · exact Nat.zero_le _
      · exact le_rfl

theorem weigh_ruleHits_le_length (fp : Fingerprint) {events : List QueueEvent}
    (h : ∀ event ∈ events, event.hits = 1) : weigh (ruleHits fp) events ≤ events.length := by
  induction events with
  | nil => exact Nat.zero_le _
  | cons event rest ih =>
    rw [weigh_cons, List.length_cons, Nat.add_comm]
    refine Nat.add_le_add (ih fun e he => h e (List.mem_cons_of_mem _ he)) ?_
    unfold ruleHits
    split_ifs
    · exact (h event List.mem_cons_self).le
    · exact Nat.zero_le _

theorem weigh_ruleHits_eq_zero {fp : Fingerprint} {events : List QueueEvent}
    (h : ∀ event ∈ events, event.ruleFingerprint ≠ fp) : weigh (ruleHits fp) events = 0 := by
  refine List.sum_eq_zero fun x hx => ?_
  obtain ⟨event, he, rfl⟩ := List.mem_map.1 hx
  exact if_neg (h event he)

/-- The events of one request: one hit each, for different rules. -/
structure EventsOk (events : List QueueEvent) : Prop where
  distinct : (events.map QueueEvent.ruleFingerprint).Nodup
  hits : ∀ event ∈ events, event.hits = 1

theorem EventsOk.nil : EventsOk [] := ⟨List.nodup_nil, fun _ he => by cases he⟩

theorem EventsOk.tail {event : QueueEvent} {rest : List QueueEvent} (h : EventsOk (event :: rest)) :
    EventsOk rest :=
  ⟨(List.nodup_cons.1 h.distinct).2, fun e he => h.hits e (List.mem_cons_of_mem _ he)⟩

theorem EventsOk.weigh_le_one {events : List QueueEvent} (h : EventsOk events) (fp : Fingerprint) :
    weigh (ruleHits fp) events ≤ 1 := by
  induction events with
  | nil => exact Nat.zero_le _
  | cons event rest ih =>
    rw [weigh_cons]
    by_cases hfp : event.ruleFingerprint = fp
    · -- no other event is for this rule
      have hrest : weigh (ruleHits fp) rest = 0 := weigh_ruleHits_eq_zero fun e he heq =>
        (List.nodup_cons.1 h.distinct).1 (List.mem_map.2 ⟨e, he, heq.trans hfp.symm⟩)
      rw [hrest, ruleHits, if_pos hfp]
      exact (h.hits event List.mem_cons_self).le
    · rw [ruleHits, if_neg hfp, Nat.zero_add]
      exact ih h.tail

/-! ## What a rule's outcome adds -/

variable {site : Site}

/-- A rule that allows the request plans one event, and has read the table. -/
theorem decideOne_cases (ctx : AccessCtx) (vars : VariableLookup) (now index : ℕ) :
    (decideOne ctx index vars now).events = [] ∨
      ∃ compiled descriptors snapshot, ctx.rules[index]? = some compiled ∧
        decideOne ctx index vars now =
          .allow snapshot [eventFor ctx now compiled.rule descriptors] ∧
        snapshot.spec = compiled.rule.spec ∧ (compiled.rule.mode = .enforce →
          min (windowTotalFor ctx now compiled.rule descriptors + 1) u64Max ≤
            compiled.rule.limit) := by
  have hspec := decideOne_spec ctx vars now index
  cases he : evaluated ctx vars index with
  | none =>
    rw [he] at hspec
    exact .inl (RuleOutcome.of_isSkip hspec).2
  | some found =>
    obtain ⟨rule, descriptors⟩ := found
    rw [he] at hspec
    simp only at hspec
    rw [hspec]
    -- the rule is the listed one
    simp only [evaluated, Option.bind_eq_bind, Option.bind_eq_some_iff] at he
    obtain ⟨compiled, hindex, he⟩ := he
    split_ifs at he with hexempt
    obtain ⟨descriptors', -, he⟩ := Option.bind_eq_some_iff.1 he
    split_ifs at he with hbudget
    cases he
    unfold evaluateRule
    dsimp only
    split_ifs with hdisabled hover
    · exact .inl rfl
    · exact .inl rfl
    · refine .inr ⟨compiled, descriptors, _, hindex, rfl, rfl, fun hmode => ?_⟩
      by_contra hlt
      exact hover ⟨not_le.1 hlt, hmode⟩

theorem add_allEvents_of_nil {t : Tally} {outcome : RuleOutcome} (h : outcome.events = []) :
    (t.add outcome).allEvents = t.allEvents := by
  cases outcome with
  | allow snapshot events =>
    cases h
    rfl
  | reject | decline | cardinality | exempt => rfl

theorem add_allEvents_of_allow {t : Tally} (snapshot : QuotaSnapshot) (event : QueueEvent)
    (h : t.allEvents.length < maxMatchedRules) :
    (t.add (.allow snapshot [event])).allEvents = t.allEvents ++ [event] := by
  simp only [Tally.add, tryPushAll, if_pos h]

/-! ## What holds between steps -/

/-- A pass under way: the rules it still has to ask have no event yet, and there is room for
    theirs. -/
structure PassOk (site : Site) (clock : ℕ) (pass : Pass) : Prop where
  time : pass.now ≤ clock
  events : EventsOk pass.tally.allEvents
  room : pass.tally.allEvents.length + pass.asking.length ≤ maxMatchedRules
  asking : pass.asking.Nodup
  fresh : ∀ index ∈ pass.asking, ∀ compiled, site.rules[index]? = some compiled →
    ∀ event ∈ pass.tally.allEvents, event.ruleFingerprint ≠ compiled.rule.fingerprint

def WorkerOk (site : Site) (clock : ℕ) : Worker → Prop
  | .deciding pass => PassOk site clock pass
  | .pushing events => EventsOk events

theorem WorkerOk.mono {clock clock' : ℕ} {worker : Worker} (h : WorkerOk site clock worker)
    (hclock : clock ≤ clock') : WorkerOk site clock' worker := by
  cases worker with
  | deciding pass => exact ⟨h.time.trans hclock, h.events, h.room, h.asking, h.fresh⟩
  | pushing events => exact h

theorem WorkerOk.events {clock : ℕ} {worker : Worker} (h : WorkerOk site clock worker) :
    EventsOk worker.events := by
  cases worker with
  | deciding pass => exact PassOk.events h
  | pushing events => exact h

/-- A leader whose rules are registered, with the table below its counts. -/
structure LeaderOk (pins : ℕ → Bool) (site : Site) (leader : LeaderRuntime) : Prop where
  agree : ∃ applies, leader.runtime.Agree pins applies ∧
    ∀ rule ∈ site.ruleTable, applies rule.fingerprint = true
  holds : ∀ rule ∈ site.ruleTable, ∃ slot, leader.runtime.store.Holds pins slot rule.descriptor
  below : Below site.mixIndex leader.store.table leader.runtime.aggregates

/-- **The only store that writes** is that of the newest term, and the table has its counts. -/
structure Leads (site : Site) (table : ShmTable) (leaseEpoch : ℕ) (terms : ℕ → Term) (newest : ℕ)
    (rejected : Bool) : Prop where
  earlier : ∀ t < newest, (terms t).epoch < leaseEpoch
  leader : (terms newest).epoch = leaseEpoch →
    ∃ pins, LeaderOk pins site ((terms newest).leader table)
  exact : rejected = false → (terms newest).epoch = leaseEpoch →
    Exact site.mixIndex table (terms newest).runtime.aggregates

/-- **What holds between steps**, whatever the rule. -/
structure Ready {n : ℕ} (site : Site) (node : Node n) : Prop where
  distinct : (site.ruleTable.map Rule.fingerprint).Nodup
  leads : Leads site node.table node.leaseEpoch node.terms node.newest node.history.rejected
  workers : ∀ w, WorkerOk site node.clock (node.workers w)
  pushed : ∀ event ∈ node.history.pushed, event.hits = 1

/-- Each store is of a later epoch than the ones before. -/
def Ordered {n : ℕ} (node : Node n) : Prop :=
  ∀ s t, s < t → t ≤ node.newest → (node.terms s).epoch < (node.terms t).epoch

/-- A new store in which all rules of the site find room. -/
def Startable (site : Site) (s₀ : CellStore .u32) : Prop :=
  ∃ config id s, CellStore.new .u32 config id = some s₀ ∧ registerRules s₀ site.ruleTable = some s

/-- A request lists no rule twice and no more than can be counted, and a term starts with a new
    store. -/
def Admissible {n : ℕ} (site : Site) : Node.Event n → Prop
  | .arrive _ ruleIndices _ _ => ruleIndices.Nodup ∧ ruleIndices.length ≤ maxMatchedRules
  | .takeOver s₀ _ _ => Startable site s₀
  | .ask _ | .conclude _ | .push _ | .reserve _ | .pop _ | .ingest _ _ | .loop _ _ _ | .acquire =>
    True

/-- The ids that the compiler gives. -/
def Numbered (site : Site) : Prop :=
  ∀ (i : ℕ) (rule : Rule), site.ruleTable[i]? = some rule → rule.id = (i + 1) % 2 ^ 32

theorem registerRules_eq_internRules : ∀ {table : RuleTable} {s s' : CellStore .u32},
    registerRules s table = some s' → s.internRules (table.map Rule.descriptor) = s'
  | [], _, _, h => by cases h; rfl
  | rule :: rest, s, s', h => by
    unfold registerRules at h
    split at h
    · rename_i s₁ r he
      have hrest := registerRules_eq_internRules h
      have hs₁ : (s.internRule rule.descriptor).1 = s₁ := congrArg Prod.fst he
      rw [← hrest, ← hs₁]
      rfl
    · cases h

/-- **A new term** is ready, whatever the table was. -/
theorem leaderOk_new (hdistinct : (site.ruleTable.map Rule.fingerprint).Nodup)
    (hnumbered : Numbered site) {s₀ : CellStore .u32} (hs₀ : Startable site s₀)
    (table : ShmTable) (gossip : GossipConfig) (epoch : ℕ) : ∃ pins, LeaderOk pins site
      ((Term.new site s₀ gossip epoch).leader (ShmAggregateStore.new table epoch).table) := by
  obtain ⟨config, id, s, hnew, hreg⟩ := hs₀
  obtain ⟨pins, hready, hholds, happlies⟩ :=
    Server.registered_apply hnumbered hdistinct hnew hreg
  have hstore := registerRules_eq_internRules hreg
  refine ⟨pins, ⟨s.appliesTo, ?_, happlies⟩, ?_, below_clear table⟩
  · show (Runtime.fromParts gossip (s₀.internRules _) .empty).Agree pins _
    rw [hstore]
    exact Runtime.agree_fromParts hready gossip
  · show ∀ rule ∈ site.ruleTable, ∃ slot, (s₀.internRules _).Holds pins slot rule.descriptor
    rw [hstore]
    exact hholds

/-- **An iteration** keeps the leader ready, and the table exact if it drops no write. -/
theorem LeaderOk.iteration {pins : ℕ → Bool} {env : Platform} {leader leader' : LeaderRuntime}
    {now : ℕ} {arm : ArmOutcome} (h : LeaderOk pins site leader)
    (hi : leader.iteration site.mixIndex env leader.store.epoch now arm = some leader') :
    LeaderOk pins site leader' ∧ Runtime.Iterated env leader.runtime
        (leader.runtime.tableCall env now (leader.runtime.firedArm arm)) leader'.runtime ∧
      (Exact site.mixIndex leader.store.table leader.runtime.aggregates →
        leader'.store.table.dropped = leader.store.table.dropped →
          Exact site.mixIndex leader'.store.table leader'.runtime.aggregates) := by
  obtain ⟨applies, hagree, happlies⟩ := h.agree
  obtain ⟨hit, hstore⟩ := LeaderRuntime.iteration_spec hagree.sinkBuf hagree.expirationBuf hi
  have hcall := Runtime.tableCall_loopCall env leader.runtime now (leader.runtime.firedArm arm)
  have hrows := LeaderRuntime.delta_le_of_loopCall hagree.inv hcall
  refine ⟨⟨⟨applies, hagree.iterated (by decide) hcall hit, happlies⟩, fun rule hrule => ?_, ?_⟩,
    hit, fun hexact hdropped => ?_⟩
  · obtain ⟨slot, hslot⟩ := h.holds rule hrule
    have hknows : leader.runtime.Knows pins slot rule.descriptor :=
      ⟨hagree.inv, hagree.sinkBuf, hagree.expirationBuf, hslot⟩
    exact ⟨slot, (hknows.iterated hcall hit).holds⟩
  · rw [hstore, hit.aggregates]
    exact h.below.apply hrows
  · have htracks : Tracks site.mixIndex leader.store.table.dropped leader.store.table
        leader.runtime.aggregates := ⟨h.below, le_rfl, fun _ => hexact⟩
    rw [hstore] at hdropped ⊢
    rw [hit.aggregates]
    exact (htracks.apply hrows).exact hdropped

section Leads

variable {table : ShmTable} {leaseEpoch newest t now : ℕ} {terms : ℕ → Term} {rejected : Bool}
  {term : Term}

/-- What a change of one term leaves is the same for all. -/
theorem apply_update_eq {α : Type} (f : Term → α) (h : f term = f (terms t)) (t' : ℕ) :
    f (update terms t term t') = f (terms t') := by
  by_cases heq : t' = t
  · rw [heq, update_self, h]
  · rw [update_of_ne heq]

/-- The term whose store has the epoch of the lease is the newest. -/
theorem Leads.eq_newest (h : Leads site table leaseEpoch terms newest rejected) (ht : t ≤ newest)
    (hcurrent : (terms t).epoch = leaseEpoch) : t = newest := by
  by_contra hne
  exact (h.earlier t (lt_of_le_of_ne ht hne)).ne hcurrent

/-- The drain loop of a term leaves its store and its runtime alone. -/
theorem Leads.drained (h : Leads site table leaseEpoch terms newest rejected)
    (hepoch : term.epoch = (terms t).epoch) (hruntime : term.runtime = (terms t).runtime) :
    Leads site table leaseEpoch (update terms t term) newest rejected := by
  have hleader : (update terms t term newest).leader table = (terms newest).leader table := by
    rw [Term.leader, apply_update_eq Term.epoch hepoch, apply_update_eq Term.runtime hruntime]
    rfl
  refine ⟨fun t' ht' => ?_, fun hcurrent => ?_, fun hrejected hcurrent => ?_⟩
  · rw [apply_update_eq Term.epoch hepoch]
    exact h.earlier t' ht'
  · rw [hleader]
    exact h.leader ((apply_update_eq Term.epoch hepoch newest).symm.trans hcurrent)
  · rw [apply_update_eq Term.runtime hruntime]
    exact h.exact hrejected ((apply_update_eq Term.epoch hepoch newest).symm.trans hcurrent)

/-- **An iteration of a term** writes to the table if its store is the newest and has the lease. -/
theorem Leads.turned {env : Platform} {arm : ArmOutcome} {leader : LeaderRuntime} {rejects : Bool}
    (h : Leads site table leaseEpoch terms newest rejected) (ht : t ≤ newest)
    (hepoch : term.epoch = (terms t).epoch)
    (hit : ((terms t).leader table).iteration site.mixIndex env leaseEpoch now arm = some leader) :
    Leads site leader.store.table leaseEpoch
      (update terms t { term with runtime := leader.runtime }) newest
      (rejected || decide (leader.store.table.dropped ≠ table.dropped) || rejects) := by
  have hepochs : ∀ t', (update terms t { term with runtime := leader.runtime } t').epoch =
      (terms t').epoch := apply_update_eq Term.epoch hepoch
  refine ⟨fun t' ht' => (hepochs t').trans_lt (h.earlier t' ht'), fun hcurrent => ?_,
    fun hrejected hcurrent => ?_⟩
  all_goals
    rw [hepochs] at hcurrent
  · by_cases htn : t = newest
    · subst htn
      obtain ⟨pins, hleader⟩ := h.leader hcurrent
      rw [← hcurrent] at hit
      rw [update_self]
      have hnext := (hleader.iteration hit).1
      exact ⟨pins, hnext.agree, hnext.holds, hnext.below⟩
    · have hstale : leaseEpoch ≠ (terms t).epoch := (h.earlier t (lt_of_le_of_ne ht htn)).ne'
      rw [update_of_ne (Ne.symm htn), LeaderRuntime.iteration_stale hstale hit]
      exact h.leader hcurrent
  · obtain ⟨hbefore, hdropped⟩ := Bool.or_eq_false_iff.1 (Bool.or_eq_false_iff.1 hrejected).1
    by_cases htn : t = newest
    · subst htn
      obtain ⟨pins, hleader⟩ := h.leader hcurrent
      rw [← hcurrent] at hit
      rw [update_self]
      exact (hleader.iteration hit).2.2 (h.exact hbefore hcurrent)
        (not_not.1 (of_decide_eq_false hdropped))
    · have hstale : leaseEpoch ≠ (terms t).epoch := (h.earlier t (lt_of_le_of_ne ht htn)).ne'
      rw [update_of_ne (Ne.symm htn), LeaderRuntime.iteration_stale hstale hit]
      exact h.exact hbefore hcurrent

end Leads

section
variable {n : ℕ} {env : Platform} {node node' : Node n}

/-- Listed rules with one fingerprint have one index. -/
theorem index_inj (hdistinct : (site.ruleTable.map Rule.fingerprint).Nodup) {i j : ℕ}
    {a b : CompiledRule} (hi : site.rules[i]? = some a) (hj : site.rules[j]? = some b)
    (hfp : a.rule.fingerprint = b.rule.fingerprint) : i = j := by
  have hget : ∀ {k : ℕ} {c : CompiledRule}, site.rules[k]? = some c →
      (site.ruleTable.map Rule.fingerprint)[k]? = some c.rule.fingerprint := by
    intro k c hk
    rw [Site.ruleTable, List.getElem?_map, List.getElem?_map, hk]
    rfl
  refine (List.getElem?_inj (List.getElem?_eq_some_iff.1 (hget hi)).1 hdistinct).1 ?_
  rw [hget hi, hget hj, hfp]

theorem eventFor_fingerprint (ctx : AccessCtx) (now : ℕ) (rule : Rule)
    (descriptors : List Descriptor) :
    (eventFor ctx now rule descriptors).ruleFingerprint = rule.fingerprint := rfl

/-- Asking a rule keeps a pass. -/
theorem PassOk.ask {clock : ℕ} {pass : Pass} {index : ℕ} {rest : List ℕ} {table : ShmTable}
    (h : PassOk site clock pass) (hdistinct : (site.ruleTable.map Rule.fingerprint).Nodup)
    (hasking : pass.asking = index :: rest) : PassOk site clock { pass with
      asking := rest
      tally := pass.tally.add (decideOne (site.ctx table) index pass.vars pass.now) } := by
  have hroom := h.room
  have hnodup := h.asking
  rw [hasking] at hroom hnodup
  rw [List.length_cons] at hroom
  obtain ⟨hindex, hrest⟩ := List.nodup_cons.1 hnodup
  have hold : ∀ i ∈ rest, ∀ compiled, site.rules[i]? = some compiled →
      ∀ event ∈ pass.tally.allEvents, event.ruleFingerprint ≠ compiled.rule.fingerprint :=
    fun i hi => h.fresh i (hasking ▸ List.mem_cons_of_mem _ hi)
  rcases decideOne_cases (site.ctx table) pass.vars pass.now index with hnil |
    ⟨compiled, descriptors, snapshot, hcompiled, hallow, -, -⟩
  · have hsame := add_allEvents_of_nil (t := pass.tally) hnil
    refine ⟨h.time, ?_, ?_, hrest, ?_⟩
    all_goals
      dsimp only
      rw [hsame]
    · exact h.events
    · omega
    · exact hold
  · rw [hallow]
    have hadd := add_allEvents_of_allow (t := pass.tally) snapshot
      (eventFor (site.ctx table) pass.now compiled.rule descriptors) (by omega)
    have hnew : ∀ event ∈ pass.tally.allEvents,
        event.ruleFingerprint ≠ compiled.rule.fingerprint :=
      h.fresh index (hasking ▸ List.mem_cons_self) compiled hcompiled
    refine ⟨h.time, ⟨?_, ?_⟩, ?_, hrest, ?_⟩
    all_goals
      dsimp only
      rw [hadd]
    · rw [List.map_append, List.nodup_append]
      refine ⟨h.events.distinct, List.nodup_singleton _, ?_⟩
      rintro fp hfp _ hmem rfl
      obtain ⟨event, he, rfl⟩ := List.mem_map.1 hfp
      exact hnew event he (List.mem_singleton.1 hmem)
    · intro event he
      rcases List.mem_append.1 he with he | he
      · exact h.events.hits event he
      · rw [List.mem_singleton.1 he]
        rfl
    · rw [List.length_append, List.length_singleton]
      omega
    · intro i hi other hother event he
      rcases List.mem_append.1 he with he | he
      · exact hold i hi other hother event he
      · -- two listed rules have different fingerprints
        rw [List.mem_singleton.1 he, eventFor_fingerprint]
        intro hfp
        exact hindex (index_inj hdistinct hcompiled hother hfp ▸ hi)

theorem Ready.pass {w : Fin n} {pass : Pass} (h : Ready site node)
    (hw : node.workers w = .deciding pass) : PassOk site node.clock pass := by
  have hworker := h.workers w
  rwa [hw] at hworker

theorem Ready.pushing {w : Fin n} {events : List QueueEvent} (h : Ready site node)
    (hw : node.workers w = .pushing events) : EventsOk events := by
  have hworker := h.workers w
  rwa [hw] at hworker

theorem workers_update {clock clock' : ℕ} {workers : Fin n → Worker} {w : Fin n} {worker : Worker}
    (h : ∀ v, WorkerOk site clock (workers v)) (hclock : clock ≤ clock')
    (hw : WorkerOk site clock' worker) : ∀ v, WorkerOk site clock' (update workers w worker v) := by
  intro v
  by_cases hv : v = w
  · rw [hv, update_self]
    exact hw
  · rw [update_of_ne hv]
    exact (h v).mono hclock

theorem Term.take_epoch (term : Term) (leaseEpoch : ℕ) (event : QueueEvent)
    (rest : List QueueEvent) : (term.take leaseEpoch event rest).epoch = term.epoch := by
  unfold Term.take
  split_ifs <;> rfl

/-- **One step** keeps the node ready. -/
theorem Ready.moved {bits : ℕ} {e : Node.Event n} (h : Ready site node)
    (hc : Node.Conserved bits node) (hnumbered : Numbered site) (he : Admissible site e)
    (hordered : Ordered node') (hm : Node.Moved site env node e node') : Ready site node' := by
  cases hm with
  | arrive w ruleIndices vars now hw hnow =>
    refine ⟨h.distinct, h.leads, workers_update h.workers hnow ?_, h.pushed⟩
    exact ⟨le_rfl, .nil, (Nat.zero_add _).trans_le he.2, he.1, fun _ _ _ _ _ hev => by cases hev⟩
  | ask w pass index rest outcome hw ha ho =>
    refine ⟨h.distinct, h.leads, workers_update h.workers le_rfl ?_, h.pushed⟩
    rw [← ho]
    exact (h.pass hw).ask h.distinct ha
  | conclude w pass events hw hevents =>
    refine ⟨h.distinct, h.leads, workers_update h.workers le_rfl ?_, h.pushed⟩
    rcases hevents with rfl | rfl
    · exact (h.pass hw).events
    · exact EventsOk.nil
  | push w event rest queue result hw hpush =>
    have hevents := h.pushing hw
    cases result with
    | ok =>
      refine ⟨h.distinct, h.leads, workers_update h.workers le_rfl hevents.tail, ?_⟩
      intro event' he'
      rcases List.mem_append.1 he' with he' | he'
      · exact h.pushed event' he'
      · rw [List.mem_singleton.1 he']
        exact hevents.hits event List.mem_cons_self
    | queueOverflow =>
      exact ⟨h.distinct, h.leads, workers_update h.workers le_rfl hevents.tail, h.pushed⟩
  | reserve t ht hchannel => exact ⟨h.distinct, h.leads.drained rfl rfl, h.workers, h.pushed⟩
  | pop t queue event ht hpermits hpop =>
    exact ⟨h.distinct, h.leads.drained rfl rfl, h.workers, h.pushed⟩
  | turn e t now arm leader ht hnow harm hit =>
    exact ⟨h.distinct, h.leads.turned ht rfl hit, fun w => (h.workers w).mono hnow, h.pushed⟩
  | ingest t now event rest leader ht hnow hchannel hflush hit =>
    exact ⟨h.distinct, h.leads.turned ht (Term.take_epoch _ _ _ _) hit,
      fun w => (h.workers w).mono hnow, h.pushed⟩
  | acquire =>
    -- no store has the new epoch
    have hold := Nat.lt_succ_of_le (hc.terms node.newest le_rfl).epoch
    exact ⟨h.distinct, ⟨fun t ht => (h.leads.earlier t ht).trans (Nat.lt_succ_self _),
      fun hcurrent => absurd hcurrent hold.ne, fun _ hcurrent => absurd hcurrent hold.ne⟩,
      h.workers, h.pushed⟩
  | takeOver s₀ gossip epoch hepoch =>
    refine ⟨h.distinct, ⟨fun t ht => ?_, fun _ => ?_, fun _ _ => ?_⟩, h.workers, h.pushed⟩
    · have hlt := hordered t (node.newest + 1) ht le_rfl
      refine hlt.trans_le ?_
      show (update node.terms (node.newest + 1) _ (node.newest + 1)).epoch ≤ node.leaseEpoch
      rw [update_self]
      exact hepoch
    · show ∃ pins, LeaderOk pins site ((update node.terms (node.newest + 1) _
        (node.newest + 1)).leader _)
      rw [update_self]
      exact leaderOk_new h.distinct hnumbered he _ gossip epoch
    · show Exact site.mixIndex _ (update node.terms (node.newest + 1) _
        (node.newest + 1)).runtime.aggregates
      rw [update_self]
      exact exact_clear _

end

/-! ## The account of a rule and key -/

/-- The events that a pass has planned. -/
def Worker.planned : Worker → List QueueEvent
  | .deciding pass => pass.tally.allEvents
  | .pushing _ => []

@[simp] theorem Worker.planned_deciding (pass : Pass) :
    (Worker.deciding pass).planned = pass.tally.allEvents := rfl

@[simp] theorem Worker.planned_pushing (events : List QueueEvent) :
    (Worker.pushing events).planned = [] := rfl

namespace Node

variable {n : ℕ} {env : Platform} {node node' : Node n}

def plannedWeight (weight : QueueEvent → ℕ) (workers : Fin n → Worker) : ℕ :=
  ∑ w, weigh weight (workers w).planned

theorem plannedWeight_update (weight : QueueEvent → ℕ) (workers : Fin n → Worker) (w : Fin n)
    (worker : Worker) : plannedWeight weight (update workers w worker) +
      weigh weight (workers w).planned =
    plannedWeight weight workers + weigh weight worker.planned :=
  Slots.sum_comp_update workers w worker fun worker => weigh weight worker.planned

/-- A worker that pushes has planned nothing. -/
theorem plannedWeight_pushing_le (weight : QueueEvent → ℕ) (workers : Fin n → Worker) (w : Fin n)
    (events : List QueueEvent) :
    plannedWeight weight (update workers w (.pushing events)) ≤ plannedWeight weight workers :=
  (Nat.le_add_right _ _).trans (plannedWeight_update weight workers w (.pushing events)).le

/-- The events of allowed requests, and those of passes that may still be rejected. -/
def admittedWeight (node : Node n) (weight : QueueEvent → ℕ) : ℕ :=
  weigh weight node.history.admitted + plannedWeight weight node.workers

/-- The newest term. -/
def leading (node : Node n) : Term := node.terms node.newest

def pendingWeight (node : Node n) (weight : QueueEvent → ℕ) : ℕ :=
  plannedWeight weight node.workers + waitingWeight weight node.workers +
    weigh weight node.leading.channel + weigh weight node.queued

/-- The events that other terms than `t` have popped. -/
def poppedBeside (t : ℕ) (popped : List (ℕ × QueueEvent)) : List QueueEvent :=
  (popped.filter (¬·.1 = t)).map Prod.snd

theorem weigh_popped (weight : QueueEvent → ℕ) (t : ℕ) (popped : List (ℕ × QueueEvent)) :
    weigh weight (popped.map Prod.snd) =
      weigh weight (poppedBy t popped) + weigh weight (poppedBeside t popped) := by
  have hperm := ((List.filter_append_perm (fun p : ℕ × QueueEvent => decide (p.1 = t)) popped).map
    fun p => weight p.2).sum_eq
  rw [List.map_append, List.sum_append] at hperm
  simpa [weigh, poppedBy, poppedBeside, Function.comp_def] using hperm.symm

def lostWeight (node : Node n) (weight : QueueEvent → ℕ) : ℕ :=
  weigh weight node.history.dropped + weigh weight (poppedBeside node.newest node.history.popped) +
    weigh weight node.leading.missed

/-- What the table has for a rule and key in a bucket. -/
def recordedAt (site : Site) (node : Node n) (rule : Rule) (keyHash : KeyHash) (bucket : ℕ) : ℕ :=
  (node.table.get site.mixIndex (Server.identityFor rule keyHash bucket)).elim 0 AggregateCell.count

/-- What the cells of a runtime have for it. -/
def cellHits (rule : Rule) (keyHash : KeyHash) (runtime : Runtime .u32) (bucket : ℕ) : ℕ :=
  runtime.store.identityTotal (Server.identityFor rule keyHash bucket)

def account (site : Site) (node : Node n) (rule : Rule) (keyHash : KeyHash) : Account where
  now := rule.current node.clock
  admitted := fun bucket => node.admittedWeight (hitsAt rule keyHash bucket)
  recorded := node.recordedAt site rule keyHash
  pending := fun bucket => node.pendingWeight (hitsAt rule keyHash bucket)
  lost := fun bucket => node.lostWeight (hitsAt rule keyHash bucket)
  late := fun bucket =>
    weigh (hitsAt rule keyHash bucket) node.history.late

/-- **What is admitted and neither pending nor lost was counted.** -/
theorem Conserved.admittedWeight_eq {bits : ℕ} (h : Conserved bits node) (weight : QueueEvent → ℕ) :
    node.admittedWeight weight =
      node.pendingWeight weight + node.lostWeight weight + weigh weight node.leading.counted := by
  have hadmitted := h.admitted weight
  have horder := congrArg (weigh weight) h.order
  have hpopped := congrArg (weigh weight) (h.terms node.newest le_rfl).popped
  simp only [weigh_append, weigh_popped weight node.newest] at horder hpopped
  unfold admittedWeight pendingWeight lostWeight leading
  omega

/-- The hits of the live buckets that the newest term has counted are in the table. -/
def Counted (site : Site) (rule : Rule) (keyHash : KeyHash) (node : Node n) : Prop :=
  ∀ bucket < 2 ^ 32, rule.current node.clock < bucket + rule.liveBuckets →
    weigh (hitsAt rule keyHash bucket) node.leading.counted ≤
        node.recordedAt site rule keyHash bucket ∨
      u32Max ≤ node.recordedAt site rule keyHash bucket

theorem Counted.accounted {bits : ℕ} (h : Counted site rule keyHash node) (hc : Conserved bits node)
    {bucket : ℕ} (hb : bucket ∈ rule.windows.span (rule.current node.clock)) :
    (node.account site rule keyHash).Accounted u32Max bucket := by
  obtain ⟨hle, hlive⟩ := mem_windowSpan.1 hb
  refine (h bucket (hle.trans_lt (rule.current_lt _)) hlive).imp_left fun hcounted => ?_
  have heq := hc.admittedWeight_eq (hitsAt rule keyHash bucket)
  show node.admittedWeight _ ≤ node.recordedAt site rule keyHash bucket + node.pendingWeight _ +
    node.lostWeight _
  omega

/-- While the newest store has the lease, the table has the counts of its cells. -/
theorem recordedAt_eq (h : Ready site node) (hrejected : node.history.rejected = false)
    (hcurrent : node.leading.epoch = node.leaseEpoch) (hrule : rule ∈ site.ruleTable)
    (keyHash : KeyHash) (bucket : ℕ) :
    node.recordedAt site rule keyHash bucket =
      cellHits rule keyHash node.leading.runtime bucket := by
  obtain ⟨pins, hleader⟩ := h.leads.leader hcurrent
  obtain ⟨applies, hagree, happlies⟩ := hleader.agree
  have happ : node.leading.runtime.store.appliesTo rule.fingerprint = true :=
    (hagree.applies _).trans (happlies rule hrule)
  have hrow : rowCount node.leading.runtime.aggregates (Server.identityFor rule keyHash bucket) =
      cellHits rule keyHash node.leading.runtime bucket := by
    have haggregates : node.leading.runtime.aggregates = _ := hagree.aggregates
    rw [rowCount, haggregates, DashMapStore.getD_ofTotals, CellTable.localTotals]
    exact if_pos happ
  exact ((h.leads.exact hrejected hcurrent).get _).trans hrow

/-- The drain loop of a term counts nothing. -/
theorem Counted.drained {t : ℕ} (term : Term) {queue : RequestQueue}
    {popped : List (ℕ × QueueEvent)} (h : Counted site rule keyHash node)
    (hterm : term.counted = (node.terms t).counted) : Counted site rule keyHash
      { node.setTerm t term with queue, history := { node.history with popped } } := by
  intro bucket hb hlive
  have hcounted : (update node.terms t term node.newest).counted = node.leading.counted :=
    apply_update_eq Term.counted hterm node.newest
  rw [leading, setTerm, hcounted]
  exact h bucket hb hlive

/-- **An iteration** keeps the counted hits in the table, if it does so for the cells of a store
    that has the lease. -/
theorem Counted.turned {t now : ℕ} {arm : ArmOutcome} {leader : LeaderRuntime} {term : Term}
    {rejects : Bool} (h : Counted site rule keyHash node) (hready : Ready site node)
    (hready' : Ready site (node.turned t now leader term rejects))
    (hrejected : (node.turned t now leader term rejects).history.rejected = false)
    (hrule : rule ∈ site.ruleTable) (ht : t ≤ node.newest) (hnow : node.clock ≤ now)
    (hfit : now / rule.bucketMillis < 2 ^ 32) (hepoch : term.epoch = (node.terms t).epoch)
    (hit : node.iterate site env t now arm = some leader)
    (hstale : (node.terms t).epoch ≠ node.leaseEpoch → term.counted = (node.terms t).counted)
    (hcells : ∀ pins, LeaderOk pins site ((node.terms t).leader node.table) →
      (node.terms t).epoch = node.leaseEpoch → Runtime.Iterated env (node.terms t).runtime
        ((node.terms t).runtime.tableCall env now ((node.terms t).runtime.firedArm arm))
        leader.runtime → ∀ bucket < 2 ^ 32, rule.current now < bucket + rule.liveBuckets →
      cellHits rule keyHash (node.terms t).runtime bucket ≤
          cellHits rule keyHash leader.runtime bucket ∧
        (weigh (hitsAt rule keyHash bucket) (node.terms t).counted ≤
            cellHits rule keyHash (node.terms t).runtime bucket →
          weigh (hitsAt rule keyHash bucket) term.counted ≤
              cellHits rule keyHash leader.runtime bucket ∨
            u32Max ≤ cellHits rule keyHash leader.runtime bucket)) :
    Counted site rule keyHash (node.turned t now leader term rejects) := by
  intro bucket hb hlive
  have hold := h bucket hb ((rule.current_mono hnow hfit).1.trans_lt hlive)
  by_cases hcurrent : (node.terms t).epoch = node.leaseEpoch
  · obtain rfl := hready.leads.eq_newest ht hcurrent
    obtain ⟨pins, hleader⟩ := hready.leads.leader hcurrent
    rw [iterate, ← hcurrent] at hit
    have hleading : (node.turned node.newest now leader term rejects).leading =
        { term with runtime := leader.runtime } := update_self ..
    have hbefore : node.history.rejected = false :=
      (Bool.or_eq_false_iff.1 (Bool.or_eq_false_iff.1 hrejected).1).1
    have hafter := recordedAt_eq hready' hrejected (by rw [hleading]; exact hepoch.trans hcurrent)
      hrule keyHash bucket
    obtain ⟨hmono, hcounts⟩ :=
      hcells pins hleader hcurrent (hleader.iteration hit).2.1 bucket hb hlive
    rw [recordedAt_eq hready hbefore hcurrent hrule] at hold
    rw [hafter, hleading]
    exact hold.elim hcounts fun hcap => .inr (hcap.trans hmono)
  · -- the store writes nothing
    have htable : leader.store.table = node.table :=
      congrArg ShmAggregateStore.table (LeaderRuntime.iteration_stale (Ne.symm hcurrent) hit)
    have hcounted : (node.turned t now leader term rejects).leading.counted =
        node.leading.counted := by
      show (update node.terms t { term with runtime := leader.runtime } node.newest).counted = _
      refine apply_update_eq Term.counted ?_ node.newest
      exact hstale hcurrent
    rw [hcounted, recordedAt]
    show _ ≤ (leader.store.table.get site.mixIndex _).elim 0 _ ∨
      _ ≤ (leader.store.table.get site.mixIndex _).elim 0 _
    rw [htable]
    exact hold

/-- **One step** keeps the counted hits in the table. -/
theorem Counted.moved {e : Event n} (h : Counted site rule keyHash node) (hready : Ready site node)
    (hready' : Ready site node') (h32 : rule.Fits32) (hrule : rule ∈ site.ruleTable)
    (hm : Moved site env node e node') (hfit : node'.clock / rule.bucketMillis < 2 ^ 32)
    (hrejected : node'.history.rejected = false) : Counted site rule keyHash node' := by
  cases hm with
  | arrive w ruleIndices vars now hw hnow =>
    exact fun bucket hb hlive => h bucket hb ((rule.current_mono hnow hfit).1.trans_lt hlive)
  | ask w pass index rest outcome hw ha ho => exact h
  | conclude w pass events hw hevents => exact h
  | push w event rest queue result hw hpush => exact h
  | reserve t ht hchannel =>
    exact h.drained (node.terms t).reserve rfl
  | pop t queue event ht hpermits hpop =>
    exact h.drained ((node.terms t).pop event) rfl
  | turn e t now arm leader ht hnow harm hit =>
    refine h.turned hready hready' hrejected hrule ht hnow hfit rfl hit (fun _ => rfl)
      fun pins hleader _ hiterated bucket hb hlive => ?_
    obtain ⟨applies, hagree, -⟩ := hleader.agree
    obtain ⟨slot, hholds⟩ := hleader.holds rule hrule
    have hle := Runtime.Iterated.identityTotal_le hagree.inv hholds h32
      (Service.unowned_tableCall harm _ now) hiterated keyHash hb hlive
    exact ⟨hle, fun hcounted => .inl (hcounted.trans hle)⟩
  | ingest t now event rest leader ht hnow hchannel hflush hit =>
    refine h.turned hready hready' hrejected hrule ht hnow hfit (Term.take_epoch _ _ _ _) hit
      (fun hstale => ?_) fun pins hleader hcurrent hiterated bucket hb hlive => ?_
    · rw [Term.take, if_neg hstale]
    · obtain ⟨applies, hagree, -⟩ := hleader.agree
      have hok : ((node.terms t).runtime.store.ingestRow
          ((limitRequest event).observation .u32) []).2.2.isOk = true :=
        (Bool.not_eq_false' _).mp (Bool.or_eq_false_iff.1 hrejected).2
      rw [Runtime.firedArm, if_neg (by rw [hflush]; decide)] at hiterated
      obtain ⟨hmono, hcounts⟩ := Runtime.Iterated.ingested (limitRequest event) hagree.inv hok
        hiterated (Server.identityFor rule keyHash bucket)
      refine ⟨hmono, fun hcounted => ?_⟩
      rw [Term.take, if_pos hcurrent, weigh_append, weigh_cons, weigh_nil, Nat.add_zero,
        hitsAt_eq_identity hb]
      exact hcounts.imp_left fun hle => (Nat.add_le_add_right hcounted _).trans hle
  | acquire => exact h
  | takeOver s₀ gossip epoch hepoch =>
    intro bucket _ _
    have hleading : (node.takenOver site s₀ gossip epoch).leading = .new site s₀ gossip epoch :=
      update_self ..
    rw [hleading]
    exact .inl (Nat.zero_le _)

/-! ## Reading the table -/

/-- What the check of a rule has read. -/
theorem room_of_check (h32 : rule.Fits32) {now : ℕ} {descriptors : List Descriptor}
    (hcheck : min (windowTotalFor (site.ctx node.table) now rule descriptors + 1) u64Max ≤
      rule.limit) (hkey : hashKey site.crates rule.id site.domain descriptors = keyHash) :
    ∑ bucket ∈ windowSpan (rule.current now) rule.liveBuckets,
      node.recordedAt site rule keyHash bucket + 1 ≤ rule.limit := by
  have hbucket : max rule.bucketMillis 1 = rule.bucketMillis := max_eq_left rule.bucket_pos
  have hlive : max rule.liveBuckets 1 = rule.liveBuckets := by
    have hpos : rule.descriptor.bucketMillis ≠ 0 := by
      rw [show rule.descriptor.bucketMillis = rule.bucketMillis from min_eq_left h32.bucket]
      exact rule.bucket_pos.ne'
    rw [← h32.liveBuckets, RuleDescriptor.liveBuckets, if_neg hpos]
    exact max_eq_left (le_max_right _ _)
  have hcount : ∀ bucket, DashMapStore.countFor ⟨(node.table.reader site.mixIndex).get⟩
      rule.fingerprint keyHash bucket =
        node.recordedAt site rule keyHash bucket := by
    intro bucket
    show ((node.table.get site.mixIndex _).map AggregateCell.count).getD 0 = _
    unfold recordedAt Server.identityFor
    cases node.table.get site.mixIndex _ <;> rfl
  have htotal : windowTotalFor (site.ctx node.table) now rule descriptors =
      min (∑ bucket ∈ windowSpan (rule.current now) rule.liveBuckets,
        node.recordedAt site rule keyHash bucket) u64Max := by
    rw [windowTotalFor, AggregateTable.windowTotal_eq, windowTotal_eq, hbucket, hlive]
    refine congrArg (min · u64Max) (Finset.sum_congr rfl fun bucket _ => ?_)
    rw [← hcount, ← hkey]
    rfl
  rw [htotal] at hcheck
  have hbig : u32Max < u64Max := by decide
  have hlim := h32.limit
  omega

/-! ## What a decision cannot see -/

theorem pending_le {bits : ℕ} (h : Ready site node) (hc : Conserved bits node) {w : Fin n}
    (hw : ∀ event ∈ (node.workers w).events, event.ruleFingerprint ≠ rule.fingerprint) (now : ℕ) :
    ∑ bucket ∈ windowSpan (rule.current now) rule.liveBuckets,
      node.pendingWeight (hitsAt rule keyHash bucket) ≤
        n - 1 + drainBatch + 2 ^ bits := by
  generalize windowSpan (rule.current now) rule.liveBuckets = span
  have hevents : ∀ weight v, weigh weight (node.workers v).events =
      weigh weight (node.workers v).planned + weigh weight (node.workers v).waiting := by
    intro weight v
    cases node.workers v with
    | deciding pass => exact (Nat.add_zero _).symm
    | pushing events => exact (Nat.zero_add _).symm
  have hsplit : ∀ weight, node.pendingWeight weight = ∑ v, weigh weight (node.workers v).events +
      weigh weight node.leading.channel + weigh weight node.queued := by
    intro weight
    simp only [hevents, Finset.sum_add_distrib]
    rfl
  have hterm := hc.terms node.newest le_rfl
  have hchannel : ∀ event ∈ node.leading.channel, event.hits = 1 := by
    intro event he
    have hpopped : event ∈ poppedBy node.newest node.history.popped := by
      rw [hterm.popped]
      exact List.mem_append_right _ he
    obtain ⟨p, hp, rfl⟩ := List.mem_map.1 hpopped
    refine h.pushed p.2 ?_
    rw [hc.order]
    exact List.mem_append_left _ (List.mem_map_of_mem (List.mem_filter.1 hp).1)
  have hqueued : ∀ event ∈ node.queued, event.hits = 1 := fun event he =>
    h.pushed event (by rw [hc.order]; exact List.mem_append_right _ he)
  have hbound : ∀ events : List QueueEvent, (∀ event ∈ events, event.hits = 1) →
      ∑ bucket ∈ span, weigh (hitsAt rule keyHash bucket) events ≤
        events.length := fun events hone =>
    (sum_hitsAt_le span events).trans (weigh_ruleHits_le_length _ hone)
  have hother : ∀ v, ∑ bucket ∈ span,
      weigh (hitsAt rule keyHash bucket) (node.workers v).events ≤ 1 := fun v =>
    (sum_hitsAt_le span _).trans ((h.workers v).events.weigh_le_one _)
  have hself : ∑ bucket ∈ span,
      weigh (hitsAt rule keyHash bucket) (node.workers w).events = 0 :=
    Nat.eq_zero_of_le_zero ((sum_hitsAt_le span _).trans (weigh_ruleHits_eq_zero hw).le)
  have hworkers : ∑ v, ∑ bucket ∈ span,
      weigh (hitsAt rule keyHash bucket) (node.workers v).events ≤ n - 1 := by
    rw [← Finset.add_sum_erase _ _ (Finset.mem_univ w), hself, Nat.zero_add]
    calc _ ≤ ∑ _v ∈ Finset.univ.erase w, 1 := Finset.sum_le_sum fun v _ => hother v
      _ = n - 1 := by
        rw [Finset.sum_const, Finset.card_erase_of_mem (Finset.mem_univ w), Finset.card_univ,
          Fintype.card_fin, smul_eq_mul, Nat.mul_one]
  simp only [hsplit, Finset.sum_add_distrib]
  rw [Finset.sum_comm]
  refine Nat.add_le_add (Nat.add_le_add hworkers ?_) ?_
  · exact (hbound _ hchannel).trans ((Nat.le_add_right _ _).trans hterm.batch)
  · refine (hbound _ hqueued).trans ?_
    rw [← hc.bits]
    exact hc.holds.length_le

/-! ## Steps keep the account -/

/-- The event of a rule counts for its key in the bucket of its time. -/
theorem hitsAt_eventFor (ctx : AccessCtx) (now : ℕ) (asked : Rule) (descriptors : List Descriptor)
    (bucket : ℕ) : hitsAt rule keyHash bucket (eventFor ctx now asked descriptors) =
      if asked.fingerprint = rule.fingerprint ∧
        hashKey ctx.crates asked.id ctx.domain descriptors = keyHash ∧ asked.current now = bucket
      then 1 else 0 := by
  refine if_congr ?_ rfl rfl
  rw [eventFor, BitVec.toNat_ofNat]
  rfl

theorem late_of_allow {clock now : ℕ} {asked : Rule} {snapshot : QuotaSnapshot} {event : QueueEvent}
    (hspec : snapshot.spec = asked.spec) (hlate : asked.current now ≠ asked.current clock) :
    lateEvents clock now (.allow snapshot [event]) = [event] := by
  refine if_neg fun heq => hlate ?_
  rw [hspec] at heq
  exact congrArg (· % 2 ^ 32) heq

/-- The rule asked is the one with its fingerprint. -/
theorem eq_of_fingerprint (h : Ready site node) (hrule : rule ∈ site.ruleTable) {index : ℕ}
    {compiled : CompiledRule} (hindex : site.rules[index]? = some compiled)
    (hfp : compiled.rule.fingerprint = rule.fingerprint) : compiled.rule = rule :=
  List.inj_on_of_nodup_map h.distinct
    (List.mem_map.2 ⟨compiled, List.mem_of_getElem? hindex, rfl⟩) hrule hfp

section Answer

variable {w : Fin n} {pass : Pass} (rest : List ℕ) (outcome : RuleOutcome)

theorem answered_planned (hw : node.workers w = .deciding pass) (weight : QueueEvent → ℕ) :
    plannedWeight weight (node.answered w pass rest outcome).workers +
        weigh weight pass.tally.allEvents =
      plannedWeight weight node.workers + weigh weight (pass.tally.add outcome).allEvents := by
  have hsum := plannedWeight_update weight node.workers w
    (.deciding { pass with asking := rest, tally := pass.tally.add outcome })
  rwa [hw, Worker.planned_deciding, Worker.planned_deciding] at hsum

theorem answered_waiting (hw : node.workers w = .deciding pass) (weight : QueueEvent → ℕ) :
    waitingWeight weight (node.answered w pass rest outcome).workers =
      waitingWeight weight node.workers := by
  have hsum := waitingWeight_update weight node.workers w
    (.deciding { pass with asking := rest, tally := pass.tally.add outcome })
  rwa [hw, Worker.waiting_deciding, Worker.waiting_deciding] at hsum

/-- An answer adds nothing to the account of a rule and key that its events are not for. -/
theorem answered_weights (hw : node.workers w = .deciding pass) (weight : QueueEvent → ℕ) (hits : ℕ)
    (hhits : weigh weight (pass.tally.add outcome).allEvents =
      weigh weight pass.tally.allEvents + hits) :
    (node.answered w pass rest outcome).admittedWeight weight = node.admittedWeight weight + hits ∧
      (node.answered w pass rest outcome).pendingWeight weight =
        node.pendingWeight weight + hits := by
  have hplanned := answered_planned rest outcome hw weight
  have hwaiting := answered_waiting rest outcome hw weight
  have hplanned : plannedWeight weight (node.answered w pass rest outcome).workers =
      plannedWeight weight node.workers + hits := by omega
  have hqueued : (node.answered w pass rest outcome).queued = node.queued := rfl
  have hleading : (node.answered w pass rest outcome).leading = node.leading := rfl
  unfold admittedWeight pendingWeight
  rw [hplanned, hwaiting, hqueued, hleading]
  exact ⟨(Nat.add_assoc _ _ _).symm, by omega⟩

/-- **A rule allows a request**: a decision. -/
theorem answered_admits {bits index : ℕ} {compiled : CompiledRule} {snapshot : QuotaSnapshot}
    {descriptors : List Descriptor} {event : QueueEvent} (h : Ready site node)
    (hc : Conserved bits node) (h32 : rule.Fits32) (hrule : rule ∈ site.ruleTable) (hmode : rule.mode = .enforce)
    (hfit : node.clock / rule.bucketMillis < 2 ^ 32) (hw : node.workers w = .deciding pass)
    (ha : pass.asking = index :: rest) (hindex : site.rules[index]? = some compiled)
    (hevent : eventFor (site.ctx node.table) pass.now compiled.rule descriptors = event)
    (hspec : snapshot.spec = compiled.rule.spec) (hcheck : compiled.rule.mode = .enforce →
      min (windowTotalFor (site.ctx node.table) pass.now compiled.rule descriptors + 1) u64Max ≤
        compiled.rule.limit)
    (hpast : ∀ bucket, (node.account site rule keyHash).admitted bucket ≠ 0 →
      bucket ≤ rule.current node.clock) :
    Account.Admits rule.windows rule.limit (n - 1 + drainBatch + 2 ^ bits) (rule.current pass.now)
      (fun bucket => hitsAt rule keyHash bucket event) (node.account site rule keyHash)
      ((node.answered w pass rest (.allow snapshot [event])).account site rule keyHash) := by
  have hok := h.pass hw
  have hlength : pass.tally.allEvents.length < maxMatchedRules := by
    have hroom := hok.room
    rw [ha, List.length_cons] at hroom
    omega
  -- only the rule itself has planned hits for it
  have htarget : ∀ {bucket}, hitsAt rule keyHash bucket event ≠ 0 → compiled.rule = rule ∧
      hashKey site.crates compiled.rule.id site.domain descriptors = keyHash ∧
      compiled.rule.current pass.now = bucket := by
    intro bucket hne
    rw [← hevent, hitsAt_eventFor] at hne
    obtain ⟨hfp, hkey, hbucket⟩ := of_not_not fun hc => hne (if_neg hc)
    exact ⟨eq_of_fingerprint h hrule hindex hfp, hkey, hbucket⟩
  have hweights := fun bucket => answered_weights rest (.allow snapshot [event]) hw
    (hitsAt rule keyHash bucket) (hitsAt rule keyHash bucket event) (by
    rw [add_allEvents_of_allow _ _ hlength, weigh_append, weigh_cons, weigh_nil, Nat.add_zero])
  refine ⟨rfl, (rule.current_mono hok.time hfit).1, fun bucket hne => ?_,
    fun bucket => (hweights bucket).1, fun _ => rfl, fun bucket => (hweights bucket).2.ge,
    fun _ => rfl, fun bucket => ?_, fun b hb hne bucket => ?_, fun hne => ?_, fun hne => ?_⟩
  · obtain ⟨rfl, -, hbucket⟩ := htarget hne
    exact hbucket.symm
  · show weigh _ node.history.late ≤ weigh _ (node.history.late ++ lateEvents _ _ _)
    rw [weigh_append]
    exact Nat.le_add_right _ _
  · show weigh _ node.history.late + _ ≤ weigh _ (node.history.late ++ lateEvents _ _ _)
    rw [weigh_append]
    refine Nat.add_le_add_left ?_ _
    by_cases hzero : hitsAt rule keyHash bucket event = 0
    · exact hzero ▸ Nat.zero_le _
    · -- hits of a later bucket were allowed by the clock
      obtain ⟨rfl, -, -⟩ := htarget hzero
      rw [late_of_allow hspec (hb.trans_le (hpast b hne)).ne, weigh_cons]
      exact Nat.le_add_right _ _
  · obtain ⟨rfl, hkey, hbucket⟩ := htarget hne
    rw [← hevent, hitsAt_eventFor, if_pos ⟨rfl, hkey, hbucket⟩]
    exact room_of_check h32 (hcheck hmode) hkey
  · obtain ⟨rfl, -, -⟩ := htarget hne
    refine pending_le h hc (w := w) ?_ node.clock
    rw [hw]
    exact hok.fresh index (ha ▸ List.mem_cons_self) compiled hindex

end Answer

theorem weigh_missed_take_le (weight : QueueEvent → ℕ) (term : Term) (leaseEpoch : ℕ)
    (event : QueueEvent) (rest : List QueueEvent) :
    weigh weight term.missed ≤ weigh weight (term.take leaseEpoch event rest).missed := by
  unfold Term.take
  split_ifs
  · exact le_rfl
  · simp only [weigh_append]
    exact Nat.le_add_right _ _

theorem weigh_missed_update_le {weight : QueueEvent → ℕ} {t : ℕ} (term : Term)
    (h : weigh weight (node.terms t).missed ≤ weigh weight term.missed) :
    weigh weight node.leading.missed ≤
      weigh weight (update node.terms t term node.newest).missed := by
  by_cases hnewest : node.newest = t
  · rw [leading, hnewest, update_self]
    exact h
  · rw [update_of_ne hnewest]
    exact le_rfl

/-- **What is lost stays lost.** -/
theorem Moved.lostWeight_le {bits : ℕ} {e : Event n} (hm : Moved site env node e node')
    (hc : Conserved bits node) (weight : QueueEvent → ℕ) :
    node.lostWeight weight ≤ node'.lostWeight weight := by
  cases hm with
  | arrive | ask | conclude | acquire => exact le_rfl
  | push w event rest queue result hw hpush =>
    cases result with
    | ok => exact le_rfl
    | queueOverflow =>
      simp only [lostWeight, pushed, leading, weigh_append]
      omega
  | reserve t ht hchannel =>
    exact Nat.add_le_add_left (weigh_missed_update_le (node.terms t).reserve le_rfl) _
  | pop t queue event ht hpermits hpop =>
    refine Nat.add_le_add (Nat.add_le_add_left ?_ _)
      (weigh_missed_update_le ((node.terms t).pop event) le_rfl)
    simp only [popped, setTerm, poppedBeside, List.filter_append, List.map_append, weigh_append]
    exact Nat.le_add_right _ _
  | turn e t now arm leader ht hnow harm hit =>
    exact Nat.add_le_add_left (weigh_missed_update_le
      { node.terms t with runtime := leader.runtime } le_rfl) _
  | ingest t now event rest leader ht hnow hchannel hflush hit =>
    exact Nat.add_le_add_left (weigh_missed_update_le
      { (node.terms t).take node.leaseEpoch event rest with runtime := leader.runtime }
      (weigh_missed_take_le weight _ _ event rest)) _
  | takeOver s₀ gossip epoch hepoch =>
    -- the new term has popped nothing, so all that was popped counts as lost
    have hbefore := weigh_popped weight node.newest node.history.popped
    have hafter := weigh_popped weight (node.newest + 1) node.history.popped
    have hpopped := congrArg (weigh weight) (hc.terms node.newest le_rfl).popped
    have hnone : poppedBy (node.newest + 1) node.history.popped = [] :=
      poppedBy_eq_nil fun p hp => (Nat.lt_succ_of_le (hc.begun p hp)).ne
    rw [hnone, weigh_nil, Nat.zero_add] at hafter
    simp only [weigh_append] at hpopped
    show _ + _ + weigh weight (node.terms node.newest).missed ≤ weigh weight node.history.dropped +
      weigh weight (poppedBeside (node.newest + 1) node.history.popped) + _
    omega

/-- **One step** keeps the account of an enforcing rule. -/
theorem within_moved {bits : ℕ} {e : Event n} (h : Ready site node) (hc : Conserved bits node)
    (hcounted : Counted site rule keyHash node') (hc' : Conserved bits node')
    (hm : Moved site env node e node') (h32 : rule.Fits32) (hrule : rule ∈ site.ruleTable)
    (hmode : rule.mode = .enforce) (hfit : node'.clock / rule.bucketMillis < 2 ^ 32)
    (hw : rule.Bounds (n - 1 + drainBatch + 2 ^ bits) (node.account site rule keyHash)) :
    rule.Bounds (n - 1 + drainBatch + 2 ^ bits) (node'.account site rule keyHash) := by
  -- what a step leaves is accounted for, so that a step which admits nothing only has to lose none
  have hsettle : node.clock ≤ node'.clock →
      (∀ weight, plannedWeight weight node'.workers + weigh weight node'.history.admitted ≤
        plannedWeight weight node.workers + weigh weight node.history.admitted) →
      (∀ weight, weigh weight node.history.late ≤ weigh weight node'.history.late) →
      rule.Bounds (n - 1 + drainBatch + 2 ^ bits) (node'.account site rule keyHash) := by
    intro hclock hadmitted hlate
    refine hw.settle (rule.current_mono hclock hfit).1 (fun bucket => ?_)
      (fun _ => hm.lostWeight_le hc _) (fun _ => hlate _)
      fun bucket _ hb => hcounted.accounted hc' hb
    have hle := hadmitted (hitsAt rule keyHash bucket)
    show node'.admittedWeight _ ≤ node.admittedWeight _
    unfold admittedWeight
    omega
  cases hm with
  | arrive w ruleIndices vars now hw hnow =>
    refine hsettle hnow (fun weight => ?_) fun _ => le_rfl
    have hsum := plannedWeight_update weight node.workers w
      (.deciding ⟨now, vars, ruleIndices, .new⟩)
    rw [hw, Worker.planned_pushing, weigh_nil] at hsum
    exact Nat.add_le_add_right hsum.le _
  | ask w pass index rest outcome hpass ha ho =>
    rcases decideOne_cases (site.ctx node.table) pass.vars pass.now index with hnil |
      ⟨compiled, descriptors, snapshot, hindex, hallow, hspec, hcheck⟩
    · refine hsettle le_rfl (fun weight => ?_) fun weight => ?_
      · have hplanned := answered_planned rest outcome hpass weight
        rw [add_allEvents_of_nil (ho ▸ hnil)] at hplanned
        exact Nat.add_le_add_right (Nat.add_right_cancel hplanned).le _
      · show weigh _ _ ≤ weigh _ (_ ++ _)
        rw [weigh_append]
        exact Nat.le_add_right _ _
    · rw [← ho, hallow]
      exact hw.decided _ _ h32.limit
        (answered_admits rest h hc h32 hrule hmode hfit hpass ha hindex rfl hspec hcheck hw.past)
  | conclude w pass events hpass hevents =>
    refine hsettle le_rfl (fun weight => ?_) fun _ => le_rfl
    have hsum := plannedWeight_update weight node.workers w (.pushing events)
    have hle : weigh weight events ≤ weigh weight pass.tally.allEvents := by
      rcases hevents with rfl | rfl
      · exact le_rfl
      · exact Nat.zero_le _
    simp only [hpass, Worker.planned_deciding, Worker.planned_pushing, weigh_nil] at hsum
    simp only [concluded, weigh_append]
    omega
  | push w event rest queue result hpass hpush =>
    have hplanned := fun weight => plannedWeight_pushing_le weight node.workers w rest
    cases result with
    | ok =>
      exact hsettle le_rfl (fun weight => Nat.add_le_add_right (hplanned weight) _) fun _ => le_rfl
    | queueOverflow =>
      exact hsettle le_rfl (fun weight => Nat.add_le_add_right (hplanned weight) _) fun _ => le_rfl
  | reserve | pop | acquire | takeOver => exact hsettle le_rfl (fun _ => le_rfl) fun _ => le_rfl
  | turn e t now arm leader ht hnow harm hit =>
    exact hsettle hnow (fun _ => le_rfl) fun _ => le_rfl
  | ingest t now event rest leader ht hnow hchannel hflush hit =>
    exact hsettle hnow (fun _ => le_rfl) fun _ => le_rfl

/-! ## Runs -/

/-- Nothing was rejected, each store is of a later epoch than the ones before, and the clock fits
    the bucket numbers. -/
structure Smooth (rule : Rule) (node : Node n) : Prop where
  rejected : node.history.rejected = false
  ordered : Ordered node
  fits : node.clock / rule.bucketMillis < 2 ^ 32

/-- **No step makes up for what went wrong.** -/
theorem Moved.smooth {e : Event n} (hm : Moved site env node e node') (h : Smooth rule node') :
    Smooth rule node := by
  obtain ⟨hrejected, hordered, hfits⟩ := h
  have hearlier : ∀ {now : ℕ}, node.clock ≤ now → now / rule.bucketMillis < 2 ^ 32 →
      node.clock / rule.bucketMillis < 2 ^ 32 := fun hnow =>
    (Nat.div_le_div_right hnow).trans_lt
  have hbefore : ∀ {dropped rejects : Bool}, (node.history.rejected || dropped || rejects) =
      false → node.history.rejected = false := fun h =>
    (Bool.or_eq_false_iff.1 (Bool.or_eq_false_iff.1 h).1).1
  -- a step of a term leaves its epoch
  have hepochs : Ordered node' → node'.newest = node.newest →
      (∀ t, (node'.terms t).epoch = (node.terms t).epoch) → Ordered node := by
    intro h hnewest hepoch s t hst ht
    have hlt := h s t hst (hnewest ▸ ht)
    rwa [hepoch, hepoch] at hlt
  cases hm with
  | arrive w ruleIndices vars now hw hnow => exact ⟨hrejected, hordered, hearlier hnow hfits⟩
  | ask | conclude | acquire => exact ⟨hrejected, hordered, hfits⟩
  | push w event rest queue result hw hpush =>
    cases result <;> exact ⟨hrejected, hordered, hfits⟩
  | reserve t ht hchannel =>
    exact ⟨hrejected, hepochs hordered rfl (apply_update_eq Term.epoch rfl), hfits⟩
  | pop t queue event ht hpermits hpop =>
    exact ⟨hrejected, hepochs hordered rfl (apply_update_eq Term.epoch rfl), hfits⟩
  | turn e t now arm leader ht hnow harm hit =>
    exact ⟨hbefore hrejected, hepochs hordered rfl (apply_update_eq Term.epoch rfl),
      hearlier hnow hfits⟩
  | ingest t now event rest leader ht hnow hchannel hflush hit =>
    exact ⟨hbefore hrejected, hepochs hordered rfl
      (apply_update_eq Term.epoch (Term.take_epoch _ _ _ _)), hearlier hnow hfits⟩
  | takeOver s₀ gossip epoch hepoch =>
    refine ⟨hrejected, fun s t hst ht => ?_, hfits⟩
    have hlt := hordered s t hst (ht.trans (Nat.le_succ _))
    change (update node.terms (node.newest + 1) _ s).epoch <
      (update node.terms (node.newest + 1) _ t).epoch at hlt
    rwa [update_of_ne (by omega), update_of_ne (by omega)] at hlt

/-- What a run keeps for an enforcing rule and a key, as long as all is smooth. -/
structure Kept (site : Site) (bits : ℕ) (rule : Rule) (keyHash : KeyHash) (node : Node n) :
    Prop where
  conserved : Conserved bits node
  ready : Smooth rule node → Ready site node
  counted : Smooth rule node → Counted site rule keyHash node
  bounds : Smooth rule node → rule.Bounds (n - 1 + drainBatch + 2 ^ bits)
    (node.account site rule keyHash)

/-- **One step** keeps the account of an enforcing rule. -/
theorem Kept.moved {bits : ℕ} {e : Event n} (h : Kept site bits rule keyHash node)
    (hnumbered : Numbered site) (h32 : rule.Fits32) (hrule : rule ∈ site.ruleTable)
    (hmode : rule.mode = .enforce) (he : Admissible site e) (hm : Moved site env node e node') :
    Kept site bits rule keyHash node' := by
  have hready : Smooth rule node' → Ready site node' := fun hs =>
    (h.ready (hm.smooth hs)).moved h.conserved hnumbered he hs.ordered hm
  have hcounted : Smooth rule node' → Counted site rule keyHash node' := fun hs =>
    (h.counted (hm.smooth hs)).moved (h.ready (hm.smooth hs)) (hready hs) h32 hrule hm hs.fits
      hs.rejected
  refine ⟨h.conserved.moved hm, hready, hcounted, fun hs => ?_⟩
  exact within_moved (h.ready (hm.smooth hs)) h.conserved (hcounted hs) (h.conserved.moved hm) hm
    h32 hrule hmode hs.fits (h.bounds (hm.smooth hs))

section Start

variable {cardinality : CardinalitySettings} {compile : String → Except String BindingLookup}

theorem compileRule_id {x : RuleCrates} {idx : ℕ} {cfg : RuleConfig} {compiled : CompiledRule}
    (h : compileRule x cardinality compile idx cfg = .ok compiled) :
    compiled.rule.id = (idx + 1) % 2 ^ 32 := by
  unfold compileRule at h
  repeat' split at h
  all_goals cases h
  rfl

theorem compileFrom_numbered {x : RuleCrates} : ∀ {configs : List RuleConfig} {idx : ℕ}
    {rules : CompiledRules}, compileFrom x cardinality compile idx configs = .ok rules →
      ∀ (i : ℕ) (compiled : CompiledRule), rules[i]? = some compiled →
        compiled.rule.id = (idx + i + 1) % 2 ^ 32
  | [], idx, rules, h, i, compiled, hi => by
    cases h
    cases hi
  | cfg :: rest, idx, rules, h, i, compiled, hi => by
    unfold compileFrom at h
    split at h
    · cases h
    · rename_i first hfirst
      split at h
      · cases h
      · rename_i others hothers
        cases h
        cases i with
        | zero =>
          cases hi
          exact compileRule_id hfirst
        | succ i =>
          rw [compileFrom_numbered hothers i compiled hi]
          congr 1
          omega

theorem numbered_of_compileWith {x : RuleCrates} {configs : List RuleConfig} {site : Site}
    (h : compileWith x cardinality compile configs = .ok site.rules) : Numbered site := by
  unfold compileWith at h
  split_ifs at h
  intro i rule hi
  rw [Site.ruleTable, List.getElem?_map] at hi
  obtain ⟨compiled, hcompiled, rfl⟩ := Option.map_eq_some_iff.1 hi
  rw [compileFrom_numbered h i compiled hcompiled, Nat.zero_add]

theorem kept_start (keyHash : KeyHash) {bits : ℕ} (bits_pos : 0 < bits) (bits_lt : bits < 63)
    (hdistinct : (site.ruleTable.map Rule.fingerprint).Nodup) (hnumbered : Numbered site)
    {s₀ : CellStore .u32} (hs₀ : Startable site s₀) (table : ShmTable) (gossip : GossipConfig)
    (epoch : ℕ) : Kept site bits rule keyHash
      (start n site (.new bits bits_pos bits_lt) table s₀ gossip epoch) := by
  refine ⟨conserved_start bits bits_pos bits_lt table s₀ gossip epoch,
    fun _ => ⟨hdistinct, ⟨fun t ht => absurd ht (Nat.not_lt_zero t),
      fun _ => leaderOk_new hdistinct hnumbered hs₀ table gossip epoch,
      fun _ _ => exact_clear table⟩, fun _ => EventsOk.nil, fun event he => by cases he⟩,
    fun _ _ _ _ => .inl (Nat.zero_le _), fun _ => ?_⟩
  have hzero : ∀ weight, (start n site (.new bits bits_pos bits_lt) table s₀ gossip
      epoch).admittedWeight weight = 0 := by
    intro weight
    simp [admittedWeight, plannedWeight, start, History.new]
  have hledger : (start n site (.new bits bits_pos bits_lt) table s₀ gossip epoch).account site rule
      keyHash = { (start n site (.new bits bits_pos bits_lt) table s₀ gossip epoch).account site
        rule keyHash with admitted := fun _ => 0 } := by
    simp only [account, hzero]
  rw [hledger]
  exact Account.within_zero _ _ _ _ _

end Start

/-- The hits of allowed requests for the rule and key in the rule's live buckets at time `t`. -/
def admittedHits (node : Node n) (rule : Rule) (keyHash : KeyHash) (t : ℕ) : ℕ :=
  ∑ bucket ∈ windowSpan (rule.current t) rule.liveBuckets,
    weigh (hitsAt rule keyHash bucket) node.history.admitted

/-- Those that were lost: in a full queue, with an earlier term, or in the newest term after its
    store had lost the lease. -/
def lostHits (node : Node n) (rule : Rule) (keyHash : KeyHash) (t : ℕ) : ℕ :=
  ∑ bucket ∈ windowSpan (rule.current t) rule.liveBuckets,
    node.lostWeight (hitsAt rule keyHash bucket)

/-- Those that were decided when the clock had left the bucket of the request. -/
def lateHits (node : Node n) (rule : Rule) (keyHash : KeyHash) (t : ℕ) : ℕ :=
  ∑ bucket ∈ windowSpan (rule.current t) rule.liveBuckets,
    weigh (hitsAt rule keyHash bucket) node.history.late

/-- **nginx overshoots by what is on its way to the leader.**  The rules of a site are compiled,
    with distinct fingerprints, and a leader starts on any table.  Then `n` workers, the drain
    loops and the runtimes take any steps, also in overlapping terms and with datagrams of peers;
    no request asks a rule twice or more rules than are looked at.
    If no hit was rejected for capacity, no count found the table full and each store was built in
    a later epoch than the ones before, then for an enforcing rule and a key, the hits of allowed
    requests in the rule's live buckets, now and at every later time, are at most the limit, one
    for each other worker, a batch and a full queue, and the hits that were lost or decided late. -/
theorem nginx_overshoot (env : Platform) {site : Site} {configs : List RuleConfig}
    {cardinality : CardinalitySettings} {compile : String → Except String BindingLookup}
    (hrules : compileWith site.crates cardinality compile configs = .ok site.rules)
    (hdistinct : (site.ruleTable.map Rule.fingerprint).Nodup) {n bits : ℕ} (bits_pos : 0 < bits)
    (bits_lt : bits < 63) {s₀ : CellStore .u32} (hs₀ : Startable site s₀) (table : ShmTable)
    (gossip : GossipConfig) (epoch : ℕ) (events : List (Event n))
    (hevents : ∀ e ∈ events, Admissible site e) {node : Node n}
    (hrun : (start n site (.new bits bits_pos bits_lt) table s₀ gossip epoch).run site env events =
      some node) (hrejected : node.history.rejected = false) (hordered : Ordered node)
    {rule : Rule} (hrule : rule ∈ site.ruleTable) (h32 : rule.Fits32) (hmode : rule.mode = .enforce)
    (keyHash : KeyHash) (t : ℕ) (ht : node.clock ≤ t) (hepoch : t / rule.bucketMillis < 2 ^ 32) :
    node.admittedHits rule keyHash t ≤ rule.limit + (n - 1 + drainBatch + 2 ^ bits) +
      (node.lostHits rule keyHash t + node.lateHits rule keyHash t) := by
  have hfit : node.clock / rule.bucketMillis < 2 ^ 32 := (Nat.div_le_div_right ht).trans_lt hepoch
  have hnumbered := numbered_of_compileWith hrules
  have hkept := run_induct
    (fun e he _ _ h hm => h.moved hnumbered h32 hrule hmode (hevents e he) hm)
    (kept_start keyHash bits_pos bits_lt hdistinct hnumbered hs₀ table gossip epoch) hrun
  have hbound := (hkept.bounds ⟨hrejected, hordered, hfit⟩).bound (rule.current t)
    (rule.current_mono ht hepoch).1
  rw [Finset.sum_add_distrib] at hbound
  refine le_trans (Finset.sum_le_sum fun bucket _ => ?_) hbound
  exact Nat.le_add_right _ _

/-- A third request after both leaders have ingested what they have. -/
def thirdSteps (s₀ : CellStore .u32) : List (Event 2) :=
  pairSteps s₀ ++ [.arrive first [0] siteVars 5004, .ask first, .conclude first]

/-- The overshoot is real: both workers are allowed at one request a second, one of the hits is lost
    with the old leader, and a third request is not allowed. -/
theorem nginx_overshoot_pair : ∃ (s₀ : CellStore .u32) (node : Node 2) (rule : Rule)
    (keyHash : KeyHash), CellStore.new .u32 CellStore.tinyConfig CellStore.tinyNode = some s₀ ∧
      (pairStart s₀).run pairSite Runtime.tinyPlatform (thirdSteps s₀) = some node ∧
      Ordered node ∧ node.newest = 1 ∧ rule ∈ pairSite.ruleTable ∧ rule.limit = 1 ∧
      node.admittedHits rule keyHash 5400 = 2 ∧ node.lostHits rule keyHash 5400 = 1 ∧
      node.lateHits rule keyHash 5400 = 0 ∧
      node.admittedHits rule keyHash 5400 ≤ rule.limit + (2 - 1 + drainBatch + 2 ^ 1) +
        (node.lostHits rule keyHash 5400 + node.lateHits rule keyHash 5400) := by
  have heval : ((registerRules tinyStore pairSite.ruleTable).bind fun _ =>
      pairSite.ruleTable.head?.bind fun rule =>
        ((pairStart tinyStore).run pairSite Runtime.tinyPlatform (thirdSteps tinyStore)).map
          fun node =>
          let keyHash := hashKey siteCrates rule.id "nginx" [⟨"addr", "10.0.0.1"⟩]
          (node.history.rejected, rule.limit, node.admittedHits rule keyHash 5400,
            node.lostHits rule keyHash 5400, node.lateHits rule keyHash 5400,
            decide (rule.limit ≤ u32Max ∧ rule.windowMillis ≤ u32Max ∧ rule.bucketMillis ≤ u32Max ∧
              rule.mode = .enforce ∧ node.clock ≤ 5400 ∧ 5400 / rule.bucketMillis < 2 ^ 32 ∧
              node.newest = 1 ∧ (node.terms 0).epoch < (node.terms 1).epoch))) =
      some (false, 1, 2, 1, 0, true) := by decide +kernel
  have hok : (compileWith siteCrates .default siteCompiler [siteConfig 1]).toOption.isSome = true ∧
      (pairSite.ruleTable.map Rule.fingerprint).Nodup := by decide +kernel
  obtain ⟨s, hreg, hrest⟩ := Option.bind_eq_some_iff.1 heval
  obtain ⟨rule, hhead, hrest⟩ := Option.bind_eq_some_iff.1 hrest
  obtain ⟨node, hrun, hvals⟩ := Option.map_eq_some_iff.1 hrest
  simp only [Prod.mk.injEq, decide_eq_true_eq] at hvals
  obtain ⟨hrejected, hlimit, hadmitted, hlost, hlate, hl, hw, hb, hmode, ht, hepoch, hnewest,
    hlater⟩ := hvals
  have hordered : Ordered node := by
    intro i j hij hj
    obtain ⟨rfl, rfl⟩ : i = 0 ∧ j = 1 := by omega
    exact hlater
  have hrule : rule ∈ pairSite.ruleTable := List.mem_of_mem_head? hhead
  have hrules : compileWith siteCrates .default siteCompiler [siteConfig 1] =
      .ok pairSite.rules := by
    unfold pairSite
    cases hc : compileWith siteCrates .default siteCompiler [siteConfig 1] with
    | ok rules => rfl
    | error e =>
      rw [hc] at hok
      cases hok.1
  have hstart : Startable pairSite tinyStore := ⟨_, _, s, tinyStore_new, hreg⟩
  refine ⟨tinyStore, node, rule, _, tinyStore_new, hrun, hordered, hnewest, hrule, hlimit,
    hadmitted, hlost, hlate, ?_⟩
  refine nginx_overshoot Runtime.tinyPlatform hrules hok.2 (by decide) (by decide) hstart
    (.new 1 (by decide) (by decide)) Runtime.tinyGossip 3 _ (fun e he => ?_) hrun hrejected hordered
    hrule ⟨hl, hw, hb⟩ hmode _ 5400 ht hepoch
  fin_cases he <;> first | exact trivial | exact hstart | exact ⟨by decide, by decide⟩

end Node

end Pipeline

end Nginx

end Gabion

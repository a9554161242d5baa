/-
  From the access handlers to the leaders' counts (`nginx/src/access.rs`, `nginx/src/leader.rs`).

  A worker asks its rules one after the other, each against the table as it is at that moment,
  and pushes the events of an allowed request to the queue in shared memory, one after the other.
  A leader moves events in passes: it waits until the request channel of its gossip runtime is
  empty, and pops at most `DRAIN_BATCH` events into it.  The runtime takes them from the channel
  one at a time, between its other arms, and writes the counts to the table, unless the lease has
  another epoch by then than its store.

  Terms overlap.  A leader that has stalled past the time to live finds the lease with another
  worker only when it next tries to renew it; until then its drain loop pops beside the new one's,
  and a released lease it even renews and goes on with its old store.  So every term keeps its own
  channel, runtime and store, any term may take the next step, and the epoch of the lease moves on
  by itself.  A term has ended when it takes no more steps; what its channel holds is lost then.

  Workers, drain loops and runtimes take their steps in any order, except that the drain loop and
  the runtime of a term share a thread: no arm fires in the middle of a pass.  Queue and table are
  those of `Nginx.Queue` and `Nginx.Table`; an iteration of a runtime, with its look at the lease
  and its writes, is one step, and so is the start of a term.
-/
import Gabion.Concurrent
import Gabion.Nginx.Access
import Gabion.Nginx.Store

namespace Gabion

namespace Nginx

namespace Pipeline

open Function

def drainBatch : ℕ := 32

/-- What all workers decide with. -/
structure Site where
  crates : RuleCrates
  rules : CompiledRules
  domain : String
  cardinality : CardinalitySettings
  mixIndex : CellIdentity → BitVec 64

/-- What a worker decides with while the table is `table`. -/
def Site.ctx (site : Site) (table : ShmTable) : AccessCtx where
  crates := site.crates
  rules := site.rules
  aggregate := table.reader site.mixIndex
  domain := site.domain
  cardinality := site.cardinality

def Site.ruleTable (site : Site) : RuleTable := site.rules.map CompiledRule.rule

/-- `decide_all` under way: the rules it still has to ask and what it has gathered. -/
structure Pass where
  now : ℕ
  vars : VariableLookup
  asking : List ℕ
  tally : Tally

/-- A worker with nothing to push waits for a request. -/
inductive Worker
  | deciding (pass : Pass)
  | pushing (events : List QueueEvent)

/-- The events that a worker has planned or has to push. -/
def Worker.events : Worker → List QueueEvent
  | .deciding pass => pass.tally.allEvents
  | .pushing events => events

/-- The events of an allowed request that are still to be pushed. -/
def Worker.waiting : Worker → List QueueEvent
  | .deciding _ => []
  | .pushing events => events

@[simp] theorem Worker.waiting_deciding (pass : Pass) : (deciding pass).waiting = [] := rfl

@[simp] theorem Worker.waiting_pushing (events : List QueueEvent) :
    (pushing events).waiting = events := rfl

/-- The total weight of some events: their number, or the hits they have for a key. -/
def weigh (weight : QueueEvent → ℕ) (events : List QueueEvent) : ℕ := (events.map weight).sum

section
variable (weight : QueueEvent → ℕ)

@[simp] theorem weigh_nil : weigh weight [] = 0 := rfl

@[simp] theorem weigh_cons (event : QueueEvent) (events : List QueueEvent) :
    weigh weight (event :: events) = weight event + weigh weight events := List.sum_cons

@[simp] theorem weigh_append (events more : List QueueEvent) :
    weigh weight (events ++ more) = weigh weight events + weigh weight more := by
  rw [weigh, List.map_append, List.sum_append]
  rfl

end

/-- A term of a leader: the lease epoch its store was built in, its runtime, the channel between
    drain loop and runtime, and the permits that a pass of the drain loop has left.  Of the events
    the runtime has ingested, `counted` went on to the table, and `missed` were stopped by the
    store, as the lease had another epoch. -/
structure Term where
  epoch : ℕ
  runtime : Runtime .u32
  permits : ℕ
  channel : List QueueEvent
  counted : List QueueEvent
  missed : List QueueEvent

namespace Term

def new (site : Site) (s₀ : CellStore .u32) (gossip : GossipConfig) (epoch : ℕ) : Term where
  epoch := epoch
  runtime := .fromParts gossip (s₀.internRules (site.ruleTable.map Rule.descriptor)) .empty
  permits := 0
  channel := []
  counted := []
  missed := []

/-- The runtime and the store of a term. -/
def leader (term : Term) (table : ShmTable) : LeaderRuntime := ⟨term.runtime, ⟨table, term.epoch⟩⟩

/-- Room for a batch of events in the empty channel. -/
def reserve (term : Term) : Term := { term with permits := drainBatch }

/-- A permit is there before the event is popped; a pass ends with an empty queue. -/
def pop (term : Term) (event : Option QueueEvent) : Term :=
  { term with
    permits := if event.isSome then term.permits - 1 else 0
    channel := term.channel ++ event.toList }

/-- The runtime has taken the first event of its channel. -/
def take (term : Term) (leaseEpoch : ℕ) (event : QueueEvent) (rest : List QueueEvent) : Term :=
  if term.epoch = leaseEpoch then
    { term with channel := rest, counted := term.counted ++ [event] }
  else { term with channel := rest, missed := term.missed ++ [event] }

end Term

/-- What happened to the events.  `admitted` are those of allowed requests; of these, `pushed` went
    to the queue and `dropped` found it full.  `popped` left the queue, each with the number of the
    term that popped it.  `late` are those that a rule allowed after the clock had left their
    bucket.  `rejected` says that a hit has found no cell, or a count no slot in the table. -/
structure History where
  admitted : List QueueEvent
  pushed : List QueueEvent
  dropped : List QueueEvent
  popped : List (ℕ × QueueEvent)
  late : List QueueEvent
  rejected : Bool

def History.new : History := ⟨[], [], [], [], [], false⟩

/-- The events that term `t` has popped, in order. -/
def poppedBy (t : ℕ) (popped : List (ℕ × QueueEvent)) : List QueueEvent :=
  (popped.filter (·.1 = t)).map Prod.snd

/-- The workers, the zone and the leaders.  The terms `0, …, newest` have begun. -/
structure Node (n : ℕ) where
  workers : Fin n → Worker
  queue : RequestQueue
  table : ShmTable
  leaseEpoch : ℕ
  terms : ℕ → Term
  newest : ℕ
  clock : ℕ
  history : History

namespace Node

variable {n : ℕ}

/-- No request yet, and a first term on the table that it has emptied. -/
def start (n : ℕ) (site : Site) (queue : RequestQueue) (table : ShmTable) (s₀ : CellStore .u32)
    (gossip : GossipConfig) (epoch : ℕ) : Node n where
  workers := fun _ => .pushing []
  queue := queue
  table := (ShmAggregateStore.new table epoch).table
  leaseEpoch := epoch
  terms := fun _ => .new site s₀ gossip epoch
  newest := 0
  clock := 0
  history := .new

/-- The hit as the drain loop records it: without a reply. -/
def limitRequest (ev : QueueEvent) : LimitRequest where
  ruleFingerprint := ev.ruleFingerprint
  keyHash := ev.keyHash
  bucket := ev.bucket
  hits := ev.hits
  ruleLimit := ev.ruleLimit
  nowMillis := ev.nowMillis
  reply := none

inductive Event (n : ℕ)
  | arrive (w : Fin n) (ruleIndices : List ℕ) (vars : VariableLookup) (now : ℕ)
  | ask (w : Fin n)
  | conclude (w : Fin n)
  | push (w : Fin n)
  | reserve (t : ℕ)
  | pop (t : ℕ)
  | ingest (t now : ℕ)
  | loop (t now : ℕ) (arm : ArmOutcome)
  | acquire
  | takeOver (s₀ : CellStore .u32) (gossip : GossipConfig) (epoch : ℕ)

/-- The events of an outcome if the clock has left their bucket. -/
def lateEvents (clock now : ℕ) : RuleOutcome → List QueueEvent
  | .allow snapshot events =>
    if now / snapshot.spec.bucketMillis = clock / snapshot.spec.bucketMillis then [] else events
  | .reject _ | .decline | .cardinality | .exempt _ => []

/-! ### What a step leaves -/

def arrived (node : Node n) (w : Fin n) (pass : Pass) : Node n :=
  { node with workers := update node.workers w (.deciding pass), clock := pass.now }

/-- A rule has answered a worker. -/
def answered (node : Node n) (w : Fin n) (pass : Pass) (rest : List ℕ) (outcome : RuleOutcome) :
    Node n :=
  { node with
    workers := update node.workers w
      (.deciding { pass with asking := rest, tally := pass.tally.add outcome })
    history := { node.history with
      late := node.history.late ++ lateEvents node.clock pass.now outcome } }

/-- All rules are asked: a worker has these events to push. -/
def concluded (node : Node n) (w : Fin n) (events : List QueueEvent) : Node n :=
  { node with
    workers := update node.workers w (.pushing events)
    history := { node.history with admitted := node.history.admitted ++ events } }

def pushed (node : Node n) (w : Fin n) (event : QueueEvent) (rest : List QueueEvent)
    (queue : RequestQueue) (result : RequestQueue.PushResult) : Node n :=
  { node with
    workers := update node.workers w (.pushing rest)
    queue
    history :=
      match result with
      | .ok => { node.history with pushed := node.history.pushed ++ [event] }
      | .queueOverflow => { node.history with dropped := node.history.dropped ++ [event] } }

def setTerm (node : Node n) (t : ℕ) (term : Term) : Node n :=
  { node with terms := update node.terms t term }

def popped (node : Node n) (t : ℕ) (queue : RequestQueue) (event : Option QueueEvent) : Node n :=
  { node.setTerm t ((node.terms t).pop event) with
    queue
    history := { node.history with
      popped := node.history.popped ++ event.toList.map (Prod.mk t) } }

/-- The runtime of term `t` has made an iteration, and the term is `term` but for its runtime.  A
    hit or a count may have found no room. -/
def turned (node : Node n) (t now : ℕ) (leader : LeaderRuntime) (term : Term) (rejects : Bool) :
    Node n :=
  { node.setTerm t { term with runtime := leader.runtime } with
    table := leader.store.table
    clock := now
    history := { node.history with
      rejected := node.history.rejected ||
        decide (leader.store.table.dropped ≠ node.table.dropped) || rejects } }

/-- The store of a new term empties the table. -/
def takenOver (site : Site) (node : Node n) (s₀ : CellStore .u32) (gossip : GossipConfig)
    (epoch : ℕ) : Node n :=
  { node.setTerm (node.newest + 1) (.new site s₀ gossip epoch) with
    table := (ShmAggregateStore.new node.table epoch).table
    newest := node.newest + 1 }

/-! ### The steps -/

/-- Ask the next rule. -/
def ask (site : Site) (node : Node n) (w : Fin n) : Option (Node n) :=
  match node.workers w with
  | .pushing _ => none
  | .deciding pass =>
    match pass.asking with
    | [] => none
    | index :: rest =>
      some (node.answered w pass rest (decideOne (site.ctx node.table) index pass.vars pass.now))

/-- The events are pushed unless a rule rejects. -/
def conclude (node : Node n) (w : Fin n) : Option (Node n) :=
  match node.workers w with
  | .pushing _ => none
  | .deciding pass =>
    if pass.asking ≠ [] then none
    else if pass.tally.worstReject.isNone && pass.tally.hadNonExemptOutcome then
      some (node.concluded w pass.tally.allEvents)
    else some (node.concluded w [])

def push (node : Node n) (w : Fin n) : Option (Node n) :=
  match node.workers w with
  | .deciding _ => none
  | .pushing [] => none
  | .pushing (event :: rest) =>
    (node.queue.push event).map fun (queue, result) => node.pushed w event rest queue result

/-- An iteration of the runtime of term `t`, under the lease as it is. -/
def iterate (site : Site) (env : Platform) (node : Node n) (t now : ℕ) (arm : ArmOutcome) :
    Option LeaderRuntime :=
  ((node.terms t).leader node.table).iteration site.mixIndex env node.leaseEpoch now arm

/-- The runtime takes the next event from its channel; a wanted flush comes first. -/
def ingest (site : Site) (env : Platform) (node : Node n) (t now : ℕ) : Option (Node n) :=
  match (node.terms t).channel with
  | [] => none
  | event :: rest =>
    (node.iterate site env t now (.request (some (.limit (limitRequest event))))).map fun leader =>
      if (node.terms t).runtime.wantImmediateFlush then
        node.turned t now leader (node.terms t) false
      else
        node.turned t now leader ((node.terms t).take node.leaseEpoch event rest)
          (!((node.terms t).runtime.store.ingestRow
            ((limitRequest event).observation .u32) []).2.2.isOk)

/-- **One step.**  The store of a new term has an epoch that the lease has or has had. -/
def step (site : Site) (env : Platform) (node : Node n) : Event n → Option (Node n)
  | .arrive w ruleIndices vars now =>
    match node.workers w with
    | .pushing [] =>
      if node.clock ≤ now then some (node.arrived w ⟨now, vars, ruleIndices, .new⟩) else none
    | .pushing (_ :: _) | .deciding _ => none
  | .ask w => node.ask site w
  | .conclude w => node.conclude w
  | .push w => node.push w
  | .reserve t =>
    if t ≤ node.newest ∧ (node.terms t).permits = 0 ∧ (node.terms t).channel = [] then
      some (node.setTerm t (node.terms t).reserve)
    else none
  | .pop t =>
    if t ≤ node.newest ∧ (node.terms t).permits ≠ 0 then
      node.queue.pop.map fun (queue, event) => node.popped t queue event
    else none
  | .ingest t now =>
    if t ≤ node.newest ∧ (node.terms t).permits = 0 ∧ node.clock ≤ now then
      node.ingest site env t now
    else none
  | .loop t now arm =>
    if t ≤ node.newest ∧ (node.terms t).permits = 0 ∧ node.clock ≤ now ∧
        Service.isRequest arm = false then
      (node.iterate site env t now arm).map fun leader =>
        node.turned t now leader (node.terms t) false
    else none
  | .acquire => some { node with leaseEpoch := node.leaseEpoch + 1 }
  | .takeOver s₀ gossip epoch =>
    if epoch ≤ node.leaseEpoch then some (node.takenOver site s₀ gossip epoch) else none

def run (site : Site) (env : Platform) : Node n → List (Event n) → Option (Node n)
  | node, [] => some node
  | node, e :: rest => (node.step site env e).bind fun node => run site env node rest

/-! ## What a step can do -/

variable {site : Site} {env : Platform} {node node' : Node n}

/-- The steps, with what they change. -/
inductive Moved (site : Site) (env : Platform) (node : Node n) : Event n → Node n → Prop
  | arrive (w : Fin n) (ruleIndices : List ℕ) (vars : VariableLookup) (now : ℕ) :
      node.workers w = .pushing [] → node.clock ≤ now →
      Moved site env node (.arrive w ruleIndices vars now)
        (node.arrived w ⟨now, vars, ruleIndices, .new⟩)
  | ask (w : Fin n) (pass : Pass) (index : ℕ) (rest : List ℕ) (outcome : RuleOutcome) :
      node.workers w = .deciding pass → pass.asking = index :: rest →
      decideOne (site.ctx node.table) index pass.vars pass.now = outcome →
      Moved site env node (.ask w) (node.answered w pass rest outcome)
  | conclude (w : Fin n) (pass : Pass) (events : List QueueEvent) :
      node.workers w = .deciding pass → events = pass.tally.allEvents ∨ events = [] →
      Moved site env node (.conclude w) (node.concluded w events)
  | push (w : Fin n) (event : QueueEvent) (rest : List QueueEvent) (queue : RequestQueue)
      (result : RequestQueue.PushResult) : node.workers w = .pushing (event :: rest) →
      node.queue.push event = some (queue, result) →
      Moved site env node (.push w) (node.pushed w event rest queue result)
  | reserve (t : ℕ) : t ≤ node.newest → (node.terms t).channel = [] →
      Moved site env node (.reserve t) (node.setTerm t (node.terms t).reserve)
  | pop (t : ℕ) (queue : RequestQueue) (event : Option QueueEvent) : t ≤ node.newest →
      (node.terms t).permits ≠ 0 → node.queue.pop = some (queue, event) →
      Moved site env node (.pop t) (node.popped t queue event)
  | turn (e : Event n) (t now : ℕ) (arm : ArmOutcome) (leader : LeaderRuntime) : t ≤ node.newest →
      node.clock ≤ now → Service.isRequest ((node.terms t).runtime.firedArm arm) = false →
      node.iterate site env t now arm = some leader →
      Moved site env node e (node.turned t now leader (node.terms t) false)
  | ingest (t now : ℕ) (event : QueueEvent) (rest : List QueueEvent) (leader : LeaderRuntime) :
      t ≤ node.newest → node.clock ≤ now → (node.terms t).channel = event :: rest →
      (node.terms t).runtime.wantImmediateFlush = false →
      node.iterate site env t now (.request (some (.limit (limitRequest event)))) = some leader →
      Moved site env node (.ingest t now)
        (node.turned t now leader ((node.terms t).take node.leaseEpoch event rest)
          (!((node.terms t).runtime.store.ingestRow
            ((limitRequest event).observation .u32) []).2.2.isOk))
  | acquire : Moved site env node .acquire { node with leaseEpoch := node.leaseEpoch + 1 }
  | takeOver (s₀ : CellStore .u32) (gossip : GossipConfig) (epoch : ℕ) : epoch ≤ node.leaseEpoch →
      Moved site env node (.takeOver s₀ gossip epoch) (node.takenOver site s₀ gossip epoch)

theorem firedArm_of_flush {r : Runtime .u32} (h : r.wantImmediateFlush = true) (arm : ArmOutcome) :
    Service.isRequest (r.firedArm arm) = false := by
  rw [Runtime.firedArm, if_pos h]
  rfl

theorem step_moved {e : Event n} (h : node.step site env e = some node') :
    Moved site env node e node' := by
  cases e with
  | arrive w ruleIndices vars now =>
    simp only [step] at h
    split at h
    · rename_i hw
      split_ifs at h with hnow
      cases h
      exact .arrive w ruleIndices vars now hw hnow
    · cases h
    · cases h
  | ask w =>
    simp only [step, Node.ask] at h
    split at h
    · cases h
    · rename_i pass hw
      split at h
      · cases h
      · rename_i index rest ha
        cases h
        exact .ask w pass index rest _ hw ha rfl
  | conclude w =>
    simp only [step, Node.conclude] at h
    split at h
    · cases h
    · rename_i pass hw
      split_ifs at h
      · cases h
        exact .conclude w pass _ hw (.inl rfl)
      · cases h
        exact .conclude w pass _ hw (.inr rfl)
  | push w =>
    simp only [step, Node.push] at h
    split at h
    · cases h
    · cases h
    · rename_i event rest hw
      obtain ⟨⟨queue, result⟩, hpush, rfl⟩ := Option.map_eq_some_iff.1 h
      exact .push w event rest queue result hw hpush
  | reserve t =>
    simp only [step] at h
    split_ifs at h with hidle
    cases h
    exact .reserve t hidle.1 hidle.2.2
  | pop t =>
    simp only [step] at h
    split_ifs at h with hready
    obtain ⟨⟨queue, event⟩, hpop, rfl⟩ := Option.map_eq_some_iff.1 h
    exact .pop t queue event hready.1 hready.2 hpop
  | ingest t now =>
    simp only [step, Node.ingest, Option.ite_none_right_eq_some] at h
    obtain ⟨⟨ht, -, hnow⟩, h⟩ := h
    split at h
    · cases h
    · rename_i event rest hchannel
      obtain ⟨leader, hit, rfl⟩ := Option.map_eq_some_iff.1 h
      split_ifs with hflush
      · exact .turn _ t now _ leader ht hnow (firedArm_of_flush hflush _) hit
      · exact .ingest t now event rest leader ht hnow hchannel (by simpa using hflush) hit
  | loop t now arm =>
    simp only [step] at h
    split_ifs at h with hready
    obtain ⟨leader, hit, rfl⟩ := Option.map_eq_some_iff.1 h
    exact .turn _ t now arm leader hready.1 hready.2.2.1
      (Service.isRequest_firedArm hready.2.2.2 _) hit
  | acquire =>
    cases h
    exact .acquire
  | takeOver s₀ gossip epoch =>
    simp only [step] at h
    split_ifs at h with hepoch
    cases h
    exact .takeOver s₀ gossip epoch hepoch

/-! ## No event is lost on the way -/

@[simp] theorem poppedBy_append_self (t : ℕ) (popped : List (ℕ × QueueEvent))
    (events : List QueueEvent) :
    poppedBy t (popped ++ events.map (Prod.mk t)) = poppedBy t popped ++ events := by
  simp [poppedBy, List.filter_map, Function.comp_def]

theorem poppedBy_append_ne {t t' : ℕ} (h : t' ≠ t) (popped : List (ℕ × QueueEvent))
    (events : List QueueEvent) :
    poppedBy t' (popped ++ events.map (Prod.mk t)) = poppedBy t' popped := by
  simp [poppedBy, List.filter_map, Function.comp_def, h.symm]

theorem poppedBy_eq_nil {t : ℕ} {popped : List (ℕ × QueueEvent)} (h : ∀ p ∈ popped, p.1 ≠ t) :
    poppedBy t popped = [] := by
  rw [poppedBy, List.filter_eq_nil_iff.2, List.map_nil]
  exact fun p hp hpt => h p hp (of_decide_eq_true hpt)

/-- What is in the queue: what was pushed and has not been popped. -/
def queued (node : Node n) : List QueueEvent := node.history.pushed.drop node.history.popped.length

/-- The weight of what the workers still have to push. -/
def waitingWeight (weight : QueueEvent → ℕ) (workers : Fin n → Worker) : ℕ :=
  ∑ w, weigh weight (workers w).waiting

/-- **Where the events are that a term has popped.**  A store that has missed one has lost the
    lease for good. -/
structure TermOk (leaseEpoch : ℕ) (popped : List QueueEvent) (term : Term) : Prop where
  popped : popped = term.counted ++ term.missed ++ term.channel
  batch : term.channel.length + term.permits ≤ drainBatch
  epoch : term.epoch ≤ leaseEpoch
  missed : term.missed ≠ [] → term.epoch < leaseEpoch

/-- **Where the events are**, by any weight. -/
structure Conserved (bits : ℕ) (node : Node n) : Prop where
  bits : node.queue.bits = bits
  holds : node.queue.Holds node.queued
  order : node.history.pushed = node.history.popped.map Prod.snd ++ node.queued
  admitted : ∀ weight, weigh weight node.history.admitted = weigh weight node.history.pushed +
    weigh weight node.history.dropped + waitingWeight weight node.workers
  begun : ∀ p ∈ node.history.popped, p.1 ≤ node.newest
  terms : ∀ t ≤ node.newest, TermOk node.leaseEpoch (poppedBy t node.history.popped) (node.terms t)

theorem waitingWeight_update (weight : QueueEvent → ℕ) (workers : Fin n → Worker) (w : Fin n)
    (worker : Worker) : waitingWeight weight (update workers w worker) +
      weigh weight (workers w).waiting =
    waitingWeight weight workers + weigh weight worker.waiting :=
  Slots.sum_comp_update workers w worker fun worker => weigh weight worker.waiting

/-- A step of a worker that has nothing to push, before or after. -/
theorem Conserved.workers {bits : ℕ} (h : Conserved bits node) {w : Fin n} (worker : Worker)
    {clock : ℕ} {late : List QueueEvent} (hbefore : (node.workers w).waiting = [])
    (hafter : worker.waiting = []) : Conserved bits { node with
      workers := update node.workers w worker
      clock
      history := { node.history with late } } := by
  refine ⟨h.bits, h.holds, h.order, fun weight => ?_, h.begun, h.terms⟩
  have hsum := waitingWeight_update weight node.workers w worker
  rw [hbefore, hafter] at hsum
  exact (h.admitted weight).trans (congrArg _ hsum.symm)

/-- A term has changed without a pop. -/
theorem Conserved.changed {bits : ℕ} (h : Conserved bits node) {t : ℕ} {term : Term}
    (hterm : TermOk node.leaseEpoch (poppedBy t node.history.popped) term) :
    ∀ t' ≤ node.newest, TermOk node.leaseEpoch (poppedBy t' node.history.popped)
      (update node.terms t term t') := by
  intro t' ht'
  by_cases heq : t' = t
  · rw [heq, update_self]
    exact hterm
  · rw [update_of_ne heq]
    exact h.terms t' ht'

theorem TermOk.take {leaseEpoch : ℕ} {popped rest : List QueueEvent} {term : Term}
    {event : QueueEvent} (h : TermOk leaseEpoch popped term)
    (hchannel : term.channel = event :: rest) :
    TermOk leaseEpoch popped (term.take leaseEpoch event rest) := by
  obtain ⟨hpopped, hbatch, hepoch, hmissed⟩ := h
  rw [hchannel] at hpopped hbatch
  have hbatch : rest.length + term.permits ≤ drainBatch := by
    rw [List.length_cons] at hbatch
    omega
  unfold Term.take
  split_ifs with hcurrent
  · -- the lease is still with it, so it has missed none
    have hnone : term.missed = [] := by
      by_contra hne
      exact (hmissed hne).ne hcurrent
    refine ⟨?_, hbatch, hepoch, hmissed⟩
    simpa [hnone] using hpopped
  · refine ⟨?_, hbatch, hepoch, fun _ => lt_of_le_of_ne hepoch hcurrent⟩
    simpa using hpopped

theorem TermOk.pop {leaseEpoch : ℕ} {popped : List QueueEvent} {term : Term}
    (h : TermOk leaseEpoch popped term) (hpermits : term.permits ≠ 0) (event : Option QueueEvent) :
    TermOk leaseEpoch (popped ++ event.toList) (term.pop event) := by
  obtain ⟨hpopped, hbatch, hepoch, hmissed⟩ := h
  refine ⟨?_, ?_, hepoch, hmissed⟩
  · rw [hpopped, List.append_assoc]
    rfl
  · cases event with
    | none => simpa [Term.pop] using (Nat.le_add_right _ _).trans hbatch
    | some event =>
      simp only [Term.pop, Option.isSome_some, if_true, Option.toList_some, List.length_append,
        List.length_singleton]
      omega

/-- An iteration of a term leaves the events to the term. -/
theorem Conserved.turned {bits : ℕ} (h : Conserved bits node) {t now : ℕ} {leader : LeaderRuntime}
    {term : Term} {rejects : Bool}
    (hterm : TermOk node.leaseEpoch (poppedBy t node.history.popped) term) :
    Conserved bits (node.turned t now leader term rejects) :=
  ⟨h.bits, h.holds, h.order, h.admitted, h.begun,
    h.changed ⟨hterm.popped, hterm.batch, hterm.epoch, hterm.missed⟩⟩

/-- A push moves an event from its worker to the queue, or finds it full. -/
theorem Conserved.pushed {bits : ℕ} (h : Conserved bits node) {w : Fin n} {event : QueueEvent}
    {rest : List QueueEvent} {queue : RequestQueue} {result : RequestQueue.PushResult}
    (hw : node.workers w = .pushing (event :: rest))
    (hpush : node.queue.push event = some (queue, result)) :
    Conserved bits (node.pushed w event rest queue result) := by
  obtain ⟨queue', result', hpush', hbits, hholds, hover⟩ := h.holds.push event
  rw [hpush] at hpush'
  cases hpush'
  have hsum := fun weight => waitingWeight_update weight node.workers w (.pushing rest)
  simp only [hw, Worker.waiting_pushing, weigh_cons] at hsum
  cases result with
  | ok =>
    have hroom : node.queued.length < node.queue.capacity :=
      lt_of_le_of_ne h.holds.length_le fun hfull => by cases hover.2 hfull
    have hlength : node.history.popped.length ≤ node.history.pushed.length := by
      rw [h.order, List.length_append, List.length_map]
      exact Nat.le_add_right _ _
    have hnext : (node.pushed w event rest queue .ok).queued = node.queued ++ [event] :=
      List.drop_append_of_le_length hlength
    refine ⟨hbits.trans h.bits, ?_, ?_, fun weight => ?_, h.begun, h.terms⟩
    · rw [hnext]
      rwa [RequestQueue.offer, if_pos hroom] at hholds
    · rw [hnext]
      show node.history.pushed ++ [event] = node.history.popped.map Prod.snd ++ _
      rw [← List.append_assoc, ← h.order]
    · have hsum := hsum weight
      have hadmitted := h.admitted weight
      simp only [Node.pushed, weigh_append, weigh_cons, weigh_nil]
      omega
  | queueOverflow =>
    refine ⟨hbits.trans h.bits, ?_, h.order, fun weight => ?_, h.begun, h.terms⟩
    · rwa [RequestQueue.offer, if_neg (hover.1 rfl).not_lt] at hholds
    · have hsum := hsum weight
      have hadmitted := h.admitted weight
      simp only [Node.pushed, weigh_append, weigh_cons, weigh_nil]
      omega

/-- A pop moves the first event of the queue to the channel of a term. -/
theorem Conserved.popped {bits : ℕ} (h : Conserved bits node) {t : ℕ} {queue : RequestQueue}
    {event : Option QueueEvent} (ht : t ≤ node.newest) (hpermits : (node.terms t).permits ≠ 0)
    (hpop : node.queue.pop = some (queue, event)) : Conserved bits (node.popped t queue event) := by
  obtain ⟨queue', hpop', hbits, hholds⟩ := h.holds.pop
  rw [hpop] at hpop'
  obtain ⟨rfl, rfl⟩ := Prod.mk.inj (Option.some.inj hpop')
  have hsplit : node.queued = node.queued.head?.toList ++ node.queued.tail := by
    cases node.queued <;> rfl
  have hnext : (node.popped t queue node.queued.head?).queued = node.queued.tail := by
    show node.history.pushed.drop (node.history.popped ++ _).length = _
    rw [List.length_append, List.length_map, ← List.drop_drop]
    show node.queued.drop _ = _
    nth_rewrite 2 [hsplit]
    exact List.drop_left
  refine ⟨hbits.trans h.bits, ?_, ?_, h.admitted, fun p hp => ?_, fun t' ht' => ?_⟩
  · rw [hnext]
    exact hholds
  · rw [hnext]
    show node.history.pushed = (node.history.popped ++ _).map Prod.snd ++ _
    rw [List.map_append, List.map_map, List.append_assoc]
    nth_rewrite 1 [h.order, hsplit]
    simp [Function.comp_def]
  · rcases List.mem_append.1 hp with hp | hp
    · exact h.begun p hp
    · obtain ⟨event, -, rfl⟩ := List.mem_map.1 hp
      exact ht
  · show TermOk node.leaseEpoch (poppedBy t' (node.history.popped ++ _))
      (update node.terms t _ t')
    by_cases heq : t' = t
    · subst heq
      rw [poppedBy_append_self, update_self]
      exact (h.terms t' ht).pop hpermits _
    · rw [poppedBy_append_ne heq, update_of_ne heq]
      exact h.terms t' ht'

/-- **One step** conserves the events. -/
theorem Conserved.moved {bits : ℕ} {e : Event n} (h : Conserved bits node)
    (hm : Moved site env node e node') : Conserved bits node' := by
  cases hm with
  | arrive w ruleIndices vars now hw hnow =>
    exact h.workers (.deciding _) (by rw [hw]; rfl) rfl
  | ask w pass index rest outcome hw ha ho =>
    exact h.workers (.deciding _) (by rw [hw]; rfl) rfl
  | conclude w pass events hw hevents =>
    refine ⟨h.bits, h.holds, h.order, fun weight => ?_, h.begun, h.terms⟩
    have hsum := waitingWeight_update weight node.workers w (.pushing events)
    have hadmitted := h.admitted weight
    simp only [hw, Worker.waiting_deciding, Worker.waiting_pushing, weigh_nil] at hsum
    simp only [concluded, weigh_append]
    omega
  | push w event rest queue result hw hpush => exact h.pushed hw hpush
  | reserve t ht hchannel =>
    have hterm := h.terms t ht
    refine ⟨h.bits, h.holds, h.order, h.admitted, h.begun,
      h.changed ⟨hterm.popped, ?_, hterm.epoch, hterm.missed⟩⟩
    show (node.terms t).channel.length + drainBatch ≤ drainBatch
    rw [hchannel, List.length_nil, Nat.zero_add]
  | pop t queue event ht hpermits hpop => exact h.popped ht hpermits hpop
  | turn e t now arm leader ht hnow harm hit => exact h.turned (h.terms t ht)
  | ingest t now event rest leader ht hnow hchannel hflush hit =>
    exact h.turned ((h.terms t ht).take hchannel)
  | acquire =>
    refine ⟨h.bits, h.holds, h.order, h.admitted, h.begun, fun t ht => ?_⟩
    have hterm := h.terms t ht
    exact ⟨hterm.popped, hterm.batch, hterm.epoch.trans (Nat.le_succ _),
      fun _ => Nat.lt_succ_of_le hterm.epoch⟩
  | takeOver s₀ gossip epoch hepoch =>
    refine ⟨h.bits, h.holds, h.order, h.admitted, fun p hp => (h.begun p hp).trans (Nat.le_succ _),
      fun t ht => ?_⟩
    show TermOk node.leaseEpoch _ (update node.terms (node.newest + 1) _ t)
    by_cases heq : t = node.newest + 1
    · -- it has popped nothing
      have hnone : poppedBy (node.newest + 1) node.history.popped = [] :=
        poppedBy_eq_nil fun p hp => (Nat.lt_succ_of_le (h.begun p hp)).ne
      rw [heq, update_self]
      exact ⟨hnone, Nat.zero_le _, hepoch, fun hne => absurd rfl hne⟩
    · rw [update_of_ne heq]
      exact h.terms t (Nat.lt_succ_iff.1 (lt_of_le_of_ne ht heq))

/-- **Induction over runs.** -/
theorem run_induct {P : Node n → Prop} : ∀ {events : List (Event n)}
    (_ : ∀ e ∈ events, ∀ {node node' : Node n}, P node → Moved site env node e node' → P node')
    {node : Node n}, P node → node.run site env events = some node' → P node'
  | [], _, _, h, hr => by cases hr; exact h
  | e :: _, hstep, _, h, hr => by
    obtain ⟨node₁, h₁, hr⟩ := Option.bind_eq_some_iff.1 hr
    exact run_induct (fun e' he' => hstep e' (List.mem_cons_of_mem e he'))
      (hstep e List.mem_cons_self h (step_moved h₁)) hr

theorem conserved_start (bits : ℕ) (bits_pos : 0 < bits) (bits_lt : bits < 63) (table : ShmTable)
    (s₀ : CellStore .u32) (gossip : GossipConfig) (epoch : ℕ) :
    Conserved bits (start n site (.new bits bits_pos bits_lt) table s₀ gossip epoch) := by
  refine ⟨rfl, RequestQueue.new_holds bits bits_pos bits_lt, rfl, fun weight => ?_,
    fun p hp => ?_, fun t _ => ⟨rfl, Nat.zero_le _, le_rfl, fun hne => absurd rfl hne⟩⟩
  · simp [start, History.new, waitingWeight]
  · cases hp

def pairSite : Site where
  crates := siteCrates
  rules := (compileWith siteCrates .default siteCompiler [siteConfig 1]).toOption.getD []
  domain := "nginx"
  cardinality := .default
  mixIndex := fun _ => 1

def first : Fin 2 := ⟨0, Nat.two_pos⟩

def second : Fin 2 := ⟨1, Nat.one_lt_two⟩

def pairStart (s₀ : CellStore .u32) : Node 2 :=
  start 2 pairSite siteQueue
    (.new siteQueue.bits siteQueue.bits_pos (Nat.lt_succ_of_lt siteQueue.bits_lt)) s₀
    Runtime.tinyGossip 3

/-- Both workers decide before either has pushed its event.  The leader pops one and stalls, another
    takes over and pops the second beside it; each ingests what it has. -/
def pairSteps (s₀ : CellStore .u32) : List (Event 2) :=
  [.arrive first [0] siteVars 5000, .arrive second [0] siteVars 5001, .ask first, .ask second,
    .conclude first, .conclude second, .push second, .push first, .reserve 0, .pop 0, .acquire,
    .takeOver s₀ Runtime.tinyGossip 4, .reserve 1, .pop 1, .pop 1, .pop 0, .ingest 0 5002,
    .ingest 1 5003]

end Node

end Pipeline

end Nginx

end Gabion

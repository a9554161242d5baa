/-
  The watches of all Services (`peer_events` and `watch_target` in `discovery/kubernetes.rs`).

  Discovery watches the Services of some namespaces, and the EndpointSlices of each Service with
  a gabion port in a stream of its own.  It holds a sender for every watched Service; when the
  Service goes it drops the sender, and the stream emits `Removed` for all it still has and
  ends.  The streams are polled in any order, between the events of the Services, and each gives
  out its events one at a time.

  Each stream accounts for its own events (`Accounted`): what it has added and not removed
  is what its slices hold, up to what waits to be given out.  So a node has no peer that no watch
  stands for (`peers_have_watch`), and a Service that goes takes back all it has added
  (`untracked_service_drains`), unless its stream has failed before.
-/
import Gabion.Discovery

namespace Gabion

namespace Kubernetes

open Function

/-! ## Services -/

structure ServicePort where
  name : Option String
  protocol : Option String
deriving DecidableEq, Repr

structure ServiceSpec where
  ports : Option (List ServicePort)
deriving DecidableEq, Repr

/-- A Service, as far as discovery reads it; the first two are from its metadata. -/
structure Service where
  ns : Option String
  name : Option String
  spec : Option ServiceSpec
deriving DecidableEq, Repr

inductive ServiceEvent
  | apply (svc : Service)
  | delete (svc : Service)
  | init
  | initApply (svc : Service)
  | initDone

structure Target where
  ns : String
  serviceName : String
deriving DecidableEq, Repr

def Target.takeFrom (service : Service) : Option Target := do
  let ns ← service.ns
  let serviceName ← service.name
  return { ns, serviceName }

def hasGabionUdpPort (service : Service) : Bool :=
  ((service.spec.bind ServiceSpec.ports).getD []).any fun p => isGabionUdp p.name p.protocol

/-- An allow list without entries allows everything. -/
def matchesAllow (name : String) (allow : List String) : Bool :=
  let entries := allow.filter fun entry => entry ≠ ""
  entries = [] || name ∈ entries

inductive ServiceChange
  | track (target : Target)
  | untrack (target : Target)
  | initDone
  | ignore
deriving DecidableEq, Repr

/-- The part of `service_change` after the event is taken apart. -/
def changeOf (service : Service) (present : Bool) (allow : List String) : ServiceChange :=
  match Target.takeFrom service with
  | none => .ignore
  | some target =>
    if !matchesAllow target.serviceName allow then .ignore
    else if present then .track target
    else .untrack target

def serviceChange (event : ServiceEvent) (allow : List String) : ServiceChange :=
  match event with
  | .apply svc | .initApply svc => changeOf svc (hasGabionUdpPort svc) allow
  | .delete svc => changeOf svc false allow
  | .init => .ignore
  | .initDone => .initDone

/-! ## Errors -/

inductive ClientError
  | api (code : ℕ)
  | other
deriving DecidableEq, Repr

inductive WatcherError
  | initialListFailed (err : ClientError)
  | watchStartFailed (err : ClientError)
  | watchFailed (err : ClientError)
  | watchError (code : ℕ)
  | noResourceVersion
deriving DecidableEq, Repr

def isFatalStatusCode (code : ℕ) : Bool := code = 401 || code = 403 || code = 404

def isFatalWatcherError : WatcherError → Bool
  | .initialListFailed (.api code) | .watchStartFailed (.api code) | .watchFailed (.api code) =>
    isFatalStatusCode code
  | .initialListFailed .other | .watchStartFailed .other | .watchFailed .other => false
  | .watchError code => isFatalStatusCode code
  | .noResourceVersion => false

/-! ## The watch of one Service -/

/-- `finishing` gives out the last events, `failed` has returned without any. -/
inductive Phase
  | running
  | finishing
  | drained
  | failed
deriving DecidableEq, Repr

/-- A stream of `watch_target`.  `names` are the keys of the map in `peerSet`, and `pending` the
    events that it has still to give out before it looks at its inputs again. -/
structure Watch where
  target : Target
  peerSet : EndpointSlicePeerSet
  names : List String
  pending : List PeerEvent
  phase : Phase

namespace Watch

def new (target : Target) : Watch where
  target := target
  peerSet := .empty
  names := []
  pending := []
  phase := .running

def peersOf (w : Watch) (name : String) : List SocketAddr := (w.peerSet.bySlice name).getD []

/-- `drain_peers`: a hash map gives out its values in any order. -/
def drainPeers (x : PeerCrates) (w : Watch) : List SocketAddr := x.order (w.names.flatMap w.peersOf)

/-- The keys of the map after an event. -/
def namesAfter (names : List String) : Event → List String
  | .init | .initDone => names
  | .apply slice | .initApply slice =>
    match slice.name with
    | none => names
    | some name => if name ∈ names then names else names ++ [name]
  | .delete slice =>
    match slice.name with
    | none => names
    | some name => names.erase name

/-- The stream takes an event of its watcher. -/
def handleEvent (x : PeerCrates) (selfAddr : Option SocketAddr) (event : Event) (w : Watch) :
    Watch :=
  { w with
    peerSet := (watchTarget x selfAddr w.peerSet event).1
    names := namesAfter w.names event
    pending := (watchTarget x selfAddr w.peerSet event).2 }

/-- The sender is gone. -/
def shutDown (x : PeerCrates) (w : Watch) : Watch :=
  { w with
    peerSet := .empty
    names := []
    pending := (w.drainPeers x).map .removed
    phase := .finishing }

/-- **One poll of the stream**, with what its watcher has next.  The sender counts first. -/
def poll (x : PeerCrates) (selfAddr : Option SocketAddr) (cancelled : Bool)
    (next : Option (Except WatcherError Event)) (w : Watch) : Watch × Option PeerEvent :=
  match w.pending with
  | event :: rest => ({ w with pending := rest }, some event)
  | [] =>
    match w.phase with
    | .drained | .failed => (w, none)
    | .finishing => ({ w with phase := .drained }, none)
    | .running =>
      if cancelled then (w.shutDown x, none)
      else
        match next with
        | none => ({ w with phase := .failed }, none)
        | some (.error err) =>
          (if isFatalWatcherError err then { w with phase := .failed } else w, none)
        | some (.ok event) => (w.handleEvent x selfAddr event, none)

end Watch

/-! ## All watches -/

/-- `watched` has the stream whose sender is held; `ended` says that `peer_events` has returned.
    The events that were given out are kept with their stream. -/
structure Supervisor where
  watched : Target → Option ℕ
  watches : List Watch
  ended : Bool
  emitted : List (ℕ × PeerEvent)

inductive Input
  | service (event : ServiceEvent)
  | serviceError (err : WatcherError)
  | poll (i : ℕ) (next : Option (Except WatcherError Event))

namespace Supervisor

def new : Supervisor := ⟨fun _ => none, [], false, []⟩

/-- The sender of stream `i` is dropped. -/
def cancelled (sup : Supervisor) (i : ℕ) (w : Watch) : Bool := sup.watched w.target ≠ some i

def handleService (serviceAllow : List String) (sup : Supervisor) (event : ServiceEvent) :
    Supervisor :=
  match serviceChange event serviceAllow with
  | .track target =>
    match sup.watched target with
    | some _ => sup
    | none =>
      { sup with
        watched := update sup.watched target (some sup.watches.length)
        watches := sup.watches ++ [Watch.new target] }
  | .untrack target => { sup with watched := update sup.watched target none }
  | .initDone | .ignore => sup

def handlePoll (x : PeerCrates) (selfAddr : Option SocketAddr) (sup : Supervisor) (i : ℕ)
    (next : Option (Except WatcherError Event)) : Supervisor :=
  match sup.watches[i]? with
  | none => sup
  | some w =>
    let (w', event) := w.poll x selfAddr (sup.cancelled i w) next
    { sup with
      watches := sup.watches.set i w'
      emitted := sup.emitted ++ event.toList.map fun event => (i, event) }

def step (x : PeerCrates) (selfAddr : Option SocketAddr) (serviceAllow : List String)
    (sup : Supervisor) (input : Input) : Supervisor :=
  if sup.ended then sup
  else
    match input with
    | .service event => sup.handleService serviceAllow event
    | .serviceError err => { sup with ended := isFatalWatcherError err }
    | .poll i next => sup.handlePoll x selfAddr i next

def run (x : PeerCrates) (selfAddr : Option SocketAddr) (serviceAllow : List String)
    (sup : Supervisor) (inputs : List Input) : Supervisor :=
  inputs.foldl (step x selfAddr serviceAllow) sup

/-- The runtime that takes the events; errors are logged and left out (`discovery_stream`). -/
def feed {width : CountWidth} (r : Runtime width) (sup : Supervisor) : Runtime width :=
  (sup.emitted.map Prod.snd).foldl Runtime.handlePeerEvent r

/-- What stream `i` has given out. -/
def history (sup : Supervisor) (i : ℕ) : List PeerEvent :=
  (sup.emitted.filter fun item => item.1 = i).map Prod.snd

end Supervisor

/-! ## Events that add and remove -/

deriving instance DecidableEq for PeerEvent

/-- How much more often the events add the address than they remove it. -/
def balance (events : List PeerEvent) (addr : SocketAddr) : ℤ :=
  events.count (.added addr) - events.count (.removed addr)

theorem balance_append (es es' : List PeerEvent) (addr : SocketAddr) :
    balance (es ++ es') addr = balance es addr + balance es' addr := by
  simp only [balance, List.count_append, Nat.cast_add]
  ring

theorem count_added_diff (removed added : List SocketAddr) (addr : SocketAddr) :
    (removed.map PeerEvent.removed ++ added.map PeerEvent.added).count (.added addr) =
      added.count addr := by
  have hnone : (removed.map PeerEvent.removed).count (.added addr) = 0 :=
    List.count_eq_zero.2 (by simp)
  rw [List.count_append, hnone, Nat.zero_add]
  exact List.count_map_of_injective _ _ (fun _ _ h => PeerEvent.added.inj h) _

theorem count_removed_diff (removed added : List SocketAddr) (addr : SocketAddr) :
    (removed.map PeerEvent.removed ++ added.map PeerEvent.added).count (.removed addr) =
      removed.count addr := by
  have hnone : (added.map PeerEvent.added).count (.removed addr) = 0 :=
    List.count_eq_zero.2 (by simp)
  rw [List.count_append, hnone, Nat.add_zero]
  exact List.count_map_of_injective _ _ (fun _ _ h => PeerEvent.removed.inj h) _

/-- The differences of two sets, both ways. -/
theorem count_diff {old new : List SocketAddr} (hold : old.Nodup) (hnew : new.Nodup)
    (addr : SocketAddr) : (new.filter fun peer => peer ∉ old).count addr + old.count addr =
      (old.filter fun peer => peer ∉ new).count addr + new.count addr := by
  rw [(hnew.filter _).count, (hold.filter _).count, hold.count, hnew.count]
  by_cases ho : addr ∈ old <;> by_cases hn : addr ∈ new <;> simp [ho, hn]

/-! ## One event of a watcher -/

variable {x : PeerCrates} {selfAddr : Option SocketAddr} {w w' : Watch}

theorem nodup_peersFromEndpointSlice (slice : EndpointSlice) :
    (peersFromEndpointSlice x slice selfAddr).Nodup := by
  unfold peersFromEndpointSlice
  split
  · exact List.nodup_nil
  · exact (x.order_perm _).nodup_iff.2 (List.nodup_dedup _)

theorem ne_self_of_mem {slice : EndpointSlice} {addr : SocketAddr}
    (h : addr ∈ peersFromEndpointSlice x slice selfAddr) : some addr ≠ selfAddr := by
  unfold peersFromEndpointSlice at h
  split at h
  · cases h
  · rw [(x.order_perm _).mem_iff, List.mem_dedup, List.mem_filterMap] at h
    obtain ⟨text, -, htext⟩ := h
    cases hip : x.parseIp text with
    | none => simp [hip] at htext
    | some ip =>
      simp only [hip, Option.bind_eq_bind, Option.bind_some] at htext
      split_ifs at htext with hself
      cases htext
      exact hself

/-- **One slice changes**: its addresses become `new`, and the events are the two differences. -/
structure Changed (selfAddr : Option SocketAddr) (s : EndpointSlicePeerSet) (names : List String)
    (name : String) (new : Option (List SocketAddr)) (s' : EndpointSlicePeerSet)
    (names' : List String) (events : List PeerEvent) : Prop where
  bySlice : s'.bySlice = update s.bySlice name new
  names : names' = if new = none then names.erase name
    else if name ∈ names then names else names ++ [name]
  nodup : (new.getD []).Nodup
  others : ∀ addr ∈ new.getD [], some addr ≠ selfAddr
  events : events =
    (((s.bySlice name).getD []).filter fun peer => peer ∉ new.getD []).map PeerEvent.removed ++
      ((new.getD []).filter fun peer => peer ∉ (s.bySlice name).getD []).map PeerEvent.added

theorem changed_apply (s : EndpointSlicePeerSet) (names : List String) {slice : EndpointSlice}
    {name : String} (hname : slice.name = some name) :
    Changed selfAddr s names name (some (peersFromEndpointSlice x slice selfAddr))
      (watchTarget x selfAddr s (.apply slice)).1 (Watch.namesAfter names (.apply slice))
      (watchTarget x selfAddr s (.apply slice)).2 where
  bySlice := by simp [watchTarget, EndpointSlicePeerSet.apply, hname]
  names := by simp [Watch.namesAfter, hname]
  nodup := nodup_peersFromEndpointSlice slice
  others := fun _ h => ne_self_of_mem h
  events := by simp [watchTarget, EndpointSlicePeerSet.apply, hname]

theorem changed_delete (s : EndpointSlicePeerSet) (names : List String) {slice : EndpointSlice}
    {name : String} (hname : slice.name = some name) :
    Changed selfAddr s names name none
      (watchTarget x selfAddr s (.delete slice)).1 (Watch.namesAfter names (.delete slice))
      (watchTarget x selfAddr s (.delete slice)).2 where
  bySlice := by simp [watchTarget, EndpointSlicePeerSet.delete, hname]
  names := by simp [Watch.namesAfter, hname]
  nodup := List.nodup_nil
  others := fun _ h => by cases h
  events := by simp [watchTarget, EndpointSlicePeerSet.delete, hname]

/-- What an event can do. -/
theorem event_cases (x : PeerCrates) (selfAddr : Option SocketAddr) (s : EndpointSlicePeerSet)
    (names : List String) (event : Event) :
    watchTarget x selfAddr s event = (s, []) ∧ Watch.namesAfter names event = names ∨
      ∃ name new, Changed selfAddr s names name new (watchTarget x selfAddr s event).1
        (Watch.namesAfter names event) (watchTarget x selfAddr s event).2 := by
  cases event with
  | init | initDone => exact .inl ⟨rfl, rfl⟩
  | apply slice | initApply slice =>
    cases hname : slice.name with
    | none =>
      exact .inl ⟨by simp [watchTarget, EndpointSlicePeerSet.apply, hname],
        by simp [Watch.namesAfter, hname]⟩
    | some name => exact .inr ⟨name, _, changed_apply s names hname⟩
  | delete slice =>
    cases hname : slice.name with
    | none =>
      exact .inl ⟨by simp [watchTarget, EndpointSlicePeerSet.delete, hname],
        by simp [Watch.namesAfter, hname]⟩
    | some name => exact .inr ⟨name, none, changed_delete s names hname⟩

/-! ## A stream between polls -/

namespace Watch

/-- How many slices hold the address. -/
def holds (w : Watch) (addr : SocketAddr) : ℕ :=
  (w.names.map fun name => (w.peersOf name).count addr).sum

/-- **What holds of a stream between polls.**  An address that waits to be added is held. -/
structure Sound (selfAddr : Option SocketAddr) (w : Watch) : Prop where
  names : w.names.Nodup
  keys : ∀ name, name ∉ w.names → w.peerSet.bySlice name = none
  peers : ∀ name, (w.peersOf name).Nodup
  others : ∀ name, ∀ addr ∈ w.peersOf name, some addr ≠ selfAddr
  added : ∀ addr, w.pending.count (.added addr) ≤ w.holds addr
  finishing : w.phase = .finishing → w.names = []
  drained : w.phase = .drained → w.names = [] ∧ w.pending = []

theorem sound_new (target : Target) : Sound selfAddr (new target) where
  names := List.nodup_nil
  keys := fun _ _ => rfl
  peers := fun _ => List.nodup_nil
  others := fun _ _ h => by cases h
  added := fun _ => Nat.zero_le _
  finishing := fun h => by cases h
  drained := fun h => by cases h

theorem exists_of_holds (w : Watch) (addr : SocketAddr) (h : 0 < w.holds addr) :
    ∃ name ∈ w.names, addr ∈ w.peersOf name := by
  by_contra hnone
  push Not at hnone
  refine h.ne' (List.sum_eq_zero fun n hn => ?_)
  obtain ⟨name, hname, rfl⟩ := List.mem_map.1 hn
  exact List.count_eq_zero.2 (hnone name hname)

/-- One slice and the others. -/
theorem holds_split (hkeys : ∀ name, name ∉ w.names → w.peerSet.bySlice name = none)
    (name : String) (addr : SocketAddr) : w.holds addr = (w.peersOf name).count addr +
      ((w.names.erase name).map fun other => (w.peersOf other).count addr).sum := by
  by_cases hmem : name ∈ w.names
  · rw [holds, ((List.perm_cons_erase hmem).map _).sum_eq, List.map_cons, List.sum_cons]
  · rw [List.erase_of_not_mem hmem, peersOf, hkeys name hmem]
    simp [holds]

section Changed
variable {name : String} {new : Option (List SocketAddr)}

theorem peersOf_self (hc : Changed selfAddr w.peerSet w.names name new w'.peerSet w'.names
    w'.pending) : w'.peersOf name = new.getD [] := by
  rw [peersOf, hc.bySlice, update_self]

theorem peersOf_of_ne (hc : Changed selfAddr w.peerSet w.names name new w'.peerSet w'.names
    w'.pending) {other : String} (hne : other ≠ name) : w'.peersOf other = w.peersOf other := by
  rw [peersOf, hc.bySlice, update_of_ne hne, peersOf]

theorem names_changed (hs : w.Sound selfAddr) (hc : Changed selfAddr w.peerSet w.names name new
    w'.peerSet w'.names w'.pending) : w'.names.Nodup ∧ w'.names.erase name = w.names.erase name ∧
      ∀ other, other ∉ w'.names → w'.peerSet.bySlice other = none := by
  have hkeys : ∀ other, other ≠ name → other ∉ w.names → w'.peerSet.bySlice other = none := by
    intro other hne hother
    rw [hc.bySlice, update_of_ne hne]
    exact hs.keys other hother
  rw [hc.names]
  split_ifs with hnone hmem
  · refine ⟨hs.names.erase name, ?_, fun other hother => ?_⟩
    · exact List.erase_of_not_mem (hs.names.not_mem_erase)
    · by_cases hne : other = name
      · rw [hc.bySlice, hne, update_self, hnone]
      · exact hkeys other hne fun h => hother ((List.mem_erase_of_ne hne).2 h)
  · refine ⟨hs.names, rfl, fun other hother => hkeys other ?_ hother⟩
    rintro rfl
    exact hother hmem
  · refine ⟨?_, ?_, fun other hother => ?_⟩
    · rw [List.nodup_append']
      exact ⟨hs.names, by simp, by simpa using hmem⟩
    · rw [List.erase_append_right _ hmem, List.erase_of_not_mem hmem]
      simp
    · simp only [List.mem_append, List.mem_singleton, not_or] at hother
      exact hkeys other hother.2 hother.1

/-- **One slice changes**: the stream is as sound as before, and holds what the events say. -/
theorem Sound.changed (hs : w.Sound selfAddr) (w' : Watch) (hphase : w'.phase = .running)
    (hc : Changed selfAddr w.peerSet w.names name new w'.peerSet w'.names w'.pending) :
    w'.Sound selfAddr ∧
      ∀ addr, balance w'.pending addr = (w'.holds addr : ℤ) - (w.holds addr : ℤ) := by
  obtain ⟨hnames, herase, hkeys⟩ := names_changed hs hc
  have hrest : ∀ addr, ((w'.names.erase name).map fun other => (w'.peersOf other).count addr) =
      (w.names.erase name).map fun other => (w.peersOf other).count addr := by
    intro addr
    rw [herase]
    refine List.map_congr_left fun other hother => ?_
    rw [peersOf_of_ne hc]
    rintro rfl
    exact hs.names.not_mem_erase hother
  have hholds : ∀ addr, w'.holds addr + (w.peersOf name).count addr =
      w.holds addr + (new.getD []).count addr := by
    intro addr
    rw [holds_split hs.keys name, holds_split hkeys name, hrest, peersOf_self hc]
    omega
  refine ⟨⟨hnames, hkeys, fun other => ?_, fun other addr hmem => ?_, fun addr => ?_,
    fun h => ?_, fun h => ?_⟩, fun addr => ?_⟩
  · by_cases hne : other = name
    · rw [hne, peersOf_self hc]
      exact hc.nodup
    · rw [peersOf_of_ne hc hne]
      exact hs.peers other
  · by_cases hne : other = name
    · rw [hne, peersOf_self hc] at hmem
      exact hc.others addr hmem
    · rw [peersOf_of_ne hc hne] at hmem
      exact hs.others other addr hmem
  · rw [hc.events, count_added_diff, holds_split hkeys name, peersOf_self hc]
    exact (List.filter_sublist.count_le addr).trans (Nat.le_add_right _ _)
  · cases hphase.symm.trans h
  · cases hphase.symm.trans h
  · have hdiff := count_diff (hs.peers name) hc.nodup addr
    have hh := hholds addr
    have hold : w.peersOf name = (w.peerSet.bySlice name).getD [] := rfl
    rw [hold] at hdiff hh
    rw [balance, hc.events, count_added_diff, count_removed_diff]
    omega

end Changed

/-! ## One poll -/

/-- What a poll can do: give out an event that waits, change the phase, drain, or take an event
    of the watcher. -/
theorem poll_cases (x : PeerCrates) (selfAddr : Option SocketAddr) (cancelled : Bool)
    (next : Option (Except WatcherError Event)) (w : Watch) :
    (∃ event rest, w.pending = event :: rest ∧
      w.poll x selfAddr cancelled next = ({ w with pending := rest }, some event)) ∨
    (w.pending = [] ∧ ∃ phase,
      w.poll x selfAddr cancelled next = ({ w with phase := phase }, none) ∧
      (phase = .finishing → w.phase = .finishing) ∧
      (phase = .drained → w.phase = .drained ∨ w.phase = .finishing)) ∨
    (w.pending = [] ∧ w.phase = .running ∧
      w.poll x selfAddr cancelled next = (w.shutDown x, none)) ∨
    (w.pending = [] ∧ w.phase = .running ∧
      ∃ event, w.poll x selfAddr cancelled next = (w.handleEvent x selfAddr event, none)) := by
  obtain ⟨target, peerSet, names, pending, phase⟩ := w
  cases pending with
  | cons event rest => exact .inl ⟨event, rest, rfl, rfl⟩
  | nil =>
    refine .inr ?_
    cases phase with
    | drained => exact .inl ⟨rfl, .drained, rfl, by simp⟩
    | failed => exact .inl ⟨rfl, .failed, rfl, by simp⟩
    | finishing => exact .inl ⟨rfl, .drained, rfl, by simp⟩
    | running =>
      cases cancelled with
      | true => exact .inr (.inl ⟨rfl, rfl, rfl⟩)
      | false =>
        match next with
        | none => exact .inl ⟨rfl, .failed, rfl, by simp⟩
        | some (.ok event) => exact .inr (.inr ⟨rfl, rfl, event, rfl⟩)
        | some (.error err) =>
          cases herr : isFatalWatcherError err with
          | true => exact .inl ⟨rfl, .failed, by simp [poll, herr], by simp⟩
          | false => exact .inl ⟨rfl, .running, by simp [poll, herr], by simp⟩

theorem count_drainPeers (x : PeerCrates) (w : Watch) (addr : SocketAddr) :
    (w.drainPeers x).count addr = w.holds addr := by
  rw [drainPeers, (x.order_perm _).count_eq, List.count_flatMap]
  rfl

/-- **A poll keeps a stream sound and its account**: what it gives out and what then waits differs
    from what waited by what the slices gained. -/
theorem Sound.poll (hs : w.Sound selfAddr) (cancelled : Bool)
    (next : Option (Except WatcherError Event)) :
    (w.poll x selfAddr cancelled next).1.Sound selfAddr ∧
      ∀ addr, balance (w.poll x selfAddr cancelled next).2.toList addr +
          balance (w.poll x selfAddr cancelled next).1.pending addr + w.holds addr =
        balance w.pending addr + (w.poll x selfAddr cancelled next).1.holds addr := by
  rcases poll_cases x selfAddr cancelled next w with ⟨event, rest, hpending, hpoll⟩ |
    ⟨hpending, phase, hpoll, hfinishing, hdrained⟩ | ⟨hpending, hphase, hpoll⟩ |
    ⟨hpending, hphase, event, hpoll⟩
  · rw [hpoll]
    refine ⟨⟨hs.names, hs.keys, hs.peers, hs.others, fun addr => ?_, hs.finishing, fun h => ?_⟩,
      fun addr => ?_⟩
    · refine le_trans ?_ (hs.added addr)
      rw [hpending]
      exact (List.sublist_cons_self event rest).count_le _
    · cases hpending.symm.trans (hs.drained h).2
    · have hcons : balance w.pending addr = balance [event] addr + balance rest addr := by
        rw [hpending, ← balance_append, List.singleton_append]
      rw [hcons]
      rfl
  · rw [hpoll]
    refine ⟨⟨hs.names, hs.keys, hs.peers, hs.others, hs.added, fun h => hs.finishing (hfinishing h),
      fun h => ⟨?_, hpending⟩⟩, fun addr => ?_⟩
    · exact (hdrained h).elim (fun h => (hs.drained h).1) hs.finishing
    · simp [balance, holds, peersOf]
  · rw [hpoll]
    have hcount : ∀ addr, ((w.drainPeers x).map PeerEvent.removed).count (.added addr) = 0 :=
      fun addr => List.count_eq_zero.2 (by simp)
    refine ⟨⟨List.nodup_nil, fun _ _ => rfl, fun _ => List.nodup_nil, fun _ _ h => (by cases h),
      fun addr => (hcount addr).le, fun _ => rfl, fun h => (by cases h)⟩, fun addr => ?_⟩
    have hremoved := count_removed_diff (w.drainPeers x) [] addr
    rw [List.map_nil, List.append_nil, count_drainPeers] at hremoved
    have hnone : (w.shutDown x).holds addr = 0 := rfl
    have hpending' : balance (w.shutDown x).pending addr = -(w.holds addr : ℤ) := by
      simp only [shutDown, balance, hcount, hremoved]
      omega
    rw [hpending, hpending', hnone]
    simp [balance]
  · rw [hpoll]
    rcases event_cases x selfAddr w.peerSet w.names event with ⟨hidle, hnames⟩ | ⟨name, new, hc⟩
    · have hsame : w.handleEvent x selfAddr event = w := by
        rw [handleEvent, hidle, hnames, ← hpending]
      rw [hsame]
      exact ⟨hs, fun addr => by simp [balance]⟩
    · obtain ⟨hs', hbalance⟩ := hs.changed (w.handleEvent x selfAddr event) hphase hc
      refine ⟨hs', fun addr => ?_⟩
      have := hbalance addr
      rw [hpending]
      simp only [balance, Option.toList_none, List.count_nil] at this ⊢
      omega

end Watch

/-! ## All streams -/

namespace Supervisor

variable {width : CountWidth} {serviceAllow : List String} {sup : Supervisor} {r : Runtime width}

/-- What a step can do to the streams and to what they have given out. -/
theorem step_cases (x : PeerCrates) (selfAddr : Option SocketAddr) (serviceAllow : List String)
    (sup : Supervisor) (input : Input) :
    ((sup.step x selfAddr serviceAllow input).watches = sup.watches ∧
      (sup.step x selfAddr serviceAllow input).emitted = sup.emitted) ∨
    (∃ target, (sup.step x selfAddr serviceAllow input).watches =
        sup.watches ++ [Watch.new target] ∧
      (sup.step x selfAddr serviceAllow input).emitted = sup.emitted) ∨
    ∃ i w cancelled next, sup.watches[i]? = some w ∧
      (sup.step x selfAddr serviceAllow input).watches =
        sup.watches.set i (w.poll x selfAddr cancelled next).1 ∧
      (sup.step x selfAddr serviceAllow input).emitted =
        sup.emitted ++ (w.poll x selfAddr cancelled next).2.toList.map fun event => (i, event) := by
  unfold step
  split_ifs with hended
  · exact .inl ⟨rfl, rfl⟩
  · cases input with
    | serviceError err => exact .inl ⟨rfl, rfl⟩
    | service event =>
      simp only [handleService]
      split
      · rename_i target _
        split
        · exact .inl ⟨rfl, rfl⟩
        · exact .inr (.inl ⟨target, rfl, rfl⟩)
      all_goals exact .inl ⟨rfl, rfl⟩
    | poll i next =>
      simp only [handlePoll]
      split
      · exact .inl ⟨rfl, rfl⟩
      · rename_i w hw
        exact .inr (.inr ⟨i, w, sup.cancelled i w, next, hw, rfl, rfl⟩)

theorem history_congr {sup' : Supervisor} (h : sup'.emitted = sup.emitted) (i : ℕ) :
    sup'.history i = sup.history i := by
  rw [history, h, history]

theorem history_concat {sup' : Supervisor} {i : ℕ} (event : Option PeerEvent)
    (h : sup'.emitted = sup.emitted ++ event.toList.map fun event => (i, event)) (j : ℕ) :
    sup'.history j = if j = i then sup.history j ++ event.toList else sup.history j := by
  rw [history, h, List.filter_append, List.map_append, history]
  cases event with
  | none => simp
  | some event =>
    by_cases hj : j = i
    · simp [hj]
    · simp [hj, Ne.symm hj]

/-- **The account of every stream.** -/
structure Accounted (selfAddr : Option SocketAddr) (sup : Supervisor) : Prop where
  sound : ∀ (i : ℕ) (w : Watch), sup.watches[i]? = some w → w.Sound selfAddr
  account : ∀ (i : ℕ) (w : Watch), sup.watches[i]? = some w → ∀ addr,
    balance (sup.history i) addr + balance w.pending addr = w.holds addr
  started : ∀ i, sup.watches.length ≤ i → sup.history i = []

theorem accounted_new : Accounted selfAddr new :=
  ⟨fun _ _ h => by simp [new] at h, fun _ _ h => by simp [new] at h, fun _ _ => rfl⟩

theorem Accounted.step (h : sup.Accounted selfAddr) (input : Input) :
    (sup.step x selfAddr serviceAllow input).Accounted selfAddr := by
  rcases step_cases x selfAddr serviceAllow sup input with ⟨hwatches, hemitted⟩ |
    ⟨target, hwatches, hemitted⟩ | ⟨i, w, cancelled, next, hw, hwatches, hemitted⟩
  · refine ⟨?_, ?_, ?_⟩
    · rw [hwatches]
      exact h.sound
    · intro i w hw
      rw [history_congr hemitted]
      exact h.account i w (hwatches ▸ hw)
    · intro i hi
      rw [history_congr hemitted]
      exact h.started i (hwatches ▸ hi)
  · -- the new stream has given out nothing and holds nothing
    have hsplit : ∀ i w, (sup.watches ++ [Watch.new target])[i]? = some w →
        sup.watches[i]? = some w ∨ i = sup.watches.length ∧ w = Watch.new target := by
      intro i w hw
      rcases lt_trichotomy i sup.watches.length with hi | hi | hi
      · rw [List.getElem?_append_left hi] at hw
        exact .inl hw
      · subst hi
        simp only [List.getElem?_concat_length, Option.some.injEq] at hw
        exact .inr ⟨rfl, hw.symm⟩
      · rw [List.getElem?_eq_none (by simp; omega)] at hw
        cases hw
    refine ⟨fun i w hw => ?_, fun i w hw addr => ?_, fun i hi => ?_⟩
    · rw [hwatches] at hw
      rcases hsplit i w hw with hold | ⟨-, rfl⟩
      · exact h.sound i w hold
      · exact Watch.sound_new target
    · rw [hwatches] at hw
      rw [history_congr hemitted]
      rcases hsplit i w hw with hold | ⟨rfl, rfl⟩
      · exact h.account i w hold addr
      · rw [h.started _ le_rfl]
        rfl
    · rw [history_congr hemitted]
      refine h.started i (le_trans ?_ hi)
      rw [hwatches, List.length_append]
      exact Nat.le_add_right _ _
  · have hlt : i < sup.watches.length := (List.getElem?_eq_some_iff.1 hw).1
    obtain ⟨hsound, haccount⟩ := (h.sound i w hw).poll (x := x) cancelled next
    refine ⟨fun j w' hw' => ?_, fun j w' hw' addr => ?_, fun j hj => ?_⟩
    · rw [hwatches] at hw'
      by_cases hj : j = i
      · subst hj
        rw [List.getElem?_set_self hlt] at hw'
        cases hw'
        exact hsound
      · rw [List.getElem?_set_ne (Ne.symm hj)] at hw'
        exact h.sound j w' hw'
    · rw [hwatches] at hw'
      rw [history_concat _ hemitted]
      by_cases hj : j = i
      · subst hj
        rw [List.getElem?_set_self hlt] at hw'
        cases hw'
        rw [if_pos rfl, balance_append]
        have hbefore := h.account j w hw addr
        have hpoll := haccount addr
        omega
      · rw [List.getElem?_set_ne (Ne.symm hj)] at hw'
        rw [if_neg hj]
        exact h.account j w' hw' addr
    · rw [hwatches, List.length_set] at hj
      rw [history_concat _ hemitted, if_neg (by omega)]
      exact h.started j hj

theorem run_concat (sup : Supervisor) (inputs : List Input) (input : Input) :
    sup.run x selfAddr serviceAllow (inputs ++ [input]) =
      (sup.run x selfAddr serviceAllow inputs).step x selfAddr serviceAllow input := by
  rw [run, List.foldl_append]
  rfl

theorem accounted_run (x : PeerCrates) (selfAddr : Option SocketAddr) (serviceAllow : List String)
    (inputs : List Input) : (new.run x selfAddr serviceAllow inputs).Accounted selfAddr := by
  induction inputs using List.reverseRecOn with
  | nil => exact accounted_new
  | append_singleton inputs input ih =>
    rw [run_concat]
    exact ih.step input

/-! ## The peers of the runtime -/

theorem feed_congr {sup' : Supervisor} (h : sup'.emitted = sup.emitted) :
    sup'.feed r = sup.feed r := by
  rw [feed, h, feed]

theorem feed_concat {sup' : Supervisor} {i : ℕ} {event : PeerEvent}
    (h : sup'.emitted = sup.emitted ++ [(i, event)]) :
    sup'.feed r = (sup.feed r).handlePeerEvent event := by
  rw [feed, h, List.map_append, List.foldl_append]
  rfl

/-- A peer that the runtime has from discovery is listed once, is another node, and is added more
    often than removed by one of the streams. -/
def Stands (selfAddr : Option SocketAddr) (r : Runtime width) (sup : Supervisor)
    (addr : SocketAddr) : Prop :=
  (sup.feed r).peerAddrs.count addr ≤ 1 ∧
    (addr ∈ (sup.feed r).peerAddrs → some addr ≠ selfAddr ∧ ∃ i, 0 < balance (sup.history i) addr)

/-- A stream that is about to add an address holds it, and has then added it more often than
    removed it. -/
theorem Accounted.adds (h : sup.Accounted selfAddr) {i : ℕ} {w : Watch} {addr : SocketAddr}
    {rest : List PeerEvent} (hw : sup.watches[i]? = some w)
    (hpending : w.pending = .added addr :: rest) :
    some addr ≠ selfAddr ∧ 0 < balance (sup.history i ++ [.added addr]) addr := by
  have hadded := (h.sound i w hw).added addr
  have haccount := h.account i w hw addr
  rw [hpending, List.count_cons_self] at hadded
  obtain ⟨name, -, hmem⟩ := Watch.exists_of_holds w addr (by omega)
  refine ⟨(h.sound i w hw).others name addr hmem, ?_⟩
  have hcons : balance w.pending addr = 1 + balance rest addr := by
    rw [hpending, ← List.singleton_append, balance_append]
    simp [balance]
  have hone : balance [.added addr] addr = 1 := by simp [balance]
  have hrest : balance rest addr ≤ rest.count (.added addr) := by
    rw [balance]
    omega
  rw [balance_append, hone]
  omega

theorem Stands.emit {sup' : Supervisor} {i : ℕ} {w : Watch} {addr : SocketAddr} {event : PeerEvent}
    {rest : List PeerEvent} (h : sup.Accounted selfAddr) (hst : Stands selfAddr r sup addr)
    (hw : sup.watches[i]? = some w) (hpending : w.pending = event :: rest)
    (hemitted : sup'.emitted = sup.emitted ++ [(i, event)]) : Stands selfAddr r sup' addr := by
  obtain ⟨hcount, hstands⟩ := hst
  have hhistory := history_concat (some event) hemitted
  -- what is on account of a stream stays so unless the address is removed
  have hkept : event ≠ .removed addr → (∃ i, 0 < balance (sup.history i) addr) →
      ∃ i, 0 < balance (sup'.history i) addr := by
    rintro hne ⟨j, hj⟩
    refine ⟨j, ?_⟩
    rw [hhistory]
    split_ifs
    · have hnone : [event].count (.removed addr) = 0 :=
        List.count_eq_zero.2 (by simpa using Ne.symm hne)
      have hevent : 0 ≤ balance [event] addr := by
        rw [balance, hnone]
        omega
      rw [Option.toList_some, balance_append]
      omega
    · exact hj
  rw [Stands, feed_concat hemitted]
  cases event with
  | added other =>
    rw [Runtime.peerAddrs_added]
    by_cases heq : other = addr
    · subst heq
      obtain ⟨hself, hpos⟩ := h.adds hw hpending
      refine ⟨?_, fun _ => ⟨hself, i, ?_⟩⟩
      · split_ifs with hmem
        · exact hcount
        · rw [List.count_append, List.count_eq_zero.2 hmem]
          simp
      · rw [hhistory, if_pos rfl]
        exact hpos
    · have hsame : ∀ l : List SocketAddr, (l ++ [other]).count addr = l.count addr := by
        intro l
        rw [List.count_append, List.count_singleton]
        simp [heq]
      refine ⟨?_, fun hmem => ?_⟩
      · split_ifs
        · exact hcount
        · rw [hsame]
          exact hcount
      · have hmem' : addr ∈ (sup.feed r).peerAddrs := by
          split_ifs at hmem
          · exact hmem
          · simpa [Ne.symm heq] using hmem
        exact ⟨(hstands hmem').1, hkept (by simp) (hstands hmem').2⟩
  | removed other =>
    rw [Runtime.peerAddrs_removed]
    refine ⟨((List.erase_sublist).count_le addr).trans hcount, fun hmem => ?_⟩
    by_cases heq : other = addr
    · -- the runtime had it once
      subst heq
      have := List.count_pos_iff.2 hmem
      rw [List.count_erase_self] at this
      omega
    · obtain ⟨hself, hpos⟩ := hstands (List.mem_of_mem_erase hmem)
      exact ⟨hself, hkept (by simpa using heq) hpos⟩

theorem stands_run (x : PeerCrates) (selfAddr : Option SocketAddr) (serviceAllow : List String)
    {addr : SocketAddr} (hnew : addr ∉ r.peerAddrs) (inputs : List Input) :
    Stands selfAddr r (new.run x selfAddr serviceAllow inputs) addr := by
  induction inputs using List.reverseRecOn with
  | nil => exact ⟨(List.count_eq_zero.2 hnew).trans_le zero_le_one, fun h => absurd h hnew⟩
  | append_singleton inputs input ih =>
    have hacc := accounted_run x selfAddr serviceAllow inputs
    rw [run_concat]
    rcases step_cases x selfAddr serviceAllow (new.run x selfAddr serviceAllow inputs) input with
      ⟨-, hemitted⟩ | ⟨-, -, hemitted⟩ | ⟨i, w, cancelled, next, hw, -, hemitted⟩
    · rw [Stands, feed_congr hemitted]
      simp only [history_congr hemitted]
      exact ih
    · rw [Stands, feed_congr hemitted]
      simp only [history_congr hemitted]
      exact ih
    · rcases Watch.poll_cases x selfAddr cancelled next w with ⟨event, rest, hpending, hpoll⟩ |
        ⟨-, _, hpoll, -⟩ | ⟨-, -, hpoll⟩ | ⟨-, -, _, hpoll⟩
      · rw [hpoll] at hemitted
        exact ih.emit hacc hw hpending hemitted
      all_goals
        rw [hpoll] at hemitted
        simp only [Option.toList_none, List.map_nil, List.append_nil] at hemitted
        rw [Stands, feed_congr hemitted]
        simp only [history_congr hemitted]
        exact ih

/-- **No peer without a watch.**  Services come and go, their streams are polled in any order and
    with any answers of the API, and the events go to a runtime.  Every peer that the runtime did
    not have at first is another node, and there is a stream that is not drained and either has
    the address in one of its slices or has its removal waiting. -/
theorem peers_have_watch (r : Runtime width) (inputs : List Input) {addr : SocketAddr}
    (hnew : addr ∉ r.peerAddrs)
    (hpeer : addr ∈ ((new.run x selfAddr serviceAllow inputs).feed r).peerAddrs) :
    some addr ≠ selfAddr ∧ ∃ w ∈ (new.run x selfAddr serviceAllow inputs).watches,
      w.phase ≠ .drained ∧ ((∃ name ∈ w.names, addr ∈ w.peersOf name) ∨
        .removed addr ∈ w.pending) := by
  have hacc := accounted_run x selfAddr serviceAllow inputs
  obtain ⟨hself, i, hpos⟩ := (stands_run x selfAddr serviceAllow hnew inputs).2 hpeer
  -- a stream that has given out something is one of those that were started
  cases hw : (new.run x selfAddr serviceAllow inputs).watches[i]? with
  | none =>
    rw [hacc.started i (List.getElem?_eq_none_iff.1 hw)] at hpos
    exact absurd hpos (lt_irrefl _)
  | some w =>
    have haccount := hacc.account i w hw addr
    refine ⟨hself, w, List.mem_of_getElem? hw, fun hdrained => ?_, ?_⟩
    · obtain ⟨hnames, hpending⟩ := (hacc.sound i w hw).drained hdrained
      rw [hpending, Watch.holds, hnames] at haccount
      simp only [balance, List.count_nil, List.map_nil, List.sum_nil] at haccount hpos
      omega
    · by_cases hholds : 0 < w.holds addr
      · exact .inl (Watch.exists_of_holds w addr hholds)
      · refine .inr (List.count_pos_iff.1 ?_)
        have hpending : balance w.pending addr =
            w.pending.count (.added addr) - w.pending.count (.removed addr) := rfl
        rw [hpending] at haccount
        omega

/-- A Service with a gabion port. -/
def podService : Service := ⟨some "default", some "pods", some ⟨some [⟨some "gabion", some "UDP"⟩]⟩⟩

/-- The Service comes, its watch lists a slice with one Pod, and gives out the Pod's address. -/
def podInputs : List Input :=
  [.service (.apply podService), .poll 0 (some (.ok (.initApply (podSlice "a")))), .poll 0 none]

theorem peers_have_watch_pod : ∃ r : Runtime .u32, ⟨5, 7946⟩ ∉ r.peerAddrs ∧
    ⟨5, 7946⟩ ∈ ((new.run podCrates none [] podInputs).feed r).peerAddrs ∧
    ∃ w ∈ (new.run podCrates none [] podInputs).watches, w.phase ≠ .drained ∧
      ((∃ name ∈ w.names, ⟨5, 7946⟩ ∈ w.peersOf name) ∨ .removed ⟨5, 7946⟩ ∈ w.pending) := by
  have hnew : (⟨5, 7946⟩ : SocketAddr) ∉ loneRuntime.peerAddrs := by decide +kernel
  have hmem : (⟨5, 7946⟩ : SocketAddr) ∈
      ((new.run podCrates none [] podInputs).feed loneRuntime).peerAddrs := by decide +kernel
  exact ⟨_, hnew, hmem, (peers_have_watch _ podInputs hnew hmem).2⟩

/-! ## A Service that goes -/

end Supervisor

namespace Watch

/-- How many polls a cancelled stream needs to its end. -/
def rank (w : Watch) : ℕ :=
  w.pending.length +
    match w.phase with
    | .running => (w.names.flatMap w.peersOf).length + 2
    | .finishing => 1
    | .drained | .failed => 0

/-- The stream has not failed. -/
def Alive (w : Watch) : Prop := w.phase ≠ .failed

theorem poll_target (cancelled : Bool) (next : Option (Except WatcherError Event)) :
    (w.poll x selfAddr cancelled next).1.target = w.target := by
  rcases poll_cases x selfAddr cancelled next w with ⟨_, _, -, hpoll⟩ | ⟨-, _, hpoll, -⟩ |
    ⟨-, -, hpoll⟩ | ⟨-, -, _, hpoll⟩ <;> rw [hpoll] <;> rfl

/-- **A cancelled stream comes one poll nearer to its end**, whatever its watcher has. -/
theorem rank_poll (x : PeerCrates) (selfAddr : Option SocketAddr) (halive : w.Alive)
    (next : Option (Except WatcherError Event)) :
    (w.poll x selfAddr true next).1.Alive ∧ (w.poll x selfAddr true next).1.rank = w.rank - 1 := by
  obtain ⟨target, peerSet, names, pending, phase⟩ := w
  cases pending with
  | cons event rest =>
    refine ⟨halive, ?_⟩
    cases phase with
    | running =>
      -- the slices do not depend on what waits
      show rest.length + ((names.flatMap fun name => (peerSet.bySlice name).getD []).length + 2) =
        rest.length + 1 +
          ((names.flatMap fun name => (peerSet.bySlice name).getD []).length + 2) - 1
      omega
    | finishing | drained | failed =>
      simp only [poll, rank, List.length_cons]
      omega
  | nil =>
    cases phase with
    | drained => exact ⟨halive, rfl⟩
    | failed => exact absurd rfl halive
    | finishing => exact ⟨by simp [poll, Alive], rfl⟩
    | running =>
      refine ⟨by simp [poll, shutDown, Alive], ?_⟩
      simp [poll, shutDown, rank, drainPeers, (x.order_perm _).length_eq, peersOf]

theorem drained_of_rank (halive : w.Alive) (h : w.rank = 0) :
    w.phase = .drained := by
  rw [rank] at h
  cases hphase : w.phase with
  | drained => rfl
  | failed => exact absurd hphase halive
  | running | finishing =>
    rw [hphase] at h
    dsimp only at h
    omega

end Watch

namespace Supervisor

variable {width : CountWidth} {serviceAllow : List String} {sup : Supervisor}

/-- How often the stream is polled. -/
def polls (i : ℕ) (inputs : List Input) : ℕ :=
  inputs.countP fun input =>
    match input with
    | .poll j _ => j = i
    | _ => false

/-- A stream that is cancelled and has not failed, so many polls from its end. -/
def Leaving (sup : Supervisor) (i n : ℕ) : Prop :=
  ∃ w, sup.watches[i]? = some w ∧ sup.cancelled i w = true ∧ w.Alive ∧ w.rank ≤ n

/-- Nothing gives a stream its sender back, and only its own polls change it. -/
theorem Leaving.step {i n : ℕ} (h : sup.Leaving i n) (input : Input)
    (hended : (sup.step x selfAddr serviceAllow input).ended = false) :
    (sup.step x selfAddr serviceAllow input).Leaving i (n - polls i [input]) := by
  obtain ⟨w, hw, hcancelled, halive, hrank⟩ := h
  have hlt : i < sup.watches.length := (List.getElem?_eq_some_iff.1 hw).1
  unfold Supervisor.step at hended ⊢
  split_ifs with hsup
  · rw [if_pos hsup, hsup] at hended
    cases hended
  · cases input with
    | serviceError err => exact ⟨w, hw, hcancelled, halive, hrank⟩
    | service event =>
      simp only [handleService]
      split
      · rename_i target _
        split
        · exact ⟨w, hw, hcancelled, halive, hrank⟩
        · refine ⟨w, by rw [List.getElem?_append_left hlt]; exact hw, ?_, halive, hrank⟩
          simp only [cancelled, ne_eq, decide_eq_true_eq] at hcancelled ⊢
          by_cases htarget : w.target = target
          · rw [htarget, update_self]
            simpa using hlt.ne'
          · rwa [update_of_ne htarget]
      · rename_i target _
        refine ⟨w, hw, ?_, halive, hrank⟩
        simp only [cancelled, ne_eq, decide_eq_true_eq] at hcancelled ⊢
        by_cases htarget : w.target = target
        · rw [htarget, update_self]
          simp
        · rwa [update_of_ne htarget]
      all_goals exact ⟨w, hw, hcancelled, halive, hrank⟩
    | poll j next =>
      simp only [handlePoll]
      by_cases hj : j = i
      · subst hj
        rw [hw]
        dsimp only
        rw [hcancelled]
        obtain ⟨halive', hrank'⟩ := Watch.rank_poll x selfAddr halive next
        refine ⟨_, List.getElem?_set_self hlt, ?_, halive', ?_⟩
        · simp only [cancelled, Watch.poll_target] at hcancelled ⊢
          exact hcancelled
        · simp only [polls, List.countP_singleton, decide_true, if_true]
          omega
      · have hnone : polls i [.poll j next] = 0 := by simp [polls, hj]
        rw [hnone, Nat.sub_zero]
        split
        · exact ⟨w, hw, hcancelled, halive, hrank⟩
        · refine ⟨w, ?_, hcancelled, halive, hrank⟩
          rw [List.getElem?_set_ne hj]
          exact hw

theorem ended_step (input : Input) (h : sup.ended = true) :
    (sup.step x selfAddr serviceAllow input).ended = true := by
  unfold step
  rw [if_pos h]
  exact h

theorem Leaving.run {i n : ℕ} (h : sup.Leaving i n) (inputs : List Input)
    (hended : (sup.run x selfAddr serviceAllow inputs).ended = false) :
    (sup.run x selfAddr serviceAllow inputs).Leaving i (n - polls i inputs) := by
  induction inputs using List.reverseRecOn with
  | nil => exact h
  | append_singleton inputs input ih =>
    rw [run_concat] at hended ⊢
    have hbefore : (sup.run x selfAddr serviceAllow inputs).ended = false := by
      by_contra hc
      rw [ended_step input (by simpa using hc)] at hended
      cases hended
    have hpolls : n - polls i (inputs ++ [input]) = n - polls i inputs - polls i [input] := by
      rw [polls, List.countP_append, Nat.sub_add_eq]
      rfl
    rw [hpolls]
    exact (ih hbefore).step input hended

/-- **A Service that goes takes back what it has added.**  After any run, let a stream have lost
    its sender and not have failed.  Whatever comes then, Services and polls of other streams
    in between, once it is polled as often as its rank says it is drained, and each address was
    removed by it as often as it was added, as long as discovery has not ended. -/
theorem untracked_service_drains (inputs more : List Input) (i : ℕ) (w : Watch)
    (hw : (new.run x selfAddr serviceAllow inputs).watches[i]? = some w)
    (hcancelled : (new.run x selfAddr serviceAllow inputs).cancelled i w = true)
    (halive : w.Alive) (hpolls : w.rank ≤ polls i more)
    (hended : (new.run x selfAddr serviceAllow (inputs ++ more)).ended = false) :
    ∃ w', (new.run x selfAddr serviceAllow (inputs ++ more)).watches[i]? = some w' ∧
      w'.phase = .drained ∧
      ∀ addr, balance ((new.run x selfAddr serviceAllow (inputs ++ more)).history i) addr = 0 := by
  have hleaving : (new.run x selfAddr serviceAllow inputs).Leaving i w.rank :=
    ⟨w, hw, hcancelled, halive, le_rfl⟩
  have happend : new.run x selfAddr serviceAllow (inputs ++ more) =
      (new.run x selfAddr serviceAllow inputs).run x selfAddr serviceAllow more :=
    List.foldl_append
  have hacc := accounted_run x selfAddr serviceAllow (inputs ++ more)
  obtain ⟨w', hw', -, halive', hrank⟩ := hleaving.run more (happend ▸ hended)
  rw [← happend] at hw'
  have hdrained := Watch.drained_of_rank halive' (by omega)
  obtain ⟨hnames, hpending⟩ := (hacc.sound i w' hw').drained hdrained
  refine ⟨w', hw', hdrained, fun addr => ?_⟩
  have haccount := hacc.account i w' hw' addr
  rw [hpending, Watch.holds, hnames] at haccount
  simpa [balance] using haccount

/-- The Service of one Pod is deleted, and its stream polled until it is drained. -/
theorem untracked_service_drains_pod : ∃ w',
    (new.run podCrates none [] (podInputs ++ [.service (.delete podService)] ++
      List.replicate 3 (.poll 0 none))).watches[0]? = some w' ∧ w'.phase = .drained ∧
    ∀ addr, balance ((new.run podCrates none [] (podInputs ++ [.service (.delete podService)] ++
      List.replicate 3 (.poll 0 none))).history 0) addr = 0 := by
  have hrun : (new.run podCrates none []
      (podInputs ++ [.service (.delete podService)])).watches[0]?.map (fun w =>
        ((new.run podCrates none [] (podInputs ++ [.service (.delete podService)])).cancelled 0 w,
          w.phase, w.rank)) = some (true, .running, 3) := by decide +kernel
  obtain ⟨w, hw, hfacts⟩ := Option.map_eq_some_iff.1 hrun
  simp only [Prod.mk.injEq] at hfacts
  obtain ⟨hcancelled, hphase, hrank⟩ := hfacts
  have halive : w.Alive := by
    rw [Watch.Alive, hphase]
    decide
  exact untracked_service_drains _ (List.replicate 3 (.poll 0 none)) 0 w hw hcancelled halive
    (by rw [hrank]; decide) (by decide +kernel)

end Supervisor

end Kubernetes

end Gabion

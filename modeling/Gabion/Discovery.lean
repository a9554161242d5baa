/-
  Peers from Kubernetes EndpointSlices (`discovery/kubernetes.rs`).

  The watch of a Service keeps the addresses of each of its slices and emits what an event
  adds to the slice or removes from it.  The runtime holds one flat list of peers.  Two slices
  may name the same address: the first of them to let go of it removes the peer, although the
  other one still has it (`peers_follow_slices_iff`).
-/
import Gabion.Agreement

namespace Gabion

namespace Kubernetes

open Function

/-! ## EndpointSlices -/

structure EndpointPort where
  name : Option String
  protocol : Option String
  port : Option ℤ
deriving DecidableEq, Repr

structure EndpointConditions where
  ready : Option Bool
deriving DecidableEq, Repr

structure Endpoint where
  addresses : List String
  conditions : Option EndpointConditions
deriving DecidableEq, Repr

/-- An EndpointSlice, as far as discovery reads it; `name` is `metadata.name`. -/
structure EndpointSlice where
  name : Option String
  ports : Option (List EndpointPort)
  endpoints : List Endpoint
deriving DecidableEq, Repr

/-- What discovery takes from libraries: the parser of IP addresses, and the order in which a
    hash set gives out its elements. -/
structure PeerCrates where
  parseIp : String → Option (BitVec 128)
  order : List SocketAddr → List SocketAddr
  order_perm : ∀ addrs, (order addrs).Perm addrs

def isGabionUdp (name protocol : Option String) : Bool :=
  name = some "gabion" && protocol = some "UDP"

/-- The port is a 32-bit signed number; one that is no `u16` is as good as none. -/
def selectGabionUdpPort (slice : EndpointSlice) : Option (BitVec 16) := do
  let found ← (slice.ports.getD []).find? fun p => isGabionUdp p.name p.protocol
  let port ← found.port
  if 0 ≤ port ∧ port < 2 ^ 16 then some (BitVec.ofInt 16 port) else none

def Endpoint.isReady (e : Endpoint) : Bool := (e.conditions.bind fun c => c.ready).getD true

def peersFromEndpointSlice (x : PeerCrates) (slice : EndpointSlice)
    (selfAddr : Option SocketAddr) : List SocketAddr :=
  match selectGabionUdpPort slice with
  | none => []
  | some port =>
    x.order (((slice.endpoints.filter Endpoint.isReady).flatMap Endpoint.addresses).filterMap
      fun addr => do
        let ip ← x.parseIp addr
        let sock : SocketAddr := { ip, port }
        if some sock = selfAddr then none else some sock).dedup

/-! ## The watch of a Service -/

/-- `by_slice` maps the names of slices to their peers. -/
structure EndpointSlicePeerSet where
  bySlice : String → Option (List SocketAddr)

structure PeerSetDiff where
  added : List SocketAddr
  removed : List SocketAddr
deriving DecidableEq, Repr

namespace EndpointSlicePeerSet

def empty : EndpointSlicePeerSet := ⟨fun _ => none⟩

def apply (x : PeerCrates) (s : EndpointSlicePeerSet) (slice : EndpointSlice)
    (selfAddr : Option SocketAddr) : EndpointSlicePeerSet × PeerSetDiff :=
  match slice.name with
  | none => (s, ⟨[], []⟩)
  | some name =>
    let new := peersFromEndpointSlice x slice selfAddr
    let old := (s.bySlice name).getD []
    (⟨update s.bySlice name (some new)⟩,
      { added := new.filter fun peer => peer ∉ old
        removed := old.filter fun peer => peer ∉ new })

def delete (s : EndpointSlicePeerSet) (slice : EndpointSlice) :
    EndpointSlicePeerSet × List SocketAddr :=
  match slice.name with
  | none => (s, [])
  | some name => (⟨update s.bySlice name none⟩, (s.bySlice name).getD [])

end EndpointSlicePeerSet

/-- The events of the Kubernetes watcher. -/
inductive Event
  | apply (slice : EndpointSlice)
  | delete (slice : EndpointSlice)
  | init
  | initApply (slice : EndpointSlice)
  | initDone

/-- What `watch_target` does with an event: `Removed` comes before `Added`. -/
def watchTarget (x : PeerCrates) (selfAddr : Option SocketAddr) (s : EndpointSlicePeerSet) :
    Event → EndpointSlicePeerSet × List PeerEvent
  | .init | .initDone => (s, [])
  | .apply slice | .initApply slice =>
    let (s, diff) := s.apply x slice selfAddr
    (s, diff.removed.map .removed ++ diff.added.map .added)
  | .delete slice =>
    let (s, removed) := s.delete slice
    (s, removed.map .removed)

/-- The watch and the runtime it feeds, after some events. -/
def follow {w : CountWidth} (x : PeerCrates) (selfAddr : Option SocketAddr)
    (state : EndpointSlicePeerSet × Runtime w) (events : List Event) :
    EndpointSlicePeerSet × Runtime w :=
  events.foldl (fun (s, r) event =>
    let (s, emitted) := watchTarget x selfAddr s event
    (s, emitted.foldl Runtime.handlePeerEvent r)) state

end Kubernetes

/-! ## The peers of the runtime -/

namespace Runtime

variable {w : CountWidth} {r : Runtime w}

/-- The addresses the node gossips with. -/
def peerAddrs (r : Runtime w) : List SocketAddr := r.peers.map Peer.addr

theorem peerAddrs_added (r : Runtime w) (addr : SocketAddr) :
    (r.handlePeerEvent (.added addr)).peerAddrs =
      if addr ∈ r.peerAddrs then r.peerAddrs else r.peerAddrs ++ [addr] := by
  have hany : (r.peers.any fun p => p.addr = addr) = true ↔ addr ∈ r.peerAddrs := by
    simp [peerAddrs, List.mem_map]
  simp only [handlePeerEvent]
  by_cases hmem : addr ∈ r.peerAddrs
  · rw [if_pos hmem, if_pos (hany.2 hmem)]
  · rw [if_neg hmem, if_neg (mt hany.1 hmem)]
    simp [peerAddrs]

theorem peerAddrs_removed (r : Runtime w) (addr : SocketAddr) :
    (r.handlePeerEvent (.removed addr)).peerAddrs = r.peerAddrs.erase addr := by
  have herase : (r.peers.eraseP fun p => p.addr = addr).map Peer.addr = r.peerAddrs.erase addr := by
    rw [peerAddrs, List.erase_eq_eraseP', List.eraseP_map]
    rfl
  simp only [handlePeerEvent]
  cases hfind : r.peers.find? fun p => p.addr = addr with
  | none =>
    have hnot : addr ∉ r.peerAddrs := by
      simpa [peerAddrs] using hfind
    exact (List.erase_of_not_mem hnot).symm
  | some removed =>
    dsimp only
    split <;> exact herase

/-- **Removals, then additions**: no address is listed twice, and an address is listed if it is
    added, or if it was listed and is not removed. -/
theorem peerAddrs_diff (hnodup : r.peerAddrs.Nodup) (removed added : List SocketAddr) :
    ((removed.map PeerEvent.removed ++ added.map PeerEvent.added).foldl handlePeerEvent
      r).peerAddrs.Nodup ∧
      ∀ addr, addr ∈ ((removed.map PeerEvent.removed ++ added.map PeerEvent.added).foldl
        handlePeerEvent r).peerAddrs ↔ addr ∈ added ∨ addr ∈ r.peerAddrs ∧ addr ∉ removed := by
  induction removed generalizing r with
  | nil =>
    rw [List.map_nil, List.nil_append]
    induction added generalizing r with
    | nil => simpa using hnodup
    | cons addr rest ih =>
      have hstep := peerAddrs_added r addr
      obtain ⟨hnodup', hmem⟩ := ih (r := r.handlePeerEvent (.added addr)) (by
        rw [hstep]
        split_ifs with h
        · exact hnodup
        · rw [List.nodup_append']
          exact ⟨hnodup, by simp, by simpa using h⟩)
      refine ⟨hnodup', fun a => ?_⟩
      rw [List.map_cons, List.foldl_cons, hmem, hstep]
      split_ifs with h
      · constructor
        · simp; tauto
        · simp only [List.mem_cons]
          rintro ((rfl | ha) | ha) <;> simp_all
      · simp only [List.mem_append, List.mem_cons, List.not_mem_nil]
        tauto
  | cons addr rest ih =>
    have hstep := peerAddrs_removed r addr
    obtain ⟨hnodup', hmem⟩ := ih (r := r.handlePeerEvent (.removed addr)) (by
      rw [hstep]
      exact hnodup.erase addr)
    refine ⟨hnodup', fun a => ?_⟩
    rw [List.map_cons, List.cons_append, List.foldl_cons, hmem, hstep, hnodup.mem_erase_iff,
      List.mem_cons]
    tauto

end Runtime

namespace Kubernetes

open Function

/-! ## The slices that exist -/

/-- A change of one slice. -/
inductive SliceEvent
  | apply (slice : EndpointSlice)
  | delete (slice : EndpointSlice)

def SliceEvent.toEvent : SliceEvent → Event
  | apply slice => .apply slice
  | delete slice => .delete slice

def SliceEvent.slice : SliceEvent → EndpointSlice
  | apply slice | delete slice => slice

/-- What the slice is after the change. -/
def SliceEvent.result : SliceEvent → Option EndpointSlice
  | apply slice => some slice
  | delete _ => none

/-- The slices after a change. -/
def SliceEvent.change (slices : String → Option EndpointSlice) (e : SliceEvent) :
    String → Option EndpointSlice :=
  match e.slice.name with
  | none => slices
  | some name => update slices name e.result

/-- **The slices that exist** after some changes. -/
def existing (events : List SliceEvent) : String → Option EndpointSlice :=
  events.foldl SliceEvent.change fun _ => none

theorem existing_concat (events : List SliceEvent) (e : SliceEvent) :
    existing (events ++ [e]) = e.change (existing events) := by
  rw [existing, List.foldl_append]
  rfl

section
variable (x : PeerCrates) (selfAddr : Option SocketAddr)

/-- The peer addresses of a slice, if it exists. -/
def addrsOf (slices : String → Option EndpointSlice) (name : String) : List SocketAddr :=
  (slices name).elim [] fun slice => peersFromEndpointSlice x slice selfAddr

/-- The address occurs in a slice that exists. -/
def Occurs (slices : String → Option EndpointSlice) (addr : SocketAddr) : Prop :=
  ∃ name, addr ∈ addrsOf x selfAddr slices name

/-- The change takes the address out of the slice. -/
def Drops (slices : String → Option EndpointSlice) (e : SliceEvent) (addr : SocketAddr) : Prop :=
  ∃ name, e.slice.name = some name ∧ addr ∈ addrsOf x selfAddr slices name ∧
    addr ∉ addrsOf x selfAddr (e.change slices) name

/-- The change puts the address into the slice. -/
def Gains (slices : String → Option EndpointSlice) (e : SliceEvent) (addr : SocketAddr) : Prop :=
  ∃ name, e.slice.name = some name ∧ addr ∉ addrsOf x selfAddr slices name ∧
    addr ∈ addrsOf x selfAddr (e.change slices) name

/-- Every change that takes the address out of a slice is followed by one that puts it into a
    slice. -/
def Restored (events : List SliceEvent) (addr : SocketAddr) : Prop :=
  ∀ pre e post, events = pre ++ e :: post → Drops x selfAddr (existing pre) e addr →
    ∃ before e' after, post = before ++ e' :: after ∧
      Gains x selfAddr (existing (pre ++ e :: before)) e' addr

end

section
variable {x : PeerCrates} {selfAddr : Option SocketAddr} {slices : String → Option EndpointSlice}
  {e : SliceEvent} {addr : SocketAddr} {events : List SliceEvent}

theorem change_of_ne {name : String} (h : e.slice.name ≠ some name) :
    e.change slices name = slices name := by
  rw [SliceEvent.change]
  cases hname : e.slice.name with
  | none => rfl
  | some other => exact update_of_ne (fun heq => h (by rw [hname, heq])) _ _

theorem not_drops_of_gains (hg : Gains x selfAddr slices e addr) :
    ¬ Drops x selfAddr slices e addr := by
  rintro ⟨name, hname, hmem, -⟩
  obtain ⟨name', hname', hnot, -⟩ := hg
  cases hname.symm.trans hname'
  exact hnot hmem

theorem change_of_eq {name : String} (h : e.slice.name = some name) :
    e.change slices name = e.result := by
  rw [SliceEvent.change, h]
  exact update_self _ _ _

/-- An address that is not dropped goes on to occur. -/
theorem Occurs.change (h : Occurs x selfAddr slices addr) (hd : ¬ Drops x selfAddr slices e addr) :
    Occurs x selfAddr (e.change slices) addr := by
  obtain ⟨name, hmem⟩ := h
  by_cases hname : e.slice.name = some name
  · by_contra hnot
    exact hd ⟨name, hname, hmem, fun hc => hnot ⟨name, hc⟩⟩
  · refine ⟨name, ?_⟩
    rw [addrsOf, change_of_ne hname]
    exact hmem

/-- An address that is not gained has occurred before. -/
theorem Occurs.of_change (h : Occurs x selfAddr (e.change slices) addr)
    (hg : ¬ Gains x selfAddr slices e addr) : Occurs x selfAddr slices addr := by
  obtain ⟨name, hmem⟩ := h
  by_cases hname : e.slice.name = some name
  · by_contra hnot
    exact hg ⟨name, hname, fun hc => hnot ⟨name, hc⟩, hmem⟩
  · refine ⟨name, ?_⟩
    rw [addrsOf, change_of_ne hname] at hmem
    exact hmem

/-- One more change: either it puts the address into a slice, or everything was restored
    before and it takes nothing away. -/
theorem restored_concat : Restored x selfAddr (events ++ [e]) addr ↔
    Gains x selfAddr (existing events) e addr ∨
      Restored x selfAddr events addr ∧ ¬ Drops x selfAddr (existing events) e addr := by
  constructor
  · intro h
    by_cases hg : Gains x selfAddr (existing events) e addr
    · exact .inl hg
    refine .inr ⟨fun pre d post hsplit hdrop => ?_, fun hdrop => ?_⟩
    · -- the change that follows is not the last one
      obtain ⟨before, e', after, hpost, hgain⟩ := h pre d (post ++ [e]) (by simp [hsplit]) hdrop
      rcases List.eq_nil_or_concat after with rfl | ⟨after, last, rfl⟩
      · obtain ⟨rfl, hlast⟩ := List.append_inj' hpost rfl
        cases hlast
        rw [← hsplit] at hgain
        exact absurd hgain hg
      · rw [List.concat_eq_append, ← List.cons_append, ← List.append_assoc] at hpost
        obtain ⟨rfl, -⟩ := List.append_inj' hpost rfl
        exact ⟨before, e', after, rfl, hgain⟩
    · obtain ⟨before, e', after, hpost, -⟩ := h events e [] rfl hdrop
      simp at hpost
  · rintro (hg | ⟨hrest, hnot⟩) pre d post hsplit hdrop
    · rcases List.eq_nil_or_concat post with rfl | ⟨post, last, rfl⟩
      · obtain ⟨rfl, hlast⟩ := List.append_inj' hsplit rfl
        cases hlast
        exact absurd hdrop (not_drops_of_gains hg)
      · rw [List.concat_eq_append, ← List.cons_append, ← List.append_assoc] at hsplit
        obtain ⟨rfl, hlast⟩ := List.append_inj' hsplit rfl
        cases hlast
        exact ⟨post, e, [], by simp, hg⟩
    · rcases List.eq_nil_or_concat post with rfl | ⟨post, last, rfl⟩
      · obtain ⟨rfl, hlast⟩ := List.append_inj' hsplit rfl
        cases hlast
        exact absurd hdrop hnot
      · rw [List.concat_eq_append, ← List.cons_append, ← List.append_assoc] at hsplit
        obtain ⟨hinit, hlast⟩ := List.append_inj' hsplit rfl
        cases hlast
        obtain ⟨before, e', after, rfl, hgain⟩ := hrest pre d post hinit hdrop
        exact ⟨before, e', after ++ [e], by simp, hgain⟩

/-! ## The watch and the runtime -/

/-- The watch knows the addresses of every slice that exists, and of no other. -/
def Tracks (x : PeerCrates) (selfAddr : Option SocketAddr) (s : EndpointSlicePeerSet)
    (slices : String → Option EndpointSlice) : Prop :=
  ∀ name, s.bySlice name = (slices name).map fun slice => peersFromEndpointSlice x slice selfAddr

theorem Tracks.getD {s : EndpointSlicePeerSet} (h : Tracks x selfAddr s slices) (name : String) :
    (s.bySlice name).getD [] = addrsOf x selfAddr slices name := by
  rw [h name, addrsOf]
  cases slices name <;> rfl

/-- **One change**: the watch tracks it, and emits what the slice drops and gains. -/
theorem Tracks.step {s : EndpointSlicePeerSet} (h : Tracks x selfAddr s slices)
    (e : SliceEvent) : Tracks x selfAddr (watchTarget x selfAddr s e.toEvent).1 (e.change slices) ∧
      ∃ removed added : List SocketAddr, (watchTarget x selfAddr s e.toEvent).2 =
        removed.map PeerEvent.removed ++ added.map PeerEvent.added ∧
        (∀ addr, addr ∈ removed ↔ Drops x selfAddr slices e addr) ∧
        ∀ addr, addr ∈ added ↔ Gains x selfAddr slices e addr := by
  cases hname : e.slice.name with
  | none =>
    have hdrops : ∀ addr, ¬ Drops x selfAddr slices e addr := by
      rintro addr ⟨name, hc, -⟩
      cases hname.symm.trans hc
    have hgains : ∀ addr, ¬ Gains x selfAddr slices e addr := by
      rintro addr ⟨name, hc, -⟩
      cases hname.symm.trans hc
    have hchange : e.change slices = slices := by rw [SliceEvent.change, hname]
    have hidle : watchTarget x selfAddr s e.toEvent = (s, []) := by
      cases e <;> simp_all [watchTarget, SliceEvent.toEvent, SliceEvent.slice,
        EndpointSlicePeerSet.apply, EndpointSlicePeerSet.delete]
    rw [hidle, hchange]
    exact ⟨h, [], [], rfl, by simp [hdrops], by simp [hgains]⟩
  | some name =>
    have hgains : ∀ addr, Gains x selfAddr slices e addr ↔ addr ∉ addrsOf x selfAddr slices name ∧
        addr ∈ e.result.elim [] fun slice => peersFromEndpointSlice x slice selfAddr := by
      intro addr
      simp only [Gains, hname, Option.some.injEq]
      rw [exists_eq_left', addrsOf, addrsOf, change_of_eq hname]
    have hdrops : ∀ addr, Drops x selfAddr slices e addr ↔ addr ∈ addrsOf x selfAddr slices name ∧
        addr ∉ e.result.elim [] fun slice => peersFromEndpointSlice x slice selfAddr := by
      intro addr
      simp only [Drops, hname, Option.some.injEq]
      rw [exists_eq_left', addrsOf, addrsOf, change_of_eq hname]
    have htracks : ∀ s', s'.bySlice = update s.bySlice name (e.result.map fun slice =>
        peersFromEndpointSlice x slice selfAddr) → Tracks x selfAddr s' (e.change slices) := by
      intro s' hs' other
      rw [hs']
      by_cases hne : other = name
      · rw [hne, update_self, change_of_eq hname]
      · rw [update_of_ne hne, change_of_ne (by rw [hname]; simpa using Ne.symm hne)]
        exact h other
    cases e with
    | apply slice =>
      simp only [SliceEvent.slice] at hname
      simp only [watchTarget, SliceEvent.toEvent, EndpointSlicePeerSet.apply, hname]
      refine ⟨htracks _ rfl, _, _, rfl, fun addr => ?_, fun addr => ?_⟩
      · rw [hdrops, h.getD]
        simp [SliceEvent.result]
      · rw [hgains, h.getD]
        simp [SliceEvent.result, and_comm]
    | delete slice =>
      simp only [SliceEvent.slice] at hname
      simp only [watchTarget, SliceEvent.toEvent, EndpointSlicePeerSet.delete, hname]
      refine ⟨htracks _ rfl, _, [], (List.append_nil _).symm, fun addr => ?_, fun addr => ?_⟩
      · rw [hdrops, h.getD]
        simp [SliceEvent.result]
      · rw [hgains]
        simp [SliceEvent.result]

end

variable {w : CountWidth} (x : PeerCrates) (selfAddr : Option SocketAddr)

/-- The watch and the runtime after some changes, from no slices and no peers on. -/
def followSlices (r : Runtime w) (events : List SliceEvent) : EndpointSlicePeerSet × Runtime w :=
  follow x selfAddr (.empty, r) (events.map SliceEvent.toEvent)

theorem followSlices_concat (r : Runtime w) (events : List SliceEvent) (e : SliceEvent) :
    followSlices x selfAddr r (events ++ [e]) =
      ((watchTarget x selfAddr (followSlices x selfAddr r events).1 e.toEvent).1,
        (watchTarget x selfAddr (followSlices x selfAddr r events).1 e.toEvent).2.foldl
          Runtime.handlePeerEvent (followSlices x selfAddr r events).2) := by
  rw [followSlices, follow, List.map_append, List.foldl_append]
  rfl

/-- **What the runtime has** after any changes: a peer is listed once; it occurs in a slice that
    exists and was restored after every removal, and such an address is a peer. -/
theorem followSlices_spec {r : Runtime w} (hpeers : r.peers = []) (events : List SliceEvent) :
    Tracks x selfAddr (followSlices x selfAddr r events).1 (existing events) ∧
      (followSlices x selfAddr r events).2.peerAddrs.Nodup ∧
      ∀ addr, addr ∈ (followSlices x selfAddr r events).2.peerAddrs ↔
        Occurs x selfAddr (existing events) addr ∧ Restored x selfAddr events addr := by
  induction events using List.reverseRecOn with
  | nil =>
    have hnone : ∀ addr, ¬ Occurs x selfAddr (existing []) addr := by
      rintro addr ⟨name, hmem⟩
      simp [addrsOf, existing] at hmem
    have haddrs : (followSlices x selfAddr r []).2.peerAddrs = [] := by
      show r.peers.map Peer.addr = []
      rw [hpeers]
      rfl
    exact ⟨fun _ => rfl, by rw [haddrs]; exact List.nodup_nil,
      fun addr => by rw [haddrs]; simp [hnone]⟩
  | append_singleton events e ih =>
    obtain ⟨htracks, hnodup, hmem⟩ := ih
    obtain ⟨htracks', removed, added, hemit, hremoved, hadded⟩ := htracks.step e
    obtain ⟨hnodup', hmem'⟩ := Runtime.peerAddrs_diff hnodup removed added
    rw [followSlices_concat, hemit, existing_concat]
    refine ⟨htracks', hnodup', fun addr => ?_⟩
    rw [hmem', hadded, hremoved, hmem, restored_concat]
    constructor
    · rintro (hg | ⟨⟨hoccurs, hrest⟩, hnot⟩)
      · exact ⟨hg.imp fun _ h => h.2.2, .inl hg⟩
      · exact ⟨hoccurs.change hnot, .inr ⟨hrest, hnot⟩⟩
    · rintro ⟨hoccurs, hg | ⟨hrest, hnot⟩⟩
      · exact .inl hg
      · by_cases hg : Gains x selfAddr (existing events) e addr
        · exact .inl hg
        · exact .inr ⟨⟨hoccurs.of_change hg, hrest⟩, hnot⟩

/-- **When the peers follow the EndpointSlices.**  Slices of a Service are applied and deleted in
    any order, with any addresses, and the events of the watch go to a runtime without peers.
    Its peers are exactly the addresses that occur in a slice that exists if and only if every
    address that does was restored: after each change that took it out of one slice, a later
    change has put it into one. -/
theorem peers_follow_slices_iff (r : Runtime w) (hpeers : r.peers = []) (events : List SliceEvent) :
    (∀ addr, addr ∈ (followSlices x selfAddr r events).2.peerAddrs ↔
        Occurs x selfAddr (existing events) addr) ↔
      ∀ addr, Occurs x selfAddr (existing events) addr → Restored x selfAddr events addr := by
  obtain ⟨-, -, hmem⟩ := followSlices_spec x selfAddr hpeers events
  simp only [hmem, and_iff_left_iff_imp]

/-! ### Two slices with one address -/

/-- Two addresses parse, and sets keep the order of insertion. -/
def podCrates : PeerCrates where
  parseIp := fun text =>
    if text = "10.0.0.5" then some 5 else if text = "10.0.0.6" then some 6 else none
  order := id
  order_perm := fun _ => .refl _

/-- A slice with the Pods at these addresses. -/
def podsSlice (name : String) (addresses : List String) : EndpointSlice where
  name := some name
  ports := some [⟨some "gabion", some "UDP", some 7946⟩]
  endpoints := [⟨addresses, none⟩]

def podSlice (name : String) : EndpointSlice := podsSlice name ["10.0.0.5"]

def loneGossip : GossipConfig := { Runtime.tinyGossip with bootstrapPeers := [] }

/-- A Pod moves from one slice to another. -/
def movedPod : List SliceEvent :=
  [.apply (podsSlice "a" ["10.0.0.5", "10.0.0.6"]), .apply (podsSlice "b" []),
    .apply (podsSlice "a" ["10.0.0.5"]), .apply (podsSlice "b" ["10.0.0.6"])]

theorem occurs_movedPod {addr : SocketAddr} : Occurs podCrates none (existing movedPod) addr ↔
    addr = ⟨5, 7946⟩ ∨ addr = ⟨6, 7946⟩ := by
  have ha : addrsOf podCrates none (existing movedPod) "a" = [⟨5, 7946⟩] := by decide +kernel
  have hb : addrsOf podCrates none (existing movedPod) "b" = [⟨6, 7946⟩] := by decide +kernel
  constructor
  · rintro ⟨name, hmem⟩
    by_cases hname : name = "a"
    · rw [hname, ha] at hmem
      exact .inl (List.mem_singleton.1 hmem)
    by_cases hname' : name = "b"
    · rw [hname', hb] at hmem
      exact .inr (List.mem_singleton.1 hmem)
    simp [addrsOf, existing, movedPod, SliceEvent.change, SliceEvent.slice, podsSlice, hname,
      hname'] at hmem
  · rintro (rfl | rfl)
    · exact ⟨"a", by rw [ha]; simp⟩
    · exact ⟨"b", by rw [hb]; simp⟩

/-- A node without peers. -/
def loneRuntime : Runtime .u32 := .fromParts loneGossip tinyStore .empty

/-- The Pod that moves is restored, and the peers are those of both slices. -/
theorem peers_follow_moved_pod : ∃ r : Runtime .u32, r.peers = [] ∧
    (followSlices podCrates none r movedPod).2.peerAddrs = [⟨5, 7946⟩, ⟨6, 7946⟩] ∧
    ∀ addr, Occurs podCrates none (existing movedPod) addr →
      Restored podCrates none movedPod addr := by
  have hpeers : (followSlices podCrates none loneRuntime movedPod).2.peerAddrs =
      [⟨5, 7946⟩, ⟨6, 7946⟩] := by decide +kernel
  refine ⟨loneRuntime, rfl, hpeers,
    (peers_follow_slices_iff podCrates none loneRuntime rfl _).1 fun addr => ?_⟩
  rw [hpeers, occurs_movedPod]
  simp

/-- **An address in two slices is lost** with the first of them: one Pod is in the slices `a` and
    `b`, and `a` is deleted. -/
theorem shared_address_lost : ∃ r : Runtime .u32, r.peers = [] ∧
    (followSlices podCrates none r [.apply (podSlice "a"), .apply (podSlice "b"),
      .delete (podSlice "a")]).2.peerAddrs = [] ∧
    Occurs podCrates none (existing [.apply (podSlice "a"), .apply (podSlice "b"),
      .delete (podSlice "a")]) ⟨5, 7946⟩ := by
  exact ⟨loneRuntime, rfl, by decide +kernel, "b", by decide +kernel⟩

end Kubernetes

end Gabion

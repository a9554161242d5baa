/-
  Relists of EndpointSlices (`discovery/kubernetes.rs`).

  After a lost connection the watcher reports the slices that exist from scratch: `Init`, one
  `InitApply` for each, `InitDone`.  `watch_target` handles an `InitApply` like any other change
  and ignores the two marks, so a slice that went away in between is never let go of: its
  addresses stay peers (`departed_slice_stays`).  `relist_exact_iff` says for which histories and
  listings the peers are exactly those of the listed slices.
-/
import Gabion.Discovery

namespace Gabion

namespace Kubernetes

open Function

/-! ## Events as changes of slices -/

/-- The change that an event reports. -/
def Event.sliceEvent : Event → Option SliceEvent
  | apply slice | initApply slice => some (.apply slice)
  | delete slice => some (.delete slice)
  | init | initDone => none

/-- The events of a relist that finds `slices`. -/
def relist (slices : List EndpointSlice) : List Event :=
  .init :: (slices.map .initApply ++ [.initDone])

theorem filterMap_relist (slices : List EndpointSlice) :
    (relist slices).filterMap Event.sliceEvent = slices.map SliceEvent.apply := by
  have hmap : (slices.map Event.initApply).filterMap Event.sliceEvent =
      slices.map SliceEvent.apply := by
    induction slices with
    | nil => rfl
    | cons slice slices ih => simp only [List.map_cons, List.filterMap_cons, Event.sliceEvent, ih]
  rw [relist, List.filterMap_cons, List.filterMap_append, hmap]
  simp [Event.sliceEvent]

section
variable (x : PeerCrates) (selfAddr : Option SocketAddr)

/-- A list of slices as they exist side by side: with names of their own, and no address in two
    of them. -/
structure Listing (slices : List EndpointSlice) : Prop where
  named : ∀ slice ∈ slices, ∃ name, slice.name = some name
  nodup : (slices.map EndpointSlice.name).Nodup
  apart : slices.Pairwise fun a b => ∀ addr ∈ peersFromEndpointSlice x a selfAddr,
    addr ∉ peersFromEndpointSlice x b selfAddr

/-- **The peers after some changes**: each takes away what its slice drops, and adds what it
    gains. -/
def peersAfter (slices : String → Option EndpointSlice) (peers : Set SocketAddr) :
    List SliceEvent → Set SocketAddr
  | [] => peers
  | e :: es => peersAfter (e.change slices)
      {addr | Gains x selfAddr slices e addr ∨ addr ∈ peers ∧ ¬ Drops x selfAddr slices e addr} es

end

section
variable {x : PeerCrates} {selfAddr : Option SocketAddr} {slices : String → Option EndpointSlice}
  {peers : Set SocketAddr} {addr : SocketAddr} {w : CountWidth}

theorem peersAfter_append (es es' : List SliceEvent) :
    peersAfter x selfAddr slices peers (es ++ es') =
      peersAfter x selfAddr (es.foldl SliceEvent.change slices)
        (peersAfter x selfAddr slices peers es) es' := by
  induction es generalizing slices peers with
  | nil => rfl
  | cons e es ih => exact ih

/-- **The runtime follows the changes**, whatever marks stand between them. -/
theorem follow_spec {s : EndpointSlicePeerSet} {r : Runtime w} (htracks : Tracks x selfAddr s slices)
    (hnodup : r.peerAddrs.Nodup) (events : List Event) (addr : SocketAddr) :
    addr ∈ (follow x selfAddr (s, r) events).2.peerAddrs ↔
      addr ∈ peersAfter x selfAddr slices {a | a ∈ r.peerAddrs}
        (events.filterMap Event.sliceEvent) := by
  induction events generalizing s r slices with
  | nil => rfl
  | cons event events ih =>
    have hmark : ∀ {event : Event}, event.sliceEvent = none →
        watchTarget x selfAddr s event = (s, []) := by
      intro event h
      cases event with
      | init | initDone => rfl
      | apply | delete | initApply => cases h
    have hchange : ∀ {event : Event} {e : SliceEvent}, event.sliceEvent = some e →
        watchTarget x selfAddr s event = watchTarget x selfAddr s e.toEvent := by
      intro event e h
      cases event with
      | init | initDone => cases h
      | apply | delete | initApply => cases h; rfl
    have hcons : follow x selfAddr (s, r) (event :: events) =
        follow x selfAddr ((watchTarget x selfAddr s event).1,
          (watchTarget x selfAddr s event).2.foldl Runtime.handlePeerEvent r) events := rfl
    rw [hcons, List.filterMap_cons]
    cases he : event.sliceEvent with
    | none =>
      rw [hmark he]
      exact ih htracks hnodup
    | some e =>
      obtain ⟨htracks', removed, added, hemit, hremoved, hadded⟩ := htracks.step e
      obtain ⟨hnodup', hmem⟩ := Runtime.peerAddrs_diff hnodup removed added
      rw [hchange he, hemit, ih htracks' hnodup']
      simp only [hmem, hremoved, hadded]
      rfl

/-! ## Changes that leave an address alone -/

theorem addrsOf_apply {slice : EndpointSlice} {name : String} (h : slice.name = some name) :
    addrsOf x selfAddr ((SliceEvent.apply slice).change slices) name =
      peersFromEndpointSlice x slice selfAddr := by
  rw [addrsOf, change_of_eq (e := .apply slice) h]
  rfl

theorem addrsOf_apply_of_ne {slice : EndpointSlice} {name : String} (h : slice.name ≠ some name) :
    addrsOf x selfAddr ((SliceEvent.apply slice).change slices) name =
      addrsOf x selfAddr slices name := by
  rw [addrsOf, change_of_ne (e := .apply slice) h]
  rfl

theorem gains_apply {slice : EndpointSlice} {name : String} (h : slice.name = some name) :
    Gains x selfAddr slices (.apply slice) addr ↔
      addr ∈ peersFromEndpointSlice x slice selfAddr ∧ addr ∉ addrsOf x selfAddr slices name := by
  simp only [Gains, SliceEvent.slice, h, Option.some.injEq, exists_eq_left', addrsOf_apply h]
  exact and_comm

theorem drops_apply {slice : EndpointSlice} {name : String} (h : slice.name = some name) :
    Drops x selfAddr slices (.apply slice) addr ↔
      addr ∈ addrsOf x selfAddr slices name ∧ addr ∉ peersFromEndpointSlice x slice selfAddr := by
  simp only [Drops, SliceEvent.slice, h, Option.some.injEq, exists_eq_left', addrsOf_apply h]

/-- The change of one slice is not seen at another. -/
theorem gains_frame {slice other : EndpointSlice} (h : slice.name ≠ other.name) :
    Gains x selfAddr ((SliceEvent.apply slice).change slices) (.apply other) addr ↔
      Gains x selfAddr slices (.apply other) addr := by
  cases hname : other.name with
  | none => simp [Gains, SliceEvent.slice, hname]
  | some name => rw [gains_apply hname, gains_apply hname, addrsOf_apply_of_ne (hname ▸ h)]

theorem drops_frame {slice other : EndpointSlice} (h : slice.name ≠ other.name) :
    Drops x selfAddr ((SliceEvent.apply slice).change slices) (.apply other) addr ↔
      Drops x selfAddr slices (.apply other) addr := by
  cases hname : other.name with
  | none => simp [Drops, SliceEvent.slice, hname]
  | some name => rw [drops_apply hname, drops_apply hname, addrsOf_apply_of_ne (hname ▸ h)]

/-- **What a listing leaves of the peers**: an address that a listed slice gains and no later one
    drops, and a peer that none drops.  All of them gain and drop with respect to the slices
    before the listing, as each is listed once. -/
theorem mem_peersAfter_listed {listed : List EndpointSlice}
    (hnodup : (listed.map EndpointSlice.name).Nodup) :
    addr ∈ peersAfter x selfAddr slices peers (listed.map SliceEvent.apply) ↔
      (∃ before slice after, listed = before ++ slice :: after ∧
        Gains x selfAddr slices (.apply slice) addr ∧
        ∀ later ∈ after, ¬ Drops x selfAddr slices (.apply later) addr) ∨
      addr ∈ peers ∧ ∀ slice ∈ listed, ¬ Drops x selfAddr slices (.apply slice) addr := by
  induction listed generalizing slices peers with
  | nil => simp [peersAfter]
  | cons slice listed ih =>
    obtain ⟨hname, hnodup⟩ := List.nodup_cons.1 hnodup
    have hne : ∀ other ∈ listed, slice.name ≠ other.name := fun other hother heq =>
      hname (heq ▸ List.mem_map_of_mem hother)
    have hdrops : ∀ {others : List EndpointSlice}, (∀ other ∈ others, other ∈ listed) →
        ((∀ other ∈ others, ¬ Drops x selfAddr ((SliceEvent.apply slice).change slices)
            (.apply other) addr) ↔
          ∀ other ∈ others, ¬ Drops x selfAddr slices (.apply other) addr) := fun hsub =>
      forall₂_congr fun other hother => by rw [drops_frame (hne other (hsub other hother))]
    rw [List.map_cons, peersAfter, ih hnodup, hdrops fun _ h => h]
    constructor
    · rintro (⟨before, other, after, rfl, hgains, hlater⟩ | ⟨hgains | ⟨hmem, hdrop⟩, hrest⟩)
      · rw [gains_frame (hne other (by simp))] at hgains
        rw [hdrops fun _ h => by simp [h]] at hlater
        exact .inl ⟨slice :: before, other, after, rfl, hgains, hlater⟩
      · exact .inl ⟨[], slice, listed, rfl, hgains, hrest⟩
      · exact .inr ⟨hmem, List.forall_mem_cons.2 ⟨hdrop, hrest⟩⟩
    · rintro (⟨before, other, after, hsplit, hgains, hlater⟩ | ⟨hmem, hdrop⟩)
      · cases before with
        | nil =>
          obtain ⟨rfl, rfl⟩ := List.cons.inj hsplit
          exact .inr ⟨.inl hgains, hlater⟩
        | cons _ before =>
          obtain ⟨rfl, rfl⟩ := List.cons.inj hsplit
          refine .inl ⟨before, other, after, rfl, ?_, ?_⟩
          · rwa [gains_frame (hne other (by simp))]
          · rwa [hdrops fun _ h => by simp [h]]
      · obtain ⟨hfirst, hrest⟩ := List.forall_mem_cons.1 hdrop
        exact .inr ⟨.inr ⟨hmem, hfirst⟩, hrest⟩

end

/-! ## Relists -/

section
variable (x : PeerCrates) (selfAddr : Option SocketAddr)

/-- Every address that is a peer before the listing is in a listed slice, or in one that is listed
    without it. -/
def NoneDeparted (changes : List SliceEvent) (listed : List EndpointSlice) : Prop :=
  ∀ addr, Occurs x selfAddr (existing changes) addr → Restored x selfAddr changes addr →
    (∃ slice ∈ listed, addr ∈ peersFromEndpointSlice x slice selfAddr) ∨
      ∃ slice ∈ listed, Drops x selfAddr (existing changes) (.apply slice) addr

/-- Every address of a listed slice is new to it and in no slice that is listed later without it;
    or it is not new, was a peer all along, and is in no slice that is listed without it. -/
def NoneLost (changes : List SliceEvent) (listed : List EndpointSlice) : Prop :=
  ∀ slice ∈ listed, ∀ addr ∈ peersFromEndpointSlice x slice selfAddr,
    (∃ before after, listed = before ++ slice :: after ∧
      Gains x selfAddr (existing changes) (.apply slice) addr ∧
      ∀ later ∈ after, ¬ Drops x selfAddr (existing changes) (.apply later) addr) ∨
    (¬ Gains x selfAddr (existing changes) (.apply slice) addr ∧ Restored x selfAddr changes addr ∧
      ∀ other ∈ listed, ¬ Drops x selfAddr (existing changes) (.apply other) addr)

end

section
variable {x : PeerCrates} {selfAddr : Option SocketAddr} {changes : List SliceEvent}
  {listed : List EndpointSlice} {slice other : EndpointSlice} {addr : SocketAddr}

theorem Listing.eq_of_mem (h : Listing x selfAddr listed) (hslice : slice ∈ listed)
    (hother : other ∈ listed) (hin : addr ∈ peersFromEndpointSlice x slice selfAddr)
    (hin' : addr ∈ peersFromEndpointSlice x other selfAddr) : slice = other := by
  by_contra hne
  have hsymm : Std.Symm fun a b => ∀ addr ∈ peersFromEndpointSlice x a selfAddr,
      addr ∉ peersFromEndpointSlice x b selfAddr := ⟨fun _ _ hab addr hb ha => hab addr ha hb⟩
  exact h.apart.forall hslice hother hne addr hin hin'

/-- What a named slice lists is new to it, or occurred in it before. -/
theorem occurs_of_not_gains {slices : String → Option EndpointSlice} {name : String}
    (hname : slice.name = some name) (hin : addr ∈ peersFromEndpointSlice x slice selfAddr)
    (h : ¬ Gains x selfAddr slices (.apply slice) addr) : Occurs x selfAddr slices addr := by
  rw [gains_apply hname, not_and, not_not] at h
  exact ⟨name, h hin⟩

theorem peersAfter_listing_iff (hlisting : Listing x selfAddr listed) :
    (∀ addr, addr ∈ peersAfter x selfAddr (existing changes)
        {a | Occurs x selfAddr (existing changes) a ∧ Restored x selfAddr changes a}
        (listed.map SliceEvent.apply) ↔
      ∃ slice ∈ listed, addr ∈ peersFromEndpointSlice x slice selfAddr) ↔
    NoneDeparted x selfAddr changes listed ∧ NoneLost x selfAddr changes listed := by
  simp only [mem_peersAfter_listed hlisting.nodup, Set.mem_ofPred_eq]
  constructor
  · intro hexact
    refine ⟨fun addr hoccurs hrest => ?_, fun slice hslice addr hin => ?_⟩
    · by_contra hnone
      push Not at hnone
      obtain ⟨slice, hslice, hin⟩ := (hexact addr).1 (.inr ⟨⟨hoccurs, hrest⟩, hnone.2⟩)
      exact hnone.1 slice hslice hin
    · rcases (hexact addr).2 ⟨slice, hslice, hin⟩ with
        ⟨before, other, after, hsplit, hgains, hlater⟩ | ⟨⟨-, hrest⟩, hdrops⟩
      · have hother : other ∈ listed := by simp [hsplit]
        obtain ⟨name, hname⟩ := hlisting.named other hother
        cases hlisting.eq_of_mem hslice hother hin ((gains_apply hname).1 hgains).1
        exact .inl ⟨before, after, hsplit, hgains, hlater⟩
      · by_cases hgains : Gains x selfAddr (existing changes) (.apply slice) addr
        · obtain ⟨before, after, hsplit⟩ := List.append_of_mem hslice
          exact .inl ⟨before, after, hsplit, hgains, fun later hlater =>
            hdrops later (by simp [hsplit, hlater])⟩
        · exact .inr ⟨hgains, hrest, hdrops⟩
  · rintro ⟨hdeparted, hlost⟩ addr
    constructor
    · rintro (⟨before, slice, after, hsplit, hgains, -⟩ | ⟨⟨hoccurs, hrest⟩, hdrops⟩)
      · have hslice : slice ∈ listed := by simp [hsplit]
        obtain ⟨name, hname⟩ := hlisting.named slice hslice
        exact ⟨slice, hslice, ((gains_apply hname).1 hgains).1⟩
      · rcases hdeparted addr hoccurs hrest with hin | ⟨slice, hslice, hdrop⟩
        · exact hin
        · exact absurd hdrop (hdrops slice hslice)
    · rintro ⟨slice, hslice, hin⟩
      rcases hlost slice hslice addr hin with
        ⟨before, after, hsplit, hgains, hlater⟩ | ⟨hgains, hrest, hdrops⟩
      · exact .inl ⟨before, slice, after, hsplit, hgains, hlater⟩
      · obtain ⟨name, hname⟩ := hlisting.named slice hslice
        exact .inr ⟨⟨occurs_of_not_gains hname hin hgains, hrest⟩, hdrops⟩

end

variable {w : CountWidth} (x : PeerCrates) (selfAddr : Option SocketAddr)

/-- The peers before a relist. -/
theorem peersAfter_eq_restored {r : Runtime w} (hpeers : r.peers = []) (changes : List SliceEvent) :
    peersAfter x selfAddr (fun _ => none) {a | a ∈ r.peerAddrs} changes =
      {a | Occurs x selfAddr (existing changes) a ∧ Restored x selfAddr changes a} := by
  have hnodup : r.peerAddrs.Nodup := by simp [Runtime.peerAddrs, hpeers]
  have hchanges : (changes.map SliceEvent.toEvent).filterMap Event.sliceEvent = changes := by
    have hsome : (Event.sliceEvent ∘ SliceEvent.toEvent) = some := by
      funext e
      cases e <;> rfl
    rw [List.filterMap_map, hsome, List.filterMap_some]
  obtain ⟨-, -, hspec⟩ := followSlices_spec x selfAddr hpeers changes
  ext addr
  have hempty : Tracks x selfAddr .empty fun _ => none := fun _ => rfl
  have hfollow := follow_spec hempty hnodup (changes.map SliceEvent.toEvent) addr
  rw [hchanges] at hfollow
  rw [← hfollow]
  exact hspec addr

/-- **When a relist leaves the right peers.**  After any events the watcher relists slices that
    have no address in common.  The peers of the runtime are then exactly those of the listed
    slices if and only if every peer before is listed, or in a slice that is listed without it,
    and no address of a listed slice has been lost before or is lost to a slice that is listed
    without it. -/
theorem relist_exact_iff (r : Runtime w) (hpeers : r.peers = []) (prior : List Event)
    (listed : List EndpointSlice) (hlisting : Listing x selfAddr listed) :
    (∀ addr, addr ∈ (follow x selfAddr (.empty, r) (prior ++ relist listed)).2.peerAddrs ↔
        ∃ slice ∈ listed, addr ∈ peersFromEndpointSlice x slice selfAddr) ↔
      NoneDeparted x selfAddr (prior.filterMap Event.sliceEvent) listed ∧
        NoneLost x selfAddr (prior.filterMap Event.sliceEvent) listed := by
  have hnodup : r.peerAddrs.Nodup := by simp [Runtime.peerAddrs, hpeers]
  have hempty : Tracks x selfAddr .empty fun _ => none := fun _ => rfl
  have hfollow := follow_spec hempty hnodup (prior ++ relist listed)
  rw [List.filterMap_append, filterMap_relist, peersAfter_append,
    peersAfter_eq_restored x selfAddr hpeers] at hfollow
  simp only [hfollow]
  exact peersAfter_listing_iff hlisting

/-- Two slices with a Pod each; then the relist finds both Pods in the second one. -/
theorem relist_exact_moved_pod : ∃ r : Runtime .u32, r.peers = [] ∧
    (follow podCrates none (.empty, r)
      ([.apply (podsSlice "a" ["10.0.0.5"]), .apply (podsSlice "b" ["10.0.0.6"])] ++
        relist [podsSlice "b" ["10.0.0.6", "10.0.0.5"]])).2.peerAddrs = [⟨5, 7946⟩, ⟨6, 7946⟩] ∧
    NoneDeparted podCrates none
      [.apply (podsSlice "a" ["10.0.0.5"]), .apply (podsSlice "b" ["10.0.0.6"])]
      [podsSlice "b" ["10.0.0.6", "10.0.0.5"]] ∧
    NoneLost podCrates none
      [.apply (podsSlice "a" ["10.0.0.5"]), .apply (podsSlice "b" ["10.0.0.6"])]
      [podsSlice "b" ["10.0.0.6", "10.0.0.5"]] := by
  have hpeers : (follow podCrates none (.empty, loneRuntime)
      ([.apply (podsSlice "a" ["10.0.0.5"]), .apply (podsSlice "b" ["10.0.0.6"])] ++
        relist [podsSlice "b" ["10.0.0.6", "10.0.0.5"]])).2.peerAddrs =
      [⟨5, 7946⟩, ⟨6, 7946⟩] := by decide +kernel
  have hlisted : peersFromEndpointSlice podCrates (podsSlice "b" ["10.0.0.6", "10.0.0.5"]) none =
      [⟨6, 7946⟩, ⟨5, 7946⟩] := by decide +kernel
  refine ⟨loneRuntime, rfl, hpeers, (relist_exact_iff podCrates none loneRuntime rfl
    [.apply (podsSlice "a" ["10.0.0.5"]), .apply (podsSlice "b" ["10.0.0.6"])]
    [podsSlice "b" ["10.0.0.6", "10.0.0.5"]] ⟨by simp [podsSlice], by simp, by simp⟩).1
      fun addr => ?_⟩
  rw [hpeers]
  simp [hlisted, or_comm]

/-! ### A slice that goes away unseen -/

/-- **A departed slice stays.**  A slice with one address is applied; it is deleted while the
    watch is down, and the relist finds no slice.  The address is still a peer. -/
theorem departed_slice_stays : ∃ r : Runtime .u32, r.peers = [] ∧ Listing podCrates none [] ∧
    (follow podCrates none (.empty, r) ([.apply (podSlice "a")] ++ relist [])).2.peerAddrs =
      [⟨5, 7946⟩] := by
  exact ⟨loneRuntime, rfl, ⟨by simp, by simp, by simp⟩, by decide +kernel⟩

end Kubernetes

end Gabion

/-
  Repair towards several peers.

  All destinations share the repair cursor.  A schedule can therefore give a peer the same part
  of the cells forever, unless there is only one peer or all cells fit in one frame
  (`repair_reaches_peers_iff`).
-/
import Gabion.AntiEntropy

namespace Gabion

open Function

namespace CellStore

variable {w : CountWidth} {pins : ℕ → Bool} {s s' : CellStore w}

/-! ## Schedules -/

/-- Both rings are empty. -/
def Quiet (s : CellStore w) : Prop := s.localDirty.len = 0 ∧ s.forwardedDirty.len = 0

theorem toList_eq_nil {r : DirtyRing} (h : r.len = 0) : r.toList = [] := by
  rw [DirtyRing.toList, h]
  rfl

theorem SameData.quiet (h : SameData s s') (hq : Quiet s) : Quiet s' := by
  rw [Quiet, h.localDirty, h.forwardedDirty]
  exact hq

theorem Quiet.offered (hq : Quiet s) (dest : Option ℕ) : s.offered dest = [] := by
  rw [CellStore.offered, toList_eq_nil hq.1, toList_eq_nil hq.2]
  rfl

/-- Without dirty entries the destination does not matter. -/
theorem Quiet.fillFrame_eq (hq : Quiet s) (maxCells : ℕ) (dest : Option ℕ) :
    s.fillFrameFor maxCells dest = s.fillGossipFrame maxCells := by
  have hb := (sameData_bump s).quiet hq
  have hlanes : ∀ lacks, s.bumpSelectionEpoch.dirtyLanes lacks maxCells =
      s.bumpSelectionEpoch.dirtyLanes (fun _ => true) maxCells := by
    intro lacks
    unfold dirtyLanes
    rw [toList_eq_nil hb.1, toList_eq_nil hb.2]
    rfl
  rw [fillFrameFor_eq, fillGossipFrame]
  unfold fillFrame
  simp only [hlanes (s.lacksFor dest)]

/-- What a peer is sent while frames are composed for the peers of the schedule in turn. -/
def sentTo (maxCells peer : ℕ) : CellStore w → List ℕ → List CellHandle
  | _, [] => []
  | s, p :: ps =>
    (if p = peer then (s.fillFrameFor maxCells (some p)).2 else []) ++
      sentTo maxCells peer (s.fillFrameFor maxCells (some p)).1 ps

/-- Rounds that serve every peer, and peers only. -/
def Serves (peers : List ℕ) (rounds : List (List ℕ)) : Prop :=
  ∀ round ∈ rounds, (∀ p ∈ round, p ∈ peers) ∧ ∀ p ∈ peers, p ∈ round

/-- Every peer has been sent every active cell. -/
def AllSent (s : CellStore w) (maxCells : ℕ) (peers : List ℕ) (rounds : List (List ℕ)) : Prop :=
  ∀ peer ∈ peers, ∀ x, s.isActive x = true →
    s.handleFor x ∈ sentTo maxCells peer s rounds.flatten

theorem mem_sentTo {maxCells peer : ℕ} {handle : CellHandle} : ∀ (schedule : List ℕ)
    (s : CellStore w), (∃ p ∈ s.steps (frameCalls w maxCells (schedule.map some)),
      p.2 = .fillFrame maxCells (some peer) ∧ handle ∈ p.1.frameOf p.2) →
    handle ∈ sentTo maxCells peer s schedule
  | [], _, h => by
    obtain ⟨p, hp, -⟩ := h
    cases hp
  | q :: qs, s, h => by
    obtain ⟨p, hp, hcall, hmem⟩ := h
    rw [sentTo, List.mem_append]
    rcases List.mem_cons.1 hp with rfl | hp
    · simp only [StoreCall.fillFrame.injEq, Option.some.injEq, true_and] at hcall
      rw [if_pos hcall]
      exact .inl hmem
    · exact .inr (mem_sentTo qs _ ⟨p, hp, hcall, hmem⟩)

/-- A peer of the schedule is served. -/
theorem exists_step_of_mem (maxCells : ℕ) {peer : ℕ} : ∀ (schedule : List ℕ) (s : CellStore w),
    peer ∈ schedule → ∃ p ∈ s.steps (frameCalls w maxCells (schedule.map some)),
      p.2 = .fillFrame maxCells (some peer)
  | q :: qs, s, h => by
    rcases List.mem_cons.1 h with rfl | h
    · exact ⟨_, List.mem_cons_self .., rfl⟩
    · obtain ⟨p, hp, hcall⟩ := exists_step_of_mem maxCells qs (s.call (.fillFrame maxCells (some q))) h
      exact ⟨p, List.mem_cons_of_mem _ hp, hcall⟩

theorem Serves.length_le {peers : List ℕ} {peer : ℕ} (hpeer : peer ∈ peers) :
    ∀ {rounds : List (List ℕ)}, Serves peers rounds → rounds.length ≤ rounds.flatten.length
  | [], _ => le_rfl
  | round :: rounds, h => by
    obtain ⟨hround, hrest⟩ := List.forall_mem_cons.1 h
    have hpos := List.length_pos_of_mem (hround.2 peer hpeer)
    have ih := Serves.length_le hpeer hrest
    rw [List.length_cons, List.flatten_cons, List.length_append]
    omega

theorem allSent_of_one (h : s.toCellTable.Inv pins) (hl : Lanes s) (hq : Quiet s) {maxCells : ℕ}
    (hmax : 1 ≤ maxCells) {peers : List ℕ} (hone : peers.length ≤ 1) {rounds : List (List ℕ)}
    (hlen : s.capacity ≤ rounds.length) (hserves : Serves peers rounds) :
    s.AllSent maxCells peers rounds := by
  intro peer hpeer x hx
  have honly : ∀ p ∈ rounds.flatten, p = peer := by
    intro p hp
    obtain ⟨round, hround, hp⟩ := List.mem_flatten.1 hp
    have hp := (hserves round hround).1 p hp
    obtain ⟨q, rfl⟩ := List.length_eq_one_iff.1
      (le_antisymm hone (List.length_pos_of_mem hpeer))
    rw [List.mem_singleton.1 hp, List.mem_singleton.1 hpeer]
  have hcap : s.capacity ≤ (rounds.flatten.map some).length := by
    rw [List.length_map]
    exact hlen.trans (hserves.length_le hpeer)
  obtain ⟨p, hp, hmem⟩ := frames_cover h hl hcap (fun dest _ => by
    rw [hq.offered]
    exact hmax) hx
  obtain ⟨-, -, dest, hdest, hcall⟩ := steps_frames maxCells _ s hl p hp
  obtain ⟨q, hq, rfl⟩ := List.mem_map.1 hdest
  exact mem_sentTo _ s ⟨p, hp, honly q hq ▸ hcall, hmem⟩

theorem allSent_of_fits (h : s.toCellTable.Inv pins) (hl : Lanes s) {maxCells : ℕ}
    (hfits : s.activeLen ≤ maxCells) {peers : List ℕ} {rounds : List (List ℕ)}
    (hlen : s.capacity ≤ rounds.length) (hserves : Serves peers rounds) :
    s.AllSent maxCells peers rounds := by
  intro peer hpeer x hx
  obtain ⟨round, hround⟩ := List.exists_mem_of_length_pos
    ((Nat.zero_lt_of_lt hl.cursor_lt).trans_le hlen)
  have hmem : peer ∈ rounds.flatten :=
    List.mem_flatten.2 ⟨round, hround, (hserves round hround).2 peer hpeer⟩
  obtain ⟨p, hp, hcall⟩ := exists_step_of_mem maxCells _ s hmem
  obtain ⟨hsame, hlp, -⟩ := steps_frames maxCells _ s hl p hp
  have hframe : p.1.handleFor x ∈ (p.1.fillFrame (p.1.lacksFor (some peer)) maxCells).2 :=
    fillFrame_complete (hsame.table ▸ h) hlp _ (by rw [hsame.table]; exact hfits)
      (by rw [hsame.table]; exact hx)
  refine mem_sentTo _ s ⟨p, hp, hcall, ?_⟩
  rw [hcall, frameOf, fillFrameFor_eq]
  rw [hsame.table] at hframe
  exact hframe

/-! ## Starving a peer -/

/-- The store after `t` frames. -/
def restAt (s : CellStore w) (maxCells t : ℕ) : CellStore w :=
  (fun s => (s.fillGossipFrame maxCells).1)^[t] s

theorem restAt_same (hl : Lanes s) (maxCells : ℕ) : ∀ t,
    SameData s (s.restAt maxCells t) ∧ Lanes (s.restAt maxCells t)
  | 0 => ⟨.refl s, hl⟩
  | t + 1 => by
    obtain ⟨hsame, hlt⟩ := restAt_same hl maxCells t
    rw [restAt, iterate_succ_apply']
    exact ⟨hsame.trans (sameData_fillFrame _ _ _), fillFrame_lanes hlt _ _⟩

theorem restAt_add (s : CellStore w) (maxCells t t' : ℕ) :
    (s.restAt maxCells t).restAt maxCells t' = s.restAt maxCells (t + t') := by
  rw [restAt, restAt, restAt, ← iterate_add_apply, Nat.add_comm]

/-- Some cell is missed again and again, since every frame misses one. -/
theorem exists_often_missed (h : s.toCellTable.Inv pins) (hl : Lanes s) {maxCells : ℕ}
    (hmany : maxCells < s.activeLen) : ∃ x, s.isActive x = true ∧
      ∀ t₀, ∃ t ≥ t₀, s.handleFor x ∉ ((s.restAt maxCells t).fillGossipFrame maxCells).2 := by
  by_contra hnot
  push Not at hnot
  choose! bound hbound using hnot
  set t := (activeSlots s.toCellTable).sup bound with ht
  obtain ⟨hsame, hlt⟩ := restAt_same hl maxCells t
  have hframed := fillFrame_framed hlt (fun _ => true) maxCells
  rw [hsame.table] at hframed
  obtain ⟨x, hx, hmiss⟩ := hframed.exists_missing h hmany
  exact hmiss (hbound x hx t (Finset.le_sup ((mem_activeSlots h).2 hx)))

theorem sentTo_quiet (hq : Quiet s) (maxCells peer p : ℕ) (ps : List ℕ) :
    sentTo maxCells peer s (p :: ps) =
      (if p = peer then (s.fillGossipFrame maxCells).2 else []) ++
        sentTo maxCells peer (s.restAt maxCells 1) ps := by
  rw [sentTo, hq.fillFrame_eq]
  rfl

theorem sentTo_append (hl : Lanes s) (hq : Quiet s) (maxCells peer : ℕ) (ps' : List ℕ) :
    ∀ ps : List ℕ, sentTo maxCells peer s (ps ++ ps') =
      sentTo maxCells peer s ps ++ sentTo maxCells peer (s.restAt maxCells ps.length) ps' := by
  intro ps
  induction ps generalizing s with
  | nil => rfl
  | cons p ps ih =>
    obtain ⟨hsame, hl'⟩ := restAt_same hl maxCells 1
    rw [List.cons_append, sentTo_quiet hq, sentTo_quiet hq, ih hl' (hsame.quiet hq), restAt_add,
      List.append_assoc, List.length_cons, Nat.add_comm 1]

theorem sentTo_of_not_mem {maxCells peer : ℕ} : ∀ (ps : List ℕ) (s : CellStore w), peer ∉ ps →
    sentTo maxCells peer s ps = []
  | [], _, _ => rfl
  | p :: ps, s, h => by
    rw [List.mem_cons, not_or] at h
    rw [sentTo, if_neg (Ne.symm h.1), sentTo_of_not_mem ps _ h.2]
    rfl

/-- **A peer can be starved**: its frames are composed when the cursor is elsewhere, the others
    are served in between. -/
theorem exists_starving (h : s.toCellTable.Inv pins) (hl : Lanes s) (hq : Quiet s) {maxCells : ℕ}
    (hmany : maxCells < s.activeLen) {peers : List ℕ} {peer other : ℕ} (hpeer : peer ∈ peers)
    (hother : other ∈ peers) (hne : other ≠ peer) (n : ℕ) :
    ∃ rounds, rounds.length = n ∧ Serves peers rounds ∧ ¬ s.AllSent maxCells peers rounds := by
  obtain ⟨x, hx, hmissed⟩ := exists_often_missed h hl hmany
  -- by induction on the rounds, from any later time on
  have hrounds : ∀ n t₀, ∃ rounds, rounds.length = n ∧ Serves peers rounds ∧
      s.handleFor x ∉ sentTo maxCells peer (s.restAt maxCells t₀) rounds.flatten := by
    intro n
    induction n with
    | zero => exact fun t₀ => ⟨[], rfl, by simp [Serves], by simp [sentTo]⟩
    | succ n ih =>
      intro t₀
      set others := peers.filter fun p => decide (p ≠ peer) with hothers
      obtain ⟨t, ht, hmiss⟩ := hmissed (t₀ + others.length)
      set wait := others ++ List.replicate (t - (t₀ + others.length)) other with hwait
      have hwlen : t₀ + wait.length = t := by
        rw [hwait, List.length_append, List.length_replicate]
        omega
      have hnot : peer ∉ wait := by
        simp [hwait, hothers, hne.symm]
      obtain ⟨rounds, hlen, hserves, hrest⟩ := ih (t + 1)
      refine ⟨(wait ++ [peer]) :: rounds, by rw [List.length_cons, hlen], ?_, ?_⟩
      · refine List.forall_mem_cons.2 ⟨⟨fun p hp => ?_, fun p hp => ?_⟩, hserves⟩
        · simp only [hwait, hothers, List.mem_append, List.mem_filter, List.mem_replicate,
            List.mem_singleton] at hp
          rcases hp with (hp | hp) | hp
          · exact hp.1
          · exact hp.2 ▸ hother
          · exact hp ▸ hpeer
        · simp only [hwait, hothers, List.mem_append, List.mem_filter, List.mem_singleton,
            decide_eq_true_eq]
          by_cases hpp : p = peer
          · exact .inr hpp
          · exact .inl (.inl ⟨hp, hpp⟩)
      · obtain ⟨hsame, hl₀⟩ := restAt_same hl maxCells t₀
        have hq₀ := hsame.quiet hq
        have hqt := (restAt_same hl maxCells t).1.quiet hq
        rw [List.flatten_cons, List.append_assoc, sentTo_append hl₀ hq₀,
          sentTo_of_not_mem wait _ hnot, List.nil_append, restAt_add, hwlen, List.singleton_append,
          sentTo_quiet hqt, if_pos rfl, restAt_add, List.mem_append]
        exact not_or.2 ⟨hmiss, hrest⟩
  obtain ⟨rounds, hlen, hserves, hmiss⟩ := hrounds n 0
  exact ⟨rounds, hlen, hserves, fun hall => hmiss (hall peer hpeer x hx)⟩

/-- **When repair reaches every peer.**  For a store at rest with empty rings: some number of
    rounds, whatever the schedule, sends every active cell to every peer if and only if there
    is at most one peer or all active cells fit in one frame; and then `capacity` rounds do. -/
theorem repair_reaches_peers_iff (s : CellStore w) (hs : s.Reachable) (hq : s.Quiet) (maxCells : ℕ)
    (hmax : 1 ≤ maxCells) (peers : List ℕ) (hnd : peers.Nodup) :
    ((∃ n, ∀ rounds, n ≤ rounds.length → Serves peers rounds → s.AllSent maxCells peers rounds) ↔
        (peers.length ≤ 1 ∨ s.activeLen ≤ maxCells)) ∧
      ((peers.length ≤ 1 ∨ s.activeLen ≤ maxCells) → ∀ rounds, s.capacity ≤ rounds.length →
        Serves peers rounds → s.AllSent maxCells peers rounds) := by
  obtain ⟨pins, h, hl⟩ := hs.inv
  have hsuff : (peers.length ≤ 1 ∨ s.activeLen ≤ maxCells) → ∀ rounds,
      s.capacity ≤ rounds.length → Serves peers rounds → s.AllSent maxCells peers rounds := by
    rintro (hone | hfits) rounds hlen hserves
    · exact allSent_of_one h hl hq hmax hone hlen hserves
    · exact allSent_of_fits h hl hfits hlen hserves
  refine ⟨⟨?_, fun hcond => ⟨s.capacity, hsuff hcond⟩⟩, hsuff⟩
  rintro ⟨n, hn⟩
  by_contra hcond
  push Not at hcond
  obtain ⟨htwo, hmany⟩ := hcond
  obtain ⟨peer, other, rest, rfl⟩ : ∃ peer other rest, peers = peer :: other :: rest := by
    match peers, htwo with
    | peer :: other :: rest, _ => exact ⟨peer, other, rest, rfl⟩
  have hne : other ≠ peer := by
    rintro rfl
    simp at hnd
  obtain ⟨rounds, hlen, hserves, hnot⟩ :=
    exists_starving h hl hq hmany (List.mem_cons_self ..)
      (List.mem_cons_of_mem _ (List.mem_cons_self ..)) hne n
  exact hnot (hn rounds hlen.ge hserves)

theorem quiet_spec : ∃ s : CellStore .u32, quiet = some s ∧ s.Quiet ∧ s.capacity = 2 ∧
    s.activeLen = 2 ∧ s.repairCursor = 0 := by
  have heval : quiet.map (fun s => (s.localDirty.len, s.forwardedDirty.len, s.capacity, s.activeLen,
      s.repairCursor)) = some (0, 0, 2, 2, 0) := by decide +kernel
  obtain ⟨s, hs, hvals⟩ := Option.map_eq_some_iff.1 heval
  simp only [Prod.mk.injEq] at hvals
  obtain ⟨h1, h2, hrest⟩ := hvals
  exact ⟨s, hs, ⟨h1, h2⟩, hrest⟩

theorem repair_reaches_peers_quiet : ∃ s : CellStore .u32, quiet = some s ∧
    s.AllSent 1 [0] (List.replicate 2 [0]) := by
  obtain ⟨s, hs, hq, hcap, -⟩ := quiet_spec
  have h := repair_reaches_peers_iff s (quiet_reachable hs) hq 1 le_rfl [0] (by decide)
  refine ⟨s, hs, h.2 (.inl le_rfl) _ (by rw [hcap]; rfl) fun round hround => ?_⟩
  rw [List.eq_of_mem_replicate hround]
  exact ⟨fun _ => id, fun _ => id⟩

/-- A store at rest with two slots, both active. -/
structure TwoCells (pins : ℕ → Bool) (s : CellStore w) : Prop where
  inv : s.toCellTable.Inv pins
  lanes : Lanes s
  quiet : Quiet s
  capacity : s.capacity = 2
  activeLen : s.activeLen = 2

theorem TwoCells.isActive (h : TwoCells pins s) {x : ℕ} (hx : x < 2) : s.isActive x = true := by
  have hslots : activeSlots s.toCellTable = Finset.range s.capacity :=
    Finset.eq_of_subset_of_card_le (Finset.filter_subset _ _) (by
      rw [card_activeSlots h.inv, Finset.card_range, h.capacity, h.activeLen])
  rw [← mem_activeSlots h.inv, hslots, Finset.mem_range, h.capacity]
  exact hx

theorem TwoCells.restAt (h : TwoCells pins s) (maxCells t : ℕ) :
    TwoCells pins (s.restAt maxCells t) := by
  obtain ⟨hsame, hl⟩ := restAt_same h.lanes maxCells t
  exact ⟨hsame.table ▸ h.inv, hl, hsame.quiet h.quiet, by rw [hsame.table, h.capacity],
    by rw [hsame.table, h.activeLen]⟩

/-- Frames of one cell alternate between the two slots. -/
theorem TwoCells.frame (h : TwoCells pins s) :
    (s.fillGossipFrame 1).2 = [s.handleFor s.repairCursor] ∧
      (s.restAt 1 1).repairCursor = (s.repairCursor + 1) % 2 := by
  have hcur := h.lanes.cursor_lt
  have hroom : s.leavesRoom (fun _ => true) 1 = true := (leavesRoom_iff h.lanes none 1).2 (by
    rw [h.quiet.offered]
    exact Nat.one_pos)
  obtain ⟨m, hpos, hnext, hcov, -⟩ := fillFrame_sweeps h.lanes hroom
  have hlen := (fillFrame_framed h.lanes (fun _ => true) 1).length_le
  rw [h.capacity] at hcur hnext hcov
  have hfirst := hcov 0 hpos (h.isActive (Nat.mod_lt _ (by omega)))
  rw [Nat.add_zero, Nat.mod_eq_of_lt hcur] at hfirst
  obtain ⟨c, hframe⟩ := List.length_eq_one_iff.1 (le_antisymm hlen (List.length_pos_of_mem hfirst))
  have hc : s.handleFor s.repairCursor = c := by simpa [hframe] using hfirst
  refine ⟨by rw [hc]; exact hframe, ?_⟩
  -- a second slot would be a second handle
  by_cases hm : 1 < m
  · have hsecond := hcov 1 hm (h.isActive (Nat.mod_lt _ (by omega)))
    rw [hframe, List.mem_singleton, ← hc] at hsecond
    have hindex : (s.repairCursor + 1) % 2 = s.repairCursor := congrArg CellHandle.index hsecond
    omega
  · rw [show m = 1 by omega] at hnext
    rw [CellStore.restAt, iterate_one, fillGossipFrame]
    exact hnext

/-- Serving two peers in turn gives the first one the first cell only. -/
theorem TwoCells.not_sent : ∀ (n : ℕ) {s : CellStore w}, TwoCells pins s → s.repairCursor = 0 →
    s.handleFor 1 ∉ sentTo 1 0 s (List.replicate n [0, 1]).flatten
  | 0, _, _, _ => by simp [sentTo]
  | n + 1, s, h, hcur => by
    obtain ⟨hframe, hnext⟩ := h.frame
    have hback := (h.restAt 1 1).frame.2
    have hsame := (restAt_same h.lanes 1 2).1
    have hrest := TwoCells.not_sent n (h.restAt 1 2) (by
      rw [← restAt_add s 1 1 1, hback, hnext, hcur])
    rw [hsame.table] at hrest
    rw [List.replicate_succ, List.flatten_cons, List.cons_append, List.singleton_append,
      sentTo_quiet h.quiet, sentTo_quiet (h.restAt 1 1).quiet, if_pos rfl, if_neg one_ne_zero,
      List.nil_append, restAt_add, hframe, hcur, List.mem_append, List.mem_singleton, not_or]
    exact ⟨fun he => one_ne_zero (congrArg CellHandle.index he), hrest⟩

/-- Two peers in turn, frames of one cell, two cells: the first peer gets the first cell in every
    round, and never the second. -/
theorem shared_cursor_starves : ∃ s : CellStore .u32, s.Reachable ∧ s.Quiet ∧ s.capacity = 2 ∧
    s.activeLen = 2 ∧ ∀ n, Serves [0, 1] (List.replicate n [0, 1]) ∧
      ¬ s.AllSent 1 [0, 1] (List.replicate n [0, 1]) := by
  obtain ⟨s, hs, hq, hcap, hactive, hcur⟩ := quiet_spec
  have hreach := quiet_reachable hs
  obtain ⟨pins, h, hl⟩ := hreach.inv
  have htwo : TwoCells pins s := ⟨h, hl, hq, hcap, hactive⟩
  refine ⟨s, hreach, hq, hcap, hactive, fun n => ⟨fun round hround => ?_, fun hall => ?_⟩⟩
  · rw [List.eq_of_mem_replicate hround]
    exact ⟨fun _ => id, fun _ => id⟩
  · exact htwo.not_sent n hcur (hall 0 (by simp) 1 (htwo.isActive (by omega)))

end CellStore

end Gabion

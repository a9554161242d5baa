/-
  Where counts come from.

  Whatever the nodes of a cluster exchange, a count that a node holds for an origin is one that
  the origin itself has held.  `Traced` says this of all nodes and of every packet that is
  buffered or under way, for any property of entries; an iteration keeps it once it holds of the
  entries of the node for itself (`Traced.step`).
-/
import Gabion.Convergence

namespace Gabion

open Function

namespace Cluster

variable {ι : Type} [DecidableEq ι] {w : CountWidth} {env : Platform} {ids : ι → NodeIdentity}
  {c₀ c c' : Cluster ι w} {r r' : Runtime w} {Q Q' : CellId → ℕ → Prop}

/-- All entries have the property. -/
def Entries (Q : CellId → ℕ → Prop) (t : CellTable w) : Prop :=
  ∀ id count, t.toMap id = WithBot.some count → Q id count

/-- Whatever is decoded from the bytes, or from what is left of them, has the property. -/
def Packet (env : Platform) (w : CountWidth) (Q : CellId → ℕ → Prop) (bytes : List UInt8) : Prop :=
  ∀ n key limits accept cells summary,
    Wire.decodeInner env.mac w key limits accept (bytes.take n) = (cells, .ok summary) →
      ∀ cell ∈ cells, Q cell.id cell.count

structure Traced (env : Platform) (Q : CellId → ℕ → Prop) (c : Cluster ι w) : Prop where
  entries : ∀ n, Entries Q (c.nodes n).store.toCellTable
  pool : ∀ n slot, Packet env w Q ((c.nodes n).sendPool slot)
  sent : ∀ n, ∀ p ∈ (c.nodes n).sent, Packet env w Q p.2
  network : ∀ bytes ∈ c.network, Packet env w Q bytes

theorem Packet.imp {bytes : List UInt8} (hQ : ∀ id count, Q id count → Q' id count)
    (h : Packet env w Q bytes) : Packet env w Q' bytes :=
  fun n key limits accept cells summary hd cell hcell =>
    hQ _ _ (h n key limits accept cells summary hd cell hcell)

omit [DecidableEq ι] in
theorem Traced.imp (hQ : ∀ id count, Q id count → Q' id count) (h : Traced env Q c) :
    Traced env Q' c where
  entries := fun n id count hm => hQ id count (h.entries n id count hm)
  pool := fun n slot => (h.pool n slot).imp hQ
  sent := fun n p hp => (h.sent n p hp).imp hQ
  network := fun bytes hb => (h.network bytes hb).imp hQ

/-- What the encoder writes has the property of the table. -/
theorem packet_nextInto {pins : ℕ → Bool} {t : CellTable w} (ht : t.Inv pins) (h : Entries Q t)
    (p : Wire.Packets) : Packet env w Q (p.nextInto env.mac t).2.1 := by
  intro n key limits accept cells summary hd cell hcell
  obtain ⟨handle, -, row, hrow, rfl⟩ := Wire.decode_nextInto (Wire.countsFit ht) p hd cell hcell
  exact h _ _ (Wire.rowOf_toMap ht hrow)

/-! ## One iteration -/

/-- Of two counts with the property, the larger has it. -/
theorem entry_sup {id : CellId} {m : WithBot ℕ} {d : ℕ}
    (hm : ∀ count, m = WithBot.some count → Q id count) (hd : Q id d) :
    ∀ count, m ⊔ WithBot.some d = WithBot.some count → Q id count := by
  intro count hcount
  rcases le_total m (WithBot.some d) with hle | hle
  · rw [sup_eq_right.2 hle] at hcount
    cases hcount
    exact hd
  · rw [sup_eq_left.2 hle] at hcount
    exact hm count hcount

/-- The entries after an iteration: as before, decoded from its datagram, or the node's own. -/
theorem entries_iterated {pins : ℕ → Bool} {now : ℕ} {arm : ArmOutcome}
    (hinv : r.store.toCellTable.Inv pins) (h : Entries Q r.store.toCellTable)
    (hit : Runtime.Iterated env r (r.tableCall env now arm) r')
    (hpacket : ∀ datagram src, arm = .inbound (some (datagram, src)) → Packet env w Q datagram)
    (hown : ∀ id count, id.node = r.store.localIdentity →
      r'.store.toMap id = WithBot.some count → Q id count) :
    Entries Q r'.store.toCellTable := by
  have htable := hit.table
  cases hcall : r.tableCall env now arm with
  | none =>
    rw [hcall] at htable
    rw [htable]
    exact h
  | some call =>
    rw [hcall] at htable
    unfold Runtime.tableCall at hcall
    split at hcall
    · rename_i req
      cases hcall
      obtain ⟨hstep, heff⟩ := CellStore.ingestRow_spec hinv (req.observation w) []
      have htable : r'.store.toCellTable =
          (r.store.ingestRow (req.observation w) []).1.toCellTable := htable
      intro id count hm
      by_cases hid : id = (req.observation w).localId r.store.localIdentity
      · exact hown id count (by rw [hid]; rfl) hm
      · rw [htable, CellStore.toMap_of_row hinv hstep heff] at hm
        split_ifs at hm
        · rw [update_of_ne hid] at hm
          exact h id count hm
        · exact h id count hm
    · rename_i datagram src
      split at hcall
      · cases hcall
      · rename_i cells summary hd
        cases hcall
        rw [htable]
        refine CellStore.mergeRemote_entries
          (P := fun id m => ∀ count, m = WithBot.some count → Q id count) hinv (fun id => h id)
          (fun o ho m hm => entry_sup hm ?_) []
        obtain ⟨cell, hcell, rfl⟩ := List.mem_map.1 ho
        exact hpacket datagram src rfl _ _ _ _ _ _ hd cell hcell
    · cases hcall
      rw [htable]
      intro id count hm
      change (r.store.expireAt now []).1.toMap id = _ at hm
      rw [CellStore.expireAt, CellStore.expire_toMap hinv] at hm
      split_ifs at hm
      · cases hm
      · exact h id count hm
    · cases hcall

/-- **A step keeps the property** if what the node then holds for itself has it. -/
theorem Traced.step (h : Traced env Q c) (hsound : Sound env ids c) {i : ι} {now : ℕ}
    {arm : ArmOutcome} (hs : c.step env i now arm = some c')
    (hown : ∀ id count, id.node = ids i →
      (c'.nodes i).store.toMap id = WithBot.some count → Q id count) : Traced env Q c' := by
  obtain ⟨-, hit, -⟩ := step_nodes hsound hs
  obtain ⟨pins', hinv'⟩ := (hsound.step hs).inv i
  obtain ⟨pins, hinv⟩ := hsound.inv i
  unfold Cluster.step at hs
  split_ifs at hs with hdel
  obtain ⟨r', -, rfl⟩ := Option.map_eq_some_iff.1 hs
  rw [advance_nodes_self] at hit hinv' hown
  have hentries : Entries Q r'.store.toCellTable := by
    refine entries_iterated hinv (h.entries i) hit (fun datagram src hfired => ?_)
      (hsound.identity i ▸ hown)
    -- a flush brings no datagram
    have harm : arm = .inbound (some (datagram, src)) := by
      unfold Runtime.firedArm at hfired
      split_ifs at hfired
      exact hfired
    rw [harm] at hdel
    exact h.network datagram (of_decide_eq_true hdel)
  have hpool : ∀ slot, Packet env w Q (r'.sendPool slot) := by
    intro slot
    rcases hit.pool slot with heq | ⟨p, heq⟩
    · rw [heq]
      exact h.pool i slot
    · rw [heq]
      exact packet_nextInto hinv' hentries p
  have hsent : ∀ p ∈ r'.sent, Packet env w Q p.2 := by
    intro p hp
    rcases hit.sent p hp with hp | ⟨slot, heq⟩
    · exact h.sent i p hp
    · rw [heq]
      exact h.pool i slot
  have hnode : ∀ {P : Runtime w → Prop}, P r' → (∀ n, P (c.nodes n)) →
      ∀ n, P ((c.advance i arm r').nodes n) := by
    intro P hP hall n
    by_cases hni : n = i
    · rw [hni, advance_nodes_self]
      exact hP
    · rw [advance_nodes_of_ne c i arm r' hni]
      exact hall n
  refine ⟨hnode (P := fun r => Entries Q r.store.toCellTable) hentries h.entries,
    hnode (P := fun r => ∀ slot, Packet env w Q (r.sendPool slot)) hpool h.pool,
    hnode (P := fun r => ∀ p ∈ r.sent, Packet env w Q p.2) hsent h.sent, fun bytes hb => ?_⟩
  rcases List.mem_append.1 hb with hb | hb
  · obtain ⟨p, hp, rfl⟩ := List.mem_map.1 hb
    exact hsent p hp
  · exact h.network bytes hb

/-! ## Runs -/

/-- The origin of the cell has held this count at one of the first `t` steps. -/
def HeldBy (env : Platform) (ids : ι → NodeIdentity) (c₀ : Cluster ι w)
    (events : List (ι × ℕ × ArmOutcome)) (t : ℕ) (id : CellId) (count : ℕ) : Prop :=
  ∀ o, ids o = id.node → ∃ u ≤ t, ∃ cᵤ, c₀.run env (events.take u) = some cᵤ ∧
    (cᵤ.nodes o).store.toMap id = WithBot.some count

omit [DecidableEq ι] in
theorem traced_start (h : Start ids c₀) : Traced env Q c₀ := by
  choose config s₀ rules gossip hnew hnode using h.nodes
  choose pins hreg using fun i => CellStore.internRules_registering (hnew i) (rules i)
  refine ⟨fun n id count hm => ?_, fun n slot => ?_, fun n p hp => ?_, fun bytes hb => ?_⟩
  · rw [hnode] at hm
    have hbot : ((s₀ n).internRules (rules n)).toMap id = ⊥ := (hreg n).toMap id
    exact absurd (hbot.symm.trans hm) WithBot.bot_ne_coe
  · rw [hnode]
    intro m key limits accept cells summary hd
    simp [Runtime.fromParts, Wire.decodeInner, Wire.headerLen] at hd
  · rw [hnode] at hp
    cases hp
  · rw [h.network] at hb
    cases hb

theorem traced_run {events : List (ι × ℕ × ArmOutcome)} (hstart : Start ids c₀)
    (hrun : c₀.run env events = some c) (t : ℕ) :
    ∀ {cₜ : Cluster ι w}, c₀.run env (events.take t) = some cₜ →
      Traced env (HeldBy env ids c₀ events t) cₜ := by
  induction t with
  | zero =>
    intro cₜ ht
    cases ht
    exact traced_start hstart
  | succ t ih =>
    intro cₜ ht
    obtain ⟨cᵤ, hu, hstep⟩ := run_take_cases hrun ht
    have hbefore : Traced env (HeldBy env ids c₀ events (t + 1)) cᵤ :=
      (ih hu).imp fun id count hheld o ho => by
        obtain ⟨u, hle, hrest⟩ := hheld o ho
        exact ⟨u, Nat.le_succ_of_le hle, hrest⟩
    rcases hstep with rfl | ⟨n, now, arm, hevent, hstep⟩
    · exact hbefore
    · have hsound : Sound env ids cᵤ := hstart.sound.run _ hu
      refine hbefore.step hsound hstep fun id count hid hm o ho => ?_
      -- the node that steps is the origin
      obtain rfl : o = n := hsound.injective (ho.trans hid)
      exact ⟨t + 1, le_rfl, cₜ, ht, hm⟩

/-- **No count out of thin air.**  In every run of a cluster, whatever was sent, lost, repeated,
    cut off or delivered to the wrong node, and whatever has expired: a count that a node holds
    for the hits of `o` on `k` is one that `o` itself held for them, at this step or before. -/
theorem counts_held_by_origin (env : Platform) (ids : ι → NodeIdentity) {c₀ c : Cluster ι w}
    (hstart : Start ids c₀) (events : List (ι × ℕ × ArmOutcome))
    (hrun : c₀.run env events = some c) (n o : ι) (k : CellIdentity) (count : ℕ)
    (hm : (c.nodes n).store.toMap (k.ofNode (ids o)) = WithBot.some count) :
    ∃ t ≤ events.length, ∃ cₜ, c₀.run env (events.take t) = some cₜ ∧
      (cₜ.nodes o).store.toMap (k.ofNode (ids o)) = WithBot.some count := by
  have hend : c₀.run env (events.take events.length) = some c := by rwa [List.take_length]
  exact (traced_run hstart hrun events.length hend).entries n _ count hm o rfl

/-- The four hits that the second node holds are those of the first. -/
theorem counts_held_by_origin_pair : ∃ (c₀ c : Cluster Bool .u32) (packet : List UInt8),
    Start pairIds c₀ ∧ c₀.run Runtime.tinyPlatform (pairEvents packet) = some c ∧
      (c.nodes true).store.toMap (Runtime.tinyRequest.identity.ofNode (pairIds false)) =
        WithBot.some 4 ∧
      ∃ t ≤ 6, ∃ cₜ, c₀.run Runtime.tinyPlatform ((pairEvents packet).take t) = some cₜ ∧
        (cₜ.nodes false).store.toMap (Runtime.tinyRequest.identity.ofNode (pairIds false)) =
          WithBot.some 4 := by
  obtain ⟨c₀, c, packet, hstart, hrun, hcount, -⟩ := pair_run
  exact ⟨c₀, c, packet, hstart, hrun, hcount, counts_held_by_origin Runtime.tinyPlatform pairIds
    hstart _ hrun true false Runtime.tinyRequest.identity 4 hcount⟩

end Cluster

end Gabion

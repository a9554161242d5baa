/-
  The send buffers of the runtime (`send_pool`, `send_free`, `send_pending`).

  A tick takes buffers from the front of the free list, writes packets into them and queues
  them; a finished send gives its buffer back.  So the free and the queued buffers together
  never change (`Pooled`), and a queued packet stays as it was written.  The pool itself may
  be larger: its size is truncated to eight bits when the free list is made.
-/
import Gabion.Agreement
import Gabion.Wire.Fidelity
import Gabion.Rules

namespace Gabion

open Function

/-! ## What the server passes to the runtime -/

/-- The gossip section of the server configuration, as far as the runtime uses it.  No value
    is checked; the types are `usize`, `u32`, `u128` and `Duration`. -/
structure GossipSettings where
  fanout : ℕ
  maxPayloadBytes : ℕ
  maxCellsPerFrame : ℕ
  maxCellsPerTick : ℕ
  sendQueueCapacity : ℕ
  clusterIdHash : BitVec 128
  targetErrBps : ℕ
  minEmitInterval : Duration

def GossipSettings.default : GossipSettings where
  fanout := 3
  maxPayloadBytes := 1400
  maxCellsPerFrame := 4096
  maxCellsPerTick := 4096
  sendQueueCapacity := 128
  clusterIdHash := 1
  targetErrBps := 100
  minEmitInterval := 5 * 10 ^ 6

/-- Peers come from discovery, and there is no key.  `min_emit_interval` is read with
    `as_millis() as u64`. -/
def GossipSettings.intoRuntimeConfig (g : GossipSettings) (rngSeed : BitVec 64) : GossipConfig where
  clusterIdHash := g.clusterIdHash
  bootstrapPeers := []
  fanout := g.fanout
  maxCellsPerTick := g.maxCellsPerTick
  wireLimits := { maxPayloadBytes := g.maxPayloadBytes, maxCells := g.maxCellsPerFrame }
  sendQueueCapacity := g.sendQueueCapacity
  authKey := none
  rngSeed
  targetErrBps := g.targetErrBps
  minEmitIntervalMillis := g.minEmitInterval / 10 ^ 6 % 2 ^ 64

namespace Runtime

variable {w : CountWidth} {env : Platform} {r r' : Runtime w}

/-! ## Filling buffers -/

/-- The buffers of the queued packets. -/
def queued (r : Runtime w) : List ℕ := r.sendPending.map Prod.snd

/-- Some buffers move from the front of the free list to the end of the queue, and only free
    buffers are written. -/
structure Fills (r r' : Runtime w) : Prop where
  moved : ∃ k, r'.sendFree = r.sendFree.drop k ∧ r'.queued = r.queued ++ r.sendFree.take k
  kept : ∀ x, x ∉ r.sendFree → r'.sendPool x = r.sendPool x

theorem Fills.of_eq (hf : r'.sendFree = r.sendFree) (hp : r'.sendPending = r.sendPending)
    (hb : r'.sendPool = r.sendPool) : Fills r r' :=
  ⟨⟨0, by simp [hf], by simp [queued, hp]⟩, fun x _ => by rw [hb]⟩

theorem Fills.refl (r : Runtime w) : Fills r r := .of_eq rfl rfl rfl

theorem Fills.trans {r₁ r₂ : Runtime w} (h : Fills r r₁) (h' : Fills r₁ r₂) : Fills r r₂ := by
  obtain ⟨k, hf, hq⟩ := h.moved
  obtain ⟨k', hf', hq'⟩ := h'.moved
  constructor
  · refine ⟨k + k', ?_, ?_⟩
    · rw [hf', hf, List.drop_drop]
    · rw [hq', hq, hf, List.take_add, List.append_assoc]
  · intro x hx
    have hx' : x ∉ r₁.sendFree := by
      rw [hf]
      exact fun hmem => hx (List.mem_of_mem_drop hmem)
    rw [h'.kept x hx', h.kept x hx]

theorem packetLoop_fills (mac : Wire.Mac) (s : CellTable w) (dst : SocketAddr) (free : List ℕ) :
    ∀ (packets : Wire.Packets) (pool : ℕ → List UInt8) (pending : List (SocketAddr × ℕ)),
      ∃ k, (packetLoop mac s dst free packets pool pending).1 = free.drop k ∧
        (packetLoop mac s dst free packets pool pending).2.2 =
          pending ++ (free.take k).map (dst, ·) ∧
        ∀ x, x ∉ free → (packetLoop mac s dst free packets pool pending).2.1 x = pool x := by
  induction free with
  | nil =>
    intro packets pool pending
    exact ⟨0, rfl, by simp [packetLoop], fun _ _ => rfl⟩
  | cons slot free ih =>
    intro packets pool pending
    have hone : ∀ (buf : List UInt8) x, x ∉ slot :: free → update pool slot buf x = pool x := by
      intro buf x hx
      refine update_of_ne ?_ _ _
      rintro rfl
      exact hx List.mem_cons_self
    unfold packetLoop
    split
    · rename_i packets' buf _ _
      obtain ⟨k, h1, h2, h3⟩ := ih packets' (update pool slot buf) (pending ++ [(dst, slot)])
      refine ⟨k + 1, h1, ?_, ?_⟩
      · rw [h2]
        simp
      · intro x hx
        rw [h3 x (fun h => hx (List.mem_cons_of_mem _ h)), hone buf x hx]
    · exact ⟨0, rfl, by simp, hone _⟩

theorem encodePacketsFor_fills (r : Runtime w) (dst : SocketAddr) (handles : List CellHandle) :
    Fills r (r.encodePacketsFor env dst handles) := by
  unfold encodePacketsFor
  split
  · exact .refl r
  · rename_i packets _
    obtain ⟨k, h1, h2, h3⟩ := packetLoop_fills env.mac r.store.toCellTable dst r.sendFree packets
      r.sendPool r.sendPending
    generalize packetLoop env.mac r.store.toCellTable dst r.sendFree packets r.sendPool
      r.sendPending = res at h1 h2 h3 ⊢
    obtain ⟨free, pool, pending⟩ := res
    refine ⟨⟨k, h1, ?_⟩, h3⟩
    rw [queued, show pending = _ from h2]
    simp [queued, Function.comp_def]

theorem gossip_fills (peers : List ℕ) (r : Runtime w) :
    Fills r (peers.foldl (gossipTo env) r) :=
  gossip_induct .refl .trans (fun _ _ _ => .of_eq rfl rfl rfl) encodePacketsFor_fills peers r

theorem handleGossipTick_fills (env : Platform) (r : Runtime w) (now : ℕ) :
    Fills r (r.handleGossipTick env now) := by
  unfold handleGossipTick
  dsimp only
  split_ifs
  · exact .of_eq rfl rfl rfl
  · have hpick : ∀ n, Fills r ((r.expireTick now).pickPeers n) := fun n => .of_eq rfl rfl rfl
    have hreset : ∀ r : Runtime w, Fills r (r.resetPending now) := fun r => .of_eq rfl rfl rfl
    exact ((hpick _).trans (gossip_fills _ _)).trans (hreset _)

/-! ## The pool along a run -/

/-- **Free and queued buffers are the first `n`**, each once. -/
def Pooled (n : ℕ) (r : Runtime w) : Prop := (r.sendFree ++ r.queued).Perm (List.range n)

theorem Pooled.nodup {n : ℕ} (h : Pooled n r) : (r.sendFree ++ r.queued).Nodup :=
  h.nodup_iff.2 List.nodup_range

theorem Pooled.fills {n : ℕ} (h : Pooled n r) (hf : Fills r r') : Pooled n r' := by
  obtain ⟨k, h1, h2⟩ := hf.moved
  have hperm : (r.sendFree.drop k ++ (r.queued ++ r.sendFree.take k)).Perm
      (r.sendFree ++ r.queued) := by
    calc r.sendFree.drop k ++ (r.queued ++ r.sendFree.take k)
        |>.Perm ((r.queued ++ r.sendFree.take k) ++ r.sendFree.drop k) := List.perm_append_comm
      _ = r.queued ++ r.sendFree := by rw [List.append_assoc, List.take_append_drop]
      _ |>.Perm (r.sendFree ++ r.queued) := List.perm_append_comm
  rw [Pooled, h1, h2]
  exact hperm.trans h

/-- A queued buffer is not free. -/
theorem Pooled.not_free {n : ℕ} (h : Pooled n r) {p : SocketAddr × ℕ} (hp : p ∈ r.sendPending) :
    p.2 ∉ r.sendFree := by
  intro hfree
  have hq : p.2 ∈ r.queued := List.mem_map.2 ⟨p, hp, rfl⟩
  exact (List.nodup_append.1 h.nodup).2.2 _ hfree _ hq rfl

/-- The state `drain_one_send` leaves; a failed send gives its buffer back before the error
    ends the loop. -/
def drainLeaves (r : Runtime w) (result : SendResult) : Runtime w :=
  match r.sendPending, result with
  | (_, slot) :: rest, .failed => { r with sendPending := rest, sendFree := slot :: r.sendFree }
  | _, _ => (r.drainOneSend result).getD r

theorem drainLeaves_of_some {result : SendResult} (h : r.drainOneSend result = some r') :
    r.drainLeaves result = r' := by
  unfold drainLeaves
  split
  · rename_i hp
    rw [drainOneSend, hp] at h
    cases h
  · rw [h]
    rfl

theorem Pooled.drain {n : ℕ} (h : Pooled n r) (result : SendResult) :
    Pooled n (r.drainLeaves result) := by
  -- the first queued buffer becomes the first free one
  have hpop : ∀ {p : SocketAddr × ℕ} {rest}, r.sendPending = p :: rest →
      ((p.2 :: r.sendFree) ++ rest.map Prod.snd).Perm (List.range n) := by
    intro p rest hp
    refine List.Perm.trans ?_ h
    rw [queued, hp, List.map_cons]
    exact List.perm_middle.symm
  unfold drainLeaves drainOneSend
  cases hp : r.sendPending with
  | nil => cases result <;> exact h
  | cons p rest =>
    cases result with
    | ok => exact hpop hp
    | wouldBlock => exact h
    | failed => exact hpop hp

theorem drainLeaves_pool (r : Runtime w) (result : SendResult) :
    (r.drainLeaves result).sendPool = r.sendPool ∧ (r.drainLeaves result).config = r.config := by
  unfold drainLeaves drainOneSend
  cases hp : r.sendPending with
  | nil => cases result <;> exact ⟨rfl, rfl⟩
  | cons p rest => cases result <;> exact ⟨rfl, rfl⟩

theorem handle_pooled {n now : ℕ} {arm : ArmOutcome} (h : Pooled n r)
    (hh : r.handle env now arm = some r') :
    Pooled n r' ∧ ∀ p ∈ r.sendPending, r'.sendPool p.2 = r.sendPool p.2 := by
  have hsame : ∀ {r' : Runtime w}, Fills r r' →
      Pooled n r' ∧ ∀ p ∈ r.sendPending, r'.sendPool p.2 = r.sendPool p.2 := fun hf =>
    ⟨h.fills hf, fun p hp => hf.kept _ (h.not_free hp)⟩
  cases arm with
  | request req =>
    rcases req with _ | (req | _)
    · cases hh
    · cases hh
      refine hsame (.of_eq ?_ ?_ ?_) <;>
      · unfold handleLimitRequest noteHits
        dsimp only
        split <;> rfl
    · cases hh
  | inbound recv =>
    rcases recv with _ | ⟨datagram, src⟩
    · cases hh
    · cases hh
      refine hsame (.of_eq ?_ ?_ ?_) <;>
      · unfold handleInbound
        split
        · rfl
        · dsimp only
          split <;> rfl
  | writable result =>
    have hd := drainLeaves_of_some hh
    rw [← hd]
    exact ⟨h.drain result, fun p _ => congrFun (drainLeaves_pool r result).1 _⟩
  | peerEvent evt =>
    rcases evt with _ | evt
    · cases hh
      exact hsame (.refl r)
    · cases hh
      refine hsame (.of_eq ?_ ?_ ?_) <;>
      · unfold handlePeerEvent
        split
        · split <;> rfl
        · split
          · rfl
          · dsimp only
            split <;> rfl
  | admin =>
    cases hh
    exact hsame (.refl r)
  | tick =>
    cases hh
    exact hsame (handleGossipTick_fills env r now)

theorem finish_fills (r : Runtime w) : Fills r r.finish := by
  unfold finish
  dsimp only
  split_ifs <;> exact .of_eq rfl rfl rfl

/-- The state a tick starts from: a wanted flush is noted first. -/
def tickStart (r : Runtime w) : Runtime w :=
  if r.wantImmediateFlush then
    { r with wantImmediateFlush := false, thresholdFires := min (r.thresholdFires + 1) u64Max }
  else r

theorem tickStart_fills (r : Runtime w) : Fills r r.tickStart := by
  unfold tickStart
  split_ifs <;> exact .of_eq rfl rfl rfl

/-- **An iteration keeps the buffers together, and leaves queued packets alone.** -/
theorem Pooled.iteration {n now : ℕ} {arm : ArmOutcome} (h : Pooled n r)
    (hi : r.iteration env now arm = some r') :
    Pooled n r' ∧ ∀ p ∈ r.sendPending, r'.sendPool p.2 = r.sendPool p.2 := by
  have hfinish : ∀ r₁ : Runtime w, r₁.finish.sendPool = r₁.sendPool := by
    intro r₁
    unfold finish
    dsimp only
    split_ifs <;> rfl
  unfold Runtime.iteration at hi
  split_ifs at hi with hflush
  · cases hi
    have hstart := r.tickStart_fills
    rw [tickStart, if_pos hflush] at hstart
    have hf := hstart.trans (handleGossipTick_fills env _ now)
    refine ⟨(h.fills hf).fills (finish_fills _), fun p hp => ?_⟩
    rw [hfinish]
    exact hf.kept _ (h.not_free hp)
  · obtain ⟨r₁, h₁, rfl⟩ := Option.map_eq_some_iff.1 hi
    obtain ⟨hp₁, hkept⟩ := handle_pooled h h₁
    refine ⟨hp₁.fills (finish_fills r₁), ?_⟩
    rw [hfinish]
    exact hkept

theorem pooled_fromParts (config : GossipConfig) (s : CellStore w) (aggregates : DashMapStore) :
    Pooled (max config.sendQueueCapacity 1 % 2 ^ 8) (fromParts config s aggregates) := by
  unfold Pooled fromParts queued
  simp

theorem Pooled.run {n : ℕ} {arms : List (ℕ × ArmOutcome)} (h : Pooled n r)
    (hr : r.run env arms = some r') : Pooled n r' :=
  run_induct (P := Pooled n) (fun h hi => (h.iteration hi).1) arms h hr

/-! ## Conservation -/

/-- The free and the queued buffers are those of the whole pool. -/
def Conserved (config : GossipConfig) (r : Runtime w) : Prop :=
  (r.sendFree ++ r.queued).Perm (List.range (max config.sendQueueCapacity 1))

theorem Pooled.conserved_iff {config : GossipConfig}
    (h : Pooled (max config.sendQueueCapacity 1 % 2 ^ 8) r) :
    Conserved config r ↔ config.sendQueueCapacity < 2 ^ 8 := by
  have hlen := h.length_eq
  rw [List.length_range] at hlen
  constructor
  · intro hc
    have hall := hc.length_eq
    rw [hlen, List.length_range] at hall
    omega
  · intro hlt
    have hmod : max config.sendQueueCapacity 1 % 2 ^ 8 = max config.sendQueueCapacity 1 :=
      Nat.mod_eq_of_lt (by omega)
    rw [Pooled, hmod] at h
    exact h

/-- **Send buffers are conserved exactly up to 255 of them.**  In every state of every run,
    and after a drain with any result, the free and the queued buffers are those of the pool
    if and only if the configured capacity fits eight bits.  An iteration never rewrites the
    buffer of a queued packet, whatever the capacity. -/
theorem send_buffers_conserved_iff (env : Platform) (config : GossipConfig) (s : CellStore w)
    (aggregates : DashMapStore) (arms : List (ℕ × ArmOutcome)) {r : Runtime w}
    (hr : (fromParts config s aggregates).run env arms = some r) :
    (Conserved config r ↔ config.sendQueueCapacity < 2 ^ 8) ∧
      (∀ result, Conserved config (r.drainLeaves result) ↔ config.sendQueueCapacity < 2 ^ 8) ∧
      ∀ now arm r', r.iteration env now arm = some r' →
        ∀ p ∈ r.sendPending, r'.sendPool p.2 = r.sendPool p.2 := by
  have h := (pooled_fromParts config s aggregates).run hr
  refine ⟨h.conserved_iff, fun result => (h.drain result).conserved_iff, ?_⟩
  intro now arm r' hi
  exact (h.iteration hi).2

/-- Hits on one key, a peer, a tick, and a failing send. -/
def peerArms : List (ℕ × ArmOutcome) :=
  [(5000, .request (some (.limit tinyRequest))),
    (5001, .peerEvent (some (.added { ip := 2, port := 7000 }))),
    (5002, .peerEvent (some (.added { ip := 2, port := 7000 }))), (5003, .tick)]

/-- With the default settings the packet waits in buffer 0, and a failing send frees it. -/
theorem send_buffers_conserved_default : ∃ (s₀ : CellStore .u32) (r : Runtime .u32),
    CellStore.new .u32 CellStore.tinyConfig CellStore.tinyNode = some s₀ ∧
      (fromParts (GossipSettings.default.intoRuntimeConfig 7) (s₀.internRules [tinyRule])
        .empty).run tinyPlatform peerArms = some r ∧
      r.queued = [0] ∧ r.drainOneSend .failed = none ∧
      Conserved (GossipSettings.default.intoRuntimeConfig 7) r ∧
      Conserved (GossipSettings.default.intoRuntimeConfig 7) (r.drainLeaves .failed) := by
  have heval : (((fromParts (GossipSettings.default.intoRuntimeConfig 7)
      (tinyStore.internRules [tinyRule]) .empty).run tinyPlatform peerArms).map fun r =>
          (r.queued, (r.drainOneSend .failed).isNone)) = some ([0], true) := by decide +kernel
  obtain ⟨r, hrun, hvals⟩ := Option.map_eq_some_iff.1 heval
  simp only [Prod.mk.injEq, Option.isNone_iff_eq_none] at hvals
  obtain ⟨hleaves, hdrain, -⟩ := send_buffers_conserved_iff tinyPlatform _ _ _ peerArms hrun
  exact ⟨tinyStore, r, tinyStore_new, hrun, hvals.1, hvals.2, hleaves.2 (by decide),
    (hdrain _).2 (by decide)⟩

/-- Twice the default capacity. -/
def wideSettings : GossipSettings := { GossipSettings.default with sendQueueCapacity := 256 }

/-- **A pool of 256 buffers has no free one**: the node holds hits and has a peer, and its
    tick queues nothing. -/
theorem pool_of_256_never_sends : ∃ (s₀ : CellStore .u32) (r : Runtime .u32),
    CellStore.new .u32 CellStore.tinyConfig CellStore.tinyNode = some s₀ ∧
      (fromParts (wideSettings.intoRuntimeConfig 7) (s₀.internRules [tinyRule]) .empty).run
        tinyPlatform peerArms = some r ∧
      r.store.activeLen = 1 ∧ r.peers.length = 1 ∧ r.sendFree = [] ∧ r.sendPending = [] ∧
      ¬ Conserved (wideSettings.intoRuntimeConfig 7) r := by
  have heval : (((fromParts (wideSettings.intoRuntimeConfig 7) (tinyStore.internRules [tinyRule])
      .empty).run tinyPlatform peerArms).map fun r =>
          (r.store.activeLen, r.peers.length, r.sendFree, r.sendPending.length)) =
      some (1, 1, [], 0) := by decide +kernel
  obtain ⟨r, hrun, hvals⟩ := Option.map_eq_some_iff.1 heval
  simp only [Prod.mk.injEq, List.length_eq_zero_iff] at hvals
  obtain ⟨hactive, hpeers, hfree, hpending⟩ := hvals
  refine ⟨tinyStore, r, tinyStore_new, hrun, hactive, hpeers, hfree, hpending, fun hc => ?_⟩
  have hlen := hc.length_eq
  rw [queued, hfree, hpending, List.length_range] at hlen
  exact absurd hlen (by decide)

end Runtime

end Gabion

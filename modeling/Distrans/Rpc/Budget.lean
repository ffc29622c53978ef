import Distrans.Lib.RetryTimer
import Distrans.Rpc.Lifecycle

/-!
# The budget of a call

The retries of a call keep to a schedule (`Waiting`): if no tick is left out, each attempt lasts
`retry_deadline` ticks, or one, and the last of them is followed by the failure.

* `calls_resolve` — **every call is resolved exactly once within its budget**, unless a counter is
  full.
* `Reach.sound` — no counter gets full with fewer than `2 ^ 64` calls and `max_attempts` below the
  largest number.
* `call_outlives_budget` — with the largest number it does: the attempts wrap around.
-/

set_option autoImplicit false

namespace Distrans

open Machine RetryTimer

/-! ## Time -/

namespace RpcClient

variable {σ : Type} {b : Build} {T : Transport σ} {c c' : RpcClient σ} {now t₀ t : Tick} {id : U64}
  {period : U64} {m : U32}

/-- The call with this id, issued at `t₀`, keeps to the schedule of its retries up to `t`. -/
structure Waiting (c : RpcClient σ) (period : U64) (m : U32) (id : U64) (t₀ t : Tick) : Prop where
  deadline : c.retryDeadline = period
  attempts : c.maxAttempts = m
  onTime : ∀ call, (id, call) ∈ c.pending.entries → OnTime (max 1 period.toNat) (max 1 m.toNat)
    t₀.toNat call.attempts.toNat call.sentAt.toNat t.toNat

/-- Fewer calls, and the same budget. -/
theorem Waiting.mono (hw : c.Waiting period m id t₀ t)
    (hdeadline : c'.retryDeadline = c.retryDeadline) (hmax : c'.maxAttempts = c.maxAttempts)
    (h : ∀ call, (id, call) ∈ c'.pending.entries → (id, call) ∈ c.pending.entries) :
    c'.Waiting period m id t₀ t :=
  ⟨hdeadline.trans hw.deadline, hmax.trans hw.attempts, fun call hcall => hw.onTime call (h call hcall)⟩

theorem onMessage_kept (c : RpcClient σ) (bytes : List U8) :
    (c.onMessage bytes).retryDeadline = c.retryDeadline ∧
    (c.onMessage bytes).maxAttempts = c.maxAttempts ∧
    ∀ e ∈ (c.onMessage bytes).pending.entries, e ∈ c.pending.entries := by
  unfold onMessage
  split
  · exact ⟨rfl, rfl, fun _ he => he⟩
  · split
    · exact ⟨rfl, rfl, fun _ he => he⟩
    · exact ⟨rfl, rfl, fun _ he => (OrdMap.mem_erase.mp he).1⟩

theorem Waiting.onDatagram {d : Datagram} {out : List Datagram} (hw : c.Waiting period m id t₀ t)
    (h : c.onDatagram T now d = .ok (c', out)) : c'.Waiting period m id t₀ t := by
  obtain ⟨conn₀, conn, bytes, _, _, rfl⟩ := onDatagram_inv h
  have hmessages : ∀ (messages : List (List U8)) {c : RpcClient σ}, c.Waiting period m id t₀ t →
      (messages.foldl onMessage c).Waiting period m id t₀ t := by
    intro messages
    induction messages with
    | nil => exact fun hw => hw
    | cons bytes messages ih =>
      intro c hw
      obtain ⟨hdeadline, hmax, hpend⟩ := c.onMessage_kept bytes
      exact ih (hw.mono hdeadline hmax fun _ => hpend _)
  exact hmessages _ (hw.mono rfl rfl fun _ h => h)

/-- **A tick**, now or at the next moment: what is overdue is counted, what is not waits on. -/
theorem Waiting.onTick {order : List (U64 × PendingCall)} {out : List Datagram}
    (hw : c.Waiting period m id t₀ t) (hp : order.Perm c.pending.entries) (hs : c.Sound (.tick now))
    (hnow : now = t ∨ now.toNat = t.toNat + 1) (h : c.onTick b T now order = .ok (c', out)) :
    c'.Waiting period m id t₀ now := by
  obtain ⟨conn₀, conn, _, _, _, _, rfl⟩ := onTick_eq h
  have hle : t.toNat ≤ now.toNat ∧ now.toNat ≤ t.toNat + 1 := by
    rcases hnow with rfl | hnow <;> omega
  refine ⟨hw.deadline, hw.attempts, fun call hcall => ?_⟩
  obtain ⟨e, he, hg, heq⟩ := (mem_afterTick hp).mp hcall
  obtain ⟨rfl, rfl⟩ := Prod.mk.inj heq
  have hon := hw.onTime e.2 he
  have hsince : (satSub now e.2.sentAt).toNat = now.toNat - e.2.sentAt.toNat := satSub_toNat _ _
  rw [← hw.deadline, ← hw.attempts] at hon ⊢
  by_cases hr : c.Resends now e.2
  · obtain ⟨hattempts, hmax⟩ := attempts_touched hr (hs e he hr.1)
    have hsent : (c.touched now e.2).sentAt = now := by
      rw [touched, if_neg hg, if_pos hr]
    rw [hattempts, hsent]
    exact hon.fire (by omega) hle.2 (Nat.le_trans hmax (Nat.le_max_right _ _))
  · have hsame : c.touched now e.2 = e.2 := by rw [touched, if_neg hg, if_neg hr]
    have hearly : ¬ c.retryDeadline.toNat ≤ (satSub now e.2.sentAt).toNat := by
      intro hdue
      by_cases hmax : c.maxAttempts < e.2.attempts + 1
      · exact hg ⟨hdue, hmax⟩
      · exact hr ⟨hdue, hmax⟩
    rw [hsame]
    have hmono := hon.armed
    exact hon.wait hle.1 (by omega)

/-- A step that makes no new call with this id. -/
theorem Waiting.op {c c' : RpcClient (Noted σ)} {calls : List (U8 × List U8)}
    {outs : List ClientOut} {o : ClientOp} {π : Shuffle} {out : ClientOut}
    (hw : c.Waiting period m id t₀ t) (hc : Lifecycle c calls outs) (hid : id ∈ (issued calls).map Request.id)
    (hs : c.Sound o) (hev : EveryTick t (ticksOf [o])) (h : c.op b T.noted π o = .ok (c', out)) :
    c'.Waiting period m id t₀ (lastTick t (ticksOf [o])) := by
  cases o with
  | call now method payload =>
    obtain ⟨⟨c₁, id', out₁⟩, h₁, h⟩ := bind_eq_ok.mp h
    cases h
    obtain ⟨nextId, _, h₁⟩ := bind_eq_ok.mp h₁
    obtain ⟨⟨conn, _⟩, _, h₁⟩ := bind_eq_ok.mp h₁
    cases h₁
    refine hw.mono rfl rfl fun call hcall => ?_
    rcases OrdMap.mem_insert.mp hcall with heq | ⟨hcall, _⟩
    · obtain ⟨rfl, _⟩ := Prod.mk.inj heq
      exact absurd hid hc.nextId_fresh
    · exact hcall
  | datagram now d =>
    obtain ⟨⟨c₁, out₁⟩, h₁, h⟩ := bind_eq_ok.mp h
    cases h
    exact hw.onDatagram h₁
  | tick now =>
    obtain ⟨⟨c₁, out₁⟩, h₁, h⟩ := bind_eq_ok.mp h
    cases h
    exact hw.onTick (π.perm _) hs hev.1 h₁
  | pollCompleted =>
    cases h
    exact hw.mono rfl rfl fun _ h => h
  | pollFailed =>
    cases h
    exact hw.mono rfl rfl fun _ h => h

theorem ticksOf_append (xs ys : List ClientOp) : ticksOf (xs ++ ys) = ticksOf xs ++ ticksOf ys :=
  List.filterMap_append

theorem Waiting.reach {c c' : RpcClient (Noted σ)} {calls : List (U8 × List U8)}
    {outs outs' : List ClientOut} {ops : List ClientOp} (hw : c.Waiting period m id t₀ t)
    (hc : Lifecycle c calls outs) (hid : id ∈ (issued calls).map Request.id)
    (h : Reach Sound b T.noted c ops outs' c') (hev : EveryTick t (ticksOf ops)) :
    c'.Waiting period m id t₀ (lastTick t (ticksOf ops)) := by
  induction h with
  | start => exact hw
  | @step ops outs' c₁ c' o out π hreach hs hop ih =>
    rw [ticksOf_append, everyTick_append] at hev
    rw [ticksOf_append, lastTick_append]
    have hid' : id ∈ (issued (calls ++ callsOf ops)).map Request.id := by
      rw [← (hc.reach hreach).ids, List.flatMap_append, hc.ids]
      exact List.mem_append_left _ hid
    exact (ih hev.1).op (hc.reach hreach) hid' hs hev.2 hop

/-- Ticked at every tick after it was made, a call is resolved within its budget. -/
def Expires (P : RpcClient σ → ClientOp → Prop) (b : Build) (T : Transport σ) (c : RpcClient σ) :
    Prop :=
  ∀ {t₀ : Tick} {method : U8} {payload : List U8} {π : Shuffle} {c₁ c₂ : RpcClient σ} {id : U64}
    {out : List Datagram} {after : List ClientOp} {outs : List ClientOut},
    P c (.call t₀ method payload) → c.op b T π (.call t₀ method payload) = .ok (c₁, .issued id out) →
    Reach P b T c₁ after outs c₂ → EveryTick t₀ (ticksOf after) →
    t₀.toNat + max 1 c.maxAttempts.toNat * max 1 c.retryDeadline.toNat ≤
      (lastTick t₀ (ticksOf after)).toNat → id ∉ c₂.pendingIds

theorem expires {c : RpcClient (Noted σ)} {calls : List (U8 × List U8)} {outs : List ClientOut}
    (hc : Lifecycle c calls outs) : c.Expires Sound b T.noted := by
  intro t₀ method payload π c₁ c₂ id out after outs' hs hcall hafter hev hlast hmem
  have hc₁ : Lifecycle c₁ (calls ++ [(method, payload)]) (outs ++ [.issued id out]) := hc.op hs hcall
  obtain ⟨⟨c', id', out'⟩, h, hcall⟩ := bind_eq_ok.mp hcall
  cases hcall
  obtain ⟨nextId, _, h⟩ := bind_eq_ok.mp h
  obtain ⟨⟨conn, _⟩, _, h⟩ := bind_eq_ok.mp h
  cases h
  have hid : c.nextId ∈ (issued (calls ++ [(method, payload)])).map Request.id := by
    rw [← hc₁.ids, List.flatMap_append]
    exact List.mem_append_right _ (List.mem_singleton.mpr rfl)
  have hw : RpcClient.Waiting { c with
      conn, nextId
      pending := c.pending.insert c.nextId ⟨⟨c.nextId, method, payload⟩, t₀, 1⟩ }
      c.retryDeadline c.maxAttempts c.nextId t₀ t₀ := by
    refine ⟨rfl, rfl, fun call hcall => ?_⟩
    rcases OrdMap.mem_insert.mp hcall with heq | ⟨_, hne⟩
    · obtain ⟨_, rfl⟩ := Prod.mk.inj heq
      exact OnTime.first (by omega) (Nat.le_max_left _ _)
    · exact absurd rfl hne
  obtain ⟨⟨_, call⟩, hcall, rfl⟩ := List.mem_map.mp hmem
  have hlt := ((hw.reach hc₁ hid hafter hev).onTime call hcall).lt
  exact absurd hlast (not_le.mpr hlt)

/-! ## Steps that return -/

theorem sendAll_returns (now : Tick) (h : T.Total) : ∀ (rs : List Request) (conn : σ),
    ∃ r, sendAll T now rs conn = .ok r
  | [], _ => ⟨_, rfl⟩
  | _ :: rs, conn => bind_returns (h.send conn now _) fun _ _ =>
      bind_returns (sendAll_returns now h rs _) fun _ _ => ⟨_, rfl⟩

theorem onTick_returns {order : List (U64 × PendingCall)} (hT : T.Total)
    (hv : ∀ e ∈ order, ∃ v, c.verdict b now e.2 = .ok v) : ∃ r, c.onTick b T now order = .ok r := by
  refine bind_returns (hT.onTick c.conn now) fun s _ => bind_returns ?_ fun _ _ => ⟨_, rfl⟩
  obtain ⟨r, hr⟩ := sendAll_returns now hT
    (({ c with conn := s.1 } : RpcClient σ).resent now order) s.1
  rw [retryLoop_eq (c := { c with conn := s.1 }) hv, hr]
  exact ⟨_, rfl⟩

/-- What becomes of a call is decided, if its counter is not full. -/
theorem verdict_returns (hs : c.Sound (.tick now)) {e : U64 × PendingCall}
    (he : e ∈ c.pending.entries) : ∃ v, c.verdict b now e.2 = .ok v := by
  unfold verdict
  split
  · rename_i hdue
    refine bind_returns (Build.add_one_returns fun _ => hs e he hdue) fun _ _ => ?_
    split <;> exact ⟨_, rfl⟩
  · exact ⟨_, rfl⟩

/-- **A step returns** if the connection does and no counter is full. -/
theorem op_returns (hT : T.Total) {o : ClientOp} (π : Shuffle) (hs : c.Sound o) :
    ∃ r, c.op b T π o = .ok r := by
  cases o with
  | call now method payload =>
    refine bind_returns ?_ fun _ _ => ⟨_, rfl⟩
    exact bind_returns (Build.add_one_returns fun _ => hs) fun _ _ =>
      bind_returns (hT.send _ _ _) fun _ _ => ⟨_, rfl⟩
  | datagram now d =>
    refine bind_returns ?_ fun _ _ => ⟨_, rfl⟩
    exact bind_returns (hT.onDatagram _ _ _) fun _ _ => ⟨_, rfl⟩
  | tick now =>
    refine bind_returns (onTick_returns hT fun e he => ?_) fun _ _ => ⟨_, rfl⟩
    exact verdict_returns hs ((π.perm _).mem_iff.mp he)
  | pollCompleted => exact ⟨_, rfl⟩
  | pollFailed => exact ⟨_, rfl⟩

/-! ## Every call is resolved once -/

/-- The settings of a client do not change. -/
theorem op_kept {o : ClientOp} {π : Shuffle} {out : ClientOut} (h : c.op b T π o = .ok (c', out)) :
    c'.retryDeadline = c.retryDeadline ∧ c'.maxAttempts = c.maxAttempts := by
  cases o with
  | call now method payload =>
    obtain ⟨⟨c₁, id', out₁⟩, h₁, h⟩ := bind_eq_ok.mp h
    cases h
    obtain ⟨nextId, _, h₁⟩ := bind_eq_ok.mp h₁
    obtain ⟨⟨conn, _⟩, _, h₁⟩ := bind_eq_ok.mp h₁
    cases h₁
    exact ⟨rfl, rfl⟩
  | datagram now d =>
    obtain ⟨⟨c₁, out₁⟩, h₁, h⟩ := bind_eq_ok.mp h
    cases h
    obtain ⟨conn₀, conn, bytes, _, _, rfl⟩ := onDatagram_inv h₁
    have hmessages : ∀ (messages : List (List U8)) (c : RpcClient σ),
        (messages.foldl onMessage c).retryDeadline = c.retryDeadline ∧
        (messages.foldl onMessage c).maxAttempts = c.maxAttempts := by
      intro messages
      induction messages with
      | nil => exact fun _ => ⟨rfl, rfl⟩
      | cons bytes messages ih =>
        intro c
        obtain ⟨hdeadline, hmax, _⟩ := c.onMessage_kept bytes
        exact ⟨(ih _).1.trans hdeadline, (ih _).2.trans hmax⟩
    exact hmessages _ _
  | tick now =>
    obtain ⟨⟨c₁, out₁⟩, h₁, h⟩ := bind_eq_ok.mp h
    cases h
    obtain ⟨conn₀, conn, _, _, _, _, rfl⟩ := onTick_eq h₁
    exact ⟨rfl, rfl⟩
  | pollCompleted =>
    cases h
    exact ⟨rfl, rfl⟩
  | pollFailed =>
    cases h
    exact ⟨rfl, rfl⟩

theorem Reach.kept {P : RpcClient σ → ClientOp → Prop} {c₀ : RpcClient σ} {ops : List ClientOp}
    {outs : List ClientOut} (h : Reach P b T c₀ ops outs c) :
    c.retryDeadline = c₀.retryDeadline ∧ c.maxAttempts = c₀.maxAttempts := by
  induction h with
  | start => exact ⟨rfl, rfl⟩
  | step _ _ hop ih => exact ⟨(op_kept hop).1.trans ih.1, (op_kept hop).2.trans ih.2⟩

/-- **Every call is resolved exactly once within its budget**, in every run in which no counter
is full. -/
theorem calls_resolve {σ : Type} {b : Build} {T : Transport σ} {conn : σ} {retryDeadline : U64}
    {maxAttempts : U32} {ops : List ClientOp} {outs : List ClientOut} {c : RpcClient (Noted σ)}
    (h : Reach Sound b T.noted (new (.fresh conn) retryDeadline maxAttempts) ops outs c) :
    (outs.flatMap ClientOut.ids = (issued (callsOf ops)).map Request.id ∧
      (outs.flatMap ClientOut.ids).Nodup ∧
      (c.pendingIds ++ (c.completedIds outs ++ c.failedIds outs)).Perm
        (outs.flatMap ClientOut.ids)) ∧
    (∀ bytes p, Response.decode bytes = some p → p.id ∈ c.completedIds outs ++ c.failedIds outs →
      c.onMessage bytes = c) ∧
    (∀ q ∈ issued (callsOf ops), c.conn.sendsOf q ≤ max 1 maxAttempts.toNat) ∧
    (c.retryDeadline = retryDeadline ∧ c.maxAttempts = maxAttempts ∧ c.Expires Sound b T.noted) ∧
    (c.pendingIds = [] → (outs.flatMap ClientOut.ids).length - (c.failedIds outs).length =
      (c.completedIds outs).length) ∧
    (T.Total → ∀ o π, c.Sound o → ∃ r, c.op b T.noted π o = .ok r) := by
  have hc : Lifecycle c (callsOf ops) outs := (Lifecycle.new conn retryDeadline maxAttempts).reach h
  obtain ⟨hdeadline, hmax⟩ := h.kept
  refine ⟨⟨hc.ids, ?_, ?_⟩, fun bytes p hp hdone => hc.onMessage_done hp hdone, ?_,
    ⟨hdeadline, hmax, expires hc⟩, fun hnone => ?_, fun hT o π hs => op_returns hT.noted π hs⟩
  · rw [hc.ids]
    exact issued_ids_nodup hc.count_lt
  · rw [hc.ids]
    exact hc.places
  · intro q hq
    have := hc.sends q hq
    rwa [hmax] at this
  · have hlen := hc.places.length_eq
    rw [← hc.ids, hnone, List.nil_append, List.length_append] at hlen
    omega

/-- A connection that delivers nothing. -/
def silent : Transport Unit where
  onDatagram c _ _ := .ok (c, [])
  onTick c _ := .ok (c, [])
  send c _ _ := .ok (c, [])
  recv c := (c, [])

theorem silent_total : silent.Total where
  onDatagram _ _ _ := ⟨_, rfl⟩
  onTick _ _ := ⟨_, rfl⟩
  send _ _ _ := ⟨_, rfl⟩

/-- A call that is sent twice and then given up. -/
theorem calls_resolve_sample : ∃ (ops : List ClientOp) (outs : List ClientOut)
    (c : RpcClient (Noted Unit)),
    Reach Sound .checked silent.noted (new (.fresh ()) 3 2) ops outs c ∧
    (outs.flatMap ClientOut.ids = (issued (callsOf ops)).map Request.id ∧
      (outs.flatMap ClientOut.ids).Nodup ∧
      (c.pendingIds ++ (c.completedIds outs ++ c.failedIds outs)).Perm
        (outs.flatMap ClientOut.ids)) ∧
    (∀ q ∈ issued (callsOf ops), c.conn.sendsOf q ≤ max 1 (2#32).toNat) := by
  have hrun : Reach Sound .checked silent.noted (new (.fresh ()) 3 2)
      [.call 0 1 [5], .tick 1, .tick 3, .tick 6, .pollFailed]
      [.issued 0 [], .sent [], .sent [], .sent [], .failed [0]] _ :=
    .step (π := .ascending) (.step (π := .ascending) (.step (π := .ascending)
      (.step (π := .ascending) (.step (π := .ascending) .start (by decide) rfl) (by decide) rfl)
      (by decide) rfl) (by decide) rfl) (by decide) rfl
  obtain ⟨hplaces, _, hsends, _⟩ := calls_resolve hrun
  exact ⟨_, _, _, hrun, hplaces, hsends⟩

/-- **No counter gets full** with fewer than `2 ^ 64` calls and a bound on the attempts below the
largest number. -/
theorem Reach.sound {P : RpcClient (Noted σ) → ClientOp → Prop} {conn : σ} {retryDeadline : U64}
    {maxAttempts : U32} {ops : List ClientOp} {outs : List ClientOut} {c : RpcClient (Noted σ)}
    (hmax : maxAttempts ≠ BitVec.allOnes 32) (hcalls : (callsOf ops).length < 2 ^ 64)
    (h : Reach P b T.noted (new (.fresh conn) retryDeadline maxAttempts) ops outs c) :
    Reach Sound b T.noted (new (.fresh conn) retryDeadline maxAttempts) ops outs c := by
  induction h with
  | start => exact .start
  | @step ops outs c c' o out π _ _ hop ih =>
    rw [Lifecycle.callsOf_append, List.length_append] at hcalls
    have hreach := ih (by omega)
    have hc : Lifecycle c (callsOf ops) outs :=
      (Lifecycle.new conn retryDeadline maxAttempts).reach hreach
    refine .step hreach ?_ hop
    cases o with
    | call now method payload =>
      intro hfull
      have hnext := hc.next
      rw [hfull, BitVec.toNat_allOnes] at hnext
      have hone : (callsOf [ClientOp.call now method payload]).length = 1 := rfl
      omega
    | tick now =>
      intro e he _ hfull
      have hattempts := (hc.pending e he).attempts
      rw [hfull, hreach.kept.2, BitVec.toNat_allOnes] at hattempts
      have hlt := maxAttempts.isLt
      have hne : maxAttempts.toNat ≠ 2 ^ 32 - 1 := fun heq =>
        hmax (BitVec.eq_of_toNat_eq (by rw [heq, BitVec.toNat_allOnes]))
      have hle : 2 ^ 32 - 1 ≤ max 1 maxAttempts.toNat := hattempts
      omega
    | datagram now d => trivial
    | pollCompleted => trivial
    | pollFailed => trivial

/-! ## A bound that is the largest number -/

/-- The request of the first call. -/
def firstRequest : Request := ⟨0, 0, []⟩

/-- A tick at every moment up to `k`. -/
def ticksTo (k : Nat) : List ClientOp :=
  (List.range k).map fun i => .tick (BitVec.ofNat 64 (i + 1))

theorem ticksTo_succ (k : Nat) :
    ticksTo (k + 1) = ticksTo k ++ [.tick (BitVec.ofNat 64 (k + 1))] := by
  rw [ticksTo, List.range_succ, List.map_append]
  rfl

theorem ticksTo_every : ∀ {k : Nat}, k < 2 ^ 64 → EveryTick 0 (ticksOf (ticksTo k)) ∧
    lastTick 0 (ticksOf (ticksTo k)) = BitVec.ofNat 64 k
  | 0, _ => ⟨trivial, rfl⟩
  | k + 1, hk => by
    obtain ⟨hev, hlast⟩ := ticksTo_every (k := k) (by omega)
    rw [ticksTo_succ, ticksOf_append, everyTick_append, lastTick_append, hlast]
    refine ⟨⟨hev, Or.inr ?_, trivial⟩, rfl⟩
    rw [BitVec.toNat_ofNat, BitVec.toNat_ofNat, Nat.mod_eq_of_lt hk, Nat.mod_eq_of_lt (by omega)]

/-- The call after `k` ticks, sent again at each of them. -/
def patient (k : Nat) : PendingCall := ⟨firstRequest, BitVec.ofNat 64 k, BitVec.ofNat 32 (k + 1)⟩

/-- One more tick. -/
theorem patient_tick {c : RpcClient (Noted Unit)} {k : Nat} (hk : k + 1 < 2 ^ 64)
    (hdeadline : c.retryDeadline = 1) (hmax : c.maxAttempts = BitVec.allOnes 32)
    (hmem : (0, patient k) ∈ c.pending.entries) :
    ∃ c' out, c.op .wrapping silent.noted .ascending (.tick (BitVec.ofNat 64 (k + 1))) =
        .ok (c', out) ∧ (0, patient (k + 1)) ∈ c'.pending.entries := by
  have hv : ∀ e ∈ c.pending.entries, ∃ v, c.verdict .wrapping (BitVec.ofNat 64 (k + 1)) e.2 = .ok v := by
    intro e _
    unfold verdict
    split
    · rw [Build.wrapping_add, ok_bind]
      split <;> exact ⟨_, rfl⟩
    · exact ⟨_, rfl⟩
  obtain ⟨⟨c', out⟩, h⟩ := onTick_returns silent_total.noted hv
  have hdue : c.retryDeadline ≤ satSub (BitVec.ofNat 64 (k + 1)) (patient k).sentAt := by
    show c.retryDeadline.toNat ≤ _
    rw [satSub_toNat, hdeadline]
    show 1 ≤ (BitVec.ofNat 64 (k + 1)).toNat - (BitVec.ofNat 64 k).toNat
    rw [BitVec.toNat_ofNat, BitVec.toNat_ofNat, Nat.mod_eq_of_lt hk, Nat.mod_eq_of_lt (by omega)]
    omega
  -- no number is above the largest
  have hnever : ¬ c.maxAttempts < (patient k).attempts + 1 := by
    intro hlt
    have hlt' : c.maxAttempts.toNat < ((patient k).attempts + 1).toNat := hlt
    rw [hmax, BitVec.toNat_allOnes] at hlt'
    have := ((patient k).attempts + 1).isLt
    omega
  have htouched : c.touched (BitVec.ofNat 64 (k + 1)) (patient k) = patient (k + 1) := by
    rw [touched, if_neg fun hg => hnever hg.2, if_pos ⟨hdue, hnever⟩]
    simp only [patient, BitVec.ofNat_add]
    rfl
  refine ⟨c', .sent out, bind_eq_ok.mpr ⟨_, h, rfl⟩, ?_⟩
  obtain ⟨_, _, _, _, _, _, rfl⟩ := onTick_eq h
  exact (mem_afterTick (.refl _)).mpr ⟨_, hmem, fun hg => hnever hg.2, by rw [htouched]⟩

theorem patient_run {c₁ : RpcClient (Noted Unit)} (hdeadline : c₁.retryDeadline = 1)
    (hmax : c₁.maxAttempts = BitVec.allOnes 32) (hmem : (0, patient 0) ∈ c₁.pending.entries) :
    ∀ {k : Nat}, k < 2 ^ 64 → ∃ outs c, Reach (fun _ _ => True) .wrapping silent.noted c₁
      (ticksTo k) outs c ∧ (0, patient k) ∈ c.pending.entries
  | 0, _ => ⟨_, _, .start, hmem⟩
  | k + 1, hk => by
    obtain ⟨outs, c, hrun, hcall⟩ := patient_run hdeadline hmax hmem (k := k) (by omega)
    obtain ⟨c', out, hop, hcall'⟩ := patient_tick hk (hrun.kept.1.trans hdeadline)
      (hrun.kept.2.trans hmax) hcall
    rw [ticksTo_succ]
    exact ⟨_, c', .step hrun trivial hop, hcall'⟩

/-- **With the largest number as the bound the attempts wrap around**, and the call is never given
up. -/
theorem call_outlives_budget : ¬ (new (Noted.fresh ()) 1 (BitVec.allOnes 32)).Expires
    (fun _ _ => True) .wrapping silent.noted := by
  intro h
  obtain ⟨c₁, hcall, hdeadline, hmax, hmem⟩ : ∃ c₁ : RpcClient (Noted Unit),
      (new (Noted.fresh ()) 1 (BitVec.allOnes 32)).op .wrapping silent.noted .ascending
        (.call 0 0 []) = .ok (c₁, .issued 0 []) ∧
      c₁.retryDeadline = 1 ∧ c₁.maxAttempts = BitVec.allOnes 32 ∧
      (0, patient 0) ∈ c₁.pending.entries :=
    ⟨_, rfl, rfl, rfl, List.mem_singleton.mpr rfl⟩
  obtain ⟨k, hk⟩ : ∃ k, k = 2 ^ 32 - 1 := ⟨_, rfl⟩
  obtain ⟨outs, c₂, hrun, hcall'⟩ := patient_run hdeadline hmax hmem (k := k) (by omega)
  obtain ⟨hev, hlast⟩ := ticksTo_every (k := k) (by omega)
  refine h trivial hcall hrun hev ?_ (List.mem_map_of_mem hcall')
  rw [hlast, BitVec.toNat_ofNat, Nat.mod_eq_of_lt (by omega)]
  show 0 + max 1 (BitVec.allOnes 32).toNat * max 1 (1#64).toNat ≤ k
  rw [BitVec.toNat_allOnes, hk]
  decide

end RpcClient

end Distrans

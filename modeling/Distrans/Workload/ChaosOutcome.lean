import Distrans.Rpc.Records
import Distrans.Workload.ChaosRule

/-!
# How a chaos run ends

* `schedule_paced` — each call is scheduled one to four ticks after the call before.
* `Tally` — what holds between the steps of the harness: the log is what the store gives from the
  empty one, the calls are counted once, and the retries of what is pending keep to their schedule.
* `chaos_outcome` — **a run ends with a summary that accounts for every call, or does not drain**;
  and the latter only if it is given fewer than `4 * calls + 1501` ticks.
-/

set_option autoImplicit false

namespace Distrans

open Machine

/-! ## Calls are counted once -/

namespace RpcClient

variable {σ : Type} {b : Build} {T : Transport σ} {now : Tick} {c c' : RpcClient σ}
  {out : List Datagram}

/-- The calls that are pending, or have failed and have not been polled. -/
def load (c : RpcClient σ) : Nat := c.pending.entries.length + c.failed.length

theorem length_insert_le (m : OrdMap U64 PendingCall) (id : U64) (call : PendingCall) :
    (m.insert id call).entries.length ≤ m.entries.length + 1 := by
  have h := m.sum_insert_le id call fun _ => 1
  simpa using h

theorem load_call {method : U8} {payload : List U8} {id : U64}
    (h : c.call b T now method payload = .ok (c', id, out)) : c'.load ≤ c.load + 1 := by
  obtain ⟨nextId, _, h⟩ := bind_eq_ok.mp h
  obtain ⟨⟨conn, _⟩, _, h⟩ := bind_eq_ok.mp h
  cases h
  have := length_insert_le c.pending c.nextId ⟨⟨c.nextId, method, payload⟩, now, 1⟩
  simp only [load]
  omega

theorem load_onMessage (c : RpcClient σ) (bytes : List U8) : (c.onMessage bytes).load ≤ c.load := by
  unfold onMessage
  split
  · exact le_refl _
  · split
    · exact le_refl _
    · exact Nat.add_le_add_right (List.length_filter_le _ _) _

theorem load_onDatagram {d : Datagram} (h : c.onDatagram T now d = .ok (c', out)) :
    c'.load ≤ c.load := by
  obtain ⟨conn₀, conn, bytes, _, _, rfl⟩ := onDatagram_inv h
  have hmessages : ∀ (messages : List (List U8)) (c : RpcClient σ),
      (messages.foldl onMessage c).load ≤ c.load := by
    intro messages
    induction messages with
    | nil => exact fun c => le_refl _
    | cons bytes messages ih => exact fun c => Nat.le_trans (ih _) (load_onMessage c bytes)
  exact hmessages _ _

theorem load_onTick {order : List (U64 × PendingCall)} (hp : order.Perm c.pending.entries)
    (h : c.onTick b T now order = .ok (c', out)) : c'.load = c.load := by
  obtain ⟨conn₀, conn, out₀, more, _, _, rfl⟩ := onTick_eq h
  have hplaces := Lifecycle.afterTick_places (c := { c with conn := Noted.fresh c.conn }) now hp
  have hlen := hplaces.length_eq
  rw [List.length_append, List.length_map, pendingIds, List.length_map] at hlen
  show (c.afterTick now order).entries.length + (c.failed ++ c.givenUp now order).length =
    c.pending.entries.length + c.failed.length
  have hafter : (c.afterTick now order).entries.length +
      (c.givenUp now order).length = c.pending.entries.length := hlen
  rw [List.length_append]
  omega

end RpcClient

end Distrans

namespace Distrans.Workload

open Machine RetryTimer

/-! ## The schedule -/

theorem below_lt {r r' : SplitMix64} {n m : Nat} (h : below r n = .ok (m, r')) : m < n := by
  unfold below at h
  split at h
  · cases h
  · cases h
    rename_i hn
    apply Nat.div_lt_of_lt_mul
    exact Nat.mul_lt_mul_of_pos_right (BitVec.isLt _) (Nat.pos_of_ne_zero hn)

variable {b : Build} {clients keySpace calls : Nat} {plan : List (U64 × Nat × Op)}

/-- The time of the next call. -/
theorem next_time {t t' step : U64} {wait : Nat} (hw : wait < 4)
    (hstep : b.add 1 (BitVec.ofNat 64 wait) = .ok step) (ht : b.add t step = .ok t')
    (hfits : t.toNat + 4 < 2 ^ 64) : t'.toNat = t.toNat + 1 + wait := by
  have hone : step.toNat = 1 + wait :=
    Build.add_ofNat_toNat hstep (by show 1 + wait < 2 ^ 64; omega)
  rw [Build.add_toNat ht (by omega), hone, Nat.add_assoc]

/-- What one call of the schedule is. -/
theorem schedule_cons {t : U64} {r : SplitMix64} {c : U64 × Nat × Op}
    (h : schedule b clients keySpace (calls + 1) t r = .ok (c :: plan)) :
    (t.toNat + 4 < 2 ^ 64 → t.toNat < c.1.toNat ∧ c.1.toNat ≤ t.toNat + 4) ∧ c.2.1 < clients ∧
      (∃ r₁ r₂, drawOp keySpace r₁ = .ok (c.2.2, r₂)) ∧
      ∃ r', schedule b clients keySpace calls c.1 r' = .ok plan := by
  obtain ⟨⟨wait, r₁⟩, hwait, h⟩ := bind_eq_ok.mp h
  obtain ⟨step, hstep, h⟩ := bind_eq_ok.mp h
  obtain ⟨t', ht, h⟩ := bind_eq_ok.mp h
  obtain ⟨⟨client, r₂⟩, hclient, h⟩ := bind_eq_ok.mp h
  obtain ⟨⟨op, r₃⟩, hop, h⟩ := bind_eq_ok.mp h
  obtain ⟨rest, hrest, h⟩ := bind_eq_ok.mp h
  cases h
  refine ⟨fun hfits => ?_, below_lt hclient, ⟨_, _, hop⟩, _, hrest⟩
  have hw := below_lt hwait
  have htime := next_time hw hstep ht hfits
  show t.toNat < t'.toNat ∧ t'.toNat ≤ t.toNat + 4
  omega

theorem schedule_length : ∀ {calls : Nat} {t : U64} {r : SplitMix64} {plan : List (U64 × Nat × Op)},
    schedule b clients keySpace calls t r = .ok plan → plan.length = calls
  | 0, _, _, _, h => by
    cases h
    rfl
  | calls + 1, t, r, plan, h => by
    obtain ⟨c, rest, rfl⟩ : ∃ c rest, plan = c :: rest := by
      obtain ⟨_, _, h⟩ := bind_eq_ok.mp h
      obtain ⟨_, _, h⟩ := bind_eq_ok.mp h
      obtain ⟨_, _, h⟩ := bind_eq_ok.mp h
      obtain ⟨_, _, h⟩ := bind_eq_ok.mp h
      obtain ⟨_, _, h⟩ := bind_eq_ok.mp h
      obtain ⟨_, _, h⟩ := bind_eq_ok.mp h
      cases h
      exact ⟨_, _, rfl⟩
    obtain ⟨_, _, _, r', hrest⟩ := schedule_cons h
    rw [List.length_cons, schedule_length hrest]

/-- **The schedule keeps its pace.** -/
theorem schedule_paced : ∀ {calls : Nat} {t : U64} {r : SplitMix64} {plan : List (U64 × Nat × Op)},
    schedule b clients keySpace calls t r = .ok plan → t.toNat + 4 * calls < 2 ^ 64 →
    plan.Pairwise (fun c c' => c.1 < c'.1) ∧
      ∀ c ∈ plan, t < c.1 ∧ c.1.toNat ≤ t.toNat + 4 * calls
  | 0, _, _, _, h, _ => by
    cases h
    exact ⟨.nil, fun _ hc => by cases hc⟩
  | calls + 1, t, r, [], h, _ => by
    cases schedule_length h
  | calls + 1, t, r, c :: rest, h, hfits => by
    obtain ⟨htime, _, _, r', hrest⟩ := schedule_cons h
    obtain ⟨hlt, hle⟩ := htime (by omega)
    obtain ⟨hsorted, hall⟩ := schedule_paced hrest (by omega)
    refine ⟨List.pairwise_cons.mpr ⟨fun c' hc' => (hall c' hc').1, hsorted⟩, fun c' hc' => ?_⟩
    rcases List.mem_cons.mp hc' with rfl | hc'
    · exact ⟨hlt, by omega⟩
    · obtain ⟨hlt', hle'⟩ := hall c' hc'
      exact ⟨lt_trans (show t < c.1 from hlt) hlt', by omega⟩

/-! ## What is logged -/

/-- The log is what its operations give one after another from the empty store. -/
def Logged (shared : Served) : Prop :=
  thread apply (shared.2.map Execution.op) .empty =
    (shared.2.map fun e => (e.ok, e.payload), shared.1)

theorem Logged.handler {shared : Served} (h : Logged shared) (method : U8) (payload : List U8) :
    Logged (kvHandler logExecution method payload shared).2 := by
  cases hdec : Op.decode method payload with
  | none =>
    simp only [kvHandler, hdec]
    exact h
  | some op =>
    rw [kvHandler_some hdec, Logged]
    show thread apply ((shared.2 ++ [_]).map Execution.op) .empty = ((shared.2 ++ [_]).map _, _)
    rw [List.map_append, List.map_singleton, thread_concat, h, List.map_append, List.map_singleton]
    rfl

/-- **The differential check accepts what is logged.** -/
theorem Logged.accepted {shared : Served} (h : Logged shared) :
    differential 0 .new shared.2 = .ok () := by
  rw [Agrees.differential _ .new, h]

/-! ## Retries -/

/-- The retries of what is pending keep to their schedules, of which none has begun after `last`;
the client has been ticked `now`, or just before if it is yet to be ticked. -/
structure Timely (last : Nat) (now : Tick) (due : Prop) (c : RpcClient Connection) : Prop where
  deadline : c.retryDeadline = 25
  attempts : c.maxAttempts = 60
  waiting : ∀ id ∈ c.pendingIds, ∃ t₀ t : Tick, t₀.toNat ≤ last ∧
    (now = t ∨ due ∧ now.toNat = t.toNat + 1) ∧ c.Waiting 25 60 id t₀ t

namespace Timely

variable {T : Transport Connection} {last : Nat} {now : Tick} {due due' : Prop}
  {c c' : RpcClient Connection} {out : List Datagram}

theorem fresh (conn : Connection) : Timely last now due (.new conn 25 60) where
  deadline := rfl
  attempts := rfl
  waiting id hid := by cases hid

/-- The next moment. -/
theorem clock {now' : Tick} (h : Timely last now False c) (hnow : now'.toNat = now.toNat + 1) :
    Timely last now' True c := by
  refine ⟨h.deadline, h.attempts, fun id hid => ?_⟩
  obtain ⟨t₀, t, hlast, ht, hw⟩ := h.waiting id hid
  obtain rfl : now = t := ht.resolve_right fun ht => ht.1
  exact ⟨t₀, now, hlast, Or.inr ⟨trivial, hnow⟩, hw⟩

theorem weaken (h : Timely last now due c) (hdue : due → due') : Timely last now due' c := by
  refine ⟨h.deadline, h.attempts, fun id hid => ?_⟩
  obtain ⟨t₀, t, hlast, ht, hw⟩ := h.waiting id hid
  exact ⟨t₀, t, hlast, ht.imp_right fun ht => ⟨hdue ht.1, ht.2⟩, hw⟩

/-- Fewer calls are pending. -/
theorem mono (h : Timely last now due c) (hdeadline : c'.retryDeadline = c.retryDeadline)
    (hmax : c'.maxAttempts = c.maxAttempts)
    (hpend : ∀ e ∈ c'.pending.entries, e ∈ c.pending.entries) : Timely last now due c' := by
  refine ⟨hdeadline.trans h.deadline, hmax.trans h.attempts, fun id hid => ?_⟩
  obtain ⟨e, he, rfl⟩ := List.mem_map.mp hid
  obtain ⟨t₀, t, hlast, ht, hw⟩ := h.waiting e.1 (List.mem_map_of_mem (hpend e he))
  exact ⟨t₀, t, hlast, ht, hw.mono hdeadline hmax fun _ => hpend _⟩

theorem onDatagram {d : Datagram} (h : Timely last now due c)
    (hr : c.onDatagram T now d = .ok (c', out)) : Timely last now due c' := by
  obtain ⟨conn₀, conn, bytes, _, _, rfl⟩ := RpcClient.onDatagram_inv hr
  have hmessages : ∀ (messages : List (List U8)) {c : RpcClient Connection}, Timely last now due c →
      Timely last now due (messages.foldl RpcClient.onMessage c) := by
    intro messages
    induction messages with
    | nil => exact fun h => h
    | cons bytes messages ih =>
      intro c h
      obtain ⟨hdeadline, hmax, hpend⟩ := c.onMessage_kept bytes
      exact ih (h.mono hdeadline hmax hpend)
  exact hmessages _ (h.mono rfl rfl fun _ he => he)

/-- **A call** keeps to a schedule that begins now. -/
theorem call {op : Op} {id : U64} (h : Timely last now due c) (hlast : now.toNat ≤ last)
    (hr : Workload.call b T c now op = .ok (c', id, out)) : Timely last now due c' := by
  obtain ⟨nextId, _, hr⟩ := bind_eq_ok.mp hr
  obtain ⟨⟨conn, _⟩, _, hr⟩ := bind_eq_ok.mp hr
  cases hr
  refine ⟨h.deadline, h.attempts, fun id hid => ?_⟩
  obtain ⟨e, he, rfl⟩ := List.mem_map.mp hid
  rcases OrdMap.mem_insert.mp he with rfl | ⟨he, hne⟩
  · refine ⟨now, now, hlast, Or.inl rfl, h.deadline, h.attempts, fun call hcall => ?_⟩
    rcases OrdMap.mem_insert.mp hcall with heq | ⟨_, hne⟩
    · obtain ⟨_, rfl⟩ := Prod.mk.inj heq
      exact OnTime.first (by decide) (by decide)
    · exact absurd rfl hne
  · obtain ⟨t₀, t, hlast', ht, hw⟩ := h.waiting e.1 (List.mem_map_of_mem he)
    refine ⟨t₀, t, hlast', ht, hw.mono rfl rfl fun call hcall => ?_⟩
    rcases OrdMap.mem_insert.mp hcall with heq | ⟨hcall, _⟩
    · exact absurd (congrArg Prod.fst heq) hne
    · exact hcall

/-- **A tick** is in time for all of them. -/
theorem onTick {order : List (U64 × PendingCall)} (h : Timely last now True c)
    (hp : order.Perm c.pending.entries) (hr : c.onTick b T now order = .ok (c', out)) :
    Timely last now False c' := by
  have hsound : c.Sound (.tick now) := by
    intro e he _ hall
    obtain ⟨t₀, t, _, _, hw⟩ := h.waiting e.1 (List.mem_map_of_mem he)
    have hle := (hw.onTime e.2 he).count_le
    rw [hall] at hle
    exact absurd hle (by decide)
  have hr' := hr
  obtain ⟨conn₀, conn, out₀, more, _, _, rfl⟩ := RpcClient.onTick_eq hr
  refine ⟨h.deadline, h.attempts, fun id hid => ?_⟩
  obtain ⟨e, he, rfl⟩ := List.mem_map.mp hid
  obtain ⟨e', he', _, rfl⟩ := (RpcClient.mem_afterTick hp).mp he
  obtain ⟨t₀, t, hlast, ht, hw⟩ := h.waiting e'.1 (List.mem_map_of_mem he')
  exact ⟨t₀, now, hlast, Or.inl rfl, hw.onTick hp hsound (ht.imp_right And.right) hr'⟩

/-- **In the end** nothing is pending. -/
theorem ends (h : Timely last now False c) (hnow : last + 1500 ≤ now.toNat) :
    c.pending.entries.length = 0 := by
  rw [List.length_eq_zero_iff, List.eq_nil_iff_forall_not_mem]
  intro e he
  obtain ⟨t₀, t, hlast, ht, hw⟩ := h.waiting e.1 (List.mem_map_of_mem he)
  obtain rfl : now = t := ht.resolve_right fun ht => ht.1
  have hlt := (hw.onTime e.2 he).lt
  have hbudget : max 1 (60 : U32).toNat * max 1 (25 : U64).toNat = 1500 := by decide
  rw [hbudget] at hlt
  omega

end Timely

/-! ## The invariant -/

theorem sum_map_set {α : Type} (f : α → Nat) (y : α) : ∀ {l : List α} {i : Nat} {x : α},
    l[i]? = some x → ((l.set i y).map f).sum + f x = (l.map f).sum + f y
  | [], _, _, h => by cases h
  | z :: l, 0, x, h => by
    cases h
    simp only [List.set_cons_zero, List.map_cons, List.sum_cons]
    omega
  | z :: l, i + 1, x, h => by
    have := sum_map_set f y (l := l) (i := i) h
    simp only [List.set_cons_succ, List.map_cons, List.sum_cons]
    omega

/-- The tick of the last call. -/
def ChaosConfig.last (config : ChaosConfig) : Nat := 4 * config.calls + 1

/-- **What holds between the steps of the harness**, when `k` clients have been ticked in this turn.
As long as ticks do not wrap around, no call is late, nor any retry. -/
structure Tally (config : ChaosConfig) (plan : List (U64 × Nat × Op)) (k : Nat) (h : Harness) :
    Prop where
  links : h.links.length = config.clients
  servers : h.servers.length = config.clients
  handlers : ∀ s ∈ h.servers, s.handler = kvHandler logExecution
  logged : Logged h.shared
  expected : h.expectedCompletions.length = h.fired
  fired : h.fired ≤ plan.length
  load : (h.links.map fun l => l.client.load).sum + h.callsFailed ≤ h.fired
  pace : config.last < 2 ^ 64 → ∀ c ∈ plan.drop h.fired, h.tick ≤ c.1
  timely : config.last < 2 ^ 64 → ∀ (i : Nat) (link : ClientLink), h.links[i]? = some link →
    Timely config.last h.tick (k ≤ i) link.client

namespace Tally

open Harness

variable {config : ChaosConfig} {k k' i : Nat} {h : Harness} {link link' : ClientLink}
  {server server' : Server} {shared' : Served}

theorem handlers_set (hT : Tally config plan k h) (hat : h.At i link server)
    (hhandler : server'.handler = server.handler) :
    ∀ s ∈ h.servers.set i server', s.handler = kvHandler logExecution := by
  intro s hs
  rcases List.mem_or_eq_of_mem_set hs with hs | rfl
  · exact hT.handlers s hs
  · exact hhandler.trans (hT.handlers _ (List.mem_of_getElem? hat.server))

theorem timely_set (hT : Tally config plan k h)
    (hlink : config.last < 2 ^ 64 → Timely config.last h.tick (k' ≤ i) link'.client)
    (hk : ∀ j, j ≠ i → k ≤ j → k' ≤ j) : config.last < 2 ^ 64 → ∀ (j : Nat) (l : ClientLink),
      (h.links.set i link')[j]? = some l → Timely config.last h.tick (k' ≤ j) l.client := by
  intro hlast j l hl
  rcases eq_or_ne j i with rfl | hij
  · have hlt := (List.getElem?_eq_some_iff.mp hl).1
    rw [List.getElem?_set_self (by rwa [List.length_set] at hlt)] at hl
    cases hl
    exact hlink hlast
  · rw [List.getElem?_set_ne hij.symm] at hl
    exact (hT.timely hlast j l hl).weaken (hk j hij)

/-- A step of one client or its server. -/
theorem put (hT : Tally config plan k h) (hat : h.At i link server)
    (hload : link'.client.load ≤ link.client.load) (hhandler : server'.handler = server.handler)
    (hlogged : Logged shared')
    (hlink : Timely config.last h.tick (k ≤ i) link.client →
      Timely config.last h.tick (k' ≤ i) link'.client)
    (hk : ∀ j, j ≠ i → k ≤ j → k' ≤ j) : Tally config plan k' (h.put i link' server' shared') where
  links := by rw [Harness.put, List.length_set, hT.links]
  servers := by rw [Harness.put, List.length_set, hT.servers]
  handlers := hT.handlers_set hat hhandler
  logged := hlogged
  expected := hT.expected
  fired := hT.fired
  load := by
    have hsum := sum_map_set (fun l : ClientLink => l.client.load) link' hat.link
    have hle := hT.load
    simp only [Harness.put] at hsum ⊢
    omega
  pace := hT.pace
  timely := hT.timely_set (fun hlast => hlink (hT.timely hlast i link hat.link)) hk

/-- A step that does not concern the client. -/
theorem same (hT : Tally config plan k h) (hat : h.At i link server)
    (hclient : link'.client = link.client) (hhandler : server'.handler = server.handler)
    (hlogged : Logged shared') : Tally config plan k (h.put i link' server' shared') :=
  hT.put hat (by rw [hclient]) hhandler hlogged (by rw [hclient]; exact id) fun _ _ => id

/-- When all have been ticked, none is yet to be ticked. -/
theorem ticked (hT : Tally config plan k h) (hk : config.clients ≤ k) : Tally config plan k' h := by
  refine { hT with timely := fun hlast i l hl => (hT.timely hlast i l hl).weaken fun hle => ?_ }
  have hlt := (List.getElem?_eq_some_iff.mp hl).1
  rw [hT.links] at hlt
  omega

/-- The next tick. -/
theorem clock {tick : U64} (hT : Tally config plan k h) (hk : config.clients ≤ k)
    (hplan : config.last < 2 ^ 64 → plan.Pairwise fun c c' => c.1 < c'.1)
    (hnext : ∀ c ∈ (plan.drop h.fired).head?, h.tick < c.1)
    (htick : tick.toNat = h.tick.toNat + 1) : Tally config plan 0 { h with tick } := by
  refine { hT with pace := fun hlast c hc => ?_, timely := fun hlast i link hl => ?_ }
  · show tick.toNat ≤ c.1.toNat
    rw [htick]
    have hsorted := (hplan hlast).sublist (List.drop_sublist h.fired plan)
    cases hd : plan.drop h.fired with
    | nil =>
      rw [hd] at hc
      cases hc
    | cons c₀ rest =>
      rw [hd] at hc hsorted hnext
      have hfirst : h.tick < c₀.1 := hnext c₀ rfl
      rcases List.mem_cons.mp hc with rfl | hc
      · exact hfirst
      · exact lt_trans hfirst ((List.pairwise_cons.mp hsorted).1 c hc)
  · have hlt := (List.getElem?_eq_some_iff.mp hl).1
    have hold : Timely config.last h.tick False link.client :=
      (hT.timely hlast i link hl).weaken fun hle => by
        rw [hT.links] at hlt
        omega
    exact (hold.clock htick).weaken fun _ => Nat.zero_le i

/-- A call. -/
theorem call {b : Build} {client : RpcClient Connection} {t : U64} {op : Op} {id : U64}
    {out : List Datagram} {c2s : Channel} (hT : Tally config plan 0 h) (hat : h.At i link server)
    (hplan : config.last < 2 ^ 64 → ∀ c ∈ plan, c.1.toNat ≤ config.last)
    (hdue : plan[h.fired]? = some (t, i, op))
    (hr : Workload.call b (Connection.transport b) link.client h.tick op = .ok (client, id, out)) :
    Tally config plan 0 { h.put i { link with client, c2s } server h.shared with
      expectedCompletions := h.expectedCompletions ++ [id], fired := h.fired + 1 } := by
  have hlt : h.fired < plan.length := (List.getElem?_eq_some_iff.mp hdue).1
  refine ⟨?_, ?_, hT.handlers_set hat rfl, hT.logged, ?_, hlt, ?_, fun hlast c hc => ?_, ?_⟩
  · rw [Harness.put, List.length_set, hT.links]
  · rw [Harness.put, List.length_set, hT.servers]
  · rw [List.length_append, hT.expected]
    rfl
  · have hsum := sum_map_set (fun l : ClientLink => l.client.load) { link with client, c2s } hat.link
    have hle := hT.load
    have hone := RpcClient.load_call hr
    simp only [Harness.put] at hsum ⊢
    omega
  · refine hT.pace hlast c ?_
    rw [← List.drop_drop] at hc
    exact List.mem_of_mem_drop hc
  · refine hT.timely_set (fun hlast => ?_) fun _ _ hle => hle
    have hmem : (t, i, op) ∈ plan.drop h.fired := by
      rw [List.drop_eq_getElem_cons hlt, (List.getElem?_eq_some_iff.mp hdue).2]
      exact List.mem_cons_self
    have hpace : h.tick.toNat ≤ t.toNat := hT.pace hlast _ hmem
    exact (hT.timely hlast i link hat.link).call
      (Nat.le_trans hpace (hplan hlast _ (List.mem_of_mem_drop hmem))) hr

/-- What has failed is counted. -/
theorem poll (hT : Tally config plan k h) (hat : h.At i link server) :
    Tally config plan k { h.put i { link with
      client := link.client.pollCompleted.1.pollFailed.1 } server h.shared with
      callsFailed := h.callsFailed + link.client.failed.length } := by
  refine ⟨?_, ?_, hT.handlers_set hat rfl, hT.logged, hT.expected, hT.fired, ?_, hT.pace, ?_⟩
  · rw [Harness.put, List.length_set, hT.links]
  · rw [Harness.put, List.length_set, hT.servers]
  · have hsum := sum_map_set (fun l : ClientLink => l.client.load)
      { link with client := link.client.pollCompleted.1.pollFailed.1 } hat.link
    have hle := hT.load
    have hload : link.client.load =
        link.client.pollCompleted.1.pollFailed.1.load + link.client.failed.length := rfl
    simp only [Harness.put] at hsum ⊢
    omega
  · exact hT.timely_set (fun hlast => (hT.timely hlast i link hat.link).mono rfl rfl fun _ => id)
      fun _ _ => id

/-- **The tally is kept** by every step. -/
theorem rule {b : Build} {orders : Nat → Nat → Shuffle}
    (hsorted : config.last < 2 ^ 64 → plan.Pairwise fun c c' => c.1 < c'.1)
    (hbound : config.last < 2 ^ 64 → ∀ c ∈ plan, c.1.toNat ≤ config.last) :
    Rule b config plan orders (fun (_ : Unit) => Tally config plan) (fun _ _ _ => True)
      (fun _ _ _ => True) where
  sized hT := ⟨hT.links, hT.servers⟩
  clock {_ h tick} hT hnext hlt hadd := by
    refine ⟨(), hT.clock (Nat.le_add_right _ _) hsorted hnext (Build.add_toNat hadd ?_)⟩
    have := config.maxTicks.isLt
    show h.tick.toNat + 1 < 2 ^ 64
    omega
  relink hT hat _ _ := ⟨(), hT.same hat rfl rfl hT.logged⟩
  switched hT := { hT with }
  call hT hat hdue _ hr _ := ⟨(), hT.call hat hbound hdue hr⟩
  arriveServer hT hat _ := ⟨hT.same hat rfl rfl hT.logged, fun _ _ => trivial⟩
  serve {_ h i link server d server' shared' out s2c} hT hat _ hr _ := by
    obtain ⟨hhandler, hran⟩ := RpcServer.onDatagram_ran hr
    refine ⟨(), hT.same hat rfl hhandler ?_, fun _ _ => trivial⟩
    rw [hT.handlers _ (List.mem_of_getElem? hat.server)] at hran
    exact hran.preserves (fun method payload _ _ hl => hl.handler method payload) hT.logged
  arriveClient hT hat _ := ⟨hT.same hat rfl rfl hT.logged, fun _ _ => trivial⟩
  hear hT hat _ hr _ := ⟨(), hT.put hat (RpcClient.load_onDatagram hr) rfl hT.logged
    (fun ht => ht.onDatagram hr) (fun _ _ => id), fun _ _ => trivial⟩
  clientTick {_ h i link server client out c2s} hT hat hr _ := by
    refine ⟨(), hT.put hat (Nat.le_of_eq (RpcClient.load_onTick (Shuffle.perm _ _) hr)) rfl
      hT.logged (fun ht => ?_) fun j hij hle => ?_⟩
    · exact ((ht.weaken fun _ => trivial).onTick (Shuffle.perm _ _) hr).weaken fun hf => hf.elim
    · omega
  serverTick {_ h i link server server' out s2c} hT hat hr _ := by
    obtain ⟨⟨conn, out'⟩, _, hr⟩ := bind_eq_ok.mp hr
    cases hr
    exact ⟨(), hT.same hat rfl rfl hT.logged⟩
  poll hT hat := ⟨(), (hT.poll hat).ticked (Nat.le_add_right _ _)⟩

end Tally

/-! ## The beginning and the end -/

variable {config : ChaosConfig} {orders : Nat → Nat → Shuffle} {h : Harness}

theorem launch_tally (h₀ : launch b config = .ok h) :
    Tally config plan (config.clients + config.clients) h ∧ h.tick = 0 ∧ h.fired = 0 := by
  obtain ⟨parts, hparts, h₀⟩ := bind_eq_ok.mp h₀
  obtain ⟨links, hlinks, h₀⟩ := bind_eq_ok.mp h₀
  cases h₀
  obtain ⟨hlen, hset⟩ := mapM_places hparts
  obtain ⟨hlen', hsyn⟩ := mapM_places hlinks
  rw [List.length_range] at hlen
  -- each client is fresh, and each server has the handler of the workload
  have hpart : ∀ (i : Nat) (p : ClientLink × Server × Datagram), parts[i]? = some p →
      (∃ conn, p.1.client = .new conn 25 60) ∧ p.2.1.handler = kvHandler logExecution := by
    intro i p hp
    obtain ⟨i, _, hi⟩ := hset i p hp
    obtain ⟨⟨conn, syn⟩, _, hi⟩ := bind_eq_ok.mp hi
    obtain ⟨serverConn, _, hi⟩ := bind_eq_ok.mp hi
    obtain ⟨seed, _, hi⟩ := bind_eq_ok.mp hi
    obtain ⟨⟨c2s, s2c⟩, _, hi⟩ := bind_eq_ok.mp hi
    cases hi
    exact ⟨⟨conn, rfl⟩, rfl⟩
  have hfresh : ∀ (i : Nat) (l : ClientLink), links[i]? = some l →
      ∃ conn, l.client = .new conn 25 60 := by
    intro i l hl
    obtain ⟨p, hp, hpl⟩ := hsyn i l hl
    obtain ⟨c2s, _, hpl⟩ := bind_eq_ok.mp hpl
    cases hpl
    exact (hpart i p hp).1
  refine ⟨⟨?_, ?_, ?_, rfl, rfl, Nat.zero_le _, ?_, fun _ _ _ => Nat.zero_le _,
    fun _ i l hl => ?_⟩, rfl, rfl⟩
  · rw [hlen', hlen]
  · rw [List.length_map, hlen]
  · intro s hs
    obtain ⟨p, hp, rfl⟩ := List.mem_map.mp hs
    obtain ⟨i, hi⟩ := List.mem_iff_getElem?.mp hp
    exact (hpart i p hi).2
  · have hzero : (links.map fun l => l.client.load).sum = 0 := by
      refine List.sum_eq_zero fun n hn => ?_
      obtain ⟨l, hl, rfl⟩ := List.mem_map.mp hn
      obtain ⟨i, hi⟩ := List.mem_iff_getElem?.mp hl
      obtain ⟨conn, hconn⟩ := hfresh i l hi
      rw [hconn]
      rfl
    rw [hzero]
    exact le_refl 0
  · obtain ⟨conn, hconn⟩ := hfresh i l hl
    rw [hconn]
    exact .fresh conn

/-- How a run can end. -/
inductive Outcome (config : ChaosConfig) : Except ChaosFailure ChaosSummary → Prop
  | done {executions completed failed : Nat} {ticksUsed : U64} : completed + failed = config.calls →
      Outcome config (.ok ⟨config.seed, executions, completed, failed, ticksUsed⟩)
  | late {fired : Nat} : fired ≤ config.calls →
      config.maxTicks.toNat < 4 * config.calls + 1501 →
      Outcome config (.error ⟨config.seed, didNotDrain config.maxTicks fired config.calls⟩)

theorem schedule_starts {r : SplitMix64}
    (h : schedule b clients keySpace calls 1 r = .ok plan) : ∀ c ∈ plan.head?, 0 < c.1 := by
  cases calls with
  | zero =>
    cases h
    rintro _ ⟨⟩
  | succ calls =>
    cases plan with
    | nil => cases schedule_length h
    | cons c rest =>
      rintro _ ⟨⟩
      obtain ⟨htime, _⟩ := schedule_cons h
      have hlt := (htime (by decide)).1
      exact lt_trans (by decide : (0 : U64) < 1) hlt

/-- What holds when the main loop has ended. -/
theorem mainLoop_tally {r : Except ChaosFailure Harness}
    (hr : mainLoop b config orders = .ok (plan, r)) : plan.length = config.calls ∧
      ∃ h, Tally config plan (config.clients + config.clients) h ∧ Rule.Ends b config plan h r ∧
        (∀ c ∈ (plan.drop h.fired).head?, h.tick < c.1) ∧
        (config.last < 2 ^ 64 → ∀ c ∈ plan, c.1.toNat ≤ config.last) := by
  obtain ⟨h₀, hlaunch, hr⟩ := bind_eq_ok.mp hr
  obtain ⟨plan', hplan, hr⟩ := bind_eq_ok.mp hr
  obtain ⟨r', hloop, hr⟩ := bind_eq_ok.mp hr
  cases hr
  obtain ⟨hT, htick, hfired⟩ : Tally config plan (config.clients + config.clients) h₀ ∧
      h₀.tick = 0 ∧ h₀.fired = 0 := launch_tally hlaunch
  have hpaced : config.last < 2 ^ 64 → plan.Pairwise (fun c c' => c.1 < c'.1) ∧
      ∀ c ∈ plan, c.1.toNat ≤ config.last := by
    intro hlast
    have hfits : (1 : U64).toNat + 4 * config.calls < 2 ^ 64 := by
      show 1 + 4 * config.calls < 2 ^ 64
      rw [ChaosConfig.last] at hlast
      omega
    obtain ⟨hsorted, hall⟩ := schedule_paced hplan hfits
    refine ⟨hsorted, fun c hc => ?_⟩
    have hle : c.1.toNat ≤ 1 + 4 * config.calls := (hall c hc).2
    rw [ChaosConfig.last]
    omega
  have hnext : ∀ c ∈ (plan.drop h₀.fired).head?, h₀.tick < c.1 := by
    rw [htick, hfired]
    exact schedule_starts hplan
  obtain ⟨_, h, hT', hends, _, hnext'⟩ := (Tally.rule (fun hl => (hpaced hl).1)
    fun hl => (hpaced hl).2).loop (g := ()) hT htick hnext hloop
  exact ⟨schedule_length hplan, h, hT', hends, hnext', fun hl => (hpaced hl).2⟩

/-- A run that is late has had too few ticks. -/
theorem Tally.late (hT : Tally config plan (config.clients + config.clients) h)
    (hnext : ∀ c ∈ (plan.drop h.fired).head?, h.tick < c.1)
    (hbound : config.last < 2 ^ 64 → ∀ c ∈ plan, c.1.toNat ≤ config.last)
    (hleft : ¬ h.drained plan) (hlate : config.maxTicks ≤ h.tick) :
    config.maxTicks.toNat < 4 * config.calls + 1501 := by
  by_contra henough
  have htick : config.last + 1500 ≤ h.tick.toNat := by
    have : config.maxTicks.toNat ≤ h.tick.toNat := hlate
    rw [ChaosConfig.last]
    omega
  have hlast : config.last < 2 ^ 64 := by
    have := h.tick.isLt
    omega
  apply hleft
  rw [Harness.drained, Bool.and_eq_true, beq_iff_eq, List.all_eq_true]
  constructor
  · -- the next call would be overdue
    refine Nat.le_antisymm hT.fired (not_lt.mp fun hlt => ?_)
    have hhead : plan[h.fired] ∈ (plan.drop h.fired).head? := by
      rw [List.head?_drop, List.getElem?_eq_getElem hlt]
      rfl
    have hsoon : h.tick.toNat < plan[h.fired].1.toNat := hnext _ hhead
    have := hbound hlast _ (List.getElem_mem hlt)
    omega
  · intro l hl
    obtain ⟨i, hi⟩ := List.mem_iff_getElem?.mp hl
    have hlt := (List.getElem?_eq_some_iff.mp hi).1
    rw [hT.links] at hlt
    have htimely : Timely config.last h.tick False l.client :=
      (hT.timely hlast i l hi).weaken fun hle => by omega
    rw [htimely.ends htick]
    rfl

/-- **The summary of a run that has drained.** -/
theorem Tally.summary {k : Nat} {r : Except ChaosFailure ChaosSummary} (hT : Tally config plan k h)
    (hlen : plan.length = config.calls) (hcalls : config.calls < 2 ^ 64) (hdrained : h.drained plan)
    (hr : h.conclude b config = .ok r) : ∃ completed, completed + h.callsFailed = config.calls ∧
      r = .ok ⟨config.seed, h.shared.2.length, completed, h.callsFailed, h.tick⟩ := by
  rw [Harness.drained, Bool.and_eq_true, beq_iff_eq] at hdrained
  have hall : h.expectedCompletions.length = config.calls := by
    rw [hT.expected, hdrained.1, hlen]
  have hfailed : h.callsFailed ≤ config.calls := by
    have := hT.load
    rw [hdrained.1, hlen] at this
    omega
  simp only [Harness.conclude, hT.logged.accepted] at hr
  obtain ⟨completed, hsub, hr⟩ := bind_eq_ok.mp hr
  cases hr
  refine ⟨completed.toNat, ?_, rfl⟩
  have hfits : (BitVec.ofNat 64 h.expectedCompletions.length).toNat = config.calls := by
    rw [hall, BitVec.toNat_ofNat, Nat.mod_eq_of_lt hcalls]
  have hfits' : (BitVec.ofNat 64 h.callsFailed).toNat = h.callsFailed := by
    rw [BitVec.toNat_ofNat, Nat.mod_eq_of_lt (by omega)]
  rw [Build.sub_toNat hsub (by rw [hfits, hfits']; exact hfailed), hfits, hfits']
  omega

/-- **A chaos run ends with a summary that accounts for every call, or does not drain**, whatever
the seed, the faults and the order in which the tables of calls are visited: it never reports an
execution that the reference store contradicts, and it drains if it is given `4 * calls + 1501`
ticks. -/
theorem chaos_outcome {r : Except ChaosFailure ChaosSummary} (hcalls : config.calls < 2 ^ 64)
    (h : runChaos b config orders = .ok r) : Outcome config r := by
  obtain ⟨⟨plan, r'⟩, hmain, h⟩ := bind_eq_ok.mp h
  obtain ⟨hlen, h₁, hT, hends, hnext, hbound⟩ := mainLoop_tally hmain
  cases hends with
  | late hleft hlate =>
    cases h
    exact .late (by rw [← hlen]; exact hT.fired) (hT.late hnext hbound hleft hlate)
  | drained hdrained =>
    obtain ⟨completed, hsum, rfl⟩ := hT.summary hlen hcalls hdrained h
    exact .done hsum

/-- Two clients and two calls; the network gets better at tick 3. -/
def shortChaos : ChaosConfig := { ChaosConfig.default with
  seed := 7
  clients := 2
  calls := 2
  maxTicks := 100
  initialProfile := lossy
  profileSwitches := [(3, clean)] }

theorem shortChaos_runs : runChaos .checked shortChaos (fun _ _ => .ascending) =
    .ok (.ok ⟨7, 2, 2, 0, 5⟩) := by decide +kernel

theorem chaos_outcome_sample : Outcome shortChaos (.ok ⟨7, 2, 2, 0, 5⟩) :=
  chaos_outcome (by decide) shortChaos_runs

end Distrans.Workload

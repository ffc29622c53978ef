import Distrans.Rpc.Client

/-!
# The client and the iteration order of its table

`on_tick` visits the pending calls in the iteration order of a `HashMap`, which is not fixed.  A
`Shuffle` is such an order; `RpcClient.play` runs a client with one for each step.

* `play_order` — **if every tick resends at most one call and gives up at most one, the order does
  not matter**;
* `order_shows` — it matters as soon as two calls are due at once.
-/

set_option autoImplicit false

namespace Distrans

open Machine

/-- An order in which the entries of the table may be visited. -/
structure Shuffle where
  order : List (U64 × PendingCall) → List (U64 × PendingCall)
  perm : ∀ entries, (order entries).Perm entries

def Shuffle.ascending : Shuffle := ⟨id, fun _ => .refl _⟩

def Shuffle.descending : Shuffle := ⟨List.reverse, fun l => l.reverse_perm⟩

/-- What is done with a client. -/
inductive ClientOp where
  | call (now : Tick) (method : U8) (payload : List U8)
  | datagram (now : Tick) (d : Datagram)
  | tick (now : Tick)
  | pollCompleted
  | pollFailed
  deriving DecidableEq, Repr

/-- What it gives back. -/
inductive ClientOut where
  | issued (id : U64) (out : List Datagram)
  | sent (out : List Datagram)
  | completed (answers : List (U64 × Response))
  | failed (ids : List U64)
  deriving DecidableEq, Repr

namespace RpcClient

variable {σ : Type}

def op (b : Build) (T : Transport σ) (π : Shuffle) (c : RpcClient σ) :
    ClientOp → Exec (RpcClient σ × ClientOut)
  | .call now method payload => do
    let (c, id, out) ← c.call b T now method payload
    .ok (c, .issued id out)
  | .datagram now d => do
    let (c, out) ← c.onDatagram T now d
    .ok (c, .sent out)
  | .tick now => do
    let (c, out) ← c.onTick b T now (π.order c.pending.entries)
    .ok (c, .sent out)
  | .pollCompleted => .ok (c.pollCompleted.1, .completed c.pollCompleted.2)
  | .pollFailed => .ok (c.pollFailed.1, .failed c.pollFailed.2)

/-- A run with an iteration order for each step, and all it gives back. -/
def play (b : Build) (T : Transport σ) : (Nat → Shuffle) → List ClientOp → RpcClient σ →
    Exec (RpcClient σ × List ClientOut)
  | _, [], c => .ok (c, [])
  | π, o :: ops, c => do
    let (c, out) ← c.op b T (π 0) o
    let (c, outs) ← play b T (fun n => π (n + 1)) ops c
    .ok (c, out :: outs)

/-- A tick at which at most one call is sent again and at most one is given up. -/
def Quiet (c : RpcClient σ) : ClientOp → Prop
  | .tick now => (c.resent now c.pending.entries).length ≤ 1 ∧
      (c.givenUp now c.pending.entries).length ≤ 1
  | _ => True

instance decidableQuiet (c : RpcClient σ) : ∀ o, Decidable (c.Quiet o)
  | .tick _ => inferInstanceAs (Decidable (_ ∧ _))
  | .call _ _ _ | .datagram _ _ | .pollCompleted | .pollFailed => inferInstanceAs (Decidable True)

/-- Is every step of the run quiet? -/
def quietRun (b : Build) (T : Transport σ) : (Nat → Shuffle) → List ClientOp → RpcClient σ → Bool
  | _, [], _ => true
  | π, o :: ops, c => decide (c.Quiet o) &&
    match c.op b T (π 0) o with
    | .ok (c, _) => quietRun b T (fun n => π (n + 1)) ops c
    | .error _ => true

variable {b : Build} {T : Transport σ} {c c' : RpcClient σ} {now : Tick}
  {order order' entries : List (U64 × PendingCall)} {out : List Datagram}

theorem length_le_one_perm {α : Type} {l l' : List α} (h : l.length ≤ 1) (hp : l.Perm l') : l = l' := by
  cases l with
  | nil => exact hp.nil_eq
  | cons a l =>
    obtain rfl : l = [] := List.eq_nil_of_length_eq_zero (by simpa using h)
    exact hp.singleton_eq

/-- Which entries the loop marks does not depend on the order. -/
theorem foldl_mark (hp : order.Perm order') (hkeys : (order.map Prod.fst).Nodup)
    (m : OrdMap U64 PendingCall) : order.foldl (c.mark now) m = order'.foldl (c.mark now) m := by
  apply hp.foldl_eq'
  intro x hx y hy z
  by_cases hxy : x = y
  · rw [hxy]
  · have hne : x.1 ≠ y.1 := fun h => hxy (List.inj_on_of_nodup_map hkeys hx hy h)
    unfold mark
    split
    · split
      · exact (z.insert_comm _ _ hne)
      · rfl
    · rfl

/-- **At a quiet tick the order does not matter.** -/
theorem onTick_order (hp : order.Perm c.pending.entries) (hp' : order'.Perm c.pending.entries)
    (hq : c.Quiet (.tick now)) (h : c.onTick b T now order = .ok (c', out)) :
    c.onTick b T now order' = .ok (c', out) := by
  obtain ⟨hres, hup⟩ := hq
  obtain ⟨⟨conn, out₀⟩, hc, h⟩ := bind_eq_ok.mp h
  obtain ⟨r, hloop, h⟩ := bind_eq_ok.mp h
  have hpp : order.Perm order' := hp.trans hp'.symm
  have hv : ∀ e ∈ order, ∃ v, ({ c with conn } : RpcClient σ).verdict b now e.2 = .ok v :=
    retryLoop_verdicts hloop
  have hv' : ∀ e ∈ order', ∃ v, ({ c with conn } : RpcClient σ).verdict b now e.2 = .ok v :=
    fun e he => hv e (hpp.mem_iff.mpr he)
  have hkeys : (order.map Prod.fst).Nodup :=
    (hp.map _).nodup_iff.mpr (c.pending.sorted.imp ne_of_lt)
  have hresent : ({ c with conn } : RpcClient σ).resent now order' =
      ({ c with conn } : RpcClient σ).resent now order :=
    (length_le_one_perm hres (((hp'.filter _).map _).symm)).symm.trans
      (length_le_one_perm hres (((hp.filter _).map _).symm))
  have hgiven : ({ c with conn } : RpcClient σ).givenUp now order' =
      ({ c with conn } : RpcClient σ).givenUp now order :=
    (length_le_one_perm hup (((hp'.filter _).map _).symm)).symm.trans
      (length_le_one_perm hup (((hp.filter _).map _).symm))
  have hsame : retryLoop b T now order' { c with conn } [] = .ok r := by
    rw [retryLoop_eq hv] at hloop
    rw [retryLoop_eq hv', ← hloop, hresent, hgiven, foldl_mark hpp hkeys]
  exact bind_eq_ok.mpr ⟨_, hc, bind_eq_ok.mpr ⟨_, hsame, h⟩⟩

/-- At a quiet step the order does not matter. -/
theorem op_order {o : ClientOp} {π : Shuffle} (π' : Shuffle) {r : RpcClient σ × ClientOut} (hq : c.Quiet o)
    (h : c.op b T π o = .ok r) : c.op b T π' o = .ok r := by
  cases o with
  | tick now =>
    obtain ⟨⟨c', out⟩, ht, h⟩ := bind_eq_ok.mp h
    exact bind_eq_ok.mpr ⟨_, onTick_order (π.perm _) (π'.perm _) hq ht, h⟩
  | _ => exact h

/-- **A quiet run gives the same back, whatever the order the table is visited in.** -/
theorem play_order : ∀ {ops : List ClientOp} {π : Nat → Shuffle} (π' : Nat → Shuffle)
    {c : RpcClient σ} {r : RpcClient σ × List ClientOut}, quietRun b T π ops c = true →
    play b T π ops c = .ok r → play b T π' ops c = .ok r
  | [], _, _, _, _, _, h => h
  | o :: ops, π, π', c, r, hq, h => by
    obtain ⟨⟨c₁, out⟩, ho, h⟩ := bind_eq_ok.mp h
    obtain ⟨r', hplay, h⟩ := bind_eq_ok.mp h
    rw [quietRun, Bool.and_eq_true, ho] at hq
    have ho' := op_order (π' 0) (of_decide_eq_true hq.1) ho
    have hplay' := play_order (fun n => π' (n + 1)) hq.2 hplay
    exact bind_eq_ok.mpr ⟨_, ho', bind_eq_ok.mpr ⟨_, hplay', h⟩⟩

end RpcClient

/-! ## Two calls that are due at once -/

/-- The configuration of the workload. -/
def transportConfig : Config where
  segmentSize := 128
  recvWindowCapacity := 8 * 128
  minRto := 2
  maxRto := 400
  maxRetries := 40
  fastRetransmitDupAcks := 3

/-- What a listening connection answers to a SYN. -/
def synack : Datagram :=
  encodeFrame 0 (FLAG_SYN ||| FLAG_ACK) (SegmentHeader.encode ⟨0, false, 1024, []⟩)

example : (do
    let s ← Connection.listen .checked transportConfig 0
    let (_, syn) ← Connection.connect .checked transportConfig 0
    let (_, out) ← s.onDatagram .checked 1 syn
    .ok out) = .ok [synack] := by decide +kernel

/-- A connection is made, two calls are issued, and both have waited too long at the next tick. -/
def twoCalls : List ClientOp :=
  [.datagram 2 synack, .call 3 0 [1], .call 4 0 [2], .tick 40]

/-- What the run gives back if the table is visited in the order `π`. -/
def twoCallsOut (π : Shuffle) : Exec (List ClientOut) := do
  let (conn, _) ← Connection.connect .checked transportConfig 0
  let (_, outs) ← (RpcClient.new conn 25 60).play .checked (Connection.transport .checked)
    (fun _ => π) twoCalls
  .ok outs

/-- **The order shows**: the same calls give other datagrams. -/
theorem order_shows : ∃ outs outs', twoCallsOut .ascending = .ok outs ∧
    twoCallsOut .descending = .ok outs' ∧ outs ≠ outs' := by
  have hne : twoCallsOut .ascending ≠ twoCallsOut .descending := by decide +kernel
  have hok : (twoCallsOut .ascending).isOk = true := by decide +kernel
  have hok' : (twoCallsOut .descending).isOk = true := by decide +kernel
  cases h : twoCallsOut .ascending with
  | error e => rw [h] at hok; cases hok
  | ok outs =>
    cases h' : twoCallsOut .descending with
    | error e => rw [h'] at hok'; cases hok'
    | ok outs' =>
      rw [h, h'] at hne
      exact ⟨outs, outs', rfl, rfl, fun heq => hne (congrArg _ heq)⟩

/-- The same calls, resent one after the other. -/
def oneByOne : List ClientOp :=
  [.datagram 2 synack, .call 3 0 [1], .call 4 0 [2], .tick 28, .tick 30]

theorem play_order_sample : ∃ (conn : Connection) (r : RpcClient Connection × List ClientOut),
    (RpcClient.new conn 25 60).play .checked (Connection.transport .checked)
      (fun _ => .descending) oneByOne = .ok r := by
  obtain ⟨⟨conn, syn⟩, hconn⟩ : ∃ r, Connection.connect .checked transportConfig 0 = .ok r :=
    ⟨_, rfl⟩
  have hrun : (RpcClient.new conn 25 60).quietRun .checked (Connection.transport .checked)
        (fun _ => .ascending) oneByOne = true ∧
      ((RpcClient.new conn 25 60).play .checked (Connection.transport .checked)
        (fun _ => .ascending) oneByOne).isOk = true := by
    cases hconn
    decide +kernel
  cases hplay : (RpcClient.new conn 25 60).play .checked (Connection.transport .checked)
      (fun _ => .ascending) oneByOne with
  | error e => rw [hplay] at hrun; cases hrun.2
  | ok r => exact ⟨conn, r, RpcClient.play_order (fun _ => .descending) hrun.1 hplay⟩

end Distrans

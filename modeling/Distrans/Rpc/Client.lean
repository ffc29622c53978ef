import Distrans.Lib.OrdMap
import Distrans.Rpc.Message
import Distrans.Rpc.Transport

/-!
# The RPC client

`crates/rpc/src/client.rs`: number the calls, resend those that have waited too long, give up on
those that have been sent too often, and hand back the first answer to each.

`pending` is a `HashMap`, whose iteration order is not fixed: `onTick` is given the order in which
this call visits the entries.

* `retryLoop_eq`, `onTick_eq` — what `on_tick` sends, fails and leaves pending.
-/

set_option autoImplicit false

namespace Distrans

open Machine

structure PendingCall where
  request : Request
  sentAt : Tick
  attempts : U32
  deriving DecidableEq, Repr

structure RpcClient (σ : Type) where
  conn : σ
  reader : FrameReader
  nextId : U64
  pending : OrdMap U64 PendingCall
  completed : List (U64 × Response)
  retryDeadline : U64
  maxAttempts : U32
  failed : List U64

/-- What `on_tick` makes of a pending call. -/
inductive Verdict where
  | wait
  | fail (call : PendingCall)
  | resend (call : PendingCall)

namespace RpcClient

variable {σ : Type}

def new (conn : σ) (retryDeadline : U64) (maxAttempts : U32) : RpcClient σ :=
  { conn, reader := .new, nextId := 0, pending := .empty, completed := [], retryDeadline,
    maxAttempts, failed := [] }

def call (b : Build) (T : Transport σ) (c : RpcClient σ) (now : Tick) (method : U8)
    (payload : List U8) : Exec (RpcClient σ × U64 × List Datagram) := do
  let id := c.nextId
  let nextId ← b.add c.nextId 1
  let request : Request := { id, method, payload }
  let (conn, out) ← T.send c.conn now (frame request.encode)
  .ok ({ c with
    conn, nextId
    pending := c.pending.insert id { request, sentAt := now, attempts := 1 } }, id, out)

/-- The loop body of `on_datagram`: one framed message. -/
def onMessage (c : RpcClient σ) (bytes : List U8) : RpcClient σ :=
  match Response.decode bytes with
  | none => c
  | some response =>
    match c.pending.get? response.id with
    -- already completed, or never ours
    | none => c
    | some _ => { c with
        pending := c.pending.erase response.id
        completed := c.completed ++ [(response.id, response)] }

def onDatagram (T : Transport σ) (c : RpcClient σ) (now : Tick) (datagram : Datagram) :
    Exec (RpcClient σ × List Datagram) := do
  let (conn, out) ← T.onDatagram c.conn now datagram
  let (conn, bytes) := T.recv conn
  let (messages, reader) := (c.reader.feed bytes).drainFrames
  .ok (messages.foldl onMessage { c with conn, reader }, out)

def verdict (b : Build) (c : RpcClient σ) (now : Tick) (call : PendingCall) : Exec Verdict :=
  if c.retryDeadline ≤ satSub now call.sentAt then do
    let attempts ← b.add call.attempts 1
    if c.maxAttempts < attempts then .ok (.fail { call with attempts })
    else .ok (.resend { call with attempts, sentAt := now })
  else .ok .wait

/-- The loop of `on_tick`, over the pending calls in the order of this iteration. -/
def retryLoop (b : Build) (T : Transport σ) (now : Tick) : List (U64 × PendingCall) →
    RpcClient σ → List U64 → Exec (RpcClient σ × List U64 × List Datagram)
  | [], c, toFail => .ok (c, toFail, [])
  | (id, call) :: order, c, toFail => do
    match ← c.verdict b now call with
    | .wait => retryLoop b T now order c toFail
    | .fail call =>
      retryLoop b T now order { c with pending := c.pending.insert id call } (toFail ++ [id])
    | .resend call => do
      let (conn, out) ← T.send c.conn now (frame call.request.encode)
      let (c, toFail, more) ←
        retryLoop b T now order { c with conn, pending := c.pending.insert id call } toFail
      .ok (c, toFail, out ++ more)

def onTick (b : Build) (T : Transport σ) (c : RpcClient σ) (now : Tick)
    (order : List (U64 × PendingCall)) : Exec (RpcClient σ × List Datagram) := do
  let (conn, out) ← T.onTick c.conn now
  let (c, toFail, more) ← retryLoop b T now order { c with conn } []
  .ok ({ c with pending := c.pending.eraseAll toFail, failed := c.failed ++ toFail }, out ++ more)

def pollCompleted (c : RpcClient σ) : RpcClient σ × List (U64 × Response) :=
  ({ c with completed := [] }, c.completed)

def pollFailed (c : RpcClient σ) : RpcClient σ × List U64 := ({ c with failed := [] }, c.failed)

/-! ## What the loop of `on_tick` does -/

/-- The calls that are sent again. -/
def Resends (c : RpcClient σ) (now : Tick) (call : PendingCall) : Prop :=
  c.retryDeadline ≤ satSub now call.sentAt ∧ ¬ c.maxAttempts < call.attempts + 1

/-- The calls that fail. -/
def GivesUp (c : RpcClient σ) (now : Tick) (call : PendingCall) : Prop :=
  c.retryDeadline ≤ satSub now call.sentAt ∧ c.maxAttempts < call.attempts + 1

instance decidableResends (c : RpcClient σ) (now : Tick) (call : PendingCall) :
    Decidable (c.Resends now call) := inferInstanceAs (Decidable (_ ∧ _))

instance decidableGivesUp (c : RpcClient σ) (now : Tick) (call : PendingCall) :
    Decidable (c.GivesUp now call) := inferInstanceAs (Decidable (_ ∧ _))

/-- One send after another. -/
def sendAll (T : Transport σ) (now : Tick) : List Request → σ → Exec (σ × List Datagram)
  | [], conn => .ok (conn, [])
  | r :: rs, conn => do
    let (conn, out) ← T.send conn now (frame r.encode)
    let (conn, more) ← sendAll T now rs conn
    .ok (conn, out ++ more)

/-- The call as the loop leaves it: counted, and with a new time if it is sent again. -/
def touched (c : RpcClient σ) (now : Tick) (call : PendingCall) : PendingCall :=
  if c.GivesUp now call then { call with attempts := call.attempts + 1 }
  else if c.Resends now call then { call with attempts := call.attempts + 1, sentAt := now }
  else call

variable {b : Build} {T : Transport σ} {c : RpcClient σ} {now : Tick} {call : PendingCall}
  {v : Verdict}

/-- **What becomes of a pending call.** -/
theorem verdict_cases (h : c.verdict b now call = .ok v) :
    (¬ c.Resends now call ∧ ¬ c.GivesUp now call ∧ v = .wait) ∨
    (c.GivesUp now call ∧ ¬ c.Resends now call ∧ v = .fail (c.touched now call)) ∨
    (c.Resends now call ∧ ¬ c.GivesUp now call ∧ v = .resend (c.touched now call)) := by
  unfold verdict at h
  split at h
  · rename_i hdue
    obtain ⟨attempts, ha, h⟩ := bind_eq_ok.mp h
    obtain rfl : attempts = call.attempts + 1 := Build.add_eq ha
    split at h
    · rename_i hmax
      cases h
      have hg : c.GivesUp now call := ⟨hdue, hmax⟩
      refine Or.inr (Or.inl ⟨hg, fun hr => hr.2 hmax, ?_⟩)
      rw [touched, if_pos hg]
    · rename_i hmax
      cases h
      have hr : c.Resends now call := ⟨hdue, hmax⟩
      have hg : ¬ c.GivesUp now call := fun hg => hmax hg.2
      refine Or.inr (Or.inr ⟨hr, hg, ?_⟩)
      rw [touched, if_neg hg, if_pos hr]
  · rename_i hdue
    cases h
    exact Or.inl ⟨fun hr => hdue hr.1, fun hg => hdue hg.1, rfl⟩

/-- The table after the loop has visited an entry. -/
def mark (c : RpcClient σ) (now : Tick) (m : OrdMap U64 PendingCall) (e : U64 × PendingCall) :
    OrdMap U64 PendingCall :=
  if c.Resends now e.2 ∨ c.GivesUp now e.2 then m.insert e.1 (c.touched now e.2) else m

/-- The requests the loop sends again, in its order. -/
def resent (c : RpcClient σ) (now : Tick) (order : List (U64 × PendingCall)) : List Request :=
  (order.filter fun e => c.Resends now e.2).map fun e => e.2.request

/-- The calls the loop gives up, in its order. -/
def givenUp (c : RpcClient σ) (now : Tick) (order : List (U64 × PendingCall)) : List U64 :=
  (order.filter fun e => c.GivesUp now e.2).map Prod.fst

theorem touched_request (c : RpcClient σ) (now : Tick) (call : PendingCall) :
    (c.touched now call).request = call.request := by
  unfold touched
  split
  · rfl
  · split <;> rfl

/-- A loop that returns has weighed every call. -/
theorem retryLoop_verdicts : ∀ {order : List (U64 × PendingCall)} {c : RpcClient σ}
    {toFail : List U64} {r : RpcClient σ × List U64 × List Datagram},
    retryLoop b T now order c toFail = .ok r → ∀ e ∈ order, ∃ v, c.verdict b now e.2 = .ok v
  | [], _, _, _, _, _, he => by cases he
  | (id, call) :: order, c, toFail, r, h, e, he => by
    obtain ⟨v, hv, h⟩ := bind_eq_ok.mp h
    rcases List.mem_cons.mp he with rfl | he
    · exact ⟨v, hv⟩
    · cases v with
      | wait => exact retryLoop_verdicts h e he
      | fail call' => exact retryLoop_verdicts h e he
      | resend call' =>
        obtain ⟨⟨conn, out⟩, _, h⟩ := bind_eq_ok.mp h
        obtain ⟨r', h', _⟩ := bind_eq_ok.mp h
        exact retryLoop_verdicts h' e he

/-- **The loop sends the overdue calls again, in the order it visits them, and gives up those that
have been sent too often.** -/
theorem retryLoop_eq : ∀ {order : List (U64 × PendingCall)} {c : RpcClient σ} {toFail : List U64},
    (∀ e ∈ order, ∃ v, c.verdict b now e.2 = .ok v) →
    retryLoop b T now order c toFail =
      (sendAll T now (c.resent now order) c.conn).map fun r =>
        ({ c with conn := r.1, pending := order.foldl (c.mark now) c.pending },
          toFail ++ c.givenUp now order, r.2)
  | [], c, toFail, _ => by
    simp [retryLoop, resent, givenUp, sendAll, Except.map]
  | (id, call) :: order, c, toFail, hv => by
    obtain ⟨v, hcall⟩ := hv (id, call) List.mem_cons_self
    have hrest : ∀ e ∈ order, ∃ v, c.verdict b now e.2 = .ok v :=
      fun e he => hv e (List.mem_cons_of_mem _ he)
    rw [retryLoop, hcall, ok_bind, List.foldl_cons]
    rcases verdict_cases hcall with ⟨hr, hg, rfl⟩ | ⟨hg, hr, rfl⟩ | ⟨hr, hg, rfl⟩
    · have hmark : c.mark now c.pending (id, call) = c.pending := if_neg (by tauto)
      have hres : c.resent now ((id, call) :: order) = c.resent now order := by
        simp [resent, hr]
      have hup : c.givenUp now ((id, call) :: order) = c.givenUp now order := by
        simp [givenUp, hg]
      rw [hmark, hres, hup]
      exact retryLoop_eq hrest
    · have hmark : c.mark now c.pending (id, call) = c.pending.insert id (c.touched now call) :=
        if_pos (Or.inr hg)
      have hres : c.resent now ((id, call) :: order) = c.resent now order := by
        simp [resent, hr]
      have hup : c.givenUp now ((id, call) :: order) = id :: c.givenUp now order := by
        simp [givenUp, hg]
      rw [hmark, hres, hup, List.append_cons toFail id (c.givenUp now order)]
      exact retryLoop_eq (c := { c with pending := c.pending.insert id (c.touched now call) }) hrest
    · have hmark : c.mark now c.pending (id, call) = c.pending.insert id (c.touched now call) :=
        if_pos (Or.inl hr)
      have hres : c.resent now ((id, call) :: order) = call.request :: c.resent now order := by
        simp [resent, hr]
      have hup : c.givenUp now ((id, call) :: order) = c.givenUp now order := by
        simp [givenUp, hg]
      rw [hmark, hres, hup, sendAll]
      dsimp only
      rw [touched_request]
      cases hsend : T.send c.conn now (frame call.request.encode) with
      | error e => rfl
      | ok r =>
        obtain ⟨conn, out⟩ := r
        show (retryLoop b T now order
            { c with conn, pending := c.pending.insert id (c.touched now call) } toFail >>= _) = _
        rw [retryLoop_eq (c := { c with
          conn, pending := c.pending.insert id (c.touched now call) }) hrest]
        show (Except.map _ (sendAll T now (c.resent now order) conn) >>= _) =
          Except.map _ (sendAll T now (c.resent now order) conn >>= _)
        cases sendAll T now (c.resent now order) conn <;> rfl

/-- The table after the loop: the old entries, each as the loop leaves it. -/
theorem mem_foldl_mark {e : U64 × PendingCall} : ∀ {order : List (U64 × PendingCall)}
    {m : OrdMap U64 PendingCall}, (order.map Prod.fst).Nodup →
    (e ∈ (order.foldl (c.mark now) m).entries ↔
      (e ∈ m.entries ∧ ∀ e' ∈ order, e'.1 = e.1 → ¬ (c.Resends now e'.2 ∨ c.GivesUp now e'.2)) ∨
      ∃ e' ∈ order, (c.Resends now e'.2 ∨ c.GivesUp now e'.2) ∧ e = (e'.1, c.touched now e'.2))
  | [], _, _ => by simp
  | e' :: order, m, hkeys => by
    rw [List.map_cons, List.nodup_cons] at hkeys
    have hother : ∀ e'' ∈ order, e''.1 ≠ e'.1 := fun e'' he h =>
      hkeys.1 (h ▸ List.mem_map_of_mem he)
    rw [List.foldl_cons, mem_foldl_mark hkeys.2]
    unfold mark
    split
    · rename_i hmark
      rw [OrdMap.mem_insert]
      constructor
      · rintro (⟨rfl | ⟨hm, hne⟩, hrest⟩ | ⟨e'', he, h⟩)
        · exact Or.inr ⟨e', List.mem_cons_self, hmark, rfl⟩
        · exact Or.inl ⟨hm, List.forall_mem_cons.mpr ⟨fun h => absurd h.symm hne, hrest⟩⟩
        · exact Or.inr ⟨e'', List.mem_cons_of_mem _ he, h⟩
      · rintro (⟨hm, hrest⟩ | ⟨e'', he, h, rfl⟩)
        · obtain ⟨hhead, hrest⟩ := List.forall_mem_cons.mp hrest
          exact Or.inl ⟨Or.inr ⟨hm, fun h => hhead h.symm hmark⟩, hrest⟩
        · rcases List.mem_cons.mp he with rfl | he
          · exact Or.inl ⟨Or.inl rfl, fun e₂ he₂ h₂ => absurd h₂ (hother e₂ he₂)⟩
          · exact Or.inr ⟨e'', he, h, rfl⟩
    · rename_i hmark
      constructor
      · rintro (⟨hm, hrest⟩ | ⟨e'', he, h⟩)
        · exact Or.inl ⟨hm, List.forall_mem_cons.mpr ⟨fun _ => hmark, hrest⟩⟩
        · exact Or.inr ⟨e'', List.mem_cons_of_mem _ he, h⟩
      · rintro (⟨hm, hrest⟩ | ⟨e'', he, h, rfl⟩)
        · exact Or.inl ⟨hm, (List.forall_mem_cons.mp hrest).2⟩
        · rcases List.mem_cons.mp he with rfl | he
          · exact absurd h hmark
          · exact Or.inr ⟨e'', he, h, rfl⟩

theorem mem_givenUp {order : List (U64 × PendingCall)} {id : U64}
    (hp : order.Perm c.pending.entries) :
    id ∈ c.givenUp now order ↔ ∃ e ∈ c.pending.entries, c.GivesUp now e.2 ∧ e.1 = id := by
  simp only [givenUp, List.mem_map, List.mem_filter, hp.mem_iff, decide_eq_true_eq, and_assoc]

theorem mem_resent {order : List (U64 × PendingCall)} {q : Request}
    (hp : order.Perm c.pending.entries) :
    q ∈ c.resent now order ↔ ∃ e ∈ c.pending.entries, c.Resends now e.2 ∧ e.2.request = q := by
  simp only [resent, List.mem_map, List.mem_filter, hp.mem_iff, decide_eq_true_eq, and_assoc]

/-- The table after a tick. -/
def afterTick (c : RpcClient σ) (now : Tick) (order : List (U64 × PendingCall)) :
    OrdMap U64 PendingCall :=
  (order.foldl (c.mark now) c.pending).eraseAll (c.givenUp now order)

/-- **What is pending after a tick**: the old calls that have not been given up. -/
theorem mem_afterTick {order : List (U64 × PendingCall)} {e : U64 × PendingCall}
    (hp : order.Perm c.pending.entries) : e ∈ (c.afterTick now order).entries ↔
    ∃ e' ∈ c.pending.entries, ¬ c.GivesUp now e'.2 ∧ e = (e'.1, c.touched now e'.2) := by
  have hkeys : (order.map Prod.fst).Nodup :=
    (hp.map _).nodup_iff.mpr (c.pending.sorted.imp ne_of_lt)
  have hup : ∀ e' ∈ c.pending.entries, e'.1 ∈ c.givenUp now order ↔ c.GivesUp now e'.2 := by
    intro e' he'
    rw [mem_givenUp hp]
    constructor
    · rintro ⟨e'', he'', hg, hkey⟩
      have hval := OrdMap.mem_unique_key he'' he' hkey
      rw [← hval]
      exact hg
    · intro h
      exact ⟨e', he', h, rfl⟩
  have huntouched : ∀ e' : U64 × PendingCall, ¬ (c.Resends now e'.2 ∨ c.GivesUp now e'.2) →
      c.touched now e'.2 = e'.2 := by
    intro e' h
    rw [not_or] at h
    rw [touched, if_neg h.2, if_neg h.1]
  rw [afterTick, OrdMap.entries_eraseAll, List.mem_filter, mem_foldl_mark hkeys,
    decide_eq_true_eq]
  constructor
  · rintro ⟨⟨hm, hrest⟩ | ⟨e', he', _, rfl⟩, hkey⟩
    · rw [hup e hm] at hkey
      refine ⟨e, hm, hkey, ?_⟩
      rw [huntouched e (hrest e (hp.mem_iff.mpr hm) rfl)]
    · rw [hp.mem_iff] at he'
      exact ⟨e', he', (hup e' he').not.mp hkey, rfl⟩
  · rintro ⟨e', he', hg, rfl⟩
    refine ⟨?_, (hup e' he').not.mpr hg⟩
    by_cases hmark : c.Resends now e'.2 ∨ c.GivesUp now e'.2
    · exact Or.inr ⟨e', hp.mem_iff.mpr he', hmark, rfl⟩
    · rw [huntouched e' hmark]
      refine Or.inl ⟨he', fun e'' he'' hkey => ?_⟩
      have hval := OrdMap.mem_unique_key (hp.mem_iff.mp he'') he' hkey
      rw [hval]
      exact hmark

/-- **What a tick does**: requests that are pending are sent again or given up. -/
theorem onTick_eq {c' : RpcClient σ} {order : List (U64 × PendingCall)} {out : List Datagram}
    (h : c.onTick b T now order = .ok (c', out)) :
    ∃ conn₀ conn out₀ more, T.onTick c.conn now = .ok (conn₀, out₀) ∧
      sendAll T now (c.resent now order) conn₀ = .ok (conn, more) ∧
      c' = { c with
        conn
        pending := c.afterTick now order
        failed := c.failed ++ c.givenUp now order } := by
  obtain ⟨⟨conn₀, out₀⟩, hc, h⟩ := bind_eq_ok.mp h
  obtain ⟨r, hloop, h⟩ := bind_eq_ok.mp h
  rw [retryLoop_eq (retryLoop_verdicts hloop)] at hloop
  cases hsend : sendAll T now (({ c with conn := conn₀ } : RpcClient σ).resent now order) conn₀ with
  | error e =>
    rw [hsend] at hloop
    cases hloop
  | ok s =>
    rw [hsend] at hloop
    cases hloop
    cases h
    exact ⟨conn₀, s.1, out₀, s.2, hc, hsend, rfl⟩

theorem sendAll_tapped {c c' : Tapped σ} {out : List Datagram} : ∀ {rs : List Request},
    sendAll T.tapped now rs c = .ok (c', out) → c'.received = c.received ∧
      c'.sent = c.sent ++ rs.flatMap fun q => frame q.encode := by
  intro rs
  induction rs generalizing c out with
  | nil =>
    intro h
    cases h
    exact ⟨rfl, by rw [List.flatMap_nil, List.append_nil]⟩
  | cons r rs ih =>
    intro h
    obtain ⟨⟨c₁, out₁⟩, h₁, h⟩ := bind_eq_ok.mp h
    obtain ⟨⟨c₂, out₂⟩, h₂, h⟩ := bind_eq_ok.mp h
    cases h
    obtain ⟨hrecv, hsent⟩ := Transport.tapped_send h₁
    obtain ⟨hrecv', hsent'⟩ := ih h₂
    exact ⟨hrecv'.trans hrecv, by rw [hsent', hsent, List.flatMap_cons, List.append_assoc]⟩

/-- What a delivery does. -/
theorem onDatagram_inv {c' : RpcClient σ} {d : Datagram} {out : List Datagram}
    (h : c.onDatagram T now d = .ok (c', out)) :
    ∃ conn₀ conn bytes, T.onDatagram c.conn now d = .ok (conn₀, out) ∧ T.recv conn₀ = (conn, bytes) ∧
      c' = (FrameReader.frames.split (c.reader.buf ++ bytes)).1.foldl onMessage
        { c with conn, reader := ⟨(FrameReader.frames.split (c.reader.buf ++ bytes)).2⟩ } := by
  obtain ⟨⟨conn₀, _⟩, hc, h⟩ := bind_eq_ok.mp h
  cases h
  exact ⟨conn₀, _, _, hc, rfl, rfl⟩

/-- A delivery that brings in one whole response, to a call that is pending. -/
theorem onDatagram_one {d : Datagram} {conn₀ : σ} {out : List Datagram} {p : Response}
    {call : PendingCall}
    (hd : T.onDatagram c.conn now d = .ok (conn₀, out))
    (hs : FrameReader.frames.split (c.reader.buf ++ (T.recv conn₀).2) = ([p.encode], []))
    (hp : c.pending.get? p.id = some call) :
    c.onDatagram T now d = .ok ({ c with
      conn := (T.recv conn₀).1
      reader := ⟨[]⟩
      pending := c.pending.erase p.id
      completed := c.completed ++ [(p.id, p)] }, out) := by
  rw [onDatagram, hd, ok_bind]
  simp only [FrameReader.drainFrames, FrameReader.feed, hs, List.foldl_cons, List.foldl_nil]
  rw [onMessage, Response.decode_encode]
  simp only [hp]

end RpcClient

end Distrans

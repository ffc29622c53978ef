import Distrans.Rpc.Calls
import Distrans.Rpc.Replay

/-!
# What becomes of a call

A call is pending until it is answered or given up, and its answer or its failure waits until it is
polled.  `Lifecycle` is what holds between the steps of a client over any connection: every id that
`call` has returned is in one of these places, and its request has been handed to `send` as often
as its attempts have been counted.

* `Lifecycle.op`, `Lifecycle.reach` — kept by every step, and every run, in which no counter is full
  (`Sound`).
* `Lifecycle.onMessage_done` — a response to a call that is done changes nothing.
-/

set_option autoImplicit false

namespace Distrans

open Machine

/-- A connection and the payloads handed to its `send`, one by one. -/
structure Noted (σ : Type) where
  conn : σ
  sends : List (List U8)

def Noted.fresh {σ : Type} (conn : σ) : Noted σ := ⟨conn, []⟩

/-- How often the request has been handed to `send`. -/
def Noted.sendsOf {σ : Type} (c : Noted σ) (q : Request) : Nat := c.sends.count (frame q.encode)

/-- A transport that notes what it is handed. -/
def Transport.noted {σ : Type} (T : Transport σ) : Transport (Noted σ) where
  onDatagram c now d := do
    let (conn, out) ← T.onDatagram c.conn now d
    .ok ({ c with conn }, out)
  onTick c now := do
    let (conn, out) ← T.onTick c.conn now
    .ok ({ c with conn }, out)
  send c now bytes := do
    let (conn, out) ← T.send c.conn now bytes
    .ok ({ conn, sends := c.sends ++ [bytes] }, out)
  recv c :=
    let (conn, bytes) := T.recv c.conn
    ({ c with conn }, bytes)

theorem Transport.Total.noted {σ : Type} {T : Transport σ} (h : T.Total) : T.noted.Total where
  onDatagram c now d := bind_returns (h.onDatagram c.conn now d) fun _ _ => ⟨_, rfl⟩
  onTick c now := bind_returns (h.onTick c.conn now) fun _ _ => ⟨_, rfl⟩
  send c now bytes := bind_returns (h.send c.conn now bytes) fun _ _ => ⟨_, rfl⟩

/-! ## Runs -/

/-- The calls that are made. -/
def callsOf (ops : List ClientOp) : List (U8 × List U8) :=
  ops.filterMap fun o =>
    match o with
    | .call _ method payload => some (method, payload)
    | _ => none

/-- The times of the ticks. -/
def ticksOf (ops : List ClientOp) : List Tick :=
  ops.filterMap fun o =>
    match o with
    | .tick now => some now
    | _ => none

/-- No tick is left out, from `t` on. -/
def EveryTick (t : Tick) : List Tick → Prop
  | [] => True
  | now :: ticks => (now = t ∨ now.toNat = t.toNat + 1) ∧ EveryTick now ticks

/-- The ids that `call` has returned. -/
def ClientOut.ids : ClientOut → List U64
  | .issued id _ => [id]
  | _ => []

/-- The answers that `poll_completed` has returned. -/
def ClientOut.answers : ClientOut → List (U64 × Response)
  | .completed answers => answers
  | _ => []

/-- The ids that `poll_failed` has returned. -/
def ClientOut.failures : ClientOut → List U64
  | .failed ids => ids
  | _ => []

/-- The time of the last tick. -/
def lastTick (t : Tick) : List Tick → Tick
  | [] => t
  | now :: ticks => lastTick now ticks

theorem everyTick_append {xs ys : List Tick} : ∀ {t : Tick},
    EveryTick t (xs ++ ys) ↔ EveryTick t xs ∧ EveryTick (lastTick t xs) ys := by
  induction xs with
  | nil => simp [EveryTick, lastTick]
  | cons now xs ih => simp [EveryTick, lastTick, ih, and_assoc]

theorem lastTick_append {xs ys : List Tick} : ∀ {t : Tick},
    lastTick t (xs ++ ys) = lastTick (lastTick t xs) ys := by
  induction xs with
  | nil => simp [lastTick]
  | cons now xs ih => simp [lastTick, ih]

namespace RpcClient

variable {σ : Type}

/-- Runs all of whose steps meet the condition `P`, with what is done and what it gives back. -/
inductive Reach (P : RpcClient σ → ClientOp → Prop) (b : Build) (T : Transport σ) (c₀ : RpcClient σ) :
    List ClientOp → List ClientOut → RpcClient σ → Prop
  | start : Reach P b T c₀ [] [] c₀
  | step {ops : List ClientOp} {outs : List ClientOut} {c c' : RpcClient σ} {o : ClientOp}
      {out : ClientOut} {π : Shuffle} : Reach P b T c₀ ops outs c → P c o →
      c.op b T π o = .ok (c', out) → Reach P b T c₀ (ops ++ [o]) (outs ++ [out]) c'

/-- No counter is full: the next id, when a call is made, and the attempts of what is overdue, at
a tick. -/
def Sound (c : RpcClient σ) : ClientOp → Prop
  | .call _ _ _ => c.nextId ≠ BitVec.allOnes 64
  | .tick now => ∀ e ∈ c.pending.entries,
      c.retryDeadline ≤ satSub now e.2.sentAt → e.2.attempts ≠ BitVec.allOnes 32
  | _ => True

instance decidableSound (c : RpcClient σ) : ∀ o, Decidable (c.Sound o)
  | .call _ _ _ => inferInstanceAs (Decidable (_ ≠ _))
  | .tick now => inferInstanceAs (Decidable (∀ e ∈ c.pending.entries,
      c.retryDeadline ≤ satSub now e.2.sentAt → e.2.attempts ≠ BitVec.allOnes 32))
  | .datagram _ _ | .pollCompleted | .pollFailed => inferInstanceAs (Decidable True)

def pendingIds (c : RpcClient σ) : List U64 := c.pending.entries.map Prod.fst

/-- The ids of the calls that have been answered, handed back or not. -/
def completedIds (c : RpcClient σ) (outs : List ClientOut) : List U64 :=
  (outs.flatMap ClientOut.answers ++ c.completed).map Prod.fst

def failedIds (c : RpcClient σ) (outs : List ClientOut) : List U64 :=
  outs.flatMap ClientOut.failures ++ c.failed

theorem completedIds_concat {c : RpcClient σ} {outs : List ClientOut} {o : ClientOut}
    (h : o.answers = []) : c.completedIds (outs ++ [o]) = c.completedIds outs := by
  simp [completedIds, h]

theorem failedIds_concat {c : RpcClient σ} {outs : List ClientOut} {o : ClientOut}
    (h : o.failures = []) : c.failedIds (outs ++ [o]) = c.failedIds outs := by
  simp [failedIds, h]

/-- What has become of an overdue call that is sent again: it is counted. -/
theorem attempts_touched {c : RpcClient σ} {now : Tick} {call : PendingCall} (hr : c.Resends now call)
    (hs : call.attempts ≠ BitVec.allOnes 32) :
    (c.touched now call).attempts.toNat = call.attempts.toNat + 1 ∧
      call.attempts.toNat + 1 ≤ c.maxAttempts.toNat := by
  have hone : (call.attempts + 1).toNat = call.attempts.toNat + 1 := by
    have hlt := call.attempts.isLt
    have hne : call.attempts.toNat ≠ 2 ^ 32 - 1 := fun heq =>
      hs (BitVec.eq_of_toNat_eq (by rw [heq, BitVec.toNat_allOnes]))
    rw [BitVec.toNat_add]
    exact Nat.mod_eq_of_lt (by show call.attempts.toNat + 1 < 2 ^ 32; omega)
  have hg : ¬ c.GivesUp now call := fun hg => hr.2 hg.2
  have hle : (call.attempts + 1).toNat ≤ c.maxAttempts.toNat := not_lt.mp hr.2
  rw [touched, if_neg hg, if_pos hr]
  exact ⟨hone, by rw [← hone]; exact hle⟩

end RpcClient

/-! ## The invariant -/

theorem frame_encode_injective : Function.Injective fun q : Request => frame q.encode := by
  intro q q' h
  have hbytes : q.encode = q'.encode := by
    have := congrArg (List.drop 4) h
    simpa only [frame, List.drop_left' (toLe_length 4 _)] using this
  have := congrArg Request.decode hbytes
  rw [Request.decode_encode, Request.decode_encode] at this
  exact Option.some.inj this

theorem issued_ids_nodup {calls : List (U8 × List U8)} (hlen : calls.length < 2 ^ 64) :
    ((issued calls).map Request.id).Nodup := by
  have hids : (issued calls).map Request.id = (List.range calls.length).map (BitVec.ofNat 64) := by
    apply List.ext_getElem
    · simp [issued]
    · intro i h₁ h₂
      simp [issued]
  rw [hids]
  apply List.Nodup.map_on _ List.nodup_range
  intro i hi j hj hij
  have := congrArg BitVec.toNat hij
  rw [List.mem_range] at hi hj
  rwa [BitVec.toNat_ofNat, BitVec.toNat_ofNat, Nat.mod_eq_of_lt (by omega),
    Nat.mod_eq_of_lt (by omega)] at this

/-- A pending call: its request is one of those issued, and it has been sent no more often than it
has been counted. -/
structure Tried {σ : Type} (conn : Noted σ) (calls : List (U8 × List U8)) (max : Nat) (id : U64)
    (call : PendingCall) : Prop where
  id : call.request.id = id
  known : call.request ∈ issued calls
  pos : 1 ≤ call.attempts.toNat
  attempts : call.attempts.toNat ≤ max
  sends : conn.sendsOf call.request ≤ call.attempts.toNat

/-- **Every call is in one place, and has been sent no more often than it may be.** -/
structure Lifecycle {σ : Type} (c : RpcClient (Noted σ)) (calls : List (U8 × List U8))
    (outs : List ClientOut) : Prop where
  next : c.nextId.toNat = calls.length
  ids : outs.flatMap ClientOut.ids = (issued calls).map Request.id
  places : (c.pendingIds ++ (c.completedIds outs ++ c.failedIds outs)).Perm
    ((issued calls).map Request.id)
  pending : ∀ e ∈ c.pending.entries, Tried c.conn calls (max 1 c.maxAttempts.toNat) e.1 e.2
  sends : ∀ q ∈ issued calls, c.conn.sendsOf q ≤ max 1 c.maxAttempts.toNat
  known : ∀ bytes ∈ c.conn.sends, ∃ q ∈ issued calls, bytes = frame q.encode

namespace Lifecycle

variable {σ : Type} {b : Build} {T : Transport σ} {now : Tick} {c c' : RpcClient (Noted σ)}
  {calls : List (U8 × List U8)} {outs : List ClientOut} {out : List Datagram}

theorem new (conn : σ) (retryDeadline : U64) (maxAttempts : U32) :
    Lifecycle (RpcClient.new (Noted.fresh conn) retryDeadline maxAttempts) [] [] where
  next := rfl
  ids := rfl
  places := .refl _
  pending := fun e he => by cases he
  sends := fun q hq => by cases hq
  known := fun bytes h => by cases h

theorem count_lt (hc : Lifecycle c calls outs) : calls.length < 2 ^ 64 := by
  rw [← hc.next]
  exact c.nextId.isLt

theorem nodup (hc : Lifecycle c calls outs) :
    (c.pendingIds ++ (c.completedIds outs ++ c.failedIds outs)).Nodup :=
  hc.places.nodup_iff.mpr (issued_ids_nodup hc.count_lt)

theorem nextId_fresh (hc : Lifecycle c calls outs) :
    c.nextId ∉ (issued calls).map Request.id := by
  intro hmem
  obtain ⟨q, hq, hqid⟩ := List.mem_map.mp hmem
  have := id_lt_of_issued hc.count_lt hq
  rw [hqid, hc.next] at this
  exact Nat.lt_irrefl _ this

/-- A request that has not been issued has not been sent. -/
theorem sendsOf_eq_zero (hc : Lifecycle c calls outs) {q : Request} (h : q ∉ issued calls) :
    c.conn.sendsOf q = 0 := by
  apply List.count_eq_zero.mpr
  intro hmem
  obtain ⟨q', hq', heq⟩ := hc.known _ hmem
  rw [frame_encode_injective heq] at h
  exact h hq'

theorem noted_send {c c' : Noted σ} {bytes : List U8} (h : T.noted.send c now bytes = .ok (c', out)) :
    c'.sends = c.sends ++ [bytes] := by
  obtain ⟨⟨conn, _⟩, _, h⟩ := bind_eq_ok.mp h
  cases h
  rfl

theorem noted_onTick {c c' : Noted σ} (h : T.noted.onTick c now = .ok (c', out)) :
    c'.sends = c.sends := by
  obtain ⟨⟨conn, _⟩, _, h⟩ := bind_eq_ok.mp h
  cases h
  rfl

theorem noted_onDatagram {c c' : Noted σ} {d : Datagram}
    (h : T.noted.onDatagram c now d = .ok (c', out)) : c'.sends = c.sends := by
  obtain ⟨⟨conn, _⟩, _, h⟩ := bind_eq_ok.mp h
  cases h
  rfl

theorem noted_sendAll : ∀ {rs : List Request} {c c' : Noted σ} {out : List Datagram},
    RpcClient.sendAll T.noted now rs c = .ok (c', out) →
    c'.sends = c.sends ++ rs.map fun q => frame q.encode
  | [], _, _, _, h => by
    cases h
    rw [List.map_nil, List.append_nil]
  | r :: rs, c, c', out, h => by
    obtain ⟨⟨c₁, out₁⟩, h₁, h⟩ := bind_eq_ok.mp h
    obtain ⟨⟨c₂, out₂⟩, h₂, h⟩ := bind_eq_ok.mp h
    cases h
    rw [noted_sendAll h₂, noted_send h₁, List.map_cons, List.append_assoc, List.singleton_append]

/-- A request that has not been issued is sent: once, and the others as often as before. -/
theorem sent_once (hc : Lifecycle c calls outs) {conn : Noted σ} {q : Request}
    (hsends : conn.sends = c.conn.sends ++ [frame q.encode]) (hnew : q ∉ issued calls) :
    conn.sendsOf q = 1 ∧ ∀ q' ∈ issued calls, conn.sendsOf q' = c.conn.sendsOf q' := by
  constructor
  · have hzero := hc.sendsOf_eq_zero hnew
    rw [Noted.sendsOf] at hzero ⊢
    rw [hsends, List.count_append, List.count_singleton_self, hzero]
  · intro q' hq'
    have hne : frame q.encode ≠ frame q'.encode := by
      intro heq
      rw [frame_encode_injective heq] at hnew
      exact hnew hq'
    rw [Noted.sendsOf, hsends, List.count_append, List.count_singleton, if_neg (by simpa using hne)]
    rfl

/-- **A new call** is sent once. -/
theorem call {method : U8} {payload : List U8} {id : U64} (hc : Lifecycle c calls outs)
    (hs : c.nextId ≠ BitVec.allOnes 64)
    (h : c.call b T.noted now method payload = .ok (c', id, out)) :
    Lifecycle c' (calls ++ [(method, payload)]) (outs ++ [.issued id out]) := by
  obtain ⟨nextId, hadd, h⟩ := bind_eq_ok.mp h
  obtain ⟨⟨conn, _⟩, hsend, h⟩ := bind_eq_ok.mp h
  cases h
  have hsends : conn.sends = c.conn.sends ++ [frame (Request.encode ⟨c.nextId, method, payload⟩)] :=
    noted_send hsend
  have hnext : nextId.toNat = calls.length + 1 := by
    have hlt := c.nextId.isLt
    have hne : c.nextId.toNat ≠ 2 ^ 64 - 1 := fun heq =>
      hs (BitVec.eq_of_toNat_eq (by rw [heq, BitVec.toNat_allOnes]))
    rw [Build.add_exact hadd (Or.inr (by show c.nextId.toNat + 1 < 2 ^ 64; omega)), hc.next]
    rfl
  have hid : c.nextId = BitVec.ofNat 64 calls.length := by
    rw [← hc.next, BitVec.ofNat_toNat, BitVec.setWidth_eq]
  have hissued : issued (calls ++ [(method, payload)]) =
      issued calls ++ [⟨c.nextId, method, payload⟩] := by rw [issued_concat, hid]
  have hfresh := hc.nextId_fresh
  have hnew : ∀ v, (c.nextId, v) ∉ c.pending.entries := by
    intro v hv
    apply hfresh
    rw [← hc.places.mem_iff]
    exact List.mem_append_left _ (List.mem_map_of_mem hv)
  obtain ⟨hone, hold⟩ := hc.sent_once hsends fun hq => hfresh (List.mem_map_of_mem hq)
  refine ⟨?_, ?_, ?_, ?_, ?_, ?_⟩
  · rw [List.length_append]
    exact hnext
  · rw [List.flatMap_append, hc.ids, hissued, List.map_append]
    rfl
  · rw [hissued, List.map_append, List.map_singleton]
    have hpend : ((c.pending.insert c.nextId
        ⟨⟨c.nextId, method, payload⟩, now, 1⟩).entries.map Prod.fst).Perm
        (c.nextId :: c.pendingIds) := (OrdMap.entries_insert_perm hnew).map _
    rw [RpcClient.completedIds_concat rfl, RpcClient.failedIds_concat rfl]
    exact ((hpend.append_right _).trans (hc.places.cons _)).trans (List.perm_append_singleton _ _).symm
  · intro e he
    rcases OrdMap.mem_insert.mp he with rfl | ⟨he, _⟩
    · refine ⟨rfl, ?_, Nat.le_refl _, Nat.le_max_left _ _, Nat.le_of_eq hone⟩
      rw [hissued]
      exact List.mem_append_right _ (List.mem_singleton.mpr rfl)
    · have ht := hc.pending e he
      refine ⟨ht.id, ?_, ht.pos, ht.attempts, ?_⟩
      · rw [hissued]
        exact List.mem_append_left _ ht.known
      · rw [hold _ ht.known]
        exact ht.sends
  · intro q hq
    show conn.sendsOf q ≤ max 1 c.maxAttempts.toNat
    rw [hissued, List.mem_append, List.mem_singleton] at hq
    rcases hq with hq | rfl
    · rw [hold q hq]
      exact hc.sends q hq
    · rw [hone]
      exact Nat.le_max_left _ _
  · intro bytes hb
    have hb' : bytes ∈ conn.sends := hb
    rw [hsends, List.mem_append, List.mem_singleton] at hb'
    rw [hissued]
    rcases hb' with hb' | rfl
    · obtain ⟨q, hq, heq⟩ := hc.known bytes hb'
      exact ⟨q, List.mem_append_left _ hq, heq⟩
    · exact ⟨_, List.mem_append_right _ (List.mem_singleton.mpr rfl), rfl⟩

/-- What is given back beside ids, answers and failures does not count. -/
theorem give (hc : Lifecycle c calls outs) {o : ClientOut} (hids : o.ids = [])
    (hans : o.answers = []) (hfail : o.failures = []) : Lifecycle c calls (outs ++ [o]) := by
  refine { hc with ids := ?_, places := ?_ }
  · rw [List.flatMap_append, hc.ids]
    simp [hids]
  · rw [RpcClient.completedIds_concat hans, RpcClient.failedIds_concat hfail]
    exact hc.places

/-- Another connection, to which as much has been handed. -/
theorem conn (hc : Lifecycle c calls outs) {conn : Noted σ} (reader : FrameReader)
    (h : conn.sends = c.conn.sends) : Lifecycle { c with conn, reader } calls outs := by
  have hsends : ∀ q, conn.sendsOf q = c.conn.sendsOf q := by
    intro q
    rw [Noted.sendsOf, Noted.sendsOf, h]
  refine ⟨hc.next, hc.ids, hc.places, ?_, ?_, ?_⟩
  · intro e he
    have ht := hc.pending e he
    exact ⟨ht.id, ht.known, ht.pos, ht.attempts, by rw [hsends]; exact ht.sends⟩
  · intro q hq
    show conn.sendsOf q ≤ _
    rw [hsends]
    exact hc.sends q hq
  · intro bytes hb
    exact hc.known bytes (h ▸ hb)

/-- **A response to a call that is done changes nothing.** -/
theorem onMessage_done (hc : Lifecycle c calls outs) {bytes : List U8} {p : Response}
    (hp : Response.decode bytes = some p) (hdone : p.id ∈ c.completedIds outs ++ c.failedIds outs) :
    c.onMessage bytes = c := by
  have hnone : c.pending.get? p.id = none := by
    rw [OrdMap.get?_eq_none]
    intro v hv
    exact List.disjoint_of_nodup_append hc.nodup (List.mem_map_of_mem hv) hdone
  simp only [RpcClient.onMessage, hp, hnone]

/-- **One message** may complete a call. -/
theorem onMessage (hc : Lifecycle c calls outs) (bytes : List U8) :
    Lifecycle (c.onMessage bytes) calls outs := by
  unfold RpcClient.onMessage
  split
  · exact hc
  · rename_i p hp
    split
    · exact hc
    · rename_i call hcall
      have hmem : (p.id, call) ∈ c.pending.entries := OrdMap.get?_eq_some.mp hcall
      refine { hc with places := ?_, pending := ?_ }
      · have hpend : c.pendingIds.Perm (p.id :: (c.pending.erase p.id).entries.map Prod.fst) :=
          (OrdMap.entries_erase_perm hmem).map _
        have hcomp : RpcClient.completedIds { c with
            pending := c.pending.erase p.id
            completed := c.completed ++ [(p.id, p)] } outs = c.completedIds outs ++ [p.id] := by
          simp [RpcClient.completedIds]
        rw [hcomp]
        show ((c.pending.erase p.id).entries.map Prod.fst ++
          (c.completedIds outs ++ [p.id] ++ c.failedIds outs)).Perm _
        refine List.Perm.trans ?_ ((hpend.append_right _).symm.trans hc.places)
        rw [List.append_assoc, List.singleton_append, ← List.append_assoc]
        refine List.perm_middle.trans ?_
        rw [List.append_assoc]
        exact .refl _
      · intro e he
        exact hc.pending e (OrdMap.mem_erase.mp he).1

/-- **A delivery.** -/
theorem onDatagram {d : Datagram} (hc : Lifecycle c calls outs)
    (h : c.onDatagram T.noted now d = .ok (c', out)) :
    Lifecycle c' calls (outs ++ [.sent out]) := by
  obtain ⟨conn₀, conn, bytes, hd, hgot, rfl⟩ := RpcClient.onDatagram_inv h
  have hsends : conn.sends = c.conn.sends := by
    rw [← noted_onDatagram hd]
    cases hgot
    rfl
  have hmessages : ∀ (messages : List (List U8)) {c : RpcClient (Noted σ)}, Lifecycle c calls outs →
      Lifecycle (messages.foldl RpcClient.onMessage c) calls outs := by
    intro messages
    induction messages with
    | nil => exact id
    | cons bytes messages ih => exact fun hc => ih (hc.onMessage bytes)
  exact (hmessages _ (hc.conn _ hsends)).give rfl rfl rfl

theorem afterTick_places (now : Tick) {order : List (U64 × PendingCall)}
    (hp : order.Perm c.pending.entries) :
    ((c.afterTick now order).entries.map Prod.fst ++ c.givenUp now order).Perm c.pendingIds := by
  have hkeys : (order.map Prod.fst).Nodup :=
    (hp.map _).nodup_iff.mpr (c.pending.sorted.imp ne_of_lt)
  have hdisj : List.Disjoint ((c.afterTick now order).entries.map Prod.fst)
      (c.givenUp now order) := by
    intro id hid hup
    obtain ⟨e, he, rfl⟩ := List.mem_map.mp hid
    obtain ⟨e₁, he₁, hg₁, rfl⟩ := (RpcClient.mem_afterTick hp).mp he
    obtain ⟨e₂, he₂, hg₂, hkey⟩ := (RpcClient.mem_givenUp hp).mp hup
    have hval := OrdMap.mem_unique_key he₂ he₁ hkey
    exact hg₁ (hval ▸ hg₂)
  have hnodup : ((c.afterTick now order).entries.map Prod.fst ++ c.givenUp now order).Nodup :=
    List.Nodup.append ((c.afterTick now order).sorted.imp ne_of_lt)
      (hkeys.sublist (List.filter_sublist.map _)) hdisj
  refine (List.perm_ext_iff_of_nodup hnodup (c.pending.sorted.imp ne_of_lt)).mpr fun id => ?_
  rw [List.mem_append, RpcClient.mem_givenUp hp]
  constructor
  · rintro (hid | ⟨e, he, _, rfl⟩)
    · obtain ⟨e, he, rfl⟩ := List.mem_map.mp hid
      obtain ⟨e', he', _, rfl⟩ := (RpcClient.mem_afterTick hp).mp he
      exact List.mem_map.mpr ⟨e', he', rfl⟩
    · exact List.mem_map_of_mem he
  · intro hid
    obtain ⟨e, he, rfl⟩ := List.mem_map.mp hid
    by_cases hg : c.GivesUp now e.2
    · exact Or.inr ⟨e, he, hg, rfl⟩
    · exact Or.inl (List.mem_map.mpr ⟨_, (RpcClient.mem_afterTick hp).mpr ⟨e, he, hg, rfl⟩, rfl⟩)

/-- A tick sends no request twice. -/
theorem resent_nodup (now : Tick) {order : List (U64 × PendingCall)}
    (hc : Lifecycle c calls outs) (hp : order.Perm c.pending.entries) : (c.resent now order).Nodup := by
  have hkeys : (order.map Prod.fst).Nodup :=
    (hp.map _).nodup_iff.mpr (c.pending.sorted.imp ne_of_lt)
  have hids : (order.map fun e => e.2.request).map Request.id = order.map Prod.fst := by
    rw [List.map_map]
    exact List.map_congr_left fun e he => (hc.pending e (hp.mem_iff.mp he)).id
  rw [← hids] at hkeys
  exact (List.Nodup.of_map _ hkeys).sublist (List.filter_sublist.map _)

/-- The request of a pending call is sent again by a tick just if it is overdue. -/
theorem count_resent {order : List (U64 × PendingCall)} (hc : Lifecycle c calls outs)
    (hp : order.Perm c.pending.entries) {e : U64 × PendingCall} (he : e ∈ c.pending.entries) :
    (c.resent now order).count e.2.request = if c.Resends now e.2 then 1 else 0 := by
  split
  · rename_i hr
    exact List.count_eq_one_of_mem (hc.resent_nodup now hp)
      ((RpcClient.mem_resent hp).mpr ⟨e, he, hr, rfl⟩)
  · rename_i hr
    refine List.count_eq_zero.mpr fun hmem => ?_
    obtain ⟨e', he', hr', hreq⟩ := (RpcClient.mem_resent hp).mp hmem
    have hkey : e'.1 = e.1 := by rw [← (hc.pending e' he').id, ← (hc.pending e he).id, hreq]
    exact hr (OrdMap.mem_unique_key he' he hkey ▸ hr')

/-- A call that a tick leaves pending. -/
theorem touched_tried {conn : Noted σ} {e : U64 × PendingCall} (hc : Lifecycle c calls outs)
    (he : e ∈ c.pending.entries) (hs : c.Sound (.tick now)) (hg : ¬ c.GivesUp now e.2)
    (hcount : conn.sendsOf e.2.request = c.conn.sendsOf e.2.request +
      if c.Resends now e.2 then 1 else 0) :
    Tried conn calls (max 1 c.maxAttempts.toNat) e.1 (c.touched now e.2) := by
  have htried := hc.pending e he
  by_cases hr : c.Resends now e.2
  · obtain ⟨hattempts, hmax⟩ := RpcClient.attempts_touched hr (hs e he hr.1)
    refine ⟨?_, ?_, ?_, ?_, ?_⟩
    · rw [RpcClient.touched_request]
      exact htried.id
    · rw [RpcClient.touched_request]
      exact htried.known
    · rw [hattempts]
      exact Nat.le_add_left _ _
    · rw [hattempts]
      exact Nat.le_trans hmax (Nat.le_max_right _ _)
    · rw [RpcClient.touched_request, hattempts, hcount, if_pos hr]
      exact Nat.add_le_add_right htried.sends 1
  · rw [RpcClient.touched, if_neg hg, if_neg hr]
    refine ⟨htried.id, htried.known, htried.pos, htried.attempts, ?_⟩
    rw [hcount, if_neg hr]
    exact htried.sends

/-- **A tick** sends the overdue calls once more, or gives them up. -/
theorem onTick {order : List (U64 × PendingCall)} (hc : Lifecycle c calls outs)
    (hp : order.Perm c.pending.entries) (hs : c.Sound (.tick now))
    (h : c.onTick b T.noted now order = .ok (c', out)) :
    Lifecycle c' calls (outs ++ [.sent out]) := by
  obtain ⟨conn₀, conn, out₀, more, ht, hsend, rfl⟩ := RpcClient.onTick_eq h
  have hcount : ∀ q, conn.sendsOf q = c.conn.sendsOf q + (c.resent now order).count q := by
    intro q
    rw [Noted.sendsOf, Noted.sendsOf, noted_sendAll hsend, noted_onTick ht, List.count_append,
      List.count_map_of_injective _ _ frame_encode_injective]
  suffices hall : Lifecycle { c with
      conn
      pending := c.afterTick now order
      failed := c.failed ++ c.givenUp now order } calls outs from hall.give rfl rfl rfl
  refine ⟨hc.next, hc.ids, ?_, ?_, ?_, ?_⟩
  · refine List.Perm.trans ?_ hc.places
    show ((c.afterTick now order).entries.map Prod.fst ++
      (c.completedIds outs ++ (outs.flatMap ClientOut.failures ++ (c.failed ++
        c.givenUp now order)))).Perm _
    refine List.Perm.trans ?_ ((afterTick_places now hp).append_right _)
    rw [← List.append_assoc (outs.flatMap _), ← List.append_assoc (c.completedIds outs),
      List.append_assoc ((c.afterTick now order).entries.map Prod.fst)]
    exact List.perm_append_comm.append_left _
  · intro e he
    obtain ⟨e', he', hg, rfl⟩ := (RpcClient.mem_afterTick hp).mp he
    exact hc.touched_tried he' hs hg (by rw [hcount, hc.count_resent hp he'])
  · intro q hq
    show conn.sendsOf q ≤ _
    rw [hcount]
    by_cases hmem : q ∈ c.resent now order
    · obtain ⟨e, he, hr, rfl⟩ := (RpcClient.mem_resent hp).mp hmem
      have hmax := (RpcClient.attempts_touched hr (hs e he hr.1)).2
      have hsends := (hc.pending e he).sends
      have := Nat.le_max_right 1 c.maxAttempts.toNat
      rw [hc.count_resent hp he, if_pos hr]
      show _ ≤ max 1 c.maxAttempts.toNat
      omega
    · rw [List.count_eq_zero.mpr hmem]
      exact hc.sends q hq
  · intro bytes hb
    have hb' : bytes ∈ conn.sends := hb
    rw [noted_sendAll hsend, noted_onTick ht, List.mem_append] at hb'
    rcases hb' with hb' | hb'
    · exact hc.known bytes hb'
    · obtain ⟨q, hq, rfl⟩ := List.mem_map.mp hb'
      obtain ⟨e, he, _, rfl⟩ := (RpcClient.mem_resent hp).mp hq
      exact ⟨_, (hc.pending e he).known, rfl⟩

theorem pollCompleted (hc : Lifecycle c calls outs) :
    Lifecycle c.pollCompleted.1 calls (outs ++ [.completed c.pollCompleted.2]) := by
  have hcomp : c.pollCompleted.1.completedIds (outs ++ [.completed c.pollCompleted.2]) =
      c.completedIds outs := by
    simp [RpcClient.completedIds, RpcClient.pollCompleted, ClientOut.answers]
  refine ⟨hc.next, ?_, ?_, hc.pending, hc.sends, hc.known⟩
  · rw [List.flatMap_append, hc.ids]
    simp [ClientOut.ids]
  · rw [hcomp, RpcClient.failedIds_concat rfl]
    exact hc.places

theorem pollFailed (hc : Lifecycle c calls outs) :
    Lifecycle c.pollFailed.1 calls (outs ++ [.failed c.pollFailed.2]) := by
  have hfail : c.pollFailed.1.failedIds (outs ++ [.failed c.pollFailed.2]) = c.failedIds outs := by
    simp [RpcClient.failedIds, RpcClient.pollFailed, ClientOut.failures]
  refine ⟨hc.next, ?_, ?_, hc.pending, hc.sends, hc.known⟩
  · rw [List.flatMap_append, hc.ids]
    simp [ClientOut.ids]
  · rw [hfail, RpcClient.completedIds_concat rfl]
    exact hc.places

/-- **One step.** -/
theorem op {o : ClientOp} {π : Shuffle} {out : ClientOut} (hc : Lifecycle c calls outs)
    (hs : c.Sound o) (h : c.op b T.noted π o = .ok (c', out)) :
    Lifecycle c' (calls ++ callsOf [o]) (outs ++ [out]) := by
  cases o with
  | call now method payload =>
    obtain ⟨⟨c₁, id, out₁⟩, h₁, h⟩ := bind_eq_ok.mp h
    cases h
    exact hc.call hs h₁
  | datagram now d =>
    obtain ⟨⟨c₁, out₁⟩, h₁, h⟩ := bind_eq_ok.mp h
    cases h
    show Lifecycle c' (calls ++ []) _
    rw [List.append_nil]
    exact hc.onDatagram h₁
  | tick now =>
    obtain ⟨⟨c₁, out₁⟩, h₁, h⟩ := bind_eq_ok.mp h
    cases h
    show Lifecycle c' (calls ++ []) _
    rw [List.append_nil]
    exact hc.onTick (π.perm _) hs h₁
  | pollCompleted =>
    cases h
    show Lifecycle _ (calls ++ []) _
    rw [List.append_nil]
    exact hc.pollCompleted
  | pollFailed =>
    cases h
    show Lifecycle _ (calls ++ []) _
    rw [List.append_nil]
    exact hc.pollFailed

theorem callsOf_append (xs ys : List ClientOp) : callsOf (xs ++ ys) = callsOf xs ++ callsOf ys :=
  List.filterMap_append

/-- **A run.** -/
theorem reach {ops : List ClientOp} {outs' : List ClientOut} (hc : Lifecycle c calls outs)
    (h : RpcClient.Reach RpcClient.Sound b T.noted c ops outs' c') :
    Lifecycle c' (calls ++ callsOf ops) (outs ++ outs') := by
  induction h with
  | start =>
    show Lifecycle c (calls ++ []) (outs ++ [])
    rw [List.append_nil, List.append_nil]
    exact hc
  | step _ hs hop ih =>
    rw [callsOf_append, ← List.append_assoc, ← List.append_assoc]
    exact ih.op hs hop

end Lifecycle

end Distrans

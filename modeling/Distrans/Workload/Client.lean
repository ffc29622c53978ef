import Distrans.Rpc.Budget
import Distrans.Workload.Kv

/-!
# Operations as calls

`call` of `crates/workload/src/client.rs`, and what the handler of `make_server` makes of such a
call.

* `op_executed_iff` — **the operation that is executed is the one that was issued, just if the key
  of a put is shorter than `2 ^ 16`**: its length is cut to 16 bits.
* `long_key_lost` — a put under a longer key, which lands under another.
-/

set_option autoImplicit false

namespace Distrans.Workload

open Machine

def call {σ : Type} (b : Build) (T : Transport σ) (client : RpcClient σ) (now : Tick) (op : Op) :
    Exec (RpcClient σ × U64 × List Datagram) :=
  client.call b T now op.method op.encodePayload

/-- The operation is applied to the store, and `on_execute` is told of it. -/
def execute {α : Type} (onExecute : Op → Bool → List U8 → α → α) (op : Op) (app : Store × α) :
    Store × α :=
  ((apply op app.1).2, onExecute op (apply op app.1).1.1 (apply op app.1).1.2 app.2)

/-- Every server of this kind that has not seen the request executes the operation. -/
def Executes (q : Request) (op : Op) : Prop :=
  ∀ {σ α : Type} {T : Transport σ} {onExecute : Op → Bool → List U8 → α → α}
    {s s' : RpcServer σ (Store × α)} {app app' : Store × α} {now : Tick} {out : List Datagram},
    s.handler = kvHandler onExecute → s.seen.get? q.id = none →
    s.onMessage T now q.encode app = .ok (s', app', out) → app' = execute onExecute op app

theorem kvHandler_some {α : Type} {onExecute : Op → Bool → List U8 → α → α} {method : U8}
    {payload : List U8} {op : Op} (h : Op.decode method payload = some op) (app : Store × α) :
    (kvHandler onExecute method payload app).2 = execute onExecute op app := by
  simp only [kvHandler, h]
  rfl

/-- A request that decodes is executed as what it decodes to. -/
theorem executes_of_decode {q : Request} {op : Op} (h : Op.decode q.method q.payload = some op) :
    Executes q op := by
  intro σ α T onExecute s s' app app' now out hhandler hnew hmsg
  rcases RpcServer.onMessage_cases hmsg with ⟨hdec, _⟩ | ⟨q', p, s₁, conn, hdec, hans, _, _⟩
  · rw [Request.decode_encode] at hdec
    cases hdec
  · rw [Request.decode_encode] at hdec
    cases hdec
    cases hans with
    | cached hseen =>
      rw [hnew] at hseen
      cases hseen
    | run _ hrun =>
      rw [hhandler] at hrun
      rw [← kvHandler_some h app, hrun]

/-- A log of the operations. -/
def logOp (op : Op) (_ : Bool) (_ : List U8) (log : List Op) : List Op := log ++ [op]

/-- What the log of the executions tells apart. -/
theorem decode_of_executes {q : Request} {op op' : Op} (h : Executes q op)
    (hdec : Op.decode q.method q.payload = some op') : op' = op := by
  obtain ⟨⟨s', app', out⟩, hmsg⟩ : ∃ r, (makeServer () logOp).onMessage RpcClient.silent 0 q.encode
      (Store.empty, []) = .ok r :=
    RpcServer.onMessage_returns RpcClient.silent_total _ _ _
  have hhandler : (makeServer () logOp).handler = kvHandler logOp := rfl
  have hop := h hhandler rfl hmsg
  have hop' := executes_of_decode hdec hhandler rfl hmsg
  rw [hop] at hop'
  have hlog : [op] = [op'] := congrArg Prod.snd hop'
  exact (List.singleton_inj.mp hlog).symm

/-- **The server executes the operation that was issued just if its key fits.** -/
theorem op_executed_iff (op : Op) :
    (Op.decode op.method op.encodePayload = some op ↔ op.KeyFits) ∧
    ∀ {σ : Type} {b : Build} {T : Transport σ} {client client' : RpcClient σ} {now : Tick} {id : U64}
      {out : List Datagram}, call b T client now op = .ok (client', id, out) →
      ∃ q, client'.pending.get? id = some ⟨q, now, 1⟩ ∧ (Executes q op ↔ op.KeyFits) := by
  have hiff : Op.decode op.method op.encodePayload = some op ↔ op.KeyFits :=
    ⟨fun h => (Op.encode_of_decode h).2.2, Op.decode_encode⟩
  refine ⟨hiff, ?_⟩
  intro σ b T client client' now id out h
  obtain ⟨nextId, _, h⟩ := bind_eq_ok.mp h
  obtain ⟨⟨conn, _⟩, _, h⟩ := bind_eq_ok.mp h
  cases h
  refine ⟨⟨client.nextId, op.method, op.encodePayload⟩, ?_, fun h => ?_, fun h => ?_⟩
  · exact OrdMap.get?_eq_some.mpr (OrdMap.mem_insert.mpr (Or.inl rfl))
  · obtain ⟨op', hdec⟩ : ∃ op', Op.decode op.method op.encodePayload = some op' := by
      cases op with
      | get key => exact ⟨_, rfl⟩
      | delete key => exact ⟨_, rfl⟩
      | put key value => exact ⟨_, Op.decode_put key value⟩
    rw [decode_of_executes h hdec] at hdec
    exact hiff.mp hdec
  · exact executes_of_decode (Op.decode_encode h)

/-- A put that is called and executed. -/
theorem op_executed_iff_sample : ∃ q, Op.decode q.method q.payload = some (.put [1] [2, 3]) ∧
    Executes q (.put [1] [2, 3]) := by
  obtain ⟨⟨client', id, out⟩, hcall⟩ : ∃ r, call .checked RpcClient.silent (.new () 3 2) 0
      (.put [1] [2, 3]) = .ok r := ⟨_, rfl⟩
  obtain ⟨hdec, hrun⟩ := op_executed_iff (.put [1] [2, 3])
  have hfits : (Op.put [1] [2, 3]).KeyFits := by show 1 < 65536; decide
  obtain ⟨q, hq, hexec⟩ := hrun hcall
  refine ⟨q, ?_, hexec.mpr hfits⟩
  have hq' : client'.pending.get? id = some ⟨⟨0, METHOD_PUT, Op.encodePayload (.put [1] [2, 3])⟩, 0,
      1⟩ := by
    cases hcall
    rfl
  rw [hq'] at hq
  cases hq
  exact hdec.mpr hfits

/-- A key of `2 ^ 16` zeros, without a value. -/
def longPut : Op := .put (List.replicate 65536 0) []

/-- **A key of `2 ^ 16` bytes**: what is put is the key, under the empty key. -/
theorem long_key_lost : Op.decode longPut.method longPut.encodePayload =
      some (.put [] (List.replicate 65536 0)) ∧
    ¬ ∀ op : Op, Op.decode op.method op.encodePayload = some op := by
  have hdec : Op.decode longPut.method longPut.encodePayload =
      some (.put [] (List.replicate 65536 0)) := by
    refine (Op.decode_put (List.replicate 65536 0) []).trans ?_
    rw [List.length_replicate, Nat.mod_self, List.take_zero, List.drop_zero, List.append_nil]
  refine ⟨hdec, fun h => ?_⟩
  rw [h longPut] at hdec
  have hkey : List.replicate 65536 (0#8) = [] := (Op.put.inj (Option.some.inj hdec)).1
  have hlen := congrArg List.length hkey
  rw [List.length_replicate] at hlen
  cases hlen

end Distrans.Workload

import Distrans.Lib.History
import Distrans.Rpc.Link
import Distrans.Workload.Kv

/-!
# The service and its history

Any number of clients, each with a server of its own over one shared store, and a history: the
calls that are issued, the operations that are executed (as `on_execute` is told of them) and the
responses that are handed back.

* `Justified` — what may come next in a history: an operation is executed when it is the next of
  its client's calls, and a response is handed back after the execution it reports;
* `handler_journal` — the executions for a client are the runs of its handler.
-/

set_option autoImplicit false

namespace Distrans.Workload

open Machine

/-- What is seen of the service. -/
inductive Event (ι : Type) where
  | issued (i : ι) (id : U64) (op : Op)
  | executed (i : ι) (op : Op) (ok : Bool) (payload : List U8)
  | returned (i : ι) (id : U64) (response : Response)
  deriving DecidableEq, Repr

/-- The store, and the history so far. -/
abbrev Shared (ι : Type) := Store × List (Event ι)

/-- What `on_execute` does for a client: it adds to the history. -/
def onExecute {ι : Type} (i : ι) (op : Op) (ok : Bool) (payload : List U8)
    (history : List (Event ι)) : List (Event ι) := history ++ [.executed i op ok payload]

/-- The handler of the server of a client. -/
def handler {ι : Type} (i : ι) : Handler (Shared ι) := kvHandler (onExecute i)

/-- What one run of the handler does. -/
theorem handler_cases {ι : Type} (i : ι) (method : U8) (payload : List U8) (shared : Shared ι) :
    (Op.decode method payload = none ∧ (handler i method payload shared).2 = shared) ∨
    ∃ op, Op.decode method payload = some op ∧ handler i method payload shared =
      ((apply op shared.1).1, ((apply op shared.1).2,
        shared.2 ++ [.executed i op (apply op shared.1).1.1 (apply op shared.1).1.2])) := by
  cases hdec : Op.decode method payload with
  | none =>
    refine Or.inl ⟨rfl, ?_⟩
    simp only [handler, kvHandler, hdec]
  | some op =>
    refine Or.inr ⟨op, rfl, ?_⟩
    simp only [handler, kvHandler, hdec]
    rfl

structure Service (ι σ₁ σ₂ : Type) where
  links : ι → Link σ₁ σ₂ (Shared ι)
  shared : Shared ι

/-- What can happen on the link of a client. -/
inductive ServiceOp where
  | call (now : Tick) (op : Op)
  | clientDatagram (now : Tick) (d : Datagram)
  | clientTick (now : Tick) (π : Shuffle)
  | pollCompleted
  | pollFailed
  | serverDatagram (now : Tick) (d : Datagram)
  | serverTick (now : Tick)

/-- A call sends the method of its operation and the encoded rest. -/
def ServiceOp.link : ServiceOp → LinkOp
  | .call now op => .call now op.method op.encodePayload
  | .clientDatagram now d => .clientDatagram now d
  | .clientTick now π => .clientTick now π
  | .pollCompleted => .pollCompleted
  | .pollFailed => .pollFailed
  | .serverDatagram now d => .serverDatagram now d
  | .serverTick now => .serverTick now

/-- What the client itself sees of a step; the id of a call is the next one. -/
def ServiceOp.seen {ι σ₁ σ₂ : Type} (i : ι) (l : Link σ₁ σ₂ (Shared ι)) :
    ServiceOp → List (Event ι)
  | .call _ op => [.issued i l.client.nextId op]
  | .pollCompleted => l.client.pollCompleted.2.map fun a => .returned i a.1 a.2
  | _ => []

namespace Service

variable {ι σ₁ σ₂ : Type}

def new (c₁ : ι → σ₁) (c₂ : ι → σ₂) (retryDeadline : ι → U64) (maxAttempts : ι → U32) :
    Service ι σ₁ σ₂ where
  links i := {
    client := .new (.fresh (c₁ i)) (retryDeadline i) (maxAttempts i)
    server := makeServer (.fresh (c₂ i)) (onExecute i)
    calls := []
    returned := [] }
  shared := (.empty, [])

def history (s : Service ι σ₁ σ₂) : List (Event ι) := s.shared.2

variable [DecidableEq ι]

/-- One step, on the link of one client. -/
def step (b : Build) (T₁ : Transport σ₁) (T₂ : Transport σ₂) (s : Service ι σ₁ σ₂) (i : ι)
    (o : ServiceOp) : Exec (Service ι σ₁ σ₂) := do
  let (l, store, history) ← (s.links i).op b T₁ T₂ s.shared o.link
  .ok { links := Function.update s.links i l, shared := (store, history ++ o.seen i (s.links i)) }

/-- The states of the runs of a service whose streams deliver and whose calls meet `A`. -/
inductive Reach (b : Build) (T₁ : Transport σ₁) (T₂ : Transport σ₂) (A : Op → Prop)
    (s₀ : Service ι σ₁ σ₂) : Service ι σ₁ σ₂ → Prop
  | start : Reach b T₁ T₂ A s₀ s₀
  | step {s s' : Service ι σ₁ σ₂} {i : ι} {o : ServiceOp} : Reach b T₁ T₂ A s₀ s →
      (∀ now op, o = .call now op → A op) → s.step b T₁ T₂ i o = .ok s' →
      (s'.links i).Delivers → Reach b T₁ T₂ A s₀ s'

/-- Play a script; it fails where the streams would not deliver. -/
def play (b : Build) (T₁ : Transport σ₁) (T₂ : Transport σ₂) : List (ι × ServiceOp) →
    Service ι σ₁ σ₂ → Exec (Service ι σ₁ σ₂)
  | [], s => .ok s
  | (i, o) :: script, s => do
    let s ← s.step b T₁ T₂ i o
    if (s.links i).Delivers then play b T₁ T₂ script s else .error .unreachable

/-- A script that plays to its end is a run. -/
theorem play_reach {b : Build} {T₁ : Transport σ₁} {T₂ : Transport σ₂} {A : Op → Prop}
    {s₀ : Service ι σ₁ σ₂} : ∀ {script : List (ι × ServiceOp)} {s s' : Service ι σ₁ σ₂},
    Reach b T₁ T₂ A s₀ s → (∀ o ∈ script, ∀ now op, o.2 = .call now op → A op) →
    play b T₁ T₂ script s = .ok s' → Reach b T₁ T₂ A s₀ s'
  | [], _, _, hr, _, h => by
    cases h
    exact hr
  | (i, o) :: script, _, _, hr, hA, h => by
    obtain ⟨s₁, hstep, h⟩ := bind_eq_ok.mp h
    split at h
    · rename_i hdel
      exact play_reach (.step hr (hA _ List.mem_cons_self) hstep hdel)
        (fun o ho => hA o (List.mem_cons_of_mem _ ho)) h
    · cases h

end Service

/-! ## What is read off a history -/

/-- An operation that was executed, and how it went. -/
structure Execution where
  op : Op
  ok : Bool
  payload : List U8
  deriving DecidableEq, Repr

def Execution.run (e : Execution) : Run := ⟨e.op.method, e.op.encodePayload, e.ok, e.payload⟩

/-- An execution of any client. -/
def Event.execution {ι : Type} : Event ι → Option Execution
  | .executed _ op ok payload => some ⟨op, ok, payload⟩
  | _ => none

/-- All executions: the log that `on_execute` builds. -/
def executions {ι : Type} (history : List (Event ι)) : List Execution :=
  history.filterMap Event.execution

@[simp] theorem executions_append {ι : Type} {h es : List (Event ι)} :
    executions (h ++ es) = executions h ++ executions es :=
  List.filterMap_append

section

variable {ι : Type} [DecidableEq ι] {i j : ι} {h es : List (Event ι)} {op : Op}

def Event.executionOf (i : ι) : Event ι → Option Execution
  | .executed j op ok payload => if j = i then some ⟨op, ok, payload⟩ else none
  | _ => none

def Event.issuedOf (i : ι) : Event ι → Option Op
  | .issued j _ op => if j = i then some op else none
  | _ => none

/-- The executions for a client. -/
def executedBy (i : ι) (history : List (Event ι)) : List Execution :=
  history.filterMap (Event.executionOf i)

/-- The operations that a client has issued. -/
def issuedBy (i : ι) (history : List (Event ι)) : List Op := history.filterMap (Event.issuedOf i)

/-- **What may come next**, after the history `pre`. -/
def Justified (pre : List (Event ι)) : Event ι → Prop
  | .issued i id _ => id.toNat = (issuedBy i pre).length
  | .executed i op _ _ => (issuedBy i pre)[(executedBy i pre).length]? = some op
  | .returned i id response => response.id = id ∧
      ∃ e, (executedBy i pre)[id.toNat]? = some e ∧ response.ok = e.ok ∧ response.payload = e.payload

@[simp] theorem issuedBy_append : issuedBy i (h ++ es) = issuedBy i h ++ issuedBy i es :=
  List.filterMap_append

@[simp] theorem executedBy_append : executedBy i (h ++ es) = executedBy i h ++ executedBy i es :=
  List.filterMap_append

theorem Event.executionOf_eq_some {ev : Event ι} {e : Execution} (h : ev.executionOf i = some e) :
    ∃ op ok payload, ev = .executed i op ok payload ∧ e = ⟨op, ok, payload⟩ := by
  cases ev with
  | executed j op ok payload =>
    rw [Event.executionOf] at h
    split at h
    · rename_i hij
      cases h
      exact ⟨op, ok, payload, by rw [hij], rfl⟩
    · cases h
  | issued | returned => cases h

/-- **In a lawful history a client's executions are the first of its calls.** -/
theorem executed_first (hl : Lawful Justified h) (i : ι) :
    (executedBy i h).map Execution.op <+: issuedBy i h := by
  induction h using List.reverseRecOn with
  | nil => exact List.prefix_refl _
  | append_singleton h ev ih =>
    have hold := ih hl.before
    rw [executedBy_append, issuedBy_append, List.map_append]
    cases hev : ev.executionOf i with
    | none =>
      have hnone : executedBy i [ev] = [] := by simp [executedBy, hev]
      rw [hnone, List.map_nil, List.append_nil]
      exact hold.trans (List.prefix_append _ _)
    | some e =>
      obtain ⟨op, ok, payload, rfl, rfl⟩ := Event.executionOf_eq_some hev
      have hone : executedBy i [Event.executed i op ok payload] = [⟨op, ok, payload⟩] := by
        simp [executedBy, hev]
      have hnext : (issuedBy i h)[(executedBy i h).length]? = some op := hl.middle
      obtain ⟨rest, hrest⟩ := hold
      rw [← hrest, List.getElem?_append_right (by rw [List.length_map]), List.length_map,
        Nat.sub_self] at hnext
      cases rest with
      | nil => cases hnext
      | cons op' rest =>
        cases hnext
        rw [hone, ← hrest]
        refine ⟨rest ++ issuedBy i [Event.executed i op ok payload], ?_⟩
        simp

/-- An event of the execution of a client. -/
def Event.Executes (i : ι) (e : Event ι) : Prop :=
  ∃ op ok payload, e = .executed i op ok payload ∧ op.KeyFits

theorem issuedBy_executes (hes : ∀ e ∈ es, e.Executes i) : issuedBy j es = [] := by
  rw [issuedBy, List.filterMap_eq_nil_iff]
  intro e he
  obtain ⟨op, ok, payload, rfl, _⟩ := hes e he
  rfl

theorem executedBy_executes (hes : ∀ e ∈ es, e.Executes i) (hij : j ≠ i) : executedBy j es = [] := by
  rw [executedBy, List.filterMap_eq_nil_iff]
  intro e he
  obtain ⟨op, ok, payload, rfl, _⟩ := hes e he
  exact if_neg hij.symm

/-- The runs for a client. -/
def runsOf (i : ι) (shared : Shared ι) : List Run := (executedBy i shared.2).map Execution.run

/-- The executions for a client are the runs of its handler. -/
theorem handler_journal (i : ι) :
    Journal (handler i) (fun method payload => (Op.decode method payload).isSome) (runsOf i) := by
  intro method payload shared hP
  rcases handler_cases i method payload shared with ⟨hdec, _⟩ | ⟨op, hdec, hrun⟩
  · rw [hdec] at hP
    cases hP
  · obtain ⟨hmethod, hpayload, _⟩ := Op.encode_of_decode hdec
    rw [hrun, runsOf, executedBy_append, List.map_append]
    simp [executedBy, Event.executionOf, Execution.run, runsOf, hmethod, hpayload]

end

end Distrans.Workload

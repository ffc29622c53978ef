import Distrans.Lib.Memo
import Distrans.Rpc.Client

/-!
# The calls of a client

What holds of a client between calls (`Calling`): the byte stream it has written consists of the
requests of its calls, each written when it was issued and perhaps again later, so that their first
occurrences are the calls in order; and it has taken at most one answer to each call, out of the
responses it has received.
-/

set_option autoImplicit false

namespace Distrans

open Machine

/-- The requests of a list of calls: the ids count them. -/
def issued (calls : List (U8 × List U8)) : List Request :=
  calls.mapIdx fun i p => ⟨BitVec.ofNat 64 i, p.1, p.2⟩

/-- The bytes of requests. -/
def written (rs : List Request) : List U8 := rs.flatMap fun q => frame q.encode

/-- The responses of a byte stream. -/
def responses (bytes : List U8) : List Response :=
  (FrameReader.frames.split bytes).1.filterMap Response.decode

section Issued

variable {calls : List (U8 × List U8)} {q : Request}

theorem issued_concat (p : U8 × List U8) :
    issued (calls ++ [p]) = issued calls ++ [⟨BitVec.ofNat 64 calls.length, p.1, p.2⟩] := by
  simp [issued, List.mapIdx_append]

theorem length_issued : (issued calls).length = calls.length := by simp [issued]

theorem issued_call : (issued calls).map (fun q => (q.method, q.payload)) = calls := by
  induction calls using List.reverseRecOn with
  | nil => rfl
  | append_singleton calls p ih =>
    rw [issued_concat, List.map_append, ih]
    rfl

/-- The call of a request that was issued. -/
theorem mem_calls (h : q ∈ issued calls) : (q.method, q.payload) ∈ calls := by
  have hmem : (q.method, q.payload) ∈ (issued calls).map fun q => (q.method, q.payload) :=
    List.mem_map_of_mem h
  rwa [issued_call] at hmem

theorem id_of_issued {i : Nat} (h : (issued calls)[i]? = some q) : q.id = BitVec.ofNat 64 i := by
  rw [issued, List.getElem?_mapIdx] at h
  obtain ⟨p, _, rfl⟩ := Option.map_eq_some_iff.mp h
  rfl

/-- The ids that have been given out are smaller than the number of calls. -/
theorem id_lt_of_issued (hlen : calls.length < 2 ^ 64) (h : q ∈ issued calls) :
    q.id.toNat < calls.length := by
  obtain ⟨i, hi⟩ := List.mem_iff_getElem?.mp h
  have hlt : i < (issued calls).length := (List.getElem?_eq_some_iff.mp hi).1
  rw [length_issued] at hlt
  rw [id_of_issued hi, BitVec.toNat_ofNat, Nat.mod_eq_of_lt (by omega)]
  exact hlt

theorem written_append (rs ts : List Request) : written (rs ++ ts) = written rs ++ written ts :=
  List.flatMap_append

end Issued

/-- The pending calls of a client and the answers it has taken, out of the responses `got`. -/
structure Answered {σ : Type} (c : RpcClient σ) (calls : List (U8 × List U8))
    (returned : List (U64 × Response)) (got : List Response) : Prop where
  pending : ∀ e ∈ c.pending.entries, e.2.request.id = e.1 ∧ e.2.request ∈ issued calls
  answers : ∀ a ∈ returned ++ c.completed, a.2.id = a.1 ∧ a.1.toNat < calls.length ∧
    c.pending.get? a.1 = none ∧ a.2 ∈ got
  once : ((returned ++ c.completed).map Prod.fst).Nodup

/-- **A client and its calls.** -/
structure Calling {σ : Type} (c : RpcClient (Tapped σ)) (calls : List (U8 × List U8))
    (reqs : List Request) (returned : List (U64 × Response)) : Prop where
  next : c.nextId.toNat = calls.length
  sent : c.conn.sent = written reqs
  first : firsts Request.id reqs = issued calls
  known : reqs ⊆ issued calls
  buffered : c.reader.buf = (FrameReader.frames.split c.conn.received).2
  answered : Answered c calls returned (responses c.conn.received)

namespace Answered

variable {σ : Type} {c : RpcClient σ} {calls : List (U8 × List U8)}
  {returned : List (U64 × Response)} {got : List Response}

/-- One message. -/
theorem onMessage (ha : Answered c calls returned got) (hlen : calls.length < 2 ^ 64)
    (bytes : List U8) : Answered (c.onMessage bytes) calls returned
      (got ++ (Response.decode bytes).toList) := by
  have hold : Answered c calls returned (got ++ (Response.decode bytes).toList) := by
    refine { ha with answers := ?_ }
    intro a h
    obtain ⟨h₁, h₂, h₃, h₄⟩ := ha.answers a h
    exact ⟨h₁, h₂, h₃, List.mem_append_left _ h₄⟩
  unfold RpcClient.onMessage
  split
  · exact hold
  · rename_i p hp
    split
    · exact hold
    · rename_i call hcall
      have hmem := OrdMap.get?_eq_some.mp hcall
      obtain ⟨hid, hissued⟩ := ha.pending _ hmem
      have hfresh : p.id ∉ (returned ++ c.completed).map Prod.fst := by
        intro h
        obtain ⟨a, ha', hpa⟩ := List.mem_map.mp h
        have := (ha.answers a ha').2.2.1
        rw [hpa, hcall] at this
        cases this
      refine ⟨?_, ?_, ?_⟩
      · intro e he
        exact ha.pending e (OrdMap.mem_erase.mp he).1
      · intro a h
        rw [← List.append_assoc] at h
        rcases List.mem_append.mp h with h | h
        · obtain ⟨h₁, h₂, h₃, h₄⟩ := hold.answers a h
          refine ⟨h₁, h₂, ?_, h₄⟩
          rw [OrdMap.get?_eq_none] at h₃ ⊢
          exact fun v hv => h₃ v (OrdMap.mem_erase.mp hv).1
        · obtain rfl := List.mem_singleton.mp h
          refine ⟨rfl, ?_, ?_, ?_⟩
          · have := id_lt_of_issued hlen hissued
            rwa [hid] at this
          · rw [OrdMap.get?_eq_none]
            exact fun v hv => (OrdMap.mem_erase.mp hv).2 rfl
          · rw [hp]
            exact List.mem_append_right _ (List.mem_singleton.mpr rfl)
      · rw [← List.append_assoc, List.map_append, List.map_singleton, List.nodup_append]
        refine ⟨ha.once, by simp, ?_⟩
        intro i hi j hj hij
        rw [List.mem_singleton.mp hj] at hij
        rw [hij] at hi
        exact hfresh hi

theorem onMessages (hlen : calls.length < 2 ^ 64) : ∀ {messages : List (List U8)} {c : RpcClient σ}
    {got : List Response}, Answered c calls returned got →
    Answered (messages.foldl RpcClient.onMessage c) calls returned
      (got ++ messages.filterMap Response.decode)
  | [], _, _, ha => by
    rw [List.filterMap_nil, List.append_nil]
    exact ha
  | bytes :: messages, c, got, ha => by
    have hcons : (bytes :: messages).filterMap Response.decode =
        (Response.decode bytes).toList ++ messages.filterMap Response.decode := by
      rw [List.filterMap_cons]
      cases Response.decode bytes <;> rfl
    rw [hcons, ← List.append_assoc, List.foldl_cons]
    exact onMessages hlen (ha.onMessage hlen bytes)

end Answered

namespace Calling

variable {σ : Type} {b : Build} {T : Transport σ} {now : Tick} {c c' : RpcClient (Tapped σ)}
  {calls : List (U8 × List U8)} {reqs : List Request} {returned : List (U64 × Response)}
  {out : List Datagram}

theorem new (conn : σ) (retryDeadline : U64) (maxAttempts : U32) :
    Calling (RpcClient.new (Tapped.fresh conn) retryDeadline maxAttempts) [] [] [] where
  next := rfl
  sent := rfl
  first := rfl
  known := List.Subset.refl _
  buffered := by
    show [] = (FrameReader.frames.split []).2
    rw [Splitter.split_nil]
  answered := ⟨by simp [RpcClient.new], by simp [RpcClient.new], by simp [RpcClient.new]⟩

theorem count_lt (hc : Calling c calls reqs returned) : calls.length < 2 ^ 64 := by
  rw [← hc.next]
  exact c.nextId.isLt

/-- **A new call** is written for the first time. -/
theorem call {method : U8} {payload : List U8} {id : U64} (hc : Calling c calls reqs returned)
    (h : c.call b T.tapped now method payload = .ok (c', id, out))
    (hcount : b = .checked ∨ calls.length + 1 < 2 ^ 64) :
    Calling c' (calls ++ [(method, payload)]) (reqs ++ [⟨c.nextId, method, payload⟩]) returned := by
  obtain ⟨nextId, hadd, h⟩ := bind_eq_ok.mp h
  obtain ⟨⟨conn, _⟩, hsend, h⟩ := bind_eq_ok.mp h
  cases h
  obtain ⟨hrecv, hsent⟩ := Transport.tapped_send hsend
  have hid : c.nextId = BitVec.ofNat 64 calls.length := by
    rw [← hc.next, BitVec.ofNat_toNat, BitVec.setWidth_eq]
  have hissued : issued (calls ++ [(method, payload)]) =
      issued calls ++ [⟨c.nextId, method, payload⟩] := by rw [issued_concat, hid]
  have hnew : c.nextId ∉ reqs.map Request.id := by
    intro hmem
    obtain ⟨q, hq, hqid⟩ := List.mem_map.mp hmem
    have := id_lt_of_issued hc.count_lt (hc.known hq)
    rw [hqid, hc.next] at this
    exact Nat.lt_irrefl _ this
  refine ⟨?_, ?_, ?_, ?_, ?_, ?_, ?_, ?_⟩
  · have hfits : b = .checked ∨ c.nextId.toNat + (1#64).toNat < 2 ^ 64 := by
      rw [hc.next]
      exact hcount
    show nextId.toNat = _
    rw [Build.add_exact hadd hfits, hc.next, List.length_append, List.length_singleton]
    rfl
  · show conn.sent = _
    rw [hsent, hc.sent, written_append]
    simp [written]
  · rw [hissued, ← hc.first]
    exact firsts_concat_new hnew
  · rw [hissued]
    exact List.append_subset.mpr ⟨List.Subset.trans hc.known (List.subset_append_left _ _),
      List.subset_append_right _ _⟩
  · show c.reader.buf = (FrameReader.frames.split conn.received).2
    rw [hrecv]
    exact hc.buffered
  · intro e he
    rw [hissued]
    rcases OrdMap.mem_insert.mp he with rfl | ⟨he, _⟩
    · exact ⟨rfl, List.mem_append_right _ (List.mem_singleton.mpr rfl)⟩
    · obtain ⟨h₁, h₂⟩ := hc.answered.pending e he
      exact ⟨h₁, List.mem_append_left _ h₂⟩
  · intro a ha
    obtain ⟨h₁, h₂, h₃, h₄⟩ := hc.answered.answers a ha
    refine ⟨h₁, ?_, ?_, ?_⟩
    · rw [List.length_append]
      omega
    · rw [OrdMap.get?_eq_none] at h₃ ⊢
      intro v hv
      rcases OrdMap.mem_insert.mp hv with heq | ⟨hv, _⟩
      · have := congrArg (fun e => e.1.toNat) heq
        simp only at this
        rw [hc.next] at this
        omega
      · exact h₃ v hv
    · show a.2 ∈ responses conn.received
      rw [hrecv]
      exact h₄
  · exact hc.answered.once

/-- **A tick** writes pending requests again. -/
theorem onTick {order : List (U64 × PendingCall)} (hc : Calling c calls reqs returned)
    (hp : order.Perm c.pending.entries) (h : c.onTick b T.tapped now order = .ok (c', out)) :
    ∃ more, Calling c' calls (reqs ++ more) returned ∧ c'.conn.received = c.conn.received := by
  obtain ⟨conn₀, conn, _, _, ht, hsend, rfl⟩ := RpcClient.onTick_eq h
  have hpend : ∀ e ∈ (c.afterTick now order).entries, ∃ e' ∈ c.pending.entries,
      e.1 = e'.1 ∧ e.2.request = e'.2.request := by
    intro e he
    obtain ⟨e', he', _, rfl⟩ := (RpcClient.mem_afterTick hp).mp he
    exact ⟨e', he', rfl, RpcClient.touched_request _ _ _⟩
  obtain ⟨hrecv₀, hsent₀⟩ := Transport.tapped_onTick ht
  obtain ⟨hrecv, hsent⟩ := RpcClient.sendAll_tapped hsend
  rw [hrecv₀] at hrecv
  rw [hsent₀] at hsent
  have hmore : c.resent now order ⊆ issued calls := by
    intro q hq
    obtain ⟨e, he, rfl⟩ := List.mem_map.mp hq
    exact (hc.answered.pending e (hp.mem_iff.mp (List.mem_of_mem_filter he))).2
  refine ⟨c.resent now order, ⟨hc.next, ?_, ?_, ?_, ?_, ?_, ?_, hc.answered.once⟩, hrecv⟩
  · show conn.sent = _
    rw [hsent, hc.sent, written_append]
    rfl
  · rw [← hc.first]
    apply firsts_append_old
    intro q hq
    rw [← mem_keys_firsts, hc.first]
    exact List.mem_map_of_mem (hmore hq)
  · exact List.append_subset.mpr ⟨hc.known, hmore⟩
  · show c.reader.buf = (FrameReader.frames.split conn.received).2
    rw [hrecv]
    exact hc.buffered
  · intro e he
    obtain ⟨e', he', hid, hreq⟩ := hpend e he
    rw [hid, hreq]
    exact hc.answered.pending e' he'
  · intro a ha
    obtain ⟨h₁, h₂, h₃, h₄⟩ := hc.answered.answers a ha
    refine ⟨h₁, h₂, ?_, ?_⟩
    · rw [OrdMap.get?_eq_none] at h₃ ⊢
      intro v hv
      obtain ⟨e', he', hid, _⟩ := hpend _ hv
      exact h₃ e'.2 (by rw [show a.1 = e'.1 from hid]; exact he')
    · show a.2 ∈ responses conn.received
      rw [hrecv]
      exact h₄

theorem foldl_onMessage (messages : List (List U8)) (c : RpcClient (Tapped σ)) :
    (messages.foldl RpcClient.onMessage c).conn = c.conn ∧
    (messages.foldl RpcClient.onMessage c).reader = c.reader ∧
    (messages.foldl RpcClient.onMessage c).nextId = c.nextId := by
  induction messages generalizing c with
  | nil => exact ⟨rfl, rfl, rfl⟩
  | cons bytes messages ih =>
    obtain ⟨h₁, h₂, h₃⟩ := ih (c.onMessage bytes)
    obtain ⟨h₁', h₂', h₃'⟩ : (c.onMessage bytes).conn = c.conn ∧
        (c.onMessage bytes).reader = c.reader ∧ (c.onMessage bytes).nextId = c.nextId := by
      unfold RpcClient.onMessage
      split
      · exact ⟨rfl, rfl, rfl⟩
      · split <;> exact ⟨rfl, rfl, rfl⟩
    exact ⟨h₁.trans h₁', h₂.trans h₂', h₃.trans h₃'⟩

/-- **A delivery** may complete calls. -/
theorem onDatagram {d : Datagram} (hc : Calling c calls reqs returned)
    (h : c.onDatagram T.tapped now d = .ok (c', out)) : Calling c' calls reqs returned := by
  obtain ⟨conn₀, conn, bytes, hd, hgot, rfl⟩ := RpcClient.onDatagram_inv h
  obtain ⟨hrecv₀, hsent₀⟩ := Transport.tapped_onDatagram hd
  obtain ⟨hrecv, hsent⟩ := Transport.tapped_recv T conn₀
  rw [hgot] at hrecv hsent
  rw [hrecv₀] at hrecv
  rw [hsent₀] at hsent
  obtain ⟨messages, buf, hsplit⟩ : ∃ messages buf,
      FrameReader.frames.split (c.reader.buf ++ bytes) = (messages, buf) := ⟨_, _, rfl⟩
  have hall : FrameReader.frames.split conn.received =
      ((FrameReader.frames.split c.conn.received).1 ++ messages, buf) := by
    rw [hrecv, Splitter.split_append, ← hc.buffered, hsplit]
  have hnow : responses conn.received =
      responses c.conn.received ++ messages.filterMap Response.decode := by
    rw [responses, hall, List.filterMap_append, responses]
  rw [hsplit]
  obtain ⟨c₁, hc₁⟩ : ∃ c₁ : RpcClient (Tapped σ), c₁ = { c with conn, reader := ⟨buf⟩ } := ⟨_, rfl⟩
  have hans : Answered c₁ calls returned (responses c.conn.received) := by
    rw [hc₁]
    exact ⟨hc.answered.pending, hc.answered.answers, hc.answered.once⟩
  have hfold : Answered (messages.foldl RpcClient.onMessage c₁) _ _ _ :=
    hans.onMessages hc.count_lt
  obtain ⟨hconn, hreader, hnext⟩ := foldl_onMessage messages c₁
  have hconn₁ : c₁.conn = conn := by rw [hc₁]
  show Calling (messages.foldl RpcClient.onMessage { c with conn, reader := ⟨buf⟩ }) _ _ _
  rw [← hc₁]
  refine ⟨?_, ?_, hc.first, hc.known, ?_, ?_⟩
  · rw [hnext, hc₁]
    exact hc.next
  · rw [hconn, hconn₁, hsent]
    exact hc.sent
  · rw [hreader, hconn, hconn₁, hall, hc₁]
  · rw [hconn, hconn₁, hnow]
    exact hfold

theorem pollCompleted (hc : Calling c calls reqs returned) :
    Calling c.pollCompleted.1 calls reqs (returned ++ c.pollCompleted.2) where
  next := hc.next
  sent := hc.sent
  first := hc.first
  known := hc.known
  buffered := hc.buffered
  answered := by
    have hall : returned ++ c.pollCompleted.2 ++ c.pollCompleted.1.completed =
        returned ++ c.completed := List.append_nil _
    exact ⟨hc.answered.pending, by rw [hall]; exact hc.answered.answers,
      by rw [hall]; exact hc.answered.once⟩

theorem pollFailed (hc : Calling c calls reqs returned) :
    Calling c.pollFailed.1 calls reqs returned :=
  ⟨hc.next, hc.sent, hc.first, hc.known, hc.buffered,
    ⟨hc.answered.pending, hc.answered.answers, hc.answered.once⟩⟩

end Calling

end Distrans

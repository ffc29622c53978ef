import Distrans.Workload.Service

/-!
# The service is linearizable

* `Consistent` — the invariant of the runs of the service: each link is joined, the log is
  sequential, and every event of the history is justified by what came before it;
* `service_linearizable` — **the log is a sequential history, in the order of each client's calls,
  and each response lies behind its execution, which lies behind its call.**
-/

set_option autoImplicit false

namespace Distrans.Workload

open Machine RpcServer

section

variable {ι : Type}

/-- The log is what its operations give one after another, from the empty store. -/
def Sequential (shared : Shared ι) : Prop :=
  thread apply ((executions shared.2).map Execution.op) .empty =
    ((executions shared.2).map fun e => (e.ok, e.payload), shared.1)

/-! ## What the runs of a handler add -/

/-- Executions of the one client, and the log stays sequential. -/
theorem runs_add {i : ι} {P : U8 → List U8 → Prop} {shared shared' : Shared ι}
    (hr : Ran (handler i) P shared shared') (hs : Sequential shared) :
    Sequential shared' ∧ ∃ es, shared'.2 = shared.2 ++ es ∧ ∀ e ∈ es, e.Executes i := by
  refine hr.preserves (I := fun shared' => Sequential shared' ∧
    ∃ es, shared'.2 = shared.2 ++ es ∧ ∀ e ∈ es, e.Executes i) ?_ ?_
  · rintro method payload now - ⟨hseq, es, hes, hexec⟩
    rcases handler_cases i method payload now with ⟨_, hsame⟩ | ⟨op, hdec, hrun⟩
    · rw [hsame]
      exact ⟨hseq, es, hes, hexec⟩
    · rw [hrun]
      refine ⟨?_, es ++ [.executed i op (apply op now.1).1.1 (apply op now.1).1.2], ?_, ?_⟩
      · have hone : ∀ ok payload, executions [Event.executed i op ok payload] = [⟨op, ok, payload⟩] :=
          fun _ _ => rfl
        rw [Sequential, executions_append, hone, List.map_append, List.map_singleton, thread_concat,
          hseq, List.map_append]
        rfl
      · rw [hes, List.append_assoc]
      · intro e he
        rcases List.mem_append.mp he with he | he
        · exact hexec e he
        · exact ⟨op, _, _, List.mem_singleton.mp he, (Op.encode_of_decode hdec).2.2⟩
  · exact ⟨hs, [], (List.append_nil _).symm, by simp⟩

end

variable {ι σ₁ σ₂ : Type} [DecidableEq ι] {b : Build} {T₁ : Transport σ₁} {T₂ : Transport σ₂}

/-- **The invariant of the service.** -/
structure Consistent (s : Service ι σ₁ σ₂) : Prop where
  joined : ∀ i, ∃ reqs book replies,
    Joined (handler i) (runsOf i) (s.links i) s.shared reqs book replies
  calls : ∀ i, (s.links i).calls = (issuedBy i s.history).map Op.call
  fits : ∀ i, ∀ op ∈ issuedBy i s.history, op.Fits
  sequential : Sequential s.shared
  lawful : Lawful Justified s.history

/-! ## One step -/

/-- What a step adds to the history by itself is no execution. -/
theorem executions_seen {i j : ι} {l : Link σ₁ σ₂ (Shared ι)} {o : ServiceOp} :
    executions (o.seen i l) = [] ∧ executedBy j (o.seen i l) = [] := by
  cases o with
  | pollCompleted =>
    constructor
    · rw [executions, List.filterMap_eq_nil_iff]
      intro e he
      obtain ⟨a, _, rfl⟩ := List.mem_map.mp he
      rfl
    · rw [executedBy, List.filterMap_eq_nil_iff]
      intro e he
      obtain ⟨a, _, rfl⟩ := List.mem_map.mp he
      rfl
  | _ => exact ⟨rfl, rfl⟩

/-- The calls that a step adds. -/
theorem issuedBy_seen {i : ι} {l : Link σ₁ σ₂ (Shared ι)} {o : ServiceOp} :
    (∃ now op, o = .call now op ∧ ∀ j, issuedBy j (o.seen i l) = if i = j then [op] else []) ∨
    (∀ now op, o ≠ .call now op) ∧ ∀ j, issuedBy j (o.seen i l) = [] := by
  cases o with
  | call now op =>
    refine Or.inl ⟨now, op, rfl, ?_⟩
    intro j
    by_cases hij : i = j <;> simp [issuedBy, ServiceOp.seen, Event.issuedOf, hij]
  | pollCompleted =>
    refine Or.inr ⟨by simp, ?_⟩
    intro j
    rw [issuedBy, List.filterMap_eq_nil_iff]
    intro e he
    obtain ⟨a, _, rfl⟩ := List.mem_map.mp he
    rfl
  | _ => exact Or.inr ⟨by simp, fun _ => rfl⟩

/-- Calls are made, and requests are served, by different steps. -/
theorem link_calls {i : ι} {l l' : Link σ₁ σ₂ (Shared ι)} {shared shared' : Shared ι}
    {o : ServiceOp} (hop : l.op b T₁ T₂ shared o.link = .ok (l', shared')) :
    l'.calls = l.calls ++ (issuedBy i (o.seen i l)).map Op.call ∧
      (shared' = shared ∨ issuedBy i (o.seen i l) = []) := by
  cases o with
  | call now op =>
    obtain ⟨_, _, hop⟩ := bind_eq_ok.mp hop
    cases hop
    simp [issuedBy, ServiceOp.seen, Event.issuedOf, Op.call]
  | serverDatagram now d =>
    obtain ⟨_, _, hop⟩ := bind_eq_ok.mp hop
    cases hop
    exact ⟨(List.append_nil _).symm, Or.inr rfl⟩
  | pollCompleted =>
    cases hop
    have hnone : issuedBy i (ServiceOp.pollCompleted.seen i l) = [] := by
      rcases issuedBy_seen (i := i) (l := l) (o := .pollCompleted) with ⟨_, _, h, _⟩ | ⟨_, h⟩
      · cases h
      · exact h i
    rw [hnone]
    exact ⟨(List.append_nil _).symm, Or.inl rfl⟩
  | pollFailed =>
    cases hop
    exact ⟨(List.append_nil _).symm, Or.inl rfl⟩
  | _ =>
    obtain ⟨_, _, hop⟩ := bind_eq_ok.mp hop
    cases hop
    exact ⟨(List.append_nil _).symm, Or.inl rfl⟩

namespace Consistent

variable {s s' : Service ι σ₁ σ₂} {i : ι} {o : ServiceOp}

theorem new (c₁ : ι → σ₁) (c₂ : ι → σ₂) (retryDeadline : ι → U64) (maxAttempts : ι → U32) :
    Consistent (Service.new c₁ c₂ retryDeadline maxAttempts) where
  joined i := ⟨[], [], [], .new (c₁ i) _ _, .new (c₂ i) rfl, List.nil_prefix, List.nil_prefix⟩
  calls _ := rfl
  fits := by
    intro i op hop
    cases hop
  sequential := rfl
  lawful := lawful_nil

/-- What is executed was issued. -/
theorem issued (hs : Consistent s) {e : Execution} (he : e ∈ executions s.history) :
    ∃ i, e.op ∈ issuedBy i s.history := by
  obtain ⟨ev, hev, hof⟩ := List.mem_filterMap.mp he
  obtain ⟨pre, post, hmid⟩ := List.append_of_mem hev
  cases ev with
  | executed i op ok payload =>
    cases hof
    have hjust : Justified pre (.executed i op ok payload) := by
      have := hs.lawful
      rw [hmid] at this
      exact this.middle
    refine ⟨i, ?_⟩
    rw [hmid, issuedBy_append]
    exact List.mem_append_left _ (List.mem_of_getElem? hjust)
  | issued | returned => cases hof

/-- **No answer is too long for its length prefix.** -/
theorem answers_short (hs : Consistent s) {r : Run} (hr : r ∈ runsOf i s.shared) :
    9 + r.answer.length < 2 ^ 32 := by
  obtain ⟨e, he, rfl⟩ := List.mem_map.mp hr
  have hexec : e ∈ executions s.history := by
    obtain ⟨ev, hev, hof⟩ := List.mem_filterMap.mp he
    refine List.mem_filterMap.mpr ⟨ev, hev, ?_⟩
    cases ev with
    | executed j op ok payload =>
      rw [Event.executionOf] at hof
      split at hof
      · exact hof
      · cases hof
    | issued | returned => cases hof
  have hops : ∀ op ∈ (executions s.history).map Execution.op, op.Below (2 ^ 32 - 10) := by
    intro op hop
    obtain ⟨e', he', rfl⟩ := List.mem_map.mp hop
    obtain ⟨j, hj⟩ := hs.issued he'
    exact (hs.fits j _ hj).below
  have hres : (e.ok, e.payload) ∈
      (thread apply ((executions s.history).map Execution.op) .empty).1 := by
    have hseq : thread apply ((executions s.history).map Execution.op) .empty = _ := hs.sequential
    rw [hseq]
    exact List.mem_map_of_mem hexec
  have hlen := thread_apply_below (n := 2 ^ 32 - 10) (by intro k v hv; cases hv) hops _ hres
  have : e.payload.length ≤ 2 ^ 32 - 10 := hlen
  show 9 + e.payload.length < 2 ^ 32
  omega

theorem calls_short (hs : Consistent s) {p : U8 × List U8} (hp : p ∈ (s.links i).calls) :
    9 + p.2.length < 2 ^ 32 ∧ (Op.decode p.1 p.2).isSome := by
  rw [hs.calls i] at hp
  obtain ⟨op, hop, rfl⟩ := List.mem_map.mp hp
  obtain ⟨hkey, hlen⟩ := hs.fits i op hop
  exact ⟨hlen, by rw [Op.call, Op.decode_encode hkey]; rfl⟩

/-- **The step of a link** keeps it joined and only executes operations of its client. -/
theorem link (hs : Consistent s) {l : Link σ₁ σ₂ (Shared ι)} {shared : Shared ι}
    (hop : (s.links i).op b T₁ T₂ s.shared o.link = .ok (l, shared)) (hdel : l.Delivers)
    (hfits : ∀ now op, o = .call now op → op.Fits)
    (hcount : b = .checked ∨ l.calls.length < 2 ^ 64) :
    (∃ reqs book replies, Joined (handler i) (runsOf i) l shared reqs book replies) ∧
    Sequential shared ∧ ∃ es, shared.2 = s.history ++ es ∧ ∀ e ∈ es, e.Executes i := by
  obtain ⟨reqs, book, replies, hl⟩ := hs.joined i
  have hcalls : ∀ p ∈ l.calls, 9 + p.2.length < 2 ^ 32 ∧ (Op.decode p.1 p.2).isSome := by
    intro p hp
    rw [(link_calls hop).1] at hp
    rcases List.mem_append.mp hp with hp | hp
    · exact hs.calls_short hp
    · obtain ⟨op, hmem, rfl⟩ := List.mem_map.mp hp
      rcases issuedBy_seen (i := i) (l := s.links i) (o := o) with ⟨now, op', ho, hnew⟩ | ⟨_, hnew⟩
      · rw [hnew, if_pos rfl, List.mem_singleton] at hmem
        obtain ⟨hkey, hlen⟩ := hfits now op' ho
        rw [hmem]
        exact ⟨hlen, by rw [Op.call, Op.decode_encode hkey]; rfl⟩
      · rw [hnew] at hmem
        cases hmem
  obtain ⟨reqs', book', replies', hl', hran⟩ := hl.op hop hdel (handler_journal i) hcount hcalls
  obtain ⟨hseq, hes⟩ := runs_add hran hs.sequential
  exact ⟨⟨reqs', book', replies', hl'⟩, hseq, hes⟩

/-- **What a server executes is the next of its client's calls.** -/
theorem lawful_executes (hs : Consistent s) {l : Link σ₁ σ₂ (Shared ι)} {shared : Shared ι}
    {es : List (Event ι)} {reqs : List Request} {book : List Entry} {replies : List Response}
    (hl : Joined (handler i) (runsOf i) l shared reqs book replies)
    (hshort : ∀ p ∈ l.calls, 9 + p.2.length < 2 ^ 32)
    (hcalls : l.calls = (s.links i).calls) (hhist : shared.2 = s.history ++ es)
    (hes : ∀ e ∈ es, e.Executes i) : Lawful Justified (s.history ++ es) := by
  apply lawful_append hs.lawful
  rintro es₁ e es₂ rfl
  obtain ⟨op, ok, payload, rfl, hkey⟩ := hes _ (List.mem_append_right _ List.mem_cons_self)
  have hes₁ : issuedBy i es₁ = [] :=
    issuedBy_executes (i := i) fun e he => hes e (List.mem_append_left _ he)
  have hruns := hl.runs_first hshort
  rw [hcalls, hs.calls i, runsOf, hhist, List.map_map] at hruns
  -- the execution's place among the runs is its place among the calls
  have hplace : ((executedBy i (s.history ++ (es₁ ++ .executed i op ok payload :: es₂))).map
      ((fun r : Run => (r.method, r.payload)) ∘ Execution.run))[
        (executedBy i (s.history ++ es₁)).length]? = some op.call := by
    rw [← List.append_assoc, executedBy_append, List.getElem?_map,
      List.getElem?_append_right (le_refl _), Nat.sub_self]
    simp [executedBy, Event.executionOf, Execution.run, Op.call]
  have hissued : ((issuedBy i s.history).map Op.call)[(executedBy i (s.history ++ es₁)).length]? =
      some op.call := by
    obtain ⟨more, hmore⟩ := hruns
    rw [← hmore, List.getElem?_append_left (List.getElem?_eq_some_iff.mp hplace).1, hplace]
  rw [List.getElem?_map] at hissued
  obtain ⟨op', hop', hcall⟩ := Option.map_eq_some_iff.mp hissued
  have hfits := hs.fits i op' (List.mem_of_getElem? hop')
  rw [Op.call_inj hfits.1 hkey hcall] at hop'
  show (issuedBy i (s.history ++ es₁))[(executedBy i (s.history ++ es₁)).length]? = some op
  rw [issuedBy_append, hes₁, List.append_nil, hop']

/-- **What is handed back has been executed.** -/
theorem lawful_seen (hs : Consistent s) {es : List (Event ι)}
    (hl : Lawful Justified (s.history ++ es)) (hes : ∀ e ∈ es, e.Executes i) :
    Lawful Justified (s.history ++ es ++ o.seen i (s.links i)) := by
  obtain ⟨reqs, book, replies, hjoined⟩ := hs.joined i
  apply lawful_append hl
  intro seen₁ e seen₂ hseen
  have he : e ∈ o.seen i (s.links i) := by
    rw [hseen]
    exact List.mem_append_right _ List.mem_cons_self
  cases o with
  | call now op =>
    obtain rfl := List.mem_singleton.mp he
    obtain rfl : seen₁ = [] := by
      have := congrArg List.length hseen
      simp only [ServiceOp.seen, List.length_append, List.length_cons, List.length_nil] at this
      exact List.eq_nil_of_length_eq_zero (by omega)
    show (s.links i).client.nextId.toNat = _
    rw [List.append_nil, issuedBy_append, issuedBy_executes hes, List.append_nil,
      hjoined.calling.next, hs.calls i, List.length_map]
  | pollCompleted =>
    obtain ⟨a, ha, rfl⟩ := List.mem_map.mp he
    obtain ⟨hid, r, hrun, hok, hpayload⟩ := hjoined.answer_run
      (fun p hp => (hs.calls_short hp).1) (fun r hr => hs.answers_short hr)
      (List.mem_append_right _ ha)
    refine ⟨hid, ?_⟩
    rw [runsOf, List.getElem?_map] at hrun
    obtain ⟨ex, hex, rfl⟩ := Option.map_eq_some_iff.mp hrun
    change (executedBy i s.history)[a.1.toNat]? = some ex at hex
    refine ⟨ex, ?_, hok, hpayload⟩
    rw [List.append_assoc, executedBy_append,
      List.getElem?_append_left (List.getElem?_eq_some_iff.mp hex).1]
    exact hex
  | _ => cases he

/-- **Every step keeps the invariant.** -/
theorem step (hs : Consistent s) (hstep : s.step b T₁ T₂ i o = .ok s') (hdel : (s'.links i).Delivers)
    (hfits : ∀ now op, o = .call now op → op.Fits)
    (hcount : b = .checked ∨ (s'.links i).calls.length < 2 ^ 64) : Consistent s' := by
  obtain ⟨⟨l, store, history⟩, hop, hstep⟩ := bind_eq_ok.mp hstep
  cases hstep
  dsimp only at hdel hcount
  rw [Function.update_self] at hdel hcount
  obtain ⟨⟨reqs, book, replies, hl⟩, hseq, es, hhist, hes⟩ := hs.link hop hdel hfits hcount
  obtain rfl : history = s.history ++ es := hhist
  obtain ⟨hcalls, hquiet⟩ := link_calls hop
  have hnone := fun j => executions_seen (i := i) (j := j) (l := s.links i) (o := o)
  have hissued : ∀ j, issuedBy j (s.history ++ es ++ o.seen i (s.links i)) =
      issuedBy j s.history ++ issuedBy j (o.seen i (s.links i)) := by
    intro j
    rw [issuedBy_append, issuedBy_append, issuedBy_executes hes, List.append_nil]
  -- a step that executes something makes no call
  have hlawful : Lawful Justified (s.history ++ es) := by
    rcases hquiet with hsame | hquiet
    · have hnil : es = [] := by
        have := congrArg Prod.snd hsame
        exact List.append_right_eq_self.mp this
      rw [hnil, List.append_nil]
      exact hs.lawful
    · rw [hquiet, List.map_nil, List.append_nil] at hcalls
      refine hs.lawful_executes hl ?_ hcalls rfl hes
      intro p hp
      rw [hcalls] at hp
      exact (hs.calls_short hp).1
  refine ⟨?_, ?_, ?_, ?_, hs.lawful_seen hlawful hes⟩
  · intro j
    dsimp only
    have hview : ∀ shared : Shared ι, shared.2 = s.history ++ es ++ o.seen i (s.links i) →
        runsOf j shared = runsOf j (store, s.history ++ es) := by
      intro shared h
      rw [runsOf, runsOf, h, executedBy_append, (hnone j).2, List.append_nil]
    rcases eq_or_ne j i with rfl | hij
    · rw [Function.update_self]
      exact ⟨reqs, book, replies, hl.view_eq (hview _ rfl)⟩
    · rw [Function.update_of_ne hij]
      obtain ⟨reqs, book, replies, hj⟩ := hs.joined j
      refine ⟨reqs, book, replies, hj.view_eq ?_⟩
      rw [hview _ rfl, runsOf, executedBy_append, executedBy_executes hes hij, List.append_nil]
      rfl
  · intro j
    show (Function.update s.links i l j).calls = (issuedBy j (_ ++ _)).map Op.call
    rw [hissued]
    rcases eq_or_ne j i with rfl | hij
    · rw [Function.update_self, hcalls, hs.calls j, List.map_append]
    · rw [Function.update_of_ne hij, hs.calls j]
      have hother : issuedBy j (o.seen i (s.links i)) = [] := by
        rcases issuedBy_seen (i := i) (l := s.links i) (o := o) with ⟨_, _, _, h⟩ | ⟨_, h⟩
        · rw [h, if_neg hij.symm]
        · exact h j
      rw [hother, List.append_nil]
  · intro j op hmem
    change op ∈ issuedBy j (_ ++ _) at hmem
    rw [hissued] at hmem
    rcases List.mem_append.mp hmem with hmem | hmem
    · exact hs.fits j op hmem
    · rcases issuedBy_seen (i := i) (l := s.links i) (o := o) with ⟨now, op', ho, h⟩ | ⟨_, h⟩
      · rw [h] at hmem
        split at hmem
        · rw [List.mem_singleton.mp hmem]
          exact hfits now op' ho
        · cases hmem
      · rw [h] at hmem
        cases hmem
  · show thread apply ((executions (_ ++ _)).map Execution.op) .empty =
      ((executions (_ ++ _)).map _, store)
    rw [executions_append, (hnone i).1, List.append_nil]
    exact hseq

end Consistent

/-- **The invariant holds in every run.** -/
theorem Service.Reach.consistent {s : Service ι σ₁ σ₂} {c₁ : ι → σ₁} {c₂ : ι → σ₂}
    {retryDeadline : ι → U64} {maxAttempts : ι → U32}
    (hr : Reach b T₁ T₂ Op.Fits (.new c₁ c₂ retryDeadline maxAttempts) s)
    (hcount : b = .checked ∨ ∀ i, (s.links i).calls.length < 2 ^ 64) : Consistent s := by
  induction hr with
  | start => exact .new c₁ c₂ retryDeadline maxAttempts
  | @step s s' i o _ hfits hstep hdel ih =>
    have hs : Consistent s := by
      apply ih
      refine hcount.imp_right fun h j => lt_of_le_of_lt ?_ (h j)
      obtain ⟨⟨l, store, history⟩, hop, hstep⟩ := bind_eq_ok.mp hstep
      cases hstep
      dsimp only
      rcases eq_or_ne j i with rfl | hij
      · rw [Function.update_self]
        exact (Link.op_calls hop).length_le
      · rw [Function.update_of_ne hij]
    exact hs.step hstep hdel hfits (hcount.imp_right fun h => h i)

/-- The first frame of a request that is too long for its length field, as a server reads it. -/
def cutRequest : List U8 := [11, 0, 0, 0, 0, 0, 0, 0, 0, 0, 0, 0, 1, 0, 0]

/-- The server of the client, once it has served what it read. -/
def misled : RpcServer (Tapped (List U8)) (Shared Unit) where
  conn := ⟨[], cutRequest, frame (Response.encode ⟨0, true, []⟩)⟩
  reader := ⟨[]⟩
  handler := handler ()
  seen := OrdMap.empty.insert 0 ⟨0, true, []⟩
  executions := 1

/-- The service before anything has happened. -/
def fresh : Service Unit (List U8) (List U8) :=
  .new (fun _ => []) (fun _ => []) (fun _ => 25) (fun _ => 60)

/-- The service after the call. -/
def called (v : List U8) : Service Unit (List U8) (List U8) where
  links _ := { (fresh.links ()) with
    client := { (fresh.links ()).client with
      conn := ⟨[], [], frame (Request.encode ⟨0, METHOD_PUT, (Op.put [] v).encodePayload⟩)⟩
      nextId := 1
      pending := OrdMap.empty.insert 0 ⟨⟨0, METHOD_PUT, (Op.put [] v).encodePayload⟩, 0, 1⟩ }
    calls := [(METHOD_PUT, (Op.put [] v).encodePayload)] }
  shared := (.empty, [.issued () 0 (.put [] v)])

/-- The service after the first bytes of the request have come in. -/
def cut (v : List U8) : Service Unit (List U8) (List U8) where
  links := Function.update (called v).links () { (called v).links () with server := misled }
  shared := ((apply (.put [] []) .empty).2,
    [.issued () 0 (.put [] v), .executed () (.put [] []) true []])

end Distrans.Workload

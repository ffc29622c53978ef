import Distrans.Transport.Honest
import Distrans.Workload.ChaosOutcome
import Distrans.Workload.ChaosSeat
import Distrans.Workload.Stack

/-!
# The chaos harness runs the service

The harness is a run of the service over its network, if none of its profiles both corrupts and
truncates: then what a channel spoils carries nothing.

* `Mirrors` — the harness is a state of such a run, seat by seat.
* `chaos_executes_once` — **when a chaos run has drained, each client's calls have been executed in
  order and at most once, and every call that has not failed has been executed.**
-/

set_option autoImplicit false

namespace Distrans.Workload

open Machine

/-! ## Small operations -/

/-- A short request, and at most eight bytes to put. -/
structure Op.Small (op : Op) : Prop where
  key : op.KeyFits
  request : 13 + op.encodePayload.length ≤ 44
  value : op.Below 8

theorem drawBytes_length : ∀ (n : Nat) (r : SplitMix64), (drawBytes n r).1.length = n
  | 0, _ => rfl
  | n + 1, r => congrArg (· + 1) (drawBytes_length n r.nextU64.2)

theorem keyBytes_length {n : Nat} (h : n < 2 ^ 64) : (keyBytes n).length ≤ 21 := by
  have hdigits : (Nat.toDigits 10 n).length ≤ 20 :=
    Nat.toDigits_length 10 n 20 (by decide) (lt_trans h (by decide))
  rw [keyBytes, List.length_map, List.length_cons]
  omega

theorem drawOp_small {keySpace : Nat} {r r' : SplitMix64} {op : Op} (hkeys : keySpace ≤ 2 ^ 64)
    (h : drawOp keySpace r = .ok (op, r')) : op.Small := by
  obtain ⟨⟨n, r₁⟩, hn, h⟩ := bind_eq_ok.mp h
  obtain ⟨⟨kind, r₂⟩, _, h⟩ := bind_eq_ok.mp h
  have hkey := keyBytes_length (Nat.lt_of_lt_of_le (below_lt hn) hkeys)
  dsimp only at h
  split at h
  · cases h
    exact ⟨trivial, by simp only [Op.encodePayload]; omega, trivial⟩
  · obtain ⟨⟨len, r₃⟩, hlen, h⟩ := bind_eq_ok.mp h
    cases h
    have hvalue := drawBytes_length (1 + len) r₃
    have hlt := below_lt hlen
    refine ⟨?_, ?_, ?_⟩
    · show (keyBytes n).length < 65536
      omega
    · simp only [Op.encodePayload, List.length_append, toLe_length]
      omega
    · show (drawBytes (1 + len) r₃).1.length ≤ 8
      omega
  · cases h
    exact ⟨trivial, by simp only [Op.encodePayload]; omega, trivial⟩

/-- Every call of a schedule is small, and of one of the clients. -/
theorem schedule_small {b : Build} {clients keySpace : Nat} (hkeys : keySpace ≤ 2 ^ 64) :
    ∀ {calls : Nat} {t : U64} {r : SplitMix64} {plan : List (U64 × Nat × Op)},
    schedule b clients keySpace calls t r = .ok plan → ∀ c ∈ plan, c.2.1 < clients ∧ c.2.2.Small
  | 0, _, _, _, h => by
    cases h
    rintro _ ⟨⟩
  | calls + 1, t, r, [], h => by
    rintro _ ⟨⟩
  | calls + 1, t, r, c :: rest, h => by
    obtain ⟨_, hclient, ⟨r₁, r₂, hop⟩, r', hrest⟩ := schedule_cons h
    intro c' hc'
    rcases List.mem_cons.mp hc' with rfl | hc'
    · exact ⟨hclient, drawOp_small hkeys hop⟩
    · exact schedule_small hkeys hrest c' hc'

/-- The operations of a client in a plan. -/
def opsOf (i : Nat) (plan : List (U64 × Nat × Op)) : List Op :=
  plan.filterMap fun c => if c.2.1 = i then some c.2.2 else none

variable {b : Build} {config : ChaosConfig} {plan : List (U64 × Nat × Op)} {i : Nat}

theorem mem_opsOf {op : Op} (h : op ∈ opsOf i plan) : ∃ c ∈ plan, c.2.2 = op := by
  obtain ⟨c, hc, hop⟩ := List.mem_filterMap.mp h
  split at hop
  · cases hop
    exact ⟨c, hc, rfl⟩
  · cases hop

/-- The next call of the plan. -/
theorem opsOf_next {n : Nat} {t : U64} {op : Op} (h : plan[n]? = some (t, i, op)) (j : Nat) :
    opsOf j (plan.take (n + 1)) = opsOf j (plan.take n) ++ if j = i then [op] else [] := by
  rw [List.take_add_one, h, opsOf, List.filterMap_append]
  by_cases hij : j = i
  · simp [opsOf, hij]
  · simp [opsOf, hij, Ne.symm hij]

/-! ## Short answers -/

/-- Nothing longer than eight bytes is stored, or has been answered. -/
def Brief (shared : Shared Nat) : Prop :=
  shared.1.Below 8 ∧ ∀ e ∈ executions shared.2, e.payload.length ≤ 8

/-- The handler keeps it so, and gives short answers, when what it is given to put is short. -/
theorem Brief.handler {shared : Shared Nat} (h : Brief shared) {method : U8} {payload : List U8}
    (hop : ∃ op, Op.decode method payload = some op ∧ op.Below 8) :
    13 + (handler i method payload shared).1.2.length ≤ 21 ∧
      Brief (handler i method payload shared).2 := by
  obtain ⟨op, hdec, hop⟩ := hop
  obtain ⟨hstore, hlog⟩ := h
  rcases handler_cases i method payload shared with ⟨hnone, _⟩ | ⟨op', hdec', hrun⟩
  · rw [hdec] at hnone
    cases hnone
  · obtain rfl : op = op' := Option.some.inj (hdec.symm.trans hdec')
    obtain ⟨hres, hstore'⟩ := apply_below hstore hop
    rw [hrun]
    refine ⟨by dsimp only; omega, hstore', fun e he => ?_⟩
    rw [executions_append] at he
    rcases List.mem_append.mp he with he | he
    · exact hlog e he
    · obtain rfl := List.mem_singleton.mp he
      exact hres

theorem Brief.ran {shared shared' : Shared Nat} (h : Brief shared)
    (hr : RpcServer.Ran (Workload.handler i) (fun method payload =>
      ∃ op, Op.decode method payload = some op ∧ op.Below 8) shared shared') : Brief shared' :=
  hr.preserves (fun _ _ _ hop hb => (Brief.handler hb hop).2) h

/-- A client's executions are among all. -/
theorem executedBy_sublist (i : Nat) (history : List (Event Nat)) :
    (executedBy i history).Sublist (executions history) := by
  induction history with
  | nil => exact .slnil
  | cons ev history ih =>
    cases ev with
    | executed j op ok payload =>
      by_cases hij : j = i
      · simpa [executedBy, executions, Event.executionOf, Event.execution, hij] using ih
      · simpa [executedBy, executions, Event.executionOf, Event.execution, hij] using ih.cons _
    | issued | returned => exact ih

theorem Brief.runs {shared : Shared Nat} (h : Brief shared) {r : Run} (hr : r ∈ runsOf i shared) :
    13 + r.answer.length ≤ 21 := by
  obtain ⟨e, he, rfl⟩ := List.mem_map.mp hr
  have hlen := h.2 e ((executedBy_sublist i _).subset he)
  show 13 + e.payload.length ≤ 21
  omega

/-! ## The invariant -/

/-- The service that the harness runs, with the clients that keep one record more, and what they
have given back. -/
structure Ghost where
  service : Service Nat Endpoint Endpoint
  noted : Nat → RpcClient (Noted (Tapped Endpoint))
  outs : Nat → List ClientOut

/-- A step of the service, at the seat of one client. -/
def Ghost.move (g : Ghost) (i : Nat) (service : Service Nat Endpoint Endpoint)
    (n : RpcClient (Noted (Tapped Endpoint))) (outs : List ClientOut) : Ghost where
  service
  noted := Function.update g.noted i n
  outs := Function.update g.outs i outs

/-- How many calls each client has been told have failed. -/
def Ghost.failures (g : Ghost) (i : Nat) : Nat := ((g.outs i).flatMap ClientOut.failures).length

/-- **The harness is the service, seat by seat**; `k` counts the ticks and the polls of the turn. -/
structure Mirrors (b : Build) (config : ChaosConfig) (plan : List (U64 × Nat × Op)) (g : Ghost)
    (k : Nat) (h : Harness) : Prop where
  size : 2640 * plan.length < 2 ^ 32
  small : ∀ c ∈ plan, c.2.2.Small
  links : h.links.length = config.clients
  servers : h.servers.length = config.clients
  run : g.service.Run b (fun _ => transportConfig) (fun _ => transportConfig)
  fits : ∀ i, (g.service.links i).Fits
  seated : ∀ {i link server}, h.At i link server →
    Seat i (g.service.links i) (g.noted i) (g.outs i) link server
  polled : ∀ {i link server}, h.At i link server → config.clients + i < k → link.client.failed = []
  shared : logOf g.service.shared = h.shared
  brief : Brief g.service.shared
  fired : h.fired ≤ plan.length
  calls : ∀ i, (g.service.links i).calls = (opsOf i (plan.take h.fired)).map Op.call
  failed : h.callsFailed = ((List.range config.clients).map g.failures).sum

theorem sum_range_move {f q : Nat → Nat} {n d : Nat} (hi : i < n) (hf : q i = f i + d)
    (hsame : ∀ j, j ≠ i → q j = f j) :
    ((List.range n).map q).sum = ((List.range n).map f).sum + d := by
  induction n with
  | zero => omega
  | succ n ih =>
    simp only [List.range_succ, List.map_append, List.sum_append, List.map_singleton,
      List.sum_singleton]
    rcases Nat.lt_succ_iff_lt_or_eq.mp hi with hlt | rfl
    · rw [ih hlt, hsame n (by omega)]
      omega
    · have heq : (List.range i).map q = (List.range i).map f :=
        List.map_congr_left fun j hj => hsame j (by have := List.mem_range.mp hj; omega)
      rw [heq, hf]
      omega

/-- After a step at one seat, the others are as before. -/
theorem at_put {h : Harness} {j : Nat} {link link' link'' : ClientLink}
    {server server' server'' : Server} {shared' : Served} (hat : h.At i link server)
    (hj : (h.put i link' server' shared').At j link'' server'') :
    (j = i ∧ link'' = link' ∧ server'' = server') ∨ (j ≠ i ∧ h.At j link'' server'') := by
  rcases eq_or_ne j i with rfl | hij
  · have hnew := hat.put link' server' shared'
    exact Or.inl ⟨rfl, Option.some.inj (hj.link.symm.trans hnew.link),
      Option.some.inj (hj.server.symm.trans hnew.server)⟩
  · refine Or.inr ⟨hij, ?_, ?_⟩
    · rw [← hj.link]
      exact (List.getElem?_set_ne hij.symm).symm
    · rw [← hj.server]
      exact (List.getElem?_set_ne hij.symm).symm

namespace Mirrors

variable {g : Ghost} {k m : Nat} {h : Harness} {link link' : ClientLink} {server server' : Server}

theorem call_small (hM : Mirrors b config plan g k h) {p : U8 × List U8}
    (hp : p ∈ (opsOf i plan).map Op.call) : 13 + p.2.length ≤ 44 ∧
      ∃ op, Op.decode p.1 p.2 = some op ∧ op.Below 8 := by
  obtain ⟨op, hop, rfl⟩ := List.mem_map.mp hp
  obtain ⟨c, hc, rfl⟩ := mem_opsOf hop
  have hsmall := hM.small c hc
  exact ⟨hsmall.request, _, Op.decode_encode hsmall.key, hsmall.value⟩

theorem opsOf_take_subset (n : Nat) : opsOf i (plan.take n) ⊆ opsOf i plan :=
  (List.Sublist.filterMap _ (List.take_sublist n plan)).subset

/-- No client has made more calls than the plan has. -/
theorem calls_le (n : Nat) : ((opsOf i (plan.take n)).map Op.call).length ≤ plan.length := by
  rw [List.length_map]
  exact Nat.le_trans (List.length_filterMap_le _ _) (List.length_take_le' n plan)

/-- The calls that a client has made are short, and as many as the plan has at most. -/
theorem called (hM : Mirrors b config plan g k h) (i : Nat) :
    (g.service.links i).calls.length ≤ plan.length ∧ ∀ p ∈ (g.service.links i).calls,
      13 + p.2.length ≤ 44 ∧ ∃ op, Op.decode p.1 p.2 = some op ∧ op.Below 8 := by
  rw [hM.calls i]
  refine ⟨calls_le _, fun p hp => ?_⟩
  obtain ⟨op, hop, rfl⟩ := List.mem_map.mp hp
  exact hM.call_small (List.mem_map_of_mem (opsOf_take_subset _ hop))

/-- A step at one seat. -/
theorem move (hM : Mirrors b config plan g k h) (hat : h.At i link server) {o : ServiceOp}
    {l : Link Endpoint Endpoint (Shared Nat)} {app : Shared Nat}
    {n : RpcClient (Noted (Tapped Endpoint))} {out : List ClientOut} {shared' : Served}
    {fired failed : Nat} (expected : List U64) (hlegal : g.service.Legal i o)
    (hkey : ∀ now op, o = .call now op → op.KeyFits)
    (hop : (g.service.links i).op b (Endpoint.transport b) (Endpoint.transport b) g.service.shared
      o.link = .ok (l, app))
    (hfits : l.Fits) (hseat : Seat i l n (g.outs i ++ out) link' server')
    (hpolled : config.clients + i < m → link'.client.failed = [])
    (hk : ∀ j, j ≠ i → config.clients + j < m → config.clients + j < k)
    (hshared : logOf app = shared') (hbrief : Brief app) (hfired : fired ≤ plan.length)
    (hcalls : ∀ j, (if j = i then l.calls else (g.service.links j).calls) =
      (opsOf j (plan.take fired)).map Op.call)
    (hfailed : failed = h.callsFailed + (out.flatMap ClientOut.failures).length) :
    ∃ g', g'.service.links i = l ∧ Mirrors b config plan g' m { h.put i link' server' shared' with
      fired, callsFailed := failed, expectedCompletions := expected } := by
  have hstep : g.service.step b (Endpoint.transport b) (Endpoint.transport b) i o =
      .ok ⟨Function.update g.service.links i l, (app.1, app.2 ++ o.seen i (g.service.links i))⟩ := by
    rw [Service.step, hop]
    rfl
  have hexec : executions (app.2 ++ o.seen i (g.service.links i)) = executions app.2 := by
    rw [executions_append, (executions_seen (i := i) (j := i)).1, List.append_nil]
  have hlt : i < config.clients := by
    rw [← hM.links]
    exact (List.getElem?_eq_some_iff.mp hat.link).1
  refine ⟨g.move i _ n (g.outs i ++ out), ?_, hM.size, hM.small, ?_, ?_,
    hM.run.step hlegal hkey hstep, ?_, ?_, ?_, ?_, ?_, hfired, ?_, ?_⟩
  · exact Function.update_self i l g.service.links
  · rw [Harness.put, List.length_set, hM.links]
  · rw [Harness.put, List.length_set, hM.servers]
  · intro j
    show Link.Fits (Function.update g.service.links i l j)
    rcases eq_or_ne j i with rfl | hij
    · rwa [Function.update_self]
    · rw [Function.update_of_ne hij]
      exact hM.fits j
  · intro j link'' server'' hj
    show Seat j (Function.update g.service.links i l j) (Function.update g.noted i n j)
      (Function.update g.outs i (g.outs i ++ out) j) link'' server''
    have hput : (h.put i link' server' shared').At j link'' server'' := ⟨hj.link, hj.server⟩
    rcases at_put hat hput with ⟨rfl, rfl, rfl⟩ | ⟨hij, hj⟩
    · rwa [Function.update_self, Function.update_self, Function.update_self]
    · rw [Function.update_of_ne hij, Function.update_of_ne hij, Function.update_of_ne hij]
      exact hM.seated hj
  · intro j link'' server'' hj hdone
    have hput : (h.put i link' server' shared').At j link'' server'' := ⟨hj.link, hj.server⟩
    rcases at_put hat hput with ⟨rfl, rfl, rfl⟩ | ⟨hij, hj⟩
    · exact hpolled hdone
    · exact hM.polled hj (hk j hij hdone)
  · rw [← hshared]
    exact Prod.ext rfl hexec
  · refine ⟨hbrief.1, fun e he => hbrief.2 e ?_⟩
    rw [← hexec]
    exact he
  · intro j
    show (Function.update g.service.links i l j).calls = _
    rw [← hcalls j]
    rcases eq_or_ne j i with rfl | hij
    · rw [Function.update_self, if_pos rfl]
    · rw [Function.update_of_ne hij, if_neg hij]
  · show failed = _
    rw [hfailed, hM.failed]
    refine (sum_range_move hlt ?_ fun j hij => ?_).symm
    · show ((Function.update g.outs i (g.outs i ++ out) i).flatMap ClientOut.failures).length =
        ((g.outs i).flatMap ClientOut.failures).length + _
      rw [Function.update_self, List.flatMap_append, List.length_append]
    · show ((Function.update g.outs i (g.outs i ++ out) j).flatMap ClientOut.failures).length =
        ((g.outs j).flatMap ClientOut.failures).length
      rw [Function.update_of_ne hij]

/-- **A step of a client.** -/
theorem client (hM : Mirrors b config plan g k h) (hat : h.At i link server) {o : ServiceOp}
    {a : ClientOp} {π : Shuffle} {client : RpcClient Connection} {out : ClientOut} {c2s : Channel}
    {fired : Nat} (expected : List U64) (ho : o.clientOp = some (a, π))
    (hlegal : g.service.Legal i o) (hkey : ∀ now op, o = .call now op → op.KeyFits)
    (hr : link.client.op b (Connection.transport b) π a = .ok (client, out))
    (hsend : sendAll b link.c2s out.datagrams = .ok c2s)
    (hpolled : config.clients + i < m → client.failed = [])
    (hk : ∀ j, j ≠ i → config.clients + j < m → config.clients + j < k)
    (hfired : fired ≤ plan.length)
    (hcalls : ∀ j, (opsOf j (plan.take fired)).map Op.call =
      (opsOf j (plan.take h.fired)).map Op.call ++ if j = i then callsOf [a] else []) :
    ∃ g', (g'.service.links i).server = (g.service.links i).server ∧
      Mirrors b config plan g' m { h.put i { link with client, c2s } server h.shared with
        fired
        callsFailed := h.callsFailed + out.failures.length
        expectedCompletions := expected } := by
  have hseat := hM.seated hat
  have hsize := hM.size
  have hcount : (g.service.links i).calls.length + 1 < 2 ^ 64 := by
    have := (hM.called i).1
    omega
  obtain ⟨l, n, hop, hserver, hadded, hseat'⟩ :=
    hseat.clientStep g.service.shared ho hcount hr hsend
  have hl : l.calls = (opsOf i (plan.take fired)).map Op.call := by
    rw [hadded, hM.calls i, hcalls i, if_pos rfl]
  have hfits : l.Fits := by
    refine ⟨?_, hserver ▸ (hM.fits i).2⟩
    have hshort : ∀ p ∈ l.calls, 13 + p.2.length ≤ 44 := by
      intro p hp
      rw [hl] at hp
      obtain ⟨op, hop, rfl⟩ := List.mem_map.mp hp
      exact (hM.call_small (List.mem_map_of_mem (opsOf_take_subset _ hop))).1
    have hsent := hseat'.sent_le hshort
    have hle : l.calls.length ≤ plan.length := by
      rw [hl]
      exact calls_le _
    omega
  have hall : ∀ j, (if j = i then l.calls else (g.service.links j).calls) =
      (opsOf j (plan.take fired)).map Op.call := by
    intro j
    split
    · rename_i hij
      rw [hij, hl]
    · rename_i hij
      rw [hM.calls j, hcalls j, if_neg hij, List.append_nil]
  have hfailed : h.callsFailed + out.failures.length =
      h.callsFailed + ([out].flatMap ClientOut.failures).length := by simp
  obtain ⟨g', hlink, hM'⟩ := hM.move hat expected hlegal hkey hop hfits hseat' hpolled hk hM.shared
    hM.brief hfired hall hfailed
  exact ⟨g', by rw [hlink, hserver], hM'⟩

/-- What is known of the service. -/
theorem consistent (hM : Mirrors b config plan g k h) :
    Consistent g.service ∧ ∀ i, Stacked (g.service.links i) := by
  obtain ⟨hlayers, hreach⟩ := hM.run.reach (fun _ => by decide) fun _ => by decide
  obtain ⟨_, _, _, _, hreach⟩ := hreach hM.fits
  refine ⟨hreach.consistent (Or.inr fun i => ?_), hlayers.stacked⟩
  have := (hM.called i).1
  have := hM.size
  omega

/-- The requests that a client has sent. -/
theorem asked (hM : Mirrors b config plan g k h) (hat : h.At i link server) : ∃ rs : List Request,
    (g.service.links i).client.conn.sent = written rs ∧ rs.length ≤ 60 * plan.length ∧
    (∀ q ∈ rs, q.encode.length < 2 ^ 32) ∧
    ∀ q ∈ rs, ∃ op, Op.decode q.method q.payload = some op ∧ op.Below 8 := by
  obtain ⟨rs, hsent, hrs, hlen⟩ := (hM.seated hat).requests_le
  obtain ⟨hle, hcall⟩ := hM.called i
  refine ⟨rs, hsent, Nat.le_trans hlen (Nat.mul_le_mul_left 60 hle), fun q hq => ?_, fun q hq => ?_⟩
  · have hshort := (hcall _ (mem_calls (hrs hq))).1
    rw [Request.encode_length]
    dsimp only at hshort
    omega
  · exact (hcall _ (mem_calls (hrs hq))).2

/-- **A delivery to a server.** -/
theorem serve (hM : Mirrors b config plan g k h) (hat : h.At i link server) {d : Datagram}
    {served : Served} {out : List Datagram} {s2c : Channel}
    (hd : d ∈ (g.service.links i).client.conn.conn.emitted ∨ Datagram.Noise d)
    (hr : server.onDatagram (Connection.transport b) h.shared h.tick d = .ok (server', served, out))
    (hsend : sendAll b link.s2c out = .ok s2c) :
    ∃ g', (g'.service.links i).client = (g.service.links i).client ∧
      Mirrors b config plan g' k (h.put i { link with s2c } server' served) := by
  have hseat := hM.seated hat
  obtain ⟨hcons, hstacked⟩ := hM.consistent
  rw [← hM.shared] at hr
  obtain ⟨s, app, hr', hlog, hseat'⟩ := hseat.serve hr hsend
  -- what has come in is part of the requests that have gone out
  obtain ⟨rs, hsent, hlen, hshort, hcall⟩ := hM.asked hat
  have hrecv : s.conn.received <+: written rs := by
    rw [← hsent]
    exact (hstacked i).received (hM.fits i) hd hr'
  have hfirst : requests s.conn.received <+: rs := decoded_first Request.decode_encode hshort hrecv
  obtain ⟨reqs, book, replies, hjoined⟩ := hcons.joined i
  have hjournal : Journal (handler i) (fun method payload => ∃ op, Op.decode method payload = some op ∧
      op.Below 8) (runsOf i) := fun method payload app ⟨op, hdec, _⟩ =>
    handler_journal i method payload app (Option.isSome_iff_exists.mpr ⟨op, hdec⟩)
  obtain ⟨book', more, _, hhosting, hran⟩ := hjoined.hosting.onDatagram hr' hjournal fun q hq =>
    hcall q (hfirst.subset hq)
  have hbrief := hM.brief.ran hran
  have hfits : Link.Fits { g.service.links i with server := s } := by
    refine ⟨(hM.fits i).1, ?_⟩
    have hle := hhosting.sent_le hrecv hshort fun r hr => hbrief.runs hr
    have hsize := hM.size
    show s.conn.sent.length < 2 ^ 32
    omega
  have hop : (g.service.links i).op b (Endpoint.transport b) (Endpoint.transport b)
      g.service.shared (ServiceOp.serverDatagram h.tick d).link =
        .ok ({ g.service.links i with server := s }, app) := by
    rw [ServiceOp.link, Link.op, hr', ok_bind]
  have hall : ∀ j, (if j = i then (g.service.links i).calls else (g.service.links j).calls) =
      (opsOf j (plan.take h.fired)).map Op.call := by
    intro j
    rw [← hM.calls j]
    split
    · rename_i hij
      rw [hij]
    · rfl
  have hpolled : config.clients + i < k → link.client.failed = [] := hM.polled hat
  rw [← List.append_nil (g.outs i)] at hseat'
  obtain ⟨g', hlink, hM'⟩ := hM.move hat h.expectedCompletions (o := .serverDatagram h.tick d) hd
    (fun _ _ ho => by cases ho) hop hfits hseat' hpolled (fun _ _ => id) hlog hbrief hM.fired hall
    (Nat.add_zero _).symm
  exact ⟨g', by rw [hlink], hM'⟩

/-- A step of the channels of a seat. -/
theorem put (hM : Mirrors b config plan g k h) (hat : h.At i link server)
    (hclient : link'.client = link.client)
    (hseat : Seat i (g.service.links i) (g.noted i) (g.outs i) link' server') :
    Mirrors b config plan g k (h.put i link' server' h.shared) := by
  refine { hM with links := ?_, servers := ?_, seated := fun hj => ?_, polled := fun hj hdone => ?_ }
  · rw [Harness.put, List.length_set, hM.links]
  · rw [Harness.put, List.length_set, hM.servers]
  · rcases at_put hat hj with ⟨rfl, rfl, rfl⟩ | ⟨_, hj⟩
    · exact hseat
    · exact hM.seated hj
  · rcases at_put hat hj with ⟨rfl, rfl, rfl⟩ | ⟨_, hj⟩
    · rw [hclient]
      exact hM.polled hat hdone
    · exact hM.polled hj hdone

theorem serverTick (hM : Mirrors b config plan g k h) (hat : h.At i link server)
    {out : List Datagram} {s2c : Channel} (hle : m ≤ config.clients)
    (hr : server.onTick (Connection.transport b) h.tick = .ok (server', out))
    (hsend : sendAll b link.s2c out = .ok s2c) :
    ∃ g', Mirrors b config plan g' m (h.put i { link with s2c } server' h.shared) := by
  obtain ⟨s, hop, hsent, hseat'⟩ := (hM.seated hat).serverTick g.service.shared hr hsend
  have hfits : Link.Fits { g.service.links i with server := s } := by
    refine ⟨(hM.fits i).1, ?_⟩
    show s.conn.sent.length < 2 ^ 32
    rw [hsent]
    exact (hM.fits i).2
  have hall : ∀ j, (if j = i then (g.service.links i).calls else (g.service.links j).calls) =
      (opsOf j (plan.take h.fired)).map Op.call := by
    intro j
    rw [← hM.calls j]
    split
    · rename_i hij
      rw [hij]
    · rfl
  rw [← List.append_nil (g.outs i)] at hseat'
  obtain ⟨g', _, hM'⟩ := hM.move hat h.expectedCompletions (o := .serverTick h.tick) trivial
    (fun _ _ ho => by cases ho) hop hfits hseat' (m := m) (fun hdone => by omega)
    (fun j _ hdone => by omega) hM.shared hM.brief hM.fired hall (Nat.add_zero _).symm
  exact ⟨g', hM'⟩

/-- **The harness stays a state of the service**, if no profile both corrupts and truncates. -/
theorem rule {orders : Nat → Nat → Shuffle} (hswitch : ∀ s ∈ config.profileSwitches, s.2.Sound) :
    Rule b config plan orders (Mirrors b config plan)
      (fun g i d => d ∈ (g.service.links i).client.conn.conn.emitted ∨ Datagram.Noise d)
      (fun g i d => d ∈ (g.service.links i).server.conn.conn.emitted ∨ Datagram.Noise d) where
  sized hM := ⟨hM.links, hM.servers⟩
  clock {g _ _} hM _ _ _ := ⟨g, { hM with
    seated := fun hat => hM.seated ⟨hat.link, hat.server⟩
    polled := fun _ hdone => absurd hdone (Nat.not_lt_zero _) }⟩
  relink {g _ _ _ _ _ _ _ _ _} hM hat hmem hmake :=
    ⟨g, hM.put hat rfl ((hM.seated hat).relink (hswitch _ hmem) hmake)⟩
  switched hM := { hM with
    seated := fun hat => hM.seated ⟨hat.link, hat.server⟩
    polled := fun hat => hM.polled ⟨hat.link, hat.server⟩ }
  call {g h i link server t op client id out c2s} hM hat hdue _ hr hsend := by
    have hlt := (List.getElem?_eq_some_iff.mp hdue).1
    have hsmall := hM.small _ (List.mem_of_getElem? hdue)
    have hop : link.client.op b (Connection.transport b) .ascending
        (.call h.tick op.method op.encodePayload) = .ok (client, .issued id out) := by
      rw [Workload.call] at hr
      rw [RpcClient.op, hr, ok_bind]
    obtain ⟨g', _, hM'⟩ := hM.client hat (h.expectedCompletions ++ [id]) (o := .call h.tick op) rfl
      trivial (fun _ _ ho => by cases ho; exact hsmall.key) hop hsend (m := 0)
      (fun hdone => absurd hdone (Nat.not_lt_zero _))
      (fun _ _ hdone => absurd hdone (Nat.not_lt_zero _)) hlt fun j => by
        rw [opsOf_next hdue, List.map_append]
        split <;> rfl
    exact ⟨g', hM'⟩
  arriveServer hM hat hr := by
    obtain ⟨hseat, hds⟩ := (hM.seated hat).arriveServer hr
    exact ⟨hM.put hat rfl hseat, hds⟩
  serve hM hat hd hr hsend := by
    obtain ⟨g', hclient, hM'⟩ := hM.serve hat hd hr hsend
    exact ⟨g', hM', fun d hd => by rw [hclient]; exact hd⟩
  arriveClient hM hat hr := by
    obtain ⟨hseat, hds⟩ := (hM.seated hat).arriveClient hr
    exact ⟨hM.put hat rfl hseat, hds⟩
  hear {g h i link server d client out c2s} hM hat hd hr hsend := by
    have hlt := (List.getElem?_eq_some_iff.mp hat.link).1
    rw [hM.links] at hlt
    have hop : link.client.op b (Connection.transport b) .ascending (.datagram h.tick d) =
        .ok (client, .sent out) := by
      rw [RpcClient.op, hr, ok_bind]
    obtain ⟨g', hserver, hM'⟩ := hM.client hat h.expectedCompletions (o := .clientDatagram h.tick d)
      rfl hd (fun _ _ ho => by cases ho) hop hsend (m := i) (fun hdone => by omega)
      (fun _ _ => id) hM.fired fun j => by simp [callsOf]
    exact ⟨g', hM', fun d hd => by rw [hserver]; exact hd⟩
  clientTick {g h i link server client out c2s} hM hat hr hsend := by
    have hlt := (List.getElem?_eq_some_iff.mp hat.link).1
    rw [hM.links] at hlt
    have hop : link.client.op b (Connection.transport b) (orders h.tick.toNat i) (.tick h.tick) =
        .ok (client, .sent out) := by
      rw [RpcClient.op, hr, ok_bind]
    obtain ⟨g', _, hM'⟩ := hM.client hat h.expectedCompletions
      (o := .clientTick h.tick (orders h.tick.toNat i)) rfl trivial (fun _ _ ho => by cases ho) hop
      hsend (m := i + 1) (fun hdone => by omega) (fun _ _ hdone => by omega) hM.fired
      fun j => by simp [callsOf]
    exact ⟨g', hM'⟩
  serverTick {g h i link server server' out s2c} hM hat hr hsend := by
    have hlt := (List.getElem?_eq_some_iff.mp hat.link).1
    rw [hM.links] at hlt
    exact hM.serverTick hat hlt hr hsend
  poll {g h i link server} hM hat := by
    have hnil : ∀ c : Channel, sendAll b c [] = .ok c := fun _ => rfl
    obtain ⟨g₁, _, hM₁⟩ := hM.client hat h.expectedCompletions (o := .pollCompleted) rfl trivial
      (fun _ _ ho => by cases ho) rfl (hnil link.c2s) (m := config.clients + i)
      (fun hdone => by omega) (fun _ _ => id) hM.fired fun j => by simp [callsOf]
    have hat₁ := hat.put { link with client := link.client.pollCompleted.1 } server h.shared
    obtain ⟨g₂, _, hM₂⟩ := hM₁.client (h := h.put i _ server h.shared) hat₁ h.expectedCompletions
      (o := .pollFailed) rfl trivial (fun _ _ ho => by cases ho) rfl (hnil link.c2s)
      (m := config.clients + (i + 1)) (fun _ => rfl) (fun j hij hdone => by omega) hM.fired
      fun j => by simp [callsOf, Harness.put]
    simp only [Harness.put_put] at hM₂
    exact ⟨g₂, hM₂⟩

end Mirrors

/-! ## The beginning -/

theorem transportConfig_sane : transportConfig.Sane := by
  constructor <;> decide

theorem launch_mirrors {h : Harness} (hprofile : config.initialProfile.Sound)
    (hsize : 2640 * plan.length < 2 ^ 32) (hsmall : ∀ c ∈ plan, c.2.2.Small)
    (h₀ : launch b config = .ok h) : ∃ g, Mirrors b config plan g (config.clients + config.clients) h ∧
      h.tick = 0 ∧ h.fired = 0 := by
  obtain ⟨parts, hparts, h₀⟩ := bind_eq_ok.mp h₀
  obtain ⟨links, hlinks, h₀⟩ := bind_eq_ok.mp h₀
  cases h₀
  obtain ⟨hlen, hset⟩ := mapM_places hparts
  obtain ⟨hlen', hsyn⟩ := mapM_places hlinks
  rw [List.length_range] at hlen
  -- every client and server is born as one pair of connections is
  obtain ⟨p, hstart⟩ := start_returns (b := b) transportConfig_sane transportConfig_sane 0 0
  obtain ⟨⟨c, syn⟩, hc, hp⟩ := bind_eq_ok.mp hstart
  obtain ⟨s, hs, hp⟩ := bind_eq_ok.mp hp
  cases hp
  have hframing : Framing 128 (Endpoint.fresh c [syn]) ∧ Framing 128 (Endpoint.fresh s []) :=
    ⟨(Born.client hc).framing (by decide), (Born.server hs).framing (by decide)⟩
  refine ⟨⟨.new (fun _ => .fresh c [syn]) (fun _ => .fresh s []) (fun _ => 25) (fun _ => 60),
    fun _ => .new (.fresh (.fresh (.fresh c [syn]))) 25 60, fun _ => []⟩, ?_, rfl, rfl⟩
  have hnone : ([] : List U8).length < 2 ^ 32 := by decide
  refine ⟨hsize, hsmall, ?_, ?_, .start fun _ => hstart, fun _ => ⟨hnone, hnone⟩,
    fun {i link server} hat => ?_, fun {i link server} hat _ => ?_, rfl, ⟨?_, ?_⟩, Nat.zero_le _,
    fun i => rfl, ?_⟩
  · rw [hlen', hlen]
  · rw [List.length_map, hlen]
  · obtain ⟨part, hpart, hlink⟩ := hsyn i link hat.link
    obtain ⟨c2s, hsend, hlink⟩ := bind_eq_ok.mp hlink
    cases hlink
    have hserver : part.2.1 = server := by
      have := hat.server
      rw [List.getElem?_map, hpart] at this
      exact Option.some.inj this
    obtain ⟨_, _, hset⟩ := hset i part hpart
    obtain ⟨⟨conn, syn'⟩, hconn, hset⟩ := bind_eq_ok.mp hset
    obtain ⟨serverConn, hserverConn, hset⟩ := bind_eq_ok.mp hset
    obtain ⟨seed, _, hset⟩ := bind_eq_ok.mp hset
    obtain ⟨⟨c2s₀, s2c⟩, hmake, hset⟩ := bind_eq_ok.mp hset
    cases hset
    cases hserver
    cases hc.symm.trans hconn
    cases hs.symm.trans hserverConn
    obtain ⟨c2s₁, hc2s, hmake⟩ := bind_eq_ok.mp hmake
    obtain ⟨s2c₁, hs2c, hmake⟩ := bind_eq_ok.mp hmake
    cases hmake
    have hcarried : Carried (Endpoint.fresh c [syn]) c2s₀ := .fresh hprofile hc2s
    exact ⟨rfl, rfl, rfl, rfl, .new _ _ _, rfl, rfl, rfl, hframing,
      hcarried.sendAll (by decide) hframing.1.framed (fun d hd => hd) hsend, .fresh hprofile hs2c⟩
  · obtain ⟨part, hpart, hlink⟩ := hsyn i link hat.link
    obtain ⟨c2s, _, hlink⟩ := bind_eq_ok.mp hlink
    cases hlink
    obtain ⟨_, _, hset⟩ := hset i part hpart
    obtain ⟨⟨conn, syn'⟩, _, hset⟩ := bind_eq_ok.mp hset
    obtain ⟨serverConn, _, hset⟩ := bind_eq_ok.mp hset
    obtain ⟨seed, _, hset⟩ := bind_eq_ok.mp hset
    obtain ⟨⟨c2s₀, s2c⟩, _, hset⟩ := bind_eq_ok.mp hset
    cases hset
    rfl
  · rintro k v ⟨⟩
  · rintro e ⟨⟩
  · refine (List.sum_eq_zero fun n hn => ?_).symm
    obtain ⟨i, _, rfl⟩ := List.mem_map.mp hn
    rfl

/-! ## The end -/

/-- An execution, and the client it is for. -/
def Event.tagged {ι : Type} : Event ι → Option (ι × Execution)
  | .executed i op ok payload => some (i, ⟨op, ok, payload⟩)
  | _ => none

theorem tagged_executions (history : List (Event Nat)) :
    (history.filterMap Event.tagged).map Prod.snd = executions history := by
  rw [executions, List.map_filterMap]
  congr 1
  funext ev
  cases ev <;> rfl

theorem tagged_executedBy (i : Nat) (history : List (Event Nat)) :
    ((history.filterMap Event.tagged).filter fun e => e.1 = i).map Prod.snd =
      executedBy i history := by
  induction history with
  | nil => rfl
  | cons ev history ih =>
    cases ev with
    | executed j op ok payload =>
      by_cases hij : j = i <;>
        simpa [executedBy, Event.tagged, Event.executionOf, hij] using ih
    | issued | returned => exact ih

/-- Each key is counted once, if it is counted at all. -/
theorem sum_count (keys : List Nat) (n : Nat) :
    ((List.range n).map fun i => keys.count i).sum ≤ keys.length ∧
    ((∀ k ∈ keys, k < n) → ((List.range n).map fun i => keys.count i).sum = keys.length) := by
  induction keys with
  | nil => simp
  | cons k keys ih =>
    rcases Nat.lt_or_ge k n with hk | hk
    · have hsum := sum_range_move (f := fun i => keys.count i) (q := fun i => (k :: keys).count i)
        (d := 1) hk List.count_cons_self fun j hj => List.count_cons_of_ne hj.symm
      rw [hsum, List.length_cons]
      exact ⟨by omega, fun hall => by rw [ih.2 fun k hk => hall k (List.mem_cons_of_mem _ hk)]⟩
    · have hsame : (List.range n).map (fun i => (k :: keys).count i) =
          (List.range n).map fun i => keys.count i :=
        List.map_congr_left fun j hj => List.count_cons_of_ne (by
          have := List.mem_range.mp hj
          omega)
      rw [hsame, List.length_cons]
      exact ⟨by omega, fun hall => absurd (hall k List.mem_cons_self) (by omega)⟩

theorem length_opsOf (i : Nat) (plan : List (U64 × Nat × Op)) :
    (opsOf i plan).length = (plan.map fun c => c.2.1).count i := by
  induction plan with
  | nil => rfl
  | cons c plan ih =>
    rw [List.map_cons, List.count_cons, ← ih, opsOf, List.filterMap_cons]
    by_cases hi : c.2.1 = i
    · simp [opsOf, hi]
    · simp [opsOf, hi]

namespace Mirrors

variable {g : Ghost} {k : Nat} {h : Harness} {link : ClientLink} {server : Server}

/-- A client that waits for nothing: what has not failed has been executed. -/
theorem answered (hM : Mirrors b config plan g k h) (hat : h.At i link server)
    (hpending : link.client.pending.entries = []) (hfailed : link.client.failed = []) :
    (g.service.links i).calls.length ≤ (executedBy i g.service.history).length + g.failures i := by
  have hseat := hM.seated hat
  obtain ⟨hcons, _⟩ := hM.consistent
  obtain ⟨reqs, book, replies, hjoined⟩ := hcons.joined i
  have hclient : ((g.noted i).map Noted.conn).map bare = link.client := by
    rw [hseat.noted, hseat.client]
  have hplaces := hseat.lifecycle.places.length_eq
  have hnone : (g.noted i).pendingIds = [] := by
    rw [RpcClient.pendingIds]
    rw [← hclient] at hpending
    exact congrArg (List.map Prod.fst) hpending
  have hfailures : (g.noted i).failedIds (g.outs i) = (g.outs i).flatMap ClientOut.failures := by
    rw [RpcClient.failedIds]
    rw [← hclient] at hfailed
    exact (congrArg (_ ++ ·) hfailed).trans (List.append_nil _)
  have hcompleted : (g.noted i).completedIds (g.outs i) =
      ((g.service.links i).returned ++ (g.service.links i).client.completed).map Prod.fst := by
    rw [RpcClient.completedIds, hseat.returned, ← hseat.noted]
    rfl
  have hissued : ((issued (g.service.links i).calls).map Request.id).length =
      (g.service.links i).calls.length := by
    rw [List.length_map, length_issued]
  rw [hnone, hfailures, hcompleted, hissued, List.nil_append, List.length_append] at hplaces
  -- the ids of the answers are places among the executions
  have hids : ((((g.service.links i).returned ++ (g.service.links i).client.completed).map
      Prod.fst).map BitVec.toNat).length ≤ (List.range (executedBy i g.service.history).length).length := by
    refine (List.subperm_of_subset ?_ fun m hm => ?_).length_le
    · exact hjoined.calling.answered.once.map fun _ _ => BitVec.eq_of_toNat_eq
    · obtain ⟨id, hid, rfl⟩ := List.mem_map.mp hm
      obtain ⟨a, ha, rfl⟩ := List.mem_map.mp hid
      obtain ⟨_, r, hr, _⟩ := hjoined.answer_run (fun p hp => (hcons.calls_short hp).1)
        (fun r hr => hcons.answers_short hr) ha
      have hlt := (List.getElem?_eq_some_iff.mp hr).1
      rw [runsOf, List.length_map] at hlt
      exact List.mem_range.mpr hlt
  rw [List.length_map, List.length_range] at hids
  rw [← hplaces, Ghost.failures]
  omega

/-- The log of the harness, with the client that each execution is for. -/
theorem log (hM : Mirrors b config plan g k h) : ∃ log : List (Nat × Execution),
    log.map Prod.snd = h.shared.2 ∧
    ∀ i, (log.filter fun e => e.1 = i).map Prod.snd = executedBy i g.service.history := by
  refine ⟨g.service.history.filterMap Event.tagged, ?_, fun i => tagged_executedBy i _⟩
  rw [tagged_executions, ← hM.shared]
  rfl

/-- Operations whose keys fit are told by their calls. -/
theorem decode_calls {ops : List Op} (h : ∀ op ∈ ops, op.KeyFits) :
    (ops.map Op.call).filterMap (fun c => Op.decode c.1 c.2) = ops := by
  induction ops with
  | nil => rfl
  | cons op ops ih =>
    have hop : Op.decode op.call.1 op.call.2 = some op := Op.decode_encode (h op List.mem_cons_self)
    rw [List.map_cons, List.filterMap_cons, hop, ih fun op hop => h op (List.mem_cons_of_mem _ hop)]

/-- **In order, and at most once.** -/
theorem executed_prefix (hM : Mirrors b config plan g k h) (hfired : h.fired = plan.length) (i : Nat) :
    (executedBy i g.service.history).map Execution.op <+: opsOf i plan := by
  obtain ⟨hcons, _⟩ := hM.consistent
  have hfits : ∀ op ∈ opsOf i plan, op.KeyFits := by
    intro op hop
    obtain ⟨c, hc, rfl⟩ := mem_opsOf hop
    exact (hM.small c hc).key
  have hcalls := hM.calls i
  rw [hfired, List.take_length] at hcalls
  -- what the client has called is what the plan has for it
  have hissued : issuedBy i g.service.history = opsOf i plan := by
    rw [← decode_calls hfits, ← hcalls, hcons.calls i,
      decode_calls fun op hop => (hcons.fits i op hop).1]
  rw [← hissued]
  exact executed_first hcons.lawful i

/-- **What has not failed has been executed**, when nothing is pending. -/
theorem completed_le (hM : Mirrors b config plan g (config.clients + config.clients) h)
    (hdrained : h.drained plan) (hclients : ∀ c ∈ plan, c.2.1 < config.clients) {keys : List Nat}
    (hkeys : ∀ i, (executedBy i g.service.history).length = keys.count i) :
    plan.length ≤ keys.length + h.callsFailed := by
  rw [Harness.drained, Bool.and_eq_true, beq_iff_eq, List.all_eq_true] at hdrained
  obtain ⟨hfired, hpending⟩ := hdrained
  have hle : ∀ i ∈ List.range config.clients, (plan.map fun c => c.2.1).count i ≤
      keys.count i + g.failures i := by
    intro i hi
    have hi := List.mem_range.mp hi
    obtain ⟨link, server, hat⟩ := Harness.at_of_lt (h := h) (i := i) (by rw [hM.links]; exact hi)
      (by rw [hM.servers]; exact hi)
    have hdone := hpending link (List.mem_of_getElem? hat.link)
    have hone := hM.answered hat (List.eq_nil_of_length_eq_zero (beq_iff_eq.mp hdone))
      (hM.polled hat (by omega))
    rwa [hM.calls i, hfired, List.take_length, List.length_map, length_opsOf, hkeys i] at hone
  have hsums := List.sum_le_sum hle
  rw [List.sum_map_add, ← hM.failed, (sum_count _ _).2, List.length_map] at hsums
  · have hlast := (sum_count keys config.clients).1
    omega
  · intro i hi
    obtain ⟨c, hc, rfl⟩ := List.mem_map.mp hi
    exact hclients c hc

end Mirrors

theorem mainLoop_mirrors {orders : Nat → Nat → Shuffle} {h : Harness}
    (hprofile : config.initialProfile.Sound) (hswitch : ∀ s ∈ config.profileSwitches, s.2.Sound)
    (hkeys : config.keySpace ≤ 2 ^ 64) (hcalls : 2640 * config.calls < 2 ^ 32)
    (hr : mainLoop b config orders = .ok (plan, .ok h)) :
    (∃ g, Mirrors b config plan g (config.clients + config.clients) h) ∧
      ∀ c ∈ plan, c.2.1 < config.clients := by
  obtain ⟨h₀, hlaunch, hr⟩ := bind_eq_ok.mp hr
  obtain ⟨plan', hplan, hr⟩ := bind_eq_ok.mp hr
  obtain ⟨r', hloop, hr⟩ := bind_eq_ok.mp hr
  cases hr
  have hsmall := schedule_small hkeys hplan
  have hsize : 2640 * plan.length < 2 ^ 32 := by rw [schedule_length hplan]; exact hcalls
  obtain ⟨g₀, hM₀, htick, hfired⟩ :=
    launch_mirrors hprofile hsize (fun c hc => (hsmall c hc).2) hlaunch
  have hnext : ∀ c ∈ (plan.drop h₀.fired).head?, h₀.tick < c.1 := by
    rw [htick, hfired]
    exact schedule_starts hplan
  obtain ⟨g, h', hM, hends, _⟩ := (Mirrors.rule hswitch).loop hM₀ htick hnext hloop
  cases hends
  exact ⟨⟨g, hM⟩, fun c hc => (hsmall c hc).1⟩

/-- **A chaos run that has drained has executed each client's calls in order and at most once, and
every call that has not failed**, if no profile both corrupts and truncates and fewer than `2 ^ 32`
bytes are needed for the requests: 44 for each, sent 60 times. -/
theorem chaos_executes_once {orders : Nat → Nat → Shuffle} {s : ChaosSummary}
    (hprofile : config.initialProfile.Sound) (hswitch : ∀ s ∈ config.profileSwitches, s.2.Sound)
    (hkeys : config.keySpace ≤ 2 ^ 64) (hcalls : 2640 * config.calls < 2 ^ 32)
    (hr : runChaos b config orders = .ok (.ok s)) :
    ∃ (plan : List (U64 × Nat × Op)) (h : Harness) (log : List (Nat × Execution)),
      mainLoop b config orders = .ok (plan, .ok h) ∧ log.map Prod.snd = h.shared.2 ∧
      (∀ i, (log.filter fun e => e.1 = i).map (fun e => e.2.op) <+: opsOf i plan) ∧
      s.executions = log.length ∧ s.callsCompleted ≤ s.executions ∧ s.executions ≤ config.calls := by
  obtain ⟨⟨plan, r⟩, hmain, hr⟩ := bind_eq_ok.mp hr
  cases r with
  | error failure => cases hr
  | ok h =>
    obtain ⟨hlen, _, hT, hends, _⟩ := mainLoop_tally hmain
    obtain ⟨hT, hdrained⟩ : Tally config plan (config.clients + config.clients) h ∧
        h.drained plan := by
      cases hends with
      | drained hdrained => exact ⟨hT, hdrained⟩
    obtain ⟨completed, hsum, hsummary⟩ := hT.summary hlen (by omega) hdrained hr
    cases hsummary
    obtain ⟨⟨g, hM⟩, hclients⟩ := mainLoop_mirrors hprofile hswitch hkeys hcalls hmain
    have hfired : h.fired = plan.length := by
      rw [Harness.drained, Bool.and_eq_true, beq_iff_eq] at hdrained
      exact hdrained.1
    obtain ⟨log, hall, hby⟩ := hM.log
    have hexecutions : h.shared.2.length = log.length := by rw [← hall, List.length_map]
    have hcount : ∀ i, (executedBy i g.service.history).length = (log.map Prod.fst).count i := by
      intro i
      rw [← hby i, List.length_map, List.count, List.countP_map, List.countP_eq_length_filter]
      rfl
    have hfirst := hM.executed_prefix hfired
    refine ⟨plan, h, log, hmain, hall, fun i => ?_, hexecutions, ?_, ?_⟩
    · have hops : (log.filter fun e => e.1 = i).map (fun e => e.2.op) =
          (executedBy i g.service.history).map Execution.op := by
        rw [← hby i, List.map_map]
        rfl
      rw [hops]
      exact hfirst i
    · have hle := hM.completed_le hdrained hclients hcount
      rw [List.length_map, hlen] at hle
      show completed ≤ h.shared.2.length
      omega
    · have hsub : (log.map Prod.fst).Subperm (plan.map fun c => c.2.1) := by
        refine List.subperm_ext_iff.mpr fun i _ => ?_
        rw [← hcount i, ← length_opsOf, ← List.length_map (f := Execution.op)]
        exact (hfirst i).length_le
      have hle := hsub.length_le
      rw [List.length_map, List.length_map, hlen] at hle
      show h.shared.2.length ≤ config.calls
      omega

/-- Two clients and two calls, over a network that loses most of what is sent at first. -/
def calmChaos : ChaosConfig := { ChaosConfig.default with
  seed := 7
  clients := 2
  calls := 2
  maxTicks := 1600
  initialProfile := nearPartition
  profileSwitches := [(4, highLatencyReordering)] }

theorem calmChaos_runs : runChaos .checked calmChaos (fun _ _ => .ascending) =
    .ok (.ok ⟨7, 2, 2, 0, 79⟩) := by decide +kernel

theorem chaos_executes_once_sample : ∃ (plan : List (U64 × Nat × Op)) (h : Harness)
    (log : List (Nat × Execution)),
    mainLoop .checked calmChaos (fun _ _ => .ascending) = .ok (plan, .ok h) ∧
    log.map Prod.snd = h.shared.2 ∧ 2 = log.length ∧
    ∀ i, (log.filter fun e => e.1 = i).map (fun e => e.2.op) <+: opsOf i plan := by
  have hswitch : ∀ s ∈ calmChaos.profileSwitches, s.2.Sound := by
    intro s hs
    rw [List.mem_singleton.mp hs]
    exact Or.inl rfl
  obtain ⟨plan, h, log, hmain, hall, hfirst, hlen, _⟩ :=
    chaos_executes_once (Or.inr rfl) hswitch (by decide) (by decide) calmChaos_runs
  exact ⟨plan, h, log, hmain, hall, hlen, hfirst⟩

end Distrans.Workload

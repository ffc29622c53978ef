import Distrans.Channel.Sends
import Distrans.Lib.Loop

/-!
# What the channel delivers

Runs of a channel, with everything ever enqueued and everything ever handed out (`History`).

* `Good` — the invariant: what was enqueued has been handed out, in order of arrival, or its slot
  is in the heap and its bytes are in the table.
* `channel_delivers` — **what has been handed out is what has arrived, sorted**, and two runs with
  the same sends agree, however often they are polled.
-/

set_option autoImplicit false

namespace Distrans

open Machine EventQueue

variable {b : Build} {c c' c₁ : Channel} {payload : List U8}

/-! ## Histories -/

/-- A channel, what was sent and when, what that put into flight, and what came out. -/
structure History where
  chan : Channel
  sends : List (Tick × List U8)
  enqueued : List InFlight
  output : List (List U8)

inductive Op where
  | send (payload : List U8)
  | advance (target : Tick)
  | deliverReady
  deriving DecidableEq, Repr

/-- Does the call hand out what has arrived? -/
def Op.polls : Op → Bool
  | .send _ => false
  | .advance _ | .deliverReady => true

namespace History

def fresh (c : Channel) : History := ⟨c, [], [], []⟩

/-- One call. -/
def op (b : Build) (H : History) : Op → Exec History
  | .send payload => do
    let (c, ds) ← H.chan.send b payload
    .ok ⟨c, H.sends ++ [(H.chan.now, payload)], H.enqueued ++ ds, H.output⟩
  | .advance target => do
    let (c, ready) ← H.chan.advance target
    .ok { H with chan := c, output := H.output ++ ready }
  | .deliverReady => do
    let (c, ready) ← H.chan.deliverReady
    .ok { H with chan := c, output := H.output ++ ready }

/-- The histories of one channel. -/
inductive Reach (b : Build) (c₀ : Channel) : History → Prop
  | start : Reach b c₀ (fresh c₀)
  | step {H H' : History} {a : Op} : Reach b c₀ H → H.op b a = .ok H' → Reach b c₀ H'

end History

/-! ## The invariant -/

namespace InFlight

/-- The place of a datagram in the heap. -/
def slot (d : InFlight) : Slot := ⟨d.arrives, d.seq, d.seq⟩

/-- Arrival, then order of insertion. -/
def key (d : InFlight) : Tick ×ₗ Nat ×ₗ Nat := d.slot.key

variable {d d' : InFlight}

theorem key_lt_iff :
    d.key < d'.key ↔ d.arrives < d'.arrives ∨ d.arrives = d'.arrives ∧ d.seq < d'.seq := by
  have hseq : toLex (d.seq, d.seq) < toLex (d'.seq, d'.seq) ↔ d.seq < d'.seq := by
    rw [Prod.Lex.toLex_lt_toLex]
    simp only
    omega
  show toLex (d.arrives, toLex (d.seq, d.seq)) < toLex (d'.arrives, toLex (d'.seq, d'.seq)) ↔ _
  rw [Prod.Lex.toLex_lt_toLex, hseq]

theorem arrives_le (h : d.key < d'.key) : d.arrives ≤ d'.arrives := by
  rcases key_lt_iff.mp h with h | ⟨h, _⟩
  · exact le_of_lt h
  · exact le_of_eq h

theorem key_ne (h : d.seq ≠ d'.seq) : d.key ≠ d'.key := by
  intro hk
  have h₁ : ¬ d.key < d'.key := by rw [hk]; exact lt_irrefl _
  have h₂ : ¬ d'.key < d.key := by rw [hk]; exact lt_irrefl _
  rw [key_lt_iff] at h₁ h₂
  rcases lt_trichotomy d.arrives d'.arrives with hlt | heq | hlt
  · exact h₁ (Or.inl hlt)
  · rcases Nat.lt_or_gt_of_ne h with hs | hs
    · exact h₁ (Or.inr ⟨heq, hs⟩)
    · exact h₂ (Or.inr ⟨heq.symm, hs⟩)
  · exact h₂ (Or.inl hlt)

end InFlight

/-- `order` has been handed out, `pending` is in the heap and in the table. -/
structure Good (c : Channel) (enqueued order pending : List InFlight) : Prop where
  queued : Queued InFlight.key enqueued order pending
  heap : c.inFlight = pending.map InFlight.slot
  table : ∀ d ∈ pending, c.payloads[d.seq]? = some d.payload
  arrived : ∀ d ∈ order, d.arrives ≤ c.now
  seqs : enqueued.map InFlight.seq = List.range c.payloads.length
  delivered : c.stats.delivered = order.length

namespace Good

variable {enqueued order pending : List InFlight}

theorem idle (h : Good c enqueued order pending) (hi : Idle c c') : Good c' enqueued order pending :=
  ⟨h.queued, hi.inFlight.trans h.heap, by rw [hi.payloads]; exact h.table,
    by rw [hi.now]; exact h.arrived, by rw [hi.payloads]; exact h.seqs,
    hi.delivered.trans h.delivered⟩

theorem seq_lt (h : Good c enqueued order pending) {d : InFlight} (hd : d ∈ order ++ pending) :
    d.seq < c.payloads.length := by
  have hmem : d.seq ∈ enqueued.map InFlight.seq :=
    List.mem_map_of_mem (h.queued.perm.mem_iff.mp hd)
  rw [h.seqs] at hmem
  exact List.mem_range.mp hmem

/-- No two datagrams have one place in the table. -/
theorem pending_seqs (h : Good c enqueued order pending) :
    pending.Pairwise fun d d' => d.seq ≠ d'.seq := by
  have hnodup : ((order ++ pending).map InFlight.seq).Nodup := by
    rw [(h.queued.perm.map InFlight.seq).nodup_iff, h.seqs]
    exact List.nodup_range
  rw [List.map_append] at hnodup
  exact List.pairwise_map.mp (List.nodup_append.mp hnodup).2.1

/-- One datagram is put into the queue. -/
theorem enqueue (h : Good c enqueued order pending) {d : InFlight} (hle : c.now ≤ d.arrives) :
    Good (c.enqueue d).1 (enqueued ++ [(c.enqueue d).2]) order
      (push InFlight.key (c.enqueue d).2 pending) := by
  have hseq : ∀ x ∈ order ++ pending, x.seq < (c.enqueue d).2.seq := fun x hx => h.seq_lt hx
  refine ⟨h.queued.push (fun x hx => ?_) (fun x hx => ?_), ?_, ?_, h.arrived, ?_, h.delivered⟩
  · have hlt := hseq x (List.mem_append_left _ hx)
    have hxd : x.arrives ≤ d.arrives := (h.arrived x hx).trans hle
    rcases lt_or_eq_of_le hxd with hx' | hx'
    · exact InFlight.key_lt_iff.mpr (Or.inl hx')
    · exact InFlight.key_lt_iff.mpr (Or.inr ⟨hx', hlt⟩)
  · exact InFlight.key_ne (hseq x (List.mem_append_right _ hx)).ne
  · show push Slot.key (InFlight.slot (c.enqueue d).2) c.inFlight = _
    rw [h.heap]
    exact (map_push (fun _ => rfl) _ _).symm
  · intro x hx
    show (c.payloads ++ [d.payload])[x.seq]? = some x.payload
    rcases mem_push.mp hx with rfl | hx
    · exact List.getElem?_concat_length
    · rw [List.getElem?_append_left (h.seq_lt (List.mem_append_right _ hx))]
      exact h.table x hx
  · show (enqueued ++ [(c.enqueue d).2]).map InFlight.seq =
      List.range (c.payloads ++ [d.payload]).length
    rw [List.map_append, h.seqs, List.length_append, List.length_singleton, List.range_succ]
    rfl

theorem enqueues {ds : List InFlight} (h : Good c enqueued order pending)
    (he : Enqueues payload c ds c') : ∃ pending', Good c' (enqueued ++ ds) order pending' := by
  induction he with
  | idle hi => exact ⟨pending, by rw [List.append_nil]; exact h.idle hi⟩
  | put _ _ hle hi ih =>
    obtain ⟨pending', ih⟩ := ih
    have hput := (ih.enqueue hle).idle hi
    rw [List.append_assoc] at hput
    exact ⟨_, hput⟩

end Good

/-- The loop hands out a prefix of the heap: what has arrived. -/
theorem deliverLoop_spec (now : Tick) : ∀ {pending : List InFlight} {payloads : List (List U8)}
    (n : Nat) (ready : List (List U8)), pending.Pairwise (fun d d' => d.key < d'.key) →
    pending.Pairwise (fun d d' => d.seq ≠ d'.seq) →
    (∀ d ∈ pending, payloads[d.seq]? = some d.payload) →
    ∃ gone rest payloads', pending = gone ++ rest ∧
      Channel.deliverLoop now (pending.map InFlight.slot) payloads n ready =
        .ok (rest.map InFlight.slot, payloads', n + gone.length, ready ++ gone.map InFlight.payload) ∧
      payloads'.length = payloads.length ∧ (∀ d ∈ rest, payloads'[d.seq]? = some d.payload) ∧
      (∀ d ∈ gone, d.arrives ≤ now) ∧ ∀ d ∈ rest, now < d.arrives
  | [], payloads, n, ready, _, _, _ =>
    ⟨[], [], payloads, rfl, by simp [Channel.deliverLoop], rfl, by simp, by simp, by simp⟩
  | d :: pending, payloads, n, ready, hasc, hseqs, htable => by
    obtain ⟨hfirst, hasc⟩ := List.pairwise_cons.mp hasc
    obtain ⟨hother, hseqs⟩ := List.pairwise_cons.mp hseqs
    have hd := htable d List.mem_cons_self
    by_cases hnow : now < d.arrives
    · refine ⟨[], d :: pending, payloads, rfl, ?_, rfl, htable, by simp, fun x hx => ?_⟩
      · have hslot : now < d.slot.arrives := hnow
        rw [List.map_cons, Channel.deliverLoop, if_pos hslot]
        simp
      · rcases List.mem_cons.mp hx with rfl | hx
        · exact hnow
        · exact lt_of_lt_of_le hnow (InFlight.arrives_le (hfirst x hx))
    · have htable' : ∀ x ∈ pending, (payloads.set d.seq [])[x.seq]? = some x.payload := by
        intro x hx
        rw [List.getElem?_set_ne (hother x hx)]
        exact htable x (List.mem_cons_of_mem _ hx)
      obtain ⟨gone, rest, payloads', hcut, hloop, hlen, hrest, hgone, hlate⟩ :=
        deliverLoop_spec now (n + 1) (ready ++ [d.payload]) hasc hseqs htable'
      have hindex : index payloads d.seq = .ok d.payload := by rw [index, hd]
      refine ⟨d :: gone, rest, payloads', by rw [hcut, List.cons_append], ?_,
        by rw [hlen, List.length_set], hrest, ?_, hlate⟩
      · have hslot : ¬ now < d.slot.arrives := hnow
        rw [List.map_cons, Channel.deliverLoop, if_neg hslot]
        show (index payloads d.seq >>= _) = _
        rw [hindex, ok_bind]
        refine hloop.trans ?_
        simp only [List.length_cons, List.map_cons, List.append_assoc, List.singleton_append,
          Nat.add_assoc, Nat.add_comm 1]
      · intro x hx
        rcases List.mem_cons.mp hx with rfl | hx
        · exact not_lt.mp hnow
        · exact hgone x hx

/-- Everything due is out, and nothing else. -/
theorem Good.deliverReady {enqueued order pending : List InFlight}
    (h : Good c enqueued order pending) : ∃ c' gone rest,
      c.deliverReady = .ok (c', gone.map InFlight.payload) ∧ Good c' enqueued (order ++ gone) rest ∧
      (∀ d ∈ rest, c'.now < d.arrives) ∧ Alike c c' ∧ c'.now = c.now ∧
      c'.stats.sent = c.stats.sent ∧ c'.stats.dropped = c.stats.dropped ∧
      c'.stats.duplicated = c.stats.duplicated := by
  have hasc := (List.pairwise_append.mp h.queued.ascending).2.1
  obtain ⟨gone, rest, payloads', hcut, hloop, hlen, hrest, hgone, hlate⟩ :=
    deliverLoop_spec c.now c.stats.delivered [] hasc h.pending_seqs h.table
  subst hcut
  have hqueued : Queued InFlight.key enqueued (order ++ gone) rest :=
    ⟨by rw [List.append_assoc]; exact h.queued.perm,
      by rw [List.append_assoc]; exact h.queued.ascending⟩
  refine ⟨{ c with
    inFlight := rest.map InFlight.slot
    payloads := payloads'
    stats := { c.stats with delivered := c.stats.delivered + gone.length } }, gone, rest, ?_,
    ⟨hqueued, rfl, hrest, ?_, by rw [h.seqs, hlen], ?_⟩, hlate,
    ⟨rfl, rfl, rfl, rfl, hlen⟩, rfl, rfl, rfl, rfl⟩
  · rw [Channel.deliverReady, h.heap, hloop, ok_bind]
    rfl
  · intro d hd
    rcases List.mem_append.mp hd with hd | hd
    · exact h.arrived d hd
    · exact hgone d hd
  · show c.stats.delivered + gone.length = _
    rw [h.delivered, List.length_append]

/-! ## Sends are replayed -/

theorem deliverLoop_length {now : Tick} : ∀ {q q' : List Slot} {payloads payloads' : List (List U8)}
    {n n' : Nat} {ready ready' : List (List U8)},
    Channel.deliverLoop now q payloads n ready = .ok (q', payloads', n', ready') →
    payloads'.length = payloads.length
  | [], _, _, _, _, _, _, _, h => by cases h; rfl
  | s :: q, q', payloads, payloads', n, n', ready, ready', h => by
    rw [Channel.deliverLoop] at h
    split at h
    · cases h; rfl
    · obtain ⟨bytes, _, h⟩ := bind_eq_ok.mp h
      rw [deliverLoop_length h, List.length_set]

/-- The sends of a history alone, each at its tick. -/
def replay (b : Build) (c₀ : Channel) (sends : List (Tick × List U8)) :
    Exec (Channel × List InFlight) :=
  sends.foldlM (fun s x => do
    let (c, ds) ← { s.1 with now := x.1 }.send b x.2
    .ok (c, s.2 ++ ds)) (c₀, [])

/-- **A history enqueues what its sends alone enqueue.** -/
theorem reach_replays {c₀ : Channel} {H : History} (h : History.Reach b c₀ H) :
    ∃ c, replay b c₀ H.sends = .ok (c, H.enqueued) ∧ Alike c H.chan := by
  induction h with
  | start => exact ⟨c₀, rfl, .refl c₀⟩
  | @step H H' a _ hop ih =>
    obtain ⟨c, hr, ha⟩ := ih
    cases a with
    | send payload =>
      obtain ⟨⟨c₁, ds⟩, hs, hop⟩ := bind_eq_ok.mp hop
      cases hop
      obtain ⟨c₂, hs₂, ha₂⟩ := send_alike (e := { c with now := H.chan.now })
        ⟨ha.profile.symm, ha.script.symm, ha.rng.symm, ha.nextDatagramIndex.symm, ha.places.symm⟩
        rfl hs
      refine ⟨c₂, ?_, ⟨ha₂.profile.symm, ha₂.script.symm, ha₂.rng.symm,
        ha₂.nextDatagramIndex.symm, ha₂.places.symm⟩⟩
      rw [replay, List.foldlM_append]
      refine bind_eq_ok.mpr ⟨_, hr, ?_⟩
      rw [List.foldlM_cons, hs₂]
      rfl
    | advance target =>
      obtain ⟨⟨c₁, ready⟩, hs, hop⟩ := bind_eq_ok.mp hop
      cases hop
      obtain ⟨⟨_, payloads, _, _⟩, hloop, hs⟩ := bind_eq_ok.mp hs
      cases hs
      exact ⟨c, hr, ⟨ha.profile, ha.script, ha.rng, ha.nextDatagramIndex,
        (deliverLoop_length hloop).trans ha.places⟩⟩
    | deliverReady =>
      obtain ⟨⟨c₁, ready⟩, hs, hop⟩ := bind_eq_ok.mp hop
      cases hop
      obtain ⟨⟨_, payloads, _, _⟩, hloop, hs⟩ := bind_eq_ok.mp hs
      cases hs
      exact ⟨c, hr, ⟨ha.profile, ha.script, ha.rng, ha.nextDatagramIndex,
        (deliverLoop_length hloop).trans ha.places⟩⟩

/-! ## Runs -/

/-- The invariant of histories. -/
structure Kept (H : History) (order pending : List InFlight) : Prop where
  good : Good H.chan H.enqueued order pending
  output : H.output = order.map InFlight.payload
  balance : H.chan.inFlight.length + H.chan.stats.delivered + H.chan.stats.dropped =
    H.chan.stats.sent + H.chan.stats.duplicated
  dropped : H.chan.stats.dropped ≤ H.chan.stats.sent

theorem withScript_kept {seed : U64} {profile : FaultProfile} {script : Script} {c₀ : Channel}
    (h : Channel.withScript seed profile script = .ok c₀) : Kept (History.fresh c₀) [] [] := by
  unfold Channel.withScript at h
  split at h
  · cases h
    exact ⟨⟨.empty, rfl, by simp, by simp, rfl, rfl⟩, rfl, rfl, Nat.le_refl _⟩
  · cases h

variable {H H' : History} {order pending : List InFlight}

/-- A send keeps the invariant. -/
theorem Kept.send (h : Kept H order pending) (hop : H.op b (.send payload) = .ok H') :
    ∃ pending', Kept H' order pending' := by
  obtain ⟨⟨c', ds⟩, hs, hop⟩ := bind_eq_ok.mp hop
  cases hop
  obtain ⟨he, hc, _⟩ := send_emits hs
  obtain ⟨pending', hgood⟩ := h.good.enqueues he
  obtain ⟨_, _, _, hdel, hlen⟩ := he.same
  have hb := h.balance
  have hd := h.dropped
  refine ⟨pending', ⟨hgood, h.output, ?_, ?_⟩⟩
  · show c'.inFlight.length + c'.stats.delivered + c'.stats.dropped =
      c'.stats.sent + c'.stats.duplicated
    cases hc <;> omega
  · show c'.stats.dropped ≤ c'.stats.sent
    cases hc <;> omega

/-- **A poll** returns, keeps the invariant and leaves nothing behind that is due. -/
theorem Kept.poll (h : Kept H order pending) {a : Op} (ha : a.polls = true) :
    ∃ H' gone rest, H.op b a = .ok H' ∧ Kept H' (order ++ gone) rest ∧
      (∀ d ∈ rest, H'.chan.now < d.arrives) ∧ H'.sends = H.sends ∧ H'.enqueued = H.enqueued := by
  -- both are `deliver_ready` at some tick
  have hready : ∀ now : Tick, H.chan.now ≤ now → ∃ H' gone rest,
      ({ H.chan with now }.deliverReady >>= fun r =>
        .ok ⟨r.1, H.sends, H.enqueued, H.output ++ r.2⟩) = Except.ok H' ∧
      Kept H' (order ++ gone) rest ∧ (∀ d ∈ rest, H'.chan.now < d.arrives) ∧
      H'.sends = H.sends ∧ H'.enqueued = H.enqueued := by
    intro now hnow
    have hgood : Good { H.chan with now } H.enqueued order pending :=
      ⟨h.good.queued, h.good.heap, h.good.table, fun d hd => (h.good.arrived d hd).trans hnow,
        h.good.seqs, h.good.delivered⟩
    obtain ⟨c', gone, rest, hc, hgood', hlate, ha, _, hs, hd, hdup⟩ := hgood.deliverReady
    refine ⟨⟨c', H.sends, H.enqueued, H.output ++ gone.map InFlight.payload⟩, gone, rest,
      by rw [hc, ok_bind], ⟨hgood', ?_, ?_, ?_⟩, hlate, rfl, rfl⟩
    · show H.output ++ _ = _
      rw [h.output, List.map_append]
    · show c'.inFlight.length + c'.stats.delivered + c'.stats.dropped =
        c'.stats.sent + c'.stats.duplicated
      have hb := h.balance
      have hlen := h.good.queued.length_eq
      have hlen' := hgood'.queued.length_eq
      rw [h.good.heap, List.length_map, h.good.delivered] at hb
      rw [hgood'.heap, List.length_map, hgood'.delivered, hs, hd, hdup]
      simp only [List.length_append] at hlen' ⊢
      omega
    · show c'.stats.dropped ≤ c'.stats.sent
      rw [hs, hd]
      exact h.dropped
  cases a with
  | send payload => cases ha
  | advance target =>
    refine hready (if H.chan.now < target then target else H.chan.now) ?_
    split
    · rename_i hlt; exact le_of_lt hlt
    · exact le_refl _
  | deliverReady => exact hready H.chan.now (le_refl _)

theorem reach_kept {seed : U64} {profile : FaultProfile} {script : Script} {c₀ : Channel}
    (h₀ : Channel.withScript seed profile script = .ok c₀) (h : History.Reach b c₀ H) :
    ∃ order pending, Kept H order pending := by
  induction h with
  | start => exact ⟨[], [], withScript_kept h₀⟩
  | @step H H' a _ hop ih =>
    obtain ⟨order, pending, ih⟩ := ih
    by_cases ha : a.polls = true
    · obtain ⟨H₁, gone, rest, h₁, hk, _⟩ := ih.poll (b := b) ha
      rw [hop] at h₁
      cases h₁
      exact ⟨_, _, hk⟩
    · cases a with
      | send payload =>
        obtain ⟨pending', hk⟩ := ih.send hop
        exact ⟨order, pending', hk⟩
      | advance target => exact absurd rfl ha
      | deliverReady => exact absurd rfl ha

theorem advance_now {target : Tick} (h : H.op b (.advance target) = .ok H')
    (hlt : H.chan.now < target) : H'.chan.now = target := by
  obtain ⟨⟨c, ready⟩, hs, h⟩ := bind_eq_ok.mp h
  cases h
  obtain ⟨_, _, hs⟩ := bind_eq_ok.mp hs
  cases hs
  exact if_pos hlt

theorem reach_source {c₀ : Channel} (h : History.Reach b c₀ H) :
    H.chan.profile = c₀.profile ∧ H.chan.script = c₀.script := by
  induction h with
  | start => exact ⟨rfl, rfl⟩
  | @step H H' a _ hop ih =>
    cases a with
    | send payload =>
      obtain ⟨⟨c', ds⟩, hs, hop⟩ := bind_eq_ok.mp hop
      cases hop
      obtain ⟨hp, hsc, _⟩ := (send_emits hs).1.same
      exact ⟨hp.trans ih.1, hsc.trans ih.2⟩
    | advance target | deliverReady =>
      obtain ⟨⟨c', ready⟩, hs, hop⟩ := bind_eq_ok.mp hop
      cases hop
      obtain ⟨_, _, hs⟩ := bind_eq_ok.mp hs
      cases hs
      exact ih

/-- **The channel delivers what it enqueued, in order of arrival, independently of polling.** -/
theorem channel_delivers {seed : U64} {profile : FaultProfile} {script : Script} {c₀ : Channel}
    (h₀ : Channel.withScript seed profile script = .ok c₀) (h : History.Reach b c₀ H) :
    (∀ payload, DelaysFit profile script → payload.length < 2 ^ 64 →
      ∃ r, H.chan.send b payload = .ok r) ∧
    (∀ payload c' ds, H.chan.send b payload = .ok (c', ds) →
      Counted H.chan.stats c'.stats ds.length ∧ ∀ d ∈ ds, Emitted payload d.payload) ∧
    H.enqueued.map InFlight.seq = List.range H.enqueued.length ∧
    (∀ a : Op, a.polls = true → ∃ H', H.op b a = .ok H' ∧ H'.output =
      (sorted InFlight.key (H'.enqueued.filter fun d => d.arrives ≤ H'.chan.now)).map
        InFlight.payload) ∧
    H.chan.stats.delivered + H.chan.inFlight.length =
      H.chan.stats.sent - H.chan.stats.dropped + H.chan.stats.duplicated ∧
    ∀ H₂, History.Reach b c₀ H₂ → H₂.sends = H.sends → ∀ (a a₂ : Op) (H' H₂' : History),
      a.polls = true → a₂.polls = true → H.op b a = .ok H' → H₂.op b a₂ = .ok H₂' →
      H₂'.chan.now = H'.chan.now → H₂'.output = H'.output := by
  obtain ⟨order, pending, hk⟩ := reach_kept h₀ h
  -- right after a poll the output is a function of what was enqueued and the clock
  have hpoll : ∀ {H : History} {a : Op}, History.Reach b c₀ H → a.polls = true → ∃ H',
      H.op b a = .ok H' ∧ H'.output = (sorted InFlight.key
        (H'.enqueued.filter fun d => d.arrives ≤ H'.chan.now)).map InFlight.payload ∧
      H'.enqueued = H.enqueued := by
    intro H a h ha
    obtain ⟨order, pending, hk⟩ := reach_kept h₀ h
    obtain ⟨H', gone, rest, hop, hk', hlate, _, henq⟩ := hk.poll (b := b) ha
    refine ⟨H', hop, ?_, henq⟩
    have hout := hk'.good.queued.out_eq (p := fun d => d.arrives ≤ H'.chan.now)
      (fun d hd => decide_eq_true (hk'.good.arrived d hd))
      (fun d hd => decide_eq_false (not_le.mpr (hlate d hd)))
    rw [hk'.output, ← hout]
  have hsame : H.chan.profile = profile ∧ H.chan.script = script := by
    obtain ⟨hp, hs⟩ := reach_source h
    unfold Channel.withScript at h₀
    split at h₀
    · cases h₀; exact ⟨hp, hs⟩
    · cases h₀
  refine ⟨fun payload hf hlen => ?_, fun payload c' ds hs => ?_, ?_, fun a ha => ?_, ?_, ?_⟩
  · rw [← hsame.1, ← hsame.2] at hf
    exact send_returns hf hlen
  · obtain ⟨he, hc, _⟩ := send_emits hs
    exact ⟨hc, fun d hd => (he.emitted d hd).1⟩
  · have hlen : H.enqueued.length = H.chan.payloads.length := by
      have := congrArg List.length hk.good.seqs
      rwa [List.length_map, List.length_range] at this
    rw [hlen]
    exact hk.good.seqs
  · obtain ⟨H', hop, hout, _⟩ := hpoll h ha
    exact ⟨H', hop, hout⟩
  · have hb := hk.balance
    have hd := hk.dropped
    omega
  · intro H₂ h₂ hsends a a₂ H' H₂' ha ha₂ hop hop₂ hnow
    obtain ⟨H₃, hop₃, hout, henq⟩ := hpoll h ha
    obtain ⟨H₄, hop₄, hout₂, henq₂⟩ := hpoll h₂ ha₂
    rw [hop] at hop₃
    rw [hop₂] at hop₄
    cases hop₃
    cases hop₄
    obtain ⟨c, hr, _⟩ := reach_replays h
    obtain ⟨c₂, hr₂, _⟩ := reach_replays h₂
    rw [hsends, hr] at hr₂
    have hsame : H.enqueued = H₂.enqueued := congrArg Prod.snd (Except.ok.inj hr₂)
    rw [hout, hout₂, henq, henq₂, hsame, hnow]

/-! ## A run -/

/-- Does the script of calls play to its end, in a history that passes the test? -/
def History.plays (b : Build) (c₀ : Channel) (ops : List Op) (test : History → Bool) : Bool :=
  match ops.foldlM (fun H a => History.op b H a) (History.fresh c₀) with
  | .ok H => test H
  | .error _ => false

theorem History.ops_reach {c₀ : Channel} {ops : List Op} {H H' : History}
    (h : History.Reach b c₀ H) (hr : ops.foldlM (fun H a => History.op b H a) H = .ok H') :
    History.Reach b c₀ H' :=
  foldlM_kept h hr fun _ _ _ _ h h₁ => .step h h₁

theorem History.plays_reach {c₀ : Channel} {ops : List Op} {test : History → Bool}
    (h : History.plays b c₀ ops test = true) : ∃ H, History.Reach b c₀ H ∧ test H = true := by
  unfold History.plays at h
  split at h
  · rename_i H hH
    exact ⟨H, ops_reach .start hH, h⟩
  · cases h

/-- Every datagram twice, each copy up to twenty ticks late. -/
def doublingProfile : FaultProfile := { CLEAN with duplication := 1, reorderMaxDelay := 20 }

/-- Two sends, polled once and polled in between. -/
theorem channel_delivers_sample : ∃ (c₀ : Channel) (H H₂ H' H₂' : History),
    Channel.withScript 5 doublingProfile ⟨[]⟩ = .ok c₀ ∧
    H.op .checked (.advance 30) = .ok H' ∧ H₂.op .checked (.advance 30) = .ok H₂' ∧
    H₂'.output = H'.output ∧ H.output = [] ∧ H₂.output ≠ [] := by
  obtain ⟨c₀, h₀⟩ : ∃ c₀, Channel.withScript 5 doublingProfile ⟨[]⟩ = .ok c₀ :=
    ⟨_, if_pos (by decide +kernel)⟩
  have hrun : History.plays .checked c₀ [.send [1], .send [2, 3]] (fun H => decide
      (H.sends = [(0, [1]), (0, [2, 3])] ∧ H.chan.now = 0 ∧ H.output = [])) = true := by
    cases h₀
    decide +kernel
  have hrun₂ : History.plays .checked c₀
      [.deliverReady, .send [1], .deliverReady, .send [2, 3], .advance 9, .advance 12] (fun H =>
      decide (H.sends = [(0, [1]), (0, [2, 3])] ∧ H.chan.now = 12 ∧ H.output ≠ [])) = true := by
    cases h₀
    decide +kernel
  obtain ⟨H, h, ht⟩ := History.plays_reach hrun
  obtain ⟨H₂, h₂, ht₂⟩ := History.plays_reach hrun₂
  obtain ⟨hs, hn, hout⟩ := of_decide_eq_true ht
  obtain ⟨hs₂, hn₂, hout₂⟩ := of_decide_eq_true ht₂
  obtain ⟨_, _, _, hpoll, _, hagree⟩ := channel_delivers h₀ h
  obtain ⟨H', hop, _⟩ := hpoll (.advance 30) rfl
  obtain ⟨_, _, _, hpoll₂, _, _⟩ := channel_delivers h₀ h₂
  obtain ⟨H₂', hop₂, _⟩ := hpoll₂ (.advance 30) rfl
  refine ⟨c₀, H, H₂, H', H₂', h₀, hop, hop₂, ?_, hout, hout₂⟩
  exact hagree H₂ h₂ (hs₂.trans hs.symm) _ _ H' H₂' rfl rfl hop hop₂
    ((advance_now hop₂ (by rw [hn₂]; decide)).trans (advance_now hop (by rw [hn]; decide)).symm)

end Distrans

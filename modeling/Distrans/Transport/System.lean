import Distrans.Transport.Connection

/-!
# Two connections and the network between them

An `Endpoint` is a connection with its history: every byte passed to `send`, every byte `recv`
has returned, every datagram any call has returned, and how many bytes had been sent when
`close` was first called.  `Endpoint.call` is one application call, timer call or delivery.

A `Pair` joins the client made by `connect` and the server made by `listen`.  The network keeps
every datagram ever emitted and may deliver any of them at any time, so loss, duplication,
delay and reordering need no rule of their own; a corrupted copy is one that is never delivered.
`ReachVia` collects the states of the runs whose steps all meet a guard; `Reach` is the
unguarded case, and `Run` remembers the states a run has passed through.
-/

set_option autoImplicit false

namespace Distrans

open Machine

/-- A call on a connection. -/
inductive Call where
  | send (now : Tick) (data : List U8)
  | close (now : Tick)
  | recv
  | onTick (now : Tick)
  | onDatagram (now : Tick) (datagram : Datagram)
  deriving DecidableEq, Repr

/-- The time a call is told. -/
def Call.tick? : Call → Option Tick
  | .send now _ | .close now | .onTick now | .onDatagram now _ => some now
  | .recv => none

/-- A connection and its history. -/
structure Endpoint where
  conn : Connection
  /-- Every byte passed to `send`, in order. -/
  sent : List U8
  /-- Every byte `recv` has returned, in order. -/
  received : List U8
  /-- Every datagram returned by a call so far. -/
  emitted : List Datagram
  /-- Bytes sent before the first `close`. -/
  closedAt : Option Nat

namespace Endpoint

/-- The connection moves on and emits. -/
def put (e : Endpoint) (c : Connection) (out : List Datagram) : Endpoint :=
  { e with conn := c, emitted := e.emitted ++ out }

@[simp] theorem put_conn (e : Endpoint) (c : Connection) (out : List Datagram) :
    (e.put c out).conn = c := rfl

@[simp] theorem put_sent (e : Endpoint) (c : Connection) (out : List Datagram) :
    (e.put c out).sent = e.sent := rfl

@[simp] theorem put_received (e : Endpoint) (c : Connection) (out : List Datagram) :
    (e.put c out).received = e.received := rfl

@[simp] theorem put_closedAt (e : Endpoint) (c : Connection) (out : List Datagram) :
    (e.put c out).closedAt = e.closedAt := rfl

@[simp] theorem put_emitted (e : Endpoint) (c : Connection) (out : List Datagram) :
    (e.put c out).emitted = e.emitted ++ out := rfl

@[simp] theorem put_put (e : Endpoint) (c c' : Connection) (out out' : List Datagram) :
    (e.put c out).put c' out' = e.put c' (out ++ out') := by
  simp [put]

@[simp] theorem put_self (e : Endpoint) : e.put e.conn [] = e := by
  simp [put]

/-- One call. -/
def call (b : Build) (e : Endpoint) : Call → Exec Endpoint
  | .send now data => do
    let (c, out) ← e.conn.send b now data
    .ok ({ e with sent := e.sent ++ data }.put c out)
  | .close now => do
    let (c, out) ← e.conn.close b now
    .ok ({ e with closedAt := e.closedAt.or (some e.sent.length) }.put c out)
  | .recv =>
    let (c, bytes) := e.conn.recv
    .ok ({ e with received := e.received ++ bytes }.put c [])
  | .onTick now => do
    let (c, out) ← e.conn.onTick b now
    .ok (e.put c out)
  | .onDatagram now d => do
    let (c, out) ← e.conn.onDatagram b now d
    .ok (e.put c out)

/-- A connection nothing has been done with yet. -/
def fresh (c : Connection) (out : List Datagram) : Endpoint := ⟨c, [], [], out, none⟩

end Endpoint

inductive Side where
  | client
  | server
  deriving DecidableEq, Repr

def Side.peer : Side → Side
  | .client => .server
  | .server => .client

theorem Side.eq_or_peer (s t : Side) : s = t ∨ s = t.peer := by
  cases s <;> cases t <;> simp [Side.peer]

structure Pair where
  client : Endpoint
  server : Endpoint

namespace Pair

def get (p : Pair) : Side → Endpoint
  | .client => p.client
  | .server => p.server

def set (p : Pair) (s : Side) (e : Endpoint) : Pair :=
  match s with
  | .client => { p with client := e }
  | .server => { p with server := e }

/-- `connect` on one side, `listen` on the other. -/
def start (b : Build) (ccfg scfg : Config) (t t' : Tick) : Exec Pair := do
  let (c, syn) ← Connection.connect b ccfg t
  let s ← Connection.listen b scfg t'
  .ok ⟨Endpoint.fresh c [syn], Endpoint.fresh s []⟩

/-- The network delivers only what the other side has emitted. -/
def Legal (p : Pair) (s : Side) : Call → Prop
  | .onDatagram _ d => d ∈ (p.get s.peer).emitted
  | _ => True

def step (b : Build) (p : Pair) (s : Side) (a : Call) : Exec Pair := do
  let e ← (p.get s).call b a
  .ok (p.set s e)

/-- The states of the runs whose every step meets the guard `G`. -/
inductive ReachVia (b : Build) (ccfg scfg : Config) (G : Pair → Side → Call → Prop) : Pair → Prop
  | start {t t' : Tick} {p : Pair} : Pair.start b ccfg scfg t t' = .ok p →
      ReachVia b ccfg scfg G p
  | step {p p' : Pair} {s : Side} {a : Call} : ReachVia b ccfg scfg G p → p.Legal s a → G p s a →
      p.step b s a = .ok p' → ReachVia b ccfg scfg G p'

/-- The states of all runs. -/
abbrev Reach (b : Build) (ccfg scfg : Config) : Pair → Prop :=
  ReachVia b ccfg scfg fun _ _ _ => True

theorem ReachVia.reach {b : Build} {ccfg scfg : Config} {G : Pair → Side → Call → Prop} {p : Pair}
    (h : ReachVia b ccfg scfg G p) : Reach b ccfg scfg p := by
  induction h with
  | start h => exact .start h
  | step _ hl _ hs ih => exact .step ih hl trivial hs

/-- A run that has passed through the states `past`, latest first, and is now in the given one;
    `T` holds of the ticks it has used and `G` of its steps. -/
inductive Run (b : Build) (ccfg scfg : Config) (T : Tick → Prop) (G : Pair → Side → Call → Prop) :
    List Pair → Pair → Prop
  | start {t t' : Tick} {p : Pair} : T t → T t' → Pair.start b ccfg scfg t t' = .ok p →
      Run b ccfg scfg T G [] p
  | step {past : List Pair} {p p' : Pair} {s : Side} {a : Call} : Run b ccfg scfg T G past p →
      p.Legal s a → (∀ now ∈ a.tick?, T now) → G p s a → p.step b s a = .ok p' →
      Run b ccfg scfg T G (p :: past) p'

section

variable {b : Build} {ccfg scfg : Config} {T : Tick → Prop} {G : Pair → Side → Call → Prop} {p : Pair}

theorem Run.via {past : List Pair} (h : Run b ccfg scfg T G past p) : ReachVia b ccfg scfg G p := by
  induction h with
  | start _ _ h => exact .start h
  | step _ hl _ hg hs ih => exact .step ih hl hg hs

theorem Run.mono {T' : Tick → Prop} {past : List Pair} (hT : ∀ t, T t → T' t)
    (h : Run b ccfg scfg T G past p) : Run b ccfg scfg T' G past p := by
  induction h with
  | start ht ht' h => exact .start (hT _ ht) (hT _ ht') h
  | step _ hl ht hg hs ih => exact .step ih hl (fun now hnow => hT _ (ht now hnow)) hg hs

theorem ReachVia.run (h : ReachVia b ccfg scfg G p) :
    ∃ past, Run b ccfg scfg (fun _ => True) G past p := by
  induction h with
  | start h => exact ⟨[], .start trivial trivial h⟩
  | step _ hl hg hs ih =>
    obtain ⟨past, hrun⟩ := ih
    exact ⟨_, .step hrun hl (fun _ _ => trivial) hg hs⟩

end

@[simp] theorem get_set_self (p : Pair) (s : Side) (e : Endpoint) : (p.set s e).get s = e := by
  cases s <;> rfl

@[simp] theorem get_set_peer (p : Pair) (s : Side) (e : Endpoint) :
    (p.set s e).get s.peer = p.get s.peer := by
  cases s <;> rfl

@[simp] theorem peer_peer (s : Side) : s.peer.peer = s := by cases s <;> rfl

theorem step_inv {b : Build} {p p' : Pair} {s : Side} {a : Call} (h : p.step b s a = .ok p') :
    ∃ e, (p.get s).call b a = .ok e ∧ p' = p.set s e := by
  obtain ⟨e, he, h'⟩ := bind_eq_ok.mp h
  cases h'
  exact ⟨e, he, rfl⟩

end Pair

/-! ## Scripted runs

A script names what to do next; a delivery names the datagram by its place in what the peer has
emitted so far. -/

inductive Act where
  | send (now : Tick) (data : List U8)
  | close (now : Tick)
  | recv
  | tick (now : Tick)
  | deliver (now : Tick) (i : Nat)
  deriving DecidableEq, Repr

namespace Pair

def callOf (p : Pair) (s : Side) : Act → Option Call
  | .send now data => some (.send now data)
  | .close now => some (.close now)
  | .recv => some .recv
  | .tick now => some (.onTick now)
  | .deliver now i => ((p.get s.peer).emitted[i]?).map (.onDatagram now)

/-- Play a script whose every call passes the test `g`. -/
def play (b : Build) (g : Pair → Side → Call → Bool) : List (Side × Act) → Pair → Exec Pair
  | [], p => .ok p
  | (s, a) :: acts, p =>
    match p.callOf s a with
    | none => .error .outOfBounds
    | some c =>
      if g p s c then do
        let p' ← p.step b s c
        play b g acts p'
      else .error .unreachable

theorem callOf_legal {p : Pair} {s : Side} {a : Act} {c : Call} (h : p.callOf s a = some c) :
    p.Legal s c := by
  cases a with
  | deliver now i =>
    obtain ⟨d, hd, rfl⟩ := Option.map_eq_some_iff.mp h
    exact List.mem_of_getElem? hd
  | _ => cases h; trivial

/-- A script that plays to its end is a run. -/
theorem play_run {b : Build} {ccfg scfg : Config} {T : Tick → Prop} {G : Pair → Side → Call → Prop}
    {g : Pair → Side → Call → Bool}
    (hg : ∀ p s c, g p s c = true → (∀ now ∈ c.tick?, T now) ∧ G p s c) :
    ∀ {acts : List (Side × Act)} {past : List Pair} {p p' : Pair}, Run b ccfg scfg T G past p →
    play b g acts p = .ok p' → ∃ past', past'.length = past.length + acts.length ∧
      Run b ccfg scfg T G past' p'
  | [], past, _, _, h, hp => by cases hp; exact ⟨past, rfl, h⟩
  | (s, a) :: acts, past, p, p', h, hp => by
    simp only [play] at hp
    split at hp
    · cases hp
    · rename_i c hc
      split at hp
      · rename_i ht
        obtain ⟨p₁, hs, hp⟩ := bind_eq_ok.mp hp
        obtain ⟨hT, hG⟩ := hg p s c ht
        obtain ⟨past', hlen, hrun⟩ := play_run hg (.step h (callOf_legal hc) hT hG hs) hp
        refine ⟨past', ?_, hrun⟩
        simp only [hlen, List.length_cons]
        omega
      · cases hp

theorem play_reach {b : Build} {ccfg scfg : Config} {G : Pair → Side → Call → Prop}
    {g : Pair → Side → Call → Bool} (hg : ∀ p s c, g p s c = true → G p s c)
    {acts : List (Side × Act)} {p p' : Pair} (h : ReachVia b ccfg scfg G p)
    (hp : play b g acts p = .ok p') : ReachVia b ccfg scfg G p' := by
  obtain ⟨past, hrun⟩ := h.run
  obtain ⟨past', _, hrun'⟩ := play_run (fun p s c ht => ⟨fun _ _ => trivial, hg p s c ht⟩) hrun hp
  exact hrun'.via

/-- Does the script play to its end, every call passing the test `g`, in a state that passes
    the test `test`? -/
def playsVia (b : Build) (ccfg scfg : Config) (g : Pair → Side → Call → Bool)
    (acts : List (Side × Act)) (test : Pair → Bool) : Bool :=
  match (do let p ← start b ccfg scfg 0 0; play b g acts p) with
  | .ok p => test p
  | .error _ => false

theorem playsVia_reach {b : Build} {ccfg scfg : Config} {G : Pair → Side → Call → Prop}
    {g : Pair → Side → Call → Bool} (hg : ∀ p s c, g p s c = true → G p s c)
    {acts : List (Side × Act)} {test : Pair → Bool}
    (h : playsVia b ccfg scfg g acts test = true) :
    ∃ p, ReachVia b ccfg scfg G p ∧ test p = true := by
  unfold playsVia at h
  split at h
  · rename_i p hp
    obtain ⟨p₀, h₀, hp⟩ := bind_eq_ok.mp hp
    exact ⟨p, play_reach hg (.start h₀) hp, h⟩
  · cases h

theorem playsVia_run {b : Build} {ccfg scfg : Config} {T : Tick → Prop}
    {G : Pair → Side → Call → Prop} {g : Pair → Side → Call → Bool} (h₀ : T 0)
    (hg : ∀ p s c, g p s c = true → (∀ now ∈ c.tick?, T now) ∧ G p s c)
    {acts : List (Side × Act)} {test : Pair → Bool}
    (h : playsVia b ccfg scfg g acts test = true) :
    ∃ past p, past.length = acts.length ∧ Run b ccfg scfg T G past p ∧ test p = true := by
  unfold playsVia at h
  split at h
  · rename_i p hp
    obtain ⟨p₀, hstart, hp⟩ := bind_eq_ok.mp hp
    obtain ⟨past, hlen, hrun⟩ := play_run hg (.start h₀ h₀ hstart) hp
    exact ⟨past, p, by simpa using hlen, hrun, h⟩
  · cases h

/-- The same without a test of the calls. -/
def plays (b : Build) (ccfg scfg : Config) (acts : List (Side × Act)) (test : Pair → Bool) : Bool :=
  playsVia b ccfg scfg (fun _ _ _ => true) acts test

theorem plays_reach {b : Build} {ccfg scfg : Config} {acts : List (Side × Act)}
    {test : Pair → Bool} (h : plays b ccfg scfg acts test = true) :
    ∃ p, Reach b ccfg scfg p ∧ test p = true :=
  playsVia_reach (fun _ _ _ _ => trivial) h

end Pair

/-! ## What a call does to the history -/

namespace Endpoint

variable {b : Build} {e e' : Endpoint} {a : Call}

theorem call_sent (h : e.call b a = .ok e') : ∃ data, e'.sent = e.sent ++ data := by
  cases a with
  | send now data =>
    obtain ⟨⟨c, out⟩, _, h'⟩ := bind_eq_ok.mp h
    cases h'; exact ⟨data, rfl⟩
  | recv => cases h; exact ⟨[], by simp⟩
  | _ =>
    obtain ⟨⟨c, out⟩, _, h'⟩ := bind_eq_ok.mp h
    cases h'; exact ⟨[], by simp⟩

theorem call_received_le (h : e.call b a = .ok e') : e.received.length ≤ e'.received.length := by
  cases a with
  | recv =>
    cases h
    show e.received.length ≤ (e.received ++ e.conn.delivered).length
    rw [List.length_append]; omega
  | _ =>
    obtain ⟨⟨c, out⟩, _, h'⟩ := bind_eq_ok.mp h
    cases h'; exact Nat.le_refl _

theorem call_sent_le (h : e.call b a = .ok e') : e.sent.length ≤ e'.sent.length := by
  obtain ⟨data, hd⟩ := call_sent h
  rw [hd, List.length_append]; omega

end Endpoint

end Distrans

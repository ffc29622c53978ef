import Distrans.Transport.Connection

/-!
# What a byte stream offers

The RPC layer uses four operations of a connection, and nothing else of it.  `Transport` is what it
may be given: `Connection.transport` is the connection of this crate, and `tapped` is any transport
with the record of the bytes that have gone through it.
-/

set_option autoImplicit false

namespace Distrans

open Machine

/-- The operations of a connection that the RPC layer uses. -/
structure Transport (σ : Type) where
  onDatagram : σ → Tick → Datagram → Exec (σ × List Datagram)
  onTick : σ → Tick → Exec (σ × List Datagram)
  send : σ → Tick → List U8 → Exec (σ × List Datagram)
  recv : σ → σ × List U8

def Connection.transport (b : Build) : Transport Connection where
  onDatagram := Connection.onDatagram b
  onTick := Connection.onTick b
  send := Connection.send b
  recv := Connection.recv

/-- A connection and the bytes that have gone through it. -/
structure Tapped (σ : Type) where
  conn : σ
  /-- Everything `recv` has returned. -/
  received : List U8
  /-- Everything passed to `send`. -/
  sent : List U8

namespace Transport

variable {σ : Type}

/-- A transport that keeps the record. -/
def tapped (T : Transport σ) : Transport (Tapped σ) where
  onDatagram c now d := do
    let (conn, out) ← T.onDatagram c.conn now d
    .ok ({ c with conn }, out)
  onTick c now := do
    let (conn, out) ← T.onTick c.conn now
    .ok ({ c with conn }, out)
  send c now bytes := do
    let (conn, out) ← T.send c.conn now bytes
    .ok ({ c with conn, sent := c.sent ++ bytes }, out)
  recv c :=
    let (conn, bytes) := T.recv c.conn
    ({ c with conn, received := c.received ++ bytes }, bytes)

/-- Every operation returns. -/
structure Total (T : Transport σ) : Prop where
  onDatagram : ∀ c now d, ∃ r, T.onDatagram c now d = .ok r
  onTick : ∀ c now, ∃ r, T.onTick c now = .ok r
  send : ∀ c now bytes, ∃ r, T.send c now bytes = .ok r

theorem Total.tapped {T : Transport σ} (h : T.Total) : T.tapped.Total where
  onDatagram c now d := bind_returns (h.onDatagram c.conn now d) fun _ _ => ⟨_, rfl⟩
  onTick c now := bind_returns (h.onTick c.conn now) fun _ _ => ⟨_, rfl⟩
  send c now bytes := bind_returns (h.send c.conn now bytes) fun _ _ => ⟨_, rfl⟩

variable {T : Transport σ} {c c' : Tapped σ} {now : Tick} {out : List Datagram}

theorem tapped_onDatagram {d : Datagram} (h : T.tapped.onDatagram c now d = .ok (c', out)) :
    c'.received = c.received ∧ c'.sent = c.sent := by
  obtain ⟨⟨conn, _⟩, _, h⟩ := bind_eq_ok.mp h
  cases h
  exact ⟨rfl, rfl⟩

theorem tapped_onTick (h : T.tapped.onTick c now = .ok (c', out)) :
    c'.received = c.received ∧ c'.sent = c.sent := by
  obtain ⟨⟨conn, _⟩, _, h⟩ := bind_eq_ok.mp h
  cases h
  exact ⟨rfl, rfl⟩

theorem tapped_send {bytes : List U8} (h : T.tapped.send c now bytes = .ok (c', out)) :
    c'.received = c.received ∧ c'.sent = c.sent ++ bytes := by
  obtain ⟨⟨conn, _⟩, _, h⟩ := bind_eq_ok.mp h
  cases h
  exact ⟨rfl, rfl⟩

theorem tapped_recv (T : Transport σ) (c : Tapped σ) :
    (T.tapped.recv c).1.received = c.received ++ (T.tapped.recv c).2 ∧
    (T.tapped.recv c).1.sent = c.sent := ⟨rfl, rfl⟩

end Transport

/-- Nothing has gone through yet. -/
def Tapped.fresh {σ : Type} (conn : σ) : Tapped σ := ⟨conn, [], []⟩

end Distrans

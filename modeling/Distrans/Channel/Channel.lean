import Mathlib.Data.Prod.Lex
import Distrans.Channel.Fault
import Distrans.Lib.EventQueue

/-!
# The hostile channel

`crates/channel/src/lib.rs`: one direction of a link.  Faults are drawn when a datagram is sent;
`advance` and `deliver_ready` hand out what has arrived.  The binary heap of slots is the list of
its elements in ascending order; the bytes of a datagram lie in a table, from which they are taken
when it is handed out.

`send` also returns what it has enqueued, for the histories of runs.
-/

set_option autoImplicit false

namespace Distrans

open Machine

/-- A datagram in flight. -/
structure InFlight where
  arrives : Tick
  /-- Insertion order. -/
  seq : Nat
  payload : List U8
  deriving DecidableEq, Repr

/-- An element of the heap: the arrival, the insertion order, and the place of the bytes. -/
structure Slot where
  arrives : Tick
  seq : Nat
  id : Nat
  deriving DecidableEq, Repr

/-- Slots are ordered as triples are. -/
def Slot.key (s : Slot) : Tick ×ₗ Nat ×ₗ Nat := toLex (s.arrives, toLex (s.seq, s.id))

structure Channel where
  profile : FaultProfile
  script : Script
  rng : SplitMix64
  now : Tick
  /-- The min-heap, lowest slot first. -/
  inFlight : List Slot
  payloads : List (List U8)
  nextDatagramIndex : Nat
  stats : FaultStats

namespace Channel

/-- A channel with a random profile and scripted overrides; an invalid profile panics. -/
def withScript (seed : U64) (profile : FaultProfile) (script : Script) : Exec Channel :=
  if profile.validate then
    .ok { profile, script, rng := ⟨seed⟩, now := 0, inFlight := [], payloads := [],
          nextDatagramIndex := 0, stats := {} }
  else .error .unwrapNone

/-! ## Sending -/

/-- The delay of `emit_one`: scripted, else drawn. -/
def emitDelay (b : Build) (c : Channel) (rules : List ScriptedFault) : Exec (Channel × U64) := do
  let (extraDelay, rng) ← (match rules.findSome? ScriptedFault.delay? with
    | some d => .ok (d, c.rng)
    | none =>
      if 0 < c.profile.reorderMaxDelay then do
        let n ← b.add c.profile.reorderMaxDelay 1#64
        c.rng.below n
      else .ok (0, c.rng))
  let reordered := if 0 < extraDelay then c.stats.reordered + 1 else c.stats.reordered
  .ok ({ c with rng, stats := { c.stats with reordered } }, extraDelay)

/-- The corruption of `emit_one`: one bit of a scripted byte, else of a drawn one. -/
def emitCorrupt (c : Channel) (rules : List ScriptedFault) (bytes : List U8) :
    Exec (Channel × List U8) :=
  let scripted := rules.findSome? ScriptedFault.corrupt?
  let (should, rng) := c.rng.orChance scripted.isSome c.profile.corruption
  if should ∧ bytes ≠ [] then do
    let (drawn, rng) ← (match scripted with
      | some byteOffset => .ok (byteOffset, rng)
      | none => do
        let (x, rng) ← rng.below (BitVec.ofNat 64 bytes.length)
        .ok (x.toNat, rng))
    let offset := drawn % bytes.length
    let (bit, rng) ← rng.below 8
    let byte ← index bytes offset
    .ok ({ c with rng, stats := { c.stats with corrupted := c.stats.corrupted + 1 } },
      bytes.set offset (byte ^^^ (1#8 <<< bit.toNat)))
  else .ok ({ c with rng }, bytes)

/-- The truncation of `emit_one`: to a scripted length, else to a drawn one. -/
def emitTruncate (c : Channel) (rules : List ScriptedFault) (bytes : List U8) :
    Exec (Channel × List U8) :=
  let scripted := rules.findSome? ScriptedFault.truncate?
  let (should, rng) := c.rng.orChance scripted.isSome c.profile.truncation
  if should then do
    let (drawn, rng) ← (match scripted with
      | some toLen => .ok (toLen, rng)
      | none =>
        if bytes = [] then .ok (0, rng) else do
        let (x, rng) ← rng.below (BitVec.ofNat 64 bytes.length)
        .ok (x.toNat, rng))
    let toLen := min drawn bytes.length
    if toLen < bytes.length then
      .ok ({ c with rng, stats := { c.stats with truncated := c.stats.truncated + 1 } },
        bytes.take toLen)
    else .ok ({ c with rng }, bytes)
  else .ok ({ c with rng }, bytes)

def emitOne (b : Build) (c : Channel) (payload : List U8) (rules : List ScriptedFault) :
    Exec (Channel × InFlight) := do
  let (c, extraDelay) ← c.emitDelay b rules
  let (c, bytes) ← c.emitCorrupt rules payload
  let (c, bytes) ← c.emitTruncate rules bytes
  let delay ← b.add c.profile.baseDelay extraDelay
  -- `seq` is filled in by `enqueue`
  .ok (c, { arrives := Tick.advance c.now delay, seq := 0, payload := bytes })

/-- Put a datagram into the table and its slot into the heap. -/
def enqueue (c : Channel) (d : InFlight) : Channel × InFlight :=
  let seq := c.payloads.length
  let id := c.payloads.length
  ({ c with
      payloads := c.payloads ++ [d.payload]
      inFlight := EventQueue.push Slot.key { arrives := d.arrives, seq, id } c.inFlight },
    { d with seq })

def send (b : Build) (c : Channel) (payload : List U8) : Exec (Channel × List InFlight) :=
  let rules := c.script.forIndex c.nextDatagramIndex
  let c := { c with
    nextDatagramIndex := c.nextDatagramIndex + 1
    stats := { c.stats with sent := c.stats.sent + 1 } }
  let (dropped, rng) := c.rng.orChance (decide (.drop ∈ rules)) c.profile.loss
  let c := { c with rng }
  if dropped then
    .ok ({ c with stats := { c.stats with dropped := c.stats.dropped + 1 } }, [])
  else do
    let (c, base) ← c.emitOne b payload rules
    let (c, base) := c.enqueue base
    let (duplicated, rng) := c.rng.orChance (decide (.duplicate ∈ rules)) c.profile.duplication
    let c := { c with rng }
    if duplicated then do
      let c := { c with stats := { c.stats with duplicated := c.stats.duplicated + 1 } }
      let (c, dup) ← c.emitOne b payload rules
      let (c, dup) := c.enqueue dup
      .ok (c, [base, dup])
    else .ok (c, [base])

/-! ## Delivery -/

/-- The loop of `deliver_ready`, over the heap in ascending order. -/
def deliverLoop (now : Tick) : List Slot → List (List U8) → Nat → List (List U8) →
    Exec (List Slot × List (List U8) × Nat × List (List U8))
  | [], payloads, delivered, ready => .ok ([], payloads, delivered, ready)
  | s :: inFlight, payloads, delivered, ready =>
    if now < s.arrives then .ok (s :: inFlight, payloads, delivered, ready) else do
    let bytes ← index payloads s.id
    deliverLoop now inFlight (payloads.set s.id []) (delivered + 1) (ready ++ [bytes])

def deliverReady (c : Channel) : Exec (Channel × List (List U8)) := do
  let (inFlight, payloads, delivered, ready) ←
    deliverLoop c.now c.inFlight c.payloads c.stats.delivered []
  .ok ({ c with inFlight, payloads, stats := { c.stats with delivered } }, ready)

def advance (c : Channel) (target : Tick) : Exec (Channel × List (List U8)) :=
  { c with now := if c.now < target then target else c.now }.deliverReady

end Channel

end Distrans

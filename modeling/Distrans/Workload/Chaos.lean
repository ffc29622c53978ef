import Distrans.Lib.Loop
import Distrans.Workload.Baselines
import Distrans.Workload.Client
import Distrans.Workload.Oracle
import Mathlib.Data.List.Sort

/-!
# The chaos harness

`crates/workload/src/{rng,profiles,chaos}.rs`: several clients issue random operations at random
times, each over a pair of faulty channels to a server of its own; the servers share one store.
The run ends when no call is pending, and what the servers have executed is then replayed against
the reference store.

The table of pending calls of a client is a `HashMap`: `orders` says in which order client `i` visits
it at the tick `t`.
-/

set_option autoImplicit false

namespace Distrans.Workload

open Machine

/-! ## Random choices -/

/-- Uniform in `0..n`; the generator is the same as that of the channel. -/
def below (r : SplitMix64) (n : Nat) : Exec (Nat × SplitMix64) :=
  if n = 0 then .error .assertion else
  let (x, r) := r.nextU64
  .ok (x.toNat * n / 2 ^ 64, r)

def percent (r : SplitMix64) (percent : U64) : Bool × SplitMix64 :=
  let (x, r) := r.nextU64
  (decide (x % 100 < percent), r)

/-! ## Profiles

A probability is the double nearest to the decimal fraction of the source. -/

def clean : FaultProfile := CLEAN

/-- `0.10`, `0.02`, `0.01` and `0.01`. -/
def lossy : FaultProfile where
  loss := 3602879701896397 / 2 ^ 55
  duplication := 5764607523034235 / 2 ^ 58
  reorderMaxDelay := 1
  corruption := 5764607523034235 / 2 ^ 59
  truncation := 5764607523034235 / 2 ^ 59
  baseDelay := 1

/-- `0.02` and `0.05`. -/
def highLatencyReordering : FaultProfile where
  loss := 5764607523034235 / 2 ^ 58
  duplication := 3602879701896397 / 2 ^ 56
  reorderMaxDelay := 25
  corruption := 0
  truncation := 0
  baseDelay := 5

/-- `0.02`, `0.25` and `0.05`. -/
def burstyCorruption : FaultProfile where
  loss := 5764607523034235 / 2 ^ 58
  duplication := 0
  reorderMaxDelay := 0
  corruption := 1 / 4
  truncation := 3602879701896397 / 2 ^ 56
  baseDelay := 1

/-- `0.6` and `0.05`. -/
def nearPartition : FaultProfile where
  loss := 5404319552844595 / 2 ^ 53
  duplication := 0
  reorderMaxDelay := 2
  corruption := 3602879701896397 / 2 ^ 56
  truncation := 0
  baseDelay := 1

/-- `profiles::all`. -/
def allProfiles : List (String × FaultProfile) :=
  [("clean", clean), ("lossy", lossy), ("high_latency_reordering", highLatencyReordering),
    ("bursty_corruption", burstyCorruption), ("near_partition", nearPartition)]

/-- Every named profile validates. -/
theorem allProfiles_validate : ∀ p ∈ allProfiles, p.2.validate = true := by decide +kernel

/-! ## Configuration and outcome -/

structure ChaosConfig where
  seed : U64
  clients : Nat
  calls : Nat
  maxTicks : U64
  initialProfile : FaultProfile
  profileSwitches : List (U64 × FaultProfile)
  keySpace : Nat

def ChaosConfig.default : ChaosConfig where
  seed := 0
  clients := 3
  calls := 60
  maxTicks := 60000
  initialProfile := CLEAN
  profileSwitches := []
  keySpace := 6

structure ChaosFailure where
  seed : U64
  message : String
  deriving DecidableEq, Repr

/-- `{:#x}` -/
def hex (n : U64) : String := "0x" ++ String.ofList (Nat.toDigits 16 n.toNat)

def ChaosFailure.display (f : ChaosFailure) : String :=
  let seed := hex f.seed
  let message := f.message
  s!"chaos invariant violated (seed {seed}): {message}\n  replay: distrans-chaos --seed {seed}"

structure ChaosSummary where
  seed : U64
  executions : Nat
  callsCompleted : Nat
  callsFailed : Nat
  ticksUsed : U64
  deriving DecidableEq, Repr

/-- `{:?}` of bytes. -/
def debugBytes (bytes : List U8) : String :=
  "[" ++ String.intercalate ", " (bytes.map fun b => toString b.toNat) ++ "]"

/-- `{:?}` -/
def Op.debug : Op → String
  | .get key => "Get \x7b key: " ++ debugBytes key ++ " \x7d"
  | .put key value =>
    "Put \x7b key: " ++ debugBytes key ++ ", value: " ++ debugBytes value ++ " \x7d"
  | .delete key => "Delete \x7b key: " ++ debugBytes key ++ " \x7d"

/-- What the differential check reports. -/
def Mismatch.message (m : Mismatch) : String :=
  let i := m.index
  let op := m.execution.op.debug
  let ok := m.execution.ok
  let payload := debugBytes m.execution.payload
  let refOk := m.refOk
  let refPayload := debugBytes m.refPayload
  s!"execution {i} ({op}) produced (ok={ok}, payload={payload}), reference store says " ++
    s!"(ok={refOk}, payload={refPayload})"

def didNotDrain (maxTicks : U64) (fired calls : Nat) : String :=
  let ticks := maxTicks.toNat
  s!"did not drain within {ticks} ticks ({fired} of {calls} calls issued)"

/-! ## Links -/

/-- What the servers share: the store, and the log of executions. -/
abbrev Served := Store × List Execution

/-- `on_execute` pushes to the log. -/
def logExecution (op : Op) (ok : Bool) (payload : List U8) (log : List Execution) :
    List Execution := log ++ [⟨op, ok, payload⟩]

abbrev Server := RpcServer Connection Served

structure ClientLink where
  client : RpcClient Connection
  c2s : Channel
  s2c : Channel

def makeLink (seed : U64) (profile : FaultProfile) : Exec (Channel × Channel) := do
  let c2s ← Channel.withScript seed profile ⟨[]⟩
  let s2c ← Channel.withScript (seed ^^^ 0xABCDEF0123456789#64) profile ⟨[]⟩
  .ok (c2s, s2c)

/-- `seed.wrapping_add(i * 1000)` -/
def linkSeed (b : Build) (seed : U64) (i : Nat) : Exec U64 := do
  let offset ← b.mul (BitVec.ofNat 64 i) 1000
  .ok (seed + offset)

def sendAll (b : Build) (c : Channel) (out : List Datagram) : Exec Channel :=
  out.foldlM (channelMedium b).send c

/-- A client, its server and the channels between them; the client's SYN is still to be sent. -/
def setUp (b : Build) (config : ChaosConfig) (i : Nat) : Exec (ClientLink × Server × Datagram) := do
  let (clientConn, syn) ← Connection.connect b transportConfig 0
  let serverConn ← Connection.listen b transportConfig 0
  let seed ← linkSeed b config.seed i
  let (c2s, s2c) ← makeLink seed config.initialProfile
  .ok (⟨.new clientConn 25 60, c2s, s2c⟩, makeServer serverConn logExecution, syn)

/-! ## The schedule -/

/-- Random bytes. -/
def drawBytes : Nat → SplitMix64 → List U8 × SplitMix64
  | 0, r => ([], r)
  | n + 1, r =>
    let (x, r) := r.nextU64
    let (bytes, r) := drawBytes n r
    (x.setWidth 8 :: bytes, r)

/-- `format!("k{}", n).into_bytes()` -/
def keyBytes (n : Nat) : List U8 := ('k' :: Nat.toDigits 10 n).map fun ch => BitVec.ofNat 8 ch.toNat

def drawOp (keySpace : Nat) (r : SplitMix64) : Exec (Op × SplitMix64) := do
  let (n, r) ← below r keySpace
  let key := keyBytes n
  let (kind, r) ← below r 3
  match kind with
  | 0 => .ok (.get key, r)
  | 1 => do
    let (len, r) ← below r 8
    let (value, r) := drawBytes (1 + len) r
    .ok (.put key value, r)
  | _ => .ok (.delete key, r)

/-- The calls still to be drawn, the last of those before them at the tick `t`. -/
def schedule (b : Build) (clients keySpace : Nat) :
    Nat → U64 → SplitMix64 → Exec (List (U64 × Nat × Op))
  | 0, _, _ => .ok []
  | calls + 1, t, r => do
    let (wait, r) ← below r 4
    let step ← b.add 1 (BitVec.ofNat 64 wait)
    let t ← b.add t step
    let (client, r) ← below r clients
    let (op, r) ← drawOp keySpace r
    let rest ← schedule b clients keySpace calls t r
    .ok ((t, client, op) :: rest)

/-- A stable sort by tick. -/
def sortSwitches (switches : List (U64 × FaultProfile)) : List (U64 × FaultProfile) :=
  switches.insertionSort fun s s' => s.1 ≤ s'.1

/-! ## The run -/

structure Harness where
  links : List ClientLink
  servers : List Server
  shared : Served
  fired : Nat
  switched : Nat
  expectedCompletions : List U64
  callsFailed : Nat
  tick : U64

namespace Harness

/-- New channels for the `i`-th client. -/
def relink (b : Build) (config : ChaosConfig) (profile : FaultProfile) (h : Harness) (i : Nat) :
    Exec Harness := do
  let link ← index h.links i
  let seed ← linkSeed b config.seed i
  let offset ← b.mul (BitVec.ofNat 64 h.switched) 7919
  let (c2s, s2c) ← makeLink (seed + offset) profile
  .ok { h with links := h.links.set i { link with c2s, s2c } }

/-- The switches that are due. -/
def switchProfiles (b : Build) (config : ChaosConfig) :
    List (U64 × FaultProfile) → Harness → Exec Harness
  | [], h => .ok h
  | (t, profile) :: rest, h =>
    if t ≤ h.tick then do
      let h ← (List.range h.links.length).foldlM (relink b config profile) h
      switchProfiles b config rest { h with switched := h.switched + 1 }
    else .ok h

/-- The calls that are due. -/
def fireCalls (b : Build) : List (U64 × Nat × Op) → Harness → Exec Harness
  | [], h => .ok h
  | (t, i, op) :: rest, h =>
    if t ≤ h.tick then do
      let link ← index h.links i
      let (client, id, out) ← call b (Connection.transport b) link.client h.tick op
      let c2s ← sendAll b link.c2s out
      fireCalls b rest { h with
        links := h.links.set i { link with client, c2s }
        expectedCompletions := h.expectedCompletions ++ [id]
        fired := h.fired + 1 }
    else .ok h

/-- What has arrived at a server, one datagram after another. -/
def serve (b : Build) (now : Tick) : List Datagram → Server → Served → Channel →
    Exec (Server × Served × Channel)
  | [], server, shared, s2c => .ok (server, shared, s2c)
  | d :: ds, server, shared, s2c => do
    let (server, shared, out) ← server.onDatagram (Connection.transport b) shared now d
    let s2c ← sendAll b s2c out
    serve b now ds server shared s2c

/-- What has arrived at a client. -/
def hear (b : Build) (now : Tick) : List Datagram → RpcClient Connection → Channel →
    Exec (RpcClient Connection × Channel)
  | [], client, c2s => .ok (client, c2s)
  | d :: ds, client, c2s => do
    let (client, out) ← client.onDatagram (Connection.transport b) now d
    let c2s ← sendAll b c2s out
    hear b now ds client c2s

/-- One tick of a client and its server. -/
def pump (b : Build) (π : Shuffle) (now : Tick) (link : ClientLink) (server : Server)
    (shared : Served) : Exec (ClientLink × Server × Served) := do
  let (c2s, ds) ← link.c2s.advance now
  let (server, shared, s2c) ← serve b now ds server shared link.s2c
  let (s2c, ds) ← s2c.advance now
  let (client, c2s) ← hear b now ds link.client c2s
  let (client, out) ←
    client.onTick b (Connection.transport b) now (π.order client.pending.entries)
  let c2s ← sendAll b c2s out
  let (server, out) ← server.onTick (Connection.transport b) now
  let s2c ← sendAll b s2c out
  .ok (⟨client, c2s, s2c⟩, server, shared)

def pumpAt (b : Build) (orders : Nat → Nat → Shuffle) (h : Harness) (i : Nat) : Exec Harness := do
  let link ← index h.links i
  let server ← index h.servers i
  let (link, server, shared) ← pump b (orders h.tick.toNat i) h.tick link server h.shared
  .ok { h with links := h.links.set i link, servers := h.servers.set i server, shared }

/-- What is completed is dropped, what has failed is counted. -/
def poll (h : Harness) (i : Nat) : Exec Harness := do
  let link ← index h.links i
  let (client, _) := link.client.pollCompleted
  let (client, failed) := client.pollFailed
  .ok { h with
    links := h.links.set i { link with client }
    callsFailed := h.callsFailed + failed.length }

/-- One turn of the main loop, up to its tests. -/
def turn (b : Build) (config : ChaosConfig) (plan : List (U64 × Nat × Op))
    (switches : List (U64 × FaultProfile)) (orders : Nat → Nat → Shuffle) (h : Harness) :
    Exec Harness := do
  let tick ← b.add h.tick 1
  let h := { h with tick }
  let h ← switchProfiles b config (switches.drop h.switched) h
  let h ← fireCalls b (plan.drop h.fired) h
  let h ← (List.range (min h.links.length h.servers.length)).foldlM (pumpAt b orders) h
  (List.range h.links.length).foldlM poll h

/-- `all_pending_drained` -/
def drained (plan : List (U64 × Nat × Op)) (h : Harness) : Bool :=
  h.fired == plan.length && h.links.all fun l => l.client.pending.entries.length == 0

/-- The body of the main loop. -/
def body (b : Build) (config : ChaosConfig) (plan : List (U64 × Nat × Op))
    (switches : List (U64 × FaultProfile)) (orders : Nat → Nat → Shuffle) (h : Harness) :
    Exec (Harness ⊕ Except ChaosFailure Harness) := do
  let h ← turn b config plan switches orders h
  if h.drained plan then .ok (.inr (.ok h))
  else if config.maxTicks ≤ h.tick then
    .ok (.inr (.error ⟨config.seed, didNotDrain config.maxTicks h.fired config.calls⟩))
  else .ok (.inl h)

/-- The differential check, and the summary. -/
def conclude (b : Build) (config : ChaosConfig) (h : Harness) :
    Exec (Except ChaosFailure ChaosSummary) :=
  match differential 0 .new h.shared.2 with
  | .error m => .ok (.error ⟨config.seed, m.message⟩)
  | .ok () => do
    let completed ← b.sub (BitVec.ofNat 64 h.expectedCompletions.length)
      (BitVec.ofNat 64 h.callsFailed)
    .ok (.ok {
      seed := config.seed
      executions := h.shared.2.length
      callsCompleted := completed.toNat
      callsFailed := h.callsFailed
      ticksUsed := h.tick })

end Harness

/-- The harness before the first tick. -/
def launch (b : Build) (config : ChaosConfig) : Exec Harness := do
  let parts ← (List.range config.clients).mapM (setUp b config)
  let links ← parts.mapM fun (link, _, syn) => do
    let c2s ← sendAll b link.c2s [syn]
    .ok { link with c2s }
  .ok {
    links
    servers := parts.map fun p => p.2.1
    shared := (.empty, [])
    fired := 0
    switched := 0
    expectedCompletions := []
    callsFailed := 0
    tick := 0 }

/-- The schedule, and how the main loop ends: it makes at most `max_ticks` turns, and one in any
case. -/
def mainLoop (b : Build) (config : ChaosConfig) (orders : Nat → Nat → Shuffle) :
    Exec (List (U64 × Nat × Op) × Except ChaosFailure Harness) := do
  let h ← launch b config
  let plan ← schedule b config.clients config.keySpace config.calls 1 ⟨config.seed⟩
  let switches := sortSwitches config.profileSwitches
  let r ← loop (Harness.body b config plan switches orders) (config.maxTicks.toNat + 1) h
  .ok (plan, r)

def runChaos (b : Build) (config : ChaosConfig) (orders : Nat → Nat → Shuffle) :
    Exec (Except ChaosFailure ChaosSummary) := do
  match ← mainLoop b config orders with
  | (_, .error failure) => .ok (.error failure)
  | (_, .ok h) => h.conclude b config

end Distrans.Workload

import Distrans.Workload.Service

/-!
# The store and its oracle

`ReferenceStore` of `crates/workload/src/kv.rs`, an association list that is searched from the
back, and the differential check at the end of `run_chaos` (`crates/workload/src/chaos.rs`), which
replays the log of executions against it.

* `Agrees` — the simulation: each key has at most one entry, and that is the binding of the map.
* `oracle_equivalent` — **the two stores answer alike**, so the check accepts exactly the
  sequential histories.
-/

set_option autoImplicit false

namespace Distrans.Workload

open Machine

structure ReferenceStore where
  entries : List (List U8 × List U8)
  deriving DecidableEq, Repr

namespace ReferenceStore

def new : ReferenceStore := ⟨[]⟩

def apply (op : Op) (r : ReferenceStore) : (Bool × List U8) × ReferenceStore :=
  match op with
  | .get key =>
    match r.entries.reverse.find? fun e => e.1 == key with
    | some e => ((true, e.2), r)
    | none => ((false, []), r)
  | .put key value => ((true, []), ⟨r.entries.filter (fun e => e.1 != key) ++ [(key, value)]⟩)
  | .delete key =>
    let before := r.entries.length
    let entries := r.entries.filter fun e => e.1 != key
    ((entries.length != before, []), ⟨entries⟩)

end ReferenceStore

/-- What the check reports: the first execution that went otherwise than in the oracle. -/
structure Mismatch where
  index : Nat
  execution : Execution
  refOk : Bool
  refPayload : List U8
  deriving DecidableEq, Repr

/-- The loop of the differential check, from the `i`-th execution on. -/
def differential (i : Nat) (reference : ReferenceStore) : List Execution → Except Mismatch Unit
  | [] => .ok ()
  | e :: log =>
    let ((refOk, refPayload), reference) := reference.apply e.op
    if e.ok ≠ refOk ∨ e.payload ≠ refPayload then .error ⟨i, e, refOk, refPayload⟩
    else differential (i + 1) reference log

/-! ## The simulation -/

/-- The entries are the bindings of the map, one for each key. -/
structure Agrees (store : Store) (r : ReferenceStore) : Prop where
  keys : (r.entries.map Prod.fst).Nodup
  bound : ∀ key value, (key, value) ∈ r.entries ↔ store key = some value

variable {store : Store} {r : ReferenceStore} {key : List U8}

theorem Agrees.new : Agrees .empty .new := ⟨List.nodup_nil, by simp [ReferenceStore.new, Store.empty]⟩

/-- The search from the back finds the binding. -/
theorem Agrees.find (h : Agrees store r) (key : List U8) :
    (r.entries.reverse.find? fun e => e.1 == key).map Prod.snd = store key := by
  cases hfind : r.entries.reverse.find? fun e => e.1 == key with
  | some e =>
    obtain ⟨k, v⟩ := e
    have hk : k = key := by simpa using List.find?_some hfind
    have hmem : (k, v) ∈ r.entries := List.mem_reverse.mp (List.mem_of_find?_eq_some hfind)
    rw [← hk]
    exact ((h.bound k v).mp hmem).symm
  | none =>
    cases hs : store key with
    | none => rfl
    | some v =>
      have hmem := List.mem_reverse.mpr ((h.bound key v).mpr hs)
      simpa using List.find?_eq_none.mp hfind _ hmem

/-- Without the entries of a key. -/
theorem Agrees.retain (h : Agrees store r) (key : List U8) :
    Agrees (store.set key none) ⟨r.entries.filter fun e => e.1 != key⟩ := by
  refine ⟨h.keys.sublist (List.filter_sublist.map Prod.fst), fun k v => ?_⟩
  rw [List.mem_filter, h.bound, Store.set]
  by_cases hk : k = key <;> simp [hk]

/-- The lengths differ if there was an entry to take out. -/
theorem Agrees.existed (h : Agrees store r) (key : List U8) :
    ((r.entries.filter fun e => e.1 != key).length != r.entries.length) = (store key).isSome := by
  have hall : (r.entries.filter fun e => e.1 != key).length = r.entries.length ↔
      store key = none := by
    rw [List.length_filter_eq_length_iff]
    constructor
    · intro hno
      cases hs : store key with
      | none => rfl
      | some v => simpa using hno _ ((h.bound key v).mpr hs)
    · intro hs e he
      have hbound := (h.bound e.1 e.2).mp he
      rw [bne_iff_ne]
      intro hk
      rw [hk, hs] at hbound
      cases hbound
  cases hs : store key with
  | none => rw [hall.mpr hs]; simp
  | some v =>
    have hne : (r.entries.filter fun e => e.1 != key).length ≠ r.entries.length := by
      rw [ne_eq, hall, hs]
      simp
    simpa using hne

/-- **One operation**: the same answer, and the stores still agree. -/
theorem Agrees.apply (h : Agrees store r) (op : Op) :
    (apply op store).1 = (r.apply op).1 ∧ Agrees (apply op store).2 (r.apply op).2 := by
  cases op with
  | get key =>
    have hfind := h.find key
    cases hf : r.entries.reverse.find? fun e => e.1 == key with
    | some e =>
      rw [hf] at hfind
      simp only [Workload.apply, ReferenceStore.apply, hf, ← hfind, Option.map_some]
      exact ⟨trivial, h⟩
    | none =>
      rw [hf] at hfind
      simp only [Workload.apply, ReferenceStore.apply, hf, ← hfind, Option.map_none]
      exact ⟨trivial, h⟩
  | put key value =>
    refine ⟨rfl, ?_, fun k v => ?_⟩
    · show ((r.entries.filter _ ++ [(key, value)]).map Prod.fst).Nodup
      rw [List.map_append, List.map_singleton, List.nodup_append]
      refine ⟨(h.retain key).keys, List.nodup_singleton _, ?_⟩
      intro k hk k' hk' heq
      obtain ⟨e, he, rfl⟩ := List.mem_map.mp hk
      rw [List.mem_singleton.mp hk'] at heq
      simpa [heq] using (List.mem_filter.mp he).2
    · show (k, v) ∈ r.entries.filter _ ++ [(key, value)] ↔ store.set key (some value) k = some v
      rw [List.mem_append, (h.retain key).bound, List.mem_singleton, Store.set, Store.set]
      by_cases hk : k = key
      · simp [hk, eq_comm]
      · simp [hk]
  | delete key =>
    refine ⟨?_, h.retain key⟩
    show ((store key).isSome, []) = (_, [])
    rw [← h.existed key]

/-! ## The check -/

/-- The check from stores that agree. -/
theorem Agrees.differential {i : Nat} : ∀ (log : List Execution) {store : Store}
    {r : ReferenceStore}, Agrees store r →
    (differential i r log = .ok () ↔
      log.map (fun e => (e.ok, e.payload)) = (thread Workload.apply (log.map Execution.op) store).1)
  | [], _, _, _ => by simp [Workload.differential, thread]
  | e :: log, store, r, h => by
    obtain ⟨hans, hnext⟩ := h.apply e.op
    have hrest := Agrees.differential (i := i + 1) log hnext
    rw [Workload.differential, List.map_cons, List.map_cons, thread, List.cons.injEq]
    dsimp only
    split
    · rename_i hne
      constructor
      · intro h
        cases h
      · rintro ⟨heq, _⟩
        have hsame : (e.ok, e.payload) = (r.apply e.op).1 := heq.trans hans
        rcases hne with hne | hne
        · exact absurd (congrArg Prod.fst hsame) hne
        · exact absurd (congrArg Prod.snd hsame) hne
    · rename_i hsame
      rw [hrest]
      refine ⟨fun h => ⟨?_, h⟩, fun h => h.2⟩
      push Not at hsame
      exact (Prod.ext hsame.1 hsame.2 : (e.ok, e.payload) = _).trans hans.symm

/-- **The store and its oracle are equivalent.** -/
theorem oracle_equivalent (ops : List Op) :
    (thread apply ops .empty).1 = (thread ReferenceStore.apply ops .new).1 ∧
    ((thread ReferenceStore.apply ops .new).2.entries.map Prod.fst).Nodup ∧
    (∀ key, (apply (.get key) (thread apply ops .empty).2).1 =
      ((thread ReferenceStore.apply ops .new).2.apply (.get key)).1) ∧
    ∀ log : List Execution, differential 0 .new log = .ok () ↔
      log.map (fun e => (e.ok, e.payload)) = (thread apply (log.map Execution.op) .empty).1 := by
  obtain ⟨hsame, hagree⟩ := thread_simulates (R := Agrees)
    (fun op _ _ h => h.apply op) ops Agrees.new
  exact ⟨hsame, hagree.keys, fun key => (hagree.apply (.get key)).1,
    fun _ => Agrees.differential _ Agrees.new⟩

end Distrans.Workload

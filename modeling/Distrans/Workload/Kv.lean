import Distrans.Lib.Memo
import Distrans.Rpc.Server

/-!
# The key-value service

`crates/workload/src/kv.rs`: get, put and delete, as method and payload of a request and as
operations on a store; and `crates/workload/src/server.rs`, the handler that serves them.
-/

set_option autoImplicit false

namespace Distrans.Workload

open Machine

def METHOD_GET : U8 := 0#8
def METHOD_PUT : U8 := 1#8
def METHOD_DELETE : U8 := 2#8

inductive Op where
  | get (key : List U8)
  | put (key value : List U8)
  | delete (key : List U8)
  deriving DecidableEq, Repr

namespace Op

def method : Op → U8
  | .get _ => METHOD_GET
  | .put _ _ => METHOD_PUT
  | .delete _ => METHOD_DELETE

/-- The length of a key to put is cut to 16 bits. -/
def encodePayload : Op → List U8
  | .get key | .delete key => key
  | .put key value => toLe 2 (BitVec.ofNat 16 key.length) ++ key ++ value

def decode (method : U8) (payload : List U8) : Option Op :=
  if method = METHOD_GET then some (.get payload)
  else if method = METHOD_DELETE then some (.delete payload)
  else if method = METHOD_PUT then
    if payload.length < 2 then none else
    let keyLen := ofLe (payload.take 2)
    if payload.length < 2 + keyLen then none else
    some (.put ((payload.drop 2).take keyLen) (payload.drop (2 + keyLen)))
  else none

/-- The key of a put fits its length field. -/
def KeyFits : Op → Prop
  | .put key _ => key.length < 65536
  | _ => True

/-- **What a put is decoded to**: the length of its key modulo `2 ^ 16` cuts the key from the
value. -/
theorem decode_put (key value : List U8) :
    decode METHOD_PUT (encodePayload (.put key value)) =
      some (.put (key.take (key.length % 65536)) (key.drop (key.length % 65536) ++ value)) := by
  have hmod : key.length % 65536 ≤ key.length := Nat.mod_le _ _
  have hlen : (encodePayload (.put key value)).length = 2 + key.length + value.length := by
    simp only [encodePayload, List.length_append, toLe_length]
  have hkey : ofLe ((encodePayload (.put key value)).take 2) = key.length % 65536 := by
    rw [encodePayload, List.append_assoc, List.take_left' (toLe_length 2 _), ofLe_toLe,
      BitVec.toNat_ofNat]
  have htail : (encodePayload (.put key value)).drop 2 = key ++ value := by
    rw [encodePayload, List.append_assoc, List.drop_left' (toLe_length 2 _)]
  unfold decode
  rw [if_neg (by decide), if_neg (by decide), if_pos rfl, if_neg (by omega)]
  dsimp only
  rw [hkey, if_neg (by omega), ← List.drop_drop, htail, List.take_append_of_le_length hmod,
    List.drop_append_of_le_length hmod]

theorem decode_encode {op : Op} (h : op.KeyFits) : decode op.method op.encodePayload = some op := by
  cases op with
  | get key => rfl
  | delete key => rfl
  | put key value =>
    refine (decode_put key value).trans ?_
    rw [Nat.mod_eq_of_lt h, List.take_length, List.drop_length, List.nil_append]

/-- What is decoded is what was encoded. -/
theorem encode_of_decode {m : U8} {p : List U8} {op : Op} (h : decode m p = some op) :
    op.method = m ∧ op.encodePayload = p ∧ op.KeyFits := by
  unfold decode at h
  split at h
  · rename_i hm
    cases h
    exact ⟨hm.symm, rfl, trivial⟩
  · split at h
    · rename_i hm
      cases h
      exact ⟨hm.symm, rfl, trivial⟩
    · split at h
      · rename_i hm
        split at h
        · cases h
        · rename_i h2
          dsimp only at h
          split at h
          · cases h
          · rename_i hkey
            cases h
            have hlt : ofLe (p.take 2) < 65536 := by
              have := ofLe_lt (p.take 2)
              rwa [List.length_take, Nat.min_eq_left (by omega)] at this
            have hlen : ((p.drop 2).take (ofLe (p.take 2))).length = ofLe (p.take 2) := by
              rw [List.length_take, List.length_drop]
              omega
            refine ⟨hm.symm, ?_, ?_⟩
            · have hfield : toLe 2 (BitVec.ofNat 16 (ofLe (p.take 2))) = p.take 2 := by
                apply ofLe_inj
                · rw [toLe_length, List.length_take, Nat.min_eq_left (by omega)]
                · rw [ofLe_toLe, BitVec.toNat_ofNat, Nat.mod_eq_of_lt hlt]
              rw [encodePayload, hlen, hfield, List.append_assoc, ← List.drop_drop,
                List.take_append_drop, List.take_append_drop]
            · show _ < 65536
              rw [hlen]
              exact hlt
      · cases h

/-- The call of an operation, by which it is known. -/
def call (op : Op) : U8 × List U8 := (op.method, op.encodePayload)

theorem call_inj {op op' : Op} (ho : op.KeyFits) (ho' : op'.KeyFits) (h : op.call = op'.call) :
    op = op' := by
  obtain ⟨hm, hp⟩ := Prod.mk.inj h
  have hdec := decode_encode ho
  rw [hm, hp, decode_encode ho'] at hdec
  exact (Option.some.inj hdec).symm

end Op

/-! ## The store -/

/-- The entries of the map. -/
abbrev Store := List U8 → Option (List U8)

namespace Store

def empty : Store := fun _ => none

def set (store : Store) (key : List U8) (value : Option (List U8)) : Store :=
  fun k => if k = key then value else store k

end Store

def apply (op : Op) (store : Store) : (Bool × List U8) × Store :=
  match op with
  | .get key =>
    match store key with
    | some v => ((true, v), store)
    | none => ((false, []), store)
  | .put key value => ((true, []), store.set key (some value))
  | .delete key => (((store key).isSome, []), store.set key none)

/-- The handler of `make_server`, over a store and whatever `on_execute` writes to. -/
def kvHandler {α : Type} (onExecute : Op → Bool → List U8 → α → α) : Handler (Store × α) :=
  fun method payload app =>
    match Op.decode method payload with
    | none => ((false, []), app)
    | some op =>
      let ((ok, response), store) := apply op app.1
      ((ok, response), (store, onExecute op ok response app.2))

def makeServer {σ α : Type} (conn : σ) (onExecute : Op → Bool → List U8 → α → α) :
    RpcServer σ (Store × α) := .new conn (kvHandler onExecute)

/-! ## Answers are no longer than what was put -/

/-- No value is longer than `n`. -/
def Store.Below (n : Nat) (store : Store) : Prop := ∀ k v, store k = some v → v.length ≤ n

/-- The value that is put, if any, is not longer than `n`. -/
def Op.Below (n : Nat) : Op → Prop
  | .put _ value => value.length ≤ n
  | _ => True

/-- An operation that fits its encoding, and its request the length prefix. -/
def Op.Fits (op : Op) : Prop := op.KeyFits ∧ 9 + op.encodePayload.length < 2 ^ 32

theorem Op.Fits.below {op : Op} (h : op.Fits) : op.Below (2 ^ 32 - 10) := by
  cases op with
  | put key value =>
    have hlen := h.2
    simp only [encodePayload, List.length_append, toLe_length] at hlen
    show value.length ≤ _
    omega
  | get | delete => exact trivial

theorem apply_below {n : Nat} {op : Op} {store : Store} (hs : store.Below n) (ho : op.Below n) :
    (apply op store).1.2.length ≤ n ∧ (apply op store).2.Below n := by
  cases op with
  | get key =>
    cases hk : store key with
    | none =>
      simp only [apply, hk]
      exact ⟨Nat.zero_le _, hs⟩
    | some v =>
      simp only [apply, hk]
      exact ⟨hs key v hk, hs⟩
  | put key value =>
    refine ⟨Nat.zero_le _, ?_⟩
    intro k v hv
    simp only [apply, Store.set] at hv
    split at hv
    · cases hv
      exact ho
    · exact hs k v hv
  | delete key =>
    refine ⟨Nat.zero_le _, ?_⟩
    intro k v hv
    simp only [apply, Store.set] at hv
    split at hv
    · cases hv
    · exact hs k v hv

theorem thread_apply_below {n : Nat} : ∀ {ops : List Op} {store : Store}, store.Below n →
    (∀ op ∈ ops, op.Below n) → ∀ r ∈ (thread apply ops store).1, r.2.length ≤ n
  | [], _, _, _, r, hr => by cases hr
  | op :: ops, store, hs, ho, r, hr => by
    obtain ⟨hres, hs'⟩ := apply_below hs (ho op List.mem_cons_self)
    rcases List.mem_cons.mp hr with rfl | hr
    · exact hres
    · exact thread_apply_below hs' (fun op' h => ho op' (List.mem_cons_of_mem _ h)) r hr

end Distrans.Workload

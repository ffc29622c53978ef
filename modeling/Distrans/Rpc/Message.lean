import Distrans.Rpc.Framing

/-!
# Requests and responses

`crates/rpc/src/message.rs`: an id, one byte (the method, or whether the handler succeeded) and
the payload.  Anything shorter than nine bytes is no message.
-/

set_option autoImplicit false

namespace Distrans

open Machine

structure Request where
  id : U64
  method : U8
  payload : List U8
  deriving DecidableEq, Repr

structure Response where
  id : U64
  ok : Bool
  payload : List U8
  deriving DecidableEq, Repr

/-- The fields of an encoded message, as both decoders read them. -/
theorem message_fields (id : U64) (b : U8) (payload : List U8) :
    (toLe 8 id ++ [b] ++ payload).length = 9 + payload.length ∧
    BitVec.ofNat 64 (ofLe ((toLe 8 id ++ [b] ++ payload).take 8)) = id ∧
    (toLe 8 id ++ [b] ++ payload)[8]? = some b ∧
    (toLe 8 id ++ [b] ++ payload).drop 9 = payload := by
  refine ⟨?_, ?_, ?_, ?_⟩
  · simp; omega
  · rw [List.append_assoc, List.take_left' (toLe_length 8 _), ofLe_toLe, BitVec.ofNat_toNat,
      BitVec.setWidth_eq]
  · rw [List.append_assoc, List.getElem?_append_right (by rw [toLe_length]), toLe_length]
    rfl
  · rw [List.drop_left' (by simp)]

namespace Request

def encode (r : Request) : List U8 := toLe 8 r.id ++ [r.method] ++ r.payload

def decode (bytes : List U8) : Option Request :=
  if h : bytes.length < 9 then none else
  some {
    id := BitVec.ofNat 64 (ofLe (bytes.take 8))
    method := bytes[8]
    payload := bytes.drop 9 }

theorem encode_length (r : Request) : r.encode.length = 9 + r.payload.length :=
  (message_fields _ _ _).1

theorem decode_encode (r : Request) : decode r.encode = some r := by
  obtain ⟨hlen, hid, hmethod, hpayload⟩ := message_fields r.id r.method r.payload
  obtain ⟨_, hget⟩ := List.getElem?_eq_some_iff.mp hmethod
  unfold decode encode
  rw [dif_neg (by omega)]
  simp only [hid, hpayload, hget]

end Request

namespace Response

def encode (r : Response) : List U8 := toLe 8 r.id ++ [if r.ok then 1 else 0] ++ r.payload

def decode (bytes : List U8) : Option Response :=
  if h : bytes.length < 9 then none else
  some {
    id := BitVec.ofNat 64 (ofLe (bytes.take 8))
    ok := bytes[8] ≠ 0
    payload := bytes.drop 9 }

theorem encode_length (r : Response) : r.encode.length = 9 + r.payload.length :=
  (message_fields _ _ _).1

theorem decode_encode (r : Response) : decode r.encode = some r := by
  obtain ⟨hlen, hid, hok, hpayload⟩ := message_fields r.id (if r.ok then 1 else 0) r.payload
  obtain ⟨_, hget⟩ := List.getElem?_eq_some_iff.mp hok
  unfold decode encode
  rw [dif_neg (by omega)]
  simp only [hid, hpayload, hget]
  cases r with
  | mk id ok payload => cases ok <;> rfl

end Response

end Distrans

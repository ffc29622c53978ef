import Mathlib.Data.BitVec
import Mathlib.Tactic.Common

/-!
# Machine integers, faults and byte strings

A small library for embedding code over fixed-width integers.

* `Build` — the overflow policy of the compiled program: `checked` (an overflowing
  operation aborts) or `wrapping` (it wraps modulo `2 ^ w`).
* `Fault`, `Exec` — why a call does not return, and computations that may not return.
* `Build.add`, `Build.sub`, `Build.mul`, `Build.sum` — the primitive arithmetic;
  `satAdd`, `satSub` — its saturating forms.
* `index`, `slice` — bounds-checked access to a byte string.
* `leBytes`, `ofLe` — little-endian encodings.

Everything is generic in the width, and every operation has one lemma that says what it
returns when the exact result fits.
-/

set_option autoImplicit false

namespace Machine

abbrev U8 := BitVec 8
abbrev U16 := BitVec 16
abbrev U32 := BitVec 32
abbrev U64 := BitVec 64

instance bitVecLinearOrder {w : Nat} : LinearOrder (BitVec w) where
  le_refl x := Nat.le_refl x.toNat
  le_trans x y z h₁ h₂ := Nat.le_trans (m := y.toNat) h₁ h₂
  lt_iff_le_not_ge x y := Nat.lt_iff_le_and_not_ge (m := x.toNat) (n := y.toNat)
  le_antisymm x y h₁ h₂ := BitVec.eq_of_toNat_eq (Nat.le_antisymm h₁ h₂)
  le_total x y := Nat.le_total x.toNat y.toNat
  toDecidableLE := inferInstance
  toDecidableLT := inferInstance
  toDecidableEq := inferInstance

/-- Overflow policy of the compiled program. -/
inductive Build where
  | checked
  | wrapping
  deriving DecidableEq, Repr

/-- Why a call does not return. -/
inductive Fault where
  /-- An integer operation left its range in a build with overflow checks. -/
  | overflow
  /-- An index or a slice bound outside the sequence. -/
  | outOfBounds
  /-- A range query whose start lies after its end. -/
  | rangeOrder
  /-- `clamp` with a lower bound above the upper one. -/
  | clampOrder
  /-- `unwrap` of an empty option. -/
  | unwrapNone
  /-- A branch marked unreachable. -/
  | unreachable
  /-- An assertion that does not hold. -/
  | assertion
  /-- A loop that makes no progress. -/
  | hang
  deriving DecidableEq, Repr

/-- A computation that returns a value or does not return. -/
abbrev Exec := Except Fault

theorem bind_eq_ok {α β : Type} {x : Exec α} {f : α → Exec β} {r : β} :
    (x >>= f) = .ok r ↔ ∃ a, x = .ok a ∧ f a = .ok r := by
  cases x with
  | error e => simp [bind, Except.bind]
  | ok a => simp [bind, Except.bind]

/-- A sequence of computations returns if each of them does. -/
theorem bind_returns {α β : Type} {x : Exec α} {f : α → Exec β} (hx : ∃ a, x = .ok a)
    (hf : ∀ a, x = .ok a → ∃ r, f a = .ok r) : ∃ r, (x >>= f) = .ok r := by
  obtain ⟨a, ha⟩ := hx
  obtain ⟨r, hr⟩ := hf a ha
  exact ⟨r, bind_eq_ok.mpr ⟨a, ha, hr⟩⟩

@[simp] theorem ok_bind {α β : Type} (a : α) (f : α → Exec β) :
    ((.ok a : Exec α) >>= f) = f a := rfl

@[simp] theorem error_bind {α β : Type} (e : Fault) (f : α → Exec β) :
    ((.error e : Exec α) >>= f) = .error e := rfl

@[simp] theorem pure_eq_ok {α : Type} (a : α) : (pure a : Exec α) = .ok a := rfl

/-- The fault of a computation that does not return. -/
def fault? {α : Type} : Exec α → Option Fault
  | .ok _ => none
  | .error e => some e

theorem eq_error_of_fault? {α : Type} {x : Exec α} {e : Fault} (h : fault? x = some e) :
    x = .error e := by
  cases x with
  | ok a => cases h
  | error e' => cases h; rfl

/-- Does the computation return a value that passes the test? -/
def returnsIn {α : Type} (x : Exec α) (test : α → Bool) : Bool :=
  match x with
  | .ok a => test a
  | .error _ => false

theorem of_returnsIn {α : Type} {x : Exec α} {test : α → Bool} (h : returnsIn x test = true) :
    ∃ a, x = .ok a ∧ test a = true := by
  cases x with
  | ok a => exact ⟨a, rfl, h⟩
  | error e => cases h

theorem ok_of_fault? {α : Type} {x : Exec α} (h : (fault? x).isNone) : ∃ a, x = .ok a := by
  cases x with
  | ok a => exact ⟨a, rfl⟩
  | error e => cases h

/-! ## Arithmetic -/

namespace Build

variable {w : Nat}

/-- Store the exact result `n` in `w` bits. -/
def fit (b : Build) (w n : Nat) : Exec (BitVec w) :=
  if n < 2 ^ w then .ok (BitVec.ofNat w n) else
  match b with
  | .checked => .error .overflow
  | .wrapping => .ok (BitVec.ofNat w n)

def add (b : Build) (x y : BitVec w) : Exec (BitVec w) := b.fit w (x.toNat + y.toNat)

def mul (b : Build) (x y : BitVec w) : Exec (BitVec w) := b.fit w (x.toNat * y.toNat)

def sub (b : Build) (x y : BitVec w) : Exec (BitVec w) :=
  if y ≤ x then .ok (x - y) else
  match b with
  | .checked => .error .overflow
  | .wrapping => .ok (x - y)

/-- Left-to-right sum of a sequence. -/
def sum (b : Build) (xs : List (BitVec w)) : Exec (BitVec w) := xs.foldlM b.add 0

theorem fit_of_lt (b : Build) {n : Nat} (h : n < 2 ^ w) : b.fit w n = .ok (BitVec.ofNat w n) := by
  simp [fit, h]

theorem fit_toNat {b : Build} {n : Nat} {r : BitVec w} (h : b.fit w n = .ok r) :
    r.toNat = n % 2 ^ w := by
  unfold fit at h
  split at h
  · cases h; simp
  · cases b
    · cases h
    · cases h; simp

theorem add_toNat {b : Build} {x y r : BitVec w} (h : b.add x y = .ok r)
    (hlt : x.toNat + y.toNat < 2 ^ w) : r.toNat = x.toNat + y.toNat := by
  rw [fit_toNat h, Nat.mod_eq_of_lt hlt]

theorem add_ofNat_toNat {b : Build} {x r : BitVec w} {n : Nat}
    (h : b.add x (BitVec.ofNat w n) = .ok r) (hlt : x.toNat + n < 2 ^ w) :
    r.toNat = x.toNat + n := by
  have hn : (BitVec.ofNat w n).toNat = n := by
    rw [BitVec.toNat_ofNat, Nat.mod_eq_of_lt (by omega)]
  rw [add_toNat h (by rw [hn]; exact hlt), hn]

theorem add_ok (b : Build) {x y : BitVec w} (h : x.toNat + y.toNat < 2 ^ w) :
    ∃ r, b.add x y = .ok r ∧ r.toNat = x.toNat + y.toNat :=
  ⟨_, fit_of_lt b h, by simp [Nat.mod_eq_of_lt h]⟩

theorem toNat_sub_of_le {x y : BitVec w} (h : y ≤ x) : (x - y).toNat = x.toNat - y.toNat :=
  BitVec.toNat_sub_of_le h

theorem sub_ok (b : Build) {x y : BitVec w} (h : y.toNat ≤ x.toNat) :
    ∃ r, b.sub x y = .ok r ∧ r.toNat = x.toNat - y.toNat := by
  have h' : y ≤ x := h
  exact ⟨x - y, by simp [sub, h'], toNat_sub_of_le h'⟩

theorem sub_toNat {b : Build} {x y r : BitVec w} (h : b.sub x y = .ok r)
    (hle : y.toNat ≤ x.toNat) : r.toNat = x.toNat - y.toNat := by
  obtain ⟨r', h', hr⟩ := sub_ok b hle
  rw [h] at h'
  cases h'
  exact hr

theorem foldlM_add_ok (b : Build) : ∀ (xs : List (BitVec w)) (a : BitVec w),
    a.toNat + (xs.map BitVec.toNat).sum < 2 ^ w →
    ∃ r, xs.foldlM b.add a = .ok r ∧ r.toNat = a.toNat + (xs.map BitVec.toNat).sum
  | [], a, _ => ⟨a, rfl, by simp⟩
  | x :: xs, a, h => by
    simp only [List.map_cons, List.sum_cons] at h
    obtain ⟨c, hc, hcn⟩ := add_ok b (x := a) (y := x) (by omega)
    obtain ⟨r, hr, hrn⟩ := foldlM_add_ok b xs c (by omega)
    refine ⟨r, ?_, ?_⟩
    · rw [List.foldlM_cons, hc]; exact hr
    · simp only [List.map_cons, List.sum_cons]; omega

theorem sum_ok (b : Build) {xs : List (BitVec w)} (h : (xs.map BitVec.toNat).sum < 2 ^ w) :
    ∃ r, b.sum xs = .ok r ∧ r.toNat = (xs.map BitVec.toNat).sum := by
  obtain ⟨r, hr, hn⟩ := foldlM_add_ok b xs 0 (by simpa using h)
  exact ⟨r, hr, by simpa using hn⟩

/-- A checked operation that returned did not overflow. -/
theorem checked_mul {x y r : BitVec w} (h : Build.checked.mul x y = .ok r) :
    x.toNat * y.toNat < 2 ^ w ∧ r.toNat = x.toNat * y.toNat := by
  unfold mul fit at h
  split at h
  · rename_i hlt
    cases h
    exact ⟨hlt, by rw [BitVec.toNat_ofNat, Nat.mod_eq_of_lt hlt]⟩
  · cases h

theorem checked_add {x y r : BitVec w} (h : Build.checked.add x y = .ok r) :
    x.toNat + y.toNat < 2 ^ w ∧ r.toNat = x.toNat + y.toNat := by
  unfold add fit at h
  split at h
  · rename_i hlt
    cases h
    exact ⟨hlt, by rw [BitVec.toNat_ofNat, Nat.mod_eq_of_lt hlt]⟩
  · cases h

/-- What is exact is the same in every build. -/
theorem fit_of_checked {n : Nat} {r : BitVec w} (h : Build.checked.fit w n = .ok r) (b : Build) :
    b.fit w n = .ok r := by
  unfold fit at h ⊢
  split at h
  · rename_i hlt
    rw [if_pos hlt]
    exact h
  · cases h

theorem checked_foldlM_add : ∀ {xs : List (BitVec w)} {a r : BitVec w},
    xs.foldlM Build.checked.add a = .ok r → r.toNat = a.toNat + (xs.map BitVec.toNat).sum
  | [], a, r, h => by cases h; simp
  | x :: xs, a, r, h => by
    rw [List.foldlM_cons] at h
    obtain ⟨c, hc, h⟩ := bind_eq_ok.mp h
    have hsum := checked_foldlM_add h
    obtain ⟨_, hc⟩ := checked_add hc
    rw [hsum, hc, List.map_cons, List.sum_cons]
    omega

theorem checked_sum {xs : List (BitVec w)} {r : BitVec w} (h : Build.checked.sum xs = .ok r) :
    r.toNat = (xs.map BitVec.toNat).sum := by
  rw [checked_foldlM_add h]
  simp

theorem checked_sub {x y r : BitVec w} (h : Build.checked.sub x y = .ok r) :
    y.toNat ≤ x.toNat ∧ r.toNat = x.toNat - y.toNat := by
  unfold sub at h
  split at h
  · rename_i hle
    cases h
    exact ⟨hle, toNat_sub_of_le hle⟩
  · cases h

theorem sub_of_checked {x y r : BitVec w} (h : Build.checked.sub x y = .ok r) (b : Build) :
    b.sub x y = .ok r := by
  unfold sub at h ⊢
  split at h
  · rename_i hle
    rw [if_pos hle]
    exact h
  · cases h

/-- Without overflow checks the arithmetic always returns. -/
theorem wrapping_fit (w n : Nat) : ∃ r, Build.wrapping.fit w n = .ok r := by
  unfold fit
  split <;> exact ⟨_, rfl⟩

theorem wrapping_sum (xs : List (BitVec w)) : ∃ r, Build.wrapping.sum xs = .ok r := by
  unfold sum
  generalize (0 : BitVec w) = a
  induction xs generalizing a with
  | nil => exact ⟨a, rfl⟩
  | cons x xs ih =>
    obtain ⟨c, hc⟩ := wrapping_fit w (a.toNat + x.toNat)
    obtain ⟨r, hr⟩ := ih c
    refine ⟨r, ?_⟩
    rw [List.foldlM_cons, show Build.wrapping.add a x = .ok c from hc]
    exact hr

/-- With them it returns when the result fits. -/
theorem fit_returns {b : Build} {n : Nat} (h : b = .checked → n < 2 ^ w) : ∃ r, b.fit w n = .ok r := by
  cases b with
  | checked => exact ⟨_, fit_of_lt _ (h rfl)⟩
  | wrapping => exact wrapping_fit w n

/-- A counter that is not full can be raised. -/
theorem add_one_returns {b : Build} {x : BitVec w} (h : b = .checked → x ≠ BitVec.allOnes w) :
    ∃ r, b.add x 1#w = .ok r := by
  refine fit_returns fun hb => ?_
  have hlt := x.isLt
  have hne : x.toNat ≠ 2 ^ w - 1 := fun heq =>
    h hb (BitVec.eq_of_toNat_eq (by rw [heq, BitVec.toNat_allOnes]))
  have hone : (1#w).toNat ≤ 1 := by
    rw [BitVec.toNat_ofNat]
    exact Nat.mod_le _ _
  omega

theorem add_eq {b : Build} {x y r : BitVec w} (h : b.add x y = .ok r) : r = x + y := by
  apply BitVec.eq_of_toNat_eq
  rw [fit_toNat h, BitVec.toNat_add]

theorem wrapping_add (x y : BitVec w) : Build.wrapping.add x y = .ok (x + y) := by
  obtain ⟨r, hr⟩ := wrapping_fit w (x.toNat + y.toNat)
  rw [← add_eq hr]
  exact hr

/-- The sum is exact in a checked build, and in any build if it fits. -/
theorem add_exact {b : Build} {x y r : BitVec w} (h : b.add x y = .ok r)
    (hfits : b = .checked ∨ x.toNat + y.toNat < 2 ^ w) : r.toNat = x.toNat + y.toNat := by
  rcases hfits with rfl | hfits
  · exact (checked_add h).2
  · rw [fit_toNat h, Nat.mod_eq_of_lt hfits]

theorem sub_eq {b : Build} {x y r : BitVec w} (h : b.sub x y = .ok r) : r = x - y := by
  unfold sub at h
  split at h
  · cases h
    rfl
  · cases b <;> cases h
    rfl

theorem wrapping_sub (x y : BitVec w) : ∃ r, Build.wrapping.sub x y = .ok r := by
  unfold sub
  split <;> exact ⟨_, rfl⟩

theorem sub_returns {b : Build} {x y : BitVec w} (h : b = .checked → y.toNat ≤ x.toNat) :
    ∃ r, b.sub x y = .ok r := by
  cases b with
  | checked =>
    obtain ⟨r, hr, _⟩ := sub_ok .checked (h rfl)
    exact ⟨r, hr⟩
  | wrapping => exact wrapping_sub x y

end Build

variable {w : Nat}

def satAdd (x y : BitVec w) : BitVec w :=
  if x.toNat + y.toNat < 2 ^ w then x + y else BitVec.allOnes w

def satSub (x y : BitVec w) : BitVec w := if y ≤ x then x - y else 0

theorem satSub_toNat (x y : BitVec w) : (satSub x y).toNat = x.toNat - y.toNat := by
  unfold satSub
  split
  · rename_i h; exact Build.toNat_sub_of_le h
  · rename_i h
    have : ¬ y.toNat ≤ x.toNat := h
    simp; omega

theorem satAdd_toNat (x y : BitVec w) :
    (satAdd x y).toNat = min (x.toNat + y.toNat) (2 ^ w - 1) := by
  unfold satAdd
  split
  · rename_i h; rw [BitVec.toNat_add, Nat.mod_eq_of_lt h]; omega
  · rename_i h; rw [BitVec.toNat_allOnes]; omega

theorem min_toNat (x y : BitVec w) : (min x y).toNat = min x.toNat y.toNat := by
  rcases le_total x y with h | h
  · have : x.toNat ≤ y.toNat := h
    rw [min_eq_left h, Nat.min_eq_left this]
  · have : y.toNat ≤ x.toNat := h
    rw [min_eq_right h, Nat.min_eq_right this]

theorem max_toNat (x y : BitVec w) : (max x y).toNat = max x.toNat y.toNat := by
  rcases le_total x y with h | h
  · have : x.toNat ≤ y.toNat := h
    rw [max_eq_right h, Nat.max_eq_right this]
  · have : y.toNat ≤ x.toNat := h
    rw [max_eq_left h, Nat.max_eq_left this]

/-! ## Bounds-checked access -/

/-- `d[i]`. -/
def index {α : Type} (d : List α) (i : Nat) : Exec α :=
  match d[i]? with
  | some x => .ok x
  | none => .error .outOfBounds

/-- `d[i..j]`. -/
def slice {α : Type} (d : List α) (i j : Nat) : Exec (List α) :=
  if i ≤ j ∧ j ≤ d.length then .ok ((d.take j).drop i) else .error .outOfBounds

theorem index_ok {α : Type} {d : List α} {i : Nat} (h : i < d.length) : index d i = .ok d[i] := by
  simp [index, h]

theorem slice_ok {α : Type} {d : List α} {i j : Nat} (h : i ≤ j) (hj : j ≤ d.length) :
    slice d i j = .ok ((d.take j).drop i) := by
  simp [slice, h, hj]

theorem slice_length {α : Type} {d s : List α} {i j : Nat} (h : slice d i j = .ok s) :
    s.length = j - i ∧ j ≤ d.length := by
  unfold slice at h
  split at h
  · rename_i hij
    cases h
    exact ⟨by rw [List.length_drop, List.length_take]; omega, hij.2⟩
  · cases h

theorem slice_le {α : Type} {d s : List α} {i j : Nat} (h : slice d i j = .ok s) : i ≤ j := by
  unfold slice at h
  split at h
  · rename_i hij
    exact hij.1
  · cases h

/-- A slice extends the bytes before it. -/
theorem take_of_slice {α : Type} {d s : List α} {i j : Nat} (h : slice d i j = .ok s) :
    d.take j = d.take i ++ s := by
  unfold slice at h
  split at h
  · rename_i hij
    cases h
    have hi : d.take i = (d.take j).take i := by rw [List.take_take, Nat.min_eq_left hij.1]
    rw [hi, List.take_append_drop]
  · cases h

theorem take_of_index {α : Type} {d : List α} {i : Nat} {x : α} (h : index d i = .ok x) :
    d.take (i + 1) = d.take i ++ [x] := by
  unfold index at h
  split at h
  · rename_i y hy
    cases h
    rw [List.take_add_one, hy]
    rfl
  · cases h

theorem slice_append_left {α : Type} {p t : List α} {i j : Nat} (hj : j ≤ p.length) :
    slice (p ++ t) i j = slice p i j := by
  unfold slice
  rw [List.take_append_of_le_length hj]
  simp only [List.length_append, hj, show j ≤ p.length + t.length by omega]

/-- The slice at the seam of a concatenation. -/
theorem slice_append {α : Type} (p s t : List α) {i j : Nat} (hi : i = p.length)
    (hj : j = p.length + s.length) : slice (p ++ (s ++ t)) i j = .ok s := by
  subst hi hj
  rw [slice_ok (by omega) (by simp)]
  simp [List.take_append]

theorem index_append_left {α : Type} {p t : List α} {i : Nat} (hi : i < p.length) :
    index (p ++ t) i = index p i := by
  unfold index
  rw [List.getElem?_append_left hi]

theorem index_append {α : Type} (p t : List α) (x : α) {i : Nat} (hi : i = p.length) :
    index (p ++ (x :: t)) i = .ok x := by
  subst hi
  simp [index]

/-! ## Little-endian integers -/

/-- The `k` low bytes of `n`, least significant first. -/
def leBytes : Nat → Nat → List U8
  | 0, _ => []
  | k + 1, n => BitVec.ofNat 8 n :: leBytes k (n / 256)

/-- The number whose bytes, least significant first, are `bs`. -/
def ofLe : List U8 → Nat
  | [] => 0
  | b :: bs => b.toNat + 256 * ofLe bs

@[simp] theorem leBytes_length : ∀ k n : Nat, (leBytes k n).length = k
  | 0, _ => rfl
  | k + 1, n => by simp [leBytes, leBytes_length k]

theorem ofLe_leBytes : ∀ k n : Nat, n < 256 ^ k → ofLe (leBytes k n) = n
  | 0, n, h => by simp only [Nat.pow_zero] at h; simp [leBytes, ofLe]; omega
  | k + 1, n, h => by
    have hd : n / 256 < 256 ^ k := by
      rw [Nat.div_lt_iff_lt_mul (by decide)]; rw [Nat.pow_succ] at h; exact h
    simp only [leBytes, ofLe, ofLe_leBytes k _ hd, BitVec.toNat_ofNat]
    omega

theorem ofLe_lt : ∀ bs : List U8, ofLe bs < 256 ^ bs.length
  | [] => by simp [ofLe]
  | b :: bs => by
    have h := ofLe_lt bs
    have hb : b.toNat < 256 := b.isLt
    simp only [ofLe, List.length_cons, Nat.pow_succ]
    omega

theorem leBytes_ofLe : ∀ bs : List U8, leBytes bs.length (ofLe bs) = bs
  | [] => rfl
  | b :: bs => by
    have hb : b.toNat < 256 := b.isLt
    have hdiv : (b.toNat + 256 * ofLe bs) / 256 = ofLe bs := by omega
    have hmod : BitVec.ofNat 8 (b.toNat + 256 * ofLe bs) = b := by
      apply BitVec.eq_of_toNat_eq
      simp only [BitVec.toNat_ofNat]
      omega
    simp only [List.length_cons, leBytes, ofLe, hdiv, hmod, leBytes_ofLe bs]

theorem ofLe_inj {as bs : List U8} (hlen : as.length = bs.length) (h : ofLe as = ofLe bs) :
    as = bs := by
  rw [← leBytes_ofLe as, ← leBytes_ofLe bs, hlen, h]

/-- `uN::from_le_bytes(d[i..j].try_into().unwrap())`. -/
def readLe (w : Nat) (d : List U8) (i j : Nat) : Exec (BitVec w) := do
  let s ← slice d i j
  if 8 * s.length = w then .ok (BitVec.ofNat w (ofLe s)) else .error .unwrapNone

/-- `x.to_le_bytes()` for a word of `k` bytes. -/
def toLe (k : Nat) (x : BitVec (8 * k)) : List U8 := leBytes k x.toNat

@[simp] theorem toLe_length (k : Nat) (x : BitVec (8 * k)) : (toLe k x).length = k :=
  leBytes_length k _

/-- A word is the number that its bytes encode. -/
theorem ofLe_toLe (k : Nat) (x : BitVec (8 * k)) : ofLe (toLe k x) = x.toNat := by
  have hpow : x.toNat < 256 ^ k := by
    have := x.isLt
    rwa [Nat.pow_mul] at this
  exact ofLe_leBytes k _ hpow

theorem toLe_inj {k : Nat} {x y : BitVec (8 * k)} (h : toLe k x = toLe k y) : x = y := by
  have := congrArg ofLe h
  rw [ofLe_toLe, ofLe_toLe] at this
  exact BitVec.eq_of_toNat_eq this

theorem readLe_ok {d : List U8} {i j k : Nat} (hij : j = i + k) (hj : j ≤ d.length) :
    readLe (8 * k) d i j = .ok (BitVec.ofNat (8 * k) (ofLe ((d.take j).drop i))) := by
  subst hij
  have hlen : ((d.take (i + k)).drop i).length = k := by simp; omega
  simp only [readLe, slice_ok (show i ≤ i + k by omega) hj, ok_bind, hlen, if_true]

/-- The bytes that were read are the encoding of the word. -/
theorem slice_of_readLe {d : List U8} {i j k : Nat} {x : BitVec (8 * k)}
    (h : readLe (8 * k) d i j = .ok x) : slice d i j = .ok (toLe k x) := by
  obtain ⟨s, hs, h⟩ := bind_eq_ok.mp h
  split at h
  · rename_i hlen
    cases h
    have hk : s.length = k := by omega
    have hlt : ofLe s < 2 ^ (8 * k) := by
      have := ofLe_lt s
      rwa [hk, show (256 : Nat) = 2 ^ 8 by rfl, ← Nat.pow_mul] at this
    rw [hs, toLe, BitVec.toNat_ofNat, Nat.mod_eq_of_lt hlt, ← hk, leBytes_ofLe]
  · cases h

theorem readLe_append_left {p t : List U8} {w i j : Nat} (hj : j ≤ p.length) :
    readLe w (p ++ t) i j = readLe w p i j := by
  unfold readLe
  rw [slice_append_left hj]

/-- Reading back an encoded word. -/
theorem readLe_append (p t : List U8) (k : Nat) (x : BitVec (8 * k)) {i j : Nat}
    (hi : i = p.length) (hj : j = i + k) :
    readLe (8 * k) (p ++ (toLe k x ++ t)) i j = .ok x := by
  subst hi
  have hs : slice (p ++ (toLe k x ++ t)) p.length j = .ok (toLe k x) :=
    slice_append p (toLe k x) t rfl (by rw [hj, toLe_length])
  simp only [readLe, hs, ok_bind, toLe_length, if_true]
  rw [ofLe_toLe, BitVec.ofNat_toNat, BitVec.setWidth_eq]

end Machine

import Mathlib.Data.BitVec
import Mathlib.Dynamics.PeriodicPts.Lemmas
import Mathlib.Tactic.Common

/-!
# Shift registers over bit vectors

A bit-reflected linear feedback shift register of any width, with the exclusive or of the
polynomial `p` as its feedback: `shift` is one round, `run` feeds it a message bit by bit, lowest
bit of each word first.

* `run_xor` — a run is linear: the run on a corrupted message is the run on the message and the
  run, from zero, on the error pattern.
* `run_bitsOf` — feeding a word bit by bit is adding it to the register at once.
* `run_ne_zero_of_odd` — with a polynomial of odd weight, a pattern of odd weight leaves a trace.
* `run_ne_zero_of_burst` — with a polynomial whose top bit is set, so does a non-zero pattern that
  is no longer than the register.
* `iterate_two_pow` — how far a power of two of rounds takes a word, by squaring;
  `minimalPeriod_one` — and so the period of the lowest bit.
* `run_pair_ne` — within that period, two ones leave a trace.
-/

set_option autoImplicit false

namespace Lfsr

variable {w : Nat} (p : BitVec w)

/-! ## The register -/

/-- One round: shift right, and add the polynomial if a one fell out. -/
def shift (c : BitVec w) : BitVec w := if c.getLsbD 0 then (c >>> 1) ^^^ p else c >>> 1

/-- A message bit in the lowest place. -/
def low (w : Nat) (m : Bool) : BitVec w := (BitVec.ofBool m).setWidth w

/-- One message bit. -/
def feed (c : BitVec w) (m : Bool) : BitVec w := shift p (c ^^^ low w m)

def run (c : BitVec w) (ms : List Bool) : BitVec w := ms.foldl (feed p) c

variable {p} {c c' : BitVec w}

theorem getLsbD_low {m : Bool} {i : Nat} : (low w m).getLsbD i = (decide (i < w ∧ i = 0) && m) := by
  cases i with
  | zero => simp [low]
  | succ i => simp [low]

theorem low_false : low w false = 0#w := by
  apply BitVec.eq_of_getLsbD_eq
  intro i _
  rw [getLsbD_low]
  simp

theorem low_xor (m m' : Bool) : low w (m ^^ m') = low w m ^^^ low w m' := by
  simp only [low, ← BitVec.setWidth_xor, BitVec.ofBool_xor_ofBool]

theorem shift_zero : shift p 0#w = 0#w := by
  simp [shift]

/-- **A round is linear.** -/
theorem shift_xor (a b : BitVec w) : shift p (a ^^^ b) = shift p a ^^^ shift p b := by
  unfold shift
  rw [BitVec.getLsbD_xor, BitVec.ushiftRight_xor_distrib]
  cases a.getLsbD 0 <;> cases b.getLsbD 0
  · rfl
  · exact BitVec.xor_assoc _ _ _
  · show (a >>> 1 ^^^ b >>> 1) ^^^ p = (a >>> 1 ^^^ p) ^^^ b >>> 1
    rw [BitVec.xor_assoc, BitVec.xor_comm (b >>> 1), ← BitVec.xor_assoc]
  · show a >>> 1 ^^^ b >>> 1 = (a >>> 1 ^^^ p) ^^^ (b >>> 1 ^^^ p)
    rw [BitVec.xor_comm (b >>> 1) p, ← BitVec.xor_assoc, BitVec.xor_assoc (a >>> 1), BitVec.xor_self,
      BitVec.xor_zero]

theorem feed_xor (m m' : Bool) : feed p (c ^^^ c') (m ^^ m') = feed p c m ^^^ feed p c' m' := by
  unfold feed
  rw [low_xor, ← shift_xor]
  congr 1
  rw [BitVec.xor_assoc, BitVec.xor_assoc, ← BitVec.xor_assoc c', BitVec.xor_comm c',
    BitVec.xor_assoc]

/-- **A run is linear.** -/
theorem run_xor : ∀ {ms ms' : List Bool} {c c' : BitVec w}, ms.length = ms'.length →
    run p (c ^^^ c') (List.zipWith xor ms ms') = run p c ms ^^^ run p c' ms'
  | [], [], _, _, _ => rfl
  | [], _ :: _, _, _, h => by cases h
  | _ :: _, [], _, _, h => by cases h
  | m :: ms, m' :: ms', c, c', h => by
    simp only [run, List.zipWith_cons_cons, List.foldl_cons, feed_xor]
    exact run_xor (Nat.succ.inj h)

theorem run_append (ms ms' : List Bool) : run p c (ms ++ ms') = run p (run p c ms) ms' :=
  List.foldl_append

/-- Zeros only shift. -/
theorem run_zeros : ∀ {ms : List Bool} {c : BitVec w}, true ∉ ms →
    run p c ms = (shift p)^[ms.length] c
  | [], _, _ => rfl
  | m :: ms, c, h => by
    have hm : m = false := by
      cases m with
      | false => rfl
      | true => exact absurd List.mem_cons_self h
    subst hm
    have hfeed : feed p c false = shift p c := by rw [feed, low_false, BitVec.xor_zero]
    rw [run, List.foldl_cons, hfeed, List.length_cons, Function.iterate_succ_apply]
    exact run_zeros fun hm => h (List.mem_cons_of_mem _ hm)

/-! ## Words at once -/

/-- The bits of a message, first bit lowest. -/
def pack (w : Nat) : List Bool → BitVec w
  | [] => 0#w
  | m :: ms => low w m ^^^ pack w ms <<< 1

theorem getLsbD_pack : ∀ {ms : List Bool} {i : Nat},
    (pack w ms).getLsbD i = (decide (i < w) && ms.getD i false)
  | [], i => by simp [pack]
  | m :: ms, i => by
    rw [pack, BitVec.getLsbD_xor, getLsbD_low, BitVec.getLsbD_shiftLeft, getLsbD_pack]
    cases i with
    | zero => simp
    | succ i =>
      by_cases h : i + 1 < w
      · have hi : i < w := by omega
        simp [h, hi]
      · simp [h]

/-- What a shift to the left brings up, a round takes down again. -/
theorem shift_shiftLeft (h : c.msb = false) : shift p (c <<< 1) = c := by
  have h0 : (c <<< 1).getLsbD 0 = false := by simp
  unfold shift
  rw [h0]
  apply BitVec.eq_of_getLsbD_eq
  intro i hi
  simp only [Bool.false_eq_true, if_false, BitVec.getLsbD_ushiftRight, BitVec.getLsbD_shiftLeft]
  by_cases hlast : 1 + i < w
  · simp [hlast]
  · have hi' : i = w - 1 := by omega
    rw [BitVec.msb_eq_getLsbD_last, ← hi'] at h
    simp [h]

/-- **At most `w` bits may be added to the register at once** before the rounds. -/
theorem run_eq_iterate : ∀ {ms : List Bool} {c : BitVec w}, ms.length ≤ w →
    run p c ms = (shift p)^[ms.length] (c ^^^ pack w ms)
  | [], c, _ => (BitVec.xor_zero (x := c)).symm
  | m :: ms, c, h => by
    have hmsb : (pack w ms).msb = false := by
      have hlen : ms.length ≤ w - 1 := by simp only [List.length_cons] at h; omega
      rw [BitVec.msb_eq_getLsbD_last, getLsbD_pack, List.getD_eq_getElem?_getD,
        List.getElem?_eq_none hlen, Option.getD_none, Bool.and_false]
    rw [run, List.foldl_cons]
    calc run p (feed p c m) ms
        = (shift p)^[ms.length] (feed p c m ^^^ pack w ms) :=
          run_eq_iterate (Nat.le_of_succ_le h)
      _ = (shift p)^[ms.length] (shift p ((c ^^^ low w m) ^^^ pack w ms <<< 1)) := by
          rw [shift_xor, shift_shiftLeft hmsb, feed]
      _ = (shift p)^[(m :: ms).length] (c ^^^ pack w (m :: ms)) := by
          rw [pack, ← BitVec.xor_assoc, List.length_cons, Function.iterate_succ_apply]

/-- The bits of a word, lowest first. -/
def bitsOf {k : Nat} (x : BitVec k) : List Bool := (List.range k).map x.getLsbD

/-- The bits of a sequence of words. -/
def bits {k : Nat} (xs : List (BitVec k)) : List Bool := xs.flatMap bitsOf

section Bits

variable {k : Nat} {x : BitVec k}

@[simp] theorem length_bitsOf : (bitsOf x).length = k := by
  simp [bitsOf]

@[simp] theorem bits_nil : bits ([] : List (BitVec k)) = [] := rfl

@[simp] theorem bits_cons (xs : List (BitVec k)) : bits (x :: xs) = bitsOf x ++ bits xs := rfl

@[simp] theorem bits_append (xs ys : List (BitVec k)) : bits (xs ++ ys) = bits xs ++ bits ys :=
  List.flatMap_append

@[simp] theorem length_bits : ∀ {xs : List (BitVec k)}, (bits xs).length = k * xs.length
  | [] => rfl
  | x :: xs => by
    rw [bits_cons, List.length_append, length_bitsOf, length_bits, List.length_cons, Nat.mul_succ,
      Nat.add_comm]

theorem getD_bitsOf {i : Nat} : (bitsOf x).getD i false = x.getLsbD i := by
  by_cases h : i < k
  · simp [bitsOf, h]
  · rw [List.getD_eq_getElem?_getD, List.getElem?_eq_none (by rw [length_bitsOf]; omega),
      Option.getD_none, BitVec.getLsbD_of_ge x i (by omega)]

theorem mem_bitsOf : true ∈ bitsOf x ↔ x ≠ 0#k := by
  constructor
  · intro h hx
    subst hx
    simp [bitsOf] at h
  · intro hne
    by_contra hno
    apply hne
    apply BitVec.eq_of_getLsbD_eq
    intro i hi
    rw [BitVec.getLsbD_zero, ← Bool.not_eq_true]
    intro hbit
    exact hno (List.mem_map.mpr ⟨i, List.mem_range.mpr hi, hbit⟩)

theorem mem_bits {xs : List (BitVec k)} : true ∈ bits xs ↔ ∃ x ∈ xs, x ≠ 0#k := by
  simp only [bits, List.mem_flatMap, mem_bitsOf]

theorem bitsOf_xor (x y : BitVec k) : bitsOf (x ^^^ y) = List.zipWith xor (bitsOf x) (bitsOf y) := by
  simp only [bitsOf, List.zipWith_map, List.zipWith_self]
  exact List.map_congr_left fun i _ => BitVec.getLsbD_xor

theorem bits_xor : ∀ {xs ys : List (BitVec k)}, xs.length = ys.length →
    bits (List.zipWith (· ^^^ ·) xs ys) = List.zipWith xor (bits xs) (bits ys)
  | [], [], _ => rfl
  | [], _ :: _, h => by cases h
  | _ :: _, [], h => by cases h
  | x :: xs, y :: ys, h => by
    rw [List.zipWith_cons_cons, bits_cons, bits_cons, bits_cons, bits_xor (Nat.succ.inj h),
      bitsOf_xor, List.zipWith_append (by simp)]

theorem pack_bitsOf : pack w (bitsOf x) = x.setWidth w := by
  apply BitVec.eq_of_getLsbD_eq
  intro i hi
  rw [getLsbD_pack, getD_bitsOf, BitVec.getLsbD_setWidth]

/-- **A word is fed by adding it to the register**, and `k` rounds. -/
theorem run_bitsOf (h : k ≤ w) : run p c (bitsOf x) = (shift p)^[k] (c ^^^ x.setWidth w) := by
  rw [run_eq_iterate (by rw [length_bitsOf]; exact h), length_bitsOf, pack_bitsOf]

end Bits

/-! ## Patterns of odd weight -/

/-- The exclusive or of the first `n` bits. -/
def parityOf : Nat → (Nat → Bool) → Bool
  | 0, _ => false
  | n + 1, g => parityOf n g ^^ g n

def parity (c : BitVec w) : Bool := parityOf w c.getLsbD

theorem parityOf_xor (g h : Nat → Bool) : ∀ n : Nat,
    parityOf n (fun i => g i ^^ h i) = (parityOf n g ^^ parityOf n h)
  | 0 => rfl
  | n + 1 => by
    simp only [parityOf, parityOf_xor g h n]
    cases parityOf n g <;> cases parityOf n h <;> cases g n <;> cases h n <;> rfl

theorem parityOf_succ (g : Nat → Bool) : ∀ n : Nat,
    parityOf n g = (parityOf n (fun i => g (i + 1)) ^^ (g 0 ^^ g n))
  | 0 => by simp [parityOf]
  | n + 1 => by
    simp only [parityOf]
    rw [parityOf_succ g n]
    cases parityOf n fun i => g (i + 1) <;> cases g 0 <;> cases g n <;> cases g (n + 1) <;> rfl

theorem parity_zero : parity 0#w = false := by
  have hnone : ∀ n, parityOf n (0#w).getLsbD = false := by
    intro n
    induction n with
    | zero => rfl
    | succ n ih => rw [parityOf, ih, BitVec.getLsbD_zero]; rfl
  exact hnone w

theorem parity_xor (a b : BitVec w) : parity (a ^^^ b) = (parity a ^^ parity b) := by
  have hxor : (a ^^^ b).getLsbD = fun i => a.getLsbD i ^^ b.getLsbD i := by
    funext i
    exact BitVec.getLsbD_xor
  rw [parity, hxor]
  exact parityOf_xor _ _ w

theorem parity_shiftRight : parity (c >>> 1) = (parity c ^^ c.getLsbD 0) := by
  have hshift : (c >>> 1).getLsbD = fun i => c.getLsbD (i + 1) := by
    funext i
    rw [BitVec.getLsbD_ushiftRight, Nat.add_comm]
  have htop : c.getLsbD w = false := BitVec.getLsbD_of_ge c w (Nat.le_refl w)
  rw [parity, parity, hshift, parityOf_succ c.getLsbD w, htop]
  cases parityOf w fun i => c.getLsbD (i + 1) <;> cases c.getLsbD 0 <;> rfl

/-- With a polynomial of odd weight a round keeps the parity. -/
theorem parity_shift (hp : parity p = true) : parity (shift p c) = parity c := by
  unfold shift
  split
  · rename_i h0
    rw [parity_xor, parity_shiftRight, h0, hp]
    cases parity c <;> rfl
  · rename_i h0
    have h0' : c.getLsbD 0 = false := by simpa using h0
    rw [parity_shiftRight, h0', Bool.xor_false]

theorem parity_low (hw : 0 < w) (m : Bool) : parity (low w m) = m := by
  have hdown : low w m >>> 1 = 0#w := by
    apply BitVec.eq_of_getLsbD_eq
    intro i _
    rw [BitVec.getLsbD_ushiftRight, getLsbD_low, BitVec.getLsbD_zero]
    simp
  have h := parity_shiftRight (c := low w m)
  rw [hdown, parity_zero, getLsbD_low] at h
  simp only [hw, and_self, decide_true, Bool.true_and] at h
  cases hpar : parity (low w m) <;> cases m <;> simp [hpar] at h ⊢

theorem parity_run (hw : 0 < w) (hp : parity p = true) : ∀ (ms : List Bool) (c : BitVec w),
    parity (run p c ms) = (parity c ^^ decide (ms.count true % 2 = 1))
  | [], c => by simp [run]
  | m :: ms, c => by
    have hfeed : parity (feed p c m) = (parity c ^^ m) := by
      rw [feed, parity_shift hp, parity_xor, parity_low hw]
    rw [run, List.foldl_cons]
    refine (parity_run hw hp ms _).trans ?_
    rw [hfeed, List.count_cons]
    cases m with
    | false => simp
    | true =>
      have hflip : decide ((ms.count true + 1) % 2 = 1) = !decide (ms.count true % 2 = 1) := by
        rw [← decide_not]
        exact decide_eq_decide.mpr (by omega)
      simp [hflip]

/-- **An odd number of ones leaves a trace.** -/
theorem run_ne_zero_of_odd (hw : 0 < w) (hp : parity p = true) {ms : List Bool}
    (h : ms.count true % 2 = 1) : run p 0#w ms ≠ 0#w := by
  intro hz
  have := parity_run hw hp ms 0#w
  rw [hz, parity_zero, h] at this
  simp at this

/-! ## Bursts -/

/-- All ones lie within `n` consecutive positions. -/
def Burst (n : Nat) (ms : List Bool) : Prop :=
  ∃ start, ∀ i, ms[i]? = some true → start ≤ i ∧ i < start + n

/-- With the top bit of the polynomial set, a round loses nothing. -/
theorem eq_zero_of_shift (hp : p.msb = true) (h : shift p c = 0#w) : c = 0#w := by
  unfold shift at h
  split at h
  · rw [BitVec.xor_eq_zero_iff] at h
    rw [← h] at hp
    simp at hp
  · rename_i h0
    apply BitVec.eq_of_getLsbD_eq
    intro i _
    cases i with
    | zero => simpa using h0
    | succ i =>
      have hi : (c >>> 1).getLsbD i = (0#w).getLsbD i := by rw [h]
      rw [BitVec.getLsbD_ushiftRight, Nat.add_comm] at hi
      simpa using hi

theorem eq_zero_of_iterate (hp : p.msb = true) : ∀ {n : Nat} {c : BitVec w},
    (shift p)^[n] c = 0#w → c = 0#w
  | 0, _, h => h
  | n + 1, c, h => by
    rw [Function.iterate_succ_apply] at h
    exact eq_zero_of_shift hp (eq_zero_of_iterate hp h)

theorem pack_ne_zero {ms : List Bool} (hlen : ms.length ≤ w) (h : true ∈ ms) : pack w ms ≠ 0#w := by
  intro hz
  obtain ⟨i, hi, hget⟩ := List.getElem_of_mem h
  have hbit : (pack w ms).getLsbD i = true := by
    rw [getLsbD_pack, List.getD_eq_getElem?_getD, List.getElem?_eq_getElem hi, Option.getD_some, hget]
    simp only [show i < w by omega, decide_true, Bool.and_self]
  rw [hz, BitVec.getLsbD_zero] at hbit
  cases hbit

/-- **A burst no longer than the register leaves a trace.** -/
theorem run_ne_zero_of_burst (hp : p.msb = true) {ms : List Bool} (hne : true ∈ ms)
    (hb : Burst w ms) : run p 0#w ms ≠ 0#w := by
  obtain ⟨start, hburst⟩ := hb
  -- zeros, the burst, zeros
  have hcut : ms = ms.take start ++ ((ms.drop start).take w ++ (ms.drop start).drop w) := by
    rw [List.take_append_drop, List.take_append_drop]
  have hbefore : true ∉ ms.take start := by
    intro h
    obtain ⟨i, hi, hget⟩ := List.getElem_of_mem h
    rw [List.length_take] at hi
    rw [List.getElem_take] at hget
    have := (hburst i (by rw [List.getElem?_eq_getElem (by omega), hget])).1
    omega
  have hafter : true ∉ (ms.drop start).drop w := by
    intro h
    obtain ⟨i, hi, hget⟩ := List.getElem_of_mem h
    rw [List.length_drop, List.length_drop] at hi
    rw [List.getElem_drop, List.getElem_drop] at hget
    have := (hburst (start + (w + i)) (by rw [List.getElem?_eq_getElem (by omega), hget])).2
    omega
  have hlen : ((ms.drop start).take w).length ≤ w := List.length_take_le _ _
  have hmid : true ∈ (ms.drop start).take w := by
    rw [hcut, List.mem_append, List.mem_append] at hne
    rcases hne with h | h | h
    · exact absurd h hbefore
    · exact h
    · exact absurd h hafter
  intro hz
  have hfirst : run p 0#w (ms.take start) = 0#w := by
    rw [run_zeros hbefore]
    exact Function.iterate_fixed shift_zero _
  rw [hcut, run_append, run_append, hfirst, run_zeros hafter, run_eq_iterate hlen,
    BitVec.zero_xor] at hz
  exact pack_ne_zero hlen hmid (eq_zero_of_iterate hp (eq_zero_of_iterate hp hz))

/-! ## Iterates by doubling -/

/-- A map is additive over the exclusive or. -/
def Additive (f : BitVec w → BitVec w) : Prop := ∀ a b, f (a ^^^ b) = f a ^^^ f b

/-- What a map makes of the lowest `n` unit words. -/
def columns : Nat → (BitVec w → BitVec w) → List (BitVec w)
  | 0, _ => []
  | n + 1, f => f 1#w :: columns n fun c => f (c <<< 1)

/-- The exclusive or of the columns that a word selects. -/
def combine : List (BitVec w) → BitVec w → BitVec w
  | [], _ => 0#w
  | x :: xs, c => (if c.getLsbD 0 then x else 0#w) ^^^ combine xs (c >>> 1)

/-- The columns of a map applied twice. -/
def square (cols : List (BitVec w)) : List (BitVec w) := cols.map (combine cols)

variable {f g : BitVec w → BitVec w}

theorem Additive.zero (hf : Additive f) : f 0#w = 0#w := by
  have h := hf 0#w 0#w
  rwa [BitVec.xor_self, BitVec.xor_self] at h

theorem Additive.comp (hf : Additive f) (hg : Additive g) : Additive (f ∘ g) := by
  intro a b
  rw [Function.comp_apply, hg, hf]
  rfl

theorem Additive.iterate (hf : Additive f) : ∀ n : Nat, Additive f^[n]
  | 0 => fun _ _ => rfl
  | n + 1 => (hf.iterate n).comp hf

theorem additive_shift : Additive (shift p) := shift_xor

theorem additive_shiftLeft : Additive fun c : BitVec w => c <<< 1 := by
  intro a b
  exact BitVec.shiftLeft_xor_distrib a b 1

/-- A word is its lowest bit and the rest. -/
theorem low_xor_rest (c : BitVec w) :
    (if c.getLsbD 0 then 1#w else 0#w) ^^^ (c >>> 1) <<< 1 = c := by
  apply BitVec.eq_of_getLsbD_eq
  intro i hi
  rw [BitVec.getLsbD_xor, BitVec.getLsbD_shiftLeft, BitVec.getLsbD_ushiftRight]
  cases i with
  | zero => cases h : c.getLsbD 0 <;> simp [hi]
  | succ i => cases h : c.getLsbD 0 <;> simp [hi, Nat.add_comm]

/-- **An additive map is what its columns make of a word.** -/
theorem combine_columns : ∀ (n : Nat) {f : BitVec w → BitVec w} {c : BitVec w}, Additive f →
    c.toNat < 2 ^ n → combine (columns n f) c = f c
  | 0, f, c, hf, hc => by
    have hzero : c = 0#w := BitVec.eq_of_toNat_eq (by simpa using hc)
    rw [hzero, hf.zero]
    rfl
  | n + 1, f, c, hf, hc => by
    have hrest : (c >>> 1).toNat < 2 ^ n := by
      rw [BitVec.toNat_ushiftRight, Nat.shiftRight_eq_div_pow]
      omega
    have hlow : (if c.getLsbD 0 then f 1#w else 0#w) = f (if c.getLsbD 0 then 1#w else 0#w) := by
      split
      · rfl
      · exact hf.zero.symm
    have hup : combine (columns n fun c => f (c <<< 1)) (c >>> 1) = f ((c >>> 1) <<< 1) :=
      combine_columns n (hf.comp additive_shiftLeft) hrest
    rw [columns, combine, hup, hlow, ← hf, low_xor_rest]

theorem map_columns : ∀ (n : Nat) (f : BitVec w → BitVec w),
    (columns n f).map g = columns n (g ∘ f)
  | 0, _ => rfl
  | n + 1, f => congrArg (g (f 1#w) :: ·) (map_columns n fun c => f (c <<< 1))

theorem square_columns (hf : Additive f) : square (columns w f) = columns w (f ∘ f) := by
  have hcombine : combine (columns w f) = f := funext fun c => combine_columns w hf c.isLt
  rw [square, hcombine, map_columns]

/-- **Squaring the columns doubles the iterate.** -/
theorem iterate_square (hf : Additive f) : ∀ n : Nat,
    square^[n] (columns w f) = columns w f^[2 ^ n]
  | 0 => rfl
  | n + 1 => by
    have hdouble : f^[2 ^ n] ∘ f^[2 ^ n] = f^[2 ^ (n + 1)] := by
      rw [← Function.iterate_add, Nat.pow_succ, Nat.mul_two]
    rw [Function.iterate_succ_apply', iterate_square hf n, square_columns (hf.iterate _), hdouble]

/-- An iterate to a power of two, computed. -/
theorem iterate_two_pow (hf : Additive f) (n : Nat) (c : BitVec w) :
    f^[2 ^ n] c = combine (square^[n] (columns w f)) c := by
  rw [iterate_square hf, combine_columns w (hf.iterate _) c.isLt]

/-! ## Pairs of ones -/

theorem shift_injective (hp : p.msb = true) : Function.Injective (shift p) := by
  intro a b h
  apply BitVec.xor_eq_zero_iff.mp
  apply eq_zero_of_shift hp
  rw [shift_xor, h, BitVec.xor_self]

/-- **The period of the lowest bit**, when a power of two of rounds does no more than one, and the
number of the others is prime. -/
theorem minimalPeriod_one (hp : p.msb = true) {n : Nat} (hq : (2 ^ n - 1).Prime)
    (hn : (shift p)^[2 ^ n] 1#w = shift p 1#w) (h1 : shift p 1#w ≠ 1#w) :
    Function.minimalPeriod (shift p) 1#w = 2 ^ n - 1 := by
  have hback : (shift p)^[2 ^ n - 1] 1#w = 1#w := by
    apply shift_injective hp
    rw [← Function.iterate_succ_apply' (shift p), Nat.succ_eq_add_one,
      Nat.sub_add_cancel Nat.one_le_two_pow, hn]
  have hdvd : Function.minimalPeriod (shift p) 1#w ∣ 2 ^ n - 1 :=
    Function.IsPeriodicPt.minimalPeriod_dvd hback
  rcases (Nat.dvd_prime hq).mp hdvd with hone | hall
  · exact absurd (Function.minimalPeriod_eq_one_iff_isFixedPt.mp hone) h1
  · exact hall

/-- One one among zeros: the lowest bit, shifted through what is left of the message. -/
theorem run_single {as bs : List Bool} (ha : true ∉ as) (hb : true ∉ bs) :
    run p 0#w (as ++ true :: bs) = (shift p)^[bs.length + 1] 1#w := by
  have hlow : low w true = 1#w := by
    apply BitVec.eq_of_getLsbD_eq
    intro i _
    rw [getLsbD_low, BitVec.getLsbD_one, Bool.and_true, ← Bool.decide_and, decide_eq_decide]
    omega
  have hfirst : run p 0#w as = 0#w := by
    rw [run_zeros ha]
    exact Function.iterate_fixed shift_zero _
  have hfeed : run p 0#w (true :: bs) = run p (shift p 1#w) bs := by
    rw [run, List.foldl_cons, feed, BitVec.zero_xor, hlow, run]
  rw [run_append, hfirst, hfeed, run_zeros hb, Function.iterate_succ_apply]

/-- **Two ones less than a period from the end leave different traces**, and so a trace together. -/
theorem run_pair_ne {as bs as' bs' : List Bool} (ha : true ∉ as) (hb : true ∉ bs)
    (ha' : true ∉ as') (hb' : true ∉ bs')
    (h : bs.length + 1 < Function.minimalPeriod (shift p) 1#w)
    (h' : bs'.length + 1 < Function.minimalPeriod (shift p) 1#w) (hne : bs.length ≠ bs'.length) :
    run p 0#w (as ++ true :: bs) ≠ run p 0#w (as' ++ true :: bs') := by
  intro heq
  rw [run_single ha hb, run_single ha' hb'] at heq
  have := Function.iterate_injOn_Iio_minimalPeriod (Set.mem_Iio.mpr h) (Set.mem_Iio.mpr h') heq
  omega

end Lfsr

import Mathlib.Data.List.Basic
import Mathlib.Tactic.Linarith

/-!
# Splitting a stream into messages

A `Splitter` takes the first message off a sequence, if a whole one is there.  It is told when a
message is whole by that message alone: more input behind it changes nothing.  `split` takes off as
many messages as there are.

* `split_append` — splitting a stream piece by piece, keeping the rest in between, is splitting it
  whole;
* `split_parts` — **a concatenation of encoded messages is split into these messages**;
* `split_cut` — and of a cut concatenation exactly the whole ones come out.
-/

set_option autoImplicit false

namespace Machine

/-- How to take a message off the front of a sequence. -/
structure Splitter (α β : Type) where
  next : List α → Option (β × List α)
  shrinks : ∀ {xs : List α} {m : β} {rest : List α}, next xs = some (m, rest) →
    rest.length < xs.length
  stable : ∀ {xs : List α} {m : β} {rest : List α} (ys : List α), next xs = some (m, rest) →
    next (xs ++ ys) = some (m, rest ++ ys)

namespace Splitter

variable {α β : Type}

/-- The whole messages at the front, and what is left. -/
def split (S : Splitter α β) (xs : List α) : List β × List α :=
  match h : S.next xs with
  | none => ([], xs)
  | some (m, rest) =>
    have := S.shrinks h
    let tail := S.split rest
    (m :: tail.1, tail.2)
termination_by xs.length

variable (S : Splitter α β)

theorem split_none {xs : List α} (h : S.next xs = none) : S.split xs = ([], xs) := by
  rw [split]
  split
  · rfl
  · rename_i h'
    rw [h] at h'
    cases h'

theorem split_some {xs rest : List α} {m : β} (h : S.next xs = some (m, rest)) :
    S.split xs = (m :: (S.split rest).1, (S.split rest).2) := by
  rw [split]
  split
  · rename_i h'
    rw [h] at h'
    cases h'
  · rename_i h'
    rw [h] at h'
    cases h'
    rfl

theorem split_nil : S.split [] = ([], []) := by
  apply S.split_none
  cases hn : S.next [] with
  | none => rfl
  | some p => exact absurd (S.shrinks (show S.next [] = some (p.1, p.2) from hn)) (Nat.not_lt_zero _)

/-- No whole message is left. -/
theorem next_split (xs : List α) : S.next (S.split xs).2 = none := by
  induction xs using split.induct S with
  | case1 xs h => rw [S.split_none h]; exact h
  | case2 xs m rest h _ ih => rw [S.split_some h]; exact ih

/-- **Piece by piece is all at once.** -/
theorem split_append (xs ys : List α) :
    S.split (xs ++ ys) =
      ((S.split xs).1 ++ (S.split ((S.split xs).2 ++ ys)).1, (S.split ((S.split xs).2 ++ ys)).2) := by
  induction xs using split.induct S with
  | case1 xs h => simp [S.split_none h]
  | case2 xs m rest h _ ih =>
    rw [S.split_some h, S.split_some (S.stable ys h), ih]
    rfl

/-- The messages of a prefix come first. -/
theorem split_mono {xs zs : List α} (h : xs <+: zs) : (S.split xs).1 <+: (S.split zs).1 := by
  obtain ⟨ys, rfl⟩ := h
  rw [S.split_append]
  exact List.prefix_append _ _

/-- Nothing is left of an empty rest but what comes. -/
theorem split_idem (xs : List α) : S.split (S.split xs).2 = ([], (S.split xs).2) :=
  S.split_none (S.next_split xs)

/-! ## Encoded messages -/

variable {S} {enc : β → List α} {ms : List β}

/-- `enc` writes messages the way the splitter takes them off. -/
def Encodes (S : Splitter α β) (enc : β → List α) (m : β) : Prop := S.next (enc m) = some (m, [])

/-- A message in front of more. -/
theorem Encodes.next {m : β} (h : S.Encodes enc m) (ys : List α) :
    S.next (enc m ++ ys) = some (m, ys) := S.stable ys h

/-- A message that is cut short is not there yet. -/
theorem Encodes.cut {m : β} (h : S.Encodes enc m) {xs ys : List α} (hys : ys ≠ [])
    (hcut : xs ++ ys = enc m) : S.next xs = none := by
  cases hn : S.next xs with
  | none => rfl
  | some p =>
    obtain ⟨m', rest⟩ := p
    have hwhole := S.stable ys hn
    rw [hcut, h] at hwhole
    injection hwhole with hwhole
    injection hwhole with _ hnil
    have := congrArg List.length hnil
    rw [List.length_nil, List.length_append] at this
    exact absurd (List.eq_nil_of_length_eq_zero (by omega)) hys

/-- **The messages of a concatenation, and of what follows it.** -/
theorem split_parts (h : ∀ m ∈ ms, S.Encodes enc m) (ys : List α) :
    S.split (ms.flatMap enc ++ ys) = (ms ++ (S.split ys).1, (S.split ys).2) := by
  induction ms with
  | nil => rfl
  | cons m ms ih =>
    rw [List.flatMap_cons, List.append_assoc,
      S.split_some ((h m List.mem_cons_self).next _),
        ih fun m' hm' => h m' (List.mem_cons_of_mem m hm')]
    rfl

theorem split_flatMap (h : ∀ m ∈ ms, S.Encodes enc m) : S.split (ms.flatMap enc) = (ms, []) := by
  have := split_parts h []
  rwa [List.append_nil, S.split_nil, List.append_nil] at this

/-- **Of a cut concatenation the whole messages come out, and the rest is kept**: as many as fit
into the bytes that are there. -/
theorem split_cut : ∀ {ms : List β} {xs : List α}, (∀ m ∈ ms, S.Encodes enc m) →
    xs <+: ms.flatMap enc → ∃ k ≤ ms.length, (S.split xs).1 = ms.take k ∧
      xs = (ms.take k).flatMap enc ++ (S.split xs).2 ∧
      ∀ j ≤ ms.length, ((ms.take j).flatMap enc).length ≤ xs.length ↔ j ≤ k
  | [], xs, _, hxs => by
    obtain rfl : xs = [] := List.prefix_nil.mp hxs
    rw [S.split_nil]
    exact ⟨0, Nat.le_refl 0, rfl, rfl, by simp⟩
  | m :: ms, xs, h, hxs => by
    have hm := h m List.mem_cons_self
    have hms : ∀ m' ∈ ms, S.Encodes enc m' := fun m' hm' => h m' (List.mem_cons_of_mem m hm')
    rw [List.flatMap_cons] at hxs
    rcases Nat.lt_or_ge xs.length (enc m).length with hlt | hge
    · -- the first message is not whole
      obtain ⟨ys, hys⟩ := List.prefix_of_prefix_length_le hxs (List.prefix_append _ _)
        (Nat.le_of_lt hlt)
      have hne : ys ≠ [] := by
        rintro rfl
        rw [List.append_nil] at hys
        rw [hys] at hlt
        exact Nat.lt_irrefl _ hlt
      rw [S.split_none (hm.cut hne hys)]
      refine ⟨0, Nat.zero_le _, rfl, by simp, ?_⟩
      intro j _
      cases j with
      | zero => simp
      | succ j =>
        simp only [List.take_succ_cons, List.flatMap_cons, List.length_append]
        omega
    · obtain ⟨rest, rfl⟩ := List.prefix_of_prefix_length_le (List.prefix_append _ _) hxs hge
      have hrest : rest <+: ms.flatMap enc := (List.prefix_append_right_inj _).mp hxs
      obtain ⟨k, hk, hout, hsplit, hfit⟩ := split_cut hms hrest
      rw [S.split_some (hm.next rest)]
      refine ⟨k + 1, Nat.succ_le_succ hk, by rw [List.take_succ_cons, hout], ?_, ?_⟩
      · rw [List.take_succ_cons, List.flatMap_cons, List.append_assoc, ← hsplit]
      · intro j hj
        cases j with
        | zero => simp
        | succ j =>
          have := hfit j (by simpa using hj)
          simp only [List.take_succ_cons, List.flatMap_cons, List.length_append]
          omega

end Splitter

end Machine

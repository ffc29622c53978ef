import Mathlib.Data.Set.Insert
import Mathlib.Tactic.Common

/-!
# Selective repeat over an unreliable network

The protocol pattern behind a sliding-window transport, in terms of tile indices alone.  A
sender cuts a stream into tiles `0, 1, 2, …`; the network hands the receiver any tile already
cut, any number of times and in any order; the receiver keeps the tiles up to `next` in order and
holds later ones out of order; its acknowledgements report `next` and some of the held tiles;
the sender may use any acknowledgement ever reported to raise `base`, the first tile it still
keeps for retransmission.

* `Step` — one event; messages are never consumed, so loss, duplication and reordering are all
  covered.
* `Inv` — the invariant; `Inv.init` and `Step.inv` make it hold in every reachable state.
* `Inv.base_le`, `Inv.next_le` — `base ≤ next ≤ cut`: a tile leaves the sender only after the
  receiver has it in order.
* `Inv.reported_has` — a reported tile is one the receiver has.
* `Inv.base_not_reported` — the tile at `base` is never reported by any acknowledgement, however
  old: no cumulative point lies among the selectively reported tiles.
* `Step.le` — what only grows: a fact about an emitted message stays true.
* `cumulative` — the schemes that hold nothing and report nothing but `next`.
-/

set_option autoImplicit false

/-- Sender, receiver and the acknowledgements in the network. -/
structure SelRep where
  /-- Tiles the sender has cut. -/
  cut : Nat
  /-- First tile the sender still keeps. -/
  base : Nat
  /-- Tiles the receiver has in order. -/
  next : Nat
  /-- Tiles the receiver holds out of order. -/
  held : Set Nat
  /-- Every acknowledgement reported so far: cumulative point and reported tiles. -/
  acks : Set (Nat × Set Nat)

namespace SelRep

/-- Nothing cut; the receiver's initial state counts as reported. -/
def init : SelRep := ⟨0, 0, 0, ∅, {(0, ∅)}⟩

/-- What the receiver does with tile `m`: the new `next` and `held`. -/
inductive Accept (s : SelRep) (m : Nat) : Nat → Set Nat → Prop
  | stale : m < s.next → Accept s m s.next s.held
  | hold : s.next < m → Accept s m s.next (insert m s.held)
  | fill {n : Nat} : m = s.next → s.next < n → (∀ k, s.next < k → k < n → k ∈ s.held) →
      n ∉ s.held → Accept s m n {k | k ∈ s.held ∧ n < k}

inductive Step : SelRep → SelRep → Prop
  | cut (s : SelRep) : Step s { s with cut := s.cut + 1 }
  | accept {s : SelRep} {m n : Nat} {h : Set Nat} : m < s.cut → Accept s m n h →
      Step s { s with next := n, held := h }
  | report {s : SelRep} {S : Set Nat} : S ⊆ s.held →
      Step s { s with acks := insert (s.next, S) s.acks }
  | learn {s : SelRep} {a : Nat × Set Nat} : a ∈ s.acks → s.base ≤ a.1 →
      Step s { s with base := a.1 }

/-- The receiver has tile `m`, in order or held. -/
def Has (s : SelRep) (m : Nat) : Prop := m < s.next ∨ m ∈ s.held

structure Inv (s : SelRep) : Prop where
  next_le : s.next ≤ s.cut
  held_gt : ∀ m ∈ s.held, s.next < m
  held_lt : ∀ m ∈ s.held, m < s.cut
  acks_le : ∀ a ∈ s.acks, a.1 ≤ s.next
  reported_has : ∀ a ∈ s.acks, ∀ m ∈ a.2, s.Has m
  /-- No cumulative point is ever a reported tile. -/
  no_stop : ∀ a ∈ s.acks, ∀ a' ∈ s.acks, a.1 ∉ a'.2
  base_ack : ∃ a ∈ s.acks, a.1 = s.base

theorem Inv.init : Inv init where
  next_le := Nat.le_refl 0
  held_gt := fun m hm => absurd hm (Set.notMem_empty m)
  held_lt := fun m hm => absurd hm (Set.notMem_empty m)
  acks_le := fun a ha => by rw [Set.mem_singleton_iff.mp ha]; exact Nat.le_refl 0
  reported_has := fun a ha m hm => by
    rw [Set.mem_singleton_iff.mp ha] at hm; exact absurd hm (Set.notMem_empty m)
  no_stop := fun a _ a' ha' hm => by
    rw [Set.mem_singleton_iff.mp ha'] at hm; exact absurd hm (Set.notMem_empty a.1)
  base_ack := ⟨(0, ∅), Set.mem_singleton _, rfl⟩

variable {s s' : SelRep}

theorem Inv.base_le (h : Inv s) : s.base ≤ s.next := by
  obtain ⟨a, ha, hb⟩ := h.base_ack
  rw [← hb]; exact h.acks_le a ha

theorem Inv.base_not_reported (h : Inv s) {a : Nat × Set Nat} (ha : a ∈ s.acks) :
    s.base ∉ a.2 := by
  obtain ⟨b, hb, he⟩ := h.base_ack
  rw [← he]; exact h.no_stop b hb a ha

/-- `next` is never held: a tile at `next` would have been taken in order. -/
theorem Inv.next_not_has (h : Inv s) : ¬ s.Has s.next := by
  rintro (hlt | hm)
  · exact absurd hlt (Nat.lt_irrefl _)
  · exact absurd (h.held_gt _ hm) (Nat.lt_irrefl _)

/-! ## Accepting a tile -/

theorem Accept.next_le {m n : Nat} {h : Set Nat} (ha : Accept s m n h) : s.next ≤ n := by
  cases ha with
  | stale | hold => exact Nat.le_refl _
  | fill _ hlt => exact Nat.le_of_lt hlt

/-- Afterwards the receiver has what it had, and the tile itself. -/
theorem Accept.has_iff {m n : Nat} {h : Set Nat} (ha : Accept s m n h) {k : Nat} :
    k < n ∨ k ∈ h ↔ s.Has k ∨ k = m := by
  cases ha with
  | stale hlt =>
    constructor
    · exact Or.inl
    · rintro (hk | rfl)
      · exact hk
      · exact Or.inl hlt
  | hold hlt =>
    constructor
    · rintro (hk | rfl | hk)
      · exact Or.inl (Or.inl hk)
      · exact Or.inr rfl
      · exact Or.inl (Or.inr hk)
    · rintro ((hk | hk) | rfl)
      · exact Or.inl hk
      · exact Or.inr (Set.mem_insert_of_mem _ hk)
      · exact Or.inr (Set.mem_insert _ _)
  | fill hm hlt hrun hn =>
    constructor
    · rintro (hk | hk)
      · rcases Nat.lt_trichotomy k s.next with h1 | h1 | h1
        · exact Or.inl (Or.inl h1)
        · exact Or.inr (h1.trans hm.symm)
        · exact Or.inl (Or.inr (hrun k h1 hk))
      · exact Or.inl (Or.inr hk.1)
    · rintro ((hk | hk) | rfl)
      · exact Or.inl (Nat.lt_trans hk hlt)
      · rcases Nat.lt_trichotomy k n with h1 | rfl | h1
        · exact Or.inl h1
        · exact absurd hk hn
        · exact Or.inr ⟨hk, h1⟩
      · exact Or.inl (by omega)

theorem Accept.inv (hi : Inv s) {m n : Nat} {h : Set Nat} (hm : m < s.cut)
    (ha : Accept s m n h) : Inv { s with next := n, held := h } where
  next_le := by
    have hle := hi.next_le
    cases ha with
    | stale | hold => exact hle
    | @fill n he hlt hrun _ =>
      show n ≤ s.cut
      rcases Nat.eq_or_lt_of_le (show s.next + 1 ≤ n from hlt) with h1 | h1
      · omega
      · have := hi.held_lt (n - 1) (hrun (n - 1) (by omega) (by omega))
        omega
  held_gt := by
    cases ha with
    | stale => exact hi.held_gt
    | hold hlt =>
      rintro k (rfl | hk)
      · exact hlt
      · exact hi.held_gt k hk
    | fill => exact fun k hk => hk.2
  held_lt := by
    cases ha with
    | stale => exact hi.held_lt
    | hold =>
      rintro k (rfl | hk)
      · exact hm
      · exact hi.held_lt k hk
    | fill => exact fun k hk => hi.held_lt k hk.1
  acks_le := fun a ha' => Nat.le_trans (hi.acks_le a ha') ha.next_le
  reported_has := fun a ha' k hk => ha.has_iff.mpr (Or.inl (hi.reported_has a ha' k hk))
  no_stop := hi.no_stop
  base_ack := hi.base_ack

/-! ## The invariant along a run -/

theorem Step.inv (h : Step s s') (hi : Inv s) : Inv s' := by
  cases h with
  | cut =>
    exact { hi with
      next_le := Nat.le_succ_of_le hi.next_le
      held_lt := fun m hm => Nat.lt_succ_of_lt (hi.held_lt m hm) }
  | accept hm ha => exact ha.inv hi hm
  | @report S hS =>
    -- a new report adds `next` as a cumulative point and held tiles as reported ones
    refine { hi with acks_le := ?_, reported_has := ?_, no_stop := ?_, base_ack := ?_ }
    · rintro a (rfl | ha)
      · exact Nat.le_refl _
      · exact hi.acks_le a ha
    · rintro a (rfl | ha) m hm
      · exact Or.inr (hS hm)
      · exact hi.reported_has a ha m hm
    · have hle : ∀ a ∈ insert (s.next, S) s.acks, a.1 ≤ s.next := by
        rintro a (rfl | ha)
        · exact Nat.le_refl _
        · exact hi.acks_le a ha
      rintro a ha a' (rfl | ha') hm
      · exact absurd (hi.held_gt _ (hS hm)) (by have := hle a ha; omega)
      · rcases ha with rfl | ha
        · exact hi.next_not_has (hi.reported_has a' ha' _ hm)
        · exact hi.no_stop a ha a' ha' hm
    · obtain ⟨a, ha, hb⟩ := hi.base_ack
      exact ⟨a, Set.mem_insert_of_mem _ ha, hb⟩
  | learn ha hb => exact { hi with base_ack := ⟨_, ha, rfl⟩ }

/-- What only grows along a run. -/
structure Le (s s' : SelRep) : Prop where
  cut : s.cut ≤ s'.cut
  base : s.base ≤ s'.base
  next : s.next ≤ s'.next
  acks : s.acks ⊆ s'.acks
  has : ∀ m, s.Has m → s'.Has m

theorem Le.refl (s : SelRep) : Le s s :=
  ⟨Nat.le_refl _, Nat.le_refl _, Nat.le_refl _, fun _ h => h, fun _ h => h⟩

theorem Step.le (h : Step s s') : Le s s' := by
  cases h with
  | cut => exact { Le.refl s with cut := Nat.le_succ _ }
  | accept _ ha => exact { Le.refl s with next := ha.next_le, has := fun m hm => ha.has_iff.mpr (Or.inl hm) }
  | report => exact { Le.refl s with acks := Set.subset_insert _ _ }
  | learn _ hb => exact { Le.refl s with base := hb }

/-! ## Cumulative acknowledgement -/

/-- Nothing is held out of order, and every acknowledgement is one of the cumulative `points`. -/
def cumulative (cut base next : Nat) (points : Set Nat) : SelRep :=
  ⟨cut, base, next, ∅, {a | a.1 ∈ points ∧ a.2 = ∅}⟩

section Cumulative

variable {cut base next n : Nat} {points : Set Nat}

theorem Inv.cumulative_init : Inv (cumulative 0 0 0 {0}) := by
  have hacks : {a : Nat × Set Nat | a.1 ∈ ({0} : Set Nat) ∧ a.2 = ∅} = {(0, ∅)} := by
    ext ⟨m, t⟩
    exact (Iff.of_eq (Prod.mk.injEq m t 0 ∅)).symm
  rw [cumulative, hacks]
  exact Inv.init

theorem Inv.cumulative_cut (h : Inv (cumulative cut base next points)) :
    Inv (cumulative (cut + 1) base next points) := (Step.cut _).inv h

/-- The next tile arrives. -/
theorem Inv.cumulative_accept (h : Inv (cumulative cut base next points)) (hlt : next < cut) :
    Inv (cumulative cut base (next + 1) points) := by
  have hfill : Accept (cumulative cut base next points) next (next + 1)
      {k | k ∈ (∅ : Set Nat) ∧ next + 1 < k} :=
    .fill rfl (Nat.lt_succ_self _) (fun k h₁ h₂ => absurd (show k < next + 1 from h₂)
      (Nat.not_lt.mpr h₁)) (Set.notMem_empty _)
  have hinv := hfill.inv h hlt
  have hnone : {k | k ∈ (∅ : Set Nat) ∧ next + 1 < k} = ∅ :=
    Set.eq_empty_of_forall_notMem fun k hk => Set.notMem_empty k hk.1
  rw [hnone] at hinv
  exact hinv

theorem Inv.cumulative_report (h : Inv (cumulative cut base next points)) :
    Inv (cumulative cut base next (insert next points)) := by
  have hacks : {a : Nat × Set Nat | a.1 ∈ insert next points ∧ a.2 = ∅} =
      insert (next, ∅) {a | a.1 ∈ points ∧ a.2 = ∅} := by
    ext ⟨m, t⟩
    simp only [Set.mem_ofPred_eq, Set.mem_insert_iff, Prod.mk.injEq]
    tauto
  rw [cumulative, hacks]
  exact (Step.report (Set.empty_subset _)).inv h

/-- A cumulative point arrives, however old it is. -/
theorem Inv.cumulative_learn (h : Inv (cumulative cut base next points)) (hn : n ∈ points)
    (hle : base ≤ n) : Inv (cumulative cut n next points) :=
  (Step.learn (s := cumulative cut base next points) (a := (n, ∅)) ⟨hn, rfl⟩ hle).inv h

end Cumulative

end SelRep

import Mathlib.Order.Interval.Set.Basic
import Mathlib.Tactic.Common

/-!
# Maximal runs

An interval of natural numbers is written as the pair of its first and its last element; a
maximal run of a set is an interval that lies in it and cannot be extended (`MaximalRun`).
`coalesce` joins the intervals of a list that follow one another without a gap.

Intervals with gaps between them are the maximal runs of their union (`Separated.mem_iff`), and
of intervals that are in order `coalesce` makes just these (`mem_coalesce`).
-/

set_option autoImplicit false

namespace Runs

/-- The interval `r` lies in `P`, and neither of its two neighbours does. -/
structure MaximalRun (P : Set Nat) (r : Nat × Nat) : Prop where
  le : r.1 ≤ r.2
  subset : Set.Icc r.1 r.2 ⊆ P
  before : ∀ n, n + 1 = r.1 → n ∉ P
  after : r.2 + 1 ∉ P

/-- The union of the intervals in a list. -/
def covered (rs : List (Nat × Nat)) : Set Nat := {n | ∃ r ∈ rs, n ∈ Set.Icc r.1 r.2}

/-- Intervals in ascending order, none empty and none touching the next. -/
structure Separated (rs : List (Nat × Nat)) : Prop where
  le : ∀ r ∈ rs, r.1 ≤ r.2
  gaps : rs.Pairwise fun r r' => r.2 + 1 < r'.1

/-- Put an interval in front of a list, joined with the first one if that follows it. -/
def join (r : Nat × Nat) : List (Nat × Nat) → List (Nat × Nat)
  | [] => [r]
  | r' :: rs => if r'.1 = r.2 + 1 then (r.1, r'.2) :: rs else r :: r' :: rs

def coalesce (rs : List (Nat × Nat)) : List (Nat × Nat) := rs.foldr join []

variable {P : Set Nat} {r r' : Nat × Nat} {rs : List (Nat × Nat)}

/-! ## Separated intervals -/

theorem Separated.total (h : Separated rs) (hr : r ∈ rs) (hr' : r' ∈ rs) :
    r = r' ∨ r.2 + 1 < r'.1 ∨ r'.2 + 1 < r.1 := by
  have hflip : rs.Pairwise (flip fun r r' => r = r' ∨ r.2 + 1 < r'.1 ∨ r'.2 + 1 < r.1) :=
    h.gaps.imp fun hlt => Or.inr (Or.inr hlt)
  have hall : rs.Pairwise fun r r' => r = r' ∨ r.2 + 1 < r'.1 ∨ r'.2 + 1 < r.1 :=
    h.gaps.imp fun hlt => Or.inr (Or.inl hlt)
  have heach : ∀ x ∈ rs, x = x ∨ x.2 + 1 < x.1 ∨ x.2 + 1 < x.1 := fun _ _ => Or.inl rfl
  exact List.Pairwise.forall_of_forall_of_flip heach hall hflip hr hr'

/-- A separated interval cannot be extended. -/
theorem Separated.maximal (h : Separated rs) (hr : r ∈ rs) : MaximalRun (covered rs) r := by
  have hle := h.le r hr
  refine ⟨hle, fun n hn => ⟨r, hr, hn⟩, fun n hn => ?_, ?_⟩
  · rintro ⟨r', hr', hlo, hhi⟩
    rcases h.total hr hr' with rfl | hlt | hlt <;> omega
  · rintro ⟨r', hr', hlo, hhi⟩
    rcases h.total hr hr' with rfl | hlt | hlt <;> omega

/-- **Separated intervals are the maximal runs of their union.** -/
theorem Separated.mem_iff (h : Separated rs) : r ∈ rs ↔ MaximalRun (covered rs) r := by
  refine ⟨h.maximal, fun hm => ?_⟩
  have hle := hm.le
  obtain ⟨r', hr', hlo, hhi⟩ := hm.subset (Set.left_mem_Icc.mpr hle)
  have hmax := h.maximal hr'
  -- the run starts with the interval it starts in, and ends with it
  have hstart : r'.1 = r.1 := by
    by_contra hne
    refine hm.before (r.1 - 1) (by omega) ⟨r', hr', ?_, ?_⟩ <;> omega
  have hstop : r'.2 = r.2 := by
    rcases Nat.lt_trichotomy r'.2 r.2 with hlt | heq | hgt
    · exact absurd (hm.subset ⟨by omega, hlt⟩) hmax.after
    · exact heq
    · exact absurd ⟨r', hr', by omega, hgt⟩ hm.after
  rwa [show r = r' from Prod.ext hstart.symm hstop.symm]

/-! ## Joining intervals -/

@[simp] theorem coalesce_nil : coalesce [] = [] := rfl

theorem coalesce_cons (r : Nat × Nat) (rs : List (Nat × Nat)) :
    coalesce (r :: rs) = join r (coalesce rs) := rfl

theorem join_head (r : Nat × Nat) (rs : List (Nat × Nat)) :
    ∃ stop rest, join r rs = (r.1, stop) :: rest := by
  cases rs with
  | nil => exact ⟨r.2, [], rfl⟩
  | cons r' rs =>
    simp only [join]
    split <;> exact ⟨_, _, rfl⟩

/-- Two intervals without a gap between them might as well be one. -/
theorem join_join (start mid stop : Nat) (rs : List (Nat × Nat)) :
    join (start, mid) (join (mid + 1, stop) rs) = join (start, stop) rs := by
  cases rs with
  | nil => simp [join]
  | cons r' rs =>
    by_cases hnext : r'.1 = stop + 1 <;> simp [join, hnext]

/-- An interval with a gap behind it is a run of its own. -/
theorem join_gap {next : Nat} (hgap : next ≠ r.2 + 1) (stop : Nat) (rs : List (Nat × Nat)) :
    join r (join (next, stop) rs) = r :: join (next, stop) rs := by
  obtain ⟨stop', rest, hj⟩ := join_head (next, stop) rs
  rw [hj, join, if_neg hgap]

theorem covered_join (hr : r.1 ≤ r.2) (hrs : ∀ r' ∈ rs, r'.1 ≤ r'.2) :
    covered (join r rs) = Set.Icc r.1 r.2 ∪ covered rs := by
  cases rs with
  | nil => ext n; simp [join, covered]
  | cons r' rs =>
    have hr' := hrs r' List.mem_cons_self
    simp only [join]
    split
    · rename_i hnext
      ext n
      simp only [covered, Set.mem_ofPred_eq, List.mem_cons, exists_eq_or_imp, Set.mem_union, Set.mem_Icc]
      refine ⟨?_, ?_⟩
      · rintro (⟨hlo, hhi⟩ | hrest)
        · by_cases hn : n ≤ r.2
          · exact Or.inl ⟨hlo, hn⟩
          · exact Or.inr (Or.inl ⟨by omega, hhi⟩)
        · exact Or.inr (Or.inr hrest)
      · rintro (⟨hlo, hhi⟩ | ⟨hlo, hhi⟩ | hrest)
        · exact Or.inl ⟨hlo, by omega⟩
        · exact Or.inl ⟨by omega, hhi⟩
        · exact Or.inr hrest
    · ext n
      simp only [covered, Set.mem_ofPred_eq, List.mem_cons, exists_eq_or_imp, Set.mem_union]

theorem Separated.join (h : Separated rs) (hr : r.1 ≤ r.2) (hbelow : ∀ r' ∈ rs, r.2 < r'.1) :
    Separated (join r rs) := by
  cases rs with
  | nil => exact ⟨fun x hx => by rw [List.mem_singleton.mp hx]; exact hr, List.pairwise_singleton _ _⟩
  | cons r' rs =>
    have hr' := h.le r' List.mem_cons_self
    have hlt := hbelow r' List.mem_cons_self
    obtain ⟨hhead, htail⟩ := List.pairwise_cons.mp h.gaps
    simp only [Runs.join]
    split
    · refine ⟨fun x hx => ?_, List.pairwise_cons.mpr ⟨hhead, htail⟩⟩
      rcases List.mem_cons.mp hx with rfl | hx
      · show r.1 ≤ r'.2
        omega
      · exact h.le x (List.mem_cons_of_mem _ hx)
    · rename_i hnext
      refine ⟨fun x hx => ?_, List.pairwise_cons.mpr ⟨fun x hx => ?_, h.gaps⟩⟩
      · rcases List.mem_cons.mp hx with rfl | hx
        · exact hr
        · exact h.le x hx
      · rcases List.mem_cons.mp hx with rfl | hx
        · omega
        · have := hhead x hx
          omega

/-- The starts of the joined intervals are among those that went in. -/
theorem start_mem_coalesce : ∀ {rs : List (Nat × Nat)} {r : Nat × Nat}, r ∈ coalesce rs →
    ∃ r' ∈ rs, r'.1 = r.1
  | [], _, hr => by cases hr
  | r₀ :: rs, r, hr => by
    rw [coalesce_cons] at hr
    have hor : r.1 = r₀.1 ∨ r ∈ coalesce rs := by
      cases hc : coalesce rs with
      | nil =>
        rw [hc, join, List.mem_singleton] at hr
        exact Or.inl (by rw [hr])
      | cons r' rest =>
        rw [hc, join] at hr
        split at hr
        · rcases List.mem_cons.mp hr with rfl | hr
          · exact Or.inl rfl
          · exact Or.inr (List.mem_cons_of_mem _ hr)
        · rcases List.mem_cons.mp hr with rfl | hr
          · exact Or.inl rfl
          · exact Or.inr hr
    rcases hor with heq | hr
    · exact ⟨r₀, List.mem_cons_self, heq.symm⟩
    · obtain ⟨r', hr', heq⟩ := start_mem_coalesce hr
      exact ⟨r', List.mem_cons_of_mem _ hr', heq⟩

/-- Joining covers what was covered and leaves gaps. -/
theorem coalesce_spec : ∀ {rs : List (Nat × Nat)}, (∀ r ∈ rs, r.1 ≤ r.2) →
    (rs.Pairwise fun r r' => r.2 < r'.1) →
    Separated (coalesce rs) ∧ covered (coalesce rs) = covered rs
  | [], _, _ => ⟨⟨fun r hr => (List.not_mem_nil hr).elim, List.Pairwise.nil⟩, rfl⟩
  | r :: rs, hle, hord => by
    obtain ⟨hhead, htail⟩ := List.pairwise_cons.mp hord
    obtain ⟨hsep, hcov⟩ := coalesce_spec (fun x hx => hle x (List.mem_cons_of_mem _ hx)) htail
    have hr := hle r List.mem_cons_self
    rw [coalesce_cons]
    refine ⟨hsep.join hr fun x hx => ?_, ?_⟩
    · obtain ⟨x', hx', heq⟩ := start_mem_coalesce hx
      rw [← heq]
      exact hhead x' hx'
    · rw [covered_join hr hsep.le, hcov]
      ext n
      simp only [covered, Set.mem_ofPred_eq, List.mem_cons, exists_eq_or_imp, Set.mem_union]

/-- **Of intervals in order, `coalesce` makes the maximal runs of their union.** -/
theorem mem_coalesce (hle : ∀ r ∈ rs, r.1 ≤ r.2) (hord : rs.Pairwise fun r r' => r.2 < r'.1) :
    r ∈ coalesce rs ↔ MaximalRun (covered rs) r := by
  obtain ⟨hsep, hcov⟩ := coalesce_spec hle hord
  rw [hsep.mem_iff, hcov]

end Runs

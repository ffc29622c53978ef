import Mathlib.Algebra.Ring.Nat
import Mathlib.Tactic.Common

/-!
# Streams cut into tiles

A stream cut into consecutive pieces is a list of pieces `cs`; piece `i` starts at position
`pos cs i` of the concatenation.  `layout cs i` is the list of the pieces from `i` on, each with
its position, and `Tiles a l b` says that such a list covers the interval from `a` to `b`
without gap, overlap or empty piece.

Positions are stable under cutting more pieces (`pos_append`), strictly increasing when no
piece is empty (`pos_lt`), and dropping the pieces below a boundary leaves the layout from that
boundary (`filter_layout`).
-/

set_option autoImplicit false

namespace Tiling

variable {α : Type}

/-- Where piece `i` starts. -/
def pos (cs : List (List α)) (i : Nat) : Nat := (cs.take i).flatten.length

/-- Pieces laid out one after the other from position `p`. -/
def layoutFrom : Nat → List (List α) → List (Nat × List α)
  | _, [] => []
  | p, c :: cs => (p, c) :: layoutFrom (p + c.length) cs

/-- The pieces from `i` on, with their positions. -/
def layout (cs : List (List α)) (i : Nat) : List (Nat × List α) :=
  layoutFrom (pos cs i) (cs.drop i)

/-- Non-empty pieces that cover `a .. b` exactly. -/
def Tiles : Nat → List (Nat × List α) → Nat → Prop
  | a, [], b => a = b
  | a, (p, c) :: l, b => p = a ∧ c ≠ [] ∧ Tiles (a + c.length) l b

/-! ## Positions -/

@[simp] theorem pos_zero (cs : List (List α)) : pos cs 0 = 0 := by simp [pos]

theorem pos_length (cs : List (List α)) : pos cs cs.length = cs.flatten.length := by simp [pos]

theorem take_succ_flatten {cs : List (List α)} {i : Nat} (h : i < cs.length) :
    (cs.take (i + 1)).flatten = (cs.take i).flatten ++ cs[i] := by
  rw [List.take_succ_eq_append_getElem h, List.flatten_append]
  simp

theorem pos_succ {cs : List (List α)} {i : Nat} (h : i < cs.length) :
    pos cs (i + 1) = pos cs i + cs[i].length := by
  rw [pos, take_succ_flatten h, List.length_append]; rfl

theorem pos_append {cs : List (List α)} (ds : List (List α)) {i : Nat} (h : i ≤ cs.length) :
    pos (cs ++ ds) i = pos cs i := by
  rw [pos, List.take_append_of_le_length h]; rfl

theorem pos_mono (cs : List (List α)) {i j : Nat} (h : i ≤ j) : pos cs i ≤ pos cs j := by
  obtain ⟨k, rfl⟩ := Nat.exists_eq_add_of_le h
  have ht : cs.take (i + k) = cs.take i ++ (cs.drop i).take k := List.take_add
  unfold pos
  rw [ht, List.flatten_append, List.length_append]
  omega

theorem pos_le_total (cs : List (List α)) (i : Nat) : pos cs i ≤ cs.flatten.length := by
  rcases Nat.le_total i cs.length with h | h
  · rw [← pos_length]; exact pos_mono cs h
  · have : pos cs i = cs.flatten.length := by rw [pos, List.take_of_length_le h]
    omega

theorem flatten_take (cs : List (List α)) (i : Nat) :
    (cs.take i).flatten = cs.flatten.take (pos cs i) := by
  have h : cs.flatten = (cs.take i).flatten ++ (cs.drop i).flatten := by
    rw [← List.flatten_append, List.take_append_drop]
  rw [h, pos, List.take_left]

theorem pos_lt {cs : List (List α)} (hne : ∀ c ∈ cs, c ≠ []) {i j : Nat} (h : i < j)
    (hj : j ≤ cs.length) : pos cs i < pos cs j := by
  have hi : i < cs.length := by omega
  have hc : 0 < cs[i].length := List.length_pos_iff.mpr (hne _ (List.getElem_mem hi))
  have hs := pos_succ hi
  have hm := pos_mono cs (show i + 1 ≤ j from h)
  omega

theorem pos_le_iff {cs : List (List α)} (hne : ∀ c ∈ cs, c ≠ []) {i j : Nat}
    (hi : i ≤ cs.length) : pos cs i ≤ pos cs j ↔ i ≤ j := by
  refine ⟨fun h => ?_, fun h => pos_mono cs h⟩
  by_contra hlt
  have := pos_lt hne (show j < i by omega) hi
  omega

theorem pos_inj {cs : List (List α)} (hne : ∀ c ∈ cs, c ≠ []) {i j : Nat}
    (hi : i ≤ cs.length) (hj : j ≤ cs.length) (h : pos cs i = pos cs j) : i = j :=
  Nat.le_antisymm ((pos_le_iff hne hi).mp (Nat.le_of_eq h)) ((pos_le_iff hne hj).mp (Nat.le_of_eq h.symm))

/-- A piece ends where the next one starts. -/
theorem pos_succ_of_getElem? {cs : List (List α)} {i : Nat} {c : List α} (h : cs[i]? = some c) :
    pos cs (i + 1) = pos cs i + c.length := by
  obtain ⟨hlt, rfl⟩ := List.getElem?_eq_some_iff.mp h
  exact pos_succ hlt

theorem lt_of_getElem? {cs : List (List α)} {i : Nat} {c : List α} (h : cs[i]? = some c) :
    i < cs.length := (List.getElem?_eq_some_iff.mp h).1

theorem getElem?_concat {cs : List (List α)} (d : List α) {i : Nat} {c : List α}
    (h : cs[i]? = some c) : (cs ++ [d])[i]? = some c := by
  rw [List.getElem?_append_left (lt_of_getElem? h)]; exact h

/-- A piece is the part of the stream at its position. -/
theorem slice_piece {cs : List (List α)} {m n : Nat} {c : List α} (h : cs[m]? = some c)
    (hmn : m < n) : ((cs.take n).flatten.drop (pos cs m)).take c.length = c := by
  obtain ⟨hlt, rfl⟩ := List.getElem?_eq_some_iff.mp h
  have hn : cs.take n = cs.take m ++ cs[m] :: (cs.drop (m + 1)).take (n - (m + 1)) := by
    rw [← List.take_append_drop (m + 1) (cs.take n), List.take_take, List.drop_take,
      Nat.min_eq_left hmn, List.take_succ_eq_append_getElem hlt, List.append_assoc,
      List.singleton_append]
  rw [hn, List.flatten_append, pos, List.drop_left, List.flatten_cons, List.take_left]

/-- `c` is the piece at position `p`. -/
def Piece (cs : List (List α)) (p : Nat) (c : List α) : Prop := ∃ m, cs[m]? = some c ∧ p = pos cs m

theorem Piece.concat {cs : List (List α)} {p : Nat} {c : List α} (h : Piece cs p c) (d : List α) :
    Piece (cs ++ [d]) p c := by
  obtain ⟨m, hm, hp⟩ := h
  exact ⟨m, getElem?_concat d hm, by rw [hp, pos_append [d] (Nat.le_of_lt (lt_of_getElem? hm))]⟩

/-- The piece just cut stands at the end of the stream. -/
theorem piece_last (cs : List (List α)) (d : List α) : Piece (cs ++ [d]) cs.flatten.length d :=
  ⟨cs.length, by simp, by rw [pos_append [d] (Nat.le_refl _), pos_length]⟩

/-- A piece of the longer stream was there before or has just been cut. -/
theorem Piece.of_concat {cs : List (List α)} {p : Nat} {c d : List α} (h : Piece (cs ++ [d]) p c) :
    Piece cs p c ∨ (p = cs.flatten.length ∧ c = d) := by
  obtain ⟨m, hm, hp⟩ := h
  by_cases hlt : m < cs.length
  · rw [List.getElem?_append_left hlt] at hm
    rw [pos_append [d] (Nat.le_of_lt hlt)] at hp
    exact Or.inl ⟨m, hm, hp⟩
  · have hlast : m = cs.length := by
      have hbound := lt_of_getElem? hm
      rw [List.length_append, List.length_singleton] at hbound
      omega
    subst hlast
    rw [List.getElem?_concat_length, Option.some.injEq] at hm
    rw [pos_append [d] (Nat.le_refl _), pos_length] at hp
    exact Or.inr ⟨hp, hm.symm⟩

theorem Piece.end_le {cs : List (List α)} {p : Nat} {c : List α} (h : Piece cs p c) :
    p + c.length ≤ cs.flatten.length := by
  obtain ⟨m, hm, rfl⟩ := h
  rw [← pos_succ_of_getElem? hm]
  exact pos_le_total cs _

/-- A piece is the part of the stream at its position. -/
theorem Piece.slice {cs : List (List α)} {p : Nat} {c : List α} (h : Piece cs p c) :
    (cs.flatten.drop p).take c.length = c := by
  obtain ⟨m, hm, rfl⟩ := h
  have hs := slice_piece hm (lt_of_getElem? hm)
  rwa [List.take_length] at hs

/-- Two pieces at one position are the same. -/
theorem Piece.unique {cs : List (List α)} (hne : ∀ c ∈ cs, c ≠ []) {p : Nat} {c d : List α}
    (hc : Piece cs p c) (hd : Piece cs p d) : c = d := by
  obtain ⟨m, hm, hp⟩ := hc
  obtain ⟨n, hn, hp'⟩ := hd
  have heq : m = n := pos_inj hne (Nat.le_of_lt (lt_of_getElem? hm)) (Nat.le_of_lt (lt_of_getElem? hn))
    (by rw [← hp, hp'])
  subst heq
  rw [hm] at hn
  exact Option.some.inj hn

/-- Two pieces at different positions do not meet. -/
theorem Piece.disjoint {cs : List (List α)} {p q : Nat} {c d : List α} (hc : Piece cs p c)
    (hd : Piece cs q d) (hpq : p ≠ q) : p + c.length ≤ q ∨ q + d.length ≤ p := by
  obtain ⟨m, hm, rfl⟩ := hc
  obtain ⟨n, hn, rfl⟩ := hd
  have hmn : m ≠ n := fun h => hpq (by rw [h])
  rw [← pos_succ_of_getElem? hm, ← pos_succ_of_getElem? hn]
  rcases Nat.lt_or_gt_of_ne hmn with hlt | hlt
  · exact Or.inl (pos_mono cs hlt)
  · exact Or.inr (pos_mono cs hlt)

/-! ## Layouts -/

theorem layout_cons {cs : List (List α)} {i : Nat} (h : i < cs.length) :
    layout cs i = (pos cs i, cs[i]) :: layout cs (i + 1) := by
  unfold layout
  rw [List.drop_eq_getElem_cons h, layoutFrom, pos_succ h]

theorem layout_of_ge {cs : List (List α)} {i : Nat} (h : cs.length ≤ i) : layout cs i = [] := by
  unfold layout
  rw [List.drop_of_length_le h, layoutFrom]

theorem layoutFrom_append : ∀ (p : Nat) (cs ds : List (List α)),
    layoutFrom p (cs ++ ds) = layoutFrom p cs ++ layoutFrom (p + cs.flatten.length) ds
  | _, [], _ => by simp [layoutFrom]
  | p, c :: cs, ds => by
    simp only [List.cons_append, layoutFrom, layoutFrom_append _ cs ds, List.flatten_cons,
      List.length_append, Nat.add_assoc]

/-- One more piece goes to the end of the layout. -/
theorem layout_concat {cs : List (List α)} (c : List α) {i : Nat} (h : i ≤ cs.length) :
    layout (cs ++ [c]) i = layout cs i ++ [(cs.flatten.length, c)] := by
  have hsum : pos cs i + (cs.drop i).flatten.length = cs.flatten.length := by
    rw [pos, ← List.length_append, ← List.flatten_append, List.take_append_drop]
  unfold layout
  rw [pos_append [c] h, List.drop_append_of_le_length h, layoutFrom_append, hsum]
  rfl

theorem mem_layout {cs : List (List α)} : ∀ {n i : Nat}, cs.length - i = n → ∀ {p : Nat}
    {c : List α}, (p, c) ∈ layout cs i ↔ ∃ m, i ≤ m ∧ cs[m]? = some c ∧ p = pos cs m
  | 0, i, hn, p, c => by
    rw [layout_of_ge (by omega)]
    simp only [List.not_mem_nil, false_iff]
    rintro ⟨m, hm, hc, _⟩
    obtain ⟨hlt, _⟩ := List.getElem?_eq_some_iff.mp hc
    omega
  | n + 1, i, hn, p, c => by
    have hi : i < cs.length := by omega
    rw [layout_cons hi, List.mem_cons, mem_layout (show cs.length - (i + 1) = n by omega)]
    constructor
    · rintro (h | ⟨m, hm, hc, hp⟩)
      · obtain ⟨rfl, rfl⟩ := Prod.mk.inj h
        exact ⟨i, Nat.le_refl i, List.getElem?_eq_getElem hi, rfl⟩
      · exact ⟨m, by omega, hc, hp⟩
    · rintro ⟨m, hm, hc, hp⟩
      rcases Nat.eq_or_lt_of_le hm with rfl | hlt'
      · rw [List.getElem?_eq_getElem hi, Option.some.injEq] at hc
        exact Or.inl (by rw [hp, hc])
      · exact Or.inr ⟨m, hlt', hc, hp⟩

/-- Dropping the pieces below boundary `j` leaves the layout from `j`. -/
theorem filter_layout {cs : List (List α)} (hne : ∀ c ∈ cs, c ≠ []) {j : Nat}
    (hj : j ≤ cs.length) : ∀ {n i : Nat}, j - i = n → i ≤ j →
      (layout cs i).filter (fun e => pos cs j ≤ e.1) = layout cs j
  | 0, i, hn, hij => by
    have : i = j := by omega
    subst this
    refine List.filter_eq_self.mpr fun e he => ?_
    obtain ⟨m, hm, _, hp⟩ := (mem_layout rfl).mp (show (e.1, e.2) ∈ layout cs i from he)
    have := pos_mono cs hm
    simp only [decide_eq_true_eq]
    omega
  | n + 1, i, hn, hij => by
    have hi : i < cs.length := by omega
    have hlt : ¬ pos cs j ≤ pos cs i := by
      have := pos_lt hne (show i < j by omega) hj
      omega
    rw [layout_cons hi, List.filter_cons_of_neg (by simpa using hlt)]
    exact filter_layout hne hj (show j - (i + 1) = n by omega) (by omega)

theorem tiles_layout {cs : List (List α)} (hne : ∀ c ∈ cs, c ≠ []) : ∀ {n i : Nat},
    cs.length - i = n → i ≤ cs.length → Tiles (pos cs i) (layout cs i) cs.flatten.length
  | 0, i, hn, hi => by
    have : i = cs.length := by omega
    subst this
    rw [layout_of_ge (Nat.le_refl _), pos_length]; rfl
  | n + 1, i, hn, hi => by
    have hlt : i < cs.length := by omega
    rw [layout_cons hlt]
    refine ⟨rfl, hne _ (List.getElem_mem hlt), ?_⟩
    rw [← pos_succ hlt]
    exact tiles_layout hne (show cs.length - (i + 1) = n by omega) hlt

/-! ## Tiles on their own -/

theorem Tiles.le : ∀ {a b : Nat} {l : List (Nat × List α)}, Tiles a l b → a ≤ b
  | a, b, [], h => Nat.le_of_eq h
  | a, b, (p, c) :: l, h => by
    have := h.2.2.le
    omega

/-- Every tile lies inside the interval. -/
theorem Tiles.mem : ∀ {a b : Nat} {l : List (Nat × List α)}, Tiles a l b →
    ∀ e ∈ l, a ≤ e.1 ∧ e.1 + e.2.length ≤ b ∧ e.2 ≠ []
  | _, _, [], _, _, he => by cases he
  | a, b, (p, c) :: l, h, e, he => by
    obtain ⟨rfl, hc, hl⟩ := h
    rcases List.mem_cons.mp he with rfl | he
    · exact ⟨Nat.le_refl _, hl.le, hc⟩
    · obtain ⟨h1, h2, h3⟩ := hl.mem e he
      exact ⟨by omega, h2, h3⟩

theorem Tiles.sum : ∀ {a b : Nat} {l : List (Nat × List α)}, Tiles a l b →
    a + (l.map (fun e => e.2.length)).sum = b
  | _, _, [], h => by cases h; rfl
  | a, b, (p, c) :: l, h => by
    have := h.2.2.sum
    simp only [List.map_cons, List.sum_cons]
    omega

/-- Tiles are not empty, so there are no more of them than places. -/
theorem Tiles.length_le : ∀ {a b : Nat} {l : List (Nat × List α)}, Tiles a l b → a + l.length ≤ b
  | _, _, [], h => Nat.le_of_eq h
  | a, b, (p, c) :: l, h => by
    obtain ⟨rfl, hc, hl⟩ := h
    have := hl.length_le
    have := List.length_pos_iff.mpr hc
    simp only [List.length_cons]
    omega

theorem Tiles.concat {c : List α} (hc : c ≠ []) : ∀ {a b : Nat} {l : List (Nat × List α)},
    Tiles a l b → Tiles a (l ++ [(b, c)]) (b + c.length)
  | a, b, [], h => by cases h; exact ⟨rfl, hc, rfl⟩
  | a, b, (p, d) :: l, h => ⟨h.1, h.2.1, h.2.2.concat hc⟩

/-- Dropping the tiles that start below `k` leaves tiles. -/
theorem Tiles.filter_ge (k : Nat) : ∀ {a b : Nat} {l : List (Nat × List α)}, Tiles a l b →
    ∃ a', Tiles a' (l.filter (fun e => k ≤ e.1)) b
  | a, b, [], h => ⟨a, h⟩
  | a, b, (p, c) :: l, h => by
    by_cases hk : k ≤ p
    · have hall : ((p, c) :: l).filter (fun e => k ≤ e.1) = (p, c) :: l := by
        refine List.filter_eq_self.mpr fun e he => ?_
        have := (h.mem e he).1
        have := h.1
        simp only [decide_eq_true_eq]
        omega
      exact ⟨a, by rw [hall]; exact h⟩
    · rw [List.filter_cons_of_neg (by simpa using hk)]
      exact h.2.2.filter_ge k

/-! ## Tiles with gaps -/

/-- Pieces in order inside `a .. b`, possibly with gaps between them. -/
def Gapped : Nat → List (Nat × List α) → Nat → Prop
  | a, [], b => a ≤ b
  | a, (p, c) :: l, b => a ≤ p ∧ Gapped (p + c.length) l b

theorem Gapped.sum_le : ∀ {a b : Nat} {l : List (Nat × List α)}, Gapped a l b →
    a + (l.map (fun e => e.2.length)).sum ≤ b
  | _, _, [], h => by simpa [Gapped] using h
  | a, b, (p, c) :: l, h => by
    have := h.2.sum_le
    have := h.1
    simp only [List.map_cons, List.sum_cons]
    omega

theorem layoutFrom_data : ∀ (p : Nat) (cs : List (List α)), (layoutFrom p cs).map (·.2) = cs
  | _, [] => rfl
  | p, c :: cs => by simp [layoutFrom, layoutFrom_data _ cs]

/-- The stream is its part below a boundary followed by the pieces of the layout. -/
theorem take_append_layout (cs : List (List α)) (i : Nat) :
    cs.flatten.take (pos cs i) ++ ((layout cs i).map (·.2)).flatten = cs.flatten := by
  rw [← flatten_take, layout, layoutFrom_data, ← List.flatten_append, List.take_append_drop]

end Tiling

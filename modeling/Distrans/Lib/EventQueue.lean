import Mathlib.Data.List.Sort
import Mathlib.Tactic.Common

/-!
# Event queues

A priority queue, as the ascending list of its elements under a key, from which everything up to
some bound is taken from time to time.

* `Queued` — what was put in is what was taken out, and then what is left, in ascending order.
* `Queued.push` — it stays so if a new element comes after everything taken out so far.
* `Queued.out_eq` — if exactly the elements up to the bound are out, then they are out in sorted
  order: a function of what was put in and the bound, however often the queue was looked at.
-/

set_option autoImplicit false

namespace EventQueue

variable {α β K : Type} [LinearOrder K] {key : α → K}

/-- Insert by key. -/
def push (key : α → K) (a : α) (q : List α) : List α := q.orderedInsert (fun x y => key x ≤ key y) a

/-- What was put in, by key. -/
def sorted (key : α → K) (l : List α) : List α := l.insertionSort (fun x y => key x ≤ key y)

/-- A queue of images is the image of a queue. -/
theorem map_push {key' : β → K} {f : α → β} (h : ∀ a, key' (f a) = key a) (a : α) (q : List α) :
    (push key a q).map f = push key' (f a) (q.map f) := by
  apply List.map_orderedInsert
  · intro b _
    rw [h, h]
  · intro b _
    rw [h, h]

theorem push_perm (a : α) (q : List α) : (push key a q).Perm (a :: q) :=
  List.perm_orderedInsert _ a q

theorem length_push (a : α) (q : List α) : (push key a q).length = q.length + 1 := by
  rw [(push_perm a q).length_eq, List.length_cons]

theorem mem_push {a b : α} {q : List α} : b ∈ push key a q ↔ b = a ∨ b ∈ q := by
  rw [(push_perm a q).mem_iff, List.mem_cons]

theorem push_ascending {a : α} : ∀ {q : List α}, q.Pairwise (fun x y => key x < key y) →
    (∀ b ∈ q, key b ≠ key a) → (push key a q).Pairwise fun x y => key x < key y
  | [], _, _ => List.pairwise_singleton _ a
  | b :: q, h, hne => by
    obtain ⟨hb, hq⟩ := List.pairwise_cons.mp h
    unfold push
    rw [List.orderedInsert_cons]
    split
    · rename_i hle
      have hab : key a < key b := lt_of_le_of_ne hle (hne b List.mem_cons_self).symm
      refine List.pairwise_cons.mpr ⟨fun c hc => ?_, h⟩
      rcases List.mem_cons.mp hc with rfl | hc
      · exact hab
      · exact hab.trans (hb c hc)
    · rename_i hle
      refine List.pairwise_cons.mpr ⟨fun c hc => ?_,
        push_ascending hq fun c hc => hne c (List.mem_cons_of_mem _ hc)⟩
      rcases mem_push.mp hc with rfl | hc
      · exact not_le.mp hle
      · exact hb c hc

/-- In an ascending list the key determines the element. -/
theorem eq_of_key : ∀ {q : List α}, q.Pairwise (fun x y => key x < key y) → ∀ {x y : α}, x ∈ q →
    y ∈ q → key x = key y → x = y
  | [], _, _, _, hx, _, _ => by cases hx
  | b :: q, h, x, y, hx, hy, hk => by
    obtain ⟨hb, hq⟩ := List.pairwise_cons.mp h
    rcases List.mem_cons.mp hx with rfl | hx'
    · rcases List.mem_cons.mp hy with rfl | hy'
      · rfl
      · exact absurd hk (ne_of_lt (hb y hy'))
    · rcases List.mem_cons.mp hy with rfl | hy'
      · exact absurd hk.symm (ne_of_lt (hb x hx'))
      · exact eq_of_key hq hx' hy' hk

/-- What was put in (`log`) has been taken out (`out`) or is left (`q`), in ascending order. -/
structure Queued (key : α → K) (log out q : List α) : Prop where
  perm : (out ++ q).Perm log
  ascending : (out ++ q).Pairwise fun x y => key x < key y

variable {log out q : List α}

theorem Queued.empty : Queued key [] [] [] := ⟨.refl _, .nil⟩

/-- **A new element after all that is out may be put in.** -/
theorem Queued.push (h : Queued key log out q) {a : α} (hout : ∀ x ∈ out, key x < key a)
    (hq : ∀ x ∈ q, key x ≠ key a) : Queued key (log ++ [a]) out (push key a q) := by
  obtain ⟨hasc_out, hasc_q, hcross⟩ := List.pairwise_append.mp h.ascending
  refine ⟨?_, List.pairwise_append.mpr ⟨hasc_out, push_ascending hasc_q hq, fun x hx y hy => ?_⟩⟩
  · have hfront : (out ++ EventQueue.push key a q).Perm (a :: (out ++ q)) :=
      ((push_perm a q).append_left out).trans List.perm_middle
    exact (hfront.trans (h.perm.cons a)).trans (List.perm_append_singleton a log).symm
  · rcases mem_push.mp hy with rfl | hy
    · exact hout x hx
    · exact hcross x hx y hy

theorem Queued.length_eq (h : Queued key log out q) : out.length + q.length = log.length := by
  rw [← List.length_append, h.perm.length_eq]

/-- **What is out is what was put in up to the bound**, sorted. -/
theorem Queued.out_eq (h : Queued key log out q) {p : α → Bool} (hout : ∀ x ∈ out, p x = true)
    (hq : ∀ x ∈ q, p x = false) : out = sorted key (log.filter p) := by
  have hfilter : (out ++ q).filter p = out := by
    have hnone : q.filter p = [] := List.filter_eq_nil_iff.mpr fun x hx => by rw [hq x hx]; decide
    rw [List.filter_append, List.filter_eq_self.mpr hout, hnone, List.append_nil]
  have hperm : out.Perm (sorted key (log.filter p)) := by
    have := h.perm.filter p
    rw [hfilter] at this
    exact this.trans (List.perm_insertionSort _ _).symm
  have hout_asc : out.Pairwise fun x y => key x < key y := (List.pairwise_append.mp h.ascending).1
  have : Std.Total fun x y : α => key x ≤ key y := ⟨fun x y => le_total (key x) (key y)⟩
  have : IsTrans α fun x y => key x ≤ key y := ⟨fun _ _ _ => le_trans⟩
  refine hperm.eq_of_pairwise (fun x y hx hy hxy hyx => ?_) (hout_asc.imp le_of_lt)
    (List.pairwise_insertionSort _ _)
  exact eq_of_key hout_asc hx (hperm.mem_iff.mpr hy) (le_antisymm hxy hyx)

end EventQueue

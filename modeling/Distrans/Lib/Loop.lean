import Distrans.Lib.Machine

/-!
# Loops

`loop body` runs its body until it breaks with a result; a `for` loop over a list is `foldlM`.

* `Head` — the states of a loop at its head; `Head.keeps` is the rule of the invariant.
* `loop_breaks` — a loop that returns has broken at one of its heads.
* `Lap`, `loop_ends` — **a loop whose turns keep an invariant and use up a variant ends as
  expected**, with a result or with a fault.
* `foldlM_keeps`, `foldlM_kept` — the invariant of a `for` loop, total and partial;
  `mapM_returns`, `mapM_places` — what a `map` collects.
-/

set_option autoImplicit false

namespace Machine

variable {σ ρ : Type}

/-- `loop { body }`: each turn goes on with a new state or breaks with a result. -/
def loop (body : σ → Exec (σ ⊕ ρ)) : Nat → σ → Exec ρ
  | 0, _ => .error .hang
  | fuel + 1, s => do
    match ← body s with
    | .inl s => loop body fuel s
    | .inr r => .ok r

/-- The states at the head of the loop. -/
inductive Head (body : σ → Exec (σ ⊕ ρ)) (s₀ : σ) : σ → Prop
  | start : Head body s₀ s₀
  | turn {s s' : σ} : Head body s₀ s → body s = .ok (.inl s') → Head body s₀ s'

variable {body : σ → Exec (σ ⊕ ρ)} {s₀ s s' : σ}

/-- An invariant holds at every head. -/
theorem Head.keeps {I : σ → Prop} (h : Head body s₀ s) (h₀ : I s₀)
    (hturn : ∀ s s', I s → body s = .ok (.inl s') → I s') : I s := by
  induction h with
  | start => exact h₀
  | turn _ hbody ih => exact hturn _ _ ih hbody

theorem Head.cons (hbody : body s₀ = .ok (.inl s)) (h : Head body s s') : Head body s₀ s' := by
  induction h with
  | start => exact .turn .start hbody
  | turn _ hturn ih => exact .turn ih hturn

theorem loop_breaks : ∀ {fuel : Nat} {s₀ : σ} {r : ρ}, loop body fuel s₀ = .ok r →
    ∃ s, Head body s₀ s ∧ body s = .ok (.inr r)
  | 0, _, _, h => by cases h
  | fuel + 1, s₀, r, h => by
    obtain ⟨x, hx, h⟩ := bind_eq_ok.mp h
    cases x with
    | inl s₁ =>
      obtain ⟨s, hs, hr⟩ := loop_breaks h
      exact ⟨s, hs.cons hx, hr⟩
    | inr r' =>
      cases h
      exact ⟨s₀, .start, hx⟩

/-- What one turn of a loop may do: go on with the invariant and a smaller variant, or end the loop
as expected. -/
inductive Lap (body : σ → Exec (σ ⊕ ρ)) (I : σ → Prop) (variant : σ → Nat)
    (Post : Exec ρ → Prop) (s : σ) : Prop
  | goes {s' : σ} : body s = .ok (.inl s') → I s' → variant s' < variant s →
      Lap body I variant Post s
  | breaks {r : ρ} : body s = .ok (.inr r) → Post (.ok r) → Lap body I variant Post s
  | faults {e : Fault} : body s = .error e → Post (.error e) → Lap body I variant Post s

variable {I : σ → Prop} {variant : σ → Nat} {Post : Exec ρ → Prop}

theorem Lap.keeps (h : Lap body I variant Post s) (hbody : body s = .ok (.inl s')) :
    I s' := by
  cases h with
  | goes h hinv =>
    rw [hbody] at h
    cases h
    exact hinv
  | breaks h | faults h =>
    rw [hbody] at h
    cases h

/-- **A loop whose turns keep the invariant and use up the variant ends as expected.** -/
theorem loop_ends (hturn : ∀ s, I s → Lap body I variant Post s) :
    ∀ {fuel : Nat} {s : σ}, I s → variant s < fuel → Post (loop body fuel s)
  | 0, _, _, hfuel => absurd hfuel (Nat.not_lt_zero _)
  | fuel + 1, s, hinv, hfuel => by
    unfold loop
    cases hturn s hinv with
    | breaks h hpost =>
      rw [h]
      exact hpost
    | faults h hpost =>
      rw [h]
      exact hpost
    | goes h hinv' hlt =>
      rw [h]
      exact loop_ends hturn hinv' (by omega)

/-! ## Loops over a list -/

variable {α : Type} {f : σ → α → Exec σ}

theorem foldlM_keeps : ∀ {l : List α} {s : σ}, I s →
    (∀ s, ∀ x ∈ l, I s → ∃ s', f s x = .ok s' ∧ I s') → ∃ s', l.foldlM f s = .ok s' ∧ I s'
  | [], s, h, _ => ⟨s, rfl, h⟩
  | x :: l, s, h, hstep => by
    obtain ⟨s₁, h₁, hi⟩ := hstep s x List.mem_cons_self h
    obtain ⟨s', h', hi'⟩ := foldlM_keeps hi fun s y hy => hstep s y (List.mem_cons_of_mem _ hy)
    exact ⟨s', by rw [List.foldlM_cons, h₁]; exact h', hi'⟩

theorem foldlM_kept : ∀ {l : List α} {s s' : σ}, I s → l.foldlM f s = .ok s' →
    (∀ s s', ∀ x ∈ l, I s → f s x = .ok s' → I s') → I s'
  | [], _, _, h, hr, _ => by cases hr; exact h
  | x :: l, s, s', h, hr, hstep => by
    rw [List.foldlM_cons] at hr
    obtain ⟨s₁, h₁, hr⟩ := bind_eq_ok.mp hr
    exact foldlM_kept (hstep s s₁ x List.mem_cons_self h h₁) hr
      fun s s' y hy => hstep s s' y (List.mem_cons_of_mem _ hy)

theorem mapM_returns {α β : Type} {f : α → Exec β} {Q : β → Prop} : ∀ {l : List α},
    (∀ x ∈ l, ∃ y, f x = .ok y ∧ Q y) → ∃ r, l.mapM f = .ok r ∧ ∀ y ∈ r, Q y
  | [], _ => ⟨[], rfl, fun _ h => by cases h⟩
  | x :: l, h => by
    obtain ⟨y, hy, hq⟩ := h x List.mem_cons_self
    obtain ⟨r, hr, hall⟩ := mapM_returns fun x hx => h x (List.mem_cons_of_mem _ hx)
    refine ⟨y :: r, ?_, fun y' hy' => ?_⟩
    · rw [List.mapM_cons]
      exact bind_eq_ok.mpr ⟨y, hy, bind_eq_ok.mpr ⟨r, hr, rfl⟩⟩
    · rcases List.mem_cons.mp hy' with rfl | hy'
      · exact hq
      · exact hall y' hy'

/-- What is collected stands in the places of what it comes from. -/
theorem mapM_places {α β : Type} {f : α → Exec β} : ∀ {l : List α} {r : List β},
    l.mapM f = .ok r →
    r.length = l.length ∧ ∀ (i : Nat) (y : β), r[i]? = some y → ∃ x, l[i]? = some x ∧ f x = .ok y
  | [], _, h => by
    cases h
    exact ⟨rfl, fun i y hy => by cases hy⟩
  | x :: l, _, h => by
    rw [List.mapM_cons] at h
    obtain ⟨y, hy, h⟩ := bind_eq_ok.mp h
    obtain ⟨r, hr, h⟩ := bind_eq_ok.mp h
    cases h
    obtain ⟨hlen, hplaces⟩ := mapM_places hr
    refine ⟨congrArg (· + 1) hlen, fun i y' hy' => ?_⟩
    cases i with
    | zero =>
      cases hy'
      exact ⟨x, rfl, hy⟩
    | succ i => exact hplaces i y' hy'

end Machine

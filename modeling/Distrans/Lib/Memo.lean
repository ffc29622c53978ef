import Mathlib.Data.List.Dedup
import Mathlib.Data.List.Induction

/-!
# Answering each key once

Requests come with keys, and a stateful function is run on the first request of each key only.
`firsts` is the list of these requests, in order; `thread` runs a stateful function over a list.

* `firsts_mono` — what comes later does not change what was first;
* `firsts_concat_old`, `firsts_concat_new` — one more request;
* `length_firsts` — as many runs as there are different keys.
-/

set_option autoImplicit false

namespace Machine

variable {ρ κ ν τ : Type}

/-! ## First requests -/

section Firsts

variable [DecidableEq κ] (key : ρ → κ)

/-- The first request of each key, in order. -/
def firsts (rs : List ρ) : List ρ :=
  rs.foldl (fun seen r => if key r ∈ seen.map key then seen else seen ++ [r]) []

variable {key} {rs ts : List ρ} {r : ρ}

@[simp] theorem firsts_nil : firsts key [] = [] := rfl

theorem firsts_concat : firsts key (rs ++ [r]) =
    if key r ∈ (firsts key rs).map key then firsts key rs else firsts key rs ++ [r] := by
  rw [firsts, List.foldl_append]
  rfl

/-- The keys of the first requests are those of all requests. -/
theorem mem_keys_firsts {k : κ} : k ∈ (firsts key rs).map key ↔ k ∈ rs.map key := by
  induction rs using List.reverseRecOn with
  | nil => simp
  | append_singleton rs r ih =>
    rw [firsts_concat]
    split
    · rename_i hold
      rw [List.map_append, List.mem_append, ← ih]
      constructor
      · exact Or.inl
      · rintro (h | h)
        · exact h
        · rw [List.map_singleton, List.mem_singleton] at h
          rw [h]
          exact hold
    · rw [List.map_append, List.mem_append, List.map_append, List.mem_append, ih]

theorem firsts_concat_old (h : key r ∈ rs.map key) : firsts key (rs ++ [r]) = firsts key rs := by
  rw [firsts_concat, if_pos (mem_keys_firsts.mpr h)]

theorem firsts_concat_new (h : key r ∉ rs.map key) : firsts key (rs ++ [r]) = firsts key rs ++ [r] := by
  rw [firsts_concat, if_neg (mt mem_keys_firsts.mp h)]

/-- Requests with keys that have occurred are no first requests. -/
theorem firsts_append_old (h : ∀ t ∈ ts, key t ∈ rs.map key) :
    firsts key (rs ++ ts) = firsts key rs := by
  induction ts using List.reverseRecOn with
  | nil => rw [List.append_nil]
  | append_singleton ts t ih =>
    have ht : key t ∈ (rs ++ ts).map key := by
      rw [List.map_append]
      exact List.mem_append_left _ (h t (by simp))
    rw [← List.append_assoc, firsts_concat_old ht]
    exact ih fun t' ht' => h t' (List.mem_append_left _ ht')

/-- **What comes later does not change what was first.** -/
theorem firsts_mono (h : rs <+: ts) : firsts key rs <+: firsts key ts := by
  obtain ⟨more, rfl⟩ := h
  induction more using List.reverseRecOn with
  | nil => simp
  | append_singleton more r ih =>
    rw [← List.append_assoc, firsts_concat]
    split
    · exact ih
    · exact ih.trans (List.prefix_append _ _)

theorem firsts_nodup : ((firsts key rs).map key).Nodup := by
  induction rs using List.reverseRecOn with
  | nil => simp
  | append_singleton rs r ih =>
    rw [firsts_concat]
    split
    · exact ih
    · rename_i hnew
      rw [List.map_append, List.map_singleton, List.nodup_append]
      exact ⟨ih, by simp, by simpa using hnew⟩

/-- **One run for each of the different keys.** -/
theorem length_firsts : (firsts key rs).length = (rs.map key).dedup.length := by
  have hperm : ((firsts key rs).map key).Perm (rs.map key).dedup := by
    rw [List.perm_ext_iff_of_nodup firsts_nodup (List.nodup_dedup _)]
    intro k
    rw [mem_keys_firsts, List.mem_dedup]
  rw [← hperm.length_eq, List.length_map]

end Firsts

/-! ## Stateful functions -/

/-- A stateful function, applied to one argument after another. -/
def thread (f : ρ → τ → ν × τ) : List ρ → τ → List ν × τ
  | [], t => ([], t)
  | r :: rs, t =>
    let tail := thread f rs (f r t).2
    ((f r t).1 :: tail.1, tail.2)

theorem thread_concat (f : ρ → τ → ν × τ) (r : ρ) : ∀ (rs : List ρ) (t : τ),
    thread f (rs ++ [r]) t =
      ((thread f rs t).1 ++ [(f r (thread f rs t).2).1], (f r (thread f rs t).2).2)
  | [], _ => rfl
  | _ :: rs, _ => by
    rw [List.cons_append, thread, thread_concat f r rs]
    rfl

/-- Functions that answer alike in related states, answer alike all along. -/
theorem thread_simulates {υ : Type} {f : ρ → τ → ν × τ} {g : ρ → υ → ν × υ} {R : τ → υ → Prop}
    (hstep : ∀ r t u, R t u → (f r t).1 = (g r u).1 ∧ R (f r t).2 (g r u).2) :
    ∀ (rs : List ρ) {t : τ} {u : υ}, R t u →
      (thread f rs t).1 = (thread g rs u).1 ∧ R (thread f rs t).2 (thread g rs u).2
  | [], _, _, h => ⟨rfl, h⟩
  | r :: rs, t, u, h => by
    obtain ⟨hans, hnext⟩ := hstep r t u h
    obtain ⟨hrest, hlast⟩ := thread_simulates hstep rs hnext
    exact ⟨congrArg₂ List.cons hans hrest, hlast⟩

end Machine

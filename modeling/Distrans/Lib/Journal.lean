import Mathlib.Tactic.Common

/-!
# Stamped journals

A journal is a list of messages, each stamped with the time at which it was put out, oldest
first.  A classification `kind` says which item a message is a copy of, if any; `times` are the
stamps of the copies of one item.  A batch put out at once adds to the times of an item one stamp
for each copy in it.
-/

set_option autoImplicit false

namespace Journal

variable {T α κ : Type} [DecidableEq κ] {kind : α → Option κ} {i : κ} {t : T} {batch : List α}
  {log log' : List (T × α)}

/-- A batch of messages put out at one time. -/
def stamp (t : T) (batch : List α) : List (T × α) := batch.map fun d => (t, d)

@[simp] theorem stamp_nil (t : T) : stamp t ([] : List α) = [] := rfl

theorem stamp_append (t : T) (batch batch' : List α) :
    stamp t (batch ++ batch') = stamp t batch ++ stamp t batch' := List.map_append

@[simp] theorem map_stamp (t : T) (batch : List α) : (stamp t batch).map (·.2) = batch := by
  simp [stamp, Function.comp_def]

/-- When the copies of an item were put out. -/
def times (kind : α → Option κ) (i : κ) (log : List (T × α)) : List T :=
  (log.filter fun e => kind e.2 = some i).map (·.1)

@[simp] theorem times_nil (kind : α → Option κ) (i : κ) : times kind i ([] : List (T × α)) = [] := rfl

theorem times_append (kind : α → Option κ) (i : κ) (log log' : List (T × α)) :
    times kind i (log ++ log') = times kind i log ++ times kind i log' := by
  simp [times]

theorem times_stamp (kind : α → Option κ) (i : κ) (t : T) (batch : List α) :
    times kind i (stamp t batch) = (batch.filter fun d => kind d = some i).map fun _ => t := by
  simp [times, stamp, List.filter_map, Function.comp_def]

/-- A batch without a copy of the item. -/
theorem times_stamp_of_not_mem (h : ∀ d ∈ batch, kind d ≠ some i) :
    times kind i (stamp t batch) = [] := by
  rw [times_stamp, List.filter_eq_nil_iff.mpr (by simpa using h)]
  rfl

/-- A single copy. -/
theorem times_stamp_single {d : α} (h : kind d = some i) : times kind i (stamp t [d]) = [t] := by
  simp [times_stamp, h]

/-- How many copies a journal has does not depend on the stamps. -/
theorem length_times (kind : α → Option κ) (i : κ) (log : List (T × α)) :
    (times kind i log).length = ((log.map (·.2)).filter fun d => kind d = some i).length := by
  simp [times, List.filter_map, Function.comp_def]

theorem mem_of_mem_times {s : T} (h : s ∈ times kind i log) : ∃ d, (s, d) ∈ log := by
  obtain ⟨⟨s', d⟩, he, rfl⟩ := List.mem_map.mp h
  exact ⟨d, (List.mem_filter.mp he).1⟩

/-- An item that has never been put out so far is put out once. -/
theorem times_first {d : α} (h : times kind i log = []) (hd : kind d = some i) :
    times kind i (log ++ stamp t [d]) = [t] := by
  rw [times_append, h, times_stamp_single hd, List.nil_append]

end Journal

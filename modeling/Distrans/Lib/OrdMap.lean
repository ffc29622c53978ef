import Distrans.Lib.Machine

/-!
# Ordered maps

A map kept as the list of its entries in strictly ascending key order; the order is a field,
so an unsorted map cannot be built.  The operations are those of a standard ordered map:
`insert`, `erase`, `get?`, the range queries `below` and `firstFrom`, and the in-place updates
`mapFirst`, `mapRange` (a closed key range, which faults when its bounds are in the wrong
order) and `mapM` (every value, with a computation that may fault).

Each operation comes with the description of its entries: by membership (`mem_insert`,
`mem_erase`, …), or as an equation on the list where callers reason about the order
(`entries_insert_of_gt`, `entries_eraseAll`, …).
-/

set_option autoImplicit false

open Machine

namespace OrdMap

variable {K V W : Type}

/-! ## Updating every value of an entry list -/

def entriesM (f : K → V → Exec W) : List (K × V) → Exec (List (K × W))
  | [] => .ok []
  | (k, v) :: es =>
    match f k v with
    | .error e => .error e
    | .ok v' =>
      match entriesM f es with
      | .error e => .error e
      | .ok es' => .ok ((k, v') :: es')

/-- What a successful `entriesM` does to each entry. -/
inductive EntriesRel (R : K → V → W → Prop) : List (K × V) → List (K × W) → Prop
  | nil : EntriesRel R [] []
  | cons {k : K} {v : V} {v' : W} {es : List (K × V)} {es' : List (K × W)} :
      R k v v' → EntriesRel R es es' → EntriesRel R ((k, v) :: es) ((k, v') :: es')

theorem EntriesRel.refl {R : K → V → V → Prop} (h : ∀ k v, R k v v) :
    ∀ es : List (K × V), EntriesRel R es es
  | [] => .nil
  | (k, v) :: es => .cons (h k v) (EntriesRel.refl h es)

theorem EntriesRel.imp {R S : K → V → W → Prop} (h : ∀ k v v', R k v v' → S k v v')
    {es : List (K × V)} {es' : List (K × W)} (hr : EntriesRel R es es') : EntriesRel S es es' := by
  induction hr with
  | nil => exact .nil
  | cons hv _ ih => exact .cons (h _ _ _ hv) ih

/-- One update after another. -/
theorem EntriesRel.trans_mem {R : K → V → W → Prop} {S : K → W → W → Prop} {T : K → V → W → Prop}
    {es : List (K × V)} {es₁ es₂ : List (K × W)} (hr : EntriesRel R es es₁)
    (hs : EntriesRel S es₁ es₂)
    (h : ∀ k v v₁ v₂, (k, v₁) ∈ es₁ → R k v v₁ → S k v₁ v₂ → T k v v₂) : EntriesRel T es es₂ := by
  induction hr generalizing es₂ with
  | nil => cases hs; exact .nil
  | cons hv _ ih =>
    cases hs with
    | cons hw hs =>
      exact .cons (h _ _ _ _ List.mem_cons_self hv hw)
        (ih hs fun k v v₁ v₂ hm => h k v v₁ v₂ (List.mem_cons_of_mem _ hm))

theorem EntriesRel.keys {R : K → V → W → Prop} {es : List (K × V)} {es' : List (K × W)}
    (h : EntriesRel R es es') : es'.map (·.1) = es.map (·.1) := by
  induction h with
  | nil => rfl
  | cons _ _ ih => simp [ih]

theorem EntriesRel.eq_nil {R : K → V → W → Prop} {es : List (K × V)} {es' : List (K × W)}
    (h : EntriesRel R es es') (hnil : es = []) : es' = [] := by
  subst hnil
  cases h; rfl

theorem EntriesRel.nil_iff {R : K → V → W → Prop} {es : List (K × V)} {es' : List (K × W)}
    (h : EntriesRel R es es') : es' = [] ↔ es = [] := by
  refine ⟨?_, h.eq_nil⟩
  rintro rfl
  cases h; rfl

/-- Every new entry comes from the old entry with its key. -/
theorem EntriesRel.mem {R : K → V → W → Prop} {es : List (K × V)} {es' : List (K × W)}
    (h : EntriesRel R es es') {k : K} {v' : W} (hm : (k, v') ∈ es') :
    ∃ v, (k, v) ∈ es ∧ R k v v' := by
  induction h with
  | nil => cases hm
  | cons hr _ ih =>
    rcases List.mem_cons.mp hm with heq | hm
    · cases heq; exact ⟨_, List.mem_cons_self, hr⟩
    · obtain ⟨v, hv, hR⟩ := ih hm
      exact ⟨v, List.mem_cons_of_mem _ hv, hR⟩

/-- Every old entry has a new one. -/
theorem EntriesRel.mem_left {R : K → V → W → Prop} {es : List (K × V)} {es' : List (K × W)}
    (h : EntriesRel R es es') {k : K} {v : V} (hm : (k, v) ∈ es) :
    ∃ v', (k, v') ∈ es' ∧ R k v v' := by
  induction h with
  | nil => cases hm
  | cons hr _ ih =>
    rcases List.mem_cons.mp hm with heq | hm
    · cases heq; exact ⟨_, List.mem_cons_self, hr⟩
    · obtain ⟨v', hv, hR⟩ := ih hm
      exact ⟨v', List.mem_cons_of_mem _ hv, hR⟩

theorem EntriesRel.map_eq {β : Type} {R : K → V → W → Prop} {es : List (K × V)}
    {es' : List (K × W)} (h : EntriesRel R es es') (f : K × V → β) (g : K × W → β)
    (hfg : ∀ k v v', R k v v' → g (k, v') = f (k, v)) : es'.map g = es.map f := by
  induction h with
  | nil => rfl
  | cons hr _ ih => simp [ih, hfg _ _ _ hr]

theorem entriesM_rel {f : K → V → Exec W} : ∀ {es : List (K × V)} {es' : List (K × W)},
    entriesM f es = .ok es' → EntriesRel (fun k v v' => f k v = .ok v') es es'
  | [], _, h => by cases h; exact .nil
  | (k, v) :: es, _, h => by
    simp only [entriesM] at h
    split at h
    · cases h
    · rename_i v' hv
      split at h
      · cases h
      · rename_i es' hes
        cases h
        exact .cons hv (entriesM_rel hes)

theorem entriesM_ok {f : K → V → Exec W} : ∀ {es : List (K × V)},
    (∀ e ∈ es, ∃ w, f e.1 e.2 = .ok w) → ∃ es', entriesM f es = .ok es'
  | [], _ => ⟨[], rfl⟩
  | (k, v) :: es, h => by
    obtain ⟨w, hw⟩ := h _ List.mem_cons_self
    obtain ⟨es', hes⟩ := entriesM_ok fun e he => h e (List.mem_cons_of_mem _ he)
    exact ⟨(k, w) :: es', by simp only [entriesM, hw, hes]⟩

end OrdMap

/-- A finite map, as its entries in ascending key order. -/
structure OrdMap (K V : Type) [LinearOrder K] where
  entries : List (K × V)
  sorted : (entries.map (·.1)).Pairwise (· < ·)

namespace OrdMap

variable {K V W : Type} [LinearOrder K]

@[ext] theorem ext {m n : OrdMap K V} (h : m.entries = n.entries) : m = n := by
  cases m; cases n; cases h; rfl

def empty : OrdMap K V := ⟨[], List.Pairwise.nil⟩

@[simp] theorem entries_empty : (empty : OrdMap K V).entries = [] := rfl

def isEmpty (m : OrdMap K V) : Bool := m.entries.isEmpty

def values (m : OrdMap K V) : List V := m.entries.map (·.2)

theorem isEmpty_iff {m : OrdMap K V} : m.isEmpty = true ↔ m.entries = [] := by
  simp [isEmpty]

theorem exists_head {m : OrdMap K V} (h : m.isEmpty = false) : ∃ e, e ∈ m.entries.head? := by
  obtain ⟨es, hs⟩ := m
  cases es with
  | nil => cases h
  | cons e es => exact ⟨e, rfl⟩

/-! ## Sorted lists of entries -/

theorem key_lt_of_cons {e : K × V} {es : List (K × V)}
    (h : ((e :: es).map (·.1)).Pairwise (· < ·)) {a : K × V} (ha : a ∈ es) : e.1 < a.1 := by
  rw [List.map_cons, List.pairwise_cons] at h
  exact h.1 _ (List.mem_map_of_mem ha)

theorem tail_sorted {e : K × V} {es : List (K × V)}
    (h : ((e :: es).map (·.1)).Pairwise (· < ·)) : (es.map (·.1)).Pairwise (· < ·) := by
  rw [List.map_cons, List.pairwise_cons] at h
  exact h.2

theorem filter_sorted (p : K × V → Bool) {es : List (K × V)}
    (h : (es.map (·.1)).Pairwise (· < ·)) : ((es.filter p).map (·.1)).Pairwise (· < ·) :=
  h.sublist (List.filter_sublist.map _)

/-- A key occurs in one entry only. -/
theorem mem_unique {m : OrdMap K V} {k : K} {v v' : V} (h : (k, v) ∈ m.entries)
    (h' : (k, v') ∈ m.entries) : v = v' := by
  obtain ⟨es, hs⟩ := m
  simp only at h h'
  induction es with
  | nil => cases h
  | cons e es ih =>
    rcases List.mem_cons.mp h with h1 | h1 <;> rcases List.mem_cons.mp h' with h2 | h2
    · rw [← h1] at h2; exact (Prod.mk.inj h2).2.symm
    · have := key_lt_of_cons hs h2
      rw [← h1] at this; exact absurd this (lt_irrefl k)
    · have := key_lt_of_cons hs h1
      rw [← h2] at this; exact absurd this (lt_irrefl k)
    · exact ih (tail_sorted hs) h1 h2

theorem mem_unique_key {m : OrdMap K V} {e e' : K × V} (h : e ∈ m.entries) (h' : e' ∈ m.entries)
    (hkey : e.1 = e'.1) : e.2 = e'.2 :=
  mem_unique (k := e'.1) (by rw [← hkey]; exact h) h'

/-! ## Insertion and removal -/

def insertEntries (k : K) (v : V) : List (K × V) → List (K × V)
  | [] => [(k, v)]
  | e :: es =>
    if k < e.1 then (k, v) :: e :: es
    else if k = e.1 then (k, v) :: es
    else e :: insertEntries k v es

theorem mem_insertEntries {k : K} {v : V} {a : K × V} : ∀ {es : List (K × V)},
    (es.map (·.1)).Pairwise (· < ·) →
    (a ∈ insertEntries k v es ↔ a = (k, v) ∨ (a ∈ es ∧ a.1 ≠ k))
  | [], _ => by simp [insertEntries]
  | e :: es, hs => by
    have hgt : ∀ b ∈ es, e.1 < b.1 := fun b hb => key_lt_of_cons hs hb
    unfold insertEntries
    split
    · rename_i hlt
      have hne : ∀ b ∈ e :: es, b.1 ≠ k := by
        intro b hb
        rcases List.mem_cons.mp hb with rfl | hb
        · exact ne_of_gt hlt
        · exact ne_of_gt (hlt.trans (hgt b hb))
      rw [List.mem_cons]
      exact or_congr_right ⟨fun h => ⟨h, hne a h⟩, fun h => h.1⟩
    · rename_i hlt
      split
      · rename_i heq
        have hne : ∀ b ∈ es, b.1 ≠ k := fun b hb => by rw [heq]; exact ne_of_gt (hgt b hb)
        simp only [List.mem_cons]
        refine or_congr_right ⟨fun h => ⟨Or.inr h, hne a h⟩, ?_⟩
        rintro ⟨rfl | h, hk⟩
        · exact absurd heq.symm hk
        · exact h
      · rename_i hne
        simp only [List.mem_cons, mem_insertEntries (tail_sorted hs)]
        constructor
        · rintro (rfl | rfl | ⟨h, hk⟩)
          · exact Or.inr ⟨Or.inl rfl, fun h => hne h.symm⟩
          · exact Or.inl rfl
          · exact Or.inr ⟨Or.inr h, hk⟩
        · rintro (rfl | ⟨rfl | h, hk⟩)
          · exact Or.inr (Or.inl rfl)
          · exact Or.inl rfl
          · exact Or.inr (Or.inr ⟨h, hk⟩)

theorem insertEntries_sorted {k : K} {v : V} : ∀ {es : List (K × V)},
    (es.map (·.1)).Pairwise (· < ·) → ((insertEntries k v es).map (·.1)).Pairwise (· < ·)
  | [], _ => by simp [insertEntries]
  | e :: es, hs => by
    unfold insertEntries
    split
    · rename_i hlt
      rw [List.map_cons, List.pairwise_cons]
      refine ⟨fun x hx => ?_, hs⟩
      obtain ⟨b, hb, rfl⟩ := List.mem_map.mp hx
      rcases List.mem_cons.mp hb with rfl | hb
      · exact hlt
      · exact hlt.trans (key_lt_of_cons hs hb)
    · split
      · rename_i heq
        rw [List.map_cons] at hs ⊢
        rw [heq]; exact hs
      · rename_i hlt hne
        rw [List.map_cons, List.pairwise_cons]
        refine ⟨fun x hx => ?_, insertEntries_sorted (tail_sorted hs)⟩
        obtain ⟨b, hb, rfl⟩ := List.mem_map.mp hx
        rcases (mem_insertEntries (tail_sorted hs)).mp hb with rfl | ⟨hb, _⟩
        · exact lt_of_le_of_ne (not_lt.mp hlt) (fun h => hne h.symm)
        · exact key_lt_of_cons hs hb

/-- Insert or replace the value at `k`. -/
def insert (m : OrdMap K V) (k : K) (v : V) : OrdMap K V :=
  ⟨insertEntries k v m.entries, insertEntries_sorted m.sorted⟩

theorem mem_insert {m : OrdMap K V} {k : K} {v : V} {a : K × V} :
    a ∈ (m.insert k v).entries ↔ a = (k, v) ∨ (a ∈ m.entries ∧ a.1 ≠ k) :=
  mem_insertEntries m.sorted

theorem entries_nodup (m : OrdMap K V) : m.entries.Nodup := by
  have h : (m.entries.map Prod.fst).Nodup := m.sorted.imp ne_of_lt
  exact h.of_map

/-- Two maps with the same entries are the same map. -/
theorem ext_mem {m n : OrdMap K V} (h : ∀ a, a ∈ m.entries ↔ a ∈ n.entries) : m = n := by
  apply ext
  have hperm : m.entries.Perm n.entries :=
    (List.perm_ext_iff_of_nodup m.entries_nodup n.entries_nodup).mpr h
  refine hperm.eq_of_pairwise ?_ (List.pairwise_map.mp m.sorted) (List.pairwise_map.mp n.sorted)
  intro a b _ _ hab hba
  exact absurd hab (lt_asymm hba)

/-- The entries, in whatever order. -/
theorem entries_perm {m : OrdMap K V} {es : List (K × V)} (hn : es.Nodup)
    (h : ∀ a, a ∈ m.entries ↔ a ∈ es) : m.entries.Perm es :=
  (List.perm_ext_iff_of_nodup m.entries_nodup hn).mpr h

/-- One entry at most has a given key. -/
theorem filter_key {m : OrdMap K V} {k : K} {v : V} (h : (k, v) ∈ m.entries) :
    (m.entries.filter fun e => e.1 = k) = [(k, v)] := by
  refine List.perm_singleton.mp ((List.perm_ext_iff_of_nodup (m.entries_nodup.filter _)
    (List.nodup_singleton _)).mpr fun a => ?_)
  rw [List.mem_filter, List.mem_singleton, decide_eq_true_eq]
  constructor
  · rintro ⟨ha, hk⟩
    have ha' : (k, a.2) ∈ m.entries := by rw [← hk]; exact ha
    rw [mem_unique h ha', ← hk]
  · rintro rfl
    exact ⟨h, rfl⟩

/-- Inserts of different keys commute. -/
theorem insert_comm (m : OrdMap K V) {k k' : K} (v v' : V) (h : k ≠ k') :
    (m.insert k v).insert k' v' = (m.insert k' v').insert k v := by
  apply ext_mem
  intro a
  simp only [mem_insert]
  constructor
  · rintro (rfl | ⟨rfl | ⟨ha, hk⟩, hk'⟩)
    · exact Or.inr ⟨Or.inl rfl, fun h' => h h'.symm⟩
    · exact Or.inl rfl
    · exact Or.inr ⟨Or.inr ⟨ha, hk'⟩, hk⟩
  · rintro (rfl | ⟨rfl | ⟨ha, hk'⟩, hk⟩)
    · exact Or.inr ⟨Or.inl rfl, h⟩
    · exact Or.inl rfl
    · exact Or.inr ⟨Or.inr ⟨ha, hk⟩, hk'⟩

/-- A key above all others goes to the end. -/
theorem entries_insert_of_gt {m : OrdMap K V} {k : K} {v : V} (h : ∀ e ∈ m.entries, e.1 < k) :
    (m.insert k v).entries = m.entries ++ [(k, v)] := by
  show insertEntries k v m.entries = _
  generalize m.entries = es at h
  induction es with
  | nil => rfl
  | cons e es ih =>
    have he : e.1 < k := h e List.mem_cons_self
    simp only [insertEntries, not_lt.mpr he.le, ne_of_gt he, if_false, List.cons_append]
    rw [ih fun a ha => h a (List.mem_cons_of_mem _ ha)]

def get? (m : OrdMap K V) (k : K) : Option V := (m.entries.find? (·.1 == k)).map (·.2)

theorem get?_of_mem {m : OrdMap K V} {k : K} {v : V} (h : (k, v) ∈ m.entries) :
    m.get? k = some v := by
  unfold get?
  cases hf : m.entries.find? (·.1 == k) with
  | none =>
    have := List.find?_eq_none.mp hf (k, v) h
    simp at this
  | some e =>
    have hk : e.1 = k := by simpa using List.find?_some hf
    have he : (k, e.2) ∈ m.entries := by rw [← hk]; exact List.mem_of_find?_eq_some hf
    simp [mem_unique he h]

theorem mem_of_get? {m : OrdMap K V} {k : K} {v : V} (h : m.get? k = some v) :
    (k, v) ∈ m.entries := by
  obtain ⟨e, he, rfl⟩ := Option.map_eq_some_iff.mp h
  have hk : e.1 = k := by simpa using List.find?_some he
  rw [← hk]
  exact List.mem_of_find?_eq_some he

theorem get?_eq_some {m : OrdMap K V} {k : K} {v : V} :
    m.get? k = some v ↔ (k, v) ∈ m.entries := ⟨mem_of_get?, get?_of_mem⟩

theorem get?_eq_none {m : OrdMap K V} {k : K} : m.get? k = none ↔ ∀ v, (k, v) ∉ m.entries := by
  rw [Option.eq_none_iff_forall_ne_some]
  exact forall_congr' fun v => not_congr get?_eq_some

def erase (m : OrdMap K V) (k : K) : OrdMap K V :=
  ⟨m.entries.filter (·.1 ≠ k), filter_sorted _ m.sorted⟩

theorem mem_erase {m : OrdMap K V} {k : K} {a : K × V} :
    a ∈ (m.erase k).entries ↔ a ∈ m.entries ∧ a.1 ≠ k := by
  simp [erase, List.mem_filter]

/-- Erasing a key that occurs makes the map smaller. -/
theorem length_erase_lt {m : OrdMap K V} {e : K × V} (h : e ∈ m.entries) :
    (m.erase e.1).entries.length < m.entries.length := by
  apply List.length_filter_lt_length_iff_exists.mpr
  exact ⟨e, h, by simp⟩

/-- A sum over the entries splits off the erased one. -/
theorem sum_erase {m : OrdMap K V} {k : K} {v : V} (f : K × V → Nat) (h : (k, v) ∈ m.entries) :
    ((m.erase k).entries.map f).sum + f (k, v) = (m.entries.map f).sum := by
  obtain ⟨es, hs⟩ := m
  show ((es.filter (·.1 ≠ k)).map f).sum + _ = (es.map f).sum
  simp only at h
  induction es with
  | nil => cases h
  | cons e es ih =>
    have hgt : ∀ a ∈ es, e.1 < a.1 := fun a ha => key_lt_of_cons hs ha
    rcases List.mem_cons.mp h with rfl | h'
    · have hkeep : es.filter (·.1 ≠ k) = es :=
        List.filter_eq_self.mpr fun a ha => by simpa using (hgt a ha).ne'
      rw [List.filter_cons_of_neg (by simp), hkeep, List.map_cons, List.sum_cons, Nat.add_comm]
    · have hne : e.1 ≠ k := (hgt _ h').ne
      rw [List.filter_cons_of_pos (by simpa using hne), List.map_cons, List.map_cons,
        List.sum_cons, List.sum_cons, ← ih (tail_sorted hs) h']
      omega

/-- An insertion adds the new entry at most. -/
theorem sum_insert_le (m : OrdMap K V) (k : K) (v : V) (f : K × V → Nat) :
    ((m.insert k v).entries.map f).sum ≤ (m.entries.map f).sum + f (k, v) := by
  show ((insertEntries k v m.entries).map f).sum ≤ _
  generalize m.entries = es
  induction es with
  | nil => simp [insertEntries]
  | cons e es ih =>
    unfold insertEntries
    split
    · simp only [List.map_cons, List.sum_cons]; omega
    · split
      · simp only [List.map_cons, List.sum_cons]; omega
      · simp only [List.map_cons, List.sum_cons]; omega

/-! ## Range queries -/

/-- The keys below `k`, ascending. -/
def below (m : OrdMap K V) (k : K) : List K := (m.entries.filter (·.1 < k)).map (·.1)

/-- The first entry at or above `k`. -/
def firstFrom (m : OrdMap K V) (k : K) : Option (K × V) := m.entries.find? (fun e => k ≤ e.1)

theorem firstFrom_some {m : OrdMap K V} {k : K} {e : K × V} (h : m.firstFrom k = some e) :
    e ∈ m.entries ∧ k ≤ e.1 ∧ ∀ a ∈ m.entries, k ≤ a.1 → e.1 ≤ a.1 := by
  refine ⟨List.mem_of_find?_eq_some h, by simpa using List.find?_some h, ?_⟩
  obtain ⟨es, hs⟩ := m
  simp only [firstFrom] at h ⊢
  induction es with
  | nil => intro a ha; cases ha
  | cons b es ih =>
    intro a ha hk
    rw [List.find?_cons] at h
    split at h
    · cases h
      rcases List.mem_cons.mp ha with rfl | ha
      · exact le_refl _
      · exact (key_lt_of_cons hs ha).le
    · rename_i hb
      rcases List.mem_cons.mp ha with rfl | ha
      · simp [hk] at hb
      · exact ih (tail_sorted hs) h a ha hk

theorem firstFrom_none {m : OrdMap K V} {k : K} (h : m.firstFrom k = none) :
    ∀ a ∈ m.entries, a.1 < k := by
  intro a ha
  have := List.find?_eq_none.mp h a ha
  simpa using this

/-- A new key adds an entry. -/
theorem entries_insert_perm {m : OrdMap K V} {k : K} {v : V} (h : ∀ v', (k, v') ∉ m.entries) :
    (m.insert k v).entries.Perm ((k, v) :: m.entries) := by
  apply entries_perm (List.nodup_cons.mpr ⟨h v, m.entries_nodup⟩)
  intro a
  rw [mem_insert, List.mem_cons]
  constructor
  · exact Or.imp_right And.left
  · rintro (ha | ha)
    · exact Or.inl ha
    · refine Or.inr ⟨ha, ?_⟩
      rintro rfl
      exact h a.2 ha

/-- Removing a key takes its entry away. -/
theorem entries_erase_perm {m : OrdMap K V} {k : K} {v : V} (h : (k, v) ∈ m.entries) :
    m.entries.Perm ((k, v) :: (m.erase k).entries) := by
  apply entries_perm (List.nodup_cons.mpr ⟨fun hm => (mem_erase.mp hm).2 rfl, entries_nodup _⟩)
  intro a
  rw [List.mem_cons, mem_erase]
  constructor
  · intro ha
    by_cases hk : a.1 = k
    · subst hk
      exact Or.inl (Prod.ext rfl (mem_unique ha h))
    · exact Or.inr ⟨ha, hk⟩
  · rintro (rfl | ha)
    · exact h
    · exact ha.1

/-- Remove the keys of a list one after the other. -/
def eraseAll (m : OrdMap K V) (ks : List K) : OrdMap K V := ks.foldl erase m

theorem entries_eraseAll : ∀ (ks : List K) (m : OrdMap K V),
    (m.eraseAll ks).entries = m.entries.filter (·.1 ∉ ks)
  | [], _ => (List.filter_eq_self.mpr fun _ _ => by simp).symm
  | k :: ks, m => by
    show ((m.erase k).eraseAll ks).entries = _
    rw [entries_eraseAll ks (m.erase k)]
    simp only [erase, List.filter_filter]
    congr 1
    funext e
    by_cases h : e.1 = k <;> simp [h]

/-- Removing every key below `k` leaves the entries at or above it. -/
theorem entries_eraseAll_below (m : OrdMap K V) (k : K) :
    (m.eraseAll (m.below k)).entries = m.entries.filter (k ≤ ·.1) := by
  rw [entries_eraseAll]
  apply List.filter_congr
  intro e he
  by_cases h : k ≤ e.1
  · have hn : e.1 ∉ m.below k := by
      intro hm
      obtain ⟨a, ha, hk⟩ := List.mem_map.mp hm
      have := (List.mem_filter.mp ha).2
      rw [hk] at this
      exact absurd (by simpa using this : e.1 < k) (not_lt.mpr h)
    simp [h, hn]
  · have hm : e.1 ∈ m.below k :=
      List.mem_map_of_mem (List.mem_filter.mpr ⟨he, by simpa using h⟩)
    simp [h, hm]

/-! ## Updates in place -/

/-- Change values, keep keys. -/
def mapVals (m : OrdMap K V) (f : K → V → W) : OrdMap K W :=
  ⟨m.entries.map (fun e => (e.1, f e.1 e.2)), by
    rw [List.map_map]; exact m.sorted⟩

theorem entries_mapVals (m : OrdMap K V) (f : K → V → W) :
    (m.mapVals f).entries = m.entries.map (fun e => (e.1, f e.1 e.2)) := rfl

/-- Update the values whose keys lie in `lo ..= hi`; the bounds must be in order, also for a map
    that holds nothing. -/
def mapRange (m : OrdMap K V) (lo hi : K) (f : V → V) : Exec (OrdMap K V) :=
  if hi < lo then .error .rangeOrder
  else .ok (m.mapVals fun k v => if lo ≤ k ∧ k ≤ hi then f v else v)

/-- Update the value at the lowest key. -/
def mapFirst (m : OrdMap K V) (f : V → Exec V) : Exec (OrdMap K V) :=
  match m with
  | ⟨[], h⟩ => .ok ⟨[], h⟩
  | ⟨(k, v) :: es, h⟩ =>
    match f v with
    | .ok v' => .ok ⟨(k, v') :: es, h⟩
    | .error e => .error e

/-- Update every value, in key order. -/
def mapM (m : OrdMap K V) (f : K → V → Exec W) : Exec (OrdMap K W) :=
  match h : entriesM f m.entries with
  | .error e => .error e
  | .ok es => .ok ⟨es, by rw [(entriesM_rel h).keys]; exact m.sorted⟩

theorem mapM_rel {m : OrdMap K V} {m' : OrdMap K W} {f : K → V → Exec W}
    (h : m.mapM f = .ok m') :
    EntriesRel (fun k v v' => f k v = .ok v') m.entries m'.entries := by
  unfold mapM at h
  split at h
  · cases h
  · rename_i es hes
    cases h
    exact entriesM_rel hes

theorem mapFirst_rel {m m' : OrdMap K V} {f : V → Exec V} (h : m.mapFirst f = .ok m') :
    EntriesRel (fun _ v v' => v' = v ∨ f v = .ok v') m.entries m'.entries := by
  obtain ⟨es, hs⟩ := m
  cases es with
  | nil => cases h; exact .nil
  | cons e es =>
    obtain ⟨k, v⟩ := e
    simp only [mapFirst] at h
    split at h
    · rename_i v' hv
      cases h
      exact .cons (Or.inr hv) (.refl (fun _ v => (Or.inl rfl : v = v ∨ f v = .ok v)) es)
    · cases h

/-- The lowest entry is the one updated. -/
theorem mapFirst_cons {m m' : OrdMap K V} {f : V → Exec V} (h : m.mapFirst f = .ok m') {k : K} {v : V}
    {es : List (K × V)} (hm : m.entries = (k, v) :: es) :
    ∃ v', f v = .ok v' ∧ m'.entries = (k, v') :: es := by
  obtain ⟨es', hs⟩ := m
  cases hm
  simp only [mapFirst] at h
  split at h
  · rename_i v' hv
    cases h
    exact ⟨v', hv, rfl⟩
  · cases h

theorem mapFirst_head {m m' : OrdMap K V} {f : V → Exec V} (h : m.mapFirst f = .ok m') {e : K × V}
    (he : e ∈ m.entries.head?) : ∃ v', f e.2 = .ok v' ∧ (e.1, v') ∈ m'.entries.head? := by
  obtain ⟨es, hes⟩ := List.head?_eq_some_iff.mp he
  obtain ⟨v', hv, hm'⟩ := mapFirst_cons h hes
  exact ⟨v', hv, by rw [hm']; rfl⟩

theorem mapRange_rel_if {m m' : OrdMap K V} {lo hi : K} {f : V → V}
    (h : m.mapRange lo hi f = .ok m') :
    EntriesRel (fun k v v' => v' = if lo ≤ k ∧ k ≤ hi then f v else v) m.entries m'.entries := by
  unfold mapRange at h
  split at h
  · cases h
  · cases h
    rw [entries_mapVals]
    induction m.entries with
    | nil => exact .nil
    | cons e es ih => exact .cons rfl ih

theorem mapRange_rel {m m' : OrdMap K V} {lo hi : K} {f : V → V}
    (h : m.mapRange lo hi f = .ok m') :
    EntriesRel (fun k v v' => v' = v ∨ (lo ≤ k ∧ k ≤ hi ∧ v' = f v)) m.entries m'.entries := by
  refine (mapRange_rel_if h).imp fun k v v' hv => ?_
  split at hv
  · rename_i hk; exact Or.inr ⟨hk.1, hk.2, hv⟩
  · exact Or.inl hv

/-- Erasing an absent key changes nothing. -/
theorem erase_of_get?_none {m : OrdMap K V} {k : K} (h : m.get? k = none) : m.erase k = m := by
  apply OrdMap.ext
  refine List.filter_eq_self.mpr fun e he => ?_
  by_contra hk
  have hk' : e.1 = k := by simpa using hk
  have := get?_of_mem (m := m) (k := k) (v := e.2) (by rw [← hk']; exact he)
  rw [h] at this; cases this

/-! ## Updates that return -/

theorem mapRange_ok {m : OrdMap K V} {lo hi : K} (f : V → V) (h : lo ≤ hi) :
    ∃ m', m.mapRange lo hi f = .ok m' := by
  unfold mapRange
  rw [if_neg (not_lt.mpr h)]
  exact ⟨_, rfl⟩

theorem mapRange_le {m m' : OrdMap K V} {lo hi : K} {f : V → V}
    (h : m.mapRange lo hi f = .ok m') : lo ≤ hi := by
  unfold mapRange at h
  split at h
  · cases h
  · rename_i hlt
    exact not_lt.mp hlt

theorem mapM_ok {m : OrdMap K V} {f : K → V → Exec W}
    (h : ∀ e ∈ m.entries, ∃ w, f e.1 e.2 = .ok w) : ∃ m', m.mapM f = .ok m' := by
  obtain ⟨es', hes⟩ := entriesM_ok h
  unfold mapM
  split
  · rename_i e he
    rw [hes] at he; cases he
  · exact ⟨_, rfl⟩

theorem mapFirst_ok {m : OrdMap K V} {f : V → Exec V}
    (h : ∀ e ∈ m.entries.head?, ∃ w, f e.2 = .ok w) : ∃ m', m.mapFirst f = .ok m' := by
  obtain ⟨es, hs⟩ := m
  cases es with
  | nil => exact ⟨_, rfl⟩
  | cons e es =>
    obtain ⟨k, v⟩ := e
    obtain ⟨w, hw⟩ := h (k, v) rfl
    simp only [mapFirst, hw]
    exact ⟨_, rfl⟩

end OrdMap

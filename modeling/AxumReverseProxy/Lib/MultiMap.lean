import Mathlib.Data.List.Dedup

/-!
# Multi-maps

A map from keys to lists of values, kept as the list of its lines `(key, value)`. What a user of the
map can see of a key is `getAll`, its values in the order they were added; every operation is
described by its effect on `getAll` at every key. Lines of different keys may stand in any order.
-/

structure MultiMap (κ ν : Type*) where
  entries : List (κ × ν)
deriving DecidableEq

namespace MultiMap

variable {κ ν : Type*} [DecidableEq κ]

def empty : MultiMap κ ν := ⟨[]⟩

def getAll (m : MultiMap κ ν) (k : κ) : List ν := (m.entries.filter fun e => e.1 = k).map (·.2)

def get (m : MultiMap κ ν) (k : κ) : Option ν := (m.getAll k).head?

def containsKey (m : MultiMap κ ν) (k : κ) : Bool := !(m.getAll k).isEmpty

def append (m : MultiMap κ ν) (k : κ) (v : ν) : MultiMap κ ν := ⟨m.entries ++ [(k, v)]⟩

def remove (m : MultiMap κ ν) (k : κ) : MultiMap κ ν := ⟨m.entries.filter fun e => e.1 ≠ k⟩

def insert (m : MultiMap κ ν) (k : κ) (v : ν) : MultiMap κ ν := (m.remove k).append k v

def restrict (m : MultiMap κ ν) (p : κ → Bool) : MultiMap κ ν := ⟨m.entries.filter fun e => p e.1⟩

/-- Rewrites the values of `k`, keeping its number of lines. -/
def mapValues (m : MultiMap κ ν) (k : κ) (f : ν → ν) : MultiMap κ ν :=
  ⟨m.entries.map fun e => if e.1 = k then (e.1, f e.2) else e⟩

variable {m : MultiMap κ ν} {k j : κ} {v : ν}

@[simp] theorem getAll_empty : (empty : MultiMap κ ν).getAll j = [] := rfl

theorem mem_getAll : v ∈ m.getAll k ↔ (k, v) ∈ m.entries := by
  simp only [getAll, List.mem_map, List.mem_filter, decide_eq_true_eq]
  constructor
  · rintro ⟨⟨_, _⟩, ⟨h, rfl⟩, rfl⟩; exact h
  · intro h; exact ⟨(k, v), ⟨h, rfl⟩, rfl⟩

theorem getAll_append : (m.append k v).getAll j = m.getAll j ++ if k = j then [v] else [] := by
  by_cases h : k = j <;> simp [getAll, append, List.filter_append, h]

@[simp] theorem getAll_append_self : (m.append k v).getAll k = m.getAll k ++ [v] := by
  simp [getAll_append]

theorem getAll_append_ne (h : j ≠ k) : (m.append k v).getAll j = m.getAll j := by
  simp [getAll_append, Ne.symm h]

theorem getAll_restrict (p : κ → Bool) :
    (m.restrict p).getAll j = if p j = true then m.getAll j else [] := by
  simp only [getAll, restrict, List.filter_filter]
  by_cases h : p j = true
  · rw [if_pos h]
    exact congrArg _ (List.filter_congr fun e _ => by by_cases he : e.1 = j <;> simp [he, h])
  · rw [if_neg h, List.map_eq_nil_iff, List.filter_eq_nil_iff]
    intro e _ he
    simp only [Bool.and_eq_true, decide_eq_true_eq] at he
    exact h (he.1 ▸ he.2)

theorem remove_eq_restrict : m.remove k = m.restrict fun j => j ≠ k := rfl

@[simp] theorem getAll_remove_self : (m.remove k).getAll k = [] := by
  simp [remove_eq_restrict, getAll_restrict]

theorem getAll_remove_ne (h : j ≠ k) : (m.remove k).getAll j = m.getAll j := by
  simp [remove_eq_restrict, getAll_restrict, h]

@[simp] theorem getAll_insert_self : (m.insert k v).getAll k = [v] := by simp [insert]

theorem getAll_insert_ne (h : j ≠ k) : (m.insert k v).getAll j = m.getAll j := by
  rw [insert, getAll_append_ne h, getAll_remove_ne h]

theorem getAll_mapValues_self (f : ν → ν) : (m.mapValues k f).getAll k = (m.getAll k).map f := by
  simp only [getAll, mapValues]
  induction m.entries with
  | nil => rfl
  | cons e l ih => by_cases h : e.1 = k <;> simp_all

theorem getAll_mapValues_ne (f : ν → ν) (h : j ≠ k) : (m.mapValues k f).getAll j = m.getAll j := by
  simp only [getAll, mapValues]
  induction m.entries with
  | nil => rfl
  | cons e l ih =>
    by_cases hk : e.1 = k
    · have hj : ¬ e.1 = j := fun hj => h (hj ▸ hk)
      simp_all
    · by_cases hj : e.1 = j <;> simp_all

theorem containsKey_iff : m.containsKey k = true ↔ m.getAll k ≠ [] := by
  simp [containsKey]

theorem containsKey_false_iff : m.containsKey k = false ↔ m.getAll k = [] := by
  simp [containsKey]

theorem get_eq_none_iff : m.get k = none ↔ m.getAll k = [] := by simp [get]

/-! ### Iterating -/

/-- The keys, in the order of their first lines. -/
def keys (m : MultiMap κ ν) : List κ := (m.entries.map (·.1)).reverse.dedup.reverse

/-- The lines, those of a key together. -/
def iter (m : MultiMap κ ν) : List (κ × ν) := m.keys.flatMap fun k => (m.getAll k).map (k, ·)

theorem nodup_keys : m.keys.Nodup := List.nodup_reverse.2 (List.nodup_dedup _)

theorem mem_keys : k ∈ m.keys ↔ m.getAll k ≠ [] := by
  rw [keys, List.mem_reverse, List.mem_dedup, List.mem_reverse, List.mem_map]
  constructor
  · rintro ⟨⟨_, v⟩, he, rfl⟩; exact List.ne_nil_of_mem (mem_getAll.2 he)
  · intro h
    obtain ⟨v, hv⟩ := List.exists_mem_of_ne_nil _ h
    exact ⟨(k, v), mem_getAll.1 hv, rfl⟩

theorem getAll_lines {ks : List κ} (h : ks.Nodup) :
    (⟨ks.flatMap fun k => (m.getAll k).map (k, ·)⟩ : MultiMap κ ν).getAll j =
      if j ∈ ks then m.getAll j else [] := by
  induction ks with
  | nil => rfl
  | cons k ks ih =>
    obtain ⟨hk, hks⟩ := List.nodup_cons.1 h
    have ih := ih hks
    rw [getAll] at ih ⊢
    rw [List.flatMap_cons, List.filter_append, List.map_append, ih]
    by_cases hj : j = k
    · subst hj
      simp [hk, List.filter_map, Function.comp_def]
    · simp [hj, Ne.symm hj, List.filter_map, Function.comp_def]

/-- Iterating loses no line of a key and keeps their order. -/
@[simp] theorem getAll_iter : (⟨m.iter⟩ : MultiMap κ ν).getAll k = m.getAll k := by
  rw [iter, getAll_lines nodup_keys, ite_eq_left_iff]
  intro h
  rw [mem_keys, not_not] at h
  exact h.symm

/-! ### Maps that agree at a key -/

variable {m' : MultiMap κ ν}

theorem get_congr (h : m.getAll k = m'.getAll k) : m.get k = m'.get k := by rw [get, get, h]

theorem containsKey_congr (h : m.getAll k = m'.getAll k) : m.containsKey k = m'.containsKey k := by
  rw [containsKey, containsKey, h]

/-! ### Removing a list of keys -/

theorem getAll_foldl_remove (ks : List κ) (m : MultiMap κ ν) (j : κ) :
    (ks.foldl remove m).getAll j = if j ∈ ks then [] else m.getAll j := by
  induction ks generalizing m with
  | nil => simp
  | cons k ks ih =>
    rw [List.foldl_cons, ih]
    by_cases hks : j ∈ ks
    · simp [hks]
    · by_cases hk : j = k
      · subst hk; simp
      · simp [hks, hk, getAll_remove_ne hk]

/-! ### Copying lines one by one -/

omit [DecidableEq κ] in
theorem foldl_append_eq_restrict (p : κ → Bool) (m : MultiMap κ ν) :
    m.entries.foldl (fun acc e => if p e.1 = true then acc.append e.1 e.2 else acc) empty =
      m.restrict p := by
  have h : ∀ (l : List (κ × ν)) (acc : MultiMap κ ν),
      l.foldl (fun acc e => if p e.1 = true then acc.append e.1 e.2 else acc) acc =
        ⟨acc.entries ++ l.filter fun e => p e.1⟩ := by
    intro l
    induction l with
    | nil => simp
    | cons e l ih =>
      intro acc
      rw [List.foldl_cons, ih]
      by_cases hp : p e.1 = true <;> simp [hp, append]
  rw [h]; simp [empty, restrict]

end MultiMap

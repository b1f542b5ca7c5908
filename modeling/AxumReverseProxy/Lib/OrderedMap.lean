import Mathlib.Data.List.Nodup
import Mathlib.Logic.Function.Basic

/-!
# Insertion-ordered maps

A map that remembers the order in which its keys came: inserting under a key it has keeps the key's
place, inserting under another puts it last. What a reader of the map sees is the list of its
entries; `entries_insert_of_mem`, `entries_insert_of_not_mem` and `entries_remove` say how that
changes. A stream of changes is replayed from the empty map.
-/

inductive Change (κ ν : Type*)
  | insert (key : κ) (value : ν)
  | remove (key : κ)
deriving DecidableEq

namespace Change

variable {κ ν : Type*}

def key : Change κ ν → κ
  | insert k _ | remove k => k

end Change

structure OrderedMap (κ ν : Type*) where
  keys : List κ
  lookup : κ → Option ν
  nodup : keys.Nodup
  mem_keys : ∀ k, k ∈ keys ↔ (lookup k).isSome = true

namespace OrderedMap

variable {κ ν : Type*} [DecidableEq κ]

def empty : OrderedMap κ ν := ⟨[], fun _ => none, List.nodup_nil, by simp⟩

def insert (m : OrderedMap κ ν) (k : κ) (v : ν) : OrderedMap κ ν where
  keys := if k ∈ m.keys then m.keys else m.keys ++ [k]
  lookup := Function.update m.lookup k (some v)
  nodup := by
    split
    · exact m.nodup
    · next h => simpa using m.nodup.concat h
  mem_keys j := by
    by_cases hj : j = k
    · subst hj
      split <;> simp [*]
    · rw [Function.update_of_ne hj, ← m.mem_keys]
      split <;> simp [hj]

def remove (m : OrderedMap κ ν) (k : κ) : OrderedMap κ ν where
  keys := m.keys.filter (· ≠ k)
  lookup := Function.update m.lookup k none
  nodup := m.nodup.filter _
  mem_keys j := by
    by_cases hj : j = k
    · simp [hj]
    · rw [Function.update_of_ne hj, ← m.mem_keys]
      simp [hj]

def apply (m : OrderedMap κ ν) : Change κ ν → OrderedMap κ ν
  | .insert k v => m.insert k v
  | .remove k => m.remove k

def replay (changes : List (Change κ ν)) : OrderedMap κ ν := changes.foldl apply empty

/-- The keys of `ks` that have a value, with it. -/
def entriesOf (lookup : κ → Option ν) (ks : List κ) : List (κ × ν) :=
  ks.filterMap fun k => (lookup k).map fun v => (k, v)

def entries (m : OrderedMap κ ν) : List (κ × ν) := entriesOf m.lookup m.keys

def values (m : OrderedMap κ ν) : List ν := m.entries.map (·.2)

variable {m : OrderedMap κ ν} {k j : κ} {v : ν} {lookup lookup' : κ → Option ν} {ks : List κ}

omit [DecidableEq κ] in
theorem ext {m m' : OrderedMap κ ν} (hk : m.keys = m'.keys) (hl : m.lookup = m'.lookup) : m = m' := by
  cases m; cases m'; cases hk; cases hl; rfl

@[simp] theorem replay_nil : replay ([] : List (Change κ ν)) = empty := rfl

/-! ### Lookups -/

@[simp] theorem lookup_insert_self : (m.insert k v).lookup k = some v := Function.update_self ..

theorem lookup_insert_ne (h : j ≠ k) : (m.insert k v).lookup j = m.lookup j := Function.update_of_ne h ..

@[simp] theorem lookup_remove_self : (m.remove k).lookup k = none := Function.update_self ..

theorem lookup_remove_ne (h : j ≠ k) : (m.remove k).lookup j = m.lookup j := Function.update_of_ne h ..

omit [DecidableEq κ] in
theorem lookup_eq_none_iff : m.lookup k = none ↔ k ∉ m.keys := by
  rw [m.mem_keys, Option.not_isSome_iff_eq_none]

theorem mem_keys_insert : j ∈ (m.insert k v).keys ↔ j = k ∨ j ∈ m.keys := by
  rw [mem_keys, m.mem_keys]
  by_cases h : j = k
  · subst h; simp
  · simp [lookup_insert_ne h, h]

theorem mem_keys_remove : j ∈ (m.remove k).keys ↔ j ≠ k ∧ j ∈ m.keys := by
  rw [mem_keys, m.mem_keys]
  by_cases h : j = k
  · subst h; simp
  · simp [lookup_remove_ne h, h]

/-! ### Entries -/

omit [DecidableEq κ] in
theorem entriesOf_congr (h : ∀ k ∈ ks, lookup k = lookup' k) : entriesOf lookup ks = entriesOf lookup' ks :=
  List.filterMap_congr fun k hk => by rw [h k hk]

omit [DecidableEq κ] in
theorem entriesOf_append (ks' : List κ) :
    entriesOf lookup (ks ++ ks') = entriesOf lookup ks ++ entriesOf lookup ks' :=
  List.filterMap_append ..

omit [DecidableEq κ] in
theorem entriesOf_cons_some (h : lookup k = some v) :
    entriesOf lookup (k :: ks) = (k, v) :: entriesOf lookup ks :=
  List.filterMap_cons_some (by rw [h]; rfl)

omit [DecidableEq κ] in
theorem entriesOf_cons_none (h : lookup k = none) : entriesOf lookup (k :: ks) = entriesOf lookup ks :=
  List.filterMap_cons_none (by rw [h]; rfl)

omit [DecidableEq κ] in
theorem mem_entriesOf {e : κ × ν} : e ∈ entriesOf lookup ks ↔ e.1 ∈ ks ∧ lookup e.1 = some e.2 := by
  simp only [entriesOf, List.mem_filterMap, Option.map_eq_some_iff]
  constructor
  · rintro ⟨k, hk, v, hv, rfl⟩; exact ⟨hk, hv⟩
  · rintro ⟨hk, hv⟩; exact ⟨e.1, hk, e.2, hv, rfl⟩

omit [DecidableEq κ] in
theorem mem_entries {e : κ × ν} : e ∈ m.entries ↔ m.lookup e.1 = some e.2 := by
  rw [entries, mem_entriesOf, and_iff_right_iff_imp]
  intro h
  rw [m.mem_keys, h]; rfl

omit [DecidableEq κ] in
theorem mem_values {v : ν} : v ∈ m.values ↔ ∃ k, m.lookup k = some v := by
  simp only [values, List.mem_map, mem_entries, Prod.exists]
  constructor
  · rintro ⟨k, _, h, rfl⟩; exact ⟨k, h⟩
  · rintro ⟨k, h⟩; exact ⟨k, v, h, rfl⟩

omit [DecidableEq κ] in
/-- One entry for each key, in the order of the keys. -/
theorem map_fst_entries : m.entries.map (·.1) = m.keys := by
  have h : ∀ ks : List κ, (∀ k ∈ ks, (m.lookup k).isSome = true) →
    (entriesOf m.lookup ks).map (·.1) = ks := by
    intro ks hks
    induction ks with
    | nil => rfl
    | cons k ks ih =>
      obtain ⟨v, hv⟩ := Option.isSome_iff_exists.1 (hks k (List.mem_cons_self ..))
      have ih := ih fun j hj => hks j (List.mem_cons_of_mem _ hj)
      rw [entriesOf_cons_some hv, List.map_cons, ih]
  exact h m.keys fun k hk => (m.mem_keys k).1 hk

omit [DecidableEq κ] in
theorem length_values : m.values.length = m.keys.length := by
  rw [values, List.length_map, ← map_fst_entries, List.length_map]

theorem length_values_remove_lt (h : k ∈ m.keys) : (m.remove k).values.length < m.values.length := by
  rw [length_values, length_values]
  exact List.length_filter_lt_length_iff_exists.2 ⟨k, h, by simp⟩

theorem entries_insert_of_mem (h : k ∈ m.keys) :
    ∃ a old b, m.entries = a ++ (k, old) :: b ∧ (m.insert k v).entries = a ++ (k, v) :: b ∧
      k ∉ a.map (·.1) := by
  obtain ⟨old, hold⟩ := Option.isSome_iff_exists.1 ((m.mem_keys k).1 h)
  obtain ⟨a, b, hab⟩ := List.append_of_mem h
  have hnd := m.nodup
  rw [hab, List.nodup_append] at hnd
  obtain ⟨-, hkb, hdisj⟩ := hnd
  have ha : k ∉ a := fun hm => hdisj k hm k (List.mem_cons_self ..) rfl
  have hb : k ∉ b := (List.nodup_cons.1 hkb).1
  have hupd : ∀ l : List κ, k ∉ l → entriesOf (m.insert k v).lookup l = entriesOf m.lookup l :=
    fun l hl => entriesOf_congr fun j hj => lookup_insert_ne (ne_of_mem_of_not_mem hj hl)
  have hk : (m.insert k v).keys = m.keys := if_pos h
  refine ⟨entriesOf m.lookup a, old, entriesOf m.lookup b, ?_, ?_, ?_⟩
  · rw [entries, hab, entriesOf_append, entriesOf_cons_some hold]
  · rw [entries, hk, hab, entriesOf_append, entriesOf_cons_some lookup_insert_self, hupd a ha, hupd b hb]
  · intro hm
    obtain ⟨e, he, rfl⟩ := List.mem_map.1 hm
    exact ha (mem_entriesOf.1 he).1

theorem entries_insert_of_not_mem (h : k ∉ m.keys) : (m.insert k v).entries = m.entries ++ [(k, v)] := by
  have hk : (m.insert k v).keys = m.keys ++ [k] := if_neg h
  rw [entries, hk, entriesOf_append, entries]
  congr 1
  · exact entriesOf_congr fun j hj => lookup_insert_ne (ne_of_mem_of_not_mem hj h)
  · exact entriesOf_cons_some lookup_insert_self

theorem entries_remove : (m.remove k).entries = m.entries.filter fun e => e.1 ≠ k := by
  have h : ∀ ks : List κ, entriesOf (m.remove k).lookup (ks.filter (· ≠ k)) =
      (entriesOf m.lookup ks).filter fun e => e.1 ≠ k := by
    intro ks
    induction ks with
    | nil => rfl
    | cons j ks ih =>
      by_cases hj : j = k
      · subst hj
        rw [List.filter_cons_of_neg (by simp), ih]
        cases hl : m.lookup j with
        | none => rw [entriesOf_cons_none hl]
        | some v => rw [entriesOf_cons_some hl, List.filter_cons_of_neg (by simp)]
      · have hl : (m.remove k).lookup j = m.lookup j := lookup_remove_ne hj
        rw [List.filter_cons_of_pos (by simpa using hj)]
        cases hv : m.lookup j with
        | none => rw [entriesOf_cons_none (hl.trans hv), entriesOf_cons_none hv, ih]
        | some v =>
          rw [entriesOf_cons_some (hl.trans hv), entriesOf_cons_some hv, ih,
            List.filter_cons_of_pos (by simpa using hj)]
  exact h m.keys

theorem remove_of_not_mem (h : k ∉ m.keys) : m.remove k = m := by
  refine ext (List.filter_eq_self.2 fun j hj => by simpa using ne_of_mem_of_not_mem hj h) ?_
  exact Function.update_eq_self_iff.2 (lookup_eq_none_iff.2 h).symm

/-! ### Changes in their time -/

/-- An insert of an absent key, or a removal of a present one. -/
def Apt (m : OrderedMap κ ν) : Change κ ν → Prop
  | .insert k _ => k ∉ m.keys
  | .remove k => k ∈ m.keys

/-- Every change of a stream is apt when its time comes. -/
def AptAll (m : OrderedMap κ ν) : List (Change κ ν) → Prop
  | [] => True
  | c :: cs => m.Apt c ∧ (m.apply c).AptAll cs

theorem aptAll_append {cs cs' : List (Change κ ν)} :
    m.AptAll (cs ++ cs') ↔ m.AptAll cs ∧ (cs.foldl apply m).AptAll cs' := by
  induction cs generalizing m with
  | nil => simp [AptAll]
  | cons c cs ih => rw [List.cons_append, AptAll, AptAll, ih, List.foldl_cons, and_assoc]

theorem AptAll.apt {pre post : List (Change κ ν)} {c : Change κ ν} (h : m.AptAll (pre ++ c :: post)) :
    (pre.foldl apply m).Apt c :=
  (aptAll_append.1 h).2.1

theorem aptAll_remove (hnd : ks.Nodup) (hks : ∀ k ∈ ks, k ∈ m.keys) :
    m.AptAll (ks.map .remove) ∧
      ∀ k, ((ks.map Change.remove).foldl apply m).lookup k = if k ∈ ks then none else m.lookup k := by
  induction ks generalizing m with
  | nil => exact ⟨trivial, fun _ => rfl⟩
  | cons j ks ih =>
    rw [List.nodup_cons] at hnd
    obtain ⟨hapt, hl⟩ := @ih (m.remove j) hnd.2 fun k hk =>
      mem_keys_remove.2 ⟨ne_of_mem_of_not_mem hk hnd.1, hks k (List.mem_cons_of_mem _ hk)⟩
    refine ⟨⟨hks j (List.mem_cons_self ..), hapt⟩, fun k => ?_⟩
    rw [List.map_cons, List.foldl_cons]
    refine (hl k).trans ?_
    by_cases hk : k = j
    · subst hk; simp
    · simp [hk, lookup_remove_ne hk]

theorem aptAll_insert {es : List (κ × ν)} (hnd : (es.map (·.1)).Nodup) (hes : ∀ e ∈ es, e.1 ∉ m.keys) :
    m.AptAll (es.map fun e => .insert e.1 e.2) ∧
      (∀ e ∈ es, ((es.map fun e => Change.insert e.1 e.2).foldl apply m).lookup e.1 = some e.2) ∧
      ∀ k, k ∉ es.map (·.1) → ((es.map fun e => Change.insert e.1 e.2).foldl apply m).lookup k =
        m.lookup k := by
  induction es generalizing m with
  | nil => exact ⟨trivial, by simp, fun _ _ => rfl⟩
  | cons x es ih =>
    rw [List.map_cons, List.nodup_cons] at hnd
    obtain ⟨hapt, hin, hout⟩ := @ih (m.insert x.1 x.2) hnd.2 fun e he hk => by
      rcases mem_keys_insert.1 hk with hk | hk
      · exact hnd.1 (hk ▸ List.mem_map_of_mem he)
      · exact hes e (List.mem_cons_of_mem _ he) hk
    refine ⟨⟨hes x (List.mem_cons_self ..), hapt⟩, fun e he => ?_, fun k hk => ?_⟩
    · rw [List.map_cons, List.foldl_cons]
      rcases List.mem_cons.1 he with rfl | he
      · exact (hout _ hnd.1).trans lookup_insert_self
      · exact hin e he
    · rw [List.map_cons, List.mem_cons, not_or] at hk
      rw [List.map_cons, List.foldl_cons]
      exact (hout k hk.2).trans (lookup_insert_ne hk.1)

/-- The changes from one map to another, its keys and its entries taken in the given orders. -/
def diff (old new : OrderedMap κ ν) (ks : List κ) (es : List (κ × ν)) : List (Change κ ν) :=
  (ks.filter (· ∉ new.keys)).map .remove ++ (es.filter fun e => e.1 ∉ old.keys).map fun e => .insert e.1 e.2

theorem mem_of_insert_mem_diff {old new : OrderedMap κ ν} {es : List (κ × ν)}
    (h : .insert k v ∈ diff old new ks es) : (k, v) ∈ es := by
  rcases List.mem_append.1 h with h | h
  · obtain ⟨j, -, hj⟩ := List.mem_map.1 h
    cases hj
  · obtain ⟨e, he, hj⟩ := List.mem_map.1 h
    cases hj
    exact (List.mem_filter.1 he).1

/-- Whoever holds what the old map has comes to what the new one has, in whatever order the two maps
are gone through, as long as they agree on the keys they share. -/
theorem aptAll_diff {old new : OrderedMap κ ν} {es : List (κ × ν)} (hm : m.lookup = old.lookup)
    (hks : ks.Perm old.keys) (hes : es.Perm new.entries)
    (hshared : ∀ k ∈ old.keys, k ∈ new.keys → old.lookup k = new.lookup k) :
    m.AptAll (diff old new ks es) ∧ ((diff old new ks es).foldl apply m).lookup = new.lookup := by
  have hkeys : ∀ k, k ∈ m.keys ↔ k ∈ old.keys := fun k => by rw [m.mem_keys, old.mem_keys, hm]
  obtain ⟨ha, hl⟩ := @aptAll_remove _ _ _ m (ks.filter (· ∉ new.keys))
    ((hks.nodup_iff.2 old.nodup).filter _) fun k hk =>
    (hkeys k).2 (hks.subset (List.mem_filter.1 hk).1)
  have hremoved : ∀ k, k ∈ ks.filter (· ∉ new.keys) ↔ k ∈ old.keys ∧ k ∉ new.keys := fun k => by
    rw [List.mem_filter, hks.mem_iff, decide_eq_true_eq]
  have hadded : ∀ k, k ∈ (es.filter fun e => e.1 ∉ old.keys).map (·.1) ↔
      k ∈ new.keys ∧ k ∉ old.keys := fun k => by
    simp only [List.mem_map, List.mem_filter, decide_eq_true_eq, hes.mem_iff, ← map_fst_entries (m := new)]
    constructor
    · rintro ⟨e, ⟨he, hk⟩, rfl⟩; exact ⟨⟨e, he, rfl⟩, hk⟩
    · rintro ⟨⟨e, he, rfl⟩, hk⟩; exact ⟨e, ⟨he, hk⟩, rfl⟩
  generalize hm₁ : ((ks.filter (· ∉ new.keys)).map Change.remove).foldl apply m = m₁ at hl
  have hnd : ((es.filter fun e => e.1 ∉ old.keys).map (·.1)).Nodup := by
    refine List.Sublist.nodup (List.filter_sublist.map _) ((hes.map _).nodup_iff.2 ?_)
    rw [map_fst_entries]
    exact new.nodup
  obtain ⟨ha', hin, hout⟩ := @aptAll_insert _ _ _ m₁ _ hnd fun e he hk => by
    have hold := ((hadded e.1).1 (List.mem_map_of_mem he)).2
    rw [m₁.mem_keys, hl, if_neg fun h => hold ((hremoved _).1 h).1, hm, ← old.mem_keys] at hk
    exact hold hk
  refine ⟨aptAll_append.2 ⟨ha, by rw [hm₁]; exact ha'⟩, funext fun k => ?_⟩
  rw [diff, List.foldl_append, hm₁]
  by_cases hk : k ∈ (es.filter fun e => e.1 ∉ old.keys).map (·.1)
  · obtain ⟨e, he, rfl⟩ := List.mem_map.1 hk
    rw [hin e he]
    exact (mem_entries.1 (hes.subset (List.mem_filter.1 he).1)).symm
  · rw [hout k hk, hl, hm]
    rw [hadded, not_and, not_not] at hk
    by_cases hnew : k ∈ new.keys
    · rw [if_neg fun h => ((hremoved k).1 h).2 hnew]
      exact hshared k (hk hnew) hnew
    · rw [lookup_eq_none_iff.2 hnew]
      by_cases hold : k ∈ old.keys
      · exact if_pos ((hremoved k).2 ⟨hold, hnew⟩)
      · rw [if_neg fun h => hold ((hremoved k).1 h).1, lookup_eq_none_iff.2 hold]

end OrderedMap

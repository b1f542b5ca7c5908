import Mathlib.Algebra.Order.Ring.Nat

/-!
# Journals of several parties

A journal is a list of entries `(i, n)`: party `i` noted `n`. `notesOf j i` is what party `i` noted,
in order. Parties are kept in a list; `sum_map_set` says how a quantity summed over them changes when
one of them moves.
-/

namespace Journal

variable {ι ν : Type*} [DecidableEq ι]

def notesOf (j : List (ι × ν)) (i : ι) : List ν := (j.filter fun e => e.1 = i).map (·.2)

variable {j j' : List (ι × ν)} {i k : ι} {n : ν} {ns : List ν}

@[simp] theorem notesOf_nil : notesOf ([] : List (ι × ν)) i = [] := rfl

theorem notesOf_append : notesOf (j ++ j') i = notesOf j i ++ notesOf j' i := by
  rw [notesOf, List.filter_append, List.map_append]; rfl

theorem notesOf_map_self : notesOf (ns.map (i, ·)) i = ns := by
  induction ns with
  | nil => rfl
  | cons n ns ih =>
    rw [notesOf, List.map_cons, List.filter_cons_of_pos (by simp), List.map_cons]
    exact congrArg (n :: ·) ih

theorem notesOf_map_ne (h : k ≠ i) : notesOf (ns.map (i, ·)) k = [] := by
  rw [notesOf, List.map_eq_nil_iff, List.filter_eq_nil_iff]
  intro e he
  obtain ⟨n, -, rfl⟩ := List.mem_map.1 he
  simpa using Ne.symm h

theorem mem_notesOf : n ∈ notesOf j i ↔ (i, n) ∈ j := by
  simp only [notesOf, List.mem_map, List.mem_filter, decide_eq_true_eq]
  constructor
  · rintro ⟨⟨_, _⟩, ⟨h, rfl⟩, rfl⟩; exact h
  · intro h; exact ⟨(i, n), ⟨h, rfl⟩, rfl⟩

theorem notesOf_split {pre post : List (ι × ν)} (h : j = pre ++ (i, n) :: post) :
    notesOf j i = notesOf pre i ++ n :: notesOf post i := by
  rw [h, notesOf_append]
  refine congrArg _ ?_
  rw [notesOf, List.filter_cons_of_pos (by simp)]; rfl

def total [DecidableEq ν] (j : List (ι × ν)) (n : ν) : Nat := j.countP fun e => e.2 = n

variable [DecidableEq ν]

omit [DecidableEq ι] in
theorem total_append : total (j ++ j') n = total j n + total j' n := List.countP_append

omit [DecidableEq ι] in
theorem total_map : total (ns.map (i, ·)) n = ns.count n := by
  rw [total, List.countP_map, List.count]
  exact List.countP_congr fun m _ => by simp

/-! ### Parties in a list -/

theorem sum_map_set {α : Type*} (f : α → Nat) {l : List α} {i : Nat} {a : α} (b : α) (h : l[i]? = some a) :
    ((l.set i b).map f).sum + f a = (l.map f).sum + f b := by
  induction l generalizing i with
  | nil => simp at h
  | cons x l ih =>
    cases i with
    | zero =>
      obtain rfl : x = a := by simpa using h
      simp only [List.set_cons_zero, List.map_cons, List.sum_cons]; omega
    | succ i =>
      have := ih (i := i) (by simpa using h)
      simp only [List.set_cons_succ, List.map_cons, List.sum_cons]; omega

/-- As many places of a list as there are with something in them, there is at least in its sum. -/
theorem length_le_sum_map {α : Type*} {f : α → Nat} {l : List α} {places : List Nat} (hnodup : places.Nodup)
    (h : ∀ i ∈ places, ∃ a, l[i]? = some a ∧ 1 ≤ f a) : places.length ≤ (l.map f).sum := by
  suffices hsum : ∀ ns : List Nat, (∀ i ∈ places, ∃ n, ns[i]? = some n ∧ 1 ≤ n) → places.length ≤ ns.sum by
    refine hsum _ fun i hi => ?_
    obtain ⟨a, ha, hle⟩ := h i hi
    exact ⟨f a, by rw [List.getElem?_map, ha]; rfl, hle⟩
  clear h
  induction places with
  | nil => exact fun ns _ => Nat.zero_le _
  | cons i places ih =>
    intro ns hns
    obtain ⟨hi, hnodup⟩ := List.nodup_cons.1 hnodup
    obtain ⟨⟨n, hn, hle⟩, hrest⟩ := List.forall_mem_cons.1 hns
    have hset := sum_map_set (fun n : Nat => n) 0 hn
    rw [List.map_id', List.map_id'] at hset
    have hlen := ih hnodup (ns.set i 0) fun j hj => by
      rw [List.getElem?_set_ne (ne_of_mem_of_not_mem hj hi).symm]
      exact hrest j hj
    rw [List.length_cons]
    omega

end Journal

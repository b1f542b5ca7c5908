import Mathlib.Data.List.Infix

/-!
# Replacing a pattern in a text

`replaceAll pat rep s` replaces the occurrences of a nonempty pattern from left to right, none of
them overlapping another. Texts are lists over any alphabet. A letter the pattern does not have cuts
the text into parts that are replaced on their own (`replaceAll_append_cons`), and a letter of the
result comes from the text, or from the replacement of an occurrence (`mem_replaceAll`).
-/

namespace Replace

variable {α : Type*} [DecidableEq α]

/-- The replacement of `pat` in what is left of the text when its first `skip` letters belong to an
occurrence already replaced. -/
def replaceFrom (pat rep : List α) : ℕ → List α → List α
  | _, [] => []
  | skip + 1, _ :: s => replaceFrom pat rep skip s
  | 0, c :: s =>
    if pat.isPrefixOf (c :: s) then rep ++ replaceFrom pat rep (pat.length - 1) s
    else c :: replaceFrom pat rep 0 s

def replaceAll (pat rep s : List α) : List α := replaceFrom pat rep 0 s

/-- `params` replaced one after the other. -/
def replaceEach (params : List (List α × List α)) (s : List α) : List α :=
  params.foldl (fun s p => replaceAll p.1 p.2 s) s

variable {pat rep s t : List α} {x : α}

@[simp] theorem replaceAll_nil : replaceAll pat rep [] = [] := rfl

theorem replaceFrom_eq_drop (k : ℕ) (s : List α) :
    replaceFrom pat rep k s = replaceAll pat rep (s.drop k) := by
  induction s generalizing k with
  | nil => cases k <;> rfl
  | cons c s ih =>
    cases k with
    | zero => rfl
    | succ k => exact ih k

theorem replaceAll_append_left (hpat : pat ≠ []) :
    replaceAll pat rep (pat ++ s) = rep ++ replaceAll pat rep s := by
  cases pat with
  | nil => exact absurd rfl hpat
  | cons c pat =>
    have hpre : (c :: pat).isPrefixOf (c :: (pat ++ s)) = true :=
      List.isPrefixOf_iff_prefix.2 (List.prefix_append (c :: pat) s)
    rw [replaceAll, List.cons_append, replaceFrom, if_pos hpre, replaceFrom_eq_drop]
    simp

theorem replaceAll_cons_of_no_match (h : ¬ pat <+: x :: s) :
    replaceAll pat rep (x :: s) = x :: replaceAll pat rep s := by
  rw [replaceAll, replaceFrom, if_neg fun hp => h (List.isPrefixOf_iff_prefix.1 hp)]; rfl

theorem replaceAll_cons_of_not_mem (hpat : pat ≠ []) (hx : x ∉ pat) :
    replaceAll pat rep (x :: s) = x :: replaceAll pat rep s := by
  refine replaceAll_cons_of_no_match fun h => ?_
  cases pat with
  | nil => exact hpat rfl
  | cons c pat => exact hx ((List.cons_prefix_cons.1 h).1 ▸ List.mem_cons_self)

theorem prefix_cases (pat : List α) (x : α) (s : List α) :
    (∃ t, x :: s = pat ++ t) ∨ ¬ pat <+: x :: s := by
  by_cases h : pat <+: x :: s
  · exact .inl ⟨_, h.choose_spec.symm⟩
  · exact .inr h

omit [DecidableEq α] in
theorem length_le_of_cons_eq_append {c : α} (hpat : pat ≠ []) (h : c :: s = pat ++ t) :
    t.length ≤ s.length := by
  have := congrArg List.length h
  have := List.length_pos_of_ne_nil hpat
  simp only [List.length_cons, List.length_append] at *
  omega

omit [DecidableEq α] in
theorem prefix_of_prefix_append_cons (hx : x ∉ pat) (h : pat <+: s ++ x :: t) : pat <+: s := by
  rcases List.prefix_or_prefix_of_prefix h (List.prefix_append s (x :: t)) with h' | ⟨r, rfl⟩
  · exact h'
  · rw [List.prefix_append_right_inj] at h
    cases r with
    | nil => simp
    | cons y r =>
      obtain ⟨rfl, -⟩ := List.cons_prefix_cons.1 h
      simp at hx

/-- A letter that the pattern does not have cuts the text in two. -/
theorem replaceAll_append_cons (hpat : pat ≠ []) (hx : x ∉ pat) (s t : List α) :
    replaceAll pat rep (s ++ x :: t) = replaceAll pat rep s ++ x :: replaceAll pat rep t := by
  match s with
  | [] => exact replaceAll_cons_of_not_mem hpat hx
  | c :: s =>
    rcases prefix_cases pat c s with ⟨r, hr⟩ | h
    · have : r.length ≤ s.length := length_le_of_cons_eq_append hpat hr
      rw [hr, List.append_assoc, replaceAll_append_left hpat, replaceAll_append_left hpat,
        replaceAll_append_cons hpat hx r t, List.append_assoc]
    · have h' : ¬ pat <+: c :: (s ++ x :: t) :=
        fun hp => h (prefix_of_prefix_append_cons (s := c :: s) hx hp)
      rw [replaceAll_cons_of_no_match h, List.cons_append, replaceAll_cons_of_no_match h',
        replaceAll_append_cons hpat hx s t, List.cons_append]
termination_by s.length

/-- A letter that the pattern does not have is in the result when it was in the text, or came with
the replacement of an occurrence. -/
theorem mem_replaceAll (hpat : pat ≠ []) (hx : x ∉ pat) (s : List α) :
    x ∈ replaceAll pat rep s ↔ x ∈ s ∨ x ∈ rep ∧ pat <:+: s := by
  match s with
  | [] => simp [hpat]
  | c :: s =>
    rcases prefix_cases pat c s with ⟨r, hr⟩ | h
    · have : r.length ≤ s.length := length_le_of_cons_eq_append hpat hr
      rw [hr, replaceAll_append_left hpat, List.mem_append, mem_replaceAll hpat hx r]
      have hin : pat <:+: pat ++ r := (List.prefix_append _ _).isInfix
      simp only [List.mem_append, hx, hin, false_or, and_true]
      tauto
    · rw [replaceAll_cons_of_no_match h, List.mem_cons, mem_replaceAll hpat hx s, List.mem_cons,
        List.infix_cons_iff, or_assoc]
      simp [h]
termination_by s.length

theorem replaceAll_of_no_match (h : ¬ pat <:+: s) : replaceAll pat rep s = s := by
  induction s with
  | nil => rfl
  | cons c s ih =>
    rw [List.infix_cons_iff, not_or] at h
    rw [replaceAll_cons_of_no_match h.1, ih h.2]

theorem not_mem_replaceAll (hpat : pat ≠ []) (hs : x ∉ s) (hrep : x ∉ rep) :
    x ∉ replaceAll pat rep s := by
  by_cases hx : x ∈ pat
  · rwa [replaceAll_of_no_match fun h => hs (h.subset hx)]
  · rw [mem_replaceAll hpat hx]
    simp [hs, hrep]

/-! ### Several patterns -/

variable {params : List (List α × List α)}

@[simp] theorem replaceEach_nil : replaceEach params [] = [] := by
  induction params with
  | nil => rfl
  | cons p params ih => exact ih

theorem replaceEach_cons (p : List α × List α) :
    replaceEach (p :: params) s = replaceEach params (replaceAll p.1 p.2 s) := rfl

theorem replaceEach_append_cons (h : ∀ p ∈ params, p.1 ≠ [] ∧ x ∉ p.1) (s t : List α) :
    replaceEach params (s ++ x :: t) = replaceEach params s ++ x :: replaceEach params t := by
  induction params generalizing s t with
  | nil => rfl
  | cons p params ih =>
    obtain ⟨hne, hx⟩ := h p (by simp)
    simp only [replaceEach_cons, replaceAll_append_cons hne hx]
    exact ih (fun q hq => h q (List.mem_cons_of_mem _ hq)) _ _

theorem replaceEach_cons_of_not_mem (h : ∀ p ∈ params, p.1 ≠ [] ∧ x ∉ p.1) :
    replaceEach params (x :: s) = x :: replaceEach params s := by
  have := replaceEach_append_cons h [] s
  simpa using this

theorem replaceEach_append (h : ∀ x ∈ t.head?, ∀ p ∈ params, p.1 ≠ [] ∧ x ∉ p.1) (s : List α) :
    replaceEach params (s ++ t) = replaceEach params s ++ replaceEach params t := by
  cases t with
  | nil => simp
  | cons x t => rw [replaceEach_append_cons (h x rfl), replaceEach_cons_of_not_mem (h x rfl)]

theorem replaceEach_of_no_match (h : ∀ p ∈ params, ¬ p.1 <:+: s) : replaceEach params s = s := by
  induction params with
  | nil => rfl
  | cons p params ih =>
    rw [replaceEach_cons, replaceAll_of_no_match (h p (by simp))]
    exact ih fun q hq => h q (List.mem_cons_of_mem _ hq)

theorem not_mem_replaceEach (h : ∀ p ∈ params, p.1 ≠ [] ∧ x ∉ p.2) (hs : x ∉ s) :
    x ∉ replaceEach params s := by
  induction params generalizing s with
  | nil => exact hs
  | cons p params ih =>
    obtain ⟨hne, hx⟩ := h p (by simp)
    exact ih (fun q hq => h q (List.mem_cons_of_mem _ hq)) (not_mem_replaceAll hne hs hx)

/-- No replacement text with the letter `x` takes the place of a pattern: neither in the text nor in
what the earlier replacements made of it. -/
def KeepsOut (x : α) : List (List α × List α) → List α → Prop
  | [], _ => True
  | p :: params, s => ¬ (x ∈ p.2 ∧ p.1 <:+: s) ∧ KeepsOut x params (replaceAll p.1 p.2 s)

instance decidableKeepsOut (x : α) :
    (params : List (List α × List α)) → (s : List α) → Decidable (KeepsOut x params s)
  | [], _ => inferInstanceAs (Decidable True)
  | p :: params, s =>
    have := decidableKeepsOut x params (replaceAll p.1 p.2 s)
    inferInstanceAs (Decidable (_ ∧ _))

theorem keepsOut_iff (h : ∀ p ∈ params, p.1 ≠ [] ∧ x ∉ p.1) (hs : x ∉ s) :
    KeepsOut x params s ↔ x ∉ replaceEach params s := by
  induction params generalizing s with
  | nil => simpa [KeepsOut, replaceEach] using hs
  | cons p params ih =>
    obtain ⟨hne, hx⟩ := h p (by simp)
    have hps : ∀ q ∈ params, q.1 ≠ [] ∧ x ∉ q.1 := fun q hq => h q (List.mem_cons_of_mem _ hq)
    rw [KeepsOut, replaceEach_cons]
    by_cases hin : x ∈ p.2 ∧ p.1 <:+: s
    · -- once in, the letter stays
      have hmem : x ∈ replaceAll p.1 p.2 s := (mem_replaceAll hne hx s).2 (.inr hin)
      obtain ⟨s₁, s₂, hs'⟩ := List.append_of_mem hmem
      rw [hs', replaceEach_append_cons hps]
      simp [hin]
    · have hn : x ∉ replaceAll p.1 p.2 s := by
        rw [mem_replaceAll hne hx]; exact fun h => h.elim hs hin
      rw [← ih hps hn]
      simp [hin]

end Replace

import AxumReverseProxy.Lib.Replace
import Mathlib.Data.List.Find
import Mathlib.Data.List.Nodup

/-!
# Replacing several patterns at once

`replaceAtOnce params s` goes through the text once and replaces every occurrence of every pattern.
Where no two patterns overlap (`Apart`), an occurrence cuts the text in two that are replaced on
their own, and replacing one more pattern afterwards comes to the same as replacing it with the
others exactly when the replacements have made no new occurrence of it (`replaceAll_replaceAtOnce_iff`).
-/

namespace Replace

variable {α : Type*} [DecidableEq α]

/-- What is left of the text, when its first `skip` letters belong to an occurrence already replaced. -/
def atOnceFrom (params : List (List α × List α)) : ℕ → List α → List α
  | _, [] => []
  | skip + 1, _ :: s => atOnceFrom params skip s
  | 0, c :: s =>
    match params.find? fun p => p.1.isPrefixOf (c :: s) with
    | some p => p.2 ++ atOnceFrom params (p.1.length - 1) s
    | none => c :: atOnceFrom params 0 s

def replaceAtOnce (params : List (List α × List α)) (s : List α) : List α := atOnceFrom params 0 s

/-- The number of places where the pattern stands. -/
def occurrences (pat : List α) : List α → ℕ
  | [] => 0
  | c :: s => (if pat.isPrefixOf (c :: s) then 1 else 0) + occurrences pat s

/-- No occurrence of a pattern overlaps an occurrence of another, or another one of its own. -/
structure Apart (pats : List (List α)) : Prop where
  ne_nil : ∀ p ∈ pats, p ≠ []
  eq_of_prefix : ∀ p ∈ pats, ∀ q ∈ pats, p <+: q → p = q
  no_overlap : ∀ p ∈ pats, ∀ q ∈ pats, ∀ a b, p = a ++ b → a ≠ [] → b ≠ [] → ¬ b <+: q ∧ ¬ q <+: b

variable {params : List (List α × List α)} {pats : List (List α)} {p q rep s t x y a b : List α} {c : α}

/-! ### Patterns that do not overlap -/

namespace Apart

omit [DecidableEq α]

theorem mono {pats' : List (List α)} (h : Apart pats) (hs : ∀ p ∈ pats', p ∈ pats) : Apart pats' where
  ne_nil p hp := h.ne_nil p (hs p hp)
  eq_of_prefix p hp q hq := h.eq_of_prefix p (hs p hp) q (hs q hq)
  no_overlap p hp q hq := h.no_overlap p (hs p hp) q (hs q hq)

/-- At one place of a text at most one of the patterns stands. -/
theorem prefix_unique (h : Apart pats) (hp : p ∈ pats) (hq : q ∈ pats) (hps : p <+: s) (hqs : q <+: s) :
    p = q := by
  rcases List.prefix_or_prefix_of_prefix hps hqs with h' | h'
  · exact h.eq_of_prefix p hp q hq h'
  · exact (h.eq_of_prefix q hq p hp h').symm

/-- An occurrence that starts before one of `p` ends before it. -/
theorem prefix_of_append (h : Apart pats) (hq : q ∈ pats) (hp : p ∈ pats) (hs : s ≠ []) :
    q <+: s ++ p ++ t ↔ q <+: s := by
  constructor
  · intro hpre
    rw [List.append_assoc] at hpre
    rcases List.prefix_or_prefix_of_prefix hpre (List.prefix_append s (p ++ t)) with h' | ⟨b, rfl⟩
    · exact h'
    · by_cases hb : b = []
      · rw [hb, List.append_nil]
      · rw [List.prefix_append_right_inj] at hpre
        obtain ⟨h1, h2⟩ := h.no_overlap _ hq p hp s b rfl hs hb
        rcases List.prefix_or_prefix_of_prefix hpre (List.prefix_append p t) with h' | h'
        · exact absurd h' h1
        · exact absurd h' h2
  · intro h'
    rw [List.append_assoc]
    exact h'.trans (List.prefix_append ..)

/-- Inside an occurrence of `p` no other one starts. -/
theorem not_prefix_inside (h : Apart pats) (hq : q ∈ pats) (hp : a ++ b ∈ pats) (hb : b ≠ [])
    (hne : a ≠ [] ∨ q ≠ a ++ b) : ¬ q <+: b ++ t := by
  intro hpre
  by_cases ha : a = []
  · subst ha
    rw [List.nil_append] at hp hne
    exact hne.elim (absurd rfl) (absurd (h.prefix_unique hq hp hpre (List.prefix_append b t)))
  · obtain ⟨h1, h2⟩ := h.no_overlap _ hp q hq a b rfl ha hb
    rcases List.prefix_or_prefix_of_prefix hpre (List.prefix_append b t) with h' | h'
    · exact h2 h'
    · exact h1 h'

end Apart

/-! ### The scan -/

theorem atOnceFrom_eq_drop (k : ℕ) (s : List α) :
    atOnceFrom params k s = replaceAtOnce params (s.drop k) := by
  induction s generalizing k with
  | nil => cases k <;> rfl
  | cons c s ih =>
    cases k with
    | zero => rfl
    | succ k => exact ih k

theorem replaceAtOnce_of_find (hne : p ≠ [])
    (h : (params.find? fun r => r.1.isPrefixOf (p ++ s)) = some (p, rep)) :
    replaceAtOnce params (p ++ s) = rep ++ replaceAtOnce params s := by
  obtain ⟨c, p, rfl⟩ := List.exists_cons_of_ne_nil hne
  rw [List.cons_append] at h
  rw [List.cons_append, replaceAtOnce, atOnceFrom, h]
  simp only [atOnceFrom_eq_drop, List.length_cons, Nat.add_sub_cancel]
  rw [List.drop_left]

theorem replaceAtOnce_cons_of_no_match (h : ∀ r ∈ params, ¬ r.1 <+: c :: s) :
    replaceAtOnce params (c :: s) = c :: replaceAtOnce params s := by
  have hnone : (params.find? fun r => r.1.isPrefixOf (c :: s)) = none :=
    List.find?_eq_none.2 fun r hr => by simpa using h r hr
  rw [replaceAtOnce, atOnceFrom, hnone]
  rfl

theorem replaceAtOnce_nil_params (s : List α) : replaceAtOnce [] s = s := by
  induction s with
  | nil => rfl
  | cons c s ih => rw [replaceAtOnce_cons_of_no_match (by simp), ih]

/-- Going through a text: at its head a pattern is found, or none stands there. -/
theorem scan_induction {P : List α → Prop} (params : List (List α × List α))
    (hne : ∀ r ∈ params, r.1 ≠ []) (nil : P [])
    (hit : ∀ r ∈ params, ∀ t, (params.find? fun r' => r'.1.isPrefixOf (r.1 ++ t)) = some r →
      P t → P (r.1 ++ t))
    (skip : ∀ c s, (∀ r ∈ params, ¬ r.1 <+: c :: s) → P s → P (c :: s)) (s : List α) : P s := by
  match s with
  | [] => exact nil
  | c :: s =>
    cases hf : params.find? fun r => r.1.isPrefixOf (c :: s) with
    | some r =>
      have hr := List.mem_of_find?_eq_some hf
      obtain ⟨t, ht⟩ : r.1 <+: c :: s := by simpa using List.find?_some hf
      have : t.length ≤ s.length := length_le_of_cons_eq_append (hne r hr) ht.symm
      rw [← ht] at hf ⊢
      exact hit r hr t hf (scan_induction params hne nil hit skip t)
    | none =>
      exact skip c s (fun r hr => by simpa using List.find?_eq_none.1 hf r hr)
        (scan_induction params hne nil hit skip s)
termination_by s.length

/-- An occurrence of a pattern cuts the text before it off. -/
theorem replaceAtOnce_append (h : Apart (p :: params.map (·.1))) (x y : List α) :
    replaceAtOnce params (x ++ p ++ y) = replaceAtOnce params x ++ replaceAtOnce params (p ++ y) := by
  have hmem : ∀ r ∈ params, r.1 ∈ p :: params.map (·.1) :=
    fun r hr => List.mem_cons_of_mem _ (List.mem_map_of_mem hr)
  have hne : ∀ r ∈ params, r.1 ≠ [] := fun r hr => h.ne_nil _ (hmem r hr)
  have hpre : ∀ r ∈ params, ∀ s, s ≠ [] → (r.1 <+: s ++ p ++ y ↔ r.1 <+: s) :=
    fun r hr s hs => h.prefix_of_append (hmem r hr) (List.mem_cons_self ..) hs
  induction x using scan_induction params hne with
  | nil => rfl
  | hit r hr t hf ih =>
    have hf' : (params.find? fun r' => r'.1.isPrefixOf (r.1 ++ (t ++ p ++ y))) = some r := by
      rw [← hf]
      refine List.find?_congr fun r' hr' => ?_
      rw [Bool.eq_iff_iff, List.isPrefixOf_iff_prefix, List.isPrefixOf_iff_prefix,
        ← hpre r' hr' (r.1 ++ t) (List.append_ne_nil_of_left_ne_nil (hne r hr) t)]
      simp only [List.append_assoc]
    rw [replaceAtOnce_of_find (hne r hr) hf, List.append_assoc, List.append_assoc, ← List.append_assoc t,
      replaceAtOnce_of_find (hne r hr) hf', ih, List.append_assoc]
  | skip c s hnone ih =>
    have hnone' : ∀ r ∈ params, ¬ r.1 <+: c :: (s ++ p ++ y) :=
      fun r hr hp => hnone r hr ((hpre r hr (c :: s) (List.cons_ne_nil _ _)).1 hp)
    rw [replaceAtOnce_cons_of_no_match hnone, List.cons_append, List.cons_append,
      replaceAtOnce_cons_of_no_match hnone', ih, List.cons_append]

/-- A pattern that is not replaced is left as it is. -/
theorem replaceAtOnce_append_of_not_mem (h : Apart (p :: params.map (·.1))) (hp : p ∉ params.map (·.1))
    (y : List α) :
    replaceAtOnce params (p ++ y) = p ++ replaceAtOnce params y := by
  suffices hsuf : ∀ a b, p = a ++ b → replaceAtOnce params (b ++ y) = b ++
    replaceAtOnce params y from hsuf [] p rfl
  intro a b hab
  induction b generalizing a with
  | nil => rfl
  | cons c b ih =>
    have hno : ∀ r ∈ params, ¬ r.1 <+: c :: (b ++ y) := by
      intro r hr
      have hr' : r.1 ∈ params.map (·.1) := List.mem_map_of_mem hr
      refine h.not_prefix_inside (a := a) (b := c :: b) (List.mem_cons_of_mem _ hr') ?_
        (List.cons_ne_nil _ _) (.inr ?_)
      · rw [← hab]
        exact List.mem_cons_self ..
      · rw [← hab]
        exact ne_of_mem_of_not_mem hr' hp
    rw [List.cons_append, replaceAtOnce_cons_of_no_match hno, ih (a ++ [c]) (by rw [hab]; simp),
      List.cons_append]

theorem replaceAtOnce_append_of_mem (h : Apart (params.map (·.1))) (hn : (params.map (·.1)).Nodup)
    (hp : (p, rep) ∈ params) (y : List α) :
    replaceAtOnce params (p ++ y) = rep ++ replaceAtOnce params y := by
  have hp1 : p ∈ params.map (·.1) := List.mem_map_of_mem hp
  have hne := h.ne_nil p hp1
  refine replaceAtOnce_of_find hne ?_
  obtain ⟨r, hr⟩ : ∃ r, (params.find? fun r => r.1.isPrefixOf (p ++ y)) = some r :=
    Option.isSome_iff_exists.1 (List.find?_isSome.2 ⟨_, hp,
      List.isPrefixOf_iff_prefix.2 (List.prefix_append p y)⟩)
  have hmem := List.mem_of_find?_eq_some hr
  have hr1 : r.1 ∈ params.map (·.1) := List.mem_map_of_mem hmem
  have hpre : r.1 <+: p ++ y := by simpa using List.find?_some hr
  have heq : r.1 = p := h.prefix_unique hr1 hp1 hpre (List.prefix_append p y)
  rw [hr, List.inj_on_of_nodup_map hn hmem hp heq]

/-- The replacement of a pattern that does not stand in the text does not matter. -/
theorem replaceAtOnce_of_no_match (hne : ∀ r ∈ params, r.1 ≠ []) (hs : ¬ p <:+: s) :
    replaceAtOnce (params ++ [(p, rep)]) s = replaceAtOnce params s := by
  induction s using scan_induction params hne with
  | nil => rfl
  | hit r hr t hf ih =>
    have hf' : ((params ++ [(p, rep)]).find? fun r' => r'.1.isPrefixOf (r.1 ++ t)) = some r := by
      rw [List.find?_append, hf, Option.some_or]
    rw [replaceAtOnce_of_find (hne r hr) hf, replaceAtOnce_of_find (hne r hr) hf',
      ih fun ht => hs (ht.trans (List.suffix_append r.1 t).isInfix)]
  | skip c s hnone ih =>
    rw [List.infix_cons_iff, not_or] at hs
    have hnone' : ∀ r ∈ params ++ [(p, rep)], ¬ r.1 <+: c :: s :=
      List.forall_mem_append.2 ⟨hnone, List.forall_mem_singleton.2 hs.1⟩
    rw [replaceAtOnce_cons_of_no_match hnone, replaceAtOnce_cons_of_no_match hnone', ih hs.2]

/-- One pattern at once is `replaceAll`. -/
theorem replaceAtOnce_singleton (hp : p ≠ []) (s : List α) :
    replaceAtOnce [(p, rep)] s = replaceAll p rep s := by
  induction s using scan_induction [(p, rep)] (List.forall_mem_singleton.2 hp) with
  | nil => rfl
  | hit r hr t hf ih =>
    obtain rfl := List.mem_singleton.1 hr
    rw [replaceAtOnce_of_find hp hf, replaceAll_append_left hp, ih]
  | skip c s hnone ih =>
    rw [replaceAtOnce_cons_of_no_match hnone,
      replaceAll_cons_of_no_match (hnone _ (List.mem_singleton_self _)), ih]

theorem replaceAtOnce_perm {params' : List (List α × List α)} (h : Apart (params.map (·.1)))
    (hn : (params.map (·.1)).Nodup) (hp : params.Perm params') (s : List α) :
    replaceAtOnce params s = replaceAtOnce params' s := by
  have hne : ∀ r ∈ params, r.1 ≠ [] := fun r hr => h.ne_nil _ (List.mem_map_of_mem hr)
  have hfind : ∀ s : List α,
      (params.find? fun r => r.1.isPrefixOf s) = params'.find? fun r => r.1.isPrefixOf s := by
    intro s
    refine List.find?_eq_find?_of_perm hp ?_
    rintro q ⟨hq, hqs⟩ r ⟨hr, hrs⟩
    have hq1 : q.1 ∈ params.map (·.1) := List.mem_map_of_mem hq
    have hr1 : r.1 ∈ params.map (·.1) := List.mem_map_of_mem hr
    rw [List.isPrefixOf_iff_prefix] at hqs hrs
    exact List.inj_on_of_nodup_map hn hq hr (h.prefix_unique hq1 hr1 hqs hrs)
  induction s using scan_induction params hne with
  | nil => rfl
  | hit r hr t hf ih =>
    rw [replaceAtOnce_of_find (hne r hr) hf, replaceAtOnce_of_find (hne r hr) ((hfind _).symm.trans hf), ih]
  | skip c s hnone ih =>
    rw [replaceAtOnce_cons_of_no_match hnone,
      replaceAtOnce_cons_of_no_match fun r hr => hnone r (hp.mem_iff.2 hr), ih]

/-! ### Occurrences -/

theorem occurrences_eq_zero_iff (hp : p ≠ []) : occurrences p s = 0 ↔ ¬ p <:+: s := by
  induction s with
  | nil => simp [occurrences, hp]
  | cons c s ih =>
    rw [occurrences, Nat.add_eq_zero_iff, ih, List.infix_cons_iff, not_or]
    refine and_congr_left fun _ => ?_
    rw [← List.isPrefixOf_iff_prefix]
    split <;> simp_all

theorem occurrences_append_le (p a b : List α) :
    occurrences p a + occurrences p b ≤ occurrences p (a ++ b) := by
  induction a with
  | nil => simp [occurrences]
  | cons c a ih =>
    have hle : (if p.isPrefixOf (c :: a) then 1 else 0) ≤
        if p.isPrefixOf (c :: (a ++ b)) then 1 else 0 := by
      split
      · next h =>
        have h' : p <+: c :: (a ++ b) := (List.isPrefixOf_iff_prefix.1 h).trans
          (List.prefix_append (c :: a) b)
        rw [if_pos (List.isPrefixOf_iff_prefix.2 h')]
      · exact Nat.zero_le _
    rw [List.cons_append, occurrences, occurrences]
    omega

theorem occurrences_inside (h : Apart pats) (hq : q ∈ pats) (hp : a ++ b ∈ pats) (hne : a ≠ [] ∨ q ≠ a ++ b)
    (y : List α) : occurrences q (b ++ y) = occurrences q y := by
  induction b generalizing a with
  | nil => rfl
  | cons c b ih =>
    have hno := h.not_prefix_inside (t := y) hq hp (List.cons_ne_nil c b) hne
    rw [List.cons_append] at hno
    rw [List.cons_append, occurrences, if_neg fun hpre => hno (List.isPrefixOf_iff_prefix.1 hpre),
      Nat.zero_add]
    exact ih (a := a ++ [c]) (by simpa using hp) (.inl (by simp))

theorem occurrences_append (h : Apart pats) (hq : q ∈ pats) (hp : p ∈ pats) (x y : List α) :
    occurrences q (x ++ p ++ y) = occurrences q x + occurrences q (p ++ y) := by
  induction x with
  | nil => simp [occurrences]
  | cons c x ih =>
    have hpre : q.isPrefixOf (c :: (x ++ p ++ y)) = q.isPrefixOf (c :: x) := by
      rw [Bool.eq_iff_iff, List.isPrefixOf_iff_prefix, List.isPrefixOf_iff_prefix]
      exact h.prefix_of_append (s := c :: x) hq hp (List.cons_ne_nil _ _)
    rw [List.cons_append, List.cons_append, occurrences, occurrences, hpre, ih, Nat.add_assoc]

theorem occurrences_append_self (h : Apart pats) (hp : p ∈ pats) (x y : List α) :
    occurrences p (x ++ p ++ y) = occurrences p x + 1 + occurrences p y := by
  rw [occurrences_append h hp hp, Nat.add_assoc]
  refine congrArg _ ?_
  obtain ⟨c, r, rfl⟩ := List.exists_cons_of_ne_nil (h.ne_nil p hp)
  have hpre : (c :: r).isPrefixOf (c :: (r ++ y)) = true :=
    List.isPrefixOf_iff_prefix.2 (List.prefix_append (c :: r) y)
  rw [List.cons_append, occurrences, if_pos hpre,
    occurrences_inside (a := [c]) h hp hp (.inl (List.cons_ne_nil _ _))]

theorem occurrences_append_ne (h : Apart pats) (hq : q ∈ pats) (hp : p ∈ pats) (hne : q ≠ p)
    (x y : List α) :
    occurrences q (x ++ p ++ y) = occurrences q x + occurrences q y := by
  rw [occurrences_append h hq hp, occurrences_inside (a := []) h hq hp (.inr hne)]

/-- Taking a text apart at the occurrences of a pattern. -/
theorem occurrence_induction {P : List α → Prop} (hp : p ≠ []) (h0 : ∀ s, ¬ p <:+: s → P s)
    (h1 : ∀ x y, P x → P y → P (x ++ p ++ y)) (s : List α) : P s := by
  by_cases hs : p <:+: s
  · obtain ⟨x, y, rfl⟩ := hs
    have := List.length_pos_of_ne_nil hp
    have : x.length < (x ++ p ++ y).length := by simp only [List.length_append]; omega
    have : y.length < (x ++ p ++ y).length := by simp only [List.length_append]; omega
    exact h1 x y (occurrence_induction hp h0 h1 x) (occurrence_induction hp h0 h1 y)
  · exact h0 s hs
termination_by s.length

/-! ### One more pattern -/

/-- Patterns given once each, of which none overlaps another. -/
structure Separate (params : List (List α × List α)) : Prop where
  apart : Apart (params.map (·.1))
  nodup : (params.map (·.1)).Nodup

/-- `params` and one more pattern. -/
structure OneMore (params : List (List α × List α)) (p : List α) : Prop where
  apart : Apart (p :: params.map (·.1))
  nodup : (p :: params.map (·.1)).Nodup

namespace Separate

omit [DecidableEq α]

theorem of_subperm {params' : List (List α × List α)} (h : Separate params) (hs : params'.Subperm params) :
    Separate params' := by
  obtain ⟨l, hperm, hsub⟩ := hs
  have hmap := hperm.map (·.1)
  exact ⟨h.apart.mono fun _ hp => (hsub.map _).subset (hmap.mem_iff.2 hp),
    hmap.nodup_iff.1 ((hsub.map _).nodup h.nodup)⟩

theorem oneMore (h : Separate (params ++ [(p, rep)])) : OneMore params p := by
  have hperm : ((params ++ [(p, rep)]).map (·.1)).Perm (p :: params.map (·.1)) := by
    rw [List.map_append]
    exact List.perm_append_singleton ..
  exact ⟨h.apart.mono fun q hq => hperm.mem_iff.2 hq, hperm.nodup_iff.1 h.nodup⟩

end Separate

namespace OneMore

variable (h : OneMore params p)
include h

omit [DecidableEq α] in
theorem ne_nil : p ≠ [] := h.apart.ne_nil p (List.mem_cons_self ..)

omit [DecidableEq α] in
theorem params_ne_nil : ∀ r ∈ params, r.1 ≠ [] :=
  fun _ hr => h.apart.ne_nil _ (List.mem_cons_of_mem _ (List.mem_map_of_mem hr))

theorem replaceAll_append (rep x y : List α) :
    replaceAll p rep (x ++ p ++ y) = replaceAll p rep x ++ rep ++ replaceAll p rep y := by
  have hone : Apart (p :: [(p, rep)].map (·.1)) := h.apart.mono (by simp)
  rw [← replaceAtOnce_singleton h.ne_nil, replaceAtOnce_append hone, replaceAtOnce_singleton h.ne_nil,
    replaceAtOnce_singleton h.ne_nil, replaceAll_append_left h.ne_nil, List.append_assoc]

theorem replaceAtOnce_without (x y : List α) :
    replaceAtOnce params (x ++ p ++ y) = replaceAtOnce params x ++ p ++ replaceAtOnce params y := by
  rw [replaceAtOnce_append h.apart, replaceAtOnce_append_of_not_mem h.apart (List.nodup_cons.1 h.nodup).1,
    List.append_assoc]

omit [DecidableEq α] in
theorem separate (rep : List α) : Separate (params ++ [(p, rep)]) := by
  have hperm : (p :: params.map (·.1)).Perm ((params ++ [(p, rep)]).map (·.1)) := by
    rw [List.map_append]
    exact (List.perm_append_singleton ..).symm
  exact ⟨h.apart.mono fun q hq => hperm.mem_iff.2 hq, hperm.nodup_iff.1 h.nodup⟩

theorem replaceAtOnce_with (rep x y : List α) :
    replaceAtOnce (params ++ [(p, rep)]) (x ++ p ++ y) =
      replaceAtOnce (params ++ [(p, rep)]) x ++ rep ++ replaceAtOnce (params ++ [(p, rep)]) y := by
  have hs := h.separate rep
  have hcons : Apart (p :: (params ++ [(p, rep)]).map (·.1)) :=
    hs.apart.mono (List.forall_mem_cons.2 ⟨by simp, fun _ hq => hq⟩)
  have hmem : (p, rep) ∈ params ++ [(p, rep)] := by simp
  rw [replaceAtOnce_append hcons, replaceAtOnce_append_of_mem hs.apart hs.nodup hmem,
    List.append_assoc]

theorem occurrences_mid (x y : List α) :
    occurrences p (x ++ p ++ y) = occurrences p x + 1 + occurrences p y :=
  occurrences_append_self h.apart (List.mem_cons_self ..) x y

/-- Replacing the others leaves the occurrences of `p`, and may make some. -/
theorem occurrences_le (s : List α) : occurrences p s ≤ occurrences p (replaceAtOnce params s) := by
  induction s using occurrence_induction h.ne_nil with
  | h0 s hs => rw [(occurrences_eq_zero_iff h.ne_nil).2 hs]; exact Nat.zero_le _
  | h1 x y ihx ihy =>
    rw [h.replaceAtOnce_without, h.occurrences_mid, h.occurrences_mid]
    omega

theorem length_replaceAll (rep s : List α) :
    (replaceAll p rep s).length + occurrences p s * p.length = s.length + occurrences p s * rep.length := by
  induction s using occurrence_induction h.ne_nil with
  | h0 s hs =>
    rw [replaceAll_of_no_match hs, (occurrences_eq_zero_iff h.ne_nil).2 hs, Nat.zero_mul, Nat.zero_mul]
  | h1 x y ihx ihy =>
    rw [h.replaceAll_append, h.occurrences_mid]
    simp only [List.length_append, Nat.add_mul, Nat.one_mul]
    omega

theorem length_replaceAtOnce_with (rep s : List α) :
    (replaceAtOnce (params ++ [(p, rep)]) s).length + occurrences p s * p.length =
      (replaceAtOnce params s).length + occurrences p s * rep.length := by
  induction s using occurrence_induction h.ne_nil with
  | h0 s hs =>
    rw [replaceAtOnce_of_no_match h.params_ne_nil hs, (occurrences_eq_zero_iff h.ne_nil).2 hs,
      Nat.zero_mul, Nat.zero_mul]
  | h1 x y ihx ihy =>
    rw [h.replaceAtOnce_with, h.replaceAtOnce_without, h.occurrences_mid]
    simp only [List.length_append, Nat.add_mul, Nat.one_mul]
    omega

theorem eq_of_replaceAtOnce_eq {rep rep' s : List α} (hs : p <:+: s)
    (heq : replaceAtOnce (params ++ [(p, rep)]) s = replaceAtOnce (params ++ [(p, rep')]) s) :
    rep = rep' := by
  have hpos : 0 < occurrences p s :=
    Nat.pos_of_ne_zero fun h0 => (occurrences_eq_zero_iff h.ne_nil).1 h0 hs
  have hlen := h.length_replaceAtOnce_with rep s
  rw [heq, h.length_replaceAtOnce_with rep' s, Nat.add_left_cancel_iff] at hlen
  have hrep : rep.length = rep'.length := (Nat.eq_of_mul_eq_mul_left hpos hlen).symm
  obtain ⟨x, y, rfl⟩ := hs
  rw [h.replaceAtOnce_with, h.replaceAtOnce_with, List.append_assoc, List.append_assoc] at heq
  have hx : (replaceAtOnce (params ++ [(p, rep)]) x).length =
    (replaceAtOnce (params ++ [(p, rep')]) x).length := by
    have h1 := h.length_replaceAtOnce_with rep x
    have h2 := h.length_replaceAtOnce_with rep' x
    rw [← hrep] at h2
    omega
  exact (List.append_inj (List.append_inj heq hx).2 hrep).1

theorem replaceAll_self (s : List α) : replaceAll p p s = s := by
  induction s using occurrence_induction h.ne_nil with
  | h0 s hs => exact replaceAll_of_no_match hs
  | h1 x y ihx ihy => rw [h.replaceAll_append, ihx, ihy]

theorem replaceAtOnce_with_self (s : List α) :
    replaceAtOnce (params ++ [(p, p)]) s = replaceAtOnce params s := by
  induction s using occurrence_induction h.ne_nil with
  | h0 s hs => exact replaceAtOnce_of_no_match h.params_ne_nil hs
  | h1 x y ihx ihy => rw [h.replaceAtOnce_with, h.replaceAtOnce_without, ihx, ihy]

theorem eq_of_occurrences_eq (rep : List α) {s : List α}
    (hs : occurrences p (replaceAtOnce params s) = occurrences p s) :
    replaceAll p rep (replaceAtOnce params s) = replaceAtOnce (params ++ [(p, rep)]) s := by
  induction s using occurrence_induction h.ne_nil with
  | h0 s hno =>
    rw [replaceAtOnce_of_no_match h.params_ne_nil hno]
    refine replaceAll_of_no_match ((occurrences_eq_zero_iff h.ne_nil).1 ?_)
    rw [hs, (occurrences_eq_zero_iff h.ne_nil).2 hno]
  | h1 x y ihx ihy =>
    rw [h.replaceAtOnce_without, h.occurrences_mid, h.occurrences_mid] at hs
    have hx := h.occurrences_le x
    have hy := h.occurrences_le y
    rw [h.replaceAtOnce_without, h.replaceAll_append, h.replaceAtOnce_with, ihx (by omega), ihy (by omega)]

/-- Where the replacement is as long as the pattern, each part of the text keeps its place. -/
theorem occurrences_eq_of_eq {rep s : List α} (hlen : rep.length = p.length) (hne : rep ≠ p)
    (heq : replaceAll p rep (replaceAtOnce params s) = replaceAtOnce (params ++ [(p, rep)]) s) :
    occurrences p (replaceAtOnce params s) = occurrences p s := by
  have hkeeps : ∀ t, (replaceAll p rep t).length = t.length := by
    intro t
    have := h.length_replaceAll rep t
    rw [hlen] at this
    omega
  induction s using occurrence_induction h.ne_nil with
  | h0 s hno =>
    rw [replaceAtOnce_of_no_match h.params_ne_nil hno] at heq
    rw [(occurrences_eq_zero_iff h.ne_nil).2 hno, occurrences_eq_zero_iff h.ne_nil]
    rintro ⟨a, b, hab⟩
    rw [← hab, h.replaceAll_append, List.append_assoc, List.append_assoc] at heq
    have hrest := (List.append_inj heq (hkeeps a)).2
    exact hne (List.append_inj hrest hlen).1
  | h1 x y ihx ihy =>
    rw [h.replaceAtOnce_without, h.replaceAll_append, h.replaceAtOnce_with, List.append_assoc,
      List.append_assoc] at heq
    have hlenx := h.length_replaceAtOnce_with rep x
    rw [hlen] at hlenx
    obtain ⟨hx, hrest⟩ := List.append_inj heq (by rw [hkeeps]; omega)
    rw [h.replaceAtOnce_without, h.occurrences_mid, h.occurrences_mid, ihx hx,
      ihy (List.append_cancel_left hrest)]

/-- Replacing one more pattern afterwards is replacing it with the others exactly when it is replaced by
itself, or only its own occurrences in the text are there to be replaced. -/
theorem replaceAll_replaceAtOnce_iff (rep s : List α) :
    replaceAll p rep (replaceAtOnce params s) = replaceAtOnce (params ++ [(p, rep)]) s ↔
      rep = p ∨ occurrences p (replaceAtOnce params s) = occurrences p s := by
  constructor
  · intro heq
    by_contra hc
    rw [not_or] at hc
    have h1 := h.length_replaceAll rep (replaceAtOnce params s)
    have h2 := h.length_replaceAtOnce_with rep s
    have hle := h.occurrences_le s
    rw [heq] at h1
    obtain ⟨k, hk⟩ := Nat.exists_eq_add_of_le hle
    rw [hk, Nat.add_mul, Nat.add_mul] at h1
    have hkk : k * p.length = k * rep.length := by omega
    have hpos : 0 < k := by
      rcases Nat.eq_zero_or_pos k with rfl | hpos
      · exact absurd hk hc.2
      · exact hpos
    exact hc.2 (h.occurrences_eq_of_eq (Nat.eq_of_mul_eq_mul_left hpos hkk).symm hc.1 heq)
  · rintro (rfl | hs)
    · rw [h.replaceAll_self, h.replaceAtOnce_with_self]
    · exact h.eq_of_occurrences_eq rep hs

/-- An occurrence that is there after some replacements is there after one more. -/
theorem occurrences_mono (hq : OneMore (params ++ [(p, rep)]) q) (s : List α) :
    occurrences q (replaceAtOnce params s) ≤ occurrences q (replaceAtOnce (params ++ [(p, rep)]) s) := by
  have hp : p ∈ (params ++ [(p, rep)]).map (·.1) := by simp
  have hne : q ≠ p := (ne_of_mem_of_not_mem hp (List.nodup_cons.1 hq.nodup).1).symm
  induction s using occurrence_induction h.ne_nil with
  | h0 s hs => rw [replaceAtOnce_of_no_match h.params_ne_nil hs]
  | h1 x y ihx ihy =>
    rw [h.replaceAtOnce_without, h.replaceAtOnce_with,
      occurrences_append_ne hq.apart (List.mem_cons_self ..) (List.mem_cons_of_mem _ hp) hne]
    have h1 := occurrences_append_le q (replaceAtOnce (params ++ [(p, rep)]) x) rep
    have h2 := occurrences_append_le q (replaceAtOnce (params ++ [(p, rep)]) x ++ rep)
      (replaceAtOnce (params ++ [(p, rep)]) y)
    omega

end OneMore

theorem occurrences_mono_append {more : List (List α × List α)} (h : OneMore (params ++ more) q)
    (s : List α) :
    occurrences q (replaceAtOnce params s) ≤ occurrences q (replaceAtOnce (params ++ more) s) := by
  induction more using List.reverseRecOn with
  | nil => rw [List.append_nil]
  | append_singleton more r ih =>
    rw [← List.append_assoc] at h ⊢
    have hsub : (q :: (params ++ more).map (·.1)).Sublist (q :: (params ++ more ++ [r]).map (·.1)) :=
      ((List.sublist_append_left ..).map _).cons_cons q
    have hmore : OneMore (params ++ more) q := ⟨h.apart.mono fun _ hp => hsub.subset hp, hsub.nodup h.nodup⟩
    have hr : Separate (params ++ more ++ [(r.1, r.2)]) :=
      ⟨h.apart.mono fun _ hp => List.mem_cons_of_mem _ hp, (List.nodup_cons.1 h.nodup).2⟩
    exact (ih hmore).trans (hr.oneMore.occurrences_mono h s)

theorem replaceEach_concat (r : List α × List α) :
    replaceEach (params ++ [r]) s = replaceAll r.1 r.2 (replaceEach params s) := by
  rw [replaceEach, List.foldl_append]
  rfl

end Replace

import AxumReverseProxy.Lib.AtOnce
import AxumReverseProxy.RouterExt.Template
import Mathlib.Data.List.Perm.Subperm

/-!
# Placeholders, all at once or one by one

`resolve` replaces one parameter after the other, and a brace in a value is not encoded: a value that
brings the placeholder of a later parameter, or completes one, is replaced in its turn.
`resolves_at_once_iff` says for which template and parameters only the template's own placeholders are.
-/

namespace AxumReverseProxy
open Replace

variable {params first rest : List (Str × Str)} {key key' : Str} {p : Str × Str}

theorem placeholder_injective : Function.Injective placeholder := fun _ _ h =>
  (List.cons.inj (List.append_inj_left' h rfl)).2

@[simp] theorem substitutions_append :
    substitutions (first ++ rest) = substitutions first ++ substitutions rest := List.map_append

@[simp] theorem substitutions_singleton :
    substitutions [p] = [(placeholder p.1, utf8PercentEncode p.2)] := rfl

theorem map_fst_substitutions : (substitutions params).map (·.1) = params.map fun p => placeholder p.1 := by
  rw [substitutions, List.map_map]; rfl

theorem resolve_concat (t : TemplateTarget) (first : List (Str × Str)) (p : Str × Str) :
    t.resolve (first ++ [p]) = replaceAll (placeholder p.1) (utf8PercentEncode p.2) (t.resolve first) := by
  rw [resolve_eq, resolve_eq, substitutions_append, substitutions_singleton, replaceEach_concat]

/-! ### Names -/

/-- No placeholder of a parameter overlaps the one of another. -/
def PlaceholdersApart (params : List (Str × Str)) : Prop := Apart (params.map fun p => placeholder p.1)

theorem placeholder_ne_nil : placeholder key ≠ [] := List.cons_ne_nil _ _

/-- A brace-free name ends at the first brace behind it. -/
theorem name_eq_of_isPrefix (hk : '}' ∉ key) (hk' : '}' ∉ key') (h : placeholder key <+: placeholder key') :
    key = key' := by
  obtain ⟨t, ht⟩ := h
  have heq : key ++ '}' :: t = key' ++ ['}'] := by simpa [placeholder] using ht
  have hsplit := Str.splitOnce_append hk t
  rw [heq, Str.splitOnce_append hk' []] at hsplit
  exact (Prod.mk.inj (Option.some.inj hsplit)).1.symm

theorem placeholdersApart_of_braceless (h : ∀ p ∈ params, '{' ∉ p.1 ∧ '}' ∉ p.1) :
    PlaceholdersApart params where
  ne_nil := by
    intro _ hp
    obtain ⟨p, -, rfl⟩ := List.mem_map.1 hp
    exact placeholder_ne_nil
  eq_of_prefix := by
    intro _ hp _ hq hpre
    obtain ⟨p, hp', rfl⟩ := List.mem_map.1 hp
    obtain ⟨q, hq', rfl⟩ := List.mem_map.1 hq
    rw [name_eq_of_isPrefix (h p hp').2 (h q hq').2 hpre]
  no_overlap := by
    -- the second of two overlapping placeholders would start inside the name of the first
    intro _ hp _ hq a b hab ha hb
    obtain ⟨p, hp', rfl⟩ := List.mem_map.1 hp
    obtain ⟨q, -, rfl⟩ := List.mem_map.1 hq
    obtain ⟨c, a, rfl⟩ := List.exists_cons_of_ne_nil ha
    obtain ⟨d, b, rfl⟩ := List.exists_cons_of_ne_nil hb
    have hd : d ∈ p.1 ++ ['}'] := by
      have htail : p.1 ++ ['}'] = a ++ d :: b := (List.cons.inj hab).2
      rw [htail]
      exact List.mem_append_right _ (List.mem_cons_self ..)
    have hne : d ≠ '{' := by
      rintro rfl
      rcases List.mem_append.1 hd with hd | hd
      · exact (h p hp').1 hd
      · exact absurd (List.mem_singleton.1 hd) (by decide)
    exact ⟨fun hpre => hne (List.cons_prefix_cons.1 hpre).1,
      fun hpre => hne (List.cons_prefix_cons.1 hpre).1.symm⟩

theorem separate_substitutions (hn : (params.map (·.1)).Nodup) (ha : PlaceholdersApart params) :
    Separate (substitutions params) where
  apart := by rw [map_fst_substitutions]; exact ha
  nodup := by
    rw [map_fst_substitutions]
    have := hn.map placeholder_injective
    rwa [List.map_map] at this

theorem separate_of_subperm (h : Separate (substitutions params)) (hs : first.Subperm params) :
    Separate (substitutions first) := by
  obtain ⟨l, hperm, hsub⟩ := hs
  exact h.of_subperm ⟨substitutions l, hperm.map _, hsub.map _⟩

theorem oneMore_of_separate (h : Separate (substitutions (first ++ [p]))) :
    OneMore (substitutions first) (placeholder p.1) := by
  rw [substitutions_append, substitutions_singleton] at h
  exact h.oneMore

/-! ### Resolving -/

/-- In whatever order the parameters come, what stands after each of them is the template with the
placeholders that it has itself replaced; no value is looked at again. -/
def TemplateTarget.ResolvesAtOnce (self : TemplateTarget) (params : List (Str × Str)) : Prop :=
  ∀ order, order.Perm params → ∀ first, first <+: order →
    self.resolve first = replaceAtOnce (substitutions first) self.template

theorem TemplateTarget.ResolvesAtOnce.resolve_perm {t : TemplateTarget} (h : t.ResolvesAtOnce params)
    (hn : (params.map (·.1)).Nodup) (ha : PlaceholdersApart params) (hp : first.Perm params) :
    t.resolve first = t.resolve params := by
  have hs := separate_substitutions hn ha
  rw [h first hp first List.prefix_rfl, h params (.refl _) params List.prefix_rfl]
  exact (replaceAtOnce_perm hs.apart hs.nodup (hp.symm.map _) _).symm

/-- Replacing one more parameter at a time, from an order where each step does as it should. -/
theorem resolve_concat_iff {t : TemplateTarget} (hs : Separate (substitutions (first ++ [p])))
    (hf : t.resolve first = replaceAtOnce (substitutions first) t.template) :
    t.resolve (first ++ [p]) = replaceAtOnce (substitutions (first ++ [p])) t.template ↔
      utf8PercentEncode p.2 = placeholder p.1 ∨
        occurrences (placeholder p.1) (replaceAtOnce (substitutions first) t.template) =
          occurrences (placeholder p.1) t.template := by
  rw [resolve_concat, hf, substitutions_append, substitutions_singleton]
  exact (oneMore_of_separate hs).replaceAll_replaceAtOnce_iff _ _

/-- In an order of the parameters, those before `p` make no more of its placeholder than all the others. -/
theorem occurrences_eq_of_order {s : Str} (hsep : Separate (substitutions params))
    (hperm : (first ++ [p] ++ rest).Perm params)
    (hocc : occurrences (placeholder p.1) (replaceAtOnce (substitutions (params.erase p)) s) =
      occurrences (placeholder p.1) s) :
    occurrences (placeholder p.1) (replaceAtOnce (substitutions first) s) =
      occurrences (placeholder p.1) s := by
  have hp : p ∈ params := hperm.mem_iff.1 (by simp)
  have hmid : (p :: (first ++ rest)).Perm params := by
    refine List.Perm.trans ?_ hperm
    rw [List.append_assoc]
    exact List.perm_middle.symm
  have hrest : (params.erase p).Perm (first ++ rest) := (hmid.trans (List.perm_cons_erase hp)).cons_inv.symm
  have herase : Separate (substitutions (params.erase p)) :=
    separate_of_subperm hsep (List.erase_sublist (a := p) (l := params)).subperm
  have hfirst := oneMore_of_separate
    (separate_of_subperm hsep ((List.sublist_append_left ..).subperm.trans hperm.subperm))
  have hothers := oneMore_of_separate (separate_of_subperm hsep
    ((List.perm_append_singleton ..).trans hmid).subperm)
  rw [replaceAtOnce_perm herase.apart herase.nodup (hrest.map _), ← substitutions,
    substitutions_append] at hocc
  rw [substitutions_append] at hothers
  refine Nat.le_antisymm ?_ (hfirst.occurrences_le _)
  rw [← hocc]
  exact occurrences_mono_append hothers _

/-- Template and parameters resolve at once exactly when the other values make no new placeholder of a
parameter, unless that is its own value. -/
theorem resolves_at_once_iff (t : TemplateTarget) (hn : (params.map (·.1)).Nodup)
    (ha : PlaceholdersApart params) :
    t.ResolvesAtOnce params ↔
      ∀ p ∈ params, utf8PercentEncode p.2 = placeholder p.1 ∨
        occurrences (placeholder p.1) (replaceAtOnce (substitutions (params.erase p)) t.template) =
          occurrences (placeholder p.1) t.template := by
  have hsep := separate_substitutions hn ha
  constructor
  · intro h p hp
    have hperm : (params.erase p ++ [p]).Perm params :=
      (List.perm_append_singleton ..).trans (List.perm_cons_erase hp).symm
    have hs := separate_of_subperm hsep hperm.subperm
    exact (resolve_concat_iff hs (h _ hperm _ (List.prefix_append ..))).1 (h _ hperm _ List.prefix_rfl)
  · intro h order hperm first hfirst
    induction first using List.reverseRecOn with
    | nil => exact (replaceAtOnce_nil_params _).symm
    | append_singleton first p ih =>
      obtain ⟨rest, rfl⟩ := hfirst
      have hp : p ∈ params := hperm.mem_iff.1 (by simp)
      have hf := ih ((List.prefix_append first [p]).trans (List.prefix_append ..))
      have hs := separate_of_subperm hsep ((List.sublist_append_left ..).subperm.trans hperm.subperm)
      exact (resolve_concat_iff hs hf).2 ((h p hp).imp_right (occurrences_eq_of_order hsep hperm))

/-- Two values without braces. -/
theorem resolves_at_once_users :
    (TemplateTarget.mk "http://up/\x7bid\x7d/\x7btab\x7d".toList).ResolvesAtOnce
      [("id".toList, "7".toList), ("tab".toList, "a b".toList)] :=
  (resolves_at_once_iff _ (by decide) (placeholdersApart_of_braceless (by decide))).2 (by decide)

/-- The value `{b}` of `a` is taken for the placeholder of `b`, unless `b` came first. -/
theorem value_taken_for_placeholder :
    (["a".toList, "b".toList].Nodup ∧ PlaceholdersApart [("a".toList, "\x7bb\x7d".toList),
      ("b".toList, "x".toList)]) ∧
    (TemplateTarget.mk "http://up/\x7ba\x7d".toList).resolve [("a".toList, "\x7bb\x7d".toList),
      ("b".toList, "x".toList)] =
      "http://up/x".toList ∧
    replaceAtOnce (substitutions [("a".toList, "\x7bb\x7d".toList), ("b".toList, "x".toList)])
      "http://up/\x7ba\x7d".toList =
      "http://up/\x7bb\x7d".toList ∧
    (TemplateTarget.mk "http://up/\x7ba\x7d".toList).resolve [("b".toList, "x".toList),
      ("a".toList, "\x7bb\x7d".toList)] =
      "http://up/\x7bb\x7d".toList :=
  ⟨⟨by decide, placeholdersApart_of_braceless (by decide)⟩, by decide, by decide, by decide⟩

end AxumReverseProxy

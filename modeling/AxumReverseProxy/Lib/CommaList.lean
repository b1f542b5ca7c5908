import Mathlib.Data.List.DropRight

/-!
# Lists written with a separator

A list of words written one after the other with a separator `sep` between them, each word with
padding around it that does not count: `elements sep pad` reads such a text back. Texts are lists
over any alphabet. The main fact is `map_splitOn_join`: joining texts with the separator and some
padding and reading the result word by word is reading the texts one by one, whatever they contain,
as long as the reader passes over padding in front of a word.
-/

namespace CommaList

variable {α : Type*}

/-! ### Trimming -/

/-- `l` without the padding at both ends. -/
def trimBy (pad : α → Bool) (l : List α) : List α := (l.dropWhile pad).rdropWhile pad

variable {pad : α → Bool}

@[simp] theorem trimBy_nil : trimBy pad ([] : List α) = [] := rfl

theorem trimBy_append_left {a : List α} (ha : ∀ x ∈ a, pad x = true) (l : List α) :
    trimBy pad (a ++ l) = trimBy pad l := by
  rw [trimBy, trimBy, List.dropWhile_append_of_pos ha]

theorem dropWhile_eq_self {l : List α} (h : ∀ x ∈ l.head?, pad x = false) : l.dropWhile pad = l := by
  cases l with
  | nil => rfl
  | cons x l => rw [List.dropWhile_cons_of_neg]; simpa using h x (by simp)

theorem rdropWhile_eq_self {l : List α} (h : ∀ x ∈ l.getLast?, pad x = false) :
    l.rdropWhile pad = l := by
  refine List.rdropWhile_eq_self_iff.2 fun hl => ?_
  simpa using h (l.getLast hl) (List.getLast?_eq_some_getLast hl)

theorem trimBy_eq_self {l : List α} (hh : ∀ x ∈ l.head?, pad x = false)
    (hl : ∀ x ∈ l.getLast?, pad x = false) : trimBy pad l = l := by
  rw [trimBy, dropWhile_eq_self hh, rdropWhile_eq_self hl]

theorem trimBy_of_forall {l : List α} (h : ∀ x ∈ l, pad x = false) : trimBy pad l = l :=
  trimBy_eq_self (fun x hx => h x (List.mem_of_mem_head? hx))
    (fun x hx => h x (List.mem_of_mem_getLast? hx))

theorem dropWhile_congr {pad' : α → Bool} {l : List α} (h : ∀ x ∈ l, pad x = pad' x) :
    l.dropWhile pad = l.dropWhile pad' := by
  induction l with
  | nil => rfl
  | cons x l ih =>
    rw [List.dropWhile_cons, List.dropWhile_cons, h x (by simp),
      ih fun y hy => h y (List.mem_cons_of_mem _ hy)]

theorem trimBy_congr {pad' : α → Bool} {l : List α} (h : ∀ x ∈ l, pad x = pad' x) :
    trimBy pad l = trimBy pad' l := by
  have hr : ∀ x ∈ (l.dropWhile pad').reverse, pad x = pad' x :=
    fun x hx => h x ((List.dropWhile_sublist _).mem (List.mem_reverse.1 hx))
  rw [trimBy, trimBy, dropWhile_congr h, List.rdropWhile, List.rdropWhile, dropWhile_congr hr]

theorem mem_of_mem_trimBy {l : List α} {x : α} (h : x ∈ trimBy pad l) : x ∈ l :=
  (List.dropWhile_sublist pad).mem ((List.rdropWhile_prefix pad _).sublist.mem h)

theorem mem_trimBy {l : List α} {x : α} (h : x ∈ l) (hx : pad x = false) : x ∈ trimBy pad l := by
  have h1 : x ∈ l.dropWhile pad := by
    rw [← List.takeWhile_append_dropWhile (p := pad) (l := l), List.mem_append] at h
    rcases h with h | h
    · rw [List.mem_takeWhile_imp h] at hx; cases hx
    · exact h
  rw [← List.rdropWhile_append_rtakeWhile (p := pad) (l := l.dropWhile pad), List.mem_append] at h1
  rcases h1 with h1 | h1
  · exact h1
  · rw [List.mem_rtakeWhile_imp h1] at hx; cases hx

theorem rdropWhile_append_cons {x : α} (hx : pad x = false) (a l : List α) :
    (a ++ x :: l).rdropWhile pad = a ++ x :: l.rdropWhile pad := by
  induction l using List.reverseRecOn with
  | nil => rw [List.rdropWhile_nil]; exact List.rdropWhile_concat_neg _ _ _ (by simp [hx])
  | append_singleton l y ih =>
    rw [← List.cons_append, ← List.append_assoc]
    by_cases hy : pad y = true
    · rw [List.rdropWhile_concat_pos _ _ _ hy, List.rdropWhile_concat_pos _ _ _ hy, ih]
    · rw [List.rdropWhile_concat_neg _ _ _ hy, List.rdropWhile_concat_neg _ _ _ hy]; simp

theorem trimBy_append_cons {x : α} {a : List α} (hx : pad x = false) (ha : ∀ y ∈ a.head?, pad y = false)
    (hne : a ≠ []) (l : List α) : trimBy pad (a ++ x :: l) = a ++ x :: l.rdropWhile pad := by
  have h : (a ++ x :: l).dropWhile pad = a ++ x :: l := by
    refine dropWhile_eq_self fun y hy => ha y ?_
    obtain ⟨z, a, rfl⟩ := List.exists_cons_of_ne_nil hne
    exact hy
  rw [trimBy, h, rdropWhile_append_cons hx]

/-! ### Words -/

def words (p : α → Bool) (l : List α) : List (List α) := (l.splitOnP p).filter fun w => !w.isEmpty

variable {p : α → Bool}

theorem words_append_of_sep {x : α} (hx : p x = true) (l₁ l₂ : List α) :
    words p (l₁ ++ x :: l₂) = words p l₁ ++ words p l₂ := by
  rw [words, List.splitOnP_append_cons _ _ hx, List.filter_append]; rfl

theorem words_cons_of_sep {x : α} (hx : p x = true) (l : List α) : words p (x :: l) = words p l :=
  words_append_of_sep hx [] l

theorem forall_of_mem_splitOnP {l w : List α} (hw : w ∈ l.splitOnP p) : ∀ x ∈ w, p x = false ∧ x ∈ l := by
  induction l generalizing w with
  | nil =>
    rw [List.splitOnP_nil, List.mem_singleton] at hw
    simp [hw]
  | cons y l ih =>
    have hl : ∀ {w : List α}, w ∈ l.splitOnP p → ∀ x ∈ w, p x = false ∧ x ∈ y :: l :=
      fun hw x hx => ⟨(ih hw x hx).1, List.mem_cons_of_mem _ (ih hw x hx).2⟩
    obtain ⟨v, vs, hvs⟩ := List.exists_cons_of_ne_nil (List.splitOnP_ne_nil p l)
    rw [List.splitOnP_cons_eq_if_modifyHead, hvs] at hw
    rw [hvs] at hl
    split at hw
    · rcases List.mem_cons.1 hw with rfl | hw
      · exact fun x hx => absurd hx List.not_mem_nil
      · exact hl hw
    · next hy =>
      rw [List.modifyHead_cons] at hw
      rcases List.mem_cons.1 hw with rfl | hw
      · refine List.forall_mem_cons.2 ⟨⟨by simpa using hy, List.mem_cons_self ..⟩,
          hl (List.mem_cons_self ..)⟩
      · exact hl (List.mem_cons_of_mem _ hw)

theorem of_mem_words {l w : List α} (hw : w ∈ words p l) : w ≠ [] ∧ ∀ x ∈ w, p x = false ∧ x ∈ l := by
  obtain ⟨hmem, hne⟩ := List.mem_filter.1 hw
  exact ⟨by simpa using hne, forall_of_mem_splitOnP hmem⟩

theorem words_of_forall {l : List α} (h : ∀ x ∈ l, p x = false) (hl : l ≠ []) : words p l = [l] := by
  rw [words, List.splitOnP_eq_singleton h]; simp [hl]

theorem words_append_of_forall {a : List α} (ha : ∀ x ∈ a, p x = true) (l : List α) :
    words p (a ++ l) = words p l := by
  induction a with
  | nil => rfl
  | cons x a ih =>
    rw [List.cons_append, words_cons_of_sep (ha x (List.mem_cons_self ..)),
      ih fun y hy => ha y (List.mem_cons_of_mem _ hy)]

theorem words_append_of_forall_right {b : List α} (hb : ∀ x ∈ b, p x = true) (l : List α) :
    words p (l ++ b) = words p l := by
  cases b with
  | nil => rw [List.append_nil]
  | cons x b =>
    rw [words_append_of_sep (hb x (List.mem_cons_self ..)), ← List.append_nil b,
      words_append_of_forall fun y hy => hb y (List.mem_cons_of_mem _ hy)]
    exact List.append_nil _

/-- Padding around a text is no word of it. -/
theorem words_trimBy (l : List α) : words p (trimBy p l) = words p l := by
  have h1 : words p (trimBy p l) = words p (l.dropWhile p) := by
    conv_rhs => rw [← List.rdropWhile_append_rtakeWhile (p := p) (l := l.dropWhile p)]
    rw [words_append_of_forall_right fun x hx => List.mem_rtakeWhile_imp hx, trimBy]
  rw [h1]
  conv_rhs => rw [← List.takeWhile_append_dropWhile (p := p) (l := l)]
  rw [words_append_of_forall fun x hx => List.mem_takeWhile_imp hx]

/-! ### Reading a separated list -/

variable [DecidableEq α]

/-- The words of `l` between the separators, without the padding around them. -/
def elements (sep : α) (pad : α → Bool) (l : List α) : List (List α) :=
  (l.splitOn sep).map (trimBy pad)

variable {sep : α}

theorem splitOn_append_left {a : List α} (ha : sep ∉ a) (l : List α) :
    (a ++ l).splitOn sep = (l.splitOn sep).modifyHead (a ++ ·) := by
  induction a with
  | nil => cases h : l.splitOn sep <;> simp [h]
  | cons x a ih =>
    have hx : ¬ x = sep := fun h => ha (h ▸ List.mem_cons_self)
    rw [List.cons_append, List.splitOn_cons_eq_if_modifyHead, ih fun h => ha (List.mem_cons_of_mem _ h)]
    simp only [beq_iff_eq, hx, if_false, List.modifyHead_modifyHead]
    rfl

theorem map_splitOn_append_left {β : Type*} {f : List α → β} {a : List α} (hsep : sep ∉ a)
    (hf : ∀ l, f (a ++ l) = f l) (l : List α) :
    ((a ++ l).splitOn sep).map f = (l.splitOn sep).map f := by
  rw [splitOn_append_left hsep]
  obtain ⟨w, ws, hw⟩ := List.exists_cons_of_ne_nil (List.splitOn_ne_nil sep l)
  simp [hw, hf]

theorem map_splitOn_join {β : Type*} {f : List α → β} {a : List α} (hsep : sep ∉ a)
    (hf : ∀ l, f (a ++ l) = f l) : ∀ {ls : List (List α)}, ls ≠ [] →
      (((sep :: a).intercalate ls).splitOn sep).map f = ls.flatMap fun l => (l.splitOn sep).map f
  | [], h => absurd rfl h
  | [l], _ => by simp
  | l :: l' :: ls, _ => by
    rw [List.intercalate_cons_cons, List.append_assoc, List.cons_append,
      List.splitOn_append_cons_self, List.map_append, map_splitOn_append_left hsep hf,
      map_splitOn_join hsep hf (by simp)]
    rfl

theorem elements_of_not_mem {l : List α} (h : sep ∉ l) : elements sep pad l = [trimBy pad l] := by
  rw [elements, List.splitOn_eq_singleton h]; rfl

omit [DecidableEq α] in
theorem mem_intercalate {s : List α} {ls : List (List α)} {w : List α} (hw : w ∈ ls) {x : α} (hx : x ∈ w) :
    x ∈ s.intercalate ls := by
  induction ls with
  | nil => cases hw
  | cons l ls ih =>
    cases ls with
    | nil => simpa [List.mem_singleton.1 hw] using hx
    | cons l' ls =>
      rw [List.intercalate_cons_cons, List.mem_append, List.mem_append]
      rcases List.mem_cons.1 hw with rfl | hw
      · exact .inl (.inl hx)
      · exact .inr (ih hw)

theorem mem_of_mem_splitOn {l w : List α} {x : α} (hw : w ∈ l.splitOn sep) (hx : x ∈ w) : x ∈ l :=
  (forall_of_mem_splitOnP hw x hx).2

theorem sep_not_mem_of_mem_splitOn {l w : List α} (hw : w ∈ l.splitOn sep) : sep ∉ w := fun hx =>
  absurd (forall_of_mem_splitOnP hw sep hx).1 (by simp)

end CommaList

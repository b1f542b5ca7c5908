import Mathlib.Algebra.Order.BigOperators.Group.List
import Mathlib.Algebra.Order.Ring.Nat

/-!
# Lists written with a separator and quotes

A text with a quote `q` and an escape `e` is read letter by letter: outside quotes, inside, or right
behind an escape. `pieces` splits it at the separators outside quotes and `unquote` reads a quoted
text back. A text whose quotes are all closed splits apart from what is written behind it
(`pieces_append_sep`), and a separator inside quotes does not count (`pieces_append`).
-/

namespace QuotedList

variable {α : Type*} [DecidableEq α]

/-- Where a reader stands. -/
inductive Mode
  | plain
  | quoted
  | escaped
deriving DecidableEq

/-- Where it stands after one more letter. -/
def Mode.next (q e : α) : Mode → α → Mode
  | plain, x => if x = q then quoted else plain
  | quoted, x => if x = q then plain else if x = e then escaped else quoted
  | escaped, _ => quoted

def scan (q e : α) (m : Mode) (l : List α) : Mode := l.foldl (Mode.next q e) m

/-- The text between the separators outside quotes. -/
def pieces (q e sep : α) : Mode → List α → List (List α)
  | _, [] => [[]]
  | m, x :: l =>
    let ps := pieces q e sep (m.next q e x) l
    if m = .plain ∧ x = sep then [] :: ps else ps.modifyHead (x :: ·)

/-- The text before a closing quote that ends `l`, without its escapes. -/
def unquote (q e : α) (escaped : Bool) : List α → Option (List α)
  | [] => none
  | x :: l =>
    if escaped then (unquote q e false l).map (x :: ·)
    else if x = q then if l = [] then some [] else none
    else if x = e then unquote q e true l
    else (unquote q e false l).map (x :: ·)

variable {q e sep x : α} {m : Mode} {esc : Bool} {l a b p v : List α}

/-! ### Scanning -/

theorem scan_append : scan q e m (a ++ b) = scan q e (scan q e m a) b := List.foldl_append

theorem scan_plain_of_not_mem (h : q ∉ a) : scan q e .plain a = .plain := by
  induction a with
  | nil => rfl
  | cons x a ih =>
    have hx : ¬ x = q := fun hx => h (hx ▸ List.mem_cons_self)
    rw [scan, List.foldl_cons, Mode.next, if_neg hx]
    exact ih fun ha => h (List.mem_cons_of_mem _ ha)

theorem scan_quoted_of_not_mem (hq : q ∉ a) (he : e ∉ a) : scan q e .quoted a = .quoted := by
  induction a with
  | nil => rfl
  | cons x a ih =>
    have hx : ¬ x = q := fun hx => hq (hx ▸ List.mem_cons_self)
    have hy : ¬ x = e := fun hy => he (hy ▸ List.mem_cons_self)
    rw [scan, List.foldl_cons, Mode.next, if_neg hx, if_neg hy]
    exact ih (fun ha => hq (List.mem_cons_of_mem _ ha)) fun ha => he (List.mem_cons_of_mem _ ha)

theorem scan_quote (hq : q ∉ a) (he : e ∉ a) : scan q e .plain (q :: a ++ [q]) = .plain := by
  have h : scan q e .plain (q :: a) = scan q e .quoted a := by
    rw [scan, List.foldl_cons, Mode.next, if_pos rfl]; rfl
  rw [scan_append, h, scan_quoted_of_not_mem hq he, scan, List.foldl_cons, Mode.next, if_pos rfl]; rfl

/-! ### Splitting -/

theorem pieces_cons_sep (hsep : sep ≠ q) :
    pieces q e sep .plain (sep :: l) = [] :: pieces q e sep .plain l := by
  simp [pieces, Mode.next, hsep]

theorem pieces_cons (h : ¬ (m = .plain ∧ x = sep)) :
    pieces q e sep m (x :: l) = (pieces q e sep (m.next q e x) l).modifyHead (x :: ·) := if_neg h

theorem pieces_ne_nil : pieces q e sep m l ≠ [] := by
  induction l generalizing m with
  | nil => simp [pieces]
  | cons x l ih =>
    rw [pieces]
    split
    · simp
    · simpa using ih

theorem exists_pieces_eq_cons (q e sep : α) (m : Mode) (l : List α) :
    ∃ p ps, pieces q e sep m l = p :: ps :=
  List.exists_cons_of_ne_nil pieces_ne_nil

theorem intercalate_pieces (q e sep : α) (m : Mode) (l : List α) :
    [sep].intercalate (pieces q e sep m l) = l := by
  induction l generalizing m with
  | nil => simp [pieces]
  | cons x l ih =>
    have hl := ih (m.next q e x)
    obtain ⟨p, ps, hp⟩ := exists_pieces_eq_cons q e sep (m.next q e x) l
    simp only [pieces]
    split
    · next h =>
      rw [hp] at hl ⊢
      rw [List.intercalate_cons_cons, hl, h.2]; rfl
    · rw [hp] at hl ⊢
      rw [List.modifyHead_cons, ← hl]
      cases ps <;> simp [List.intercalate_cons_cons]

theorem pieces_append_sep (hsep : sep ≠ q) (h : scan q e m a = .plain) :
    pieces q e sep m (a ++ sep :: b) = pieces q e sep m a ++ pieces q e sep .plain b := by
  induction a generalizing m with
  | nil =>
    have hm : m = .plain := h
    rw [hm, List.nil_append, pieces_cons_sep hsep]; rfl
  | cons x a ih =>
    have hx := ih (m := m.next q e x) h
    simp only [List.cons_append, pieces, hx]
    obtain ⟨p, ps, hp⟩ := exists_pieces_eq_cons q e sep (m.next q e x) a
    rw [hp]
    split <;> rfl

theorem pieces_append (h : pieces q e sep m a = [a]) :
    pieces q e sep m (a ++ b) = (pieces q e sep (scan q e m a) b).modifyHead (a ++ ·) := by
  induction a generalizing m with
  | nil =>
    obtain ⟨p, ps, hp⟩ := exists_pieces_eq_cons q e sep m b
    show pieces q e sep m b = (pieces q e sep m b).modifyHead ([] ++ ·)
    rw [hp]; rfl
  | cons x a ih =>
    have hx : ¬ (m = .plain ∧ x = sep) := by
      intro hx
      simp [pieces, hx] at h
    obtain ⟨p, ps, hp⟩ := exists_pieces_eq_cons q e sep (m.next q e x) a
    have ha : pieces q e sep (m.next q e x) a = [a] := by
      rw [pieces_cons hx, hp] at h
      rw [hp]; simpa using h
    rw [List.cons_append, pieces_cons hx, ih ha, List.modifyHead_modifyHead]; rfl

theorem pieces_append_self (ha : pieces q e sep m a = [a]) (hb : pieces q e sep (scan q e m a) b = [b]) :
    pieces q e sep m (a ++ b) = [a ++ b] := by
  rw [pieces_append ha, hb]; rfl

theorem pieces_of_not_mem (h : sep ∉ a) : pieces q e sep m a = [a] := by
  induction a generalizing m with
  | nil => rfl
  | cons x a ih =>
    have hx : ¬ x = sep := fun hx => h (hx ▸ List.mem_cons_self)
    rw [pieces_cons fun hm => hx hm.2, ih fun ha => h (List.mem_cons_of_mem _ ha)]; rfl

theorem pieces_quoted (hq : q ∉ a) (he : e ∉ a) : pieces q e sep .quoted (a ++ [q]) = [a ++ [q]] := by
  induction a with
  | nil => simp [pieces]
  | cons x a ih =>
    have hx : ¬ x = q := fun hx => hq (hx ▸ List.mem_cons_self)
    have hy : ¬ x = e := fun hy => he (hy ▸ List.mem_cons_self)
    rw [List.cons_append, pieces_cons (by simp), Mode.next, if_neg hx, if_neg hy,
      ih (fun ha => hq (List.mem_cons_of_mem _ ha)) fun ha => he (List.mem_cons_of_mem _ ha)]
    rfl

theorem pieces_quote (hsep : sep ≠ q) (hq : q ∉ a) (he : e ∉ a) :
    pieces q e sep .plain (q :: a ++ [q]) = [q :: a ++ [q]] := by
  rw [List.cons_append, pieces_cons fun h => hsep h.2.symm, Mode.next, if_pos rfl, pieces_quoted hq he]
  rfl

theorem eq_of_pieces_eq_singleton (h : pieces q e sep m l = [p]) : p = l := by
  rw [← intercalate_pieces q e sep m l, h, List.intercalate_singleton]

/-! ### Letters and lengths of the pieces -/

theorem sum_length_pieces (q e sep : α) (m : Mode) (l : List α) :
    ((pieces q e sep m l).map List.length).sum + (pieces q e sep m l).length = l.length + 1 := by
  induction l generalizing m with
  | nil => simp [pieces]
  | cons x l ih =>
    have hl := ih (m.next q e x)
    simp only [pieces]
    split
    · simp only [List.map_cons, List.sum_cons, List.length_cons, List.length_nil]; omega
    · obtain ⟨p, ps, hp⟩ := exists_pieces_eq_cons q e sep (m.next q e x) l
      rw [hp] at hl ⊢
      simp only [List.modifyHead_cons, List.map_cons, List.sum_cons, List.length_cons] at hl ⊢
      omega

theorem eq_of_mem_pieces_of_length (hp : p ∈ pieces q e sep m l) (h : l.length ≤ p.length) : p = l := by
  have hsum := sum_length_pieces q e sep m l
  have hle : p.length ≤ ((pieces q e sep m l).map List.length).sum :=
    List.single_le_sum (by simp) _ (List.mem_map_of_mem hp)
  obtain ⟨w, hw⟩ := List.length_eq_one_iff.1 (by
    have := List.length_pos_of_mem hp
    omega : (pieces q e sep m l).length = 1)
  rw [hw, List.mem_singleton] at hp
  exact hp.trans (eq_of_pieces_eq_singleton hw)

theorem mem_of_mem_pieces (hp : p ∈ pieces q e sep m l) (hx : x ∈ p) : x ∈ l := by
  induction l generalizing m p with
  | nil => simp only [pieces, List.mem_singleton] at hp; exact hp ▸ hx
  | cons y l ih =>
    simp only [pieces] at hp
    split at hp
    · rcases List.mem_cons.1 hp with rfl | hp
      · cases hx
      · exact List.mem_cons_of_mem _ (ih hp hx)
    · obtain ⟨w, ws, hw⟩ := exists_pieces_eq_cons q e sep (m.next q e y) l
      rw [hw, List.modifyHead_cons] at hp
      rcases List.mem_cons.1 hp with rfl | hp
      · rcases List.mem_cons.1 hx with rfl | hx
        · exact List.mem_cons_self
        · exact List.mem_cons_of_mem _ (ih (hw ▸ List.mem_cons_self) hx)
      · exact List.mem_cons_of_mem _ (ih (hw ▸ List.mem_cons_of_mem _ hp) hx)

theorem exists_mem_pieces (hx : x ∈ l) (hsep : x ≠ sep) : ∃ p ∈ pieces q e sep m l, x ∈ p := by
  induction l generalizing m with
  | nil => cases hx
  | cons y l ih =>
    simp only [pieces]
    split
    · next h =>
      rcases List.mem_cons.1 hx with rfl | hx
      · exact absurd h.2 hsep
      · obtain ⟨p, hp, hxp⟩ := ih hx
        exact ⟨p, List.mem_cons_of_mem _ hp, hxp⟩
    · obtain ⟨w, ws, hw⟩ := exists_pieces_eq_cons q e sep (m.next q e y) l
      rw [hw, List.modifyHead_cons]
      rcases List.mem_cons.1 hx with rfl | hx
      · exact ⟨_, List.mem_cons_self, List.mem_cons_self⟩
      · obtain ⟨p, hp, hxp⟩ := ih (m := m.next q e y) hx
        rw [hw] at hp
        rcases List.mem_cons.1 hp with rfl | hp
        · exact ⟨_, List.mem_cons_self, List.mem_cons_of_mem _ hxp⟩
        · exact ⟨p, List.mem_cons_of_mem _ hp, hxp⟩

/-! ### Unquoting -/

/-- A text in quotes without quotes or escapes in it is read as it stands. -/
theorem unquote_append_quote (hq : q ∉ v) (he : e ∉ v) : unquote q e false (v ++ [q]) = some v := by
  induction v with
  | nil => simp [unquote]
  | cons x v ih =>
    have hx : ¬ x = q := fun hx => hq (hx ▸ List.mem_cons_self)
    have hy : ¬ x = e := fun hy => he (hy ▸ List.mem_cons_self)
    simp only [List.cons_append, unquote, Bool.false_eq_true, if_false, if_neg hx, if_neg hy,
      ih (fun h => hq (List.mem_cons_of_mem _ h)) fun h => he (List.mem_cons_of_mem _ h), Option.map_some]

theorem unquote_length (h : unquote q e esc l = some v) :
    v.length < l.length ∧ (l.length = v.length + 1 → esc = false → q ∉ v ∧ e ∉ v) := by
  fun_induction unquote q e esc l generalizing v with
  | case1 => cases h
  | case2 x l ih =>
    obtain ⟨w, hw, rfl⟩ := Option.map_eq_some_iff.1 h
    have := (ih hw).1
    simp only [List.length_cons]
    exact ⟨by omega, fun _ hf => by cases hf⟩
  | case3 => cases h; simp
  | case4 => cases h
  | case5 esc l hesc hx ih =>
    have := (ih h).1
    simp only [List.length_cons]
    exact ⟨by omega, by omega⟩
  | case6 esc x l hesc hx hy ih =>
    obtain ⟨w, hw, rfl⟩ := Option.map_eq_some_iff.1 h
    obtain ⟨h1, h2⟩ := ih hw
    simp only [List.length_cons, List.mem_cons, not_or]
    refine ⟨by omega, fun hl _ => ?_⟩
    obtain ⟨hq, he⟩ := h2 (by omega) rfl
    exact ⟨⟨Ne.symm hx, hq⟩, Ne.symm hy, he⟩

omit [DecidableEq α] in
theorem mem_cons_mono {y : α} (h : x ∈ a → x ∈ b) (hx : x ∈ y :: a) : x ∈ y :: b :=
  (List.mem_cons.1 hx).elim (fun hy => hy ▸ List.mem_cons_self) fun ha => List.mem_cons_of_mem _ (h ha)

theorem mem_of_mem_unquote (h : unquote q e esc l = some v) (hx : x ∈ v) : x ∈ l := by
  fun_induction unquote q e esc l generalizing v with
  | case1 => cases h
  | case2 y l ih =>
    obtain ⟨w, hw, rfl⟩ := Option.map_eq_some_iff.1 h
    exact mem_cons_mono (ih hw) hx
  | case3 => cases h; cases hx
  | case4 => cases h
  | case5 esc l hesc hy ih => exact List.mem_cons_of_mem _ (ih h hx)
  | case6 esc y l hesc hy hz ih =>
    obtain ⟨w, hw, rfl⟩ := Option.map_eq_some_iff.1 h
    exact mem_cons_mono (ih hw) hx

theorem mem_unquote (h : unquote q e esc l = some v) (hx : x ∈ l) (hq : x ≠ q) (he : x ≠ e) : x ∈ v := by
  fun_induction unquote q e esc l generalizing v with
  | case1 => cases h
  | case2 y l ih =>
    obtain ⟨w, hw, rfl⟩ := Option.map_eq_some_iff.1 h
    exact mem_cons_mono (ih hw) hx
  | case3 =>
    rcases List.mem_cons.1 hx with rfl | hx
    · exact absurd rfl hq
    · cases hx
  | case4 => cases h
  | case5 esc l hesc hy ih =>
    rcases List.mem_cons.1 hx with rfl | hx
    · exact absurd rfl he
    · exact ih h hx
  | case6 esc y l hesc hy hz ih =>
    obtain ⟨w, hw, rfl⟩ := Option.map_eq_some_iff.1 h
    exact mem_cons_mono (ih hw) hx

/-! ### Reading every piece -/

omit [DecidableEq α]

variable {β : Type*} {f : α → Option β} {xs : List α} {ys : List β}

theorem mem_of_mapM (h : xs.mapM f = some ys) :
    (∀ y ∈ ys, ∃ x ∈ xs, f x = some y) ∧ ∀ x ∈ xs, ∃ y ∈ ys, f x = some y := by
  induction xs generalizing ys with
  | nil => cases h; simp
  | cons x xs ih =>
    rw [List.mapM_cons] at h
    obtain ⟨y, hy, h⟩ := Option.bind_eq_some_iff.1 h
    obtain ⟨ys, hys, h⟩ := Option.bind_eq_some_iff.1 h
    cases h
    obtain ⟨h1, h2⟩ := ih hys
    constructor
    · intro z hz
      rcases List.mem_cons.1 hz with rfl | hz
      · exact ⟨x, by simp, hy⟩
      · obtain ⟨w, hw, hf⟩ := h1 z hz
        exact ⟨w, List.mem_cons_of_mem _ hw, hf⟩
    · intro z hz
      rcases List.mem_cons.1 hz with rfl | hz
      · exact ⟨y, by simp, hy⟩
      · obtain ⟨w, hw, hf⟩ := h2 z hz
        exact ⟨w, List.mem_cons_of_mem _ hw, hf⟩

theorem length_of_mapM (h : xs.mapM f = some ys) : ys.length = xs.length := by
  induction xs generalizing ys with
  | nil => cases h; rfl
  | cons x xs ih =>
    rw [List.mapM_cons] at h
    obtain ⟨y, -, h⟩ := Option.bind_eq_some_iff.1 h
    obtain ⟨ys, hys, h⟩ := Option.bind_eq_some_iff.1 h
    cases h
    rw [List.length_cons, List.length_cons, ih hys]

end QuotedList

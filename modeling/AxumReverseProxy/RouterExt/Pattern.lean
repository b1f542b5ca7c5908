import AxumReverseProxy.RouterExt.Route

/-!
# Route patterns

axum matches a path with a pattern segment by segment; `proxy_route` reads the literal prefix off the text
of the pattern, up to its first `{`. The text has literal braces doubled and a parameter may begin in the
middle of a segment, so that the prefix is not always the literal segments (`routeLiteralPrefix_text_iff`).
-/

namespace AxumReverseProxy

/-- A segment of a pattern: a text, or a parameter with a text before it. -/
inductive Segment
  | literal (s : Str)
  | param (pre name : Str)
deriving DecidableEq

/-- The name of a parameter. -/
def IsName (name : Str) : Prop := name ≠ [] ∧ ∀ c ∈ name, c ∉ "/*\x7b\x7d".toList

instance (name : Str) : Decidable (IsName name) := inferInstanceAs (Decidable (_ ∧ _))

/-- A brace that stands for itself is doubled. -/
def escapeBraces (s : Str) : Str := s.flatMap fun c => if c = '{' ∨ c = '}' then [c, c] else [c]

namespace Segment

def text : Segment → Str
  | literal s => escapeBraces s
  | param pre name => escapeBraces pre ++ '{' :: (name ++ ['}'])

def WellFormed : Segment → Prop
  | literal s => '/' ∉ s
  | param pre name => '/' ∉ pre ∧ IsName name

instance : (s : Segment) → Decidable s.WellFormed
  | literal _ => inferInstanceAs (Decidable (_ ∉ _))
  | param _ _ => inferInstanceAs (Decidable (_ ∧ _))

end Segment

/-- A pattern axum takes; `rest?` is the name of a final `{*rest}`. -/
structure RoutePattern where
  segments : List Segment
  rest? : Option Str
  wellFormed : ∀ s ∈ segments, s.WellFormed
  isName : ∀ name ∈ rest?, IsName name
  ne_nil : segments ≠ [] ∨ rest? ≠ none

/-- The segments match the path. -/
inductive SegmentsMatch (rest? : Option Str) : List Segment → Str → Prop
  | done : rest? = none → SegmentsMatch rest? [] []
  | rest {r : Str} : rest? ≠ none → r ≠ [] → SegmentsMatch rest? [] ('/' :: r)
  | literal {s p : Str} {segments : List Segment} :
    SegmentsMatch rest? segments p → SegmentsMatch rest? (.literal s :: segments) ('/' :: s ++ p)
  | param {pre name v p : Str} {segments : List Segment} : v ≠ [] → '/' ∉ v →
    SegmentsMatch rest? segments p → SegmentsMatch rest? (.param pre name :: segments)
      ('/' :: (pre ++ v) ++ p)

/-- The literal segments before the first parameter. -/
def leading : List Segment → List Str
  | .literal s :: segments => s :: leading segments
  | _ => []

/-- The text before the first parameter in its segment. -/
def firstPre : List Segment → Str
  | .literal _ :: segments => firstPre segments
  | .param pre _ :: _ => pre
  | [] => []

def joinSegments (l : List Str) : Str := l.flatMap ('/' :: ·)

namespace RoutePattern

def text (pat : RoutePattern) : Str :=
  (joinSegments (pat.segments.map Segment.text)) ++
    match pat.rest? with
    | some name => "/\x7b*".toList ++ name ++ ['}']
    | none => []

def Matches (pat : RoutePattern) (path : Str) : Prop := SegmentsMatch pat.rest? pat.segments path

/-- The literal segments before the first parameter, without trailing slashes. -/
def literalPrefix (pat : RoutePattern) : Str := (joinSegments (leading pat.segments)).trimEndMatches '/'

end RoutePattern

variable {pat : RoutePattern} {path s t : Str} {c : Char} {segments : List Segment} {rest? : Option Str}

example : RoutePattern.text ⟨[.literal "a\x7b".toList, .param ['v'] "n".toList],
    some "r".toList, by decide, by decide, by decide⟩ =
    "/a\x7b\x7b/v\x7bn\x7d/\x7b*r\x7d".toList := by decide

/-! ### Texts -/

theorem routeLiteralPrefix_eq_takeWhile (pattern : Str) :
    routeLiteralPrefix pattern = Str.trimEndMatches (pattern.takeWhile (· ≠ '{')) '/' := by
  unfold routeLiteralPrefix Str.splitOnce
  cases h : pattern.dropWhile (· ≠ '{') with
  | nil =>
    have hall := List.takeWhile_append_dropWhile (p := fun c : Char => decide (c ≠ '{')) (l := pattern)
    rw [h, List.append_nil] at hall
    rw [hall]
  | cons c rest => rfl

theorem escapeBraces_cons (c : Char) (s : Str) :
    escapeBraces (c :: s) = (if c = '{' ∨ c = '}' then [c, c] else [c]) ++ escapeBraces s := rfl

theorem escapeBraces_append (s t : Str) : escapeBraces (s ++ t) = escapeBraces s ++ escapeBraces t :=
  List.flatMap_append

theorem escapeBraces_of_braceless (ho : '{' ∉ s) (hc : '}' ∉ s) : escapeBraces s = s := by
  induction s with
  | nil => rfl
  | cons c s ih =>
    rw [List.mem_cons, not_or] at ho hc
    rw [escapeBraces_cons, if_neg (not_or.2 ⟨Ne.symm ho.1, Ne.symm hc.1⟩), ih ho.2 hc.2]
    rfl

theorem mem_escapeBraces : c ∈ escapeBraces s ↔ c ∈ s := by
  rw [escapeBraces, List.mem_flatMap]
  constructor
  · rintro ⟨d, hd, h⟩
    have hcd : c = d := by
      split at h
      · simpa using h
      · exact List.mem_singleton.1 h
    exact hcd ▸ hd
  · intro h
    exact ⟨c, h, by split <;> simp⟩

theorem count_escapeBraces (s : Str) : (escapeBraces s).count '}' = 2 * s.count '}' := by
  induction s with
  | nil => rfl
  | cons c s ih =>
    rw [escapeBraces_cons, List.count_append, ih, List.count_cons]
    by_cases hc : c = '}'
    · subst hc
      rw [if_pos (.inr rfl)]
      simp only [List.count_cons_self, List.count_nil, beq_self_eq_true, if_true]
      omega
    · have h0 : (if c = '{' ∨ c = '}' then [c, c] else [c]).count '}' = 0 := by
        rw [List.count_eq_zero]
        split <;> simp [Ne.symm hc]
      rw [h0, if_neg (by simpa using hc)]
      omega

theorem count_trimEndMatches (hc : c ≠ '/') (s : Str) : (s.trimEndMatches '/').count c = s.count c := by
  have hsplit := List.rdropWhile_append_rtakeWhile (p := (· == '/')) (l := s)
  have h0 : (s.rtakeWhile (· == '/')).count c = 0 :=
    List.count_eq_zero.2 fun hmem => hc (by simpa using List.mem_rtakeWhile_imp hmem)
  conv_rhs => rw [← hsplit, List.count_append, h0]
  rfl

theorem trimEndMatches_append_of_not_mem (s : Str) (ht : t ≠ []) (hs : '/' ∉ t) :
    Str.trimEndMatches (s ++ t) '/' = s ++ t := by
  refine Str.trimEndMatches_eq_self fun hlast => ?_
  rw [List.getLast?_append_of_ne_nil _ ht, List.getLast?_eq_some_getLast ht, Option.some.injEq] at hlast
  exact hs (hlast ▸ List.getLast_mem ht)

/-- What is trimmed is slashes. -/
theorem exists_trimEndMatches_append (s : Str) :
    ∃ t, s = s.trimEndMatches '/' ++ t ∧ (t = [] ∨ t.head? = some '/') := by
  refine ⟨s.rtakeWhile (· == '/'), List.rdropWhile_append_rtakeWhile.symm, ?_⟩
  cases h : s.rtakeWhile (· == '/') with
  | nil => exact .inl rfl
  | cons c t =>
    have hc : c ∈ s.rtakeWhile (· == '/') := h ▸ List.mem_cons_self ..
    obtain rfl : c = '/' := by simpa using List.mem_rtakeWhile_imp hc
    exact .inr rfl

/-! ### Patterns and paths -/

theorem joinSegments_cons (s : Str) (l : List Str) :
    joinSegments (s :: l) = '/' :: s ++ joinSegments l := rfl

theorem mem_joinSegments {l : List Str} (hc : c ≠ '/') : c ∈ joinSegments l ↔ ∃ s ∈ l, c ∈ s := by
  simp [joinSegments, hc]

/-- A path goes through the literal segments and then ends, or begins a new segment. -/
theorem SegmentsMatch.eq_append (h : SegmentsMatch rest? segments path) :
    ∃ q, path = joinSegments (leading segments) ++ q ∧ (q = [] ∨ q.head? = some '/') := by
  induction h with
  | done _ => exact ⟨[], rfl, .inl rfl⟩
  | @rest r _ _ => exact ⟨'/' :: r, rfl, .inr rfl⟩
  | @literal s p segments h ih =>
    obtain ⟨q, hq, hhead⟩ := ih
    exact ⟨q, by rw [leading, joinSegments_cons, hq, List.append_assoc], hhead⟩
  | @param pre name v p segments _ _ h ih => exact ⟨'/' :: (pre ++ v) ++ p, rfl, .inr rfl⟩

/-- What the text has behind the literal segments, up to a brace. -/
inductive IsRest (pre : Str) : Str → Prop
  | nil : pre = [] → IsRest pre []
  | cons (u : Str) : IsRest pre ('/' :: (escapeBraces pre ++ '{' :: u))

theorem joinSegments_text {u : Str} (hu : IsRest [] u) (segments : List Segment) :
    ∃ v, joinSegments (segments.map Segment.text) ++ u =
      escapeBraces (joinSegments (leading segments)) ++ v ∧
      IsRest (firstPre segments) v := by
  induction segments with
  | nil => exact ⟨u, rfl, hu⟩
  | cons seg segments ih =>
    cases seg with
    | literal s =>
      obtain ⟨v, hv, hrest⟩ := ih
      refine ⟨v, ?_, hrest⟩
      rw [List.map_cons, joinSegments_cons, List.append_assoc, hv, leading, joinSegments_cons,
        List.cons_append,
        List.cons_append, escapeBraces_cons, if_neg (by decide), escapeBraces_append, List.append_assoc,
        List.append_assoc]
      rfl
    | param pre name =>
      refine ⟨_, ?_, .cons (name ++ ['}'] ++ (joinSegments (segments.map Segment.text) ++ u))⟩
      simp [joinSegments, leading, firstPre, Segment.text, escapeBraces]

theorem text_eq_append (pat : RoutePattern) :
    ∃ u, pat.text = escapeBraces (joinSegments (leading pat.segments)) ++ u ∧
      IsRest (firstPre pat.segments) u := by
  refine joinSegments_text ?_ pat.segments
  cases pat.rest? with
  | none => exact .nil rfl
  | some name => exact .cons ('*' :: name ++ ['}'])

/-! ### The literal prefix -/

theorem count_literalPrefix (pat : RoutePattern) (hc : c ≠ '/') :
    pat.literalPrefix.count c = (joinSegments (leading pat.segments)).count c := count_trimEndMatches hc _

/-- The prefix has no opening brace, and every closing brace of the literal segments twice. -/
theorem braceless_of_prefix_eq (h : routeLiteralPrefix pat.text = pat.literalPrefix) :
    '{' ∉ joinSegments (leading pat.segments) ∧ '}' ∉ joinSegments (leading pat.segments) := by
  obtain ⟨u, hu, -⟩ := text_eq_append pat
  rw [routeLiteralPrefix_eq_takeWhile] at h
  have ho : '{' ∉ joinSegments (leading pat.segments) := by
    rw [← List.count_eq_zero, ← count_literalPrefix pat (by decide), ← h, count_trimEndMatches (by decide),
      List.count_eq_zero]
    intro hmem
    simpa using List.mem_takeWhile_imp hmem
  refine ⟨ho, ?_⟩
  have hesc : ∀ c ∈ escapeBraces (joinSegments (leading pat.segments)), decide (c ≠ '{') = true :=
    fun c hc => decide_eq_true fun he => ho (he ▸ mem_escapeBraces.1 hc)
  have hcount := count_literalPrefix pat (c := '}') (by decide)
  rw [← h, count_trimEndMatches (by decide), hu, List.takeWhile_append_of_pos hesc, List.count_append,
    count_escapeBraces] at hcount
  rw [← List.count_eq_zero]
  omega

theorem slash_not_mem_firstPre {segments : List Segment} (h : ∀ s ∈ segments, s.WellFormed) :
    '/' ∉ firstPre segments := by
  induction segments with
  | nil => exact List.not_mem_nil
  | cons seg segments ih =>
    cases seg with
    | literal s => exact ih fun s hs => h s (List.mem_cons_of_mem _ hs)
    | param pre name => exact (h _ (List.mem_cons_self ..)).1

/-- The text before a parameter is cut at its first brace. -/
theorem takeWhile_pre (pre u : Str) :
    (escapeBraces pre ++ '{' :: u).takeWhile (· ≠ '{') = (escapeBraces pre).takeWhile (· ≠ '{') := by
  rw [List.takeWhile_append]
  split
  · next h =>
    rw [List.takeWhile_cons_of_neg (by decide), List.append_nil]
    exact ((List.takeWhile_prefix _).eq_of_length h).symm
  · rfl

theorem takeWhile_pre_eq_nil_iff {pre : Str} :
    (escapeBraces pre).takeWhile (· ≠ '{') = [] ↔ pre = [] ∨ pre.head? = some '{' := by
  cases pre with
  | nil => simp [escapeBraces]
  | cons c pre =>
    have hhead : (escapeBraces (c :: pre)).head? = some c := by
      rw [escapeBraces_cons]
      split <;> rfl
    obtain ⟨t, ht⟩ := List.head?_eq_some_iff.1 hhead
    rw [ht, List.takeWhile_cons]
    simp

/-- Of literal segments without braces, the prefix is theirs when no text stands before the parameter. -/
theorem prefix_eq_iff_of_braceless (ho : '{' ∉ joinSegments (leading pat.segments))
    (hc : '}' ∉ joinSegments (leading pat.segments)) :
    routeLiteralPrefix pat.text = pat.literalPrefix ↔
      firstPre pat.segments = [] ∨ (firstPre pat.segments).head? = some '{' := by
  obtain ⟨u, hu, hrest⟩ := text_eq_append pat
  rw [escapeBraces_of_braceless ho hc] at hu
  have hpos : ∀ c ∈ joinSegments (leading pat.segments), decide (c ≠ '{') = true :=
    fun c hmem => decide_eq_true fun he => ho (he ▸ hmem)
  rw [routeLiteralPrefix_eq_takeWhile, hu, List.takeWhile_append_of_pos hpos, RoutePattern.literalPrefix]
  cases hrest with
  | nil hpre => simp [hpre]
  | cons u =>
    rw [List.takeWhile_cons_of_pos (by decide), takeWhile_pre, ← takeWhile_pre_eq_nil_iff]
    by_cases hw : (escapeBraces (firstPre pat.segments)).takeWhile (· ≠ '{') = []
    · rw [hw, trimEndMatches_append_slash]
      exact iff_of_true rfl rfl
    · refine iff_of_false (fun heq => ?_) hw
      -- the text before the parameter ends in no slash and is not trimmed
      have hslash : '/' ∉ (escapeBraces (firstPre pat.segments)).takeWhile (· ≠ '{') := fun hmem =>
        slash_not_mem_firstPre pat.wellFormed (mem_escapeBraces.1 ((List.takeWhile_prefix _).subset hmem))
      rw [List.append_cons, trimEndMatches_append_of_not_mem _ hw hslash] at heq
      have hle := (Str.trimEndMatches_isPrefix (joinSegments (leading pat.segments)) '/').length_le
      rw [← heq] at hle
      simp only [List.length_append, List.length_cons] at hle
      omega

theorem routeLiteralPrefix_text_iff (pat : RoutePattern) :
    routeLiteralPrefix pat.text = pat.literalPrefix ↔
      (∀ s ∈ leading pat.segments, '{' ∉ s ∧ '}' ∉ s) ∧
        (firstPre pat.segments = [] ∨ (firstPre pat.segments).head? = some '{') := by
  have hmem : (∀ s ∈ leading pat.segments, '{' ∉ s ∧ '}' ∉ s) ↔
      '{' ∉ joinSegments (leading pat.segments) ∧ '}' ∉ joinSegments (leading pat.segments) := by
    rw [mem_joinSegments (by decide), mem_joinSegments (by decide)]
    constructor
    · intro h
      exact ⟨fun ⟨s, hs, hc⟩ => (h s hs).1 hc, fun ⟨s, hs, hc⟩ => (h s hs).2 hc⟩
    · intro h s hs
      exact ⟨fun hc => h.1 ⟨s, hs, hc⟩, fun hc => h.2 ⟨s, hs, hc⟩⟩
  rw [hmem]
  constructor
  · intro h
    obtain ⟨ho, hc⟩ := braceless_of_prefix_eq h
    exact ⟨⟨ho, hc⟩, (prefix_eq_iff_of_braceless ho hc).1 h⟩
  · rintro ⟨⟨ho, hc⟩, h⟩
    exact (prefix_eq_iff_of_braceless ho hc).2 h

/-! ### What is stripped -/

theorem RoutePattern.Matches.eq_append (h : pat.Matches path) :
    ∃ q, path = pat.literalPrefix ++ q ∧ (q = [] ∨ q.head? = some '/') := by
  obtain ⟨q, rfl, hq⟩ := SegmentsMatch.eq_append h
  obtain ⟨t, ht, hhead⟩ := exists_trimEndMatches_append (joinSegments (leading pat.segments))
  refine ⟨t ++ q, ?_, ?_⟩
  · rw [← List.append_assoc, RoutePattern.literalPrefix, ← ht]
  · cases t with
    | nil => exact hq
    | cons c t => exact hhead.imp (fun h => absurd h (List.cons_ne_nil _ _)) id

/-- The remainder alone is right also where there is nothing to strip and the prefix does not apply. -/
theorem stripRoutePrefix_text_iff (h : pat.Matches path) :
    stripRoutePrefix path (routeLiteralPrefix pat.text) = path.drop pat.literalPrefix.length ↔
      routeLiteralPrefix pat.text = pat.literalPrefix ∨
        pat.literalPrefix = [] ∧ ¬ Continues (routeLiteralPrefix pat.text) path := by
  obtain ⟨q, hq, hhead⟩ := h.eq_append
  generalize routeLiteralPrefix pat.text = pre
  rw [stripRoutePrefix_eq]
  constructor
  · intro heq
    by_cases hpre : pre = pat.literalPrefix
    · exact .inl hpre
    · right
      split_ifs at heq with hc
      · obtain ⟨r, hr, -⟩ := hc.2.eq_append
        refine absurd ?_ hpre
        rw [hr, List.drop_left, ← hr, hq, List.drop_left] at heq
        rw [heq, hq] at hr
        exact (List.append_cancel_right hr).symm
      · have hnil : pat.literalPrefix = [] := by
          rw [hq, List.drop_left] at heq
          exact List.append_left_eq_self.1 heq
        rw [hnil] at hpre ⊢
        exact ⟨rfl, fun hcon => hc ⟨hpre, hcon⟩⟩
  · rintro (rfl | ⟨hnil, hc⟩)
    · by_cases hnil : pat.literalPrefix = []
      · rw [if_neg (fun h => h.1 hnil), hnil]
        rfl
      · rw [if_pos ⟨hnil, hq ▸ (continues_append _ _).2 hhead⟩]
    · rw [if_neg fun h => hc h.2, hnil]
      rfl

/-- The literal segments are stripped from the path, and are the prefix, exactly when none of them has a
brace and the first parameter begins its segment, if not behind a literal `{`. -/
theorem literal_prefix_removed_iff (h : pat.Matches path) :
    (stripRoutePrefix path (routeLiteralPrefix pat.text) = path.drop pat.literalPrefix.length ∧
      (stripRoutePrefix path (routeLiteralPrefix pat.text) = [] ∨
        (stripRoutePrefix path (routeLiteralPrefix pat.text)).head? = some '/') ∧
      routeLiteralPrefix pat.text ++ stripRoutePrefix path (routeLiteralPrefix pat.text) = path) ↔
      (∀ s ∈ leading pat.segments, '{' ∉ s ∧ '}' ∉ s) ∧
        (firstPre pat.segments = [] ∨ (firstPre pat.segments).head? = some '{') := by
  obtain ⟨q, hq, hhead⟩ := h.eq_append
  have hdrop : path.drop pat.literalPrefix.length = q := by rw [hq, List.drop_left]
  rw [← routeLiteralPrefix_text_iff]
  constructor
  · rintro ⟨hstrip, -, happ⟩
    rw [hstrip, hdrop, hq] at happ
    exact List.append_cancel_right happ
  · intro hpre
    have hstrip := (stripRoutePrefix_text_iff h).2 (.inl hpre)
    rw [hstrip, hdrop, hpre]
    exact ⟨rfl, hhead, hq.symm⟩

/-- `/users/{id}/profile`. -/
theorem literal_prefix_removed_users :
    stripRoutePrefix "/users/7/profile".toList (routeLiteralPrefix (RoutePattern.text
      ⟨[.literal "users".toList, .param [] "id".toList, .literal "profile".toList],
        none, by decide, by decide, by decide⟩)) =
        "/7/profile".toList :=
  ((@literal_prefix_removed_iff
    ⟨[.literal "users".toList, .param [] "id".toList, .literal "profile".toList],
      none, by decide, by decide, by decide⟩
    "/users/7/profile".toList
    (.literal (p := "/7/profile".toList)
      (.param (v := ['7']) (p := "/profile".toList) (by decide) (by decide)
      (.literal (p := []) (.done rfl))))).2 (by decide)).1

/-- `/files/v{ver}/x` matches `/files/v2/x`, but the prefix read off it is `/files/v`, and nothing is
stripped. -/
theorem prefix_inside_segment_not_removed :
    ∃ pat : RoutePattern, pat.text = "/files/v\x7bver\x7d/x".toList ∧ pat.Matches "/files/v2/x".toList ∧
      routeLiteralPrefix pat.text = "/files/v".toList ∧
      stripRoutePrefix "/files/v2/x".toList (routeLiteralPrefix pat.text) = "/files/v2/x".toList ∧
      "/files/v2/x".toList.drop pat.literalPrefix.length = "/v2/x".toList :=
  ⟨⟨[.literal "files".toList, .param ['v'] "ver".toList, .literal ['x']],
    none, by decide, by decide, by decide⟩,
    by decide, .literal (p := "/v2/x".toList) (.param (v := ['2']) (p := "/x".toList)
      (by decide) (by decide)
      (.literal (p := []) (.done rfl))), by decide, by decide, by decide⟩

end AxumReverseProxy

import AxumReverseProxy.Forward.ListField

/-!
# The `Via` field

Emission (`append_via`) and detection (`via_contains_pseudonym`) of a proxy's pseudonym. Detection
reads each readable line as a list of elements and looks at the second word of each; emission joins
the readable lines and appends one element, so it keeps every element that was readable
(`viaElements_appendVia`).
-/

namespace AxumReverseProxy

open HeaderName

/-- Protocol version string for `Via` elements. -/
def viaProtocol : Version → Str
  | .http09 => "0.9".toList
  | .http10 => "1.0".toList
  | .http11 => "1.1".toList
  | .http2 => "2.0".toList
  | .http3 => "3.0".toList

/-- Whether any element of the `Via` chain carries the pseudonym. -/
def viaContainsPseudonym (headers : HeaderMap) (pseudonym : Str) : Bool :=
  ((headers.readable via).flatMap fun v => v.split ',').any fun element =>
    match element.splitWhitespace with
    | _ :: second :: _ => second == pseudonym
    | _ => false

def appendVia (headers : HeaderMap) (version : Version) (pseudonym : Str) : HeaderMap :=
  appendElement headers via (viaProtocol version ++ " ".toList ++ pseudonym)

/-! ### Elements -/

def viaElements (headers : HeaderMap) : List (List Str) :=
  (headers.readable via).flatMap fun v => (v.split ',').map Str.splitWhitespace

variable {headers headers' : HeaderMap} {name : HeaderName} {pseudonym p : Str}

theorem second_eq_iff {words : List Str} :
    (match words with
      | _ :: second :: _ => second == p
      | _ => false) = true ↔ words[1]? = some p := by
  match words with
  | [] => simp
  | [_] => simp
  | _ :: b :: l => simp

theorem viaContainsPseudonym_iff :
    viaContainsPseudonym headers p = true ↔ ∃ e ∈ viaElements headers, e[1]? = some p := by
  simp only [viaContainsPseudonym, viaElements, List.any_eq_true, List.mem_flatMap, List.mem_map,
    second_eq_iff]
  constructor
  · rintro ⟨e, ⟨v, hv, he⟩, h⟩
    exact ⟨_, ⟨v, hv, e, he, rfl⟩, h⟩
  · rintro ⟨_, ⟨v, hv, e, he, rfl⟩, h⟩
    exact ⟨e, ⟨v, hv, he⟩, h⟩

/-- What can stand in the second place of an element: a word of visible ASCII without a comma. -/
def Str.IsPseudonym (p : Str) : Prop := p ≠ [] ∧ ∀ c ∈ p, (33 ≤ c.toNat ∧ c.toNat < 127) ∧ c ≠ ','

instance (p : Str) : Decidable p.IsPseudonym := inferInstanceAs (Decidable (_ ∧ _))

theorem Str.IsToken.isPseudonym (hp : p.IsToken) : p.IsPseudonym := by
  refine ⟨hp.1, fun c hc => ⟨?_, ?_⟩⟩
  · have := toNat_of_isTchar (hp.2 c hc)
    omega
  · rintro rfl
    exact hp.not_mem (by decide) hc

namespace Str.IsPseudonym

variable (hp : p.IsPseudonym)
include hp

theorem visible : p.Visible := fun c hc => by
  have := (hp.2 c hc).1
  simp only [isVisibleAscii, Bool.or_eq_true, Bool.and_eq_true, decide_eq_true_eq]
  omega

theorem isWhitespace_eq_false : ∀ c ∈ p, Str.isWhitespace c = false := fun c hc => by
  have := (hp.2 c hc).1
  simp only [isWhitespace, Bool.or_eq_false_iff, Bool.and_eq_false_iff, decide_eq_false_iff_not]
  omega

end Str.IsPseudonym

theorem isPseudonym_of_mem_viaElements {e : List Str} (he : e ∈ viaElements headers) (hp : p ∈ e) :
    p.IsPseudonym := by
  simp only [viaElements, List.mem_flatMap, List.mem_map] at he
  obtain ⟨v, hv, w, hw, rfl⟩ := he
  obtain ⟨hne, hword⟩ := CommaList.of_mem_words hp
  refine ⟨hne, fun c hc => ⟨?_, ?_⟩⟩
  · obtain ⟨hws, hcw⟩ := hword c hc
    have hvis := HeaderMap.readable_visible hv c (CommaList.mem_of_mem_splitOn hw hcw)
    simp only [Str.isVisibleAscii, Bool.or_eq_true, Bool.and_eq_true, decide_eq_true_eq] at hvis
    simp only [Str.isWhitespace, Bool.or_eq_false_iff, Bool.and_eq_false_iff,
      decide_eq_false_iff_not] at hws
    omega
  · rintro rfl
    exact CommaList.sep_not_mem_of_mem_splitOn hw (hword _ hc).2

theorem splitWhitespace_space (s : Str) : Str.splitWhitespace (' ' :: s) = s.splitWhitespace :=
  CommaList.words_cons_of_sep (by decide) s

theorem splitWhitespace_own (version : Version) (hp : p.IsPseudonym) :
    Str.splitWhitespace (viaProtocol version ++ " ".toList ++ p) = [viaProtocol version, p] := by
  have hv : (∀ c ∈ viaProtocol version, Str.isWhitespace c = false) ∧ viaProtocol version ≠ [] := by
    cases version <;> decide
  have h : viaProtocol version ++ " ".toList ++ p = viaProtocol version ++ ' ' :: p := by
    rw [List.append_assoc]; rfl
  rw [h, Str.splitWhitespace, CommaList.words_append_of_sep (by decide),
    CommaList.words_of_forall hv.1 hv.2, CommaList.words_of_forall hp.isWhitespace_eq_false hp.1]
  rfl

theorem own_visible (version : Version) (hp : p.IsPseudonym) :
    (viaProtocol version ++ " ".toList ++ p).Visible :=
  .append (.append (by cases version <;> decide) (by decide)) hp.visible

theorem comma_not_mem_own (version : Version) (hp : p.IsPseudonym) :
    ',' ∉ viaProtocol version ++ " ".toList ++ p := by
  intro h
  rcases List.mem_append.1 h with h | h
  · revert h; cases version <;> decide
  · exact (hp.2 _ h).2 rfl

/-! ### Emission -/

theorem getAll_appendVia_ne (version : Version) (h : name ≠ via) :
    (appendVia headers version p).getAll name = headers.getAll name :=
  getAll_appendElement_ne h

theorem viaElements_appendVia (version : Version) (hp : p.IsPseudonym) :
    viaElements (appendVia headers version p) = viaElements headers ++ [[viaProtocol version, p]] := by
  rw [viaElements, appendVia, readable_appendElement (own_visible version hp), List.flatMap_singleton,
    map_split_joinElement splitWhitespace_space, viaElements]
  rw [Str.split, List.splitOn_eq_singleton (comma_not_mem_own version hp), List.map_singleton,
    splitWhitespace_own version hp]

theorem viaElements_congr (h : headers.getAll via = headers'.getAll via) :
    viaElements headers = viaElements headers' := by
  rw [viaElements, viaElements, HeaderMap.readable_congr h]

end AxumReverseProxy

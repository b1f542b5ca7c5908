import AxumReverseProxy.Policy

/-!
# Appending an element to a list field

`Via`, `X-Forwarded-For` and `Forwarded` are appended to in the same way: the readable lines of the
field are joined with `", "`, the new element is put behind them, and the result replaces every line
the field had.
-/

namespace AxumReverseProxy

def joinElement (existing : List Str) (element : Str) : Str :=
  if existing = [] then element else Str.join existing ", ".toList ++ ", ".toList ++ element

def appendElement (headers : HeaderMap) (name : HeaderName) (element : Str) : HeaderMap :=
  match HeaderValue.fromStr (joinElement (headers.readable name) element) with
  | some value => headers.insert name value
  | none => headers

def insertIfAbsent (headers : HeaderMap) (name : HeaderName) (value : Option Str) : HeaderMap :=
  if headers.containsKey name then headers
  else match value.bind HeaderValue.fromStr with
    | some value => headers.insert name value
    | none => headers

variable {headers headers' : HeaderMap} {name n : HeaderName} {element : Str} {existing : List Str}

theorem joinElement_visible (hex : ∀ s ∈ existing, s.Visible) (he : element.Visible) :
    (joinElement existing element).Visible := by
  unfold joinElement
  split
  · exact he
  · exact .append (.append (.join hex (by decide)) (by decide)) he

/-- Reading the joined text word by word is reading the lines and then the element. -/
theorem map_split_joinElement {β : Type*} {f : Str → β} (hf : ∀ s, f (' ' :: s) = f s) :
    ((joinElement existing element).split ',').map f =
      (existing.flatMap fun s => (s.split ',').map f) ++ (element.split ',').map f := by
  unfold joinElement
  split
  · next h => simp [h]
  · next h =>
    have he : Str.join existing ", ".toList ++ ", ".toList ++ element =
        Str.join existing ", ".toList ++ ',' :: ([' '] ++ element) := by
      rw [List.append_assoc]; rfl
    rw [he, Str.split, List.splitOn_append_cons_self, List.map_append,
      CommaList.map_splitOn_append_left (by decide) hf]
    exact congrArg (· ++ _) (CommaList.map_splitOn_join (a := [' ']) (by decide) hf h)

theorem commaElements_joinElement :
    (joinElement existing element).commaElements =
      existing.flatMap Str.commaElements ++ element.commaElements :=
  map_split_joinElement (CommaList.trimBy_append_left (a := [' ']) (by decide))

/-! ### Effect on the map -/

theorem getAll_appendElement_ne (h : n ≠ name) :
    (appendElement headers name element).getAll n = headers.getAll n := by
  unfold appendElement
  split
  · exact MultiMap.getAll_insert_ne h
  · rfl

theorem getAll_appendElement_self (he : element.Visible) :
    (appendElement headers name element).getAll name =
      [.ofVisible (joinElement (headers.readable name) element)
        (joinElement_visible (fun _ h => HeaderMap.readable_visible h) he)] := by
  unfold appendElement
  rw [HeaderValue.fromStr_of_visible]
  exact MultiMap.getAll_insert_self

theorem readable_appendElement (he : element.Visible) :
    (appendElement headers name element).readable name =
      [joinElement (headers.readable name) element] := by
  simp [HeaderMap.readable, getAll_appendElement_self he]

theorem getAll_appendElement_congr (h : headers.getAll name = headers'.getAll name) :
    (appendElement headers name element).getAll name =
    (appendElement headers' name element).getAll name := by
  unfold appendElement
  rw [HeaderMap.readable_congr h]
  split
  · simp
  · exact h

theorem getAll_insertIfAbsent_ne {value : Option Str} (h : n ≠ name) :
    (insertIfAbsent headers name value).getAll n = headers.getAll n := by
  unfold insertIfAbsent
  split
  · rfl
  · split
    · exact MultiMap.getAll_insert_ne h
    · rfl

theorem insertIfAbsent_of_getAll_ne_nil {value : Option Str} (h : headers.getAll name ≠ []) :
    insertIfAbsent headers name value = headers :=
  if_pos (MultiMap.containsKey_iff.2 h)

theorem getAll_insertIfAbsent_congr {value : Option Str} (h : headers.getAll name = headers'.getAll name) :
    (insertIfAbsent headers name value).getAll name = (insertIfAbsent headers' name value).getAll name := by
  unfold insertIfAbsent
  rw [MultiMap.containsKey_congr h]
  split
  · exact h
  · split
    · simp
    · exact h

end AxumReverseProxy

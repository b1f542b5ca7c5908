import AxumReverseProxy.Lib.CommaList

/-!
# Rust's `str`

A `str` is the list of its characters. The methods below are the ones the crate calls, under their
names in the standard library.
-/

namespace AxumReverseProxy

abbrev Str := List Char

instance decidableForallMemChars (p : Char → Prop) [DecidablePred p] (s : List Char) :
    Decidable (∀ c ∈ s, p c) :=
  List.decidableBAll p s

instance decidableForallMemChar? (p : Char → Prop) [DecidablePred p] (c? : Option Char) :
    Decidable (∀ c ∈ c?, p c) :=
  Option.decidableForallMem c?

namespace Str

/-- `char::is_whitespace`: the Unicode property `White_Space`. -/
def isWhitespace (c : Char) : Bool :=
  let n := c.toNat
  (9 ≤ n && n ≤ 13) || n = 0x20 || n = 0x85 || n = 0xA0 || n = 0x1680 || (0x2000 ≤ n && n ≤ 0x200A) ||
    n = 0x2028 || n = 0x2029 || n = 0x202F || n = 0x205F || n = 0x3000

def trim (s : Str) : Str := CommaList.trimBy isWhitespace s

def splitWhitespace (s : Str) : List Str := CommaList.words isWhitespace s

def split (s : Str) (sep : Char) : List Str := s.splitOn sep

def join (parts : List Str) (sep : Str) : Str := sep.intercalate parts

def eqIgnoreAsciiCase (a b : Str) : Bool := a.map Char.toLower == b.map Char.toLower

def trimEndMatches (s : Str) (c : Char) : Str := s.rdropWhile (· == c)

def startsWith (s pre : Str) : Bool := pre.isPrefixOf s

def endsWith (s post : Str) : Bool := post.isSuffixOf s

/-- `str::find` for a character, as the text before it and the text after it. -/
def splitOnce (s : Str) (c : Char) : Option (Str × Str) :=
  match s.dropWhile (· ≠ c) with
  | [] => none
  | _ :: rest => some (s.takeWhile (· ≠ c), rest)

/-- `str::parse::<u64>`: an optional `+`, then decimal digits, below `2 ^ 64`. -/
def parseU64 (s : Str) : Option Nat :=
  let digits := match s with
    | '+' :: rest => rest
    | s => s
  if digits ≠ [] ∧ digits.all Char.isDigit then
    let n := digits.foldl (fun n c => 10 * n + (c.toNat - '0'.toNat)) 0
    if n < UInt64.size then some n else none
  else none

/-- The number that a text of digits stands for, of any size. -/
def decimalValue (s : Str) : Option Nat :=
  let digits := match s with
    | '+' :: rest => rest
    | s => s
  if digits ≠ [] ∧ digits.all Char.isDigit then
    some (digits.foldl (fun n c => 10 * n + (c.toNat - '0'.toNat)) 0)
  else none

/-- `str::parse::<u32>`. -/
def parseU32 (s : Str) : Option Nat := s.decimalValue.filter (· < UInt32.size)

theorem parseU64_eq (s : Str) : s.parseU64 = s.decimalValue.filter (· < UInt64.size) := by
  have h : ∀ digits : Str, (if digits ≠ [] ∧ digits.all Char.isDigit then
      let n := digits.foldl (fun n c => 10 * n + (c.toNat - '0'.toNat)) 0
      if n < UInt64.size then some n else none
    else none) = (if digits ≠ [] ∧ digits.all Char.isDigit then
      some (digits.foldl (fun n c => 10 * n + (c.toNat - '0'.toNat)) 0)
    else none).filter (· < UInt64.size) := by
    intro digits
    split
    · rw [Option.filter_some]
      simp only [decide_eq_true_eq]
    · rfl
  exact h _

theorem decimalValue_toDigits (n : Nat) : decimalValue (Nat.toDigits 10 n) = some n := by
  have hdigit : ∀ c ∈ Nat.toDigits 10 n, c.isDigit = true := fun c hc =>
    Nat.isDigit_of_mem_toDigits (by decide) (by decide) hc
  have hne : Nat.toDigits 10 n ≠ [] := Nat.toDigits_ne_nil
  have hplus : ∀ rest, Nat.toDigits 10 n ≠ '+' :: rest := fun rest h => by
    have := hdigit '+' (by rw [h]; exact List.mem_cons_self)
    exact absurd this (by decide)
  unfold decimalValue
  split
  next rest h => exact absurd h (hplus rest)
  next =>
    rw [if_pos ⟨hne, List.all_eq_true.2 hdigit⟩, ← Nat.ofDigitChars_eq_foldl, Nat.ofDigitChars_ten_toDigits]

/-! ### Splitting and joining -/

theorem splitOnce_append {a : Str} {c : Char} (h : c ∉ a) (b : Str) :
    splitOnce (a ++ c :: b) c = some (a, b) := by
  have ha : ∀ x ∈ a, decide (x ≠ c) = true := fun x hx => decide_eq_true fun hc => h (hc ▸ hx)
  rw [splitOnce, List.dropWhile_append_of_pos ha, List.takeWhile_append_of_pos ha]
  simp

theorem eq_of_splitOnce {s a b : Str} {c : Char} (h : s.splitOnce c = some (a, b)) : s = a ++ c :: b := by
  unfold splitOnce at h
  split at h
  · cases h
  · next d rest hd =>
    cases h
    have hc : d = c := by
      have := List.head?_dropWhile_not (fun x => decide (x ≠ c)) s
      rw [hd] at this
      simpa using this
    rw [← hc, ← hd, hc, List.takeWhile_append_dropWhile]

theorem forall_mem_join {P : Char → Prop} {parts : List Str} {sep : Str} (hp : ∀ p ∈ parts, ∀ c ∈ p, P c)
    (hs : ∀ c ∈ sep, P c) : ∀ c ∈ Str.join parts sep, P c := by
  induction parts with
  | nil => intro c hc; cases hc
  | cons p ps ih =>
    cases ps with
    | nil => simpa [Str.join] using hp p (by simp)
    | cons p' ps =>
      intro c hc
      rw [Str.join, List.intercalate_cons_cons, List.mem_append, List.mem_append] at hc
      rcases hc with (hc | hc) | hc
      · exact hp p (by simp) c hc
      · exact hs c hc
      · exact ih (fun q hq => hp q (List.mem_cons_of_mem _ hq)) c hc

theorem mem_join {parts : List Str} {p : Str} {c : Char} (sep : Str) (hp : p ∈ parts) (hc : c ∈ p) :
    c ∈ Str.join parts sep := CommaList.mem_intercalate hp hc

theorem join_concat (parts : List Str) (p sep : Str) :
    Str.join (parts ++ [p]) sep = parts.flatMap (· ++ sep) ++ p := by
  induction parts with
  | nil => exact List.intercalate_singleton
  | cons q parts ih =>
    rw [Str.join, List.cons_append, List.intercalate_cons_of_ne_nil (by simp), ← Str.join, ih,
      List.flatMap_cons, List.append_assoc, List.append_assoc, List.append_assoc]

/-! ### Visible ASCII -/

/-- The characters `HeaderValue::to_str` accepts. -/
def isVisibleAscii (c : Char) : Bool := (32 ≤ c.toNat && c.toNat < 127) || c.toNat = 9

def Visible (s : Str) : Prop := ∀ c ∈ s, isVisibleAscii c = true

instance (s : Str) : Decidable s.Visible := inferInstanceAs (Decidable (∀ c ∈ s, _))

variable {s t : Str} {c : Char}

theorem toNat_lt_of_visible (h : isVisibleAscii c = true) : c.toNat < 127 := by
  simp only [isVisibleAscii, Bool.or_eq_true, Bool.and_eq_true, decide_eq_true_eq] at h
  omega

namespace Visible

theorem nil : Visible [] := fun _ h => absurd h List.not_mem_nil

theorem append (hs : s.Visible) (ht : t.Visible) : (s ++ t).Visible :=
  fun c hc => (List.mem_append.1 hc).elim (hs c) (ht c)

theorem cons (hc : isVisibleAscii c = true) (hs : s.Visible) : Visible (c :: s) :=
  fun d hd => (List.mem_cons.1 hd).elim (fun h => h ▸ hc) (hs d)

theorem left (h : (s ++ t).Visible) : s.Visible := fun c hc => h c (List.mem_append_left _ hc)

theorem right (h : (s ++ t).Visible) : t.Visible := fun c hc => h c (List.mem_append_right _ hc)

theorem join {parts : List Str} {sep : Str} (hp : ∀ p ∈ parts, p.Visible) (hs : sep.Visible) :
    (Str.join parts sep).Visible :=
  forall_mem_join hp hs

end Visible

/-! ### Comma lists -/

/-- The elements of a comma-separated field value, trimmed. -/
def commaElements (s : Str) : List Str := (s.split ',').map trim

theorem commaElements_of_not_mem (h : ',' ∉ s) : s.commaElements = [s.trim] :=
  CommaList.elements_of_not_mem h

theorem trim_of_forall (h : ∀ c ∈ s, isWhitespace c = false) : s.trim = s :=
  CommaList.trimBy_of_forall h

end Str

end AxumReverseProxy

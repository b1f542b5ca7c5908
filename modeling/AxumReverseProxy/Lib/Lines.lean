import Mathlib.Data.List.Basic

/-!
# Lines of a text

A text whose lines end in the pair `cr nl`, up to an empty one. A reader that cuts it at every `nl`
gets the lines back, whatever follows the empty one (`read_write`).
-/

namespace Lines

variable {α : Type*} [DecidableEq α] {cr nl : α}

def write (cr nl : α) (lines : List (List α)) : List α := lines.flatMap (· ++ [cr, nl])

/-- A line without the `cr` at its end. -/
def chomp (cr : α) (line : List α) : List α := if line.getLast? = some cr then line.dropLast else line

/-- The lines in front of the first empty one. -/
def read (cr nl : α) (text : List α) : List (List α) :=
  ((text.splitOn nl).map (chomp cr)).takeWhile fun line => !line.isEmpty

theorem chomp_concat (line : List α) : chomp cr (line ++ [cr]) = line := by
  simp [chomp]

theorem splitOn_line {line : List α} (hne : cr ≠ nl) (h : nl ∉ line) (text : List α) :
    (line ++ cr :: nl :: text).splitOn nl = (line ++ [cr]) :: text.splitOn nl := by
  have hw : nl ∉ line ++ [cr] := by simp [h, Ne.symm hne]
  rw [List.append_cons, List.splitOn_append_cons_self, List.splitOn_eq_singleton hw]
  rfl

theorem read_cons {line : List α} (hne : cr ≠ nl) (h : nl ∉ line) (text : List α) :
    read cr nl (line ++ cr :: nl :: text) = if line = [] then [] else line :: read cr nl text := by
  rw [read, splitOn_line hne h, List.map_cons, chomp_concat, List.takeWhile_cons]
  cases line with
  | nil => rfl
  | cons c line => rfl

theorem read_write {lines : List (List α)} (hne : cr ≠ nl) (h : ∀ line ∈ lines, line ≠ [] ∧ nl ∉ line)
    (text : List α) :
    read cr nl (write cr nl lines ++ cr :: nl :: text) = lines := by
  induction lines with
  | nil => exact (read_cons hne List.not_mem_nil text).trans (if_pos rfl)
  | cons line lines ih =>
    obtain ⟨⟨hl, hnl⟩, h⟩ := List.forall_mem_cons.1 h
    rw [write, List.flatMap_cons, List.append_assoc, List.append_assoc]
    show read cr nl (line ++ cr :: nl :: (write cr nl lines ++ cr :: nl :: text)) = _
    rw [read_cons hne hnl, if_neg hl, ih h]

end Lines

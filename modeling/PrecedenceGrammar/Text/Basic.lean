import PrecedenceGrammar.Text.WhiteSpace

/-!
# Texts

A text is worked on as the list of its characters and becomes a string only
where it is shown.
-/

namespace PrecedenceGrammar

/-- A text, as the list of its characters. -/
abbrev Text := List Char

namespace Text

def trimEnd (text : Text) : Text :=
  (text.reverse.dropWhile isWhiteSpace).reverse

def padEnd (width : Nat) (text : Text) : Text :=
  text ++ List.replicate (width - text.length) ' '

/-- A line without one carriage return at its end. -/
def dropCarriageReturn (line : Text) : Text :=
  if line.getLast? = some '\r' then line.dropLast else line

/-- The lines of a text.  A line feed ends a line, a carriage return just
before it belongs to the line end, and no line follows the last line feed. -/
def lines (text : Text) : List Text :=
  match (text.splitOn '\n').reverse with
  | [] => []
  | unended :: ended =>
    let complete := ended.reverse.map dropCarriageReturn
    if unended.isEmpty then complete else complete ++ [unended]

theorem trimEnd_nil : trimEnd [] = [] := rfl

theorem trimEnd_append_singleton {text : Text} {character : Char}
    (visible : isWhiteSpace character = false) :
    trimEnd (text ++ [character]) = text ++ [character] := by
  simp [trimEnd, visible]

/-- A text without white space at its end. -/
def Trimmed (text : Text) : Prop :=
  ∀ last, text.getLast? = some last → isWhiteSpace last = false

theorem trimmed_trimEnd (text : Text) : (trimEnd text).Trimmed := by
  intro last ends
  have first := List.head?_dropWhile_not isWhiteSpace text.reverse
  rw [trimEnd, List.getLast?_reverse] at ends
  rw [ends] at first
  exact first

theorem trimEnd_eq_self {text : Text} (trimmed : text.Trimmed) : trimEnd text = text := by
  cases ends : text.getLast? with
  | none =>
    rw [List.getLast?_eq_none_iff.mp ends]
    exact trimEnd_nil
  | some last =>
    obtain ⟨front, rfl⟩ := List.getLast?_eq_some_iff.mp ends
    exact trimEnd_append_singleton (trimmed last ends)

theorem trimEnd_cons {first : Char} (later : Text) (visible : isWhiteSpace first = false) :
    trimEnd (first :: later) = first :: trimEnd later := by
  rw [trimEnd, trimEnd, List.reverse_cons, List.dropWhile_append]
  split
  · next blank => simp [visible, List.isEmpty_iff.mp blank]
  · simp

theorem trimEnd_append_of_isWhiteSpace {text blanks : Text}
    (blank : ∀ character ∈ blanks, isWhiteSpace character = true) :
    trimEnd (text ++ blanks) = trimEnd text := by
  have reversed : ∀ character ∈ blanks.reverse, isWhiteSpace character = true := by
    simpa using blank
  rw [trimEnd, List.reverse_append, List.dropWhile_append_of_pos reversed, trimEnd]

end Text

end PrecedenceGrammar

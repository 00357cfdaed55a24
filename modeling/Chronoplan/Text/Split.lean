/-!
# Splitting a text

The parts of a text between the occurrences of a separator. There is always one part at least.
-/

set_option autoImplicit false

namespace Chronoplan

def splitChars (separator : Char) : List Char → List (List Char)
  | [] => [[]]
  | c :: r =>
    if c == separator then [] :: splitChars separator r
    else
      match splitChars separator r with
      | part :: parts => (c :: part) :: parts
      | [] => [[c]]

def splitText (separator : Char) (s : String) : List String :=
  (splitChars separator s.toList).map String.ofList

theorem splitChars_ne_nil (separator : Char) (cs : List Char) : splitChars separator cs ≠ [] := by
  cases cs with
  | nil => simp [splitChars]
  | cons c r =>
    simp only [splitChars]
    split
    · simp
    · split <;> simp

end Chronoplan

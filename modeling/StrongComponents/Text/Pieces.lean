/-!
# Texts cut into pieces

`pieces` cuts a text at every character of a class. Lines are the pieces between line feeds, and
words are the pieces between blanks that are not empty.
-/

set_option autoImplicit false

namespace StrongComponents.Text

/-- The parts of a text before, between and after the characters that satisfy `cut`. -/
def pieces (cut : Char → Bool) : List Char → List (List Char)
  | [] => [[]]
  | c :: rest =>
    if cut c then [] :: pieces cut rest
    else
      match pieces cut rest with
      | [] => [[c]]
      | first :: others => (c :: first) :: others

/-- The non-empty parts of a text between the characters that satisfy `cut`. -/
def runs (cut : Char → Bool) (text : List Char) : List (List Char) :=
  (pieces cut text).filter (!·.isEmpty)

end StrongComponents.Text

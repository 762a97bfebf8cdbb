import StrongComponents.Json.Printer
import StrongComponents.Text.Quoted

/-!
# Vertex labels

A label has a text, which reports show, and a quoted form, which error messages show.
-/

set_option autoImplicit false

namespace StrongComponents

/-- Types whose values can name vertices. -/
class Label (V : Type) where
  /-- The label as reports show it. -/
  text : V → String
  /-- The label as error messages show it. -/
  quoted : V → String

instance : Label String where
  text s := s
  quoted := Text.quoteBody

instance : Label Int where
  text i := String.ofList (intText i)
  quoted i := String.ofList (intText i)

end StrongComponents

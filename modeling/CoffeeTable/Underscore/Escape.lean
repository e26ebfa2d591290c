import CoffeeTable.Coding.Replacement
import CoffeeTable.Editor.Markup

/-!
# Escaping in six passes

The escape function replaces one symbol after another in the whole text. The
ampersand comes first, so that no entity is escaped again, and the six passes
are the substitution that the drawing of lines is described with.
-/

namespace CoffeeTable.Underscore

open Coding Ecma

def escape (string : JsString) : JsString :=
  replaceEach
    [(unit '&', lit "&amp;"), (unit '<', lit "&lt;"), (unit '>', lit "&gt;"),
      (unit '"', lit "&quot;"), (unit '\'', lit "&#x27;"), (unit '/', lit "&#x2F;")] string

theorem substitute_eq_escapeUnit (c : CodeUnit) :
    substitute
      [(unit '&', lit "&amp;"), (unit '<', lit "&lt;"), (unit '>', lit "&gt;"),
        (unit '"', lit "&quot;"), (unit '\'', lit "&#x27;"), (unit '/', lit "&#x2F;")] c =
      Editor.escapeUnit c := by
  simp only [substitute_cons, Editor.escapeUnit]
  rfl

/-- The six passes escape each symbol once. The escaped text has no angle
bracket, and it can be read back. -/
theorem escape_eq (string : JsString) :
    escape string = Editor.escape string ∧
      (∀ other, escape other = escape string → other = string) ∧
      unit '<' ∉ escape string ∧ unit '>' ∉ escape string := by
  have hpasses (text : JsString) : escape text = Editor.escape text := by
    rw [escape, replaceEach_eq_flatMap (by decide), Editor.escape]
    congr 1
    funext c
    exact substitute_eq_escapeUnit c
  refine ⟨hpasses string, fun other hsame ↦ ?_, ?_⟩
  · rw [hpasses, hpasses] at hsame
    exact Editor.prefixFree_escapeUnit.flatMap_injective hsame
  · rw [hpasses]
    exact Editor.notMem_escape string

end CoffeeTable.Underscore

import CoffeeTable.Ecma.Array
import CoffeeTable.Lines.Document

/-!
# Editor states

A state is the record the editor module passes from action to action: cursor,
buffer of lines, mode and pending repeat count. Cursor coordinates and counts
are exact integers. The count may be `undefined`, because some actions build a
state without that field. `makeState` overrides exactly the fields that a
change record mentions.
-/

namespace CoffeeTable.Editor

open Ecma

inductive Mode where
  | command
  | insert
  | delete
  | change
  | goto
  deriving DecidableEq

structure Cursor where
  line : ℤ
  col : ℤ
  deriving DecidableEq

abbrev Buffer := JsArray JsString

structure State where
  cursor : Cursor
  buffer : Buffer
  mode : Mode
  /-- `none` is `undefined`. -/
  repeatNumber : Option ℤ
  deriving DecidableEq

/-- What stops an action. The first is the `TypeError` of using a line that is
`undefined`. The other two are not exceptions of the program: they mark the
points where its numbers or arrays leave this model. -/
inductive Fault where
  | missingLine
  /-- Arithmetic on an `undefined` count, which gives `NaN`. -/
  | notANumber
  /-- A write past the end of the buffer, which leaves holes. -/
  | sparseWrite
  deriving DecidableEq

structure Changes where
  line : Option ℤ := none
  col : Option ℤ := none
  buffer : Option Buffer := none
  mode : Option Mode := none
  repeatNumber : Option ℤ := none

def makeState (oldState : State) (changes : Changes) : State where
  cursor :=
    { line := changes.line.getD oldState.cursor.line
      col := changes.col.getD oldState.cursor.col }
  buffer := changes.buffer.getD oldState.buffer
  mode := changes.mode.getD oldState.mode
  repeatNumber := changes.repeatNumber.or oldState.repeatNumber

def lineOf : Option JsString → Except Fault JsString
  | some line => .ok line
  | none => .error .missingLine

def countOf : Option ℤ → Except Fault ℤ
  | some count => .ok count
  | none => .error .notANumber

@[simp] theorem ok_bind {ε α β : Type} (a : α) (f : α → Except ε β) :
    (Except.ok a >>= f) = f a := rfl

@[simp] theorem error_bind {ε α β : Type} (e : ε) (f : α → Except ε β) :
    (Except.error e >>= f) = .error e := rfl

@[simp] theorem pure_eq_ok {ε α : Type} (a : α) : (pure a : Except ε α) = .ok a := rfl

theorem bind_eq_ok {ε α β : Type} {x : Except ε α} {f : α → Except ε β} {b : β} :
    (x >>= f) = .ok b ↔ ∃ a, x = .ok a ∧ f a = .ok b := by
  cases x <;> simp

@[simp] theorem map_ok {ε α β : Type} (f : α → β) (a : α) :
    Except.map f (.ok a : Except ε α) = .ok (f a) := rfl

@[simp] theorem map_error {ε α β : Type} (f : α → β) (e : ε) :
    Except.map f (.error e) = .error e := rfl

theorem map_eq_ok {ε α β : Type} {x : Except ε α} {f : α → β} {b : β} :
    x.map f = .ok b ↔ ∃ a, x = .ok a ∧ f a = b := by
  cases x <;> simp

theorem bind_eq_error {ε α β : Type} {x : Except ε α} {f : α → Except ε β} {e : ε} :
    (x >>= f) = .error e ↔ x = .error e ∨ ∃ a, x = .ok a ∧ f a = .error e := by
  cases x <;> simp

theorem map_eq_error {ε α β : Type} {x : Except ε α} {f : α → β} {e : ε} :
    x.map f = .error e ↔ x = .error e := by
  cases x <;> simp

@[simp] theorem lineOf_some (line : JsString) : lineOf (some line) = .ok line := rfl

@[simp] theorem lineOf_none : lineOf none = .error .missingLine := rfl

@[simp] theorem countOf_some (count : ℤ) : countOf (some count) = .ok count := rfl

@[simp] theorem countOf_none : countOf none = .error .notANumber := rfl

/-! ## Lines of text -/

def newline : CodeUnit := unit '\n'

namespace State

def text (s : State) : JsString := Lines.join newline s.buffer.elems

/-- The flat position of the cursor, a column past the line end counting as
the line end. -/
def offset (s : State) : ℕ :=
  ((s.buffer.elems.take s.cursor.line.toNat).map (·.length + 1)).sum +
    min s.cursor.col.toNat ((s.buffer.get? s.cursor.line).getD []).length

structure Inside (s : State) : Prop where
  line_nonneg : 0 ≤ s.cursor.line
  line_lt : s.cursor.line < s.buffer.length
  col_nonneg : 0 ≤ s.cursor.col

/-- The buffer as the cursor line with what stands above and below it. -/
structure At (s : State) (before : List JsString) (line : JsString)
    (after : List JsString) : Prop where
  elems_eq : s.buffer.elems = before ++ line :: after
  line_eq : s.cursor.line = before.length
  col_nonneg : 0 ≤ s.cursor.col

variable {s : State} {before after : List JsString} {line : JsString}

theorem At.get?_line (h : s.At before line after) : s.buffer.get? s.cursor.line = some line := by
  rw [h.line_eq, JsArray.get?_of_split h.elems_eq]

theorem At.length_eq (h : s.At before line after) :
    s.buffer.length = before.length + 1 + after.length := JsArray.length_of_split h.elems_eq

theorem At.inside (h : s.At before line after) : s.Inside where
  line_nonneg := by rw [h.line_eq]; omega
  line_lt := by rw [h.length_eq, h.line_eq]; omega
  col_nonneg := h.col_nonneg

theorem Inside.exists_at (h : s.Inside) : ∃ before line after, s.At before line after := by
  obtain ⟨before, line, after, helems, hline⟩ := JsArray.exists_split h.line_nonneg h.line_lt
  exact ⟨before, line, after, helems, hline, h.col_nonneg⟩

theorem Inside.elems_ne_nil (h : s.Inside) : s.buffer.elems ≠ [] := by
  obtain ⟨before, line, after, hat⟩ := h.exists_at
  simp [hat.elems_eq]

theorem At.take_eq (h : s.At before line after) :
    s.buffer.elems.take s.cursor.line.toNat = before := by
  simp [h.elems_eq, h.line_eq]

theorem At.drop_eq (h : s.At before line after) :
    s.buffer.elems.drop (s.cursor.line.toNat + 1) = after := by
  rw [h.elems_eq, h.line_eq, Int.toNat_natCast, List.drop_length_add_append]
  rfl

theorem At.flat_eq (h : s.At before line after) :
    (⟨s.text, s.offset⟩ : Lines.Flat CodeUnit) =
      .ofLines newline before (line.take s.cursor.col.toNat)
        (line.drop s.cursor.col.toNat) after := by
  rw [Lines.Flat.ofLines, List.take_append_drop, text, offset, h.take_eq, h.get?_line, h.elems_eq,
    Lines.length_above, List.length_take, Option.getD_some]

end State

end CoffeeTable.Editor

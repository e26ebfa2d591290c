import CoffeeTable.Editor.Keystrokes

/-!
# Opening a line and deleting it

A line opened below or above the cursor line, filled with text, left and
deleted is gone again. The line opened, the line typed on and the line deleted
are the same one, also at either end of the buffer. Only a cursor that would
be left below the last line moves up to it.
-/

namespace CoffeeTable.Editor

open Ecma

/-- Open a line, type on it, leave insert mode and delete the line. -/
def openAndDelete (opening : Key) (chars : JsString) : List Key :=
  opening :: charKeys chars ++ [key "<ESC>", key "d", key "d"]

theorem handleKey_o {s : State} (hmode : s.mode = .command) :
    handleKey s (key "o") = insertLine .after (resetCount s) :=
  handleKey_of_perform (decode_table hmode rfl) rfl

theorem handleKey_O {s : State} (hmode : s.mode = .command) :
    handleKey s (key "O") = insertLine .before (resetCount s) :=
  handleKey_of_perform (decode_table hmode rfl) rfl

theorem State.At.leave_and_delete {s : State} {before after : List JsString} {line : JsString}
    (h : s.At before line after) (hmode : s.mode = .insert) :
    [key "<ESC>", key "d", key "d"].foldl handleKey s =
      { cursor := ⟨max 0 (min before.length (before.length + after.length - 1)), s.cursor.col⟩
        buffer := ⟨before ++ after, []⟩
        mode := .command
        repeatNumber := some 0 } := by
  have hdelete : State.At { s with mode := .delete, repeatNumber := some 0 } before line after :=
    ⟨h.elems_eq, h.line_eq, h.col_nonneg⟩
  have hdecode : decode .delete (key "d") = some .deleteLine := rfl
  have hkey := handleKey_of_perform (s := { s with mode := .delete, repeatNumber := some 0 })
    hdecode hdelete.deleteCurrentLine_eq
  have hd := handleKey_d (s := { s with mode := .command, repeatNumber := some 0 }) rfl
  rw [List.foldl_cons, List.foldl_cons, List.foldl_cons, List.foldl_nil, handleKey_escape hmode,
    hd, hkey]

/-- The column of the cursor plays no part in opening a line. -/
theorem exists_at_insertLine {s : State} (hline : 0 ≤ s.cursor.line)
    (hlt : s.cursor.line < s.buffer.length) (location : Location) :
    ∃ before after, (insertLine location s).At before [] after ∧
      before ++ after = s.buffer.elems ∧
      (before.length : ℤ) = s.cursor.line + if location = .before then 0 else 1 := by
  have hinside : State.Inside { s with cursor := ⟨s.cursor.line, 0⟩ } := ⟨hline, hlt, le_refl 0⟩
  have hcol : insertLine location { s with cursor := ⟨s.cursor.line, 0⟩ } =
      insertLine location s := rfl
  obtain ⟨before, line, after, hat⟩ := hinside.exists_at
  have helems : s.buffer.elems = before ++ line :: after := hat.elems_eq
  have hbefore : s.cursor.line = before.length := hat.line_eq
  cases location with
  | before =>
      rw [← hcol, hat.insertLine_before]
      refine ⟨before, line :: after, ⟨rfl, rfl, le_refl 0⟩, helems.symm, ?_⟩
      rw [if_pos rfl, hbefore, add_zero]
  | after =>
      rw [← hcol, hat.insertLine_after]
      refine ⟨before ++ [line], after, ⟨by simp, by simp, le_refl 0⟩, by simp [helems], ?_⟩
      rw [if_neg (by decide), hbefore, List.length_append]
      rfl

theorem open_and_delete_eq {s : State} (hline : 0 ≤ s.cursor.line)
    (hlt : s.cursor.line < s.buffer.length) {opening : Key} {location : Location}
    (hopen : handleKey s opening = insertLine location (resetCount s)) (chars : JsString) :
    ∃ col, (openAndDelete opening chars).foldl handleKey s =
      { cursor := ⟨min (s.cursor.line + if location = .before then 0 else 1)
          (s.buffer.length - 1), col⟩
        buffer := ⟨s.buffer.elems, []⟩
        mode := .command
        repeatNumber := some 0 } := by
  obtain ⟨before, after, hat, helems, hlength⟩ :=
    exists_at_insertLine (s := resetCount s) hline hlt location
  obtain ⟨htyped, hinsert⟩ := hat.type_line rfl chars
  refine ⟨((charKeys chars).foldl handleKey (insertLine location (resetCount s))).cursor.col, ?_⟩
  have hall : (s.buffer.length : ℤ) = before.length + after.length := by
    have := congrArg List.length helems
    rw [List.length_append] at this
    simp only [resetCount_buffer] at this
    simp only [JsArray.length]
    omega
  have hclamp : max 0 (min (before.length : ℤ) (before.length + after.length - 1)) =
      min (s.cursor.line + if location = .before then 0 else 1) (s.buffer.length - 1) := by
    rw [resetCount_cursor] at hlength
    rw [← hlength, hall]
    omega
  rw [openAndDelete, List.cons_append, List.foldl_cons, List.foldl_append, hopen,
    htyped.leave_and_delete hinsert, hclamp, helems]
  rfl

/-- A line opened below or above, typed on and deleted leaves the buffer as it
was. The cursor stays on the line opened, as far as the buffer goes. -/
theorem open_and_delete {s : State} (hmode : s.mode = .command) (hline : 0 ≤ s.cursor.line)
    (hlt : s.cursor.line < s.buffer.length) (chars : JsString) :
    (∃ col, (openAndDelete (key "o") chars).foldl handleKey s =
      { cursor := ⟨min (s.cursor.line + 1) (s.buffer.length - 1), col⟩
        buffer := ⟨s.buffer.elems, []⟩
        mode := .command
        repeatNumber := some 0 }) ∧
    ∃ col, (openAndDelete (key "O") chars).foldl handleKey s =
      { cursor := ⟨s.cursor.line, col⟩
        buffer := ⟨s.buffer.elems, []⟩
        mode := .command
        repeatNumber := some 0 } := by
  constructor
  · exact open_and_delete_eq hline hlt (handleKey_o hmode) chars
  · obtain ⟨col, heq⟩ := open_and_delete_eq hline hlt (handleKey_O hmode) chars
    have hlast : min (s.cursor.line + 0) (s.buffer.length - 1) = s.cursor.line := by omega
    rw [if_pos rfl, hlast] at heq
    exact ⟨col, heq⟩

theorem open_and_delete_last :
    ∃ col, (openAndDelete (key "o") (lit "xy")).foldl handleKey (run (lit "a\nb") [key "j"]) =
      ⟨⟨1, col⟩, ⟨[lit "a", lit "b"], []⟩, .command, some 0⟩ :=
  (open_and_delete (s := run (lit "a\nb") [key "j"]) (by decide) (by decide) (by decide)
    (lit "xy")).1

end CoffeeTable.Editor

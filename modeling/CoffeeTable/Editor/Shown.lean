import CoffeeTable.Editor.Counting
import CoffeeTable.Editor.Render

/-!
# Editing where the cursor is shown

The stored column can lie past the end of its line, after leaving insert mode
at the end of a line or after coming from a longer one. Drawing clamps it to
the last character. The character-wise operators measure their target from the
clamped column and cut from the stored one, and entering insert mode clamps to
the line end instead. So both act on what is shown as long as the stored
column is on the line, and else they do not.
-/

namespace CoffeeTable.Editor

open Ecma

/-- Where the cursor is drawn outside insert mode on a line of the given length. -/
def shownCol (length : ℕ) (col : ℤ) : ℕ := (max 0 (min col (length - 1))).toNat

theorem shownCol_eq_clampCol {mode : Mode} (hmode : mode ≠ .insert) (length : ℕ) (col : ℤ) :
    (shownCol length col : ℤ) = clampCol mode length col := by
  rw [shownCol, clampCol, endOfLine_of_ne hmode]
  omega

theorem shownCol_of_lt {length : ℕ} {col : ℤ} (hnonneg : 0 ≤ col) (h : col < length) :
    (shownCol length col : ℤ) = col := by
  unfold shownCol
  omega

@[simp] theorem shownCol_zero (col : ℤ) : shownCol 0 col = 0 := by
  unfold shownCol
  omega

/-- How much of a line the drawing puts left of the cursor, if it shows one there. -/
def drawnCol (s : State) (line : JsString) (lineNumber : ℕ) : Option ℕ :=
  (cursorOn s line lineNumber).map fun cursor ↦ (sliceTo line cursor.1).length

theorem drawnCol_eq {s : State} (hmode : s.mode ≠ .insert) (hcol : 0 ≤ s.cursor.col)
    {lineNumber : ℕ} (hline : (lineNumber : ℤ) = s.cursor.line) (line : JsString) :
    drawnCol s line lineNumber = some (shownCol line.length s.cursor.col) := by
  rw [drawnCol, cursorOn, if_pos hline, endOfLine_of_ne hmode, Option.map_some]
  congr 1
  cases line with
  | nil => simp [sliceTo]
  | cons c line =>
      have hshown : min s.cursor.col ((c :: line).length + -1) =
          (shownCol (c :: line).length s.cursor.col : ℕ) := by
        simp only [shownCol, List.length_cons]
        omega
      have hle : shownCol (c :: line).length s.cursor.col ≤ (c :: line).length := by
        simp only [shownCol, List.length_cons]
        omega
      rw [hshown, sliceTo_natCast, List.length_take, min_eq_left hle]

/-! ## Cutting -/

/-- The line without the characters from one column to another, the cursor at
the first, and all other lines as before. -/
structure Cut (t : State) (before : List JsString) (line : JsString) (after : List JsString)
    (start stop : ℕ) : Prop where
  elems_eq : t.buffer.elems = before ++ (line.take start ++ line.drop stop) :: after
  cursor_eq : t.cursor = ⟨before.length, start⟩

/-- An operator key opens a mode whose wrapper deletes to the target. -/
theorem exists_operator {s : State} (hmode : s.mode = .command) {op : Key}
    (hop : op = key "d" ∨ op = key "c") :
    ∃ mode wrapper, handleKey s op = { s with mode := mode, repeatNumber := some 0 } ∧
      mode ≠ .insert ∧ (motionUse mode).isSome ∧ movementWrapper mode = some wrapper ∧
      ∀ start cursor t, deleteToCursor start cursor = .ok t →
        ∃ t', wrapper start cursor = .ok t' ∧ t'.buffer = t.buffer ∧ t'.cursor = t.cursor := by
  rcases hop with rfl | rfl
  · exact ⟨.delete, deleteToCursor, handleKey_d hmode, by decide, rfl, rfl,
      fun start cursor t h ↦ ⟨t, h, rfl, rfl⟩⟩
  · refine ⟨.change, changeToCursor, handleKey_c hmode, by decide, rfl, rfl,
      fun start cursor t h ↦ ⟨enterMode .insert t, ?_, rfl, rfl⟩⟩
    rw [changeToCursor, h, ok_bind, pure_eq_ok]

/-- Where a motion by columns leads from the shown column. -/
def columnTarget (line : JsString) (col cols count : ℤ) : ℕ :=
  shownCol line.length (shownCol line.length col + cols * count)

section Operators

variable {s : State} {before after : List JsString} {line : JsString}

theorem operate_columns (h : s.At before line after) (hmode : s.mode = .command) {n : ℕ}
    (hn : 1 ≤ n) {op : Key} (hop : op = key "d" ∨ op = key "c") {sideways : Key} {cols : ℤ}
    (hcols : cols ≠ 0)
    (hmovement : movementKeys.lookup sideways.text = some (moveCursor 0 cols)) {target : ℕ}
    (htarget : columnTarget line s.cursor.col cols n = target) :
    ((op :: digitKeys n ++ [sideways]).foldl handleKey s).buffer.elems =
        before ++ (sliceTo line (min s.cursor.col target) ++
          sliceFrom line (max s.cursor.col target)) :: after ∧
      ((op :: digitKeys n ++ [sideways]).foldl handleKey s).cursor =
        ⟨before.length, min s.cursor.col target⟩ := by
  obtain ⟨mode, wrapper, hopen, hinsert, huse, hwrapper, hdelete⟩ := exists_operator hmode hop
  have hat : State.At { s with mode := mode, repeatNumber := some 0 } before line after :=
    ⟨h.elems_eq, h.line_eq, h.col_nonneg⟩
  have hmove := Motion.moveCursor_columns hcols hat.get?_line (n : ℤ)
  simp only [← shownCol_eq_clampCol hinsert] at hmove
  rw [← columnTarget, htarget] at hmove
  obtain ⟨t, ht, hbuffer, hcursor⟩ := hdelete _ _ _ (hat.deleteToCursor_same target)
  have hpress := press_counted (s := { s with mode := mode, repeatNumber := some 0 }) rfl
    hmovement hwrapper hn
  rw [hmove, ok_bind, ht] at hpress
  rw [List.foldl_append, List.foldl_cons, List.foldl_nil, List.foldl_cons, hopen,
    type_count huse rfl, handleKey, hpress]
  exact ⟨congrArg JsArray.elems hbuffer, hcursor⟩

theorem columnTarget_left {length d n : ℕ} (h : length = 0 ∧ d = 0 ∨ d < length) :
    shownCol length (d + -1 * (n : ℤ)) = d - min n d := by
  unfold shownCol
  omega

/-- With the stored column on the line, a deletion sideways cuts from or to the shown column. -/
theorem cut_of_lt (h : s.At before line after) (hmode : s.mode = .command) {n : ℕ}
    (hn : 1 ≤ n) {op : Key} (hop : op = key "d" ∨ op = key "c") {sideways : Key} {cols : ℤ}
    (hcols : cols ≠ 0)
    (hmovement : movementKeys.lookup sideways.text = some (moveCursor 0 cols)) {d target : ℕ}
    (hd : shownCol line.length s.cursor.col = d)
    (htarget : columnTarget line s.cursor.col cols n = target)
    (hlt : s.cursor.col < line.length ∨ line = []) :
    Cut ((op :: digitKeys n ++ [sideways]).foldl handleKey s) before line after
      (min d target) (max d target) := by
  obtain ⟨helems, hcursor⟩ := operate_columns h hmode hn hop hcols hmovement htarget
  have hnonneg := h.col_nonneg
  rcases hlt with hlt | rfl
  · have hcol := shownCol_of_lt hnonneg hlt
    rw [hd] at hcol
    rw [← hcol, ← Nat.cast_max, ← Nat.cast_min, sliceTo_natCast, sliceFrom_natCast] at helems
    rw [← hcol, ← Nat.cast_min] at hcursor
    exact ⟨helems, hcursor⟩
  · have hzero : target = 0 := by
      rw [← htarget, columnTarget, List.length_nil, shownCol_zero]
    subst hzero
    refine ⟨?_, ?_⟩
    · simpa [sliceTo, sliceFrom] using helems
    · rw [hcursor, Int.natCast_zero, min_eq_right hnonneg, Nat.min_zero, Int.natCast_zero]

/-- With the stored column past the end, a deletion sideways takes the last character too. -/
theorem elems_of_le (h : s.At before line after) (hmode : s.mode = .command) {n : ℕ}
    (hn : 1 ≤ n) {op : Key} (hop : op = key "d" ∨ op = key "c") {sideways : Key} {cols : ℤ}
    (hcols : cols ≠ 0)
    (hmovement : movementKeys.lookup sideways.text = some (moveCursor 0 cols)) {target : ℕ}
    (htarget : columnTarget line s.cursor.col cols n = target)
    (hle : line.length ≤ s.cursor.col) (hlt : target < line.length) :
    ((op :: digitKeys n ++ [sideways]).foldl handleKey s).buffer.elems =
      before ++ line.take target :: after := by
  have helems := (operate_columns h hmode hn hop hcols hmovement htarget).1
  have hmin : min s.cursor.col target = target := by omega
  obtain ⟨col, hcol⟩ : ∃ col : ℕ, max s.cursor.col target = col :=
    ⟨(max s.cursor.col target).toNat, by omega⟩
  rw [hmin, hcol, sliceTo_natCast, sliceFrom_natCast, List.drop_eq_nil_of_le (by omega),
    List.append_nil] at helems
  exact helems

end Operators

theorem cons_eq_append_singleton_iff {α : Type*} (x : α) (xs : List α) :
    x :: xs = xs ++ [x] ↔ ∀ y ∈ xs, y = x := by
  induction xs with
  | nil => simp
  | cons y xs ih =>
      rw [List.cons_append, List.cons_eq_cons, List.forall_mem_cons, ← ih]
      constructor
      · rintro ⟨rfl, h⟩
        exact ⟨rfl, h⟩
      · rintro ⟨rfl, h⟩
        exact ⟨rfl, h⟩

section Typing

variable {s : State} {before after : List JsString} {line : JsString}

theorem typed_elems (h : s.At before line after) (hmode : s.mode = .insert) (chars : JsString) :
    ((charKeys chars).foldl handleKey s).buffer.elems =
      before ++ (line.take (min s.cursor.col.toNat line.length) ++ chars ++
        line.drop (min s.cursor.col.toNat line.length)) :: after := by
  have hat : s.At before (line.take (min s.cursor.col.toNat line.length) ++
      line.drop (min s.cursor.col.toNat line.length)) after := by
    rwa [List.take_append_drop]
  refine (hat.type_chars hmode ?_ chars).1.elems_eq
  rw [List.take_append_drop, clampCol_insert _ h.col_nonneg, List.length_take]
  congr 1
  omega

theorem insertion_eq_iff {line chars : JsString} {col : ℤ} (hnonneg : 0 ≤ col) {d : ℕ}
    (hd : shownCol line.length col = d) :
    line.take (min col.toNat line.length) ++ chars ++ line.drop (min col.toNat line.length) =
        line.take d ++ chars ++ line.drop d ↔
      col < line.length ∨ line = [] ∨ ∀ c ∈ chars, line.getLast? = some c := by
  by_cases hlt : col < line.length
  · have hcol : min col.toNat line.length = d := by
      have hshown := shownCol_of_lt hnonneg hlt
      omega
    rw [hcol]
    exact iff_of_true rfl (Or.inl hlt)
  · rcases List.eq_nil_or_concat line with rfl | ⟨init, last, rfl⟩
    · exact iff_of_true (by simp) (Or.inr (Or.inl rfl))
    · rw [List.concat_eq_append] at hd hlt ⊢
      have hcol : min col.toNat (init ++ [last]).length = (init ++ [last]).length := by
        omega
      have hinit : d = init.length := by
        rw [← hd, shownCol]
        simp only [List.length_append, List.length_singleton] at hlt ⊢
        omega
      have hne : init ++ [last] ≠ [] := by simp
      rw [hcol, hinit, List.take_length, List.drop_length, List.append_nil, List.take_left,
        List.drop_left, List.append_assoc, List.append_assoc, List.append_cancel_left_eq,
        List.singleton_append, cons_eq_append_singleton_iff]
      simp only [hlt, hne, false_or, List.getLast?_concat, Option.some.injEq, eq_comm]

theorem typed_before (h : s.At before line after) (hmode : s.mode = .command)
    (chars : JsString) :
    ((key "i" :: charKeys chars).foldl handleKey s).buffer.elems =
      before ++ (line.take (min s.cursor.col.toNat line.length) ++ chars ++
        line.drop (min s.cursor.col.toNat line.length)) :: after := by
  have hat : State.At { s with mode := .insert, repeatNumber := some 0 } before line after :=
    ⟨h.elems_eq, h.line_eq, h.col_nonneg⟩
  rw [List.foldl_cons, handleKey_i hmode]
  exact typed_elems hat rfl chars

theorem typed_after (h : s.At before line after) (hmode : s.mode = .command) {d : ℕ}
    (hd : shownCol line.length s.cursor.col = d) (chars : JsString) :
    ((key "a" :: charKeys chars).foldl handleKey s).buffer.elems =
      before ++ (line.take (min (d + 1) line.length) ++ chars ++
        line.drop (min (d + 1) line.length)) :: after := by
  have hnonneg := h.col_nonneg
  have hat : State.At
      { s with
        cursor := ⟨s.cursor.line, s.cursor.col + 1⟩
        mode := .insert
        repeatNumber := some 0 } before line after :=
    ⟨h.elems_eq, h.line_eq, by simp only; omega⟩
  have hcol : min (s.cursor.col + 1).toNat line.length = min (d + 1) line.length := by
    rw [← hd, shownCol]
    omega
  rw [List.foldl_cons, handleKey_a hmode, typed_elems hat rfl, hcol]

/-- Text typed after `i` lands before the shown cursor exactly if the stored
column is on the line, the line is empty, or the text repeats its last
character; text typed after `a` always lands after it. -/
theorem typing_lands_shown_iff (h : s.At before line after) (hmode : s.mode = .command) {d : ℕ}
    (hd : shownCol line.length s.cursor.col = d) (chars : JsString) :
    (((key "i" :: charKeys chars).foldl handleKey s).buffer.elems =
          before ++ (line.take d ++ chars ++ line.drop d) :: after ∧
        ((key "a" :: charKeys chars).foldl handleKey s).buffer.elems =
          before ++ (line.take (min (d + 1) line.length) ++ chars ++
            line.drop (min (d + 1) line.length)) :: after) ↔
      s.cursor.col < line.length ∨ line = [] ∨ ∀ c ∈ chars, line.getLast? = some c := by
  rw [typed_before h hmode chars, and_iff_left (typed_after h hmode hd chars),
    List.append_cancel_left_eq, List.cons_eq_cons, and_iff_left rfl]
  exact insertion_eq_iff h.col_nonneg hd

end Typing

theorem typing_lands_shown_start :
    ((key "i" :: charKeys (lit "x")).foldl handleKey (startEditing (lit "abc"))).buffer.elems =
      [lit "xabc"] := by
  have hat : (startEditing (lit "abc")).At [] (lit "abc") [] := ⟨rfl, rfl, le_refl 0⟩
  exact ((typing_lands_shown_iff hat rfl rfl (lit "x")).mpr (Or.inl (by decide))).1

theorem typing_lands_past_end :
    ((key "i" :: charKeys (lit "x")).foldl handleKey
        (run (lit "abc") [key "l", key "l", key "a", key "<ESC>"])).buffer.elems = [lit "abcx"] ∧
      shownCol (lit "abc").length
        (run (lit "abc") [key "l", key "l", key "a", key "<ESC>"]).cursor.col = 2 ∧
      [lit "abcx"] ≠ [(lit "abc").take 2 ++ lit "x" ++ (lit "abc").drop 2] := by
  decide

end CoffeeTable.Editor

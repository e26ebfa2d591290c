import CoffeeTable.Editor.Edit

/-!
# Editing actions on a cursor inside the buffer

For a state whose cursor stands on `line`, with `before` above and `after`
below, each action is computed in full. The results are again given by lines
above, cursor line and lines below, so that these equations compose.
-/

namespace CoffeeTable.Editor

open Ecma

namespace State.At

variable {s : State} {before after : List JsString} {line : JsString}

theorem get?_clone (h : s.At before line after) :
    s.buffer.clone.get? before.length = some line := by
  rw [JsArray.get?_clone_of_nonneg _ (Int.natCast_nonneg _), ← h.line_eq, h.get?_line]

theorem splice_eq (h : s.At before line after) (items : List JsString) :
    s.buffer.clone.splice before.length 1 items = ⟨before ++ items ++ after, []⟩ := by
  simp [JsArray.splice, JsArray.clone, h.elems_eq, Ecma.splice_append]

theorem insertStringAtCursor_eq (h : s.At before line after) (string : JsString) :
    insertStringAtCursor string s = .ok
      { cursor := ⟨before.length, clampCol s.mode line.length s.cursor.col + string.length⟩
        buffer := ⟨before ++ (sliceTo line (clampCol s.mode line.length s.cursor.col) ++ string ++
          sliceFrom line (clampCol s.mode line.length s.cursor.col)) :: after, []⟩
        mode := s.mode
        repeatNumber := none } := by
  have hset := JsArray.set?_of_split (a := s.buffer.clone) h.elems_eq
    (sliceTo line (clampCol s.mode line.length s.cursor.col) ++ string ++
      sliceFrom line (clampCol s.mode line.length s.cursor.col))
  simp only [insertStringAtCursor, h.normalize_eq true, ok_bind, h.get?_clone, lineOf_some,
    hset, writeOf_some, pure_eq_ok, JsArray.props_clone]

theorem breakLineAtCursor_eq (h : s.At before line after) :
    breakLineAtCursor s = .ok
      { cursor := ⟨before.length + 1, 0⟩
        buffer := ⟨before ++ sliceTo line (clampCol s.mode line.length s.cursor.col) ::
          sliceFrom line (clampCol s.mode line.length s.cursor.col) :: after, []⟩
        mode := s.mode
        repeatNumber := none } := by
  have hset := JsArray.set?_of_split (a := s.buffer.clone) h.elems_eq
    (sliceTo line (clampCol s.mode line.length s.cursor.col))
  simp only [breakLineAtCursor, h.normalize_eq true, ok_bind, h.get?_clone, lineOf_some,
    hset, writeOf_some, pure_eq_ok, JsArray.props_clone, JsArray.splice, Ecma.splice_append]
  simp

theorem insertLine_before (h : s.At before line after) :
    insertLine .before s =
      { s with
        cursor := ⟨before.length, 0⟩
        buffer := ⟨before ++ [] :: line :: after, []⟩
        mode := .insert } := by
  simp [insertLine, makeState, JsArray.splice, JsArray.clone, h.line_eq, h.elems_eq,
    Ecma.splice_append]

theorem insertLine_after (h : s.At before line after) :
    insertLine .after s =
      { s with
        cursor := ⟨before.length + 1, 0⟩
        buffer := ⟨before ++ line :: [] :: after, []⟩
        mode := .insert } := by
  have hsplice : Ecma.splice (before ++ line :: after) ((before.length : ℤ) + 1) 0 [[]] =
      before ++ line :: [] :: after := by
    have := Ecma.splice_append (before ++ [line]) after [([] : JsString)] 0
    simpa using this
  simp [insertLine, makeState, JsArray.splice, JsArray.clone, h.line_eq, h.elems_eq, hsplice]

theorem deleteCurrentLine_eq (h : s.At before line after) :
    deleteCurrentLine s = .ok
      { s with
        cursor := ⟨max 0 (min before.length (before.length + after.length - 1)), s.cursor.col⟩
        buffer := ⟨before ++ after, []⟩
        mode := .command } := by
  simp only [deleteCurrentLine, h.line_eq, h.splice_eq, List.append_nil,
    normalizeCursor_line]
  simp [makeState, clampLine, endOfLine, JsArray.length, h.line_eq, sub_eq_add_neg]

theorem changeCurrentLine_eq (h : s.At before line after) :
    changeCurrentLine s = .ok
      { s with
        cursor := ⟨before.length, s.cursor.col⟩
        buffer := ⟨before ++ [] :: after, []⟩
        mode := .insert } := by
  have hset := JsArray.set?_of_split (a := s.buffer.clone) h.elems_eq ([] : JsString)
  have hline : max 0 (min (before.length : ℤ) (before.length + (after.length + 1))) =
      before.length := by omega
  simp only [changeCurrentLine, h.line_eq, hset, writeOf_some, ok_bind,
    normalizeCursor_line]
  simp [makeState, clampLine, endOfLine, JsArray.length, h.line_eq, hline]

theorem deleteToCursor_same (h : s.At before line after) (col : ℤ) :
    deleteToCursor s ⟨s.cursor.line, col⟩ = .ok
      { s with
        cursor := ⟨before.length, min s.cursor.col col⟩
        buffer := ⟨before ++ (sliceTo line (min s.cursor.col col) ++
          sliceFrom line (max s.cursor.col col)) :: after, []⟩
        mode := .command } := by
  have hset := JsArray.set?_of_split (a := s.buffer.clone) h.elems_eq
    (sliceTo line (min s.cursor.col col) ++ sliceFrom line (max s.cursor.col col))
  simp only [deleteToCursor, if_true, h.line_eq, h.get?_clone, lineOf_some, ok_bind, hset,
    writeOf_some, pure_eq_ok]
  simp [makeState]

end State.At

/-! ## Actions that normalize first -/

theorem insertStringAtCursor_of_error {s : State} {fault : Fault} (string : JsString)
    (h : normalizeCursor s {} = .error fault) :
    insertStringAtCursor string s = .error fault := by
  simp [insertStringAtCursor, h]

theorem breakLineAtCursor_of_error {s : State} {fault : Fault}
    (h : normalizeCursor s {} = .error fault) : breakLineAtCursor s = .error fault := by
  simp [breakLineAtCursor, h]

theorem insertStringAtCursor_normalize {s n : State} (string : JsString)
    (h : normalizeCursor s {} = .ok n) :
    insertStringAtCursor string s = insertStringAtCursor string n := by
  obtain ⟨before, line, after, -, hn⟩ := exists_at_of_normalizeCursor h
  obtain ⟨hbuffer, hmode, -⟩ := normalizeCursor_fields h
  simp only [insertStringAtCursor, h, hn, ok_bind, hbuffer, hmode]

theorem breakLineAtCursor_normalize {s n : State} (h : normalizeCursor s {} = .ok n) :
    breakLineAtCursor s = breakLineAtCursor n := by
  obtain ⟨before, line, after, -, hn⟩ := exists_at_of_normalizeCursor h
  obtain ⟨hbuffer, hmode, -⟩ := normalizeCursor_fields h
  simp only [breakLineAtCursor, h, hn, ok_bind, hbuffer, hmode]

/-! ## Deleting whole lines -/

theorem deleteToCursor_of_ne {s : State} {target : Cursor} (h : s.cursor.line ≠ target.line) :
    deleteToCursor s target = .ok
      { s with
        cursor := ⟨min s.cursor.line target.line, 0⟩
        buffer := s.buffer.clone.splice (min s.cursor.line target.line)
          (max s.cursor.line target.line - min s.cursor.line target.line + 1) []
        mode := .command } := by
  simp [deleteToCursor, h, makeState]

theorem deleteToCursor_of_none {s : State} {target : Cursor} (h : s.cursor.line = target.line)
    (hget : s.buffer.clone.get? s.cursor.line = none) :
    deleteToCursor s target = .error .missingLine := by
  rw [deleteToCursor, if_pos h]
  simp only [hget, lineOf_none, error_bind]

/-! ## Backspace -/

theorem deleteCharsAtCursor_zero (s : State) : deleteCharsAtCursor 0 s = .ok s := by
  rw [deleteCharsAtCursor]
  simp

theorem deleteCharsAtCursor_of_error {s : State} {count : ℤ} {fault : Fault} (hcount : count ≠ 0)
    (h : normalizeCursor s {} = .error fault) : deleteCharsAtCursor count s = .error fault := by
  rw [deleteCharsAtCursor, if_neg hcount]
  split
  · next heq => rw [h] at heq; exact congrArg _ (Except.error.inj heq).symm
  · next heq => rw [h] at heq; cases heq

theorem deleteCharsAtCursor_of_ok {s n : State} {count : ℤ} {line : JsString} (hcount : count ≠ 0)
    (hnormal : normalizeCursor s {} = .ok n)
    (hget : s.buffer.clone.get? n.cursor.line = some line) :
    deleteCharsAtCursor count s =
      if count + n.cursor.col < 0 then
        deleteCharsAtCursor (count + n.cursor.col + 1)
          { n with
            cursor := ⟨n.cursor.line - 1,
              (((s.buffer.clone.get? (n.cursor.line - 1)).getD []).length : ℤ)⟩
            buffer := s.buffer.clone.splice (n.cursor.line - 1) 2
              [(s.buffer.clone.get? (n.cursor.line - 1)).getD [] ++
                sliceFrom line n.cursor.col] }
      else if line.length < count + n.cursor.col then
        deleteCharsAtCursor (count - (line.length - n.cursor.col) - 1)
          { cursor := n.cursor
            buffer := s.buffer.clone.splice n.cursor.line 2
              [sliceTo line n.cursor.col ++ (s.buffer.clone.get? (n.cursor.line + 1)).getD []]
            mode := s.mode
            repeatNumber := none }
      else
        (writeOf (s.buffer.clone.set? n.cursor.line
          (sliceTo line (min (n.cursor.col + count) n.cursor.col) ++
            sliceFrom line (max (n.cursor.col + count) n.cursor.col)))).map fun buffer ↦
          { n with
            cursor := ⟨n.cursor.line, min (n.cursor.col + count) n.cursor.col⟩
            buffer := buffer } := by
  -- The right side is hidden so that each `split` opens a lookup of the left side.
  generalize hright : ite (count + n.cursor.col < 0) _ _ = right
  rw [deleteCharsAtCursor, if_neg hcount]
  split
  · next heq => rw [hnormal] at heq; cases heq
  · next normalized heq =>
      rw [hnormal] at heq
      cases heq
      dsimp only
      split
      · next hnone => rw [hget] at hnone; cases hnone
      · next current hsome =>
          rw [hget] at hsome
          cases hsome
          rw [← hright]
          rfl

theorem deleteCharsAtCursor_normalize {s n : State} {count : ℤ} (hcount : count ≠ 0)
    (h : normalizeCursor s {} = .ok n) :
    deleteCharsAtCursor count s = deleteCharsAtCursor count n := by
  obtain ⟨before, line, after, hat, hn⟩ := exists_at_of_normalizeCursor h
  obtain ⟨hbuffer, hmode, -⟩ := normalizeCursor_fields h
  have hget : n.buffer.clone.get? n.cursor.line = some line := hat.line_eq ▸ hat.get?_clone
  rw [deleteCharsAtCursor_of_ok hcount hn hget,
    deleteCharsAtCursor_of_ok hcount h (hbuffer ▸ hget), hbuffer, hmode]

namespace State.At

variable {s : State} {before after : List JsString} {line : JsString}

theorem deleteCharsAtCursor_eq (h : s.At before line after) {count col : ℤ} (hcount : count ≠ 0)
    (hcol : clampCol s.mode line.length s.cursor.col = col) :
    deleteCharsAtCursor count s =
      if count + col < 0 then
        deleteCharsAtCursor (count + col + 1)
          { s with
            cursor := ⟨before.length - 1,
              (((s.buffer.clone.get? (before.length - 1)).getD []).length : ℤ)⟩
            buffer := s.buffer.clone.splice (before.length - 1) 2
              [(s.buffer.clone.get? (before.length - 1)).getD [] ++ sliceFrom line col] }
      else if line.length < count + col then
        deleteCharsAtCursor (count - (line.length - col) - 1)
          { cursor := ⟨before.length, col⟩
            buffer := s.buffer.clone.splice before.length 2
              [sliceTo line col ++ (s.buffer.clone.get? (before.length + 1)).getD []]
            mode := s.mode
            repeatNumber := none }
      else .ok
        { s with
          cursor := ⟨before.length, min (col + count) col⟩
          buffer := ⟨before ++ (sliceTo line (min (col + count) col) ++
            sliceFrom line (max (col + count) col)) :: after, []⟩ } := by
  have hset := JsArray.set?_of_split (a := s.buffer.clone) h.elems_eq
    (sliceTo line (min (col + count) col) ++ sliceFrom line (max (col + count) col))
  subst hcol
  rw [deleteCharsAtCursor_of_ok hcount (h.normalize_eq true) h.get?_clone, hset]
  rfl

theorem backspace_inside (h : s.At before line after) {col : ℕ}
    (hcol : clampCol s.mode line.length s.cursor.col = (col + 1 : ℕ)) :
    deleteCharsAtCursor (-1) s = .ok
      { s with
        cursor := ⟨before.length, col⟩
        buffer := ⟨before ++ (line.take col ++ line.drop (col + 1)) :: after, []⟩ } := by
  have hle := clampCol_le s.mode line.length s.cursor.col
  rw [hcol] at hle
  have hstart : min (((col + 1 : ℕ) : ℤ) + -1) (col + 1 : ℕ) = (col : ℕ) := by omega
  have hstop : max (((col + 1 : ℕ) : ℤ) + -1) (col + 1 : ℕ) = (col + 1 : ℕ) := by omega
  rw [h.deleteCharsAtCursor_eq (by decide) hcol, if_neg (by omega), if_neg (by omega), hstart,
    hstop, sliceTo_natCast, sliceFrom_natCast]

theorem deleteChars_over_start {previous : JsString} (h : s.At (before ++ [previous]) line after)
    {col : ℕ} (hcol : clampCol s.mode line.length s.cursor.col = col) {count : ℤ}
    (hcount : count + col < 0) :
    deleteCharsAtCursor count s = deleteCharsAtCursor (count + col + 1)
      { s with
        cursor := ⟨before.length, previous.length⟩
        buffer := ⟨before ++ (previous ++ line.drop col) :: after, []⟩ } := by
  have hindex : (((before ++ [previous]).length : ℕ) : ℤ) - 1 = before.length := by simp
  have helems : s.buffer.elems = before ++ previous :: line :: after := by
    simpa using h.elems_eq
  have hget : s.buffer.clone.get? before.length = some previous :=
    JsArray.get?_of_split (a := s.buffer.clone) helems
  have hsplice : s.buffer.clone.splice before.length 2 [previous ++ line.drop col] =
      ⟨before ++ (previous ++ line.drop col) :: after, []⟩ := by
    simp [JsArray.splice, JsArray.clone, helems, Ecma.splice_append]
  rw [h.deleteCharsAtCursor_eq (by omega) hcol, if_pos hcount, hindex, hget]
  simp only [Option.getD_some, sliceFrom_natCast, hsplice]

theorem deleteChars_over_end {next : JsString} (h : s.At before line (next :: after))
    {col : ℕ} (hcol : clampCol s.mode line.length s.cursor.col = col) {count : ℤ}
    (hcount : line.length < count + col) :
    deleteCharsAtCursor count s = deleteCharsAtCursor (count - (line.length - col) - 1)
      { cursor := ⟨before.length, col⟩
        buffer := ⟨before ++ (line.take col ++ next) :: after, []⟩
        mode := s.mode
        repeatNumber := none } := by
  have hle := clampCol_le s.mode line.length s.cursor.col
  have helems : s.buffer.elems = (before ++ [line]) ++ next :: after := by
    simpa using h.elems_eq
  have hget : s.buffer.clone.get? (before.length + 1) = some next := by
    have hnext := JsArray.get?_of_split (a := s.buffer.clone) helems
    rwa [List.length_append, Nat.cast_add] at hnext
  have hsplice : s.buffer.clone.splice before.length 2 [line.take col ++ next] =
      ⟨before ++ (line.take col ++ next) :: after, []⟩ := by
    simp [JsArray.splice, JsArray.clone, h.elems_eq, Ecma.splice_append]
  rw [h.deleteCharsAtCursor_eq (by omega) hcol, if_neg (by omega), if_pos hcount, hget]
  simp only [Option.getD_some, sliceTo_natCast, hsplice]

/-- Below the last line there is only an empty one to join. -/
theorem deleteChars_past_end (h : s.At before line []) {col : ℕ}
    (hcol : clampCol s.mode line.length s.cursor.col = col) {count : ℤ}
    (hcount : line.length < count + col) :
    deleteCharsAtCursor count s = deleteCharsAtCursor (count - (line.length - col) - 1)
      { cursor := ⟨before.length, col⟩
        buffer := ⟨before ++ [line.take col], []⟩
        mode := s.mode
        repeatNumber := none } := by
  have hle := clampCol_le s.mode line.length s.cursor.col
  have hget : s.buffer.clone.get? (before.length + 1) = none := by
    apply JsArray.get?_eq_none_of_length_le (by omega)
    have hlength := h.length_eq
    simp only [List.length_nil] at hlength
    rw [JsArray.length_clone]
    omega
  have hsplice : s.buffer.clone.splice before.length 2 [line.take col ++ []] =
      ⟨before ++ [line.take col], []⟩ := by
    simp [JsArray.splice, JsArray.clone, h.elems_eq, Ecma.splice_append]
  rw [h.deleteCharsAtCursor_eq (by omega) hcol, if_neg (by omega), if_pos hcount, hget]
  simp only [Option.getD_none, sliceTo_natCast, hsplice]

theorem backspace_start {previous : JsString} (h : s.At (before ++ [previous]) line after)
    (hcol : clampCol s.mode line.length s.cursor.col = 0) :
    deleteCharsAtCursor (-1) s = .ok
      { s with
        cursor := ⟨before.length, previous.length⟩
        buffer := ⟨before ++ (previous ++ line) :: after, []⟩ } := by
  have hzero : clampCol s.mode line.length s.cursor.col = ((0 : ℕ) : ℤ) := hcol
  rw [h.deleteChars_over_start hzero (by decide)]
  exact deleteCharsAtCursor_zero _

/-- At the start of the first line, the splice starts at `-1`, so that the
last line is overwritten with the first and the cursor leaves the buffer. -/
theorem backspace_first (h : s.At [] line after)
    (hcol : clampCol s.mode line.length s.cursor.col = 0) :
    deleteCharsAtCursor (-1) s = .ok
      { s with
        cursor := ⟨-1, 0⟩
        buffer := ⟨(line :: after).dropLast ++ [line], []⟩ } := by
  have hget : s.buffer.clone.get? (-1) = none := JsArray.get?_clone_of_neg _ (by decide)
  have hline : sliceFrom line 0 = line := by simpa using sliceFrom_natCast line 0
  have helems : s.buffer.elems = line :: after := h.elems_eq
  have hsplice : s.buffer.clone.splice (-1) 2 [line] =
      ⟨(line :: after).dropLast ++ [line], []⟩ := by
    have hindex : relativeIndex (line :: after).length (-1) = after.length := by
      rw [relativeIndex_of_neg (by decide), List.length_cons]
      omega
    simp only [JsArray.splice, JsArray.clone, helems, Ecma.splice, hindex]
    simp [List.dropLast_eq_take]
  rw [h.deleteCharsAtCursor_eq (by decide) hcol, if_pos (by omega)]
  simp only [List.length_nil, Int.natCast_zero, zero_sub, hget, Option.getD_none, hline,
    List.nil_append, hsplice]
  exact deleteCharsAtCursor_zero _

/-- The three places where backspace can happen. -/
theorem backspace_cases (h : s.At before line after) :
    (∃ col : ℕ, clampCol s.mode line.length s.cursor.col = (col + 1 : ℕ) ∧
      deleteCharsAtCursor (-1) s = .ok
        { s with
          cursor := ⟨before.length, col⟩
          buffer := ⟨before ++ (line.take col ++ line.drop (col + 1)) :: after, []⟩ }) ∨
      (∃ init previous, before = init ++ [previous] ∧
        clampCol s.mode line.length s.cursor.col = 0 ∧
        deleteCharsAtCursor (-1) s = .ok
          { s with
            cursor := ⟨init.length, previous.length⟩
            buffer := ⟨init ++ (previous ++ line) :: after, []⟩ }) ∨
      (before = [] ∧ clampCol s.mode line.length s.cursor.col = 0 ∧
        deleteCharsAtCursor (-1) s = .ok
          { s with
            cursor := ⟨-1, 0⟩
            buffer := ⟨(line :: after).dropLast ++ [line], []⟩ }) := by
  have hnonneg := clampCol_nonneg s.mode line.length s.cursor.col
  by_cases hcol : clampCol s.mode line.length s.cursor.col = 0
  · right
    rcases List.eq_nil_or_concat before with rfl | ⟨init, previous, rfl⟩
    · exact Or.inr ⟨rfl, hcol, h.backspace_first hcol⟩
    · rw [List.concat_eq_append] at h ⊢
      exact Or.inl ⟨init, previous, rfl, hcol, h.backspace_start hcol⟩
  · left
    obtain ⟨col, hsucc⟩ : ∃ col : ℕ,
        clampCol s.mode line.length s.cursor.col = (col + 1 : ℕ) :=
      ⟨(clampCol s.mode line.length s.cursor.col).toNat - 1, by omega⟩
    exact ⟨col, hsucc, h.backspace_inside hsucc⟩

end State.At

end CoffeeTable.Editor

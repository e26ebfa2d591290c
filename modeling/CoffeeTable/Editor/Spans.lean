import CoffeeTable.Editor.Keystrokes

/-!
# Operators over whole lines

A vertical motion under an operator takes the lines from the cursor to its
target, both included, and a motion that goes nowhere takes nothing. Changing
the current line leaves an empty line to type into. Changing over a vertical
motion uses the deletion as it is and leaves none, so that the text lands in
front of the line that has moved up, or nowhere.
-/

namespace CoffeeTable.Editor

open Ecma

/-- The line that a vertical motion by the count reaches in the buffer. -/
def verticalTarget (s : State) (count : ℤ) : Motion → Option ℤ
  | .columns _ => none
  | .rows lines => some (max 0 (min (s.cursor.line + lines * count) (s.buffer.length - 1)))
  | .endOfFile => some (s.buffer.length - 1)

/-- The lines with those from one to another, in either order, replaced. -/
def replaceSpan (lines : List JsString) (a b : ℤ) (new : List JsString) : List JsString :=
  lines.take (min a b).toNat ++ new ++ lines.drop ((max a b).toNat + 1)

theorem length_replaceSpan (lines : List JsString) (a b : ℤ) (new : List JsString) :
    (replaceSpan lines a b new).length = (replaceSpan lines a b []).length + new.length := by
  simp only [replaceSpan, List.length_append, List.length_nil]
  omega

theorem targetLine_eq {s : State} (hs : s.Inside) (hmode : s.mode ≠ .insert) (count : ℤ)
    (motion : Motion) : motion.targetLine s count = verticalTarget s count motion := by
  cases motion with
  | columns cols => rfl
  | endOfFile => rfl
  | rows lines =>
      rw [Motion.targetLine, clampLine_of_lt hs.line_nonneg hs.line_lt, clampLine,
        endOfLine_of_ne hmode]
      rfl

theorem elems_splice_span {s : State} (hs : s.Inside) {target : ℤ} (hlow : 0 ≤ target) :
    Ecma.splice s.buffer.elems (min s.cursor.line target)
        (max s.cursor.line target - min s.cursor.line target + 1) [] =
      replaceSpan s.buffer.elems s.cursor.line target [] := by
  have hnonneg := hs.line_nonneg
  have hlt := hs.line_lt
  simp only [JsArray.length] at hlt
  have hstart : relativeIndex s.buffer.elems.length (min s.cursor.line target) =
      (min s.cursor.line target).toNat := by
    rw [relativeIndex_of_nonneg (le_min hnonneg hlow)]
    omega
  have hstop : (min s.cursor.line target).toNat +
      (max s.cursor.line target - min s.cursor.line target + 1).toNat =
        (max s.cursor.line target).toNat + 1 := by omega
  rw [Ecma.splice, hstart, hstop, replaceSpan]

/-- What the deletion over a vertical motion leaves. -/
theorem deleteTo_vertical {motion : Motion} (hproper : motion.Proper) {s : State} (hs : s.Inside)
    (hmode : s.mode ≠ .insert) {count target : ℤ} (actualCount : Option ℤ)
    (htarget : verticalTarget s count motion = some target) :
    ∃ t, (Command.deleteTo motion).run s (some count) actualCount = .ok t ∧
      (target ≠ s.cursor.line →
        t.buffer.elems = replaceSpan s.buffer.elems s.cursor.line target []) ∧
      (target = s.cursor.line → t.buffer.elems = s.buffer.elems) := by
  have hreach := (targetLine_eq hs hmode count motion).trans htarget
  have hlow := (targetLine_lt hmode (hs.line_nonneg.trans_lt hs.line_lt) hreach).1
  have hmove := Motion.movement_of_targetLine hproper hreach
  have hrun : (Command.deleteTo motion).run s (some count) actualCount =
      deleteToCursor s ⟨target, s.cursor.col⟩ := by
    rw [Command.run, hmove, ok_bind]
  rw [hrun]
  by_cases hline : target = s.cursor.line
  · obtain ⟨before, line, after, hat⟩ := hs.exists_at
    subst hline
    refine ⟨_, hat.deleteToCursor_same s.cursor.col, fun hne ↦ (hne rfl).elim, fun _ ↦ ?_⟩
    rw [min_self, max_self, sliceTo_append_sliceFrom, hat.elems_eq]
  · refine ⟨_, deleteToCursor_of_ne (Ne.symm hline), fun _ ↦ ?_, fun heq ↦ (hline heq).elim⟩
    exact elems_splice_span hs hlow

theorem press_deleteTo {s : State} (hmode : s.mode = .delete ∨ s.mode = .change) {n : ℤ}
    (hcount : s.repeatNumber = some n) {key : Key} {motion : Motion}
    (hmotion : motionOf key = some motion) {t : State}
    (h : (Command.deleteTo motion).run (resetCount s) (some (if n = 0 then 1 else n))
      s.repeatNumber = .ok t) :
    ∃ t', press s key = some (.ok t') ∧ t'.buffer = t.buffer ∧
      (s.mode = .change → t'.mode = .insert) := by
  have heffective : effectiveCount s.repeatNumber = some (if n = 0 then 1 else n) := by
    rw [hcount, effectiveCount]
    by_cases hn : n = 0
    · simp [hn]
    · simp [hn]
  rw [press_eq]
  rcases hmode with hmode | hmode
  · refine ⟨t, ?_, rfl, fun hchange ↦ by rw [hmode] at hchange; cases hchange⟩
    rw [hmode, decode_motion rfl hmotion, Option.map_some, State.perform, heffective, h]
  · refine ⟨enterMode .insert t, ?_, rfl, fun _ ↦ rfl⟩
    rw [hmode, decode_motion rfl hmotion, Option.map_some, State.perform, heffective,
      changeTo_run, h, map_ok]

/-- Under either operator, with any pending count, a vertical motion takes
exactly the lines from the cursor line to its target line. -/
theorem operator_takes_lines {s : State} (hs : s.Inside)
    (hmode : s.mode = .delete ∨ s.mode = .change) {n : ℤ} (hcount : s.repeatNumber = some n)
    {key : Key} {motion : Motion} (hmotion : motionOf key = some motion) {target : ℤ}
    (htarget : verticalTarget s (if n = 0 then 1 else n) motion = some target) :
    ∃ t, press s key = some (.ok t) ∧
      (target ≠ s.cursor.line →
        t.buffer.elems = replaceSpan s.buffer.elems s.cursor.line target []) ∧
      (target = s.cursor.line → t.buffer.elems = s.buffer.elems) := by
  have hne : (resetCount s).mode ≠ .insert := by
    rw [resetCount_mode]
    rcases hmode with hmode | hmode <;> rw [hmode] <;> decide
  obtain ⟨t, ht, hdifferent, hsame⟩ :=
    deleteTo_vertical (motionOf_proper hmotion) hs.resetCount hne s.repeatNumber htarget
  obtain ⟨t', ht', hbuffer, -⟩ := press_deleteTo hmode hcount hmotion ht
  rw [← hbuffer] at hdifferent hsame
  exact ⟨t', ht', hdifferent, hsame⟩

theorem operator_takes_lines_down :
    ∃ t, press (run (lit "a\nb\nc") [key "d", key "2"]) (key "j") = some (.ok t) ∧
      t.buffer.elems = [] := by
  have hmotion : motionOf (key "j") = some (.rows 1) := rfl
  obtain ⟨t, ht, hlines, -⟩ := operator_takes_lines
    (s := run (lit "a\nb\nc") [key "d", key "2"]) (n := 2) ⟨by decide, by decide, by decide⟩
    (Or.inl (by decide)) (by decide) hmotion rfl
  exact ⟨t, ht, hlines (by decide)⟩

/-! ## Changing lines -/

theorem handleKey_char_fields {s : State} (hmode : s.mode = .insert) (c : CodeUnit) :
    (handleKey s (Key.char c)).mode = .insert ∧
      (handleKey s (Key.char c)).buffer.length = s.buffer.length := by
  have hdecode : decode s.mode (Key.char c) = some (.type [c]) := hmode ▸ decode_char c
  cases htype : s.perform (.type [c]) with
  | error fault =>
      rw [handleKey_of_error hdecode htype]
      exact ⟨hmode, rfl⟩
  | ok t =>
      rw [handleKey_of_perform hdecode htype]
      refine ⟨(mode_of_typing (by trivial) htype).trans hmode, ?_⟩
      obtain ⟨n, before, line, after, hnormal, hat, ht⟩ := typing_eq_ok (by trivial) htype
      have hbuffer : s.buffer = n.buffer := (normalizeCursor_fields hnormal).1.symm
      rw [Command.run, hat.insertStringAtCursor_eq] at ht
      cases ht
      rw [hbuffer, hat.length_eq]
      simp only [JsArray.length, List.length_append, List.length_cons]
      omega

/-- Characters never make a line, whatever becomes of them. -/
theorem type_chars_fields {s : State} (hmode : s.mode = .insert) (chars : JsString) :
    ((charKeys chars).foldl handleKey s).mode = .insert ∧
      ((charKeys chars).foldl handleKey s).buffer.length = s.buffer.length := by
  induction chars generalizing s with
  | nil => exact ⟨hmode, rfl⟩
  | cons c chars ih =>
      obtain ⟨hinsert, hlength⟩ := handleKey_char_fields hmode c
      obtain ⟨htyped, hrest⟩ := ih hinsert
      exact ⟨htyped, hrest.trans hlength⟩

theorem buffer_of_typed_escape {s : State} (hmode : s.mode = .insert) (chars : JsString) :
    ((charKeys chars ++ [key "<ESC>"]).foldl handleKey s).buffer =
      ((charKeys chars).foldl handleKey s).buffer := by
  rw [List.foldl_append, List.foldl_cons, List.foldl_nil,
    handleKey_escape (type_chars_fields hmode chars).1]

theorem changeLine_replaces {s : State} (hs : s.Inside) (hmode : s.mode = .command)
    (chars : JsString) :
    (([key "c", key "c"] ++ (charKeys chars ++ [key "<ESC>"])).foldl handleKey s).buffer.elems =
      replaceSpan s.buffer.elems s.cursor.line s.cursor.line [chars] := by
  obtain ⟨before, line, after, hat⟩ := hs.exists_at
  have hchange : State.At { s with mode := .change, repeatNumber := some 0 } before line after :=
    ⟨hat.elems_eq, hat.line_eq, hat.col_nonneg⟩
  have hdecode : decode .change (key "c") = some .changeLine := rfl
  have hkey := handleKey_of_perform (s := { s with mode := .change, repeatNumber := some 0 })
    hdecode hchange.changeCurrentLine_eq
  have hempty : State.At
      { s with
        cursor := ⟨before.length, s.cursor.col⟩
        buffer := ⟨before ++ [] :: after, []⟩
        mode := .insert
        repeatNumber := some 0 } before [] after := ⟨rfl, rfl, hat.col_nonneg⟩
  have htyped := (hempty.type_line rfl chars).1
  rw [List.foldl_append, List.foldl_cons, List.foldl_cons, List.foldl_nil, handleKey_c hmode, hkey,
    buffer_of_typed_escape rfl, htyped.elems_eq, replaceSpan, min_self, max_self, hat.take_eq,
    hat.drop_eq]
  simp

/-- Up to the typing, a change over a vertical motion has only deleted. -/
theorem change_takes_lines {s : State} (hs : s.Inside) (hmode : s.mode = .command)
    (count : Option ℕ) {vertical : Key} {motion : Motion}
    (hmotion : motionOf vertical = some motion) {target : ℤ}
    (htarget : verticalTarget s (max 1 (count.getD 0) : ℕ) motion = some target)
    (hne : target ≠ s.cursor.line) :
    ((key "c" :: countKeys count ++ [vertical]).foldl handleKey s).mode = .insert ∧
      ((key "c" :: countKeys count ++ [vertical]).foldl handleKey s).buffer.elems =
        replaceSpan s.buffer.elems s.cursor.line target [] := by
  have hcount : (if ((count.getD 0 : ℕ) : ℤ) = 0 then 1 else ((count.getD 0 : ℕ) : ℤ)) =
      (max 1 (count.getD 0) : ℕ) := by
    split <;> omega
  have hchange : State.Inside { s with mode := .change, repeatNumber := some 0 } :=
    ⟨hs.line_nonneg, hs.line_lt, hs.col_nonneg⟩
  obtain ⟨t, ht, hspan, -⟩ := deleteTo_vertical (motionOf_proper hmotion) hchange
    (show Mode.change ≠ .insert by decide) (some (count.getD 0 : ℤ)) (hcount ▸ htarget)
  obtain ⟨t', ht', hbuffer, hinsert⟩ := press_deleteTo
    (s := { s with mode := .change, repeatNumber := some (count.getD 0 : ℤ) })
    (Or.inr rfl) rfl hmotion ht
  have hkey : handleKey { s with mode := .change, repeatNumber := some (count.getD 0 : ℤ) }
      vertical = t' := by
    rw [handleKey, ht']
  rw [List.foldl_append, List.foldl_cons, List.foldl_nil, List.foldl_cons, handleKey_c hmode,
    type_countKeys rfl rfl, hkey, hbuffer]
  exact ⟨hinsert rfl, hspan hne⟩

/-- No change over a vertical motion gives the typed line, whatever the
count, the motion and the text, while changing the current line always does. -/
theorem change_never_replaces_span {s : State} (hs : s.Inside) (hmode : s.mode = .command)
    (count : Option ℕ) {vertical : Key} {motion : Motion}
    (hmotion : motionOf vertical = some motion) {target : ℤ}
    (htarget : verticalTarget s (max 1 (count.getD 0) : ℕ) motion = some target)
    (hne : target ≠ s.cursor.line) (chars : JsString) :
    ((key "c" :: countKeys count ++ [vertical] ++ (charKeys chars ++ [key "<ESC>"])).foldl
        handleKey s).buffer.elems ≠
      replaceSpan s.buffer.elems s.cursor.line target [chars] ∧
    (([key "c", key "c"] ++ (charKeys chars ++ [key "<ESC>"])).foldl handleKey s).buffer.elems =
      replaceSpan s.buffer.elems s.cursor.line s.cursor.line [chars] := by
  refine ⟨?_, changeLine_replaces hs hmode chars⟩
  obtain ⟨hinsert, htaken⟩ := change_takes_lines hs hmode count hmotion htarget hne
  have hlength := (type_chars_fields hinsert chars).2
  have hreplaced := length_replaceSpan s.buffer.elems s.cursor.line target [chars]
  rw [List.foldl_append, buffer_of_typed_escape hinsert]
  intro heq
  rw [← heq, ← htaken, List.length_singleton] at hreplaced
  simp only [JsArray.length] at hlength
  omega

theorem change_never_replaces_span_down :
    ((key "c" :: countKeys none ++ [key "j"] ++ (charKeys (lit "x") ++ [key "<ESC>"])).foldl
        handleKey (startEditing (lit "a\nb\nc"))).buffer.elems ≠
      replaceSpan (startEditing (lit "a\nb\nc")).buffer.elems 0 1 [lit "x"] := by
  have hmotion : motionOf (key "j") = some (.rows 1) := rfl
  have htarget : verticalTarget (startEditing (lit "a\nb\nc"))
      (max 1 ((none : Option ℕ).getD 0) : ℕ) (.rows 1) = some 1 := by decide
  exact (change_never_replaces_span (startEditing_inside _) rfl none hmotion htarget (by decide)
    (lit "x")).1

theorem change_down_joins_text :
    (run (lit "a\nb\nc") [key "c", key "j", key "x", key "<ESC>"]).buffer.elems = [lit "xc"] ∧
      replaceSpan (startEditing (lit "a\nb\nc")).buffer.elems 0 1 [lit "x"] =
        [lit "x", lit "c"] ∧
      (run (lit "a\nb\nc") [key "c", key "j", key "x", key "<ESC>"]).buffer.elems ≠
        replaceSpan (startEditing (lit "a\nb\nc")).buffer.elems 0 1 [lit "x"] := by
  decide

end CoffeeTable.Editor

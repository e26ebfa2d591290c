import CoffeeTable.Bounds.Clamp
import CoffeeTable.Editor.Keystrokes

/-!
# A count is repetition

A movement multiplies its displacement by the pending count and clamps once,
and repeated movements clamp every time. As they all go one way, both reach
the same cursor.
-/

namespace CoffeeTable.Editor

open Ecma Bounds

/-- Moving by one, again and again. -/
def walk (movement : Movement) (s : State) : ℕ → Except Fault Cursor
  | 0 => .ok s.cursor
  | n + 1 => do
      let cursor ← walk movement s n
      movement { s with cursor := cursor } (some 1)

theorem press_counted {s : State} (hcount : s.repeatNumber = some 0) {key : Key}
    {movement : Movement} (hmovement : movementKeys.lookup key.text = some movement)
    {wrapper : State → Cursor → Except Fault State}
    (hwrapper : movementWrapper s.mode = some wrapper) {n : ℕ} (hn : 1 ≤ n) :
    press { s with repeatNumber := some (n : ℤ) } key =
      some (movement s (some (n : ℤ)) >>= wrapper s) := by
  have hpress :=
    press_movement (s := { s with repeatNumber := some (n : ℤ) }) hmovement hwrapper rfl
  rwa [resetCount_with hcount, max_eq_right hn] at hpress

/-! ## One long movement and many short ones -/

theorem walk_columns {cols : ℤ} (hcols : cols ≠ 0) {s : State} {line : JsString}
    (hget : s.buffer.get? s.cursor.line = some line) (n : ℕ) :
    walk (moveCursor 0 cols) s n = .ok ⟨s.cursor.line,
      (clampedStep 0 (line.length + endOfLine s.mode) cols)^[n] s.cursor.col⟩ := by
  have hstep (col : ℤ) : moveCursor 0 cols { s with cursor := ⟨s.cursor.line, col⟩ } (some 1) =
      .ok ⟨s.cursor.line, clampedStep 0 (line.length + endOfLine s.mode) cols col⟩ := by
    have hmove := Motion.moveCursor_columns hcols
      (s := { s with cursor := ⟨s.cursor.line, col⟩ }) hget 1
    rwa [mul_one] at hmove
  induction n with
  | zero => rfl
  | succ n ih => rw [walk, ih, ok_bind, hstep, Function.iterate_succ_apply']

theorem walk_rows {lines : ℤ} (hlines : lines ≠ 0) (s : State) (n : ℕ) :
    walk (moveCursor lines 0) s n = .ok
      ⟨(clampedStep 0 (s.buffer.length + endOfLine s.mode) lines)^[n] s.cursor.line,
        s.cursor.col⟩ := by
  induction n with
  | zero => rfl
  | succ n ih =>
      rw [walk, ih, ok_bind, Motion.moveCursor_rows hlines, mul_one,
        Function.iterate_succ_apply']
      rfl

theorem walk_endOfFile (s : State) (n : ℕ) :
    walk moveCursorEndOfFile s (n + 1) = moveCursorEndOfFile s (some 1) := by
  induction n with
  | zero => rfl
  | succ n ih =>
      rw [walk, ih]
      rfl

/-- One movement by a count ends where that many movements by one do. -/
theorem walk_eq {motion : Motion} (hproper : motion.Proper) {s : State} (hs : s.Inside) {n : ℕ}
    (hn : 1 ≤ n) : walk motion.movement s n = motion.movement s (some (n : ℤ)) := by
  obtain ⟨n, rfl⟩ : ∃ m, n = m + 1 := ⟨n - 1, by omega⟩
  have hsmul (d : ℤ) : (n + 1) • d = d * ((n + 1 : ℕ) : ℤ) := by
    rw [nsmul_eq_mul, mul_comm]
  cases motion with
  | columns cols =>
      obtain ⟨line, hget⟩ := JsArray.exists_get?_eq_some hs.line_nonneg hs.line_lt
      rw [Motion.movement, walk_columns hproper.cols_ne_zero hget,
        Motion.moveCursor_columns hproper.cols_ne_zero hget, clampedStep_iterate, hsmul]
      rfl
  | rows lines =>
      rw [Motion.movement, walk_rows hproper, Motion.moveCursor_rows hproper,
        clampedStep_iterate, hsmul]
      rfl
  | endOfFile => exact walk_endOfFile s n

theorem walk_twenty {lines : ℤ} (hlines : lines ≠ 0) (s : State) {n : ℕ} (hn : 1 ≤ n) :
    walk (moveCursor lines 0) s (20 * n) = moveCursor (20 * lines) 0 s (some (n : ℤ)) := by
  obtain ⟨m, hm⟩ : ∃ m, 20 * n = m + 1 := ⟨20 * n - 1, by omega⟩
  have hsmul : (m + 1) • lines = 20 * lines * (n : ℤ) := by
    rw [← hm, nsmul_eq_mul]
    push_cast
    ring
  rw [walk_rows hlines, Motion.moveCursor_rows (by omega), hm, clampedStep_iterate, hsmul]
  rfl

theorem handleKey_once {s : State} (hmode : s.mode = .command) (hcount : s.repeatNumber = some 0)
    {key : Key} {movement : Movement} (hmovement : movementKeys.lookup key.text = some movement)
    {cursor : Cursor} (h : movement s (some 1) = .ok cursor) :
    handleKey s key = { s with cursor := cursor } := by
  have hwrapper : movementWrapper s.mode = some setCursor := by rw [hmode]; rfl
  have hpress := press_movement (n := 0) hmovement hwrapper hcount
  have hself : resetCount s = s := resetCount_with hcount s.repeatNumber
  rw [hself] at hpress
  have hone : movement s (some ((max 1 0 : ℕ) : ℤ)) = .ok cursor := h
  rw [handleKey, hpress, hone]
  rfl

theorem presses_eq {s : State} (hmode : s.mode = .command) (hcount : s.repeatNumber = some 0)
    {key : Key} {movement : Movement} (hmovement : movementKeys.lookup key.text = some movement)
    {n : ℕ} {cursor : Cursor} (h : walk movement s n = .ok cursor) :
    (List.replicate n key).foldl handleKey s = { s with cursor := cursor } := by
  induction n generalizing cursor with
  | zero =>
      cases h
      rfl
  | succ n ih =>
      obtain ⟨middle, hmiddle, h⟩ := bind_eq_ok.mp h
      rw [List.replicate_succ', List.foldl_append, ih hmiddle, List.foldl_cons, List.foldl_nil]
      exact handleKey_once (s := { s with cursor := middle }) hmode hcount hmovement h

theorem counted_eq {s : State} (hmode : s.mode = .command) (hcount : s.repeatNumber = some 0)
    {key : Key} {movement : Movement} (hmovement : movementKeys.lookup key.text = some movement)
    {n : ℕ} (hn : 1 ≤ n) {cursor : Cursor} (h : movement s (some (n : ℤ)) = .ok cursor) :
    (digitKeys n ++ [key]).foldl handleKey s = { s with cursor := cursor } := by
  have huse : (motionUse s.mode).isSome := by rw [hmode]; rfl
  have hwrapper : movementWrapper s.mode = some setCursor := by rw [hmode]; rfl
  rw [List.foldl_append, type_count huse hcount, List.foldl_cons, List.foldl_nil, handleKey,
    press_counted hcount hmovement hwrapper hn, h]
  cases s
  cases hcount
  rfl

theorem screen_eq {s : State} (hmode : s.mode = .command) (hcount : s.repeatNumber = some 0)
    {lines : ℤ} (hlines : lines ≠ 0) {screen line : Key}
    (hscreen : movementKeys.lookup screen.text = some (moveCursor (20 * lines) 0))
    (hline : movementKeys.lookup line.text = some (moveCursor lines 0)) {n : ℕ} (hn : 1 ≤ n) :
    (digitKeys n ++ [screen]).foldl handleKey s =
      (List.replicate (20 * n) line).foldl handleKey s := by
  have hmove := Motion.moveCursor_rows (show 20 * lines ≠ 0 by omega) s (n : ℤ)
  have hwalk := (walk_twenty hlines s hn).trans hmove
  rw [counted_eq hmode hcount hscreen hn hmove, presses_eq hmode hcount hline hwalk]

theorem exists_walk {s : State} (hs : s.Inside) {key : Key} {movement : Movement}
    (hmovement : movementKeys.lookup key.text = some movement) {n : ℕ} (hn : 1 ≤ n) :
    ∃ cursor, walk movement s n = .ok cursor ∧ movement s (some (n : ℤ)) = .ok cursor := by
  rw [movementKeys_lookup, Option.map_eq_some_iff] at hmovement
  obtain ⟨motion, hmotion, rfl⟩ := hmovement
  have hproper := motionOf_proper hmotion
  obtain ⟨cursor, hcursor⟩ := movement_of_inside hproper hs (n : ℤ)
  exact ⟨cursor, (walk_eq hproper hs hn).trans hcursor, hcursor⟩

end CoffeeTable.Editor

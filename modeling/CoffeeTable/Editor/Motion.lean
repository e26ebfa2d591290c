import CoffeeTable.Editor.Cursor

/-!
# Motions

The movements of the editor are of three kinds: by columns, by lines, and to
the last line. A motion by columns needs the cursor line and leaves it; the
other two keep the stored column and never look a line up.
-/

namespace CoffeeTable.Editor

open Ecma

inductive Motion where
  | columns (cols : ℤ)
  | rows (lines : ℤ)
  | endOfFile
  deriving DecidableEq

namespace Motion

def movement : Motion → Movement
  | .columns cols => moveCursor 0 cols
  | .rows lines => moveCursor lines 0
  | .endOfFile => moveCursorEndOfFile

/-- The line a motion by lines aims at, clamped to the buffer. -/
def targetLine (s : State) (count : ℤ) : Motion → Option ℤ
  | .columns _ => none
  | .rows lines => some (clampLine s (clampLine s s.cursor.line + lines * count))
  | .endOfFile => some (s.buffer.length - 1)

def Proper : Motion → Prop
  | .columns cols => cols = 1 ∨ cols = -1
  | .rows lines => lines ≠ 0
  | .endOfFile => True

theorem targetLine_bounds {motion : Motion} {s : State} {count target : ℤ}
    (h : motion.targetLine s count = some target) : -1 ≤ target ∧ target ≤ s.buffer.length := by
  have hlength : (0 : ℤ) ≤ s.buffer.length := Int.natCast_nonneg _
  cases motion with
  | columns cols => simp [targetLine] at h
  | rows lines =>
      cases h
      have hnonneg := clampLine_nonneg s (clampLine s s.cursor.line + lines * count)
      have hle := clampLine_le s (clampLine s s.cursor.line + lines * count)
      omega
  | endOfFile =>
      cases h
      omega

theorem moveCursor_rows {lines : ℤ} (hlines : lines ≠ 0) (s : State) (count : ℤ) :
    moveCursor lines 0 s (some count) =
      .ok ⟨clampLine s (clampLine s s.cursor.line + lines * count), s.cursor.col⟩ := by
  simp only [moveCursor, ne_eq, hlines, not_false_eq_true, decide_true, not_true_eq_false,
    decide_false, normalizeCursor_line, ok_bind, countOf_some, pure_eq_ok, if_true]
  simp [makeState, clampLine]

theorem moveCursor_columns {cols : ℤ} (hcols : cols ≠ 0) {s : State} {line : JsString}
    (hget : s.buffer.get? s.cursor.line = some line) (count : ℤ) :
    moveCursor 0 cols s (some count) =
      .ok ⟨s.cursor.line, clampCol s.mode line.length
        (clampCol s.mode line.length s.cursor.col + cols * count)⟩ := by
  have hfirst : normalizeCursor s { normalizeLine := false } =
      .ok { s with cursor := ⟨s.cursor.line, clampCol s.mode line.length s.cursor.col⟩ } :=
    normalizeCursor_of_get? (by simp) hget
  have hsecond (t : State) (hbuffer : t.buffer = s.buffer) (hmode : t.mode = s.mode)
      (hline : t.cursor.line = s.cursor.line) :
      normalizeCursor t { normalizeLine := false } =
        .ok { t with cursor := ⟨s.cursor.line, clampCol s.mode line.length t.cursor.col⟩ } := by
    rw [← hmode, ← hline]
    exact normalizeCursor_of_get? (by simp) (by rw [hbuffer, hline, hget])
  simp only [moveCursor, ne_eq, not_true_eq_false, decide_false, hcols, not_false_eq_true,
    decide_true, hfirst, ok_bind, countOf_some, pure_eq_ok]
  rw [hsecond _ (by simp [makeState]) (by simp [makeState]) (by simp [makeState])]
  simp [makeState]

theorem moveCursor_columns_of_none {cols : ℤ} (hcols : cols ≠ 0) {s : State}
    (hget : s.buffer.get? s.cursor.line = none) (count : Option ℤ) :
    moveCursor 0 cols s count = .error .missingLine := by
  have hfirst : normalizeCursor s { normalizeLine := false } = .error .missingLine :=
    normalizeCursor_of_get?_eq_none (by simpa using hget)
  simp [moveCursor, hcols, hfirst]

theorem moveCursor_rows_of_none {lines : ℤ} (hlines : lines ≠ 0) (s : State) :
    moveCursor lines 0 s none = .error .notANumber := by
  simp [moveCursor, hlines, normalizeCursor_line]

theorem moveCursor_columns_of_count_none {cols : ℤ} (hcols : cols ≠ 0) {s : State}
    {line : JsString} (hget : s.buffer.get? s.cursor.line = some line) :
    moveCursor 0 cols s none = .error .notANumber := by
  have hfirst : normalizeCursor s { normalizeLine := false } =
      .ok { s with cursor := ⟨s.cursor.line, clampCol s.mode line.length s.cursor.col⟩ } :=
    normalizeCursor_of_get? (by simp) hget
  simp [moveCursor, hcols, hfirst]

theorem Proper.cols_ne_zero {cols : ℤ} (h : (columns cols).Proper) : cols ≠ 0 := by
  rcases h with rfl | rfl <;> decide

/-- A motion that succeeds stays on its line or reaches its target line. -/
theorem movement_eq_ok {motion : Motion} (hproper : motion.Proper) {s : State}
    {count? : Option ℤ} {cursor : Cursor} (h : motion.movement s count? = .ok cursor) :
    (∃ cols line count, motion = .columns cols ∧ count? = some count ∧
      s.buffer.get? s.cursor.line = some line ∧
      cursor = ⟨s.cursor.line, clampCol s.mode line.length
        (clampCol s.mode line.length s.cursor.col + cols * count)⟩) ∨
      ∃ count, (∀ n, count? = some n → n = count) ∧
        motion.targetLine s count = some cursor.line ∧ cursor.col = s.cursor.col := by
  cases motion with
  | columns cols =>
      have hcols := hproper.cols_ne_zero
      rw [movement] at h
      cases hget : s.buffer.get? s.cursor.line with
      | none => rw [moveCursor_columns_of_none hcols hget] at h; cases h
      | some line =>
          cases count? with
          | none => rw [moveCursor_columns_of_count_none hcols hget] at h; cases h
          | some count =>
              rw [moveCursor_columns hcols hget] at h
              exact Or.inl ⟨cols, line, count, rfl, rfl, rfl, (Except.ok.inj h).symm⟩
  | rows lines =>
      rw [movement] at h
      cases count? with
      | none => rw [moveCursor_rows_of_none hproper] at h; cases h
      | some count =>
          rw [moveCursor_rows hproper] at h
          cases h
          exact Or.inr ⟨count, fun n hn ↦ (Option.some.inj hn).symm, rfl, rfl⟩
  | endOfFile =>
      cases h
      exact Or.inr ⟨count?.getD 0, fun n hn ↦ by simp [hn], rfl, rfl⟩

theorem movement_of_targetLine {motion : Motion} (hproper : motion.Proper) {s : State}
    {count target : ℤ} (h : motion.targetLine s count = some target) :
    motion.movement s (some count) = .ok ⟨target, s.cursor.col⟩ := by
  cases motion with
  | columns cols => simp [targetLine] at h
  | rows lines =>
      cases h
      exact moveCursor_rows hproper s count
  | endOfFile =>
      cases h
      rfl

end Motion

end CoffeeTable.Editor

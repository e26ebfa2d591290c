import CoffeeTable.Editor.State
import CoffeeTable.Ecma.Number

/-!
# Placing and moving the cursor

`normalizeCursor` clamps either axis into the buffer; every movement is a
clamp, a displacement and another clamp. On a cursor inside the buffer the
line clamp does nothing and the column clamp depends on the mode alone.
-/

namespace CoffeeTable.Editor

open Ecma

structure NormalizeOptions where
  normalizeLine : Bool := true
  normalizeCol : Bool := true

def endOfLine (mode : Mode) : ℤ := if mode = .insert then 0 else -1

def normalizeCursor (state : State) (options : NormalizeOptions) : Except Fault State :=
  let newLine :=
    if options.normalizeLine then
      max 0 (min state.cursor.line (state.buffer.length + endOfLine state.mode))
    else state.cursor.line
  let currentLine := state.buffer.get? newLine
  let newColumn : Except Fault ℤ :=
    if options.normalizeCol then do
      let current ← lineOf currentLine
      pure (max 0 (min state.cursor.col (current.length + endOfLine state.mode)))
    else pure state.cursor.col
  newColumn.map fun newColumn ↦ makeState state { line := newLine, col := newColumn }

abbrev Movement := State → Option ℤ → Except Fault Cursor

def moveCursor (lines cols : ℤ) : Movement := fun state repeatNumber ↦ do
  let options : NormalizeOptions :=
    { normalizeLine := lines ≠ 0, normalizeCol := cols ≠ 0 }
  let normalizedState ← normalizeCursor state options
  let count ← countOf repeatNumber
  let movedState := makeState normalizedState
    { line := normalizedState.cursor.line + lines * count
      col := normalizedState.cursor.col + cols * count }
  let finalState ← normalizeCursor movedState options
  pure finalState.cursor

def enterMode (mode : Mode) (state : State) : State :=
  makeState state { mode := mode, repeatNumber := (0 : ℤ) }

/-- The option object of the source ends up as a third argument of `makeState`,
which ignores it, so that both axes are normalized. A line that is `NaN` stays
`NaN` through both clamps and finds no line of the buffer. -/
def gotoLine (line : Number) (state : State) : Except Fault State :=
  match line with
  | .int line => do
      let normalized ← normalizeCursor (makeState state { line := line }) {}
      pure (enterMode .command normalized)
  | .infinity negative => do
      let line := if negative then -1 else state.buffer.length
      let normalized ← normalizeCursor (makeState state { line := line }) {}
      pure (enterMode .command normalized)
  | .nan => .error .missingLine

def moveCursorEndOfFile : Movement := fun state _ ↦
  pure { line := state.buffer.length - 1, col := state.cursor.col }

/-! ## Clamping -/

def clampLine (s : State) (line : ℤ) : ℤ :=
  max 0 (min line (s.buffer.length + endOfLine s.mode))

def clampCol (mode : Mode) (length : ℕ) (col : ℤ) : ℤ :=
  max 0 (min col (length + endOfLine mode))

theorem endOfLine_insert : endOfLine .insert = 0 := rfl

theorem endOfLine_of_ne {mode : Mode} (h : mode ≠ .insert) : endOfLine mode = -1 := by
  simp [endOfLine, h]

theorem endOfLine_nonpos (mode : Mode) : endOfLine mode ≤ 0 := by
  unfold endOfLine
  split <;> omega

theorem neg_one_le_endOfLine (mode : Mode) : -1 ≤ endOfLine mode := by
  unfold endOfLine
  split <;> omega

theorem clampCol_nonneg (mode : Mode) (length : ℕ) (col : ℤ) : 0 ≤ clampCol mode length col :=
  le_max_left _ _

theorem clampCol_le (mode : Mode) (length : ℕ) (col : ℤ) : clampCol mode length col ≤ length := by
  have := endOfLine_nonpos mode
  unfold clampCol
  omega

theorem clampCol_insert (length : ℕ) {col : ℤ} (h : 0 ≤ col) :
    clampCol .insert length col = (min col.toNat length : ℕ) := by
  unfold clampCol
  rw [endOfLine_insert]
  omega

@[simp] theorem clampCol_clampCol (mode : Mode) (length : ℕ) (col : ℤ) :
    clampCol mode length (clampCol mode length col) = clampCol mode length col := by
  have := neg_one_le_endOfLine mode
  unfold clampCol
  omega

theorem clampLine_nonneg (s : State) (line : ℤ) : 0 ≤ clampLine s line := le_max_left _ _

theorem clampLine_le (s : State) (line : ℤ) : clampLine s line ≤ s.buffer.length := by
  have := endOfLine_nonpos s.mode
  have : (0 : ℤ) ≤ s.buffer.length := Int.natCast_nonneg _
  unfold clampLine
  omega

theorem clampLine_of_lt {s : State} {line : ℤ} (h0 : 0 ≤ line) (h : line < s.buffer.length) :
    clampLine s line = line := by
  have := neg_one_le_endOfLine s.mode
  unfold clampLine
  omega

theorem clampLine_lt {s : State} {line : ℤ} (hmode : s.mode ≠ .insert)
    (hne : 0 < s.buffer.length) : clampLine s line < s.buffer.length := by
  unfold clampLine
  rw [endOfLine_of_ne hmode]
  omega

/-! ## `normalizeCursor` -/

theorem normalizeCursor_line (s : State) (normalizeLine : Bool) :
    normalizeCursor s { normalizeLine := normalizeLine, normalizeCol := false } =
      .ok { s with cursor :=
        ⟨if normalizeLine then clampLine s s.cursor.line else s.cursor.line, s.cursor.col⟩ } := by
  simp [normalizeCursor, makeState, clampLine]

theorem normalizeCursor_of_get? {s : State} {normalizeLine : Bool} {newLine : ℤ}
    {current : JsString}
    (hline : (if normalizeLine then clampLine s s.cursor.line else s.cursor.line) = newLine)
    (hget : s.buffer.get? newLine = some current) :
    normalizeCursor s { normalizeLine := normalizeLine } =
      .ok { s with cursor := ⟨newLine, clampCol s.mode current.length s.cursor.col⟩ } := by
  subst hline
  simp only [clampLine] at hget
  simp [normalizeCursor, makeState, clampLine, clampCol, hget]

theorem normalizeCursor_of_get?_eq_none {s : State} {normalizeLine : Bool}
    (hget : s.buffer.get?
      (if normalizeLine then clampLine s s.cursor.line else s.cursor.line) = none) :
    normalizeCursor s { normalizeLine := normalizeLine } = .error .missingLine := by
  simp only [clampLine] at hget
  simp [normalizeCursor, hget]

theorem State.At.normalize_eq {s : State} {before after : List JsString} {line : JsString}
    (h : s.At before line after) (normalizeLine : Bool) :
    normalizeCursor s { normalizeLine := normalizeLine } =
      .ok { s with cursor := ⟨before.length, clampCol s.mode line.length s.cursor.col⟩ } := by
  rw [← h.line_eq]
  apply normalizeCursor_of_get? ?_ h.get?_line
  rw [clampLine_of_lt h.inside.line_nonneg h.inside.line_lt, ite_self]

theorem normalizeCursor_eq_ok {s t : State} (h : normalizeCursor s {} = .ok t) :
    ∃ current, s.buffer.get? (clampLine s s.cursor.line) = some current ∧
      t = { s with cursor :=
        ⟨clampLine s s.cursor.line, clampCol s.mode current.length s.cursor.col⟩ } := by
  cases hget : s.buffer.get? (clampLine s s.cursor.line) with
  | none =>
      rw [normalizeCursor_of_get?_eq_none (by simpa using hget)] at h
      cases h
  | some current =>
      rw [normalizeCursor_of_get? rfl (by simpa using hget)] at h
      exact ⟨current, rfl, by simpa using h.symm⟩

theorem gotoLine_int (line : ℤ) (s : State) :
    gotoLine (.int line) s =
      (normalizeCursor (makeState s { line := line }) {}).map (enterMode .command) := by
  simp only [gotoLine]
  cases normalizeCursor (makeState s { line := some line }) {} <;> rfl

theorem normalizeCursor_fields {s t : State} {options : NormalizeOptions}
    (h : normalizeCursor s options = .ok t) :
    t.buffer = s.buffer ∧ t.mode = s.mode ∧ t.repeatNumber = s.repeatNumber := by
  unfold normalizeCursor at h
  obtain ⟨column, -, rfl⟩ := map_eq_ok.mp h
  simp [makeState]

/-- A normalized state stands inside the buffer and normalizes to itself. -/
theorem exists_at_of_normalizeCursor {s n : State} (h : normalizeCursor s {} = .ok n) :
    ∃ before line after, n.At before line after ∧ normalizeCursor n {} = .ok n := by
  obtain ⟨current, hget, rfl⟩ := normalizeCursor_eq_ok h
  have hinside : State.Inside { s with cursor :=
      ⟨clampLine s s.cursor.line, clampCol s.mode current.length s.cursor.col⟩ } :=
    { line_nonneg := clampLine_nonneg _ _
      line_lt := JsArray.lt_length_of_get?_eq_some (clampLine_nonneg _ _) hget
      col_nonneg := clampCol_nonneg _ _ _ }
  obtain ⟨before, line, after, hat⟩ := hinside.exists_at
  refine ⟨before, line, after, hat, ?_⟩
  have hline : line = current := Option.some.inj (hat.get?_line.symm.trans hget)
  rw [hat.normalize_eq true, hline]
  simp [← hat.line_eq]

/-! ## Bounds -/

/-- The last column that the cursor may have on a line of the given length. -/
def lastCol (mode : Mode) (length : ℕ) : ℤ :=
  if mode = .insert then length else max 0 ((length : ℤ) - 1)

def State.Bounded (s : State) : Prop :=
  ∃ line, 0 ≤ s.cursor.line ∧ s.cursor.line < s.buffer.length ∧
    s.buffer.get? s.cursor.line = some line ∧
    0 ≤ s.cursor.col ∧ s.cursor.col ≤ lastCol s.mode line.length

/-- What the comment in the source promises about a state and its normalization. -/
structure Normalized (s t : State) : Prop where
  eq_with_cursor : t = { s with cursor := t.cursor }
  bounded : t.Bounded
  eq_self : s.Bounded → t = s
  again : normalizeCursor t {} = .ok t

theorem clampCol_le_lastCol (mode : Mode) (length : ℕ) (col : ℤ) :
    clampCol mode length col ≤ lastCol mode length := by
  unfold clampCol lastCol
  by_cases hmode : mode = .insert
  · rw [hmode, endOfLine_insert, if_pos rfl]
    omega
  · rw [endOfLine_of_ne hmode, if_neg hmode]
    omega

theorem clampCol_of_le_lastCol {mode : Mode} {length : ℕ} {col : ℤ} (h0 : 0 ≤ col)
    (h : col ≤ lastCol mode length) : clampCol mode length col = col := by
  unfold lastCol at h
  unfold clampCol
  by_cases hmode : mode = .insert
  · rw [if_pos hmode] at h
    rw [hmode, endOfLine_insert]
    omega
  · rw [if_neg hmode] at h
    rw [endOfLine_of_ne hmode]
    omega

theorem normalizeCursor_of_bounded {s : State} (h : s.Bounded) : normalizeCursor s {} = .ok s := by
  obtain ⟨line, hline, hlt, hget, hcol, hle⟩ := h
  have hclamp : clampLine s s.cursor.line = s.cursor.line := clampLine_of_lt hline hlt
  rw [normalizeCursor_of_get? (if_pos rfl) (hclamp ▸ hget), hclamp,
    clampCol_of_le_lastCol hcol hle]

theorem normalized_of_ok {s t : State} (h : normalizeCursor s {} = .ok t) : Normalized s t := by
  have hbounded : t.Bounded := by
    obtain ⟨current, hget, rfl⟩ := normalizeCursor_eq_ok h
    have hnonneg := clampLine_nonneg s s.cursor.line
    exact ⟨current, hnonneg, JsArray.lt_length_of_get?_eq_some hnonneg hget, hget,
      clampCol_nonneg _ _ _, clampCol_le_lastCol _ _ _⟩
  refine ⟨?_, hbounded, fun hs ↦ ?_, normalizeCursor_of_bounded hbounded⟩
  · obtain ⟨current, -, rfl⟩ := normalizeCursor_eq_ok h
    rfl
  · rw [normalizeCursor_of_bounded hs] at h
    exact (Except.ok.inj h).symm

/-- In insert mode the line is clamped to the length of the buffer, where
there is no line. -/
theorem clampLine_lt_iff {s : State} (hne : 0 < s.buffer.length) (line : ℤ) :
    clampLine s line < s.buffer.length ↔ s.mode ≠ .insert ∨ line < s.buffer.length := by
  unfold clampLine
  by_cases hmode : s.mode = .insert
  · rw [hmode, endOfLine_insert]
    simp only [ne_eq, not_true_eq_false, false_or]
    omega
  · rw [endOfLine_of_ne hmode]
    exact iff_of_true (by omega) (Or.inl hmode)

/-- On a buffer with a line, normalizing the cursor keeps its promise unless
the state is in insert mode with the cursor below the last line. -/
theorem normalized_iff {s : State} (hne : s.buffer.elems ≠ []) :
    (∃ t, normalizeCursor s {} = .ok t ∧ Normalized s t) ↔
      s.mode ≠ .insert ∨ s.cursor.line < s.buffer.length := by
  have hlength : 0 < s.buffer.length := by
    have := List.length_pos_iff.mpr hne
    unfold JsArray.length
    omega
  have hnonneg := clampLine_nonneg s s.cursor.line
  rw [← clampLine_lt_iff hlength]
  constructor
  · rintro ⟨t, ht, -⟩
    obtain ⟨current, hget, -⟩ := normalizeCursor_eq_ok ht
    exact JsArray.lt_length_of_get?_eq_some hnonneg hget
  · intro hlt
    obtain ⟨current, hget⟩ := JsArray.exists_get?_eq_some hnonneg hlt
    have hok := normalizeCursor_of_get? (if_pos rfl) hget
    exact ⟨_, hok, normalized_of_ok hok⟩

theorem normalized_far_down :
    ∃ t, normalizeCursor ⟨⟨7, 9⟩, ⟨[lit "ab", lit "c"], []⟩, .command, some 0⟩ {} = .ok t ∧
      Normalized ⟨⟨7, 9⟩, ⟨[lit "ab", lit "c"], []⟩, .command, some 0⟩ t :=
  (normalized_iff (by decide)).mpr (Or.inl (by decide))

theorem not_normalized_below_last_line :
    normalizeCursor ⟨⟨1, 0⟩, ⟨[lit "a"], []⟩, .insert, some 0⟩ {} = .error .missingLine ∧
      ¬ ∃ t, normalizeCursor ⟨⟨1, 0⟩, ⟨[lit "a"], []⟩, .insert, some 0⟩ {} = .ok t ∧
        Normalized ⟨⟨1, 0⟩, ⟨[lit "a"], []⟩, .insert, some 0⟩ t := by
  have herror : normalizeCursor ⟨⟨1, 0⟩, ⟨[lit "a"], []⟩, .insert, some 0⟩ {} =
      .error .missingLine := by
    decide
  refine ⟨herror, ?_⟩
  rintro ⟨t, ht, -⟩
  rw [herror] at ht
  cases ht

end CoffeeTable.Editor

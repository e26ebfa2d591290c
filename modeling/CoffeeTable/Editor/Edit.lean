import CoffeeTable.Editor.Cursor

/-!
# Editing actions

Every action that changes text clones the buffer first and edits the clone.
Range assignments of the source are splices. On a cursor inside the buffer
each action is given once by its effect on the cursor line and the lines
around it; later files use these equations and not the definitions.
-/

namespace CoffeeTable.Editor

open Ecma

def writeOf : Option Buffer → Except Fault Buffer
  | some buffer => .ok buffer
  | none => .error .sparseWrite

@[simp] theorem writeOf_some (buffer : Buffer) : writeOf (some buffer) = .ok buffer := rfl

theorem writeOf_eq_ok {buffer? : Option Buffer} {buffer : Buffer} :
    writeOf buffer? = .ok buffer ↔ buffer? = some buffer := by
  cases buffer? <;> simp [writeOf]

inductive Location where
  | before
  | after
  deriving DecidableEq

def insertStringAtCursor (string : JsString) (state : State) : Except Fault State := do
  let normalizedState ← normalizeCursor state {}
  let newBuffer := state.buffer.clone
  let currentLine ← lineOf (newBuffer.get? normalizedState.cursor.line)
  let newBuffer ← writeOf (newBuffer.set? normalizedState.cursor.line
    (sliceTo currentLine normalizedState.cursor.col ++ string ++
      sliceFrom currentLine normalizedState.cursor.col))
  pure
    { cursor := ⟨normalizedState.cursor.line, normalizedState.cursor.col + string.length⟩
      buffer := newBuffer
      mode := state.mode
      repeatNumber := none }

def insert (location : Location) (state : State) : State :=
  let cursor : Cursor :=
    match location with
    | .before => state.cursor
    | .after => ⟨state.cursor.line, state.cursor.col + 1⟩
  makeState state { mode := some .insert, line := cursor.line, col := cursor.col }

def insertLine (location : Location) (state : State) : State :=
  let lineNumber := state.cursor.line + if location = .before then 0 else 1
  let newBuffer := state.buffer.clone.splice lineNumber 0 [[]]
  makeState state
    { buffer := newBuffer, line := lineNumber, col := (0 : ℤ), mode := some .insert }

def breakLineAtCursor (state : State) : Except Fault State := do
  let normalizedState ← normalizeCursor state {}
  let newBuffer := state.buffer.clone
  let line := normalizedState.cursor.line
  let currentLine ← lineOf (newBuffer.get? line)
  let newBuffer ← writeOf (newBuffer.set? line
    (sliceTo currentLine normalizedState.cursor.col))
  let newBuffer := newBuffer.splice line 1
    [sliceTo currentLine normalizedState.cursor.col,
      sliceFrom currentLine normalizedState.cursor.col]
  pure
    { cursor := ⟨line + 1, 0⟩
      buffer := newBuffer
      mode := state.mode
      repeatNumber := none }

def deleteCurrentLine (state : State) : Except Fault State :=
  let lineNumber := state.cursor.line
  let buffer := state.buffer.clone.splice lineNumber 1 []
  normalizeCursor (makeState state { buffer := buffer, mode := some .command })
    { normalizeCol := false }

theorem normalized_bounds {state normalized : State} {line : JsString}
    (h : normalizeCursor state {} = .ok normalized)
    (hget : state.buffer.clone.get? normalized.cursor.line = some line) :
    0 ≤ normalized.cursor.col ∧ normalized.cursor.col ≤ line.length := by
  obtain ⟨current, hcurrent, rfl⟩ := normalizeCursor_eq_ok h
  rw [JsArray.get?_clone_of_nonneg _ (clampLine_nonneg _ _), hcurrent,
    Option.some.injEq] at hget
  subst hget
  exact ⟨clampCol_nonneg _ _ _, clampCol_le _ _ _⟩

/-- The recursion crosses one line end at a time; the count comes closer to
zero each time because the normalized column lies on its line. -/
def deleteCharsAtCursor (count : ℤ) (state : State) : Except Fault State :=
  if count = 0 then .ok state
  else
    match hnormalized : normalizeCursor state {} with
    | .error fault => .error fault
    | .ok normalizedState =>
        let newBuffer := state.buffer.clone
        let line := normalizedState.cursor.line
        let col := normalizedState.cursor.col
        match hline : newBuffer.get? line with
        | none => .error .missingLine
        | some currentLine =>
            if count + col < 0 then
              let remainder := count + col + 1
              let previousLine : JsString := (newBuffer.get? (line - 1)).getD []
              let newBuffer := newBuffer.splice (line - 1) 2
                [previousLine ++ sliceFrom currentLine col]
              deleteCharsAtCursor remainder
                (makeState normalizedState
                  { line := some (line - 1)
                    col := some (previousLine.length : ℤ)
                    buffer := newBuffer })
            else if currentLine.length < count + col then
              let remainder := count - (currentLine.length - col) - 1
              let newBuffer := newBuffer.splice line 2
                [sliceTo currentLine col ++ (newBuffer.get? (line + 1)).getD []]
              deleteCharsAtCursor remainder
                { cursor := ⟨line, col⟩
                  buffer := newBuffer
                  mode := state.mode
                  repeatNumber := none }
            else do
              let toDeleteStart := min (col + count) col
              let toDeleteEnd := max (col + count) col
              let newBuffer ← writeOf (newBuffer.set? line
                (sliceTo currentLine toDeleteStart ++ sliceFrom currentLine toDeleteEnd))
              pure (makeState normalizedState { col := toDeleteStart, buffer := newBuffer })
termination_by count.natAbs
decreasing_by
  · have hbounds := normalized_bounds hnormalized hline
    omega
  · have hbounds := normalized_bounds hnormalized hline
    omega

/-- Only the command line element is touched, never the editor state. -/
def openExec (state : State) : State := state

def deleteToCursor (state : State) (targetCursor : Cursor) : Except Fault State :=
  if state.cursor.line = targetCursor.line then do
    let start := min state.cursor.col targetCursor.col
    let stop := max state.cursor.col targetCursor.col
    let buffer := state.buffer.clone
    let line ← lineOf (buffer.get? state.cursor.line)
    let buffer ← writeOf (buffer.set? state.cursor.line
      (sliceTo line start ++ sliceFrom line stop))
    pure (makeState state
      { buffer := buffer, line := state.cursor.line, col := start, mode := some .command })
  else
    let startLine := min state.cursor.line targetCursor.line
    let endLine := max state.cursor.line targetCursor.line
    let buffer := state.buffer.clone.splice startLine (endLine - startLine + 1) []
    pure (makeState state
      { buffer := buffer, line := startLine, col := (0 : ℤ), mode := some .command })

def changeToCursor (state : State) (targetCursor : Cursor) : Except Fault State := do
  let deleted ← deleteToCursor state targetCursor
  pure (enterMode .insert deleted)

def changeCurrentLine (state : State) : Except Fault State := do
  let lineNumber := state.cursor.line
  let buffer ← writeOf (state.buffer.clone.set? lineNumber [])
  normalizeCursor (makeState state { buffer := buffer, mode := some .insert })
    { normalizeCol := false }

end CoffeeTable.Editor

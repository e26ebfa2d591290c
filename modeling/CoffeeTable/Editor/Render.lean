import CoffeeTable.Editor.Cursor
import CoffeeTable.Ecma.Search

/-!
# Rendering

The buffer is drawn line by line with line numbers from zero. The line with
the number of the cursor line is cut at the cursor column and gets the cursor
marker. Contents are escaped, so that the marker cannot come from the text:
the drawing has one marker if the cursor line is a line of the buffer and none
otherwise.
-/

namespace CoffeeTable.Editor

open Ecma

def escapeUnit (c : CodeUnit) : JsString :=
  if c = unit '&' then lit "&amp;"
  else if c = unit '<' then lit "&lt;"
  else if c = unit '>' then lit "&gt;"
  else if c = unit '"' then lit "&quot;"
  else if c = unit '\'' then lit "&#x27;"
  else if c = unit '/' then lit "&#x2F;"
  else [c]

def escape (string : JsString) : JsString := string.flatMap escapeUnit

def Mode.name : Mode → JsString
  | .command => lit "command"
  | .insert => lit "insert"
  | .delete => lit "delete"
  | .change => lit "change"
  | .goto => lit "goto"

def cursorTag : JsString := lit "<span class='cursor'>"

def renderLine (line : JsString) (lineNumber : ℕ) (cursor : Option (ℤ × Mode)) : JsString :=
  let contents :=
    match cursor with
    | some (cursorCol, cursorMode) =>
        escape (sliceTo line cursorCol) ++ (cursorTag ++ (lit "<div class='the-cursor " ++
          (cursorMode.name ++ (lit "'> </div></span>" ++ escape (sliceFrom line cursorCol)))))
    | none => escape line
  lit "<div class='line'><span class='number'>" ++ (digits lineNumber ++
    (lit "</span><span class='contents'>" ++ (contents ++ lit "</span></div>")))

/-- The cursor as a line with the given number shows it. -/
def cursorOn (s : State) (line : JsString) (lineNumber : ℕ) : Option (ℤ × Mode) :=
  if (lineNumber : ℤ) = s.cursor.line then
    some (min s.cursor.col (line.length + endOfLine s.mode), s.mode)
  else none

def renderFrom (s : State) (lineNumber : ℕ) : List JsString → JsString
  | [] => []
  | line :: lines =>
      renderLine line lineNumber (cursorOn s line lineNumber) ++
        renderFrom s (lineNumber + 1) lines

def render (s : State) : JsString := renderFrom s 0 s.buffer.elems

def cursorCount (s : State) : ℕ := occurrences cursorTag (render s)

/-! ## Only the cursor line shows a cursor -/

theorem apart_of_lt_notMem {piece : JsString} (h : unit '<' ∉ piece) : Apart cursorTag piece :=
  apart_of_notMem h

theorem apart_escape (string : JsString) : Apart cursorTag (escape string) := by
  apply apart_of_lt_notMem
  intro hmem
  obtain ⟨c, -, hc⟩ := List.mem_flatMap.mp hmem
  unfold escapeUnit at hc
  split_ifs at hc with h1 h2 h3 h4 h5 h6
  all_goals try exact absurd hc (by decide)
  exact h2 (List.mem_singleton.mp hc).symm

theorem apart_digits (n : ℕ) : Apart cursorTag (digits n) := by
  apply apart_of_lt_notMem
  intro hmem
  have hrange := toNat_of_mem_digits hmem
  revert hrange
  decide

theorem apart_name (mode : Mode) : Apart cursorTag mode.name := by
  cases mode <;> decide

theorem occurrences_renderLine_none (line text : JsString) (lineNumber : ℕ) :
    occurrences cursorTag (renderLine line lineNumber none ++ text) =
      occurrences cursorTag text := by
  simp only [renderLine, List.append_assoc]
  rw [occurrences_append_of_apart (by decide), occurrences_append_of_apart (apart_digits _),
    occurrences_append_of_apart (by decide), occurrences_append_of_apart (apart_escape _),
    occurrences_append_of_apart (by decide)]

theorem occurrences_renderLine_some (line text : JsString) (lineNumber : ℕ)
    (cursor : ℤ × Mode) :
    occurrences cursorTag (renderLine line lineNumber (some cursor) ++ text) =
      occurrences cursorTag text + 1 := by
  have htag (rest : JsString) :
      occurrences cursorTag (cursorTag ++ rest) = occurrences cursorTag rest + 1 :=
    occurrences_word_append (by decide) rest
  simp only [renderLine, List.append_assoc]
  rw [occurrences_append_of_apart (by decide), occurrences_append_of_apart (apart_digits _),
    occurrences_append_of_apart (by decide), occurrences_append_of_apart (apart_escape _), htag,
    occurrences_append_of_apart (by decide), occurrences_append_of_apart (apart_name _),
    occurrences_append_of_apart (by decide), occurrences_append_of_apart (apart_escape _),
    occurrences_append_of_apart (by decide)]

theorem occurrences_renderFrom (s : State) (lineNumber : ℕ) (lines : List JsString) :
    occurrences cursorTag (renderFrom s lineNumber lines) =
      if (lineNumber : ℤ) ≤ s.cursor.line ∧ s.cursor.line < lineNumber + lines.length then 1
      else 0 := by
  induction lines generalizing lineNumber with
  | nil =>
      rw [if_neg (by simp), renderFrom]
      rfl
  | cons line lines ih =>
      rw [renderFrom]
      by_cases hline : (lineNumber : ℤ) = s.cursor.line
      · rw [cursorOn, if_pos hline, occurrences_renderLine_some, ih, if_neg (by omega),
          if_pos (by simp; omega)]
      · rw [cursorOn, if_neg hline, occurrences_renderLine_none, ih]
        congr 1
        simp
        omega

/-- The drawing shows one cursor if the cursor line is a line of the buffer,
and none otherwise. -/
theorem cursorCount_eq (s : State) :
    cursorCount s = if 0 ≤ s.cursor.line ∧ s.cursor.line < s.buffer.length then 1 else 0 := by
  rw [cursorCount, render, occurrences_renderFrom]
  exact if_congr (by simp [JsArray.length]) rfl rfl

theorem State.Inside.cursorCount_eq {s : State} (h : s.Inside) : cursorCount s = 1 := by
  rw [Editor.cursorCount_eq, if_pos ⟨h.line_nonneg, h.line_lt⟩]

end CoffeeTable.Editor

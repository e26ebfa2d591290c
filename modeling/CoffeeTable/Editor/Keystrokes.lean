import CoffeeTable.Ecma.Decimal
import CoffeeTable.Editor.Typing

/-!
# Sequences of keys

What a user types in one go: the digits of a count, characters in insert mode,
and the single keys that open an operator, enter insert mode and leave it.
Each of these is given by the state it leads to.
-/

namespace CoffeeTable.Editor

open Ecma

/-- The keys that type a count. -/
def digitKeys (n : ℕ) : List Key := (digits n).map Key.char

/-- The keys that type a count, or none. -/
def countKeys : Option ℕ → List Key
  | none => []
  | some n => digitKeys n

def charKeys (chars : JsString) : List Key := chars.map Key.char

/-! ## Counts -/

theorem decode_digit {mode : Mode} (huse : (motionUse mode).isSome) {d : ℕ} (hd : d < 10) :
    decode mode (Key.char (unit d.digitChar)) = some (.digit d) := by
  cases mode with
  | insert => cases huse
  | goto => cases huse
  | command => interval_cases d <;> decide
  | delete => interval_cases d <;> decide
  | change => interval_cases d <;> decide

theorem handleKey_digit {s : State} (huse : (motionUse s.mode).isSome) {r d : ℕ}
    (hcount : s.repeatNumber = some (r : ℤ)) (hd : d < 10) :
    handleKey s (Key.char (unit d.digitChar)) =
      { s with repeatNumber := some ((10 * r + d : ℕ) : ℤ) } := by
  apply handleKey_of_perform (decode_digit huse hd)
  rw [State.perform, Command.run, hcount, countOf_some, ok_bind, pure_eq_ok]
  simp [makeState, mul_comm]

theorem type_digits {s : State} (huse : (motionUse s.mode).isSome) {r : ℕ}
    (hcount : s.repeatNumber = some (r : ℤ)) {chars : List Char}
    (hchars : ∀ c ∈ chars, c.isDigit) :
    ((chars.map unit).map Key.char).foldl handleKey s =
      { s with repeatNumber := some (Nat.ofDigitChars 10 chars r : ℤ) } := by
  induction chars generalizing s r with
  | nil => rw [Nat.ofDigitChars_nil, ← hcount]; rfl
  | cons c chars ih =>
      rw [List.forall_mem_cons] at hchars
      obtain ⟨d, hd, rfl⟩ := exists_digitChar hchars.1
      rw [List.map_cons, List.map_cons, List.foldl_cons, handleKey_digit huse hcount hd,
        Nat.ofDigitChars_cons_digitChar_of_lt_ten hd]
      exact ih (s := { s with repeatNumber := some ((10 * r + d : ℕ) : ℤ) }) huse rfl hchars.2

theorem type_count {s : State} (huse : (motionUse s.mode).isSome)
    (hcount : s.repeatNumber = some 0) (n : ℕ) :
    (digitKeys n).foldl handleKey s = { s with repeatNumber := some (n : ℤ) } := by
  have hdigits : ∀ c ∈ Nat.toDigits 10 n, c.isDigit :=
    fun c hc ↦ Nat.isDigit_of_mem_toDigits (by decide) (by decide) hc
  have htyped := type_digits huse (r := 0) hcount hdigits
  rwa [Nat.ofDigitChars_ten_toDigits] at htyped

theorem resetCount_with {s : State} (hcount : s.repeatNumber = some 0) (r : Option ℤ) :
    resetCount { s with repeatNumber := r } = s := by
  cases s
  cases hcount
  rfl

theorem type_countKeys {s : State} (huse : (motionUse s.mode).isSome)
    (hcount : s.repeatNumber = some 0) (count : Option ℕ) :
    (countKeys count).foldl handleKey s = { s with repeatNumber := some (count.getD 0 : ℤ) } := by
  cases count with
  | none => rw [Option.getD_none, Int.natCast_zero, ← hcount]; rfl
  | some n => exact type_count huse hcount n

/-! ## Single keys -/

theorem handleKey_escape {s : State} (hmode : s.mode = .insert) :
    handleKey s (key "<ESC>") = { s with mode := .command, repeatNumber := some 0 } := by
  have hdecode : decode s.mode (key "<ESC>") = some (.enter .command) := by
    rw [hmode]
    rfl
  exact handleKey_of_perform hdecode rfl

theorem decode_table {mode : Mode} (hmode : mode = .command) {key : Key} {command : Command}
    (h : commandTable.lookup key.text = some command) : decode mode key = some command := by
  simp only [hmode, decode, h]

theorem handleKey_d {s : State} (hmode : s.mode = .command) :
    handleKey s (key "d") = { s with mode := .delete, repeatNumber := some 0 } :=
  handleKey_of_perform (decode_table hmode rfl) rfl

theorem handleKey_c {s : State} (hmode : s.mode = .command) :
    handleKey s (key "c") = { s with mode := .change, repeatNumber := some 0 } :=
  handleKey_of_perform (decode_table hmode rfl) rfl

theorem handleKey_i {s : State} (hmode : s.mode = .command) :
    handleKey s (key "i") = { s with mode := .insert, repeatNumber := some 0 } :=
  handleKey_of_perform (decode_table hmode rfl) rfl

theorem handleKey_a {s : State} (hmode : s.mode = .command) :
    handleKey s (key "a") =
      { s with
        cursor := ⟨s.cursor.line, s.cursor.col + 1⟩
        mode := .insert
        repeatNumber := some 0 } :=
  handleKey_of_perform (decode_table hmode rfl) rfl

/-! ## Characters -/

theorem decode_char (c : CodeUnit) : decode .insert (Key.char c) = some (.type [c]) := by
  have hne (name : JsString) (hname : name.length ≠ 1) : ¬ (Key.char c).text = name := by
    rintro rfl
    exact hname rfl
  simp only [decode, if_neg (hne Keys.ESC (by decide)), if_neg (hne Keys.BS (by decide)),
    if_neg (hne Keys.CR (by decide))]
  rfl

/-- Typing characters puts them between the text left and right of the cursor. -/
theorem State.At.type_chars {s : State} {before after : List JsString} {left right : JsString}
    (h : s.At before (left ++ right) after) (hmode : s.mode = .insert)
    (hcol : clampCol .insert (left ++ right).length s.cursor.col = left.length)
    (chars : JsString) :
    ((charKeys chars).foldl handleKey s).At before (left ++ chars ++ right) after ∧
      ((charKeys chars).foldl handleKey s).mode = .insert := by
  induction chars generalizing s left with
  | nil =>
      rw [List.append_nil]
      exact ⟨h, hmode⟩
  | cons c chars ih =>
      have hclamp : clampCol (Editor.resetCount s).mode (left ++ right).length
          (Editor.resetCount s).cursor.col = (left.length : ℕ) := by
        rw [resetCount_mode, hmode]
        exact hcol
      have htype := h.resetCount.insertStringAtCursor_eq [c]
      rw [hclamp, sliceTo_natCast, sliceFrom_natCast, List.take_left, List.drop_left] at htype
      have hdecode : decode s.mode (Key.char c) = some (.type [c]) := hmode ▸ decode_char c
      have hkey := handleKey_of_perform hdecode htype
      have hat : (handleKey s (Key.char c)).At before ((left ++ [c]) ++ right) after := by
        rw [hkey]
        exact ⟨rfl, rfl, by simp only; omega⟩
      have hnext : clampCol .insert ((left ++ [c]) ++ right).length
          (handleKey s (Key.char c)).cursor.col = (left ++ [c]).length := by
        rw [hkey, clampCol_insert _ (by simp only; omega)]
        simp
      have htyped := ih hat (by rw [hkey]; exact hmode) hnext
      rwa [List.append_assoc left, List.singleton_append] at htyped

/-- On a line without text, what is typed is the whole line. -/
theorem State.At.type_line {s : State} {before after : List JsString} (h : s.At before [] after)
    (hmode : s.mode = .insert) (chars : JsString) :
    ((charKeys chars).foldl handleKey s).At before chars after ∧
      ((charKeys chars).foldl handleKey s).mode = .insert := by
  have hempty : s.At before ([] ++ []) after := h
  have hcol : clampCol .insert ([] ++ [] : JsString).length s.cursor.col =
      (([] : JsString).length : ℕ) := by
    rw [clampCol_insert _ h.col_nonneg]
    simp
  have htyped := hempty.type_chars hmode hcol chars
  rwa [List.nil_append, List.append_nil] at htyped

end CoffeeTable.Editor

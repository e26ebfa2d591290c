import CoffeeTable.Editor.Exec
import CoffeeTable.Editor.Shown

/-!
# The remembered column

Vertical movements never change the stored column, so that shorter lines on
the way leave no trace. The two commands that go to a line by its number
normalize both axes, because the option that was to spare the column is lost
in a nested call; on a line too short for it the column is gone. A column
stored past the end of its line when insert mode is left is kept as well, and
shows on the next longer line.
-/

namespace CoffeeTable.Editor

open Ecma Transition

/-- A key with a movement to another line. -/
structure VerticalKey where
  key : Key
  motion : Motion
  motionOf_eq : motionOf key = some motion
  vertical : ∀ cols, motion ≠ .columns cols

/-- A counted movement, or `gg` or a colon and a number after a count that they ignore. -/
inductive VerticalCommand where
  | move (count : Option ℕ) (vertical : VerticalKey)
  | top (count : Option ℕ)
  | goto (count : Option ℕ) (n : ℤ)

def VerticalCommand.perform (s : State) : VerticalCommand → State
  | .move count vertical => (countKeys count ++ [vertical.key]).foldl handleKey s
  | .top count => (countKeys count ++ [key "g", key "g"]).foldl handleKey s
  | .goto count n => confirm ((countKeys count ++ [key ":"]).foldl handleKey s) (lineCommand n)

/-- The line number that a confirmed number stands for, if it is taken for one. -/
def acceptedLine (n : ℤ) : Option ℤ :=
  if decimal n = (parseInt (decimal n)).toString then
    match parseInt (decimal n) with
    | .int value => some value
    | _ => none
  else none

/-- The line number that a command asks for by itself. -/
def VerticalCommand.lineNumber : VerticalCommand → Option ℤ
  | .move _ _ => none
  | .top _ => some 0
  | .goto _ n => acceptedLine n

/-- The command does not land on a line too short for the stored column by its number. -/
def KeepsColumn (s : State) (command : VerticalCommand) : Prop :=
  ∀ n line, command.lineNumber = some n →
    s.buffer.get? (max 0 (min n (s.buffer.length - 1))) = some line →
    s.cursor.col ≤ max 0 ((line.length : ℤ) - 1)

theorem acceptedLine_of_lt {n : ℤ} (hn : n.natAbs < safeLimit) : acceptedLine n = some n := by
  have hparse : parseInt (decimal n) = .int n := parseInt_decimal hn
  simp only [acceptedLine, hparse, if_pos (toString_int hn).symm]

theorem confirm_lineCommand (s : State) (n : ℤ) :
    confirm s (lineCommand n) =
      match acceptedLine n with
      | none => s
      | some value =>
          match gotoLine (.int value) s with
          | .ok result => result
          | .error _ => s := by
  rw [confirm, lineCommand, execute_colon, acceptedLine]
  by_cases haccepted : decimal n = (parseInt (decimal n)).toString
  · rw [if_pos haccepted, if_pos haccepted]
    cases hparse : parseInt (decimal n) with
    | nan => rfl
    | infinity negative => exact (parseInt_ne_infinity haccepted hparse).elim
    | int value => rfl
  · rw [if_neg haccepted, if_neg haccepted]

/-! ## One command -/

/-- In command mode with the cursor inside the buffer. -/
structure State.Ready (s : State) : Prop where
  mode_eq : s.mode = .command
  inside : s.Inside

structure SameView (s t : State) : Prop where
  cursor_eq : t.cursor = s.cursor
  buffer_eq : t.buffer = s.buffer
  mode_eq : t.mode = s.mode

theorem SameView.refl (s : State) : SameView s s := ⟨rfl, rfl, rfl⟩

theorem SameView.trans {s t u : State} (hst : SameView s t) (htu : SameView t u) :
    SameView s u :=
  ⟨htu.cursor_eq.trans hst.cursor_eq, htu.buffer_eq.trans hst.buffer_eq,
    htu.mode_eq.trans hst.mode_eq⟩

theorem SameView.ready {s t : State} (h : SameView s t) (hs : s.Ready) : t.Ready := by
  obtain ⟨hcursor, hbuffer, hmode⟩ := h
  refine ⟨hmode.trans hs.mode_eq, ?_, ?_, ?_⟩
  · rw [hcursor]
    exact hs.inside.line_nonneg
  · rw [hcursor, hbuffer]
    exact hs.inside.line_lt
  · rw [hcursor]
    exact hs.inside.col_nonneg

theorem sameView_digit {s : State} (huse : (motionUse s.mode).isSome) {d : ℕ} (hd : d < 10) :
    SameView s (handleKey s (Key.char (unit d.digitChar))) := by
  have hdecode := decode_digit huse hd
  cases hcount : s.repeatNumber with
  | none =>
      have herror : s.perform (.digit d) = .error .notANumber := by
        rw [State.perform, Command.run, hcount]
        rfl
      rw [handleKey_of_error hdecode herror]
      exact ⟨rfl, rfl, rfl⟩
  | some r =>
      have hok : s.perform (.digit d) =
          .ok (makeState (resetCount s) { repeatNumber := some (r * 10 + d) }) := by
        rw [State.perform, Command.run, hcount]
        rfl
      rw [handleKey_of_perform hdecode hok]
      exact ⟨rfl, rfl, rfl⟩

theorem sameView_countKeys {s : State} (hs : s.Ready) (count : Option ℕ) :
    SameView s ((countKeys count).foldl handleKey s) := by
  cases count with
  | none => exact .refl s
  | some n =>
      have hdigits : ∀ c ∈ Nat.toDigits 10 n, c.isDigit :=
        fun c hc ↦ Nat.isDigit_of_mem_toDigits (by decide) (by decide) hc
      rw [countKeys, digitKeys, digits]
      generalize Nat.toDigits 10 n = chars at hdigits
      induction chars generalizing s with
      | nil => exact .refl s
      | cons c chars ih =>
          rw [List.forall_mem_cons] at hdigits
          obtain ⟨d, hd, rfl⟩ := exists_digitChar hdigits.1
          have huse : (motionUse s.mode).isSome := by rw [hs.mode_eq]; rfl
          have hfirst := sameView_digit huse hd
          exact hfirst.trans (ih (hfirst.ready hs) hdigits.2)

/-- What a command leaves of the state it is given. -/
structure Viewed (s t : State) (col : ℤ) : Prop where
  ready : t.Ready
  buffer_eq : t.buffer = s.buffer
  col_eq : t.cursor.col = col

theorem SameView.viewed {s t u : State} {col : ℤ} (hst : SameView s t) (htu : Viewed t u col) :
    Viewed s u col := ⟨htu.ready, htu.buffer_eq.trans hst.buffer_eq, htu.col_eq⟩

theorem viewed_of_verticalKey {s : State} (hs : s.Ready) (vertical : VerticalKey) :
    Viewed s (handleKey s vertical.key) s.cursor.col := by
  have hdecode : decode s.mode vertical.key = some (.move vertical.motion) := by
    rw [hs.mode_eq]
    exact decode_motion rfl vertical.motionOf_eq
  have hproper := motionOf_proper vertical.motionOf_eq
  cases hmove : vertical.motion.movement (resetCount s) (effectiveCount s.repeatNumber) with
  | error fault =>
      have herror : s.perform (.move vertical.motion) = .error fault := by
        rw [State.perform, Command.run, hmove]
        rfl
      rw [handleKey_of_error hdecode herror]
      exact ⟨⟨hs.mode_eq, hs.inside.resetCount⟩, rfl, rfl⟩
  | ok cursor =>
      have hok : s.perform (.move vertical.motion) =
          .ok { resetCount s with cursor := cursor } := by
        rw [State.perform, Command.run, hmove]
        rfl
      have hmode : (resetCount s).mode ≠ .insert := by
        rw [resetCount_mode, hs.mode_eq]
        decide
      obtain ⟨hline, hlt, hcol⟩ := movement_inside hproper hs.inside.resetCount hmode hmove
      rw [handleKey_of_perform hdecode hok]
      rcases Motion.movement_eq_ok hproper hmove with ⟨cols, -, -, hmotion, -⟩ | ⟨-, -, -, hsame⟩
      · exact (vertical.vertical cols hmotion).elim
      · exact ⟨⟨hs.mode_eq, hline, hlt, hcol⟩, rfl, hsame⟩

theorem viewed_of_gotoLine {s : State} (hs : s.Inside) (hmode : s.mode ≠ .insert) (n : ℤ) :
    ∃ line t, s.buffer.get? (max 0 (min n (s.buffer.length - 1))) = some line ∧
      gotoLine (.int n) s = .ok t ∧ Viewed s t (shownCol line.length s.cursor.col) := by
  obtain ⟨line, hget, hgoto⟩ := gotoLine_of_lt hs (n := n) fun hinsert ↦ (hmode hinsert).elim
  have hlt := JsArray.lt_length_of_get?_eq_some (le_max_left 0 _) hget
  refine ⟨line, _, hget, hgoto, ⟨rfl, le_max_left _ _, hlt, clampCol_nonneg _ _ _⟩, rfl, ?_⟩
  exact (shownCol_eq_clampCol hmode line.length s.cursor.col).symm

theorem viewed_of_top {s : State} (hs : s.Ready) :
    ∃ line, s.buffer.get? (max 0 (min 0 (s.buffer.length - 1))) = some line ∧
      Viewed s ([key "g", key "g"].foldl handleKey s) (shownCol line.length s.cursor.col) := by
  have hgoto : State.Inside { s with mode := .goto, repeatNumber := some 0 } :=
    ⟨hs.inside.line_nonneg, hs.inside.line_lt, hs.inside.col_nonneg⟩
  have hmode : Mode.goto ≠ .insert := by decide
  obtain ⟨line, t, hget, ht, hview⟩ := viewed_of_gotoLine hgoto hmode 0
  have hfirst : handleKey s (key "g") = { s with mode := .goto, repeatNumber := some 0 } :=
    handleKey_of_perform (decode_table hs.mode_eq rfl) rfl
  have hdecode : decode .goto (key "g") = some .top := rfl
  have hsecond := handleKey_of_perform (s := { s with mode := .goto, repeatNumber := some 0 })
    hdecode ht
  refine ⟨line, hget, ?_⟩
  rw [List.foldl_cons, List.foldl_cons, List.foldl_nil, hfirst, hsecond]
  exact ⟨hview.ready, hview.buffer_eq, hview.col_eq⟩

theorem viewed_of_goto {s : State} (hs : s.Ready) (n : ℤ) :
    (acceptedLine n = none ∧
        Viewed s (confirm ([key ":"].foldl handleKey s) (lineCommand n)) s.cursor.col) ∨
      ∃ value line, acceptedLine n = some value ∧
        s.buffer.get? (max 0 (min value (s.buffer.length - 1))) = some line ∧
        Viewed s (confirm ([key ":"].foldl handleKey s) (lineCommand n))
          (shownCol line.length s.cursor.col) := by
  have hcolon : handleKey s (key ":") = resetCount s :=
    handleKey_of_perform (decode_table hs.mode_eq rfl) rfl
  have hreset : (resetCount s).Ready := ⟨hs.mode_eq, hs.inside.resetCount⟩
  rw [List.foldl_cons, List.foldl_nil, hcolon, confirm_lineCommand]
  cases acceptedLine n with
  | none => exact Or.inl ⟨rfl, hreset, rfl, rfl⟩
  | some value =>
      have hmode : (resetCount s).mode ≠ .insert := by
        rw [hreset.mode_eq]
        decide
      obtain ⟨line, t, hget, ht, hview⟩ := viewed_of_gotoLine hreset.inside hmode value
      refine Or.inr ⟨value, line, rfl, hget, ?_⟩
      simp only [ht]
      exact ⟨hview.ready, hview.buffer_eq, hview.col_eq⟩

theorem viewed_of_move {s : State} (hs : s.Ready) (count : Option ℕ) (vertical : VerticalKey) :
    Viewed s ((countKeys count ++ [vertical.key]).foldl handleKey s) s.cursor.col := by
  have hcount := sameView_countKeys hs count
  have hmove := viewed_of_verticalKey (hcount.ready hs) vertical
  rw [hcount.cursor_eq] at hmove
  rw [List.foldl_append]
  exact hcount.viewed hmove

/-- A command shows the line of its own number with the column clamped to it,
and without a number it keeps the column. -/
theorem viewed_of_perform {s : State} (hs : s.Ready) (command : VerticalCommand) :
    (command.lineNumber = none ∧ Viewed s (command.perform s) s.cursor.col) ∨
      ∃ n line, command.lineNumber = some n ∧
        s.buffer.get? (max 0 (min n (s.buffer.length - 1))) = some line ∧
        Viewed s (command.perform s) (shownCol line.length s.cursor.col) := by
  cases command with
  | move count vertical => exact Or.inl ⟨rfl, viewed_of_move hs count vertical⟩
  | top count =>
      have hcount := sameView_countKeys hs count
      obtain ⟨line, hget, htop⟩ := viewed_of_top (hcount.ready hs)
      rw [hcount.buffer_eq] at hget
      rw [hcount.cursor_eq] at htop
      refine Or.inr ⟨0, line, rfl, hget, ?_⟩
      rw [VerticalCommand.perform, List.foldl_append]
      exact hcount.viewed htop
  | goto count n =>
      have hcount := sameView_countKeys hs count
      rw [VerticalCommand.lineNumber, VerticalCommand.perform, List.foldl_append]
      rw [← hcount.buffer_eq, ← hcount.cursor_eq]
      rcases viewed_of_goto (hcount.ready hs) n with
        ⟨hnone, hview⟩ | ⟨value, line, hsome, hget, hview⟩
      · exact Or.inl ⟨hnone, hcount.viewed hview⟩
      · exact Or.inr ⟨value, line, hsome, hget, hcount.viewed hview⟩

theorem ready_perform {s : State} (hs : s.Ready) (command : VerticalCommand) :
    (command.perform s).Ready ∧ (command.perform s).buffer = s.buffer := by
  rcases viewed_of_perform hs command with ⟨-, hview⟩ | ⟨n, line, -, -, hview⟩
  · exact ⟨hview.ready, hview.buffer_eq⟩
  · exact ⟨hview.ready, hview.buffer_eq⟩

theorem shownCol_le {length : ℕ} {col : ℤ} (h : 0 ≤ col) : (shownCol length col : ℤ) ≤ col := by
  unfold shownCol
  omega

theorem shownCol_eq_self_iff {length : ℕ} {col : ℤ} (h : 0 ≤ col) :
    (shownCol length col : ℤ) = col ↔ col ≤ max 0 ((length : ℤ) - 1) := by
  unfold shownCol
  omega

theorem perform_col_le {s : State} (hs : s.Ready) (command : VerticalCommand) :
    (command.perform s).cursor.col ≤ s.cursor.col := by
  rcases viewed_of_perform hs command with ⟨-, hview⟩ | ⟨n, line, -, -, hview⟩
  · exact hview.col_eq.le
  · rw [hview.col_eq]
    exact shownCol_le hs.inside.col_nonneg

theorem perform_col_eq_iff {s : State} (hs : s.Ready) (command : VerticalCommand) :
    (command.perform s).cursor.col = s.cursor.col ↔ KeepsColumn s command := by
  rcases viewed_of_perform hs command with ⟨hnone, hview⟩ | ⟨n, line, hsome, hget, hview⟩
  · refine iff_of_true hview.col_eq fun n line hn ↦ ?_
    rw [hnone] at hn
    cases hn
  · rw [hview.col_eq, shownCol_eq_self_iff hs.inside.col_nonneg]
    constructor
    · intro hle m other hm hother
      rw [hsome] at hm
      cases hm
      rw [hget] at hother
      cases hother
      exact hle
    · exact fun hkeeps ↦ hkeeps n line hsome hget

/-! ## Sequences of commands -/

theorem moveCursor_within {s : State} (hs : s.Inside) {lines count target : ℤ}
    (hlines : lines ≠ 0) (htarget : s.cursor.line + lines * count = target) (hlow : 0 ≤ target)
    (hlt : target < s.buffer.length) :
    moveCursor lines 0 s (some count) = .ok ⟨target, s.cursor.col⟩ := by
  rw [Motion.moveCursor_rows hlines, clampLine_of_lt hs.line_nonneg hs.line_lt, htarget,
    clampLine_of_lt hlow hlt]

theorem down_up_restores {s : State} (hs : s.Ready) (hcount : s.repeatNumber = some 0) {n : ℕ}
    (hn : 1 ≤ n) (hlt : s.cursor.line + n < s.buffer.length) :
    (digitKeys n ++ [key "j"] ++ (digitKeys n ++ [key "k"])).foldl handleKey s = s := by
  have hnonneg := hs.inside.line_nonneg
  have hbelow : State.Inside { s with cursor := ⟨s.cursor.line + n, s.cursor.col⟩ } :=
    ⟨show 0 ≤ s.cursor.line + n by omega, hlt, hs.inside.col_nonneg⟩
  have hdown := moveCursor_within hs.inside (show (1 : ℤ) ≠ 0 by decide)
    (show s.cursor.line + 1 * (n : ℤ) = s.cursor.line + n by ring) (by omega) hlt
  have hup := moveCursor_within hbelow (show (-1 : ℤ) ≠ 0 by decide)
    (show s.cursor.line + n + -1 * (n : ℤ) = s.cursor.line by ring) hnonneg hs.inside.line_lt
  rw [List.foldl_append, counted_eq hs.mode_eq hcount rfl hn hdown]
  exact counted_eq (s := { s with cursor := ⟨s.cursor.line + n, s.cursor.col⟩ }) hs.mode_eq hcount
    rfl hn hup

theorem buffer_of_commands {s : State} (hs : s.Ready) (commands : List VerticalCommand) :
    (commands.foldl VerticalCommand.perform s).buffer = s.buffer := by
  have hall : Throughout VerticalCommand.perform (fun t ↦ t.Ready ∧ t.buffer = s.buffer) s
      commands := by
    refine throughout_of_step (fun t command ht ↦ ?_) ⟨hs, rfl⟩ commands
    obtain ⟨hready, hbuffer⟩ := ready_perform ht.1 command
    exact ⟨hready, hbuffer.trans ht.2⟩
  exact hall.last.2

def downKey : VerticalKey := ⟨key "j", .rows 1, rfl, by simp⟩

def moveKeys (moves : List (Option ℕ × VerticalKey)) : List Key :=
  moves.flatMap fun move ↦ countKeys move.1 ++ [move.2.key]

theorem viewed_of_moves {s : State} (hs : s.Ready) (moves : List (Option ℕ × VerticalKey)) :
    Viewed s ((moveKeys moves).foldl handleKey s) s.cursor.col := by
  induction moves generalizing s with
  | nil => exact ⟨hs, rfl, rfl⟩
  | cons move moves ih =>
      have hfirst := viewed_of_move hs move.1 move.2
      have hrest := ih hfirst.ready
      rw [hfirst.col_eq] at hrest
      rw [moveKeys, List.flatMap_cons, List.foldl_append]
      exact ⟨hrest.ready, hrest.buffer_eq.trans hfirst.buffer_eq, hrest.col_eq⟩

theorem shownCol_shownCol_iff (length last : ℕ) {col : ℤ} (h : 0 ≤ col) :
    shownCol last col = shownCol last (shownCol length col) ↔
      col ≤ max 0 ((length : ℤ) - 1) ∨ last ≤ max 1 length := by
  unfold shownCol
  omega

end CoffeeTable.Editor

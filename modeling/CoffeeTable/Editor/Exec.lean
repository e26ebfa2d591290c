import CoffeeTable.Ecma.Decimal
import CoffeeTable.Editor.Inside
import CoffeeTable.Editor.Render

/-!
# The exec box

A colon and a number move the cursor to the line with that number and return
to command mode, whatever the mode was. The number has to be spelled the way
the program would write it, and every other text is ignored. Three kinds of
text escape this description: the name of the number that is none, line
numbers past the end while in insert mode, where the clamp stops one line too
low, and integers too large to be exact.
-/

namespace CoffeeTable.Editor

open Ecma

def colonCmd (command : JsString) (state : State) : Except Fault State :=
  if command = (parseInt command).toString then gotoLine (parseInt command) state
  else .ok state

def execute (expr : JsString) (state : State) : Except Fault State :=
  match expr with
  | [] => .ok state
  | first :: rest => if first = unit ':' then colonCmd rest state else .ok state

/-- The state variable after a text is confirmed. -/
def confirm (state : State) (expr : JsString) : State :=
  match execute expr state with
  | .ok result => result
  | .error _ => state

def lineCommand (n : ℤ) : JsString := unit ':' :: decimal n

/-- The state after going to a line: command mode, no count, the same buffer,
and the cursor on the line nearest to the one asked for. -/
structure WentTo (s : State) (n : ℤ) (t : State) : Prop where
  mode_eq : t.mode = .command
  repeatNumber_eq : t.repeatNumber = some 0
  buffer_eq : t.buffer = s.buffer
  line_eq : t.cursor.line = max 0 (min n (s.buffer.length - 1))
  cursorOn_isSome : ∀ line, 0 ≤ n → n < s.buffer.length → (cursorOn t line n.toNat).isSome

/-- Confirming the text succeeds, goes to the line if the text is a line
command, and changes nothing otherwise. -/
def ExecutesLineNumber (s : State) (expr : JsString) : Prop :=
  ∃ t, execute expr s = .ok t ∧
    (∀ n : ℤ, n.natAbs < safeLimit → expr = lineCommand n → WentTo s n t) ∧
    ((∀ n : ℤ, n.natAbs < safeLimit → expr ≠ lineCommand n) → t = s)

/-- In command mode without a count, the cursor already where the line command leads. -/
def State.SettledAt (s : State) (n : ℤ) : Prop :=
  s.mode = .command ∧ s.repeatNumber = some 0 ∧
    s.cursor.line = max 0 (min n (s.buffer.length - 1)) ∧
    ∀ line, s.buffer.get? s.cursor.line = some line → s.cursor.col ≤ max 0 (line.length - 1)

/-- Not the name of the number that is none, in insert mode no line number past
the end, and no integer beyond the exact ones unless it leads nowhere. -/
structure ExecSafe (s : State) (expr : JsString) : Prop where
  ne_nan : expr ≠ lit ":NaN"
  lt_length : ∀ n : ℤ, n.natAbs < safeLimit → expr = lineCommand n → s.mode = .insert →
    n < s.buffer.length
  settled : ∀ n : ℤ, safeLimit ≤ n.natAbs → expr = unit ':' :: (Number.int n).toString →
    parseInt (Number.int n).toString = .int n → s.SettledAt n

/-! ## Going to a line -/

theorem gotoLine_of_lt {s : State} (hs : s.Inside) {n : ℤ}
    (h : s.mode = .insert → n < s.buffer.length) :
    ∃ line, s.buffer.get? (max 0 (min n (s.buffer.length - 1))) = some line ∧
      gotoLine (.int n) s = .ok
        { cursor := ⟨max 0 (min n (s.buffer.length - 1)),
            clampCol s.mode line.length s.cursor.col⟩
          buffer := s.buffer
          mode := .command
          repeatNumber := some 0 } := by
  have hline := hs.line_nonneg
  have hlt := hs.line_lt
  have hclamp : clampLine (makeState s { line := n }) n = max 0 (min n (s.buffer.length - 1)) := by
    simp only [clampLine, makeState, Option.getD_none]
    by_cases hmode : s.mode = .insert
    · have := h hmode
      rw [hmode, endOfLine_insert]
      omega
    · rw [endOfLine_of_ne hmode]
      rfl
  obtain ⟨line, hget⟩ := JsArray.exists_get?_eq_some (a := s.buffer)
    (i := max 0 (min n (s.buffer.length - 1))) (le_max_left _ _) (by omega)
  have hnormal : normalizeCursor (makeState s { line := n }) {} = .ok _ :=
    normalizeCursor_of_get? ((if_pos rfl).trans hclamp) hget
  refine ⟨line, hget, ?_⟩
  rw [gotoLine_int, hnormal]
  rfl

theorem gotoLine_of_insert {s : State} (hmode : s.mode = .insert) {n : ℤ}
    (h : s.buffer.length ≤ n) : gotoLine (.int n) s = .error .missingLine := by
  have hlength : (0 : ℤ) ≤ s.buffer.length := Int.natCast_nonneg _
  have hclamp : clampLine (makeState s { line := n }) n = s.buffer.length := by
    simp only [clampLine, makeState, Option.getD_none, hmode, endOfLine_insert]
    omega
  have hget :
      s.buffer.get? (if true then clampLine (makeState s { line := n }) n else n) = none := by
    rw [if_pos rfl, hclamp]
    exact JsArray.get?_eq_none_of_length_le hlength (le_refl _)
  have hnormal : normalizeCursor (makeState s { line := n }) {} = .error .missingLine :=
    normalizeCursor_of_get?_eq_none hget
  rw [gotoLine_int, hnormal]
  rfl

theorem wentTo_of_lt {s : State} (hs : s.Inside) {n : ℤ}
    (h : s.mode = .insert → n < s.buffer.length) :
    ∃ t, gotoLine (.int n) s = .ok t ∧ WentTo s n t := by
  obtain ⟨line, -, heq⟩ := gotoLine_of_lt hs h
  refine ⟨_, heq, rfl, rfl, rfl, rfl, fun shown hnonneg hlt ↦ ?_⟩
  have hnumber : ((n.toNat : ℕ) : ℤ) = max 0 (min n (s.buffer.length - 1)) := by omega
  rw [cursorOn, if_pos hnumber]
  rfl

theorem gotoLine_eq_self_iff {s : State} (hs : s.Inside) (n : ℤ) :
    gotoLine (.int n) s = .ok s ↔ s.SettledAt n := by
  constructor
  · intro h
    have hmode : s.mode = .command := by
      rw [gotoLine_int] at h
      obtain ⟨t, -, ht⟩ := map_eq_ok.mp h
      rw [← ht]
      rfl
    obtain ⟨line, hget, heq⟩ := gotoLine_of_lt hs (n := n) (fun hins ↦ by simp [hmode] at hins)
    have hself := Except.ok.inj (heq.symm.trans h)
    have hline := congrArg (fun t : State ↦ t.cursor.line) hself
    have hcol := congrArg (fun t : State ↦ t.cursor.col) hself
    refine ⟨hmode, (congrArg State.repeatNumber hself).symm, hline.symm, fun current hcurrent ↦ ?_⟩
    rw [← hline, hget] at hcurrent
    cases hcurrent
    simp only [clampCol, hmode, endOfLine_of_ne (show Mode.command ≠ .insert by decide)] at hcol
    omega
  · rintro ⟨hmode, hcount, hline, hcol⟩
    obtain ⟨line, hget, heq⟩ := gotoLine_of_lt hs (n := n) (fun hins ↦ by simp [hmode] at hins)
    have hle := hcol line (hline ▸ hget)
    have hnonneg := hs.col_nonneg
    have hclamp : clampCol s.mode line.length s.cursor.col = s.cursor.col := by
      rw [hmode, clampCol, endOfLine_of_ne (by decide)]
      omega
    rw [heq, hclamp, ← hline, ← hmode, ← hcount]

/-! ## Which texts are accepted -/

theorem execute_colon (command : JsString) (s : State) :
    execute (unit ':' :: command) s =
      if command = (parseInt command).toString then gotoLine (parseInt command) s else .ok s := rfl

theorem lineCommand_injective {n : ℤ} (hn : n.natAbs < safeLimit) {command : JsString}
    (h : unit ':' :: command = lineCommand n) : parseInt command = .int n := by
  obtain rfl : command = decimal n := (List.cons_eq_cons.mp h).2
  exact parseInt_decimal hn

theorem parseInt_nan : parseInt (lit "NaN") = .nan := by decide

theorem ne_lineCommand {command : JsString} (h : command ≠ (parseInt command).toString) {n : ℤ}
    (hn : n.natAbs < safeLimit) : unit ':' :: command ≠ lineCommand n := by
  intro heq
  apply h
  rw [lineCommand_injective hn heq, toString_int hn]
  exact (List.cons_eq_cons.mp heq).2

theorem execSafe_of_ignored {s : State} {command : JsString}
    (h : command ≠ (parseInt command).toString) : ExecSafe s (unit ':' :: command) where
  ne_nan := by
    intro heq
    obtain rfl : command = lit "NaN" := (List.cons_eq_cons.mp heq).2
    exact h (by decide)
  lt_length := fun _ hn heq ↦ (ne_lineCommand h hn heq).elim
  settled := by
    intro n _ heq hparse
    obtain rfl : command = (Number.int n).toString := (List.cons_eq_cons.mp heq).2
    exact (h (by rw [hparse])).elim

theorem executesLineNumber_iff_of_lt {s : State} (hs : s.Inside) {n : ℤ}
    (hn : n.natAbs < safeLimit) :
    ExecutesLineNumber s (lineCommand n) ↔ ExecSafe s (lineCommand n) := by
  have hparse : parseInt (decimal n) = .int n := parseInt_decimal hn
  have hexecute : execute (lineCommand n) s = gotoLine (.int n) s := by
    rw [lineCommand, execute_colon, hparse, if_pos (toString_int hn).symm]
  have hunique {m : ℤ} (hm : m.natAbs < safeLimit) (heq : lineCommand n = lineCommand m) :
      m = n := by
    have hboth := (lineCommand_injective hm heq).symm.trans hparse
    exact Number.int.inj hboth
  constructor
  · rintro ⟨t, ht, -⟩
    refine ⟨?_, fun m hm heq hmode ↦ ?_, fun m hm heq hround ↦ ?_⟩
    · intro heq
      obtain hdecimal : decimal n = lit "NaN" := (List.cons_eq_cons.mp heq).2
      rw [hdecimal, parseInt_nan] at hparse
      cases hparse
    · obtain rfl := hunique hm heq
      by_contra hge
      rw [hexecute, gotoLine_of_insert hmode (not_lt.mp hge)] at ht
      cases ht
    · obtain hdecimal : decimal n = (Number.int m).toString := (List.cons_eq_cons.mp heq).2
      rw [hdecimal, hround] at hparse
      obtain rfl := Number.int.inj hparse
      exact (not_lt.mpr hm hn).elim
  · intro hsafe
    obtain ⟨t, ht, hwent⟩ := wentTo_of_lt hs (hsafe.lt_length n hn rfl)
    refine ⟨t, hexecute.trans ht, fun m hm heq ↦ ?_, fun hnone ↦ (hnone n hn rfl).elim⟩
    rwa [hunique hm heq]

theorem executesLineNumber_iff_of_le {s : State} (hs : s.Inside) {n : ℤ}
    (hn : safeLimit ≤ n.natAbs) (hround : parseInt (Number.int n).toString = .int n) :
    ExecutesLineNumber s (unit ':' :: (Number.int n).toString) ↔
      ExecSafe s (unit ':' :: (Number.int n).toString) := by
  have hexecute : execute (unit ':' :: (Number.int n).toString) s = gotoLine (.int n) s := by
    rw [execute_colon, hround, if_pos rfl]
  have hnone {m : ℤ} (hm : m.natAbs < safeLimit) :
      unit ':' :: (Number.int n).toString ≠ lineCommand m := by
    intro heq
    obtain rfl := Number.int.inj (hround.symm.trans (lineCommand_injective hm heq))
    exact not_lt.mpr hn hm
  constructor
  · rintro ⟨t, ht, -, hsame⟩
    obtain rfl := hsame fun m hm ↦ hnone hm
    have hsettled := (gotoLine_eq_self_iff hs n).mp (hexecute.symm.trans ht)
    refine ⟨?_, fun m hm heq ↦ (hnone hm heq).elim, fun m _ heq hother ↦ ?_⟩
    · intro heq
      obtain hname : (Number.int n).toString = lit "NaN" := (List.cons_eq_cons.mp heq).2
      rw [hname, parseInt_nan] at hround
      cases hround
    · rw [(List.cons_eq_cons.mp heq).2] at hround
      rwa [Number.int.inj (hother.symm.trans hround)]
  · intro hsafe
    have hself := (gotoLine_eq_self_iff hs n).mpr (hsafe.settled n hn rfl hround)
    exact ⟨s, hexecute.trans hself, fun m hm heq ↦ (hnone hm heq).elim, fun _ ↦ rfl⟩

/-- With the cursor inside the buffer, confirming a text does what line
commands promise exactly if the text is safe in that state. -/
theorem executesLineNumber_iff {s : State} (hs : s.Inside) (expr : JsString) :
    ExecutesLineNumber s expr ↔ ExecSafe s expr := by
  have hignored {text : JsString} (hexecute : execute text s = .ok s)
      (hnone : ∀ n : ℤ, n.natAbs < safeLimit → text ≠ lineCommand n) :
      ExecutesLineNumber s text :=
    ⟨s, hexecute, fun n hn heq ↦ (hnone n hn heq).elim, fun _ ↦ rfl⟩
  cases expr with
  | nil =>
      refine iff_of_true (hignored rfl fun n _ heq ↦ by cases heq) ⟨by decide, ?_, ?_⟩
      · intro n _ heq
        cases heq
      · intro n _ heq
        cases heq
  | cons first command =>
      by_cases hcolon : first = unit ':'
      · subst hcolon
        by_cases haccepted : command = (parseInt command).toString
        · cases hparse : parseInt command with
          | nan =>
              rw [hparse] at haccepted
              subst haccepted
              refine iff_of_false ?_ fun hsafe ↦ hsafe.ne_nan rfl
              rintro ⟨t, ht, -⟩
              rw [execute_colon, hparse, if_pos rfl] at ht
              cases ht
          | infinity negative => exact (parseInt_ne_infinity haccepted hparse).elim
          | int n =>
              rw [hparse] at haccepted
              by_cases hn : n.natAbs < safeLimit
              · rw [toString_int hn] at haccepted
                rw [haccepted]
                exact executesLineNumber_iff_of_lt hs hn
              · rw [haccepted] at hparse ⊢
                exact executesLineNumber_iff_of_le hs (not_lt.mp hn) hparse
        · refine iff_of_true (hignored ?_ fun n hn ↦ ne_lineCommand haccepted hn)
            (execSafe_of_ignored haccepted)
          rw [execute_colon, if_neg haccepted]
      · have hne {text : JsString} : first :: command ≠ unit ':' :: text := by
          intro heq
          exact hcolon (List.cons_eq_cons.mp heq).1
        refine iff_of_true (hignored (if_neg hcolon) fun n _ ↦ hne) ⟨hne, ?_, ?_⟩
        · exact fun n _ heq ↦ (hne heq).elim
        · exact fun n _ heq ↦ (hne heq).elim

theorem executesLineNumber_one :
    ExecutesLineNumber (startEditing (lit "a\nb")) (lit ":1") := by
  refine (executesLineNumber_iff (startEditing_inside _) (lit ":1")).mpr ⟨by decide, ?_, ?_⟩
  · intro n _ _ hmode
    cases hmode
  · intro n hn heq hparse
    have hdecimal : lit "1" = decimal 1 := by decide
    have hone : parseInt (lit "1") = .int 1 := by
      rw [hdecimal]
      exact parseInt_decimal (by decide)
    rw [← (List.cons_eq_cons.mp heq).2] at hparse
    obtain rfl := Number.int.inj (hone.symm.trans hparse)
    exact (not_lt.mpr hn (by decide)).elim

theorem execute_nan_fails : ¬ ExecutesLineNumber (startEditing (lit "a")) (lit ":NaN") := by
  rintro ⟨t, ht, -⟩
  have herror : execute (lit ":NaN") (startEditing (lit "a")) = .error .missingLine := by decide
  rw [herror] at ht
  cases ht

end CoffeeTable.Editor

import CoffeeTable.Editor.Corrections
import CoffeeTable.Editor.Spans

/-!
# Rewriting the whole text

Repeating the deletion of the cursor line takes the lines below it one after
another, and the same lines that one deletion over a counted motion takes. What
is left when all lines but one are gone can be changed into any text.
-/

namespace CoffeeTable.Editor

open Ecma

/-- `dd`, pressed a number of times. -/
def deletions (n : ℕ) : List Key :=
  (List.replicate n [Key.char (unit 'd'), Key.char (unit 'd')]).flatten

def textKeys (text : JsString) : List Key :=
  text.map fun c ↦ if c = newline then key "<CR>" else Key.char c

/-- The keys that turn a buffer of the given number of lines into a text. -/
def rewriteKeys (lines : ℕ) (text : JsString) : List Key :=
  deletions (lines - 1) ++ [Key.char (unit 'c'), Key.char (unit 'c')] ++ textKeys text ++
    [⟨Keys.ESC, Or.inr rfl⟩]

theorem deletions_succ (n : ℕ) :
    deletions (n + 1) = [key "d", key "d"] ++ deletions n := by
  rw [deletions, List.replicate_succ, List.flatten_cons, deletions]
  rfl

theorem rewriteKeys_eq (lines : ℕ) (text : JsString) :
    rewriteKeys lines text =
      deletions (lines - 1) ++ [key "c", key "c"] ++ textKeys text ++ [key "<ESC>"] := rfl

/-! ## Deleting line after line -/

theorem State.At.delete_line {s : State} {before after : List JsString} {line : JsString}
    (h : s.At before line after) (hmode : s.mode = .command) :
    [key "d", key "d"].foldl handleKey s =
      { cursor := ⟨max 0 (min before.length (before.length + after.length - 1)), s.cursor.col⟩
        buffer := ⟨before ++ after, []⟩
        mode := .command
        repeatNumber := some 0 } := by
  have hdelete : State.At { s with mode := .delete, repeatNumber := some 0 } before line after :=
    ⟨h.elems_eq, h.line_eq, h.col_nonneg⟩
  have hdecode : decode .delete (key "d") = some .deleteLine := rfl
  have hkey := handleKey_of_perform (s := { s with mode := .delete, repeatNumber := some 0 })
    hdecode hdelete.deleteCurrentLine_eq
  rw [List.foldl_cons, List.foldl_cons, List.foldl_nil, handleKey_d hmode, hkey]

/-- Only the last deletion can find no line below and move the cursor up. -/
theorem delete_lines {before : List JsString} {n : ℕ} (lines : List JsString)
    (hle : n + 1 ≤ lines.length) {s : State} (hmode : s.mode = .command)
    (helems : s.buffer.elems = before ++ lines) (hline : s.cursor.line = before.length)
    (hcol : 0 ≤ s.cursor.col) :
    (deletions (n + 1)).foldl handleKey s =
      { cursor := ⟨max 0 (min before.length (before.length + lines.length - (n + 1) - 1)),
          s.cursor.col⟩
        buffer := ⟨before ++ lines.drop (n + 1), []⟩
        mode := .command
        repeatNumber := some 0 } := by
  induction n generalizing s lines with
  | zero =>
      obtain ⟨line, after, rfl⟩ := List.exists_cons_of_length_pos hle
      have hat : s.At before line after := ⟨helems, hline, hcol⟩
      rw [deletions_succ, deletions, List.replicate_zero, List.flatten_nil, List.append_nil,
        hat.delete_line hmode]
      simp
      omega
  | succ n ih =>
      obtain ⟨line, after, rfl⟩ := List.exists_cons_of_length_pos (by omega : 0 < lines.length)
      have hat : s.At before line after := ⟨helems, hline, hcol⟩
      rw [List.length_cons] at hle
      have hstay : max 0 (min (before.length : ℤ) (before.length + after.length - 1)) =
          before.length := by omega
      have hrest := ih after (by omega) (s := ⟨⟨before.length, s.cursor.col⟩,
        ⟨before ++ after, []⟩, .command, some 0⟩) rfl rfl rfl hcol
      rw [deletions_succ, List.foldl_append, hat.delete_line hmode, hstay, hrest,
        List.drop_succ_cons, List.length_cons]
      congr 3
      push_cast
      omega

theorem State.At.delete_below {s : State} {before after : List JsString} {line : JsString}
    (h : s.At before line after) {n : ℕ} (hn : 0 < n) (col : ℤ) :
    deleteToCursor s ⟨before.length + n, col⟩ = .ok
      { s with
        cursor := ⟨before.length, 0⟩
        buffer := ⟨before ++ after.drop n, []⟩
        mode := .command } := by
  have hne : s.cursor.line ≠ before.length + n := by
    rw [h.line_eq]
    omega
  have hspan := elems_splice_span h.inside (show (0 : ℤ) ≤ before.length + n by omega)
  have hmin : min s.cursor.line (before.length + n : ℤ) = before.length := by
    rw [h.line_eq]
    omega
  have hmax : max s.cursor.line (before.length + n : ℤ) = (before.length + n : ℕ) := by
    rw [h.line_eq]
    omega
  have hdrop : (before ++ line :: after).drop (before.length + n + 1) = after.drop n := by
    rw [add_assoc, List.drop_length_add_append, List.drop_succ_cons]
  rw [replaceSpan, hmin, hmax, Int.toNat_natCast, Int.toNat_natCast, h.elems_eq,
    List.take_left, hdrop, List.append_nil] at hspan
  rw [deleteToCursor_of_ne hne, hmin, hmax, JsArray.splice, JsArray.elems_clone, h.elems_eq, hspan,
    JsArray.props_clone]

/-- `d`, a count and `j`, as far as the buffer goes. -/
theorem State.At.delete_down {s : State} {before after : List JsString} {line : JsString}
    (h : s.At before line after) (hmode : s.mode = .command) {n : ℕ} (hn : 0 < n)
    (hle : n ≤ after.length) :
    (key "d" :: digitKeys n ++ [key "j"]).foldl handleKey s =
      { cursor := ⟨before.length, 0⟩
        buffer := ⟨before ++ after.drop n, []⟩
        mode := .command
        repeatNumber := some 0 } := by
  have hat : State.At { s with mode := .delete, repeatNumber := some 0 } before line after :=
    ⟨h.elems_eq, h.line_eq, h.col_nonneg⟩
  have hdelete : Mode.delete ≠ .insert := by decide
  have htarget : Motion.targetLine { s with mode := .delete, repeatNumber := some 0 } (n : ℤ)
      (.rows 1) = some (before.length + n : ℤ) := by
    have hlength := hat.length_eq
    rw [targetLine_eq hat.inside hdelete, verticalTarget, hat.line_eq, hlength,
      Option.some.injEq]
    omega
  have hmove := Motion.movement_of_targetLine (show Motion.Proper (.rows 1) from one_ne_zero)
    htarget
  have hdecode : decode .delete (key "j") = some (.deleteTo (.rows 1)) := rfl
  have hrun : State.perform { s with mode := .delete, repeatNumber := some (n : ℤ) }
      (.deleteTo (.rows 1)) = .ok
        { cursor := ⟨before.length, 0⟩
          buffer := ⟨before ++ after.drop n, []⟩
          mode := .command
          repeatNumber := some 0 } := by
    rw [State.perform, effectiveCount_natCast, max_eq_right hn, Command.run]
    exact (congrArg (· >>= deleteToCursor _) hmove).trans (hat.delete_below hn _)
  rw [List.cons_append, List.foldl_cons, List.foldl_append, handleKey_d hmode,
    type_count rfl rfl n]
  exact handleKey_of_perform hdecode hrun

/-- The lines that repeated deletion takes are those of one counted deletion.
Where it takes the last line, the cursor moves up to the line above, while the
counted deletion leaves it one line too far down. -/
theorem deletions_agree {s : State} (hs : s.Inside) (hmode : s.mode = .command) {n : ℕ}
    (hn : 0 < n) (hle : s.cursor.line + n < s.buffer.length) :
    ((deletions (n + 1)).foldl handleKey s).buffer =
        ((key "d" :: digitKeys n ++ [key "j"]).foldl handleKey s).buffer ∧
      ((key "d" :: digitKeys n ++ [key "j"]).foldl handleKey s).cursor =
        ⟨s.cursor.line, 0⟩ ∧
      ((deletions (n + 1)).foldl handleKey s).cursor =
        ⟨max 0 (min s.cursor.line (s.buffer.length - n - 2)), s.cursor.col⟩ := by
  obtain ⟨before, line, after, hat⟩ := hs.exists_at
  have hlength := hat.length_eq
  have hline := hat.line_eq
  have hrepeated := delete_lines (n := n) (line :: after) (by simp; omega) hmode
    hat.elems_eq hline hat.col_nonneg
  have hcounted := hat.delete_down hmode hn (by omega)
  have hlast : max 0
      (min (before.length : ℤ) (before.length + (line :: after).length - (n + 1) - 1)) =
      max 0 (min (before.length : ℤ) (before.length + 1 + after.length - n - 2)) := by
    rw [List.length_cons]
    omega
  rw [hrepeated, hcounted, List.drop_succ_cons, hline, hlength, hlast]
  exact ⟨rfl, rfl, rfl⟩

theorem deletions_agree_two :
    ((deletions 2).foldl handleKey (run (lit "a\nb\nc") [key "j"])).buffer =
        ((key "d" :: digitKeys 1 ++ [key "j"]).foldl handleKey
          (run (lit "a\nb\nc") [key "j"])).buffer ∧
      ((key "d" :: digitKeys 1 ++ [key "j"]).foldl handleKey
        (run (lit "a\nb\nc") [key "j"])).cursor = ⟨1, 0⟩ ∧
      ((deletions 2).foldl handleKey (run (lit "a\nb\nc") [key "j"])).cursor = ⟨0, 0⟩ :=
  deletions_agree (s := run (lit "a\nb\nc") [key "j"]) (n := 1)
    ⟨by decide, by decide, by decide⟩ (by decide) (by decide) (by decide)

/-! ## From one text to another -/

theorem State.At.delete_line_inside {s : State} {before after : List JsString} {line : JsString}
    (h : s.At before line after) (hmode : s.mode = .command) (hmore : before ++ after ≠ []) :
    ([key "d", key "d"].foldl handleKey s).Inside ∧
      ([key "d", key "d"].foldl handleKey s).buffer.length + 1 = s.buffer.length ∧
      ([key "d", key "d"].foldl handleKey s).mode = .command := by
  have hpos := List.length_pos_iff.mpr hmore
  have hlength := h.length_eq
  rw [List.length_append] at hpos
  rw [h.delete_line hmode]
  refine ⟨⟨le_max_left _ _, ?_, h.col_nonneg⟩, ?_, rfl⟩
  · simp only [JsArray.length, List.length_append]
    omega
  · simp only [JsArray.length, List.length_append] at hlength ⊢
    omega

theorem delete_to_one {n : ℕ} {s : State} (hs : s.Inside) (hmode : s.mode = .command)
    (hlength : s.buffer.length = n + 1) :
    ((deletions n).foldl handleKey s).Inside ∧ ((deletions n).foldl handleKey s).mode = .command ∧
      ((deletions n).foldl handleKey s).buffer.length = 1 := by
  induction n generalizing s with
  | zero => exact ⟨hs, hmode, hlength⟩
  | succ n ih =>
      obtain ⟨before, line, after, hat⟩ := hs.exists_at
      have hmore : before ++ after ≠ [] := by
        apply List.ne_nil_of_length_pos
        have hall := hat.length_eq
        rw [List.length_append]
        omega
      obtain ⟨hinside, hfewer, hcommand⟩ := hat.delete_line_inside hmode hmore
      rw [deletions_succ, List.foldl_append]
      apply ih hinside hcommand
      omega

theorem correct_textKeys (text typed : JsString) :
    (textKeys text).foldlM correct typed = some (typed ++ text) := by
  induction text generalizing typed with
  | nil => simp [textKeys]
  | cons c text ih =>
      have hkey : correct typed (if c = newline then key "<CR>" else Key.char c) =
          some (typed ++ [c]) := by
        unfold correct
        by_cases hc : c = newline
        · subst hc
          rw [if_pos rfl]
          exact (if_neg (by decide)).trans (if_pos rfl)
        · have hne (name : JsString) (hname : name.length ≠ 1) : ¬ (Key.char c).text = name := by
            rintro rfl
            exact hname rfl
          rw [if_neg hc, if_neg (hne Keys.BS (by decide)), if_neg (hne Keys.CR (by decide))]
          rfl
      rw [textKeys, List.map_cons, List.foldlM_cons, hkey]
      simpa [textKeys] using ih (typed ++ [c])

theorem escape_notMem_textKeys {text : JsString} {key : Key} (h : key ∈ textKeys text) :
    key.text ≠ Keys.ESC := by
  obtain ⟨c, -, rfl⟩ := List.mem_map.mp h
  split_ifs with hc
  · decide
  · intro heq
    have hlength : 1 = Keys.ESC.length := congrArg List.length heq
    exact absurd hlength (by decide)

theorem State.At.change_line {s : State} {before after : List JsString} {line : JsString}
    (h : s.At before line after) (hmode : s.mode = .command) :
    [key "c", key "c"].foldl handleKey s =
      { cursor := ⟨before.length, s.cursor.col⟩
        buffer := ⟨before ++ [] :: after, []⟩
        mode := .insert
        repeatNumber := some 0 } := by
  have hchange : State.At { s with mode := .change, repeatNumber := some 0 } before line after :=
    ⟨h.elems_eq, h.line_eq, h.col_nonneg⟩
  have hdecode : decode .change (key "c") = some .changeLine := rfl
  have hkey := handleKey_of_perform (s := { s with mode := .change, repeatNumber := some 0 })
    hdecode hchange.changeCurrentLine_eq
  rw [List.foldl_cons, List.foldl_cons, List.foldl_nil, handleKey_c hmode, hkey]

/-- From every command-mode state inside the buffer, every text can be reached. -/
theorem every_text_reachable {s : State} (hs : s.Inside) (hmode : s.mode = .command)
    (text : JsString) :
    ((rewriteKeys s.buffer.elems.length text).foldl handleKey s).text = text ∧
      ((rewriteKeys s.buffer.elems.length text).foldl handleKey s).mode = .command ∧
      ((rewriteKeys s.buffer.elems.length text).foldl handleKey s).Inside := by
  obtain ⟨n, hn⟩ : ∃ n, s.buffer.elems.length = n + 1 :=
    Nat.exists_eq_succ_of_ne_zero (mt List.length_eq_zero_iff.mp hs.elems_ne_nil)
  have hcount : s.buffer.length = n + 1 := by
    rw [JsArray.length, hn]
    rfl
  obtain ⟨hinside, hcommand, hone⟩ := delete_to_one hs hmode hcount
  obtain ⟨before, line, after, hat⟩ := hinside.exists_at
  have hlength := hat.length_eq
  obtain rfl : before = [] := List.length_eq_zero_iff.mp (by omega)
  obtain rfl : after = [] := List.length_eq_zero_iff.mp (by omega)
  let blank : Lines.Flat CodeUnit := ⟨[], 0⟩
  have hstart : Represents ([key "c", key "c"].foldl handleKey ((deletions n).foldl handleKey s))
      (blank.insert []) := by
    have hchanged := hat.change_line hcommand
    have hblank : State.At ([key "c", key "c"].foldl handleKey ((deletions n).foldl handleKey s))
        [] [] [] := by
      rw [hchanged]
      exact ⟨rfl, rfl, hat.col_nonneg⟩
    refine ⟨hblank.inside, by rw [hchanged], hblank.flat_eq.trans ?_⟩
    rw [List.take_nil, List.drop_nil]
    rfl
  obtain ⟨hstill, hinsert, hflat⟩ := represents_corrected (le_refl 0)
    (fun key hkey ↦ escape_notMem_textKeys hkey) hstart (correct_textKeys text [])
  have htext := congrArg Lines.Flat.text hflat
  rw [Lines.Flat.insert, List.take_nil, List.drop_nil, List.append_nil] at htext
  rw [hn, rewriteKeys_eq, Nat.add_sub_cancel, List.foldl_append, List.foldl_append,
    List.foldl_append, List.foldl_cons, List.foldl_nil, handleKey_escape hinsert]
  exact ⟨htext, rfl, hstill.line_nonneg, hstill.line_lt, hstill.col_nonneg⟩

theorem every_text_reachable_two :
    ((rewriteKeys 2 (lit "x\ny")).foldl handleKey (run (lit "a\nb") [key "j"])).text =
        lit "x\ny" ∧
      ((rewriteKeys 2 (lit "x\ny")).foldl handleKey (run (lit "a\nb") [key "j"])).mode =
        .command ∧
      ((rewriteKeys 2 (lit "x\ny")).foldl handleKey (run (lit "a\nb") [key "j"])).Inside :=
  every_text_reachable (s := run (lit "a\nb") [key "j"]) ⟨by decide, by decide, by decide⟩
    (by decide) (lit "x\ny")

end CoffeeTable.Editor

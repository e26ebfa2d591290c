import CoffeeTable.Editor.Operator
import CoffeeTable.Editor.Render

/-!
# Keeping the cursor inside the buffer

As long as the cursor line is a line of the buffer, every action succeeds, and
all but three kinds of action keep it so. The exceptions are backspace at the
start of the text, deleting the only line, and an operator whose motion goes to
another line and takes the last line along. After one of these the next
sideways movement in command mode throws.
-/

namespace CoffeeTable.Editor

open Ecma

/-- The cursor is on no line, in one of the modes that an editing action leads to. -/
structure State.Strayed (s : State) : Prop where
  get?_eq : s.buffer.get? s.cursor.line = none
  mode : s.mode = .command ∨ s.mode = .insert

def Motion.TakesLastLine (s : State) (count : ℤ) (motion : Motion) : Prop :=
  ∃ target, motion.targetLine s count = some target ∧ s.cursor.line ≠ target ∧
    max s.cursor.line target = s.buffer.length - 1

namespace State

variable {s t : State} {before after : List JsString} {line : JsString}

theorem Strayed.not_inside (h : s.Strayed) : ¬ s.Inside := by
  intro hinside
  obtain ⟨line, hget⟩ := JsArray.exists_get?_eq_some hinside.line_nonneg hinside.line_lt
  rw [h.get?_eq] at hget
  cases hget

theorem At.resetCount (h : s.At before line after) : (resetCount s).At before line after :=
  ⟨h.elems_eq, h.line_eq, h.col_nonneg⟩

theorem Inside.resetCount (h : s.Inside) : (resetCount s).Inside :=
  ⟨h.line_nonneg, h.line_lt, h.col_nonneg⟩

theorem Inside.exists_normalize (h : s.Inside) :
    ∃ n, normalizeCursor s {} = .ok n ∧ n.Inside := by
  obtain ⟨before, line, after, hat⟩ := h.exists_at
  exact ⟨_, hat.normalize_eq true, At.inside ⟨hat.elems_eq, rfl, clampCol_nonneg _ _ _⟩⟩

theorem At.offset_eq (h : s.At before line after) (hmode : s.mode = .insert) :
    (s.offset : ℤ) =
      (Lines.above newline before).length + clampCol s.mode line.length s.cursor.col := by
  have hflat := congrArg Lines.Flat.offset h.flat_eq
  rw [hmode, clampCol_insert _ h.col_nonneg]
  simp only [Lines.Flat.ofLines, List.length_take] at hflat
  rw [hflat]
  push_cast
  rfl

theorem At.offset_eq_zero_iff (h : s.At before line after) (hmode : s.mode = .insert) :
    s.offset = 0 ↔ before = [] ∧ clampCol s.mode line.length s.cursor.col = 0 := by
  have hoffset := h.offset_eq hmode
  have hnonneg := clampCol_nonneg s.mode line.length s.cursor.col
  have habove : before = [] ↔ (Lines.above newline before).length = 0 := by
    cases before with
    | nil => simp
    | cons first before => simp [Lines.above]
  rw [habove]
  omega

end State

/-! ## The actions that can lead out -/

theorem backspace_of_inside {s : State} (hs : s.Inside) (hmode : s.mode = .insert) :
    ∃ t, deleteCharsAtCursor (-1) s = .ok t ∧
      ((s.offset ≠ 0 ∧ t.Inside) ∨ (s.offset = 0 ∧ t.Strayed ∧ t.buffer.elems ≠ [])) := by
  obtain ⟨before, line, after, hat⟩ := hs.exists_at
  have hzero := hat.offset_eq_zero_iff hmode
  rcases hat.backspace_cases with ⟨col, hcol, heq⟩ | ⟨init, previous, hbefore, hcol, heq⟩ |
      ⟨hbefore, hcol, heq⟩
  · refine ⟨_, heq, Or.inl ⟨fun h ↦ ?_, ?_⟩⟩
    · have := (hzero.mp h).2
      omega
    · exact State.At.inside ⟨rfl, rfl, Int.natCast_nonneg col⟩
  · refine ⟨_, heq, Or.inl ⟨fun h ↦ ?_, ?_⟩⟩
    · simp [hbefore] at hzero
      exact hzero h
    · exact State.At.inside ⟨rfl, rfl, Int.natCast_nonneg _⟩
  · refine ⟨_, heq, Or.inr ⟨hzero.mpr ⟨hbefore, hcol⟩, ⟨?_, Or.inr hmode⟩, by simp⟩⟩
    exact JsArray.get?_clone_of_neg ⟨(line :: after).dropLast ++ [line], []⟩
      (show (-1 : ℤ) < 0 by decide)

theorem deleteCurrentLine_of_inside {s : State} (hs : s.Inside) :
    ∃ t, deleteCurrentLine s = .ok t ∧
      ((s.buffer.length ≠ 1 ∧ t.Inside) ∨
        (s.buffer.length = 1 ∧ t.Strayed ∧ t.buffer.elems = [])) := by
  obtain ⟨before, line, after, hat⟩ := hs.exists_at
  refine ⟨_, hat.deleteCurrentLine_eq, ?_⟩
  have hlength := hat.length_eq
  by_cases hone : s.buffer.length = 1
  · have hbefore : before = [] := List.length_eq_zero_iff.mp (by omega)
    have hafter : after = [] := List.length_eq_zero_iff.mp (by omega)
    subst hbefore hafter
    exact Or.inr ⟨hone, ⟨rfl, Or.inl rfl⟩, rfl⟩
  · refine Or.inl ⟨hone, le_max_left _ _, ?_, hat.col_nonneg⟩
    simp only [JsArray.length, List.length_append]
    omega

theorem deleteTo_of_inside_cases {motion : Motion} (hproper : motion.Proper) {s : State}
    (hs : s.Inside) (hmode : s.mode ≠ .insert) (count : ℤ) (actualCount : Option ℤ) :
    ∃ t, (Command.deleteTo motion).run s (some count) actualCount = .ok t ∧
      ((¬ motion.TakesLastLine s count ∧ t.Inside) ∨
        ∃ target, motion.targetLine s count = some target ∧ s.cursor.line ≠ target ∧
          max s.cursor.line target = s.buffer.length - 1 ∧ t.Strayed ∧
          (t.buffer.elems = [] ↔ min s.cursor.line target = 0)) := by
  obtain ⟨t, ht⟩ := deleteTo_of_inside hproper hs count actualCount
  refine ⟨t, ht, ?_⟩
  have hlt := hs.line_lt
  have hnonneg := hs.line_nonneg
  rcases deleteTo_eq_ok hproper hs.inRange ht with ⟨hstay, before, line, after, hcut⟩ |
      ⟨target, htarget, hcuts⟩
  · refine Or.inl ⟨?_, hcut.inside⟩
    rintro ⟨target, htarget, hne, -⟩
    exact hne (hstay target htarget).symm
  · have hbounds := targetLine_lt hmode (by omega) htarget
    have hlength := hcuts.length_eq hs hbounds.1 hbounds.2
    by_cases hlast : max s.cursor.line target = s.buffer.length - 1
    · refine Or.inr ⟨target, htarget, hcuts.ne, hlast, ⟨?_, Or.inl hcuts.mode_eq⟩, ?_⟩
      · rw [hcuts.line_eq]
        apply JsArray.get?_eq_none_of_length_le <;> omega
      · rw [← List.length_eq_zero_iff]
        simp only [JsArray.length] at *
        omega
    · refine Or.inl ⟨?_, ?_, ?_, ?_⟩
      · rintro ⟨other, hother, -, hmax⟩
        obtain rfl := Option.some.inj (hother.symm.trans htarget)
        exact hlast hmax
      · rw [hcuts.line_eq]
        omega
      · rw [hcuts.line_eq]
        omega
      · rw [hcuts.eq]

/-! ## One key -/

/-- The commands that lead out of the buffer. -/
def Command.LeavesBuffer (s : State) : Command → Prop
  | .backspace => s.offset = 0
  | .deleteLine => s.buffer.length = 1
  | .deleteTo motion => motion.TakesLastLine s s.pendingCount
  | .changeTo motion => motion.TakesLastLine s s.pendingCount
  | _ => False

/-- The commands that lead out of a buffer that they do not empty. -/
def Command.LosesCursor (s : State) : Command → Prop
  | .backspace => s.buffer.elems ≠ [] ∧ s.offset = 0
  | .deleteTo motion => motion.TakesLastLine s s.pendingCount ∧
      ∀ target, s.targetLine motion = some target → 0 < min s.cursor.line target
  | .changeTo motion => motion.TakesLastLine s s.pendingCount ∧
      ∀ target, s.targetLine motion = some target → 0 < min s.cursor.line target
  | .openLine .after => s.buffer.elems = [] ∧ s.cursor.line = 0
  | .openLine .before => s.buffer.elems = [] ∧ s.cursor.line = -1
  | _ => False

def Command.Outcome (s : State) (command : Command) (t : State) : Prop :=
  (¬ command.LeavesBuffer s ∧ t.Inside) ∨
    (command.LeavesBuffer s ∧ t.Strayed ∧ (t.buffer.elems = [] ↔ ¬ command.LosesCursor s))

theorem deleteTo_outcome {s : State} (hs : s.Inside) (hcounted : s.Counted)
    (hmode : s.mode ≠ .insert) {motion : Motion} (hproper : motion.Proper) :
    ∃ t, s.perform (.deleteTo motion) = .ok t ∧ (Command.deleteTo motion).Outcome s t := by
  obtain ⟨t, ht, houtcome⟩ :=
    deleteTo_of_inside_cases hproper hs.resetCount hmode s.pendingCount s.repeatNumber
  refine ⟨t, by rw [State.perform, hcounted.effectiveCount_eq hmode]; exact ht, ?_⟩
  simp only [Motion.TakesLastLine, targetLine_resetCount, resetCount_cursor,
    resetCount_buffer] at houtcome
  rcases houtcome with ⟨hkeeps, hinside⟩ | ⟨target, htarget, hne, hlast, hstrayed, hempty⟩
  · exact Or.inl ⟨hkeeps, hinside⟩
  · have hleaves : motion.TakesLastLine s s.pendingCount := ⟨target, htarget, hne, hlast⟩
    refine Or.inr ⟨hleaves, hstrayed, ?_⟩
    have hnonneg := hs.line_nonneg
    have hlt := hs.line_lt
    have hbounds := targetLine_lt hmode (by omega) htarget
    rw [hempty]
    constructor
    · rintro hmin ⟨-, hpos⟩
      have := hpos target htarget
      omega
    · intro hkeeps
      by_contra hmin
      refine hkeeps ⟨hleaves, fun other hother ↦ ?_⟩
      obtain rfl := Option.some.inj (hother.symm.trans htarget)
      omega

/-- Inside the buffer every key that has a command carries it out. -/
theorem perform_of_inside {s : State} (hs : s.Inside) (hcounted : s.Counted) {key : Key}
    {command : Command} (hdecode : decode s.mode key = some command) :
    ∃ t, s.perform command = .ok t ∧ command.Outcome s t := by
  obtain ⟨before, line, after, hat⟩ := hs.exists_at
  have hproper := proper_of_decode hdecode
  have hreset := hat.resetCount
  cases command with
  | execBox => exact ⟨_, rfl, Or.inl ⟨id, hs.resetCount⟩⟩
  | insert location =>
      have hcol : 0 ≤ (Editor.insert location (resetCount s)).cursor.col := by
        have := hs.col_nonneg
        cases location <;> simp [Editor.insert, makeState] <;> omega
      refine ⟨_, rfl, Or.inl ⟨id, ?_, ?_, hcol⟩⟩
      · cases location <;> exact hs.line_nonneg
      · cases location <;> exact hs.line_lt
  | openLine location =>
      cases location with
      | before =>
          refine ⟨_, congrArg Except.ok hreset.insertLine_before, Or.inl ⟨id, ?_⟩⟩
          exact State.At.inside ⟨rfl, rfl, le_refl 0⟩
      | after =>
          refine ⟨_, congrArg Except.ok hreset.insertLine_after, Or.inl ⟨id, ?_⟩⟩
          exact (show State.At _ (before ++ [line]) [] after from
            ⟨by simp, by simp, le_refl 0⟩).inside
  | enter mode =>
      exact ⟨_, rfl, Or.inl ⟨id, hs.line_nonneg, hs.line_lt, hs.col_nonneg⟩⟩
  | move motion =>
      have hmode := mode_ne_insert_of_decode hdecode (by simp) id
      obtain ⟨cursor, hcursor⟩ := movement_of_inside hproper hs.resetCount s.pendingCount
      obtain ⟨hline, hlt, hcol⟩ := movement_inside hproper hs.resetCount hmode hcursor
      refine ⟨makeState (resetCount s) { line := cursor.line, col := cursor.col }, ?_,
        Or.inl ⟨id, hline, hlt, hcol⟩⟩
      rw [State.perform, hcounted.effectiveCount_eq hmode, Command.run, hcursor]
      rfl
  | digit number =>
      have hmode := mode_ne_insert_of_decode hdecode (by simp) id
      obtain ⟨n, hn⟩ := hcounted hmode
      refine ⟨makeState (resetCount s) { repeatNumber := some ((n : ℤ) * 10 + number) }, ?_,
        Or.inl ⟨id, hs.line_nonneg, hs.line_lt, hs.col_nonneg⟩⟩
      rw [State.perform, Command.run, hn]
      rfl
  | backspace =>
      have hmode := mode_of_decode_typing hdecode trivial
      obtain ⟨t, ht, ⟨hne, hinside⟩ | ⟨hzero, hstrayed, hne⟩⟩ :=
        backspace_of_inside hs.resetCount hmode
      · exact ⟨t, ht, Or.inl ⟨hne, hinside⟩⟩
      · refine ⟨t, ht, Or.inr ⟨hzero, hstrayed, fun h ↦ (hne h).elim, fun h ↦ ?_⟩⟩
        exact (h ⟨hs.elems_ne_nil, hzero⟩).elim
  | breakLine =>
      refine ⟨_, hreset.breakLineAtCursor_eq, Or.inl ⟨id, ?_, ?_, le_refl 0⟩⟩
      · exact Int.le_add_one (Int.natCast_nonneg _)
      · simp [JsArray.length]
  | type string =>
      refine ⟨_, hreset.insertStringAtCursor_eq string, Or.inl ⟨id, ?_⟩⟩
      have hcol := clampCol_nonneg s.mode line.length s.cursor.col
      refine State.At.inside ⟨rfl, rfl, ?_⟩
      simp only [resetCount_mode, resetCount_cursor]
      omega
  | deleteLine =>
      obtain ⟨t, ht, ⟨hne, hinside⟩ | ⟨hone, hstrayed, hempty⟩⟩ :=
        deleteCurrentLine_of_inside hs.resetCount
      · exact ⟨t, ht, Or.inl ⟨hne, hinside⟩⟩
      · exact ⟨t, ht, Or.inr ⟨hone, hstrayed, fun _ h ↦ h, fun _ ↦ hempty⟩⟩
  | deleteTo motion =>
      have hmode := mode_ne_insert_of_decode hdecode (by simp) id
      exact deleteTo_outcome hs hcounted hmode hproper
  | changeLine =>
      refine ⟨_, hreset.changeCurrentLine_eq, Or.inl ⟨id, ?_⟩⟩
      exact State.At.inside ⟨rfl, rfl, hs.col_nonneg⟩
  | changeTo motion =>
      have hmode := mode_ne_insert_of_decode hdecode (by simp) id
      obtain ⟨t, ht, houtcome⟩ := deleteTo_outcome hs hcounted hmode hproper
      refine ⟨enterMode .insert t, ?_, ?_⟩
      · rw [State.perform, changeTo_run, ← State.perform, ht, map_ok]
      · rcases houtcome with ⟨hkeeps, hinside⟩ | ⟨hleaves, hstrayed, hempty⟩
        · exact Or.inl ⟨hkeeps, hinside.line_nonneg, hinside.line_lt, hinside.col_nonneg⟩
        · exact Or.inr ⟨hleaves, ⟨hstrayed.get?_eq, Or.inr rfl⟩, hempty⟩
  | top =>
      have hstart : (makeState (resetCount s) { line := (0 : ℤ) }).Inside :=
        ⟨le_refl 0, hs.line_nonneg.trans_lt hs.line_lt, hs.col_nonneg⟩
      obtain ⟨n, hnormal, hinside⟩ := hstart.exists_normalize
      refine ⟨enterMode .command n, ?_,
        Or.inl ⟨id, hinside.line_nonneg, hinside.line_lt, hinside.col_nonneg⟩⟩
      rw [State.perform, Command.run, gotoLine_int, hnormal, map_ok]

end CoffeeTable.Editor

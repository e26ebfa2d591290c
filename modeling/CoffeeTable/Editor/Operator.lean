import CoffeeTable.Editor.Range

/-!
# Operators with a motion

In delete and change mode a motion deletes up to its target. A motion that
stays on the cursor line cuts a piece out of that line. A motion to another
line removes every line from the one to the other and puts the cursor on the
upper line number, which no later clamp corrects. The change operator does the
same and enters insert mode. The last section shows that the only exception a
run can meet is a missing line.
-/

namespace CoffeeTable.Editor

open Ecma Transition

def State.pendingCount (s : State) : ℤ := (effectiveCount s.repeatNumber).getD 0

def State.targetLine (s : State) (motion : Motion) : Option ℤ :=
  motion.targetLine s s.pendingCount

theorem targetLine_resetCount (s : State) (count : ℤ) (motion : Motion) :
    motion.targetLine (resetCount s) count = motion.targetLine s count := by
  cases motion <;> rfl

/-- Outside insert mode the count is a natural number. -/
def State.Counted (s : State) : Prop :=
  s.mode ≠ .insert → ∃ n : ℕ, s.repeatNumber = some (n : ℤ)

namespace State.Counted

variable {s : State}

theorem of_counts {typed : List ℕ} (h : Counts s typed) : s.Counted :=
  fun hmode ↦ ⟨decimalValue typed, h hmode⟩

theorem handleKey (h : s.Counted) (key : Key) : (handleKey s key).Counted := by
  by_cases hmode : s.mode = .insert
  · have hcounts : Counts s [] := fun hne ↦ (hne hmode).elim
    exact of_counts (hcounts.handleKey key)
  · obtain ⟨n, hn⟩ := h hmode
    have hcounts : Counts s [n] := fun _ ↦ by rw [hn]; simp [decimalValue]
    exact of_counts (hcounts.handleKey key)

theorem effectiveCount_eq (h : s.Counted) (hmode : s.mode ≠ .insert) :
    effectiveCount s.repeatNumber = some s.pendingCount := by
  obtain ⟨n, hn⟩ := h hmode
  rw [State.pendingCount, hn, effectiveCount_natCast, Option.getD_some]

end State.Counted

/-- The invariant of every run, whatever the keys. -/
def State.Regular (s : State) : Prop := s.Counted ∧ s.InRange

theorem State.Regular.handleKey {s : State} (h : s.Regular) (key : Key) :
    (handleKey s key).Regular := ⟨h.1.handleKey key, h.2.handleKey key⟩

theorem regular_startEditing (content : JsString) : (startEditing content).Regular :=
  ⟨fun _ ↦ ⟨0, rfl⟩, (startEditing_inside content).inRange⟩

theorem mode_ne_insert_of_decode {mode : Mode} {key : Key} {command : Command}
    (h : decode mode key = some command) (henter : command ≠ .enter .command)
    (htyping : ¬ command.Typing) : mode ≠ .insert := by
  rintro rfl
  rcases decode_insert h with ⟨-, heq⟩ | htrue
  · exact henter heq
  · exact htyping htrue

theorem changeTo_run (motion : Motion) (s : State) (count actualCount : Option ℤ) :
    (Command.changeTo motion).run s count actualCount =
      ((Command.deleteTo motion).run s count actualCount).map (enterMode .insert) := by
  simp only [Command.run, changeToCursor]
  cases motion.movement s count with
  | error fault => rfl
  | ok cursor =>
      simp only [ok_bind]
      cases deleteToCursor s cursor <;> rfl

/-! ## What a deletion leaves behind -/

structure CutsLine (s t : State) (before : List JsString) (line : JsString)
    (after : List JsString) : Prop where
  start : s.At before line after
  mode_eq : t.mode = .command
  finish : ∃ rest, t.At before rest after ∧ ∀ c ∈ rest, c ∈ line

/-- The state after removing the lines between the cursor and another line. -/
structure CutsLines (s t : State) (target : ℤ) : Prop where
  ne : s.cursor.line ≠ target
  eq : t =
    { s with
      cursor := ⟨min s.cursor.line target, 0⟩
      buffer := s.buffer.clone.splice (min s.cursor.line target)
        (max s.cursor.line target - min s.cursor.line target + 1) []
      mode := .command }

theorem cutsLine_of_deleteToCursor {s t : State} (hs : s.InRange) {target : Cursor}
    (hcol : 0 ≤ target.col) (h : deleteToCursor s target = .ok t)
    (hline : s.cursor.line = target.line) :
    ∃ before line after, CutsLine s t before line after := by
  rcases hs.inside_or with hinside | ⟨hnone, -⟩
  · obtain ⟨before, line, after, hat⟩ := hinside.exists_at
    have htarget : target = ⟨s.cursor.line, target.col⟩ := by rw [hline]
    rw [htarget, hat.deleteToCursor_same] at h
    cases h
    refine ⟨before, line, after, hat, rfl, _, ⟨rfl, rfl, le_min hs.col_nonneg hcol⟩, ?_⟩
    intro c hc
    rcases List.mem_append.mp hc with hc | hc
    · exact mem_of_mem_sliceTo hc
    · exact mem_of_mem_sliceFrom hc
  · rw [deleteToCursor_of_none hline hnone] at h
    cases h

theorem cutsLines_of_deleteToCursor {s t : State} {target : Cursor}
    (hline : s.cursor.line ≠ target.line) (h : deleteToCursor s target = .ok t) :
    CutsLines s t target.line := by
  rw [deleteToCursor_of_ne hline] at h
  exact ⟨hline, (Except.ok.inj h).symm⟩

/-- A successful deletion is a cut inside the line or removes whole lines, the
latter exactly when the motion aims at another line. -/
theorem deleteTo_eq_ok {motion : Motion} (hproper : motion.Proper) {s t : State}
    (hs : s.InRange) {count : ℤ} {actualCount : Option ℤ}
    (h : (Command.deleteTo motion).run s (some count) actualCount = .ok t) :
    ((∀ target, motion.targetLine s count = some target → target = s.cursor.line) ∧
        ∃ before line after, CutsLine s t before line after) ∨
      ∃ target, motion.targetLine s count = some target ∧ CutsLines s t target := by
  obtain ⟨cursor, hcursor, h⟩ := bind_eq_ok.mp h
  have hcol := (movement_inRange hproper hs hcursor).2.2
  rcases Motion.movement_eq_ok hproper hcursor with ⟨cols, line, n, rfl, -, -, rfl⟩ |
      ⟨n, hn, htarget, -⟩
  · have hcut := cutsLine_of_deleteToCursor hs hcol h rfl
    exact Or.inl ⟨fun target htarget ↦ by simp [Motion.targetLine] at htarget, hcut⟩
  · obtain rfl := hn count rfl
    by_cases hline : s.cursor.line = cursor.line
    · refine Or.inl ⟨fun target heq ↦ ?_, cutsLine_of_deleteToCursor hs hcol h hline⟩
      rw [hline]
      exact Option.some.inj (heq.symm.trans htarget)
    · exact Or.inr ⟨cursor.line, htarget, cutsLines_of_deleteToCursor hline h⟩

theorem targetLine_lt {motion : Motion} {s : State} {count target : ℤ} (hmode : s.mode ≠ .insert)
    (hne : 0 < s.buffer.length) (h : motion.targetLine s count = some target) :
    0 ≤ target ∧ target < s.buffer.length := by
  cases motion with
  | columns cols => simp [Motion.targetLine] at h
  | rows lines =>
      cases h
      exact ⟨clampLine_nonneg _ _, clampLine_lt hmode hne⟩
  | endOfFile =>
      cases h
      omega

theorem movement_of_inside {motion : Motion} (hproper : motion.Proper) {s : State}
    (hs : s.Inside) (count : ℤ) : ∃ cursor, motion.movement s (some count) = .ok cursor := by
  cases motion with
  | columns cols =>
      obtain ⟨line, hget⟩ := JsArray.exists_get?_eq_some hs.line_nonneg hs.line_lt
      exact ⟨_, Motion.moveCursor_columns hproper.cols_ne_zero hget count⟩
  | rows lines => exact ⟨_, Motion.moveCursor_rows hproper s count⟩
  | endOfFile => exact ⟨_, rfl⟩

theorem movement_inside {motion : Motion} (hproper : motion.Proper) {s : State} (hs : s.Inside)
    (hmode : s.mode ≠ .insert) {count : Option ℤ} {cursor : Cursor}
    (h : motion.movement s count = .ok cursor) :
    0 ≤ cursor.line ∧ cursor.line < s.buffer.length ∧ 0 ≤ cursor.col := by
  have hnonneg := hs.line_nonneg
  have hlt := hs.line_lt
  rcases Motion.movement_eq_ok hproper h with ⟨cols, line, n, -, -, -, rfl⟩ |
      ⟨n, -, htarget, hcol⟩
  · exact ⟨hnonneg, hlt, clampCol_nonneg _ _ _⟩
  · have hbounds := targetLine_lt hmode (by omega) htarget
    exact ⟨hbounds.1, hbounds.2, hcol ▸ hs.col_nonneg⟩

theorem deleteToCursor_of_inside {s : State} (hs : s.Inside) (target : Cursor) :
    ∃ t, deleteToCursor s target = .ok t := by
  obtain ⟨targetLine, col⟩ := target
  by_cases hline : s.cursor.line = targetLine
  · obtain ⟨before, line, after, hat⟩ := hs.exists_at
    subst hline
    exact ⟨_, hat.deleteToCursor_same col⟩
  · exact ⟨_, deleteToCursor_of_ne hline⟩

theorem deleteTo_of_inside {motion : Motion} (hproper : motion.Proper) {s : State}
    (hs : s.Inside) (count : ℤ) (actualCount : Option ℤ) :
    ∃ t, (Command.deleteTo motion).run s (some count) actualCount = .ok t := by
  obtain ⟨cursor, hcursor⟩ := movement_of_inside hproper hs count
  obtain ⟨t, ht⟩ := deleteToCursor_of_inside hs cursor
  exact ⟨t, by simp only [Command.run, hcursor, ok_bind, ht]⟩

namespace CutsLine

variable {s t : State} {before after : List JsString} {line : JsString}

theorem inside (h : CutsLine s t before line after) : t.Inside := by
  obtain ⟨rest, hrest, -⟩ := h.finish
  exact hrest.inside

end CutsLine

namespace CutsLines

variable {s t : State} {target : ℤ}

theorem line_eq (h : CutsLines s t target) : t.cursor.line = min s.cursor.line target := by
  rw [h.eq]

theorem mode_eq (h : CutsLines s t target) : t.mode = .command := by
  rw [h.eq]

theorem length_eq (h : CutsLines s t target) (hs : s.Inside) (hlow : 0 ≤ target)
    (hlt : target < s.buffer.length) :
    t.buffer.length + (max s.cursor.line target - min s.cursor.line target + 1) =
      s.buffer.length := by
  have hnonneg := hs.line_nonneg
  have hline := hs.line_lt
  have hlength := length_splice s.buffer.elems ([] : List JsString) (min s.cursor.line target)
    (max s.cursor.line target - min s.cursor.line target + 1)
  rw [relativeIndex_of_nonneg (le_min hnonneg hlow), List.length_nil] at hlength
  rw [h.eq]
  simp only [JsArray.length, JsArray.elems_splice, JsArray.elems_clone] at hline hlt ⊢
  omega

end CutsLines

/-! ## The only exception -/

theorem normalizeCursor_eq_error {s : State} {options : NormalizeOptions} {fault : Fault}
    (h : normalizeCursor s options = .error fault) : fault = .missingLine := by
  obtain ⟨normalizeLine, normalizeCol⟩ := options
  cases normalizeCol with
  | false =>
      rw [normalizeCursor_line] at h
      cases h
  | true =>
      cases hget : s.buffer.get?
          (if normalizeLine then clampLine s s.cursor.line else s.cursor.line) with
      | none =>
          rw [normalizeCursor_of_get?_eq_none hget] at h
          exact (Except.error.inj h).symm
      | some current =>
          rw [normalizeCursor_of_get? rfl hget] at h
          cases h

theorem movement_eq_error {motion : Motion} (hproper : motion.Proper) {s : State} {count : ℤ}
    {fault : Fault} (h : motion.movement s (some count) = .error fault) :
    fault = .missingLine := by
  cases motion with
  | columns cols =>
      rw [Motion.movement] at h
      cases hget : s.buffer.get? s.cursor.line with
      | none =>
          rw [Motion.moveCursor_columns_of_none hproper.cols_ne_zero hget] at h
          exact (Except.error.inj h).symm
      | some line =>
          rw [Motion.moveCursor_columns hproper.cols_ne_zero hget] at h
          cases h
  | rows lines =>
      rw [Motion.movement, Motion.moveCursor_rows hproper] at h
      cases h
  | endOfFile => cases h

theorem deleteTo_eq_error {motion : Motion} (hproper : motion.Proper) {s : State}
    (hs : s.InRange) {count : ℤ} {actualCount : Option ℤ} {fault : Fault}
    (h : (Command.deleteTo motion).run s (some count) actualCount = .error fault) :
    fault = .missingLine := by
  rcases hs.inside_or with hinside | ⟨hnone, -⟩
  · obtain ⟨t, ht⟩ := deleteTo_of_inside hproper hinside count actualCount
    rw [ht] at h
    cases h
  · rcases bind_eq_error.mp h with hmove | ⟨cursor, -, h⟩
    · exact movement_eq_error hproper hmove
    · by_cases hline : s.cursor.line = cursor.line
      · rw [deleteToCursor_of_none hline hnone] at h
        exact (Except.error.inj h).symm
      · rw [deleteToCursor_of_ne hline] at h
        cases h

theorem typing_eq_error {command : Command} (htyping : command.Typing) {s : State}
    {count actualCount : Option ℤ} {fault : Fault}
    (h : command.run s count actualCount = .error fault) : fault = .missingLine := by
  cases hnormal : normalizeCursor s {} with
  | error other =>
      obtain rfl := normalizeCursor_eq_error hnormal
      cases command <;> try exact htyping.elim
      · rw [Command.run, deleteCharsAtCursor_of_error (by decide) hnormal] at h
        exact (Except.error.inj h).symm
      · rw [Command.run, breakLineAtCursor_of_error hnormal] at h
        exact (Except.error.inj h).symm
      · rw [Command.run, insertStringAtCursor_of_error _ hnormal] at h
        exact (Except.error.inj h).symm
  | ok n =>
      exfalso
      obtain ⟨before, line, after, hat, -⟩ := exists_at_of_normalizeCursor hnormal
      cases command <;> try exact htyping.elim
      · rw [Command.run, deleteCharsAtCursor_normalize (by decide) hnormal] at h
        rcases hat.backspace_cases with ⟨col, -, heq⟩ | ⟨init, previous, -, -, heq⟩ |
            ⟨-, -, heq⟩ <;>
          cases heq.symm.trans h
      · rw [Command.run, breakLineAtCursor_normalize hnormal, hat.breakLineAtCursor_eq] at h
        cases h
      · rw [Command.run, insertStringAtCursor_normalize _ hnormal,
          hat.insertStringAtCursor_eq] at h
        cases h

theorem changeCurrentLine_ne_error {s : State} (hs : s.InRange) {fault : Fault} :
    changeCurrentLine s ≠ .error fault := by
  obtain ⟨buffer, hbuffer⟩ : ∃ buffer, s.buffer.clone.set? s.cursor.line [] = some buffer := by
    apply JsArray.exists_set?_eq_some
    rw [JsArray.length_clone]
    exact hs.line_le
  intro h
  rw [changeCurrentLine, hbuffer, writeOf_some, ok_bind, normalizeCursor_line] at h
  cases h

/-- No count is ever missing where one is used, and no write leaves a hole: a
run can only meet the exception of a missing line. -/
theorem State.Regular.fault_eq {s : State} (hs : s.Regular) {key : Key} {fault : Fault}
    (h : press s key = some (.error fault)) : fault = .missingLine := by
  rw [press_eq, Option.map_eq_some_iff] at h
  obtain ⟨command, hdecode, h⟩ := h
  have hproper := proper_of_decode hdecode
  have hreset : (resetCount s).InRange := hs.2.congr rfl rfl
  cases command with
  | execBox => cases h
  | insert location => cases h
  | openLine location => cases h
  | enter mode => cases h
  | move motion =>
      have hmode := mode_ne_insert_of_decode hdecode (by simp) id
      rw [State.perform, hs.1.effectiveCount_eq hmode] at h
      rcases bind_eq_error.mp h with hmove | ⟨cursor, -, h⟩
      · exact movement_eq_error hproper hmove
      · cases h
  | digit number =>
      have hmode := mode_ne_insert_of_decode hdecode (by simp) id
      obtain ⟨n, hn⟩ := hs.1 hmode
      rw [State.perform, Command.run, hn] at h
      cases h
  | backspace => exact typing_eq_error (by trivial) h
  | breakLine => exact typing_eq_error (by trivial) h
  | type string => exact typing_eq_error (by trivial) h
  | deleteLine =>
      rw [State.perform, Command.run, deleteCurrentLine, normalizeCursor_line] at h
      cases h
  | deleteTo motion =>
      have hmode := mode_ne_insert_of_decode hdecode (by simp) id
      rw [State.perform, hs.1.effectiveCount_eq hmode] at h
      exact deleteTo_eq_error hproper hreset h
  | changeLine => exact (changeCurrentLine_ne_error hreset h).elim
  | changeTo motion =>
      have hmode := mode_ne_insert_of_decode hdecode (by simp) id
      rw [State.perform, hs.1.effectiveCount_eq hmode, changeTo_run] at h
      exact deleteTo_eq_error hproper hreset (map_eq_error.mp h)
  | top =>
      rw [State.perform, Command.run, gotoLine_int] at h
      exact normalizeCursor_eq_error (map_eq_error.mp h)

theorem along_fault_eq (content : JsString) (keys : List Key) :
    Along handleKey (fun s key ↦ ∀ fault, press s key = some (.error fault) →
      fault = .missingLine) (startEditing content) keys := by
  have hall : Throughout handleKey State.Regular (startEditing content) keys :=
    throughout_of_step (fun _ key hs ↦ hs.handleKey key) (regular_startEditing content) keys
  apply hall.along
  intro s key hs fault h
  exact hs.fault_eq h

end CoffeeTable.Editor

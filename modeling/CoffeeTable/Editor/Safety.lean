import CoffeeTable.Editor.Inside

/-!
# Runs that keep the cursor inside the buffer

Every run starts inside the buffer, so it can fail only after one of the keys
that lead out of it; and after any such key it can be made to fail. The cursor
is lost from a nonempty buffer by fewer keys, since some of the others empty
the buffer first; but then opening a line finds the cursor off by one.
-/

namespace CoffeeTable.Editor

open Ecma Transition

def LeavesBuffer (s : State) (key : Key) : Prop :=
  ∃ command, decode s.mode key = some command ∧ command.LeavesBuffer s

def LosesCursor (s : State) (key : Key) : Prop :=
  ∃ command, decode s.mode key = some command ∧ command.LosesCursor s

theorem not_fails_of_inside {s : State} (hs : s.Inside) (hcounted : s.Counted) (key : Key) :
    ¬ Fails s key := by
  rw [fails_iff]
  rintro ⟨command, fault, hdecode, herror⟩
  obtain ⟨t, ht, -⟩ := perform_of_inside hs hcounted hdecode
  rw [ht] at herror
  cases herror

theorem handleKey_inside {s : State} (hs : s.Inside) (hcounted : s.Counted) {key : Key}
    (hkeeps : ¬ LeavesBuffer s key) : (handleKey s key).Inside := by
  cases hdecode : decode s.mode key with
  | none =>
      rw [handleKey_eq, hdecode]
      exact hs
  | some command =>
      obtain ⟨t, ht, ⟨-, hinside⟩ | ⟨hleaves, -⟩⟩ := perform_of_inside hs hcounted hdecode
      · rwa [handleKey_of_perform hdecode ht]
      · exact (hkeeps ⟨command, hdecode, hleaves⟩).elim

theorem handleKey_strayed {s : State} (hs : s.Inside) (hcounted : s.Counted) {key : Key}
    (hleaves : LeavesBuffer s key) : (handleKey s key).Strayed := by
  obtain ⟨command, hdecode, hleaves⟩ := hleaves
  obtain ⟨t, ht, ⟨hkeeps, -⟩ | ⟨-, hstrayed, -⟩⟩ := perform_of_inside hs hcounted hdecode
  · exact (hkeeps hleaves).elim
  · rwa [handleKey_of_perform hdecode ht]

theorem fails_left {s : State} (hmode : s.mode = .command)
    (hget : s.buffer.get? s.cursor.line = none) : Fails s (key "h") := by
  rw [fails_iff]
  refine ⟨.move (.columns (-1)), .missingLine, by rw [hmode]; decide, ?_⟩
  have hreset : (resetCount s).buffer.get? (resetCount s).cursor.line = none := hget
  have hmove : moveCursor 0 (-1) (resetCount s) (effectiveCount s.repeatNumber) =
      .error .missingLine :=
    Motion.moveCursor_columns_of_none (show (-1 : ℤ) ≠ 0 by decide) hreset _
  simp only [State.perform, Command.run, Motion.movement, hmove, error_bind]

theorem State.Strayed.exists_fails {s : State} (h : s.Strayed) :
    ∃ more, ¬ Along handleKey (fun s key ↦ ¬ Fails s key) s more := by
  rcases h.mode with hcommand | hinsert
  · exact ⟨[key "h"], fun halong ↦ halong.1 (fails_left hcommand h.get?_eq)⟩
  · have hdecode : decode s.mode (key "<ESC>") = some (.enter .command) := by
      rw [hinsert]
      decide
    have hescape : handleKey s (key "<ESC>") = enterMode .command (resetCount s) :=
      handleKey_of_perform hdecode rfl
    refine ⟨[key "<ESC>", key "h"], fun halong ↦ halong.2.1 ?_⟩
    rw [hescape]
    exact fails_left rfl h.get?_eq

/-! ## No action fails -/

theorem inside_and_along {s : State} (hs : s.Inside) (hcounted : s.Counted) {keys : List Key}
    (h : Along handleKey (fun s key ↦ ¬ LeavesBuffer s key) s keys) :
    (keys.foldl handleKey s).Inside ∧ Along handleKey (fun s key ↦ ¬ Fails s key) s keys := by
  have hall : Throughout handleKey (fun s ↦ s.Inside ∧ s.Counted) s keys :=
    throughout_of_along (fun s key hs hkeeps ↦
      ⟨handleKey_inside hs.1 hs.2 hkeeps, hs.2.handleKey key⟩) ⟨hs, hcounted⟩ h
  exact ⟨hall.last.1, hall.along fun s key hs ↦ not_fails_of_inside hs.1 hs.2 key⟩

/-- As long as no key leads out of the buffer, no action of a run fails; and
once a key does, some continuation of the run makes an action fail. -/
theorem no_action_fails (content : JsString) (keys : List Key) :
    (Along handleKey (fun s key ↦ ¬ LeavesBuffer s key) (startEditing content) keys →
        Along handleKey (fun s key ↦ ¬ Fails s key) (startEditing content) keys) ∧
      ∀ key, Along handleKey (fun s key ↦ ¬ LeavesBuffer s key) (startEditing content) keys →
        LeavesBuffer (run content keys) key →
          ∃ more, ¬ Along handleKey (fun s key ↦ ¬ Fails s key) (startEditing content)
            (keys ++ key :: more) := by
  have hstart := startEditing_inside content
  have hcounted := (regular_startEditing content).1
  refine ⟨fun h ↦ (inside_and_along hstart hcounted h).2, fun key h hleaves ↦ ?_⟩
  have hinside : (run content keys).Inside := (inside_and_along hstart hcounted h).1
  have hregular : (run content keys).Counted := .of_counts (counts_run content keys)
  obtain ⟨more, hmore⟩ := (handleKey_strayed hinside hregular hleaves).exists_fails
  exact ⟨more, fun halong ↦ hmore (along_append.mp halong).2.2⟩

theorem action_fails_after_deleting_the_only_line :
    ¬ Along handleKey (fun s key ↦ ¬ Fails s key) (startEditing (lit "a"))
      [key "d", key "d", key "h"] :=
  fun h ↦ h.2.2.1 (by decide)

/-! ## The cursor of a nonempty buffer -/

/-- If there are lines, the cursor is on one of them and is drawn once. -/
def State.Placed (s : State) : Prop :=
  s.buffer.elems ≠ [] → s.Inside ∧ cursorCount s = 1

theorem State.Inside.placed {s : State} (h : s.Inside) : s.Placed :=
  fun _ ↦ ⟨h, h.cursorCount_eq⟩

theorem placed_of_elems_eq_nil {s : State} (h : s.buffer.elems = []) : s.Placed :=
  fun hne ↦ (hne h).elim

theorem leavesBuffer_of_losesCursor {s : State} (hs : s.Inside) {command : Command}
    (h : command.LosesCursor s) : command.LeavesBuffer s := by
  cases command with
  | backspace => exact h.2
  | deleteTo motion => exact h.1
  | changeTo motion => exact h.1
  | openLine location => cases location <;> exact (hs.elems_ne_nil h.1).elim
  | _ => exact h.elim

theorem placed_iff_of_inside {s t : State} (hs : s.Inside) (hcounted : s.Counted) {key : Key}
    {command : Command} (hdecode : decode s.mode key = some command)
    (ht : s.perform command = .ok t) : t.Placed ↔ ¬ command.LosesCursor s := by
  obtain ⟨t', ht', houtcome⟩ := perform_of_inside hs hcounted hdecode
  obtain rfl := Except.ok.inj (ht'.symm.trans ht)
  rcases houtcome with ⟨hkeeps, hinside⟩ | ⟨-, hstrayed, hempty⟩
  · exact ⟨fun _ h ↦ hkeeps (leavesBuffer_of_losesCursor hs h), fun _ ↦ hinside.placed⟩
  · rw [← hempty]
    constructor
    · intro hplaced
      by_contra hne
      exact hstrayed.not_inside (hplaced hne).1
    · exact placed_of_elems_eq_nil

/-! ### The empty buffer -/

theorem normalizeCursor_of_elems_eq_nil {s t : State} (h : s.buffer.elems = []) :
    normalizeCursor s {} ≠ .ok t := by
  intro hnormal
  obtain ⟨current, hget, -⟩ := normalizeCursor_eq_ok hnormal
  have hmem := JsArray.mem_of_get?_eq_some (clampLine_nonneg _ _) hget
  simp [h] at hmem

theorem not_losesCursor_operator {s : State} (h : s.buffer.elems = []) (motion : Motion) :
    ¬ (motion.TakesLastLine s s.pendingCount ∧
      ∀ target, s.targetLine motion = some target → 0 < min s.cursor.line target) := by
  rintro ⟨⟨target, htarget, -, hlast⟩, hpos⟩
  have := hpos target htarget
  simp only [JsArray.length, h, List.length_nil] at hlast
  omega

theorem deleteTo_of_elems_eq_nil {s t : State} (h : s.buffer.elems = []) (hs : s.InRange)
    {motion : Motion} (hproper : motion.Proper) {count : ℤ} {actualCount : Option ℤ}
    (ht : (Command.deleteTo motion).run s (some count) actualCount = .ok t) :
    t.buffer.elems = [] := by
  rcases deleteTo_eq_ok hproper hs ht with ⟨-, before, line, after, hcut⟩ | ⟨target, -, hcuts⟩
  · simp [hcut.start.elems_eq] at h
  · rw [hcuts.eq]
    simp [h]

/-- A line opened in an empty buffer is the only line; the cursor is on it
unless it was below the line `O` aims at or on the one `o` aims at. -/
theorem placed_insertLine_iff {s : State} (h : s.buffer.elems = []) (hs : s.InRange)
    (location : Location) : (insertLine location s).Placed ↔
      ¬ (Command.openLine location).LosesCursor s := by
  have helems : (insertLine location s).buffer.elems = [[]] := by
    simp [insertLine, makeState, h]
  have hlength : (insertLine location s).buffer.length = 1 := by
    rw [JsArray.length, helems]
    rfl
  have hlow := hs.neg_one_le_line
  have hhigh : s.cursor.line ≤ 0 := by simpa [JsArray.length, h] using hs.line_le
  have hplaced (h0 : (insertLine location s).cursor.line = 0) : (insertLine location s).Placed :=
    State.Inside.placed ⟨h0.ge, by omega, le_refl 0⟩
  have hzero (hp : (insertLine location s).Placed) : (insertLine location s).cursor.line = 0 := by
    have hinside := (hp (by simp [helems])).1
    have := hinside.line_nonneg
    have := hinside.line_lt
    omega
  cases location with
  | before =>
      have hline : (insertLine .before s).cursor.line = s.cursor.line := by
        simp [insertLine, makeState]
      constructor
      · rintro hp ⟨-, hneg⟩
        have := hzero hp
        omega
      · intro hkeeps
        have : s.cursor.line ≠ -1 := fun hneg ↦ hkeeps ⟨h, hneg⟩
        exact hplaced (by omega)
  | after =>
      have hline : (insertLine .after s).cursor.line = s.cursor.line + 1 := by
        simp [insertLine, makeState]
      constructor
      · rintro hp ⟨-, hfirst⟩
        have := hzero hp
        omega
      · intro hkeeps
        have : s.cursor.line ≠ 0 := fun hfirst ↦ hkeeps ⟨h, hfirst⟩
        exact hplaced (by omega)

theorem changeCurrentLine_of_elems_eq_nil {s t : State} (h : s.buffer.elems = [])
    (hs : s.InRange) (ht : changeCurrentLine s = .ok t) : t.Placed := by
  have hlow := hs.neg_one_le_line
  have hhigh : s.cursor.line ≤ 0 := by simpa [JsArray.length, h] using hs.line_le
  obtain ⟨buffer, hbuffer, ht⟩ := bind_eq_ok.mp ht
  rw [writeOf_eq_ok] at hbuffer
  rw [normalizeCursor_line] at ht
  cases ht
  by_cases hneg : s.cursor.line < 0
  · have hkeeps := JsArray.elems_of_set?_of_neg hneg hbuffer
    exact placed_of_elems_eq_nil (hkeeps.trans h)
  · have hzero : s.cursor.line = 0 := by omega
    obtain rfl : (⟨[[]], []⟩ : Buffer) = buffer := by
      simpa [JsArray.set?, JsArray.length, JsArray.clone, hzero, h] using hbuffer
    refine State.Inside.placed ⟨clampLine_nonneg _ _, ?_, hs.col_nonneg⟩
    simp [clampLine, makeState, hzero, JsArray.length, endOfLine]

theorem placed_iff_of_elems_eq_nil {s t : State} (h : s.buffer.elems = []) (hs : s.Regular)
    {key : Key} {command : Command} (hdecode : decode s.mode key = some command)
    (ht : s.perform command = .ok t) : t.Placed ↔ ¬ command.LosesCursor s := by
  have hproper := proper_of_decode hdecode
  have hinRange : (resetCount s).InRange := hs.2.congr rfl rfl
  have hnormal (t : State) : normalizeCursor (resetCount s) {} ≠ .ok t :=
    normalizeCursor_of_elems_eq_nil h
  cases command with
  | execBox =>
      cases ht
      exact iff_of_true (placed_of_elems_eq_nil h) id
  | insert location =>
      cases ht
      exact iff_of_true (placed_of_elems_eq_nil (by simpa [Editor.insert, makeState] using h)) id
  | openLine location =>
      cases ht
      have hiff := placed_insertLine_iff (s := resetCount s) h hinRange location
      cases location <;> exact hiff
  | enter mode =>
      cases ht
      exact iff_of_true (placed_of_elems_eq_nil h) id
  | move motion =>
      obtain ⟨cursor, -, ht⟩ := bind_eq_ok.mp ht
      cases ht
      exact iff_of_true (placed_of_elems_eq_nil h) id
  | digit number =>
      obtain ⟨typed, -, ht⟩ := bind_eq_ok.mp ht
      cases ht
      exact iff_of_true (placed_of_elems_eq_nil h) id
  | backspace =>
      obtain ⟨n, -, -, -, hn, -⟩ := typing_eq_ok (by trivial) ht
      exact (hnormal n hn).elim
  | breakLine =>
      obtain ⟨n, -, -, -, hn, -⟩ := typing_eq_ok (by trivial) ht
      exact (hnormal n hn).elim
  | type string =>
      obtain ⟨n, -, -, -, hn, -⟩ := typing_eq_ok (by trivial) ht
      exact (hnormal n hn).elim
  | deleteLine =>
      rw [State.perform, Command.run, deleteCurrentLine] at ht
      have hempty : t.buffer.elems = [] := by
        rw [(normalizeCursor_fields ht).1]
        simp [makeState, h]
      exact iff_of_true (placed_of_elems_eq_nil hempty) id
  | deleteTo motion =>
      have hmode := mode_ne_insert_of_decode hdecode (by simp) id
      rw [State.perform, hs.1.effectiveCount_eq hmode] at ht
      have hempty := deleteTo_of_elems_eq_nil (s := resetCount s) h hinRange hproper ht
      exact iff_of_true (placed_of_elems_eq_nil hempty) (not_losesCursor_operator h motion)
  | changeLine =>
      exact iff_of_true (changeCurrentLine_of_elems_eq_nil (s := resetCount s) h hinRange ht) id
  | changeTo motion =>
      have hmode := mode_ne_insert_of_decode hdecode (by simp) id
      rw [State.perform, hs.1.effectiveCount_eq hmode, changeTo_run] at ht
      obtain ⟨u, hu, rfl⟩ := map_eq_ok.mp ht
      have hempty := deleteTo_of_elems_eq_nil (s := resetCount s) h hinRange hproper hu
      exact iff_of_true (placed_of_elems_eq_nil hempty) (not_losesCursor_operator h motion)
  | top =>
      rw [State.perform, Command.run, gotoLine_int] at ht
      obtain ⟨n, hn, -⟩ := map_eq_ok.mp ht
      have hempty : (makeState (resetCount s) { line := (0 : ℤ) }).buffer.elems = [] := h
      exact (normalizeCursor_of_elems_eq_nil hempty hn).elim

theorem not_losesCursor_of_error {s : State} (hs : s.Regular) (hplaced : s.Placed) {key : Key}
    {command : Command} {fault : Fault} (hdecode : decode s.mode key = some command)
    (herror : s.perform command = .error fault) : ¬ command.LosesCursor s := by
  have hempty : s.buffer.elems = [] := by
    by_contra hne
    exact not_fails_of_inside (hplaced hne).1 hs.1 key
      (fails_iff.mpr ⟨command, fault, hdecode, herror⟩)
  cases command with
  | openLine location => cases herror
  | backspace => exact fun h ↦ h.1 hempty
  | deleteTo motion => exact not_losesCursor_operator hempty motion
  | changeTo motion => exact not_losesCursor_operator hempty motion
  | _ => exact id

theorem placed_handleKey_iff {s : State} (hs : s.Regular) (hplaced : s.Placed) (key : Key) :
    (handleKey s key).Placed ↔ ¬ LosesCursor s key := by
  have hreset : (resetCount s).Placed := fun hne ↦ (hplaced hne).1.resetCount.placed hne
  refine handleKey_iff hplaced hreset key (fun command t hdecode ht ↦ ?_)
    fun command fault hdecode herror ↦ not_losesCursor_of_error hs hplaced hdecode herror
  by_cases hempty : s.buffer.elems = []
  · exact placed_iff_of_elems_eq_nil hempty hs hdecode ht
  · exact placed_iff_of_inside (hplaced hempty).1 hs.1 hdecode ht

/-- Every state of a run has its cursor in place exactly when no key of the
run loses it. -/
theorem throughout_placed_iff (content : JsString) (keys : List Key) :
    Throughout handleKey State.Placed (startEditing content) keys ↔
      Along handleKey (fun s key ↦ ¬ LosesCursor s key) (startEditing content) keys :=
  throughout_iff_along (fun _ key hs ↦ hs.handleKey key)
    (fun _ key hs hplaced ↦ placed_handleKey_iff hs hplaced key)
    (regular_startEditing content) (startEditing_inside content).placed

theorem not_placed_after_deleting_last_lines :
    ¬ (run (lit "a\nb\nc") [key "j", key "d", key "j"]).Placed := by
  intro hplaced
  have hlt := (hplaced (by decide)).1.line_lt
  revert hlt
  decide

end CoffeeTable.Editor

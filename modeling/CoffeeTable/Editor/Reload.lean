import CoffeeTable.Editor.Operator

/-!
# Reopening what was saved

The posted text splits back into the buffer exactly if the buffer has lines
and no line contains a newline. Two kinds of key spoil this: a deletion that
takes every line, after which the posted text is that of one empty line, and a
key whose name contains a newline, which insert mode puts into a line. The
cursor may stand off the buffer while this happens, so nothing here supposes
that it is inside.
-/

namespace CoffeeTable.Editor

open Ecma Transition

namespace State

/-- Splitting the posted text gives the buffer back. -/
def Reloads (s : State) : Prop := s.text.splitOn newline = s.buffer.elems

structure Splittable (s : State) : Prop where
  ne_nil : s.buffer.elems ≠ []
  newline_notMem : ∀ line ∈ s.buffer.elems, newline ∉ line

variable {s t : State}

theorem reloads_iff : s.Reloads ↔ s.Splittable := by
  rw [Reloads, text, Lines.splitOn_join_iff]
  exact ⟨fun h ↦ ⟨h.1, h.2⟩, fun h ↦ ⟨h.ne_nil, h.newline_notMem⟩⟩

theorem Splittable.congr (h : s.Splittable) (hbuffer : t.buffer.elems = s.buffer.elems) :
    t.Splittable := ⟨hbuffer ▸ h.ne_nil, hbuffer ▸ h.newline_notMem⟩

theorem Splittable.normalize {options : NormalizeOptions} (h : s.Splittable)
    (ht : normalizeCursor s options = .ok t) : t.Splittable :=
  h.congr (congrArg JsArray.elems (normalizeCursor_fields ht).1)

theorem Splittable.length_pos (h : s.Splittable) : 0 < s.buffer.length :=
  Int.natCast_pos.mpr (List.length_pos_iff.mpr h.ne_nil)

theorem Splittable.newline_notMem_splice (h : s.Splittable) {start deleteCount : ℤ}
    {items : List JsString} (hitems : ∀ line ∈ items, newline ∉ line) {line : JsString}
    (hline : line ∈ Ecma.splice s.buffer.elems start deleteCount items) : newline ∉ line := by
  rcases mem_splice hline with hold | hnew
  · exact h.newline_notMem line hold
  · exact hitems line hnew

theorem Splittable.of_replace {before after : List JsString} {line : JsString}
    (h : s.Splittable) (hat : s.buffer.elems = before ++ line :: after) (rest : List JsString)
    (ht : t.buffer.elems = before ++ rest ++ after) (hne : rest ≠ [])
    (hrest : ∀ piece ∈ rest, newline ∉ piece) : t.Splittable := by
  refine ⟨by simp [ht, hne], fun piece hpiece ↦ ?_⟩
  have hold := h.newline_notMem piece
  rw [hat] at hold
  rw [ht, List.mem_append, List.mem_append] at hpiece
  rcases hpiece with (hpiece | hpiece) | hpiece
  · exact hold (List.mem_append_left _ hpiece)
  · exact hrest piece hpiece
  · exact hold (List.mem_append_right _ (List.mem_cons_of_mem _ hpiece))

end State

/-- The motion deletes every line. -/
def Motion.TakesEveryLine (s : State) (count : ℤ) (motion : Motion) : Prop :=
  ∃ target, motion.targetLine s count = some target ∧ s.cursor.line ≠ target ∧
    (min s.cursor.line target = 0 ∨ s.buffer.length = 1) ∧
    s.buffer.length - 1 ≤ max s.cursor.line target

theorem takesEveryLine_resetCount (s : State) (count : ℤ) (motion : Motion) :
    motion.TakesEveryLine (resetCount s) count ↔ motion.TakesEveryLine s count := by
  simp only [Motion.TakesEveryLine, targetLine_resetCount]
  rfl

/-- The commands after which the saved text no longer gives the buffer back. -/
def Command.SpoilsReload (s : State) : Command → Prop
  | .type string => newline ∈ string ∧ s.cursor.line < s.buffer.length
  | .deleteLine => s.buffer.length = 1 ∧ s.cursor.line < s.buffer.length
  | .deleteTo motion => motion.TakesEveryLine s s.pendingCount
  | .changeTo motion => motion.TakesEveryLine s s.pendingCount
  | _ => False

def SpoilsReload (s : State) (key : Key) : Prop :=
  ∃ command, decode s.mode key = some command ∧ command.SpoilsReload s

/-! ## Typing -/

section Typing

variable {s t n : State} {before after : List JsString} {line : JsString}

theorem line_lt_of_normalizeCursor (hmode : s.mode = .insert)
    (h : normalizeCursor s {} = .ok n) : s.cursor.line < s.buffer.length := by
  obtain ⟨current, hget, -⟩ := normalizeCursor_eq_ok h
  have hlt := JsArray.lt_length_of_get?_eq_some (clampLine_nonneg _ _) hget
  simp only [clampLine, hmode, endOfLine_insert] at hlt
  omega

theorem exists_normalizeCursor_of_line_lt (hmode : s.mode = .insert)
    (hpos : 0 < s.buffer.length) (h : s.cursor.line < s.buffer.length) :
    ∃ n before line after, normalizeCursor s {} = .ok n ∧ n.At before line after := by
  have hlt : clampLine s s.cursor.line < s.buffer.length := by
    simp only [clampLine, hmode, endOfLine_insert]
    omega
  obtain ⟨current, hget⟩ := JsArray.exists_get?_eq_some (clampLine_nonneg _ _) hlt
  have hnormal : normalizeCursor s {} = .ok _ := normalizeCursor_of_get? (if_pos rfl) hget
  obtain ⟨before, line, after, hat, -⟩ := exists_at_of_normalizeCursor hnormal
  exact ⟨_, before, line, after, hnormal, hat⟩

theorem splittable_type_iff (hn : n.Splittable) (hat : n.At before line after)
    {string : JsString} (h : insertStringAtCursor string n = .ok t) :
    t.Splittable ↔ newline ∉ string := by
  obtain rfl := Except.ok.inj (hat.insertStringAtCursor_eq string |>.symm.trans h)
  have hline : newline ∉ line := hn.newline_notMem line (by simp [hat.elems_eq])
  constructor
  · intro ht hmem
    apply ht.newline_notMem _ (List.mem_append_right _ List.mem_cons_self)
    exact List.mem_append_left _ (List.mem_append_right _ hmem)
  · intro hstring
    apply hn.of_replace hat.elems_eq [_] (by simp; rfl) (by simp)
    intro piece hpiece
    obtain rfl := List.mem_singleton.mp hpiece
    simp only [List.mem_append, not_or]
    exact ⟨fun hmem ↦ hline (mem_of_mem_sliceTo hmem), hstring,
      fun hmem ↦ hline (mem_of_mem_sliceFrom hmem)⟩

theorem splittable_breakLine (hn : n.Splittable) (hat : n.At before line after)
    (h : breakLineAtCursor n = .ok t) : t.Splittable := by
  obtain rfl := Except.ok.inj (hat.breakLineAtCursor_eq.symm.trans h)
  have hline : newline ∉ line := hn.newline_notMem line (by simp [hat.elems_eq])
  apply hn.of_replace hat.elems_eq [_, _] (by simp; exact ⟨rfl, rfl⟩) (by simp)
  intro piece hpiece
  rcases List.mem_pair.mp hpiece with rfl | rfl
  · exact fun hmem ↦ hline (mem_of_mem_sliceTo hmem)
  · exact fun hmem ↦ hline (mem_of_mem_sliceFrom hmem)

theorem splittable_backspace (hn : n.Splittable) (hat : n.At before line after)
    (h : deleteCharsAtCursor (-1) n = .ok t) : t.Splittable := by
  have hline : newline ∉ line := hn.newline_notMem line (by simp [hat.elems_eq])
  rcases hat.backspace_cases with ⟨col, -, heq⟩ | ⟨init, previous, rfl, -, heq⟩ |
      ⟨rfl, -, heq⟩
  · obtain rfl := Except.ok.inj (heq.symm.trans h)
    apply hn.of_replace hat.elems_eq [_] (by simp; rfl) (by simp)
    intro piece hpiece
    obtain rfl := List.mem_singleton.mp hpiece
    rw [List.mem_append, not_or]
    exact ⟨fun hmem ↦ hline (List.mem_of_mem_take hmem),
      fun hmem ↦ hline (List.mem_of_mem_drop hmem)⟩
  · obtain rfl := Except.ok.inj (heq.symm.trans h)
    have hprevious : newline ∉ previous := hn.newline_notMem previous (by simp [hat.elems_eq])
    refine ⟨by simp, fun piece hpiece ↦ ?_⟩
    have hold := hn.newline_notMem piece
    rw [hat.elems_eq] at hold
    rcases List.mem_append.mp hpiece with hpiece | hpiece
    · exact hold (by simp [hpiece])
    · rcases List.mem_cons.mp hpiece with rfl | hpiece
      · rw [List.mem_append, not_or]
        exact ⟨hprevious, hline⟩
      · exact hold (by simp [hpiece])
  · obtain rfl := Except.ok.inj (heq.symm.trans h)
    refine ⟨by simp, fun piece hpiece ↦ hn.newline_notMem piece ?_⟩
    rw [hat.elems_eq]
    rcases List.mem_append.mp hpiece with hpiece | hpiece
    · exact List.dropLast_subset _ hpiece
    · obtain rfl := List.mem_singleton.mp hpiece
      exact List.mem_cons_self

end Typing

/-! ## Deleting -/

section Deleting

variable {s t : State}

theorem splittable_splice_iff (hs : s.Splittable) {start deleteCount : ℤ}
    (ht : t.buffer.elems = Ecma.splice s.buffer.elems start deleteCount []) :
    t.Splittable ↔ relativeIndex s.buffer.elems.length start ≠ 0 ∨
      deleteCount.toNat < s.buffer.elems.length := by
  have hlength := length_splice s.buffer.elems ([] : List JsString) start deleteCount
  rw [← ht, List.length_nil] at hlength
  have hle := relativeIndex_le s.buffer.elems.length start
  constructor
  · intro h
    have hpos := List.length_pos_iff.mpr h.ne_nil
    omega
  · intro h
    refine ⟨List.ne_nil_of_length_pos ?_, fun line hline ↦ ?_⟩
    · omega
    · rw [ht] at hline
      exact hs.newline_notMem_splice (by simp) hline

theorem splittable_deleteLine_iff (hs : s.Splittable) (hrange : s.InRange)
    (h : deleteCurrentLine s = .ok t) :
    t.Splittable ↔ ¬ (s.buffer.length = 1 ∧ s.cursor.line < s.buffer.length) := by
  rw [deleteCurrentLine] at h
  have hbuffer := (normalizeCursor_fields h).1
  have ht : t.buffer.elems = Ecma.splice s.buffer.elems s.cursor.line 1 [] := by
    rw [hbuffer]
    simp [makeState]
  have hpos := hs.length_pos
  obtain ⟨hlow, hhigh, -⟩ := hrange
  rw [splittable_splice_iff hs ht]
  simp only [JsArray.length] at *
  by_cases hneg : s.cursor.line < 0
  · rw [relativeIndex_of_neg hneg]
    omega
  · rw [relativeIndex_of_nonneg (not_lt.mp hneg)]
    omega

theorem splittable_deleteTo_iff (hs : s.Splittable) (hrange : s.InRange)
    (hmode : s.mode ≠ .insert) {motion : Motion} (hproper : motion.Proper) {count : ℤ}
    {actualCount : Option ℤ}
    (h : (Command.deleteTo motion).run s (some count) actualCount = .ok t) :
    t.Splittable ↔ ¬ motion.TakesEveryLine s count := by
  rcases deleteTo_eq_ok hproper hrange h with ⟨hstay, before, line, after, hcut⟩ |
      ⟨target, htarget, hcuts⟩
  · obtain ⟨rest, hrest, hsub⟩ := hcut.finish
    have hline : newline ∉ line := hs.newline_notMem line (by simp [hcut.start.elems_eq])
    refine iff_of_true ?_ fun ⟨target, htarget, hne, _⟩ ↦ hne (hstay target htarget).symm
    apply hs.of_replace hcut.start.elems_eq [rest] (by simp [hrest.elems_eq]) (by simp)
    intro piece hpiece
    obtain rfl := List.mem_singleton.mp hpiece
    exact fun hmem ↦ hline (hsub _ hmem)
  · have hpos := hs.length_pos
    have hbounds := targetLine_lt hmode hpos htarget
    have hiff : motion.TakesEveryLine s count ↔
        (min s.cursor.line target = 0 ∨ s.buffer.length = 1) ∧
          s.buffer.length - 1 ≤ max s.cursor.line target := by
      constructor
      · rintro ⟨other, hother, -, hall⟩
        obtain rfl := Option.some.inj (hother.symm.trans htarget)
        exact hall
      · exact fun hall ↦ ⟨target, htarget, hcuts.ne, hall⟩
    obtain ⟨hlow, hhigh, -⟩ := hrange
    have hne := hcuts.ne
    rw [hiff, splittable_splice_iff hs (by rw [hcuts.eq]; rfl)]
    simp only [JsArray.length] at *
    by_cases hneg : min s.cursor.line target < 0
    · rw [relativeIndex_of_neg hneg]
      omega
    · rw [relativeIndex_of_nonneg (not_lt.mp hneg)]
      omega

end Deleting

/-! ## One key -/

theorem splittable_insertLine {s : State} (hs : s.Splittable) (location : Location) :
    (insertLine location s).Splittable := by
  obtain ⟨start, hstart⟩ : ∃ start, (insertLine location s).buffer.elems =
      Ecma.splice s.buffer.elems start 0 [[]] := ⟨_, rfl⟩
  refine ⟨fun hempty ↦ ?_, fun line hline ↦ ?_⟩
  · have hmem : ([] : JsString) ∈ Ecma.splice s.buffer.elems start 0 [[]] := by
      simp [Ecma.splice]
    rw [← hstart, hempty] at hmem
    cases hmem
  · rw [hstart] at hline
    exact hs.newline_notMem_splice (by simp) hline

theorem splittable_changeLine {s t : State} (hs : s.Splittable)
    (h : changeCurrentLine s = .ok t) : t.Splittable := by
  obtain ⟨buffer, hbuffer, h⟩ := bind_eq_ok.mp h
  rw [writeOf_eq_ok] at hbuffer
  have helems : t.buffer.elems = buffer.elems := congrArg JsArray.elems (normalizeCursor_fields h).1
  refine ⟨List.ne_nil_of_length_pos ?_, fun line hline ↦ ?_⟩
  · have hle := JsArray.length_le_of_set? hbuffer
    have hpos := hs.length_pos
    rw [helems]
    simp only [JsArray.length, JsArray.elems_clone] at hle hpos
    omega
  · rw [helems] at hline
    rcases JsArray.mem_elems_of_set? hbuffer hline with hold | rfl
    · exact hs.newline_notMem line hold
    · exact List.not_mem_nil

theorem splittable_perform_iff {s t : State} (hs : s.Splittable) (hcounted : s.Counted)
    (hrange : s.InRange) {key : Key} {command : Command}
    (hdecode : decode s.mode key = some command) (ht : s.perform command = .ok t) :
    t.Splittable ↔ ¬ command.SpoilsReload s := by
  have hproper := proper_of_decode hdecode
  have hreset : (resetCount s).Splittable := hs.congr rfl
  have hinRange : (resetCount s).InRange := hrange.congr rfl rfl
  cases command with
  | execBox =>
      cases ht
      exact iff_of_true hreset id
  | insert location =>
      cases ht
      exact iff_of_true (hs.congr (by simp [Editor.insert, makeState])) id
  | openLine location =>
      cases ht
      exact iff_of_true (splittable_insertLine hreset location) id
  | enter mode =>
      cases ht
      exact iff_of_true (hs.congr rfl) id
  | move motion =>
      obtain ⟨cursor, -, ht⟩ := bind_eq_ok.mp ht
      cases ht
      exact iff_of_true (hs.congr rfl) id
  | digit number =>
      obtain ⟨typed, -, ht⟩ := bind_eq_ok.mp ht
      cases ht
      exact iff_of_true (hs.congr rfl) id
  | backspace =>
      obtain ⟨n, before, line, after, hnormal, hat, ht⟩ := typing_eq_ok (by trivial) ht
      have hn := hreset.normalize hnormal
      exact iff_of_true (splittable_backspace hn hat ht) id
  | breakLine =>
      obtain ⟨n, before, line, after, hnormal, hat, ht⟩ := typing_eq_ok (by trivial) ht
      have hn := hreset.normalize hnormal
      exact iff_of_true (splittable_breakLine hn hat ht) id
  | type string =>
      obtain ⟨n, before, line, after, hnormal, hat, ht⟩ := typing_eq_ok (by trivial) ht
      have hn := hreset.normalize hnormal
      have hmode := mode_of_decode_typing hdecode trivial
      have hlt := line_lt_of_normalizeCursor (s := resetCount s) hmode hnormal
      rw [splittable_type_iff hn hat ht]
      exact not_congr ⟨fun h ↦ ⟨h, hlt⟩, And.left⟩
  | deleteLine => exact splittable_deleteLine_iff (s := resetCount s) hreset hinRange ht
  | deleteTo motion =>
      have hmode := mode_ne_insert_of_decode hdecode (by simp) id
      rw [State.perform, hcounted.effectiveCount_eq hmode] at ht
      have hiff := splittable_deleteTo_iff hreset hinRange hmode hproper ht
      rwa [takesEveryLine_resetCount] at hiff
  | changeLine => exact iff_of_true (splittable_changeLine hreset ht) id
  | changeTo motion =>
      have hmode := mode_ne_insert_of_decode hdecode (by simp) id
      rw [State.perform, hcounted.effectiveCount_eq hmode, changeTo_run] at ht
      obtain ⟨u, hu, rfl⟩ := map_eq_ok.mp ht
      have hiff := splittable_deleteTo_iff hreset hinRange hmode hproper hu
      have hkeeps : (enterMode .insert u).Splittable ↔ u.Splittable :=
        ⟨fun h ↦ h.congr rfl, fun h ↦ h.congr rfl⟩
      rw [hkeeps]
      rwa [takesEveryLine_resetCount] at hiff
  | top =>
      rw [State.perform, Command.run, gotoLine_int] at ht
      obtain ⟨n, hn, rfl⟩ := map_eq_ok.mp ht
      have hstart : (makeState (resetCount s) { line := (0 : ℤ) }).Splittable := hreset.congr rfl
      have hnormal := hstart.normalize hn
      exact iff_of_true (hnormal.congr rfl) id

theorem deleteTo_ne_error {motion : Motion} (hproper : motion.Proper) {s : State} {count : ℤ}
    {actualCount : Option ℤ} {fault : Fault} (htakes : motion.TakesEveryLine s count) :
    (Command.deleteTo motion).run s (some count) actualCount ≠ .error fault := by
  obtain ⟨target, htarget, hne, -⟩ := htakes
  have hdelete : deleteToCursor s ⟨target, s.cursor.col⟩ = .ok _ := deleteToCursor_of_ne hne
  intro h
  simp only [Command.run, Motion.movement_of_targetLine hproper htarget, ok_bind, hdelete] at h
  cases h

theorem not_spoilsReload_of_error {s : State} (hs : s.Splittable) (hcounted : s.Counted)
    {key : Key} {command : Command} {fault : Fault} (hdecode : decode s.mode key = some command)
    (herror : s.perform command = .error fault) : ¬ command.SpoilsReload s := by
  have hproper := proper_of_decode hdecode
  cases command with
  | type string =>
      rintro ⟨-, hlt⟩
      obtain ⟨n, before, line, after, hnormal, hat⟩ :=
        exists_normalizeCursor_of_line_lt (s := resetCount s)
          (mode_of_decode_typing hdecode trivial) hs.length_pos hlt
      rw [State.perform, Command.run, insertStringAtCursor_normalize _ hnormal,
        hat.insertStringAtCursor_eq] at herror
      cases herror
  | deleteLine =>
      rw [State.perform, Command.run, deleteCurrentLine, normalizeCursor_line] at herror
      cases herror
  | deleteTo motion =>
      have hmode := mode_ne_insert_of_decode hdecode (by simp) id
      rw [State.perform, hcounted.effectiveCount_eq hmode] at herror
      exact fun htakes ↦ deleteTo_ne_error hproper
        ((takesEveryLine_resetCount s _ motion).mpr htakes) herror
  | changeTo motion =>
      have hmode := mode_ne_insert_of_decode hdecode (by simp) id
      rw [State.perform, hcounted.effectiveCount_eq hmode, changeTo_run] at herror
      exact fun htakes ↦ deleteTo_ne_error hproper
        ((takesEveryLine_resetCount s _ motion).mpr htakes) (map_eq_error.mp herror)
  | _ => exact id

theorem reloads_handleKey_iff {s : State} (hs : s.Reloads) (hregular : s.Regular) (key : Key) :
    (handleKey s key).Reloads ↔ ¬ SpoilsReload s key := by
  rw [State.reloads_iff] at hs ⊢
  exact handleKey_iff hs (hs.congr rfl) key
    (fun _ _ hdecode ht ↦ splittable_perform_iff hs hregular.1 hregular.2 hdecode ht)
    fun _ _ hdecode herror ↦ not_spoilsReload_of_error hs hregular.1 hdecode herror

theorem reloads_startEditing (content : JsString) : (startEditing content).Reloads :=
  congrArg (List.splitOn newline) (text_startEditing content)

/-- Along a run every saved text gives its buffer back exactly when no key of
the run deletes every line or types a name with a newline in it. -/
theorem throughout_reloads_iff (content : JsString) (keys : List Key) :
    Throughout handleKey State.Reloads (startEditing content) keys ↔
      Along handleKey (fun s key ↦ ¬ SpoilsReload s key) (startEditing content) keys :=
  throughout_iff_along (fun _ key hs ↦ hs.handleKey key)
    (fun _ key hregular hs ↦ reloads_handleKey_iff hs hregular key)
    (regular_startEditing content) (reloads_startEditing content)

theorem not_reloads_after_deleting_the_only_line :
    ¬ (run (lit "a") [key "d", key "d"]).Reloads := by
  rw [State.Reloads]
  decide

end CoffeeTable.Editor

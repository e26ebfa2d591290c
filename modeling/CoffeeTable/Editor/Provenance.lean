import CoffeeTable.Editor.Preservation
import CoffeeTable.Editor.Reload
import CoffeeTable.Transition.Ledger
import Mathlib.Data.List.Flatten

/-!
# Where the text comes from

Nothing but typing puts characters into the buffer, so whatever is saved was in
the opened content or was typed. Only backspace at the start of the text makes
copies: it writes the first line over the last. A run without it keeps the
account of every character.
-/

namespace CoffeeTable.Editor

open Ecma Transition

/-- What the lines hold, without their ends. -/
def State.units (s : State) : JsString := s.buffer.elems.flatten

/-- What a key adds to the text: in insert mode, its name, unless that is the
name of a key with an action of its own. -/
def typedText (s : State) (key : Key) : JsString :=
  if s.mode = .insert ∧ key.text ≠ Keys.ESC ∧ key.text ≠ Keys.BS ∧ key.text ≠ Keys.CR then
    key.text
  else []

def Command.typed : Command → JsString
  | .type string => string
  | _ => []

theorem typed_of_decode {s : State} {key : Key} {command : Command}
    (h : decode s.mode key = some command) : command.typed = typedText s key := by
  by_cases hmode : s.mode = .insert
  · rw [hmode] at h
    simp only [decode, Option.some.injEq] at h
    split_ifs at h with hesc hbs hcr <;> subst h
    · exact (if_neg fun hand ↦ hand.2.1 hesc).symm
    · exact (if_neg fun hand ↦ hand.2.2.1 hbs).symm
    · exact (if_neg fun hand ↦ hand.2.2.2 hcr).symm
    · exact (if_pos ⟨hmode, hesc, hbs, hcr⟩).symm
  · have hnone : typedText s key = [] := if_neg fun hand ↦ hmode hand.1
    have htyping := not_typing_of_decoded (decoded_of_decode hmode h)
    rw [hnone]
    cases command <;> first | rfl | exact (htyping trivial).elim

/-! ## One command -/

section Pieces

variable {s t : State} {before after : List JsString} {line : JsString}

theorem State.At.units_eq (h : s.At before line after) :
    s.units = before.flatten ++ line ++ after.flatten := by
  simp [State.units, h.elems_eq]

theorem units_of_elems {lines : List JsString}
    (h : t.buffer.elems = before ++ lines ++ after) :
    t.units = before.flatten ++ lines.flatten ++ after.flatten := by
  simp [State.units, h]

/-- The account of a command that only touches the cursor line. -/
theorem subperm_of_lines (hat : s.At before line after) (lines : List JsString)
    (ht : t.buffer.elems = before ++ lines ++ after) {typed : JsString}
    (h : lines.flatten.Subperm (line ++ typed)) : t.units.Subperm (s.units ++ typed) := by
  rw [hat.units_eq, units_of_elems ht]
  have hmiddle : (before.flatten ++ lines.flatten ++ after.flatten).Subperm
      (before.flatten ++ (line ++ typed) ++ after.flatten) :=
    ((List.Subperm.refl _).append h).append (List.Subperm.refl _)
  apply hmiddle.trans
  apply List.Perm.subperm
  simp only [List.append_assoc]
  apply List.Perm.append_left
  apply List.Perm.append_left
  exact List.perm_append_comm

theorem subperm_of_sublist (h : List.Sublist t.buffer.elems s.buffer.elems) :
    t.units.Subperm (s.units ++ []) := by
  rw [List.append_nil]
  exact h.flatten.subperm

theorem splice_sublist (xs : List JsString) (start deleteCount : ℤ) :
    List.Sublist (Ecma.splice xs start deleteCount []) xs := by
  have hdrop : List.Sublist (xs.drop (relativeIndex xs.length start + deleteCount.toNat))
      (xs.drop (relativeIndex xs.length start)) := by
    rw [← List.drop_drop]
    exact List.drop_sublist _ _
  have happend := (List.Sublist.refl (xs.take (relativeIndex xs.length start))).append hdrop
  rw [List.take_append_drop] at happend
  rwa [Ecma.splice, List.append_nil]

theorem cut_sublist (xs : JsString) {start stop : ℤ} (h0 : 0 ≤ start) (h : start ≤ stop) :
    List.Sublist (sliceTo xs start ++ sliceFrom xs stop) xs := by
  lift start to ℕ using h0
  lift stop to ℕ using (by omega)
  rw [sliceTo_natCast, sliceFrom_natCast]
  have hdrop : List.Sublist (xs.drop stop) (xs.drop start) := by
    apply List.drop_sublist_drop_left
    omega
  have happend := (List.Sublist.refl (xs.take start)).append hdrop
  rwa [List.take_append_drop] at happend

end Pieces

section Commands

variable {s t : State}

theorem units_of_normalize {options : NormalizeOptions} (h : normalizeCursor s options = .ok t) :
    t.units = s.units := by
  rw [State.units, (normalizeCursor_fields h).1]
  rfl

theorem subperm_insertLine (location : Location) (s : State) :
    (insertLine location s).units.Subperm (s.units ++ []) := by
  obtain ⟨start, hstart⟩ : ∃ start, (insertLine location s).buffer.elems =
      Ecma.splice s.buffer.elems start 0 [[]] := ⟨_, rfl⟩
  rw [List.append_nil, State.units, hstart, Ecma.splice, Int.toNat_zero, Nat.add_zero,
    List.flatten_append, List.flatten_append, List.flatten_singleton, List.append_nil,
    ← List.flatten_append, List.take_append_drop]
  exact List.Subperm.refl _

theorem subperm_deleteToCursor (hs : s.InRange) {target : Cursor} (hcol : 0 ≤ target.col)
    (h : deleteToCursor s target = .ok t) : t.units.Subperm (s.units ++ []) := by
  by_cases hline : s.cursor.line = target.line
  · rcases hs.inside_or with hinside | ⟨hnone, -⟩
    · obtain ⟨before, line, after, hat⟩ := hinside.exists_at
      have htarget : target = ⟨s.cursor.line, target.col⟩ := by rw [hline]
      rw [htarget, hat.deleteToCursor_same] at h
      obtain rfl := Except.ok.inj h
      apply subperm_of_lines hat [_] (by simp; rfl)
      rw [List.append_nil, List.flatten_singleton]
      exact (cut_sublist line (le_min hs.col_nonneg hcol) min_le_max).subperm
    · rw [deleteToCursor_of_none hline hnone] at h
      cases h
  · rw [deleteToCursor_of_ne hline] at h
    obtain rfl := Except.ok.inj h
    apply subperm_of_sublist
    exact splice_sublist _ _ _

theorem subperm_deleteTo (hs : s.InRange) {motion : Motion} (hproper : motion.Proper)
    {count actualCount : Option ℤ} (h : (Command.deleteTo motion).run s count actualCount = .ok t) :
    t.units.Subperm (s.units ++ []) := by
  obtain ⟨cursor, hcursor, h⟩ := bind_eq_ok.mp h
  exact subperm_deleteToCursor hs (movement_inRange hproper hs hcursor).2.2 h

theorem subperm_deleteLine (h : deleteCurrentLine s = .ok t) :
    t.units.Subperm (s.units ++ []) := by
  rw [deleteCurrentLine] at h
  rw [units_of_normalize h]
  apply subperm_of_sublist
  exact splice_sublist _ _ _

theorem subperm_changeLine (hs : s.InRange) (h : changeCurrentLine s = .ok t) :
    t.units.Subperm (s.units ++ []) := by
  rcases hs.inside_or with hinside | ⟨-, hline⟩
  · obtain ⟨before, line, after, hat⟩ := hinside.exists_at
    obtain rfl := Except.ok.inj (hat.changeCurrentLine_eq.symm.trans h)
    apply subperm_of_lines hat [[]] (by simp)
    exact List.nil_subperm
  · obtain ⟨buffer, hbuffer, h⟩ := bind_eq_ok.mp h
    rw [writeOf_eq_ok] at hbuffer
    have hunits : t.units = buffer.elems.flatten := units_of_normalize h
    rw [List.append_nil, hunits]
    rcases hline with hline | hline
    · rw [JsArray.elems_of_set?_of_neg (by omega) hbuffer]
      exact List.Subperm.refl _
    · -- The empty line written at the end adds no character.
      have hlength : ¬ s.cursor.line < 0 := by
        rw [hline]
        exact not_lt.mpr (Int.natCast_nonneg _)
      rw [JsArray.set?, if_neg hlength, if_neg (by simp [hline]),
        if_pos (by simp [hline])] at hbuffer
      obtain rfl := Option.some.inj hbuffer
      rw [List.flatten_append, List.flatten_singleton, List.append_nil]
      exact List.Subperm.refl _

/-! ## Typing -/

theorem subperm_type {before after : List JsString} {line : JsString} (hat : s.At before line after)
    {string : JsString} (h : insertStringAtCursor string s = .ok t) :
    t.units.Subperm (s.units ++ string) := by
  obtain rfl := Except.ok.inj (hat.insertStringAtCursor_eq string |>.symm.trans h)
  apply subperm_of_lines hat [_] (by simp; rfl)
  rw [List.flatten_singleton]
  have hmoved : (sliceTo line (clampCol s.mode line.length s.cursor.col) ++ string ++
      sliceFrom line (clampCol s.mode line.length s.cursor.col)).Perm
        (sliceTo line (clampCol s.mode line.length s.cursor.col) ++
          sliceFrom line (clampCol s.mode line.length s.cursor.col) ++ string) := by
    rw [List.append_assoc, List.append_assoc]
    exact List.Perm.append_left _ List.perm_append_comm
  rw [sliceTo_append_sliceFrom, List.append_assoc] at hmoved
  exact hmoved.subperm

theorem subperm_breakLine {before after : List JsString} {line : JsString}
    (hat : s.At before line after) (h : breakLineAtCursor s = .ok t) :
    t.units.Subperm (s.units ++ []) := by
  obtain rfl := Except.ok.inj (hat.breakLineAtCursor_eq.symm.trans h)
  apply subperm_of_lines hat [_, _] (by simp; exact ⟨rfl, rfl⟩)
  simp only [List.flatten_cons, List.flatten_nil, List.append_nil, sliceTo_append_sliceFrom]
  exact List.Subperm.refl line

/-- Backspace at the start of the text writes the first line over the last. -/
theorem subperm_backspace {before after : List JsString} {line : JsString}
    (hat : s.At before line after) (h : deleteCharsAtCursor (-1) s = .ok t) :
    t.units.Subperm (s.units ++ []) ∨
      (before = [] ∧ clampCol s.mode line.length s.cursor.col = 0 ∧
        t.buffer.elems = (line :: after).dropLast ++ [line]) := by
  rcases hat.backspace_cases with ⟨col, -, heq⟩ | ⟨init, previous, rfl, -, heq⟩ |
      ⟨rfl, hcol, heq⟩
  · obtain rfl := Except.ok.inj (heq.symm.trans h)
    left
    apply subperm_of_lines hat [_] (by simp; rfl)
    rw [List.flatten_singleton, List.append_nil]
    have hcut := cut_sublist line (Int.natCast_nonneg col) (show (col : ℤ) ≤ (col + 1 : ℕ) by omega)
    rw [sliceTo_natCast, sliceFrom_natCast] at hcut
    exact hcut.subperm
  · obtain rfl := Except.ok.inj (heq.symm.trans h)
    left
    have hjoined : ((init ++ (previous ++ line) :: after).flatten : JsString) = s.units := by
      simp [State.units, hat.elems_eq]
    rw [List.append_nil, State.units, hjoined]
  · obtain rfl := Except.ok.inj (heq.symm.trans h)
    exact Or.inr ⟨rfl, hcol, rfl⟩

end Commands

/-! ## One key -/

/-- Backspace on the first line with no text to the left. -/
def CopiesLine (s : State) (key : Key) : Prop :=
  s.mode = .insert ∧ key.text = Keys.BS ∧ s.cursor.line ≤ 0 ∧
    (s.cursor.col ≤ 0 ∨ s.buffer.elems.head? = some [])

instance (s : State) (key : Key) : Decidable (CopiesLine s key) :=
  inferInstanceAs (Decidable (_ ∧ _))

theorem copiesLine_of_start {s n : State} {key : Key} {line : JsString} {after : List JsString}
    (hdecode : decode s.mode key = some .backspace)
    (hnormal : normalizeCursor (resetCount s) {} = .ok n) (hat : n.At [] line after)
    (hcol : clampCol n.mode line.length n.cursor.col = 0) : CopiesLine s key := by
  have hmode : s.mode = .insert := mode_of_decode_typing hdecode trivial
  have hkey : key.text = Keys.BS := by
    rw [hmode] at hdecode
    simp only [decode, Option.some.injEq] at hdecode
    split_ifs at hdecode with hesc hbs
    exact hbs
  have helems : s.buffer.elems = line :: after :=
    (congrArg JsArray.elems (normalizeCursor_fields hnormal).1).symm.trans hat.elems_eq
  obtain ⟨current, hget, rfl⟩ := normalizeCursor_eq_ok hnormal
  have hline := hat.line_eq
  obtain rfl : line = current := Option.some.inj (hat.get?_line.symm.trans hget)
  refine ⟨hmode, hkey, ?_, ?_⟩
  · simp only [clampLine, resetCount_mode, hmode, endOfLine_insert, resetCount_cursor,
      resetCount_buffer, JsArray.length, helems] at hline
    simp at hline
    omega
  · rw [clampCol_clampCol, resetCount_mode, hmode, clampCol, endOfLine_insert] at hcol
    rw [helems, List.head?_cons, Option.some.injEq, ← List.length_eq_zero_iff]
    simp only [resetCount_cursor] at hcol
    omega

theorem units_perform {s t : State} (hrange : s.InRange) {key : Key} {command : Command}
    (hdecode : decode s.mode key = some command) (h : s.perform command = .ok t) :
    t.units.Subperm (s.units ++ typedText s key) ∨
      (CopiesLine s key ∧ ∃ line after, s.buffer.elems = line :: after ∧
        t.buffer.elems = (line :: after).dropLast ++ [line]) := by
  have hproper := proper_of_decode hdecode
  have hreset : (resetCount s).InRange := hrange.congr rfl rfl
  rw [← typed_of_decode hdecode]
  by_cases hquiet : Command.Quiet command
  · left
    rw [State.units, elems_of_quiet hquiet h]
    exact (List.sublist_append_left _ _).subperm
  cases command with
  | openLine location =>
      obtain rfl := Except.ok.inj h
      exact Or.inl (subperm_insertLine location (resetCount s))
  | backspace =>
      obtain ⟨n, before, line, after, hnormal, hat, h⟩ := typing_eq_ok (by trivial) h
      have hunits : n.units = s.units := units_of_normalize (s := resetCount s) hnormal
      rcases subperm_backspace hat h with hkept | ⟨rfl, hcol, helems⟩
      · exact Or.inl (hunits ▸ hkept)
      · right
        have hbuffer := congrArg JsArray.elems (normalizeCursor_fields hnormal).1
        refine ⟨copiesLine_of_start hdecode hnormal hat hcol, line, after, ?_, helems⟩
        exact hbuffer.symm.trans hat.elems_eq
  | breakLine =>
      obtain ⟨n, before, line, after, hnormal, hat, h⟩ := typing_eq_ok (by trivial) h
      have hunits : n.units = s.units := units_of_normalize (s := resetCount s) hnormal
      exact Or.inl (hunits ▸ subperm_breakLine hat h)
  | type string =>
      obtain ⟨n, before, line, after, hnormal, hat, h⟩ := typing_eq_ok (by trivial) h
      have hunits : n.units = s.units := units_of_normalize (s := resetCount s) hnormal
      exact Or.inl (hunits ▸ subperm_type hat h)
  | deleteLine => exact Or.inl (subperm_deleteLine (s := resetCount s) h)
  | deleteTo motion => exact Or.inl (subperm_deleteTo (s := resetCount s) hreset hproper h)
  | changeLine => exact Or.inl (subperm_changeLine (s := resetCount s) hreset h)
  | changeTo motion =>
      rw [State.perform, changeTo_run] at h
      obtain ⟨u, hu, rfl⟩ := map_eq_ok.mp h
      have hkept : u.units.Subperm (s.units ++ []) :=
        subperm_deleteTo (s := resetCount s) hreset hproper hu
      exact Or.inl hkept
  | _ => exact (hquiet trivial).elim

theorem units_handleKey {s : State} (hrange : s.InRange) (key : Key) :
    (handleKey s key).units.Subperm (s.units ++ typedText s key) ∨
      (CopiesLine s key ∧ ∃ line after, s.buffer.elems = line :: after ∧
        (handleKey s key).buffer.elems = (line :: after).dropLast ++ [line]) := by
  have hkept : s.units.Subperm (s.units ++ typedText s key) :=
    (List.sublist_append_left _ _).subperm
  cases hdecode : decode s.mode key with
  | none =>
      rw [handleKey_eq, hdecode]
      exact Or.inl hkept
  | some command =>
      cases hperform : s.perform command with
      | error fault =>
          rw [handleKey_of_error hdecode hperform]
          exact Or.inl hkept
      | ok t =>
          rw [handleKey_of_perform hdecode hperform]
          exact units_perform hrange hdecode hperform

theorem units_subset {s : State} (hrange : s.InRange) (key : Key) :
    (handleKey s key).units ⊆ s.units ++ typedText s key := by
  rcases units_handleKey hrange key with hkept | ⟨-, line, after, hs, ht⟩
  · exact hkept.subset
  · intro c hc
    rw [State.units, ht, List.flatten_append, List.mem_append] at hc
    rw [State.units, hs, List.mem_append]
    left
    rcases hc with hc | hc
    · exact (List.dropLast_sublist _).flatten.subset hc
    · rw [List.flatten_singleton] at hc
      exact List.mem_append_left _ hc

/-! ## Whole runs -/

theorem filter_text (s : State) : s.text.filter (· ≠ newline) = s.units.filter (· ≠ newline) :=
  Lines.filter_join newline s.buffer.elems

theorem mem_units_of_mem_text {s : State} {c : CodeUnit} (h : c ∈ s.text) :
    c = newline ∨ c ∈ s.units := by
  by_cases hc : c = newline
  · exact Or.inl hc
  · right
    have hfilter : c ∈ s.text.filter (· ≠ newline) := List.mem_filter.mpr ⟨h, by simpa using hc⟩
    rw [filter_text] at hfilter
    exact List.mem_of_mem_filter hfilter

theorem units_startEditing (content : JsString) :
    List.Sublist (startEditing content).units content := by
  have hfree : (startEditing content).units.filter (· ≠ newline) =
      (startEditing content).units := by
    apply List.filter_eq_self.mpr
    intro c hc
    obtain ⟨line, hline, hc⟩ := List.mem_flatten.mp hc
    simp only [decide_eq_true_eq]
    rintro rfl
    exact Lines.sep_notMem_of_mem_splitOn hline hc
  rw [← hfree, ← filter_text, text_startEditing]
  exact List.filter_sublist

/-- Whatever the keys, every character of the text was in the opened content or
was typed in insert mode, apart from the newlines. -/
theorem text_provenance (content : JsString) (keys : List Key) :
    ∀ c ∈ (run content keys).text, c = newline ∨ c ∈ content ∨
      c ∈ gathered handleKey typedText (startEditing content) keys := by
  intro c hc
  have hrange := (regular_startEditing content).2
  have hsub := held_subset (P := fun _ _ ↦ True) (fun _ key hs ↦ hs.handleKey key)
    (fun _ key hs _ ↦ units_subset hs key) hrange
    (along_of_forall (fun _ _ ↦ trivial) (startEditing content) keys)
  apply (mem_units_of_mem_text hc).imp_right
  intro hunits
  rcases List.mem_append.mp (hsub hunits) with hold | hnew
  · exact Or.inl ((units_startEditing content).subset hold)
  · exact Or.inr hnew

theorem text_provenance_inserted :
    unit 'x' = newline ∨ unit 'x' ∈ lit "ab" ∨
      unit 'x' ∈ gathered handleKey typedText (startEditing (lit "ab")) [key "i", key "x"] :=
  text_provenance (lit "ab") [key "i", key "x"] (unit 'x') (by decide)

/-- As long as backspace is not pressed at the start of the text, nothing is
there twice that was opened and typed once. -/
theorem text_without_copies (content : JsString) (keys : List Key)
    (h : Along handleKey (fun s key ↦ ¬ CopiesLine s key) (startEditing content) keys) :
    ((run content keys).text.filter (· ≠ newline)).Subperm
      (content ++ gathered handleKey typedText (startEditing content) keys) := by
  have hrange := (regular_startEditing content).2
  have hsub := held_subperm (fun _ key hs ↦ hs.handleKey key)
    (fun s key hs hkey ↦ (units_handleKey hs key).resolve_right fun hand ↦ hkey hand.1) hrange h
  rw [filter_text]
  apply List.filter_sublist.subperm.trans
  apply hsub.trans
  exact (units_startEditing content).subperm.append (List.Subperm.refl _)

theorem text_without_copies_inserted :
    ((run (lit "ab") [key "i", key "x", key "<BS>"]).text.filter (· ≠ newline)).Subperm
      (lit "ab" ++ gathered handleKey typedText (startEditing (lit "ab"))
        [key "i", key "x", key "<BS>"]) :=
  text_without_copies (lit "ab") [key "i", key "x", key "<BS>"] (by decide)

end CoffeeTable.Editor

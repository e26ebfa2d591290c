import CoffeeTable.Editor.Safety

/-!
# Keys that keep the text

Most commands leave the buffer alone or only add to it. A run that uses no
operator and no backspace therefore loses nothing: the opened content stays a
subsequence of the text to save. A run that only looks leaves that text equal
to the content. In both, no key leads the cursor out of the buffer.
-/

namespace CoffeeTable.Editor

open Ecma Transition

def Command.Quiet : Command → Prop
  | .execBox => True
  | .insert _ => True
  | .enter _ => True
  | .move _ => True
  | .digit _ => True
  | .top => True
  | _ => False

/-- Commands that put something into the buffer and take nothing out. -/
def Command.Adds : Command → Prop
  | .openLine _ => True
  | .breakLine => True
  | .type _ => True
  | _ => False

theorem Command.Quiet.not_leavesBuffer {s : State} {command : Command} (h : command.Quiet) :
    ¬ command.LeavesBuffer s := by
  cases command <;> first | exact id | exact h.elim

theorem Command.Adds.not_leavesBuffer {s : State} {command : Command} (h : command.Adds) :
    ¬ command.LeavesBuffer s := by
  cases command <;> first | exact id | exact h.elim

theorem elems_of_quiet {s t : State} {command : Command} (hquiet : command.Quiet)
    (h : s.perform command = .ok t) : t.buffer.elems = s.buffer.elems := by
  cases command with
  | execBox =>
      cases h
      rfl
  | insert location =>
      cases h
      cases location <;> rfl
  | enter mode =>
      cases h
      rfl
  | move motion =>
      obtain ⟨cursor, -, h⟩ := bind_eq_ok.mp h
      cases h
      rfl
  | digit number =>
      obtain ⟨typed, -, h⟩ := bind_eq_ok.mp h
      cases h
      rfl
  | top =>
      rw [State.perform, Command.run, gotoLine_int] at h
      obtain ⟨n, hn, rfl⟩ := map_eq_ok.mp h
      exact congrArg JsArray.elems (normalizeCursor_fields hn).1
  | _ => exact hquiet.elim

theorem text_sublist_of_adds {s t : State} (hs : s.Inside) {command : Command}
    (hadds : command.Adds) (h : s.perform command = .ok t) : List.Sublist s.text t.text := by
  obtain ⟨before, line, after, hat⟩ := hs.exists_at
  have hreset := hat.resetCount
  rw [State.text, State.text, hat.elems_eq]
  cases command with
  | openLine location =>
      cases location with
      | before =>
          obtain rfl := Except.ok.inj ((congrArg Except.ok hreset.insertLine_before).symm.trans h)
          exact Lines.join_sublist_of_break newline before after [] line
      | after =>
          obtain rfl := Except.ok.inj ((congrArg Except.ok hreset.insertLine_after).symm.trans h)
          simpa using Lines.join_sublist_of_break newline before after line []
  | breakLine =>
      obtain rfl := Except.ok.inj (hreset.breakLineAtCursor_eq.symm.trans h)
      have hbreak := Lines.join_sublist_of_break newline before after
        (sliceTo line (clampCol s.mode line.length s.cursor.col))
        (sliceFrom line (clampCol s.mode line.length s.cursor.col))
      rwa [sliceTo_append_sliceFrom] at hbreak
  | type string =>
      obtain rfl := Except.ok.inj ((hreset.insertStringAtCursor_eq string).symm.trans h)
      apply Lines.join_sublist_of_line
      have hparts : List.Sublist
          (sliceTo line (clampCol s.mode line.length s.cursor.col) ++
            sliceFrom line (clampCol s.mode line.length s.cursor.col))
          (sliceTo line (clampCol s.mode line.length s.cursor.col) ++ string ++
            sliceFrom line (clampCol s.mode line.length s.cursor.col)) :=
        (List.sublist_append_left _ _).append (List.Sublist.refl _)
      rwa [sliceTo_append_sliceFrom] at hparts
  | _ => exact hadds.elim

theorem modeAfter_cases (command : Command) (mode : Mode) :
    command.modeAfter mode = mode ∨ command.modeAfter mode = .insert ∨
      command.modeAfter mode = .command ∨ command = .enter (command.modeAfter mode) := by
  cases command with
  | enter entered => exact Or.inr (Or.inr (Or.inr rfl))
  | _ => simp [Command.modeAfter]

/-- The runs of a kind of key that only gives such commands, inside the buffer. -/
theorem handleKey_of_gentle {s : State} (hs : s.Inside) (hcounted : s.Counted) {key : Key}
    (hgentle : ∀ command, decode s.mode key = some command → command.Quiet ∨ command.Adds) :
    (handleKey s key).Inside := by
  apply handleKey_inside hs hcounted
  rintro ⟨command, hdecode, hleaves⟩
  rcases hgentle command hdecode with hquiet | hadds
  · exact hquiet.not_leavesBuffer hleaves
  · exact hadds.not_leavesBuffer hleaves

/-! ## No lost text -/

/-- Neither operator key in command mode, and no backspace in insert mode. -/
def KeepsText (s : State) (key : Key) : Prop :=
  ¬ (s.mode = .command ∧ (key.text = lit "d" ∨ key.text = lit "c")) ∧
    ¬ (s.mode = .insert ∧ key.text = Keys.BS)

instance (s : State) (key : Key) : Decidable (KeepsText s key) :=
  inferInstanceAs (Decidable (_ ∧ _))

def State.NoOperator (s : State) : Prop := s.mode ≠ .delete ∧ s.mode ≠ .change

theorem command_of_keepsText {s : State} (hmode : s.NoOperator) {key : Key}
    (hkey : KeepsText s key) {command : Command} (hdecode : decode s.mode key = some command) :
    (command.Quiet ∨ command.Adds) ∧ command ≠ .enter .delete ∧ command ≠ .enter .change := by
  by_cases hins : s.mode = .insert
  · rw [hins] at hdecode
    simp only [decode, Option.some.injEq] at hdecode
    split_ifs at hdecode with hesc hbs hcr <;> subst hdecode
    · exact ⟨Or.inl trivial, by simp, by simp⟩
    · exact (hkey.2 ⟨hins, hbs⟩).elim
    · exact ⟨Or.inr trivial, by simp, by simp⟩
    · exact ⟨Or.inr trivial, by simp, by simp⟩
  · cases decoded_of_decode hins hdecode with
    | own hmem =>
        have hall : ∀ entry ∈ ownTable s.mode, ¬ (s.mode = .command ∧
            (entry.1 = lit "d" ∨ entry.1 = lit "c")) → (entry.2.Quiet ∨ entry.2.Adds) ∧
              entry.2 ≠ .enter .delete ∧ entry.2 ≠ .enter .change := by
          cases hcase : s.mode with
          | command => simp [ownTable, commandTable, Command.Quiet, Command.Adds]
          | insert => exact (hins hcase).elim
          | delete => exact (hmode.1 hcase).elim
          | change => exact (hmode.2 hcase).elim
          | goto => simp [ownTable, Command.Quiet]
        exact hall _ hmem hkey.1
    | motion huse _ =>
        rcases motionUse_eq_some huse with ⟨-, rfl⟩ | ⟨hcase, -⟩ | ⟨hcase, -⟩
        · exact ⟨Or.inl trivial, by simp, by simp⟩
        · exact (hmode.1 hcase).elim
        · exact (hmode.2 hcase).elim
    | digit _ => exact ⟨Or.inl trivial, by simp, by simp⟩
    | cancel hcase _ => exact (hcase.elim hmode.1 hmode.2).elim

structure Keeping (content : JsString) (s : State) : Prop where
  inside : s.Inside
  counted : s.Counted
  noOperator : s.NoOperator
  sublist : List.Sublist content s.text

theorem Keeping.handleKey {content : JsString} {s : State} (hs : Keeping content s) {key : Key}
    (hkey : KeepsText s key) : Keeping content (handleKey s key) := by
  cases hdecode : decode s.mode key with
  | none =>
      rw [handleKey_eq, hdecode]
      exact hs
  | some command =>
      have hcommand := command_of_keepsText hs.noOperator hkey hdecode
      obtain ⟨t, ht, -⟩ := perform_of_inside hs.inside hs.counted hdecode
      have hinside : (Editor.handleKey s key).Inside := by
        refine handleKey_of_gentle hs.inside hs.counted fun other hother ↦ ?_
        obtain rfl := Option.some.inj (hdecode.symm.trans hother)
        exact hcommand.1
      have hcounted := hs.counted.handleKey key
      rw [handleKey_of_perform hdecode ht] at hinside hcounted ⊢
      refine ⟨hinside, hcounted, ?_, ?_⟩
      · have hmode : t.mode = command.modeAfter s.mode :=
          mode_of_run (s := resetCount s) ht
        rw [State.NoOperator, hmode]
        rcases modeAfter_cases command s.mode with hsame | hinsert | hback | henter
        · rw [hsame]
          exact hs.noOperator
        · exact ⟨by simp [hinsert], by simp [hinsert]⟩
        · exact ⟨by simp [hback], by simp [hback]⟩
        · exact ⟨fun hd ↦ hcommand.2.1 (hd ▸ henter), fun hc ↦ hcommand.2.2 (hc ▸ henter)⟩
      · rcases hcommand.1 with hquiet | hadds
        · have htext : t.text = s.text :=
            congrArg (Lines.join newline) (elems_of_quiet hquiet ht)
          rw [htext]
          exact hs.sublist
        · exact hs.sublist.trans (text_sublist_of_adds hs.inside hadds ht)

/-- Keys that run no editing action: `<ESC>` in insert mode, no opening of
lines in command mode, and under an operator neither a movement nor the
operator again. -/
def Mode.OnlyLooks (key : Key) : Mode → Prop
  | .command => key.text ≠ lit "o" ∧ key.text ≠ lit "O"
  | .insert => key.text = Keys.ESC
  | .delete => movementKeys.lookup key.text = none ∧ key.text ≠ lit "d"
  | .change => movementKeys.lookup key.text = none ∧ key.text ≠ lit "c"
  | .goto => True

instance (key : Key) : (mode : Mode) → Decidable (mode.OnlyLooks key)
  | .command => inferInstanceAs (Decidable (_ ∧ _))
  | .insert => inferInstanceAs (Decidable (key.text = Keys.ESC))
  | .delete => inferInstanceAs (Decidable (_ ∧ _))
  | .change => inferInstanceAs (Decidable (_ ∧ _))
  | .goto => isTrue trivial

def OnlyLooks (s : State) (key : Key) : Prop := s.mode.OnlyLooks key

instance (s : State) (key : Key) : Decidable (OnlyLooks s key) :=
  inferInstanceAs (Decidable (s.mode.OnlyLooks key))

theorem quiet_of_onlyLooks {s : State} {key : Key} (hkey : OnlyLooks s key) {command : Command}
    (hdecode : decode s.mode key = some command) : command.Quiet := by
  unfold OnlyLooks at hkey
  generalize s.mode = mode at hkey hdecode
  by_cases hins : mode = .insert
  · subst hins
    have hesc : key.text = Keys.ESC := hkey
    obtain rfl : .enter .command = command := by simpa [decode, hesc] using hdecode
    trivial
  · cases decoded_of_decode hins hdecode with
    | own hmem =>
        cases mode with
        | command =>
            have hall : ∀ entry ∈ commandTable, entry.1 ≠ lit "o" → entry.1 ≠ lit "O" →
                entry.2.Quiet := by
              simp [commandTable, Command.Quiet]
            exact hall _ hmem hkey.1 hkey.2
        | insert => exact (hins rfl).elim
        | delete => exact (hkey.2 (Prod.mk.inj (List.mem_singleton.mp hmem)).1).elim
        | change => exact (hkey.2 (Prod.mk.inj (List.mem_singleton.mp hmem)).1).elim
        | goto =>
            obtain rfl := (Prod.mk.inj (List.mem_singleton.mp hmem)).2
            trivial
    | motion huse hmotion =>
        have hlookup : movementKeys.lookup key.text ≠ none := by
          rw [movementKeys_lookup, hmotion]
          simp
        rcases motionUse_eq_some huse with ⟨-, rfl⟩ | ⟨rfl, -⟩ | ⟨rfl, -⟩
        · trivial
        · exact (hlookup hkey.1).elim
        · exact (hlookup hkey.1).elim
    | digit _ => trivial
    | cancel _ _ => trivial

theorem text_of_onlyLooks {s : State} (hs : s.Inside) (hcounted : s.Counted) {key : Key}
    (hkey : OnlyLooks s key) : (handleKey s key).text = s.text := by
  cases hdecode : decode s.mode key with
  | none => rw [handleKey_eq, hdecode]
  | some command =>
      obtain ⟨t, ht, -⟩ := perform_of_inside hs hcounted hdecode
      rw [handleKey_of_perform hdecode ht]
      exact congrArg (Lines.join newline) (elems_of_quiet (quiet_of_onlyLooks hkey hdecode) ht)

end CoffeeTable.Editor

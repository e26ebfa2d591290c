import CoffeeTable.Editor.Operator

/-!
# The way back to command mode

Insert mode has a key of its own for leaving it, and delete and change mode
have a catchall that cancels the operator. Goto mode exists only because a key
is registered in it. It has no catchall, so that no key but that one does
anything, the escape key included. A run can be escaped from throughout if it
never enters goto mode.
-/

namespace CoffeeTable.Editor

open Ecma Transition

/-- The mode has the key itself or in an included group. -/
def Bound (mode : Mode) (key : Key) : Prop :=
  ((actionGroups mode).keys.lookup key.text).isSome ∨
    ((actionGroups mode).subgroups.findSome? (·.actionOfKey key)).isSome

/-- The keys that are to lead back to command mode. -/
def Leaves (mode : Mode) (key : Key) : Prop :=
  (mode ≠ .command ∧ key.text = Keys.ESC) ∨
    ((mode = .delete ∨ mode = .change ∨ mode = .goto) ∧ ¬ Bound mode key)

def Escapes (s : State) : Prop :=
  ∀ key, Leaves s.mode key →
    handleKey s key = { s with mode := .command, repeatNumber := some 0 }

theorem actionOfKey_of_not_bound {mode : Mode} {key : Key} (h : ¬ Bound mode key) :
    actionOfKey mode key = (actionGroups mode).catchall := by
  rw [Bound, not_or, Option.not_isSome_iff_eq_none, Option.not_isSome_iff_eq_none] at h
  simp only [actionOfKey, h.1, h.2]

theorem not_bound_escape {mode : Mode} (hmode : mode ≠ .insert) {key : Key}
    (hkey : key.text = Keys.ESC) : ¬ Bound mode key := by
  have hmotion : motionOf key = none := by
    rw [motionOf, hkey]
    decide
  have hdigit : digitOf key = none := by
    rw [digitOf, hkey]
    decide
  have hsubgroup (subgroup : Subgroup) : subgroup.actionOfKey key = none := by
    cases subgroup <;>
      simp [Subgroup.actionOfKey, movementKeys_lookup, repeatNumberKeys_lookup, hmotion, hdigit]
  rw [Bound, not_or, Option.not_isSome_iff_eq_none, Option.not_isSome_iff_eq_none]
  refine ⟨?_, List.findSome?_eq_none_iff.mpr fun subgroup _ ↦ hsubgroup subgroup⟩
  rw [hkey]
  cases mode with
  | insert => exact (hmode rfl).elim
  | command => rfl
  | delete => rfl
  | change => rfl
  | goto => rfl

theorem handleKey_of_cancel {s : State} {key : Key}
    (h : actionOfKey s.mode key = some (pureAction (enterMode .command))) :
    handleKey s key = { s with mode := .command, repeatNumber := some 0 } := by
  rw [handleKey, press, h]
  rfl

/-- In every mode but goto mode there is a way back. -/
theorem escapes_iff (s : State) : Escapes s ↔ s.mode ≠ .goto := by
  constructor
  · intro h hgoto
    have hleaves : Leaves s.mode (key "<ESC>") := Or.inl ⟨by simp [hgoto], rfl⟩
    have hunbound : ¬ Bound s.mode (key "<ESC>") := not_bound_escape (by simp [hgoto]) rfl
    have hnone : actionOfKey s.mode (key "<ESC>") = none := by
      rw [actionOfKey_of_not_bound hunbound, hgoto]
      rfl
    have hstays : handleKey s (key "<ESC>") = s := by rw [handleKey, press, hnone]; rfl
    have hmode := congrArg State.mode ((h _ hleaves).symm.trans hstays)
    rw [hgoto] at hmode
    cases hmode
  · rintro hgoto key (⟨hcommand, hkey⟩ | ⟨hmode, hunbound⟩)
    · apply handleKey_of_cancel
      cases hmode : s.mode with
      | command => exact (hcommand hmode).elim
      | goto => exact (hgoto hmode).elim
      | insert =>
          rw [actionOfKey, hkey]
          rfl
      | delete => rw [actionOfKey_of_not_bound (not_bound_escape (by decide) hkey)]; rfl
      | change => rw [actionOfKey_of_not_bound (not_bound_escape (by decide) hkey)]; rfl
    · apply handleKey_of_cancel
      rw [actionOfKey_of_not_bound hunbound]
      rcases hmode with hmode | hmode | hmode
      · rw [hmode]
        rfl
      · rw [hmode]
        rfl
      · exact (hgoto hmode).elim

/-! ## How goto mode is entered -/

theorem modeAfter_eq_goto {command : Command} {mode : Mode} (hmode : mode ≠ .goto)
    (h : command.modeAfter mode = .goto) : command = .enter .goto := by
  cases command with
  | enter entered => exact congrArg Command.enter h
  | _ => first | exact (hmode h).elim | cases h

theorem decoded_goto {mode : Mode} {key : Key} {command : Command}
    (h : Decoded mode key command) (hcommand : command = .enter .goto) :
    mode = .command ∧ key.text = lit "g" := by
  cases h with
  | own hmem =>
      rw [hcommand] at hmem
      cases mode with
      | command => exact ⟨rfl, by simpa [ownTable, commandTable] using hmem⟩
      | insert => cases hmem
      | delete => simp [ownTable] at hmem
      | change => simp [ownTable] at hmem
      | goto => simp [ownTable] at hmem
  | motion huse _ =>
      rcases motionUse_eq_some huse with ⟨-, rfl⟩ | ⟨-, rfl⟩ | ⟨-, rfl⟩ <;> cases hcommand
  | digit _ => cases hcommand
  | cancel _ _ => cases hcommand

theorem decode_eq_goto {mode : Mode} {key : Key} :
    decode mode key = some (.enter .goto) ↔ mode = .command ∧ key.text = lit "g" := by
  constructor
  · intro h
    have hmode : mode ≠ .insert := mode_ne_insert_of_decode h (by decide) id
    exact decoded_goto (decoded_of_decode hmode h) rfl
  · rintro ⟨rfl, hkey⟩
    simp only [decode, hkey]
    rfl

theorem mode_ne_goto_iff {s : State} (hs : s.mode ≠ .goto) (key : Key) :
    (handleKey s key).mode ≠ .goto ↔ ¬ (s.mode = .command ∧ key.text = lit "g") := by
  rw [← decode_eq_goto, handleKey_eq]
  cases hdecode : decode s.mode key with
  | none => simpa using hs
  | some command =>
      simp only [Option.some.injEq]
      constructor
      · rintro hmode rfl
        exact hmode rfl
      · intro hcommand hmode
        cases hperform : s.perform command with
        | error fault =>
            simp only [hperform, resetCount_mode] at hmode
            exact hs hmode
        | ok t =>
            simp only [hperform] at hmode
            exact hcommand (modeAfter_eq_goto hs ((mode_of_run hperform).symm.trans hmode))

/-- A reached state has its way back to command mode exactly if it is not in
goto mode, and all states of a run do exactly if the key that enters goto mode
is never pressed in command mode. -/
theorem run_escapes_iff (content : JsString) (keys : List Key) :
    (Escapes (run content keys) ↔ (run content keys).mode ≠ .goto) ∧
      (Throughout handleKey Escapes (startEditing content) keys ↔
        Along handleKey (fun s key ↦ ¬ (s.mode = .command ∧ key.text = lit "g"))
          (startEditing content) keys) := by
  have hstart : Escapes (startEditing content) :=
    (escapes_iff _).mpr (show Mode.command ≠ .goto by decide)
  refine ⟨escapes_iff _, ?_⟩
  refine throughout_iff_along (I := fun _ ↦ True) (fun _ _ _ ↦ trivial) ?_ trivial hstart
  intro s key _ hs
  rw [escapes_iff, mode_ne_goto_iff ((escapes_iff s).mp hs)]

theorem not_escapes_after_g :
    Leaves (run (lit "a") [key "g"]).mode (key "<ESC>") ∧
      (handleKey (run (lit "a") [key "g"]) (key "<ESC>")).mode = .goto ∧
      ¬ Escapes (run (lit "a") [key "g"]) := by
  have hleaves : Leaves (run (lit "a") [key "g"]).mode (key "<ESC>") :=
    Or.inl ⟨by decide, rfl⟩
  have hstays : (handleKey (run (lit "a") [key "g"]) (key "<ESC>")).mode = .goto := by decide
  refine ⟨hleaves, hstays, fun h ↦ ?_⟩
  rw [h _ hleaves] at hstays
  cases hstays

end CoffeeTable.Editor

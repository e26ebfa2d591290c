import CoffeeTable.Editor.Keymap
import CoffeeTable.Keyboard.Keys

/-!
# Key events

A key event is let through by its type, looked up by its key code, taken for a
character if the code is none of the seven, and wrapped if control is held.
The lookup does not ask for the type, so that a character whose code is that
of a special key is taken for that key, and the wrapping refuses an angle
bracket. On all other events the key is the one that was pressed.
-/

namespace CoffeeTable.Keyboard

open Ecma Editor

inductive EventType where
  | keydown
  | keypress
  deriving DecidableEq

structure KeyEvent where
  type : EventType
  keyCode : ℕ
  charCode : ℕ
  altKey : Bool := false
  metaKey : Bool := false
  ctrlKey : Bool := false

/-- The seven constants at their standard values. -/
def keydownKeycodeMap : List (ℕ × JsString) :=
  [(8, Keys.BS), (13, Keys.CR), (27, Keys.ESC), (37, Keys.LEFT), (38, Keys.UP), (39, Keys.RIGHT),
    (40, Keys.DOWN)]

def fromCharCode (charCode : ℕ) : JsString := [charCode.toUInt16]

def goodInput (e : KeyEvent) : Bool :=
  match e.type with
  | .keydown => (keydownKeycodeMap.lookup e.keyCode).isSome
  | .keypress => e.charCode ≠ 0

/-- What the handler calls the callback with, if it does, or the message of its
exception. -/
def grabFocus (e : KeyEvent) : Option (Except JsString JsString) :=
  let notYetImplemented := e.altKey || e.metaKey
  if notYetImplemented || !goodInput e then none
  else
    let key := (keydownKeycodeMap.lookup e.keyCode).getD (fromCharCode e.charCode)
    some (if e.ctrlKey then ctrl key else .ok key)

/-! ## The key that was pressed -/

/-- The key of an event without regard to control, if the event is for the editor. -/
def pressedKey (e : KeyEvent) : Option JsString :=
  if e.altKey || e.metaKey then none
  else
    match e.type with
    | .keydown => keydownKeycodeMap.lookup e.keyCode
    | .keypress => if e.charCode = 0 then none else some (fromCharCode e.charCode)

/-- The callback gets the key that was pressed, in its control form if control
is held, and is not called if there is none. -/
def Decodes (e : KeyEvent) : Prop :=
  match pressedKey e with
  | none => grabFocus e = none
  | some key => ∃ delivered, grabFocus e = some (.ok delivered) ∧
      if e.ctrlKey then ctrl key = .ok delivered else delivered = key

/-- A character that is let through, and either has the key code of a special
key or is held with control and has no control form. -/
def Misread (e : KeyEvent) : Prop :=
  e.type = .keypress ∧ e.altKey = false ∧ e.metaKey = false ∧ e.charCode ≠ 0 ∧
    (e.keyCode ∈ keydownKeycodeMap.map Prod.fst ∨
      (e.ctrlKey = true ∧
        ¬ ∃ u, toUpperCase (fromCharCode e.charCode) = [u] ∧ u ≠ unit '<'))

theorem lookup_eq_none_iff (keyCode : ℕ) :
    keydownKeycodeMap.lookup keyCode = none ↔ keyCode ∉ keydownKeycodeMap.map Prod.fst := by
  simp [keydownKeycodeMap]

theorem mem_of_lookup_keyCode {keyCode : ℕ} {name : JsString}
    (h : keydownKeycodeMap.lookup keyCode = some name) :
    name ∈ keydownKeycodeMap.map Prod.snd := by
  obtain ⟨before, after, hmap, -⟩ := List.lookup_eq_some_iff.mp h
  rw [hmap]
  simp

/-- Each of the seven names is longer than any of a character, and has a control form. -/
theorem ctrl_special {name : JsString} (hname : name ∈ keydownKeycodeMap.map Prod.snd) :
    4 ≤ name.length ∧ ctrl name = .ok (lit "<C-" ++ name.tail) := by
  have hall : ∀ name ∈ keydownKeycodeMap.map Prod.snd,
      4 ≤ name.length ∧ ctrl name = .ok (lit "<C-" ++ name.tail) := by
    decide
  exact hall name hname

theorem ctrl_special_ne {name key : JsString} (hname : name ∈ keydownKeycodeMap.map Prod.snd)
    (h : ctrl name = .ok key) (c : CodeUnit) : ctrl [c] ≠ .ok key := by
  intro hc
  obtain ⟨hlength, hctrl⟩ := ctrl_special hname
  obtain ⟨u, -, -, hkey⟩ := ctrl_singleton_eq_ok hc
  rw [hctrl] at h
  have hlong := congrArg List.length ((Except.ok.inj h).trans hkey)
  have hframe : (lit "<C-").length = 3 := rfl
  have hclose : (lit ">").length = 1 := rfl
  rw [ctrlName, List.length_append, List.length_append, List.length_append, List.length_tail,
    hframe, hclose] at hlong
  split_ifs at hlong <;> simp at hlong <;> omega

/-! ## Which events are read as pressed -/

section Read

variable {e : KeyEvent}

theorem grabFocus_of_modified (h : (e.altKey || e.metaKey) = true) : grabFocus e = none := by
  simp only [grabFocus, h, Bool.true_or, if_true]

theorem grabFocus_of_bad (h : goodInput e = false) : grabFocus e = none := by
  simp only [grabFocus, h, Bool.not_false, Bool.or_true, if_true]

theorem grabFocus_of_good (hplain : (e.altKey || e.metaKey) = false) (h : goodInput e = true) :
    grabFocus e =
      let key := (keydownKeycodeMap.lookup e.keyCode).getD (fromCharCode e.charCode)
      some (if e.ctrlKey then ctrl key else .ok key) := by
  simp only [grabFocus, hplain, h, Bool.not_true, Bool.or_false, Bool.false_eq_true, if_false]

theorem decodes_of_pressedKey_none (hpressed : pressedKey e = none) (h : grabFocus e = none) :
    Decodes e := by
  rw [Decodes, hpressed]
  exact h

/-- Reading a key that is let through, in terms of the looked up key. -/
theorem decodes_iff_of_good (hplain : (e.altKey || e.metaKey) = false) (h : goodInput e = true)
    {key : JsString} (hpressed : pressedKey e = some key) {name : Option JsString}
    (hlookup : keydownKeycodeMap.lookup e.keyCode = name) :
    Decodes e ↔
      let looked := name.getD (fromCharCode e.charCode)
      if e.ctrlKey then ∃ delivered, ctrl looked = .ok delivered ∧ ctrl key = .ok delivered
      else looked = key := by
  rw [Decodes, hpressed, grabFocus_of_good hplain h, hlookup]
  by_cases hctrl : e.ctrlKey
  · simp only [hctrl, if_true, Option.some.injEq]
  · simp only [hctrl, if_false, Bool.false_eq_true, Option.some.injEq, Except.ok.injEq]
    exact ⟨fun ⟨_, hl, hk⟩ ↦ hl.trans hk, fun hsame ↦ ⟨_, rfl, hsame⟩⟩

theorem decodes_keydown (htype : e.type = .keydown) (hplain : (e.altKey || e.metaKey) = false) :
    Decodes e := by
  have hpressed : pressedKey e = keydownKeycodeMap.lookup e.keyCode := by
    simp only [pressedKey, hplain, Bool.false_eq_true, if_false, htype]
  have hgood : goodInput e = (keydownKeycodeMap.lookup e.keyCode).isSome := by
    rw [goodInput, htype]
  cases hlookup : keydownKeycodeMap.lookup e.keyCode with
  | none =>
      rw [hlookup] at hpressed hgood
      exact decodes_of_pressedKey_none hpressed (grabFocus_of_bad hgood)
  | some name =>
      rw [hlookup] at hpressed hgood
      rw [decodes_iff_of_good hplain hgood hpressed hlookup, Option.getD_some]
      have hctrl := (ctrl_special (mem_of_lookup_keyCode hlookup)).2
      split
      · exact ⟨_, hctrl, hctrl⟩
      · rfl

theorem decodes_keypress_iff (htype : e.type = .keypress)
    (hplain : (e.altKey || e.metaKey) = false) (hchar : e.charCode ≠ 0) :
    Decodes e ↔
      ¬ (e.keyCode ∈ keydownKeycodeMap.map Prod.fst ∨
        (e.ctrlKey = true ∧
          ¬ ∃ u, toUpperCase (fromCharCode e.charCode) = [u] ∧ u ≠ unit '<')) := by
  have hpressed : pressedKey e = some (fromCharCode e.charCode) := by
    simp only [pressedKey, hplain, Bool.false_eq_true, if_false, htype, if_neg hchar]
  have hgood : goodInput e = true := by
    rw [goodInput, htype]
    exact decide_eq_true hchar
  cases hlookup : keydownKeycodeMap.lookup e.keyCode with
  | none =>
      have hcode := (lookup_eq_none_iff e.keyCode).mp hlookup
      rw [decodes_iff_of_good hplain hgood hpressed hlookup, Option.getD_none,
        or_iff_right hcode]
      by_cases hctrl : e.ctrlKey
      · have haccepted := ctrl_singleton_iff e.charCode.toUInt16
        rw [if_pos hctrl, and_iff_right hctrl, not_not, fromCharCode, ← haccepted]
        exact exists_congr fun r ↦ and_self_iff
      · rw [if_neg hctrl]
        exact iff_of_true rfl fun h ↦ hctrl h.1
  | some name =>
      have hname := mem_of_lookup_keyCode hlookup
      have hcode : e.keyCode ∈ keydownKeycodeMap.map Prod.fst := by
        by_contra hnot
        rw [(lookup_eq_none_iff e.keyCode).mpr hnot] at hlookup
        cases hlookup
      rw [decodes_iff_of_good hplain hgood hpressed hlookup, Option.getD_some]
      refine iff_of_false ?_ (not_not.mpr (Or.inl hcode))
      split
      · rintro ⟨delivered, hspecial, hcharacter⟩
        exact ctrl_special_ne hname hspecial _ hcharacter
      · intro hsame
        have hlength := (ctrl_special hname).1
        rw [hsame] at hlength
        exact absurd hlength (by simp [fromCharCode])

end Read

/-- An event is read as pressed unless it is a character with the key code of a
special key, or one without a control form that is held with control. -/
theorem decodes_iff (e : KeyEvent) : Decodes e ↔ ¬ Misread e := by
  rw [Misread]
  by_cases hmodified : (e.altKey || e.metaKey) = true
  · have hpressed : pressedKey e = none := by
      simp only [pressedKey, hmodified, if_true]
    refine iff_of_true (decodes_of_pressedKey_none hpressed (grabFocus_of_modified hmodified)) ?_
    rintro ⟨-, halt, hmeta, -⟩
    rw [halt, hmeta] at hmodified
    cases hmodified
  · rw [Bool.not_eq_true] at hmodified
    obtain ⟨halt, hmeta⟩ := Bool.or_eq_false_iff.mp hmodified
    cases htype : e.type with
    | keydown =>
        refine iff_of_true (decodes_keydown htype hmodified) ?_
        rintro ⟨hpress, -⟩
        cases hpress
    | keypress =>
        by_cases hchar : e.charCode = 0
        · have hpressed : pressedKey e = none := by
            simp only [pressedKey, hmodified, Bool.false_eq_true, if_false, htype, if_pos hchar]
          have hbad : goodInput e = false := by
            rw [goodInput, htype]
            exact decide_eq_false (not_not.mpr hchar)
          refine iff_of_true (decodes_of_pressedKey_none hpressed (grabFocus_of_bad hbad)) ?_
          rintro ⟨-, -, -, hne, -⟩
          exact hne hchar
        · rw [decodes_keypress_iff htype hmodified hchar]
          simp only [halt, hmeta, hchar, ne_eq, not_false_eq_true, true_and]

theorem not_decodes_apostrophe :
    grabFocus { type := .keypress, keyCode := 39, charCode := 39 } = some (.ok (lit "<RIGHT>")) ∧
      ¬ Decodes { type := .keypress, keyCode := 39, charCode := 39 } ∧
      grabFocus { type := .keypress, keyCode := 0, charCode := 60, ctrlKey := true } =
        some (.error (lit "bad key <")) := by
  refine ⟨by decide, ?_, by decide⟩
  rintro ⟨delivered, hgrab, hsame⟩
  cases hgrab
  exact absurd hsame (by decide)

end CoffeeTable.Keyboard

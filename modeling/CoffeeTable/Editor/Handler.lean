import CoffeeTable.Editor.Keymap
import CoffeeTable.Transition.Run

/-!
# The key handler

`startEditing` splits the content into lines. Each key is looked up in the
current mode; a key without an action changes nothing. Otherwise the pending
count is reset in the state variable before the action runs, so that an action
that throws leaves the reset state behind and saves nothing.
-/

namespace CoffeeTable.Editor

open Ecma Transition

def startEditing (content : JsString) : State where
  cursor := ⟨0, 0⟩
  buffer := ⟨content.splitOn newline, []⟩
  mode := .command
  repeatNumber := some 0

def resetCount (state : State) : State := makeState state { repeatNumber := (0 : ℤ) }

def effectiveCount (actualRepeatNumber : Option ℤ) : Option ℤ :=
  if actualRepeatNumber = some 0 then some 1 else actualRepeatNumber

def press (state : State) (key : Key) : Option (Except Fault State) :=
  (actionOfKey state.mode key).map fun action ↦
    action (resetCount state) (effectiveCount state.repeatNumber) state.repeatNumber key

/-- The state variable after a key event. -/
def handleKey (state : State) (key : Key) : State :=
  match press state key with
  | none => state
  | some (.ok result) => result
  | some (.error _) => resetCount state

/-- The state handed to `save` by a key event. -/
def savedBy (state : State) (key : Key) : Option State :=
  match press state key with
  | some (.ok result) => some result
  | _ => none

def run (content : JsString) (keys : List Key) : State :=
  keys.foldl handleKey (startEditing content)

def Fails (state : State) (key : Key) : Prop := ∃ fault, press state key = some (.error fault)

instance (state : State) (key : Key) : Decidable (Fails state key) :=
  match h : press state key with
  | none => isFalse (by rintro ⟨fault, hf⟩; rw [h] at hf; cases hf)
  | some (.ok _) => isFalse (by rintro ⟨fault, hf⟩; rw [h] at hf; cases hf)
  | some (.error fault) => isTrue ⟨fault, h⟩

@[simp] theorem resetCount_cursor (s : State) : (resetCount s).cursor = s.cursor := rfl

@[simp] theorem resetCount_buffer (s : State) : (resetCount s).buffer = s.buffer := rfl

@[simp] theorem resetCount_mode (s : State) : (resetCount s).mode = s.mode := rfl

/-! ## The opened content -/

theorem startEditing_elems_ne_nil (content : JsString) :
    (startEditing content).buffer.elems ≠ [] := List.splitOn_ne_nil newline content

@[simp] theorem text_startEditing (content : JsString) :
    (startEditing content).text = content := List.intercalate_splitOn newline

theorem startEditing_inside (content : JsString) : (startEditing content).Inside where
  line_nonneg := le_refl 0
  line_lt := by
    have := List.length_pos_iff.mpr (startEditing_elems_ne_nil content)
    simpa [JsArray.length, startEditing] using this
  col_nonneg := le_refl 0

end CoffeeTable.Editor

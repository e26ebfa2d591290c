import CoffeeTable.Editor.Edit

/-!
# Key bindings

A key is a string: one code unit, or a name that opens with an angle bracket.
This is all the keyboard layer delivers, and it keeps every lookup away from
the names that plain objects inherit. Each mode has its own keys, its included
groups with the wrapper that turns their results into states, and possibly a
catchall; lookup tries them in that order.
-/

namespace CoffeeTable.Editor

open Ecma

structure Key where
  text : JsString
  shape : text.length = 1 ∨ text.head? = some (unit '<')
  deriving DecidableEq

def key (name : String) (shape : (lit name).length = 1 ∨ (lit name).head? = some (unit '<') := by
    decide) : Key := ⟨lit name, shape⟩

def Key.char (c : CodeUnit) : Key := ⟨[c], Or.inl rfl⟩

namespace Keys

def BS : JsString := lit "<BS>"
def CR : JsString := lit "<CR>"
def DOWN : JsString := lit "<DOWN>"
def ESC : JsString := lit "<ESC>"
def LEFT : JsString := lit "<LEFT>"
def RIGHT : JsString := lit "<RIGHT>"
def UP : JsString := lit "<UP>"

end Keys

/-- An action takes a state, the count to use, the count as typed, and the key. -/
abbrev Action := State → Option ℤ → Option ℤ → Key → Except Fault State

def stateAction (f : State → Except Fault State) : Action := fun state _ _ _ ↦ f state

def pureAction (f : State → State) : Action := stateAction fun state ↦ .ok (f state)

def pushRepeatNumber (number : ℕ) : Action := fun state _ repeatNumber _ ↦ do
  let typed ← countOf repeatNumber
  pure (makeState state { repeatNumber := some (typed * 10 + number) })

/-! ## Included groups -/

def movementKeys : List (JsString × Movement) :=
  [(lit "h", moveCursor 0 (-1)),
    (lit "l", moveCursor 0 1),
    (lit "j", moveCursor 1 0),
    (lit "k", moveCursor (-1) 0),
    (lit "<C-U>", moveCursor (-20) 0),
    (lit "<C-D>", moveCursor 20 0),
    (lit "G", moveCursorEndOfFile),
    (Keys.LEFT, moveCursor 0 (-1)),
    (Keys.UP, moveCursor (-1) 0),
    (Keys.RIGHT, moveCursor 0 1),
    (Keys.DOWN, moveCursor 1 0)]

def repeatNumberKeys : List (JsString × Action) :=
  (List.range 10).map fun i ↦ (digits i, pushRepeatNumber i)

inductive Subgroup where
  | movement (wrapper : State → Cursor → Except Fault State)
  | repeatNumber (wrapper : State → State → State)

def Subgroup.actionOfKey (subgroup : Subgroup) (key : Key) : Option Action :=
  match subgroup with
  | .movement wrapper =>
      (movementKeys.lookup key.text).map fun movement state repeatNumber _ _ ↦ do
        let cursor ← movement state repeatNumber
        wrapper state cursor
  | .repeatNumber wrapper =>
      (repeatNumberKeys.lookup key.text).map
        fun action state repeatNumber actualRepeatNumber key ↦ do
          let result ← action state repeatNumber actualRepeatNumber key
          pure (wrapper state result)

structure ActionGroup where
  keys : List (JsString × Action)
  subgroups : List Subgroup := []
  catchall : Option Action := none

/-! ## The five modes -/

def setCursor (state : State) (cursor : Cursor) : Except Fault State :=
  pure (makeState state { line := cursor.line, col := cursor.col })

def insertCatchall : Action := fun state _ _ key ↦
  if key.text = Keys.BS then deleteCharsAtCursor (-1) state
  else if key.text = Keys.CR then breakLineAtCursor state
  else insertStringAtCursor key.text state

def actionGroups : Mode → ActionGroup
  | .command =>
      { keys :=
          [(lit ":", pureAction openExec),
            (lit "i", pureAction (insert .before)),
            (lit "a", pureAction (insert .after)),
            (lit "o", pureAction (insertLine .after)),
            (lit "O", pureAction (insertLine .before)),
            (lit "d", pureAction (enterMode .delete)),
            (lit "c", pureAction (enterMode .change)),
            (lit "g", pureAction (enterMode .goto))]
        subgroups := [.movement setCursor, .repeatNumber fun _ state ↦ state] }
  | .insert =>
      { keys := [(lit "<ESC>", pureAction (enterMode .command))]
        catchall := insertCatchall }
  | .delete =>
      { keys := [(lit "d", stateAction deleteCurrentLine)]
        subgroups := [.movement deleteToCursor, .repeatNumber fun _ state ↦ state]
        catchall := pureAction (enterMode .command) }
  | .change =>
      { keys := [(lit "c", stateAction changeCurrentLine)]
        subgroups := [.movement changeToCursor, .repeatNumber fun _ state ↦ state]
        catchall := pureAction (enterMode .command) }
  | .goto =>
      { keys := [(lit "g", stateAction (gotoLine (.int 0)))] }

def actionOfKey (mode : Mode) (key : Key) : Option Action :=
  let group := actionGroups mode
  match group.keys.lookup key.text with
  | some action => some action
  | none =>
      match group.subgroups.findSome? (·.actionOfKey key) with
      | some action => some action
      | none => group.catchall

end CoffeeTable.Editor

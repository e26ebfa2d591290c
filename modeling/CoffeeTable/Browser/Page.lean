import CoffeeTable.Bounds.Viewport
import CoffeeTable.Editor.Exec
import CoffeeTable.Editor.Handler
import CoffeeTable.Keyboard.NamedKeys
import CoffeeTable.Transition.Channel
import CoffeeTable.Underscore.Debounce
import Mathlib.Algebra.Order.Ring.Rat

/-!
# The page around the editor

The page holds the state variable, the drawing, the two nodes that take keys,
and the debounced `save`. Its handlers are scripts: a script that throws keeps
what it has changed so far. What the browser lays out, and so where the cursor
stands, is a parameter.
-/

namespace CoffeeTable.Browser

open Bounds Ecma Editor Keyboard Transition Underscore

/-- The nodes that `grab_focus` is called for. -/
inductive Node where
  | editor
  | exec
  deriving DecidableEq

/-- The window, which is not resized, and what it makes of a drawing. -/
structure Window where
  height : ℚ
  documentHeight : JsString → ℚ
  /-- The offset of the cursor from the top of the document. -/
  cursorTop : JsString → ℚ
  cursorTop_nonneg : ∀ html, 0 ≤ cursorTop html
  cursorTop_le : ∀ html, cursorTop html ≤ documentHeight html

def Window.room (window : Window) (html : JsString) : ℚ :=
  max 0 (window.documentHeight html - window.height)

structure Page where
  state : State
  html : JsString
  /-- The key whose spelling the heading shows. -/
  lastKeypress : Option Key
  /-- Whether `grab_focus` was called for the node. -/
  called : Node → Bool
  focus : Option Node
  execShown : Bool
  execVal : JsString
  scrollTop : ℚ
  /-- The closure of `save`, which posts texts. -/
  saver : Debounced State (Channel JsString)

inductive Thrown where
  | error (message : JsString)
  /-- From an action or from a confirmed text. -/
  | fault (fault : Fault)
  /-- The `TypeError` of asking for the offset of nothing. -/
  | noCursor
  deriving DecidableEq

abbrev Script := ExceptT Thrown (StateM Page)

def raise {α : Type} : Except Fault α → Script α
  | .ok a => pure a
  | .error fault => throw (.fault fault)

def setState (state : State) : Script Unit := modify fun page ↦ { page with state := state }

/-! ## Focus -/

/-- The browser does not focus a hidden node. -/
def focusNode (node : Node) : Script Unit :=
  modify fun page ↦
    if node = .exec ∧ page.execShown = false then page else { page with focus := some node }

def firstCallMessage : JsString := lit "1st (and only 1st) call to grab_focus needs a callback"

/-- `hasCallback` says whether the call has a callback, which is then that of
the node for good. -/
def grabFocus (node : Node) (hasCallback : Bool) : Script Unit := do
  let page ← get
  if hasCallback ^^ page.called node then pure () else throw (.error firstCallMessage)
  focusNode node
  if hasCallback then
    modify fun page ↦ { page with called := Function.update page.called node true }

def openExec (content : JsString) : Script Unit := do
  modify fun page ↦ { page with execShown := true }
  modify fun page ↦ { page with execVal := content }
  grabFocus .exec false

/-- A hidden node loses the focus. -/
def closeExec : Script Unit := do
  modify fun page ↦
    { page with
      execShown := false
      focus := if page.focus = some .exec then none else page.focus }
  grabFocus .editor false

/-! ## Drawing and saving -/

section Scripts

variable (window : Window)

/-- The browser lays the drawing out, and the window stays in the document. -/
def refresh : Script Unit :=
  modify fun page ↦
    let html := render page.state
    { page with html := html, scrollTop := min page.scrollTop (window.room html) }

def padding : ℚ := 50

def scrollTo (position : ℚ) : Script Unit :=
  modify fun page ↦ { page with scrollTop := clamp 0 (window.room page.html) position }

def scrollToCursor : Script Unit := do
  let page ← get
  if occurrences cursorTag page.html = 0 then throw .noCursor
  let cursorTop := window.cursorTop page.html
  if cursorTop - padding < page.scrollTop then
    scrollTo window (cursorTop - padding)
  else if page.scrollTop + window.height - padding < cursorTop then
    scrollTo window (cursorTop + padding - window.height)

def post (network : Channel JsString) (state : State) : Channel JsString :=
  network.send state.text

def saveWait : ℕ := 1000

def save (state : State) : Script Unit :=
  modify fun page ↦ { page with saver := page.saver.call post saveWait false state }

/-! ## Handlers -/

/-- The content with which the action of a key opens the exec box. -/
def execContent (mode : Mode) (key : Key) : Option JsString :=
  if mode = .command ∧ key.text = lit ":" then some (lit ":") else none

/-- What an action does to the page. Only opening the box does anything. -/
def perform (mode : Mode) (key : Key) : Script Unit :=
  match execContent mode key with
  | some content => openExec content
  | none => pure ()

def editorKey (key : Key) : Script Bool := do
  modify fun page ↦ { page with lastKeypress := some key }
  let page ← get
  match actionOfKey page.state.mode key with
  | none => pure true
  | some action =>
      setState (resetCount page.state)
      perform page.state.mode key
      let result ← raise (action (resetCount page.state) (effectiveCount page.state.repeatNumber)
        page.state.repeatNumber key)
      setState result
      save result
      refresh window
      scrollToCursor window
      pure false

/-- It returns `undefined`, so the browser goes on with every key. -/
def execKey (key : Key) : Script Unit := do
  if key.text = Keys.CR then
    let page ← get
    let result ← raise (execute page.execVal page.state)
    setState result
    refresh window
    scrollToCursor window
    closeExec
  else if key.text = Keys.ESC then closeExec

/-- The key that the listener of a node passes on. -/
def delivered (e : KeyEvent) : Option (Except JsString Key) :=
  match h : Keyboard.grabFocus e with
  | none => none
  | some (.error message) => some (.error message)
  | some (.ok text) => some (.ok ⟨text, shape_of_grabFocus h⟩)

/-- A key event goes to the node in focus. The result says whether the browser
goes on with it. -/
def keyEvent (e : KeyEvent) : Script Bool := do
  let page ← get
  match page.focus, delivered e with
  | none, _ => pure true
  | some _, none => pure true
  | some _, some (.error message) => throw (.error message)
  | some .editor, some (.ok key) => editorKey window key
  | some .exec, some (.ok key) => do
      execKey window key
      pure true

end Scripts

end CoffeeTable.Browser

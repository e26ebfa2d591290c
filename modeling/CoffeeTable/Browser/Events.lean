import CoffeeTable.Browser.Page
import CoffeeTable.Transition.Run

/-!
# Events of the page

Loading the page runs `start_editing`. Then come key events, the other things a
user does to the page, and the clock and the timers. An event that makes a
handler throw leaves the page as the handler left it.
-/

namespace CoffeeTable.Browser

open Bounds Ecma Editor Keyboard Transition Underscore

inductive Event where
  | key (e : KeyEvent)
  /-- The user focuses a node, or something else. -/
  | focus (node : Option Node)
  /-- The user edits the text of the exec box. -/
  | input (text : JsString)
  | scroll (position : ℚ)
  | elapse (ms : ℕ)
  | other (delay : ℕ)
  | expire (index : ℕ)

def Script.result {α : Type} (script : Script α) (page : Page) : Except Thrown α × Page :=
  StateT.run (ExceptT.run script) page

def modifySaver (f : Debounced State (Channel JsString) → Debounced State (Channel JsString)) :
    Script Unit := modify fun page ↦ { page with saver := f page.saver }

section Load

variable (window : Window)

def startEditing (content : JsString) : Script Unit := do
  setState (Editor.startEditing content)
  refresh window
  grabFocus .editor true
  grabFocus .exec true

/-- The page before its script runs. The box is hidden by the style sheet. -/
def blank : Page where
  state := Editor.startEditing []
  html := []
  lastKeypress := none
  called := fun _ ↦ false
  focus := none
  execShown := false
  execVal := []
  scrollTop := 0
  saver := .fresh .empty

def respond : Event → Script Bool
  | .key e => keyEvent window e
  | .focus none => do
      modify fun page ↦ { page with focus := none }
      pure true
  | .focus (some node) => do
      focusNode node
      pure true
  | .input text => do
      modify fun page ↦ if page.focus = some .exec then { page with execVal := text } else page
      pure true
  | .scroll position => do
      scrollTo window position
      pure true
  | .elapse ms => do
      modifySaver fun saver ↦ { saver with timers := saver.timers.elapse ms }
      pure true
  | .other delay => do
      modifySaver fun saver ↦ { saver with timers := saver.timers.set delay .other }
      pure true
  | .expire index => do
      modifySaver fun saver ↦ saver.expire post false index
      pure true

def step (page : Page) (event : Event) : Page := (Script.result (respond window event) page).2

def loaded (content : JsString) : Page := (Script.result (startEditing window content) blank).2

def run (content : JsString) (events : List Event) : Page :=
  events.foldl (step window) (loaded window content)

end Load

/-! ## What scripts do -/

section Results

variable {α β : Type} (page : Page)

@[simp] theorem result_pure (a : α) : Script.result (pure a) page = (.ok a, page) := rfl

@[simp] theorem result_throw (thrown : Thrown) :
    Script.result (throw thrown : Script α) page = (.error thrown, page) := rfl

@[simp] theorem result_get : Script.result (get : Script Page) page = (.ok page, page) := rfl

@[simp] theorem result_modify (f : Page → Page) :
    Script.result (modify f : Script PUnit) page = (.ok ⟨⟩, f page) := rfl

/-- What runs after a script does not run if the script throws. -/
def resume (f : α → Script β) : Except Thrown α × Page → Except Thrown β × Page
  | (.ok a, page) => Script.result (f a) page
  | (.error thrown, page) => (.error thrown, page)

@[simp] theorem resume_ok (f : α → Script β) (a : α) :
    resume f (.ok a, page) = Script.result (f a) page := rfl

@[simp] theorem resume_error (f : α → Script β) (thrown : Thrown) :
    resume f (.error thrown, page) = (.error thrown, page) := rfl

@[simp] theorem result_bind (script : Script α) (f : α → Script β) :
    Script.result (script >>= f) page = resume f (Script.result script page) := by
  change StateT.run (ExceptT.run (script >>= f)) page = _
  rw [ExceptT.run_bind, StateT.run_bind]
  change _ = resume f (StateT.run (ExceptT.run script) page)
  obtain ⟨outcome, after⟩ := StateT.run (ExceptT.run script) page
  cases outcome <;> rfl

@[simp] theorem result_raise (outcome : Except Fault α) :
    Script.result (raise outcome) page = (outcome.mapError Thrown.fault, page) := by
  cases outcome <;> rfl

@[simp] theorem result_setState (state : State) :
    Script.result (setState state) page = (.ok (), { page with state := state }) := rfl

end Results

end CoffeeTable.Browser

import CoffeeTable.Browser.Events
import CoffeeTable.Editor.Command

/-!
# What the handlers do

Once the page is loaded no call of `grab_focus` throws. So a handled key sets
the state variable, saves, redraws and then reveals the cursor, which throws if
no cursor was drawn. An action that throws has only reset the count. Confirming
a text hides the box last, so a text that cannot be executed leaves it open.
-/

namespace CoffeeTable.Browser

open Bounds Ecma Editor Keyboard Transition Underscore

/-- `grab_focus` was called for both nodes. -/
def Page.Ready (page : Page) : Prop := ∀ node, page.called node = true

namespace Page

variable (window : Window) (page : Page)

def opened (content : JsString) : Page :=
  { page with execShown := true, execVal := content, focus := some .exec }

def closed : Page := { page with execShown := false, focus := some .editor }

/-- The page with a new state, drawn. -/
def drawn (state : State) : Page :=
  { page with
    state := state
    html := render state
    scrollTop := min page.scrollTop (window.room (render state)) }

def saved (state : State) : Page :=
  { page with saver := page.saver.call post saveWait false state }

def revealed : Page :=
  { page with
    scrollTop := reveal padding window.height (window.room page.html) (window.cursorTop page.html)
      page.scrollTop }

def pressed (key : Key) : Page := { page with lastKeypress := some key }

/-- The page after the box is opened, if the key opens it. -/
def boxed (key : Key) : Page :=
  match execContent page.state.mode key with
  | some content => page.opened content
  | none => page

/-- The page after a handled key led to a state. -/
def handled (key : Key) (state : State) : Page :=
  (((page.pressed key).boxed key).saved state).drawn window state

end Page

open Page

/-- The cursor line is a line of the buffer. -/
def HasCursor (state : State) : Prop :=
  0 ≤ state.cursor.line ∧ state.cursor.line < state.buffer.length

instance (state : State) : Decidable (HasCursor state) := inferInstanceAs (Decidable (_ ∧ _))

section Scripts

variable {window : Window} {page : Page}

/-! ## Focus -/

theorem result_grabFocus (hready : page.Ready) (node : Node) :
    Script.result (grabFocus node false) page = Script.result (focusNode node) page := by
  simp [grabFocus, hready node]

theorem result_openExec (hready : page.Ready) (content : JsString) :
    Script.result (openExec content) page = (.ok (), page.opened content) := by
  have hshown : Page.Ready { page with execShown := true, execVal := content } := hready
  simp only [openExec, result_bind, result_modify, resume_ok]
  exact result_grabFocus hshown .exec

theorem result_closeExec (hready : page.Ready) :
    Script.result closeExec page = (.ok (), page.closed) := by
  have hhidden : Page.Ready
      { page with
        execShown := false
        focus := if page.focus = some .exec then none else page.focus } := hready
  simp only [closeExec, result_bind, result_modify, resume_ok]
  exact result_grabFocus hhidden .editor

/-! ## Revealing the cursor -/

theorem occurrences_render (state : State) :
    occurrences cursorTag (render state) = 0 ↔ ¬ HasCursor state := by
  have hcount : occurrences cursorTag (render state) =
      if HasCursor state then 1 else 0 := cursorCount_eq state
  rw [hcount]
  split <;> simp [*]

theorem result_scrollToCursor (window : Window) (hdrawn : page.html = render page.state) :
    Script.result (scrollToCursor window) page =
      if HasCursor page.state then (.ok (), page.revealed window)
      else (.error .noCursor, page) := by
  have hnone := occurrences_render page.state
  rw [← hdrawn] at hnone
  by_cases hcursor : HasCursor page.state
  · have hsome : occurrences cursorTag page.html ≠ 0 := fun h ↦ hnone.mp h hcursor
    simp only [scrollToCursor, result_bind, result_get, resume_ok, if_neg hsome, if_pos hcursor,
      revealed, reveal]
    split_ifs <;> simp [scrollTo]
  · have hzero : occurrences cursorTag page.html = 0 := hnone.mpr hcursor
    simp [scrollToCursor, hzero, hcursor]

/-! ## The two callbacks -/

@[simp] theorem result_save (state : State) :
    Script.result (save state) page = (.ok (), page.saved state) := rfl

@[simp] theorem result_refresh (window : Window) :
    Script.result (refresh window) page = (.ok (), page.drawn window page.state) := rfl

theorem result_perform (hready : page.Ready) (key : Key) (state : State) :
    Script.result (perform page.state.mode key) { page with state := state } =
      (.ok (), { page.boxed key with state := state }) := by
  unfold perform boxed
  cases execContent page.state.mode key with
  | none => rfl
  | some content =>
      have hready' : Page.Ready { page with state := state } := hready
      exact result_openExec hready' content

theorem press_of_execContent {state : State} {key : Key} {content : JsString}
    (h : execContent state.mode key = some content) :
    press state key = some (.ok (resetCount state)) := by
  unfold execContent at h
  split_ifs at h with hcolon
  have hdecode : decode state.mode key = some .execBox := by
    rw [hcolon.1, decode, hcolon.2]
    rfl
  rw [press_eq, hdecode]
  rfl

theorem result_editorKey (window : Window) (hready : page.Ready) (key : Key) :
    Script.result (editorKey window key) page =
      match press page.state key with
      | none => (.ok true, page.pressed key)
      | some (.error fault) =>
          (.error (.fault fault), { page.pressed key with state := resetCount page.state })
      | some (.ok state) =>
          if HasCursor state then (.ok false, (page.handled window key state).revealed window)
          else (.error .noCursor, page.handled window key state) := by
  have hready' : (page.pressed key).Ready := hready
  have hbox : Script.result (perform page.state.mode key)
        { page with lastKeypress := some key, state := resetCount page.state } =
      (.ok (), { (page.pressed key).boxed key with state := resetCount page.state }) :=
    result_perform hready' key (resetCount page.state)
  cases haction : actionOfKey page.state.mode key with
  | none => simp [editorKey, press, haction, pressed]
  | some action =>
      have hpress : press page.state key = some (action (resetCount page.state)
          (effectiveCount page.state.repeatNumber) page.state.repeatNumber key) := by
        rw [press, haction, Option.map_some]
      simp only [editorKey, result_bind, result_modify, result_get, resume_ok, haction,
        result_setState]
      rw [hbox, hpress]
      cases houtcome : action (resetCount page.state) (effectiveCount page.state.repeatNumber)
          page.state.repeatNumber key with
      | error fault =>
          have hnone : execContent page.state.mode key = none := by
            by_contra hsome
            obtain ⟨content, hcontent⟩ := Option.ne_none_iff_exists'.mp hsome
            rw [press_of_execContent hcontent, houtcome] at hpress
            cases hpress
          have hboxed : (page.pressed key).boxed key = page.pressed key := by
            rw [boxed, pressed, hnone]
          rw [hboxed]
          rfl
      | ok state =>
          have hscroll : Script.result (scrollToCursor window) (page.handled window key state) =
              if HasCursor state then (.ok (), (page.handled window key state).revealed window)
              else (.error .noCursor, page.handled window key state) :=
            result_scrollToCursor window rfl
          simp only [resume_ok, result_bind, result_raise, result_setState, result_save,
            result_refresh, Except.mapError]
          change resume _
            (Script.result (scrollToCursor window) (page.handled window key state)) = _
          rw [hscroll]
          split <;> rfl

theorem result_execKey (window : Window) (hready : page.Ready) (key : Key) :
    Script.result (execKey window key) page =
      if key.text = Keys.CR then
        match execute page.execVal page.state with
        | .error fault => (.error (.fault fault), page)
        | .ok state =>
            if HasCursor state then
              (.ok (), ((page.drawn window state).revealed window).closed)
            else (.error .noCursor, page.drawn window state)
      else if key.text = Keys.ESC then (.ok (), page.closed)
      else (.ok (), page) := by
  by_cases hreturn : key.text = Keys.CR
  · simp only [execKey, if_pos hreturn, result_bind, result_get, resume_ok, result_raise]
    cases hexecute : execute page.execVal page.state with
    | error fault => rfl
    | ok state =>
        have hscroll : Script.result (scrollToCursor window) (page.drawn window state) =
            if HasCursor state then (.ok (), (page.drawn window state).revealed window)
            else (.error .noCursor, page.drawn window state) :=
          result_scrollToCursor window rfl
        have hshown : ((page.drawn window state).revealed window).Ready := hready
        simp only [Except.mapError, resume_ok, result_bind, result_setState, result_refresh]
        change resume _ (Script.result (scrollToCursor window) (page.drawn window state)) = _
        rw [hscroll]
        by_cases hcursor : HasCursor state
        · simp only [if_pos hcursor, resume_ok]
          exact result_closeExec hshown
        · simp only [if_neg hcursor, resume_error]
  · by_cases hescape : key.text = Keys.ESC
    · simp only [execKey, if_neg hreturn, if_pos hescape]
      exact result_closeExec hready
    · simp only [execKey, if_neg hreturn, if_neg hescape, result_pure]

end Scripts

end CoffeeTable.Browser

import CoffeeTable.Browser.Scrolling

/-!
# The exec box on the page

Return in the exec box runs its text and then closes the box, in this order: a
text that throws, or that leaves no cursor to reveal, leaves the box open with
the text in it. Nothing in the box is saved, and nothing changes the text of
the editor. A colon, anything typed and corrected, a line number and return go
to that line and back to the editor.
-/

namespace CoffeeTable.Browser

open Bounds Ecma Editor Keyboard Transition Underscore Page

variable {window : Window} {page : Page}

/-! ## What a confirmed text does -/

theorem hasCursor_of_gotoLine {s t : State} {line : Number} (h : gotoLine line s = .ok t) :
    t.buffer = s.buffer ∧ HasCursor t := by
  have hint (n : ℤ) (hn : gotoLine (.int n) s = .ok t) : t.buffer = s.buffer ∧ HasCursor t := by
    rw [gotoLine_int] at hn
    obtain ⟨normalized, hnormal, rfl⟩ := map_eq_ok.mp hn
    obtain ⟨hbuffer, -, -⟩ := normalizeCursor_fields hnormal
    obtain ⟨before, current, after, hat, -⟩ := exists_at_of_normalizeCursor hnormal
    exact ⟨hbuffer, hat.inside.line_nonneg, hat.inside.line_lt⟩
  cases line with
  | int n => exact hint n h
  | infinity negative => exact hint _ h
  | nan => cases h

theorem inRange_of_gotoLine {s t : State} {line : Number} (h : gotoLine line s = .ok t) :
    t.InRange := by
  have hint (n : ℤ) (hn : gotoLine (.int n) s = .ok t) : t.InRange := by
    rw [gotoLine_int] at hn
    obtain ⟨normalized, hnormal, rfl⟩ := map_eq_ok.mp hn
    obtain ⟨before, current, after, hat, -⟩ := exists_at_of_normalizeCursor hnormal
    exact hat.inside.inRange.congr rfl rfl
  cases line with
  | int n => exact hint n h
  | infinity negative => exact hint _ h
  | nan => cases h

theorem buffer_of_execute {s t : State} {expr : JsString} (h : execute expr s = .ok t) :
    t.buffer = s.buffer ∧ (t = s ∨ HasCursor t) := by
  have hsame (hok : (.ok s : Except Fault State) = .ok t) :
      t.buffer = s.buffer ∧ (t = s ∨ HasCursor t) := by
    cases hok
    exact ⟨rfl, Or.inl rfl⟩
  cases expr with
  | nil => exact hsame h
  | cons first rest =>
      rw [execute] at h
      split_ifs at h
      · rw [colonCmd] at h
        split_ifs at h
        · obtain ⟨hbuffer, hcursor⟩ := hasCursor_of_gotoLine h
          exact ⟨hbuffer, Or.inr hcursor⟩
        · exact hsame h
      · exact hsame h

theorem buffer_confirm (s : State) (expr : JsString) : (confirm s expr).buffer = s.buffer := by
  unfold confirm
  cases hexecute : execute expr s with
  | ok t => exact (buffer_of_execute hexecute).1
  | error fault => rfl

theorem inRange_confirm {s : State} (hs : s.InRange) (expr : JsString) :
    (confirm s expr).InRange := by
  unfold confirm
  cases hexecute : execute expr s with
  | error fault => exact hs
  | ok t =>
      cases expr with
      | nil =>
          obtain rfl := Except.ok.inj hexecute
          exact hs
      | cons first rest =>
          rw [execute] at hexecute
          split_ifs at hexecute
          · rw [colonCmd] at hexecute
            split_ifs at hexecute
            · exact inRange_of_gotoLine hexecute
            · obtain rfl := Except.ok.inj hexecute
              exact hs
          · obtain rfl := Except.ok.inj hexecute
            exact hs

/-- The text of the box can be run, and there is a cursor to reveal. -/
def Runs (state : State) (expr : JsString) : Prop :=
  ∃ t, execute expr state = .ok t ∧ HasCursor t

theorem step_of_exec (hfocus : page.focus = some .exec) {e : KeyEvent} {key : Key}
    (hdelivered : delivered e = some (.ok key)) :
    step window page (.key e) = (Script.result (execKey window key) page).2 := by
  have hstep : step window page (.key e) = (Script.result (keyEvent window e) page).2 := rfl
  rw [hstep, result_keyEvent, hfocus, hdelivered]
  exact snd_resume_pure _ _

/-- Return in the exec box of any page that is reached. -/
theorem confirm_text (window : Window) (content : JsString) (events : List Event)
    (hfocus : (run window content events).focus = some .exec) {e : KeyEvent} {key : Key}
    (hdelivered : delivered e = some (.ok key)) (hreturn : key.text = Keys.CR) :
    let page := run window content events
    let after := step window page (.key e)
    after.state = confirm page.state page.execVal ∧ after.state.text = page.state.text ∧
      after.saver = page.saver ∧ after.execVal = page.execVal ∧
      (Runs page.state page.execVal → after.execShown = false ∧ after.focus = some .editor) ∧
      (¬ Runs page.state page.execVal → after.execShown = true ∧ after.focus = some .exec) := by
  intro page after
  have hsound : Sound window page := sound_run window content events
  have hfocus : page.focus = some .exec := hfocus
  have hshown : page.execShown = true := hsound.shown_of_focus hfocus
  have hafter : after = (Script.result (execKey window key) page).2 :=
    step_of_exec hfocus hdelivered
  have hstate : after.state = confirm page.state page.execVal := by
    have hediting := editingOf_execKey window hsound.ready key
    rw [if_pos hreturn, ← hafter] at hediting
    exact congrArg Editing.state hediting
  have htext : after.state.text = page.state.text := by
    rw [hstate, State.text, buffer_confirm, State.text]
  refine ⟨hstate, htext, ?_⟩
  rw [hafter, result_execKey window hsound.ready, if_pos hreturn, Runs]
  cases hexecute : execute page.execVal page.state with
  | error fault => exact ⟨rfl, rfl, by simp, fun _ ↦ ⟨hshown, hfocus⟩⟩
  | ok state =>
      by_cases hcursor : HasCursor state
      · simp [hcursor, closed, drawn, revealed]
      · simp [hcursor, drawn, hshown, hfocus]

def refusedText : List Event := [.key (character ':'), .input (lit ":NaN")]

theorem confirm_text_refused :
    (step lowWindow (run lowWindow (lit "a") refusedText) (.key returnKey)).execShown = true := by
  have hfocus : (run lowWindow (lit "a") refusedText).focus = some .exec := by decide +kernel
  have hreturn : delivered returnKey = some (.ok (key "<CR>")) := by decide
  have herror : execute (run lowWindow (lit "a") refusedText).execVal
      (run lowWindow (lit "a") refusedText).state = .error .missingLine := by decide +kernel
  refine ((confirm_text lowWindow (lit "a") refusedText hfocus hreturn rfl).2.2.2.2.2 ?_).1
  rintro ⟨t, ht, -⟩
  rw [herror] at ht
  cases ht

/-! ## Going to a line -/

/-- Nothing but return, escape and the focus ends typing in the box. -/
def Event.StaysInBox : Event → Prop
  | .key e => ∀ key, delivered e = some (.ok key) → key.text ≠ Keys.CR ∧ key.text ≠ Keys.ESC
  | .focus _ => False
  | _ => True

/-- The box has the focus, and the editor waits. -/
structure InBox (editing : Editing) (page : Page) : Prop where
  ready : page.Ready
  focus_eq : page.focus = some .exec
  editing_eq : editingOf page = editing

theorem InBox.step {editing : Editing} (h : InBox editing page) (window : Window) {event : Event}
    (hstays : event.StaysInBox) : InBox editing (Browser.step window page event) := by
  cases event with
  | focus node => exact hstays.elim
  | key e =>
      have hstep : Browser.step window page (.key e) =
          (Script.result (keyEvent window e) page).2 := rfl
      cases hdelivered : delivered e with
      | none =>
          rw [hstep, result_keyEvent, h.focus_eq, hdelivered]
          exact h
      | some outcome =>
          cases outcome with
          | error message =>
              rw [hstep, result_keyEvent, h.focus_eq, hdelivered]
              exact h
          | ok key =>
              obtain ⟨hreturn, hescape⟩ := hstays key hdelivered
              rw [step_of_exec h.focus_eq hdelivered, result_execKey window h.ready,
                if_neg hreturn, if_neg hescape]
              exact h
  | input text =>
      have hstep : Browser.step window page (.input text) = { page with execVal := text } :=
        if_pos h.focus_eq
      rw [hstep]
      exact ⟨h.ready, h.focus_eq, h.editing_eq⟩
  | scroll position => exact ⟨h.ready, h.focus_eq, h.editing_eq⟩
  | elapse ms => exact ⟨h.ready, h.focus_eq, h.editing_eq⟩
  | other delay => exact ⟨h.ready, h.focus_eq, h.editing_eq⟩
  | expire index =>
      refine ⟨h.ready, h.focus_eq, ?_⟩
      rw [editingOf_step window h.ready]
      exact h.editing_eq

theorem InBox.foldl {editing : Editing} (h : InBox editing page) (window : Window)
    {events : List Event}
    (hstays : ∀ event ∈ events, event.StaysInBox) :
    InBox editing (events.foldl (Browser.step window) page) := by
  have hrun : Throughout (Browser.step window) (InBox editing) page events :=
    throughout_of_along (fun _ _ h hevent ↦ h.step window hevent) h
      (along_of_forall_mem hstays page)
  exact hrun.last

theorem inBox_of_colon (window : Window) (hready : page.Ready) (hfocus : page.focus = some .editor)
    (hmode : page.state.mode = .command) (hinside : page.state.Inside) {e : KeyEvent}
    (hdelivered : delivered e = some (.ok (key ":"))) :
    InBox ⟨resetCount page.state, calls page.saver.log ++ [resetCount page.state]⟩
      (step window page (.key e)) := by
  have hcontent : execContent page.state.mode (key ":") = some (lit ":") := by
    rw [hmode]
    rfl
  have hpress := press_of_execContent hcontent
  have hcursor : HasCursor (resetCount page.state) := ⟨hinside.line_nonneg, hinside.line_lt⟩
  have hstep : step window page (.key e) =
      (page.handled window (key ":") (resetCount page.state)).revealed window := by
    have hkey : step window page (.key e) = (Script.result (keyEvent window e) page).2 := rfl
    rw [hkey, result_keyEvent, hfocus, hdelivered]
    simp only [result_editorKey window hready, hpress, if_pos hcursor]
  have hboxed : (page.pressed (key ":")).boxed (key ":") =
      (page.pressed (key ":")).opened (lit ":") := by
    have hcontent' : execContent (page.pressed (key ":")).state.mode (key ":") = some (lit ":") :=
      hcontent
    rw [boxed, hcontent']
  rw [hstep]
  refine ⟨?_, ?_, editingOf_handled window page (key ":") (resetCount page.state)⟩
  · rw [Page.handled, hboxed]
    exact hready
  · rw [Page.handled, hboxed]
    rfl

theorem execute_lineCommand {n : ℤ} (hn : n.natAbs < safeLimit) (state : State) :
    execute (lineCommand n) state = gotoLine (.int n) state := by
  rw [lineCommand, execute_colon, parseInt_decimal hn, if_pos (toString_int hn).symm]

/-- Return after a line number in the box. -/
theorem closed_of_line (window : Window) {state : State} {saves : List State}
    (h : InBox ⟨state, saves⟩ page) (hmode : state.mode = .command) (hinside : state.Inside)
    {enter : KeyEvent} (henter : delivered enter = some (.ok (key "<CR>"))) {n : ℤ}
    (hn : n.natAbs < safeLimit)
    (hval : page.execVal = lineCommand n) :
    let after := step window page (.key enter)
    WentTo state n after.state ∧ after.html = render after.state ∧
      after.execShown = false ∧ after.focus = some .editor ∧ calls after.saver.log = saves := by
  intro after
  have hstate : page.state = state := congrArg Editing.state h.editing_eq
  have hsaves : calls page.saver.log = saves := congrArg Editing.saves h.editing_eq
  obtain ⟨t, hgoto, hwent⟩ := wentTo_of_lt hinside (n := n) fun hins ↦ by simp [hmode] at hins
  have hexecute : execute page.execVal page.state = .ok t := by
    rw [hval, hstate, execute_lineCommand hn, hgoto]
  have hcursor : HasCursor t := (hasCursor_of_gotoLine hgoto).2
  have hafter : after = ((page.drawn window t).revealed window).closed := by
    rw [show after = _ from step_of_exec h.focus_eq henter, result_execKey window h.ready,
      if_pos (show (key "<CR>").text = Keys.CR from rfl), hexecute]
    simp only [if_pos hcursor]
  rw [hafter]
  exact ⟨hwent, rfl, rfl, rfl, hsaves⟩

/-- The events of going to a line: a colon, whatever happens while the user
types in the box, the line number at last, and return. -/
def lineEvents (colon enter : KeyEvent) (typed : List Event) (n : ℤ) : List Event :=
  .key colon :: (typed ++ [.input (lineCommand n), .key enter])

/-- From the editor in command mode this goes to the line and back to the editor. -/
theorem line_command (window : Window) (content : JsString) (events : List Event)
    (hfocus : (run window content events).focus = some .editor)
    (hmode : (run window content events).state.mode = .command)
    (hinside : (run window content events).state.Inside) {colon enter : KeyEvent}
    (hcolon : delivered colon = some (.ok (key ":")))
    (henter : delivered enter = some (.ok (key "<CR>"))) {typed : List Event}
    (htyped : ∀ event ∈ typed, event.StaysInBox) {n : ℤ} (hn : n.natAbs < safeLimit) :
    let page := run window content events
    let after := (lineEvents colon enter typed n).foldl (step window) page
    WentTo page.state n after.state ∧ after.html = render after.state ∧
      after.execShown = false ∧ after.focus = some .editor ∧
      calls after.saver.log = calls page.saver.log ++ [resetCount page.state] := by
  intro page after
  have hready : page.Ready := (sound_run window content events).ready
  have hreset : (resetCount page.state).Inside :=
    ⟨hinside.line_nonneg, hinside.line_lt, hinside.col_nonneg⟩
  have hopen := inBox_of_colon window hready hfocus hmode hinside hcolon
  have htyping := hopen.foldl window htyped
  have hstays : Event.StaysInBox (.input (lineCommand n)) := trivial
  have hinput := htyping.step window hstays
  have hclosed := closed_of_line window hinput hmode hreset henter hn
    (congrArg Page.execVal (if_pos htyping.focus_eq))
  have hafter : after = step window (step window (typed.foldl (step window)
      (step window page (.key colon))) (.input (lineCommand n))) (.key enter) := by
    simp only [after, lineEvents, List.foldl_cons, List.foldl_append, List.foldl_nil]
  rw [hafter]
  obtain ⟨hwent, hrest⟩ := hclosed
  exact ⟨⟨hwent.mode_eq, hwent.repeatNumber_eq, hwent.buffer_eq, hwent.line_eq,
    hwent.cursorOn_isSome⟩, hrest⟩

theorem line_command_second :
    WentTo (Editor.startEditing (lit "a\nb")) 1
      ((lineEvents (character ':') returnKey [.elapse 5000, .expire 0, .input (lit ":2")] 1).foldl
        (step lowWindow) (run lowWindow (lit "a\nb") [])).state := by
  have htyped : ∀ event ∈ [Event.elapse 5000, .expire 0, .input (lit ":2")],
      event.StaysInBox := by simp [Event.StaysInBox]
  exact (line_command lowWindow (lit "a\nb") [] rfl rfl (startEditing_inside _) (by decide)
    (by decide) htyped (by decide)).1

end CoffeeTable.Browser

import CoffeeTable.Browser.Handlers
import CoffeeTable.Transition.Simulation

/-!
# Runs of the page

On every page that is reached the drawing is that of the state variable, also
after handlers that threw. Focus in the exec box means that the box is shown,
and the window stays in the document. The state variable takes the steps of
the editor and no others: one for each key that the editor gets, and one for
each text that is confirmed.
-/

namespace CoffeeTable.Browser

open Bounds Ecma Editor Keyboard Transition Underscore Page

/-- What holds of every page that is reached. -/
structure Sound (window : Window) (page : Page) : Prop where
  ready : page.Ready
  html_eq : page.html = render page.state
  shown_of_focus : page.focus = some .exec → page.execShown = true
  scrollTop_nonneg : 0 ≤ page.scrollTop
  scrollTop_le : page.scrollTop ≤ window.room page.html

/-! ## The editor's steps -/

inductive Act where
  | key (key : Key)
  | confirm (expr : JsString)
  deriving DecidableEq

/-- The state variable with the states that were handed to `save`. -/
structure Editing where
  state : State
  saves : List State

def Editing.next (editing : Editing) : Act → Editing
  | .key key =>
      { state := handleKey editing.state key
        saves := editing.saves ++ (savedBy editing.state key).toList }
  | .confirm expr => { editing with state := confirm editing.state expr }

def editingOf (page : Page) : Editing := ⟨page.state, calls page.saver.log⟩

def actOf (page : Page) : Event → Option Act
  | .key e =>
      match page.focus, delivered e with
      | some .editor, some (.ok key) => some (.key key)
      | some .exec, some (.ok key) =>
          if key.text = Keys.CR then some (.confirm page.execVal) else none
      | _, _ => none
  | _ => none

/-- When a handler throws. -/
def Throws (page : Page) : Event → Prop
  | .key e =>
      match page.focus, delivered e with
      | some _, some (.error _) => True
      | some .editor, some (.ok key) =>
          ∃ outcome, press page.state key = some outcome ∧
            ∀ state, outcome = .ok state → ¬ HasCursor state
      | some .exec, some (.ok key) =>
          key.text = Keys.CR ∧
            ∀ state, execute page.execVal page.state = .ok state → ¬ HasCursor state
      | _, _ => False
  | _ => False

/-! ## What stays the same -/

theorem renderFrom_congr {s t : State} (hcursor : s.cursor = t.cursor) (hmode : s.mode = t.mode)
    (lineNumber : ℕ) (lines : List JsString) :
    renderFrom s lineNumber lines = renderFrom t lineNumber lines := by
  induction lines generalizing lineNumber with
  | nil => rfl
  | cons line lines ih =>
      have hline : cursorOn s line lineNumber = cursorOn t line lineNumber := by
        rw [cursorOn, cursorOn, hcursor, hmode]
      rw [renderFrom, renderFrom, hline, ih]

theorem render_resetCount (s : State) : render (resetCount s) = render s :=
  renderFrom_congr (s := resetCount s) (t := s) rfl rfl 0 s.buffer.elems

theorem room_nonneg (window : Window) (html : JsString) : 0 ≤ window.room html :=
  le_max_left _ _

namespace Sound

variable {window : Window} {page : Page}

theorem opened (h : Sound window page) (content : JsString) :
    Sound window (page.opened content) :=
  ⟨h.ready, h.html_eq, fun _ ↦ rfl, h.scrollTop_nonneg, h.scrollTop_le⟩

theorem closed (h : Sound window page) : Sound window page.closed where
  ready := h.ready
  html_eq := h.html_eq
  shown_of_focus := by
    intro hfocus
    cases hfocus
  scrollTop_nonneg := h.scrollTop_nonneg
  scrollTop_le := h.scrollTop_le

theorem pressed (h : Sound window page) (key : Key) : Sound window (page.pressed key) :=
  ⟨h.ready, h.html_eq, h.shown_of_focus, h.scrollTop_nonneg, h.scrollTop_le⟩

theorem boxed (h : Sound window page) (key : Key) : Sound window (page.boxed key) := by
  unfold Page.boxed
  cases execContent page.state.mode key with
  | none => exact h
  | some content => exact h.opened content

theorem reset (h : Sound window page) :
    Sound window { page with state := resetCount page.state } :=
  ⟨h.ready, h.html_eq.trans (render_resetCount page.state).symm, h.shown_of_focus,
    h.scrollTop_nonneg, h.scrollTop_le⟩

theorem drawn (h : Sound window page) (state : State) : Sound window (page.drawn window state) where
  ready := h.ready
  html_eq := rfl
  shown_of_focus := h.shown_of_focus
  scrollTop_nonneg := le_min h.scrollTop_nonneg (room_nonneg window _)
  scrollTop_le := min_le_right _ _

theorem scrolled (h : Sound window page) {position : ℚ} (hnonneg : 0 ≤ position)
    (hle : position ≤ window.room page.html) :
    Sound window { page with scrollTop := position } :=
  ⟨h.ready, h.html_eq, h.shown_of_focus, hnonneg, hle⟩

theorem saver (h : Sound window page) (saver : Debounced State (Channel JsString)) :
    Sound window { page with saver := saver } :=
  ⟨h.ready, h.html_eq, h.shown_of_focus, h.scrollTop_nonneg, h.scrollTop_le⟩

theorem clamp_room_mem (window : Window) (html : JsString) (position : ℚ) :
    0 ≤ clamp 0 (window.room html) position ∧
      clamp 0 (window.room html) position ≤ window.room html := by
  have hmax : max 0 (window.room html) = window.room html := max_eq_right (room_nonneg window html)
  exact ⟨le_clamp _ _ _, (clamp_le_max _ _ _).trans_eq hmax⟩

theorem revealed (h : Sound window page) : Sound window (page.revealed window) := by
  have hmem : 0 ≤ (page.revealed window).scrollTop ∧
      (page.revealed window).scrollTop ≤ window.room page.html := by
    simp only [Page.revealed, reveal]
    split_ifs
    · exact clamp_room_mem window _ _
    · exact clamp_room_mem window _ _
    · exact ⟨h.scrollTop_nonneg, h.scrollTop_le⟩
  exact h.scrolled hmem.1 hmem.2

theorem handled (h : Sound window page) (key : Key) (state : State) :
    Sound window (page.handled window key state) :=
  ((((h.pressed key).boxed key).saver _)).drawn state

theorem focusNode (h : Sound window page) (node : Node) :
    Sound window (Script.result (Browser.focusNode node) page).2 := by
  simp only [Browser.focusNode, result_modify]
  split_ifs with hhidden
  · exact h
  · refine ⟨h.ready, h.html_eq, fun hfocus ↦ ?_, h.scrollTop_nonneg, h.scrollTop_le⟩
    by_contra hshown
    exact hhidden ⟨Option.some.inj hfocus, Bool.not_eq_true _ ▸ hshown⟩

theorem input (h : Sound window page) (text : JsString) :
    Sound window (if page.focus = some .exec then { page with execVal := text } else page) := by
  split_ifs
  · exact ⟨h.ready, h.html_eq, h.shown_of_focus, h.scrollTop_nonneg, h.scrollTop_le⟩
  · exact h

end Sound

/-! ## One event -/

section Step

variable {window : Window} {page : Page}

theorem result_keyEvent (window : Window) (page : Page) (e : KeyEvent) :
    Script.result (keyEvent window e) page =
      match page.focus, delivered e with
      | none, _ => (.ok true, page)
      | some _, none => (.ok true, page)
      | some _, some (.error message) => (.error (.error message), page)
      | some .editor, some (.ok key) => Script.result (editorKey window key) page
      | some .exec, some (.ok key) =>
          resume (fun _ ↦ pure true) (Script.result (execKey window key) page) := by
  simp only [keyEvent, result_bind, result_get, resume_ok]
  cases page.focus with
  | none => rfl
  | some node =>
      cases delivered e with
      | none => rfl
      | some outcome =>
          cases outcome with
          | error message => rfl
          | ok key =>
              cases node with
              | editor => rfl
              | exec => exact result_bind page _ _

theorem snd_resume_pure {α β : Type} (f : α → β) (result : Except Thrown α × Page) :
    (resume (fun a ↦ pure (f a)) result).2 = result.2 := by
  obtain ⟨outcome, after⟩ := result
  cases outcome <;> rfl

theorem fst_resume_pure {α β : Type} (f : α → β) (result : Except Thrown α × Page)
    (thrown : Thrown) :
    (resume (fun a ↦ pure (f a)) result).1 = .error thrown ↔ result.1 = .error thrown := by
  obtain ⟨outcome, after⟩ := result
  cases outcome <;> simp

theorem sound_editorKey (h : Sound window page) (key : Key) :
    Sound window (Script.result (editorKey window key) page).2 := by
  rw [result_editorKey window h.ready]
  cases press page.state key with
  | none => exact h.pressed key
  | some outcome =>
      cases outcome with
      | error fault => exact (h.pressed key).reset
      | ok state =>
          have hhandled := h.handled key state
          by_cases hcursor : HasCursor state
          · simpa only [if_pos hcursor] using hhandled.revealed
          · simpa only [if_neg hcursor] using hhandled

theorem sound_execKey (h : Sound window page) (key : Key) :
    Sound window (Script.result (execKey window key) page).2 := by
  rw [result_execKey window h.ready]
  split_ifs with hreturn hescape
  · cases execute page.execVal page.state with
    | error fault => exact h
    | ok state =>
        have hdrawn := h.drawn state
        by_cases hcursor : HasCursor state
        · simpa only [if_pos hcursor] using hdrawn.revealed.closed
        · simpa only [if_neg hcursor] using hdrawn
  · exact h.closed
  · exact h

theorem sound_keyEvent (h : Sound window page) (e : KeyEvent) :
    Sound window (Script.result (keyEvent window e) page).2 := by
  rw [result_keyEvent]
  split
  · exact h
  · exact h
  · exact h
  · exact sound_editorKey h _
  · rw [snd_resume_pure]
    exact sound_execKey h _

theorem Sound.step (h : Sound window page) (event : Event) :
    Sound window (step window page event) := by
  cases event with
  | key e => exact sound_keyEvent h e
  | focus node =>
      cases node with
      | none => exact ⟨h.ready, h.html_eq, by rintro ⟨⟩, h.scrollTop_nonneg, h.scrollTop_le⟩
      | some node => exact h.focusNode node
  | input text => exact h.input text
  | scroll position =>
      have hmem := Sound.clamp_room_mem window page.html position
      exact h.scrolled hmem.1 hmem.2
  | elapse ms => exact h.saver _
  | other delay => exact h.saver _
  | expire index => exact h.saver _

/-! ## The editor's step in an event -/

/-- A page after a script that leaves the state and the calls of `save` alone. -/
theorem editingOf_eq {page after : Page} (hstate : after.state = page.state)
    (hlog : after.saver.log = page.saver.log) : editingOf after = editingOf page := by
  rw [editingOf, editingOf, hstate, hlog]

theorem saver_boxed (page : Page) (key : Key) : (page.boxed key).saver = page.saver := by
  unfold boxed
  cases execContent page.state.mode key <;> rfl

theorem editingOf_handled (window : Window) (page : Page) (key : Key) (state : State) :
    editingOf (page.handled window key state) = ⟨state, calls page.saver.log ++ [state]⟩ := by
  have hsaver : (page.handled window key state).saver =
      ((page.pressed key).boxed key).saver.call post saveWait false state := rfl
  rw [editingOf, hsaver, saver_boxed, Debounced.call_trailing]
  simp [Debounced.rearm, Debounced.record, handled, drawn, pressed]

theorem editingOf_editorKey (hready : page.Ready) (key : Key) :
    editingOf (Script.result (editorKey window key) page).2 = (editingOf page).next (.key key) := by
  rw [result_editorKey window hready]
  cases hpress : press page.state key with
  | none =>
      simp only [Editing.next, editingOf, handleKey, savedBy, hpress]
      simp [pressed]
  | some outcome =>
      cases outcome with
      | error fault =>
          simp only [Editing.next, editingOf, handleKey, savedBy, hpress]
          simp [pressed]
      | ok state =>
          have hhandled := editingOf_handled window page key state
          have hshown : editingOf ((page.handled window key state).revealed window) =
              editingOf (page.handled window key state) := rfl
          have hnext : (editingOf page).next (.key key) =
              ⟨state, calls page.saver.log ++ [state]⟩ := by
            simp [Editing.next, editingOf, handleKey, savedBy, hpress]
          by_cases hcursor : HasCursor state
          · simpa only [if_pos hcursor, hnext, hshown] using hhandled
          · simpa only [if_neg hcursor, hnext] using hhandled

theorem editingOf_execKey (window : Window) (hready : page.Ready) (key : Key) :
    editingOf (Script.result (execKey window key) page).2 =
      if key.text = Keys.CR then (editingOf page).next (.confirm page.execVal)
      else editingOf page := by
  rw [result_execKey window hready]
  by_cases hreturn : key.text = Keys.CR
  · simp only [if_pos hreturn, Editing.next, editingOf, confirm]
    cases execute page.execVal page.state with
    | error fault => rfl
    | ok state =>
        by_cases hcursor : HasCursor state
        · simp only [if_pos hcursor]
          rfl
        · simp only [if_neg hcursor]
          rfl
  · simp only [if_neg hreturn]
    split_ifs <;> rfl

theorem editingOf_step (window : Window) (hready : page.Ready) (event : Event) :
    editingOf (step window page event) =
      (actOf page event).toList.foldl Editing.next (editingOf page) := by
  cases event with
  | key e =>
      have hstep : step window page (.key e) = (Script.result (keyEvent window e) page).2 := rfl
      rw [hstep, result_keyEvent, actOf]
      cases page.focus with
      | none => rfl
      | some node =>
          cases delivered e with
          | none => cases node <;> rfl
          | some outcome =>
              cases outcome with
              | error message => cases node <;> rfl
              | ok key =>
                  cases node with
                  | editor => exact editingOf_editorKey hready key
                  | exec =>
                      simp only [snd_resume_pure, editingOf_execKey window hready]
                      split_ifs <;> rfl
  | focus node =>
      cases node with
      | none => rfl
      | some node =>
          have hsame : ∀ after, (Script.result (focusNode node) page).2 = after →
              after.state = page.state ∧ after.saver.log = page.saver.log := by
            rintro after rfl
            simp only [focusNode, result_modify]
            split_ifs <;> exact ⟨rfl, rfl⟩
          obtain ⟨hstate, hlog⟩ := hsame _ rfl
          exact editingOf_eq hstate hlog
  | input text =>
      have hstep : step window page (.input text) =
          if page.focus = some .exec then { page with execVal := text } else page := rfl
      rw [hstep]
      split_ifs <;> rfl
  | scroll position => rfl
  | elapse ms => rfl
  | other delay => rfl
  | expire index =>
      have hcalls : calls (page.saver.expire post false index).log = calls page.saver.log :=
        Debounced.calls_expire index
      have hstep : editingOf (step window page (.expire index)) =
          ⟨page.state, calls (page.saver.expire post false index).log⟩ := rfl
      rw [hstep, hcalls]
      rfl

/-! ## When a handler throws -/

theorem error_editorKey_iff (hready : page.Ready) (key : Key) :
    (∃ thrown, (Script.result (editorKey window key) page).1 = .error thrown) ↔
      ∃ outcome, press page.state key = some outcome ∧
        ∀ state, outcome = .ok state → ¬ HasCursor state := by
  rw [result_editorKey window hready]
  cases press page.state key with
  | none => simp
  | some outcome =>
      cases outcome with
      | error fault => simp
      | ok state => by_cases hcursor : HasCursor state <;> simp [hcursor]

theorem error_execKey_iff (window : Window) (hready : page.Ready) (key : Key) :
    (∃ thrown, (Script.result (execKey window key) page).1 = .error thrown) ↔
      key.text = Keys.CR ∧
        ∀ state, execute page.execVal page.state = .ok state → ¬ HasCursor state := by
  rw [result_execKey window hready]
  by_cases hreturn : key.text = Keys.CR
  · simp only [hreturn, true_and]
    cases execute page.execVal page.state with
    | error fault => simp
    | ok state => by_cases hcursor : HasCursor state <;> simp [hcursor]
  · rw [if_neg hreturn]
    refine iff_of_false ?_ fun h ↦ hreturn h.1
    split_ifs <;> simp

theorem throws_key_iff (window : Window) (hready : page.Ready) (e : KeyEvent) :
    (∃ thrown, (Script.result (keyEvent window e) page).1 = .error thrown) ↔
      Throws page (.key e) := by
  rw [result_keyEvent, Throws]
  cases page.focus with
  | none => simp
  | some node =>
      cases delivered e with
      | none => cases node <;> simp
      | some outcome =>
          cases outcome with
          | error message => cases node <;> simp
          | ok key =>
              cases node with
              | editor => exact error_editorKey_iff hready key
              | exec =>
                  have hresume := exists_congr
                    (fst_resume_pure (fun _ ↦ true) (Script.result (execKey window key) page))
                  exact hresume.trans (error_execKey_iff window hready key)

theorem fst_respond (window : Window) (page : Page) {event : Event} (h : ∀ e, event ≠ .key e) :
    (Script.result (respond window event) page).1 = .ok true ∧ ¬ Throws page event := by
  cases event with
  | key e => exact (h e rfl).elim
  | focus node => cases node <;> exact ⟨rfl, id⟩
  | input text => exact ⟨rfl, id⟩
  | scroll position => exact ⟨rfl, id⟩
  | elapse ms => exact ⟨rfl, id⟩
  | other delay => exact ⟨rfl, id⟩
  | expire index => exact ⟨rfl, id⟩

theorem throws_iff (window : Window) (hready : page.Ready) (event : Event) :
    (∃ thrown, (Script.result (respond window event) page).1 = .error thrown) ↔
      Throws page event := by
  by_cases hkey : ∃ e, event = .key e
  · obtain ⟨e, rfl⟩ := hkey
    exact throws_key_iff window hready e
  · obtain ⟨hok, hnot⟩ := fst_respond window page fun e he ↦ hkey ⟨e, he⟩
    refine iff_of_false ?_ hnot
    rintro ⟨thrown, hthrown⟩
    rw [hok] at hthrown
    cases hthrown

/-- A key that is refused is refused by `ctrl`. -/
theorem message_of_delivered {e : KeyEvent} {message : JsString}
    (h : delivered e = some (.error message)) : ∃ key, message = lit "bad key " ++ key := by
  unfold delivered at h
  split at h
  · cases h
  · next refused hgrab =>
      obtain rfl : refused = message := by simpa using h
      rw [Keyboard.grabFocus, Option.ite_none_left_eq_some, Option.some.injEq] at hgrab
      obtain ⟨-, hctrl⟩ := hgrab
      split_ifs at hctrl
      unfold ctrl at hctrl
      dsimp only at hctrl
      split_ifs at hctrl
      exact ⟨_, (Except.error.inj hctrl).symm⟩
  · cases h

theorem error_editorKey {key : Key} {message : JsString} (hready : page.Ready) :
    (Script.result (editorKey window key) page).1 ≠ .error (.error message) := by
  rw [result_editorKey window hready]
  cases press page.state key with
  | none => simp
  | some outcome =>
      cases outcome with
      | error fault => simp
      | ok state => by_cases hcursor : HasCursor state <;> simp [hcursor]

theorem error_execKey {key : Key} {message : JsString} (hready : page.Ready) :
    (Script.result (execKey window key) page).1 ≠ .error (.error message) := by
  rw [result_execKey window hready]
  by_cases hreturn : key.text = Keys.CR
  · rw [if_pos hreturn]
    cases execute page.execVal page.state with
    | error fault => simp
    | ok state => by_cases hcursor : HasCursor state <;> simp [hcursor]
  · rw [if_neg hreturn]
    split_ifs <;> simp

/-- What is thrown is never the complaint of `grab_focus` about its calls. -/
theorem ne_firstCallMessage (window : Window) (hready : page.Ready) (event : Event) :
    (Script.result (respond window event) page).1 ≠ .error (.error firstCallMessage) := by
  by_cases hkey : ∃ e, event = .key e
  · obtain ⟨e, rfl⟩ := hkey
    have hrespond : respond window (.key e) = keyEvent window e := rfl
    rw [hrespond, result_keyEvent]
    split
    · simp
    · simp
    · next message hdelivered =>
        obtain ⟨key, rfl⟩ := message_of_delivered hdelivered
        intro hsame
        have hhead := congrArg List.head? (Thrown.error.inj (Except.error.inj hsame))
        have hfirst : (lit "bad key ").head? = some (unit 'b') := rfl
        rw [List.head?_append, hfirst, Option.some_or] at hhead
        exact absurd hhead (by decide)
    · exact error_editorKey hready
    · rw [ne_eq, fst_resume_pure]
      exact error_execKey hready
  · obtain ⟨hok, -⟩ := fst_respond window page fun e he ↦ hkey ⟨e, he⟩
    rw [hok]
    simp

end Step

/-! ## Runs -/

section Runs

variable (window : Window) (content : JsString)

/-- The box is hidden when its callback is registered, so the editor keeps the
focus that it got. -/
theorem result_startEditing :
    Script.result (startEditing window content) blank =
      (.ok (),
        { blank.drawn window (Editor.startEditing content) with
          called := Function.update (Function.update blank.called .editor true) .exec true
          focus := some .editor }) := rfl

theorem sound_loaded : Sound window (loaded window content) := by
  have hscroll : min 0 (window.room (render (Editor.startEditing content))) = 0 :=
    min_eq_left (room_nonneg window _)
  rw [loaded, result_startEditing]
  refine ⟨?_, rfl, ?_, ?_, ?_⟩
  · rintro (_ | _) <;> rfl
  · rintro ⟨⟩
  · exact hscroll.ge
  · exact hscroll.trans_le (room_nonneg window _)

theorem sound_run (events : List Event) : Sound window (run window content events) := by
  have hrun : Throughout (step window) (Sound window) (loaded window content) events :=
    throughout_of_step (fun _ event h ↦ h.step event) (sound_loaded window content) events
  exact hrun.last

/-- The acts of a run of the page. -/
def acts (events : List Event) : List Act :=
  labels (step window) actOf (loaded window content) events

theorem editingOf_run (events : List Event) :
    editingOf (run window content events) =
      (acts window content events).foldl Editing.next ⟨Editor.startEditing content, []⟩ := by
  have hstart : editingOf (loaded window content) = ⟨Editor.startEditing content, []⟩ := rfl
  rw [← hstart, run, acts]
  exact abs_foldl_eq (fun _ event h ↦ Sound.step h event)
    (fun _ event h ↦ editingOf_step window h.ready event) (sound_loaded window content) events

/-- In every run the page draws its state, and shows the box if it has the focus. -/
theorem page_shows_state (events : List Event) :
    let page := run window content events
    page.html = render page.state ∧ (page.focus = some .exec → page.execShown = true) ∧
      0 ≤ page.scrollTop ∧ page.scrollTop ≤ window.room page.html := by
  intro page
  have hsound : Sound window page := sound_run window content events
  exact ⟨hsound.html_eq, hsound.shown_of_focus, hsound.scrollTop_nonneg, hsound.scrollTop_le⟩

/-- The state of the page and the saved states are those of the editor after
the keys and the confirmed texts of the run. -/
theorem page_refines_editor (events : List Event) :
    let page := run window content events
    let editing := (acts window content events).foldl Editing.next ⟨Editor.startEditing content, []⟩
    page.state = editing.state ∧ calls page.saver.log = editing.saves := by
  intro page editing
  have hrun : editingOf page = editing := editingOf_run window content events
  exact ⟨congrArg Editing.state hrun, congrArg Editing.saves hrun⟩

/-- In every run a handler throws exactly in the four cases of `Throws`, and
never for a call of `grab_focus`. -/
theorem run_throws_iff (events : List Event) (event : Event) :
    let page := run window content events
    let outcome := (Script.result (respond window event) page).1
    ((∃ thrown, outcome = .error thrown) ↔ Throws page event) ∧
      outcome ≠ .error (.error firstCallMessage) := by
  intro page outcome
  have hready : page.Ready := (sound_run window content events).ready
  exact ⟨throws_iff window hready event, ne_firstCallMessage window hready event⟩

end Runs

end CoffeeTable.Browser

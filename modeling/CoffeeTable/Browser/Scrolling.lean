import CoffeeTable.Browser.Runs

/-!
# Keeping the cursor in view

After a handled key and after a confirmed text the cursor is in the window,
with the padding unless the window is at an end of the document. The window
has moved no farther than it had to.
-/

namespace CoffeeTable.Browser

open Bounds Ecma Editor Keyboard Transition Underscore Page

variable {window : Window} {page : Page}

/-- Where the window would stand if only the drawing changed. -/
def settled (window : Window) (page : Page) (html : JsString) : ℚ :=
  min page.scrollTop (window.room html)

/-- The cursor is in view, by a shortest move of the window. -/
structure InView (window : Window) (page after : Page) : Prop where
  revealed : Revealed padding window.height (window.room after.html)
    (window.cursorTop after.html) after.scrollTop
  nearest : ∀ position, Shows padding window.height (window.cursorTop after.html) position →
    |after.scrollTop - settled window page after.html| ≤
      |position - settled window page after.html|

theorem viewed_drawn (h : Sound window page) (hheight : padding + padding ≤ window.height)
    (state : State) :
    Viewed padding window.height (window.room (render state)) (window.cursorTop (render state))
      (page.drawn window state).scrollTop where
  padding_nonneg := by norm_num [padding]
  padding_le := hheight
  nonneg := (h.drawn state).scrollTop_nonneg
  le_room := (h.drawn state).scrollTop_le
  top_nonneg := window.cursorTop_nonneg _
  top_le := by
    have htop := window.cursorTop_le (render state)
    have hroom : window.documentHeight (render state) - window.height ≤
        window.room (render state) := le_max_right _ _
    linarith

theorem inView_drawn (h : Sound window page) (hheight : padding + padding ≤ window.height)
    (state : State) : InView window page ((page.drawn window state).revealed window) := by
  have hviewed := viewed_drawn h hheight state
  exact ⟨revealed_reveal hviewed, fun position hshows ↦ abs_reveal_sub_le hviewed hshows⟩

theorem InView.of_scrollTop {before after : Page} (h : InView window before after)
    (hscroll : before.scrollTop = page.scrollTop) : InView window page after := by
  refine ⟨h.revealed, ?_⟩
  have hnearest := h.nearest
  simp only [settled, hscroll] at hnearest
  exact hnearest

theorem scrollTop_boxed (page : Page) (key : Key) :
    (page.boxed key).scrollTop = page.scrollTop := by
  unfold boxed
  cases execContent page.state.mode key <;> rfl

theorem inView_of_editorKey (h : Sound window page) (hheight : padding + padding ≤ window.height)
    {key : Key} (hok : (Script.result (editorKey window key) page).1 = .ok false) :
    InView window page (Script.result (editorKey window key) page).2 := by
  rw [result_editorKey window h.ready] at hok ⊢
  cases hpress : press page.state key with
  | none => simp [hpress] at hok
  | some outcome =>
      cases outcome with
      | error fault => simp [hpress] at hok
      | ok state =>
          by_cases hcursor : HasCursor state
          · have hsaved : Sound window (((page.pressed key).boxed key).saved state) :=
              ((h.pressed key).boxed key).saver _
            have hscroll : (((page.pressed key).boxed key).saved state).scrollTop =
                page.scrollTop := scrollTop_boxed (page.pressed key) key
            simp only [if_pos hcursor]
            exact (inView_drawn hsaved hheight state).of_scrollTop hscroll
          · simp [hpress, hcursor] at hok

theorem inView_of_execKey (h : Sound window page) (hheight : padding + padding ≤ window.height)
    {key : Key} (hreturn : key.text = Keys.CR)
    (hok : (Script.result (execKey window key) page).1 = .ok ()) :
    InView window page (Script.result (execKey window key) page).2 := by
  rw [result_execKey window h.ready, if_pos hreturn] at hok ⊢
  cases hexecute : execute page.execVal page.state with
  | error fault => simp [hexecute] at hok
  | ok state =>
      by_cases hcursor : HasCursor state
      · have hview := inView_drawn h hheight state
        simp only [if_pos hcursor]
        exact ⟨hview.revealed, hview.nearest⟩
      · simp [hexecute, hcursor] at hok

theorem inView_of_keyEvent (h : Sound window page) (hheight : padding + padding ≤ window.height)
    {e : KeyEvent}
    (hcase : (Script.result (keyEvent window e) page).1 = .ok false ∨
      (∃ expr, actOf page (.key e) = some (.confirm expr)) ∧ ¬ Throws page (.key e)) :
    InView window page (Script.result (keyEvent window e) page).2 := by
  rw [← throws_key_iff window h.ready] at hcase
  simp only [result_keyEvent, actOf] at hcase ⊢
  cases hfocus : page.focus with
  | none => simp [hfocus] at hcase
  | some node =>
      cases hdelivered : delivered e with
      | none => cases node <;> simp [hfocus, hdelivered] at hcase
      | some outcome =>
          cases outcome with
          | error message => cases node <;> simp [hfocus, hdelivered] at hcase
          | ok key =>
              cases node with
              | editor =>
                  have hok : (Script.result (editorKey window key) page).1 = .ok false := by
                    simpa [hfocus, hdelivered] using hcase
                  exact inView_of_editorKey h hheight hok
              | exec =>
                  simp only [hfocus, hdelivered] at hcase ⊢
                  rw [snd_resume_pure]
                  have hreturn : key.text = Keys.CR := by
                    by_contra hne
                    rw [if_neg hne] at hcase
                    generalize Script.result (execKey window key) page = result at hcase
                    obtain ⟨ran, after⟩ := result
                    cases ran <;> simp at hcase
                  refine inView_of_execKey h hheight hreturn ?_
                  generalize Script.result (execKey window key) page = result at hcase ⊢
                  obtain ⟨ran, after⟩ := result
                  cases ran with
                  | error thrown => simp at hcase
                  | ok value => rfl

/-- In a window with room for its padding: after every event that the editor
handles, and after every confirmed text that does not throw, the cursor is in
view. -/
theorem cursor_in_view (hheight : padding + padding ≤ window.height) (content : JsString)
    (events : List Event) {event : Event} :
    let page := run window content events
    let outcome := (Script.result (respond window event) page).1
    (outcome = .ok false ∨
      (∃ expr, actOf page event = some (.confirm expr)) ∧ ¬ Throws page event) →
    InView window page (step window page event) := by
  intro page outcome hcase
  have hsound : Sound window page := sound_run window content events
  by_cases hkey : ∃ e, event = .key e
  · obtain ⟨e, rfl⟩ := hkey
    exact inView_of_keyEvent hsound hheight hcase
  · obtain ⟨hok, -⟩ := fst_respond window page fun e he ↦ hkey ⟨e, he⟩
    rcases hcase with hhandled | ⟨⟨expr, hact⟩, -⟩
    · have hsame : Except.ok true = outcome := hok.symm
      rw [hhandled] at hsame
      cases hsame
    · cases event with
      | key e => exact (hkey ⟨e, rfl⟩).elim
      | _ => cases hact

def lowWindow : Window where
  height := 100
  documentHeight := fun _ ↦ 200
  cursorTop := fun _ ↦ 120
  cursorTop_nonneg := fun _ ↦ by norm_num
  cursorTop_le := fun _ ↦ by norm_num

def character (c : Char) : KeyEvent := { type := .keypress, keyCode := 0, charCode := c.toNat }

def returnKey : KeyEvent := { type := .keydown, keyCode := 13, charCode := 0 }

theorem cursor_in_view_insert :
    InView lowWindow (run lowWindow (lit "a") [])
      (step lowWindow (run lowWindow (lit "a") []) (.key (character 'i'))) :=
  cursor_in_view (by norm_num [padding, lowWindow]) (lit "a") [] (Or.inl (by decide +kernel))

end CoffeeTable.Browser

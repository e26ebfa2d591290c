import CoffeeTable.Editor.Typing
import CoffeeTable.Keyboard.GrabFocus

/-!
# Named keys in insert mode

Every key that reaches the editor is one character or a name in brackets. In
insert mode three of the names have a meaning. Any other, of an arrow or of a
key held with control, goes into the text as it is written.
-/

namespace CoffeeTable.Keyboard

open Ecma Editor

/-! ## The keys that are delivered -/

/-- A key that is not a plain character. -/
def Named (e : KeyEvent) : Prop := e.type = .keydown ∨ e.ctrlKey = true

theorem exists_of_grabFocus {e : KeyEvent} {text : JsString} (h : grabFocus e = some (.ok text)) :
    goodInput e = true ∧ ∃ key,
      (keydownKeycodeMap.lookup e.keyCode).getD (fromCharCode e.charCode) = key ∧
        if e.ctrlKey then ctrl key = .ok text else key = text := by
  rw [grabFocus, Option.ite_none_left_eq_some, Option.some.injEq] at h
  obtain ⟨hlet, hkey⟩ := h
  have hgood : goodInput e = true := by
    by_contra hbad
    rw [Bool.not_eq_true] at hbad
    exact hlet (by rw [hbad, Bool.not_false, Bool.or_true])
  refine ⟨hgood, _, rfl, ?_⟩
  by_cases hctrl : e.ctrlKey
  · rw [if_pos hctrl] at hkey ⊢
    exact hkey
  · rw [if_neg hctrl] at hkey ⊢
    exact Except.ok.inj hkey

/-- A control form is a name in brackets. -/
theorem head?_of_ctrl {key text : JsString} (h : ctrl key = .ok text) :
    text.head? = some (unit '<') ∧ 1 < text.length := by
  have hname (name : JsString) :
      (ctrlName name).head? = some (unit '<') ∧ 1 < (ctrlName name).length := by
    refine ⟨rfl, ?_⟩
    simp [ctrlName, lit]
  rcases ctrl_eq_ok h with ⟨u, -, -, rfl⟩ | ⟨-, name, -, rfl⟩
  · exact hname _
  · exact hname name

theorem head?_of_special {name : JsString} (h : name ∈ keydownKeycodeMap.map Prod.snd) :
    name.head? = some (unit '<') ∧ 1 < name.length := by
  have hall : ∀ name ∈ keydownKeycodeMap.map Prod.snd,
      name.head? = some (unit '<') ∧ 1 < name.length := by decide
  exact hall name h

theorem head?_of_named {e : KeyEvent} {text : JsString} (h : grabFocus e = some (.ok text))
    (hnamed : Named e) : text.head? = some (unit '<') ∧ 1 < text.length := by
  obtain ⟨hgood, key, hkey, htext⟩ := exists_of_grabFocus h
  by_cases hctrl : e.ctrlKey
  · rw [if_pos hctrl] at htext
    exact head?_of_ctrl htext
  · rw [if_neg hctrl] at htext
    have htype : e.type = .keydown := hnamed.resolve_right hctrl
    rw [goodInput, htype] at hgood
    obtain ⟨name, hlookup⟩ := Option.isSome_iff_exists.mp hgood
    rw [hlookup, Option.getD_some] at hkey
    rw [← htext, ← hkey]
    exact head?_of_special (mem_of_lookup_keyCode hlookup)

/-- What is delivered has the shape of a key. -/
theorem shape_of_grabFocus {e : KeyEvent} {text : JsString} (h : grabFocus e = some (.ok text)) :
    text.length = 1 ∨ text.head? = some (unit '<') := by
  obtain ⟨-, key, hkey, htext⟩ := exists_of_grabFocus h
  by_cases hctrl : e.ctrlKey
  · exact Or.inr (head?_of_named h (Or.inr hctrl)).1
  · rw [if_neg hctrl] at htext
    rw [← htext, ← hkey]
    cases hlookup : keydownKeycodeMap.lookup e.keyCode with
    | none => exact Or.inl rfl
    | some name => exact Or.inr (head?_of_special (mem_of_lookup_keyCode hlookup)).1

/-! ## Typing a name -/

theorem text_handleKey_of_type {s : State} (hs : s.Inside) (hmode : s.mode = .insert) {key : Key}
    (hkey : key.text ∉ [Keys.BS, Keys.CR, Keys.ESC]) :
    (handleKey s key).text = s.text.take s.offset ++ key.text ++ s.text.drop s.offset := by
  have hdecode : decode s.mode key = some (.type key.text) := by
    simp only [List.mem_cons, List.not_mem_nil, or_false, not_or] at hkey
    rw [hmode, decode, if_neg hkey.2.2, if_neg hkey.1, if_neg hkey.2.1]
  obtain ⟨before, line, after, hat⟩ := hs.exists_at
  obtain ⟨t, ht, -, -, hflat⟩ := hat.resetCount.type_simulates hmode key.text
  rw [handleKey_of_perform hdecode ht]
  exact congrArg Lines.Flat.text hflat

/-- In insert mode every named key but backspace, return and escape changes
the text: its name is put in at the cursor. -/
theorem named_key_becomes_text {s : State} (hs : s.Inside) (hmode : s.mode = .insert)
    {e : KeyEvent} {key : Key} (hgrab : grabFocus e = some (.ok key.text)) (hnamed : Named e)
    (hkey : key.text ∉ [Keys.BS, Keys.CR, Keys.ESC]) :
    (handleKey s key).text ≠ s.text ∧ 1 < key.text.length ∧
      (handleKey s key).text = s.text.take s.offset ++ key.text ++ s.text.drop s.offset := by
  have htext := text_handleKey_of_type hs hmode hkey
  have hlength := (head?_of_named hgrab hnamed).2
  refine ⟨fun hsame ↦ ?_, hlength, htext⟩
  have hgrown := congrArg List.length (htext.symm.trans hsame)
  rw [List.append_assoc, List.length_append, List.length_append, List.length_take,
    List.length_drop] at hgrown
  omega

theorem named_key_becomes_text_left :
    (handleKey (run (lit "ab") [key "a"]) (key "<LEFT>")).text ≠ lit "ab" := by
  have hgrab : grabFocus { type := .keydown, keyCode := 37, charCode := 0 } =
      some (.ok (key "<LEFT>").text) := by decide
  exact (named_key_becomes_text (s := run (lit "ab") [key "a"])
    ⟨by decide, by decide, by decide⟩ (by decide) hgrab (Or.inl rfl) (by decide)).1

theorem left_arrow_inserts_name :
    grabFocus { type := .keydown, keyCode := 37, charCode := 0 } =
        some (.ok (key "<LEFT>").text) ∧
      (run (lit "ab") [key "a"]).text = lit "ab" ∧
      (run (lit "ab") [key "a", key "<LEFT>"]).text = lit "a<LEFT>b" := by
  decide

end CoffeeTable.Keyboard

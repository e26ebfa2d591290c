import CoffeeTable.Editor.Deletion
import CoffeeTable.Transition.Simulation

/-!
# Typing is editing a flat text

In insert mode the list of lines with its line and column is one text with an
offset. Typing a character, breaking the line and backspace do to it what they
do to a flat text, as long as backspace has a character to remove. A stored
column past the end of its line counts as the end.
-/

namespace CoffeeTable.Editor

open Ecma Transition

/-- The flat editor's reading of a key. -/
def flatKey (f : Lines.Flat CodeUnit) (key : Key) : Lines.Flat CodeUnit :=
  if key.text = Keys.BS then f.erase
  else if key.text = Keys.CR then f.insert [newline]
  else f.insert key.text

def typeKey (s : State) (key : Key) : Except Fault State :=
  insertCatchall s (effectiveCount s.repeatNumber) s.repeatNumber key

/-- A character other than newline, a line break, or backspace after some text. -/
def Typable (s : State) (key : Key) : Prop :=
  (∃ c, key.text = [c] ∧ c ≠ newline) ∨ key.text = Keys.CR ∨
    (key.text = Keys.BS ∧ 0 < s.offset)

namespace State.At

variable {s : State} {before after : List JsString} {line : JsString}

theorem type_simulates (h : s.At before line after) (hmode : s.mode = .insert)
    (string : JsString) :
    ∃ t, insertStringAtCursor string s = .ok t ∧ t.Inside ∧ t.mode = .insert ∧
      t.flat = s.flat.insert string := by
  obtain ⟨col, hcol, hle⟩ := exists_clampCol s.mode line.length s.cursor.col
  have heq := h.insertStringAtCursor_eq string
  rw [hcol, sliceTo_natCast, sliceFrom_natCast] at heq
  have hat : State.At
      { cursor := ⟨before.length, (col : ℤ) + string.length⟩
        buffer := ⟨before ++ (line.take col ++ string ++ line.drop col) :: after, []⟩
        mode := s.mode
        repeatNumber := none } before (line.take col ++ string ++ line.drop col) after :=
    ⟨rfl, rfl, by simp only; omega⟩
  refine ⟨_, heq, hat.inside, hmode, ?_⟩
  rw [h.flat_of_clampCol hmode hcol, Lines.Flat.insert_ofLines]
  exact hat.flat_of_append hmode (by simp [hle])

theorem break_simulates (h : s.At before line after) (hmode : s.mode = .insert) :
    ∃ t, breakLineAtCursor s = .ok t ∧ t.Inside ∧ t.mode = .insert ∧
      t.flat = s.flat.insert [newline] := by
  obtain ⟨col, hcol, -⟩ := exists_clampCol s.mode line.length s.cursor.col
  have heq := h.breakLineAtCursor_eq
  rw [hcol, sliceTo_natCast, sliceFrom_natCast] at heq
  have hat : State.At
      { cursor := ⟨(before.length : ℤ) + 1, 0⟩
        buffer := ⟨before ++ line.take col :: line.drop col :: after, []⟩
        mode := s.mode
        repeatNumber := none } (before ++ [line.take col]) ([] ++ line.drop col) after :=
    ⟨by simp, by simp, le_refl 0⟩
  refine ⟨_, heq, hat.inside, hmode, ?_⟩
  rw [h.flat_of_clampCol hmode hcol, Lines.Flat.insert_sep_ofLines]
  exact hat.flat_of_append hmode rfl

theorem backspace_simulates (h : s.At before line after) (hmode : s.mode = .insert)
    (hoffset : 0 < s.offset) :
    ∃ t, deleteCharsAtCursor (-1) s = .ok t ∧ t.Inside ∧ t.mode = .insert ∧
      t.flat = s.flat.erase := by
  rw [← Lines.Flat.delete_neg_one]
  apply deleteChars_simulates h.inside hmode
  omega

end State.At

def Represents (s : State) (f : Lines.Flat CodeUnit) : Prop :=
  s.Inside ∧ s.mode = .insert ∧ s.flat = f

theorem typeKey_simulates (s : State) (f : Lines.Flat CodeUnit) (key : Key)
    (hs : Represents s f) (hkey : Typable s key) :
    ∃ t, typeKey s key = .ok t ∧ Represents t (flatKey f key) := by
  obtain ⟨hinside, hmode, rfl⟩ := hs
  obtain ⟨before, line, after, hat⟩ := hinside.exists_at
  rcases hkey with ⟨c, hc, -⟩ | hcr | ⟨hbs, hoffset⟩
  · have hne (name : JsString) (hname : name.length ≠ 1) : ¬ key.text = name := by
      rintro rfl
      simp [hc] at hname
    obtain ⟨t, ht, hrest⟩ := hat.type_simulates hmode [c]
    refine ⟨t, ?_, ?_⟩
    · rwa [typeKey, insertCatchall, if_neg (hne _ (by decide)), if_neg (hne _ (by decide)), hc]
    · rwa [flatKey, if_neg (hne _ (by decide)), if_neg (hne _ (by decide)), hc]
  · obtain ⟨t, ht, hrest⟩ := hat.break_simulates hmode
    have hne : ¬ key.text = Keys.BS := by rw [hcr]; decide
    refine ⟨t, ?_, ?_⟩
    · rwa [typeKey, insertCatchall, if_neg hne, if_pos hcr]
    · rwa [flatKey, if_neg hne, if_pos hcr]
  · obtain ⟨t, ht, hrest⟩ := hat.backspace_simulates hmode hoffset
    refine ⟨t, ?_, ?_⟩
    · rwa [typeKey, insertCatchall, if_pos hbs]
    · rwa [flatKey, if_pos hbs]

/-- After every part of a typed sequence the cursor is inside the buffer, and
text and offset are those of the flat editor. -/
theorem typing_refines_flat {s : State} {keys : List Key} (hmode : s.mode = .insert)
    (hinside : s.Inside) (hkeys : Admits typeKey Typable s keys) :
    ∀ pre, pre <+: keys → ∃ t, pre.foldlM typeKey s = .ok t ∧ t.Inside ∧
      (⟨t.text, t.offset⟩ : Lines.Flat CodeUnit) =
        pre.foldl flatKey ⟨s.text, s.offset⟩ := by
  intro pre hpre
  obtain ⟨t, ht, hstill, -, hflat⟩ :=
    foldlM_of_simulates typeKey_simulates ⟨hinside, hmode, rfl⟩ hkeys pre hpre
  exact ⟨t, ht, hstill, hflat⟩

theorem typing_refines_flat_x :
    ∃ t, [key "x", key "<CR>", key "<BS>"].foldlM typeKey
        ⟨⟨0, 0⟩, ⟨[lit "ab"], []⟩, .insert, some 0⟩ = .ok t ∧
      t.Inside ∧ (⟨t.text, t.offset⟩ : Lines.Flat CodeUnit) = ⟨lit "xab", 1⟩ := by
  have hkeys : Admits typeKey Typable ⟨⟨0, 0⟩, ⟨[lit "ab"], []⟩, .insert, some 0⟩
      [key "x", key "<CR>", key "<BS>"] := by
    refine ⟨Or.inl ⟨unit 'x', rfl, by decide⟩, fun t ht ↦ ?_⟩
    cases ht
    refine ⟨Or.inr (Or.inl rfl), fun t ht ↦ ?_⟩
    cases ht
    exact ⟨Or.inr (Or.inr ⟨rfl, by decide⟩), fun _ _ ↦ trivial⟩
  exact typing_refines_flat rfl ⟨le_refl 0, by decide, le_refl 0⟩ hkeys _ (List.prefix_refl _)

end CoffeeTable.Editor

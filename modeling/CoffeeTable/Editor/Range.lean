import CoffeeTable.Editor.RepeatCount

/-!
# How far the cursor can stray

No sequence of keys takes the cursor line further than one line above or one
line below the buffer, or the column below zero. This holds without any
condition, also after actions that threw.
-/

namespace CoffeeTable.Editor

open Ecma Transition

structure State.InRange (s : State) : Prop where
  neg_one_le_line : -1 ≤ s.cursor.line
  line_le : s.cursor.line ≤ s.buffer.length
  col_nonneg : 0 ≤ s.cursor.col

namespace State

variable {s t : State}

theorem Inside.inRange (h : s.Inside) : s.InRange where
  neg_one_le_line := by have := h.line_nonneg; omega
  line_le := h.line_lt.le
  col_nonneg := h.col_nonneg

/-- In range, a cursor line that the clone does not have is one off either end. -/
theorem InRange.inside_or (h : s.InRange) :
    s.Inside ∨ (s.buffer.clone.get? s.cursor.line = none ∧
      (s.cursor.line = -1 ∨ s.cursor.line = s.buffer.length)) := by
  obtain ⟨hlow, hhigh, hcol⟩ := h
  by_cases hneg : s.cursor.line < 0
  · exact Or.inr ⟨JsArray.get?_clone_of_neg _ hneg, Or.inl (by omega)⟩
  · by_cases hlt : s.cursor.line < s.buffer.length
    · exact Or.inl ⟨not_lt.mp hneg, hlt, hcol⟩
    · have heq : s.cursor.line = s.buffer.length := by omega
      refine Or.inr ⟨?_, Or.inr heq⟩
      exact JsArray.get?_eq_none_of_length_le (not_lt.mp hneg) (by simp [heq])

theorem InRange.congr (h : s.InRange) (hcursor : t.cursor = s.cursor)
    (hbuffer : t.buffer = s.buffer) : t.InRange := by
  obtain ⟨hlow, hhigh, hcol⟩ := h
  exact ⟨by rwa [hcursor], by rwa [hcursor, hbuffer], by rwa [hcursor]⟩

end State

/-! ## Whole-line deletions -/

theorem length_splice_ge {a : Buffer} {start deleteCount : ℤ} (hstart : start ≤ a.length) :
    start ≤ (a.splice start deleteCount []).length := by
  have hlength := length_splice a.elems ([] : List JsString) start deleteCount
  simp only [List.length_nil] at hlength
  simp only [JsArray.length, JsArray.elems_splice] at hstart ⊢
  by_cases hneg : start < 0
  · omega
  · rw [relativeIndex_of_nonneg (not_lt.mp hneg)] at hlength
    omega

theorem deleteToCursor_inRange {s t : State} {target : Cursor} (hs : s.InRange)
    (hlow : -1 ≤ target.line) (hcol : 0 ≤ target.col) (h : deleteToCursor s target = .ok t) :
    t.InRange := by
  by_cases hline : s.cursor.line = target.line
  · rcases hs.inside_or with hinside | ⟨hnone, -⟩
    · obtain ⟨before, line, after, hat⟩ := hinside.exists_at
      have htarget : target = ⟨s.cursor.line, target.col⟩ := by rw [hline]
      rw [htarget, hat.deleteToCursor_same] at h
      cases h
      refine ⟨by simp only; omega, ?_, le_min hs.col_nonneg hcol⟩
      simp only [JsArray.length, List.length_append, List.length_cons]
      omega
    · rw [deleteToCursor_of_none hline hnone] at h
      cases h
  · rw [deleteToCursor_of_ne hline] at h
    cases h
    refine ⟨le_min hs.neg_one_le_line hlow, ?_, le_refl 0⟩
    have hle : min s.cursor.line target.line ≤ s.buffer.clone.length :=
      (min_le_left _ _).trans hs.line_le
    exact length_splice_ge hle

/-! ## The invariant -/

theorem movement_inRange {motion : Motion} (hproper : motion.Proper) {s : State}
    (hs : s.InRange) {count : Option ℤ} {cursor : Cursor}
    (h : motion.movement s count = .ok cursor) :
    -1 ≤ cursor.line ∧ cursor.line ≤ s.buffer.length ∧ 0 ≤ cursor.col := by
  rcases Motion.movement_eq_ok hproper h with ⟨cols, line, n, -, -, -, rfl⟩ |
      ⟨n, -, htarget, hcol⟩
  · exact ⟨hs.neg_one_le_line, hs.line_le, clampCol_nonneg _ _ _⟩
  · have hbounds := Motion.targetLine_bounds htarget
    exact ⟨hbounds.1, hbounds.2, hcol ▸ hs.col_nonneg⟩

def Command.Proper : Command → Prop
  | .move motion => motion.Proper
  | .deleteTo motion => motion.Proper
  | .changeTo motion => motion.Proper
  | _ => True

theorem proper_of_decode {mode : Mode} {key : Key} {command : Command}
    (h : decode mode key = some command) : command.Proper := by
  by_cases hmode : mode = .insert
  · subst hmode
    rcases decode_insert h with ⟨-, rfl⟩ | htyping
    · trivial
    · cases command <;> trivial
  · cases decoded_of_decode hmode h with
    | own hmem =>
        have hall : ∀ entry ∈ ownTable mode, entry.2.Proper := by
          cases mode <;> simp [ownTable, commandTable, Command.Proper]
        exact hall _ hmem
    | motion huse hmotion =>
        have hproper := motionOf_proper hmotion
        rcases motionUse_eq_some huse with ⟨-, rfl⟩ | ⟨-, rfl⟩ | ⟨-, rfl⟩ <;> exact hproper
    | digit _ => trivial
    | cancel _ _ => trivial

theorem clamped_inRange {s t : State} {normalizeCol : Bool}
    (h : normalizeCursor s { normalizeCol := normalizeCol } = .ok t) (hcol : 0 ≤ s.cursor.col) :
    t.InRange := by
  have hnonneg := clampLine_nonneg s s.cursor.line
  cases normalizeCol with
  | false =>
      rw [normalizeCursor_line] at h
      cases h
      exact ⟨by simp only [if_true]; omega, clampLine_le s s.cursor.line, hcol⟩
  | true =>
      obtain ⟨current, -, rfl⟩ := normalizeCursor_eq_ok h
      exact ⟨by simp only; omega, clampLine_le s s.cursor.line, clampCol_nonneg _ _ _⟩

theorem typing_inRange {command : Command} (htyping : command.Typing) {s t : State}
    {count actualCount : Option ℤ} (h : command.run s count actualCount = .ok t) :
    t.InRange := by
  obtain ⟨n, before, line, after, -, hat, h⟩ := typing_eq_ok htyping h
  have hcol := clampCol_nonneg n.mode line.length n.cursor.col
  cases command <;> try exact htyping.elim
  · rcases hat.backspace_cases with ⟨col, -, heq⟩ | ⟨init, previous, -, -, heq⟩ |
        ⟨-, -, heq⟩ <;>
      obtain rfl := Except.ok.inj (heq.symm.trans h) <;>
      constructor <;> simp [JsArray.length] <;> omega
  · obtain rfl := Except.ok.inj (hat.breakLineAtCursor_eq.symm.trans h)
    constructor <;> simp [JsArray.length] <;> omega
  · obtain rfl := Except.ok.inj ((hat.insertStringAtCursor_eq _).symm.trans h)
    constructor <;> simp [JsArray.length] <;> omega

theorem run_inRange {command : Command} (hproper : command.Proper) {s t : State}
    (hs : s.InRange) {count actualCount : Option ℤ}
    (h : command.run s count actualCount = .ok t) : t.InRange := by
  cases command with
  | execBox =>
      cases h
      exact hs
  | insert location =>
      cases h
      obtain ⟨hlow, hhigh, hcol⟩ := hs
      cases location
      · exact ⟨hlow, hhigh, hcol⟩
      · refine ⟨hlow, hhigh, ?_⟩
        simp only [Editor.insert, makeState, Option.getD_some]
        omega
  | openLine location =>
      cases h
      obtain ⟨hlow, hhigh, hcol⟩ := hs
      have hlength (lineNumber : ℤ) :
          (s.buffer.clone.splice lineNumber 0 [[]]).length = s.buffer.length + 1 := by
        have := length_splice s.buffer.elems [([] : JsString)] lineNumber 0
        have hle := relativeIndex_le s.buffer.elems.length lineNumber
        simp only [JsArray.length, JsArray.elems_splice, JsArray.elems_clone, this]
        simp
        omega
      cases location <;> constructor <;>
        simp [insertLine, makeState, hlength] <;> omega
  | enter mode =>
      cases h
      exact hs.congr rfl rfl
  | move motion =>
      obtain ⟨cursor, hcursor, h⟩ := bind_eq_ok.mp h
      cases h
      obtain ⟨hlow, hhigh, hcol⟩ := movement_inRange hproper hs hcursor
      exact ⟨hlow, hhigh, hcol⟩
  | digit number =>
      obtain ⟨typed, -, h⟩ := bind_eq_ok.mp h
      cases h
      exact hs.congr rfl rfl
  | backspace => exact typing_inRange (by trivial) h
  | breakLine => exact typing_inRange (by trivial) h
  | type string => exact typing_inRange (by trivial) h
  | deleteLine =>
      simp only [Command.run, deleteCurrentLine] at h
      exact clamped_inRange h hs.col_nonneg
  | deleteTo motion =>
      obtain ⟨cursor, hcursor, h⟩ := bind_eq_ok.mp h
      obtain ⟨hlow, -, hcol⟩ := movement_inRange hproper hs hcursor
      exact deleteToCursor_inRange hs hlow hcol h
  | changeLine =>
      obtain ⟨buffer, -, h⟩ := bind_eq_ok.mp h
      exact clamped_inRange h hs.col_nonneg
  | changeTo motion =>
      obtain ⟨cursor, hcursor, h⟩ := bind_eq_ok.mp h
      obtain ⟨deleted, hdeleted, h⟩ := bind_eq_ok.mp h
      cases h
      obtain ⟨hlow, -, hcol⟩ := movement_inRange hproper hs hcursor
      exact (deleteToCursor_inRange hs hlow hcol hdeleted).congr rfl rfl
  | top =>
      obtain ⟨normalized, hnormal, h⟩ := bind_eq_ok.mp h
      cases h
      exact (clamped_inRange hnormal hs.col_nonneg).congr rfl rfl

theorem State.InRange.handleKey {s : State} (hs : s.InRange) (key : Key) :
    (handleKey s key).InRange := by
  rw [handleKey_eq]
  cases hdecode : decode s.mode key with
  | none => exact hs
  | some command =>
      dsimp only
      have hreset : (resetCount s).InRange := hs.congr rfl rfl
      cases hrun : s.perform command with
      | error fault => exact hreset
      | ok t => exact run_inRange (proper_of_decode hdecode) hreset hrun

theorem inRange_run (content : JsString) (keys : List Key) : (run content keys).InRange :=
  (throughout_of_step (Q := State.InRange) (fun _ key hs ↦ hs.handleKey key)
    (startEditing_inside content).inRange keys).last

end CoffeeTable.Editor

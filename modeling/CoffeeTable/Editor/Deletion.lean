import CoffeeTable.Editor.Inside
import CoffeeTable.Lines.Deletion

/-!
# Deleting characters is deleting from a flat text

In insert mode a deletion by a count, in either direction and over any number
of line ends, does to the flat text what the same deletion does to a flat
editor, as long as there is enough text before the cursor. Backspace is the
only key that deletes this way; it asks for one character also when there is
none before the cursor, and then it spoils the buffer.
-/

namespace CoffeeTable.Editor

open Ecma

def State.flat (s : State) : Lines.Flat CodeUnit := ⟨s.text, s.offset⟩

theorem exists_clampCol (mode : Mode) (length : ℕ) (col : ℤ) :
    ∃ n : ℕ, clampCol mode length col = n ∧ n ≤ length := by
  have hnonneg := clampCol_nonneg mode length col
  have hle := clampCol_le mode length col
  exact ⟨(clampCol mode length col).toNat, by omega, by omega⟩

/-- What a deletion comes to: a state in insert mode with the given flat text. -/
def DeletesTo (result : Except Fault State) (f : Lines.Flat CodeUnit) : Prop :=
  ∃ t, result = .ok t ∧ t.Inside ∧ t.mode = .insert ∧ t.flat = f

namespace State.At

variable {s : State} {before after : List JsString} {line : JsString}

theorem flat_of_clampCol (h : s.At before line after) (hmode : s.mode = .insert) {col : ℕ}
    (hcol : clampCol s.mode line.length s.cursor.col = col) :
    s.flat = .ofLines newline before (line.take col) (line.drop col) after := by
  rw [hmode, clampCol_insert _ h.col_nonneg] at hcol
  have hmin : col = min s.cursor.col.toNat line.length := by omega
  rw [State.flat, h.flat_eq, hmin]
  congr 1
  · simp [List.take_eq_take_iff]
  · simp [List.drop_eq_drop_iff]

theorem flat_of_append {t : State} {left right : JsString}
    (h : t.At before (left ++ right) after) (hmode : t.mode = .insert)
    (hcol : t.cursor.col = left.length) : t.flat = .ofLines newline before left right after := by
  have hclamp : clampCol t.mode (left ++ right).length t.cursor.col = left.length := by
    rw [hmode, hcol, clampCol_insert _ (Int.natCast_nonneg _), List.length_append]
    omega
  rw [h.flat_of_clampCol hmode hclamp, List.take_left, List.drop_left]

theorem delete_within (h : s.At before line after) (hmode : s.mode = .insert) {col : ℕ}
    (hcol : clampCol s.mode line.length s.cursor.col = col) {count : ℤ} (hcount : count ≠ 0)
    (hlow : 0 ≤ count + col) (hhigh : count + col ≤ line.length) :
    DeletesTo (deleteCharsAtCursor count s) (s.flat.delete count) := by
  have hle := clampCol_le s.mode line.length s.cursor.col
  obtain ⟨stop, hstop⟩ : ∃ stop : ℕ, count + col = stop := ⟨(count + col).toNat, by omega⟩
  have hmin : min ((col : ℤ) + count) col = (min col stop : ℕ) := by omega
  have hmax : max ((col : ℤ) + count) col = (max col stop : ℕ) := by omega
  have heq := h.deleteCharsAtCursor_eq hcount hcol
  rw [if_neg (by omega), if_neg (by omega), hmin, hmax, sliceTo_natCast, sliceFrom_natCast] at heq
  refine ⟨_, heq, At.inside ⟨rfl, rfl, Int.natCast_nonneg _⟩, hmode, ?_⟩
  have hat : State.At
      { s with
        cursor := ⟨before.length, (min col stop : ℕ)⟩
        buffer := ⟨before ++ (line.take (min col stop) ++ line.drop (max col stop)) :: after, []⟩ }
      before (line.take (min col stop) ++ line.drop (max col stop)) after :=
    ⟨rfl, rfl, Int.natCast_nonneg _⟩
  have hlength : (line.take (min col stop)).length = min col stop := by
    rw [List.length_take]
    omega
  rw [h.flat_of_clampCol hmode hcol,
    Lines.Flat.delete_between newline before after line (by omega) (by omega) hstop]
  exact hat.flat_of_append hmode (by rw [hlength])

/-- A deletion that leaves the line goes on in a smaller one that comes to the same. -/
structure Continues (s : State) (count : ℤ) (s' : State) (count' : ℤ) : Prop where
  closer : count'.natAbs < count.natAbs
  inside : s'.Inside
  mode_eq : s'.mode = .insert
  enough : 0 ≤ s'.offset + count'
  code_eq : deleteCharsAtCursor count s = deleteCharsAtCursor count' s'
  flat_eq : s.flat.delete count = s'.flat.delete count'

theorem continues_over_start {previous : JsString} (h : s.At (before ++ [previous]) line after)
    (hmode : s.mode = .insert) {col : ℕ}
    (hcol : clampCol s.mode line.length s.cursor.col = col) {count : ℤ}
    (hcount : count + col < 0) (henough : 0 ≤ s.offset + count) :
    ∃ s', Continues s count s' (count + col + 1) := by
  have hle := clampCol_le s.mode line.length s.cursor.col
  have hat : State.At
      { s with
        cursor := ⟨before.length, previous.length⟩
        buffer := ⟨before ++ (previous ++ line.drop col) :: after, []⟩ }
      before (previous ++ line.drop col) after := ⟨rfl, rfl, Int.natCast_nonneg _⟩
  have hflat := hat.flat_of_append hmode rfl
  have hlength : ((line.take col).length : ℤ) = col := by
    rw [List.length_take]
    omega
  refine ⟨_, by omega, hat.inside, hmode, ?_, h.deleteChars_over_start hcol hcount, ?_⟩
  · have hposition := h.offset_eq hmode
    have hposition' := congrArg Lines.Flat.offset hflat
    rw [hcol, Lines.above_append, Lines.above_singleton] at hposition
    simp only [List.length_append, List.length_singleton] at hposition
    simp only [State.flat, Lines.Flat.ofLines] at hposition'
    rw [hposition']
    omega
  · rw [hflat, h.flat_of_clampCol hmode hcol, ← List.nil_append (line.take col),
      Lines.Flat.delete_left _ _ _ _ _ _ (by omega), hlength,
      Lines.Flat.delete_start _ _ _ _ _ hcount]

theorem continues_over_end (h : s.At before line after) (hmode : s.mode = .insert) {col : ℕ}
    (hcol : clampCol s.mode line.length s.cursor.col = col) {count : ℤ}
    (hcount : line.length < count + col) :
    ∃ s', Continues s count s' (count - (line.length - col) - 1) := by
  have hle := clampCol_le s.mode line.length s.cursor.col
  have hlength : ((line.drop col).length : ℤ) = line.length - col := by
    rw [List.length_drop]
    omega
  have hcol' : (col : ℤ) = (line.take col).length := by
    rw [List.length_take]
    omega
  have hright : s.flat.delete count =
      (Lines.Flat.ofLines newline before (line.take col) [] after).delete
        (count - (line.length - col)) := by
    rw [h.flat_of_clampCol hmode hcol, ← List.append_nil (line.drop col),
      Lines.Flat.delete_right _ _ _ _ _ _ (by omega), hlength]
  cases after with
  | nil =>
      have hat : State.At
          { cursor := ⟨before.length, col⟩
            buffer := ⟨before ++ [line.take col], []⟩
            mode := s.mode
            repeatNumber := none } before (line.take col ++ []) [] :=
        ⟨by simp, rfl, Int.natCast_nonneg col⟩
      refine ⟨_, by omega, hat.inside, hmode, by omega, h.deleteChars_past_end hcol hcount, ?_⟩
      rw [hright, hat.flat_of_append hmode hcol', Lines.Flat.delete_last _ _ _ (by omega),
        Lines.Flat.delete_last _ _ _ (by omega)]
  | cons next after =>
      have hat : State.At
          { cursor := ⟨before.length, col⟩
            buffer := ⟨before ++ (line.take col ++ next) :: after, []⟩
            mode := s.mode
            repeatNumber := none } before (line.take col ++ next) after :=
        ⟨rfl, rfl, Int.natCast_nonneg col⟩
      refine ⟨_, by omega, hat.inside, hmode, by omega, h.deleteChars_over_end hcol hcount, ?_⟩
      rw [hright, hat.flat_of_append hmode hcol', Lines.Flat.delete_end _ _ _ _ _ (by omega)]

end State.At

/-- The recursion on the count: within the line at once, and otherwise over one line end. -/
theorem deleteChars_simulates {s : State} {count : ℤ} (hs : s.Inside) (hmode : s.mode = .insert)
    (henough : 0 ≤ s.offset + count) :
    DeletesTo (deleteCharsAtCursor count s) (s.flat.delete count) := by
  induction hn : count.natAbs using Nat.strong_induction_on generalizing s count with
  | _ n ih =>
      obtain ⟨before, line, after, h⟩ := hs.exists_at
      obtain ⟨col, hcol, hle⟩ := exists_clampCol s.mode line.length s.cursor.col
      have hcontinue {s' : State} {count' : ℤ} (hnext : State.At.Continues s count s' count') :
          DeletesTo (deleteCharsAtCursor count s) (s.flat.delete count) := by
        rw [hnext.code_eq, hnext.flat_eq]
        exact ih _ (hn ▸ hnext.closer) hnext.inside hnext.mode_eq hnext.enough rfl
      by_cases hzero : count = 0
      · subst hzero
        rw [deleteCharsAtCursor_zero, Lines.Flat.delete_zero]
        exact ⟨s, rfl, hs, hmode, rfl⟩
      by_cases hlow : count + col < 0
      · rcases List.eq_nil_or_concat before with rfl | ⟨init, previous, rfl⟩
        · -- On the first line there would be too little text before the cursor.
          have hposition := h.offset_eq hmode
          rw [hcol, Lines.above_nil, List.length_nil] at hposition
          omega
        · rw [List.concat_eq_append] at h
          obtain ⟨s', hnext⟩ := h.continues_over_start hmode hcol hlow henough
          exact hcontinue hnext
      · by_cases hhigh : line.length < count + col
        · obtain ⟨s', hnext⟩ := h.continues_over_end hmode hcol hhigh
          exact hcontinue hnext
        · exact h.delete_within hmode hcol hzero (not_lt.mp hlow) (not_lt.mp hhigh)

/-- Deleting by a count removes the characters between the offset and the
count's end of it, cut to the text, and puts the cursor at the lower end. -/
theorem deleteCharsAtCursor_removes {s : State} (hs : s.Inside) (hmode : s.mode = .insert)
    (count : ℤ) (henough : 0 ≤ s.offset + count) :
    ∃ t, deleteCharsAtCursor count s = .ok t ∧
      (0 ≤ count → t.text = s.text.take s.offset ++
        s.text.drop (min (s.offset + count) s.text.length).toNat) ∧
      (count ≤ 0 → t.text = s.text.take (s.offset + count).toNat ++ s.text.drop s.offset) ∧
      (t.offset : ℤ) = min (s.offset : ℤ) (s.offset + count) ∧ t.Inside := by
  obtain ⟨t, ht, hinside, -, hflat⟩ := deleteChars_simulates hs hmode henough
  obtain ⟨htext, hoffset⟩ := Lines.Flat.mk.inj hflat
  simp only [State.flat] at htext hoffset
  refine ⟨t, ht, fun hcount ↦ ?_, fun hcount ↦ ?_, by omega, hinside⟩
  · have hstop : s.offset ≤ ((s.offset : ℤ) + count).toNat := by omega
    rw [htext, min_eq_left hstop, max_eq_right hstop]
    congr 1
    rcases Int.le_total (s.offset + count) s.text.length with hle | hle
    · rw [min_eq_left hle]
    · rw [min_eq_right hle, Int.toNat_natCast, List.drop_length,
        List.drop_eq_nil_of_le (by omega)]
  · have hstop : ((s.offset : ℤ) + count).toNat ≤ s.offset := by omega
    rw [htext, min_eq_right hstop, max_eq_left hstop]

theorem deleteCharsAtCursor_removes_three :
    ∃ t, deleteCharsAtCursor 3 ⟨⟨0, 1⟩, ⟨[lit "ab", lit "cd"], []⟩, .insert, some 0⟩ = .ok t ∧
      t.text = lit "ad" ∧ t.offset = 1 := by
  obtain ⟨t, ht, hforth, -, hoffset, -⟩ := deleteCharsAtCursor_removes
    (s := ⟨⟨0, 1⟩, ⟨[lit "ab", lit "cd"], []⟩, .insert, some 0⟩)
    ⟨le_refl 0, by decide, by decide⟩ rfl 3 (by decide)
  exact ⟨t, ht, hforth (by decide), Int.ofNat_inj.mp hoffset⟩

/-! ## Backspace -/

/-- The character before the cursor is gone, nothing happens at the start of
the text, all lines that do not meet there are kept, and the cursor is inside. -/
structure Backspaced (s t : State) : Prop where
  removes : 0 < s.offset →
    t.text = s.text.take (s.offset - 1) ++ s.text.drop s.offset ∧ t.offset = s.offset - 1
  keeps : s.offset = 0 → t.buffer.elems = s.buffer.elems ∧ t.cursor = s.cursor
  others : ∃ line, t.buffer.elems = s.buffer.elems.take t.cursor.line.toNat ++
    line :: s.buffer.elems.drop (s.cursor.line.toNat + 1)
  inside : t.Inside

theorem press_backspace {s : State} (hmode : s.mode = .insert) :
    press s (key "<BS>") = some (deleteCharsAtCursor (-1) (resetCount s)) := by
  rw [press_eq, hmode]
  rfl

theorem others_of_backspace {s t : State} (hs : s.Inside) (hmode : s.mode = .insert)
    (hoffset : 0 < s.offset) (h : deleteCharsAtCursor (-1) s = .ok t) :
    ∃ line, t.buffer.elems = s.buffer.elems.take t.cursor.line.toNat ++
      line :: s.buffer.elems.drop (s.cursor.line.toNat + 1) := by
  obtain ⟨before, line, after, hat⟩ := hs.exists_at
  rw [hat.drop_eq, hat.elems_eq]
  rcases hat.backspace_cases with ⟨col, -, heq⟩ | ⟨init, previous, rfl, -, heq⟩ |
      ⟨hbefore, hcol, -⟩
  · rw [heq] at h
    cases h
    exact ⟨line.take col ++ line.drop (col + 1), by simp⟩
  · rw [heq] at h
    cases h
    exact ⟨previous ++ line, by simp⟩
  · have hzero := (hat.offset_eq_zero_iff hmode).mpr ⟨hbefore, hcol⟩
    omega

theorem backspaced_of_offset_pos {s : State} (hs : s.Inside) (hmode : s.mode = .insert)
    (hoffset : 0 < s.offset) :
    ∃ t, deleteCharsAtCursor (-1) s = .ok t ∧ Backspaced s t := by
  obtain ⟨t, ht, hinside, -, hflat⟩ :=
    deleteChars_simulates hs hmode (by omega : 0 ≤ (s.offset : ℤ) + -1)
  rw [Lines.Flat.delete_neg_one] at hflat
  obtain ⟨htext, hposition⟩ := Lines.Flat.mk.inj hflat
  exact ⟨t, ht, fun _ ↦ ⟨htext, hposition⟩, fun hzero ↦ by omega,
    others_of_backspace hs hmode hoffset ht, hinside⟩

theorem backspace_leaves {s t : State} (hs : s.Inside) (hmode : s.mode = .insert)
    (hoffset : s.offset = 0) (h : deleteCharsAtCursor (-1) s = .ok t) : ¬ t.Inside := by
  obtain ⟨t', ht', ⟨hne, -⟩ | ⟨-, hstrayed, -⟩⟩ := backspace_of_inside hs hmode
  · exact (hne hoffset).elim
  · rw [ht'] at h
    cases h
    exact hstrayed.not_inside

/-- In insert mode backspace does what it is for exactly if there is text before the cursor. -/
theorem backspaced_iff {s : State} (hs : s.Inside) (hmode : s.mode = .insert) :
    (∃ t, press s (key "<BS>") = some (.ok t) ∧ Backspaced s t) ↔ 0 < s.offset := by
  rw [press_backspace hmode]
  constructor
  · rintro ⟨t, ht, hback⟩
    by_contra hzero
    exact backspace_leaves hs.resetCount hmode (Nat.eq_zero_of_not_pos hzero)
      (Option.some.inj ht) hback.inside
  · intro hoffset
    obtain ⟨t, ht, hback⟩ := backspaced_of_offset_pos hs.resetCount hmode hoffset
    exact ⟨t, congrArg some ht, hback.removes, hback.keeps, hback.others, hback.inside⟩

theorem backspaced_after_append :
    ∃ t, press (run (lit "ab") [key "a"]) (key "<BS>") = some (.ok t) ∧
      Backspaced (run (lit "ab") [key "a"]) t :=
  (backspaced_iff ⟨by decide, by decide, by decide⟩ (by decide)).mpr (by decide)

theorem not_backspaced_at_start :
    (run (lit "a\nb") [key "i"]).mode = .insert ∧ (run (lit "a\nb") [key "i"]).Inside ∧
      ¬ ∃ t, press (run (lit "a\nb") [key "i"]) (key "<BS>") = some (.ok t) ∧
        Backspaced (run (lit "a\nb") [key "i"]) t := by
  have hmode : (run (lit "a\nb") [key "i"]).mode = .insert := by decide
  have hinside : (run (lit "a\nb") [key "i"]).Inside := ⟨by decide, by decide, by decide⟩
  refine ⟨hmode, hinside, ?_⟩
  rintro ⟨t, ht, hback⟩
  rw [press_backspace hmode] at ht
  exact backspace_leaves hinside.resetCount hmode (by decide) (Option.some.inj ht) hback.inside

end CoffeeTable.Editor

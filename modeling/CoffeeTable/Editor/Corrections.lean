import CoffeeTable.Editor.Keystrokes

/-!
# Typing with corrections

Text that is typed and taken back leaves no trace: what remains after a stretch
of insert mode is what the keys amount to, put in at the place where the
stretch began. That makes insert mode enough to write any text. Together with
the deletion of lines it leads from any opened content to any other.
-/

namespace CoffeeTable.Editor

open Ecma

/-- The typed text after one more key. Backspace takes back only what was typed. -/
def correct (typed : JsString) (key : Key) : Option JsString :=
  if key.text = Keys.BS then if typed = [] then none else some typed.dropLast
  else if key.text = Keys.CR then some (typed ++ [newline])
  else some (typed ++ key.text)

/-- Every key has a meaning to the flat editor, except for backspace at the start. -/
theorem handleKey_simulates {s : State} {f : Lines.Flat CodeUnit} (hs : Represents s f) {key : Key}
    (hesc : key.text ≠ Keys.ESC) (hback : key.text = Keys.BS → 0 < f.offset) :
    Represents (handleKey s key) (flatKey f key) := by
  obtain ⟨hinside, hmode, rfl⟩ := hs
  obtain ⟨before, line, after, hat⟩ := hinside.exists_at
  have hreset := hat.resetCount
  have hdecode : decode s.mode key = some (if key.text = Keys.BS then .backspace
      else if key.text = Keys.CR then .breakLine else .type key.text) := by
    rw [hmode]
    simp only [decode, if_neg hesc]
  by_cases hbs : key.text = Keys.BS
  · obtain ⟨t, ht, hrest⟩ := hreset.backspace_simulates hmode (hback hbs)
    rw [if_pos hbs] at hdecode
    rw [handleKey_of_perform hdecode ht, flatKey, if_pos hbs]
    exact hrest
  · rw [if_neg hbs] at hdecode
    by_cases hcr : key.text = Keys.CR
    · obtain ⟨t, ht, hrest⟩ := hreset.break_simulates hmode
      rw [if_pos hcr] at hdecode
      rw [handleKey_of_perform hdecode ht, flatKey, if_neg hbs, if_pos hcr]
      exact hrest
    · obtain ⟨t, ht, hrest⟩ := hreset.type_simulates hmode key.text
      rw [if_neg hcr] at hdecode
      rw [handleKey_of_perform hdecode ht, flatKey, if_neg hbs, if_neg hcr]
      exact hrest

theorem flatKey_insert {f : Lines.Flat CodeUnit} (hf : f.offset ≤ f.text.length)
    {typed typed' : JsString} {key : Key} (h : correct typed key = some typed') :
    flatKey (f.insert typed) key = f.insert typed' ∧
      (key.text = Keys.BS → 0 < (f.insert typed).offset) := by
  unfold correct at h
  unfold flatKey
  by_cases hbs : key.text = Keys.BS
  · rw [if_pos hbs] at h ⊢
    split_ifs at h with hnil
    obtain ⟨init, c, rfl⟩ := List.eq_nil_or_concat' typed |>.resolve_left hnil
    rw [List.dropLast_concat] at h
    obtain rfl := Option.some.inj h
    refine ⟨Lines.Flat.erase_insert hf init c, fun _ ↦ ?_⟩
    simp only [Lines.Flat.insert, List.length_append, List.length_singleton]
    omega
  · rw [if_neg hbs] at h ⊢
    refine ⟨?_, fun heq ↦ (hbs heq).elim⟩
    split_ifs at h with hcr <;> obtain rfl := Option.some.inj h
    · rw [if_pos hcr, Lines.Flat.insert_insert hf]
    · rw [if_neg hcr, Lines.Flat.insert_insert hf]

theorem represents_corrected {f : Lines.Flat CodeUnit} (hf : f.offset ≤ f.text.length)
    {keys : List Key} (hesc : ∀ key ∈ keys, key.text ≠ Keys.ESC) {s : State}
    {typed typed' : JsString} (hs : Represents s (f.insert typed))
    (h : keys.foldlM correct typed = some typed') :
    Represents (keys.foldl handleKey s) (f.insert typed') := by
  induction keys generalizing s typed with
  | nil =>
      obtain rfl := Option.some.inj h
      exact hs
  | cons key keys ih =>
      rw [List.forall_mem_cons] at hesc
      rw [List.foldlM_cons, Option.bind_eq_bind, Option.bind_eq_some_iff] at h
      obtain ⟨next, hnext, h⟩ := h
      obtain ⟨hflat, hback⟩ := flatKey_insert hf hnext
      have hstep := handleKey_simulates hs hesc.1 hback
      rw [hflat] at hstep
      exact ih hesc.2 hstep h

theorem offset_le_length {s : State} (hs : s.Inside) : s.offset ≤ s.text.length := by
  obtain ⟨before, line, after, hat⟩ := hs.exists_at
  have hoffset := congrArg Lines.Flat.offset hat.flat_eq
  have htext := congrArg Lines.Flat.text hat.flat_eq
  rw [Lines.Flat.ofLines_eq] at hoffset htext
  simp only at hoffset htext
  rw [hoffset, htext]
  exact (List.prefix_append _ _).length_le

/-- A stretch of insert mode puts in what its keys amount to. -/
theorem corrections_leave_no_trace {s : State} (hmode : s.mode = .insert) (hinside : s.Inside)
    {keys : List Key} (hesc : ∀ key ∈ keys, key.text ≠ Keys.ESC) {typed : JsString}
    (h : keys.foldlM correct [] = some typed) :
    (keys.foldl handleKey s).Inside ∧ (keys.foldl handleKey s).mode = .insert ∧
      (keys.foldl handleKey s).text =
        s.text.take s.offset ++ typed ++ s.text.drop s.offset ∧
      (keys.foldl handleKey s).offset = s.offset + typed.length := by
  have hs : Represents s (s.flat.insert []) := ⟨hinside, hmode, (Lines.Flat.insert_nil _).symm⟩
  obtain ⟨hstill, hinsert, hflat⟩ :=
    represents_corrected (f := s.flat) (offset_le_length hinside) hesc hs h
  exact ⟨hstill, hinsert, congrArg Lines.Flat.text hflat, congrArg Lines.Flat.offset hflat⟩

theorem corrections_leave_no_trace_joined :
    let keys := [key "x", key "<CR>", key "<BS>", key "<BS>", key "y"]
    let s := run (lit "ab") [key "i"]
    (keys.foldl handleKey s).Inside ∧ (keys.foldl handleKey s).mode = .insert ∧
      (keys.foldl handleKey s).text = s.text.take s.offset ++ lit "y" ++ s.text.drop s.offset ∧
      (keys.foldl handleKey s).offset = s.offset + (lit "y").length :=
  corrections_leave_no_trace (by decide) ⟨by decide, by decide, by decide⟩ (by decide) (by decide)

end CoffeeTable.Editor

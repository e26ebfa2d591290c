import CoffeeTable.Coding.PrefixFree
import CoffeeTable.Ecma.Decimal
import CoffeeTable.Editor.Render

/-!
# What a drawing tells

A drawing is a page of lines, one of them with a cursor. Its markup is never
taken for text, because the text has no angle bracket left, and the escaped
text can be read back. So a drawing without its cursor span is the plain
drawing of the lines, and two drawings are equal only if lines, mode and
normalized cursor are.
-/

namespace CoffeeTable.Editor

open Ecma Coding

/-! ## Escaping -/

def entities : List (CodeUnit × JsString) :=
  [(unit '&', lit "&amp;"), (unit '<', lit "&lt;"), (unit '>', lit "&gt;"),
    (unit '"', lit "&quot;"), (unit '\'', lit "&#x27;"), (unit '/', lit "&#x2F;")]

theorem escapeUnit_cases (c : CodeUnit) :
    (c, escapeUnit c) ∈ entities ∨
      (escapeUnit c = [c] ∧ c ≠ unit '&' ∧ c ≠ unit '<' ∧ c ≠ unit '>') := by
  unfold escapeUnit
  split_ifs with hamp hlt hgt hquot hapos hslash
  · exact Or.inl (by rw [hamp]; decide)
  · exact Or.inl (by rw [hlt]; decide)
  · exact Or.inl (by rw [hgt]; decide)
  · exact Or.inl (by rw [hquot]; decide)
  · exact Or.inl (by rw [hapos]; decide)
  · exact Or.inl (by rw [hslash]; decide)
  · exact Or.inr ⟨rfl, hamp, hlt, hgt⟩

theorem head?_of_mem_entities {c : CodeUnit} {word : JsString} (h : (c, word) ∈ entities) :
    word.head? = some (unit '&') := by
  have hall : ∀ entity ∈ entities, entity.2.head? = some (unit '&') := by decide
  exact hall (c, word) h

theorem prefixFree_escapeUnit : PrefixFree escapeUnit where
  ne_nil c := by
    rcases escapeUnit_cases c with hentity | ⟨hself, -⟩
    · intro hnil
      have hhead := head?_of_mem_entities hentity
      rw [hnil] at hhead
      cases hhead
    · rw [hself]
      exact List.cons_ne_nil c []
  eq_of_prefix c d hpre := by
    rcases escapeUnit_cases c with hc | ⟨hc, hamp, -⟩
    · rcases escapeUnit_cases d with hd | ⟨hd, hamp, -⟩
      · have hall : ∀ x ∈ entities, ∀ y ∈ entities, x.2 <+: y.2 → x.1 = y.1 := by decide
        exact hall (c, escapeUnit c) hc (d, escapeUnit d) hd hpre
      · have hhead := head?_of_mem_entities hc
        rw [hd] at hpre
        cases hword : escapeUnit c with
        | nil =>
            rw [hword] at hhead
            cases hhead
        | cons first rest =>
            rw [hword] at hhead hpre
            cases hhead
            exact (hamp (List.cons_prefix_cons.mp hpre).1.symm).elim
    · rcases escapeUnit_cases d with hd | ⟨hd, -⟩
      · have hhead := head?_of_mem_entities hd
        rw [hc] at hpre
        obtain ⟨rest, hrest⟩ := hpre
        rw [← hrest] at hhead
        exact (hamp (Option.some.inj hhead)).elim
      · rw [hc, hd] at hpre
        exact (List.cons_prefix_cons.mp hpre).1

theorem notMem_escapeUnit (c : CodeUnit) :
    unit '<' ∉ escapeUnit c ∧ unit '>' ∉ escapeUnit c := by
  rcases escapeUnit_cases c with hentity | ⟨hself, -, hlt, hgt⟩
  · have hall : ∀ entity ∈ entities, unit '<' ∉ entity.2 ∧ unit '>' ∉ entity.2 := by decide
    exact hall (c, escapeUnit c) hentity
  · rw [hself, List.mem_singleton, List.mem_singleton]
    exact ⟨Ne.symm hlt, Ne.symm hgt⟩

theorem notMem_escape (line : JsString) : unit '<' ∉ escape line ∧ unit '>' ∉ escape line := by
  refine ⟨fun h ↦ ?_, fun h ↦ ?_⟩
  · obtain ⟨c, -, hc⟩ := List.mem_flatMap.mp h
    exact (notMem_escapeUnit c).1 hc
  · obtain ⟨c, -, hc⟩ := List.mem_flatMap.mp h
    exact (notMem_escapeUnit c).2 hc

theorem escape_append (left right : JsString) :
    escape (left ++ right) = escape left ++ escape right := List.flatMap_append

/-- The text in front of a tag can be read back. -/
theorem escape_append_inj {xs ys s t : JsString}
    (heq : escape xs ++ unit '<' :: s = escape ys ++ unit '<' :: t) : xs = ys ∧ s = t :=
  prefixFree_escapeUnit.flatMap_append_cons (fun c ↦ (notMem_escapeUnit c).1) heq

/-! ## Pages -/

/-- A line as drawn: plain, or with the text left and right of the cursor. -/
inductive DrawnLine where
  | plain (line : JsString)
  | marked (left right : JsString) (mode : Mode)

def cursorSpan (mode : Mode) : JsString :=
  cursorTag ++ (lit "<div class='the-cursor " ++ (mode.name ++ lit "'> </div></span>"))

def DrawnLine.contents : DrawnLine → JsString
  | .plain line => escape line
  | .marked left right mode => escape left ++ (cursorSpan mode ++ escape right)

def lineOpening (lineNumber : ℕ) : JsString :=
  lit "<div class='line'><span class='number'>" ++
    (digits lineNumber ++ lit "</span><span class='contents'>")

def lineClosing : JsString := lit "</span></div>"

def DrawnLine.draw (lineNumber : ℕ) (line : DrawnLine) : JsString :=
  lineOpening lineNumber ++ (line.contents ++ lineClosing)

def drawFrom (lineNumber : ℕ) : List DrawnLine → JsString
  | [] => []
  | line :: lines => line.draw lineNumber ++ drawFrom (lineNumber + 1) lines

theorem renderLine_none (line : JsString) (lineNumber : ℕ) :
    renderLine line lineNumber none = (DrawnLine.plain line).draw lineNumber := by
  simp only [renderLine, DrawnLine.draw, DrawnLine.contents, lineOpening, lineClosing,
    List.append_assoc]

theorem renderLine_some (line : JsString) (lineNumber : ℕ) (col : ℤ) (mode : Mode) :
    renderLine line lineNumber (some (col, mode)) =
      (DrawnLine.marked (sliceTo line col) (sliceFrom line col) mode).draw lineNumber := by
  simp only [renderLine, DrawnLine.draw, DrawnLine.contents, lineOpening, lineClosing, cursorSpan,
    List.append_assoc]

theorem drawFrom_append (lineNumber : ℕ) (xs ys : List DrawnLine) :
    drawFrom lineNumber (xs ++ ys) =
      drawFrom lineNumber xs ++ drawFrom (lineNumber + xs.length) ys := by
  induction xs generalizing lineNumber with
  | nil => rfl
  | cons x xs ih =>
      rw [List.cons_append, drawFrom, drawFrom, ih, List.append_assoc, List.length_cons,
        Nat.add_right_comm, Nat.add_assoc]

theorem drawFrom_plain (lineNumber : ℕ) (lines : List JsString) :
    drawFrom lineNumber (lines.map .plain) =
      (lines.mapIdx fun i line ↦ renderLine line (lineNumber + i) none).flatten := by
  induction lines generalizing lineNumber with
  | nil => rfl
  | cons line lines ih =>
      rw [List.map_cons, drawFrom, ih, List.mapIdx_cons, List.flatten_cons, renderLine_none]
      simp only [Nat.add_zero, Nat.add_assoc, Nat.add_comm 1]

/-! ## Reading a page back -/

theorem name_append_inj {mode mode' : Mode} {s t : JsString}
    (heq : mode.name ++ unit '\'' :: s = mode'.name ++ unit '\'' :: t) : mode = mode' ∧ s = t := by
  have hnone (m : Mode) : unit '\'' ∉ m.name := by cases m <;> decide
  obtain ⟨hname, hrest⟩ := append_cons_inj_of_notMem (hnone mode) (hnone mode') heq
  refine ⟨?_, hrest⟩
  revert hname
  cases mode <;> cases mode' <;> decide

theorem lineClosing_eq : lineClosing = unit '<' :: lit "/span></div>" := rfl

theorem cursorSpan_eq (mode : Mode) :
    cursorSpan mode = unit '<' :: (lit "span class='cursor'><div class='the-cursor " ++
      (mode.name ++ unit '\'' :: lit "> </div></span>")) := rfl

theorem plain_ne_marked {line left rest s t : JsString} {mode : Mode}
    (heq : escape line ++ (lineClosing ++ s) =
      escape left ++ (cursorSpan mode ++ rest) ++ (lineClosing ++ t)) : False := by
  rw [lineClosing_eq, cursorSpan_eq, List.append_assoc] at heq
  obtain ⟨-, htail⟩ := escape_append_inj heq
  exact absurd (List.cons_eq_cons.mp htail).1 (by decide)

theorem contents_append_inj {x y : DrawnLine} {s t : JsString}
    (heq : x.contents ++ (lineClosing ++ s) = y.contents ++ (lineClosing ++ t)) :
    x = y ∧ s = t := by
  cases x with
  | plain line =>
      cases y with
      | plain line' =>
          obtain ⟨rfl, hrest⟩ := escape_append_inj heq
          exact ⟨rfl, List.append_cancel_left hrest⟩
      | marked left' right' mode' => exact (plain_ne_marked heq).elim
  | marked left right mode =>
      cases y with
      | plain line' => exact (plain_ne_marked heq.symm).elim
      | marked left' right' mode' =>
          simp only [DrawnLine.contents, cursorSpan_eq, List.append_assoc, List.cons_append] at heq
          obtain ⟨rfl, hspan⟩ := escape_append_inj heq
          obtain ⟨rfl, hend⟩ := name_append_inj (List.append_cancel_left hspan)
          obtain ⟨rfl, hrest⟩ := escape_append_inj (List.append_cancel_left hend)
          exact ⟨rfl, List.append_cancel_left hrest⟩

theorem draw_append_inj {lineNumber : ℕ} {x y : DrawnLine} {s t : JsString}
    (heq : x.draw lineNumber ++ s = y.draw lineNumber ++ t) : x = y ∧ s = t := by
  simp only [DrawnLine.draw, List.append_assoc] at heq
  exact contents_append_inj (List.append_cancel_left heq)

theorem draw_ne_nil (lineNumber : ℕ) (line : DrawnLine) : line.draw lineNumber ≠ [] := by
  simp [DrawnLine.draw, lineClosing_eq]

theorem drawFrom_injective (lineNumber : ℕ) : Function.Injective (drawFrom lineNumber) := by
  intro xs ys heq
  induction xs generalizing lineNumber ys with
  | nil =>
      cases ys with
      | nil => rfl
      | cons y ys => exact (draw_ne_nil lineNumber y (List.append_eq_nil_iff.mp heq.symm).1).elim
  | cons x xs ih =>
      cases ys with
      | nil => exact (draw_ne_nil lineNumber x (List.append_eq_nil_iff.mp heq).1).elim
      | cons y ys =>
          obtain ⟨rfl, hrest⟩ := draw_append_inj heq
          rw [ih (lineNumber + 1) hrest]

/-! ## The page of a state -/

theorem renderFrom_append (s : State) (lineNumber : ℕ) (xs ys : List JsString) :
    renderFrom s lineNumber (xs ++ ys) =
      renderFrom s lineNumber xs ++ renderFrom s (lineNumber + xs.length) ys := by
  induction xs generalizing lineNumber with
  | nil => rfl
  | cons x xs ih =>
      rw [List.cons_append, renderFrom, renderFrom, ih, List.append_assoc, List.length_cons,
        Nat.add_right_comm, Nat.add_assoc]

theorem renderFrom_plain {s : State} {lineNumber : ℕ} {lines : List JsString}
    (h : s.cursor.line < lineNumber ∨ lineNumber + lines.length ≤ s.cursor.line) :
    renderFrom s lineNumber lines = drawFrom lineNumber (lines.map .plain) := by
  induction lines generalizing lineNumber with
  | nil => rfl
  | cons line lines ih =>
      rw [List.length_cons] at h
      have hne : (lineNumber : ℤ) ≠ s.cursor.line := by omega
      have hrest : renderFrom s (lineNumber + 1) lines =
          drawFrom (lineNumber + 1) (lines.map .plain) := ih (by omega)
      rw [renderFrom, cursorOn, if_neg hne, renderLine_none, hrest]
      rfl

/-- The two slices at the drawn column, which is -1 on an empty line outside
insert mode, are those at the normalized column. -/
theorem slices_drawn (mode : Mode) (line : JsString) {col : ℤ} (h : 0 ≤ col) :
    sliceTo line (min col (line.length + endOfLine mode)) =
        line.take (clampCol mode line.length col).toNat ∧
      sliceFrom line (min col (line.length + endOfLine mode)) =
        line.drop (clampCol mode line.length col).toNat := by
  cases line with
  | nil => simp [sliceTo, sliceFrom]
  | cons c line =>
      have hlow := neg_one_le_endOfLine mode
      have hdrawn : min col ((c :: line).length + endOfLine mode) =
          ((clampCol mode (c :: line).length col).toNat : ℤ) := by
        unfold clampCol
        rw [List.length_cons]
        omega
      rw [hdrawn, sliceTo_natCast, sliceFrom_natCast]
      exact ⟨rfl, rfl⟩

def page (before : List JsString) (line : JsString) (after : List JsString) (col : ℕ)
    (mode : Mode) : List DrawnLine :=
  before.map .plain ++ .marked (line.take col) (line.drop col) mode :: after.map .plain

namespace State.At

variable {s : State} {before after : List JsString} {line : JsString}

theorem render_eq (h : s.At before line after) :
    render s =
      drawFrom 0 (page before line after (clampCol s.mode line.length s.cursor.col).toNat
        s.mode) := by
  have hbefore : renderFrom s 0 before = drawFrom 0 (before.map .plain) := by
    apply renderFrom_plain
    rw [h.line_eq]
    omega
  have hafter : renderFrom s (before.length + 1) after =
      drawFrom (before.length + 1) (after.map .plain) := by
    apply renderFrom_plain
    rw [h.line_eq]
    omega
  obtain ⟨hleft, hright⟩ := slices_drawn s.mode line h.col_nonneg
  rw [render, h.elems_eq, renderFrom_append, Nat.zero_add, renderFrom, cursorOn,
    if_pos h.line_eq.symm, renderLine_some, hleft, hright, hbefore, hafter, page, drawFrom_append,
    Nat.zero_add, List.length_map, drawFrom]

theorem render_split (h : s.At before line after) {col : ℕ}
    (hcol : clampCol s.mode line.length s.cursor.col = col) :
    render s =
      drawFrom 0 (before.map .plain) ++ (lineOpening before.length ++ escape (line.take col)) ++
        (cursorSpan s.mode ++ (escape (line.drop col) ++ (lineClosing ++
          drawFrom (before.length + 1) (after.map .plain)))) := by
  rw [h.render_eq, hcol, Int.toNat_natCast, page, drawFrom_append, Nat.zero_add, List.length_map,
    drawFrom]
  simp only [DrawnLine.draw, DrawnLine.contents, List.append_assoc]

end State.At

theorem page_injective {before before' after after' : List JsString} {line line' : JsString}
    {col col' : ℕ} {mode mode' : Mode} (hcol : col ≤ line.length) (hcol' : col' ≤ line'.length)
    (heq : page before line after col mode = page before' line' after' col' mode') :
    before = before' ∧ line = line' ∧ after = after' ∧ col = col' ∧ mode = mode' := by
  have hnone (lines : List JsString) :
      .marked (line'.take col') (line'.drop col') mode' ∉ lines.map DrawnLine.plain := by
    simp
  have hplain : Function.Injective (List.map DrawnLine.plain) :=
    List.map_injective_iff.mpr fun _ _ h ↦ DrawnLine.plain.inj h
  obtain ⟨habove, hline, hbelow⟩ :=
    (List.append_cons_inj_of_notMem (hnone before) (hnone after)).mp heq
  obtain ⟨hleft, hright, hmode⟩ := DrawnLine.marked.inj hline
  refine ⟨hplain habove, ?_, hplain hbelow, ?_, hmode⟩
  · rw [← List.take_append_drop col line, hleft, hright, List.take_append_drop]
  · have hlength := congrArg List.length hleft
    rwa [List.length_take, List.length_take, min_eq_left hcol, min_eq_left hcol'] at hlength

/-! ## The cursor span -/

theorem apart_lineOpening (lineNumber : ℕ) : Apart cursorTag (lineOpening lineNumber) :=
  Apart.append (by decide) ((apart_digits lineNumber).append (by decide))

theorem apart_lineClosing : Apart cursorTag lineClosing := by decide

theorem apart_drawFrom_plain (lineNumber : ℕ) (lines : List JsString) :
    Apart cursorTag (drawFrom lineNumber (lines.map .plain)) := by
  induction lines generalizing lineNumber with
  | nil => trivial
  | cons line lines ih =>
      have hcontents : Apart cursorTag ((DrawnLine.plain line).contents ++ lineClosing) :=
        (apart_escape line).append apart_lineClosing
      exact ((apart_lineOpening lineNumber).append hcontents).append (ih (lineNumber + 1))

/-- Behind its first symbol a cursor span has no other cursor tag. -/
theorem apart_tail_cursorSpan (mode : Mode) : Apart cursorTag (cursorSpan mode).tail := by
  have hspan : Apart cursorTag (lit "span class='cursor'>") := by decide
  have hdiv : Apart cursorTag (lit "<div class='the-cursor ") := by decide
  exact hspan.append (hdiv.append ((apart_name mode).append (by decide)))

theorem apart_cursorSpan {piece : JsString} (h : Apart cursorTag piece) (mode : Mode) :
    Apart (cursorSpan mode) piece := h.append_word _

/-- A drawing without its cursor span is the plain drawing of the lines. -/
theorem remove_cursorSpan {s : State} (hs : s.Inside) :
    occurrences (cursorSpan s.mode) (render s) = 1 ∧
      remove (cursorSpan s.mode) (render s) =
        (s.buffer.elems.mapIdx fun i line ↦ renderLine line i none).flatten := by
  obtain ⟨before, line, after, hat⟩ := hs.exists_at
  obtain ⟨col, hcol⟩ := Int.eq_ofNat_of_zero_le (clampCol_nonneg s.mode line.length s.cursor.col)
  have hleft := (apart_drawFrom_plain 0 before).append
    ((apart_lineOpening before.length).append (apart_escape (line.take col)))
  have hright := (apart_escape (line.drop col)).append
    (apart_lineClosing.append (apart_drawFrom_plain (before.length + 1) after))
  have htail := apart_tail_cursorSpan s.mode
  have hspan : cursorSpan s.mode = unit '<' :: (cursorSpan s.mode).tail := rfl
  rw [hat.render_split hcol]
  constructor
  · rw [occurrences_append_of_apart (apart_cursorSpan hleft s.mode), hspan,
      occurrences_word_append (hspan ▸ apart_cursorSpan htail s.mode),
      occurrences_of_apart (hspan ▸ apart_cursorSpan hright s.mode)]
  · rw [hspan, remove_append (hspan ▸ apart_cursorSpan hleft s.mode)]
    have hplain := drawFrom_plain 0 s.buffer.elems
    simp only [Nat.zero_add] at hplain
    rw [← hplain, hat.elems_eq, List.map_append, List.map_cons, drawFrom_append, drawFrom,
      List.length_map, Nat.zero_add, DrawnLine.draw, DrawnLine.contents,
      ← List.take_append_drop col line, escape_append]
    simp only [List.append_assoc, List.take_append_drop]

/-! ## Angle brackets -/

/-- The symbol is an angle bracket. -/
def Angle (c : CodeUnit) : Prop := c = unit '<' ∨ c = unit '>'

theorem count_escape {c : CodeUnit} (hc : Angle c) (line : JsString) :
    (escape line).count c = 0 := by
  rcases hc with rfl | rfl
  · exact List.count_eq_zero.mpr (notMem_escape line).1
  · exact List.count_eq_zero.mpr (notMem_escape line).2

theorem count_draw {c : CodeUnit} (hc : Angle c) (lineNumber : ℕ) (line : DrawnLine) :
    (line.draw lineNumber).count c = 6 + line.contents.count c := by
  have hdigits : (digits lineNumber).count c = 0 := by
    rw [List.count_eq_zero]
    apply notMem_digits
    rcases hc with rfl | rfl <;> decide
  have hfirst : (lit "<div class='line'><span class='number'>").count c = 2 := by
    rcases hc with rfl | rfl <;> decide
  have hsecond : (lit "</span><span class='contents'>").count c = 2 := by
    rcases hc with rfl | rfl <;> decide
  have hclosing : lineClosing.count c = 2 := by
    rcases hc with rfl | rfl <;> decide
  rw [DrawnLine.draw, lineOpening, List.count_append, List.count_append, List.count_append,
    List.count_append, hdigits, hfirst, hsecond, hclosing]
  omega

theorem count_cursorSpan {c : CodeUnit} (hc : Angle c) (mode : Mode) :
    (cursorSpan mode).count c = 4 := by
  have hname : mode.name.count c = 0 := by
    rcases hc with rfl | rfl <;> cases mode <;> decide
  have htag : cursorTag.count c = 1 := by
    rcases hc with rfl | rfl <;> decide
  rw [cursorSpan, List.count_append, List.count_append, List.count_append, hname, htag]
  rcases hc with rfl | rfl <;> decide

theorem count_drawFrom_plain {c : CodeUnit} (hc : Angle c) (lineNumber : ℕ)
    (lines : List JsString) :
    (drawFrom lineNumber (lines.map .plain)).count c = 6 * lines.length := by
  induction lines generalizing lineNumber with
  | nil => rfl
  | cons line lines ih =>
      rw [List.map_cons, drawFrom, List.count_append, ih, count_draw hc, DrawnLine.contents,
        count_escape hc, List.length_cons]
      omega

/-- The angle brackets of a drawing are those of its markup, whatever the text is. -/
theorem count_render {s : State} (hs : s.Inside) {c : CodeUnit} (hc : Angle c) :
    (render s).count c = 6 * s.buffer.elems.length + 4 := by
  obtain ⟨before, line, after, hat⟩ := hs.exists_at
  rw [hat.render_eq, page, drawFrom_append, drawFrom, List.count_append, List.count_append,
    count_drawFrom_plain hc, count_drawFrom_plain hc, count_draw hc, DrawnLine.contents,
    List.count_append, List.count_append, count_escape hc, count_escape hc, count_cursorSpan hc,
    hat.elems_eq, List.length_append, List.length_cons]
  omega

/-! ## Faithful drawings -/

structure Faithful (s : State) : Prop where
  single : occurrences (cursorSpan s.mode) (render s) = 1
  removed : remove (cursorSpan s.mode) (render s) =
    (s.buffer.elems.mapIdx fun i line ↦ renderLine line i none).flatten
  cut : ∃ before line after, s.At before line after ∧ ∃ n, normalizeCursor s {} = .ok n ∧
    ∃ k : ℕ, n.cursor.col = k ∧
      render s =
        drawFrom 0 (before.map .plain) ++ (lineOpening before.length ++ escape (line.take k)) ++
          (cursorSpan s.mode ++ (escape (line.drop k) ++ (lineClosing ++
            drawFrom (before.length + 1) (after.map .plain))))
  brackets : ∀ c, Angle c → (render s).count c = 6 * s.buffer.elems.length + 4

theorem State.Inside.faithful {s : State} (hs : s.Inside) : Faithful s := by
  obtain ⟨hsingle, hremoved⟩ := remove_cursorSpan hs
  refine ⟨hsingle, hremoved, ?_, fun c hc ↦ count_render hs hc⟩
  obtain ⟨before, line, after, hat⟩ := hs.exists_at
  obtain ⟨col, hcol⟩ := Int.eq_ofNat_of_zero_le (clampCol_nonneg s.mode line.length s.cursor.col)
  exact ⟨before, line, after, hat, _, hat.normalize_eq true, col, hcol, hat.render_split hcol⟩

def normalizedCursor (s : State) : Except Fault Cursor := (normalizeCursor s {}).map State.cursor

theorem render_eq_iff {s t : State} (hs : s.Inside) (ht : t.Inside) :
    render s = render t ↔
      s.buffer.elems = t.buffer.elems ∧ s.mode = t.mode ∧
        normalizedCursor s = normalizedCursor t := by
  obtain ⟨before, line, after, hat⟩ := hs.exists_at
  obtain ⟨before', line', after', hat'⟩ := ht.exists_at
  have hnormal : normalizedCursor s =
      .ok ⟨before.length, clampCol s.mode line.length s.cursor.col⟩ := by
    rw [normalizedCursor, hat.normalize_eq true]
    rfl
  have hnormal' : normalizedCursor t =
      .ok ⟨before'.length, clampCol t.mode line'.length t.cursor.col⟩ := by
    rw [normalizedCursor, hat'.normalize_eq true]
    rfl
  have hnonneg := clampCol_nonneg s.mode line.length s.cursor.col
  have hnonneg' := clampCol_nonneg t.mode line'.length t.cursor.col
  have hle := clampCol_le s.mode line.length s.cursor.col
  have hle' := clampCol_le t.mode line'.length t.cursor.col
  rw [hnormal, hnormal', hat.render_eq, hat'.render_eq, hat.elems_eq, hat'.elems_eq]
  constructor
  · intro heq
    obtain ⟨rfl, rfl, rfl, hcol, hmode⟩ :=
      page_injective (by omega) (by omega) (drawFrom_injective 0 heq)
    refine ⟨rfl, hmode, ?_⟩
    have hsame : clampCol s.mode line.length s.cursor.col =
        clampCol t.mode line.length t.cursor.col := by omega
    rw [hsame]
  · rintro ⟨helems, hmode, hcursor⟩
    obtain ⟨hline, hcol⟩ := Cursor.mk.inj (Except.ok.inj hcursor)
    have hlength : before.length = before'.length := by omega
    obtain ⟨rfl, hrest⟩ := List.append_inj helems hlength
    obtain ⟨rfl, rfl⟩ := List.cons_eq_cons.mp hrest
    rw [hcol, hmode]

end CoffeeTable.Editor

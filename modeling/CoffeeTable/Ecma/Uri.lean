import CoffeeTable.Ecma.Number

/-!
# Percent-decoding

A percent sign and two hexadecimal digits are an octet, and the octets between
other characters are read as UTF-8: the shortest form of a code point that is
no surrogate. Anything else is refused. Decoding a text without a percent sign
changes nothing. Each octet takes three symbols and gives at most two, so a
text with a percent sign always becomes shorter.
-/

namespace CoffeeTable.Ecma

inductive UriItem where
  | raw (c : CodeUnit)
  | octet (value : ℕ)

def percent : CodeUnit := unit '%'

/-- Fewer than three symbols at the end are no octet. -/
def readUriItems : JsString → Option (List UriItem)
  | c :: high :: low :: text =>
      if c ≠ percent then (readUriItems (high :: low :: text)).map (.raw c :: ·)
      else if isDigitOf 16 high ∧ isDigitOf 16 low then
        (readUriItems text).map (.octet (16 * digitValue high + digitValue low) :: ·)
      else none
  | text => if percent ∈ text then none else some (text.map .raw)

/-- The code units of a code point. -/
def encodeCodePoint (code : ℕ) : JsString :=
  if code < 0x10000 then [code.toUInt16]
  else [(0xd800 + (code - 0x10000) / 0x400).toUInt16, (0xdc00 + (code - 0x10000) % 0x400).toUInt16]

/-- A code point of which some octets are still to come. Below the least value
it has a shorter form. -/
structure PartialCodePoint where
  missing : ℕ
  least : ℕ
  value : ℕ

def PartialCodePoint.start (octet : ℕ) : Option PartialCodePoint :=
  if octet < 0x80 then some ⟨0, 0, octet⟩
  else if octet < 0xc0 then none
  else if octet < 0xe0 then some ⟨1, 0x80, octet - 0xc0⟩
  else if octet < 0xf0 then some ⟨2, 0x800, octet - 0xe0⟩
  else if octet < 0xf8 then some ⟨3, 0x10000, octet - 0xf0⟩
  else none

def PartialCodePoint.next (code : PartialCodePoint) (octet : ℕ) : Option PartialCodePoint :=
  if 0x80 ≤ octet ∧ octet < 0xc0 then
    some ⟨code.missing - 1, code.least, code.value * 0x40 + (octet - 0x80)⟩
  else none

def isScalar (code : ℕ) : Bool := code < 0xd800 ∨ (0xe000 ≤ code ∧ code < 0x110000)

def decodeUriItems : Option PartialCodePoint → List UriItem → Option JsString
  | none, [] => some []
  | some _, [] => none
  | none, .raw c :: items => (decodeUriItems none items).map (c :: ·)
  | some _, .raw _ :: _ => none
  | pending, .octet octet :: items =>
      match pending.elim (PartialCodePoint.start octet) (·.next octet) with
      | none => none
      | some code =>
          if code.missing ≠ 0 then decodeUriItems (some code) items
          else if code.least ≤ code.value ∧ isScalar code.value then
            (decodeUriItems none items).map (encodeCodePoint code.value ++ ·)
          else none

/-- The exception of a malformed text is `none`. -/
def decodeURIComponent (text : JsString) : Option JsString :=
  (readUriItems text).bind (decodeUriItems none)

example : decodeURIComponent (lit "a%20%C3%BC") = some [0x61, 0x20, 0xfc] := by decide

/-! ## Texts without a percent sign -/

theorem readUriItems_of_notMem {text : JsString} (h : percent ∉ text) :
    readUriItems text = some (text.map .raw) := by
  fun_induction readUriItems text with
  | case1 c high low text hc ih =>
      rw [ih (fun hmem ↦ h (List.mem_cons_of_mem c hmem)), Option.map_some]
      rfl
  | case2 c high low text hc hdigits ih =>
      exact (h (not_not.mp hc ▸ List.mem_cons_self)).elim
  | case3 c high low text hc hdigits => exact (h (not_not.mp hc ▸ List.mem_cons_self)).elim
  | case4 text hshort hmem => exact (h hmem).elim
  | case5 text hshort hmem => rfl

theorem decodeUriItems_map_raw (text : JsString) :
    decodeUriItems none (text.map .raw) = some text := by
  induction text with
  | nil => rfl
  | cons c text ih => rw [List.map_cons, decodeUriItems, ih, Option.map_some]

theorem decodeURIComponent_of_notMem {text : JsString} (h : percent ∉ text) :
    decodeURIComponent text = some text := by
  rw [decodeURIComponent, readUriItems_of_notMem h, Option.bind_some, decodeUriItems_map_raw]

/-! ## Texts with a percent sign

Count the symbols of some kind to which the percent sign and the hexadecimal
digits belong. -/

section Count

variable {heavy : CodeUnit → Bool}

def UriItem.count (heavy : CodeUnit → Bool) : UriItem → ℕ
  | raw c => if heavy c then 1 else 0
  | octet _ => 3

def UriItem.isOctet : UriItem → Bool
  | raw _ => false
  | octet _ => true

theorem countP_encodeCodePoint_le (code : ℕ) : (encodeCodePoint code).countP heavy ≤ 2 := by
  have hlength : (encodeCodePoint code).length ≤ 2 := by
    unfold encodeCodePoint
    split_ifs
    · exact Nat.le_succ 1
    · exact le_rfl
  exact List.countP_le_length.trans hlength

theorem count_map_raw (text : JsString) :
    ((text.map UriItem.raw).map (UriItem.count heavy)).sum = text.countP heavy ∧
      (text.map UriItem.raw).countP UriItem.isOctet = 0 := by
  induction text with
  | nil => exact ⟨rfl, rfl⟩
  | cons c text ih =>
      constructor
      · rw [List.map_cons, List.map_cons, List.sum_cons, ih.1, List.countP_cons, UriItem.count,
          add_comm]
      · rw [List.map_cons, List.countP_cons_of_neg (by simp [UriItem.isOctet]), ih.2]

theorem count_readUriItems (hpercent : heavy percent) (hdigit : ∀ c, isDigitOf 16 c → heavy c)
    {text : JsString} {items : List UriItem} (h : readUriItems text = some items) :
    (items.map (UriItem.count heavy)).sum = text.countP heavy ∧
      items.countP UriItem.isOctet = text.count percent := by
  fun_induction readUriItems text generalizing items with
  | case1 c high low text hc ih =>
      obtain ⟨items, hitems, rfl⟩ := Option.map_eq_some_iff.mp h
      obtain ⟨hsum, hoctets⟩ := ih hitems
      constructor
      · rw [List.map_cons, List.sum_cons, hsum, UriItem.count, add_comm]
        exact List.countP_cons.symm
      · rw [List.countP_cons_of_neg (by simp [UriItem.isOctet]), List.count_cons_of_ne hc, hoctets]
  | case2 c high low text hc hdigits ih =>
      obtain ⟨items, hitems, rfl⟩ := Option.map_eq_some_iff.mp h
      obtain ⟨hsum, hoctets⟩ := ih hitems
      have hne {d : CodeUnit} (hd : isDigitOf 16 d) : d ≠ percent := by
        rintro rfl
        exact absurd hd (by decide)
      obtain rfl := not_not.mp hc
      constructor
      · rw [List.map_cons, List.sum_cons, hsum, List.countP_cons_of_pos hpercent,
          List.countP_cons_of_pos (hdigit high hdigits.1),
          List.countP_cons_of_pos (hdigit low hdigits.2), UriItem.count]
        omega
      · rw [List.countP_cons_of_pos rfl, List.count_cons_self,
          List.count_cons_of_ne (hne hdigits.1), List.count_cons_of_ne (hne hdigits.2), hoctets]
  | case3 => exact nomatch h
  | case4 => exact nomatch h
  | case5 text hshort hmem =>
      obtain rfl := Option.some.inj h
      rw [List.count_eq_zero_of_not_mem hmem]
      exact count_map_raw text

/-- An octet counts three, and what it completes at most two. -/
theorem countP_decodeUriItems {pending : Option PartialCodePoint} {items : List UriItem}
    {text : JsString} (h : decodeUriItems pending items = some text) :
    text.countP heavy + items.countP UriItem.isOctet ≤
      (items.map (UriItem.count heavy)).sum := by
  fun_induction decodeUriItems pending items generalizing text with
  | case1 =>
      obtain rfl := Option.some.inj h
      exact le_rfl
  | case2 => exact nomatch h
  | case3 c items ih =>
      obtain ⟨text, htext, rfl⟩ := Option.map_eq_some_iff.mp h
      have hrest := ih htext
      rw [List.countP_cons, List.countP_cons_of_neg (by simp [UriItem.isOctet]), List.map_cons,
        List.sum_cons, UriItem.count]
      omega
  | case4 => exact nomatch h
  | case5 => exact nomatch h
  | case6 pending octet items code hcode hmissing ih =>
      have hrest := ih h
      rw [List.countP_cons_of_pos rfl, List.map_cons, List.sum_cons, UriItem.count]
      omega
  | case7 pending octet items code hcode hmissing hvalid ih =>
      obtain ⟨text, htext, rfl⟩ := Option.map_eq_some_iff.mp h
      have hrest := ih htext
      have hcomplete : (encodeCodePoint code.value).countP heavy ≤ 2 :=
        countP_encodeCodePoint_le code.value
      rw [List.countP_append, List.countP_cons_of_pos rfl, List.map_cons, List.sum_cons,
        UriItem.count]
      omega
  | case8 => exact nomatch h

theorem countP_decodeURIComponent (hpercent : heavy percent)
    (hdigit : ∀ c, isDigitOf 16 c → heavy c) {text decoded : JsString}
    (h : decodeURIComponent text = some decoded) :
    decoded.countP heavy + text.count percent ≤ text.countP heavy := by
  obtain ⟨items, hitems, hdecoded⟩ := Option.bind_eq_some_iff.mp h
  obtain ⟨hsum, hoctets⟩ := count_readUriItems hpercent hdigit hitems
  rw [← hsum, ← hoctets]
  exact countP_decodeUriItems hdecoded

end Count

end CoffeeTable.Ecma

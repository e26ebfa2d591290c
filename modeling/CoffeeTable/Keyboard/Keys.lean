import CoffeeTable.Ecma.Pattern
import CoffeeTable.Ecma.UpperCase

/-!
# Control keys

A key held with control is the key in upper case inside `<C-` and `>`, the
brackets of its name taken off first. For a name of letters this is a normal
form that the function accepts and leaves alone. For any other single
character it is not: the name that it makes is one that it refuses.
-/

namespace CoffeeTable.Keyboard

open Ecma

def symbol (c : Char) : Pattern CodeUnit := .one (· = unit c)

/-- `[A-Z]` -/
def isUpper (c : CodeUnit) : Bool := 65 ≤ c.toNat ∧ c.toNat ≤ 90

/-- `/^[^<]$/` -/
def simpleKey : Pattern CodeUnit := .one (· ≠ unit '<')

/-- `/^<(C-)?[A-Z]+>$/` -/
def namedKey : Pattern CodeUnit :=
  .seq (symbol '<') (.seq (.optional (.seq (symbol 'C') (symbol '-')))
    (.seq (.plus isUpper) (symbol '>')))

/-- `/^<C-[A-Z]+>$/` -/
def ctrlKey : Pattern CodeUnit :=
  .seq (symbol '<') (.seq (symbol 'C') (.seq (symbol '-') (.seq (.plus isUpper) (symbol '>'))))

/-- `replace /^</, ''` -/
def stripOpening (key : JsString) : JsString :=
  if key.head? = some (unit '<') then key.tail else key

/-- `replace />$/, ''` -/
def stripClosing (key : JsString) : JsString :=
  if key.getLast? = some (unit '>') then key.dropLast else key

/-- The error is the message of the exception. -/
def ctrl (key : JsString) : Except JsString JsString :=
  let key := toUpperCase key
  if !(simpleKey.test key || namedKey.test key) then .error (lit "bad key " ++ key)
  else if ctrlKey.test key then .ok key
  else .ok (lit "<C-" ++ stripClosing (stripOpening key) ++ lit ">")

def ctrlName (name : JsString) : JsString := lit "<C-" ++ name ++ lit ">"

/-! ## The three expressions -/

theorem matches_symbol {c : Char} {word : JsString} :
    (symbol c).Matches word ↔ word = [unit c] := by
  simp [symbol, Pattern.Matches]

theorem test_simpleKey_iff {key : JsString} :
    simpleKey.test key ↔ ∃ c, key = [c] ∧ c ≠ unit '<' := by
  rw [Pattern.test_iff]
  simp only [simpleKey, Pattern.Matches, decide_eq_true_eq]
  exact exists_congr fun c ↦ and_comm

/-- A name in brackets: not empty, and capital letters only. -/
def Name (name : JsString) : Prop := name ≠ [] ∧ ∀ c ∈ name, isUpper c

theorem test_ctrlKey_iff {key : JsString} :
    ctrlKey.test key ↔ ∃ name, Name name ∧ key = ctrlName name := by
  rw [Pattern.test_iff]
  constructor
  · rintro ⟨_, _, rfl, hopen, _, _, rfl, hc, _, _, rfl, hdash, name, _, rfl, hname, hclose⟩
    rw [matches_symbol.mp hopen, matches_symbol.mp hc, matches_symbol.mp hdash,
      matches_symbol.mp hclose]
    exact ⟨name, hname, rfl⟩
  · rintro ⟨name, hname, rfl⟩
    exact ⟨[unit '<'], _, rfl, matches_symbol.mpr rfl, [unit 'C'], _, rfl, matches_symbol.mpr rfl,
      [unit '-'], _, rfl, matches_symbol.mpr rfl, name, _, rfl, hname, matches_symbol.mpr rfl⟩

theorem test_namedKey_iff {key : JsString} :
    namedKey.test key ↔
      ∃ name, Name name ∧ (key = unit '<' :: (name ++ [unit '>']) ∨ key = ctrlName name) := by
  rw [Pattern.test_iff]
  constructor
  · rintro ⟨_, _, rfl, hopen, _, _, rfl, rfl | ⟨_, _, rfl, hc, hdash⟩, name, _, rfl, hname, hclose⟩
    · rw [matches_symbol.mp hopen, matches_symbol.mp hclose]
      exact ⟨name, hname, Or.inl rfl⟩
    · rw [matches_symbol.mp hopen, matches_symbol.mp hc, matches_symbol.mp hdash,
        matches_symbol.mp hclose]
      exact ⟨name, hname, Or.inr rfl⟩
  · rintro ⟨name, hname, rfl | rfl⟩
    · exact ⟨[unit '<'], _, rfl, matches_symbol.mpr rfl, [], _, rfl, Or.inl rfl, name, _, rfl,
        hname, matches_symbol.mpr rfl⟩
    · exact ⟨[unit '<'], _, rfl, matches_symbol.mpr rfl, [unit 'C', unit '-'], _, rfl,
        Or.inr ⟨[unit 'C'], [unit '-'], rfl, matches_symbol.mpr rfl, matches_symbol.mpr rfl⟩,
        name, _, rfl, hname, matches_symbol.mpr rfl⟩

/-! ## What `ctrl` gives -/

section Ctrl

variable {key r : JsString}

theorem ctrl_of_accepted (haccepted : simpleKey.test (toUpperCase key) ∨
    namedKey.test (toUpperCase key)) :
    ctrl key = .ok (if ctrlKey.test (toUpperCase key) then toUpperCase key
      else ctrlName (stripClosing (stripOpening (toUpperCase key)))) := by
  have htests : (simpleKey.test (toUpperCase key) || namedKey.test (toUpperCase key)) = true :=
    Bool.or_eq_true_iff.mpr haccepted
  simp only [ctrl, htests, Bool.not_true, Bool.false_eq_true, if_false, ctrlName]
  split <;> rfl

theorem ctrl_of_refused (hsimple : ¬ simpleKey.test (toUpperCase key))
    (hnamed : ¬ namedKey.test (toUpperCase key)) :
    ctrl key = .error (lit "bad key " ++ toUpperCase key) := by
  simp only [ctrl, hsimple, hnamed, Bool.or_self, Bool.not_false, if_true]

theorem ctrl_of_single {u : CodeUnit} (hupper : toUpperCase key = [u]) (hu : u ≠ unit '<') :
    ctrl key = .ok (ctrlName (if u = unit '>' then [] else [u])) := by
  have hsimple : simpleKey.test (toUpperCase key) :=
    test_simpleKey_iff.mpr ⟨u, hupper, hu⟩
  have hctrl : ¬ ctrlKey.test [u] := by
    rw [test_ctrlKey_iff]
    rintro ⟨name, -, hkey⟩
    exact absurd (congrArg List.length hkey) (by simp [ctrlName, lit])
  have hopening : stripOpening [u] = [u] := if_neg fun h ↦ hu (Option.some.inj h)
  rw [ctrl_of_accepted (Or.inl hsimple), hupper, if_neg hctrl, hopening, stripClosing,
    List.getLast?_singleton]
  by_cases hgt : u = unit '>'
  · rw [if_pos hgt, if_pos (congrArg some hgt)]
    rfl
  · rw [if_neg hgt, if_neg fun h ↦ hgt (Option.some.inj h)]

theorem ctrl_of_named (hnamed : namedKey.test (toUpperCase key)) :
    ∃ name, Name name ∧ ctrl key = .ok (ctrlName name) := by
  rw [ctrl_of_accepted (Or.inr hnamed)]
  by_cases hctrl : ctrlKey.test (toUpperCase key)
  · obtain ⟨name, hname, hkey⟩ := test_ctrlKey_iff.mp hctrl
    exact ⟨name, hname, by rw [if_pos hctrl, hkey]⟩
  · obtain ⟨name, hname, hkey | hkey⟩ := test_namedKey_iff.mp hnamed
    · have hclosing : stripClosing (name ++ [unit '>']) = name := by
        rw [stripClosing, List.getLast?_concat, if_pos rfl, List.dropLast_concat]
      refine ⟨name, hname, ?_⟩
      rw [if_neg hctrl, hkey, stripOpening, List.head?_cons, if_pos rfl, List.tail_cons, hclosing]
    · exact (hctrl (test_ctrlKey_iff.mpr ⟨name, hname, hkey⟩)).elim

/-- An accepted key is a single character in upper case or the name of a key. -/
theorem ctrl_eq_ok (h : ctrl key = .ok r) :
    (∃ u, toUpperCase key = [u] ∧ u ≠ unit '<' ∧
        r = ctrlName (if u = unit '>' then [] else [u])) ∨
      (namedKey.test (toUpperCase key) ∧ ∃ name, Name name ∧ r = ctrlName name) := by
  by_cases hsimple : simpleKey.test (toUpperCase key)
  · obtain ⟨u, hupper, hu⟩ := test_simpleKey_iff.mp hsimple
    rw [ctrl_of_single hupper hu] at h
    exact Or.inl ⟨u, hupper, hu, (Except.ok.inj h).symm⟩
  · by_cases hnamed : namedKey.test (toUpperCase key)
    · obtain ⟨name, hname, hctrl⟩ := ctrl_of_named hnamed
      rw [hctrl] at h
      exact Or.inr ⟨hnamed, name, hname, (Except.ok.inj h).symm⟩
    · rw [ctrl_of_refused hsimple hnamed] at h
      cases h

end Ctrl

theorem ctrlName_injective : Function.Injective ctrlName := by
  intro name name' h
  exact List.append_cancel_left (List.append_cancel_right h)

def Ascii (key : JsString) : Prop := ∀ c ∈ key, c.toNat < 128

theorem toUpperCase_ctrlName {name : JsString} (hname : Ascii name)
    (hfixed : ∀ c ∈ name, asciiUpper c = c) : toUpperCase (ctrlName name) = ctrlName name := by
  have hall : ∀ c ∈ ctrlName name, c.toNat < 128 ∧ asciiUpper c = c := by
    have hframe {c : CodeUnit} (hc : c ∈ lit "<C->") : c.toNat < 128 ∧ asciiUpper c = c := by
      have hcases : c = unit '<' ∨ c = unit 'C' ∨ c = unit '-' ∨ c = unit '>' := by
        simpa [lit] using hc
      rcases hcases with rfl | rfl | rfl | rfl <;> decide
    intro c hc
    rw [ctrlName, List.mem_append, List.mem_append] at hc
    rcases hc with (hc | hc) | hc
    · exact hframe (List.mem_append_left (lit ">") hc)
    · exact ⟨hname c hc, hfixed c hc⟩
    · exact hframe (List.mem_append_right (lit "<C-") hc)
  rw [toUpperCase_of_lt fun c hc ↦ (hall c hc).1]
  exact (List.map_congr_left (g := id) fun c hc ↦ (hall c hc).2).trans (List.map_id _)

theorem asciiUpper_of_isUpper {c : CodeUnit} (h : isUpper c) :
    c.toNat < 128 ∧ asciiUpper c = c := by
  rw [isUpper, decide_eq_true_eq] at h
  exact ⟨by omega, if_neg (by omega)⟩

theorem ctrl_ctrlName {name : JsString} (hname : Name name) :
    ctrl (ctrlName name) = .ok (ctrlName name) := by
  have hupper : toUpperCase (ctrlName name) = ctrlName name :=
    toUpperCase_ctrlName (fun c hc ↦ (asciiUpper_of_isUpper (hname.2 c hc)).1)
      fun c hc ↦ (asciiUpper_of_isUpper (hname.2 c hc)).2
  have hctrl : ctrlKey.test (ctrlName name) := test_ctrlKey_iff.mpr ⟨name, hname, rfl⟩
  have hnamed : namedKey.test (ctrlName name) := test_namedKey_iff.mpr ⟨name, hname, Or.inr rfl⟩
  rw [ctrl_of_accepted (Or.inr (hupper.symm ▸ hnamed)), hupper, if_pos hctrl]

/-! ## The normal form -/

/-- A name has an opening bracket, and no other character has one in upper case. -/
theorem not_namedKey_upper (c : CodeUnit) : ¬ namedKey.test (toUpperCase [c]) := by
  intro hnamed
  have hopen : unit '<' ∈ toUpperCase [c] := by
    obtain ⟨name, -, hkey | hkey⟩ := test_namedKey_iff.mp hnamed <;> rw [hkey]
    · exact List.mem_cons_self
    · exact List.mem_cons_self
  rw [toUpperCase_singleton] at hnamed hopen
  rcases eq_or_le_of_mem_upperUnit hopen with rfl | hle
  · rw [upperUnit_of_lt (by decide)] at hnamed
    exact absurd hnamed (by decide)
  · exact absurd hle (by decide)

theorem ctrl_singleton_eq_ok {c : CodeUnit} {r : JsString} (h : ctrl [c] = .ok r) :
    ∃ u, toUpperCase [c] = [u] ∧ u ≠ unit '<' ∧
      r = ctrlName (if u = unit '>' then [] else [u]) := by
  rcases ctrl_eq_ok h with hsingle | ⟨hnamed, -⟩
  · exact hsingle
  · exact (not_namedKey_upper c hnamed).elim

/-- Which single characters are accepted. -/
theorem ctrl_singleton_iff (c : CodeUnit) :
    (∃ r, ctrl [c] = .ok r) ↔ ∃ u, toUpperCase [c] = [u] ∧ u ≠ unit '<' := by
  constructor
  · rintro ⟨r, hr⟩
    obtain ⟨u, hupper, hu, -⟩ := ctrl_singleton_eq_ok hr
    exact ⟨u, hupper, hu⟩
  · rintro ⟨u, hupper, hu⟩
    exact ⟨_, ctrl_of_single hupper hu⟩

theorem ctrl_singleton_injective {a b : CodeUnit} {r : JsString} (ha : ctrl [a] = .ok r)
    (hb : ctrl [b] = .ok r) : toUpperCase [a] = toUpperCase [b] := by
  obtain ⟨u, hu, -, hur⟩ := ctrl_singleton_eq_ok ha
  obtain ⟨v, hv, -, hvr⟩ := ctrl_singleton_eq_ok hb
  have heq := ctrlName_injective (hur.symm.trans hvr)
  rw [hu, hv]
  by_cases hugt : u = unit '>' <;> by_cases hvgt : v = unit '>'
  · rw [hugt, hvgt]
  · rw [if_pos hugt, if_neg hvgt] at heq
    cases heq
  · rw [if_neg hugt, if_pos hvgt] at heq
    cases heq
  · rwa [if_neg hugt, if_neg hvgt] at heq

def Printable (c : CodeUnit) : Prop := 32 ≤ c.toNat ∧ c.toNat < 127

def Letter (c : CodeUnit) : Prop := isUpper (asciiUpper c)

structure NormalForm (key : JsString) : Prop where
  ctrl_eq : ∀ r, ctrl key = .ok r → ∃ name, name ≠ [] ∧ r = ctrlName name ∧ ctrl r = .ok r
  accepts : ∀ c, key = [c] → Printable c → ∃ r, ctrl key = .ok r

theorem asciiUpper_of_not_letter {c : CodeUnit} (h : ¬ Letter c) : asciiUpper c = c := by
  unfold Letter isUpper asciiUpper at h
  unfold asciiUpper
  by_cases hlower : 97 ≤ c.toNat ∧ c.toNat ≤ 122
  · have h32 : (32 : CodeUnit) ≤ c := UInt16.le_iff_toNat_le.mpr (by simp; omega)
    rw [if_pos hlower, UInt16.toNat_sub_of_le _ _ h32, decide_eq_true_eq] at h
    simp at h
    omega
  · rw [if_neg hlower]

theorem toUpperCase_singleton_of_lt {c : CodeUnit} (h : c.toNat < 128) :
    toUpperCase [c] = [asciiUpper c] := by
  rw [toUpperCase_singleton, upperUnit_of_lt h]

/-- The name that `ctrl` makes of another character than a letter is refused. -/
theorem ctrl_ctrlName_of_not_letter {c : CodeUnit} (hc : c.toNat < 128) (hletter : ¬ Letter c)
    (r : JsString) : ctrl (ctrlName [c]) ≠ .ok r := by
  have hfixed := asciiUpper_of_not_letter hletter
  have hupper : toUpperCase (ctrlName [c]) = ctrlName [c] :=
    toUpperCase_ctrlName (by simpa [Ascii] using hc) (by simpa using hfixed)
  intro h
  rcases ctrl_eq_ok h with ⟨u, hsingle, -⟩ | ⟨hnamed, -⟩
  · rw [hupper] at hsingle
    exact absurd (congrArg List.length hsingle) (by simp [ctrlName, lit])
  · rw [hupper, test_namedKey_iff] at hnamed
    obtain ⟨name, hname, hkey | hkey⟩ := hnamed
    · have hdash : unit '-' ∈ name := by
        have hmem : unit '-' ∈ ctrlName [c] := by simp [ctrlName, lit]
        rw [hkey] at hmem
        simpa [unit] using hmem
      exact absurd (hname.2 _ hdash) (by decide)
    · rw [← ctrlName_injective hkey] at hname
      apply hletter
      rw [Letter, hfixed]
      exact hname.2 c List.mem_cons_self

theorem normalForm_singleton_iff {c : CodeUnit} (hc : c.toNat < 128) :
    NormalForm [c] ↔ Letter c := by
  have hupper := toUpperCase_singleton_of_lt hc
  constructor
  · intro h
    by_contra hletter
    rw [asciiUpper_of_not_letter hletter] at hupper
    by_cases hlt : c = unit '<'
    · obtain ⟨u, hu, hne⟩ :=
        (ctrl_singleton_iff c).mp (h.accepts c rfl (hlt ▸ ⟨by decide, by decide⟩))
      rw [hupper, List.singleton_inj] at hu
      exact hne (hu.symm.trans hlt)
    · obtain ⟨name, hne, hname, hagain⟩ := h.ctrl_eq _ (ctrl_of_single hupper hlt)
      have heq := ctrlName_injective hname
      by_cases hgt : c = unit '>'
      · rw [if_pos hgt] at heq
        exact hne heq.symm
      · rw [if_neg hgt] at hagain
        exact ctrl_ctrlName_of_not_letter hc hletter _ hagain
  · intro hletter
    have hne {d : CodeUnit} (hd : ¬ isUpper d) : asciiUpper c ≠ d := fun h ↦ hd (h ▸ hletter)
    have hlt : asciiUpper c ≠ unit '<' := hne (by decide)
    have hgt : asciiUpper c ≠ unit '>' := hne (by decide)
    have hctrl := ctrl_of_single hupper hlt
    rw [if_neg hgt] at hctrl
    refine ⟨fun r hr ↦ ?_, fun _ _ _ ↦ ⟨_, hctrl⟩⟩
    have hname : Name [asciiUpper c] :=
      ⟨List.cons_ne_nil _ _, fun d hd ↦ (List.mem_singleton.mp hd).symm ▸ hletter⟩
    rw [hctrl] at hr
    cases hr
    exact ⟨_, hname.1, rfl, ctrl_ctrlName hname⟩

theorem normalForm_of_ne_singleton {key : JsString} (hkey : Ascii key) (hne : ∀ c, key ≠ [c]) :
    NormalForm key := by
  refine ⟨fun r hr ↦ ?_, fun c hc ↦ (hne c hc).elim⟩
  rcases ctrl_eq_ok hr with ⟨u, hupper, -⟩ | ⟨-, name, hname, rfl⟩
  · rw [toUpperCase_of_lt hkey] at hupper
    have hlength := congrArg List.length hupper
    rw [List.length_map] at hlength
    obtain ⟨c, hc⟩ := List.length_eq_one_iff.mp hlength
    exact (hne c hc).elim
  · exact ⟨name, hname.1, rfl, ctrl_ctrlName hname⟩

/-- On strings of basic characters `ctrl` is a normal form exactly for those
that are not a single character other than a letter. On single characters it
is injective up to case. -/
theorem ctrl_normalForm_iff {key : JsString} (hkey : Ascii key) :
    (NormalForm key ↔ ∀ c, key = [c] → Letter c) ∧
      ∀ a b r, ctrl [a] = .ok r → ctrl [b] = .ok r → toUpperCase [a] = toUpperCase [b] := by
  refine ⟨⟨fun h c hc ↦ ?_, fun h ↦ ?_⟩, fun a b r ha hb ↦ ctrl_singleton_injective ha hb⟩
  · subst hc
    exact (normalForm_singleton_iff (hkey c List.mem_cons_self)).mp h
  · by_cases hsingle : ∃ c, key = [c]
    · obtain ⟨c, rfl⟩ := hsingle
      exact (normalForm_singleton_iff (hkey c List.mem_cons_self)).mpr (h c rfl)
    · exact normalForm_of_ne_singleton hkey fun c hc ↦ hsingle ⟨c, hc⟩

theorem ctrl_normalForm_bs : NormalForm (lit "<bs>") ∧ ctrl (lit "<bs>") = .ok (lit "<C-BS>") := by
  have hkey : Ascii (lit "<bs>") := by
    have hall : (lit "<bs>").all (fun c ↦ c.toNat < 128) = true := by decide
    exact fun c hc ↦ of_decide_eq_true (List.all_eq_true.mp hall c hc)
  refine ⟨(ctrl_normalForm_iff hkey).1.mpr fun c hc ↦ ?_, by decide⟩
  exact absurd (congrArg List.length hc) (by simp [lit])

theorem not_normalForm_greater :
    ctrl (lit ">") = .ok (lit "<C->") ∧ ctrl (lit "<C->") = .error (lit "bad key <C->") ∧
      ctrl (lit "<") = .error (lit "bad key <") ∧ ¬ NormalForm (lit ">") := by
  refine ⟨by decide, by decide, by decide, fun h ↦ ?_⟩
  have hletter : Letter (unit '>') := (normalForm_singleton_iff (by decide)).mp h
  unfold Letter at hletter
  exact absurd hletter (by decide)

end CoffeeTable.Keyboard

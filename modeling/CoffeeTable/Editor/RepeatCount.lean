import CoffeeTable.Editor.EditLaws
import CoffeeTable.Editor.Command
import Mathlib.Data.Nat.Digits.Defs

/-!
# The pending repeat count

Some actions leave the count `undefined`, but only in insert mode, and the one
way out of insert mode sets it again. In every other mode it is the number
spelled by the digits typed since the last other key that had an action, and
the next movement runs with that number, or with one if it is zero.
-/

namespace CoffeeTable.Editor

open Ecma

/-- The digit keys that count as typed after one more key: a key without an
action changes nothing, any other key that is no digit forgets them. -/
def digitsAfter (s : State) (typed : List ℕ) (key : Key) : List ℕ :=
  if (actionOfKey s.mode key).isNone then typed
  else
    match digitOf key with
    | some number => typed ++ [number]
    | none => []

def typedDigits (s : State) (typed : List ℕ) : List Key → List ℕ
  | [] => typed
  | key :: keys => typedDigits (handleKey s key) (digitsAfter s typed key) keys

def decimalValue (typed : List ℕ) : ℕ := Nat.ofDigits 10 typed.reverse

def movementWrapper : Mode → Option (State → Cursor → Except Fault State)
  | .command => some setCursor
  | .delete => some deleteToCursor
  | .change => some changeToCursor
  | .insert => none
  | .goto => none

@[simp] theorem decimalValue_nil : decimalValue [] = 0 := rfl

theorem decimalValue_append (typed : List ℕ) (number : ℕ) :
    decimalValue (typed ++ [number]) = decimalValue typed * 10 + number := by
  simp only [decimalValue, List.reverse_append, List.reverse_singleton, List.singleton_append,
    Nat.ofDigits_cons]
  ring

theorem effectiveCount_natCast (n : ℕ) :
    effectiveCount (some (n : ℤ)) = some ((max 1 n : ℕ) : ℤ) := by
  by_cases h : n = 0
  · simp [effectiveCount, h]
  · have hmax : max 1 n = n := by omega
    simp [effectiveCount, h, hmax]

/-! ## What each command does to the count -/

def Command.Typing : Command → Prop
  | .backspace => True
  | .breakLine => True
  | .type _ => True
  | _ => False

theorem not_typing_of_decoded {mode : Mode} {key : Key} {command : Command}
    (h : Decoded mode key command) : ¬ command.Typing := by
  cases h with
  | own hmem =>
      have hall : ∀ entry ∈ ownTable mode, ¬ entry.2.Typing := by
        cases mode <;> simp [ownTable, commandTable, Command.Typing]
      exact hall _ hmem
  | motion huse _ => rcases motionUse_eq_some huse with ⟨-, rfl⟩ | ⟨-, rfl⟩ | ⟨-, rfl⟩ <;> exact id
  | digit _ => exact id
  | cancel _ _ => exact id

theorem mode_of_decode_typing {mode : Mode} {key : Key} {command : Command}
    (h : decode mode key = some command) (htyping : command.Typing) : mode = .insert := by
  by_contra hmode
  exact not_typing_of_decoded (decoded_of_decode hmode h) htyping

theorem decode_insert {key : Key} {command : Command} (h : decode .insert key = some command) :
    (key.text = Keys.ESC ∧ command = .enter .command) ∨ command.Typing := by
  simp only [decode, Option.some.injEq] at h
  split_ifs at h with hesc <;> subst h
  · exact Or.inl ⟨hesc, rfl⟩
  all_goals exact Or.inr trivial

theorem typing_eq_ok {command : Command} (htyping : command.Typing) {s t : State}
    {count actualCount : Option ℤ} (h : command.run s count actualCount = .ok t) :
    ∃ n before line after, normalizeCursor s {} = .ok n ∧ n.At before line after ∧
      command.run n count actualCount = .ok t := by
  cases hnormal : normalizeCursor s {} with
  | error fault =>
      cases command <;> try exact htyping.elim
      · simp [Command.run, deleteCharsAtCursor_of_error (by decide : (-1 : ℤ) ≠ 0) hnormal] at h
      · simp [Command.run, breakLineAtCursor_of_error hnormal] at h
      · simp [Command.run, insertStringAtCursor_of_error _ hnormal] at h
  | ok n =>
      obtain ⟨before, line, after, hat, -⟩ := exists_at_of_normalizeCursor hnormal
      refine ⟨n, before, line, after, rfl, hat, ?_⟩
      cases command <;> try exact htyping.elim
      · rwa [Command.run, ← deleteCharsAtCursor_normalize (by decide) hnormal]
      · rwa [Command.run, ← breakLineAtCursor_normalize hnormal]
      · rwa [Command.run, ← insertStringAtCursor_normalize _ hnormal]

theorem mode_of_typing {command : Command} (htyping : command.Typing) {s t : State}
    {count actualCount : Option ℤ} (h : command.run s count actualCount = .ok t) :
    t.mode = s.mode := by
  obtain ⟨n, before, line, after, hnormal, hat, h⟩ := typing_eq_ok htyping h
  have hmode : n.mode = s.mode := (normalizeCursor_fields hnormal).2.1
  cases command <;> try exact htyping.elim
  · rcases hat.backspace_cases with ⟨col, -, heq⟩ | ⟨init, previous, -, -, heq⟩ |
        ⟨-, -, heq⟩ <;>
      exact (congrArg State.mode (Except.ok.inj (heq.symm.trans h))).symm.trans hmode
  · have heq := Except.ok.inj (hat.breakLineAtCursor_eq.symm.trans h)
    exact (congrArg State.mode heq).symm.trans hmode
  · have heq := Except.ok.inj ((hat.insertStringAtCursor_eq _).symm.trans h)
    exact (congrArg State.mode heq).symm.trans hmode

theorem deleteToCursor_fields {s t : State} {target : Cursor}
    (h : deleteToCursor s target = .ok t) :
    t.mode = .command ∧ t.repeatNumber = s.repeatNumber := by
  unfold deleteToCursor at h
  split at h
  · obtain ⟨line, -, h⟩ := bind_eq_ok.mp h
    obtain ⟨buffer, -, h⟩ := bind_eq_ok.mp h
    cases h
    simp [makeState]
  · cases h
    simp [makeState]

def Command.modeAfter (mode : Mode) : Command → Mode
  | .insert _ => .insert
  | .openLine _ => .insert
  | .enter entered => entered
  | .deleteLine => .command
  | .deleteTo _ => .command
  | .changeLine => .insert
  | .changeTo _ => .insert
  | .top => .command
  | _ => mode

/-- The mode after a command depends on nothing but the mode before it. -/
theorem mode_of_run {command : Command} {s t : State} {count actualCount : Option ℤ}
    (h : command.run s count actualCount = .ok t) : t.mode = command.modeAfter s.mode := by
  cases command with
  | execBox =>
      cases h
      rfl
  | insert location =>
      cases h
      rfl
  | openLine location =>
      cases h
      rfl
  | enter mode =>
      cases h
      rfl
  | move motion =>
      obtain ⟨cursor, -, h⟩ := bind_eq_ok.mp h
      cases h
      rfl
  | digit number =>
      obtain ⟨typed, -, h⟩ := bind_eq_ok.mp h
      cases h
      rfl
  | backspace => exact mode_of_typing (by trivial) h
  | breakLine => exact mode_of_typing (by trivial) h
  | type string => exact mode_of_typing (by trivial) h
  | deleteLine =>
      simp only [Command.run, deleteCurrentLine] at h
      exact (normalizeCursor_fields h).2.1
  | deleteTo motion =>
      obtain ⟨cursor, -, h⟩ := bind_eq_ok.mp h
      exact (deleteToCursor_fields h).1
  | changeLine =>
      obtain ⟨buffer, -, h⟩ := bind_eq_ok.mp h
      exact (normalizeCursor_fields h).2.1
  | changeTo motion =>
      obtain ⟨cursor, -, h⟩ := bind_eq_ok.mp h
      obtain ⟨deleted, -, h⟩ := bind_eq_ok.mp h
      cases h
      rfl
  | top =>
      obtain ⟨normalized, -, h⟩ := bind_eq_ok.mp h
      cases h
      rfl

/-- A command that leaves insert mode behind or never enters it keeps the
count that the handler has reset. -/
theorem count_of_run {command : Command} (hdigit : ∀ number, command ≠ .digit number)
    {s t : State} {count actualCount : Option ℤ} (hs : s.repeatNumber = some 0)
    (htyping : command.Typing → s.mode = .insert)
    (h : command.run s count actualCount = .ok t) (ht : t.mode ≠ .insert) :
    t.repeatNumber = some 0 := by
  have hmode (hc : command.Typing) : False :=
    ht ((mode_of_typing hc h).trans (htyping hc))
  cases command with
  | execBox =>
      cases h
      exact hs
  | insert location =>
      cases h
      exact (ht (by simp [Editor.insert, makeState])).elim
  | openLine location =>
      cases h
      exact (ht (by simp [insertLine, makeState])).elim
  | enter mode =>
      cases h
      simp [enterMode, makeState]
  | move motion =>
      obtain ⟨cursor, -, h⟩ := bind_eq_ok.mp h
      cases h
      simpa [makeState] using hs
  | digit number => exact (hdigit number rfl).elim
  | backspace => exact (hmode trivial).elim
  | breakLine => exact (hmode trivial).elim
  | type string => exact (hmode trivial).elim
  | deleteLine =>
      simp only [Command.run, deleteCurrentLine] at h
      have hfields := normalizeCursor_fields h
      simpa [makeState, hs] using hfields.2.2
  | deleteTo motion =>
      obtain ⟨cursor, -, h⟩ := bind_eq_ok.mp h
      exact (deleteToCursor_fields h).2.trans hs
  | changeLine =>
      obtain ⟨buffer, -, h⟩ := bind_eq_ok.mp h
      have hfields := normalizeCursor_fields h
      exact (ht (by simpa [makeState] using hfields.2.1)).elim
  | changeTo motion =>
      obtain ⟨cursor, -, h⟩ := bind_eq_ok.mp h
      obtain ⟨deleted, -, h⟩ := bind_eq_ok.mp h
      cases h
      simp [enterMode, makeState]
  | top =>
      obtain ⟨normalized, -, h⟩ := bind_eq_ok.mp h
      cases h
      simp [enterMode, makeState]

/-! ## The invariant -/

theorem digit_of_decode {mode : Mode} (hmode : mode ≠ .insert) {key : Key} {command : Command}
    (h : decode mode key = some command) :
    (∃ number, digitOf key = some number ∧ command = .digit number) ∨
      (digitOf key = none ∧ ∀ number, command ≠ .digit number) := by
  cases decoded_of_decode hmode h with
  | own hmem =>
      have hnames : ∀ name ∈ (ownTable mode).map Prod.fst,
          ((List.range 10).map fun i ↦ (digits i, i)).lookup name = none := by
        cases mode <;> decide
      have hall : ∀ entry ∈ ownTable mode, ∀ number, entry.2 ≠ .digit number := by
        cases mode <;> simp [ownTable, commandTable]
      exact Or.inr ⟨digitOf_eq_none_of_mem hmem hnames, hall _ hmem⟩
  | motion huse hmotion =>
      refine Or.inr ⟨digitOf_eq_none_of_motionOf hmotion, ?_⟩
      rcases motionUse_eq_some huse with ⟨-, rfl⟩ | ⟨-, rfl⟩ | ⟨-, rfl⟩ <;> simp
  | digit hdigit => exact Or.inl ⟨_, hdigit, rfl⟩
  | cancel _ hdigit => exact Or.inr ⟨hdigit, by simp⟩

def Counts (s : State) (typed : List ℕ) : Prop :=
  s.mode ≠ .insert → s.repeatNumber = some (decimalValue typed : ℤ)

theorem isNone_actionOfKey (mode : Mode) (key : Key) :
    (actionOfKey mode key).isNone = (decode mode key).isNone := by
  have h := congrArg Option.isNone
    (actionOfKey_apply mode key (startEditing []) none none)
  simpa using h

theorem Counts.handleKey {s : State} {typed : List ℕ} (h : Counts s typed) (key : Key) :
    Counts (handleKey s key) (digitsAfter s typed key) := by
  intro hmode
  rw [handleKey_eq] at hmode ⊢
  rw [digitsAfter, isNone_actionOfKey]
  cases hdecode : decode s.mode key with
  | none =>
      simp only [hdecode] at hmode
      simpa using h hmode
  | some command =>
      simp only [hdecode] at hmode ⊢
      by_cases hins : s.mode = .insert
      · -- Only `<ESC>` leaves insert mode, and it sets the count.
        rcases decode_insert (hins ▸ hdecode) with ⟨hesc, rfl⟩ | htyping
        · have hdigit : digitOf key = none := by rw [digitOf, hesc]; decide
          simp [hdigit, Command.run, enterMode, makeState]
        · exfalso
          cases hrun : s.perform command with
          | error fault =>
              simp only [hrun] at hmode
              exact hmode hins
          | ok t =>
              simp only [hrun] at hmode
              exact hmode ((mode_of_typing htyping hrun).trans hins)
      · rcases digit_of_decode hins hdecode with ⟨number, hdigit, rfl⟩ | ⟨hdigit, hne⟩
        · simp only [hdigit, Option.isNone_some, Bool.false_eq_true, if_false, Command.run,
            h hins, countOf_some, ok_bind, pure_eq_ok]
          simp [makeState, decimalValue_append]
        · simp only [hdigit, Option.isNone_some, Bool.false_eq_true, if_false,
            decimalValue_nil, Int.natCast_zero]
          cases hrun : s.perform command with
          | error fault => rfl
          | ok t =>
              simp only [hrun] at hmode
              exact count_of_run (s := resetCount s) hne rfl
                (fun htyping ↦ mode_of_decode_typing hdecode htyping) hrun hmode

theorem Counts.typedDigits {s : State} {typed : List ℕ} (h : Counts s typed) (keys : List Key) :
    Counts (keys.foldl Editor.handleKey s) (typedDigits s typed keys) := by
  induction keys generalizing s typed with
  | nil => exact h
  | cons key keys ih => exact ih (h.handleKey key)

theorem counts_run (content : JsString) (keys : List Key) :
    Counts (run content keys) (typedDigits (startEditing content) [] keys) :=
  Counts.typedDigits (fun _ ↦ rfl) keys

theorem press_movement {s : State} {key : Key} {movement : Movement}
    {wrapper : State → Cursor → Except Fault State} {n : ℕ}
    (hmovement : movementKeys.lookup key.text = some movement)
    (hwrapper : movementWrapper s.mode = some wrapper) (hcount : s.repeatNumber = some (n : ℤ)) :
    press s key = some (do
      let cursor ← movement (resetCount s) (some ((max 1 n : ℕ) : ℤ))
      wrapper (resetCount s) cursor) := by
  rw [movementKeys_lookup, Option.map_eq_some_iff] at hmovement
  obtain ⟨motion, hmotion, rfl⟩ := hmovement
  have hperform (command : Command) : s.perform command =
      command.run (resetCount s) (some ((max 1 n : ℕ) : ℤ)) (some (n : ℤ)) := by
    rw [State.perform, hcount, effectiveCount_natCast]
  rw [press_eq]
  cases hmode : s.mode with
  | insert => simp [hmode, movementWrapper] at hwrapper
  | goto => simp [hmode, movementWrapper] at hwrapper
  | command =>
      obtain rfl : setCursor = wrapper := by simpa [hmode, movementWrapper] using hwrapper
      rw [decode_motion rfl hmotion, Option.map_some, hperform]
      rfl
  | delete =>
      obtain rfl : deleteToCursor = wrapper := by simpa [hmode, movementWrapper] using hwrapper
      rw [decode_motion rfl hmotion, Option.map_some, hperform]
      rfl
  | change =>
      obtain rfl : changeToCursor = wrapper := by simpa [hmode, movementWrapper] using hwrapper
      rw [decode_motion rfl hmotion, Option.map_some, hperform]
      rfl

/-- In every reached state outside insert mode the pending count is the number
typed since the last handled key that is no digit, and the next movement
receives it, or one if it is zero. -/
theorem run_repeatNumber (content : JsString) (keys : List Key) :
    (run content keys).mode ≠ .insert →
      (run content keys).repeatNumber =
          some (decimalValue (typedDigits (startEditing content) [] keys) : ℤ) ∧
        ∀ (key : Key) (movement : Movement) (wrapper : State → Cursor → Except Fault State),
          movementKeys.lookup key.text = some movement →
          movementWrapper (run content keys).mode = some wrapper →
          press (run content keys) key = some (do
            let cursor ← movement (resetCount (run content keys))
              (some ((max 1 (decimalValue (typedDigits (startEditing content) [] keys)) : ℕ) : ℤ))
            wrapper (resetCount (run content keys)) cursor) := by
  intro hmode
  have hcount := counts_run content keys hmode
  exact ⟨hcount, fun key movement wrapper hmovement hwrapper ↦
    press_movement hmovement hwrapper hcount⟩

theorem run_repeatNumber_twelve :
    (run (lit "ab") [key "1", key "2"]).repeatNumber = some 12 ∧
      press (run (lit "ab") [key "1", key "2"]) (key "l") = some (do
        let cursor ← moveCursor 0 1 (resetCount (run (lit "ab") [key "1", key "2"])) (some 12)
        setCursor (resetCount (run (lit "ab") [key "1", key "2"])) cursor) := by
  obtain ⟨hcount, hmovement⟩ :=
    run_repeatNumber (lit "ab") [key "1", key "2"] (by decide)
  have hvalue :
      decimalValue (typedDigits (startEditing (lit "ab")) [] [key "1", key "2"]) = 12 := by decide
  rw [hvalue] at hcount hmovement
  exact ⟨hcount, hmovement (key "l") (moveCursor 0 1) setCursor rfl rfl⟩

end CoffeeTable.Editor

import CoffeeTable.Editor.Handler
import CoffeeTable.Editor.Motion

/-!
# The command language behind the keys

Pressing a key means giving a command: `decode` says which one in which mode,
and `Command.run` what it does. The lookup through keys, included groups,
wrappers and catchalls computes exactly this. Everything that follows argues
by cases on the command.
-/

namespace CoffeeTable.Editor

open Ecma

inductive Command where
  | execBox
  | insert (location : Location)
  | openLine (location : Location)
  | enter (mode : Mode)
  | move (motion : Motion)
  | digit (number : ℕ)
  | backspace
  | breakLine
  | type (string : JsString)
  | deleteLine
  | deleteTo (motion : Motion)
  | changeLine
  | changeTo (motion : Motion)
  | top
  deriving DecidableEq

namespace Command

def run (state : State) (count actualCount : Option ℤ) : Command → Except Fault State
  | .execBox => .ok (Editor.openExec state)
  | .insert location => .ok (Editor.insert location state)
  | .openLine location => .ok (insertLine location state)
  | .enter mode => .ok (enterMode mode state)
  | .move motion => do
      let cursor ← motion.movement state count
      setCursor state cursor
  | .digit number => do
      let typed ← countOf actualCount
      pure (makeState state { repeatNumber := some (typed * 10 + number) })
  | .backspace => deleteCharsAtCursor (-1) state
  | .breakLine => breakLineAtCursor state
  | .type string => insertStringAtCursor string state
  | .deleteLine => deleteCurrentLine state
  | .deleteTo motion => do
      let cursor ← motion.movement state count
      deleteToCursor state cursor
  | .changeLine => changeCurrentLine state
  | .changeTo motion => do
      let cursor ← motion.movement state count
      changeToCursor state cursor
  | .top => gotoLine (.int 0) state

end Command

/-! ## Reading keys -/

def motionTable : List (JsString × Motion) :=
  [(lit "h", .columns (-1)),
    (lit "l", .columns 1),
    (lit "j", .rows 1),
    (lit "k", .rows (-1)),
    (lit "<C-U>", .rows (-20)),
    (lit "<C-D>", .rows 20),
    (lit "G", .endOfFile),
    (Keys.LEFT, .columns (-1)),
    (Keys.UP, .rows (-1)),
    (Keys.RIGHT, .columns 1),
    (Keys.DOWN, .rows 1)]

def motionOf (key : Key) : Option Motion := motionTable.lookup key.text

def digitOf (key : Key) : Option ℕ :=
  ((List.range 10).map fun i ↦ (digits i, i)).lookup key.text

def commandTable : List (JsString × Command) :=
  [(lit ":", .execBox),
    (lit "i", .insert .before),
    (lit "a", .insert .after),
    (lit "o", .openLine .after),
    (lit "O", .openLine .before),
    (lit "d", .enter .delete),
    (lit "c", .enter .change),
    (lit "g", .enter .goto)]

def decodeIncluded (use : Motion → Command) (key : Key) : Option Command :=
  match motionOf key with
  | some motion => some (use motion)
  | none => (digitOf key).map .digit

def decode : Mode → Key → Option Command
  | .command, key =>
      match commandTable.lookup key.text with
      | some command => some command
      | none => decodeIncluded .move key
  | .insert, key =>
      some <|
        if key.text = Keys.ESC then .enter .command
        else if key.text = Keys.BS then .backspace
        else if key.text = Keys.CR then .breakLine
        else .type key.text
  | .delete, key =>
      if key.text = lit "d" then some .deleteLine
      else some ((decodeIncluded .deleteTo key).getD (.enter .command))
  | .change, key =>
      if key.text = lit "c" then some .changeLine
      else some ((decodeIncluded .changeTo key).getD (.enter .command))
  | .goto, key => if key.text = lit "g" then some .top else none

/-! ## The lookup computes the decoding -/

theorem lookup_map_snd {α β γ : Type*} [BEq α] (f : β → γ) (table : List (α × β)) (a : α) :
    (table.map fun entry ↦ (entry.1, f entry.2)).lookup a = (table.lookup a).map f := by
  induction table with
  | nil => rfl
  | cons entry table ih =>
      obtain ⟨b, value⟩ := entry
      cases h : a == b <;> simp [List.lookup_cons, h, ih]

theorem movementKeys_lookup (key : Key) :
    movementKeys.lookup key.text = (motionOf key).map Motion.movement :=
  lookup_map_snd Motion.movement motionTable key.text

theorem repeatNumberKeys_lookup (key : Key) :
    repeatNumberKeys.lookup key.text = (digitOf key).map pushRepeatNumber := by
  have h := lookup_map_snd pushRepeatNumber ((List.range 10).map fun i ↦ (digits i, i)) key.text
  simpa [repeatNumberKeys, digitOf, List.map_map, Function.comp_def] using h

def Command.action (command : Command) : Action := fun state count actualCount _ ↦
  command.run state count actualCount

theorem findSome?_included (wrapper : State → Cursor → Except Fault State)
    (use : Motion → Command)
    (huse : ∀ motion state count actualCount, (use motion).run state count actualCount =
      (motion.movement state count >>= wrapper state)) (key : Key) :
    [Subgroup.movement wrapper, .repeatNumber fun _ state ↦ state].findSome?
      (·.actionOfKey key) = (decodeIncluded use key).map Command.action := by
  have haction (motion : Motion) : (use motion).action =
      fun state count _ _ ↦ motion.movement state count >>= wrapper state := by
    funext state count actualCount _
    exact huse motion state count actualCount
  cases hmotion : motionOf key with
  | some motion =>
      simp [Subgroup.actionOfKey, movementKeys_lookup, decodeIncluded, hmotion, haction]
  | none =>
      cases hdigit : digitOf key with
      | some number =>
          have hpush : (Command.digit number).action = pushRepeatNumber number := rfl
          simp [Subgroup.actionOfKey, movementKeys_lookup, hmotion, repeatNumberKeys_lookup,
            hdigit, decodeIncluded, hpush, -pure_eq_ok]
      | none =>
          simp [Subgroup.actionOfKey, movementKeys_lookup, repeatNumberKeys_lookup,
            decodeIncluded, hmotion, hdigit]

theorem lookup_singleton {β : Type*} (name : JsString) (b : β) (text : JsString) :
    [(name, b)].lookup text = if text = name then some b else none := by
  by_cases h : text = name
  · simp [h]
  · simp [List.lookup_cons, h, beq_eq_false_iff_ne.mpr h]

theorem actionOfKey_apply (mode : Mode) (key : Key) (state : State)
    (count actualCount : Option ℤ) :
    (actionOfKey mode key).map (fun action ↦ action state count actualCount key) =
      (decode mode key).map (·.run state count actualCount) := by
  cases mode with
  | command =>
      have hkeys : (actionGroups .command).keys.lookup key.text =
          (commandTable.lookup key.text).map Command.action :=
        lookup_map_snd Command.action commandTable key.text
      have hincluded := findSome?_included setCursor .move (fun _ _ _ _ ↦ rfl) key
      cases htable : commandTable.lookup key.text with
      | some command =>
          simp [actionOfKey, decode, hkeys, htable, Command.action]
      | none =>
          simp only [actionOfKey, hkeys, htable, Option.map_none, decode]
          rw [show (actionGroups .command).subgroups = [.movement setCursor,
            .repeatNumber fun _ state ↦ state] from rfl, hincluded]
          cases decodeIncluded Command.move key <;> rfl
  | insert =>
      simp only [actionOfKey, actionGroups, lookup_singleton, decode]
      by_cases hesc : key.text = Keys.ESC
      · have hlit : key.text = lit "<ESC>" := hesc
        simp [hesc, ← hlit, pureAction, stateAction, Command.run]
      · have hlit : ¬ key.text = lit "<ESC>" := hesc
        simp only [hesc, hlit, if_false, List.findSome?_nil, Option.map_some, insertCatchall]
        split
        · rfl
        · split <;> rfl
  | delete =>
      have hincluded := findSome?_included deleteToCursor .deleteTo (fun _ _ _ _ ↦ rfl) key
      simp only [actionOfKey, actionGroups, lookup_singleton, decode]
      by_cases hd : key.text = lit "d"
      · simp [hd, stateAction, Command.run]
      · simp only [hd, if_false, hincluded]
        cases decodeIncluded Command.deleteTo key <;> rfl
  | change =>
      have hincluded := findSome?_included changeToCursor .changeTo (fun _ _ _ _ ↦ rfl) key
      simp only [actionOfKey, actionGroups, lookup_singleton, decode]
      by_cases hc : key.text = lit "c"
      · simp [hc, stateAction, Command.run]
      · simp only [hc, if_false, hincluded]
        cases decodeIncluded Command.changeTo key <;> rfl
  | goto =>
      simp only [actionOfKey, actionGroups, lookup_singleton, decode]
      by_cases hg : key.text = lit "g"
      · simp [hg, stateAction, Command.run]
      · simp [hg]

/-- What the handler makes of a command. -/
abbrev State.perform (s : State) (command : Command) : Except Fault State :=
  command.run (resetCount s) (effectiveCount s.repeatNumber) s.repeatNumber

theorem press_eq (s : State) (key : Key) :
    press s key = (decode s.mode key).map s.perform :=
  actionOfKey_apply s.mode key (resetCount s) _ _

theorem handleKey_eq (s : State) (key : Key) :
    handleKey s key =
      match decode s.mode key with
      | none => s
      | some command =>
          match s.perform command with
          | .ok result => result
          | .error _ => resetCount s := by
  unfold handleKey
  rw [press_eq]
  cases decode s.mode key with
  | none => rfl
  | some command =>
      simp only [Option.map_some]
      cases s.perform command <;> rfl

theorem handleKey_of_perform {s t : State} {key : Key} {command : Command}
    (hdecode : decode s.mode key = some command) (h : s.perform command = .ok t) :
    handleKey s key = t := by
  rw [handleKey_eq, hdecode]
  simp only [h]

theorem handleKey_of_error {s : State} {key : Key} {command : Command} {fault : Fault}
    (hdecode : decode s.mode key = some command) (h : s.perform command = .error fault) :
    handleKey s key = resetCount s := by
  rw [handleKey_eq, hdecode]
  simp only [h]

theorem fails_iff {s : State} {key : Key} :
    Fails s key ↔ ∃ command fault, decode s.mode key = some command ∧
      s.perform command = .error fault := by
  simp only [Fails, press_eq, Option.map_eq_some_iff]
  exact ⟨fun ⟨fault, command, hdecode, h⟩ ↦ ⟨command, fault, hdecode, h⟩,
    fun ⟨command, fault, hdecode, h⟩ ↦ ⟨fault, command, hdecode, h⟩⟩

/-- A property that exactly the commands in `C` destroy. -/
theorem handleKey_iff {Q : State → Prop} {C : State → Command → Prop} {s : State} (hs : Q s)
    (hreset : Q (resetCount s)) (key : Key)
    (hok : ∀ command t, decode s.mode key = some command → s.perform command = .ok t →
      (Q t ↔ ¬ C s command))
    (herror : ∀ command fault, decode s.mode key = some command →
      s.perform command = .error fault → ¬ C s command) :
    Q (handleKey s key) ↔ ¬ ∃ command, decode s.mode key = some command ∧ C s command := by
  cases hdecode : decode s.mode key with
  | none => simpa [handleKey_eq, hdecode] using hs
  | some command =>
      have honly : (∃ other, some command = some other ∧ C s other) ↔ C s command := by simp
      rw [honly]
      cases hperform : s.perform command with
      | ok t =>
          rw [handleKey_of_perform hdecode hperform]
          exact hok command t hdecode hperform
      | error fault =>
          rw [handleKey_of_error hdecode hperform]
          exact iff_of_true hreset (herror command fault hdecode hperform)

/-! ## What a decoded key looks like -/

theorem mem_of_lookup {β : Type*} {table : List (JsString × β)} {text : JsString} {b : β}
    (h : table.lookup text = some b) : (text, b) ∈ table := by
  obtain ⟨pre, post, rfl, -⟩ := List.lookup_eq_some_iff.mp h
  simp

theorem mem_motionTable {key : Key} {motion : Motion} (h : motionOf key = some motion) :
    (key.text, motion) ∈ motionTable := mem_of_lookup h

theorem motionOf_proper {key : Key} {motion : Motion} (h : motionOf key = some motion) :
    motion.Proper := by
  have hall : ∀ entry ∈ motionTable, entry.2.Proper := by
    simp [motionTable, Motion.Proper]
  exact hall _ (mem_motionTable h)

theorem digitOf_eq_none_of_mem {β : Type*} {table : List (JsString × β)} {key : Key} {b : β}
    (hmem : (key.text, b) ∈ table) (htable : ∀ name ∈ table.map Prod.fst,
      ((List.range 10).map fun i ↦ (digits i, i)).lookup name = none) : digitOf key = none :=
  htable _ (List.mem_map_of_mem hmem)

theorem digitOf_eq_none_of_motionOf {key : Key} {motion : Motion}
    (h : motionOf key = some motion) : digitOf key = none :=
  digitOf_eq_none_of_mem (mem_motionTable h) (by decide)

theorem digitOf_eq_none_of_included {use : Motion → Command} {key : Key}
    (h : decodeIncluded use key = none) : digitOf key = none := by
  unfold decodeIncluded at h
  cases hmotion : motionOf key with
  | some motion => simp [hmotion] at h
  | none => simpa [hmotion] using h

def ownTable : Mode → List (JsString × Command)
  | .command => commandTable
  | .insert => []
  | .delete => [(lit "d", .deleteLine)]
  | .change => [(lit "c", .changeLine)]
  | .goto => [(lit "g", .top)]

def motionUse : Mode → Option (Motion → Command)
  | .command => some .move
  | .insert => none
  | .delete => some .deleteTo
  | .change => some .changeTo
  | .goto => none

theorem motionUse_eq_some {mode : Mode} {use : Motion → Command} (h : motionUse mode = some use) :
    (mode = .command ∧ use = .move) ∨ (mode = .delete ∧ use = .deleteTo) ∨
      (mode = .change ∧ use = .changeTo) := by
  cases mode with
  | command => exact Or.inl ⟨rfl, (Option.some.inj h).symm⟩
  | insert => cases h
  | delete => exact Or.inr (Or.inl ⟨rfl, (Option.some.inj h).symm⟩)
  | change => exact Or.inr (Or.inr ⟨rfl, (Option.some.inj h).symm⟩)
  | goto => cases h

theorem decode_motion {mode : Mode} {use : Motion → Command} (huse : motionUse mode = some use)
    {key : Key} {motion : Motion} (hmotion : motionOf key = some motion) :
    decode mode key = some (use motion) := by
  have hmem := mem_motionTable hmotion
  rcases motionUse_eq_some huse with ⟨rfl, rfl⟩ | ⟨rfl, rfl⟩ | ⟨rfl, rfl⟩
  · have hall : ∀ entry ∈ motionTable, commandTable.lookup entry.1 = none := by decide
    simp only [decode, hall _ hmem, decodeIncluded, hmotion]
  · have hall : ∀ entry ∈ motionTable, entry.1 ≠ lit "d" := by decide
    simp only [decode, if_neg (hall _ hmem), decodeIncluded, hmotion, Option.getD_some]
  · have hall : ∀ entry ∈ motionTable, entry.1 ≠ lit "c" := by decide
    simp only [decode, if_neg (hall _ hmem), decodeIncluded, hmotion, Option.getD_some]

/-- The ways in which a key gives a command outside insert mode. -/
inductive Decoded (mode : Mode) (key : Key) : Command → Prop
  | own {command : Command} (hmem : (key.text, command) ∈ ownTable mode) : Decoded mode key command
  | motion {use : Motion → Command} {motion : Motion} (huse : motionUse mode = some use)
      (hmotion : motionOf key = some motion) : Decoded mode key (use motion)
  | digit {number : ℕ} (hdigit : digitOf key = some number) : Decoded mode key (.digit number)
  | cancel (hmode : mode = .delete ∨ mode = .change) (hdigit : digitOf key = none) :
      Decoded mode key (.enter .command)

theorem decoded_of_included {mode : Mode} {use : Motion → Command}
    (huse : motionUse mode = some use) {key : Key} {command : Command}
    (h : decodeIncluded use key = some command) :
    Decoded mode key command := by
  unfold decodeIncluded at h
  cases hmotion : motionOf key with
  | some motion =>
      simp only [hmotion, Option.some.injEq] at h
      subst h
      exact .motion huse hmotion
  | none =>
      simp only [hmotion, Option.map_eq_some_iff] at h
      obtain ⟨number, hnumber, rfl⟩ := h
      exact .digit hnumber

theorem decoded_of_operator {mode : Mode} {own : JsString} {line : Command}
    {use : Motion → Command} (hmode : mode = .delete ∨ mode = .change)
    (hown : ownTable mode = [(own, line)]) (huse : motionUse mode = some use) {key : Key}
    {command : Command}
    (h : (if key.text = own then some line
      else some ((decodeIncluded use key).getD (.enter .command))) = some command) :
    Decoded mode key command := by
  by_cases hkey : key.text = own
  · rw [if_pos hkey, Option.some.injEq] at h
    apply Decoded.own
    rw [hown, hkey, h]
    exact List.mem_singleton_self _
  · rw [if_neg hkey, Option.some.injEq] at h
    cases hincluded : decodeIncluded use key with
    | some found =>
        rw [hincluded, Option.getD_some] at h
        exact decoded_of_included huse (hincluded.trans (congrArg some h))
    | none =>
        rw [hincluded, Option.getD_none] at h
        subst h
        exact .cancel hmode (digitOf_eq_none_of_included hincluded)

theorem decoded_of_decode {mode : Mode} (hmode : mode ≠ .insert) {key : Key} {command : Command}
    (h : decode mode key = some command) : Decoded mode key command := by
  cases mode with
  | command =>
      unfold decode at h
      cases htable : commandTable.lookup key.text with
      | some found =>
          simp only [htable, Option.some.injEq] at h
          exact .own (h ▸ mem_of_lookup htable)
      | none =>
          simp only [htable] at h
          exact decoded_of_included rfl h
  | insert => exact (hmode rfl).elim
  | delete => exact decoded_of_operator (Or.inl rfl) rfl rfl h
  | change => exact decoded_of_operator (Or.inr rfl) rfl rfl h
  | goto =>
      simp only [decode, Option.ite_none_right_eq_some, Option.some.injEq] at h
      obtain ⟨hkey, rfl⟩ := h
      apply Decoded.own
      rw [hkey]
      exact List.mem_singleton_self _

end CoffeeTable.Editor

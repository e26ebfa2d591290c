import CoffeeTable.Transition.Run
import CoffeeTable.Transition.Timers
import Mathlib.Data.List.Induction

/-!
# Debouncing

A debounced function keeps one timer. Each call clears it and sets it again for
the new arguments, and only when it expires is the function behind it applied.
So the function runs for the last call of a burst alone, after the wait, and
for no call twice. With `immediate` it runs at the first call of a burst
instead, and the timer only marks the end of the burst.
-/

namespace CoffeeTable.Underscore

open Transition

variable {α β : Type*}

inductive Task (α : Type*) where
  | later (args : α)
  /-- A timer of other code on the page. -/
  | other
  deriving DecidableEq

def Task.IsLater (task : Task α) : Prop := ∃ args, task = .later args

inductive Entry (α : Type*) where
  | called (time : ℕ) (args : α)
  | invoked (time : ℕ) (args : α)
  deriving DecidableEq

namespace Entry

def calledWith? : Entry α → Option α
  | .called _ args => some args
  | .invoked _ _ => none

def invokedWith? : Entry α → Option α
  | .called _ _ => none
  | .invoked _ args => some args

end Entry

/-- The arguments of the invocations, in their order. -/
def invocations (log : List (Entry α)) : List α := log.filterMap Entry.invokedWith?

def calls (log : List (Entry α)) : List α := log.filterMap Entry.calledWith?

/-- The closure of a debounced function with the timers of its page. The
function behind it acts on `target`. -/
structure Debounced (α β : Type*) where
  timeout : Option ℕ
  timers : Timers (Task α)
  target : β
  log : List (Entry α)

namespace Debounced

/-- Nothing called yet. -/
def fresh (target : β) : Debounced α β where
  timeout := none
  timers := .empty
  target := target
  log := []

section Closure

variable (func : β → α → β) (wait : ℕ) (immediate : Bool)

def record (d : Debounced α β) (entry : Entry α) : Debounced α β :=
  { d with log := d.log ++ [entry] }

def applyFunc (d : Debounced α β) (args : α) : Debounced α β :=
  { d.record (.invoked d.timers.now args) with target := func d.target args }

def later (d : Debounced α β) (args : α) : Debounced α β :=
  let d := { d with timeout := none }
  if !immediate then d.applyFunc func args else d

/-- `clearTimeout` and `setTimeout` -/
def rearm (d : Debounced α β) (args : α) : Debounced α β :=
  { d with
    timeout := some d.timers.nextId
    timers := (d.timers.clear d.timeout).set wait (.later args) }

/-- The number of a timer is never zero, so `!timeout` asks whether there is none. -/
def call (d : Debounced α β) (args : α) : Debounced α β :=
  let d := d.record (.called d.timers.now args)
  let d := if immediate && d.timeout.isNone then d.applyFunc func args else d
  d.rearm wait args

/-- The loop lets the timer at an index expire, if it is due. -/
def expire (d : Debounced α β) (index : ℕ) : Debounced α β :=
  match d.timers.expire? index with
  | none => d
  | some (timer, timers) =>
      match timer.task with
      | .later args => later func immediate { d with timers := timers } args
      | .other => { d with timers := timers }

inductive Event (α : Type*) where
  | call (args : α)
  | elapse (ms : ℕ)
  | other (delay : ℕ)
  | expire (index : ℕ)

def step (d : Debounced α β) : Event α → Debounced α β
  | .call args => d.call func wait immediate args
  | .elapse ms => { d with timers := d.timers.elapse ms }
  | .other delay => { d with timers := d.timers.set delay .other }
  | .expire index => d.expire func immediate index

end Closure

/-! ## Invoking after the wait -/

variable {func : β → α → β} {wait : ℕ} {d : Debounced α β}

/-- An invocation directly follows its call, by at least the wait. -/
def Follows (wait : ℕ) (log : List (Entry α)) : Prop :=
  ∀ before after time args, log = before ++ .invoked time args :: after →
    ∃ earlier since, before = earlier ++ [.called since args] ∧ since + wait ≤ time

/-- The timer waits for the call at the end of the log, and there is none if
the log does not end with a call. -/
structure Trailing (wait : ℕ) (d : Debounced α β) : Prop where
  owns : d.timers.Owns Task.IsLater d.timeout
  armed : ∀ timer ∈ d.timers.pending, ∀ args, timer.task = .later args →
    ∃ since, d.log.getLast? = some (.called since args) ∧ timer.due = since + wait
  awaited : ∀ since args, d.log.getLast? = some (.called since args) → d.timeout.isSome
  le_now : ∀ since args, d.log.getLast? = some (.called since args) → since ≤ d.timers.now
  follows : Follows wait d.log
  paced : wait * (invocations d.log).length ≤ d.timers.now
  paced_call : ∀ since args, d.log.getLast? = some (.called since args) →
    wait * (invocations d.log).length ≤ since

@[simp] theorem invocations_append (log log' : List (Entry α)) :
    invocations (log ++ log') = invocations log ++ invocations log' := List.filterMap_append

@[simp] theorem invocations_called (time : ℕ) (args : α) :
    invocations [Entry.called time args] = [] := rfl

@[simp] theorem invocations_invoked (time : ℕ) (args : α) :
    invocations [Entry.invoked time args] = [args] := rfl

@[simp] theorem calls_append (log log' : List (Entry α)) :
    calls (log ++ log') = calls log ++ calls log' := List.filterMap_append

@[simp] theorem calls_called (time : ℕ) (args : α) : calls [Entry.called time args] = [args] := rfl

@[simp] theorem calls_invoked (time : ℕ) (args : α) : calls [Entry.invoked time args] = [] := rfl

theorem follows_nil : Follows wait ([] : List (Entry α)) := by
  intro before after time args h
  simp at h

/-- An entry of a longer log stands in the log before or is the last one. -/
theorem append_singleton_cases {log before after : List (Entry α)} {entry e : Entry α}
    (h : log ++ [entry] = before ++ e :: after) :
    (∃ rest, log = before ++ e :: rest) ∨ (before = log ∧ e = entry) := by
  rcases List.eq_nil_or_concat' after with rfl | ⟨rest, last, rfl⟩
  · obtain ⟨rfl, hsame⟩ := List.append_inj' h rfl
    exact Or.inr ⟨rfl, (List.cons_eq_cons.mp hsame).1.symm⟩
  · rw [← List.cons_append, ← List.append_assoc] at h
    exact Or.inl ⟨rest, (List.append_inj' h rfl).1⟩

theorem Follows.called {log : List (Entry α)} (h : Follows wait log) (time : ℕ) (args : α) :
    Follows wait (log ++ [.called time args]) := by
  intro before after time' args' heq
  rcases append_singleton_cases heq with ⟨rest, hlog⟩ | ⟨-, hentry⟩
  · exact h before rest time' args' hlog
  · cases hentry

theorem Follows.invoked {log : List (Entry α)} (h : Follows wait log) {since time : ℕ} {args : α}
    (hlast : log.getLast? = some (.called since args)) (hwait : since + wait ≤ time) :
    Follows wait (log ++ [.invoked time args]) := by
  intro before after time' args' heq
  rcases append_singleton_cases heq with ⟨rest, hlog⟩ | ⟨rfl, hentry⟩
  · exact h before rest time' args' hlog
  · cases hentry
    obtain ⟨earlier, hearlier⟩ := List.getLast?_eq_some_iff.mp hlast
    exact ⟨earlier, since, hearlier, hwait⟩

theorem Follows.of_append {log log' : List (Entry α)} (h : Follows wait (log ++ log')) :
    Follows wait log := by
  intro before after time args heq
  exact h before (after ++ log') time args (by rw [heq, List.append_assoc, List.cons_append])

/-- Calls are dropped and the others kept in their order. -/
theorem Follows.sublist {log : List (Entry α)} (h : Follows wait log) :
    (invocations log).Sublist (calls log) := by
  induction hlength : log.length using Nat.strongRecOn generalizing log with
  | _ length ih =>
      rcases List.eq_nil_or_concat' log with rfl | ⟨before, entry, rfl⟩
      · exact List.Sublist.slnil
      · cases entry with
        | called since args =>
            have hbefore := ih before.length (by simp [← hlength]) h.of_append rfl
            simpa using hbefore.trans (List.sublist_append_left _ _)
        | invoked time args =>
            obtain ⟨earlier, since, rfl, -⟩ := h before [] time args rfl
            have hearlier := ih earlier.length (by simp [← hlength]) h.of_append.of_append rfl
            rw [invocations_append, invocations_append, calls_append, calls_append,
              invocations_called, invocations_invoked, calls_called, calls_invoked,
              List.append_nil, List.append_nil]
            exact hearlier.append (List.Sublist.refl _)

theorem trailing_fresh (target : β) : Trailing wait (fresh target : Debounced α β) where
  owns := Timers.owns_empty
  armed := by simp [fresh, Timers.empty]
  awaited := by simp [fresh]
  le_now := by simp [fresh]
  follows := follows_nil
  paced := by simp [fresh, invocations]
  paced_call := by simp [fresh]

theorem call_trailing (args : α) : d.call func wait false args =
    (d.record (.called d.timers.now args)).rearm wait args := rfl

theorem calls_expire (index : ℕ) : calls (d.expire func false index).log = calls d.log := by
  unfold Debounced.expire
  cases d.timers.expire? index with
  | none => rfl
  | some result =>
      obtain ⟨⟨id, due, task⟩, timers⟩ := result
      cases task with
      | later args => simp [Debounced.later, applyFunc, record]
      | other => rfl

theorem later_trailing (args : α) :
    d.later func false args = applyFunc func { d with timeout := none } args := rfl

theorem Trailing.call (h : Trailing wait d) (args : α) :
    Trailing wait (d.call func wait false args) := by
  rw [call_trailing]
  refine ⟨h.owns.rearm wait ⟨args, rfl⟩, fun timer htimer args' htask ↦ ?_, fun _ _ _ ↦ rfl,
    fun since args' hlast ↦ ?_, h.follows.called _ _, ?_, fun since args' hlast ↦ ?_⟩
  · rcases Timers.mem_set.mp htimer with htimer | rfl
    · obtain ⟨hmem, hne⟩ := Timers.mem_clear.mp htimer
      exact (hne (h.owns.handle_eq timer hmem ⟨args', htask⟩).symm).elim
    · cases htask
      exact ⟨d.timers.now, by simp [rearm, record], rfl⟩
  · obtain ⟨rfl, -⟩ : d.timers.now = since ∧ args = args' := by simpa [rearm, record] using hlast
    exact Nat.le_refl _
  · simpa [rearm, record] using h.paced
  · obtain ⟨rfl, -⟩ : d.timers.now = since ∧ args = args' := by simpa [rearm, record] using hlast
    simpa [rearm, record] using h.paced

theorem Trailing.later (h : Trailing wait d) {index : ℕ} {timer : Timer (Task α)}
    {timers : Timers (Task α)} (hexpire : d.timers.expire? index = some (timer, timers)) {args : α}
    (htask : timer.task = .later args) :
    Trailing wait (Debounced.later func false { d with timers := timers } args) := by
  obtain ⟨hnow, hdue, htimer, hrest⟩ := Timers.expire?_eq_some hexpire
  obtain ⟨since, hlast, hsince⟩ := h.armed timer htimer args htask
  have howns : timers.Owns Task.IsLater none := h.owns.expire hexpire ⟨args, htask⟩
  have hwait : since + wait ≤ timers.now := by
    rw [hnow, ← hsince]
    exact hdue
  rw [later_trailing]
  have hend (since' : ℕ) (args' : α) : (d.log ++ [Entry.invoked timers.now args]).getLast? ≠
      some (.called since' args') := by simp
  refine ⟨howns, fun other hother args' htask' ↦ ?_, fun _ _ hlast' ↦ (hend _ _ hlast').elim,
    fun _ _ hlast' ↦ (hend _ _ hlast').elim, h.follows.invoked hlast hwait, ?_,
    fun _ _ hlast' ↦ (hend _ _ hlast').elim⟩
  · have hnone := howns.handle_eq other hother ⟨args', htask'⟩
    cases hnone
  · have hpaced := h.paced_call since args hlast
    simp only [applyFunc, record, invocations_append, invocations_invoked, List.length_append,
      List.length_singleton, Nat.mul_add, Nat.mul_one]
    omega

theorem Trailing.expire (h : Trailing wait d) (index : ℕ) :
    Trailing wait (d.expire func false index) := by
  cases hexpire : d.timers.expire? index with
  | none => simpa only [Debounced.expire, hexpire] using h
  | some result =>
      obtain ⟨timer, timers⟩ := result
      cases htask : timer.task with
      | later args =>
          simpa only [Debounced.expire, hexpire, htask] using h.later hexpire htask
      | other =>
          obtain ⟨hnow, -, -, hrest⟩ := Timers.expire?_eq_some hexpire
          have hother : ¬ timer.task.IsLater := by
            rintro ⟨args, hargs⟩
            cases htask.symm.trans hargs
          simp only [Debounced.expire, hexpire, htask]
          refine ⟨h.owns.expire_other hexpire hother, fun left hleft ↦ ?_, h.awaited,
            by simpa [hnow] using h.le_now, h.follows, by simpa [hnow] using h.paced, h.paced_call⟩
          exact h.armed left ((hrest left).mp hleft).1

theorem Trailing.other (h : Trailing wait d) (delay : ℕ) :
    Trailing wait { d with timers := d.timers.set delay .other } := by
  have hother : ¬ (Task.other : Task α).IsLater := by
    rintro ⟨args, hargs⟩
    cases hargs
  refine ⟨h.owns.set delay hother, fun timer htimer args htask ↦ ?_, h.awaited, h.le_now,
    h.follows, h.paced, h.paced_call⟩
  rcases Timers.mem_set.mp htimer with htimer | rfl
  · exact h.armed timer htimer args htask
  · cases htask

theorem Trailing.elapse (h : Trailing wait d) (ms : ℕ) :
    Trailing wait { d with timers := d.timers.elapse ms } :=
  ⟨h.owns.elapse ms, h.armed, h.awaited,
    fun since args hlast ↦ Nat.le_trans (h.le_now since args hlast) (Nat.le_add_right _ _),
    h.follows, Nat.le_trans h.paced (Nat.le_add_right _ _), h.paced_call⟩

theorem Trailing.step (h : Trailing wait d) (event : Event α) :
    Trailing wait (d.step func wait false event) := by
  cases event with
  | call args => exact h.call args
  | elapse ms => exact h.elapse ms
  | other delay => exact h.other delay
  | expire index => exact h.expire index

/-- While the log ends with a call, the one timer of the closure waits for it. -/
theorem Trailing.exists_timer (h : Trailing wait d) {since : ℕ} {args : α}
    (hlast : d.log.getLast? = some (.called since args)) :
    ∃ timer ∈ d.timers.pending, timer.task = .later args ∧ timer.due = since + wait ∧
      ∀ other ∈ d.timers.pending, other.task.IsLater → other = timer := by
  obtain ⟨id, hid⟩ := Option.isSome_iff_exists.mp (h.awaited since args hlast)
  obtain ⟨timer, htimer, -, args', htask⟩ := h.owns.exists_timer id hid
  obtain ⟨since', hlast', hdue⟩ := h.armed timer htimer args' htask
  obtain ⟨rfl, rfl⟩ : since = since' ∧ args = args' := by
    simpa using Option.some.inj (hlast.symm.trans hlast')
  exact ⟨timer, htimer, htask, hdue, fun other hother hlater ↦
    h.owns.unique hother htimer hlater ⟨args, htask⟩⟩

/-- The closure knows a number exactly while the log ends with a call. -/
theorem Trailing.timeout_isSome_iff (h : Trailing wait d) :
    d.timeout.isSome ↔ ∃ since args, d.log.getLast? = some (.called since args) := by
  constructor
  · intro hsome
    obtain ⟨id, hid⟩ := Option.isSome_iff_exists.mp hsome
    obtain ⟨timer, htimer, -, args, htask⟩ := h.owns.exists_timer id hid
    obtain ⟨since, hlast, -⟩ := h.armed timer htimer args htask
    exact ⟨since, args, hlast⟩
  · rintro ⟨since, args, hlast⟩
    exact h.awaited since args hlast

/-- With the timer off, the function was last applied to the last call. -/
theorem Trailing.getLast?_of_off (h : Trailing wait d) (hoff : d.timeout = none)
    (hne : calls d.log ≠ []) :
    ∃ args, (calls d.log).getLast? = some args ∧ (invocations d.log).getLast? = some args := by
  have hlog : d.log ≠ [] := by
    intro hnil
    rw [hnil] at hne
    exact hne rfl
  obtain ⟨before, entry, hentry⟩ := (List.eq_nil_or_concat' d.log).resolve_left hlog
  cases entry with
  | called since args =>
      have hlast : d.log.getLast? = some (.called since args) := by
        rw [hentry, List.getLast?_concat]
      have hon := h.awaited since args hlast
      rw [hoff] at hon
      cases hon
  | invoked time args =>
      obtain ⟨earlier, since, rfl, -⟩ := h.follows before [] time args hentry
      refine ⟨args, ?_, ?_⟩
      · rw [hentry, calls_append, calls_append, calls_called, calls_invoked, List.append_nil,
          List.getLast?_concat]
      · rw [hentry, invocations_append, invocations_invoked, List.getLast?_concat]

theorem Trailing.not_isLater (h : Trailing wait d)
    (hlast : ∀ since args, d.log.getLast? ≠ some (.called since args)) {timer : Timer (Task α)}
    (htimer : timer ∈ d.timers.pending) : ¬ timer.task.IsLater := by
  rintro ⟨args, htask⟩
  obtain ⟨since, hcall, -⟩ := h.armed timer htimer args htask
  exact hlast since args hcall

/-- After the wait the loop can invoke the function for the last call. -/
theorem Trailing.exists_expire (h : Trailing wait d) {since : ℕ} {args : α}
    (hlast : d.log.getLast? = some (.called since args)) :
    ∃ index, ([.elapse wait, .expire index].foldl (Debounced.step func wait false) d).log =
      d.log ++ [.invoked (d.timers.now + wait) args] := by
  obtain ⟨timer, htimer, htask, hdue, -⟩ := h.exists_timer hlast
  have hle := h.le_now since args hlast
  have hpending : timer ∈ (d.timers.elapse wait).pending := htimer
  have hready : timer.due ≤ (d.timers.elapse wait).now := by
    rw [hdue, Timers.now_elapse]
    omega
  obtain ⟨index, rest, hexpire⟩ := Timers.exists_expire? hpending hready
  have hnow : rest.now = d.timers.now + wait := (Timers.expire?_eq_some hexpire).1
  refine ⟨index, ?_⟩
  simp only [List.foldl_cons, List.foldl_nil, Debounced.step, Debounced.expire, hexpire, htask,
    later_trailing, applyFunc, record, hnow]

/-! ## Runs -/

def run (func : β → α → β) (wait : ℕ) (target : β) (events : List (Event α)) : Debounced α β :=
  events.foldl (step func wait false) (fresh target)

def Event.args? : Event α → Option α
  | .call args => some args
  | _ => none

/-- The log records the calls, and the function behind has been applied to the
arguments of the invocations. -/
structure Records (func : β → α → β) (target : β) (d : Debounced α β) (made : List α) :
    Prop where
  calls_eq : calls d.log = made
  target_eq : d.target = (invocations d.log).foldl func target

/-- What a step adds to the log. -/
theorem step_adds (func : β → α → β) (wait : ℕ) (d : Debounced α β) (event : Event α) :
    calls (d.step func wait false event).log = calls d.log ++ event.args?.toList ∧
      ∃ args : Option α,
        invocations (d.step func wait false event).log = invocations d.log ++ args.toList ∧
        (d.step func wait false event).target = args.toList.foldl func d.target := by
  cases event with
  | call args =>
      refine ⟨?_, none, ?_, rfl⟩
      · simp [step, call_trailing, rearm, record, Event.args?]
      · simp [step, call_trailing, rearm, record]
  | elapse ms => exact ⟨(List.append_nil _).symm, none, (List.append_nil _).symm, rfl⟩
  | other delay => exact ⟨(List.append_nil _).symm, none, (List.append_nil _).symm, rfl⟩
  | expire index =>
      refine ⟨by simpa [step, Event.args?] using calls_expire index, ?_⟩
      simp only [step, Debounced.expire]
      cases d.timers.expire? index with
      | none => exact ⟨none, (List.append_nil _).symm, rfl⟩
      | some result =>
          obtain ⟨⟨id, due, task⟩, timers⟩ := result
          cases task with
          | other => exact ⟨none, (List.append_nil _).symm, rfl⟩
          | later args => exact ⟨some args, by simp [later_trailing, applyFunc, record], rfl⟩

theorem records_step {target : β} {made : List α} (h : Records func target d made)
    (event : Event α) :
    Records func target (d.step func wait false event) (made ++ event.args?.toList) := by
  obtain ⟨hcalls, args, hinvoked, htarget⟩ := step_adds func wait d event
  refine ⟨by rw [hcalls, h.calls_eq], ?_⟩
  rw [htarget, hinvoked, List.foldl_append, ← h.target_eq]

theorem records_run (target : β) (events : List (Event α)) :
    Records func target (run func wait target events) (events.filterMap Event.args?) := by
  induction events using List.reverseRecOn with
  | nil => exact ⟨rfl, rfl⟩
  | append_singleton events event ih =>
      have hargs : [event].filterMap Event.args? = event.args?.toList := by
        cases event <;> rfl
      rw [run, List.foldl_concat, List.filterMap_append, hargs]
      exact records_step ih event

theorem trailing_run (target : β) (events : List (Event α)) :
    Trailing wait (run func wait target events) := by
  have hrun : Throughout (step func wait false) (Trailing wait) (fresh target) events :=
    throughout_of_step (fun _ event h ↦ h.step event) (trailing_fresh target) events
  exact hrun.last

/-- Whatever the calls, other timers and delays of the loop: the function is
applied to the calls that are followed by an invocation, each at least the wait
later and before the next call. The last call is never lost: while it is not
followed by an invocation its timer is pending, and no other. -/
theorem debounce_trailing (target : β) (events : List (Event α)) :
    let d := run func wait target events
    calls d.log = events.filterMap Event.args? ∧
    d.target = (invocations d.log).foldl func target ∧
    Follows wait d.log ∧
    (∀ since args, d.log.getLast? = some (.called since args) →
      (∃ timer ∈ d.timers.pending, timer.task = .later args ∧ timer.due = since + wait ∧
        ∀ other ∈ d.timers.pending, other.task.IsLater → other = timer) ∧
      ∃ index, ([.elapse wait, .expire index].foldl (step func wait false) d).log =
        d.log ++ [.invoked (d.timers.now + wait) args]) ∧
    ((∀ since args, d.log.getLast? ≠ some (.called since args)) →
      ∀ timer ∈ d.timers.pending, ¬ timer.task.IsLater) := by
  intro d
  have hrecords : Records func target d (events.filterMap Event.args?) := records_run target events
  have htrailing : Trailing wait d := trailing_run target events
  refine ⟨hrecords.calls_eq, hrecords.target_eq, htrailing.follows, fun since args hlast ↦ ?_,
    fun hlast timer htimer ↦ htrailing.not_isLater hlast htimer⟩
  exact ⟨htrailing.exists_timer hlast, htrailing.exists_expire hlast⟩

end Debounced

end CoffeeTable.Underscore

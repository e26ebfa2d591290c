import Mathlib.Data.List.Basic
import Mathlib.Data.List.Nodup

/-!
# Timers of an event loop

Setting a timer gives it a fresh number and a time at which it is due. Clearing
a number takes its timer away. The loop may expire any timer that is due, in
any order and however late. A program that keeps the number of its one timer,
clears it before it sets another and forgets it when it expires has that timer
pending exactly as long as it knows a number.
-/

namespace CoffeeTable.Transition

variable {τ : Type*}

structure Timer (τ : Type*) where
  id : ℕ
  due : ℕ
  task : τ
  deriving DecidableEq

structure Timers (τ : Type*) where
  now : ℕ
  nextId : ℕ
  pending : List (Timer τ)
  id_lt : ∀ timer ∈ pending, timer.id < nextId
  nodup : (pending.map Timer.id).Nodup

namespace Timers

def empty : Timers τ where
  now := 0
  nextId := 1
  pending := []
  id_lt := by simp
  nodup := List.nodup_nil

def elapse (timers : Timers τ) (ms : ℕ) : Timers τ := { timers with now := timers.now + ms }

/-- The new timer has the number `nextId`. -/
def set (timers : Timers τ) (delay : ℕ) (task : τ) : Timers τ where
  now := timers.now
  nextId := timers.nextId + 1
  pending := timers.pending ++ [⟨timers.nextId, timers.now + delay, task⟩]
  id_lt := by
    intro timer htimer
    rcases List.mem_append.mp htimer with htimer | htimer
    · exact Nat.lt_succ_of_lt (timers.id_lt timer htimer)
    · rw [List.mem_singleton.mp htimer]
      exact Nat.lt_succ_self _
  nodup := by
    rw [List.map_append, List.map_singleton]
    refine timers.nodup.append (List.nodup_singleton _) ?_
    rw [List.disjoint_singleton]
    intro hmem
    obtain ⟨timer, htimer, hid⟩ := List.mem_map.mp hmem
    exact absurd hid (Nat.ne_of_lt (timers.id_lt timer htimer))

/-- Clearing no number does nothing. -/
def clear (timers : Timers τ) (id : Option ℕ) : Timers τ where
  now := timers.now
  nextId := timers.nextId
  pending := timers.pending.filter fun timer ↦ some timer.id ≠ id
  id_lt := fun timer htimer ↦ timers.id_lt timer (List.mem_of_mem_filter htimer)
  nodup := timers.nodup.sublist (List.filter_sublist.map Timer.id)

def remove (timers : Timers τ) (index : ℕ) : Timers τ where
  now := timers.now
  nextId := timers.nextId
  pending := timers.pending.eraseIdx index
  id_lt := fun timer htimer ↦ timers.id_lt timer (List.mem_of_mem_eraseIdx htimer)
  nodup := timers.nodup.sublist ((List.eraseIdx_sublist _ _).map Timer.id)

/-- Takes the timer at an index, if it is due. -/
def expire? (timers : Timers τ) (index : ℕ) : Option (Timer τ × Timers τ) :=
  match timers.pending[index]? with
  | none => none
  | some timer => if timer.due ≤ timers.now then some (timer, timers.remove index) else none

variable {timers rest : Timers τ} {timer other : Timer τ} {handle : Option ℕ}

@[simp] theorem now_elapse (ms : ℕ) : (timers.elapse ms).now = timers.now + ms := rfl

@[simp] theorem now_set (delay : ℕ) (task : τ) : (timers.set delay task).now = timers.now := rfl

@[simp] theorem now_clear : (timers.clear handle).now = timers.now := rfl

@[simp] theorem nextId_clear : (timers.clear handle).nextId = timers.nextId := rfl

@[simp] theorem mem_elapse {ms : ℕ} :
    timer ∈ (timers.elapse ms).pending ↔ timer ∈ timers.pending := Iff.rfl

@[simp] theorem mem_set {delay : ℕ} {task : τ} : timer ∈ (timers.set delay task).pending ↔
    timer ∈ timers.pending ∨ timer = ⟨timers.nextId, timers.now + delay, task⟩ := by
  rw [set, List.mem_append, List.mem_singleton]

@[simp] theorem mem_clear :
    timer ∈ (timers.clear handle).pending ↔
      timer ∈ timers.pending ∧ some timer.id ≠ handle := by
  rw [clear, List.mem_filter, decide_eq_true_eq]

theorem eq_of_id (htimer : timer ∈ timers.pending) (hother : other ∈ timers.pending)
    (h : timer.id = other.id) : timer = other :=
  List.inj_on_of_nodup_map timers.nodup htimer hother h

/-- What expires was pending and due, and all other timers stay. -/
theorem expire?_eq_some {index : ℕ} (h : timers.expire? index = some (timer, rest)) :
    rest.now = timers.now ∧ timer.due ≤ timers.now ∧ timer ∈ timers.pending ∧
      ∀ other, other ∈ rest.pending ↔ other ∈ timers.pending ∧ other ≠ timer := by
  unfold expire? at h
  split at h
  · cases h
  · next taken hget =>
      split_ifs at h with hdue
      obtain ⟨rfl, rfl⟩ := Prod.mk.inj (Option.some.inj h)
      have hmem : taken ∈ timers.pending := List.mem_of_getElem? hget
      have hnodup : timers.pending.Nodup := timers.nodup.of_map Timer.id
      obtain ⟨hlt, hat⟩ := List.getElem?_eq_some_iff.mp hget
      refine ⟨rfl, hdue, hmem, fun other ↦ ?_⟩
      rw [remove, List.mem_eraseIdx_iff_getElem?, ← hat]
      constructor
      · rintro ⟨i, hne, hi⟩
        obtain ⟨hilt, rfl⟩ := List.getElem?_eq_some_iff.mp hi
        exact ⟨List.getElem_mem hilt, fun hsame ↦ hne ((hnodup.getElem_inj_iff).mp hsame)⟩
      · rintro ⟨hother, hne⟩
        obtain ⟨i, hilt, rfl⟩ := List.getElem_of_mem hother
        refine ⟨i, ?_, List.getElem?_eq_getElem hilt⟩
        rintro rfl
        exact hne rfl

/-- A pending timer that is due can expire. -/
theorem exists_expire? (htimer : timer ∈ timers.pending) (hdue : timer.due ≤ timers.now) :
    ∃ index rest, timers.expire? index = some (timer, rest) := by
  obtain ⟨index, hget⟩ := List.mem_iff_getElem?.mp htimer
  refine ⟨index, timers.remove index, ?_⟩
  simp only [expire?, hget, if_pos hdue]

/-! ## The timer whose number a program keeps -/

section Owned

variable (own : τ → Prop)

/-- The timers of the program's own are the one whose number it knows. -/
structure Owns (timers : Timers τ) (handle : Option ℕ) : Prop where
  handle_eq : ∀ timer ∈ timers.pending, own timer.task → handle = some timer.id
  exists_timer : ∀ id, handle = some id →
    ∃ timer ∈ timers.pending, timer.id = id ∧ own timer.task

variable {own}

theorem owns_empty : Owns own (empty : Timers τ) none where
  handle_eq := by simp [empty]
  exists_timer := by simp

theorem Owns.unique (h : timers.Owns own handle) (htimer : timer ∈ timers.pending)
    (hother : other ∈ timers.pending) (hown : own timer.task) (hown' : own other.task) :
    timer = other := by
  have hid := (h.handle_eq timer htimer hown).symm.trans (h.handle_eq other hother hown')
  exact eq_of_id htimer hother (Option.some.inj hid)

theorem Owns.elapse (h : timers.Owns own handle) (ms : ℕ) : (timers.elapse ms).Owns own handle :=
  ⟨h.handle_eq, h.exists_timer⟩

/-- Clearing the known number before setting another keeps one timer. -/
theorem Owns.rearm (h : timers.Owns own handle) (delay : ℕ) {task : τ} (htask : own task) :
    ((timers.clear handle).set delay task).Owns own (some timers.nextId) where
  handle_eq := by
    intro timer htimer hown
    rcases mem_set.mp htimer with htimer | rfl
    · obtain ⟨hmem, hne⟩ := mem_clear.mp htimer
      exact (hne (h.handle_eq timer hmem hown).symm).elim
    · rfl
  exists_timer := by
    intro id hid
    exact ⟨_, mem_set.mpr (Or.inr rfl), Option.some.inj hid, htask⟩

theorem Owns.set (h : timers.Owns own handle) (delay : ℕ) {task : τ} (htask : ¬ own task) :
    (timers.set delay task).Owns own handle where
  handle_eq := by
    intro timer htimer hown
    rcases mem_set.mp htimer with htimer | rfl
    · exact h.handle_eq timer htimer hown
    · exact (htask hown).elim
  exists_timer := by
    intro id hid
    obtain ⟨timer, htimer, hidentical, hown⟩ := h.exists_timer id hid
    exact ⟨timer, mem_set.mpr (Or.inl htimer), hidentical, hown⟩

/-- The number is forgotten when the program's own timer expires. -/
theorem Owns.expire (h : timers.Owns own handle) {index : ℕ}
    (hexpire : timers.expire? index = some (timer, rest)) (hown : own timer.task) :
    rest.Owns own none where
  handle_eq := by
    intro other hother hown'
    obtain ⟨-, -, htimer, hrest⟩ := expire?_eq_some hexpire
    obtain ⟨hmem, hne⟩ := (hrest other).mp hother
    exact (hne (h.unique hmem htimer hown' hown)).elim
  exists_timer := by simp

theorem Owns.expire_other (h : timers.Owns own handle) {index : ℕ}
    (hexpire : timers.expire? index = some (timer, rest)) (hown : ¬ own timer.task) :
    rest.Owns own handle where
  handle_eq := by
    intro other hother
    obtain ⟨-, -, -, hrest⟩ := expire?_eq_some hexpire
    exact h.handle_eq other ((hrest other).mp hother).1
  exists_timer := by
    intro id hid
    obtain ⟨-, -, -, hrest⟩ := expire?_eq_some hexpire
    obtain ⟨other, hother, hidentical, hown'⟩ := h.exists_timer id hid
    have hne : other ≠ timer := by
      rintro rfl
      exact hown hown'
    exact ⟨other, (hrest other).mpr ⟨hother, hne⟩, hidentical, hown'⟩

end Owned

end Timers

end CoffeeTable.Transition

import Mathlib.Data.List.Basic

/-!
# Writes in flight

Messages are sent one after another and taken in any order. A channel keeps
everything sent, the positions of what is still in flight, and the position of
the message taken last. Nothing is lost: as long as no message was taken, all
of them are in flight. If messages are taken in the order in which they were
sent, an empty channel has taken the newest one last.
-/

namespace CoffeeTable.Transition

variable {α : Type*}

structure Channel (α : Type*) where
  sent : List α
  inFlight : List ℕ
  taken : Option ℕ
  inFlight_lt : ∀ n ∈ inFlight, n < sent.length
  taken_lt : ∀ n ∈ taken, n < sent.length
  length_of_none : taken = none → inFlight.length = sent.length

namespace Channel

def empty : Channel α where
  sent := []
  inFlight := []
  taken := none
  inFlight_lt := by simp
  taken_lt := by simp
  length_of_none := fun _ ↦ rfl

def send (c : Channel α) (a : α) : Channel α where
  sent := c.sent ++ [a]
  inFlight := c.inFlight ++ [c.sent.length]
  taken := c.taken
  inFlight_lt := by
    intro n hn
    rw [List.length_append, List.length_singleton]
    rcases List.mem_append.mp hn with hn | hn
    · exact Nat.lt_succ_of_lt (c.inFlight_lt n hn)
    · rw [List.mem_singleton.mp hn]
      exact Nat.lt_succ_self _
  taken_lt := by
    intro n hn
    rw [List.length_append, List.length_singleton]
    exact Nat.lt_succ_of_lt (c.taken_lt n hn)
  length_of_none := fun hnone ↦ by simp [c.length_of_none hnone]

def take? (c : Channel α) (i : ℕ) : Option (α × Channel α) :=
  if h : i < c.inFlight.length then
    let position := c.inFlight.get ⟨i, h⟩
    have hlt : position < c.sent.length := c.inFlight_lt position (List.get_mem _ _)
    some (c.sent.get ⟨position, hlt⟩,
      { sent := c.sent
        inFlight := c.inFlight.eraseIdx i
        taken := some position
        inFlight_lt := fun n hn ↦ c.inFlight_lt n (List.mem_of_mem_eraseIdx hn)
        taken_lt := fun n hn ↦ Option.some.inj hn ▸ hlt
        length_of_none := fun hnone ↦ by cases hnone })
  else none

variable {c d : Channel α} {a : α}

@[simp] theorem sent_send : (c.send a).sent = c.sent ++ [a] := rfl

@[simp] theorem inFlight_send : (c.send a).inFlight = c.inFlight ++ [c.sent.length] := rfl

theorem take?_eq_some {i : ℕ} (h : c.take? i = some (a, d)) :
    d.sent = c.sent ∧ d.inFlight = c.inFlight.eraseIdx i ∧
      ∃ n, c.inFlight[i]? = some n ∧ d.taken = some n ∧ c.sent[n]? = some a := by
  unfold take? at h
  split at h
  · next hlt =>
      obtain ⟨rfl, rfl⟩ := Prod.mk.inj (Option.some.inj h)
      exact ⟨rfl, rfl, c.inFlight.get ⟨i, hlt⟩, by simp, rfl, by simp⟩
  · cases h

theorem exists_taken (hflight : c.inFlight = []) (hsent : c.sent ≠ []) : ∃ n, c.taken = some n := by
  cases htaken : c.taken with
  | some n => exact ⟨n, rfl⟩
  | none =>
      have hlength := c.length_of_none htaken
      rw [hflight, List.length_nil] at hlength
      exact (hsent (List.length_eq_zero_iff.mp hlength.symm)).elim

/-- What is in flight follows what was taken, in the order of sending. -/
def InOrder (c : Channel α) : Prop :=
  ∃ start, c.inFlight = List.range' start c.inFlight.length ∧
    start + c.inFlight.length = c.sent.length ∧ ∀ n, c.taken = some n → n + 1 = start

theorem inOrder_empty : (empty : Channel α).InOrder := ⟨0, rfl, rfl, by simp [empty]⟩

theorem InOrder.send (h : c.InOrder) (a : α) : (c.send a).InOrder := by
  obtain ⟨start, hflight, hlength, htaken⟩ := h
  refine ⟨start, ?_, ?_, htaken⟩
  · rw [inFlight_send, List.length_append, List.length_singleton, List.range'_concat, ← hflight,
      Nat.one_mul, hlength]
  · rw [inFlight_send, sent_send, List.length_append, List.length_append, ← hlength]
    rfl

theorem InOrder.take (h : c.InOrder) (htake : c.take? 0 = some (a, d)) : d.InOrder := by
  obtain ⟨start, hflight, hlength, -⟩ := h
  obtain ⟨hsent, hrest, n, hn, htaken, -⟩ := take?_eq_some htake
  cases hcase : c.inFlight with
  | nil => simp [hcase] at hn
  | cons first rest =>
      rw [hcase] at hflight hlength hrest hn
      rw [List.length_cons, List.range'_succ, List.cons_eq_cons] at hflight
      obtain ⟨rfl, htail⟩ := hflight
      obtain rfl : first = n := by simpa using hn
      have hd : d.inFlight = rest := hrest
      refine ⟨first + 1, ?_, ?_, ?_⟩
      · rw [hd]
        exact htail
      · rw [hd, hsent, ← hlength, List.length_cons]
        omega
      · intro m hm
        rw [htaken, Option.some.injEq] at hm
        rw [hm]

/-- Taken in order and nothing in flight: the newest message was taken last. -/
theorem InOrder.taken_succ (h : c.InOrder) (hflight : c.inFlight = []) {n : ℕ}
    (hn : c.taken = some n) : n + 1 = c.sent.length := by
  obtain ⟨start, -, hlength, htaken⟩ := h
  rw [hflight, List.length_nil, Nat.add_zero] at hlength
  rw [htaken n hn, hlength]

end Channel

end CoffeeTable.Transition

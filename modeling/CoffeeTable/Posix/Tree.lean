import CoffeeTable.Posix.Path

/-!
# Trees of directories and files

A tree says which node stands at a list of names below the root. Whatever has a
node stands in a directory, and a directory lists exactly the names that have
nodes in it. Writing puts a file into an existing directory, in the place of
another file or as a new entry, and changes no other node. Links are left out:
every node has one place.
-/

namespace CoffeeTable.Posix

inductive Node (β : Type*) where
  | directory
  | file (content : β)
  deriving DecidableEq

structure Tree {α : Type*} (sep dot : α) (β : Type*) where
  node : List (List α) → Option (Node β)
  names : List (List α) → List (List α)
  root_eq : node [] = some .directory
  parent_eq : ∀ {parts name}, node (parts ++ [name]) ≠ none → node parts = some .directory
  entry : ∀ {parts name}, node (parts ++ [name]) ≠ none → Entry sep dot name
  mem_names : ∀ {parts name}, name ∈ names parts ↔ node (parts ++ [name]) ≠ none

namespace Tree

variable {α β : Type*} {sep dot : α} (t : Tree sep dot β) {parts : List (List α)} {content : β}

/-- A place for a file: in a directory, and not that of a directory. -/
structure Writable (parts : List (List α)) : Prop where
  ne_nil : parts ≠ []
  parent_eq : t.node parts.dropLast = some .directory
  node_ne : t.node parts ≠ some .directory
  entry : Entry sep dot (parts.getLast ne_nil)

variable {t}

theorem Writable.split (h : t.Writable parts) :
    parts = parts.dropLast ++ [parts.getLast h.ne_nil] :=
  (List.dropLast_append_getLast h.ne_nil).symm

theorem writable_append_iff {name : List α} :
    t.Writable (parts ++ [name]) ↔ t.node parts = some .directory ∧
      t.node (parts ++ [name]) ≠ some .directory ∧ Entry sep dot name := by
  constructor
  · intro h
    have hparent := h.parent_eq
    have hentry := h.entry
    rw [List.dropLast_concat] at hparent
    rw [List.getLast_append_singleton] at hentry
    exact ⟨hparent, h.node_ne, hentry⟩
  · rintro ⟨hparent, hnode, hentry⟩
    refine ⟨by simp, ?_, hnode, ?_⟩
    · rwa [List.dropLast_concat]
    · rwa [List.getLast_append_singleton]

/-- Every node is reached from the root through directories. -/
theorem node_of_prefix {dir rest : List (List α)} (h : t.node (dir ++ rest) ≠ none)
    (hrest : rest ≠ []) : t.node dir = some .directory := by
  induction rest generalizing dir with
  | nil => exact (hrest rfl).elim
  | cons name rest ih =>
      have hsplit : dir ++ name :: rest = dir ++ [name] ++ rest := by simp
      by_cases hlast : rest = []
      · subst hlast
        exact t.parent_eq h
      · rw [hsplit] at h
        have hnext : t.node (dir ++ [name]) ≠ none := by
          rw [ih h hlast]
          exact Option.some_ne_none _
        exact t.parent_eq hnext

variable [DecidableEq α]

instance (name : List α) : Decidable (Entry sep dot name) :=
  decidable_of_iff (name ≠ [] ∧ name ≠ [dot] ∧ name ≠ [dot, dot] ∧ sep ∉ name)
    ⟨fun h ↦ ⟨h.1, h.2.1, h.2.2.1, h.2.2.2⟩,
      fun h ↦ ⟨h.ne_nil, h.ne_current, h.ne_parent, h.sep_notMem⟩⟩

instance [DecidableEq β] (parts : List (List α)) : Decidable (t.Writable parts) :=
  decidable_of_iff (∃ h : parts ≠ [], t.node parts.dropLast = some .directory ∧
      t.node parts ≠ some .directory ∧ Entry sep dot (parts.getLast h))
    ⟨fun ⟨hne, hparent, hnode, hentry⟩ ↦ ⟨hne, hparent, hnode, hentry⟩,
      fun h ↦ ⟨h.ne_nil, h.parent_eq, h.node_ne, h.entry⟩⟩

/-- A node in the place of a file or of none. -/
def attach (t : Tree sep dot β) (parts : List (List α)) (node : Node β) (h : t.Writable parts) :
    Tree sep dot β where
  node := Function.update t.node parts (some node)
  names other :=
    if other = parts.dropLast ∧ t.node parts = none then t.names other ++ [parts.getLast h.ne_nil]
    else t.names other
  root_eq := by
    rw [Function.update_of_ne h.ne_nil.symm]
    exact t.root_eq
  parent_eq := by
    intro other name hname
    have hdirectory : t.node other = some .directory := by
      by_cases heq : other ++ [name] = parts
      · subst heq
        exact (writable_append_iff.mp h).1
      · rw [Function.update_of_ne heq] at hname
        exact t.parent_eq hname
    have hne : other ≠ parts := by
      rintro rfl
      exact h.node_ne hdirectory
    rwa [Function.update_of_ne hne]
  entry := by
    intro other name hname
    by_cases heq : other ++ [name] = parts
    · subst heq
      exact (writable_append_iff.mp h).2.2
    · rw [Function.update_of_ne heq] at hname
      exact t.entry hname
  mem_names := by
    intro other name
    by_cases heq : other ++ [name] = parts
    · subst heq
      rw [Function.update_self, List.dropLast_concat, List.getLast_append_singleton]
      refine iff_of_true ?_ (Option.some_ne_none _)
      by_cases hnode : t.node (other ++ [name]) = none
      · rw [if_pos ⟨rfl, hnode⟩]
        exact List.mem_append_right _ (List.mem_singleton_self _)
      · rw [if_neg fun hand ↦ hnode hand.2]
        exact t.mem_names.mpr hnode
    · rw [Function.update_of_ne heq, ← t.mem_names]
      split_ifs with hcond
      · -- The new name is another one, since its path is another.
        have hne : name ≠ parts.getLast h.ne_nil := by
          rintro rfl
          rw [hcond.1] at heq
          exact heq h.split.symm
        simp [hne]
      · rfl

def write (t : Tree sep dot β) (parts : List (List α)) (content : β) (h : t.Writable parts) :
    Tree sep dot β := t.attach parts (.file content) h

theorem node_write (h : t.Writable parts) :
    (t.write parts content h).node = Function.update t.node parts (some (.file content)) := rfl

/-- Writing turns no place into a directory and no directory into a file. -/
theorem directory_write_iff (h : t.Writable parts) (other : List (List α)) :
    (t.write parts content h).node other = some .directory ↔ t.node other = some .directory := by
  rw [node_write]
  by_cases heq : other = parts
  · subst heq
    rw [Function.update_self]
    simp [h.node_ne]
  · rw [Function.update_of_ne heq]

/-- The tree of nothing but the root. -/
def root : Tree sep dot β where
  node parts := if parts = [] then some .directory else none
  names _ := []
  root_eq := rfl
  parent_eq := by simp
  entry := by simp
  mem_names := by simp

section Put

variable [DecidableEq β]

/-- Attaching where that is possible. -/
def put (t : Tree sep dot β) (parts : List (List α)) (node : Node β) : Tree sep dot β :=
  if h : t.Writable parts then t.attach parts node h else t

theorem put_file_of_writable (h : t.Writable parts) :
    t.put parts (.file content) = t.write parts content h := dif_pos h

end Put

end Tree

end CoffeeTable.Posix

import CoffeeTable.Ecma.Text

/-!
# Script arrays

An array carries its dense elements and, apart from them, the properties
written under an integer that is no index. Reading such a property gives the
value back, while `length`, `slice`, `splice` and `join` never see it, and a
clone, which is a slice of the whole, does not have it. A write beyond the end
would leave a hole; it has no value here.
-/

namespace CoffeeTable.Ecma

structure JsArray (α : Type*) where
  elems : List α
  /-- Own properties under negative integers, the latest write first. -/
  props : List (ℤ × α) := []
  deriving DecidableEq

namespace JsArray

variable {α : Type*}

def length (a : JsArray α) : ℤ := a.elems.length

def get? (a : JsArray α) (i : ℤ) : Option α :=
  if i < 0 then a.props.lookup i else a.elems[i.toNat]?

/-- `a[i] = x`. Writing at `length` appends, writing at a negative number adds
a property, and writing past `length` is refused. -/
def set? (a : JsArray α) (i : ℤ) (x : α) : Option (JsArray α) :=
  if i < 0 then some { a with props := (i, x) :: a.props }
  else if i < a.length then some { a with elems := a.elems.set i.toNat x }
  else if i = a.length then some { a with elems := a.elems ++ [x] }
  else none

def clone (a : JsArray α) : JsArray α := ⟨a.elems, []⟩

def splice (a : JsArray α) (start deleteCount : ℤ) (items : List α) : JsArray α :=
  { a with elems := Ecma.splice a.elems start deleteCount items }

@[simp] theorem length_clone (a : JsArray α) : a.clone.length = a.length := rfl

@[simp] theorem elems_clone (a : JsArray α) : a.clone.elems = a.elems := rfl

@[simp] theorem props_clone (a : JsArray α) : a.clone.props = [] := rfl

@[simp] theorem elems_splice (a : JsArray α) (start deleteCount : ℤ) (items : List α) :
    (a.splice start deleteCount items).elems = Ecma.splice a.elems start deleteCount items := rfl

theorem get?_of_nonneg {a : JsArray α} {i : ℤ} (hi : 0 ≤ i) :
    a.get? i = a.elems[i.toNat]? := by
  simp [get?, not_lt.mpr hi]

@[simp] theorem get?_natCast (a : JsArray α) (n : ℕ) : a.get? (n : ℤ) = a.elems[n]? := by
  simp [get?]

theorem get?_clone_of_neg (a : JsArray α) {i : ℤ} (hi : i < 0) : a.clone.get? i = none := by
  simp [get?, hi]

theorem get?_clone_of_nonneg (a : JsArray α) {i : ℤ} (hi : 0 ≤ i) :
    a.clone.get? i = a.get? i := by
  simp [get?, not_lt.mpr hi]

theorem get?_eq_none_of_length_le {a : JsArray α} {i : ℤ} (hi : 0 ≤ i) (h : a.length ≤ i) :
    a.get? i = none := by
  rw [get?_of_nonneg hi, List.getElem?_eq_none]
  unfold length at h
  omega

theorem exists_get?_eq_some {a : JsArray α} {i : ℤ} (hi : 0 ≤ i) (h : i < a.length) :
    ∃ x, a.get? i = some x := by
  have hlt : i.toNat < a.elems.length := by
    unfold length at h
    omega
  exact ⟨a.elems[i.toNat], by rw [get?_of_nonneg hi, List.getElem?_eq_getElem hlt]⟩

theorem mem_of_get?_eq_some {a : JsArray α} {i : ℤ} {x : α} (hi : 0 ≤ i)
    (h : a.get? i = some x) : x ∈ a.elems := by
  rw [get?_of_nonneg hi] at h
  exact List.mem_of_getElem? h

theorem lt_length_of_get?_eq_some {a : JsArray α} {i : ℤ} {x : α} (hi : 0 ≤ i)
    (h : a.get? i = some x) : i < a.length := by
  by_contra hn
  rw [get?_eq_none_of_length_le hi (not_lt.mp hn)] at h
  simp at h

theorem exists_set?_eq_some {a : JsArray α} {i : ℤ} (x : α) (h : i ≤ a.length) :
    ∃ b, a.set? i x = some b := by
  unfold set?
  split_ifs with hneg hlt heq
  · exact ⟨_, rfl⟩
  · exact ⟨_, rfl⟩
  · exact ⟨_, rfl⟩
  · exact (heq (by omega)).elim

theorem elems_of_set?_of_neg {a b : JsArray α} {i : ℤ} {x : α} (hi : i < 0)
    (h : a.set? i x = some b) : b.elems = a.elems := by
  rw [set?, if_pos hi, Option.some.injEq] at h
  rw [← h]

theorem mem_elems_of_set? {a b : JsArray α} {i : ℤ} {x y : α}
    (h : a.set? i x = some b) (hy : y ∈ b.elems) : y ∈ a.elems ∨ y = x := by
  unfold set? at h
  split_ifs at h <;> simp only [Option.some.injEq] at h <;> subst h
  · exact Or.inl hy
  · exact List.mem_or_eq_of_mem_set hy
  · simpa using hy

theorem length_le_of_set? {a b : JsArray α} {i : ℤ} {x : α} (h : a.set? i x = some b) :
    a.length ≤ b.length := by
  unfold set? at h
  split_ifs at h <;> simp only [Option.some.injEq] at h <;> subst h <;> simp [length]

/-! ## The element a cursor stands on -/

section Split

variable {a : JsArray α} {before after : List α} {x : α}

theorem length_of_split (h : a.elems = before ++ x :: after) :
    a.length = before.length + 1 + after.length := by
  simp only [length, h, List.length_append, List.length_cons]
  omega

theorem get?_of_split (h : a.elems = before ++ x :: after) :
    a.get? before.length = some x := by
  simp [h]

theorem set?_of_split (h : a.elems = before ++ x :: after) (y : α) :
    a.set? before.length y = some { a with elems := before ++ y :: after } := by
  have hlt : (before.length : ℤ) < a.length := by
    rw [length_of_split h]
    omega
  simp [set?, hlt, h]

theorem exists_split {a : JsArray α} {i : ℤ} (hi : 0 ≤ i) (h : i < a.length) :
    ∃ before x after, a.elems = before ++ x :: after ∧ i = before.length := by
  have hlt : i.toNat < a.elems.length := by
    unfold length at h
    omega
  refine ⟨a.elems.take i.toNat, a.elems[i.toNat], a.elems.drop (i.toNat + 1), ?_, ?_⟩
  · rw [← List.drop_eq_getElem_cons hlt, List.take_append_drop]
  · rw [List.length_take]
    omega

end Split

end JsArray

end CoffeeTable.Ecma

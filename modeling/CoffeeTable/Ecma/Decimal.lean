import CoffeeTable.Ecma.Number
import Mathlib.Data.List.TakeWhile

/-!
# Canonical decimals

Below the limit of exact integers, writing a number gives its canonical
decimal string and reading that string gives the number back. So a string that
is equal to the written form of what it reads as is either the canonical
decimal of an exact integer, or stands for an integer beyond the limit, or is
the name of the number that is none.
-/

namespace CoffeeTable.Ecma

def decimal (n : ℤ) : JsString :=
  if n < 0 then unit '-' :: digits n.natAbs else digits n.natAbs

/-! ## Reading digits -/

theorem digits_ne_nil (m : ℕ) : digits m ≠ [] := by
  simp [digits, Nat.toDigits_ne_nil]

theorem isDigitOf_of_mem_digits {m : ℕ} {c : CodeUnit} (h : c ∈ digits m) :
    isDigitOf 10 c = true := by
  have hrange := toNat_of_mem_digits h
  have hlow : (48 : CodeUnit) ≤ c := UInt16.le_iff_toNat_le.mpr hrange.1
  have hhigh : c ≤ (57 : CodeUnit) := UInt16.le_iff_toNat_le.mpr hrange.2
  simp only [isDigitOf, digitValue, hlow, hhigh, and_self, if_true, decide_eq_true_eq]
  have : (57 : CodeUnit).toNat = 57 := rfl
  omega

theorem digitValue_unit {c : Char} (h : c.isDigit) : digitValue (unit c) = c.toNat - '0'.toNat := by
  obtain ⟨d, hd, rfl⟩ := exists_digitChar h
  interval_cases d <;> rfl

theorem readDigits_digits (m : ℕ) : readDigits 10 (digits m) = m := by
  have hfold : ∀ (chars : List Char) (init : ℕ), (∀ c ∈ chars, c.isDigit) →
      (chars.map unit).foldl (fun value c ↦ 10 * value + digitValue c) init =
        Nat.ofDigitChars 10 chars init := by
    intro chars
    induction chars with
    | nil => simp
    | cons c chars ih =>
        intro init hall
        rw [List.forall_mem_cons] at hall
        rw [List.map_cons, List.foldl_cons, ih _ hall.2, digitValue_unit hall.1,
          Nat.ofDigitChars_cons]
  have hdigits : ∀ c ∈ Nat.toDigits 10 m, c.isDigit :=
    fun c hc ↦ Nat.isDigit_of_mem_toDigits (by decide) (by decide) hc
  rw [readDigits, digits, hfold _ 0 hdigits, Nat.ofDigitChars_ten_toDigits]

/-! ## Exact integers -/

theorem nearestDouble_of_lt {m : ℕ} (h : m < safeLimit) : nearestDouble m = m := if_pos h

theorem safeLimit_le_nearestDouble {m : ℕ} (h : safeLimit ≤ m) : safeLimit ≤ nearestDouble m := by
  have hlog : 53 ≤ Nat.log 2 m := Nat.le_log_of_pow_le (by decide) h
  have hpow : 2 ^ Nat.log 2 m ≤ m := Nat.pow_log_le_self 2 (by unfold safeLimit at h; omega)
  have hsplit : 2 ^ Nat.log 2 m = 2 ^ 52 * 2 ^ (Nat.log 2 m - 52) := by
    rw [← pow_add]
    congr 1
    omega
  have hquotient : 2 ^ 52 ≤ m / 2 ^ (Nat.log 2 m - 52) := by
    rw [Nat.le_div_iff_mul_le (by positivity), ← hsplit]
    exact hpow
  have hlow : safeLimit ≤ m / 2 ^ (Nat.log 2 m - 52) * 2 ^ (Nat.log 2 m - 52) := by
    calc safeLimit = 2 ^ 53 := rfl
      _ ≤ 2 ^ Nat.log 2 m := Nat.pow_le_pow_right (by decide) hlog
      _ = 2 ^ 52 * 2 ^ (Nat.log 2 m - 52) := hsplit
      _ ≤ _ := Nat.mul_le_mul_right _ hquotient
  rw [nearestDouble, if_neg (not_lt.mpr h)]
  dsimp only
  split
  · exact hlow.trans (Nat.mul_le_mul_right _ (Nat.le_succ _))
  · exact hlow

theorem roundedTo_eq_or {m : ℕ} (h : m < safeLimit) (zeros : ℕ) :
    roundedTo m zeros = some m ∨ roundedTo m zeros = none := by
  have hle : m / 10 ^ zeros * 10 ^ zeros ≤ m := Nat.div_mul_le_self m _
  have hlow : nearestDouble (m / 10 ^ zeros * 10 ^ zeros) = m / 10 ^ zeros * 10 ^ zeros :=
    nearestDouble_of_lt (hle.trans_lt h)
  have hgt : m < m / 10 ^ zeros * 10 ^ zeros + 10 ^ zeros := by
    have hpos : 0 < 10 ^ zeros := by positivity
    have := Nat.lt_div_mul_add (a := m) hpos
    omega
  have hhigh : nearestDouble (m / 10 ^ zeros * 10 ^ zeros + 10 ^ zeros) ≠ m := by
    by_cases hsmall : m / 10 ^ zeros * 10 ^ zeros + 10 ^ zeros < safeLimit
    · rw [nearestDouble_of_lt hsmall]
      exact hgt.ne'
    · have := safeLimit_le_nearestDouble (not_lt.mp hsmall)
      omega
  unfold roundedTo
  dsimp only
  rw [hlow]
  split_ifs with hexact
  · exact Or.inl (congrArg some hexact.1)
  · exact Or.inr rfl

theorem shortest_of_lt {m : ℕ} (h : m < safeLimit) : shortest m = m := by
  have hupTo : ∀ zeros, shortestUpTo m zeros = m := by
    intro zeros
    induction zeros with
    | zero => rfl
    | succ zeros ih =>
        rw [shortestUpTo]
        rcases roundedTo_eq_or h (zeros + 1) with heq | heq
        · rw [heq, Option.getD_some]
        · rw [heq, Option.getD_none, ih]
  exact hupTo _

theorem writeMagnitude_of_lt {m : ℕ} (h : m < safeLimit) : writeMagnitude m = digits m := by
  have hlt : m < 10 ^ 21 := h.trans (by decide)
  simp only [writeMagnitude, shortest_of_lt h, if_pos hlt]

theorem toString_int {n : ℤ} (h : n.natAbs < safeLimit) : (Number.int n).toString = decimal n := by
  simp only [Number.toString, writeMagnitude_of_lt h, decimal]

theorem safeLimit_lt_two_pow {k : ℕ} (h : 53 < k) : safeLimit < 2 ^ k :=
  Nat.pow_lt_pow_right (Nat.lt_add_one 1) h

theorem ofInteger_of_lt (negative : Bool) {m : ℕ} (h : m < safeLimit) :
    Number.ofInteger negative m = .int (if negative then -m else m) := by
  have hlt := h.trans (safeLimit_lt_two_pow (show 53 < 1024 by decide))
  rw [Number.ofInteger, nearestDouble_of_lt h, if_neg (not_le.mpr hlt)]

/-! ## Reading back -/

theorem notMem_digits {m : ℕ} {c : CodeUnit} (h : c.toNat < 48 ∨ 57 < c.toNat) : c ∉ digits m := by
  intro hmem
  have := toNat_of_mem_digits hmem
  omega

theorem readPrefix_digits (m : ℕ) : readPrefix (digits m) = (10, digits m) := by
  cases hdigits : digits m with
  | nil => rfl
  | cons first rest =>
      cases rest with
      | nil => rfl
      | cons second rest =>
          have hne (c : CodeUnit) (hc : 57 < c.toNat) : second ≠ c := by
            rintro rfl
            apply notMem_digits (m := m) (Or.inr hc)
            rw [hdigits]
            simp
          rw [readPrefix, if_neg]
          rintro ⟨-, hx | hx⟩
          · exact hne _ (by decide) hx
          · exact hne _ (by decide) hx

theorem readSign_digits (m : ℕ) : readSign (digits m) = (false, digits m) := by
  cases hdigits : digits m with
  | nil => rfl
  | cons first rest =>
      have hne (c : CodeUnit) (hc : c.toNat < 48) : first ≠ c := by
        rintro rfl
        apply notMem_digits (m := m) (Or.inl hc)
        rw [hdigits]
        simp
      rw [readSign, if_neg (hne _ (by decide)), if_neg (hne _ (by decide))]

theorem readSign_neg_digits (m : ℕ) : readSign (unit '-' :: digits m) = (true, digits m) := rfl

theorem isWhiteSpace_of_mem_digits {m : ℕ} {c : CodeUnit} (h : c ∈ digits m) :
    isWhiteSpace c = false := by
  have htable : whiteSpace.all (fun w ↦ decide (w.toNat < 48 ∨ 57 < w.toNat)) = true := by rfl
  have hall : ∀ w ∈ whiteSpace, w.toNat < 48 ∨ 57 < w.toNat := by simpa using htable
  rw [isWhiteSpace, decide_eq_false_iff_not]
  exact fun hmem ↦ notMem_digits (hall c hmem) h

theorem dropWhile_isWhiteSpace_decimal (n : ℤ) :
    (decimal n).dropWhile isWhiteSpace = decimal n := by
  unfold decimal
  split
  · exact List.dropWhile_cons_of_neg (by decide)
  · cases hdigits : digits n.natAbs with
    | nil => rfl
    | cons first rest =>
        have hfirst : first ∈ digits n.natAbs := by rw [hdigits]; exact List.mem_cons_self
        exact List.dropWhile_cons_of_neg (by simp [isWhiteSpace_of_mem_digits hfirst])

theorem parseInt_decimal {n : ℤ} (h : n.natAbs < safeLimit) : parseInt (decimal n) = .int n := by
  have htake (m : ℕ) : (digits m).takeWhile (isDigitOf 10) = digits m :=
    List.takeWhile_eq_self_iff.mpr fun c hc ↦ isDigitOf_of_mem_digits hc
  unfold parseInt
  rw [dropWhile_isWhiteSpace_decimal]
  by_cases hneg : n < 0
  · have hvalue : -(n.natAbs : ℤ) = n := by omega
    simp only [decimal, if_pos hneg, readSign_neg_digits, readPrefix_digits, htake,
      digits_ne_nil, if_false, readDigits_digits, ofInteger_of_lt _ h, if_true, hvalue]
  · have hvalue : (n.natAbs : ℤ) = n := by omega
    simp only [decimal, if_neg hneg, readSign_digits, readPrefix_digits, htake,
      digits_ne_nil, if_false, readDigits_digits, ofInteger_of_lt _ h, hvalue]
    simp

theorem parseInt_ne_infinity {string : JsString} {negative : Bool}
    (h : string = (parseInt string).toString) : parseInt string ≠ .infinity negative := by
  intro hparse
  rw [hparse] at h
  subst h
  revert hparse
  cases negative <;> decide

end CoffeeTable.Ecma

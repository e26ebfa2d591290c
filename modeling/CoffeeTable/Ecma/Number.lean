import CoffeeTable.Ecma.Text
import Mathlib.Data.Nat.Log
import Mathlib.Tactic.IntervalCases
import Mathlib.Tactic.Linarith

/-!
# Integral script numbers: `parseInt` and `toString`

Only the numbers `parseInt` can return occur: integers that a double holds,
the two infinities and `NaN`. Reading rounds to the nearest double, ties to
even; writing looks for the fewest significant digits that read back as the
same double. Below `2 ^ 53` both are exact, so that the two are inverse on
canonical decimal strings.
-/

namespace CoffeeTable.Ecma

inductive Number where
  | nan
  | infinity (negative : Bool)
  | int (value : ℤ)
  deriving DecidableEq

def safeLimit : ℕ := 2 ^ 53

/-- The double nearest to a natural number, ties to even, before overflow. -/
def nearestDouble (m : ℕ) : ℕ :=
  if m < safeLimit then m
  else
    let unitInLastPlace := 2 ^ (Nat.log 2 m - 52)
    let quotient := m / unitInLastPlace
    let remainder := m % unitInLastPlace
    if unitInLastPlace < 2 * remainder ∨
        (unitInLastPlace = 2 * remainder ∧ quotient % 2 = 1) then
      (quotient + 1) * unitInLastPlace
    else quotient * unitInLastPlace

def Number.ofInteger (negative : Bool) (magnitude : ℕ) : Number :=
  if 2 ^ 1024 ≤ nearestDouble magnitude then .infinity negative
  else .int (if negative then -nearestDouble magnitude else nearestDouble magnitude)

/-! ## Reading -/

def whiteSpace : List CodeUnit :=
  [9, 10, 11, 12, 13, 32, 160, 5760, 8192, 8193, 8194, 8195, 8196, 8197, 8198, 8199,
    8200, 8201, 8202, 8232, 8233, 8239, 8287, 12288, 65279]

def isWhiteSpace (c : CodeUnit) : Bool := c ∈ whiteSpace

def digitValue (c : CodeUnit) : ℕ :=
  if 48 ≤ c ∧ c ≤ 57 then c.toNat - 48
  else if 65 ≤ c ∧ c ≤ 90 then c.toNat - 55
  else if 97 ≤ c ∧ c ≤ 122 then c.toNat - 87
  else 36

def isDigitOf (radix : ℕ) (c : CodeUnit) : Bool := digitValue c < radix

def readDigits (radix : ℕ) (digits : JsString) : ℕ :=
  digits.foldl (fun value c ↦ radix * value + digitValue c) 0

def readPrefix : JsString → ℕ × JsString
  | zero :: x :: rest =>
      if zero = unit '0' ∧ (x = unit 'x' ∨ x = unit 'X') then (16, rest)
      else (10, zero :: x :: rest)
  | s => (10, s)

def readSign : JsString → Bool × JsString
  | c :: rest =>
      if c = unit '-' then (true, rest)
      else if c = unit '+' then (false, rest)
      else (false, c :: rest)
  | [] => (false, [])

def parseInt (s : JsString) : Number :=
  let (negative, unsigned) := readSign (s.dropWhile isWhiteSpace)
  let (radix, body) := readPrefix unsigned
  let digits := body.takeWhile (isDigitOf radix)
  if digits = [] then .nan else .ofInteger negative (readDigits radix digits)

/-! ## Writing -/

def digits (m : ℕ) : JsString := (Nat.toDigits 10 m).map unit

theorem exists_digitChar {c : Char} (h : c.isDigit) : ∃ d < 10, c = Nat.digitChar d := by
  obtain ⟨hlow, hhigh⟩ : 48 ≤ c.toNat ∧ c.toNat ≤ 57 := by
    simpa [Char.isDigit, UInt32.le_iff_toNat_le] using h
  refine ⟨c.toNat - 48, by omega, ?_⟩
  rw [← Char.ofNat_toNat c]
  interval_cases c.toNat <;> decide

theorem toNat_of_mem_digits {m : ℕ} {c : CodeUnit} (h : c ∈ digits m) :
    48 ≤ c.toNat ∧ c.toNat ≤ 57 := by
  obtain ⟨char, hchar, rfl⟩ := List.mem_map.mp h
  obtain ⟨d, hd, rfl⟩ :=
    exists_digitChar (Nat.isDigit_of_mem_toDigits (by decide) (by decide) hchar)
  interval_cases d <;> decide

/-- The neighbour of `m` with `zeros` trailing zeros that reads as `m`. -/
def roundedTo (m zeros : ℕ) : Option ℕ :=
  let low := m / 10 ^ zeros * 10 ^ zeros
  let high := low + 10 ^ zeros
  if nearestDouble low = m ∧ (nearestDouble high ≠ m ∨ m - low ≤ high - m) then some low
  else if nearestDouble high = m then some high
  else none

/-- The number that reads as `m` with as many trailing zeros as possible, at
most the given count. -/
def shortestUpTo (m : ℕ) : ℕ → ℕ
  | 0 => m
  | zeros + 1 => (roundedTo m (zeros + 1)).getD (shortestUpTo m zeros)

def shortest (m : ℕ) : ℕ := shortestUpTo m (Nat.toDigits 10 m).length

def writeMagnitude (m : ℕ) : JsString :=
  let written := digits (shortest m)
  if shortest m < 10 ^ 21 then written
  else
    let significant := (written.reverse.dropWhile (· = unit '0')).reverse
    let fraction := if significant.length ≤ 1 then [] else unit '.' :: significant.tail
    significant.take 1 ++ fraction ++ lit "e+" ++ digits (written.length - 1)

def Number.toString : Number → JsString
  | .nan => lit "NaN"
  | .infinity negative => lit (if negative then "-Infinity" else "Infinity")
  | .int value =>
      if value < 0 then unit '-' :: writeMagnitude value.natAbs else writeMagnitude value.natAbs

end CoffeeTable.Ecma

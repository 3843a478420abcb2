import Mathlib.Algebra.Order.Ring.Int

/-!
# The integer types of C on a 64-bit machine

`size_t` and addresses are natural numbers below `2 ^ 64` with wrapping arithmetic; `int` is an
integer in `[-2 ^ 31, 2 ^ 31)`, `long long` one in `[-2 ^ 63, 2 ^ 63)`. Converting to `int` wraps
(`toInt`), converting an `int` to `size_t` sign-extends (`toSize`). Signed overflow is undefined
behaviour: the checked operations `intAdd?`, `intSub?`, `intMul?` and `longLongAdd?` have no result then.
-/

namespace OsExercises

def INT_MAX : Int := 2 ^ 31 - 1
def INT_MIN : Int := -2 ^ 31

def LLONG_MAX : Int := 2 ^ 63 - 1
def LLONG_MIN : Int := -2 ^ 63

def sizeAdd (x y : Nat) : Nat := (x + y) % 2 ^ 64

def sizeSub (x y : Nat) : Nat := (2 ^ 64 + x - y % 2 ^ 64) % 2 ^ 64

def sizeMul (x y : Nat) : Nat := (x * y) % 2 ^ 64

/-- The `int` with the 32 low bits of `x`. -/
def toInt (x : Int) : Int := (x + 2 ^ 31) % 2 ^ 32 - 2 ^ 31

def toSize (x : Int) : Nat := (x % 2 ^ 64).toNat

def intAdd? (x y : Int) : Option Int :=
  if INT_MIN ≤ x + y ∧ x + y ≤ INT_MAX then some (x + y) else none

def longLongAdd? (x y : Int) : Option Int :=
  if LLONG_MIN ≤ x + y ∧ x + y ≤ LLONG_MAX then some (x + y) else none

def intSub? (x y : Int) : Option Int :=
  if INT_MIN ≤ x - y ∧ x - y ≤ INT_MAX then some (x - y) else none

def intMul? (x y : Int) : Option Int :=
  if INT_MIN ≤ x * y ∧ x * y ≤ INT_MAX then some (x * y) else none

theorem sizeAdd_of_lt {x y : Nat} (h : x + y < 2 ^ 64) : sizeAdd x y = x + y :=
  Nat.mod_eq_of_lt h

theorem sizeSub_of_le {x y : Nat} (h : y ≤ x) (hx : x < 2 ^ 64) : sizeSub x y = x - y := by
  unfold sizeSub; omega

theorem sizeMul_of_lt {x y : Nat} (h : x * y < 2 ^ 64) : sizeMul x y = x * y :=
  Nat.mod_eq_of_lt h

theorem toInt_of_mem {x : Int} (h1 : INT_MIN ≤ x) (h2 : x ≤ INT_MAX) : toInt x = x := by
  unfold toInt INT_MIN INT_MAX at *; omega

theorem toInt_zero : toInt 0 = 0 := by decide

theorem toInt_toInt_add (x y : Int) : toInt (toInt x + y) = toInt (x + y) := by
  unfold toInt; omega

theorem toInt_inj {x y : Int} (h : toInt x = toInt y) (hx : x ≤ y) (hy : y < x + 2 ^ 32) : x = y := by
  unfold toInt at h; omega

/-- Adding a `size_t` to an `int` and storing the sum as an `int` loses only the high bits. -/
theorem toInt_sizeAdd (k : Int) (n : Nat) : toInt (sizeAdd (toSize (toInt k)) n) = toInt (k + n) := by
  unfold toInt sizeAdd toSize; omega

/-- An `int` converted back is the number it came from only if the high bits are all the same. -/
theorem toSize_toInt {n : Nat} (hn : n < 2 ^ 64) :
    toSize (toInt n) = n ↔ n < 2 ^ 31 ∨ 2 ^ 64 - 2 ^ 31 ≤ n := by
  unfold toSize toInt; omega

theorem sizeSub_sizeAdd {x y : Nat} (hx : x < 2 ^ 64) : sizeSub (sizeAdd x y) y = x := by
  unfold sizeSub sizeAdd; omega

theorem toSize_lt (x : Int) : toSize x < 2 ^ 64 := by
  unfold toSize; omega

theorem toSize_natCast {n : Nat} (h : n < 2 ^ 64) : toSize n = n := by
  unfold toSize; omega

theorem intAdd?_eq_some {x y z : Int} (h1 : x + y = z) (h2 : INT_MIN ≤ z) (h3 : z ≤ INT_MAX) :
    intAdd? x y = some z := by
  subst h1; exact if_pos ⟨h2, h3⟩

theorem intSub?_eq_some {x y z : Int} (h1 : x - y = z) (h2 : INT_MIN ≤ z) (h3 : z ≤ INT_MAX) :
    intSub? x y = some z := by
  subst h1; exact if_pos ⟨h2, h3⟩

theorem intMul?_eq_some {x y z : Int} (h1 : x * y = z) (h2 : INT_MIN ≤ z) (h3 : z ≤ INT_MAX) :
    intMul? x y = some z := by
  subst h1; exact if_pos ⟨h2, h3⟩

theorem intAdd?_eq_none {x y : Int} (h : INT_MAX < x + y) : intAdd? x y = none :=
  if_neg (by omega)

theorem intAdd?_cases {x y z : Int} (h : intAdd? x y = some z) : z = x + y ∧ z ≤ INT_MAX := by
  unfold intAdd? at h
  split at h <;> cases h
  omega

end OsExercises

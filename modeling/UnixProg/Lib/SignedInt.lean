import Mathlib.Data.BitVec
import Mathlib.Tactic.Common

namespace UnixProg.Lib.SignedInt

variable {w : Nat} {a b c : BitVec w}

/-- The product of two signed numbers. There is no result when it is too large
for their width. -/
def mul (a b : BitVec w) : Option (BitVec w) := if a.smulOverflow b then none else some (a * b)

/-- The signed numbers of a width. -/
def InRange (w : Nat) (n : Int) : Prop := -2 ^ (w - 1) ≤ n ∧ n < 2 ^ (w - 1)

theorem toInt_inRange (a : BitVec w) : InRange w a.toInt := ⟨BitVec.le_toInt a, BitVec.toInt_lt⟩

theorem exists_toInt_iff (hw : 0 < w) {n : Int} : (∃ c : BitVec w, c.toInt = n) ↔ InRange w n := by
  constructor
  · rintro ⟨c, rfl⟩
    exact toInt_inRange c
  · exact fun ⟨hle, hlt⟩ => ⟨BitVec.ofInt w n, BitVec.toInt_ofInt_eq_self hw hle hlt⟩

theorem smulOverflow_eq_false_iff : a.smulOverflow b = false ↔ InRange w (a.toInt * b.toInt) := by
  simp only [BitVec.smulOverflow, InRange, Bool.or_eq_false_iff, decide_eq_false_iff_not]
  omega

/-- The result is the word that stands for the product, where there is one. -/
theorem mul_eq_some_iff : mul a b = some c ↔ c.toInt = a.toInt * b.toInt := by
  constructor
  · intro h
    obtain ⟨hover, heq⟩ := Option.ite_none_left_eq_some.mp h
    rw [← Option.some.inj heq]
    exact BitVec.toInt_mul_of_not_smulOverflow hover
  · intro h
    have hover : a.smulOverflow b = false := smulOverflow_eq_false_iff.mpr (h ▸ toInt_inRange c)
    have heq : a * b = c := by
      rw [← BitVec.toInt_inj, BitVec.toInt_mul_of_not_smulOverflow (by simp [hover]), h]
    simp [mul, hover, heq]

theorem exists_mul_iff : (∃ c, mul a b = some c) ↔ InRange w (a.toInt * b.toInt) := by
  rw [← smulOverflow_eq_false_iff, mul]
  cases a.smulOverflow b <;> simp

theorem eq_mul_of_some (h : mul a b = some c) : c = a * b :=
  (Option.some.inj (Option.ite_none_left_eq_some.mp h).2).symm

end UnixProg.Lib.SignedInt

import Mathlib.Algebra.BigOperators.Group.Finset.Basic
import Mathlib.Algebra.Order.BigOperators.Group.Finset
import Mathlib.Data.Fintype.BigOperators
import Mathlib.Tactic.Common
import Mathlib.Tactic.Linarith

namespace UnixProg.Lib.ThreadSum

variable {T : Type} [Fintype T] [DecidableEq T]

theorem sum_of_agree {f g : T → Nat} (t : T) (h : ∀ u, u ≠ t → f u = g u) :
    ∑ u, f u + g t = ∑ u, g u + f t := by
  have hrest : ∑ u ∈ Finset.univ.erase t, f u = ∑ u ∈ Finset.univ.erase t, g u :=
    Finset.sum_congr rfl (fun u hu => h u (Finset.ne_of_mem_erase hu))
  rw [← Finset.add_sum_erase _ f (Finset.mem_univ t), ← Finset.add_sum_erase _ g (Finset.mem_univ t), hrest]
  omega

theorem sum_update {P : Type} (f : P → Nat) (c : T → P) (t : T) (p : P) :
    ∃ n, ∑ u, f (c u) = n + f (c t) ∧ ∑ u, f (Function.update c t p u) = n + f p := by
  have hagree := sum_of_agree (f := fun u => f (Function.update c t p u)) (g := fun u => f (c u)) t
    (fun u hu => by rw [Function.update_of_ne hu])
  have hle : f (c t) ≤ ∑ u, f (c u) :=
    Finset.single_le_sum (f := fun u => f (c u)) (fun _ _ => Nat.zero_le _) (Finset.mem_univ t)
  rw [Function.update_self] at hagree
  exact ⟨∑ u, f (c u) - f (c t), (Nat.sub_add_cancel hle).symm, by omega⟩

omit [DecidableEq T] in
theorem sum_le_const {f : T → Nat} {b : Nat} (h : ∀ t, f t ≤ b) : ∑ t, f t ≤ Fintype.card T * b := by
  simpa [Finset.card_univ] using Finset.sum_le_card_nsmul Finset.univ f b (fun t _ => h t)

omit [DecidableEq T] in
theorem sum_const_eq {f : T → Nat} {b : Nat} (h : ∀ t, f t = b) : ∑ t, f t = Fintype.card T * b := by
  simp [h, Finset.card_univ]

omit [DecidableEq T] in
/-- Counters that stay within one of each other add up to a multiple of their
number exactly when they are all equal. -/
theorem sum_mod_card_eq_zero_iff {f : T → Nat} (h : ∀ t u, f t ≤ f u + 1) :
    (∑ t, f t) % Fintype.card T = 0 ↔ ∀ t u, f t = f u := by
  constructor
  · intro hz
    by_contra hne
    push Not at hne
    obtain ⟨a, b, hab⟩ := hne
    obtain ⟨lo, hi, hlt⟩ : ∃ lo hi, f hi = f lo + 1 := by
      have hab' := h a b
      have hba := h b a
      rcases Nat.lt_or_ge (f a) (f b) with hl | hl
      · exact ⟨a, b, by omega⟩
      · exact ⟨b, a, by omega⟩
    have hbase (t : T) : f lo ≤ f t := by have := h hi t; omega
    obtain ⟨e, he⟩ : ∃ e : T → Nat, ∀ t, f t = f lo + e t :=
      ⟨fun t => f t - f lo, fun t => (Nat.add_sub_of_le (hbase t)).symm⟩
    have hsum : ∑ t, f t = Fintype.card T * f lo + ∑ t, e t := by
      rw [Finset.sum_congr rfl (fun t _ => he t), Finset.sum_add_distrib, sum_const_eq (fun _ => rfl)]
    have hpos : 0 < ∑ t, e t :=
      Finset.sum_pos' (fun _ _ => Nat.zero_le _) ⟨hi, Finset.mem_univ _, by have := he hi; omega⟩
    have hone (t : T) : e t ≤ 1 := by have := he t; have := h t lo; omega
    have hless : ∑ t, e t < Fintype.card T := by
      calc ∑ t, e t < ∑ _t : T, 1 :=
            Finset.sum_lt_sum (fun t _ => hone t) ⟨lo, Finset.mem_univ _, by have := he lo; omega⟩
        _ = Fintype.card T := by simp
    rw [hsum, Nat.mul_add_mod, Nat.mod_eq_of_lt hless] at hz
    omega
  · intro heq
    rcases isEmpty_or_nonempty T with _ | ⟨⟨a⟩⟩
    · simp
    · rw [sum_const_eq (fun t => heq t a), Nat.mul_mod_right]

end UnixProg.Lib.ThreadSum

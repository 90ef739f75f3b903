import UnixProg.Pthreads.BarrierFixedSteps
import Mathlib.Data.Nat.Prime.Basic
import Mathlib.Logic.Function.Iterate

namespace UnixProg.Pthreads.BarrierCounter

open Lib Transition ThreadSum Monitor ImplementBarrierFixed

/-- The `on_barrier++` of an arrival, on an int of 32 bits. -/
def arrive (onBarrier : Int32) : Int32 := onBarrier + 1

/-- The counter after a number of arrivals. Nothing ever resets it. -/
def onBarrier (n : Nat) : Int32 := arrive^[n] 0

/-- The test for the last thread of a round. -/
def full (max onBarrier : Int32) : Bool := onBarrier % max == 0

/-- The test picks out every max-th arrival and no other one. -/
def Counts (max : Int32) : Prop := ∀ n : Nat, full max (onBarrier n) = true ↔ max.toInt ∣ n

variable {max : Int32} {n : Nat}

theorem onBarrier_eq (n : Nat) : onBarrier n = Int32.ofNat n := by
  induction n with
  | zero => rfl
  | succ n ih =>
      calc onBarrier (n + 1) = arrive (onBarrier n) := Function.iterate_succ_apply' arrive n 0
        _ = Int32.ofNat (n + 1) := by rw [ih, Int32.ofNat_add]; rfl

/-- The sign of the remainder does not matter for a test against zero. -/
theorem full_iff (max x : Int32) : full max x = true ↔ max.toInt ∣ x.toInt := by
  rw [full, beq_iff_eq, ← Int32.toInt_inj, Int32.toInt_mod, Int.dvd_iff_tmod_eq_zero]
  rfl

theorem full_onBarrier (max : Int32) (n : Nat) : full max (onBarrier n) = true ↔ max.toInt ∣ (n : Int).bmod (2 ^ 32) := by
  rw [full_iff, onBarrier_eq, Int32.toInt_ofNat']
  rfl

/-- Up to the first overflow the counter is the number of arrivals. -/
theorem full_of_lt (max : Int32) (hn : n < 2 ^ 31) : full max (onBarrier n) = true ↔ max.toInt ∣ n := by
  rw [full_iff, onBarrier_eq, Int32.toInt_ofNat_of_lt hn]

/-- Wrapping around takes a multiple of 2^32 off the counter. -/
theorem counts_iff_dvd (max : Int32) : Counts max ↔ max.toInt ∣ 2 ^ 32 := by
  constructor
  · intro hcounts
    have hwrapped : full max (onBarrier (2 ^ 32)) = true := (full_onBarrier max _).mpr (Int.dvd_zero _)
    exact (hcounts _).mp hwrapped
  · intro hdvd n
    have hwrap : max.toInt ∣ n - (n : Int).bmod (2 ^ 32) := hdvd.trans Int.dvd_self_sub_bmod
    rw [full_onBarrier]
    exact (Int.dvd_iff_dvd_of_dvd_sub hwrap).symm

theorem dvd_iff_power (h : 2 ≤ max.toInt) : max.toInt ∣ 2 ^ 32 ↔ ∃ k : Nat, max.toInt = 2 ^ k := by
  obtain ⟨m, hm⟩ := Int.eq_ofNat_of_zero_le (show 0 ≤ max.toInt by omega)
  have hlt := max.toInt_lt
  rw [hm] at h hlt ⊢
  constructor
  · intro hdvd
    obtain ⟨k, _, hk⟩ := (Nat.dvd_prime_pow Nat.prime_two).mp (Int.natCast_dvd_natCast.mp hdvd)
    exact ⟨k, by rw [hk]; rfl⟩
  · rintro ⟨k, hk⟩
    have hk' : m = 2 ^ k := by exact_mod_cast hk
    have hle : k < 31 := (Nat.pow_lt_pow_iff_right Nat.one_lt_two).mp (by omega)
    rw [hk]
    exact pow_dvd_pow 2 (by omega)

/-- The barrier counts its rounds for ever just when the number of threads is a
power of two. -/
theorem counts_iff_power (max : Int32) (h : 2 ≤ max.toInt) : Counts max ↔ ∃ k : Nat, max.toInt = 2 ^ k :=
  (counts_iff_dvd max).trans (dvd_iff_power h)

theorem counts_iff_power_twenty : Counts 20 ↔ ∃ k : Nat, (20 : Int32).toInt = 2 ^ k := counts_iff_power 20 (by decide)

/-- The default number of threads. The first multiple of it behind the
overflow is not recognised. -/
theorem counts_not_twenty : ¬ Counts 20 := by
  intro hcounts
  have hfull := (hcounts 2147483660).mpr (by decide)
  rw [full_onBarrier] at hfull
  revert hfull
  decide

/-- As long as the counter counts, the test of a thread says in the program
what it says on the unbounded number of arrivals. -/
theorem run_test {threads : Nat} {s : State (Fin threads) Pc (Mem threads)} {es : List (Event (Fin threads) Pc)}
    (hmax : max.toInt = threads) (h : Run (Step (thread threads)) (initial threads) es s)
    (hcounts : ∑ t, arrived es t < 2 ^ 31 ∨ Counts max) :
    full max (onBarrier (∑ t, arrived es t)) = true ↔ s.mem.onBarrier % threads = 0 := by
  have htotal := (BarrierFixedSteps.run_inv h).2.total
  rw [htotal, ← Nat.dvd_iff_mod_eq_zero, ← Int.natCast_dvd_natCast, ← hmax]
  rcases hcounts with hlt | hcounts
  · exact full_of_lt max hlt
  · exact hcounts _

end UnixProg.Pthreads.BarrierCounter

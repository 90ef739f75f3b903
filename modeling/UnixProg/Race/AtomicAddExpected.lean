import UnixProg.Race.AtomicAddSum
import Mathlib.Data.Nat.Factorization.PrimePow

namespace UnixProg.Race.AtomicAddExpected

open Lib Transition Monitor MemoryMap LostUpdate AtomicAdd AtomicAddSum

def thread : Event Thread Pc → Thread
  | .exec t _ | .resume t | .spurious t => t

/-- What main recomputes is what one thread adds, so that only a lost update
makes it report a race. -/
structure Agrees (n : Int32) : Prop where
  single (mode es) (s : State Thread Pc (Mem (BitVec 32))) (h : Run (Step (program mode n.toInt)) initial es s)
    (halone : ∀ e ∈ es, thread e = .t1) (hdone : s.pc .t1 = .done) : s.mem.x = x2 (unsigned n.toInt)
  silent (mode es) (s : State Thread Pc (Mem (BitVec 32))) (h : Run (Step (program mode n.toInt)) initial es s)
    (hj : Joined s) (hlost : mode = .plain → ¬ Lost (accesses es)) : (report (unsigned n.toInt) s.mem).race = false

variable {mode : Mode} {n : Int} {es : List (Event Thread Pc)} {s s' : State Thread Pc (Mem Int)} {e : Event Thread Pc}

theorem x2_sum (n : Int) : (x2 n.toNat : Int) = ∑ i ∈ Finset.Ico 1 n, i := by
  by_cases hn : 1 ≤ n
  · have hx2 := x2_eq n.toNat (by omega)
    have hsum := two_mul_sum hn
    rw [Int.toNat_of_nonneg (by omega)] at hx2
    omega
  · rw [Finset.Ico_eq_empty (by omega), Int.toNat_of_nonpos (by omega)]
    rfl

/-- Neighbours have no common factor, and none of the two is as large as the word. -/
theorem not_dvd_neighbours {m : Nat} (h : 2 ≤ m) (hlt : m < 2 ^ 32) : ¬ 2 ^ 32 ∣ m * (m - 1) := by
  have hcoprime : Nat.Coprime m (m - 1) := by
    obtain ⟨k, rfl⟩ := Nat.exists_eq_add_of_le' h
    exact Nat.coprime_self_add_left.mpr (Nat.coprime_one_left _)
  have hpow : IsPrimePow (2 ^ 32) := Nat.prime_two.isPrimePow.pow (by decide)
  rw [hcoprime.isPrimePow_dvd_mul hpow]
  rintro (hdvd | hdvd)
  · have := Nat.le_of_dvd (by omega) hdvd
    omega
  · have := Nat.le_of_dvd (by omega) hdvd
    omega

theorem expected_ne_zero {m : Nat} (h : 2 ≤ m) (hlt : m < 2 ^ 32) : (2 * x2 m : BitVec 32) ≠ 0 := by
  have hcast : (2 * x2 m : BitVec 32) = ((m * (m - 1) : Nat) : BitVec 32) := by
    have hx2 := x2_eq m (by omega)
    have hint : ((m * (m - 1) : Nat) : Int) = 2 * x2 m := by
      rw [hx2]
      push_cast [Nat.cast_sub (show 1 ≤ m by omega)]
      rfl
    calc (2 * x2 m : BitVec 32) = ((2 * x2 m : Int) : BitVec 32) := by rw [x2_cast]; simp
      _ = ((m * (m - 1) : Nat) : BitVec 32) := by rw [← hint, Int.cast_natCast]
  intro hzero
  rw [hcast] at hzero
  have hmod : m * (m - 1) % 2 ^ 32 = 0 := by simpa using congrArg BitVec.toNat hzero
  exact not_dvd_neighbours h hlt (Nat.dvd_of_mod_eq_zero hmod)

/-- The second thread has not done anything yet. -/
structure Single (mode : Mode) (n : Int) (s : State Thread Pc (Mem Int)) : Prop where
  exact : Exact mode n s
  pc : s.pc .t2 = .test
  i : s.mem.i .t2 = 1

theorem command_i {t u : Thread} {p : Pc} {m : Mem Int} {c : Cmd Pc (Mem Int)} (hc : c ∈ program mode n t p m) (hu : u ≠ t) :
    (c.mem m).i u = m.i u := by
  cases p with
  | done => cases hc
  | test | add | lock | load | store | unlock =>
      obtain rfl := List.mem_singleton.mp hc
      rfl
  | next =>
      obtain rfl := List.mem_singleton.mp hc
      exact Function.update_of_ne hu _ _

theorem Single.next (hs : Single mode n s) (he : thread e = .t1) (h : Step (program mode n) s e s') : Single mode n s' := by
  have halone (t u : Thread) (hu : u ≠ t) (ht : s.pc t = .add ∨ s.pc t = .store) : s.pc u ≠ .store := by
    cases t with
    | t1 =>
        cases u with
        | t1 => exact absurd rfl hu
        | t2 => rw [hs.pc]; decide
    | t2 => rcases ht with ht | ht <;> rw [hs.pc] at ht <;> cases ht
  have hexact := exact_step hs.exact halone h
  rcases h.view with ⟨_, hpc, hm⟩ | ⟨t, p, c, _, hc, rfl, hpc, hm, _⟩
  · exact ⟨hexact, hpc ▸ hs.pc, hm ▸ hs.i⟩
  · have hne : Thread.t2 ≠ t := by
      rw [show t = .t1 from he]
      decide
    refine ⟨hexact, ?_, ?_⟩
    · rw [hpc, Function.update_of_ne hne, hs.pc]
    · rw [hm, command_i hc hne, hs.i]

theorem run_single (h : Run (Step (program mode n)) initial es s) (halone : ∀ e ∈ es, thread e = .t1) : Single mode n s := by
  induction h with
  | nil => exact ⟨initial_exact, rfl, rfl⟩
  | snoc _ hl ih =>
      exact (ih (fun e he => halone e (List.mem_append_left _ he))).next (halone _ (by simp)) hl

theorem Single.done (hs : Single mode n s) (hdone : s.pc .t1 = .done) : s.mem.x = x2 n.toNat := by
  have htotal := hs.exact.total
  have hgoing := hs.exact.at hdone
  have hi : s.mem.i .t1 = max 1 n := by
    have := hgoing.done rfl
    have := hgoing.le
    have := hgoing.pos
    omega
  rw [hdone, hi, hs.pc, hs.i] at htotal
  rw [x2_sum]
  simp only [paid, added] at htotal
  by_cases hn : 1 ≤ n
  · have hsum := two_mul_sum hn
    rw [max_eq_right hn] at htotal
    simp at htotal
    omega
  · rw [Finset.Ico_eq_empty (by omega)]
    rw [max_eq_left (by omega)] at htotal
    simp at htotal
    simpa using htotal

/-- Without lost updates the threads get twice that sum, by whatever way they add. -/
theorem joined_sum (h : Run (Step (program mode n)) initial es s) (hj : Joined s)
    (hlost : mode = .plain → ¬ Lost (accesses es)) : s.mem.x = 2 * x2 n.toNat := by
  cases hmode : mode with
  | plain =>
      subst hmode
      exact not_not.mp ((exact_report h hj).1.not.mpr (hlost rfl))
  | atomic | mutex =>
      rw [x2_sum]
      exact (run_exact (by simp [hmode]) h).joined hj

theorem unsigned_of_nonneg {n : Int32} (hn : 0 ≤ n.toInt) : unsigned n.toInt = n.toInt.toNat := by
  have hlt := n.toInt_lt
  rw [unsigned, Int.emod_eq_of_lt hn (by omega)]

/-- A negative number of cycles is a large one for main. -/
theorem unsigned_of_neg {n : Int32} (hn : n.toInt < 0) : 2 ≤ unsigned n.toInt ∧ unsigned n.toInt < 2 ^ 32 := by
  have hle := n.le_toInt
  have hmod : n.toInt % 2 ^ 32 = n.toInt + 2 ^ 32 := by
    rw [← Int.add_emod_right, Int.emod_eq_of_lt (by omega) (by omega)]
  rw [unsigned, hmod]
  omega

theorem agrees_of_nonneg {n : Int32} (hn : 0 ≤ n.toInt) : Agrees n := by
  constructor
  · intro mode es s h halone hdone
    rw [← initial_cast] at h
    obtain ⟨s₀, h₀, rfl⟩ := run_of_map (program_tracks mode n.toInt) h
    have hx : s₀.mem.x = x2 n.toInt.toNat := (run_single h₀ halone).done hdone
    rw [unsigned_of_nonneg hn, x2_cast, ← hx]
    rfl
  · intro mode es s h hj hlost
    rw [← initial_cast] at h
    obtain ⟨s₀, h₀, rfl⟩ := run_of_map (program_tracks mode n.toInt) h
    have hx : s₀.mem.x = 2 * x2 n.toInt.toNat := joined_sum h₀ hj hlost
    rw [report, decide_eq_false_iff_not, not_not, unsigned_of_nonneg hn, x2_cast]
    change ((s₀.mem.x : BitVec 32)) = _
    rw [hx]
    simp

/-- The loop of a thread is over at once, the one of main is not. -/
theorem silent_thread {n : Int32} (hn : n.toInt < 0) : ¬ Agrees n := by
  intro hagrees
  have hover : ¬ (1 : Int) < n.toInt := by omega
  have hc : Cmd.run initial.mem .done ∈ program (α := BitVec 32) .plain n.toInt .t1 .test initial.mem := by
    simp [program, count, initial, start, hover]
  have hstep := Step.run none (initial (α := BitVec 32)).ctl initial.mem .t1 .test initial.mem .done rfl hc
  have hx := hagrees.single .plain _ _ (.single hstep) (fun e he => by rw [List.mem_singleton.mp he]; rfl) rfl
  obtain ⟨h2, hlt⟩ := unsigned_of_neg hn
  apply expected_ne_zero h2 hlt
  rw [← hx]
  rfl

/-- main does what the threads do just for the numbers that an int and an
unsigned int have in common. -/
theorem agrees_iff (n : Int32) : Agrees n ↔ 0 ≤ n.toInt := by
  constructor
  · intro hagrees
    by_contra hneg
    exact silent_thread (not_le.mp hneg) hagrees
  · exact agrees_of_nonneg

/-- Nothing is added and no update is lost, and a race is reported. -/
theorem race_without_race : ∃ es, ∃ s : State Thread Pc (Mem (BitVec 32)),
    Run (Step (program .atomic (-1 : Int32).toInt)) initial es s ∧ Joined s ∧ s.mem.x = 0 ∧
    (report (unsigned (-1 : Int32).toInt) s.mem).race = true := by
  obtain ⟨s, hs, hj, hx⟩ : ∃ s, [Thread.t1, .t2].foldlM (turn (program .atomic (-1)))
      (initial : State Thread Pc (Mem (BitVec 32))) = some s ∧ Joined s ∧ s.mem.x = 0 :=
    ⟨_, rfl, fun t => by cases t <;> rfl, rfl⟩
  obtain ⟨es, hrun⟩ := turns_run hs
  obtain ⟨h2, hlt⟩ := unsigned_of_neg (n := -1) (by decide)
  refine ⟨es, s, hrun, hj, hx, ?_⟩
  rw [report, hx, decide_eq_true_iff]
  exact (expected_ne_zero h2 hlt).symm

end UnixProg.Race.AtomicAddExpected

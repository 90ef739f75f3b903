import UnixProg.Lib.ThreadSum
import UnixProg.Lib.Transition

namespace UnixProg.Lib.Barrier

open Transition ThreadSum

variable {T : Type}

/-- What a barrier is for, without any means of waiting: how often each thread
has come to it and how often it has gone on. -/
@[ext] structure Rounds (T : Type) where
  arrived : T → Nat
  left : T → Nat

inductive Event (T : Type)
  | arrive (t : T)
  | leave (t : T)

def start : Rounds T := ⟨fun _ => 0, fun _ => 0⟩

structure Sound (b : Rounds T) : Prop where
  left_le (t : T) : b.left t ≤ b.arrived t
  arrived_le (t : T) : b.arrived t ≤ b.left t + 1
  agree (t u : T) : b.left t ≤ b.arrived u

theorem start_sound : Sound (start : Rounds T) :=
  ⟨fun _ => Nat.le_refl 0, fun _ => Nat.zero_le 1, fun _ _ => Nat.le_refl 0⟩

theorem Sound.arrived_close {b : Rounds T} (hb : Sound b) (t u : T) : b.arrived t ≤ b.arrived u + 1 :=
  (hb.arrived_le t).trans (Nat.add_le_add_right (hb.agree t u) 1)

theorem Sound.left_close {b : Rounds T} (hb : Sound b) (t u : T) : b.left t ≤ b.left u + 1 :=
  (hb.agree t u).trans (hb.arrived_le u)

/-- A test on the total number of arrivals, read in terms of the rounds. -/
theorem Sound.total_mod_eq_zero_iff [Fintype T] {b : Rounds T} (hb : Sound b) :
    (∑ t, b.arrived t) % Fintype.card T = 0 ↔ ∀ t u, b.arrived t = b.arrived u :=
  sum_mod_card_eq_zero_iff hb.arrived_close

variable [DecidableEq T]

/-- A thread comes only after it has gone on from its last round. It goes on
only when everybody has come as often as itself. -/
inductive Step : Rounds T → Event T → Rounds T → Prop
  | arrive (b : Rounds T) (t : T) (h : b.arrived t = b.left t) :
      Step b (.arrive t) ⟨Function.update b.arrived t (b.arrived t + 1), b.left⟩
  | leave (b : Rounds T) (t : T) (h : b.left t < b.arrived t) (hall : ∀ u, b.arrived t ≤ b.arrived u) :
      Step b (.leave t) ⟨b.arrived, Function.update b.left t (b.left t + 1)⟩

theorem Step.sound {b b' : Rounds T} {e : Event T} (h : Step b e b') (hb : Sound b) : Sound b' := by
  cases h with
  | arrive t ht =>
      refine ⟨fun u => ?_, fun u => ?_, fun v u => ?_⟩
      · have := hb.left_le u
        by_cases hu : u = t
        · subst hu; simp only [Function.update_self]; omega
        · simpa only [Function.update_of_ne hu] using this
      · have := hb.arrived_le u
        by_cases hu : u = t
        · subst hu; simp only [Function.update_self]; omega
        · simpa only [Function.update_of_ne hu] using this
      · have := hb.agree v u
        by_cases hu : u = t
        · subst hu; simp only [Function.update_self]; omega
        · simpa only [Function.update_of_ne hu] using this
  | leave t ht hall =>
      have hleft : ∀ u, Function.update b.left t (b.left t + 1) u ≤ b.left u + 1 ∧
          b.left u ≤ Function.update b.left t (b.left t + 1) u := by
        intro u
        by_cases hu : u = t
        · subst hu; simp
        · simp [Function.update_of_ne hu]
      refine ⟨fun u => ?_, fun u => ?_, fun v u => ?_⟩
      · by_cases hu : u = t
        · subst hu; simpa only [Function.update_self] using Nat.succ_le_of_lt ht
        · simpa only [Function.update_of_ne hu] using hb.left_le u
      · exact (hb.arrived_le u).trans (Nat.add_le_add_right (hleft u).2 1)
      · by_cases hv : v = t
        · subst hv
          simp only [Function.update_self]
          exact Nat.le_trans ht (hall u)
        · simpa only [Function.update_of_ne hv] using hb.agree v u

theorem run_sound {b : Rounds T} {es : List (Event T)} (h : Run Step start es b) : Sound b :=
  Reachable.invariant start_sound (fun _ _ _ hi hs => hs.sound hi) h.reachable

end UnixProg.Lib.Barrier

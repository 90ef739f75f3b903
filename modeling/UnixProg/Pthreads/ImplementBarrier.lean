import Mathlib.Data.List.FinRange
import UnixProg.Lib.Rounds
import UnixProg.Lib.Wakeup
import UnixProg.Pthreads.BarrierOutput

namespace UnixProg.Pthreads.ImplementBarrier

open Lib Transition Monitor Wakeup BarrierOutput

/-- The statements of the loop in thread(). The sleep at its top only delays
the thread, which any interleaving does. -/
inductive Pc
  | print
  | lock
  | arrive
  | test
  | newline
  | broadcast
  | loop
  | unlock
deriving DecidableEq

structure Mem (max : Nat) where
  onBarrier : Nat
  out : List (Token (Fin max))

def thread (max : Nat) (arg : Fin max) : Pc → Mem max → List (Cmd Pc (Mem max))
  | .print, m => [.run { m with out := m.out ++ [.id arg] } .lock]
  | .lock, _ => [.lock .arrive]
  | .arrive, m => [.run { m with onBarrier := m.onBarrier + 1 } .test]
  | .test, m => [.run m (if m.onBarrier % max = 0 then .newline else .loop)]
  | .newline, m => [.run { m with out := m.out ++ [.newline] } .broadcast]
  | .broadcast, _ => [.broadcast .unlock]
  | .loop, m => if m.onBarrier % max ≠ 0 then [.wait .loop] else [.run m .unlock]
  | .unlock, _ => [.unlock .print]

def initial (max : Nat) : State (Fin max) Pc (Mem max) := start (fun _ => .print) ⟨0, []⟩

def arrived {max : Nat} (es : List (Event (Fin max) Pc)) (t : Fin max) : Nat := execs es t .arrive

def left {max : Nat} (es : List (Event (Fin max) Pc)) (t : Fin max) : Nat := execs es t .unlock

def crit : Pc → Bool
  | .print | .lock => false
  | .arrive | .test | .newline | .broadcast | .loop | .unlock => true

/-- The points between the arrival at the barrier and the release of the
mutex at the end of the loop body. -/
def inside : Pc → Bool
  | .print | .lock | .arrive => false
  | .test | .newline | .broadcast | .loop | .unlock => true

def leaving : Pc → Bool
  | .newline | .broadcast | .unlock => true
  | .print | .lock | .arrive | .test | .loop => false

variable {max : Nat} {s s' : State (Fin max) Pc (Mem max)} {es : List (Event (Fin max) Pc)}
  {e : Event (Fin max) Pc}

theorem thread_disciplined (max : Nat) : Disciplined (thread max) crit := by
  intro t p m c hc
  cases p with
  | loop =>
      by_cases h : m.onBarrier % max = 0 <;> simp [thread, h] at hc <;> subst hc <;> simp [Cmd.Keeps, crit]
  | test =>
      by_cases h : m.onBarrier % max = 0 <;> simp [thread, h] at hc <;> subst hc <;> simp [Cmd.Keeps, crit]
  | print | lock | arrive | newline | broadcast | unlock =>
      simp [thread] at hc
      subst hc
      simp [Cmd.Keeps, crit]

theorem wait_mem {t : Fin max} {p q : Pc} {m : Mem max} (h : .wait q ∈ thread max t p m) :
    p = .loop ∧ q = .loop ∧ m.onBarrier % max ≠ 0 := by
  cases p with
  | loop => by_cases hm : m.onBarrier % max = 0 <;> simp_all [thread]
  | print | lock | arrive | test | newline | broadcast | unlock => simp [thread] at h

structure Inv (es : List (Event (Fin max) Pc)) (s : State (Fin max) Pc (Mem max)) : Prop where
  sound : Barrier.Sound (Rounds.rounds .arrive .unlock es)
  total : s.mem.onBarrier = ∑ t, arrived es t
  balance (t : Fin max) : arrived es t = left es t + if inside (s.pc t) then 1 else 0
  level (t : Fin max) (h : leaving (s.pc t) = true) (u v : Fin max) : arrived es u = arrived es v

theorem initial_inv (max : Nat) : Inv [] (initial max) := by
  constructor
  · exact Barrier.start_sound
  · simp [initial, start, arrived, execs]
  · intro t
    simp [initial, start, State.pc, Ctl.pc, arrived, left, execs, inside]
  · intro t h
    simp [initial, start, State.pc, Ctl.pc, leaving] at h

/-- The test on onBarrier tells whether everybody has come equally often. -/
theorem Inv.mod_eq_zero_iff (hi : Inv es s) :
    s.mem.onBarrier % max = 0 ↔ ∀ u v, arrived es u = arrived es v := by
  have h := hi.sound.total_mod_eq_zero_iff
  rw [Fintype.card_fin] at h
  rw [hi.total]
  exact h

theorem leaving_crit {p : Pc} (h : leaving p = true) : crit p = true := by
  cases p <;> simp_all [leaving, crit]

/-- A thread that is leaving holds the mutex, so no other thread runs inside. -/
theorem leaving_unique (hl : Locked (thread max) crit s) {t u : Fin max} {p : Pc}
    (ht : s.ctl t = .running p) (hp : crit p = true) (hu : leaving (s.pc u) = true) : u = t := by
  apply hl.unique_of_pc ht hp (leaving_crit hu)
  intro q m hm
  rw [(wait_mem hm).2.1] at hu
  cases hu

/-- A thread comes to the barrier only from outside, and goes on only while
everybody has come equally often. -/
theorem Inv.admits (hi : Inv es s) : Rounds.Admits .arrive .unlock es s := by
  constructor
  · intro t ht
    have hb := hi.balance t
    rw [show s.pc t = .arrive by simp [State.pc, ht, Ctl.pc]] at hb
    exact hb
  · intro t ht
    have hb := hi.balance t
    have hpc : s.pc t = .unlock := by simp [State.pc, ht, Ctl.pc]
    rw [hpc] at hb
    exact ⟨Nat.lt_of_succ_le hb.ge, fun u => (hi.level t (by rw [hpc]; rfl) t u).le⟩

theorem sum_arrived (t : Fin max) (p : Pc) :
    ∑ u, arrived (es ++ [.exec t p]) u = ∑ u, arrived es u + if p = .arrive then 1 else 0 := by
  by_cases hp : p = .arrive <;> simp [arrived, execs_exec, Finset.sum_add_distrib, hp]

theorem mem_onBarrier {t : Fin max} {p : Pc} {m : Mem max} {c : Cmd Pc (Mem max)} (hc : c ∈ thread max t p m) :
    (c.mem m).onBarrier = m.onBarrier + if p = .arrive then 1 else 0 := by
  cases p with
  | loop => by_cases h : m.onBarrier % max = 0 <;> simp_all [thread, Cmd.mem]
  | print | lock | arrive | test | newline | broadcast | unlock => simp_all [thread, Cmd.mem]

theorem mem_inside {t : Fin max} {p : Pc} {m : Mem max} {c : Cmd Pc (Mem max)} (hc : c ∈ thread max t p m) :
    (if inside c.next then 1 else 0) + (if p = .unlock then 1 else 0) =
      (if inside p then 1 else 0) + if p = .arrive then 1 else 0 := by
  cases p with
  | loop => by_cases h : m.onBarrier % max = 0 <;> simp_all [thread, Cmd.next, inside]
  | test => by_cases h : m.onBarrier % max = 0 <;> simp_all [thread, Cmd.next, inside]
  | print | lock | arrive | newline | broadcast | unlock => simp_all [thread, Cmd.next, inside]

theorem mem_leaving {t : Fin max} {p : Pc} {m : Mem max} {c : Cmd Pc (Mem max)} (hc : c ∈ thread max t p m)
    (h : leaving c.next = true) : p ≠ .arrive ∧ (leaving p = true ∨ m.onBarrier % max = 0) := by
  cases p with
  | loop => by_cases hm : m.onBarrier % max = 0 <;> simp_all [thread, Cmd.next, leaving]
  | test => by_cases hm : m.onBarrier % max = 0 <;> simp_all [thread, Cmd.next, leaving]
  | print | lock | arrive | newline | broadcast | unlock => simp_all [thread, Cmd.next, leaving]

theorem Inv.step (hl : Locked (thread max) crit s) (hi : Inv es s) (h : Step (thread max) s e s') :
    Inv (es ++ [e]) s' := by
  have hsound := Rounds.Step.sound (by simp) hi.admits hi.sound h
  rcases h.view with ⟨he, hpc, hm⟩ | ⟨t, p, c, ht, hc, rfl, hpc, hm, _⟩
  · have ha (u : Fin max) : arrived (es ++ [e]) u = arrived es u := execs_idle he u .arrive
    have hf (u : Fin max) : left (es ++ [e]) u = left es u := execs_idle he u .unlock
    refine ⟨hsound, ?_, fun u => ?_, fun u => ?_⟩
    · simpa only [hm, ha] using hi.total
    · simpa only [hpc, ha, hf] using hi.balance u
    · simpa only [hpc, ha] using hi.level u
  · have hpt : s.pc t = p := by simp [State.pc, ht, Ctl.pc]
    refine ⟨hsound, ?_, fun u => ?_, fun u hu => ?_⟩
    · rw [hm, mem_onBarrier hc, hi.total, sum_arrived]
    · have hin := hi.balance u
      by_cases hut : u = t
      · subst hut
        have hk := mem_inside hc
        rw [hpt] at hin
        simp only [arrived, left, execs_exec, true_and, hpc, Function.update_self] at hin ⊢
        omega
      · simpa [arrived, left, execs_exec, hpc, hut, Ne.symm hut] using hin
    · have hsame (hp : p ≠ .arrive) (v : Fin max) : arrived (es ++ [.exec t p]) v = arrived es v := by
        simp [arrived, execs_exec, hp]
      by_cases hut : u = t
      · subst hut
        rw [hpc, Function.update_self] at hu
        obtain ⟨hp, hlv⟩ := mem_leaving hc hu
        simp only [hsame hp]
        rcases hlv with hlv | hmod
        · exact hi.level u (by rw [hpt]; exact hlv)
        · exact hi.mod_eq_zero_iff.mp hmod
      · rw [hpc, Function.update_of_ne hut] at hu
        have hp : p ≠ .arrive := by
          rintro rfl
          exact hut (leaving_unique hl ht rfl hu)
        simp only [hsame hp]
        exact hi.level u hu

theorem run_inv (h : Run (Step (thread max)) (initial max) es s) :
    Locked (thread max) crit s ∧ Inv es s :=
  h.invariant (I := fun es s => Locked (thread max) crit s ∧ Inv es s)
    ⟨start_locked (fun _ => rfl) _, initial_inv max⟩
    (fun _ _ _ _ _ hi hl => ⟨hl.locked (thread_disciplined max) hi.1, hi.2.step hi.1 hl⟩)

/-- Every run of the program, seen through its arrivals and departures, is a
run of a barrier. -/
theorem run_refines (h : Run (Step (thread max)) (initial max) es s) :
    ∃ evs, Run Barrier.Step Barrier.start evs (Rounds.rounds .arrive .unlock es) :=
  Rounds.run_refines (by simp) (fun _ _ hr => (run_inv hr).2.admits) h

end UnixProg.Pthreads.ImplementBarrier

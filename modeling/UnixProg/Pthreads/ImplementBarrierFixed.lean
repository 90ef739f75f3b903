import Mathlib.Data.List.FinRange
import UnixProg.Lib.Rounds
import UnixProg.Lib.Wakeup
import UnixProg.Pthreads.BarrierOutput

namespace UnixProg.Pthreads.ImplementBarrierFixed

open Lib Transition ThreadSum Monitor BarrierOutput

/-- The statements of the loop in thread(), without the sleep at its top. The
last thread to arrive waits at loopLast, the others first at loop and then at
loopWoken. -/
inductive Pc
  | print
  | lock
  | arrive
  | test
  | newline
  | setWoken
  | broadcast
  | loopLast
  | loop
  | incWoken
  | testWoken
  | broadcastAll
  | loopWoken
  | unlock
deriving DecidableEq

structure Mem (max : Nat) where
  onBarrier : Nat
  wokenup : Nat
  out : List (Token (Fin max))

def thread (max : Nat) (arg : Fin max) : Pc → Mem max → List (Cmd Pc (Mem max))
  | .print, m => [.run { m with out := m.out ++ [.id arg] } .lock]
  | .lock, _ => [.lock .arrive]
  | .arrive, m => [.run { m with onBarrier := m.onBarrier + 1 } .test]
  | .test, m => [.run m (if m.onBarrier % max = 0 then .newline else .loop)]
  | .newline, m => [.run { m with out := m.out ++ [.newline] } .setWoken]
  | .setWoken, m => [.run { m with wokenup := 1 } .broadcast]
  | .broadcast, _ => [.broadcast .loopLast]
  | .loopLast, m => if m.wokenup < max then [.wait .loopLast] else [.run m .unlock]
  | .loop, m => if m.onBarrier % max ≠ 0 then [.wait .loop] else [.run m .incWoken]
  | .incWoken, m => [.run { m with wokenup := m.wokenup + 1 } .testWoken]
  | .testWoken, m => [.run m (if m.wokenup = max then .broadcastAll else .loopWoken)]
  | .broadcastAll, _ => [.broadcast .unlock]
  | .loopWoken, m => if m.wokenup < max then [.wait .loopWoken] else [.run m .unlock]
  | .unlock, _ => [.unlock .print]

def initial (max : Nat) : State (Fin max) Pc (Mem max) := start (fun _ => .print) ⟨0, 0, []⟩

def arrived {max : Nat} (es : List (Event (Fin max) Pc)) (t : Fin max) : Nat := execs es t .arrive

def left {max : Nat} (es : List (Event (Fin max) Pc)) (t : Fin max) : Nat := execs es t .unlock

/-- How often wokenup has been reset, which is once for each barrier. -/
def resets {max : Nat} (es : List (Event (Fin max) Pc)) : Nat := ∑ t, execs es t .setWoken

def crit : Pc → Bool
  | .print | .lock => false
  | _ => true

def waiting : Pc → Bool
  | .loopLast | .loop | .loopWoken => true
  | _ => false

def inside : Pc → Bool
  | .print | .lock | .arrive => false
  | _ => true

/-- Arrived, but not yet counted in wokenup. -/
def pending : Pc → Bool
  | .test | .newline | .setWoken | .loop | .incWoken => true
  | _ => false

def starting : Pc → Bool
  | .test | .newline | .setWoken => true
  | _ => false

def ready : Pc → Bool
  | .broadcastAll | .unlock => true
  | _ => false

variable {max : Nat} {s s' : State (Fin max) Pc (Mem max)} {es : List (Event (Fin max) Pc)}
  {e : Event (Fin max) Pc} {t : Fin max} {p : Pc} {m : Mem max} {c : Cmd Pc (Mem max)}

/-- The commands of a thread, one after the other. -/
inductive Does (t : Fin max) (m : Mem max) : Pc → Cmd Pc (Mem max) → Prop
  | print : Does t m .print (.run { m with out := m.out ++ [.id t] } .lock)
  | lock : Does t m .lock (.lock .arrive)
  | arrive : Does t m .arrive (.run { m with onBarrier := m.onBarrier + 1 } .test)
  | last (h : m.onBarrier % max = 0) : Does t m .test (.run m .newline)
  | early (h : m.onBarrier % max ≠ 0) : Does t m .test (.run m .loop)
  | newline : Does t m .newline (.run { m with out := m.out ++ [.newline] } .setWoken)
  | setWoken : Does t m .setWoken (.run { m with wokenup := 1 } .broadcast)
  | broadcast : Does t m .broadcast (.broadcast .loopLast)
  | waitLast (h : m.wokenup < max) : Does t m .loopLast (.wait .loopLast)
  | passLast (h : ¬ m.wokenup < max) : Does t m .loopLast (.run m .unlock)
  | wait (h : m.onBarrier % max ≠ 0) : Does t m .loop (.wait .loop)
  | pass (h : m.onBarrier % max = 0) : Does t m .loop (.run m .incWoken)
  | incWoken : Does t m .incWoken (.run { m with wokenup := m.wokenup + 1 } .testWoken)
  | allWoken (h : m.wokenup = max) : Does t m .testWoken (.run m .broadcastAll)
  | someWoken (h : m.wokenup ≠ max) : Does t m .testWoken (.run m .loopWoken)
  | broadcastAll : Does t m .broadcastAll (.broadcast .unlock)
  | waitWoken (h : m.wokenup < max) : Does t m .loopWoken (.wait .loopWoken)
  | passWoken (h : ¬ m.wokenup < max) : Does t m .loopWoken (.run m .unlock)
  | unlock : Does t m .unlock (.unlock .print)

theorem does (hc : c ∈ thread max t p m) : Does t m p c := by
  cases p with
  | print => obtain rfl := List.mem_singleton.mp hc; exact .print
  | lock => obtain rfl := List.mem_singleton.mp hc; exact .lock
  | arrive => obtain rfl := List.mem_singleton.mp hc; exact .arrive
  | test =>
      obtain rfl := List.mem_singleton.mp hc
      split
      · exact .last ‹_›
      · exact .early ‹_›
  | newline => obtain rfl := List.mem_singleton.mp hc; exact .newline
  | setWoken => obtain rfl := List.mem_singleton.mp hc; exact .setWoken
  | broadcast => obtain rfl := List.mem_singleton.mp hc; exact .broadcast
  | loopLast =>
      simp only [thread] at hc
      split at hc <;> obtain rfl := List.mem_singleton.mp hc
      · exact .waitLast ‹_›
      · exact .passLast ‹_›
  | loop =>
      simp only [thread] at hc
      split at hc <;> obtain rfl := List.mem_singleton.mp hc
      · exact .wait ‹_›
      · exact .pass (not_not.mp ‹_›)
  | incWoken => obtain rfl := List.mem_singleton.mp hc; exact .incWoken
  | testWoken =>
      obtain rfl := List.mem_singleton.mp hc
      split
      · exact .allWoken ‹_›
      · exact .someWoken ‹_›
  | broadcastAll => obtain rfl := List.mem_singleton.mp hc; exact .broadcastAll
  | loopWoken =>
      simp only [thread] at hc
      split at hc <;> obtain rfl := List.mem_singleton.mp hc
      · exact .waitWoken ‹_›
      · exact .passWoken ‹_›
  | unlock => obtain rfl := List.mem_singleton.mp hc; exact .unlock

theorem thread_disciplined (max : Nat) : Disciplined (thread max) crit := by
  intro t p m c hc
  cases does hc with
  | lock | waitLast | wait | waitWoken | unlock => exact ⟨rfl, rfl⟩
  | _ => rfl

theorem thread_total (t : Fin max) (p : Pc) (m : Mem max) : thread max t p m ≠ [] := by
  cases p <;> simp only [thread] <;> (try split) <;> simp

theorem wait_mem {q : Pc} (h : .wait q ∈ thread max t p m) :
    p = q ∧ (p = .loop ∧ m.onBarrier % max ≠ 0 ∨ (p = .loopLast ∨ p = .loopWoken) ∧ m.wokenup < max) := by
  cases does h with
  | wait hmod => exact ⟨rfl, .inl ⟨rfl, hmod⟩⟩
  | waitLast hlt => exact ⟨rfl, .inr ⟨.inl rfl, hlt⟩⟩
  | waitWoken hlt => exact ⟨rfl, .inr ⟨.inr rfl, hlt⟩⟩

/-- The threads of the round that is being left which wokenup still misses. -/
def owed (es : List (Event (Fin max) Pc)) (s : State (Fin max) Pc (Mem max)) (t : Fin max) : Nat :=
  if left es t + 1 = resets es ∧ pending (s.pc t) = true then 1 else 0

/-- The rounds of all threads against the two counters. A thread has left
either as many rounds as there were resets, or one less and then it is inside. -/
structure Inv (es : List (Event (Fin max) Pc)) (s : State (Fin max) Pc (Mem max)) : Prop where
  sound : Barrier.Sound (Rounds.rounds .arrive .unlock es)
  total : s.mem.onBarrier = ∑ t, arrived es t
  balance (t : Fin max) : arrived es t = left es t + if inside (s.pc t) then 1 else 0
  round (t : Fin max) : left es t = resets es ∨ left es t + 1 = resets es ∧ inside (s.pc t) = true
  counted (t : Fin max) (h : inside (s.pc t) = true) (h' : pending (s.pc t) = false) : left es t + 1 = resets es
  fresh (t : Fin max) (h : starting (s.pc t) = true) : left es t = resets es
  woken (t : Fin max) (h : s.pc t = .incWoken) : left es t + 1 = resets es
  complete (t : Fin max) (h : s.pc t = .newline ∨ s.pc t = .setWoken) (u : Fin max) : arrived es u = resets es + 1
  last (h : ∀ u, arrived es u = resets es + 1) (_ : Fin max) : ∃ t, starting (s.pc t) = true
  tally (h : 1 ≤ resets es) : s.mem.wokenup + ∑ t, owed es s t = max
  gate (t : Fin max) (h : left es t = resets es) (u : Fin max) (h' : left es u + 1 = resets es) :
    pending (s.pc u) = false
  full (t : Fin max) (h : ready (s.pc t) = true) : s.mem.wokenup = max

theorem initial_inv (max : Nat) : Inv [] (initial max) := by
  have hpc (t : Fin max) : (initial max).pc t = .print := rfl
  refine ⟨Barrier.start_sound, ?_, ?_, ?_, ?_, ?_, ?_, ?_, ?_, ?_, ?_, ?_⟩
  · simp [initial, start, arrived, execs]
  · intro t
    simp [hpc, arrived, left, execs, inside]
  · intro t
    exact .inl (by simp [left, resets, execs])
  · intro t h
    rw [hpc] at h
    cases h
  · intro t h
    rw [hpc] at h
    cases h
  · intro t h
    rw [hpc] at h
    cases h
  · intro t h
    rw [hpc] at h
    rcases h with h | h <;> cases h
  · intro h u
    have := h u
    simp [arrived, resets, execs] at this
  · intro h
    simp [resets, execs] at h
  · intro t _ u h
    simp [left, resets, execs] at h
  · intro t h
    rw [hpc] at h
    cases h

theorem held_unique (hl : Locked (thread max) crit s) (ht : s.ctl t = .running p) (hp : crit p = true)
    {u : Fin max} (hu : crit (s.pc u) = true) (hw : waiting (s.pc u) = false) : u = t := by
  apply hl.unique_of_pc ht hp hu
  intro q m hm
  rcases wait_mem hm with ⟨hq, ⟨rfl, _⟩ | ⟨rfl | rfl, _⟩⟩ <;> rw [← hq] at hw <;> cases hw

theorem starting_held {p : Pc} (h : starting p = true) : crit p = true ∧ waiting p = false := by
  cases p <;> first | exact ⟨rfl, rfl⟩ | cases h

theorem ready_held {p : Pc} (h : ready p = true) : crit p = true ∧ waiting p = false := by
  cases p <;> first | exact ⟨rfl, rfl⟩ | cases h

theorem Inv.mod_eq_zero_iff (hi : Inv es s) :
    s.mem.onBarrier % max = 0 ↔ ∀ u v, arrived es u = arrived es v := by
  have h := hi.sound.total_mod_eq_zero_iff
  rw [Fintype.card_fin] at h
  rw [hi.total]
  exact h

theorem Inv.wokenup_le (hi : Inv es s) (h : inside (s.pc t) = true) (h' : pending (s.pc t) = false) :
    s.mem.wokenup ≤ max := by
  have := hi.tally (hi.counted t h h' ▸ Nat.le_add_left 1 _)
  omega

/-- When everybody has arrived since the last reset, all of them are inside
in the same round. -/
theorem Inv.left_of_complete (hi : Inv es s) {u : Fin max} (hu : arrived es u = resets es + 1) :
    left es u = resets es ∧ inside (s.pc u) = true := by
  have hb := hi.balance u
  rcases hi.round u with hr | ⟨hr, hin⟩
  · refine ⟨hr, ?_⟩
    by_contra hin
    rw [if_neg hin] at hb
    omega
  · rw [if_pos hin] at hb
    omega

/-- Whoever goes past the first loop belongs to the round that is being left. -/
theorem Inv.pass_loop (hl : Locked (thread max) crit s) (hi : Inv es s) (ht : s.ctl t = .running .loop)
    (hmod : s.mem.onBarrier % max = 0) : left es t + 1 = resets es := by
  have hpc : s.pc t = .loop := by simp [State.pc, ht, Ctl.pc]
  have hb := hi.balance t
  rw [hpc] at hb
  rcases hi.round t with hr | ⟨hr, _⟩
  · exfalso
    have hall (u : Fin max) : arrived es u = resets es + 1 := by
      rw [hi.mod_eq_zero_iff.mp hmod u t, hb, hr]
      rfl
    obtain ⟨u, hu⟩ := hi.last hall t
    have hut := held_unique hl ht rfl (starting_held hu).1 (starting_held hu).2
    subst hut
    rw [hpc] at hu
    cases hu
  · exact hr

theorem Inv.move (hi : Inv es s) {es' : List (Event (Fin max) Pc)} {q : Pc} (ht : s.pc t = p)
    (hpc : s'.pc = Function.update s.pc t q) (harr : arrived es' = arrived es) (hleft : left es' = left es)
    (hres : resets es' = resets es) (hbar : s'.mem.onBarrier = s.mem.onBarrier)
    (hwok : s'.mem.wokenup = s.mem.wokenup) (hin : inside q = inside p) (hpend : pending q = pending p)
    (hfresh : starting q = true → starting p = true) (hwoken : q = .incWoken → left es t + 1 = resets es)
    (hcomplete : q = .newline ∨ q = .setWoken → ∀ u, arrived es u = resets es + 1)
    (hlast : (∀ u, arrived es u = resets es + 1) → starting p = true → starting q = true)
    (hfull : ready q = true → s.mem.wokenup = max) : Inv es' s' := by
  have hother {u : Fin max} (hu : u ≠ t) : s'.pc u = s.pc u := by rw [hpc, Function.update_of_ne hu]
  have hself : s'.pc t = q := by rw [hpc, Function.update_self]
  have hinside (u : Fin max) : inside (s'.pc u) = inside (s.pc u) := by
    by_cases hu : u = t
    · rw [hu, hself, hin, ht]
    · rw [hother hu]
  have hpending (u : Fin max) : pending (s'.pc u) = pending (s.pc u) := by
    by_cases hu : u = t
    · rw [hu, hself, hpend, ht]
    · rw [hother hu]
  refine ⟨?_, ?_, ?_, ?_, ?_, ?_, ?_, ?_, ?_, ?_, ?_, ?_⟩
  · have hr : Rounds.rounds .arrive .unlock es' = Rounds.rounds .arrive .unlock es := by
      ext u
      · exact congrFun harr u
      · exact congrFun hleft u
    exact hr ▸ hi.sound
  · simpa only [hbar, harr] using hi.total
  · simpa only [harr, hleft, hinside] using hi.balance
  · simpa only [hleft, hres, hinside] using hi.round
  · simpa only [hleft, hres, hinside, hpending] using hi.counted
  · intro u h
    rw [hleft, hres]
    by_cases hu : u = t
    · subst hu
      exact hi.fresh u (ht ▸ hfresh (hself ▸ h))
    · exact hi.fresh u (hother hu ▸ h)
  · intro u h
    rw [hleft, hres]
    by_cases hu : u = t
    · subst hu
      exact hwoken (hself ▸ h)
    · exact hi.woken u (hother hu ▸ h)
  · intro u h v
    rw [harr, hres]
    by_cases hu : u = t
    · subst hu
      exact hcomplete (hself ▸ h) v
    · exact hi.complete u (hother hu ▸ h) v
  · intro h u
    rw [harr, hres] at h
    obtain ⟨v, hv⟩ := hi.last h u
    by_cases hvt : v = t
    · subst hvt
      exact ⟨v, hself ▸ hlast h (ht ▸ hv)⟩
    · exact ⟨v, (hother hvt).symm ▸ hv⟩
  · have hsum : ∑ u, owed es' s' u = ∑ u, owed es s u := by simp only [owed, hleft, hres, hpending]
    simpa only [hres, hwok, hsum] using hi.tally
  · simpa only [hleft, hres, hpending] using hi.gate
  · intro u h
    rw [hwok]
    by_cases hu : u = t
    · subst hu
      exact hfull (hself ▸ h)
    · exact hi.full u (hother hu ▸ h)

end UnixProg.Pthreads.ImplementBarrierFixed

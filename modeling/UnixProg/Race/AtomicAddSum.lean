import UnixProg.Race.AtomicAdd
import Mathlib.Data.Int.ConditionallyCompleteOrder
import Mathlib.Data.Int.Interval
import Mathlib.Data.Int.SuccPred
import Mathlib.Algebra.BigOperators.Intervals

namespace UnixProg.Race.AtomicAddSum

open Lib Transition Monitor MemoryMap AtomicAdd

/-- The points of the loop with the option `-a`, and with `-m`. -/
def points : Mode → List Pc
  | .plain => [.test, .load, .store, .next, .done]
  | .atomic => [.test, .add, .next, .done]
  | .mutex => [.test, .lock, .load, .store, .unlock, .next, .done]

def crit : Pc → Bool
  | .load | .store | .unlock => true
  | _ => false

/-- The counter has been added to the shared variable already. -/
def added : Pc → Bool
  | .unlock | .next => true
  | _ => false

/-- Twice what a thread has added to the shared variable so far. -/
def paid (p : Pc) (i : Int) : Int := i * (i - 1) + if added p then 2 * i else 0

structure Going (mode : Mode) (n : Int) (p : Pc) (i : Int) : Prop where
  point : p ∈ points mode
  pos : 1 ≤ i
  le : i ≤ max 1 n
  inside (h : p ≠ .test) (h' : p ≠ .done) : i < n
  done (h : p = .done) : n ≤ i

/-- The shared variable is what the threads have added, and a value that was
read and not yet written back is the latest one. -/
structure Exact (mode : Mode) (n : Int) (s : State Thread Pc (Mem Int)) : Prop where
  going (t) : Going mode n (s.pc t) (s.mem.i t)
  seen (t) (h : s.pc t = .store) : s.mem.seen t = s.mem.x
  total : 2 * s.mem.x = paid (s.pc .t1) (s.mem.i .t1) + paid (s.pc .t2) (s.mem.i .t2)

variable {mode : Mode} {n : Int} {s s' : State Thread Pc (Mem Int)} {e : Event Thread Pc} {es : List (Event Thread Pc)}

theorem mutex_disciplined : Disciplined (program (α := Int) .mutex n) crit := by
  intro t p m c hc
  cases p with
  | test =>
      obtain rfl := List.mem_singleton.mp hc
      change crit (if m.i t < n then .lock else .done) = false
      split <;> rfl
  | add | load | store | next =>
      obtain rfl := List.mem_singleton.mp hc
      rfl
  | lock | unlock =>
      obtain rfl := List.mem_singleton.mp hc
      exact ⟨rfl, rfl⟩
  | done => cases hc

/-- A move of one thread after which the others still see what they have seen. -/
theorem Exact.move (hs : Exact mode n s) {t : Thread} {p : Pc} (hpc : s'.pc = Function.update s.pc t p)
    (hi : ∀ u, u ≠ t → s'.mem.i u = s.mem.i u) (hgoing : Going mode n p (s'.mem.i t))
    (hself : p = .store → s'.mem.seen t = s'.mem.x)
    (hother : ∀ u, u ≠ t → s.pc u = .store → s'.mem.seen u = s'.mem.x)
    (htotal : 2 * s'.mem.x = 2 * s.mem.x + paid p (s'.mem.i t) - paid (s.pc t) (s.mem.i t)) : Exact mode n s' := by
  constructor
  · intro u
    by_cases hu : u = t
    · subst hu
      rw [hpc, Function.update_self]
      exact hgoing
    · rw [hpc, Function.update_of_ne hu, hi u hu]
      exact hs.going u
  · intro u h
    by_cases hu : u = t
    · subst hu
      rw [hpc, Function.update_self] at h
      exact hself h
    · rw [hpc, Function.update_of_ne hu] at h
      exact hother u hu h
  · rw [htotal, hs.total, hpc]
    cases t with
    | t1 =>
        have hne : Thread.t2 ≠ .t1 := by decide
        rw [Function.update_self, Function.update_of_ne hne, hi .t2 hne]
        ring
    | t2 =>
        have hne : Thread.t1 ≠ .t2 := by decide
        rw [Function.update_self, Function.update_of_ne hne, hi .t1 hne]
        ring

theorem Going.goes {p p' : Pc} {i : Int} (h : Going mode n p i) (hp : p ≠ .test) (hd : p ≠ .done)
    (hpoint : p' ∈ points mode) (hd' : p' ≠ .done) : Going mode n p' i :=
  ⟨hpoint, h.pos, h.le, fun _ _ => h.inside hp hd, fun h => absurd h hd'⟩

theorem Going.test {i : Int} (h : Going mode n .test i) : Going mode n (if i < n then mode.body else .done) i := by
  split
  · refine ⟨by cases mode <;> decide, h.pos, h.le, fun _ _ => ‹_›, fun hd => ?_⟩
    cases mode <;> cases hd
  · exact ⟨by cases mode <;> decide, h.pos, h.le, fun _ hd => absurd rfl hd, fun _ => not_lt.mp ‹_›⟩

theorem paid_test (i : Int) : paid (if i < n then mode.body else .done) i = paid .test i := by
  split
  · cases mode <;> rfl
  · rfl

theorem Exact.pass (hs : Exact mode n s) {t : Thread} {p : Pc} (hpc : s'.pc = Function.update s.pc t p)
    (hm : s'.mem = s.mem) (hgoing : Going mode n p (s.mem.i t)) (hp : p ≠ .store)
    (hpaid : paid p (s.mem.i t) = paid (s.pc t) (s.mem.i t)) : Exact mode n s' := by
  apply hs.move hpc
  · exact fun _ _ => by rw [hm]
  · rw [hm]
    exact hgoing
  · exact fun h => absurd h hp
  · intro u _ h
    rw [hm]
    exact hs.seen u h
  · rw [hm, hpaid]
    ring

section Statements

variable {t : Thread}

theorem Exact.at (hs : Exact mode n s) {p : Pc} (hp : s.pc t = p) : Going mode n p (s.mem.i t) := hp ▸ hs.going t

theorem Exact.add (hs : Exact mode n s) (hp : s.pc t = .add) (halone : ∀ u, u ≠ t → s.pc u ≠ .store)
    (hpc : s'.pc = Function.update s.pc t .next) (hm : s'.mem = { s.mem with x := s.mem.x + s.mem.i t }) :
    Exact mode n s' := by
  have hnext : Pc.next ∈ points mode := by cases mode <;> decide
  apply hs.move hpc
  · exact fun _ _ => by rw [hm]
  · rw [hm]
    exact (hs.at hp).goes (by decide) (by decide) hnext (by decide)
  · exact fun h => by cases h
  · exact fun u hu h => absurd h (halone u hu)
  · rw [hm, hp]
    simp only [paid, added]
    simp
    ring

theorem Exact.load (hs : Exact mode n s) (hp : s.pc t = .load) (hpc : s'.pc = Function.update s.pc t .store)
    (hm : s'.mem = { s.mem with seen := Function.update s.mem.seen t s.mem.x }) : Exact mode n s' := by
  have hpoint := (hs.at hp).point
  have hstore : Pc.store ∈ points mode := by revert hpoint; cases mode <;> decide
  apply hs.move hpc
  · exact fun _ _ => by rw [hm]
  · rw [hm]
    exact (hs.at hp).goes (by decide) (by decide) hstore (by decide)
  · intro _
    rw [hm]
    exact Function.update_self ..
  · intro u hu h
    rw [hm]
    exact (Function.update_of_ne hu _ _).trans (hs.seen u h)
  · rw [hm, hp]
    simp [paid, added]

/-- The second half adds to the latest value. -/
theorem Exact.store (hs : Exact mode n s) (hp : s.pc t = .store) (halone : ∀ u, u ≠ t → s.pc u ≠ .store) {p : Pc}
    (hto : p ∈ points mode) (hadded : added p = true) (hpc : s'.pc = Function.update s.pc t p)
    (hm : s'.mem = { s.mem with x := s.mem.seen t + s.mem.i t }) : Exact mode n s' := by
  have hseen : s.mem.seen t = s.mem.x := hs.seen t hp
  have hne (q : Pc) (hq : added q = false) : p ≠ q := fun h => by rw [h, hq] at hadded; cases hadded
  apply hs.move hpc
  · exact fun _ _ => by rw [hm]
  · rw [hm]
    exact (hs.at hp).goes (by decide) (by decide) hto (hne .done rfl)
  · exact fun h => absurd h (hne .store rfl)
  · exact fun u hu h => absurd h (halone u hu)
  · rw [hm, hp]
    simp only [paid, hadded, hseen]
    simp [added]
    ring

theorem Exact.next (hs : Exact mode n s) (hp : s.pc t = .next) (hpc : s'.pc = Function.update s.pc t .test)
    (hm : s'.mem = { s.mem with i := Function.update s.mem.i t (s.mem.i t + 1) }) : Exact mode n s' := by
  have hin := (hs.at hp).inside (by decide) (by decide)
  have hpos := (hs.at hp).pos
  have htest : Pc.test ∈ points mode := by cases mode <;> decide
  apply hs.move hpc
  · intro u hu
    rw [hm]
    exact Function.update_of_ne hu _ _
  · rw [hm]
    simp only [Function.update_self]
    exact ⟨htest, by omega, by omega, fun h => absurd rfl h, fun h => by cases h⟩
  · exact fun h => by cases h
  · intro u _ h
    rw [hm]
    exact hs.seen u h
  · rw [hm, hp]
    simp only [Function.update_self, paid, added]
    simp
    ring

end Statements

/-- Every step keeps the account, as long as nobody writes while another
thread has read the variable and is about to write it. -/
theorem exact_step (hs : Exact mode n s) (halone : ∀ t u, u ≠ t → s.pc t = .add ∨ s.pc t = .store → s.pc u ≠ .store)
    (h : Step (program mode n) s e s') : Exact mode n s' := by
  rcases h.view with ⟨_, hpc, hm⟩ | ⟨t, p, c, ht, hc, rfl, hpc, hm, _⟩
  · exact ⟨hpc ▸ hm ▸ hs.going, hpc ▸ hm ▸ hs.seen, hpc ▸ hm ▸ hs.total⟩
  · have hp : s.pc t = p := by simp [State.pc, ht, Ctl.pc]
    have hgoing := hs.at hp
    have hpoint := hgoing.point
    cases p with
    | test =>
        obtain rfl := List.mem_singleton.mp hc
        have hbody : mode.body ≠ .store := by cases mode <;> decide
        have hdone : Pc.done ≠ .store := by decide
        apply hs.pass hpc hm hgoing.test
        · split
          · exact hbody
          · exact hdone
        · rw [hp]
          exact paid_test _
    | lock =>
        obtain rfl := List.mem_singleton.mp hc
        have hload : Pc.load ∈ points mode := by revert hpoint; cases mode <;> decide
        apply hs.pass hpc hm (hgoing.goes (by decide) (by decide) hload (by decide)) (by decide)
        rw [hp]
        rfl
    | unlock =>
        obtain rfl := List.mem_singleton.mp hc
        have hnext : Pc.next ∈ points mode := by cases mode <;> decide
        apply hs.pass hpc hm (hgoing.goes (by decide) (by decide) hnext (by decide)) (by decide)
        rw [hp]
        rfl
    | add =>
        obtain rfl := List.mem_singleton.mp hc
        exact hs.add hp (fun u hu => halone t u hu (.inl hp)) hpc hm
    | load =>
        obtain rfl := List.mem_singleton.mp hc
        exact hs.load hp hpc hm
    | store =>
        obtain rfl := List.mem_singleton.mp hc
        have hto : (if mode = .mutex then Pc.unlock else .next) ∈ points mode := by
          revert hpoint
          cases mode <;> decide
        refine hs.store hp (fun u hu => halone t u hu (.inr hp)) hto ?_ hpc hm
        split <;> rfl
    | next =>
        obtain rfl := List.mem_singleton.mp hc
        exact hs.next hp hpc hm
    | done => cases hc

theorem no_wait (t : Thread) (p q : Pc) (m : Mem Int) : .wait q ∉ program mode n t p m := by
  intro hc
  cases p with
  | done => cases hc
  | test | add | lock | load | store | unlock | next => cases List.mem_singleton.mp hc

theorem initial_exact : Exact mode n initial where
  going _ := by
    have hpoint : Pc.test ∈ points mode := by cases mode <;> decide
    exact ⟨hpoint, le_rfl, le_max_left 1 n, fun h => absurd rfl h, nofun⟩
  seen := nofun
  total := rfl

/-- An atomic addition has no halves. -/
theorem atomic_alone (hs : Exact .atomic n s) (u : Thread) : s.pc u ≠ .store := by
  intro hu
  have hpoint := (hs.going u).point
  rw [hu] at hpoint
  revert hpoint
  decide

/-- The halves of an addition are in the critical section. -/
theorem mutex_alone (hs : Exact .mutex n s) (hl : Locked (program .mutex n) crit s) (t u : Thread) (hne : u ≠ t)
    (ht : s.pc t = .add ∨ s.pc t = .store) : s.pc u ≠ .store := by
  intro hu
  have hpoint := (hs.going t).point
  rcases ht with ht | ht
  · rw [ht] at hpoint
    revert hpoint
    decide
  · have hrun (v : Thread) (hv : s.pc v = .store) : s.ctl v = .running .store :=
      hl.running hv (fun q m => no_wait v q .store m)
    exact hne (hl.unique (hrun u hu) rfl (hrun t ht) rfl)

theorem run_exact (hmode : mode ≠ .plain) (h : Run (Step (program mode n)) initial es s) : Exact mode n s := by
  apply h.invariant (I := fun _ s => Exact mode n s)
  · exact initial_exact
  · intro ls l s s' hr hs hl
    cases mode with
    | plain => exact absurd rfl hmode
    | atomic => exact exact_step hs (fun _ u _ _ => atomic_alone hs u) hl
    | mutex =>
        have hlocked := run_locked mutex_disciplined (fun _ => rfl) hr
        exact exact_step hs (mutex_alone hs hlocked) hl

theorem two_mul_sum (h : 1 ≤ n) : 2 * ∑ i ∈ Finset.Ico 1 n, i = n * (n - 1) := by
  induction n, h using Int.leInduction with
  | base => simp
  | succ k hk ih =>
      rw [← Finset.insert_Ico_right_eq_Ico_add_one hk, Finset.sum_insert Finset.right_notMem_Ico, mul_add, ih]
      ring

theorem Exact.joined (hs : Exact mode n s) (hj : Joined s) : s.mem.x = 2 * ∑ i ∈ Finset.Ico 1 n, i := by
  have hi (t : Thread) : s.mem.i t = max 1 n := by
    have hdone := (hs.going t).done (hj t)
    have hle := (hs.going t).le
    have hpos := (hs.going t).pos
    omega
  have htotal := hs.total
  rw [hj, hj, hi, hi] at htotal
  simp only [paid, added] at htotal
  by_cases hn : 1 ≤ n
  · rw [max_eq_right hn] at htotal
    rw [two_mul_sum hn]
    simp at htotal
    omega
  · rw [max_eq_left (by omega)] at htotal
    rw [Finset.Ico_eq_empty (by omega)]
    simp at htotal ⊢
    exact htotal

/-- With the atomic addition and with the mutex, the threads get the exact sum
whatever the schedule, as far as the machine can hold it. -/
theorem exact_sum (mode : Mode) (hmode : mode ≠ .plain) (n : Int) (es : List (Event Thread Pc))
    (s : State Thread Pc (Mem (BitVec 32))) (h : Run (Step (program mode n)) initial es s) (hj : Joined s) :
    s.mem.x = BitVec.ofInt 32 (2 * ∑ i ∈ Finset.Ico 1 n, i) := by
  rw [← initial_cast] at h
  obtain ⟨s₀, h₀, rfl⟩ := run_of_map (program_tracks mode n) h
  have hx : s₀.mem.x = 2 * ∑ i ∈ Finset.Ico 1 n, i := (run_exact hmode h₀).joined hj
  rw [← hx]
  rfl

theorem exact_sum_two : ∃ es, ∃ s : State Thread Pc (Mem (BitVec 32)),
    Run (Step (program .mutex 2)) initial es s ∧ Joined s ∧ s.mem.x = BitVec.ofInt 32 (2 * ∑ i ∈ Finset.Ico 1 2, i) := by
  have hturns : ∃ s, (List.replicate 7 Thread.t1 ++ List.replicate 7 Thread.t2).foldlM (turn (program .mutex 2))
      (initial : State Thread Pc (Mem (BitVec 32))) = some s ∧ Joined s := ⟨_, rfl, fun t => by cases t <;> rfl⟩
  obtain ⟨s, hs, hj⟩ := hturns
  obtain ⟨es, hrun⟩ := turns_run hs
  exact ⟨es, s, hrun, hj, exact_sum .mutex nofun 2 es s hrun hj⟩

end UnixProg.Race.AtomicAddSum

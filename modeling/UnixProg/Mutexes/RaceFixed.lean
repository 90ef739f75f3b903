import UnixProg.Lib.MonitorRule
import UnixProg.Lib.Unlocked

namespace UnixProg.Mutexes.RaceFixed

open Lib Transition Monitor MonitorRule Unlocked

inductive Thread
  | t1
  | t2
deriving DecidableEq

/-- The argument of `thread()`. -/
def Thread.data : Thread → Int
  | .t1 => 0
  | .t2 => 1

inductive Pc
  | top
  | readA
  | readB
  | write
  | setA
  | setB
  | bottom
deriving DecidableEq

/-- The structure `foo`, the member that each thread has just read, and what
was written. -/
structure Mem where
  a : Int
  b : Int
  seen : Thread → Int
  out : List Char

/-- `thread()` of `race-fixed.c`, and without the mutex that of `race.c`. -/
def thread (locked : Bool) (t : Thread) : Pc → Mem → List (Cmd Pc Mem)
  | .top, m => [if locked then .lock .readA else .run m .readA]
  | .readA, m => [.run { m with seen := Function.update m.seen t m.a } .readB]
  | .readB, m => [.run m (if m.seen t ≠ m.b then .write else .setA)]
  | .write, m => [.run { m with out := m.out ++ [if t.data = 0 then '|' else '_'] } .setA]
  | .setA, m => [.run { m with a := t.data } .setB]
  | .setB, m => [.run { m with b := t.data } .bottom]
  | .bottom, m => [if locked then .unlock .top else .run m .top]

def initial : State Thread Pc Mem := start (fun _ => .top) ⟨0, 0, fun _ => 0, []⟩

def crit : Pc → Bool
  | .top => false
  | .readA | .readB | .write | .setA | .setB | .bottom => true

/-- The members are equal, and nobody has written anything. -/
def Silent (m : Mem) : Prop := m.a = m.b ∧ m.out = []

/-- What the holder of the mutex knows of the structure. -/
def At (t : Thread) (p : Pc) (m : Mem) : Prop :=
  match p with
  | .readB => m.seen t = m.a ∧ Silent m
  | .write => False
  | .setB => m.a = t.data ∧ m.out = []
  | .top | .readA | .setA | .bottom => Silent m

variable {s s' : State Thread Pc Mem} {es : List (Event Thread Pc)} {e : Event Thread Pc}

theorem thread_disciplined : Disciplined (thread true) crit := by
  intro t p m c hc
  cases p with
  | top | bottom =>
      obtain rfl := List.mem_singleton.mp hc
      exact ⟨rfl, rfl⟩
  | readB =>
      obtain rfl := List.mem_singleton.mp hc
      change crit (if m.seen t ≠ m.b then .write else .setA) = true
      split <;> rfl
  | readA | write | setA | setB =>
      obtain rfl := List.mem_singleton.mp hc
      rfl

theorem At.step {t : Thread} {p p' : Pc} {m m' : Mem} (h : At t p m) (hp : crit p = true)
    (hc : .run m' p' ∈ thread true t p m) : At t p' m' := by
  cases p with
  | top => cases hp
  | bottom => cases List.mem_singleton.mp hc
  | write => exact h.elim
  | readA =>
      cases List.mem_singleton.mp hc
      exact ⟨Function.update_self .., h⟩
  | readB =>
      cases List.mem_singleton.mp hc
      obtain ⟨hseen, hsilent⟩ := h
      have hsame : ¬ m.seen t ≠ m.b := not_not.mpr (hseen.trans hsilent.1)
      rw [if_neg hsame]
      exact hsilent
  | setA =>
      cases List.mem_singleton.mp hc
      exact ⟨rfl, h.2⟩
  | setB =>
      cases List.mem_singleton.mp hc
      exact h

theorem thread_rule : Rule (thread true) crit (fun _ _ _ => True) (fun _ m => Silent m) (fun t p _ m => At t p m) where
  calm_mono h _ := h
  at_mono _ h _ := h
  enter := by
    intro t p p' S m hc _ h
    cases p with
    | top =>
        cases List.mem_singleton.mp hc
        exact h
    | readA | readB | write | setA | setB | bottom => cases List.mem_singleton.mp hc
  resume := by
    intro t p q S m m' hc
    cases q <;> cases List.mem_singleton.mp hc
  inner hp hc _ _ h := h.step hp hc
  outer_calm := by
    intro t p p' S m m' hp hc
    cases p with
    | top => cases List.mem_singleton.mp hc
    | readA | readB | write | setA | setB | bottom => cases hp
  outer_at := by
    intro t p p' u q S m m' hp hc
    cases p with
    | top => cases List.mem_singleton.mp hc
    | readA | readB | write | setA | setB | bottom => cases hp
  alarm := by
    intro t p p' m hc
    cases p <;> rcases hc with hc | hc <;> cases List.mem_singleton.mp hc
  signal := by
    intro t p p' S S' m hc
    cases p <;> cases List.mem_singleton.mp hc
  broadcast := by
    intro t p p' S S' m hc
    cases p <;> cases List.mem_singleton.mp hc
  leave := by
    intro t p p' S m hc h
    cases p with
    | bottom => exact h
    | top | readA | readB | write | setA | setB => cases List.mem_singleton.mp hc
  wait := by
    intro t p p' S m hc
    cases p <;> cases List.mem_singleton.mp hc

theorem thread_plain : Plain (thread true) := by
  intro t p m q hc
  cases p <;> cases List.mem_singleton.mp hc

theorem thread_total (t : Thread) (p : Pc) (m : Mem) : thread true t p m ≠ [] := by
  cases p <;> exact List.cons_ne_nil _ _

/-- The racy program is the same one without the mutex. -/
theorem thread_unlocked : unlocked (thread true) = thread false := by
  funext t p m
  cases p <;> rfl

theorem At.silent {t : Thread} {p : Pc} {m : Mem} (h : At t p m) : m.out = [] := by
  cases p with
  | top | readA | setA | bottom => exact h.2
  | readB => exact h.2.2
  | write => exact h.elim
  | setB => exact h.2

/-- `race-fixed.c` never writes anything and never comes to a stop, and each of
its runs is one of `race.c`. -/
theorem never_writes (es : List (Event Thread Pc)) (s : State Thread Pc Mem)
    (h : Run (Step (thread true)) initial es s) :
    s.mem.out = [] ∧ (s.owner = none → s.mem.a = s.mem.b) ∧
    (∀ t u, crit (s.pc t) = true → crit (s.pc u) = true → t = u) ∧
    (∃ e s', Step (thread true) s e s' ∧ e.genuine = true) ∧
    Run (Step (thread false)) initial es ⟨none, s.ctl, s.mem⟩ := by
  have hd := thread_disciplined
  have hlock := run_locked hd (fun _ => rfl) h
  have hs := run_holds hd thread_rule (fun _ => rfl) ⟨rfl, rfl⟩ (fun _ _ _ _ => trivial) h
  have hrun := running_of_plain thread_plain hlock
  refine ⟨?_, fun hfree => (hs.calm hfree).1, fun t u ht hu => hlock.unique (hrun t) ht (hrun u) hu, ?_, ?_⟩
  · cases ho : s.owner with
    | none => exact (hs.calm ho).2
    | some t =>
        obtain ⟨p, ht, hp⟩ := (hlock.owner t).mp ho
        exact (hs.holder t p ht hp).silent
  · exact hlock.exists_step hd thread_total (t := .t1) (fun p hp => by cases hp.symm.trans (hrun .t1))
  · exact thread_unlocked ▸ run_unlocked hd thread_plain (fun _ => rfl) h

/-- The second thread goes round its loop, and the first one takes the mutex. -/
theorem never_writes_round : ∃ es s, Run (Step (thread true)) initial es s ∧ s.mem.a = 1 ∧ s.mem.out = [] := by
  obtain ⟨s, hs, ha⟩ : ∃ s : State Thread Pc Mem,
      (List.replicate 6 Thread.t2 ++ [Thread.t1]).foldlM (turn (thread true)) initial = some s ∧ s.mem.a = 1 :=
    ⟨_, rfl, rfl⟩
  obtain ⟨es, hr⟩ := turns_run hs
  exact ⟨es, s, hr, ha, (never_writes es s hr).1⟩

end UnixProg.Mutexes.RaceFixed

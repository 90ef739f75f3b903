import UnixProg.Lib.SemaphoreRule
import UnixProg.Race.SharedBytes

namespace UnixProg.Race.PosixSemFixedRace

open Lib Transition Semaphore SemaphoreRule SharedBytes

/-- The statements of a process after the fork. `failed` is the assertion after
a `waitpid()` that returned something else than the child. -/
inductive Pc
  | loop
  | wait
  | body (p : Body)
  | post
  | count
  | waitpid
  | failed
  | stats
  | clean
  | exit
  | gone
deriving DecidableEq

/-- The shared bytes with the counts `races_detected`, the other variables of
each process, and what the two did to the system. -/
structure Mem where
  bytes : Bytes
  run : Proc → Bool
  loopsDone : Proc → Nat
  printed : List (Proc × Nat × Nat)
  unlinked : Bool
  aborted : Bool
  exited : Proc → Bool

/-- Only the parent waits for the other process. -/
def afterLoop : Proc → Pc
  | .parent => .waitpid
  | .child => .stats

def printStats (t : Proc) (m : Mem) : Mem := { m with printed := m.printed ++ [(t, m.bytes.races t, m.loopsDone t)] }

def finish (t : Proc) (m : Mem) : Mem := { m with run := Function.update m.run t false }

def cleanup (t : Proc) (m : Mem) : Mem :=
  match t with
  | .parent => { m with unlinked := true }
  | .child => m

/-- The result of `sem_wait()` is not looked at: an interrupted call goes on
like a successful one. Unlinking takes only the name of the semaphore away. -/
def cmds (t : Proc) : Pc → Mem → List (Cmd Pc Mem)
  | .loop, m => [.run m (if m.run t then .wait else afterLoop t)]
  | .wait, _ => [.down (.body .check) (.body .check) none]
  | .body p, m => [.run { m with bytes := p.run t m.bytes } (p.next.elim .post .body)]
  | .post, _ => [.up .count none]
  | .count, m => [.run { m with loopsDone := Function.update m.loopsDone t (m.loopsDone t + 1) } .loop]
  | .waitpid, m => [.await (if m.exited .child then some m else none) .stats .failed]
  | .failed, m => [.run { m with aborted := true } .exit]
  | .stats, m => [.run (printStats t m) .clean]
  | .clean, m => [.run (cleanup t m) .exit]
  | .exit, m => [.run { m with exited := Function.update m.exited t true } .gone]
  | .gone, _ => []

def program : Prog Proc Pc Mem := ⟨cmds, finish⟩

/-- After the fork, with the value that `sem_open()` gave the semaphore or found in it. -/
def initial (value : Nat) : State Proc Pc Mem :=
  start value (fun _ => .loop) ⟨.zero, fun _ => true, fun _ => 0, [], false, false, fun _ => false⟩

def inside : Pc → Bool
  | .body _ | .post => true
  | _ => false

/-- What the process inside knows of the bytes. -/
def At (t : Proc) (p : Pc) (m : Mem) : Prop :=
  match p with
  | .body p => p.At t m.bytes
  | _ => Quiet m.bytes

variable {s : State Proc Pc Mem} {es : List (Event Proc)} {value : Nat}

theorem program_disciplined : Disciplined program inside := by
  intro t p m c hc
  cases p with
  | loop =>
      obtain rfl := List.mem_singleton.mp hc
      change inside (if m.run t then .wait else afterLoop t) = false
      split
      · rfl
      · cases t <;> rfl
  | body p =>
      obtain rfl := List.mem_singleton.mp hc
      cases p <;> rfl
  | wait | post =>
      obtain rfl := List.mem_singleton.mp hc
      simp [Cmd.Keeps, inside]
  | count | waitpid | failed | stats | clean | exit =>
      obtain rfl := List.mem_singleton.mp hc
      simp [Cmd.Keeps, inside]
  | gone => cases hc

/-- Where a point is in the loop body of all the versions. -/
def point : Pc → Option Body
  | .body p => some p
  | _ => none

theorem at_eq : At = Knows Mem.bytes point := by
  funext t p m
  cases p <;> rfl

theorem program_sharing : Sharing program inside Mem.bytes point where
  enter := by
    intro t p p' q r m hc
    cases p with
    | wait =>
        cases List.mem_singleton.mp hc
        rfl
    | gone => cases hc
    | loop | body p | post | count | waitpid | failed | stats | clean | exit => cases List.mem_singleton.mp hc
  leave := by
    intro t p p' r m hc
    cases p with
    | body p => cases List.mem_singleton.mp hc
    | loop | wait | post | count | waitpid | failed | stats | clean | exit | gone => rfl
  moves := by
    intro t p p' m m' c hc hm
    cases p with
    | wait | post =>
        obtain rfl := List.mem_singleton.mp hc
        exact hm.elim
    | gone => cases hc
    | waitpid =>
        obtain rfl := List.mem_singleton.mp hc
        obtain ⟨hready, rfl⟩ := hm
        obtain ⟨_, heq⟩ := Option.ite_none_right_eq_some.mp hready
        cases heq
        rfl
    | body p =>
        obtain rfl := List.mem_singleton.mp hc
        obtain ⟨rfl, rfl⟩ := hm
        cases p <;> rfl
    | loop =>
        obtain rfl := List.mem_singleton.mp hc
        obtain ⟨rfl, rfl⟩ := hm
        cases t <;> cases m'.run _ <;> rfl
    | clean =>
        obtain rfl := List.mem_singleton.mp hc
        obtain ⟨rfl, rfl⟩ := hm
        cases t <;> rfl
    | count | failed | stats | exit =>
        obtain rfl := List.mem_singleton.mp hc
        obtain ⟨rfl, rfl⟩ := hm
        rfl
  outside := by
    intro p hp
    cases p with
    | body p => cases hp
    | loop | wait | post | count | waitpid | failed | stats | clean | exit | gone => rfl
  signal := fun _ _ => rfl

theorem program_rule : Rule program inside (fun m => Quiet m.bytes) At := at_eq ▸ program_sharing.rule

def waiting : Ctl Pc → Bool
  | .blocked .wait _ => true
  | _ => false

/-- A process that is blocked in `sem_wait()` gets no SIGINT. -/
def NotWhileBlocked (s : State Proc Pc Mem) : Event Proc → Prop
  | .exec _ _ => True
  | .signal t => waiting (s.ctl t) = false

instance (s : State Proc Pc Mem) : ∀ e, Decidable (NotWhileBlocked s e)
  | .exec _ _ => inferInstanceAs (Decidable True)
  | .signal t => inferInstanceAs (Decidable (waiting (s.ctl t) = false))

theorem outside_of_not {t : Proc} {p q : Pc} {m : Mem} {c : Cmd Pc Mem} (h : NotWhileBlocked s (.signal t))
    (hbl : s.ctl t = .blocked p q) (hc : c ∈ program.cmds t p m) (hq : c.interrupted = some q) : inside q = false := by
  cases p with
  | wait =>
      rw [NotWhileBlocked, hbl] at h
      cases h
  | waitpid =>
      obtain rfl := List.mem_singleton.mp hc
      cases hq
      rfl
  | gone => cases hc
  | loop | body p | post | count | failed | stats | clean | exit =>
      obtain rfl := List.mem_singleton.mp hc
      cases hq

theorem run_of_notWhileBlocked (h : Run (Guarded (Exec (next program)) NotWhileBlocked) (initial value) es s) :
    Run (Guarded (Exec (next program)) (Harmless inside)) (initial value) es s :=
  guarded_harmless program_disciplined (fun _ _ _ _ hok hbl _ _ hc => outside_of_not hok hbl hc) h

/-- The promise of the program, for one state. -/
structure Fixed (s : State Proc Pc Mem) : Prop where
  alone (t u) (ht : inside (s.pc t) = true) (hu : inside (s.pc u) = true) : t = u
  value (v) (h : s.sem = some v) : v ≤ 1
  races (t) : s.mem.bytes.races t = 0

/-- No race is seen as long as no signal reaches a process in `sem_wait()`. -/
theorem fixed_unless_interrupted (es : List (Event Proc)) (s : State Proc Pc Mem)
    (h : Run (Guarded (Exec (next program)) NotWhileBlocked) (initial 1) es s) : Fixed s := by
  have hsafe := run_of_notWhileBlocked h
  have hone := run_conserved program_disciplined (fun _ => rfl) hsafe
  have hs := run_holds program_disciplined program_rule (fun _ => rfl) zero_quiet hsafe
  refine ⟨fun t u => unique_of_conserved hone, fun v hv => ?_, (holds_quiet (at_eq ▸ hs)).2⟩
  rw [hv] at hone
  simp only [Conserved] at hone
  omega

/-- Ctrl-C while one process is inside and the other one is running. -/
def politely : List (Event Proc) := [.exec .child 0, .exec .child 0, .exec .parent 0, .signal .child, .signal .parent]

theorem fixed_unless_interrupted_politely : ∃ s,
    Run (Guarded (Exec (next program)) NotWhileBlocked) (initial 1) politely s ∧ s.mem.run .child = false ∧ Fixed s := by
  obtain ⟨s, hs, hrun⟩ : ∃ s, replay (guardedNext NotWhileBlocked (next program)) (initial 1) politely = some s ∧
      s.mem.run .child = false := ⟨_, rfl, rfl⟩
  exact ⟨s, replay_guarded hs, hrun, fixed_unless_interrupted politely s (replay_guarded hs)⟩

/-- The child is inside and the parent blocked when the signal comes. -/
def interrupted : List (Event Proc) :=
  [.exec .child 0, .exec .child 0, .exec .parent 0, .exec .parent 0, .signal .parent,
    .exec .child 0, .exec .child 0, .exec .child 0, .exec .parent 0, .exec .parent 0]

theorem not_fixed_when_interrupted : ∃ s, Run (Exec (next program)) (initial 1) interrupted s ∧
    inside (s.pc .parent) = true ∧ inside (s.pc .child) = true ∧ s.mem.bytes.races .parent = 1 ∧ ¬ Fixed s := by
  obtain ⟨s, hs, hparent, hchild, hrace⟩ : ∃ s, replay (next program) (initial 1) interrupted = some s ∧
      inside (s.pc .parent) = true ∧ inside (s.pc .child) = true ∧ s.mem.bytes.races .parent = 1 :=
    ⟨_, rfl, rfl, rfl, rfl⟩
  refine ⟨s, replay_run hs, hparent, hchild, hrace, fun hfixed => ?_⟩
  have := hfixed.races .parent
  omega

end UnixProg.Race.PosixSemFixedRace

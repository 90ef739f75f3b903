import UnixProg.Lib.SemaphoreRule
import UnixProg.Race.SharedBytes

namespace UnixProg.Race.SemFixedRace

open Lib Transition Semaphore SemaphoreRule SharedBytes

/-- The statements of a process after the fork. `hurt` is the report of a
`semop()` that was interrupted; from `clean` on the exit status is known. -/
inductive Pc
  | loop
  | down
  | body (p : Body)
  | up
  | count
  | wait
  | hurt
  | stats
  | clean (status : Nat)
  | exit (status : Nat)
  | gone
deriving DecidableEq

/-- The shared bytes with the counts `j`, the other variables of each process,
and what the processes printed and exited with. -/
structure Mem where
  bytes : Bytes
  run : Proc → Bool
  i : Proc → Nat
  printed : List (Proc × Nat × Nat)
  exited : Proc → Option Nat

/-- Only the parent waits for the other process. -/
def afterLoop : Proc → Pc
  | .parent => .wait
  | .child => .stats

def printStats (t : Proc) (m : Mem) : Mem := { m with printed := m.printed ++ [(t, m.bytes.races t, m.i t)] }

def finish (t : Proc) (m : Mem) : Mem := { m with run := Function.update m.run t false }

def cleanup (t : Proc) (p : Pc) (m : Mem) : Cmd Pc Mem :=
  match t with
  | .parent => .remove p
  | .child => .run m p

def cmds (t : Proc) : Pc → Mem → List (Cmd Pc Mem)
  | .loop, m => [.run m (if m.run t then .down else afterLoop t)]
  | .down, _ => [.down (.body .check) .hurt (some (.clean 1))]
  | .body p, m => [.run { m with bytes := p.run t m.bytes } (p.next.elim .up .body)]
  | .up, _ => [.up .count (some (.clean 1))]
  | .count, m => [.run { m with i := Function.update m.i t (m.i t + 1) } .loop]
  | .wait, m => [.await (if (m.exited .child).isSome then some m else none) .stats .stats]
  | .hurt, m => [.run (printStats t m) (.clean 1)]
  | .stats, m => [.run (printStats t m) (.clean 0)]
  | .clean status, m => [cleanup t (.exit status) m]
  | .exit status, m => [.run { m with exited := Function.update m.exited t (some status) } .gone]
  | .gone, _ => []

def program : Prog Proc Pc Mem := ⟨cmds, finish⟩

/-- After the fork: the semaphore was set to 1 and the file is two zero bytes. -/
def initial : State Proc Pc Mem := start 1 (fun _ => .loop) ⟨.zero, fun _ => true, fun _ => 0, [], fun _ => none⟩

def inside : Pc → Bool
  | .body _ | .up => true
  | _ => false

/-- What the process inside knows of the bytes. -/
def At (t : Proc) (p : Pc) (m : Mem) : Prop :=
  match p with
  | .body p => p.At t m.bytes
  | _ => Quiet m.bytes

variable {s : State Proc Pc Mem} {es : List (Event Proc)}

theorem program_disciplined : Disciplined program inside := by
  intro t p m c hc
  cases p with
  | loop =>
      obtain rfl := List.mem_singleton.mp hc
      change inside (if m.run t then .down else afterLoop t) = false
      split
      · rfl
      · cases t <;> rfl
  | body p =>
      obtain rfl := List.mem_singleton.mp hc
      cases p <;> rfl
  | clean status =>
      obtain rfl := List.mem_singleton.mp hc
      cases t <;> rfl
  | down | up =>
      obtain rfl := List.mem_singleton.mp hc
      simp [Cmd.Keeps, inside]
  | count | wait | hurt | stats | exit status =>
      obtain rfl := List.mem_singleton.mp hc
      simp [Cmd.Keeps, inside]
  | gone => cases hc

theorem program_steady (t : Proc) (p : Pc) (m : Mem) (c : Cmd Pc Mem) (hc : c ∈ program.cmds t p m) (q : Pc)
    (hq : c.interrupted = some q) : inside q = false := by
  cases p with
  | clean status =>
      obtain rfl := List.mem_singleton.mp hc
      cases t <;> cases hq
  | gone => cases hc
  | down | wait =>
      obtain rfl := List.mem_singleton.mp hc
      cases hq
      rfl
  | loop | body p | up | count | hurt | stats | exit status =>
      obtain rfl := List.mem_singleton.mp hc
      cases hq

/-- Where a point is in the loop body of all the versions. -/
def point : Pc → Option Body
  | .body p => some p
  | _ => none

theorem at_eq : At = Knows Mem.bytes point := by
  funext t p m
  cases p <;> rfl

theorem program_sharing : Sharing program inside Mem.bytes point where
  enter := by
    intro t p p' q r m hc
    cases p with
    | down =>
        cases List.mem_singleton.mp hc
        rfl
    | clean status => cases t <;> cases List.mem_singleton.mp hc
    | gone => cases hc
    | loop | body p | up | count | wait | hurt | stats | exit status => cases List.mem_singleton.mp hc
  leave := by
    intro t p p' r m hc
    cases p with
    | body p => cases List.mem_singleton.mp hc
    | loop | down | up | count | wait | hurt | stats | clean status | exit status | gone => rfl
  moves := by
    intro t p p' m m' c hc hm
    cases p with
    | down | up =>
        obtain rfl := List.mem_singleton.mp hc
        exact hm.elim
    | gone => cases hc
    | wait =>
        obtain rfl := List.mem_singleton.mp hc
        obtain ⟨hready, rfl⟩ := hm
        obtain ⟨_, heq⟩ := Option.ite_none_right_eq_some.mp hready
        cases heq
        rfl
    | body p =>
        obtain rfl := List.mem_singleton.mp hc
        obtain ⟨rfl, rfl⟩ := hm
        cases p <;> rfl
    | loop =>
        obtain rfl := List.mem_singleton.mp hc
        obtain ⟨rfl, rfl⟩ := hm
        cases t <;> cases m'.run _ <;> rfl
    | clean status =>
        obtain rfl := List.mem_singleton.mp hc
        cases t <;> obtain ⟨rfl, rfl⟩ := hm <;> rfl
    | count | hurt | stats | exit status =>
        obtain rfl := List.mem_singleton.mp hc
        obtain ⟨rfl, rfl⟩ := hm
        rfl
  outside := by
    intro p hp
    cases p with
    | body p => cases hp
    | loop | down | up | count | wait | hurt | stats | clean status | exit status | gone => rfl
  signal := fun _ _ => rfl

theorem program_rule : Rule program inside (fun m => Quiet m.bytes) At := at_eq ▸ program_sharing.rule

/-- Mutual exclusion and no race, whatever way the processes are told to end. -/
theorem no_race_until_exit (es : List (Event Proc)) (s : State Proc Pc Mem) (h : Run (Exec (next program)) initial es s) :
    (∀ v, s.sem = some v → v + occupancy inside s = 1) ∧
    (s.sem = none → occupancy inside s ≤ 1) ∧
    ((∀ t, inside (s.pc t) = false) → s.mem.bytes.addr0 = s.mem.bytes.addr1) ∧
    ∀ t, s.mem.bytes.races t = 0 := by
  have hsafe := run_harmless program_disciplined program_steady h
  have hone := run_conserved program_disciplined (fun _ => rfl) hsafe
  have hs := run_holds program_disciplined program_rule (fun _ => rfl) zero_quiet hsafe
  refine ⟨fun v hv => ?_, fun hnone => ?_, holds_quiet (at_eq ▸ hs)⟩
  · rwa [hv] at hone
  · rwa [hnone] at hone

/-- The child is inside when the parent, interrupted in its own `semop()`,
removes the semaphore. -/
def removal : List (Event Proc) :=
  [.exec .child 0, .exec .child 0, .exec .parent 0, .exec .parent 0, .signal .parent, .exec .parent 0, .exec .parent 0]

theorem no_race_until_exit_removal : ∃ s, Run (Exec (next program)) initial removal s ∧ s.sem = none ∧
    s.pc .child = .body .check ∧
    ((∀ v, s.sem = some v → v + occupancy inside s = 1) ∧ (s.sem = none → occupancy inside s ≤ 1) ∧
      ((∀ t, inside (s.pc t) = false) → s.mem.bytes.addr0 = s.mem.bytes.addr1) ∧ ∀ t, s.mem.bytes.races t = 0) := by
  obtain ⟨s, hs, hsem, hpc⟩ : ∃ s, replay (next program) initial removal = some s ∧ s.sem = none ∧
      s.pc .child = .body .check := ⟨_, rfl, rfl, rfl⟩
  exact ⟨s, replay_run hs, hsem, hpc, no_race_until_exit removal s (replay_run hs)⟩

end UnixProg.Race.SemFixedRace

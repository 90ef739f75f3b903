import UnixProg.Lib.ProcessRule
import UnixProg.Lib.RecordLock
import UnixProg.Race.SharedBytes

namespace UnixProg.Race.FcntlFixedRace

open Lib Transition FileStore Semaphore SemaphoreRule ProcessRule RecordLock SharedBytes

/-- The statements of a process after the fork. `hurt` is the report of an
`fcntl()` that was interrupted. -/
inductive Pc
  | loop
  | lock
  | body (p : Body)
  | unlock
  | count
  | wait
  | munmap
  | close
  | stats
  | hurt
  | exit (status : Nat)
  | gone
deriving DecidableEq

/-- The shared bytes with the counts `j`, the other variables of each process,
and what the processes printed and exited with. -/
structure Mem where
  bytes : Bytes
  run : Proc → Bool
  i : Proc → Nat
  printed : List (Proc × Nat × Nat)
  exited : Proc → Option Nat

/-- Both bytes of the file. -/
def region : Region := ⟨0, 2⟩

def printStats (t : Proc) (m : Mem) : Mem := { m with printed := m.printed ++ [(t, m.bytes.races t, m.i t)] }

def finish (t : Proc) (m : Mem) : Mem := { m with run := Function.update m.run t false }

/-- Only the parent waits for the other process. -/
def afterLoop : Proc → Pc
  | .parent => .wait
  | .child => .munmap

def lockUnlock (n : Int) (m : Mem) (p : Pc) : LockCmd Pc Mem :=
  match n with
  | 1 => .unlock region p
  | -1 => .setlkw .write region p .hurt
  | _ => .run m (.exit 1)

def cmds (t : Proc) : Pc → Mem → List (LockCmd Pc Mem)
  | .loop, m => [.run m (if m.run t then .lock else afterLoop t)]
  | .lock, m => [lockUnlock (-1) m (.body .check)]
  | .body p, m => [.run { m with bytes := p.run t m.bytes } (p.next.elim .unlock .body)]
  | .unlock, m => [lockUnlock 1 m .count]
  | .count, m => [.run { m with i := Function.update m.i t (m.i t + 1) } .loop]
  | .wait, m => [.await (if (m.exited .child).isSome then some m else none) .munmap .munmap]
  | .munmap, m => [.run m .close]
  | .close, m => [.close m .stats]
  | .stats, m => [.run (printStats t m) (.exit 0)]
  | .hurt, m => [.run (printStats t m) (.exit 1)]
  | .exit status, m => [.close { m with exited := Function.update m.exited t (some status) } .gone]
  | .gone, _ => []

def program : LockProg Proc Pc Mem := ⟨cmds, finish⟩

/-- After the fork: the file is two zero bytes and nobody has locked it. -/
def initial : LockState Proc Pc Mem := RecordLock.start (fun _ => .loop) ⟨.zero, fun _ => true, fun _ => 0, [], fun _ => none⟩

def inside : Pc → Bool
  | .body _ | .unlock => true
  | _ => false

/-- Where a point is in the loop body of all the versions. -/
def point : Pc → Option Body
  | .body p => some p
  | _ => none

/-- Past the report of the process. -/
def reported : Pc → Bool
  | .exit _ | .gone => true
  | _ => false

def reports (t : Proc) (m : Mem) : Nat := m.printed.countP (fun l => l.1 = t)

/-- A process reports once, and has done so when it exits. -/
structure Reporting (t : Proc) (p : Pc) (m : Mem) : Prop where
  once : reports t m = (reported p).toNat
  exited (h : (m.exited t).isSome = true) : p = .gone

variable {s : LockState Proc Pc Mem} {es : List (Event Proc)}

theorem program_bracketing : Bracketing program region inside where
  pos := by decide
  brackets := by
    intro t p m c hc
    cases p with
    | loop =>
        obtain rfl := List.mem_singleton.mp hc
        change inside (if m.run t then .lock else afterLoop t) = false
        split
        · rfl
        · cases t <;> rfl
    | body p =>
        obtain rfl := List.mem_singleton.mp hc
        cases p <;> rfl
    | lock | unlock =>
        obtain rfl := List.mem_singleton.mp hc
        simp [lockUnlock, LockCmd.Brackets, inside]
    | count | wait | munmap | close | stats | hurt | exit status =>
        obtain rfl := List.mem_singleton.mp hc
        simp [LockCmd.Brackets, inside]
    | gone => cases hc

theorem program_sharing : Sharing program.guard inside Mem.bytes point where
  enter := by
    intro t p p' q r m hc
    cases p with
    | lock =>
        cases List.mem_singleton.mp hc
        rfl
    | gone => cases hc
    | loop | body p | unlock | count | wait | munmap | close | stats | hurt | exit status =>
        cases List.mem_singleton.mp hc
  leave := by
    intro t p p' r m hc
    cases p with
    | body p => cases List.mem_singleton.mp hc
    | loop | lock | unlock | count | wait | munmap | close | stats | hurt | exit status | gone => rfl
  moves := by
    intro t p p' m m' c hc hm
    cases p with
    | lock | unlock =>
        obtain rfl := List.mem_singleton.mp hc
        exact hm.elim
    | gone => cases hc
    | wait =>
        obtain rfl := List.mem_singleton.mp hc
        obtain ⟨hready, rfl⟩ := hm
        obtain ⟨_, heq⟩ := Option.ite_none_right_eq_some.mp hready
        cases heq
        rfl
    | body p =>
        obtain rfl := List.mem_singleton.mp hc
        obtain ⟨rfl, rfl⟩ := hm
        cases p <;> rfl
    | loop =>
        obtain rfl := List.mem_singleton.mp hc
        obtain ⟨rfl, rfl⟩ := hm
        cases t <;> cases m'.run _ <;> rfl
    | count | munmap | close | stats | hurt | exit status =>
        obtain rfl := List.mem_singleton.mp hc
        obtain ⟨rfl, rfl⟩ := hm
        rfl
  outside := by
    intro p hp
    cases p with
    | body p => cases hp
    | loop | lock | unlock | count | wait | munmap | close | stats | hurt | exit status | gone => rfl
  signal := fun _ _ => rfl

theorem reports_printStats (t u : Proc) (m : Mem) :
    reports u (printStats t m) = reports u m + if t = u then 1 else 0 := by
  simp [reports, printStats, List.countP_append, List.countP_singleton]

theorem goes_self {t : Proc} {p p' : Pc} {m m' : Mem} {c : Cmd Pc Mem} (hc : c ∈ program.guard.cmds t p m)
    (hg : c.Goes m m' p') (h : Reporting t p m) : Reporting t p' m' := by
  have hnone (hp : p ≠ .gone) : ¬ (m.exited t).isSome = true := fun he => hp (h.exited he)
  cases p with
  | gone => cases hc
  | stats | hurt =>
      obtain rfl := List.mem_singleton.mp hc
      obtain ⟨rfl, rfl⟩ := hg
      refine ⟨?_, fun he => absurd he (hnone nofun)⟩
      rw [reports_printStats, h.once, if_pos rfl]
      rfl
  | exit status =>
      obtain rfl := List.mem_singleton.mp hc
      obtain ⟨rfl, rfl⟩ := hg
      exact ⟨h.once, fun _ => rfl⟩
  | lock | unlock =>
      obtain rfl := List.mem_singleton.mp hc
      obtain ⟨rfl, rfl | hr⟩ := hg
      · exact ⟨h.once, fun he => absurd he (hnone nofun)⟩
      · cases hr
  | wait =>
      obtain rfl := List.mem_singleton.mp hc
      obtain ⟨hready, rfl⟩ := hg
      obtain ⟨_, heq⟩ := Option.ite_none_right_eq_some.mp hready
      cases heq
      exact ⟨h.once, fun he => absurd he (hnone nofun)⟩
  | body p =>
      obtain rfl := List.mem_singleton.mp hc
      obtain ⟨rfl, rfl⟩ := hg
      refine ⟨?_, fun he => absurd he (hnone nofun)⟩
      cases p <;> exact h.once
  | loop =>
      obtain rfl := List.mem_singleton.mp hc
      obtain ⟨rfl, rfl⟩ := hg
      refine ⟨?_, fun he => absurd he (hnone nofun)⟩
      cases t <;> cases m'.run _ <;> exact h.once
  | count | munmap | close =>
      obtain rfl := List.mem_singleton.mp hc
      obtain ⟨rfl, rfl⟩ := hg
      exact ⟨h.once, fun he => absurd he (hnone nofun)⟩

theorem goes_other {t u : Proc} {p p' q : Pc} {m m' : Mem} {c : Cmd Pc Mem} (hc : c ∈ program.guard.cmds t p m)
    (hg : c.Goes m m' p') (hu : u ≠ t) (h : Reporting u q m) : Reporting u q m' := by
  suffices hsame : reports u m' = reports u m ∧ m'.exited u = m.exited u from
    ⟨hsame.1.trans h.once, fun he => h.exited (hsame.2 ▸ he)⟩
  cases p with
  | gone => cases hc
  | stats | hurt =>
      obtain rfl := List.mem_singleton.mp hc
      obtain ⟨rfl, rfl⟩ := hg
      refine ⟨?_, rfl⟩
      rw [reports_printStats, if_neg hu.symm, Nat.add_zero]
  | exit status =>
      obtain rfl := List.mem_singleton.mp hc
      obtain ⟨rfl, rfl⟩ := hg
      exact ⟨rfl, Function.update_of_ne hu _ _⟩
  | lock | unlock =>
      obtain rfl := List.mem_singleton.mp hc
      rw [hg.1]
      exact ⟨rfl, rfl⟩
  | wait =>
      obtain rfl := List.mem_singleton.mp hc
      obtain ⟨hready, rfl⟩ := hg
      obtain ⟨_, heq⟩ := Option.ite_none_right_eq_some.mp hready
      cases heq
      exact ⟨rfl, rfl⟩
  | loop | body p | count | munmap | close =>
      obtain rfl := List.mem_singleton.mp hc
      obtain ⟨rfl, rfl⟩ := hg
      exact ⟨rfl, rfl⟩

/-- An interruption happens before the report, and leads to a point before it. -/
theorem interrupted_reporting {t : Proc} {p q : Pc} {m m₁ : Mem} {c : Cmd Pc Mem}
    (hc : c ∈ program.guard.cmds t p m₁) (hq : c.interrupted = some q) (h : Reporting t p m) : Reporting t q m := by
  cases p with
  | gone => cases hc
  | lock | wait =>
      obtain rfl := List.mem_singleton.mp hc
      cases hq
      exact ⟨h.once, fun he => nomatch h.exited he⟩
  | loop | body p | unlock | count | munmap | close | stats | hurt | exit status =>
      obtain rfl := List.mem_singleton.mp hc
      cases hq

theorem guard_own : Own program.guard (fun _ _ => True) Reporting where
  self := goes_self
  other := fun hc hg _ hu h => goes_other hc hg hu h
  handled := fun _ h => ⟨h.once, h.exited⟩
  interrupted := fun _ _ hc hq h => interrupted_reporting hc hq h

theorem run_reporting {a : State Proc Pc Mem}
    (h : Run (Exec (Semaphore.next program.guard)) (Semaphore.start 1 (fun _ => .loop) initial.mem) es a) :
    ∀ t, Reporting t (a.pc t) a.mem := by
  have hinit (t : Proc) : Reporting t .loop initial.mem := ⟨rfl, fun he => by cases he⟩
  exact run_own_always guard_own hinit h

/-- Mutual exclusion, no race and one report from each process, whatever way
the processes are told to end. -/
theorem fixed_and_reported (es : List (Event Proc)) (s : LockState Proc Pc Mem)
    (h : Run (Exec (RecordLock.next program)) initial es s) :
    (∀ t u, inside (s.pc t) = true → inside (s.pc u) = true → t = u) ∧
    ((∀ t b, s.locks t b = none) → s.mem.bytes.addr0 = s.mem.bytes.addr1) ∧
    (∀ t, s.mem.bytes.races t = 0) ∧
    ∀ t, reports t s.mem ≤ 1 ∧ ((s.mem.exited t).isSome = true → reports t s.mem = 1) := by
  have hb := program_bracketing
  obtain ⟨howned, v, hr⟩ := run_guard hb (fun _ => rfl) h
  have hd := guard_disciplined hb
  have hs := run_holds hd program_sharing.rule (fun _ => rfl) zero_quiet (run_harmless hd (guard_steady hb) hr)
  obtain ⟨hequal, hraces⟩ := holds_quiet hs
  have hreport (t : Proc) : Reporting t (s.pc t) s.mem := run_reporting hr t
  refine ⟨fun t u => run_exclusive hb (fun _ => rfl) h, fun hfree => hequal (outside_of_free hb howned hfree), hraces,
    fun t => ⟨?_, fun he => ?_⟩⟩
  · rw [(hreport t).once]
    exact Bool.toNat_le _
  · rw [(hreport t).once, (hreport t).exited he]
    rfl

/-- The child is interrupted while it waits for the lock, and ends before the parent. -/
def interruption : List (Event Proc) :=
  [.exec .parent 0, .exec .parent 0, .exec .child 0, .exec .child 0, .signal .child, .exec .child 0, .exec .child 0]

theorem fixed_and_reported_interruption : ∃ s, Run (Exec (RecordLock.next program)) initial interruption s ∧
    s.mem.exited .child = some 1 ∧ reports .child s.mem = 1 := by
  obtain ⟨s, hs, hexit⟩ : ∃ s, replay (RecordLock.next program) initial interruption = some s ∧
      s.mem.exited .child = some 1 := ⟨_, rfl, rfl⟩
  refine ⟨s, replay_run hs, hexit, ?_⟩
  exact ((fixed_and_reported interruption s (replay_run hs)).2.2.2 .child).2 (by rw [hexit]; rfl)

end UnixProg.Race.FcntlFixedRace

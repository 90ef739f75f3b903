import UnixProg.Lib.Credentials

namespace UnixProg.Setuid.ScreateFile

open Lib Transition Credentials

def root : Nat := 0

/-- A directory with its owner and its permission bits. -/
structure Dir where
  owner : Nat
  mode : BitVec 9

/-- The class of a user that is not the owner. -/
inductive Class
  | group
  | other
deriving DecidableEq

/-- Creating a file takes the bits for writing and for searching of the class
of the user, and root may always do it. -/
def Dir.permits (d : Dir) (uid : Nat) (cls : Class) : Bool :=
  decide (uid = root) ||
    (if uid = d.owner then d.mode.getLsbD 7 && d.mode.getLsbD 6
    else match cls with
      | .group => d.mode.getLsbD 4 && d.mode.getLsbD 3
      | .other => d.mode.getLsbD 1 && d.mode.getLsbD 0)

def mkdir (umask : BitVec 9) (c : Cred Nat) : Dir := ⟨c.euid, 0o777 &&& ~~~umask⟩

/-- Only the owner and root change the bits. -/
def Dir.chmod (d : Dir) (c : Cred Nat) (mode : BitVec 9) : Option Dir :=
  if c.euid = d.owner ∨ c.euid = root then some { d with mode := mode } else none

inductive Line
  | ids (ruid euid : Nat)
  | dirCreated
  | fileCreated
deriving DecidableEq

/-- What there is at the end, with the owner of the file if it was created. -/
structure Outcome where
  dir : Dir
  file : Option Nat
  lines : List Line
  cred : Cred Nat

/-- Nothing comes back where an assertion fails. The directory and the file do
not exist before, and what `open()` answers is not looked at. `setuid()` is that
of POSIX; on the BSDs it sets the saved id of an ordinary process too. -/
def main (umask : BitVec 9) (cls : Class) (c : Cred Nat) : Option Outcome := do
  let dir ← (mkdir umask c).chmod c 0o777
  let c' ← setuid root c.ruid c
  some {
    dir := dir
    file := if dir.permits c'.euid cls then some c'.euid else none
    lines := [.ids c.ruid c.euid, .dirCreated, .ids c'.ruid c'.euid, .fileCreated]
    cred := c' }

variable {umask : BitVec 9} {cls : Class} {c : Cred Nat}

/-- Everybody may create a file once all the bits are set. -/
theorem permits_all (owner uid : Nat) (cls : Class) : Dir.permits ⟨owner, 0o777⟩ uid cls = true := by
  cases cls <;> simp [Dir.permits]

theorem main_eq (umask : BitVec 9) (cls : Class) (c : Cred Nat) : main umask cls c = some {
    dir := ⟨c.euid, 0o777⟩
    file := some c.ruid
    lines := [.ids c.ruid c.euid, .dirCreated, .ids c.ruid c.ruid, .fileCreated]
    cred := ⟨c.ruid, c.ruid, if c.euid = root then c.ruid else c.suid⟩ } := by
  have hchmod : (mkdir umask c).chmod c 0o777 = some ⟨c.euid, 0o777⟩ := if_pos (.inl rfl)
  simp only [main, hchmod, setuid_ruid, Option.bind_eq_bind, Option.bind_some, permits_all, if_true]

/-- Started from a file that sets the user id, the program makes a directory of
the owner of that file and a file of the user, with any mask; and it can take
the id of the owner again unless that is root. -/
theorem owners_and_return (umask : BitVec 9) (cls : Class) (p : Policy) (c : Cred Nat) (h : c.suid = c.euid) :
    ∃ o, main umask cls c = some o ∧ o.dir.owner = c.euid ∧ o.file = some c.ruid ∧
      o.lines = [.ids c.ruid c.euid, .dirCreated, .ids c.ruid c.ruid, .fileCreated] ∧
      (Attainable p root o.cred c.euid ↔ (c.euid = root → c.ruid = root)) := by
  refine ⟨_, main_eq umask cls c, rfl, rfl, rfl, ?_⟩
  rw [attainable_iff, Cred.mem_ids, Cred.mem_ids]
  by_cases hroot : c.euid = root
  · simp only [hroot, if_true, or_self, true_imp_iff]
    exact eq_comm
  · simp only [hroot, if_false, false_imp_iff, iff_true]
    exact .inr (.inr (.inr h.symm))

theorem owners_and_return_user : ∃ o, main 0o022 .other ⟨1001, 1000, 1000⟩ = some o ∧ o.dir.owner = 1000 ∧
    o.file = some 1001 ∧ Attainable ⟨true, false⟩ root o.cred 1000 := by
  obtain ⟨o, ho, howner, hfile, _, hreturn⟩ := owners_and_return 0o022 .other ⟨true, false⟩ ⟨1001, 1000, 1000⟩ rfl
  exact ⟨o, ho, howner, hfile, hreturn.mpr (by decide)⟩

end UnixProg.Setuid.ScreateFile

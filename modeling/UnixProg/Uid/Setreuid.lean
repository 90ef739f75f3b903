import UnixProg.Lib.Credentials

namespace UnixProg.Uid.Setreuid

open Lib Transition Credentials

def root : Nat := 0

/-- The real and the effective id, and whether `open()` succeeded. -/
inductive Line
  | ids (ruid euid : Nat)
  | test (opened : Bool)
deriving DecidableEq

/-- What a program printed, the ids that it has at its end and its exit status. -/
structure Outcome where
  lines : List Line
  cred : Cred Nat
  status : Nat

/-- The file is readable for some effective ids. -/
def describe (readable : Nat → Bool) (c : Cred Nat) : List Line := [.ids c.ruid c.euid, .test (readable c.euid)]

/-- The calls up to the first one that fails. -/
def perform (p : Policy) (c : Cred Nat) : List (Call Nat) → Cred Nat × Bool
  | [] => (c, true)
  | k :: ks => match next p root c k with
    | some c' => perform p c' ks
    | none => (c, false)

/-- All three programs report before and after their calls, and call `err()`
when one of them fails. They report names, and take it that each id has one:
for an id without an entry `getpwuid()` and `getgrgid()` return NULL. -/
def main (p : Policy) (readable : Nat → Bool) (calls : List (Call Nat)) (c : Cred Nat) : Outcome :=
  match perform p c calls with
  | (c', true) => ⟨describe readable c ++ describe readable c', c', 0⟩
  | (c', false) => ⟨describe readable c, c', 1⟩

/-- `setuid.c` -/
def setuidCalls : List (Call Nat) := [.setuid 1062]

/-- `setreuid.c` -/
def setreuidCalls : List (Call Nat) := [.setreuid (some 1064) (some 1062)]

/-- `setreuid2.c` -/
def setreuid2Calls : List (Call Nat) := [.setuid 162948, .setuid 113369]

variable {p : Policy} {readable : Nat → Bool} {c : Cred Nat} {k : Call Nat} {ks : List (Call Nat)}

theorem main_cred : (main p readable ks c).cred = (perform p c ks).1 := by
  rw [main]
  split <;> simp [*]

theorem perform_of_some {c' : Cred Nat} (h : next p root c k = some c') : perform p c (k :: ks) = perform p c' ks := by
  rw [perform, h]

theorem perform_of_none (h : next p root c k = none) : perform p c (k :: ks) = (c, false) := by
  rw [perform, h]

theorem setuid_of_ne (hroot : c.euid ≠ root) (u : Nat) :
    next p root c (.setuid u) = if u = c.ruid ∨ u = c.suid then some { c with euid := u } else none := if_neg hroot

theorem setuid_of_root (hroot : c.euid = root) (u : Nat) : next p root c (.setuid u) = some ⟨u, u, u⟩ := if_pos hroot

/-- A process that starts the programs with the privileges has lost them for
good at their ends, also where the second call of `setreuid2.c` has failed. -/
theorem dropped_for_good (p : Policy) (readable : Nat → Bool) (c : Cred Nat) (h : c.euid = root) (u : Nat) :
    (Attainable p root (main p readable setuidCalls c).cred u ↔ u = 1062) ∧
    (Attainable p root (main p readable setreuidCalls c).cred u ↔ u = 1064 ∨ u = 1062) ∧
    (Attainable p root (main p readable setreuid2Calls c).cred u ↔ u = 162948) := by
  simp only [main_cred, attainable_iff]
  refine ⟨?_, ?_, ?_⟩
  · rw [setuidCalls, perform_of_some (setuid_of_root h 1062)]
    simp [perform, Cred.mem_ids, root]
  · have hset : next p root c (.setreuid (some 1064) (some 1062)) = some ⟨1064, 1062, 1062⟩ := by
      rw [next, setreuid, if_pos (.inl h)]
      simp
    rw [setreuidCalls, perform_of_some hset]
    simp [perform, Cred.mem_ids, root]
  · have hfail : next p root (⟨162948, 162948, 162948⟩ : Cred Nat) (.setuid 113369) = none := by
      rw [setuid_of_ne (by decide)]
      rfl
    rw [setreuid2Calls, perform_of_some (setuid_of_root h 162948), perform_of_none hfail]
    simp [Cred.mem_ids, root]

/-- Started by a user from a file of root that sets the user id. -/
theorem dropped_for_good_setuid : ¬ Attainable ⟨true, false⟩ root (main ⟨true, false⟩ (fun _ => true) setreuid2Calls
    ⟨1000, root, root⟩).cred root := by
  intro h
  have hid := (dropped_for_good ⟨true, false⟩ (fun _ => true) ⟨1000, root, root⟩ rfl root).2.2.mp h
  exact absurd hid (by decide)

end UnixProg.Uid.Setreuid

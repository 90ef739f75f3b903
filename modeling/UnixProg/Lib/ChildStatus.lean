import Mathlib.Data.List.Basic
import Mathlib.Tactic.Common

namespace UnixProg.Lib.ChildStatus

/-- How a process ends. -/
inductive End
  | exited (code : UInt8)
  | signaled (sig : Nat)
deriving DecidableEq

/-- What `waitpid()` can tell about a child. -/
inductive Status
  | ended (how : End)
  | stopped
  | continued
deriving DecidableEq

/-- A child, and whether the last change of its status has still to be told to
its parent. Nothing is kept of one that has ended while the parent ignores SIGCHLD. -/
inductive Child
  | running (continued : Bool)
  | stopped (untold : Bool)
  | zombie (how : End)
  | reaped
  | discarded
deriving DecidableEq

inductive Event
  | stop
  | cont
  | finish (how : End)
deriving DecidableEq

/-- Only a running process is stopped, and only a stopped one is continued. -/
def Child.next (ignored : Bool) (c : Child) (e : Event) : Child :=
  match e, c with
  | .stop, .running _ => .stopped true
  | .cont, .stopped _ => .running true
  | .finish how, .running _ | .finish how, .stopped _ => if ignored then .discarded else .zombie how
  | _, c => c

/-- The changes that the parent can be told of. -/
def Child.news (ignored : Bool) (c : Child) (e : Event) : List Status :=
  match e, c with
  | .stop, .running _ => [.stopped]
  | .cont, .stopped _ => [.continued]
  | .finish how, .running _ | .finish how, .stopped _ => if ignored then [] else [.ended how]
  | _, _ => []

/-- `waitpid()` with WUNTRACED and WCONTINUED. It sleeps as long as there is
nothing to tell, and fails when there is no such child any more. -/
def Child.wait : Child → Option (Option Status × Child)
  | .running true => some (some .continued, .running false)
  | .stopped true => some (some .stopped, .stopped false)
  | .zombie how => some (some (.ended how), .reaped)
  | .running false | .stopped false => none
  | .reaped => some (none, .reaped)
  | .discarded => some (none, .discarded)

/-- The child has not ended. -/
def Child.alive : Child → Bool
  | .running _ | .stopped _ => true
  | .zombie _ | .reaped | .discarded => false

def Child.untold : Child → List Status
  | .running true => [.continued]
  | .stopped true => [.stopped]
  | .zombie how => [.ended how]
  | .running false | .stopped false | .reaped | .discarded => []

/-- What the parent has been told, together with what it can be told next. -/
structure Follows (told : List Status) (c : Child) (changes : List Status) : Prop where
  sublist : (told ++ c.untold).Sublist changes
  last (h : c ≠ .discarded) : (told ++ c.untold).getLast? = changes.getLast?

variable {c c' : Child} {e : Event} {told changes : List Status} {status : Status}

/-- What a child becomes that has not ended before. -/
theorem next_alive (ignored : Bool) (e : Event) (h : c.alive = true) : c.next ignored e ≠ .reaped ∧
    ((c.next ignored e).alive = false → (c.next ignored e = .discarded ↔ ignored = true)) := by
  cases c with
  | running | stopped => cases e <;> cases ignored <;> simp [Child.next, Child.alive]
  | zombie | reaped | discarded => cases h

theorem follows_new : Follows [] (.running false) [] := ⟨List.Sublist.refl _, fun _ => rfl⟩

theorem Follows.change (h : Follows told c changes) (hc : c'.untold = [status]) : Follows told c' (changes ++ [status]) where
  sublist := by
    rw [hc]
    exact ((List.sublist_append_left _ _).trans h.sublist).append (List.Sublist.refl _)
  last _ := by
    rw [hc]
    simp

/-- A change of the status takes the place of the one before, if that was not told yet. -/
theorem Follows.next (h : Follows told c changes) (ignored : Bool) (e : Event) :
    Follows told (c.next ignored e) (changes ++ c.news ignored e) := by
  have hsame : Follows told c (changes ++ []) := by rwa [List.append_nil]
  cases e with
  | stop =>
      cases c with
      | running => exact h.change rfl
      | stopped | zombie | reaped | discarded => exact hsame
  | cont =>
      cases c with
      | stopped => exact h.change rfl
      | running | zombie | reaped | discarded => exact hsame
  | finish how =>
      cases c with
      | running | stopped =>
          cases ignored with
          | true =>
              refine ⟨?_, fun hne => absurd rfl hne⟩
              have hsub := (List.sublist_append_left _ _).trans h.sublist
              simpa [Child.next, Child.news, Child.untold] using hsub
          | false => exact h.change rfl
      | zombie | reaped | discarded => exact hsame

theorem wait_cases (h : c.wait = some (some status, c')) :
    c.untold = [status] ∧ c'.untold = [] ∧ c ≠ .discarded := by
  cases c with
  | running b | stopped b =>
      cases b <;> cases h
      exact ⟨rfl, rfl, by simp⟩
  | zombie =>
      cases h
      exact ⟨rfl, rfl, by simp⟩
  | reaped | discarded => cases h

theorem Follows.wait (h : Follows told c changes) (hw : c.wait = some (some status, c')) :
    Follows (told ++ [status]) c' changes := by
  obtain ⟨hc, hc', hne⟩ := wait_cases hw
  have hsub := h.sublist
  have hlast := h.last hne
  rw [hc] at hsub hlast
  exact ⟨by rwa [hc', List.append_nil], fun _ => by rwa [hc', List.append_nil]⟩

/-- Once there is nothing more to tell, the parent knows the child's status. -/
theorem Follows.asleep (h : Follows told c changes) (hw : c.wait = none) : told.getLast? = changes.getLast? := by
  have hlast := h.last (by rintro rfl; cases hw)
  cases c with
  | running b | stopped b =>
      cases b
      · rwa [Child.untold, List.append_nil] at hlast
      · cases hw
  | zombie | reaped | discarded => cases hw

end UnixProg.Lib.ChildStatus

import UnixProg.Lib.ChildStatus
import UnixProg.Lib.Transition

namespace UnixProg.Wait.Waitpid

open Lib Transition

open ChildStatus (Child Status End Follows)

inductive ParentPc
  | fork
  | printPid
  | waitpid
  | test (status : Status)
  | exited
  | failed
  | aborted
deriving DecidableEq

/-- The child up to its `execl()`, the program it executes, and what it does when that fails. -/
inductive ChildPc
  | absent
  | printPid
  | printExec
  | execl
  | sleep
  | err
deriving DecidableEq

inductive Line
  | parentPid
  | childPid
  | childExec
  | execlError
  | status (status : Status)
deriving DecidableEq

structure State where
  parent : ParentPc
  pc : ChildPc
  child : Child
  lines : List Line
deriving DecidableEq

/-- A call of the parent and one of the child, which succeed or not where they
can fail, and what happens to the child from outside. -/
inductive Event
  | parent (ok : Bool)
  | child (ok : Bool)
  | signal (e : ChildStatus.Event)
deriving DecidableEq

def parentStep (ok : Bool) (s : State) : Option State :=
  match s.parent with
  | .fork =>
      if ok then some { s with parent := .printPid, pc := .printPid, child := .running false }
      else some { s with parent := .failed }
  | .printPid => some { s with parent := .waitpid, lines := s.lines ++ [.parentPid] }
  | .waitpid => s.child.wait.map fun
      | (some status, child) => { s with parent := .test status, child := child }
      | (none, child) => { s with parent := .aborted, child := child }
  | .test status =>
      some { s with
        lines := s.lines ++ [.status status]
        parent := match status with
          | .ended _ => .exited
          | .stopped | .continued => .waitpid }
  | .exited | .failed | .aborted => none

/-- The child runs only while it is not stopped. -/
def childStep (ignored ok : Bool) (s : State) : Option State :=
  match s.child with
  | .running _ =>
      match s.pc with
      | .printPid => some { s with pc := .printExec, lines := s.lines ++ [.childPid] }
      | .printExec => some { s with pc := .execl, lines := s.lines ++ [.childExec] }
      | .execl => some { s with pc := if ok then .sleep else .err }
      | .err => some { s with lines := s.lines ++ [.execlError], child := s.child.next ignored (.finish (.exited 1)) }
      | .absent | .sleep => none
  | .stopped _ | .zombie _ | .reaped | .discarded => none

/-- Only the program that the child executes exits by itself, and only while
it runs; signals can come as long as the child has not ended. -/
def Possible (s : State) : ChildStatus.Event → Bool
  | .finish (.exited _) => s.pc = .sleep ∧ (s.child = .running true ∨ s.child = .running false)
  | .stop | .cont | .finish (.signaled _) => s.pc ≠ .absent ∧ s.child.alive

/-- SIGCHLD is `ignored` or not when the program starts. -/
def next (ignored : Bool) (s : State) : Event → Option State
  | .parent ok => parentStep ok s
  | .child ok => childStep ignored ok s
  | .signal e => if Possible s e then some { s with child := s.child.next ignored e } else none

def initial : State := ⟨.fork, .absent, .running false, []⟩

/-- The changes of the child's status in a step. -/
def news (ignored : Bool) (s : State) : Event → List Status
  | .parent _ => []
  | .child _ => if s.pc = .err then s.child.news ignored (.finish (.exited 1)) else []
  | .signal e => s.child.news ignored e

def changes (ignored : Bool) (es : List Event) : List Status := trace (next ignored) (news ignored) initial es

def Line.told : Line → Option Status
  | .status st => some st
  | .parentPid | .childPid | .childExec | .execlError => none

def ParentPc.told : ParentPc → List Status
  | .test status => [status]
  | .fork | .printPid | .waitpid | .exited | .failed | .aborted => []

/-- The status lines, with the one that comes next if it is known already. -/
def State.told (s : State) : List Status := s.lines.filterMap Line.told ++ s.parent.told

structure Inv (ignored : Bool) (es : List Event) (s : State) : Prop where
  follows : Follows s.told s.child (changes ignored es)
  absent (h : s.pc = .absent) : s.child = .running false
  fork (h : s.parent = .fork ∨ s.parent = .failed) : s.pc = .absent
  alive (h : s.child ≠ .reaped) : (∀ how, .ended how ∉ s.told) ∧ s.parent ≠ .exited
  ended (h : s.child = .reaped) : ∃ told how, s.told = told ++ [.ended how] ∧ (∀ how, .ended how ∉ told) ∧
    (s.parent = .test (.ended how) ∨ s.parent = .exited)
  discarded (h : s.child.alive = false) : s.child = .discarded ↔ ignored = true
  aborted (h : s.parent = .aborted) : s.child = .discarded

variable {ignored ok : Bool} {s s' : State} {e : Event} {es : List Event}

theorem initial_inv (ignored : Bool) : Inv ignored [] initial where
  follows := ChildStatus.follows_new
  absent _ := rfl
  fork _ := rfl
  alive _ := ⟨by simp [initial, State.told, ParentPc.told], by simp [initial]⟩
  ended h := by cases h
  discarded h := by cases h
  aborted h := by cases h

theorem changes_snoc (h : Run (Exec (next ignored)) initial es s) (e : Event) :
    changes ignored (es ++ [e]) = changes ignored es ++ news ignored s e := trace_snoc (news ignored) h e

theorem Inv.not_reaped (hs : Inv ignored es s) (htold : ∀ how, s.parent ≠ .test (.ended how)) (hne : s.parent ≠ .exited) :
    s.child ≠ .reaped := by
  intro h
  obtain ⟨_, how, _, _, hp | hp⟩ := hs.ended h
  · exact htold how hp
  · exact hne hp

/-- The steps of the parent and of the child that tell and change no status. -/
theorem Inv.still (hs : Inv ignored es s) (hchild : s'.child = s.child) (htold : s'.told = s.told)
    (hchanges : changes ignored (es ++ [e]) = changes ignored es) (hpc : s'.pc = .absent → s.pc = .absent)
    (hreaped : s.child = .reaped → s'.parent = s.parent ∨ s'.parent = .exited)
    (hexit : s'.parent = .exited → s.parent = .exited ∨ s.child = .reaped)
    (hfork : s'.parent = .fork ∨ s'.parent = .failed → s'.pc = .absent)
    (haborted : s'.parent = .aborted → s.parent = .aborted) :
    Inv ignored (es ++ [e]) s' := by
  constructor
  case follows =>
    rw [htold, hchild, hchanges]
    exact hs.follows
  case absent =>
    intro h
    rw [hchild]
    exact hs.absent (hpc h)
  case fork => exact hfork
  case alive =>
    intro h
    rw [hchild] at h
    rw [htold]
    obtain ⟨htold, hne⟩ := hs.alive h
    exact ⟨htold, fun hp => (hexit hp).elim hne h⟩
  case ended =>
    intro h
    rw [hchild] at h
    obtain ⟨told, how, ht, hbefore, hp'⟩ := hs.ended h
    rw [htold]
    refine ⟨told, how, ht, hbefore, ?_⟩
    rcases hreaped h with hp | hp
    · rwa [hp]
    · exact .inr hp
  case discarded =>
    rw [hchild]
    exact hs.discarded
  case aborted =>
    intro h
    rw [hchild]
    exact hs.aborted (haborted h)

/-- The parent is told of a status that is not the last one. -/
theorem Inv.tells {st : Status} {c : Child} (hs : Inv ignored es s) (hp : s.parent = .waitpid)
    (hw : s.child.wait = some (some st, c)) (hst : ∀ how, st ≠ .ended how) (hlive : s.child.alive = true)
    (hc : c.alive = true) (hchanges : changes ignored (es ++ [e]) = changes ignored es) :
    Inv ignored (es ++ [e]) { s with parent := .test st, child := c } := by
  have hne : s.child ≠ .reaped := by
    rintro h
    rw [h] at hlive
    cases hlive
  have htold : State.told { s with parent := .test st, child := c } = s.told ++ [st] := by
    simp [State.told, hp, ParentPc.told]
  constructor
  case follows =>
    rw [htold, hchanges]
    exact hs.follows.wait hw
  case absent =>
    intro h
    rw [hs.absent h] at hw
    cases hw
  case fork => simp
  case alive =>
    intro _
    rw [htold]
    refine ⟨fun how h => ?_, by simp⟩
    rcases List.mem_append.mp h with h | h
    · exact (hs.alive hne).1 how h
    · exact hst how (List.mem_singleton.mp h).symm
  case ended =>
    rintro rfl
    cases hc
  case discarded =>
    intro h
    rw [hc] at h
    cases h
  case aborted => simp

theorem parent_inv (hr : Run (Exec (next ignored)) initial es s) (hs : Inv ignored es s) (h : parentStep ok s = some s') :
    Inv ignored (es ++ [.parent ok]) s' := by
  have hchanges : changes ignored (es ++ [.parent ok]) = changes ignored es := by
    rw [changes_snoc hr, news, List.append_nil]
  rw [parentStep] at h
  cases hp : s.parent with
  | fork =>
      rw [hp] at h
      have hpc := hs.fork (.inl hp)
      have hchild := hs.absent hpc
      have hnot := hs.not_reaped (by simp [hp]) (by simp [hp])
      cases ok with
      | true =>
          cases h
          exact hs.still hchild.symm (by simp [State.told, hp, ParentPc.told]) hchanges (fun _ => hpc)
            (fun h => absurd h hnot) (by simp) (by simp) (by simp)
      | false =>
          cases h
          exact hs.still rfl (by simp [State.told, hp, ParentPc.told]) hchanges id (fun h => absurd h hnot) (by simp)
            (fun _ => hpc) (by simp)
  | printPid =>
      rw [hp] at h
      cases h
      have hnot := hs.not_reaped (by simp [hp]) (by simp [hp])
      exact hs.still rfl (by simp [State.told, hp, ParentPc.told, Line.told]) hchanges id (fun h => absurd h hnot) (by simp)
        (by simp) (by simp)
  | waitpid =>
      rw [hp] at h
      obtain ⟨⟨o, c⟩, hw, h⟩ := Option.map_eq_some_iff.mp h
      cases hc : s.child with
      | running b | stopped b =>
          rw [hc] at hw
          cases b with
          | true =>
              cases hw
              cases h
              exact hs.tells hp (by rw [hc]; rfl) (by simp) (by rw [hc]; rfl) rfl hchanges
          | false => cases hw
      | zombie how =>
          rw [hc] at hw
          cases hw
          cases h
          have hnot := (hs.alive (by rw [hc]; simp)).1
          have htold : s.told = s.lines.filterMap Line.told := by simp [State.told, hp, ParentPc.told]
          constructor
          case follows =>
            rw [hchanges]
            have hended : s.child.wait = some (some (.ended how), .reaped) := by
              rw [hc]
              rfl
            have hfollows := hs.follows.wait hended
            rwa [htold] at hfollows
          case absent =>
            intro h
            rw [hs.absent h] at hc
            cases hc
          case fork => simp
          case alive => simp
          case ended => exact fun _ => ⟨s.told, how, by rw [htold]; rfl, hnot, .inl rfl⟩
          case discarded => exact fun _ => by simpa [hc] using hs.discarded (by rw [hc]; rfl)
          case aborted => simp
      | reaped => exact absurd hc (hs.not_reaped (by simp [hp]) (by simp [hp]))
      | discarded =>
          rw [hc] at hw
          cases hw
          cases h
          have htold : State.told { s with parent := .aborted, child := .discarded } = s.told := by
            simp [State.told, hp, ParentPc.told]
          constructor
          case follows =>
            rw [hchanges, htold]
            exact hc ▸ hs.follows
          case absent =>
            intro h
            rw [hs.absent h] at hc
            cases hc
          case fork => simp
          case alive =>
            rw [htold]
            exact fun _ => ⟨(hs.alive (by simp [hc])).1, by simp⟩
          case ended => simp
          case discarded => exact fun h => hc ▸ hs.discarded (hc ▸ h)
          case aborted => exact fun _ => rfl
  | test st =>
      rw [hp] at h
      cases h
      cases st with
      | ended how =>
          have hreaped : s.child = .reaped := by
            by_contra hne
            exact (hs.alive hne).1 how (by simp [State.told, hp, ParentPc.told])
          exact hs.still rfl (by simp [State.told, hp, ParentPc.told, Line.told]) hchanges id (fun _ => .inr rfl)
            (fun _ => .inr hreaped) (by simp) (by simp)
      | stopped | continued =>
          have hnot := hs.not_reaped (by simp [hp]) (by simp [hp])
          exact hs.still rfl (by simp [State.told, hp, ParentPc.told, Line.told]) hchanges id (fun h => absurd h hnot)
            (by simp) (by simp) (by simp)
  | exited | failed | aborted =>
      rw [hp] at h
      cases h

/-- The status of the child changes. -/
theorem Inv.changed {k : ChildStatus.Event} (hs : Inv ignored es s) (hlive : s.child.alive = true)
    (hpc : s'.pc ≠ .absent) (hfork : ¬ (s.parent = .fork ∨ s.parent = .failed)) (hparent : s'.parent = s.parent)
    (htold : s'.told = s.told) (hchild : s'.child = s.child.next ignored k)
    (hchanges : changes ignored (es ++ [e]) = changes ignored es ++ s.child.news ignored k) :
    Inv ignored (es ++ [e]) s' := by
  have hne : s.child ≠ .reaped := by
    intro h
    rw [h] at hlive
    cases hlive
  obtain ⟨hreaped, hdiscarded⟩ := ChildStatus.next_alive ignored k hlive
  constructor
  case follows =>
    rw [htold, hchild, hchanges]
    exact hs.follows.next ignored k
  case absent => exact fun h => absurd h hpc
  case fork => exact fun h => absurd (hparent ▸ h) hfork
  case alive =>
    rw [htold, hparent]
    exact fun _ => hs.alive hne
  case ended =>
    rw [hchild]
    exact fun h => absurd h hreaped
  case discarded =>
    rw [hchild]
    exact hdiscarded
  case aborted =>
    intro h
    rw [hs.aborted (hparent.symm.trans h)] at hlive
    cases hlive

theorem child_inv (hr : Run (Exec (next ignored)) initial es s) (hs : Inv ignored es s)
    (h : childStep ignored ok s = some s') : Inv ignored (es ++ [.child ok]) s' := by
  rw [childStep] at h
  cases hc : s.child with
  | stopped | zombie | reaped | discarded =>
      rw [hc] at h
      cases h
  | running b =>
      rw [hc] at h
      have hchanges := changes_snoc hr (.child ok)
      have hnot : s.child ≠ .reaped := by simp [hc]
      rw [news] at hchanges
      cases hp : s.pc with
      | absent | sleep =>
          rw [hp] at h
          cases h
      | printPid | printExec =>
          rw [hp] at h
          cases h
          rw [if_neg (by simp [hp]), List.append_nil] at hchanges
          exact hs.still hc.symm (by simp [State.told, Line.told]) hchanges (by simp) (fun h => absurd h hnot) .inl
            (fun h => absurd (hs.fork h) (by simp [hp])) id
      | execl =>
          rw [hp] at h
          cases h
          rw [if_neg (by simp [hp]), List.append_nil] at hchanges
          refine hs.still hc.symm rfl hchanges (fun h => ?_) (fun h => absurd h hnot) .inl
            (fun h => absurd (hs.fork h) (by simp [hp])) id
          simp only at h
          split at h <;> cases h
      | err =>
          rw [hp] at h
          cases h
          rw [if_pos hp] at hchanges
          exact hs.changed (k := .finish (.exited 1)) (by rw [hc]; rfl) (by simp) (fun h => absurd (hs.fork h) (by simp [hp]))
            rfl (by simp [State.told, Line.told]) (by rw [hc]) hchanges

theorem possible_alive {k : ChildStatus.Event} (h : Possible s k = true) : s.pc ≠ .absent ∧ s.child.alive = true := by
  cases k with
  | stop | cont => simpa [Possible] using h
  | finish how =>
      cases how with
      | signaled => simpa [Possible] using h
      | exited code =>
          obtain ⟨hp, hc⟩ := of_decide_eq_true h
          refine ⟨by simp [hp], ?_⟩
          rcases hc with hc | hc <;> rw [hc] <;> rfl

theorem next_inv (hr : Run (Exec (next ignored)) initial es s) (hs : Inv ignored es s) (h : next ignored s e = some s') :
    Inv ignored (es ++ [e]) s' := by
  cases e with
  | parent ok => exact parent_inv hr hs h
  | child ok => exact child_inv hr hs h
  | signal k =>
      obtain ⟨hk, h⟩ := Option.ite_none_right_eq_some.mp h
      cases h
      obtain ⟨hpc, hlive⟩ := possible_alive hk
      exact hs.changed hlive hpc (fun h => hpc (hs.fork h)) rfl rfl rfl (changes_snoc hr (.signal k))

theorem run_inv (h : Run (Exec (next ignored)) initial es s) : Inv ignored es s :=
  h.invariant (I := Inv ignored) (initial_inv ignored) (fun _ _ _ _ hr hs hl => next_inv hr hs hl)

/-- The parent tells what has happened to the child in the order in which it
has happened, though not all of it. While it sleeps it has told the last
change, and when it ends it has told how the child has ended, once, as its last line. -/
theorem told_in_order (ignored : Bool) (es : List Event) (s : State) (h : Run (Exec (next ignored)) initial es s) :
    s.told.Sublist (changes ignored es) ∧
    (s.parent = .waitpid → s.child.wait = none → s.told.getLast? = (changes ignored es).getLast?) ∧
    (s.parent = .exited → ∃ told how, s.told = told ++ [.ended how] ∧ (∀ how', .ended how' ∉ told) ∧
      (changes ignored es).getLast? = some (.ended how)) ∧
    (s.parent = .aborted → ignored = true) := by
  have hs := run_inv h
  refine ⟨(List.sublist_append_left _ _).trans hs.follows.sublist, fun _ hw => hs.follows.asleep hw, fun hp => ?_,
    fun hp => ?_⟩
  · have hreaped : s.child = .reaped := by
      by_contra hne
      exact (hs.alive hne).2 hp
    obtain ⟨told, how, htold, hbefore, _⟩ := hs.ended hreaped
    refine ⟨told, how, htold, hbefore, ?_⟩
    have hlast := hs.follows.last (by simp [hreaped])
    rw [hreaped, Child.untold, List.append_nil, htold] at hlast
    rw [← hlast, List.getLast?_concat]
  · have hc := hs.aborted hp
    exact (hs.discarded (by rw [hc]; rfl)).mp hc

/-- The child is stopped, continued and stopped again before the parent waits, and is killed in the end. -/
def stopped : List Event :=
  [.parent true, .child true, .child true, .child true, .signal .stop, .signal .cont, .signal .stop, .parent true, .parent true,
    .parent true, .signal .cont, .signal (.finish (.signaled 15)), .parent true, .parent true]

theorem told_in_order_stopped : ∃ s, Run (Exec (next false)) initial stopped s ∧
    s.told = [.stopped, .ended (.signaled 15)] ∧ s.told.Sublist (changes false stopped) := by
  obtain ⟨s, hs, ht⟩ : ∃ s, replay (next false) initial stopped = some s ∧ s.told = [.stopped, .ended (.signaled 15)] :=
    ⟨_, rfl, rfl⟩
  exact ⟨s, replay_run hs, ht, (told_in_order false stopped s (replay_run hs)).1⟩

def ParentPc.left : ParentPc → Nat
  | .fork => 5
  | .printPid => 4
  | .test .stopped | .test .continued => 3
  | .waitpid => 2
  | .test (.ended _) => 1
  | .exited | .failed | .aborted => 0

theorem Inv.forked (hs : Inv ignored es s) (hended : s.child.alive = false) : s.parent ≠ .fork ∧ s.parent ≠ .failed := by
  have hnot (hp : s.parent = .fork ∨ s.parent = .failed) : False := by
    rw [hs.absent (hs.fork hp)] at hended
    cases hended
  exact ⟨fun hp => hnot (.inl hp), fun hp => hnot (.inr hp)⟩

theorem ended_step (hs : Inv ignored es s) (hended : s.child.alive = false) (h : next ignored s e = some s') :
    s'.child.alive = false ∧ s'.parent.left < s.parent.left := by
  cases e with
  | parent ok =>
      rw [next, parentStep] at h
      cases hp : s.parent with
      | fork => exact absurd hp (hs.forked hended).1
      | printPid =>
          rw [hp] at h
          cases h
          exact ⟨hended, by simp [ParentPc.left]⟩
      | waitpid =>
          rw [hp] at h
          obtain ⟨⟨o, c⟩, hw, h⟩ := Option.map_eq_some_iff.mp h
          cases hc : s.child with
          | running | stopped => rw [hc] at hended; cases hended
          | reaped => exact absurd hc (hs.not_reaped (by simp [hp]) (by simp [hp]))
          | zombie how =>
              rw [hc] at hw
              cases hw
              cases h
              exact ⟨rfl, by simp [ParentPc.left]⟩
          | discarded =>
              rw [hc] at hw
              cases hw
              cases h
              exact ⟨rfl, by simp [ParentPc.left]⟩
      | test st =>
          rw [hp] at h
          cases h
          cases st <;> exact ⟨hended, by simp [ParentPc.left]⟩
      | exited | failed | aborted =>
          rw [hp] at h
          cases h
  | child ok =>
      cases hc : s.child with
      | running => rw [hc] at hended; cases hended
      | stopped | zombie | reaped | discarded => simp [next, childStep, hc] at h
  | signal k =>
      rw [(possible_alive (Option.ite_none_right_eq_some.mp h).1).2] at hended
      cases hended

theorem ended_goes (hs : Inv ignored es s) (hended : s.child.alive = false)
    (hnot : s.parent ≠ if ignored then .aborted else .exited) : ∃ e s', next ignored s e = some s' := by
  have hkept := hs.discarded hended
  cases hp : s.parent with
  | fork => exact absurd hp (hs.forked hended).1
  | failed => exact absurd hp (hs.forked hended).2
  | printPid | test => exact ⟨.parent true, _, by rw [next, parentStep, hp]⟩
  | waitpid =>
      cases hc : s.child with
      | running | stopped => rw [hc] at hended; cases hended
      | reaped => exact absurd hc (hs.not_reaped (by simp [hp]) (by simp [hp]))
      | zombie | discarded => exact ⟨.parent true, _, by rw [next, parentStep, hp, hc]; rfl⟩
  | exited =>
      have hreaped : s.child = .reaped := by
        by_contra hne
        exact (hs.alive hne).2 hp
      rw [hreaped] at hkept
      have hignored : ignored = false := by simpa using hkept
      exact absurd (by rw [hp, hignored]; rfl) hnot
  | aborted =>
      have hignored := hkept.mp (hs.aborted hp)
      exact absurd (by rw [hp, hignored]; rfl) hnot

/-- Once the child has ended the parent is not held up any more: it ends, and
it fails its assertion just when SIGCHLD is ignored. -/
theorem ends_with_child (ignored : Bool) (es : List Event) (s : State) (h : Run (Exec (next ignored)) initial es s)
    (hended : s.child.alive = false) :
    Inevitable (Exec (next ignored)) (fun t => t.parent = if ignored then .aborted else .exited) s := by
  refine inevitable_of_rank (I := fun t => (∃ es, Run (Exec (next ignored)) initial es t) ∧ t.child.alive = false)
    (fun t => t.parent.left) ?_ ⟨⟨es, h⟩, hended⟩
  rintro t ⟨⟨es, hr⟩, hended⟩ hnot
  have hs := run_inv hr
  refine ⟨ended_goes hs hended hnot, fun e u hl => ?_⟩
  obtain ⟨hended', hlt⟩ := ended_step hs hended hl
  exact ⟨⟨⟨es ++ [e], hr.snoc hl⟩, hended'⟩, hlt⟩

/-- The child is killed while the parent has not waited yet. -/
def killed : List Event := [.parent true, .child true, .signal (.finish (.signaled 9))]

theorem ends_with_child_killed : ∃ s, Run (Exec (next true)) initial killed s ∧
    Inevitable (Exec (next true)) (fun t => t.parent = if true then .aborted else .exited) s := by
  obtain ⟨s, hs, hc⟩ : ∃ s, replay (next true) initial killed = some s ∧ s.child.alive = false := ⟨_, rfl, rfl⟩
  exact ⟨s, replay_run hs, ends_with_child true killed s (replay_run hs) hc⟩

end UnixProg.Wait.Waitpid

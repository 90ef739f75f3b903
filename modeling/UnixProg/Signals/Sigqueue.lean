import UnixProg.Lib.Signal
import UnixProg.Lib.Transition
import Mathlib.Data.Int.Basic

namespace UnixProg.Signals.Sigqueue

open Lib Transition Signal

/-- The statements of the parent after the `fork()`. -/
inductive ParentPc
  | printSleeping
  | sleep
  | printSending
  | sigqueue
  | waitpid
  | exited (status : Nat)
deriving DecidableEq

/-- `pause` is the call, in which the child then is `asleep`. -/
inductive ChildPc
  | sigaction
  | printWaiting
  | pause
  | asleep
  | printExiting
  | exit
  | exited (status : Nat)
  | terminated
deriving DecidableEq

inductive Line
  | sleeping
  | waiting
  | sending
  | exiting (num : BitVec 32)
deriving DecidableEq

/-- `int` is the SIGINT of the child, and `handler` the value its handler was
called with. -/
structure State where
  parent : ParentPc
  child : ChildPc
  int : Sig (BitVec 32)
  handler : Option (BitVec 32)
  num : BitVec 32
  output : List Line
deriving DecidableEq

/-- The status that `waitpid()` has for an exit, with the low 8 bits of what was
given to `exit()`, and for a SIGINT. -/
def ChildPc.status : ChildPc → Option Nat
  | .exited status => some (status % 256 * 256)
  | .terminated => some 2
  | .sigaction | .printWaiting | .pause | .asleep | .printExiting | .exit => none

def WEXITSTATUS (status : Nat) : Nat := status / 256 % 256

def parentStep (n : BitVec 32) (s : State) : Option State :=
  match s.parent with
  | .printSleeping => some { s with parent := .sleep, output := s.output ++ [.sleeping] }
  | .sleep => some { s with parent := .printSending }
  | .printSending => some { s with parent := .sigqueue, output := s.output ++ [.sending] }
  | .sigqueue => some { s with parent := .waitpid, int := s.int.post n }
  | .waitpid => s.child.status.map (fun status => { s with parent := .exited (WEXITSTATUS status) })
  | .exited _ => none

def childStep (s : State) : Option State :=
  match s.child with
  | .sigaction => some { s with child := .printWaiting, int := s.int.catch }
  | .printWaiting => some { s with child := .pause, output := s.output ++ [.waiting] }
  | .pause => some { s with child := .asleep }
  | .asleep => none
  | .printExiting => some { s with child := .exit, output := s.output ++ [.exiting s.num] }
  | .exit => some { s with child := .exited (s.num + 1).toNat }
  | .exited _ | .terminated => none

/-- The handler is done. A `pause()` returns with it, any other statement goes
on where it was. -/
def handlerStep (s : State) (value : BitVec 32) : State :=
  { s with num := value, handler := none, child := if s.child = .asleep then .printExiting else s.child }

def deliver (s : State) : Option State :=
  if s.child.status.isSome then none
  else s.int.deliver.map fun
    | (.terminate, g) => { s with child := .terminated, int := g }
    | (.handle value, g) => { s with int := g, handler := some value }

inductive Event
  | parent
  | child
  | handler
  | deliver
deriving DecidableEq

/-- The code of the child waits for its handler, which blocks further signals. -/
def next (n : BitVec 32) (s : State) : Event → Option State
  | .parent => parentStep n s
  | .child => if s.handler = none then childStep s else none
  | .handler => s.handler.map (handlerStep s)
  | .deliver => if s.handler = none then deliver s else none

def initial : State := ⟨.printSleeping, .sigaction, .plain, none, 0, []⟩

def ParentPc.sent : ParentPc → Bool
  | .waitpid | .exited _ => true
  | .printSleeping | .sleep | .printSending | .sigqueue => false

/-- Past the `pause()`. -/
def ChildPc.woken : ChildPc → Bool
  | .printExiting | .exit | .exited _ => true
  | .sigaction | .printWaiting | .pause | .asleep | .terminated => false

/-- The signal was sent, and it is neither pending nor being handled. -/
structure Consumed (s : State) : Prop where
  sent : s.parent.sent = true
  pending : s.int.pending = none
  handler : s.handler = none

/-- Where the value is on its way, and what it leads to. -/
structure Inv (n : BitVec 32) (s : State) : Prop where
  unsent (h : s.parent.sent = false) : s.int.pending = none ∧ s.handler = none
  pending (v) (h : s.int.pending = some v) : v = n
  handler (v) (h : s.handler = some v) : v = n ∧ s.int.pending = none
  blocked : s.int.blocked = false
  caught (h : s.child ≠ .terminated) : s.int.caught = true ↔ s.child ≠ .sigaction
  num (h : Consumed s) (ha : s.child ≠ .terminated) : s.num = n
  woken (h : s.child.woken = true) : Consumed s
  status (status) (h : s.child = .exited status) : status = (n + 1).toNat
  exited (status) (h : s.parent = .exited status) : ∃ st, s.child.status = some st ∧ status = WEXITSTATUS st

variable {n : BitVec 32} {s s' : State} {e : Event} {es : List Event}

theorem initial_inv (n : BitVec 32) : Inv n initial where
  unsent _ := ⟨rfl, rfl⟩
  pending _ h := by cases h
  handler _ h := by cases h
  blocked := rfl
  caught _ := by simp [initial, Sig.plain]
  num h _ := by cases h.sent
  woken h := by cases h
  status _ h := by cases h
  exited _ h := by cases h

theorem Inv.before (hs : Inv n s) (hp : s.parent.sent = false) (hp' : s'.parent.sent = false) (hchild : s'.child = s.child)
    (hint : s'.int = s.int) (hhandler : s'.handler = s.handler) : Inv n s' := by
  have hunsent {t : State} (ht : t.parent.sent = false) : ¬ Consumed t := by
    intro h
    rw [h.sent] at ht
    cases ht
  constructor
  case unsent => rw [hint, hhandler]; exact fun _ => hs.unsent hp
  case pending => rw [hint]; exact hs.pending
  case handler => rw [hint, hhandler]; exact hs.handler
  case blocked => rw [hint]; exact hs.blocked
  case caught => rw [hint, hchild]; exact hs.caught
  case num => exact fun h _ => absurd h (hunsent hp')
  case woken => rw [hchild]; exact fun h => absurd (hs.woken h) (hunsent hp)
  case status => rw [hchild]; exact hs.status
  case exited =>
    intro status h
    rw [h] at hp'
    cases hp'

theorem parent_inv (hs : Inv n s) (h : parentStep n s = some s') : Inv n s' := by
  cases hp : s.parent with
  | printSleeping | sleep | printSending =>
      simp only [parentStep, hp, Option.some.injEq] at h
      subst h
      exact hs.before (by rw [hp]; rfl) rfl rfl rfl rfl
  | sigqueue =>
      simp only [parentStep, hp, Option.some.injEq] at h
      subst h
      have hunsent : s.parent.sent = false := by rw [hp]; rfl
      obtain ⟨hpending, hhandler⟩ := hs.unsent hunsent
      have hpost : (s.int.post n).pending = some n := post_pending hpending
      have hnot {t : State} (ht : t.int = s.int.post n) : ¬ Consumed t := by
        intro h
        have := h.pending
        rw [ht, hpost] at this
        cases this
      constructor
      case unsent => exact fun h => by cases h
      case pending => exact fun v hv => (Option.some.inj (hpost.symm.trans hv)).symm
      case handler => exact fun v hv => by cases hhandler.symm.trans hv
      case blocked => exact hs.blocked
      case caught => exact hs.caught
      case num => exact fun h _ => absurd h (hnot rfl)
      case woken =>
        intro h
        have hsent := (hs.woken h).sent
        rw [hunsent] at hsent
        cases hsent
      case status => exact hs.status
      case exited => exact fun _ h => by cases h
  | waitpid =>
      simp only [parentStep, hp] at h
      obtain ⟨st, hst, rfl⟩ := Option.map_eq_some_iff.mp h
      have hsent : s.parent.sent = true := by rw [hp]; rfl
      constructor
      case unsent => exact fun h => by cases h
      case pending => exact hs.pending
      case handler => exact hs.handler
      case blocked => exact hs.blocked
      case caught => exact hs.caught
      case num => exact fun h => hs.num ⟨hsent, h.pending, h.handler⟩
      case woken => exact fun h => ⟨rfl, (hs.woken h).pending, (hs.woken h).handler⟩
      case status => exact hs.status
      case exited =>
        intro status h
        cases h
        exact ⟨st, hst, rfl⟩
  | exited => simp [parentStep, hp] at h

theorem Inv.child (hs : Inv n s) (halive : s.child.status = none) (hparent : s'.parent = s.parent)
    (hpending : s'.int.pending = s.int.pending) (hblocked : s'.int.blocked = s.int.blocked)
    (hhandler : s'.handler = s.handler) (hnum : s'.num = s.num)
    (hcaught : s'.int.caught = true ∧ s'.child ≠ .sigaction) (hwoken : s'.child.woken = s.child.woken)
    (hstatus : ∀ status, s'.child = .exited status → status = (n + 1).toNat) : Inv n s' := by
  have hconsumed (h : Consumed s') : Consumed s := ⟨hparent ▸ h.sent, hpending ▸ h.pending, hhandler ▸ h.handler⟩
  have hterminated : s.child ≠ .terminated := by
    intro h
    rw [h] at halive
    cases halive
  constructor
  case unsent => rw [hparent, hpending, hhandler]; exact hs.unsent
  case pending => rw [hpending]; exact hs.pending
  case handler => rw [hpending, hhandler]; exact hs.handler
  case blocked => rw [hblocked]; exact hs.blocked
  case caught => exact fun _ => ⟨fun _ => hcaught.2, fun _ => hcaught.1⟩
  case num => rw [hnum]; exact fun h _ => hs.num (hconsumed h) hterminated
  case woken =>
    intro h
    have hc := hs.woken (hwoken ▸ h)
    exact ⟨hparent ▸ hc.sent, hpending ▸ hc.pending, hhandler ▸ hc.handler⟩
  case status => exact hstatus
  case exited =>
    intro status h
    obtain ⟨st, hst, _⟩ := hs.exited status (hparent ▸ h)
    rw [halive] at hst
    cases hst

theorem child_inv (hs : Inv n s) (h : childStep s = some s') : Inv n s' := by
  have hcaught {p : ChildPc} (hc : s.child = p) (hp : p ≠ .terminated ∧ p ≠ .sigaction) : s.int.caught = true :=
    (hs.caught (hc ▸ hp.1)).mpr (hc ▸ hp.2)
  cases hc : s.child with
  | sigaction =>
      simp only [childStep, hc, Option.some.injEq] at h
      subst h
      exact hs.child (by rw [hc]; rfl) rfl rfl rfl rfl rfl ⟨rfl, by simp⟩ (by rw [hc]; rfl) (by simp)
  | printWaiting | pause | printExiting =>
      simp only [childStep, hc, Option.some.injEq] at h
      subst h
      exact hs.child (by rw [hc]; rfl) rfl rfl rfl rfl rfl ⟨hcaught hc (by simp), by simp⟩ (by rw [hc]; rfl) (by simp)
  | exit =>
      simp only [childStep, hc, Option.some.injEq] at h
      subst h
      refine hs.child (by rw [hc]; rfl) rfl rfl rfl rfl rfl ⟨hcaught hc (by simp), by simp⟩ (by rw [hc]; rfl) ?_
      intro status hstatus
      have hnum : s.num = n := hs.num (hs.woken (by rw [hc]; rfl)) (by simp [hc])
      cases hstatus
      rw [hnum]
  | asleep | exited | terminated => simp [childStep, hc] at h

/-- The end of the handler wakes a child that is in `pause()`. -/
theorem handler_child (s : State) (value : BitVec 32) :
    s.child = .asleep ∧ (handlerStep s value).child = .printExiting ∨
      s.child ≠ .asleep ∧ (handlerStep s value).child = s.child := by
  by_cases ha : s.child = .asleep
  · exact .inl ⟨ha, if_pos ha⟩
  · exact .inr ⟨ha, if_neg ha⟩

theorem handler_inv {value : BitVec 32} (hs : Inv n s) (hh : s.handler = some value) : Inv n (handlerStep s value) := by
  obtain ⟨hvalue, hpending⟩ := hs.handler value hh
  have hsent : s.parent.sent = true := by
    by_contra hn
    have := (hs.unsent (by simpa using hn)).2
    rw [hh] at this
    cases this
  have hnot : s.child.woken = false := by
    by_contra hw
    have := (hs.woken (by simpa using hw)).handler
    rw [hh] at this
    cases this
  have hconsumed : Consumed (handlerStep s value) := ⟨hsent, hpending, rfl⟩
  constructor
  case unsent =>
    intro h
    rw [show (handlerStep s value).parent = s.parent from rfl, hsent] at h
    cases h
  case pending => exact hs.pending
  case handler => exact fun _ h => by cases h
  case blocked => exact hs.blocked
  case caught =>
    obtain ⟨ha, hc⟩ | ⟨_, hc⟩ := handler_child s value
    · have hcaught : s.int.caught = true := (hs.caught (by simp [ha])).mpr (by simp [ha])
      rw [hc]
      exact fun _ => ⟨by simp, fun _ => hcaught⟩
    · rw [hc]
      exact hs.caught
  case num => exact fun _ _ => hvalue
  case woken => exact fun _ => hconsumed
  case status =>
    obtain ⟨_, hc⟩ | ⟨_, hc⟩ := handler_child s value
    · rw [hc]
      exact fun _ h => by cases h
    · rw [hc]
      exact hs.status
  case exited =>
    intro status h
    obtain ⟨st, hst, hstatus⟩ := hs.exited status h
    obtain ⟨ha, _⟩ | ⟨_, hc⟩ := handler_child s value
    · rw [ha] at hst
      cases hst
    · exact ⟨st, hc ▸ hst, hstatus⟩

/-- What the signal does to the child when it is delivered. -/
theorem deliver_does (hs : Inv n s) (h : deliver s = some s') :
    s.child.status = none ∧ s.int.pending = some n ∧
      (s.int.caught = true ∧ s' = { s with int := { s.int with pending := none }, handler := some n } ∨
        s.int.caught = false ∧ s' = { s with int := { s.int with pending := none }, child := .terminated }) := by
  obtain ⟨halive, h⟩ := Option.ite_none_left_eq_some.mp h
  obtain ⟨⟨act, g⟩, hd, rfl⟩ := Option.map_eq_some_iff.mp h
  obtain ⟨rfl, value, hvalue, hact⟩ := deliver_cases hd
  obtain rfl := hs.pending value hvalue
  refine ⟨by simpa using halive, hvalue, ?_⟩
  obtain ⟨hcaught, rfl⟩ | ⟨hcaught, rfl⟩ := hact
  · exact .inl ⟨hcaught, rfl⟩
  · exact .inr ⟨hcaught, rfl⟩

theorem deliver_inv (hs : Inv n s) (hh : s.handler = none) (h : deliver s = some s') : Inv n s' := by
  obtain ⟨halive, hpending, hact⟩ := deliver_does hs h
  have hsent : s.parent.sent = true := by
    by_contra hn
    have := (hs.unsent (by simpa using hn)).1
    rw [hpending] at this
    cases this
  have hnot : s.child.woken = false := by
    by_contra hw
    have := (hs.woken (by simpa using hw)).pending
    rw [hpending] at this
    cases this
  have hparent {status : Nat} (h : s.parent = .exited status) : False := by
    obtain ⟨st, hst, _⟩ := hs.exited status h
    rw [halive] at hst
    cases hst
  obtain ⟨hcaught, rfl⟩ | ⟨_, rfl⟩ := hact
  · constructor
    case unsent => exact fun h => by cases hsent.symm.trans h
    case pending => exact fun _ h => by cases h
    case handler =>
      intro v hv
      cases hv
      exact ⟨rfl, rfl⟩
    case blocked => exact hs.blocked
    case caught => exact hs.caught
    case num => exact fun h _ => by cases h.handler
    case woken => exact fun h => by cases hnot.symm.trans h
    case status => exact hs.status
    case exited => exact fun _ h => (hparent h).elim
  · constructor
    case unsent => exact fun h => by cases hsent.symm.trans h
    case pending => exact fun _ h => by cases h
    case handler => exact fun _ hv => by cases hh.symm.trans hv
    case blocked => exact hs.blocked
    case caught => exact fun h => absurd rfl h
    case num => exact fun _ h => absurd rfl h
    case woken => exact fun h => by cases h
    case status => exact fun _ h => by cases h
    case exited => exact fun _ h => (hparent h).elim

theorem next_inv (hs : Inv n s) (h : next n s e = some s') : Inv n s' := by
  cases e with
  | parent => exact parent_inv hs h
  | child => exact child_inv hs (Option.ite_none_right_eq_some.mp h).2
  | handler =>
      obtain ⟨value, hh, rfl⟩ := Option.map_eq_some_iff.mp h
      exact handler_inv hs hh
  | deliver =>
      obtain ⟨hh, h⟩ := Option.ite_none_right_eq_some.mp h
      exact deliver_inv hs hh h

theorem run_inv (h : Run (Exec (next n)) initial es s) : Inv n s :=
  h.invariant (I := fun _ s => Inv n s) (initial_inv n) (fun _ _ _ _ _ hs hl => next_inv hs hl)

theorem exit_status (n : BitVec 32) : (WEXITSTATUS ((n + 1).toNat % 256 * 256) : ℤ) = (n.toInt + 1) % 256 := by
  have hn := n.isLt
  have hadd : (n + 1).toNat = (n.toNat + 1) % 2 ^ 32 := BitVec.toNat_add n 1
  have hint := BitVec.toInt_eq_toNat_cond n
  rw [WEXITSTATUS, hadd]
  split at hint <;> omega


/-- The signal is delivered when there is a handler for it. -/
def HandlerSet (s : State) (e : Event) : Prop := e = .deliver → s.int.caught = true

/-- The signal is delivered when the child waits for it. -/
def InPause (s : State) (e : Event) : Prop := e = .deliver → s.child = .asleep

theorem parent_frame (h : parentStep n s = some s') :
    s'.child = s.child ∧ s'.handler = s.handler ∧ (Consumed s' → Consumed s) := by
  cases hp : s.parent with
  | printSleeping | sleep | printSending =>
      simp only [parentStep, hp, Option.some.injEq] at h
      subst h
      exact ⟨rfl, rfl, fun hc => by cases hc.sent⟩
  | sigqueue =>
      simp only [parentStep, hp, Option.some.injEq] at h
      subst h
      exact ⟨rfl, rfl, fun hc => absurd hc.pending (post_ne_none _ _)⟩
  | waitpid =>
      simp only [parentStep, hp] at h
      obtain ⟨_, _, rfl⟩ := Option.map_eq_some_iff.mp h
      exact ⟨rfl, rfl, fun hc => ⟨by rw [hp]; rfl, hc.pending, hc.handler⟩⟩
  | exited => simp [parentStep, hp] at h

theorem child_frame (h : childStep s = some s') :
    s'.child ≠ .terminated ∧ s'.handler = s.handler ∧ (Consumed s' → Consumed s) ∧
      (s.child.woken = true → s'.child.woken = true) := by
  cases hc : s.child with
  | sigaction | printWaiting | pause | printExiting | exit =>
      simp only [childStep, hc, Option.some.injEq] at h
      subst h
      exact ⟨by simp, rfl, fun h => ⟨h.sent, h.pending, h.handler⟩, by simp [ChildPc.woken]⟩
  | asleep | exited | terminated => simp [childStep, hc] at h

/-- The child is terminated just when the signal is delivered before there is a handler. -/
theorem alive_iff_handlerSet (h : Run (Exec (next n)) initial es s) :
    (∀ before after t, es = before ++ after → Run (Exec (next n)) initial before t → t.child ≠ .terminated) ↔
      Run (Guarded (Exec (next n)) HandlerSet) initial es s := by
  symm
  refine guarded_iff (by simp [initial]) ?_ ?_ h
  · rintro u e u' ⟨ls, hr⟩ halive hok hn
    cases e with
    | parent => exact (parent_frame hn).1 ▸ halive
    | child => exact (child_frame (Option.ite_none_right_eq_some.mp hn).2).1
    | handler =>
        obtain ⟨value, _, rfl⟩ := Option.map_eq_some_iff.mp hn
        obtain ⟨_, hc⟩ | ⟨_, hc⟩ := handler_child u value
        · simp [hc]
        · exact hc ▸ halive
    | deliver =>
        obtain ⟨_, hd⟩ := Option.ite_none_right_eq_some.mp hn
        obtain ⟨_, _, ⟨_, rfl⟩ | ⟨hcaught, _⟩⟩ := deliver_does (run_inv hr) hd
        · exact halive
        · cases hcaught.symm.trans (hok rfl)
  · rintro u e u' ⟨ls, hr⟩ _ hbad hn halive'
    simp only [HandlerSet, Classical.not_imp] at hbad
    obtain ⟨rfl, hcaught⟩ := hbad
    obtain ⟨_, hd⟩ := Option.ite_none_right_eq_some.mp hn
    obtain ⟨_, _, ⟨hc, _⟩ | ⟨_, rfl⟩⟩ := deliver_does (run_inv hr) hd
    · exact hcaught hc
    · exact halive' rfl

/-- The child waits for the signal until it has handled it. -/
structure Tidy (n : BitVec 32) (s : State) : Prop where
  inv : Inv n s
  alive : s.child ≠ .terminated
  handler (h : s.handler ≠ none) : s.child = .asleep
  woken (h : Consumed s) : s.child.woken = true

theorem initial_tidy (n : BitVec 32) : Tidy n initial where
  inv := initial_inv n
  alive := by simp [initial]
  handler h := absurd rfl h
  woken h := by cases h.sent

theorem next_tidy (hs : Tidy n s) (hok : InPause s e) (h : next n s e = some s') : Tidy n s' := by
  have hinv := next_inv hs.inv h
  cases e with
  | parent =>
      obtain ⟨hchild, hhandler, hconsumed⟩ := parent_frame h
      exact ⟨hinv, hchild ▸ hs.alive, fun hh => hchild ▸ hs.handler (hhandler ▸ hh), fun hc => hchild ▸ hs.woken (hconsumed hc)⟩
  | child =>
      obtain ⟨hnone, h⟩ := Option.ite_none_right_eq_some.mp h
      obtain ⟨halive, hhandler, hconsumed, hwoken⟩ := child_frame h
      exact ⟨hinv, halive, fun hh => absurd (hhandler.trans hnone) hh, fun hc => hwoken (hs.woken (hconsumed hc))⟩
  | handler =>
      obtain ⟨value, hh, rfl⟩ := Option.map_eq_some_iff.mp h
      have hasleep : s.child = .asleep := hs.handler (by simp [hh])
      have hchild : (handlerStep s value).child = .printExiting := if_pos hasleep
      exact ⟨hinv, by simp [hchild], fun hh => absurd rfl hh, fun _ => by rw [hchild]; rfl⟩
  | deliver =>
      obtain ⟨_, h⟩ := Option.ite_none_right_eq_some.mp h
      have hasleep := hok rfl
      have hcaught : s.int.caught = true := (hs.inv.caught hs.alive).mpr (by simp [hasleep])
      obtain ⟨_, _, ⟨_, rfl⟩ | ⟨hcaught', _⟩⟩ := deliver_does hs.inv h
      · exact ⟨hinv, hs.alive, fun _ => hasleep, fun hc => by cases hc.handler⟩
      · cases hcaught'.symm.trans hcaught

theorem run_tidy (h : Run (Guarded (Exec (next n)) InPause) initial es s) : Tidy n s :=
  h.invariant (I := fun _ s => Tidy n s) (initial_tidy n) (fun _ _ _ _ _ hs hl => next_tidy hs hl.1 hl.2)

/-- The statements that a process has left. -/
def ParentPc.left : ParentPc → Nat
  | .printSleeping => 5
  | .sleep => 4
  | .printSending => 3
  | .sigqueue => 2
  | .waitpid => 1
  | .exited _ => 0

def ChildPc.left : ChildPc → Nat
  | .sigaction => 6
  | .printWaiting => 5
  | .pause => 4
  | .asleep => 3
  | .printExiting => 2
  | .exit => 1
  | .exited _ | .terminated => 0

/-- The steps that are left, the delivery of the signal and the handler included. -/
def rank (s : State) : Nat :=
  3 * s.parent.left + s.child.left + 2 * s.int.pending.toList.length + s.handler.toList.length

theorem next_rank (hs : Tidy n s) (h : next n s e = some s') : rank s' < rank s := by
  cases e with
  | parent =>
      cases hp : s.parent with
      | printSleeping | sleep | printSending =>
          simp only [next, parentStep, hp, Option.some.injEq] at h
          subst h
          simp [rank, hp, ParentPc.left]
      | sigqueue =>
          simp only [next, parentStep, hp, Option.some.injEq] at h
          subst h
          have hnone := (hs.inv.unsent (by rw [hp]; rfl)).1
          simp only [rank, hp, ParentPc.left, hnone, post_pending hnone, Option.toList_some, Option.toList_none,
            List.length_singleton, List.length_nil]
          omega
      | waitpid =>
          simp only [next, parentStep, hp] at h
          obtain ⟨_, _, rfl⟩ := Option.map_eq_some_iff.mp h
          simp [rank, hp, ParentPc.left]
      | exited => simp [next, parentStep, hp] at h
  | child =>
      obtain ⟨_, h⟩ := Option.ite_none_right_eq_some.mp h
      cases hc : s.child with
      | sigaction | printWaiting | pause | printExiting | exit =>
          simp only [childStep, hc, Option.some.injEq] at h
          subst h
          simp [rank, hc, ChildPc.left, Sig.catch]
      | asleep | exited | terminated => simp [childStep, hc] at h
  | handler =>
      obtain ⟨value, hh, rfl⟩ := Option.map_eq_some_iff.mp h
      have hasleep : s.child = .asleep := hs.handler (by simp [hh])
      have hchild : (handlerStep s value).child = .printExiting := if_pos hasleep
      have hhandler : (handlerStep s value).handler = none := rfl
      have hrest : (handlerStep s value).parent = s.parent ∧ (handlerStep s value).int = s.int := ⟨rfl, rfl⟩
      simp only [rank, hchild, hasleep, hh, hhandler, hrest, ChildPc.left, Option.toList_some, Option.toList_none,
        List.length_singleton, List.length_nil]
      omega
  | deliver =>
      obtain ⟨hh, h⟩ := Option.ite_none_right_eq_some.mp h
      obtain ⟨_, hpending, ⟨_, rfl⟩ | ⟨_, rfl⟩⟩ := deliver_does hs.inv h
      · simp [rank, hh, hpending]
      · have hleft : ChildPc.terminated.left = 0 := rfl
        simp only [rank, hh, hpending, hleft, Option.toList_some, Option.toList_none, List.length_singleton, List.length_nil]
        omega

/-- The parent has ended with what the value leads to. -/
def Done (n : BitVec 32) (s : State) : Prop := ∃ status : Nat, s.parent = .exited status ∧ (status : ℤ) = (n.toInt + 1) % 256

theorem Inv.done (hs : Inv n s) {status : Nat} (h : s.parent = .exited status) :
    s.child = .terminated ∧ status = 0 ∨ s.child ≠ .terminated ∧ (status : ℤ) = (n.toInt + 1) % 256 := by
  obtain ⟨st, hst, rfl⟩ := hs.exited status h
  cases hc : s.child with
  | sigaction | printWaiting | pause | asleep | printExiting | exit => simp [hc, ChildPc.status] at hst
  | terminated =>
      rw [hc] at hst
      cases hst
      exact .inl ⟨rfl, rfl⟩
  | exited raw =>
      rw [hc] at hst
      cases hst
      obtain rfl := hs.status raw hc
      exact .inr ⟨by simp, exit_status n⟩

theorem goes_on (hs : Tidy n s) (hn : ¬ Done n s) : ∃ e t, Guarded (Exec (next n)) InPause s e t := by
  cases hh : s.handler with
  | some value => exact ⟨.handler, handlerStep s value, fun h => (by cases h), by simp [Exec, next, hh]⟩
  | none =>
      have hparent {t : State} (h : parentStep n s = some t) : ∃ e t, Guarded (Exec (next n)) InPause s e t :=
        ⟨.parent, t, fun h => (by cases h), h⟩
      have hchild {t : State} (h : childStep s = some t) : ∃ e t, Guarded (Exec (next n)) InPause s e t :=
        ⟨.child, t, fun h => (by cases h), by simpa [Exec, next, hh] using h⟩
      cases hc : s.child with
      | sigaction | printWaiting | pause | printExiting | exit => exact hchild (by rw [childStep, hc])
      | terminated => exact absurd hc hs.alive
      | asleep =>
          cases hpending : s.int.pending with
          | some value =>
              have hcaught : s.int.caught = true := (hs.inv.caught hs.alive).mpr (by simp [hc])
              have hd := deliver_handle hs.inv.blocked hcaught hpending
              refine ⟨.deliver, { s with int := { s.int with pending := none }, handler := some value }, fun _ => hc, ?_⟩
              simp [Exec, next, hh, deliver, hc, ChildPc.status, hd]
          | none =>
              have hunsent : s.parent.sent = false := by
                by_contra hsent
                have hwoken := hs.woken ⟨by simpa using hsent, hpending, hh⟩
                rw [hc] at hwoken
                cases hwoken
              cases hp : s.parent with
              | printSleeping | sleep | printSending | sigqueue => exact hparent (by rw [parentStep, hp])
              | waitpid | exited => simp [hp, ParentPc.sent] at hunsent
      | exited raw =>
          have hsent := (hs.inv.woken (by rw [hc]; rfl)).sent
          cases hp : s.parent with
          | printSleeping | sleep | printSending | sigqueue => simp [hp, ParentPc.sent] at hsent
          | waitpid => exact hparent (by simp only [parentStep, hp, hc, ChildPc.status]; rfl)
          | exited status =>
              obtain ⟨ht, _⟩ | ⟨_, hstatus⟩ := hs.inv.done hp
              · exact absurd ht hs.alive
              · exact absurd ⟨status, hp, hstatus⟩ hn

theorem completes (hs : Tidy n s) : Inevitable (Guarded (Exec (next n)) InPause) (Done n) s :=
  inevitable_of_rank rank (fun _ hs hn => ⟨goes_on hs hn, fun _ _ hl => ⟨next_tidy hs hl.1 hl.2, next_rank hs hl.2⟩⟩) hs

/-- The handler gets the value that was sent. The child is terminated just when
the signal is delivered before the handler is set, and the parent then ends with
0; where the parent ends otherwise, it is with the value plus 1, of which 8 bits
are left. With a signal that is delivered in `pause()` the child does not go on
sleeping, and so the parent ends. -/
theorem value_passed (n : BitVec 32) :
    (∀ es s, Run (Exec (next n)) initial es s →
      (∀ value, s.handler = some value → value = n) ∧
      (∀ status : Nat, s.parent = .exited status →
        s.child = .terminated ∧ status = 0 ∨ s.child ≠ .terminated ∧ (status : ℤ) = (n.toInt + 1) % 256) ∧
      ((∀ before after t, es = before ++ after → Run (Exec (next n)) initial before t → t.child ≠ .terminated) ↔
        Run (Guarded (Exec (next n)) HandlerSet) initial es s)) ∧
    (∀ es s, Run (Guarded (Exec (next n)) InPause) initial es s → ¬ (s.child = .asleep ∧ Consumed s)) ∧
    Inevitable (Guarded (Exec (next n)) InPause)
      (fun s => ∃ status : Nat, s.parent = .exited status ∧ (status : ℤ) = (n.toInt + 1) % 256) initial := by
  refine ⟨fun es s h => ⟨?_, ?_, alive_iff_handlerSet h⟩, ?_, completes (initial_tidy n)⟩
  · exact fun value hv => ((run_inv h).handler value hv).1
  · exact fun status hst => (run_inv h).done hst
  · rintro es s h ⟨hasleep, hconsumed⟩
    have hwoken := (run_tidy h).woken hconsumed
    rw [hasleep] at hwoken
    cases hwoken

/-- The signal is delivered before the child has begun. -/
def early : List Event := List.replicate 4 .parent ++ [.deliver, .parent]

/-- The signal is delivered when there is a handler, but before the `pause()`. -/
def wakeupLost : List Event := List.replicate 4 .parent ++ [.child, .deliver, .handler, .child, .child]

theorem value_not_passed :
    (∃ s, Run (Exec (next 98)) initial early s ∧ s.child = .terminated ∧ s.parent = .exited 0) ∧
    ∃ s, Run (Exec (next 98)) initial wakeupLost s ∧ s.child = .asleep ∧ Consumed s ∧ s.parent = .waitpid ∧
      ∀ e, next 98 s e = none := by
  refine ⟨⟨_, replay_run rfl, rfl, rfl⟩, _, replay_run rfl, rfl, ⟨rfl, rfl, rfl⟩, rfl, fun e => ?_⟩
  cases e <;> rfl

end UnixProg.Signals.Sigqueue

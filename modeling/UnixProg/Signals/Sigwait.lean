import UnixProg.Lib.Signal
import UnixProg.Lib.Transition

namespace UnixProg.Signals.Sigwait

open Lib Transition Signal

/-- The statements of the parent after the `fork()`. -/
inductive ParentPc
  | printPid
  | printType
  | read
  | store
  | printSending
  | kill
  | wait
  | exited (status : Nat)
deriving DecidableEq

inductive ChildPc
  | printPid
  | sigprocmask
  | sigwait
  | printWoken
  | exited
  | terminated
deriving DecidableEq

inductive Line
  | child
  | parent
  | typeAnything
  | sending
  | woken (c : UInt8)
deriving DecidableEq

/-- `usr1` is the SIGUSR1 of the child, `c` the variable of the parent, and
`addr` the byte they share. -/
structure State where
  parent : ParentPc
  child : ChildPc
  usr1 : Sig Unit
  c : UInt8
  addr : UInt8
  output : List Line
deriving DecidableEq

def ChildPc.ended : ChildPc → Bool
  | .exited | .terminated => true
  | .printPid | .sigprocmask | .sigwait | .printWoken => false

/-- The parent gives up when there is nothing to read. -/
def parentStep (input : Option UInt8) (s : State) : Option State :=
  match s.parent with
  | .printPid => some { s with parent := .printType, output := s.output ++ [.parent] }
  | .printType => some { s with parent := .read, output := s.output ++ [.typeAnything] }
  | .read => match input with
    | some c => some { s with parent := .store, c := c }
    | none => some { s with parent := .exited 1 }
  | .store => some { s with parent := .printSending, addr := s.c }
  | .printSending => some { s with parent := .kill, output := s.output ++ [.sending] }
  | .kill => some { s with parent := .wait, usr1 := s.usr1.post () }
  | .wait => if s.child.ended then some { s with parent := .exited 0 } else none
  | .exited _ => none

def childStep (s : State) : Option State :=
  match s.child with
  | .printPid => some { s with child := .sigprocmask, output := s.output ++ [.child] }
  | .sigprocmask => some { s with child := .sigwait, usr1 := s.usr1.block }
  | .sigwait => s.usr1.accept.map (fun g => { s with child := .printWoken, usr1 := g })
  | .printWoken => some { s with child := .exited, output := s.output ++ [.woken s.addr] }
  | .exited | .terminated => none

/-- A signal that comes to the child while it is not blocked. -/
def deliver (s : State) : Option State :=
  if s.child.ended then none
  else s.usr1.deliver.map fun
    | (.terminate, g) => { s with child := .terminated, usr1 := g }
    | (.handle _, g) => { s with usr1 := g }

inductive Event
  | parent
  | child
  | deliver
deriving DecidableEq

def next (input : Option UInt8) (s : State) : Event → Option State
  | .parent => parentStep input s
  | .child => childStep s
  | .deliver => deliver s

def initial : State := ⟨.printPid, .printPid, .plain, 0, 0, []⟩

/-- The parent does not send the signal before the child has set its mask. -/
def KillAfterMask (s : State) (e : Event) : Prop := e = .parent → s.parent = .kill → s.usr1.blocked = true

instance (s : State) (e : Event) : Decidable (KillAfterMask s e) :=
  inferInstanceAs (Decidable (e = .parent → s.parent = .kill → s.usr1.blocked = true))

def Line.isWoken : Line → Bool
  | .woken _ => true
  | .child | .parent | .typeAnything | .sending => false

def ChildPc.masked : ChildPc → Bool
  | .sigwait | .printWoken | .exited => true
  | .printPid | .sigprocmask | .terminated => false

def ChildPc.woken : ChildPc → Bool
  | .printWoken | .exited => true
  | .printPid | .sigprocmask | .sigwait | .terminated => false

/-- The statements that a process has left. -/
def ParentPc.left : ParentPc → Nat
  | .printPid => 7
  | .printType => 6
  | .read => 5
  | .store => 4
  | .printSending => 3
  | .kill => 2
  | .wait => 1
  | .exited _ => 0

def ChildPc.left : ChildPc → Nat
  | .printPid => 4
  | .sigprocmask => 3
  | .sigwait => 2
  | .printWoken => 1
  | .exited | .terminated => 0

def ParentPc.killed (p : ParentPc) : Prop := p.left < 2

instance (p : ParentPc) : Decidable p.killed := inferInstanceAs (Decidable (p.left < 2))

/-- The handshake as it is meant to be. -/
structure Inv (c : UInt8) (s : State) : Prop where
  alive : s.child ≠ .terminated
  mask : s.usr1.blocked = s.child.masked
  read (h : s.parent.left < 5) : s.c = c
  stored (h : s.parent.left < 4) : s.addr = c
  sent (h : s.parent.killed) : s.child.masked = true
  pending : s.usr1.pending = if s.parent.killed ∧ s.child.woken = false then some () else none
  woken (h : s.child.woken = true) : s.parent.killed
  exited (status) (h : s.parent = .exited status) : s.child = .exited ∧ status = 0
  output : s.output.filter Line.isWoken = if s.child = .exited then [.woken c] else []

variable {c : UInt8} {s s' t : State} {e : Event} {es : List Event}

theorem initial_inv (c : UInt8) : Inv c initial where
  alive := by decide
  mask := rfl
  read h := by simp [initial, ParentPc.left] at h
  stored h := by simp [initial, ParentPc.left] at h
  sent h := by simp [initial, ParentPc.killed, ParentPc.left] at h
  pending := rfl
  woken h := by cases h
  exited _ h := by cases h
  output := rfl

theorem Inv.before (hs : Inv c s) (hp : ¬ s.parent.killed) (hp' : ¬ s'.parent.killed) (hchild : s'.child = s.child)
    (husr1 : s'.usr1 = s.usr1) (hread : s'.parent.left < 5 → s'.c = c) (hstored : s'.parent.left < 4 → s'.addr = c)
    (hout : s'.output.filter Line.isWoken = s.output.filter Line.isWoken) : Inv c s' where
  alive := by rw [hchild]; exact hs.alive
  mask := by rw [hchild, husr1]; exact hs.mask
  read := hread
  stored := hstored
  sent h := absurd h hp'
  pending := by
    rw [husr1, hs.pending, if_neg (fun h => hp h.1), if_neg (fun h => hp' h.1)]
  woken h := by
    rw [hchild] at h
    exact absurd (hs.woken h) hp
  exited status h := by
    rw [ParentPc.killed, h] at hp'
    exact absurd (Nat.zero_lt_two) hp'
  output := by rw [hchild, hout, hs.output]

theorem parent_inv (hs : Inv c s) (hok : KillAfterMask s .parent) (h : parentStep (some c) s = some s') : Inv c s' := by
  have hbefore {p : ParentPc} (hp : s.parent = p) (hleft : 2 ≤ p.left) : ¬ s.parent.killed := by
    rw [ParentPc.killed, hp]
    omega
  rw [parentStep] at h
  cases hp : s.parent with
  | printPid | printType =>
      simp only [hp, Option.some.injEq] at h
      subst h
      refine hs.before (hbefore hp (by decide)) (by simp [ParentPc.killed, ParentPc.left]) rfl rfl ?_ ?_ ?_
      · simp [ParentPc.left]
      · simp [ParentPc.left]
      · simp [Line.isWoken]
  | read =>
      simp only [hp, Option.some.injEq] at h
      subst h
      refine hs.before (hbefore hp (by decide)) (by simp [ParentPc.killed, ParentPc.left]) rfl rfl ?_ ?_ ?_
      · exact fun _ => rfl
      · simp [ParentPc.left]
      · rfl
  | store =>
      simp only [hp, Option.some.injEq] at h
      subst h
      have hc : s.c = c := hs.read (by simp [hp, ParentPc.left])
      exact hs.before (hbefore hp (by decide)) (by simp [ParentPc.killed, ParentPc.left]) rfl rfl (fun _ => hc) (fun _ => hc) rfl
  | printSending =>
      simp only [hp, Option.some.injEq] at h
      subst h
      refine hs.before (hbefore hp (by decide)) (by simp [ParentPc.killed, ParentPc.left]) rfl rfl ?_ ?_ ?_
      · exact fun _ => hs.read (by simp [hp, ParentPc.left])
      · exact fun _ => hs.stored (by simp [hp, ParentPc.left])
      · simp [Line.isWoken]
  | kill =>
      simp only [hp, Option.some.injEq] at h
      subst h
      have hnot := hbefore hp (by decide)
      have hwoken : s.child.woken = false := by
        by_contra hw
        exact hnot (hs.woken (by simpa using hw))
      constructor
      case alive => exact hs.alive
      case mask => exact hs.mask
      case read => exact fun _ => hs.read (by simp [hp, ParentPc.left])
      case stored => exact fun _ => hs.stored (by simp [hp, ParentPc.left])
      case sent => exact fun _ => hs.mask ▸ hok rfl hp
      case pending =>
        have hnone : s.usr1.pending = none := hs.pending.trans (if_neg (fun h => hnot h.1))
        have hkilled : ParentPc.wait.killed ∧ s.child.woken = false := ⟨Nat.one_lt_two, hwoken⟩
        exact (post_pending hnone).trans (if_pos hkilled).symm
      case woken => exact fun _ => Nat.one_lt_two
      case exited => exact fun _ h => by cases h
      case output => exact hs.output
  | wait =>
      simp only [hp] at h
      obtain ⟨hended, h⟩ := Option.ite_none_right_eq_some.mp h
      have hexited : s.child = .exited := by
        cases hc : s.child with
        | exited => rfl
        | terminated => exact absurd hc hs.alive
        | printPid | sigprocmask | sigwait | printWoken => simp [hc, ChildPc.ended] at hended
      cases h
      constructor
      case alive => exact hs.alive
      case mask => exact hs.mask
      case read => exact fun _ => hs.read (by simp [hp, ParentPc.left])
      case stored => exact fun _ => hs.stored (by simp [hp, ParentPc.left])
      case sent => exact fun _ => hs.sent (by simp [hp, ParentPc.killed, ParentPc.left])
      case pending =>
        have hnone := hs.pending
        simp only [hexited, ChildPc.woken] at hnone ⊢
        simpa using hnone
      case woken => exact fun _ => Nat.zero_lt_two
      case exited =>
        intro status h
        cases h
        exact ⟨hexited, rfl⟩
      case output => exact hs.output
  | exited status =>
      simp only [hp] at h
      cases h

theorem killed_of_exited {status : Nat} (h : s.parent = .exited status) : s.parent.killed := by
  rw [ParentPc.killed, h]
  exact Nat.zero_lt_two

/-- The child goes on to a statement before its `sigwait()`, which the parent waits for. -/
theorem Inv.unmasked (hs : Inv c s) (hm : s.child.masked = false) (hchild : s'.child = .sigprocmask ∨ s'.child = .sigwait)
    (hmask : s'.usr1.blocked = s'.child.masked) (hpending : s'.usr1.pending = s.usr1.pending)
    (hparent : s'.parent = s.parent) (hc : s'.c = s.c) (haddr : s'.addr = s.addr)
    (hout : s'.output.filter Line.isWoken = s.output.filter Line.isWoken) : Inv c s' := by
  have hk : ¬ s.parent.killed := by
    intro hk
    rw [hs.sent hk] at hm
    cases hm
  have hexited : s.child ≠ .exited := by
    intro h
    rw [h] at hm
    cases hm
  have hk' : ¬ s'.parent.killed := hparent ▸ hk
  constructor
  case alive => obtain h | h := hchild <;> simp [h]
  case mask => exact hmask
  case read => rw [hparent, hc]; exact hs.read
  case stored => rw [hparent, haddr]; exact hs.stored
  case sent => exact fun h => absurd h hk'
  case pending => rw [hpending, hs.pending, if_neg (fun h => hk h.1), if_neg (fun h => hk' h.1)]
  case woken => obtain h | h := hchild <;> simp [h, ChildPc.woken]
  case exited => exact fun _ h => absurd (killed_of_exited h) hk'
  case output =>
    rw [hout, hs.output, if_neg hexited, if_neg]
    obtain h | h := hchild <;> simp [h]

theorem child_inv (hs : Inv c s) (h : childStep s = some s') : Inv c s' := by
  rw [childStep] at h
  cases hc : s.child with
  | exited | terminated => simp [hc] at h
  | printPid =>
      simp only [hc, Option.some.injEq] at h
      subst h
      have hmask : s.usr1.blocked = false := by rw [hs.mask, hc]; rfl
      exact hs.unmasked (by rw [hc]; rfl) (.inl rfl) hmask rfl rfl rfl rfl (by simp [Line.isWoken])
  | sigprocmask =>
      simp only [hc, Option.some.injEq] at h
      subst h
      exact hs.unmasked (by rw [hc]; rfl) (.inr rfl) rfl rfl rfl rfl rfl rfl
  | sigwait =>
      simp only [hc] at h
      obtain ⟨g, hg, rfl⟩ := Option.map_eq_some_iff.mp h
      obtain ⟨hne, rfl⟩ := accept_cases hg
      have hk : s.parent.killed := by
        by_contra hk
        exact hne (hs.pending.trans (if_neg (fun h => hk h.1)))
      have hmask : s.usr1.blocked = true := by rw [hs.mask, hc]; rfl
      have hout : s.output.filter Line.isWoken = [] := by rw [hs.output, if_neg (by simp [hc])]
      constructor
      case alive => simp
      case mask => exact hmask
      case read => exact hs.read
      case stored => exact hs.stored
      case sent => exact fun _ => rfl
      case pending => simp [ChildPc.woken]
      case woken => exact fun _ => hk
      case exited => exact fun status h => absurd (hs.exited status h).1 (by simp [hc])
      case output => simpa using hout
  | printWoken =>
      simp only [hc, Option.some.injEq] at h
      subst h
      have hk : s.parent.killed := hs.woken (by rw [hc]; rfl)
      have haddr : s.addr = c := hs.stored (Nat.lt_of_lt_of_le hk (by decide))
      have hmask : s.usr1.blocked = true := by rw [hs.mask, hc]; rfl
      have hpending : s.usr1.pending = none := hs.pending.trans (if_neg (by simp [hc, ChildPc.woken]))
      have hout : s.output.filter Line.isWoken = [] := by rw [hs.output, if_neg (by simp [hc])]
      constructor
      case alive => simp
      case mask => exact hmask
      case read => exact hs.read
      case stored => exact hs.stored
      case sent => exact fun _ => rfl
      case pending => simpa [ChildPc.woken] using hpending
      case woken => exact fun _ => hk
      case exited => exact fun status h => ⟨rfl, (hs.exited status h).2⟩
      case output => simp [hout, haddr, Line.isWoken]

theorem deliver_none (hs : Inv c s) : deliver s = none := by
  rw [deliver]
  split
  · rfl
  · have hnone : s.usr1.deliver = none := by
      cases hm : s.child.masked with
      | true => exact deliver_blocked (hs.mask.trans hm)
      | false =>
          apply deliver_nothing
          refine hs.pending.trans (if_neg (fun h => ?_))
          rw [hs.sent h.1] at hm
          cases hm
    rw [hnone]
    rfl

theorem next_inv (hs : Inv c s) (hok : KillAfterMask s e) (h : next (some c) s e = some s') : Inv c s' := by
  cases e with
  | parent => exact parent_inv hs hok h
  | child => exact child_inv hs h
  | deliver => cases (deliver_none hs).symm.trans h

theorem run_inv (h : Run (Guarded (Exec (next (some c))) KillAfterMask) initial es s) : Inv c s :=
  h.invariant (I := fun _ s => Inv c s) (initial_inv c) (fun _ _ _ _ _ hs hl => next_inv hs hl.1 hl.2)

def rank (s : State) : Nat := s.parent.left + s.child.left

theorem next_rank (hs : Inv c s) (h : next (some c) s e = some s') : rank s' < rank s := by
  cases e with
  | parent =>
      cases hp : s.parent with
      | printPid | printType | read | store | printSending | kill =>
          simp only [next, parentStep, hp, Option.some.injEq] at h
          subst h
          simp [rank, hp, ParentPc.left]
      | wait =>
          simp only [next, parentStep, hp] at h
          obtain ⟨_, h⟩ := Option.ite_none_right_eq_some.mp h
          cases h
          simp [rank, hp, ParentPc.left]
      | exited => simp [next, parentStep, hp] at h
  | child =>
      cases hc : s.child with
      | printPid | sigprocmask | printWoken =>
          simp only [next, childStep, hc, Option.some.injEq] at h
          subst h
          simp [rank, hc, ChildPc.left]
      | sigwait =>
          simp only [next, childStep, hc] at h
          obtain ⟨g, _, rfl⟩ := Option.map_eq_some_iff.mp h
          simp [rank, hc, ChildPc.left]
      | exited | terminated => simp [next, childStep, hc] at h
  | deliver => cases (deliver_none hs).symm.trans h

/-- Both processes have ended, and the child has printed the character. -/
structure Done (c : UInt8) (s : State) : Prop where
  parent : s.parent = .exited 0
  child : s.child = .exited
  output : s.output.filter Line.isWoken = [.woken c]

theorem parent_goes (hk : ¬ s.parent.killed) : ∃ t, parentStep (some c) s = some t := by
  cases hp : s.parent with
  | printPid | printType | read | store | printSending | kill => exact ⟨_, by rw [parentStep, hp]⟩
  | wait | exited => simp [hp, ParentPc.killed, ParentPc.left] at hk

theorem goes_on (hs : Inv c s) (hn : ¬ Done c s) : ∃ e t, Guarded (Exec (next (some c))) KillAfterMask s e t := by
  have hchild {t : State} (h : childStep s = some t) : ∃ e t, Guarded (Exec (next (some c))) KillAfterMask s e t :=
    ⟨.child, t, fun h => (by cases h), h⟩
  cases hc : s.child with
  | printPid | sigprocmask | printWoken => exact hchild (by rw [childStep, hc])
  | terminated => exact absurd hc hs.alive
  | sigwait =>
      by_cases hk : s.parent.killed
      · have hpending : s.usr1.pending = some () := hs.pending.trans (if_pos ⟨hk, by rw [hc]; rfl⟩)
        apply hchild
        rw [childStep, hc]
        simp only [accept_some hpending]
        rfl
      · obtain ⟨t, ht⟩ := parent_goes hk
        have hmask : s.usr1.blocked = true := by rw [hs.mask, hc]; rfl
        exact ⟨.parent, t, fun _ _ => hmask, ht⟩
  | exited =>
      have hk : s.parent.killed := hs.woken (by rw [hc]; rfl)
      cases hp : s.parent with
      | printPid | printType | read | store | printSending | kill => simp [hp, ParentPc.killed, ParentPc.left] at hk
      | wait =>
          refine ⟨.parent, { s with parent := .exited 0 }, fun _ h => ?_, ?_⟩
          · rw [hp] at h
            cases h
          · simp [Exec, next, parentStep, hp, hc, ChildPc.ended]
      | exited status =>
          obtain ⟨_, rfl⟩ := hs.exited status hp
          exact absurd ⟨hp, hc, hs.output.trans (if_pos hc)⟩ hn

theorem completes (hs : Inv c s) : Inevitable (Guarded (Exec (next (some c))) KillAfterMask) (Done c) s :=
  inevitable_of_rank rank (fun _ hs hn => ⟨goes_on hs hn, fun _ _ hl => ⟨next_inv hs hl.1 hl.2, next_rank hs hl.2⟩⟩) hs

/-- What holds whenever the signal is sent: the child has no handler, and its
mask is what its code has made of it. -/
structure Plain (s : State) : Prop where
  uncaught : s.usr1.caught = false
  masked (h : s.child ≠ .terminated) : s.usr1.blocked = s.child.masked

theorem parent_plain {input : Option UInt8} (hs : Plain s) (h : parentStep input s = some s') : Plain s' := by
  cases hp : s.parent with
  | printPid | printType | store | printSending | kill =>
      simp only [parentStep, hp, Option.some.injEq] at h
      subst h
      exact ⟨hs.uncaught, hs.masked⟩
  | read =>
      cases input <;> simp only [parentStep, hp, Option.some.injEq] at h <;> subst h <;> exact ⟨hs.uncaught, hs.masked⟩
  | wait =>
      simp only [parentStep, hp] at h
      obtain ⟨_, h⟩ := Option.ite_none_right_eq_some.mp h
      cases h
      exact ⟨hs.uncaught, hs.masked⟩
  | exited => simp [parentStep, hp] at h

theorem child_plain (hs : Plain s) (h : childStep s = some s') : Plain s' := by
  have hmask {p : ChildPc} (hc : s.child = p) (hp : p ≠ .terminated) : s.usr1.blocked = p.masked :=
    hc ▸ hs.masked (hc ▸ hp)
  rw [childStep] at h
  cases hc : s.child with
  | printPid | printWoken =>
      have hm := hmask hc (by simp)
      simp only [hc, Option.some.injEq] at h
      subst h
      exact ⟨hs.uncaught, fun _ => hm⟩
  | sigprocmask =>
      simp only [hc, Option.some.injEq] at h
      subst h
      exact ⟨hs.uncaught, fun _ => rfl⟩
  | sigwait =>
      have hm := hmask hc (by simp)
      simp only [hc] at h
      obtain ⟨g, hg, rfl⟩ := Option.map_eq_some_iff.mp h
      obtain ⟨-, rfl⟩ := accept_cases hg
      exact ⟨hs.uncaught, fun _ => hm⟩
  | exited | terminated => simp [hc] at h

theorem next_plain {input : Option UInt8} (hs : Plain s) (h : next input s e = some s') : Plain s' := by
  cases e with
  | parent => exact parent_plain hs h
  | child => exact child_plain hs h
  | deliver =>
      obtain ⟨_, h⟩ := Option.ite_none_left_eq_some.mp h
      obtain ⟨⟨act, g⟩, hd, heq⟩ := Option.map_eq_some_iff.mp h
      obtain ⟨rfl, value, _, ⟨hcaught, _⟩ | ⟨_, rfl⟩⟩ := deliver_cases hd
      · rw [hs.uncaught] at hcaught
        cases hcaught
      · subst heq
        exact ⟨hs.uncaught, fun h => absurd rfl h⟩

/-- When the signal is sent too early, it terminates the child. -/
theorem early_terminates {input : Option UInt8} (hs : Plain s) (halive : s.child ≠ .terminated) (hbad : ¬ KillAfterMask s e)
    (h : next input s e = some s') : ∃ t, next input s' .deliver = some t ∧ t.child = .terminated := by
  simp only [KillAfterMask, Classical.not_imp, Bool.not_eq_true] at hbad
  obtain ⟨rfl, hp, hmask⟩ := hbad
  simp only [next, parentStep, hp, Option.some.injEq] at h
  subst h
  have hended : s.child.ended = false := by
    rw [hs.masked halive] at hmask
    cases hc : s.child with
    | terminated => exact absurd hc halive
    | exited => simp [hc, ChildPc.masked] at hmask
    | printPid | sigprocmask | sigwait | printWoken => rfl
  have hd := deliver_terminate (g := s.usr1.post ()) hmask hs.uncaught (post_ne_none s.usr1 ())
  refine ⟨{ s with parent := .wait, child := .terminated, usr1 := { s.usr1.post () with pending := none } }, ?_, rfl⟩
  simp [next, deliver, hended, hd]

/-- As long as the parent does not send its signal before the child has set its
mask, the child is not terminated and prints the character the parent has read,
and so the two programs end. A signal that is sent earlier may terminate it. -/
theorem handshake_unless_early (c : UInt8) :
    (∀ es s, Run (Guarded (Exec (next (some c))) KillAfterMask) initial es s →
      s.child ≠ .terminated ∧ ∀ v, .woken v ∈ s.output → v = c) ∧
    Inevitable (Guarded (Exec (next (some c))) KillAfterMask) (Done c) initial ∧
    ∀ es s e s', Run (Exec (next (some c))) initial es s → s.child ≠ .terminated → ¬ KillAfterMask s e →
      next (some c) s e = some s' → ∃ t, next (some c) s' .deliver = some t ∧ t.child = .terminated := by
  refine ⟨fun es s h => ?_, completes (initial_inv c), fun es s e s' h halive hbad hn => ?_⟩
  · have hs := run_inv h
    refine ⟨hs.alive, fun v hv => ?_⟩
    have hmem : .woken v ∈ s.output.filter Line.isWoken := List.mem_filter.mpr ⟨hv, rfl⟩
    rw [hs.output] at hmem
    split at hmem
    · exact Line.woken.inj (List.mem_singleton.mp hmem)
    · cases hmem
  · have hplain : Plain s := by
      apply h.reachable.invariant (I := Plain)
      · exact ⟨rfl, fun _ => rfl⟩
      · exact fun _ _ _ hs hl => next_plain hs hl
    exact early_terminates hplain halive hbad hn

/-- The input of the parent is there before the child has begun. -/
def parentFirst : List Event := List.replicate 6 .parent ++ [.deliver, .parent]

theorem child_terminated : ∃ s, Run (Exec (next (some 120))) initial parentFirst s ∧ s.child = .terminated ∧
    s.parent = .exited 0 ∧ s.output = [.parent, .typeAnything, .sending] :=
  ⟨_, replay_run rfl, rfl, rfl, rfl⟩

end UnixProg.Signals.Sigwait

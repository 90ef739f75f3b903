import Mathlib.Algebra.BigOperators.Intervals
import UnixProg.Lib.PipeObject
import UnixProg.Lib.Transition

namespace UnixProg.Pipe.Countdown

open Lib Transition PipeObject

def CHILDREN : Nat := 3

inductive Line
  | exiting (num : Nat)
  | forked (i : Nat) (ok : Bool)
  | reading
  | gotEof
deriving DecidableEq

inductive Proc
  | parent
  | child (num : Nat)
deriving DecidableEq

/-- The statements of main and, for each `i`, those of the parent in `child()`. -/
inductive ParentPc
  | pipe
  | fork (i : Nat)
  | printForked (i : Nat) (ok : Bool)
  | close
  | printReading
  | read
  | assert (n : Nat)
  | printEof
  | exit
  | exited (status : Nat)
  | aborted
deriving DecidableEq

inductive ChildPc
  | absent
  | close
  | sleep
  | print
  | exit
  | gone
deriving DecidableEq

/-- `buf` is what a process has printed and not written yet. -/
structure State where
  parent : ParentPc
  child : Nat → ChildPc
  pipe : Pipe Proc UInt8
  buf : Proc → List Line
  out : List Line

/-- Lines are written at once to a terminal, and with the end of the process to a file. -/
def State.printf (tty : Bool) (t : Proc) (line : Line) (s : State) : State :=
  if tty then { s with out := s.out ++ [line] } else { s with buf := Function.update s.buf t (s.buf t ++ [line]) }

/-- What `exit()` does before `_exit()`. -/
def State.flush (t : Proc) (s : State) : State :=
  { s with out := s.out ++ s.buf t, buf := Function.update s.buf t [] }

/-- One statement of the parent. A call that can fail succeeds if `ok`. -/
def parentStep (tty ok : Bool) (s : State) : Option State :=
  match s.parent with
  | .pipe =>
      if ok then some { s with pipe := (s.pipe.openRead .parent).openWrite .parent, parent := .fork 1 }
      else some { s with parent := .exited 1 }
  | .fork i =>
      if CHILDREN < i then some { s with parent := .close }
      else if ok then
        some { s with
          child := Function.update s.child i .close
          pipe := s.pipe.fork .parent (.child i)
          buf := Function.update s.buf (.child i) (s.buf .parent)
          parent := .printForked i true }
      else some { s with parent := .printForked i false }
  | .printForked i ok' => some { s.printf tty .parent (.forked i ok') with parent := .fork (i + 1) }
  | .close => some { s with pipe := s.pipe.closeWrite .parent, parent := .printReading }
  | .printReading => some { s.printf tty .parent .reading with parent := .read }
  | .read => (s.pipe.read 1).map (fun r => { s with pipe := r.2, parent := .assert r.1.length })
  | .assert n => some { s with parent := if n = 0 then .printEof else .aborted }
  | .printEof => some { s.printf tty .parent .gotEof with parent := .exit }
  | .exit => some { s.flush .parent with pipe := s.pipe.exit .parent, parent := .exited 0 }
  | .exited _ | .aborted => none

def childStep (tty : Bool) (num : Nat) (s : State) : Option State :=
  match s.child num with
  | .close => some { s with pipe := s.pipe.closeRead (.child num), child := Function.update s.child num .sleep }
  | .sleep => some { s with child := Function.update s.child num .print }
  | .print => some { s.printf tty (.child num) (.exiting num) with child := Function.update s.child num .exit }
  | .exit => some { s with pipe := s.pipe.exit (.child num), child := Function.update s.child num .gone }
  | .absent | .gone => none

inductive Event
  | parent (ok : Bool)
  | child (num : Nat)
deriving DecidableEq

def next (tty : Bool) (s : State) : Event → Option State
  | .parent ok => parentStep tty ok s
  | .child num => childStep tty num s

def initial : State := ⟨.pipe, fun _ => .absent, .empty, fun _ => [], []⟩

/-- The parent has the write end open. -/
def ParentPc.writes : ParentPc → Bool
  | .fork _ | .printForked _ _ | .close => true
  | .pipe | .printReading | .read | .assert _ | .printEof | .exit | .exited _ | .aborted => false

/-- The children that come before this one have been forked, or cannot be. -/
def ParentPc.upTo : ParentPc → Nat
  | .pipe => 1
  | .fork i => i
  | .printForked i _ => i + 1
  | .close | .printReading | .read | .assert _ | .printEof | .exit | .exited _ | .aborted => CHILDREN + 1

def ParentPc.hasRead : ParentPc → Bool
  | .assert _ | .printEof | .exit | .exited _ => true
  | .pipe | .fork _ | .printForked _ _ | .close | .printReading | .read | .aborted => false

def ChildPc.running : ChildPc → Bool
  | .close | .sleep | .print | .exit => true
  | .absent | .gone => false

def ChildPc.hasPrinted : ChildPc → Bool
  | .exit | .gone => true
  | .absent | .close | .sleep | .print => false

def State.writes (s : State) : Proc → Bool
  | .parent => s.parent.writes
  | .child num => (s.child num).running

/-- Who can write to the pipe, and what the parent gets from it. -/
structure Inv (s : State) : Prop where
  data : s.pipe.data = []
  writers (t) : t ∈ s.pipe.writers ↔ s.writes t = true
  first : 1 ≤ s.parent.upTo
  loop : s.parent.upTo ≤ CHILDREN + 1
  forked (num) (h : s.child num ≠ .absent) : 1 ≤ num ∧ num < s.parent.upTo
  ended (h : s.parent.hasRead = true) (num) : (s.child num).running = false
  eof (n) (h : s.parent = .assert n) : n = 0
  alive : s.parent ≠ .aborted

variable {tty ok : Bool} {s s' : State} {e : Event} {es : List Event} {num : Nat}

theorem initial_inv : Inv initial where
  data := rfl
  writers t := by cases t <;> simp [initial, Pipe.empty, State.writes, ParentPc.writes, ChildPc.running]
  first := Nat.le_refl 1
  loop := by decide
  forked num h := absurd rfl h
  ended h := by cases h
  eof n h := by cases h
  alive h := by cases h

/-- The statements that have to do neither with the pipe nor with a child. -/
theorem Inv.goes (hs : Inv s) (hchild : s'.child = s.child) (hpipe : s'.pipe = s.pipe)
    (hwrites : s'.parent.writes = s.parent.writes) (hupTo : s.parent.upTo ≤ s'.parent.upTo)
    (hloop : s'.parent.upTo ≤ CHILDREN + 1) (hread : s'.parent.hasRead = true → ∀ num, (s.child num).running = false)
    (heof : ∀ n, s'.parent = .assert n → n = 0) (halive : s'.parent ≠ .aborted) : Inv s' where
  data := hpipe ▸ hs.data
  writers t := by
    rw [hpipe, hs.writers t]
    cases t with
    | parent => rw [State.writes, State.writes, hwrites]
    | child num => rw [State.writes, State.writes, hchild]
  first := Nat.le_trans hs.first hupTo
  loop := hloop
  forked num h := by
    rw [hchild] at h
    exact ⟨(hs.forked num h).1, Nat.lt_of_lt_of_le (hs.forked num h).2 hupTo⟩
  ended h num := by
    rw [hchild]
    exact hread h num
  eof := heof
  alive := halive

@[simp] theorem printf_child (tty : Bool) (t : Proc) (line : Line) (s : State) : (s.printf tty t line).child = s.child := by
  cases tty <;> rfl

@[simp] theorem printf_pipe (tty : Bool) (t : Proc) (line : Line) (s : State) : (s.printf tty t line).pipe = s.pipe := by
  cases tty <;> rfl

@[simp] theorem printf_parent (tty : Bool) (t : Proc) (line : Line) (s : State) :
    (s.printf tty t line).parent = s.parent := by
  cases tty <;> rfl

/-- Nobody is left who could write when the `read()` returns. -/
theorem Inv.reads {r : List UInt8 × Pipe Proc UInt8} (hs : Inv s) (h : s.pipe.read 1 = some r) :
    r = ([], s.pipe) ∧ ∀ num, (s.child num).running = false := by
  obtain ⟨hbs, hq, hw⟩ := read_nothing hs.data h
  refine ⟨Prod.ext hbs hq, fun num => ?_⟩
  have hnot := hs.writers (.child num)
  rw [hw, State.writes] at hnot
  exact Bool.eq_false_of_not_eq_true (fun hrun => Finset.notMem_empty _ (hnot.mpr hrun))

theorem fork_inv {i : Nat} (hs : Inv s) (hp : s.parent = .fork i) (hle : i ≤ CHILDREN)
    (hpipe : s'.pipe = s.pipe.fork .parent (.child i)) (hchild : s'.child = Function.update s.child i .close)
    (hp' : s'.parent = .printForked i true) : Inv s' where
  data := by rw [hpipe, fork_data, hs.data]
  writers t := by
    have hparent : Proc.parent ∈ s.pipe.writers := (hs.writers .parent).mpr (by rw [State.writes, hp]; rfl)
    rw [hpipe, mem_fork_writers, hs.writers t]
    cases t with
    | parent => simp [State.writes, hp, hp', ParentPc.writes]
    | child num =>
        by_cases hnum : num = i
        · subst hnum
          simp [State.writes, hchild, ChildPc.running, hparent]
        · simp [State.writes, hchild, hnum]
  first := by rw [hp']; exact Nat.le_add_left 1 i
  loop := by rw [hp']; exact Nat.succ_le_succ hle
  forked num h := by
    have hone := hs.first
    rw [hp, ParentPc.upTo] at hone
    rw [hp', ParentPc.upTo]
    by_cases hnum : num = i
    · omega
    · rw [hchild, Function.update_of_ne hnum] at h
      have hf := hs.forked num h
      rw [hp, ParentPc.upTo] at hf
      omega
  ended h := by rw [hp'] at h; cases h
  eof n h := by rw [hp'] at h; cases h
  alive := by rw [hp']; exact fun h => by cases h

theorem close_inv (hs : Inv s) (hp : s.parent = .close) :
    Inv { s with pipe := s.pipe.closeWrite .parent, parent := .printReading } where
  data := closeWrite_empty hs.data _
  writers t := by
    rw [closeWrite_writers, Finset.mem_erase, hs.writers t]
    cases t with
    | parent => simp [State.writes, ParentPc.writes]
    | child num => simp [State.writes]
  first := Nat.le_add_left 1 _
  loop := Nat.le_refl _
  forked num h := by
    have hf := hs.forked num h
    rw [hp] at hf
    exact hf
  ended h := by cases h
  eof n h := by cases h
  alive h := by cases h

theorem parent_inv (hs : Inv s) (h : parentStep tty ok s = some s') : Inv s' := by
  have hloop := hs.loop
  rw [parentStep] at h
  cases hp : s.parent with
  | pipe =>
      rw [hp] at h
      have hnone (num : Nat) : s.child num = .absent := by
        by_contra hne
        have hf := hs.forked num hne
        rw [hp, ParentPc.upTo] at hf
        omega
      cases ok with
      | true =>
          cases h
          refine ⟨hs.data, fun t => ?_, Nat.le_refl 1, Nat.le_add_left 1 _, fun num h => absurd (hnone num) h,
            fun h => (by cases h), fun n h => (by cases h), fun h => (by cases h)⟩
          simp only [Pipe.openWrite, Pipe.openRead, Finset.mem_insert, hs.writers]
          cases t with
          | parent => simp [State.writes, ParentPc.writes]
          | child num => simp [State.writes]
      | false =>
          cases h
          refine hs.goes rfl rfl (by rw [hp]; rfl) (by rw [hp]; exact Nat.le_add_left 1 _) (Nat.le_refl _) (fun _ num => ?_)
            (fun n h => (by cases h)) (fun h => (by cases h))
          rw [hnone num]
          rfl
  | fork i =>
      rw [hp, ParentPc.upTo] at hloop
      simp only [hp] at h
      split at h
      · cases h
        exact hs.goes rfl rfl (by rw [hp]; rfl) (by rw [hp]; exact hloop) (Nat.le_refl _) (fun h => (by cases h))
          (fun n h => (by cases h)) (fun h => (by cases h))
      · rename_i hlt
        cases ok with
        | true =>
            cases h
            exact fork_inv hs hp (Nat.le_of_not_lt hlt) rfl rfl rfl
        | false =>
            cases h
            exact hs.goes rfl rfl (by rw [hp]; rfl) (by rw [hp]; exact Nat.le_succ i)
              (Nat.succ_le_succ (Nat.le_of_not_lt hlt)) (fun h => (by cases h)) (fun n h => (by cases h)) (fun h => (by cases h))
  | printForked i ok' =>
      rw [hp] at h hloop
      cases h
      exact hs.goes (by simp) (by simp) (by rw [hp]; rfl) (by rw [hp]; exact Nat.le_refl _) hloop (fun h => (by cases h))
        (fun n h => (by cases h)) (fun h => (by cases h))
  | close =>
      rw [hp] at h
      cases h
      exact close_inv hs hp
  | printReading =>
      rw [hp] at h hloop
      cases h
      exact hs.goes (by simp) (by simp) (by rw [hp]; rfl) (by rw [hp]; exact Nat.le_refl _) hloop (fun h => (by cases h))
        (fun n h => (by cases h)) (fun h => (by cases h))
  | read =>
      rw [hp] at h hloop
      obtain ⟨r, hr, rfl⟩ := Option.map_eq_some_iff.mp h
      obtain ⟨rfl, hrun⟩ := hs.reads hr
      exact hs.goes rfl rfl (by rw [hp]; rfl) (by rw [hp]; exact Nat.le_refl _) hloop (fun _ => hrun)
        (fun n h => (by cases h; rfl)) (fun h => (by cases h))
  | assert n =>
      rw [hp] at h hloop
      cases h
      obtain rfl := hs.eof n hp
      exact hs.goes rfl rfl (by rw [hp]; rfl) (by rw [hp]; exact Nat.le_refl _) hloop (fun _ => hs.ended (by rw [hp]; rfl))
        (fun n h => (by cases h)) (fun h => (by cases h))
  | printEof =>
      rw [hp] at h hloop
      cases h
      exact hs.goes (by simp) (by simp) (by rw [hp]; rfl) (by rw [hp]; exact Nat.le_refl _) hloop
        (fun _ => hs.ended (by rw [hp]; rfl)) (fun n h => (by cases h)) (fun h => (by cases h))
  | exit =>
      rw [hp] at h hloop
      cases h
      refine ⟨closeWrite_empty (closeRead_empty hs.data _) _, fun t => ?_, Nat.le_add_left 1 _, hloop, fun num h => ?_,
        fun _ => ?_, fun n h => (by cases h), fun h => (by cases h)⟩
      · rw [Pipe.exit, closeWrite_writers, closeRead_writers, Finset.mem_erase, hs.writers t]
        cases t with
        | parent => simp [State.writes, ParentPc.writes]
        | child num => simp [State.writes, State.flush]
      · have hf := hs.forked num h
        rw [hp] at hf
        exact hf
      · exact hs.ended (by rw [hp]; rfl)
  | exited status | aborted =>
      rw [hp] at h
      cases h

theorem Inv.child {q : ChildPc} (hs : Inv s) (hrun : (s.child num).running = true)
    (hchild : s'.child = Function.update s.child num q) (hparent : s'.parent = s.parent) (hdata : s'.pipe.data = [])
    (hw : ∀ t, t ∈ s'.pipe.writers ↔ t ∈ s.pipe.writers ∧ (t = .child num → q.running = true)) : Inv s' where
  data := hdata
  writers t := by
    rw [hw t, hs.writers t]
    cases t with
    | parent => simp [State.writes, hparent]
    | child m =>
        by_cases hm : m = num
        · subst hm
          simp [State.writes, hchild, hrun]
        · simp [State.writes, hchild, hm]
  first := hparent ▸ hs.first
  loop := hparent ▸ hs.loop
  forked m h := by
    rw [hparent]
    apply hs.forked m
    by_cases hm : m = num
    · subst hm
      intro habs
      rw [habs] at hrun
      cases hrun
    · rwa [hchild, Function.update_of_ne hm] at h
  ended h := by
    rw [hparent] at h
    rw [hs.ended h num] at hrun
    cases hrun
  eof := hparent ▸ hs.eof
  alive := hparent ▸ hs.alive

theorem child_inv (hs : Inv s) (h : childStep tty num s = some s') : Inv s' := by
  rw [childStep] at h
  cases hc : s.child num with
  | absent | gone =>
      rw [hc] at h
      cases h
  | close =>
      rw [hc] at h
      cases h
      exact hs.child (by rw [hc]; rfl) rfl rfl (closeRead_empty hs.data _) (fun t => by simp [ChildPc.running])
  | sleep =>
      rw [hc] at h
      cases h
      exact hs.child (by rw [hc]; rfl) rfl rfl hs.data (fun t => by simp [ChildPc.running])
  | print =>
      rw [hc] at h
      cases h
      exact hs.child (q := .exit) (by rw [hc]; rfl) (by simp) (by simp) (by simpa using hs.data)
        (fun t => by simp [ChildPc.running])
  | exit =>
      rw [hc] at h
      cases h
      refine hs.child (by rw [hc]; rfl) rfl rfl (closeWrite_empty (closeRead_empty hs.data _) _) (fun t => ?_)
      simp [Pipe.exit, ChildPc.running, and_comm]

theorem next_inv (hs : Inv s) (h : next tty s e = some s') : Inv s' := by
  cases e with
  | parent ok => exact parent_inv hs h
  | child num => exact child_inv hs h

theorem run_inv (h : Run (Exec (next tty)) initial es s) : Inv s :=
  h.reachable.invariant initial_inv (fun _ _ _ hs hl => next_inv hs hl)

/-- What there is to see when the parent has ended. -/
def State.shown (s : State) : List Line := s.out ++ s.buf .parent

/-- A child's line is seen on a terminal only, and the parent's last line comes after it. -/
structure Told (tty : Bool) (s : State) : Prop where
  direct (h : tty = true) : s.buf .parent = []
  count (num : Nat) : s.shown.count (.exiting num) = if tty = true ∧ (s.child num).hasPrinted = true then 1 else 0
  last (h : s.parent = .exit ∨ s.parent = .exited 0) : ∃ lines, s.shown = lines ++ [.gotEof]
  flushed (h : s.parent = .exited 0) : s.buf .parent = []

theorem initial_told (tty : Bool) : Told tty initial where
  direct _ := rfl
  count num := by simp [initial, State.shown, ChildPc.hasPrinted]
  last h := by rcases h with h | h <;> cases h
  flushed _ := rfl

theorem Told.shown_printf (hs : Told tty s) (t : Proc) (line : Line) :
    (s.printf tty t line).shown = if tty = true ∨ t = .parent then s.shown ++ [line] else s.shown := by
  cases tty with
  | true => simp [State.printf, State.shown, hs.direct rfl]
  | false =>
      by_cases ht : t = .parent
      · subst ht
        simp [State.printf, State.shown]
      · simp [State.printf, State.shown, ht, Function.update_of_ne (Ne.symm ht)]

/-- The statements of the parent that print nothing. -/
theorem Told.still (hs : Told tty s) (hprinted : ∀ num, (s'.child num).hasPrinted = (s.child num).hasPrinted)
    (hbuf : s'.buf .parent = s.buf .parent) (hout : s'.out = s.out) (hgoes : s'.parent ≠ .exit)
    (hexit : s'.parent ≠ .exited 0) : Told tty s' where
  direct h := hbuf.trans (hs.direct h)
  count num := by rw [State.shown, hout, hbuf, ← State.shown, hs.count num, hprinted num]
  last h := absurd h (not_or_intro hgoes hexit)
  flushed h := absurd h hexit

theorem Told.prints {line : Line} {p : ParentPc} (hs : Told tty s) (hline : ∀ num, line ≠ .exiting num)
    (hlast : p = .exit → line = .gotEof) (hexit : p ≠ .exited 0) :
    Told tty { s.printf tty .parent line with parent := p } := by
  have hshown := (hs.shown_printf .parent line).trans (if_pos (.inr rfl))
  constructor
  · intro htty
    subst htty
    exact hs.direct rfl
  · intro num
    change (s.printf tty .parent line).shown.count (.exiting num) = _
    have hnone : [line].count (.exiting num) = 0 := List.count_eq_zero.mpr (by simpa using (hline num).symm)
    rw [hshown, List.count_append, hnone, Nat.add_zero, hs.count num]
    simp
  · intro h
    refine ⟨s.shown, ?_⟩
    rw [← hlast (h.resolve_right hexit)]
    exact hshown
  · exact fun h => absurd h hexit

theorem parent_told (hi : Inv s) (hs : Told tty s) (h : parentStep tty ok s = some s') : Told tty s' := by
  rw [parentStep] at h
  cases hp : s.parent with
  | pipe =>
      rw [hp] at h
      cases ok <;> cases h <;> exact hs.still (fun _ => rfl) rfl rfl (by simp) (by simp)
  | fork i =>
      simp only [hp] at h
      split at h
      · cases h
        exact hs.still (fun _ => rfl) rfl rfl (by simp) (by simp)
      · cases ok with
        | true =>
            cases h
            have habs : s.child i = .absent := by
              by_contra hne
              have hf := hi.forked i hne
              rw [hp, ParentPc.upTo] at hf
              omega
            have hbuf : Function.update s.buf (.child i) (s.buf .parent) .parent = s.buf .parent :=
              Function.update_of_ne (fun h => by cases h) _ _
            refine hs.still (fun num => ?_) hbuf rfl (by simp) (by simp)
            by_cases hnum : num = i
            · subst hnum
              simp [habs, ChildPc.hasPrinted]
            · simp only [Function.update_of_ne hnum]
        | false =>
            cases h
            exact hs.still (fun _ => rfl) rfl rfl (by simp) (by simp)
  | printForked i ok' =>
      rw [hp] at h
      cases h
      exact hs.prints (by simp) (by simp) (by simp)
  | printReading =>
      rw [hp] at h
      cases h
      exact hs.prints (by simp) (by simp) (by simp)
  | printEof =>
      rw [hp] at h
      cases h
      exact hs.prints (by simp) (by simp) (by simp)
  | close =>
      rw [hp] at h
      cases h
      exact hs.still (fun _ => rfl) rfl rfl (by simp) (by simp)
  | read =>
      rw [hp] at h
      obtain ⟨r, _, rfl⟩ := Option.map_eq_some_iff.mp h
      exact hs.still (fun _ => rfl) rfl rfl (by simp) (by simp)
  | assert n =>
      rw [hp] at h
      cases h
      refine hs.still (fun _ => rfl) rfl rfl ?_ ?_ <;> simp only <;> split <;> simp
  | exit =>
      rw [hp] at h
      cases h
      have hshown : (s.flush .parent).shown = s.shown := by simp [State.flush, State.shown]
      have hbuf : (s.flush .parent).buf .parent = [] := by simp [State.flush]
      constructor
      · exact fun _ => hbuf
      · intro num
        exact (congrArg (List.count _) hshown).trans (hs.count num)
      · intro _
        obtain ⟨lines, hl⟩ := hs.last (.inl hp)
        exact ⟨lines, hshown.trans hl⟩
      · exact fun _ => hbuf
  | exited status | aborted =>
      rw [hp] at h
      cases h

theorem hasRead_of_last (h : s.parent = .exit ∨ s.parent = .exited 0) : s.parent.hasRead = true := by
  rcases h with h | h <;> rw [h] <;> rfl

/-- A child goes on, and prints its line or not. -/
theorem Told.child {q : ChildPc} (hi : Inv s) (hs : Told tty s) (hrun : (s.child num).running = true)
    (hchild : s'.child = Function.update s.child num q) (hparent : s'.parent = s.parent)
    (hbuf : s'.buf .parent = s.buf .parent)
    (hcount : ∀ m, s'.shown.count (.exiting m) =
      s.shown.count (.exiting m) + if tty = true ∧ m = num ∧ q.hasPrinted ≠ (s.child num).hasPrinted then 1 else 0)
    (hprinted : (s.child num).hasPrinted = true → q.hasPrinted = true) : Told tty s' := by
  have hnot (h : s'.parent = .exit ∨ s'.parent = .exited 0) : False := by
    rw [hparent] at h
    rw [hi.ended (hasRead_of_last h) num] at hrun
    cases hrun
  constructor
  · exact fun h => hbuf.trans (hs.direct h)
  · intro m
    rw [hcount m, hs.count m, hchild]
    by_cases hm : m = num
    · subst hm
      rw [Function.update_self]
      cases h : (s.child m).hasPrinted <;> cases hq : q.hasPrinted <;> cases tty <;> simp_all
    · rw [Function.update_of_ne hm]
      simp [hm]
  · exact fun h => absurd (hnot h) id
  · exact fun h => absurd (hnot (.inr h)) id

theorem child_told (hi : Inv s) (hs : Told tty s) (h : childStep tty num s = some s') : Told tty s' := by
  rw [childStep] at h
  cases hc : s.child num with
  | absent | gone =>
      rw [hc] at h
      cases h
  | close | sleep | exit =>
      rw [hc] at h
      cases h
      refine hs.child hi (by rw [hc]; rfl) rfl rfl rfl (fun m => ?_) (by rw [hc]; decide)
      rw [hc, if_neg (by simp [ChildPc.hasPrinted])]
      rfl
  | print =>
      rw [hc] at h
      cases h
      have hshown := hs.shown_printf (.child num) (.exiting num)
      refine hs.child (q := .exit) hi (by rw [hc]; rfl) (by simp) (by simp) ?_ (fun m => ?_) (by rw [hc]; decide)
      · cases tty <;> simp [State.printf]
      · change (s.printf tty (.child num) (.exiting num)).shown.count (.exiting m) = _
        rw [hshown, hc]
        cases tty with
        | true =>
            by_cases hm : m = num
            · subst hm
              simp [ChildPc.hasPrinted]
            · simp [hm, Ne.symm hm]
        | false => simp

theorem run_told (h : Run (Exec (next tty)) initial es s) : Told tty s := by
  refine h.invariant (I := fun _ s => Told tty s) (initial_told tty) (fun _ e _ _ hr hs hl => ?_)
  cases e with
  | parent ok => exact parent_told (run_inv hr) hs hl
  | child num => exact child_told (run_inv hr) hs hl

/-- The `read()` returns 0, and not before all the children have ended: the
line about that is the last one, and on a terminal each child has had its own. -/
theorem eof_when_children_ended (tty : Bool) (es : List Event) (s : State) (h : Run (Exec (next tty)) initial es s) :
    s.parent ≠ .aborted ∧ (s.parent = .exited 0 →
      (∀ num, s.child num = .absent ∨ s.child num = .gone) ∧ (∃ lines, s.out = lines ++ [.gotEof]) ∧
      ∀ num, s.out.count (.exiting num) = if tty = true ∧ s.child num = .gone then 1 else 0) := by
  have hi := run_inv h
  have hs := run_told h
  refine ⟨hi.alive, fun hp => ?_⟩
  have hended (num : Nat) : s.child num = .absent ∨ s.child num = .gone := by
    have hrun := hi.ended (by rw [hp]; rfl) num
    cases hc : s.child num with
    | absent => exact .inl rfl
    | gone => exact .inr rfl
    | close | sleep | print | exit => rw [hc] at hrun; cases hrun
  have hshown : s.shown = s.out := by rw [State.shown, hs.flushed hp, List.append_nil]
  refine ⟨hended, hshown ▸ hs.last (.inr hp), fun num => ?_⟩
  rw [← hshown, hs.count num]
  rcases hended num with hc | hc <;> simp [hc, ChildPc.hasPrinted]

/-- The second child cannot be forked. -/
def secondForkFails : List Event :=
  [.parent true, .parent true, .parent true, .parent false, .child 1, .parent true, .parent true, .parent true, .parent true,
    .parent true, .child 1, .parent true, .child 3, .child 3, .child 1, .child 3, .child 3, .child 1, .parent true,
    .parent true, .parent true, .parent true]

theorem eof_when_children_ended_secondForkFails : ∃ s, Run (Exec (next true)) initial secondForkFails s ∧
    s.parent = .exited 0 ∧ s.child 2 = .absent ∧
    ∀ num, s.out.count (.exiting num) = if true = true ∧ s.child num = .gone then 1 else 0 := by
  obtain ⟨s, hs, hp, hc⟩ : ∃ s, replay (next true) initial secondForkFails = some s ∧ s.parent = .exited 0 ∧
      s.child 2 = .absent := ⟨_, rfl, rfl, rfl⟩
  exact ⟨s, replay_run hs, hp, hc, ((eof_when_children_ended true secondForkFails s (replay_run hs)).2 hp).2.2⟩

/-- The statements that a process has left, those of a child before its parent forks it included. -/
def ParentPc.left : ParentPc → Nat
  | .pipe => 7 * CHILDREN + 9
  | .fork i => 7 * (CHILDREN + 1 - i) + 8
  | .printForked i _ => 7 * (CHILDREN - i) + 9
  | .close => 7
  | .printReading => 6
  | .read => 5
  | .assert _ => 4
  | .printEof => 3
  | .exit => 2
  | .exited _ | .aborted => 0

def ChildPc.left : ChildPc → Nat
  | .close => 4
  | .sleep => 3
  | .print => 2
  | .exit => 1
  | .absent | .gone => 0

def State.left (s : State) : Nat := ∑ num ∈ Finset.Icc 1 CHILDREN, (s.child num).left

theorem left_update {q : ChildPc} (hnum : 1 ≤ num ∧ num ≤ CHILDREN) (hchild : s'.child = Function.update s.child num q) :
    s'.left + (s.child num).left = s.left + q.left := by
  have hmem := Finset.mem_Icc.mpr hnum
  have hrest : ∑ m ∈ (Finset.Icc 1 CHILDREN).erase num, (s'.child m).left =
      ∑ m ∈ (Finset.Icc 1 CHILDREN).erase num, (s.child m).left :=
    Finset.sum_congr rfl (fun m hm => by rw [hchild, Function.update_of_ne (Finset.ne_of_mem_erase hm)])
  have hself : (s'.child num).left = q.left := by rw [hchild, Function.update_self]
  rw [State.left, State.left, ← Finset.add_sum_erase _ _ hmem, ← Finset.add_sum_erase _ (fun m => (s.child m).left) hmem,
    hrest, hself]
  omega

theorem left_eq (hchild : s'.child = s.child) : s'.left = s.left := by rw [State.left, State.left, hchild]

theorem parent_left (h : parentStep tty ok s = some s') :
    s'.child = s.child ∧ s'.parent.left < s.parent.left ∨
    ∃ i ≤ CHILDREN, s.parent = .fork i ∧ s'.child = Function.update s.child i .close ∧
      s'.parent = .printForked i true := by
  rw [parentStep] at h
  cases hp : s.parent with
  | pipe =>
      rw [hp] at h
      cases ok <;> cases h <;> exact .inl ⟨rfl, by simp [ParentPc.left]⟩
  | fork i =>
      simp only [hp] at h
      split at h
      · cases h
        refine .inl ⟨rfl, ?_⟩
        simp only [ParentPc.left]
        omega
      · rename_i hlt
        cases ok with
        | true =>
            cases h
            exact .inr ⟨i, Nat.le_of_not_lt hlt, rfl, rfl, rfl⟩
        | false =>
            cases h
            refine .inl ⟨rfl, ?_⟩
            simp only [ParentPc.left]
            omega
  | printForked i ok' =>
      rw [hp] at h
      cases h
      refine .inl ⟨by simp, ?_⟩
      simp only [ParentPc.left]
      omega
  | close | printReading | printEof | exit =>
      rw [hp] at h
      cases h
      exact .inl ⟨by simp [State.flush], by simp [ParentPc.left]⟩
  | read =>
      rw [hp] at h
      obtain ⟨r, _, rfl⟩ := Option.map_eq_some_iff.mp h
      exact .inl ⟨rfl, by simp [ParentPc.left]⟩
  | assert n =>
      rw [hp] at h
      cases h
      refine .inl ⟨rfl, ?_⟩
      simp only
      split <;> simp [ParentPc.left]
  | exited status | aborted =>
      rw [hp] at h
      cases h

theorem parent_rank (hi : Inv s) (h : parentStep tty ok s = some s') :
    s'.parent.left + s'.left < s.parent.left + s.left := by
  obtain ⟨hchild, hlt⟩ | ⟨i, hle, hp, hchild, hp'⟩ := parent_left h
  · rw [left_eq hchild]
    exact Nat.add_lt_add_right hlt _
  · have hfirst := hi.first
    rw [hp, ParentPc.upTo] at hfirst
    have hsum := left_update ⟨hfirst, hle⟩ hchild
    rw [hp, hp', ParentPc.left, ParentPc.left]
    rw [ChildPc.left] at hsum
    omega

theorem child_left (h : childStep tty num s = some s') : s'.parent = s.parent ∧
    ∃ q : ChildPc, s'.child = Function.update s.child num q ∧ q.left < (s.child num).left := by
  rw [childStep] at h
  cases hc : s.child num with
  | absent | gone =>
      rw [hc] at h
      cases h
  | close | sleep | exit =>
      rw [hc] at h
      cases h
      exact ⟨rfl, _, rfl, by decide⟩
  | print =>
      rw [hc] at h
      cases h
      exact ⟨by simp, .exit, by simp, by decide⟩

theorem child_rank (hi : Inv s) (h : childStep tty num s = some s') :
    s'.parent.left + s'.left < s.parent.left + s.left := by
  obtain ⟨hp, q, hchild, hlt⟩ := child_left h
  have hne : s.child num ≠ .absent := by
    intro habs
    rw [habs] at hlt
    cases hlt
  obtain ⟨hfirst, hupTo⟩ := hi.forked num hne
  have hloop := hi.loop
  have hsum := left_update ⟨hfirst, by omega⟩ hchild
  rw [hp]
  omega

theorem child_goes (tty : Bool) (hrun : (s.child num).running = true) : ∃ s', childStep tty num s = some s' := by
  cases hc : s.child num with
  | close | sleep | print | exit => exact ⟨_, by rw [childStep, hc]⟩
  | absent | gone =>
      rw [hc] at hrun
      cases hrun

/-- Some process can go on: the parent, or else a child that has the pipe open. -/
theorem goes_on (tty : Bool) (hi : Inv s) (hnot : ¬ ∃ status, s.parent = .exited status) :
    ∃ e s', next tty s e = some s' := by
  have hparent (ok : Bool) {t : State} (h : parentStep tty ok s = some t) : ∃ e s', next tty s e = some s' :=
    ⟨.parent ok, t, h⟩
  cases hp : s.parent with
  | pipe => exact hparent true (by rw [parentStep, hp]; exact if_pos rfl)
  | printForked | close | printReading | assert | printEof | exit => exact hparent true (by rw [parentStep, hp])
  | fork i =>
      by_cases hlt : CHILDREN < i
      · exact hparent true (by rw [parentStep, hp]; exact if_pos hlt)
      · exact hparent false (by simp only [parentStep, hp, if_neg hlt]; rfl)
  | read =>
      cases hr : s.pipe.read 1 with
      | some r => exact hparent true (by simp only [parentStep, hp, hr]; rfl)
      | none =>
          obtain ⟨t, ht⟩ := Finset.nonempty_iff_ne_empty.mpr (read_blocked_iff.mp hr).2
          have hw := (hi.writers t).mp ht
          cases t with
          | parent =>
              rw [State.writes, hp] at hw
              cases hw
          | child num =>
              obtain ⟨s', hs'⟩ := child_goes tty hw
              exact ⟨.child num, s', hs'⟩
  | exited status => exact absurd ⟨status, hp⟩ hnot
  | aborted => exact absurd hp hi.alive

/-- Whatever the order in which the processes go on, and whichever children can
be forked, the parent ends, and no child is left behind. -/
theorem countdown_ends (tty : Bool) :
    Inevitable (Exec (next tty)) (fun s => ∃ status, s.parent = .exited status ∧ ∀ num, (s.child num).running = false)
      initial := by
  refine inevitable_of_rank (I := Inv) (fun s => s.parent.left + s.left) (fun s hi hnot => ⟨?_, fun e s' hl => ?_⟩)
    initial_inv
  · apply goes_on tty hi
    rintro ⟨status, hp⟩
    exact hnot ⟨status, hp, hi.ended (by rw [hp]; rfl)⟩
  · refine ⟨next_inv hi hl, ?_⟩
    cases e with
    | parent ok => exact parent_rank hi hl
    | child num => exact child_rank hi hl

end UnixProg.Pipe.Countdown

import UnixProg.Lib.Transition
import Mathlib.Logic.Function.Basic

namespace UnixProg.Signals.PingPong

open Lib Transition

/-- The two processes after the fork. -/
inductive Who
  | parent
  | child
deriving DecidableEq

def Who.other : Who → Who
  | .parent => .child
  | .child => .parent

def pstr : String := "I'm parent, killing child.\n"

def cstr : String := "I'm child, killing parent.\n"

inductive HandlerPc
  | write
  | sleep
  | kill
  | ret
deriving DecidableEq

inductive MainPc
  | sigaction
  | test
  | getppid
  | childMsg
  | parentMsg
  | sleep
  | kill
  | pause
deriving DecidableEq

/-- A process with its signal state. A `pid` that is `none` is 0, which means
the whole process group. SIGTERM is blocked while the handler runs. -/
structure Process where
  alive : Bool
  installed : Bool
  pid : Option Who
  msg : Option String
  pending : Bool
  handler : Option HandlerPc
  main : MainPc
deriving DecidableEq

/-- What the handlers have written is kept in `out`. -/
structure State where
  procs : Who → Process
  out : List String

inductive Event
  | main (w : Who)
  | handler (w : Who)
  | deliver (w : Who)
deriving DecidableEq

def State.set (s : State) (w : Who) (p : Process) : State := { s with procs := Function.update s.procs w p }

/-- A signal that is pending already is not queued once more. -/
def Process.signal (p : Process) : Process := { p with pending := true }

def State.kill (s : State) : Option Who → State
  | some u => s.set u (s.procs u).signal
  | none => { s with procs := fun u => (s.procs u).signal }

/-- The code of both processes after the `fork()`. -/
def mainStep (s : State) (w : Who) : Option State :=
  let p := s.procs w
  match p.main with
  | .sigaction => some (s.set w { p with installed := true, main := .test })
  | .test => some (s.set w { p with main := if p.pid = none then .getppid else .parentMsg })
  | .getppid => some (s.set w { p with pid := some .parent, main := .childMsg })
  | .childMsg => some (s.set w { p with msg := some cstr, main := .pause })
  | .parentMsg => some (s.set w { p with msg := some pstr, main := .sleep })
  | .sleep => some (s.set w { p with main := .kill })
  | .kill => some ((s.kill p.pid).set w { (s.kill p.pid).procs w with main := .pause })
  | .pause => none

/-- Without a message, `strlen()` gets a null pointer and the process crashes. -/
def handlerStep (s : State) (w : Who) : HandlerPc → State
  | .write => match (s.procs w).msg with
    | some m => { s.set w { s.procs w with handler := some .sleep } with out := s.out ++ [m] }
    | none => s.set w { s.procs w with alive := false }
  | .sleep => s.set w { s.procs w with handler := some .kill }
  | .kill =>
      let t := s.kill (s.procs w).pid
      t.set w { t.procs w with handler := some .ret }
  | .ret => s.set w { s.procs w with handler := none }

/-- A signal that comes before the handler is installed terminates the process. -/
def Process.deliver (p : Process) : Process :=
  if p.installed then { p with pending := false, handler := some .write } else { p with pending := false, alive := false }

def next (s : State) : Event → Option State
  | .main w => if (s.procs w).alive = true ∧ (s.procs w).handler = none then mainStep s w else none
  | .handler w => if (s.procs w).alive then (s.procs w).handler.map (handlerStep s w) else none
  | .deliver w =>
      if (s.procs w).alive = true ∧ (s.procs w).handler = none ∧ (s.procs w).pending = true then
        some (s.set w (s.procs w).deliver)
      else none

/-- Both processes go on from the `fork()`, which returned 0 to the child. -/
def initial : State where
  procs := fun w => ⟨true, false, if w = .parent then some .child else none, none, false, none, .sigaction⟩
  out := []

def Who.line : Who → String
  | .parent => pstr
  | .child => cstr

/-- Whose line comes after a number of lines. -/
def turn (n : Nat) : Who := if n % 2 = 0 then .child else .parent

def lines (n : Nat) : List String := (List.range n).map (fun k => (turn k).line)

/-- In the handler, before its `kill()`. -/
def Process.killing (p : Process) : Bool :=
  match p.handler with
  | some .write | some .sleep | some .kill => true
  | some .ret | none => false

def Process.token (p : Process) : Nat := p.pending.toNat + p.killing.toNat

/-- The processes with a pending SIGTERM, and those in the handler before their `kill()`. -/
def State.tokens (s : State) : Nat := (s.procs .parent).token + (s.procs .child).token

def State.started (s : State) : Prop := (s.procs .parent).main = .pause

/-- A process that has done all its set-up. -/
structure SetUp (w : Who) (p : Process) : Prop where
  alive : p.alive = true
  installed : p.installed = true
  pid : p.pid = some w.other
  msg : p.msg = some w.line

/-- Both processes have done their set-up, and the first signal was sent. -/
structure Ready (s : State) : Prop where
  setUp (w) : SetUp w (s.procs w)
  started : s.started

def MainPc.isOf : MainPc → Who → Bool
  | .getppid, w | .childMsg, w => w = .child
  | .parentMsg, w | .sleep, w | .kill, w => w = .parent
  | .sigaction, _ | .test, _ | .pause, _ => true

def MainPc.early : MainPc → Bool
  | .sigaction | .test | .getppid => true
  | _ => false

/-- Past the assignment to `msg`. -/
def MainPc.told : MainPc → Bool
  | .sleep | .kill | .pause => true
  | _ => false

def pidAt : Who → MainPc → Option Who
  | .parent, _ => some .child
  | .child, pc => if pc.early then none else some .parent

/-- What the point in `main()` says of a live process. -/
structure Local (w : Who) (p : Process) : Prop where
  alive : p.alive = true
  main : p.main.isOf w = true
  installed : p.main ≠ .sigaction → p.installed = true
  pid : p.pid = pidAt w p.main
  msg : p.msg = if p.main.told then some w.line else none
  told : p.handler = some .sleep ∨ p.handler = some .kill → p.main.told = true

/-- Where the token is tells whose line is the next one. -/
structure Turn (n : Nat) (w : Who) (p : Process) : Prop where
  next (h : p.pending = true ∨ p.handler = some .write) : turn n = w
  last (h : p.handler = some .sleep ∨ p.handler = some .kill) : turn n = w.other

structure Inv (s : State) : Prop where
  here (w) : Local w (s.procs w)
  idle (h : ¬ s.started) : s.out = [] ∧ ∀ w, (s.procs w).token = 0
  one (h : s.started) : s.tokens = 1
  turns (w) : Turn s.out.length w (s.procs w)
  lines : s.out = lines s.out.length

variable {s s' t : State} {w u : Who} {p : Process}

theorem other_ne (w : Who) : w.other ≠ w := by
  cases w <;> nofun

theorem set_self (s : State) (w : Who) (p : Process) : (s.set w p).procs w = p := Function.update_self ..

theorem set_of_ne (s : State) (p : Process) (h : u ≠ w) : (s.set w p).procs u = s.procs u := Function.update_of_ne h ..

theorem tokens_eq (s : State) (w : Who) : s.tokens = (s.procs w).token + (s.procs w.other).token := by
  cases w with
  | parent => rfl
  | child => exact Nat.add_comm ..

theorem tokens_set (s : State) (w : Who) (p : Process) : (s.set w p).tokens = p.token + (s.procs w.other).token := by
  rw [tokens_eq _ w, set_self, set_of_ne s p (other_ne w)]

theorem started_set (h : w = .parent → (p.main = .pause ↔ (s.procs w).main = .pause)) :
    (s.set w p).started ↔ s.started := by
  cases w with
  | parent => exact h rfl
  | child => exact Iff.rfl

theorem started_send (h : w = .parent → (p.main = .pause ↔ (s.procs w).main = .pause)) :
    ((s.set w.other (s.procs w.other).signal).set w p).started ↔ s.started := by
  cases w with
  | parent => exact h rfl
  | child => exact Iff.rfl

theorem Inv.set (hs : Inv s) (hl : Local w p) (hstart : w = .parent → (p.main = .pause ↔ (s.procs w).main = .pause))
    (htok : p.token = (s.procs w).token) (hturn : Turn s.out.length w p) : Inv (s.set w p) := by
  have hst := started_set hstart
  constructor
  · intro u
    by_cases hu : u = w
    · subst hu
      rw [set_self]
      exact hl
    · rw [set_of_ne s p hu]
      exact hs.here u
  · intro hn
    obtain ⟨hout, hidle⟩ := hs.idle (fun h => hn (hst.mpr h))
    refine ⟨hout, fun u => ?_⟩
    by_cases hu : u = w
    · subst hu
      rw [set_self, htok]
      exact hidle u
    · rw [set_of_ne s p hu]
      exact hidle u
  · intro h
    rw [tokens_set, htok, ← tokens_eq]
    exact hs.one (hst.mp h)
  · intro u
    by_cases hu : u = w
    · subst hu
      rw [set_self]
      exact hturn
    · rw [set_of_ne s p hu]
      exact hs.turns u
  · exact hs.lines

theorem eq_other (h : u ≠ w) : u = w.other := by
  cases u <;> cases w <;> first | rfl | exact absurd rfl h

theorem handler_of_idle (h : p.token = 0) : p.pending = false ∧ p.killing = false := by
  rw [Process.token, Nat.add_eq_zero_iff] at h
  exact ⟨by simpa using h.1, by simpa using h.2⟩

theorem killing_of (h : p.handler = some .write ∨ p.handler = some .sleep ∨ p.handler = some .kill) : p.killing = true := by
  obtain h | h | h := h <;> rw [Process.killing, h]

theorem turn_of_idle (n : Nat) (w : Who) (h : p.token = 0) : Turn n w p := by
  obtain ⟨hpend, hkill⟩ := handler_of_idle h
  constructor
  · rintro (hp | hh)
    · rw [hp] at hpend
      cases hpend
    · rw [killing_of (.inl hh)] at hkill
      cases hkill
  · intro hh
    rw [killing_of (.inr hh)] at hkill
    cases hkill

/-- A `kill()` hands the token over, or puts the first one into the game. -/
theorem Inv.send (hs : Inv s) (hl : Local w p) (hst : ((s.set w.other (s.procs w.other).signal).set w p).started)
    (hp : p.token = 0) (hidle : (s.procs w.other).token = 0) (hturn : PingPong.turn s.out.length = w.other) :
    Inv ((s.set w.other (s.procs w.other).signal).set w p) := by
  have hother : ((s.set w.other (s.procs w.other).signal).set w p).procs w.other = (s.procs w.other).signal := by
    rw [set_of_ne _ p (other_ne w), set_self]
  have hself := set_self (s.set w.other (s.procs w.other).signal) w p
  obtain ⟨hpend, hkill⟩ := handler_of_idle hidle
  constructor
  · intro u
    by_cases hu : u = w
    · subst hu
      rw [hself]
      exact hl
    · have ho := hs.here w.other
      rw [eq_other hu, hother]
      exact ⟨ho.alive, ho.main, ho.installed, ho.pid, ho.msg, ho.told⟩
  · exact fun hn => absurd hst hn
  · intro _
    rw [tokens_eq _ w, hself, hother, hp]
    simp only [Process.token, Process.signal]
    change 0 + (1 + ((s.procs w.other).killing).toNat) = 1
    rw [hkill]
    rfl
  · intro u
    by_cases hu : u = w
    · subst hu
      rw [hself]
      exact turn_of_idle _ u hp
    · rw [eq_other hu, hother]
      exact ⟨fun _ => hturn, (turn_of_idle _ _ hidle).last⟩
  · exact hs.lines

theorem token_of_handler (hs : Inv s) (h : (s.procs w).killing = true) :
    s.started ∧ (s.procs w).pending = false ∧ (s.procs w.other).token = 0 := by
  have hpos : 0 < (s.procs w).token := by
    rw [Process.token, h]
    exact Nat.succ_pos _
  have hst : s.started := by
    by_contra hn
    have := (hs.idle hn).2 w
    omega
  have hone := hs.one hst
  rw [tokens_eq s w, Process.token, h] at hone
  refine ⟨hst, ?_, by simp at hone; omega⟩
  cases hp : (s.procs w).pending with
  | false => rfl
  | true =>
      rw [hp] at hone
      simp at hone
      omega

theorem deliver_inv (hs : Inv s) (hpend : (s.procs w).pending = true) (hh : (s.procs w).handler = none)
    (hl : (s.procs w).deliver.alive = true) : Inv (s.set w (s.procs w).deliver) := by
  have here := hs.here w
  by_cases hi : (s.procs w).installed = true
  · have hd : (s.procs w).deliver = { s.procs w with pending := false, handler := some .write } := if_pos hi
    rw [hd]
    apply hs.set
    · exact ⟨here.alive, here.main, here.installed, here.pid, here.msg, nofun⟩
    · exact fun _ => Iff.rfl
    · simp [Process.token, Process.killing, hpend, hh]
    · exact ⟨fun _ => (hs.turns w).next (.inl hpend), nofun⟩
  · rw [Process.deliver, if_neg hi] at hl
    cases hl

theorem turn_succ (n : Nat) : turn (n + 1) = (turn n).other := by
  simp only [turn]
  rcases Nat.mod_two_eq_zero_or_one n with h | h
  · have hsucc : (n + 1) % 2 ≠ 0 := by omega
    rw [if_neg hsucc, if_pos h]
    rfl
  · have hsucc : (n + 1) % 2 = 0 := by omega
    have hn : n % 2 ≠ 0 := by omega
    rw [if_pos hsucc, if_neg hn]
    rfl

theorem lines_succ (n : Nat) : lines (n + 1) = lines n ++ [(turn n).line] := by
  simp [lines, List.range_succ]

theorem write_inv (hs : Inv s) (hh : (s.procs w).handler = some .write) (hm : (s.procs w).msg ≠ none) :
    Inv (handlerStep s w .write) := by
  have here := hs.here w
  have htold : (s.procs w).main.told = true := by
    by_contra hn
    exact hm (here.msg.trans (if_neg hn))
  have hmsg : (s.procs w).msg = some w.line := here.msg.trans (if_pos htold)
  obtain ⟨hst, hpend, hidle⟩ := token_of_handler hs (killing_of (.inl hh))
  have hturn : turn s.out.length = w := (hs.turns w).next (.inr hh)
  have heq : handlerStep s w .write =
      { s.set w { s.procs w with handler := some .sleep } with out := s.out ++ [w.line] } := by
    simp only [handlerStep, hmsg]
  have hst' : (s.set w { s.procs w with handler := some .sleep }).started := by
    apply (started_set _).mpr hst
    exact fun _ => Iff.rfl
  rw [heq]
  constructor
  · intro u
    by_cases hu : u = w
    · subst hu
      change Local u ((s.set u _).procs u)
      rw [set_self]
      exact ⟨here.alive, here.main, here.installed, here.pid, here.msg, fun _ => htold⟩
    · change Local u ((s.set w _).procs u)
      rw [set_of_ne s _ hu]
      exact hs.here u
  · exact fun hn => absurd hst' hn
  · intro _
    change (s.set w _).tokens = 1
    rw [tokens_set, hidle, Process.token]
    simp [hpend, Process.killing]
  · intro u
    rw [List.length_append, List.length_singleton]
    by_cases hu : u = w
    · subst hu
      change Turn _ u ((s.set u _).procs u)
      rw [set_self]
      refine ⟨fun h => ?_, fun _ => by rw [turn_succ, hturn]⟩
      obtain h | h := h
      · rw [hpend] at h
        cases h
      · cases h
    · change Turn _ u ((s.set w _).procs u)
      rw [set_of_ne s _ hu, eq_other hu]
      exact turn_of_idle _ _ hidle
  · rw [List.length_append, List.length_singleton, lines_succ, hturn, ← hs.lines]

theorem handler_kill_inv (hs : Inv s) (hh : (s.procs w).handler = some .kill) : Inv (handlerStep s w .kill) := by
  have here := hs.here w
  obtain ⟨hst, hpend, hidle⟩ := token_of_handler hs (killing_of (.inr (.inr hh)))
  have hpid : (s.procs w).pid = some w.other := by
    have htold := here.told (.inr hh)
    rw [here.pid]
    cases w with
    | parent => rfl
    | child => cases hm : (s.procs .child).main <;> simp [hm, MainPc.told] at htold <;> rfl
  have heq : handlerStep s w .kill =
      (s.set w.other (s.procs w.other).signal).set w { s.procs w with handler := some .ret } := by
    have hkill : s.kill (s.procs w).pid = s.set w.other (s.procs w.other).signal := by rw [hpid, State.kill]
    change (s.kill (s.procs w).pid).set w { (s.kill (s.procs w).pid).procs w with handler := some .ret } = _
    rw [hkill, set_of_ne s _ (other_ne w).symm]
  rw [heq]
  apply hs.send
  · exact ⟨here.alive, here.main, here.installed, here.pid, here.msg, nofun⟩
  · apply (started_send _).mpr hst
    exact fun _ => Iff.rfl
  · simp [Process.token, hpend, Process.killing]
  · exact hidle
  · exact (hs.turns w).last (.inr hh)

theorem handler_inv {pc : HandlerPc} (hs : Inv s) (hh : (s.procs w).handler = some pc)
    (halive : ((handlerStep s w pc).procs w).alive = true) : Inv (handlerStep s w pc) := by
  have here := hs.here w
  have hturns := hs.turns w
  cases pc with
  | write =>
      apply write_inv hs hh
      intro hm
      simp only [handlerStep, hm, set_self] at halive
      cases halive
  | kill => exact handler_kill_inv hs hh
  | sleep =>
      apply hs.set
      · exact ⟨here.alive, here.main, here.installed, here.pid, here.msg, fun _ => here.told (.inl hh)⟩
      · exact fun _ => Iff.rfl
      · simp [Process.token, Process.killing, hh]
      · refine ⟨fun h => hturns.next (.inl ?_), fun _ => hturns.last (.inl hh)⟩
        obtain h | h := h
        · exact h
        · cases h
  | ret =>
      apply hs.set
      · exact ⟨here.alive, here.main, here.installed, here.pid, here.msg, nofun⟩
      · exact fun _ => Iff.rfl
      · simp [Process.token, Process.killing, hh]
      · refine ⟨fun h => hturns.next (.inl ?_), nofun⟩
        obtain h | h := h
        · exact h
        · cases h

theorem main_kill_inv (hs : Inv s) (hm : (s.procs w).main = .kill) (hh : (s.procs w).handler = none) :
    Inv ((s.kill (s.procs w).pid).set w { (s.kill (s.procs w).pid).procs w with main := .pause }) := by
  have here := hs.here w
  have hw : w = .parent := by
    have hof := here.main
    rw [hm] at hof
    exact of_decide_eq_true hof
  subst hw
  have hn : ¬ s.started := by
    rw [State.started, hm]
    nofun
  obtain ⟨hout, hidle⟩ := hs.idle hn
  have hkill : s.kill (s.procs .parent).pid = s.set .child (s.procs .child).signal := by
    rw [here.pid, hm]
    rfl
  have hne : Who.parent ≠ .child := nofun
  have hpid : (s.procs .parent).pid = some .child := by rw [here.pid]; rfl
  rw [hkill, set_of_ne s _ hne]
  apply hs.send (w := .parent)
  · exact ⟨here.alive, rfl, fun _ => here.installed (by rw [hm]; nofun), hpid, by rw [here.msg, hm]; rfl,
      fun _ => rfl⟩
  · rfl
  · exact hidle .parent
  · exact hidle .child
  · rw [hout]
    rfl

/-- A statement of `main()` that does not signal leaves the token alone. -/
theorem quiet_inv (hs : Inv s) (hh : (s.procs w).handler = none) (hpend : p.pending = (s.procs w).pending)
    (hhand : p.handler = (s.procs w).handler) (halive : p.alive = (s.procs w).alive) (hm : p.main.isOf w = true)
    (hinst : p.installed = true) (hpid : p.pid = pidAt w p.main)
    (hmsg : p.msg = if p.main.told then some w.line else none)
    (hpause : w = .parent → (p.main = .pause ↔ (s.procs w).main = .pause)) : Inv (s.set w p) := by
  apply hs.set
  · refine ⟨halive.trans (hs.here w).alive, hm, fun _ => hinst, hpid, hmsg, fun h => ?_⟩
    rw [hhand, hh] at h
    simp at h
  · exact hpause
  · rw [Process.token, Process.token, Process.killing, Process.killing, hpend, hhand]
  · constructor
    · rw [hpend, hhand]
      exact (hs.turns w).next
    · rw [hhand]
      exact (hs.turns w).last

theorem main_inv (hs : Inv s) (hh : (s.procs w).handler = none) (h : mainStep s w = some s') : Inv s' := by
  have here := hs.here w
  have hof := here.main
  have hpid := here.pid
  have hmsg := here.msg
  have hinst := here.installed
  simp only [mainStep] at h
  split at h <;> rename_i hm <;> rw [hm] at hof hpid hmsg hinst
  · cases h
    exact quiet_inv hs hh rfl rfl rfl rfl rfl (by cases w <;> exact hpid) hmsg (fun _ => by rw [hm]; simp)
  · cases h
    cases w with
    | parent =>
        have hne : (s.procs .parent).pid ≠ none := by rw [hpid]; nofun
        rw [if_neg hne]
        exact quiet_inv hs hh rfl rfl rfl rfl (hinst nofun) hpid hmsg (fun _ => by rw [hm]; simp)
    | child =>
        have hnone : (s.procs .child).pid = none := hpid
        rw [if_pos hnone]
        exact quiet_inv hs hh rfl rfl rfl rfl (hinst nofun) hpid hmsg nofun
  · cases h
    obtain rfl : w = .child := of_decide_eq_true hof
    exact quiet_inv hs hh rfl rfl rfl rfl (hinst nofun) rfl hmsg nofun
  · cases h
    obtain rfl : w = .child := of_decide_eq_true hof
    exact quiet_inv hs hh rfl rfl rfl rfl (hinst nofun) hpid rfl nofun
  · cases h
    obtain rfl : w = .parent := of_decide_eq_true hof
    exact quiet_inv hs hh rfl rfl rfl rfl (hinst nofun) hpid rfl (fun _ => by rw [hm]; simp)
  · cases h
    obtain rfl : w = .parent := of_decide_eq_true hof
    exact quiet_inv hs hh rfl rfl rfl rfl (hinst nofun) hpid hmsg (fun _ => by rw [hm]; simp)
  · cases h
    exact main_kill_inv hs hm hh
  · cases h

theorem kill_procs (s : State) (pid : Option Who) (u : Who) :
    ∃ b, (s.kill pid).procs u = { s.procs u with pending := b } := by
  cases pid with
  | none => exact ⟨true, rfl⟩
  | some v =>
      by_cases hu : u = v
      · subst hu
        exact ⟨true, set_self ..⟩
      · exact ⟨(s.procs u).pending, set_of_ne s _ hu⟩

/-- What a step of one process leaves of the other one: a signal may become pending. -/
def Spares (w : Who) (s s' : State) : Prop := ∀ u, u ≠ w → ∃ b, s'.procs u = { s.procs u with pending := b }

theorem spares_set (s : State) (w : Who) (p : Process) : Spares w s (s.set w p) :=
  fun u hu => ⟨(s.procs u).pending, set_of_ne s p hu⟩

theorem spares_kill (s : State) (w : Who) (pid : Option Who) (p : Process) : Spares w s ((s.kill pid).set w p) := by
  intro u hu
  rw [set_of_ne _ p hu]
  exact kill_procs s pid u

theorem mainStep_spares (h : mainStep s w = some s') : Spares w s s' := by
  simp only [mainStep] at h
  split at h <;> cases h
  case h_7 => exact spares_kill _ _ _ _
  all_goals exact spares_set _ _ _

theorem handlerStep_spares (s : State) (w : Who) (pc : HandlerPc) : Spares w s (handlerStep s w pc) := by
  cases pc with
  | write =>
      cases hm : (s.procs w).msg with
      | none =>
          simp only [handlerStep, hm]
          exact spares_set _ _ _
      | some m =>
          simp only [handlerStep, hm]
          exact spares_set _ _ _
  | kill => exact spares_kill _ _ _ _
  | sleep | ret => exact spares_set _ _ _

theorem next_spares {e : Event} (h : next s e = some s') : ∃ w, (s.procs w).alive = true ∧ Spares w s s' := by
  cases e with
  | main w =>
      obtain ⟨⟨halive, _⟩, h⟩ := Option.ite_none_right_eq_some.mp h
      exact ⟨w, halive, mainStep_spares h⟩
  | handler w =>
      obtain ⟨halive, h⟩ := Option.ite_none_right_eq_some.mp h
      obtain ⟨pc, _, rfl⟩ := Option.map_eq_some_iff.mp h
      exact ⟨w, halive, handlerStep_spares s w pc⟩
  | deliver w =>
      obtain ⟨⟨halive, _⟩, h⟩ := Option.ite_none_right_eq_some.mp h
      cases h
      exact ⟨w, halive, spares_set _ _ _⟩

theorem alive_of_next {e : Event} (h : next s e = some s') (ha : ∀ u, (s'.procs u).alive = true) (u : Who) :
    (s.procs u).alive = true := by
  obtain ⟨w, halive, hsp⟩ := next_spares h
  by_cases hu : u = w
  · subst hu
    exact halive
  · obtain ⟨b, hb⟩ := hsp u hu
    have := ha u
    rw [hb] at this
    exact this

theorem next_inv {e : Event} (hs : Inv s) (h : next s e = some s') (ha : ∀ u, (s'.procs u).alive = true) : Inv s' := by
  cases e with
  | main w =>
      obtain ⟨⟨_, hh⟩, h⟩ := Option.ite_none_right_eq_some.mp h
      exact main_inv hs hh h
  | handler w =>
      obtain ⟨_, h⟩ := Option.ite_none_right_eq_some.mp h
      obtain ⟨pc, hh, rfl⟩ := Option.map_eq_some_iff.mp h
      exact handler_inv hs hh (ha w)
  | deliver w =>
      obtain ⟨⟨_, hh, hpend⟩, h⟩ := Option.ite_none_right_eq_some.mp h
      cases h
      have hl := ha w
      rw [set_self] at hl
      exact deliver_inv hs hpend hh hl

theorem initial_inv : Inv initial where
  here w := by
    refine ⟨rfl, ?_, fun h => absurd rfl h, ?_, rfl, nofun⟩
    · cases w <;> rfl
    · cases w <;> rfl
  idle _ := ⟨rfl, fun _ => rfl⟩
  one h := nomatch h
  turns _ := turn_of_idle _ _ rfl
  lines := rfl

theorem run_inv (h : Reachable (Exec next) initial s) (ha : ∀ u, (s.procs u).alive = true) : Inv s := by
  suffices hi : (∀ u, (s.procs u).alive = true) → Inv s from hi ha
  apply h.invariant (I := fun s => (∀ u, (s.procs u).alive = true) → Inv s)
  · exact fun _ => initial_inv
  · exact fun _ _ _ hi hl ha => next_inv (hi (alive_of_next hl ha)) hl ha

theorem SetUp.congr {q : Process} (h : SetUp w p) (halive : q.alive = p.alive) (hinst : q.installed = p.installed)
    (hpid : q.pid = p.pid) (hmsg : q.msg = p.msg) : SetUp w q :=
  ⟨halive.trans h.alive, hinst.trans h.installed, hpid.trans h.pid, hmsg.trans h.msg⟩

/-- The set-up is over when there is a message. -/
theorem Ready.pause (hr : Ready s) (hs : Inv s) (w : Who) : (s.procs w).main = .pause := by
  cases w with
  | parent => exact hr.started
  | child =>
      have here := hs.here .child
      have hmsg := (hr.setUp .child).msg
      rw [here.msg] at hmsg
      have hof := here.main
      cases hm : (s.procs .child).main <;> simp_all [MainPc.told, MainPc.isOf]

theorem handlerStep_self (hr : SetUp w (s.procs w)) (pc : HandlerPc) :
    SetUp w ((handlerStep s w pc).procs w) ∧ ((handlerStep s w pc).procs w).main = (s.procs w).main := by
  cases pc with
  | write =>
      simp only [handlerStep, hr.msg]
      rw [set_self]
      exact ⟨⟨hr.alive, hr.installed, hr.pid, rfl⟩, rfl⟩
  | kill =>
      obtain ⟨b, hb⟩ := kill_procs s (s.procs w).pid w
      simp only [handlerStep]
      rw [set_self, hb]
      exact ⟨hr.congr rfl rfl rfl rfl, rfl⟩
  | sleep | ret =>
      simp only [handlerStep]
      rw [set_self]
      exact ⟨hr.congr rfl rfl rfl rfl, rfl⟩

theorem next_ready {e : Event} (hs : Inv s) (hr : Ready s) (h : next s e = some s') : Ready s' := by
  have hpause := hr.pause hs
  suffices hw : ∃ w, Spares w s s' ∧ SetUp w (s'.procs w) ∧ (s'.procs w).main = .pause by
    obtain ⟨w, hsp, hw, hm⟩ := hw
    have hall (u : Who) : SetUp u (s'.procs u) ∧ (s'.procs u).main = .pause := by
      by_cases hu : u = w
      · subst hu
        exact ⟨hw, hm⟩
      · obtain ⟨b, hb⟩ := hsp u hu
        rw [hb]
        exact ⟨(hr.setUp u).congr rfl rfl rfl rfl, hpause u⟩
    exact ⟨fun u => (hall u).1, (hall .parent).2⟩
  cases e with
  | main w =>
      obtain ⟨_, h⟩ := Option.ite_none_right_eq_some.mp h
      rw [mainStep, hpause w] at h
      cases h
  | handler w =>
      obtain ⟨_, h⟩ := Option.ite_none_right_eq_some.mp h
      obtain ⟨pc, hh, rfl⟩ := Option.map_eq_some_iff.mp h
      obtain ⟨hset, hm⟩ := handlerStep_self (hr.setUp w) pc
      exact ⟨w, handlerStep_spares s w pc, hset, hm.trans (hpause w)⟩
  | deliver w =>
      obtain ⟨_, h⟩ := Option.ite_none_right_eq_some.mp h
      cases h
      refine ⟨w, spares_set _ _ _, ?_⟩
      rw [set_self, Process.deliver, if_pos (hr.setUp w).installed]
      exact ⟨(hr.setUp w).congr rfl rfl rfl rfl, hpause w⟩

/-- One token from the first signal on, and one line after the other. -/
theorem one_token_in_turns (h : Reachable (Exec next) initial s) (hr : Ready s) (h' : Reachable (Exec next) s t) :
    t.tokens = 1 ∧
    (∀ w u, (t.procs w).handler = some .kill → (t.procs u).pending = false) ∧
    t.out = lines t.out.length := by
  obtain ⟨hs, hrt⟩ : Inv t ∧ Ready t := by
    apply h'.invariant (I := fun t => Inv t ∧ Ready t)
    · exact ⟨run_inv h (fun u => (hr.setUp u).alive), hr⟩
    · rintro u e v ⟨hu, hru⟩ hl
      have hrv := next_ready hu hru hl
      exact ⟨next_inv hu hl (fun w => (hrv.setUp w).alive), hrv⟩
  refine ⟨hs.one hrt.started, fun w u hk => ?_, hs.lines⟩
  obtain ⟨_, hpend, hidle⟩ := token_of_handler hs (killing_of (.inr (.inr hk)))
  by_cases hu : u = w
  · rw [hu]
    exact hpend
  · rw [eq_other hu]
    exact (handler_of_idle hidle).1

def startUp : List Event :=
  [.main .child, .main .child, .main .child, .main .child,
    .main .parent, .main .parent, .main .parent, .main .parent, .main .parent]

/-- The signal is on its way back while the child is still in its handler. -/
def round : List Event :=
  [.deliver .child, .handler .child, .handler .child, .handler .child, .deliver .parent, .handler .parent]

theorem one_token_in_turns_round : ∃ s t, Reachable (Exec next) initial s ∧ Reachable (Exec next) s t ∧
    t.out = [cstr, pstr] ∧ t.tokens = 1 := by
  obtain ⟨s, t, hs, ht, hr, hout⟩ : ∃ s t, replay next initial startUp = some s ∧ replay next s round = some t ∧
      Ready s ∧ t.out = [cstr, pstr] := by
    refine ⟨_, _, rfl, rfl, ⟨fun w => ?_, rfl⟩, rfl⟩
    cases w <;> exact ⟨rfl, rfl, rfl, rfl⟩
  have h := (replay_run hs).reachable
  have h' := (replay_run ht).reachable
  exact ⟨s, t, h, h', hout, (one_token_in_turns h hr h').1⟩

end UnixProg.Signals.PingPong

import UnixProg.Lib.Signal
import UnixProg.Lib.Transition

namespace UnixProg.Signals.EventLoop

open Lib Transition Signal

inductive Pc
  | greet
  | sigaction
  | announce
  | poll
  | polling
  | warn
  | test
  | print
  | reset
  | gone
deriving DecidableEq

/-- The lines of the standard output, and the warning. -/
inductive Line
  | pid
  | sleeping
  | warning
  | delivered
deriving DecidableEq

structure State where
  pc : Pc
  sigint : Sig Unit
  delivered : Nat
  lines : List Line
deriving DecidableEq

/-- A statement of main, a SIGINT that is sent to the process, and its delivery. -/
inductive Event
  | exec (p : Pc)
  | send
  | deliver (act : Action Unit)
deriving DecidableEq

def State.say (s : State) (line : Line) (p : Pc) : State := { s with lines := s.lines ++ [line], pc := p }

def main (s : State) : Option State :=
  match s.pc with
  | .greet => some (s.say .pid .sigaction)
  | .sigaction => some { s with sigint := s.sigint.catch, pc := .announce }
  | .announce => some (s.say .sleeping .poll)
  | .poll => some { s with pc := .polling }
  | .polling => some { s with pc := .test }
  | .warn => some (s.say .warning .test)
  | .test => some { s with pc := if s.delivered = 1 then .print else .announce }
  | .print => some (s.say .delivered .reset)
  | .reset => some { s with delivered := 0, pc := .announce }
  | .gone => none

/-- What a delivery does to the process. The handler ends a `poll()` that is
under way. -/
def State.act (s : State) : Action Unit → State
  | .handle () => { s with delivered := 1, pc := if s.pc = .polling then .warn else s.pc }
  | .terminate => { s with pc := .gone }

def next (s : State) : Event → Option State
  | .exec p => if s.pc = p then main s else none
  | .send => some { s with sigint := s.sigint.post () }
  | .deliver act => do
      let (act', g) ← s.sigint.deliver
      if s.pc ≠ .gone ∧ act' = act then some ({ s with sigint := g }.act act) else none

def initial : State := ⟨.greet, .plain, 0, []⟩

/-- The handler has run since the last line that reports a signal. -/
def handledSince (es : List Event) : Bool :=
  es.foldl (fun b e => match e with
    | .deliver (.handle ()) => true
    | .exec .print => false
    | _ => b) false

/-- No delivery is lost: it is reported later or still recorded. -/
def Kept (es : List Event) (s : State) : Prop := handledSince es = true → s.delivered = 1

/-- The variable is not cleared behind the back of a handler that has run after the report. -/
def Timely (es : List Event) (e : Event) : Prop := e = .exec .reset → handledSince es = false

variable {s s' : State} {e : Event} {es : List Event}

theorem handledSince_snoc (es : List Event) (e : Event) : handledSince (es ++ [e]) =
    match e with
    | .deliver (.handle ()) => true
    | .exec .print => false
    | _ => handledSince es := by
  rw [handledSince, List.foldl_append]
  rfl

theorem main_delivered (hp : s.pc ≠ .reset) (h : main s = some s') : s'.delivered = s.delivered := by
  cases hpc : s.pc with
  | reset => exact absurd hpc hp
  | gone => simp [main, hpc] at h
  | greet | sigaction | announce | poll | polling | warn | test | print =>
      simp only [main, hpc, Option.some.injEq] at h
      subst h
      rfl

theorem main_reset (hp : s.pc = .reset) (h : main s = some s') : s'.delivered = 0 := by
  simp only [main, hp, Option.some.injEq] at h
  subst h
  rfl

theorem exec_eq {p : Pc} (h : next s (.exec p) = some s') : s.pc = p ∧ main s = some s' :=
  Option.ite_none_right_eq_some.mp h

theorem deliver_eq {act : Action Unit} (h : next s (.deliver act) = some s') :
    ∃ g, s' = { s with sigint := g }.act act := by
  obtain ⟨⟨act', g⟩, _, h⟩ := Option.bind_eq_some_iff.mp h
  exact ⟨g, (Option.some.inj (Option.ite_none_right_eq_some.mp h).2).symm⟩

theorem Kept.next (hs : Kept es s) (hok : Timely es e) (h : next s e = some s') : Kept (es ++ [e]) s' := by
  intro hsince
  rw [handledSince_snoc] at hsince
  cases e with
  | send =>
      cases h
      exact hs hsince
  | deliver act =>
      obtain ⟨g, rfl⟩ := deliver_eq h
      cases act with
      | handle => rfl
      | terminate => exact hs hsince
  | exec p =>
      obtain ⟨hp, hmain⟩ := exec_eq h
      cases p with
      | print => cases hsince
      | reset => rw [hok rfl] at hsince; cases hsince
      | greet | sigaction | announce | poll | polling | warn | test | gone =>
          rw [main_delivered (by rw [hp]; decide) hmain]
          exact hs hsince

theorem untimely_lost (hnot : ¬ Timely es e) (h : next s e = some s') : ¬ Kept (es ++ [e]) s' := by
  obtain ⟨rfl, hsince⟩ := Classical.not_imp.mp hnot
  obtain ⟨hp, hmain⟩ := exec_eq h
  intro hkept
  have hone : s'.delivered = 1 := hkept (by rw [handledSince_snoc]; simpa using hsince)
  rw [main_reset hp hmain] at hone
  cases hone

/-- Deliveries between the report and the reset of the variable are lost, and no others. -/
theorem kept_iff_timely (es : List Event) (s : State) (h : Run (Exec next) initial es s) :
    (∀ before after t, es = before ++ after → Run (Exec next) initial before t → Kept before t) ↔
      ∀ before after, es = before ++ .exec .reset :: after → handledSince before = false := by
  have hstart : Kept [] initial := fun h => by cases h
  rw [history_iff hstart (fun _ _ _ _ hs (hok : Timely _ _) hn => hs.next hok hn)
    (fun _ _ _ _ hnot hn => untimely_lost hnot hn) h]
  constructor
  · exact fun hok before after hes => hok before _ after hes rfl
  · rintro hok before e after hes rfl
    exact hok before after hes

/-- A signal is sent while main waits and is reported. -/
def reported : List Event :=
  [.exec .greet, .exec .sigaction, .exec .announce, .exec .poll, .exec .polling, .send, .deliver (.handle ()), .exec .test,
    .exec .print]

/-- A second signal is sent when main has gone back to wait. -/
def twice : List Event := reported ++ [.exec .reset, .exec .announce, .exec .poll, .send, .deliver (.handle ())]

theorem kept_iff_timely_twice : ∃ s, Run (Exec next) initial twice s ∧ handledSince twice = true ∧ s.delivered = 1 := by
  obtain ⟨s, hs⟩ : ∃ s, replay next initial twice = some s := ⟨_, rfl⟩
  have htimely : ∀ k < twice.length, twice[k]? = some (.exec .reset) → handledSince (twice.take k) = false := by decide
  have hkept : Kept twice s := by
    refine (kept_iff_timely twice s (replay_run hs)).mpr (fun before after hes => ?_) twice [] s (by simp) (replay_run hs)
    have hreset : twice[before.length]? = some (.exec .reset) := by simp [hes]
    have hbefore : twice.take before.length = before := by simp [hes]
    exact hbefore ▸ htimely before.length (List.getElem?_eq_some_iff.mp hreset).1 hreset
  have hsince : handledSince twice = true := by decide
  exact ⟨s, replay_run hs, hsince, hkept hsince⟩

/-- A second signal comes after the report of the first one. -/
theorem second_signal_lost : ∃ s,
    Run (Exec next) initial (reported ++ [.send, .deliver (.handle ()), .exec .reset]) s ∧
    handledSince (reported ++ [.send, .deliver (.handle ()), .exec .reset]) = true ∧ s.delivered = 0 :=
  ⟨_, replay_run rfl, by decide, rfl⟩

end UnixProg.Signals.EventLoop

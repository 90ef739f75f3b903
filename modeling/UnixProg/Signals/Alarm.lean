import UnixProg.Lib.Signal
import UnixProg.Lib.Transition

namespace UnixProg.Signals.Alarm

open Lib Transition Signal

def BUFSIZE : Nat := 4096

inductive Pc
  | sigaction
  | printf
  | alarm
  | read
  | reading
  | warn
  | disarm
  | test
  | write
  | exited (status : Nat)
  | killed
deriving DecidableEq

inductive Line
  | prompt
  | message
  | warning
  | readBytes (size : Int)
  | bytes (bs : List UInt8)
deriving DecidableEq

/-- `alrm` is the SIGALRM of the process, and the `timer` is set or not. -/
structure State where
  pc : Pc
  alrm : Sig Unit
  timer : Bool
  size : Int
  buf : List UInt8
  lines : List Line
deriving DecidableEq

/-- A statement of main, the end of the time, the delivery of its signal, and
what a `read()` that is under way can return: input, its end as an empty one, and an error. -/
inductive Event
  | exec (p : Pc)
  | expire
  | deliver
  | input (bs : List UInt8)
  | error
deriving DecidableEq

def main (s : State) : Option State :=
  match s.pc with
  | .sigaction => some { s with alrm := s.alrm.catch, pc := .printf }
  | .printf => some { s with lines := s.lines ++ [.prompt], pc := .alarm }
  | .alarm => some { s with timer := true, pc := .read }
  | .read => some { s with pc := .reading }
  | .warn => some { s with lines := s.lines ++ [.warning], pc := .disarm }
  | .disarm => some { s with timer := false, pc := .test }
  | .test =>
      if 0 < s.size then some { s with lines := s.lines ++ [.readBytes s.size], pc := .write }
      else some { s with pc := .exited 0 }
  | .write => some { s with lines := s.lines ++ [.bytes s.buf], pc := .exited 0 }
  | .reading | .exited _ | .killed => none

/-- The handler ends a `read()` that is under way. -/
def State.act (s : State) : Action Unit → State
  | .handle () =>
      if s.pc = .reading then { s with lines := s.lines ++ [.message], size := -1, pc := .warn }
      else { s with lines := s.lines ++ [.message] }
  | .terminate => { s with pc := .killed }

def Pc.ended : Pc → Bool
  | .exited _ | .killed => true
  | .sigaction | .printf | .alarm | .read | .reading | .warn | .disarm | .test | .write => false

def next (s : State) : Event → Option State
  | .exec p => if s.pc = p then main s else none
  | .expire => if s.timer then some { s with timer := false, alrm := s.alrm.post () } else none
  | .deliver => if s.pc.ended then none else s.alrm.deliver.map (fun r => { s with alrm := r.2 }.act r.1)
  | .input bs =>
      if s.pc = .reading ∧ bs.length ≤ BUFSIZE then some { s with size := bs.length, buf := bs, pc := .disarm } else none
  | .error => if s.pc = .reading then some { s with size := -1, pc := .exited 1 } else none

def initial : State := ⟨.sigaction, .plain, false, 0, [], []⟩

/-- The user enters nothing. -/
def NoInput (_ : State) (e : Event) : Prop :=
  match e with
  | .exec _ | .expire | .deliver => True
  | .input _ | .error => False

instance (s : State) (e : Event) : Decidable (NoInput s e) :=
  match e with
  | .exec _ | .expire | .deliver => .isTrue trivial
  | .input _ | .error => .isFalse id

/-- The time is over before the `read()` has begun. -/
def Early (es : List Event) : Prop := Precedes .deliver (.exec .read) es

variable {s s' : State} {e : Event} {es : List Event}

/-- The signal is still to come. -/
def Waiting (s : State) : Prop := s.timer = true ∧ s.alrm.pending = none ∨ s.timer = false ∧ s.alrm.pending = some ()

/-- Neither the timer nor a signal is left to end the `read()`. -/
def Idle (s : State) : Prop := s.timer = false ∧ s.alrm.pending = none

/-- Where the program is when nothing is entered. -/
structure Inv (es : List Event) (s : State) : Prop where
  unblocked : s.alrm.blocked = false
  caught (h : s.pc ≠ .sigaction) : s.alrm.caught = true
  stage : match s.pc with
    | .sigaction | .printf | .alarm => Idle s ∧ ¬ Early es ∧ .exec .read ∉ es
    | .read => .exec .read ∉ es ∧ (Waiting s ∧ ¬ Early es ∨ Idle s ∧ Early es)
    | .reading => .exec .read ∈ es ∧ (Waiting s ∧ ¬ Early es ∨ Idle s ∧ Early es)
    | .warn | .disarm | .test => .exec .read ∈ es ∧ Idle s ∧ ¬ Early es ∧ s.size = -1
    | .exited status => status = 0 ∧ .exec .read ∈ es ∧ ¬ Early es ∧ Idle s
    | .write | .killed => False

theorem initial_inv : Inv [] initial where
  unblocked := rfl
  caught h := absurd rfl h
  stage := ⟨⟨rfl, rfl⟩, not_precedes_nil _ _, List.not_mem_nil⟩

theorem not_early_exec {p : Pc} (hnot : ¬ Early es) : ¬ Early (es ++ [.exec p]) := by
  rw [Early, precedes_snoc_iff hnot]
  rintro ⟨h, _⟩
  cases h

theorem main_inv {p : Pc} (hs : Inv es s) (hp : s.pc = p) (h : main s = some s') : Inv (es ++ [.exec p]) s' := by
  obtain ⟨hblocked, hcaught, hst⟩ := hs
  have hread (hne : p ≠ .read) (hnot : Event.exec .read ∉ es) : Event.exec .read ∉ es ++ [.exec p] := by
    simpa [hnot] using hne.symm
  have hmem (hin : Event.exec .read ∈ es) : Event.exec .read ∈ es ++ [.exec p] := List.mem_append_left _ hin
  rw [main, hp] at h
  rw [hp] at hst
  cases p with
  | sigaction =>
      cases h
      exact ⟨hblocked, fun _ => rfl, hst.1, not_early_exec hst.2.1, hread (by simp) hst.2.2⟩
  | printf =>
      cases h
      have hc := hcaught (by rw [hp]; simp)
      exact ⟨hblocked, fun _ => hc, hst.1, not_early_exec hst.2.1, hread (by simp) hst.2.2⟩
  | alarm =>
      cases h
      have hc := hcaught (by rw [hp]; simp)
      obtain ⟨⟨_, hpending⟩, hnot, hr⟩ := hst
      exact ⟨hblocked, fun _ => hc, hread (by simp) hr, .inl ⟨.inl ⟨rfl, hpending⟩, not_early_exec hnot⟩⟩
  | read =>
      cases h
      have hc := hcaught (by rw [hp]; simp)
      refine ⟨hblocked, fun _ => hc, List.mem_append_right _ (List.mem_singleton_self _), ?_⟩
      exact hst.2.imp (fun h => ⟨h.1, not_early_exec h.2⟩) (fun h => ⟨h.1, h.2.append [_]⟩)
  | warn =>
      cases h
      have hc := hcaught (by rw [hp]; simp)
      obtain ⟨hin, hidle, hnot, hsize⟩ := hst
      exact ⟨hblocked, fun _ => hc, hmem hin, hidle, not_early_exec hnot, hsize⟩
  | disarm =>
      cases h
      have hc := hcaught (by rw [hp]; simp)
      obtain ⟨hin, hidle, hnot, hsize⟩ := hst
      exact ⟨hblocked, fun _ => hc, hmem hin, ⟨rfl, hidle.2⟩, not_early_exec hnot, hsize⟩
  | test =>
      obtain ⟨hin, hidle, hnot, hsize⟩ := hst
      have hc := hcaught (by rw [hp]; simp)
      simp only [hsize, Int.reduceNeg, Int.not_lt.mpr (by decide : (-1 : Int) ≤ 0), if_false] at h
      cases h
      exact ⟨hblocked, fun _ => hc, rfl, hmem hin, not_early_exec hnot, hidle⟩
  | write => exact hst.elim
  | reading | exited | killed => cases h

theorem Idle.no_signal (h : Idle s) : s.alrm.deliver = none := deliver_nothing h.2

theorem deliver_inv (hs : Inv es s) (h : next s .deliver = some s') : Inv (es ++ [.deliver]) s' := by
  obtain ⟨hblocked, hcaught, hst⟩ := hs
  obtain ⟨_, h⟩ := Option.ite_none_left_eq_some.mp h
  obtain ⟨⟨act, g⟩, hd, rfl⟩ := Option.map_eq_some_iff.mp h
  have hbusy (hidle : Idle s) : False := by
    rw [hidle.no_signal] at hd
    cases hd
  obtain ⟨rfl, ⟨⟩, hv, hact⟩ := deliver_cases hd
  have htimer (hw : Waiting s) : s.timer = false := by
    rcases hw with ⟨_, hnone⟩ | ⟨ht, _⟩
    · rw [hnone] at hv
      cases hv
    · exact ht
  cases hp : s.pc with
  | read =>
      rw [hp] at hst
      obtain ⟨hr, ⟨hw, hnot⟩ | ⟨hidle, _⟩⟩ := hst
      · have hc := hcaught (by rw [hp]; simp)
        obtain ⟨_, rfl⟩ | ⟨hf, _⟩ := hact
        · rw [State.act, if_neg (by simp)]
          refine ⟨hblocked, fun _ => hc, ?_⟩
          simp only
          exact ⟨by simpa using hr, .inr ⟨⟨htimer hw, rfl⟩, (precedes_snoc_iff hnot).mpr ⟨rfl, hr⟩⟩⟩
        · rw [hc] at hf
          cases hf
      · exact absurd (hbusy hidle) id
  | reading =>
      rw [hp] at hst
      obtain ⟨hin, ⟨hw, hnot⟩ | ⟨hidle, _⟩⟩ := hst
      · have hc := hcaught (by rw [hp]; simp)
        obtain ⟨_, rfl⟩ | ⟨hf, _⟩ := hact
        · rw [State.act, if_pos rfl]
          refine ⟨hblocked, fun _ => hc, List.mem_append_left _ hin, ⟨htimer hw, rfl⟩, ?_, rfl⟩
          rw [Early, precedes_snoc_iff hnot]
          exact fun h => h.2 hin
        · rw [hc] at hf
          cases hf
      · exact absurd (hbusy hidle) id
  | sigaction | printf | alarm =>
      rw [hp] at hst
      exact absurd (hbusy hst.1) id
  | warn | disarm | test =>
      rw [hp] at hst
      exact absurd (hbusy hst.2.1) id
  | exited =>
      rw [hp] at hst
      exact absurd (hbusy hst.2.2.2) id
  | write | killed =>
      rw [hp] at hst
      exact hst.elim

theorem expire_inv (hs : Inv es s) (h : next s .expire = some s') : Inv (es ++ [.expire]) s' := by
  obtain ⟨hblocked, hcaught, hst⟩ := hs
  obtain ⟨ht, h⟩ := Option.ite_none_right_eq_some.mp h
  cases h
  have hbusy (hidle : Idle s) : False := by
    rw [hidle.1] at ht
    cases ht
  have hnot (hn : ¬ Early es) : ¬ Early (es ++ [.expire]) := by
    rw [Early, precedes_snoc_iff hn]
    rintro ⟨h, _⟩
    cases h
  have hsent (hw : Waiting s) : Waiting { s with timer := false, alrm := s.alrm.post () } := by
    rcases hw with ⟨_, hnone⟩ | ⟨hf, _⟩
    · exact .inr ⟨rfl, post_pending hnone⟩
    · rw [ht] at hf
      cases hf
  refine ⟨hblocked, hcaught, ?_⟩
  cases hp : s.pc with
  | read =>
      rw [hp] at hst
      obtain ⟨hr, ⟨hw, hn⟩ | ⟨hidle, _⟩⟩ := hst
      · exact ⟨by simpa using hr, .inl ⟨hsent hw, hnot hn⟩⟩
      · exact absurd (hbusy hidle) id
  | reading =>
      rw [hp] at hst
      obtain ⟨hin, ⟨hw, hn⟩ | ⟨hidle, _⟩⟩ := hst
      · exact ⟨List.mem_append_left _ hin, .inl ⟨hsent hw, hnot hn⟩⟩
      · exact absurd (hbusy hidle) id
  | sigaction | printf | alarm =>
      rw [hp] at hst
      exact absurd (hbusy hst.1) id
  | warn | disarm | test =>
      rw [hp] at hst
      exact absurd (hbusy hst.2.1) id
  | exited =>
      rw [hp] at hst
      exact absurd (hbusy hst.2.2.2) id
  | write | killed =>
      rw [hp] at hst
      exact hst.elim

theorem next_inv (hs : Inv es s) (h : Guarded (Exec next) NoInput s e s') : Inv (es ++ [e]) s' := by
  obtain ⟨hinput, h⟩ := h
  cases e with
  | exec p =>
      obtain ⟨hp, h⟩ := Option.ite_none_right_eq_some.mp h
      exact main_inv hs hp h
  | expire => exact expire_inv hs h
  | deliver => exact deliver_inv hs h
  | input | error => exact hinput.elim

theorem run_inv (h : Run (Guarded (Exec next) NoInput) initial es s) : Inv es s :=
  h.invariant (I := Inv) initial_inv (fun _ _ _ _ _ hs hl => next_inv hs hl)

def Pc.left : Pc → Nat
  | .sigaction => 10
  | .printf => 9
  | .alarm => 8
  | .read => 5
  | .reading => 4
  | .warn => 3
  | .disarm => 2
  | .test | .write => 1
  | .exited _ | .killed => 0

/-- The end of the time and the delivery of the signal, as far as they are still to come. -/
def State.due (s : State) : Nat := (if s.timer then 2 else 0) + if s.alrm.pending = none then 0 else 1

theorem main_left {p : Pc} (hs : Inv es s) (hp : s.pc = p) (h : main s = some s') :
    s'.pc.left + s'.due < s.pc.left + s.due := by
  have hst := hs.stage
  rw [main, hp] at h
  rw [hp] at hst ⊢
  cases p with
  | sigaction | printf | read | warn =>
      cases h
      exact Nat.add_lt_add_right (by simp [Pc.left]) _
  | alarm =>
      cases h
      simp [State.due, Pc.left, hst.1.1, hst.1.2]
  | disarm =>
      cases h
      simp [State.due, Pc.left, hst.2.1.1]
  | test =>
      simp only [hst.2.2.2] at h
      cases h
      exact Nat.add_lt_add_right (by simp [Pc.left]) _
  | write => exact hst.elim
  | reading | exited | killed => cases h

theorem act_left (s : State) (act : Action Unit) : (s.act act).pc.left ≤ s.pc.left ∧ (s.act act).due = s.due := by
  cases act with
  | handle =>
      rw [State.act]
      split
      · rename_i hp
        rw [hp]
        exact ⟨by simp [Pc.left], rfl⟩
      · exact ⟨Nat.le_refl _, rfl⟩
  | terminate => exact ⟨Nat.zero_le _, rfl⟩

theorem next_left (hs : Inv es s) (h : Guarded (Exec next) NoInput s e s') :
    s'.pc.left + s'.due < s.pc.left + s.due := by
  obtain ⟨hinput, h⟩ := h
  cases e with
  | exec p =>
      obtain ⟨hp, h⟩ := Option.ite_none_right_eq_some.mp h
      exact main_left hs hp h
  | expire =>
      obtain ⟨ht, h⟩ := Option.ite_none_right_eq_some.mp h
      cases h
      apply Nat.add_lt_add_left
      simp only [State.due, ht, post_ne_none, Bool.false_eq_true, if_true, if_false]
      omega
  | deliver =>
      obtain ⟨_, h⟩ := Option.ite_none_left_eq_some.mp h
      obtain ⟨⟨act, g⟩, hd, rfl⟩ := Option.map_eq_some_iff.mp h
      obtain ⟨rfl, ⟨⟩, hv, _⟩ := deliver_cases hd
      obtain ⟨hle, hdue⟩ := act_left { s with alrm := { s.alrm with pending := none } } act
      rw [hdue]
      apply Nat.add_lt_add_of_le_of_lt hle
      simp [State.due, hv]
  | input | error => exact hinput.elim

theorem waiting_goes (hs : Inv es s) (hw : Waiting s) (hp : s.pc = .read ∨ s.pc = .reading) :
    ∃ e s', Guarded (Exec next) NoInput s e s' ∧ (e = .expire ∨ e = .deliver) := by
  rcases hw with ⟨ht, _⟩ | ⟨_, hv⟩
  · exact ⟨.expire, _, ⟨trivial, if_pos ht⟩, .inl rfl⟩
  · have hc := hs.caught (by rcases hp with hp | hp <;> simp [hp])
    have hd := deliver_handle hs.unblocked hc hv
    have hlive : s.pc.ended = false := by rcases hp with hp | hp <;> rw [hp] <;> rfl
    refine ⟨.deliver, { s with alrm := { s.alrm with pending := none } }.act (.handle ()), ⟨trivial, ?_⟩, .inr rfl⟩
    simp [Exec, next, hlive, hd]

/-- The program has begun its `read()` in time. -/
def Timely (es : List Event) : Prop := .exec .read ∈ es ∧ ¬ Early es

theorem Timely.next (h : Timely es) (e : Event) : Timely (es ++ [e]) := by
  refine ⟨List.mem_append_left _ h.1, ?_⟩
  rw [Early, precedes_snoc_iff h.2]
  exact fun he => he.2 h.1

theorem exec_goes (h : main s = some s') : Guarded (Exec next) NoInput s (.exec s.pc) s' :=
  ⟨trivial, (if_pos rfl).trans h⟩

theorem goes_on (hs : Inv es s) (ht : Timely es) (hnot : s.pc ≠ .exited 0) :
    ∃ e s', Guarded (Exec next) NoInput s e s' := by
  have hst := hs.stage
  cases hp : s.pc with
  | sigaction | printf | alarm =>
      rw [hp] at hst
      exact absurd ht.1 hst.2.2
  | read =>
      rw [hp] at hst
      exact absurd ht.1 hst.1
  | reading =>
      rw [hp] at hst
      obtain ⟨hw, _⟩ | ⟨_, hearly⟩ := hst.2
      · obtain ⟨e, s', h, _⟩ := waiting_goes hs hw (.inr hp)
        exact ⟨e, s', h⟩
      · exact absurd hearly ht.2
  | warn | disarm => exact ⟨_, _, exec_goes (by rw [main, hp])⟩
  | test =>
      rw [hp] at hst
      exact ⟨_, { s with pc := .exited 0 }, exec_goes (by simp [main, hp, hst.2.2.2])⟩
  | exited status =>
      rw [hp] at hst
      exact absurd (by rw [hp, hst.1]) hnot
  | write | killed =>
      rw [hp] at hst
      exact hst.elim

theorem early_stuck (h : Run (Guarded (Exec next) NoInput) initial es s) (he : Early es) :
    ¬ Inevitable (Guarded (Exec next) NoInput) (fun t => t.pc = .exited 0) s := by
  intro hin
  obtain ⟨t, ⟨es', hr⟩, hp⟩ := hin.reachable
  have hst := (run_inv (h.append hr)).stage
  rw [hp] at hst
  exact hst.2.2.1 (he.append es')

/-- Before the `read()`, the time may be over too early. -/
theorem before_read (h : Run (Guarded (Exec next) NoInput) initial es s) (hr : .exec .read ∉ es) :
    ¬ Inevitable (Guarded (Exec next) NoInput) (fun t => t.pc = .exited 0) s := by
  induction hn : s.pc.left + s.due using Nat.strongRecOn generalizing es s with
  | _ n ih =>
      have hs := run_inv h
      have hst := hs.stage
      have hnext {e : Event} {t : State} (hl : Guarded (Exec next) NoInput s e t) (he : e ≠ .exec .read)
          (hp : s.pc ≠ .exited 0) : ¬ Inevitable (Guarded (Exec next) NoInput) (fun t => t.pc = .exited 0) s := by
        intro hin
        have hr' : .exec .read ∉ es ++ [e] := by simpa [hr] using he.symm
        exact ih _ (hn ▸ next_left hs hl) (h.snoc hl) hr' rfl (hin.next hp hl)
      cases hp : s.pc with
      | sigaction | printf | alarm => exact hnext (exec_goes (by rw [main, hp])) (by simp [hp]) (by simp [hp])
      | read =>
          rw [hp] at hst
          obtain ⟨hw, _⟩ | ⟨_, hearly⟩ := hst.2
          · obtain ⟨e, t, hl, he⟩ := waiting_goes hs hw (.inl hp)
            exact hnext hl (by rcases he with rfl | rfl <;> simp) (by simp [hp])
          · exact early_stuck h hearly
      | reading | warn | disarm | test =>
          rw [hp] at hst
          exact absurd hst.1 hr
      | exited =>
          rw [hp] at hst
          exact absurd hst.2.1 hr
      | write | killed =>
          rw [hp] at hst
          exact hst.elim

/-- When the user enters nothing, the program can be relied on to end just
when the `read()` has begun before the signal was delivered. -/
theorem ends_iff_timely (es : List Event) (s : State) (h : Run (Guarded (Exec next) NoInput) initial es s) :
    Inevitable (Guarded (Exec next) NoInput) (fun t => t.pc = .exited 0) s ↔ Timely es := by
  constructor
  · intro hin
    refine ⟨?_, fun he => early_stuck h he hin⟩
    by_contra hr
    exact before_read h hr hin
  · intro ht
    refine inevitable_of_rank (I := fun s => ∃ es, Inv es s ∧ Timely es) (fun s => s.pc.left + s.due) ?_
      ⟨es, run_inv h, ht⟩
    rintro s ⟨es, hs, ht⟩ hnot
    exact ⟨goes_on hs ht hnot, fun e s' hl => ⟨⟨es ++ [e], next_inv hs hl, ht.next e⟩, next_left hs hl⟩⟩

/-- The signal is delivered between `alarm()` and `read()`. -/
def lateRead : List Event := [.exec .sigaction, .exec .printf, .exec .alarm, .expire, .deliver, .exec .read]

theorem ends_iff_timely_lateRead : ∃ s, Run (Guarded (Exec next) NoInput) initial lateRead s ∧
    ¬ Inevitable (Guarded (Exec next) NoInput) (fun t => t.pc = .exited 0) s := by
  obtain ⟨s, hs⟩ : ∃ s, replay (guardedNext NoInput next) initial lateRead = some s := ⟨_, rfl⟩
  refine ⟨s, replay_guarded hs, fun hin => ?_⟩
  refine ((ends_iff_timely lateRead s (replay_guarded hs)).mp hin).2 ?_
  exact ⟨[.exec .sigaction, .exec .printf, .exec .alarm, .expire], [.exec .read], rfl, by decide⟩

end UnixProg.Signals.Alarm

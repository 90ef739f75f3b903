import UnixProg.Lib.Signal
import UnixProg.Lib.Transition

namespace UnixProg.Signals.Sigpending

open Lib Transition Signal

inductive Pc
  | sigprocmask
  | sigaction
  | printMe
  | read
  | reading
  | sigpending
  | assert (member : Bool)
  | printYes
  | printUnblocking
  | unblock
  | printSend
  | pause
  | pausing
  | exited
  | failed
  | aborted
  | killed
deriving DecidableEq

inductive Line
  | me
  | yes
  | unblocking
  | send
  | message
deriving DecidableEq

structure State where
  pc : Pc
  term : Sig Unit
  lines : List Line
deriving DecidableEq

/-- A statement of main, what ends its `read()`, a SIGTERM that is sent to the
process, and its delivery. -/
inductive Event
  | exec (p : Pc)
  | input
  | error
  | send
  | deliver
deriving DecidableEq

def State.say (s : State) (line : Line) (p : Pc) : State := { s with lines := s.lines ++ [line], pc := p }

/-- A signal that is pending when it is unblocked is delivered before the call returns. -/
def State.unblock (s : State) : State :=
  if s.term.pending = none then { s with term := { s.term with blocked := false }, pc := .printSend }
  else { s with term := { s.term with blocked := false, pending := none }, lines := s.lines ++ [.message], pc := .printSend }

def main (s : State) : Option State :=
  match s.pc with
  | .sigprocmask => some { s with term := s.term.block, pc := .sigaction }
  | .sigaction => some { s with term := s.term.catch, pc := .printMe }
  | .printMe => some (s.say .me .read)
  | .read => some { s with pc := .reading }
  | .sigpending => some { s with pc := .assert (s.term.pending ≠ none) }
  | .assert member => some { s with pc := if member then .printYes else .aborted }
  | .printYes => some (s.say .yes .printUnblocking)
  | .printUnblocking => some (s.say .unblocking .unblock)
  | .unblock => some s.unblock
  | .printSend => some (s.say .send .pause)
  | .pause => some { s with pc := .pausing }
  | .reading | .pausing | .exited | .failed | .aborted | .killed => none

/-- The handler writes its message and ends a `pause()`. -/
def State.act (s : State) : Action Unit → State
  | .handle () => s.say .message (if s.pc = .pausing then .exited else s.pc)
  | .terminate => { s with pc := .killed }

def Pc.ended : Pc → Bool
  | .exited | .failed | .aborted | .killed => true
  | .sigprocmask | .sigaction | .printMe | .read | .reading | .sigpending | .assert _ | .printYes | .printUnblocking
  | .unblock | .printSend | .pause | .pausing => false

def next (s : State) : Event → Option State
  | .exec p => if s.pc = p then main s else none
  | .input => if s.pc = .reading then some { s with pc := .sigpending } else none
  | .error => if s.pc = .reading then some { s with pc := .failed } else none
  | .send => if s.pc.ended then none else some { s with term := s.term.post () }
  | .deliver => if s.pc.ended then none else s.term.deliver.map (fun r => { s with term := r.2 }.act r.1)

def initial : State := ⟨.sigprocmask, .plain, []⟩

/-- How far the program has come. -/
def Pc.stage : Pc → Nat
  | .sigprocmask | .failed | .aborted | .killed => 0
  | .sigaction => 1
  | .printMe => 2
  | .read => 3
  | .reading => 4
  | .sigpending => 5
  | .assert _ => 6
  | .printYes => 7
  | .printUnblocking => 8
  | .unblock => 9
  | .printSend => 10
  | .pause => 11
  | .pausing => 12
  | .exited => 13

/-- The process gets the signal before it has blocked it. -/
def Early (es : List Event) : Prop := Precedes .deliver (.exec .sigprocmask) es

/-- The signal has been sent when the program asks for it. -/
def Sent (es : List Event) : Prop := Precedes .send (.exec .sigpending) es

structure Live (es : List Event) (s : State) : Prop where
  blocked : s.term.blocked = decide (1 ≤ s.pc.stage ∧ s.pc.stage ≤ 9)
  caught : s.term.caught = decide (2 ≤ s.pc.stage)
  early : ¬ Early es
  began : 1 ≤ s.pc.stage ↔ .exec .sigprocmask ∈ es
  quiet (h : s.pc.stage ≤ 9) : es.count .deliver = 0 ∧ s.lines.count .message = 0 ∧
    (s.term.pending ≠ none ↔ .send ∈ es)
  asked : 6 ≤ s.pc.stage ↔ .exec .sigpending ∈ es
  answer (member) (h : s.pc = .assert member) : member = true ↔ Sent es
  sent (h : 7 ≤ s.pc.stage) : Sent es
  told (h : 10 ≤ s.pc.stage) : s.lines.count .message = 1 + es.count .deliver ∧
    1 + es.count .deliver + (if s.term.pending = none then 0 else 1) ≤ es.count .send
  done (h : s.pc = .exited) : .deliver ∈ es

def Inv (es : List Event) (s : State) : Prop :=
  match s.pc with
  | .killed => Early es
  | .aborted => ¬ Early es ∧ ¬ Sent es
  | .failed => ¬ Early es
  | _ => Live es s

variable {s s' : State} {e : Event} {es : List Event}

theorem initial_live : Live [] initial where
  blocked := rfl
  caught := rfl
  early := not_precedes_nil _ _
  began := by simp [initial, Pc.stage]
  quiet _ := by simp [initial, Sig.plain]
  asked := by simp [initial, Pc.stage]
  answer _ h := by cases h
  sent h := by simp [initial, Pc.stage] at h
  told h := by simp [initial, Pc.stage] at h
  done h := by cases h

theorem early_exec {p : Pc} (h : ¬ Early es) : ¬ Early (es ++ [.exec p]) := by
  rw [Early, precedes_snoc_iff h]
  rintro ⟨he, _⟩
  cases he

/-- The statements of main that change neither the signal nor what is known of it. -/
theorem Live.advance (hs : Live es s) (hterm : s'.term = s.term)
    (hlines : s'.lines.count .message = s.lines.count .message) (hstage : s'.pc.stage = s.pc.stage + 1)
    (hk : 2 ≤ s.pc.stage ∧ s.pc.stage ≠ 5 ∧ s.pc.stage ≠ 6 ∧ s.pc.stage ≠ 9 ∧ s.pc.stage ≠ 12)
    (he : ∀ e' ∈ [Event.deliver, .send, .exec .sigprocmask, .exec .sigpending], e ≠ e') : Live (es ++ [e]) s' := by
  have hd : [e].count .deliver = 0 := List.count_eq_zero.mpr (by simpa using (he .deliver (by simp)).symm)
  have hsend : [e].count .send = 0 := List.count_eq_zero.mpr (by simpa using (he .send (by simp)).symm)
  have hmem {e' : Event} (h : e' ∈ [Event.deliver, .send, .exec .sigprocmask, .exec .sigpending]) :
      e' ∈ es ++ [e] ↔ e' ∈ es := by simp [(he e' h).symm]
  constructor
  case blocked =>
    rw [hterm, hs.blocked, hstage, decide_eq_decide]
    omega
  case caught =>
    rw [hterm, hs.caught, hstage, decide_eq_decide]
    omega
  case early =>
    rw [Early, precedes_snoc_iff hs.early]
    exact fun h => he .deliver (by simp) h.1
  case began =>
    rw [hmem (by simp), ← hs.began, hstage]
    omega
  case quiet =>
    intro h
    obtain ⟨h1, h2, h3⟩ := hs.quiet (by omega)
    rw [List.count_append, hd, hlines, hterm, hmem (by simp)]
    exact ⟨h1, h2, h3⟩
  case asked =>
    rw [hmem (by simp), ← hs.asked, hstage]
    omega
  case answer =>
    intro member h
    have : s'.pc.stage = 6 := by rw [h]; rfl
    omega
  case sent => exact fun h => (hs.sent (by omega)).append [e]
  case told =>
    intro h
    obtain ⟨h1, h2⟩ := hs.told (by omega)
    rw [hlines, List.count_append, List.count_append, hd, hsend, hterm]
    exact ⟨h1, h2⟩
  case done =>
    intro h
    have : s'.pc.stage = 13 := by rw [h]; rfl
    omega

theorem inv_of_live (h : Live es s) (hp : s.pc.ended = false ∨ s.pc = .exited) : Inv es s := by
  rw [Inv]
  rcases hp with hp | hp
  · split
    · rename_i h'; rw [h'] at hp; cases hp
    · rename_i h'; rw [h'] at hp; cases hp
    · rename_i h'; rw [h'] at hp; cases hp
    · exact h
  · rw [hp]
    exact h

theorem main_inv {p : Pc} (hs : Live es s) (hp : s.pc = p) (h : main s = some s') : Inv (es ++ [.exec p]) s' := by
  have hstage : s.pc.stage = p.stage := by rw [hp]
  have hcaught := hs.caught
  have hbegan := hs.began
  have hasked := hs.asked
  have hquiet := hs.quiet
  have hblocked := hs.blocked
  rw [hstage] at hcaught hbegan hasked hquiet hblocked
  rw [main, hp] at h
  cases p with
  | printMe | read | printYes | printUnblocking | printSend | pause =>
      cases h
      refine inv_of_live (hs.advance rfl ?_ (by rw [hp]; rfl) (by rw [hp]; decide) (by simp)) (.inl rfl)
      simp [State.say]
  | sigprocmask =>
      cases h
      obtain ⟨hd, hl, hsend⟩ := hquiet (by decide)
      refine inv_of_live ⟨rfl, hcaught, early_exec hs.early, by simp [Pc.stage],
        fun _ => ⟨by simp [hd], hl, by simpa [Sig.block] using hsend⟩, by simpa [Pc.stage] using hasked,
        fun _ h => (by cases h), fun h => (by simp [Pc.stage] at h), fun h => (by simp [Pc.stage] at h),
        fun h => (by cases h)⟩ (.inl rfl)
  | sigaction =>
      cases h
      obtain ⟨hd, hl, hsend⟩ := hquiet (by decide)
      refine inv_of_live ⟨hblocked, rfl, early_exec hs.early, by simpa [Pc.stage] using hbegan,
        fun _ => ⟨by simp [hd], hl, by simpa [Sig.catch] using hsend⟩, by simpa [Pc.stage] using hasked,
        fun _ h => (by cases h), fun h => (by simp [Pc.stage] at h), fun h => (by simp [Pc.stage] at h),
        fun h => (by cases h)⟩ (.inl rfl)
  | sigpending =>
      cases h
      obtain ⟨hd, hl, hsend⟩ := hquiet (by decide)
      have hnot : Event.exec .sigpending ∉ es := by simpa [Pc.stage] using hasked
      refine inv_of_live ⟨hblocked, hcaught, early_exec hs.early, by simpa [Pc.stage] using hbegan,
        fun _ => ⟨by simp [hd], hl, by simpa using hsend⟩, by simp [Pc.stage], fun member h => ?_,
        fun h => (by simp [Pc.stage] at h), fun h => (by simp [Pc.stage] at h), fun h => (by cases h)⟩ (.inl rfl)
      have hmember : member = decide (s.term.pending ≠ none) := (Pc.assert.inj h).symm
      rw [hmember, decide_eq_true_eq, hsend]
      rw [Sent, precedes_snoc]
      constructor
      · exact fun hin => .inl (precedes_of_mem hin hnot)
      · rintro (hsent | ⟨h, _⟩)
        · exact hsent.mem
        · cases h
  | assert member =>
      cases h
      obtain ⟨hd, hl, hsend⟩ := hquiet (by simp [Pc.stage])
      have hanswer := hs.answer member hp
      cases member with
      | true =>
          refine inv_of_live ⟨hblocked, hcaught, early_exec hs.early, by simpa [Pc.stage] using hbegan,
            fun _ => ⟨by simp [hd], hl, by simpa using hsend⟩, by simpa [Pc.stage] using hasked, fun _ h => (by cases h),
            fun _ => (hanswer.mp rfl).append _, fun h => (by simp [Pc.stage] at h), fun h => (by cases h)⟩ (.inl rfl)
      | false =>
          refine ⟨early_exec hs.early, ?_⟩
          rw [Sent, precedes_snoc]
          rintro (hsent | ⟨h, _⟩)
          · cases hanswer.mpr hsent
          · cases h
  | unblock =>
      cases h
      obtain ⟨hd, hl, hsend⟩ := hquiet (by decide)
      have hsent := hs.sent (by rw [hstage]; decide)
      have hpending : s.term.pending ≠ none := hsend.mpr hsent.mem
      have hcount : 1 ≤ es.count .send := List.count_pos_iff.mpr hsent.mem
      rw [State.unblock, if_neg hpending]
      exact inv_of_live ⟨rfl, hcaught, early_exec hs.early, by simpa [Pc.stage] using hbegan,
        fun h => (by simp [Pc.stage] at h), by simpa [Pc.stage] using hasked, fun _ h => (by cases h),
        fun _ => hsent.append _, fun _ => ⟨by simp [hl, hd], by simpa [hd] using hcount⟩, fun h => (by cases h)⟩ (.inl rfl)
  | reading | pausing | exited | failed | aborted | killed => cases h

theorem send_live (hs : Live es s) : Live (es ++ [.send]) { s with term := s.term.post () } := by
  have hpost := post_ne_none s.term ()
  constructor
  case blocked => exact hs.blocked
  case caught => exact hs.caught
  case early =>
    rw [Early, precedes_snoc_iff hs.early]
    rintro ⟨h, _⟩
    cases h
  case began => simpa using hs.began
  case quiet =>
    intro h
    obtain ⟨hd, hl, _⟩ := hs.quiet h
    exact ⟨by simp [hd], hl, by simp [hpost]⟩
  case asked => simpa using hs.asked
  case answer =>
    intro member h
    have hin : Event.exec .sigpending ∈ es := hs.asked.mp (by rw [show s.pc = .assert member from h]; exact Nat.le_refl 6)
    rw [hs.answer member h, Sent, Sent, precedes_snoc, or_iff_left (fun h => h.2 hin)]
  case sent => exact fun h => (hs.sent h).append _
  case told =>
    intro h
    obtain ⟨hl, hle⟩ := hs.told h
    refine ⟨by simpa using hl, ?_⟩
    simp only [hpost, if_false, List.count_append, List.count_singleton_self]
    have hd : [Event.send].count .deliver = 0 := rfl
    split at hle <;> omega
  case done => exact fun h => List.mem_append_left _ (hs.done h)

/-- The handler runs after the signal has been unblocked. -/
theorem handle_live (hs : Live es s) (hstage : 10 ≤ s.pc.stage) (hpending : s.term.pending ≠ none)
    (hterm : s'.term.pending = none) (hblocked : s'.term.blocked = s.term.blocked) (hcaught : s'.term.caught = s.term.caught)
    (hlines : s'.lines = s.lines ++ [.message]) (hpc : 10 ≤ s'.pc.stage) : Live (es ++ [.deliver]) s' := by
  obtain ⟨hl, hle⟩ := hs.told hstage
  rw [if_neg hpending] at hle
  constructor
  case blocked =>
    rw [hblocked, hs.blocked, decide_eq_decide]
    omega
  case caught =>
    rw [hcaught, hs.caught, decide_eq_decide]
    omega
  case early =>
    rw [Early, precedes_snoc_iff hs.early]
    exact fun h => h.2 (hs.began.mp (by omega))
  case began =>
    have hin : Event.exec .sigprocmask ∈ es := hs.began.mp (by omega)
    exact ⟨fun _ => List.mem_append_left _ hin, fun _ => by omega⟩
  case quiet => exact fun h => absurd hpc (by omega)
  case asked =>
    have hin : Event.exec .sigpending ∈ es := hs.asked.mp (by omega)
    exact ⟨fun _ => List.mem_append_left _ hin, fun _ => by omega⟩
  case answer =>
    intro member h
    rw [h] at hpc
    exact absurd hpc (by simp [Pc.stage])
  case sent => exact fun _ => (hs.sent (by omega)).append _
  case told =>
    intro _
    have hsend : [Event.deliver].count .send = 0 := rfl
    simp only [hlines, hterm, List.count_append, List.count_singleton_self, if_true, hl, hsend]
    omega
  case done => exact fun _ => List.mem_append_right _ (List.mem_singleton_self _)

theorem deliver_inv (hs : Live es s) (h : next s .deliver = some s') : Inv (es ++ [.deliver]) s' := by
  obtain ⟨hlive, h⟩ := Option.ite_none_left_eq_some.mp h
  obtain ⟨⟨act, g⟩, hd, rfl⟩ := Option.map_eq_some_iff.mp h
  have hblocked : s.term.blocked = false := by
    by_contra hb
    rw [deliver_blocked (by simpa using hb)] at hd
    cases hd
  rw [hs.blocked, decide_eq_false_iff_not] at hblocked
  obtain ⟨rfl, ⟨⟩, hpending, ⟨hc, rfl⟩ | ⟨hc, rfl⟩⟩ := deliver_cases hd <;> rw [hs.caught] at hc
  · have hstage : 10 ≤ s.pc.stage := by
      have := of_decide_eq_true hc
      omega
    rw [State.act, State.say]
    simp only
    split
    · exact inv_of_live (handle_live hs hstage (by simp [hpending]) rfl rfl rfl rfl (by simp [Pc.stage])) (.inr rfl)
    · exact inv_of_live (handle_live hs hstage (by simp [hpending]) rfl rfl rfl rfl hstage) (.inl (by simpa using hlive))
  · have hstage : s.pc.stage = 0 := by
      have := of_decide_eq_false hc
      omega
    have hnot : Event.exec .sigprocmask ∉ es := by
      rw [← hs.began, hstage]
      decide
    exact (precedes_snoc_iff hs.early).mpr ⟨rfl, hnot⟩

theorem inv_cases (hs : Inv es s) :
    s.pc = .killed ∧ Early es ∨ s.pc = .aborted ∧ ¬ Early es ∧ ¬ Sent es ∨ s.pc = .failed ∧ ¬ Early es ∨
    s.pc ≠ .killed ∧ s.pc ≠ .aborted ∧ Live es s := by
  rw [Inv] at hs
  split at hs
  · exact .inl ⟨‹_›, hs⟩
  · exact .inr (.inl ⟨‹_›, hs⟩)
  · exact .inr (.inr (.inl ⟨‹_›, hs⟩))
  · exact .inr (.inr (.inr ⟨‹_›, ‹_›, hs⟩))

/-- Nothing happens any more in a process that has ended. -/
theorem live_of_step (hs : Inv es s) (h : next s e = some s') : Live es s := by
  have hnot {p : Pc} (hp : s.pc = p) (hended : p.ended = true) (hmain : main s = none) : False := by
    cases e with
    | exec q => cases hmain.symm.trans (Option.ite_none_right_eq_some.mp h).2
    | input | error =>
        have hreading := (Option.ite_none_right_eq_some.mp h).1
        rw [← hp, hreading] at hended
        cases hended
    | send | deliver => exact (Option.ite_none_left_eq_some.mp h).1 (hp ▸ hended)
  obtain ⟨hp, _⟩ | ⟨hp, _⟩ | ⟨hp, _⟩ | ⟨_, _, hl⟩ := inv_cases hs
  · exact absurd (hnot hp rfl (by rw [main, hp])) id
  · exact absurd (hnot hp rfl (by rw [main, hp])) id
  · exact absurd (hnot hp rfl (by rw [main, hp])) id
  · exact hl

theorem next_inv (hs : Inv es s) (h : next s e = some s') : Inv (es ++ [e]) s' := by
  have hlive := live_of_step hs h
  cases e with
  | exec p =>
      obtain ⟨hp, h⟩ := Option.ite_none_right_eq_some.mp h
      exact main_inv hlive hp h
  | input =>
      obtain ⟨hp, h⟩ := Option.ite_none_right_eq_some.mp h
      cases h
      exact inv_of_live (hlive.advance rfl rfl (by rw [hp]; rfl) (by rw [hp]; decide) (by simp)) (.inl rfl)
  | error =>
      obtain ⟨hp, h⟩ := Option.ite_none_right_eq_some.mp h
      cases h
      show ¬ Early _
      rw [Early, precedes_snoc_iff hlive.early]
      rintro ⟨h, _⟩
      cases h
  | send =>
      obtain ⟨hended, h⟩ := Option.ite_none_left_eq_some.mp h
      cases h
      exact inv_of_live (send_live hlive) (.inl (by simpa using hended))
  | deliver => exact deliver_inv hlive h

theorem run_inv (h : Run (Exec next) initial es s) : Inv es s :=
  h.invariant (I := Inv) (show Inv [] initial from initial_live) (fun _ _ _ _ _ hs hl => next_inv hs hl)

/-- The assertion has held. -/
def Pc.asserted (p : Pc) : Prop := 7 ≤ p.stage

/-- The signal is not blocked any more. -/
def Pc.unblocked (p : Pc) : Prop := 10 ≤ p.stage

/-- The SIGTERMs that come while the signal is blocked make one message, and
the assertion holds just when there was one of them before the call. -/
theorem blocked_signals_merge (es : List Event) (s : State) (h : Run (Exec next) initial es s) :
    (s.pc = .killed ↔ Precedes .deliver (.exec .sigprocmask) es) ∧
    (s.pc = .aborted → ¬ Precedes .send (.exec .sigpending) es) ∧
    (s.pc.asserted → Precedes .send (.exec .sigpending) es) ∧
    (s.pc.unblocked → s.lines.count .message = 1 + es.count .deliver ∧ s.lines.count .message ≤ es.count .send) ∧
    (s.pc = .exited → 2 ≤ s.lines.count .message) := by
  obtain ⟨hp, he⟩ | ⟨hp, he, hsent⟩ | ⟨hp, he⟩ | ⟨hkilled, haborted, hl⟩ := inv_cases (run_inv h)
  · refine ⟨⟨fun _ => he, fun _ => hp⟩, ?_⟩
    simp [hp, Pc.asserted, Pc.unblocked, Pc.stage]
  · refine ⟨⟨fun h => ?_, fun h => absurd h he⟩, fun _ => hsent, ?_⟩
    · rw [hp] at h
      cases h
    · simp [hp, Pc.asserted, Pc.unblocked, Pc.stage]
  · refine ⟨⟨fun h => ?_, fun h => absurd h he⟩, ?_⟩
    · rw [hp] at h
      cases h
    · simp [hp, Pc.asserted, Pc.unblocked, Pc.stage]
  · refine ⟨⟨fun h => absurd h hkilled, fun h => absurd h hl.early⟩, fun h => absurd h haborted, hl.sent, fun h => ?_,
      fun h => ?_⟩
    · obtain ⟨htold, hle⟩ := hl.told h
      exact ⟨htold, htold ▸ Nat.le_of_add_right_le hle⟩
    · have hd := List.count_pos_iff.mpr (hl.done h)
      rw [(hl.told (by rw [h]; decide)).1]
      omega

/-- Two SIGTERMs come before the character is typed, and one later. -/
def threeSignals : List Event :=
  [.exec .sigprocmask, .exec .sigaction, .exec .printMe, .exec .read, .send, .send, .input, .exec .sigpending,
    .exec (.assert true), .exec .printYes, .exec .printUnblocking, .exec .unblock, .exec .printSend, .exec .pause, .send,
    .deliver]

theorem blocked_signals_merge_threeSignals : ∃ s, Run (Exec next) initial threeSignals s ∧ s.pc = .exited ∧
    s.lines.count .message = 1 + threeSignals.count .deliver := by
  obtain ⟨s, hs, hp⟩ : ∃ s, replay next initial threeSignals = some s ∧ s.pc = .exited := ⟨_, rfl, rfl⟩
  have hunblocked : s.pc.unblocked := by
    rw [hp]
    exact Nat.le_add_right 10 3
  exact ⟨s, replay_run hs, hp, ((blocked_signals_merge threeSignals s (replay_run hs)).2.2.2.1 hunblocked).1⟩

end UnixProg.Signals.Sigpending

import UnixProg.Signals.PingPong

namespace UnixProg.Signals.PingPongStartup

open Lib Transition PingPong

/-- No process was terminated, and those in the handler have their message and
the PID of the other process. -/
structure Safe (s : State) : Prop where
  alive (w) : (s.procs w).alive = true
  told (w) (h : (s.procs w).handler ≠ none) : (s.procs w).msg ≠ none ∧ (s.procs w).pid = some w.other

/-- The child gets its signal in the loop at the end of `main()`. -/
def ChildReady (s : State) (e : Event) : Prop := e = .deliver .child → (s.procs .child).main = .pause

instance (s : State) (e : Event) : Decidable (ChildReady s e) :=
  inferInstanceAs (Decidable (e = .deliver .child → (s.procs .child).main = .pause))

variable {s s' : State} {w : Who} {e : Event} {es : List Event}

theorem Safe.spares (hs : Safe s) (hsp : Spares w s s') (halive : (s'.procs w).alive = true)
    (htold : (s'.procs w).handler ≠ none → (s'.procs w).msg ≠ none ∧ (s'.procs w).pid = some w.other) : Safe s' := by
  constructor
  · intro u
    by_cases hu : u = w
    · exact hu ▸ halive
    · obtain ⟨b, hb⟩ := hsp u hu
      rw [hb]
      exact hs.alive u
  · intro u
    by_cases hu : u = w
    · exact hu ▸ htold
    · obtain ⟨b, hb⟩ := hsp u hu
      rw [hb]
      exact hs.told u

theorem mainStep_handler (h : mainStep s w = some s') :
    (s'.procs w).alive = (s.procs w).alive ∧ (s'.procs w).handler = (s.procs w).handler := by
  rw [mainStep] at h
  split at h <;> cases h
  case h_7 =>
    obtain ⟨b, hb⟩ := kill_procs s (s.procs w).pid w
    rw [set_self, hb]
    exact ⟨rfl, rfl⟩
  all_goals
    rw [set_self]
    exact ⟨rfl, rfl⟩

/-- The handler only needs its message to go on. -/
theorem handlerStep_told (hm : (s.procs w).msg ≠ none) (pc : HandlerPc) :
    ((handlerStep s w pc).procs w).alive = (s.procs w).alive ∧ ((handlerStep s w pc).procs w).msg = (s.procs w).msg ∧
      ((handlerStep s w pc).procs w).pid = (s.procs w).pid := by
  cases pc with
  | write =>
      obtain ⟨m, hm⟩ := Option.ne_none_iff_exists'.mp hm
      simp [handlerStep, hm, set_self]
  | kill =>
      obtain ⟨b, hb⟩ := kill_procs s (s.procs w).pid w
      simp [handlerStep, set_self, hb]
  | sleep | ret => simp [handlerStep, set_self]

theorem handlerStep_main (s : State) (w : Who) (pc : HandlerPc) :
    ((handlerStep s w pc).procs w).main = (s.procs w).main := by
  cases pc with
  | write => cases hm : (s.procs w).msg <;> simp [handlerStep, hm, set_self]
  | kill =>
      obtain ⟨b, hb⟩ := kill_procs s (s.procs w).pid w
      simp [handlerStep, set_self, hb]
  | sleep | ret => simp [handlerStep, set_self]

/-- Nobody gets a signal before the parent has sent the first one. -/
theorem started_of_pending (hi : Inv s) (hpend : (s.procs w).pending = true) : s.started := by
  by_contra hnot
  have htoken := (hi.idle hnot).2 w
  rw [Process.token, hpend] at htoken
  simp at htoken

theorem ready_of_pending (hi : Inv s) (hok : ChildReady s (.deliver w)) (hpend : (s.procs w).pending = true) :
    (s.procs w).main = .pause := by
  cases w with
  | child => exact hok rfl
  | parent => exact started_of_pending hi hpend

theorem deliver_safe (hi : Inv s) (hs : Safe s) (hok : ChildReady s (.deliver w)) (hpend : (s.procs w).pending = true) :
    Safe (s.set w (s.procs w).deliver) := by
  have here := hi.here w
  have hpause := ready_of_pending hi hok hpend
  have hinst := here.installed (by rw [hpause]; simp)
  have hd : (s.procs w).deliver = { s.procs w with pending := false, handler := some .write } := if_pos hinst
  rw [hd]
  apply hs.spares (spares_set s w _)
  · rw [set_self]
    exact hs.alive w
  · intro _
    rw [set_self]
    refine ⟨?_, ?_⟩
    · simp [here.msg, hpause, MainPc.told]
    · change (s.procs w).pid = some w.other
      rw [here.pid, hpause]
      cases w <;> rfl

theorem next_safe (hi : Inv s) (hs : Safe s) (hok : ChildReady s e) (h : next s e = some s') : Safe s' := by
  cases e with
  | main w =>
      obtain ⟨⟨_, hh⟩, h⟩ := Option.ite_none_right_eq_some.mp h
      obtain ⟨halive, hhandler⟩ := mainStep_handler h
      apply hs.spares (mainStep_spares h)
      · rw [halive]
        exact hs.alive w
      · intro hne
        exact absurd (hhandler.trans hh) hne
  | handler w =>
      obtain ⟨_, h⟩ := Option.ite_none_right_eq_some.mp h
      obtain ⟨pc, hh, rfl⟩ := Option.map_eq_some_iff.mp h
      obtain ⟨hmsg, hpid⟩ := hs.told w (by rw [hh]; simp)
      obtain ⟨halive', hmsg', hpid'⟩ := handlerStep_told hmsg pc
      apply hs.spares (handlerStep_spares s w pc)
      · rw [halive']
        exact hs.alive w
      · intro _
        rw [hmsg', hpid']
        exact ⟨hmsg, hpid⟩
  | deliver w =>
      obtain ⟨⟨_, _, hpend⟩, h⟩ := Option.ite_none_right_eq_some.mp h
      cases h
      exact deliver_safe hi hs hok hpend

/-- A signal that the child gets too early terminates it, or finds no message. -/
theorem early_unsafe (hi : Inv s) (hbad : ¬ ChildReady s e) (h : next s e = some s') : ¬ Safe s' := by
  simp only [ChildReady, Classical.not_imp] at hbad
  obtain ⟨rfl, hpause⟩ := hbad
  obtain ⟨_, h⟩ := Option.ite_none_right_eq_some.mp h
  cases h
  intro hs
  by_cases hinst : (s.procs .child).installed = true
  · have hd : (s.procs .child).deliver = { s.procs .child with pending := false, handler := some .write } := if_pos hinst
    have htold := (hs.told .child (by rw [set_self, hd]; simp)).1
    rw [set_self, hd] at htold
    apply htold
    have here := hi.here .child
    have hmain : (s.procs .child).main.told = false := by
      have hof := here.main
      cases hm : (s.procs .child).main with
      | pause => exact absurd hm hpause
      | sigaction | test | getppid | childMsg => rfl
      | parentMsg | sleep | kill => simp [hm, MainPc.isOf] at hof
    rw [here.msg, hmain]
    rfl
  · have hd : (s.procs .child).deliver.alive = false := by rw [Process.deliver, if_neg hinst]
    have halive := hs.alive .child
    rw [set_self, hd] at halive
    cases halive

theorem initial_safe : Safe initial := ⟨fun _ => rfl, fun _ h => absurd rfl h⟩

/-- The start-up goes well just as long as the child gets its signal only when
it is ready for it. -/
theorem safe_iff_childReady (es : List Event) (s : State) (h : Run (Exec next) initial es s) :
    (∀ before after t, es = before ++ after → Run (Exec next) initial before t → Safe t) ↔
      Run (Guarded (Exec next) ChildReady) initial es s := by
  symm
  refine guarded_iff initial_safe ?_ ?_ h
  · intro u e u' hr hs hok hn
    exact next_safe (run_inv hr hs.alive) hs hok hn
  · intro u e u' hr hs hbad hn
    exact early_unsafe (run_inv hr hs.alive) hbad hn

/-- The parent sends its first signal when the child is in its loop. -/
def LateKill (s : State) (e : Event) : Prop :=
  e = .main .parent → (s.procs .parent).main = .kill → (s.procs .child).main = .pause

theorem main_of_next {u : Who} (h : next s e = some s') (he : e ≠ .main u) : (s'.procs u).main = (s.procs u).main := by
  cases e with
  | main w =>
      obtain ⟨_, h⟩ := Option.ite_none_right_eq_some.mp h
      have hu : u ≠ w := fun hu => he (hu ▸ rfl)
      obtain ⟨b, hb⟩ := mainStep_spares h u hu
      rw [hb]
  | handler w =>
      obtain ⟨_, h⟩ := Option.ite_none_right_eq_some.mp h
      obtain ⟨pc, _, rfl⟩ := Option.map_eq_some_iff.mp h
      by_cases hu : u = w
      · subst hu
        exact handlerStep_main s u pc
      · obtain ⟨b, hb⟩ := handlerStep_spares s w pc u hu
        rw [hb]
  | deliver w =>
      obtain ⟨_, h⟩ := Option.ite_none_right_eq_some.mp h
      cases h
      by_cases hu : u = w
      · subst hu
        rw [set_self, Process.deliver]
        split <;> rfl
      · rw [set_of_ne s _ hu]

/-- The parent gets to its loop with its `kill()`. -/
theorem kill_of_started (hi : Inv s) (h : mainStep s .parent = some s') (hst : s'.started) :
    (s.procs .parent).main = .kill := by
  have hof := (hi.here .parent).main
  rw [mainStep] at h
  split at h <;> rename_i hm
  case h_7 => exact hm
  case h_3 | h_4 => simp [hm, MainPc.isOf] at hof
  case h_2 =>
    have hpid : (s.procs .parent).pid ≠ none := by simp [(hi.here .parent).pid, pidAt]
    cases h
    simp [State.started, set_self, hpid] at hst
  all_goals
    cases h
    try simp [State.started, set_self] at hst

theorem childReady_of_pending (hi : Inv s) (hlate : s.started → (s.procs .child).main = .pause) (h : next s e = some s') :
    ChildReady s e := by
  rintro rfl
  obtain ⟨⟨_, _, hpend⟩, _⟩ := Option.ite_none_right_eq_some.mp h
  exact hlate (started_of_pending hi hpend)

theorem next_late (hi : Inv s) (hok : LateKill s e) (hlate : s.started → (s.procs .child).main = .pause)
    (h : next s e = some s') (hst : s'.started) : (s'.procs .child).main = .pause := by
  by_cases hchild : e = .main .child
  · subst hchild
    have hpause := hlate ((main_of_next h (by simp)).symm.trans hst)
    obtain ⟨_, h⟩ := Option.ite_none_right_eq_some.mp h
    rw [mainStep, hpause] at h
    cases h
  · rw [main_of_next h hchild]
    by_cases hstart : s.started
    · exact hlate hstart
    · by_cases hparent : e = .main .parent
      · subst hparent
        obtain ⟨_, h⟩ := Option.ite_none_right_eq_some.mp h
        exact hok rfl (kill_of_started hi h hst)
      · exact absurd ((main_of_next h hparent).symm.trans hst) hstart

/-- It is enough that the parent sleeps for long enough. -/
theorem childReady_of_lateKill (h : Run (Guarded (Exec next) LateKill) initial es s) :
    Run (Guarded (Exec next) ChildReady) initial es s := by
  suffices hgood : (Inv s ∧ Safe s) ∧ (s.started → (s.procs .child).main = .pause) ∧
      Run (Guarded (Exec next) ChildReady) initial es s from hgood.2.2
  apply h.invariant (I := fun es s => (Inv s ∧ Safe s) ∧ (s.started → (s.procs .child).main = .pause) ∧
    Run (Guarded (Exec next) ChildReady) initial es s)
  · exact ⟨⟨initial_inv, initial_safe⟩, fun hst => (by cases hst), .nil⟩
  · rintro ls e u u' - ⟨⟨hi, hs⟩, hlate, hr⟩ ⟨hok, hn⟩
    have hready := childReady_of_pending hi hlate hn
    have hs' := next_safe hi hs hready hn
    exact ⟨⟨next_inv hi hn hs'.alive, hs'⟩, next_late hi hok hlate hn, hr.snoc ⟨hready, hn⟩⟩

/-- The parent goes through all its steps before the child has begun. -/
def parentFirst : List Event := List.replicate 5 (.main .parent)

/-- The child is terminated, or finds no message and no PID in its handler. -/
theorem startup_unsafe :
    (∃ s, Run (Exec next) initial (parentFirst ++ [.deliver .child]) s ∧ (s.procs .child).alive = false) ∧
    ∃ s, Run (Exec next) initial (parentFirst ++ [.main .child, .deliver .child]) s ∧
      (s.procs .child).handler = some .write ∧ (s.procs .child).msg = none ∧ (s.procs .child).pid = none :=
  ⟨⟨_, replay_run rfl, rfl⟩, _, replay_run rfl, rfl, rfl, rfl⟩

/-- The first signal to reach a child that is ready. -/
theorem safe_iff_childReady_startUp : ∃ s, Run (Exec next) initial (startUp ++ round) s ∧
    ∀ before after t, startUp ++ round = before ++ after → Run (Exec next) initial before t → Safe t := by
  obtain ⟨s, hs⟩ : ∃ s, replay (guardedNext ChildReady next) initial (startUp ++ round) = some s := ⟨_, rfl⟩
  have h := replay_guarded hs
  exact ⟨s, h.unguard, (safe_iff_childReady (startUp ++ round) s h.unguard).mpr h⟩

end UnixProg.Signals.PingPongStartup

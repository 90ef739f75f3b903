import UnixProg.CondVariables.QueueSimulation

namespace UnixProg.CondVariables.QueueBounds

open Lib Transition Monitor MonitorRule QueueSimulation

def inserted (es : List (Event Thread Pc)) : Nat := execs es .producer .change

def removed (es : List (Event Thread Pc)) : Nat := execs es .consumer .change

/-- The counter is the number of messages in the queue, and there is room for
all of them. -/
structure Bounded (capacity : Int) (es : List (Event Thread Pc)) (s : State Thread Pc Mem) : Prop where
  balance : s.mem.inQueue = inserted es - removed es
  nonneg : 0 ≤ s.mem.inQueue
  le : s.mem.inQueue ≤ max capacity 0

variable {capacity : Int} {s s' : State Thread Pc Mem} {es : List (Event Thread Pc)} {t : Thread} {p : Pc} {m : Mem}

/-- The counter changes in two places, each time by the one that was drawn. -/
theorem inQueue_cmd {c : Cmd Pc Mem} (hc : c ∈ program capacity t p m) (ho : Own t p m) :
    (c.mem m).inQueue = m.inQueue + (if t = .producer ∧ p = .change then 1 else 0) -
      if t = .consumer ∧ p = .change then 1 else 0 := by
  cases does hc with
  | insert =>
      have hone : m.msgCreated = 1 := ho.resolve_left nofun
      simp [Cmd.mem, hone]
  | remove =>
      have hone : m.msgRemoved = 1 := ho.resolve_left nofun
      simp [Cmd.mem, hone]
  | _ => simp [Cmd.mem]

theorem balance_step {e : Event Thread Pc} (ho : ∀ t, Own t (s.pc t) s.mem) (hi : s.mem.inQueue = inserted es - removed es)
    (h : Step (program capacity) s e s') : s'.mem.inQueue = inserted (es ++ [e]) - removed (es ++ [e]) := by
  rcases h.view with ⟨hidle, _, hm⟩ | ⟨t, p, c, ht, hc, rfl, _, hm, _⟩
  · rw [hm, inserted, removed, execs_idle hidle, execs_idle hidle]
    exact hi
  · have hown := ho t
    rw [show s.pc t = p by simp [State.pc, ht, Ctl.pc]] at hown
    rw [hm, inQueue_cmd hc hown, hi, inserted, inserted, removed, removed, execs_exec, execs_exec]
    push_cast
    omega

theorem run_balance (h : Run (Step (program capacity)) initial es s) : s.mem.inQueue = inserted es - removed es :=
  h.invariant (I := fun es s => s.mem.inQueue = (inserted es : Int) - removed es) rfl
    (fun _ _ _ _ hr hi hl => balance_step (run_own hr) hi hl)

theorem At.bounds {S : Thread → Prop} (h : At capacity t p S m) : 0 ≤ m.inQueue ∧ m.inQueue ≤ capacity := by
  cases t <;> cases p <;>
    first
    | exact ⟨h.nonneg, h.le⟩
    | exact ⟨h.1.nonneg, h.1.le⟩
    | exact ⟨h.1.le, h.2.1⟩
    | exact ⟨h.1, h.2.1.le⟩

theorem run_bounds (hcap : 0 ≤ capacity) (h : Run (Step (program capacity)) initial es s) :
    0 ≤ s.mem.inQueue ∧ s.mem.inQueue ≤ capacity := by
  have hs := run_queue hcap h
  cases howner : s.owner with
  | none =>
      have hcalm := hs.calm howner
      exact ⟨hcalm.nonneg, hcalm.le⟩
  | some t =>
      obtain ⟨p, ht, hp⟩ := ((run_locked (program_disciplined capacity) first_crit h).owner t).mp howner
      exact At.bounds (hs.holder t p ht hp)

theorem first_message (hcap : 0 ≠ capacity) : ∃ es s, Run (Step (program capacity)) initial es s ∧ s.mem.inQueue = 1 := by
  have hdraw := (Run.nil : Run (Step (program capacity)) initial [] initial).snoc
    (Step.run none _ _ Thread.producer Pc.draw ⟨0, 1, 0, 0, []⟩ Pc.lock rfl (by simp [program, producer]))
  have hlock := hdraw.snoc (Step.lock _ _ Thread.producer Pc.lock Pc.loop (Function.update_self ..)
    (by simp [program, producer]))
  have hloop := hlock.snoc (Step.run _ _ _ Thread.producer Pc.loop ⟨0, 1, 0, 0, []⟩ Pc.change (Function.update_self ..)
    (by simp [program, producer, hcap]))
  have hchange := hloop.snoc (Step.run _ _ _ Thread.producer Pc.change ⟨1, 1, 0, 0, []⟩ Pc.test (Function.update_self ..)
    (by simp [program, producer]))
  exact ⟨_, _, hchange, rfl⟩

/-- The test for the capacity itself keeps the queue within its bounds just
when the capacity is no negative number, which the counter never meets. -/
theorem bounded_iff (capacity : Int) :
    (∀ es s, Run (Step (program capacity)) initial es s → Bounded capacity es s) ↔ 0 ≤ capacity := by
  constructor
  · intro hall
    by_contra hneg
    obtain ⟨es, s, hs, hone⟩ := first_message (show 0 ≠ capacity by omega)
    have hle := (hall es s hs).le
    omega
  · intro hcap es s h
    obtain ⟨hnonneg, hle⟩ := run_bounds hcap h
    exact ⟨run_balance h, hnonneg, hle.trans (le_max_left capacity 0)⟩

theorem negative_capacity : ¬ ∀ es s, Run (Step (program (-1))) initial es s → Bounded (-1) es s := by
  intro hall
  obtain ⟨es, s, hs, hone⟩ := first_message (show (0 : Int) ≠ -1 by decide)
  have hle := (hall es s hs).le
  rw [hone] at hle
  exact absurd hle (by decide)

end UnixProg.CondVariables.QueueBounds

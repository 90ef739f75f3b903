import UnixProg.Lib.Barrier
import UnixProg.Lib.Monitor

namespace UnixProg.Lib.Rounds

open Transition Monitor

variable {T P M : Type} [DecidableEq T] [DecidableEq P] {prog : Prog T P M} {s s' : State T P M}
  {e : Event T P} {es : List (Event T P)} {arrive leave p : P} {t : T}

/-- A run seen through the commands with which its threads come to a barrier
and go on from it. -/
def rounds (arrive leave : P) (es : List (Event T P)) : Barrier.Rounds T :=
  ⟨fun t => execs es t arrive, fun t => execs es t leave⟩

theorem rounds_idle (he : e.genuine = false ∨ ∃ t, e = .resume t) :
    rounds arrive leave (es ++ [e]) = rounds arrive leave es := by
  ext u
  · exact execs_idle he u arrive
  · exact execs_idle he u leave

theorem rounds_other (ha : p ≠ arrive) (hl : p ≠ leave) :
    rounds arrive leave (es ++ [.exec t p]) = rounds arrive leave es := by
  ext u
  · simp [rounds, execs_exec, ha]
  · simp [rounds, execs_exec, hl]

theorem rounds_arrive (es : List (Event T P)) (t : T) (hne : arrive ≠ leave) : rounds arrive leave (es ++ [.exec t arrive]) =
    ⟨Function.update (rounds arrive leave es).arrived t ((rounds arrive leave es).arrived t + 1),
      (rounds arrive leave es).left⟩ := by
  ext u
  · by_cases hu : u = t
    · subst hu; simp [rounds, execs_exec]
    · simp [rounds, execs_exec, hu, Ne.symm hu]
  · simp [rounds, execs_exec, hne]

theorem rounds_leave (es : List (Event T P)) (t : T) (hne : arrive ≠ leave) : rounds arrive leave (es ++ [.exec t leave]) =
    ⟨(rounds arrive leave es).arrived,
      Function.update (rounds arrive leave es).left t ((rounds arrive leave es).left t + 1)⟩ := by
  ext u
  · simp [rounds, execs_exec, Ne.symm hne]
  · by_cases hu : u = t
    · subst hu; simp [rounds, execs_exec]
    · simp [rounds, execs_exec, hu, Ne.symm hu]

/-- The two facts about its arrivals and departures that make a program a
barrier, in the state before a step. -/
structure Admits (arrive leave : P) (es : List (Event T P)) (s : State T P M) : Prop where
  comes (t : T) (ht : s.ctl t = .running arrive) : execs es t arrive = execs es t leave
  goes (t : T) (ht : s.ctl t = .running leave) :
    execs es t leave < execs es t arrive ∧ ∀ u, execs es t arrive ≤ execs es u arrive

theorem Step.refines (hne : arrive ≠ leave) (ha : Admits arrive leave es s) (h : Step prog s e s') :
    rounds arrive leave (es ++ [e]) = rounds arrive leave es ∨
    ∃ ev, Barrier.Step (rounds arrive leave es) ev (rounds arrive leave (es ++ [e])) := by
  rcases h.view with ⟨he, _, _⟩ | ⟨t, p, c, ht, _, rfl, _⟩
  · exact .inl (rounds_idle he)
  · by_cases hp : p = arrive
    · subst hp
      exact .inr ⟨.arrive t, rounds_arrive es t hne ▸ .arrive _ t (ha.comes t ht)⟩
    by_cases hq : p = leave
    · subst hq
      exact .inr ⟨.leave t, rounds_leave es t hne ▸ .leave _ t (ha.goes t ht).1 (ha.goes t ht).2⟩
    · exact .inl (rounds_other hp hq)

theorem Step.sound (hne : arrive ≠ leave) (ha : Admits arrive leave es s)
    (hs : Barrier.Sound (rounds arrive leave es)) (h : Step prog s e s') :
    Barrier.Sound (rounds arrive leave (es ++ [e])) := by
  rcases Step.refines hne ha h with heq | ⟨ev, hev⟩
  · exact heq ▸ hs
  · exact hev.sound hs

/-- A program whose runs all admit a barrier refines it. -/
theorem run_refines (hne : arrive ≠ leave) {s₀ : State T P M}
    (ha : ∀ es s, Run (Step prog) s₀ es s → Admits arrive leave es s) (h : Run (Step prog) s₀ es s) :
    ∃ evs, Run Barrier.Step Barrier.start evs (rounds arrive leave es) := by
  obtain ⟨evs, b, hb, hR⟩ := h.simulate Barrier.Step Barrier.start
    (fun es _ b => b = rounds arrive leave es) rfl
    (fun ls l s s' b hr hb hl => by
      subst hb
      rcases Step.refines hne (ha _ _ hr) hl with heq | ⟨ev, hev⟩
      · exact ⟨[], _, .nil, heq.symm⟩
      · exact ⟨[ev], _, .single hev, rfl⟩)
  exact ⟨evs, hR ▸ hb⟩

end UnixProg.Lib.Rounds

import UnixProg.Lib.Semaphore

namespace UnixProg.Lib.ProcessRule

open Transition Semaphore

variable {T P M : Type}

/-- The proof rule for what holds of each process by itself. A process keeps it
when it goes on, when another process goes on, and when a signal comes. -/
structure Own (prog : Prog T P M) (ok : State T P M → Event T → Prop) (L : T → P → M → Prop) : Prop where
  self {t p p' m m' c} (hc : c ∈ prog.cmds t p m) (hg : c.Goes m m' p') (h : L t p m) : L t p' m'
  other {t u p p' q m m' c} (hc : c ∈ prog.cmds t p m) (hg : c.Goes m m' p') (ht : L t p m) (hu : u ≠ t) (h : L u q m) :
    L u q m'
  handled {u q m} (t) (h : L u q m) : L u q (prog.handler t m)
  interrupted {s t p q m m₁ c} (hok : ok s (.signal t)) (hbl : s.ctl t = .blocked p q) (hc : c ∈ prog.cmds t p m₁)
    (hq : c.interrupted = some q) (h : L t p m) : L t q m

variable [DecidableEq T] {prog : Prog T P M} {ok : State T P M → Event T → Prop} {L : T → P → M → Prop}
  {s s' : State T P M} {e : Event T} {es : List (Event T)}

theorem next_own (hown : Own prog ok L) (hb : BlockedIn prog s) (hs : ∀ t, L t (s.pc t) s.mem) (hok : ok s e)
    (h : next prog s e = some s') : ∀ t, L t (s'.pc t) s'.mem := by
  intro u
  obtain ⟨hpc, hmem⟩ | ⟨t, k, rfl, c, hc, p, hg, hpc⟩ | ⟨t, rfl, hmem, hpc | ⟨p, q, hbl, hpc⟩⟩ := next_view h
  · rw [hpc, hmem]
    exact hs u
  · rw [hpc]
    by_cases hu : u = t
    · subst hu
      rw [Function.update_self]
      exact hown.self hc hg (hs u)
    · rw [Function.update_of_ne hu]
      exact hown.other hc hg (hs t) hu (hs u)
  · rw [hpc, hmem]
    exact hown.handled t (hs u)
  · rw [hpc, hmem]
    apply hown.handled
    by_cases hu : u = t
    · subst hu
      obtain ⟨m, c, hc, hq⟩ := hb u p q hbl
      have hp : s.pc u = p := by rw [State.pc, hbl, Ctl.pc]
      rw [Function.update_self]
      exact hown.interrupted hok hbl hc hq (hp ▸ hs u)
    · rw [Function.update_of_ne hu]
      exact hs u

theorem run_own {init : Nat} {p₀ : T → P} {m₀ : M} (hown : Own prog ok L) (h₀ : ∀ t, L t (p₀ t) m₀)
    (h : Run (Guarded (Exec (next prog)) ok) (start init p₀ m₀) es s) : ∀ t, L t (s.pc t) s.mem := by
  apply h.invariant (I := fun _ s => ∀ t, L t (s.pc t) s.mem)
  · exact h₀
  · intro ls e a b hr ha hl
    exact next_own hown (run_blockedIn hr.unguard) ha hl.1 hl.2

/-- Where the signals need no condition. -/
theorem run_own_always {init : Nat} {p₀ : T → P} {m₀ : M} (hown : Own prog (fun _ _ => True) L)
    (h₀ : ∀ t, L t (p₀ t) m₀) (h : Run (Exec (next prog)) (start init p₀ m₀) es s) : ∀ t, L t (s.pc t) s.mem :=
  run_own hown h₀ (h.mono (fun _ _ _ hl => ⟨trivial, hl⟩))

end UnixProg.Lib.ProcessRule

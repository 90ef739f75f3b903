import UnixProg.Lib.Monitor

namespace UnixProg.Lib.Unlocked

open Transition Monitor

variable {T P M : Type}

/-- A command without the mutex. -/
def unlockedCmd (m : M) : Cmd P M → Cmd P M
  | .lock p | .unlock p => .run m p
  | c => c

def unlocked (prog : Prog T P M) : Prog T P M := fun t p m => (prog t p m).map (unlockedCmd m)

/-- The program waits for nothing but the mutex. -/
def Plain (prog : Prog T P M) : Prop := ∀ t p m q, .wait q ∉ prog t p m

variable {prog : Prog T P M} {s s' : State T P M} {es : List (Event T P)} {e : Event T P}

/-- Nobody sleeps where nobody waits. -/
theorem running_of_plain {crit : P → Bool} (hp : Plain prog) (hl : Locked prog crit s) (t : T) :
    s.ctl t = .running (s.pc t) := hl.running rfl (fun q m => hp t q m _)

variable [DecidableEq T]

theorem Step.unlocked (hrun : ∀ t, s.ctl t = .running (s.pc t)) (hp : Plain prog) (h : Step prog s e s') :
    Step (unlocked prog) ⟨none, s.ctl, s.mem⟩ e ⟨none, s'.ctl, s'.mem⟩ := by
  cases h with
  | run o c m t p m' p' ht hc => exact .run none c m t p m' p' ht (List.mem_map.mpr ⟨_, hc, rfl⟩)
  | lock c m t p p' ht hc => exact .run none c m t p m p' ht (List.mem_map.mpr ⟨_, hc, rfl⟩)
  | unlock c m t p p' ht hc => exact .run none c m t p m p' ht (List.mem_map.mpr ⟨_, hc, rfl⟩)
  | wait c m t p p' ht hc => exact absurd hc (hp t p m p')
  | signal o c m t p p' W ht hc hW => exact .signal none c m t p p' W ht (List.mem_map.mpr ⟨_, hc, rfl⟩) hW
  | broadcast o c m t p p' ht hc => exact .broadcast none c m t p p' ht (List.mem_map.mpr ⟨_, hc, rfl⟩)
  | resume c m t p ht => cases ht.symm.trans (hrun t)
  | spurious o c m t p ht => cases ht.symm.trans (hrun t)

/-- A mutex takes runs away and adds none. -/
theorem run_unlocked {crit : P → Bool} {p₀ : T → P} {m₀ : M} (hd : Disciplined prog crit) (hp : Plain prog)
    (h₀ : ∀ t, crit (p₀ t) = false) (h : Run (Step prog) (start p₀ m₀) es s) :
    Run (Step (unlocked prog)) (start p₀ m₀) es ⟨none, s.ctl, s.mem⟩ := by
  induction h with
  | nil => exact .nil
  | snoc hr hl ih => exact ih.snoc (Step.unlocked (running_of_plain hp (run_locked hd h₀ hr)) hp hl)

end UnixProg.Lib.Unlocked

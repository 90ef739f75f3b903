import UnixProg.Lib.Monitor

namespace UnixProg.Lib.MemoryMap

open Transition Monitor

variable {T P M N : Type}

def mapCmd (f : M → N) : Cmd P M → Cmd P N
  | .run m p => .run (f m) p
  | .lock p => .lock p
  | .unlock p => .unlock p
  | .wait p => .wait p
  | .signal p => .signal p
  | .broadcast p => .broadcast p

def mapState (f : M → N) (s : State T P M) : State T P N := ⟨s.owner, s.ctl, f s.mem⟩

/-- The two programs do the same, one on the memory as the other one sees it. -/
def Tracks (f : M → N) (prog : Prog T P M) (prog' : Prog T P N) : Prop :=
  ∀ t p m, prog' t p (f m) = (prog t p m).map (mapCmd f)

variable [DecidableEq T] {f : M → N} {prog : Prog T P M} {prog' : Prog T P N} {s : State T P M} {s' : State T P N}
  {e : Event T P} {es : List (Event T P)}

theorem step_of_map (hf : Tracks f prog prog') (h : Step prog' (mapState f s) e s') :
    ∃ s₀, Step prog s e s₀ ∧ s' = mapState f s₀ := by
  obtain ⟨o, c, m⟩ := s
  have hback {t : T} {p : P} {cmd : Cmd P N} (hc : cmd ∈ prog' t p (f m)) : ∃ cmd₀ ∈ prog t p m, mapCmd f cmd₀ = cmd := by
    rw [hf] at hc
    exact List.mem_map.mp hc
  generalize hs : mapState f ⟨o, c, m⟩ = u at h
  cases h with
  | run _ _ _ t p m' p' ht hc =>
      cases hs
      obtain ⟨cmd, hcmd, hmap⟩ := hback hc
      cases cmd <;> cases hmap
      exact ⟨_, .run o c m t p _ p' ht hcmd, rfl⟩
  | lock _ _ t p p' ht hc =>
      cases hs
      obtain ⟨cmd, hcmd, hmap⟩ := hback hc
      cases cmd <;> cases hmap
      exact ⟨_, .lock c m t p p' ht hcmd, rfl⟩
  | unlock _ _ t p p' ht hc =>
      cases hs
      obtain ⟨cmd, hcmd, hmap⟩ := hback hc
      cases cmd <;> cases hmap
      exact ⟨_, .unlock c m t p p' ht hcmd, rfl⟩
  | wait _ _ t p p' ht hc =>
      cases hs
      obtain ⟨cmd, hcmd, hmap⟩ := hback hc
      cases cmd <;> cases hmap
      exact ⟨_, .wait c m t p p' ht hcmd, rfl⟩
  | signal _ _ _ t p p' W ht hc hW =>
      cases hs
      obtain ⟨cmd, hcmd, hmap⟩ := hback hc
      cases cmd <;> cases hmap
      exact ⟨_, .signal o c m t p p' W ht hcmd hW, rfl⟩
  | broadcast _ _ _ t p p' ht hc =>
      cases hs
      obtain ⟨cmd, hcmd, hmap⟩ := hback hc
      cases cmd <;> cases hmap
      exact ⟨_, .broadcast o c m t p p' ht hcmd, rfl⟩
  | resume _ _ t p ht =>
      cases hs
      exact ⟨_, .resume c m t p ht, rfl⟩
  | spurious _ _ _ t p ht =>
      cases hs
      exact ⟨_, .spurious o c m t p ht, rfl⟩

theorem run_of_map (hf : Tracks f prog prog') (h : Run (Step prog') (mapState f s) es s') :
    ∃ s₀, Run (Step prog) s es s₀ ∧ s' = mapState f s₀ := by
  induction h with
  | nil => exact ⟨s, .nil, rfl⟩
  | snoc _ hl ih =>
      obtain ⟨s₁, hr, rfl⟩ := ih
      obtain ⟨s₂, hstep, rfl⟩ := step_of_map hf hl
      exact ⟨s₂, hr.snoc hstep, rfl⟩

end UnixProg.Lib.MemoryMap

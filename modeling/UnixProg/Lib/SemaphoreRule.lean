import UnixProg.Lib.Semaphore

namespace UnixProg.Lib.SemaphoreRule

open Transition Semaphore

variable {T P M : Type}

/-- The commands that leave the semaphore as it is, with the memory and the
point after them. -/
def Moves (c : Cmd P M) (m m' : M) (p' : P) : Prop :=
  match c with
  | .run m₁ p₁ => m' = m₁ ∧ p' = p₁
  | .remove p₁ => m' = m ∧ p' = p₁
  | .await ready p₁ _ => ready = some m' ∧ p' = p₁
  | .down _ _ _ | .up _ _ => False

/-- The proof rule of a resource that a binary semaphore guards. Calm holds of
the memory while nobody is inside, At is what the process inside knows. -/
structure Rule (prog : Prog T P M) (inside : P → Bool) (Calm : M → Prop) (At : T → P → M → Prop) : Prop where
  enter {t p p' q r m} (hc : .down p' q r ∈ prog.cmds t p m) (h : Calm m) : At t p' m
  leave {t p p' r m} (hc : .up p' r ∈ prog.cmds t p m) (h : At t p m) : Calm m
  inner {t p p' m m' c} (hp : inside p = true) (hc : c ∈ prog.cmds t p m) (hm : Moves c m m' p') (h : At t p m) :
    At t p' m'
  outer_calm {t p p' m m' c} (hp : inside p = false) (hc : c ∈ prog.cmds t p m) (hm : Moves c m m' p') (h : Calm m) :
    Calm m'
  outer_at {t p p' u q m m' c} (hp : inside p = false) (hc : c ∈ prog.cmds t p m) (hm : Moves c m m' p') (hu : u ≠ t)
    (h : At u q m) : At u q m'
  signal_calm {m} (t) (h : Calm m) : Calm (prog.handler t m)
  signal_at {u q m} (t) (h : At u q m) : At u q (prog.handler t m)

structure Holds (inside : P → Bool) (Calm : M → Prop) (At : T → P → M → Prop) (s : State T P M) : Prop where
  calm (h : ∀ t, inside (s.pc t) = false) : Calm s.mem
  holder (t : T) (h : inside (s.pc t) = true) : At t (s.pc t) s.mem

variable [DecidableEq T] [Fintype T] {prog : Prog T P M} {inside : P → Bool} {Calm : M → Prop} {At : T → P → M → Prop}
  {s s' : State T P M} {e : Event T} {es : List (Event T)} {init : Nat}

omit [DecidableEq T] in
theorem outside_of_occupancy (h : occupancy inside s = 0) (t : T) : inside (s.pc t) = false := by
  have ht := (Finset.sum_eq_zero_iff_of_nonneg (fun _ _ => Nat.zero_le _)).mp h t (Finset.mem_univ t)
  cases hp : inside (s.pc t)
  · rfl
  · simp [hp] at ht

omit [DecidableEq T] in
theorem occupancy_le (h : Conserved init s.sem (occupancy inside s)) : occupancy inside s ≤ init := by
  cases hsem : s.sem <;> rw [hsem] at h <;> simp only [Conserved] at h <;> omega

theorem unique_of_occupancy (hone : occupancy inside s ≤ 1) {t u : T} (ht : inside (s.pc t) = true)
    (hu : inside (s.pc u) = true) : t = u := by
  by_contra hne
  have hpair : ∑ v ∈ {t, u}, (inside (s.pc v)).toNat = 2 := by
    rw [Finset.sum_pair hne, ht, hu]
    rfl
  have hle : ∑ v ∈ {t, u}, (inside (s.pc v)).toNat ≤ occupancy inside s :=
    Finset.sum_le_sum_of_subset (Finset.subset_univ _)
  omega

theorem unique_of_conserved (h : Conserved 1 s.sem (occupancy inside s)) {t u : T} (ht : inside (s.pc t) = true)
    (hu : inside (s.pc u) = true) : t = u := unique_of_occupancy (occupancy_le h) ht hu

theorem Holds.move (hr : Rule prog inside Calm At) (hd : Disciplined prog inside)
    (hone : Conserved 1 s.sem (occupancy inside s)) (hs : Holds inside Calm At s) {t : T} {c : Cmd P M} {p : P}
    (hc : c ∈ prog.cmds t (s.pc t) s.mem) (hm : Moves c s.mem s'.mem p) (hpc : s'.pc = Function.update s.pc t p) :
    Holds inside Calm At s' := by
  have hk := hd t _ _ c hc
  have hside : inside p = inside (s.pc t) := by
    cases c with
    | run | remove => exact hm.2 ▸ hk
    | down | up => exact hm.elim
    | await => exact (hm.2 ▸ hk.2).trans hk.1.symm
  have hself : s'.pc t = p := by rw [hpc, Function.update_self]
  cases hp : inside (s.pc t) with
  | true =>
      constructor
      · intro hall
        rw [← hself, hall t] at hside
        exact absurd (hside.trans hp) (by simp)
      · intro u hu
        by_cases hut : u = t
        · subst hut
          rw [hself]
          exact hr.inner hp hc hm (hs.holder u hp)
        · rw [hpc, Function.update_of_ne hut] at hu
          exact absurd (unique_of_conserved hone hu hp) hut
  | false =>
      constructor
      · intro hall
        apply hr.outer_calm hp hc hm
        apply hs.calm
        intro u
        by_cases hut : u = t
        · rw [hut, hp]
        · have := hall u
          rwa [hpc, Function.update_of_ne hut] at this
      · intro u hu
        by_cases hut : u = t
        · rw [hut, hself, hside, hp] at hu
          cases hu
        · rw [hpc, Function.update_of_ne hut] at hu ⊢
          exact hr.outer_at hp hc hm hut (hs.holder u hu)

omit [Fintype T] in
theorem Holds.stay (hs : Holds inside Calm At s) {t : T} {p : P} (hpc : s'.pc = Function.update s.pc t p)
    (hout : inside (s.pc t) = false) (hp : inside p = false) (hcalm : Calm s.mem → Calm s'.mem)
    (hat : ∀ u q, At u q s.mem → At u q s'.mem) : Holds inside Calm At s' := by
  constructor
  · intro hall
    apply hcalm
    apply hs.calm
    intro u
    by_cases hut : u = t
    · rw [hut, hout]
    · have := hall u
      rwa [hpc, Function.update_of_ne hut] at this
  · intro u hu
    by_cases hut : u = t
    · rw [hut, hpc, Function.update_self, hp] at hu
      cases hu
    · rw [hpc, Function.update_of_ne hut] at hu ⊢
      exact hat u _ (hs.holder u hu)

theorem next_holds (hd : Disciplined prog inside) (hr : Rule prog inside Calm At) (hb : BlockedOutside prog inside s)
    (hok : Harmless inside s e) (hone : Conserved 1 s.sem (occupancy inside s)) (hs : Holds inside Calm At s)
    (h : next prog s e = some s') : Holds inside Calm At s' := by
  cases e with
  | exec t k =>
      obtain ⟨c, hc, ⟨sem, m, p, ha, rfl⟩ | ⟨p, q, hp, hq, rfl⟩⟩ := next_exec h
      · have hpc : State.pc ⟨sem, Function.update s.ctl t (.running p), m⟩ = Function.update s.pc t p :=
          pc_update s.ctl t (.running p)
        have hk := hd t _ _ c hc
        cases c with
        | run m₁ p₁ =>
            cases ha
            exact hs.move hr hd hone hc ⟨rfl, rfl⟩ hpc
        | remove p₁ =>
            cases ha
            exact hs.move hr hd hone hc ⟨rfl, rfl⟩ hpc
        | await ready p₁ q =>
            obtain ⟨m₁, hready, heq⟩ := Option.map_eq_some_iff.mp ha
            cases heq
            exact hs.move hr hd hone hc ⟨hready, rfl⟩ hpc
        | down p₁ q r =>
            obtain ⟨hout, hin, hgone⟩ := hk
            rcases hsem : s.sem with _ | _ | v <;> rw [hsem] at ha hone
            · obtain ⟨p₂, hp₂, heq⟩ := Option.map_eq_some_iff.mp ha
              cases heq
              exact hs.stay hpc hout (hgone p hp₂) id (fun _ _ => id)
            · cases ha
            · cases ha
              have hnone : occupancy inside s = 0 := by
                simp only [Conserved] at hone
                omega
              have hothers := outside_of_occupancy hnone
              constructor
              · intro hall
                have := hall t
                rw [hpc, Function.update_self, hin] at this
                cases this
              · intro u hu
                by_cases hut : u = t
                · subst hut
                  rw [hpc, Function.update_self]
                  exact hr.enter hc (hs.calm hothers)
                · rw [hpc, Function.update_of_ne hut, hothers u] at hu
                  cases hu
        | up p₁ r =>
            obtain ⟨hin, hout, hgone⟩ := hk
            have hcalm := hr.leave hc (hs.holder t hin)
            have hleft {p : P} (hp : inside p = false) {s' : State T P M} (hpc : s'.pc = Function.update s.pc t p)
                (hm : s'.mem = s.mem) : Holds inside Calm At s' := by
              refine ⟨fun _ => hm ▸ hcalm, fun u hu => ?_⟩
              by_cases hut : u = t
              · rw [hut, hpc, Function.update_self, hp] at hu
                cases hu
              · rw [hpc, Function.update_of_ne hut] at hu
                exact absurd (unique_of_conserved hone hu hin) hut
            rcases hsem : s.sem with _ | v <;> rw [hsem] at ha
            · obtain ⟨p₂, hp₂, heq⟩ := Option.map_eq_some_iff.mp ha
              cases heq
              exact hleft (hgone p hp₂) hpc rfl
            · cases ha
              exact hleft hout hpc rfl
      · have hpc : s.pc t = p := by simp [State.pc, hp, Ctl.pc]
        have hpc' : (s.goto t (.blocked p q)).pc = s.pc := by
          rw [pc_goto]
          exact hpc ▸ Function.update_eq_self t s.pc
        exact ⟨fun hall => hs.calm (hpc' ▸ hall), fun u hu => by rw [hpc'] at hu ⊢; exact hs.holder u hu⟩
  | signal t =>
      rcases next_signal h with rfl | ⟨p, q, hbl, rfl⟩
      · exact ⟨fun hall => hr.signal_calm t (hs.calm hall), fun u hu => hr.signal_at t (hs.holder u hu)⟩
      · have hout : inside (s.pc t) = false := by
          have hpc : s.pc t = p := by simp [State.pc, hbl, Ctl.pc]
          rw [hpc]
          exact (hb t p q hbl).1
        exact hs.stay (pc_goto s t _) hout (hok t p q rfl hbl) (hr.signal_calm t) (fun _ _ => hr.signal_at t)

theorem run_holds {p₀ : T → P} {m₀ : M} (hd : Disciplined prog inside) (hr : Rule prog inside Calm At)
    (h₀ : ∀ t, inside (p₀ t) = false) (hcalm : Calm m₀)
    (h : Run (Guarded (Exec (next prog)) (Harmless inside)) (start 1 p₀ m₀) es s) : Holds inside Calm At s := by
  apply h.invariant (I := fun _ s => Holds inside Calm At s)
  · refine ⟨fun _ => hcalm, fun t ht => ?_⟩
    exact absurd ((h₀ t).symm.trans ht) (by simp)
  · intro ls l s s' hrun hs hl
    exact next_holds hd hr (run_blockedOutside hd hrun.unguard) hl.1 (run_conserved hd h₀ hrun) hs hl.2

omit [DecidableEq T] [Fintype T] in
/-- What holds both while nobody is inside and at every inner point holds always. -/
theorem Holds.always {Q : M → Prop} (hs : Holds inside Calm At s) (hcalm : Calm s.mem → Q s.mem)
    (hat : ∀ t p, At t p s.mem → Q s.mem) : Q s.mem := by
  by_cases hall : ∀ t, inside (s.pc t) = false
  · exact hcalm (hs.calm hall)
  · push Not at hall
    obtain ⟨t, ht⟩ := hall
    exact hat t _ (hs.holder t (by simpa using ht))

end UnixProg.Lib.SemaphoreRule

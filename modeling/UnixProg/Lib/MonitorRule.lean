import UnixProg.Lib.Monitor

namespace UnixProg.Lib.MonitorRule

open Transition Monitor

variable {T P M : Type}

def Sleeps (c : T → Ctl P) (t : T) : Prop := ∃ p, c t = .asleep p

/-- The proof rule of a monitor. Calm describes the set of sleepers and the
memory while the mutex is free, At what its holder knows at each critical
point, and Own what a thread knows of its own data. -/
structure Rule (prog : Prog T P M) (crit : P → Bool) (Own : T → P → M → Prop)
    (Calm : (T → Prop) → M → Prop) (At : T → P → (T → Prop) → M → Prop) : Prop where
  calm_mono {S S' m} (h : Calm S m) (hS : ∀ t, S' t → S t) : Calm S' m
  at_mono {t p S S' m} (hp : crit p = true) (h : At t p S m) (hS : ∀ t, S' t → S t) : At t p S' m
  enter {t p p' S m} (hc : .lock p' ∈ prog t p m) (ho : Own t p m) (h : Calm S m) : At t p' S m
  resume {t p q S m m'} (hc : .wait p ∈ prog t q m') (ho : Own t p m) (h : Calm S m) : At t p S m
  inner {t p p' S m m'} (hp : crit p = true) (hc : .run m' p' ∈ prog t p m) (ho : Own t p m)
    (hS : ¬ S t) (h : At t p S m) : At t p' S m'
  outer_calm {t p p' S m m'} (hp : crit p = false) (hc : .run m' p' ∈ prog t p m) (h : Calm S m) : Calm S m'
  outer_at {t p p' u q S m m'} (hp : crit p = false) (hc : .run m' p' ∈ prog t p m) (hq : crit q = true)
    (hu : u ≠ t) (h : At u q S m) : At u q S m'
  alarm {t p p' m} (hc : .signal p' ∈ prog t p m ∨ .broadcast p' ∈ prog t p m) : crit p = true
  signal {t p p' S S' m} (hc : .signal p' ∈ prog t p m) (h : At t p S m) (hS : ∀ u, S' u → S u) (ht : ¬ S t)
    (hw : (∃ u, S u) → ∃ u, S u ∧ ¬ S' u) : At t p' S' m
  broadcast {t p p' S S' m} (hc : .broadcast p' ∈ prog t p m) (h : At t p S m) (hS : ∀ u, ¬ S' u) : At t p' S' m
  leave {t p p' S m} (hc : .unlock p' ∈ prog t p m) (h : At t p S m) : Calm S m
  wait {t p p' S m} (hc : .wait p' ∈ prog t p m) (h : At t p S m) (ht : ¬ S t) : Calm (fun u => S u ∨ u = t) m

structure Holds (crit : P → Bool) (Calm : (T → Prop) → M → Prop) (At : T → P → (T → Prop) → M → Prop)
    (s : State T P M) : Prop where
  calm (h : s.owner = none) : Calm (Sleeps s.ctl) s.mem
  holder (t : T) (p : P) (ht : s.ctl t = .running p) (hp : crit p = true) : At t p (Sleeps s.ctl) s.mem

variable [DecidableEq T] {prog : Prog T P M} {crit : P → Bool} {Own : T → P → M → Prop}
  {Calm : (T → Prop) → M → Prop} {At : T → P → (T → Prop) → M → Prop} {s s' : State T P M} {e : Event T P}

theorem sleeps_running {c : T → Ctl P} {t : T} {p p' : P} (ht : c t = .running p ∨ c t = .woken p) (u : T) :
    Sleeps (Function.update c t (.running p')) u ↔ Sleeps c u := by
  by_cases hu : u = t
  · subst hu
    rcases ht with ht | ht <;> simp [Sleeps, ht]
  · simp [Sleeps, hu]

theorem Step.holds (hd : Disciplined prog crit) (hr : Rule prog crit Own Calm At) (hl : Locked prog crit s)
    (ho : ∀ t, Own t (s.pc t) s.mem) (hs : Holds crit Calm At s) (h : Step prog s e s') : Holds crit Calm At s' := by
  have hl' := h.locked hd hl
  have hawake {c : T → Ctl P} {t : T} {p : P} (ht : c t = .running p) : ¬ Sleeps c t := by
    rintro ⟨q, hq⟩
    rw [ht] at hq
    cases hq
  have hself {c : T → Ctl P} {t : T} {x : Ctl P} : Function.update c t x t = x := Function.update_self ..
  -- the holder after the step is the thread that moved, as nobody else runs at a critical point
  have hmoved {t : T} {p' : P} (hown : s'.owner = some t) (ht : s'.ctl t = .running p') (hp' : crit p' = true)
      (h : At t p' (Sleeps s'.ctl) s'.mem) : Holds crit Calm At s' := by
    refine ⟨fun hfree => ?_, fun u q hu hq => ?_⟩
    · rw [hown] at hfree
      cases hfree
    · have hut := hl'.unique hu hq ht hp'
      subst hut
      rw [ht] at hu
      cases hu
      exact h
  have hfree (hnone : s'.owner = none) (h : Calm (Sleeps s'.ctl) s'.mem) : Holds crit Calm At s' := by
    refine ⟨fun _ => h, fun u q hu hq => ?_⟩
    have := (hl'.owner u).mpr ⟨q, hu, hq⟩
    rw [hnone] at this
    cases this
  have hset {c : T → Ctl P} {t : T} {p : P} (p' : P) (ht : c t = .running p ∨ c t = .woken p) :
      Sleeps (Function.update c t (.running p')) = Sleeps c :=
    funext (fun u => propext (sleeps_running ht u))
  cases h with
  | run o c m t p m' p' ht hc =>
      have hk : crit p' = crit p := hd t p m _ hc
      have hpc : State.pc ⟨o, c, m⟩ t = p := by simp [State.pc, ht, Ctl.pc]
      cases hp : crit p with
      | true =>
          apply hmoved ((hl.owner t).mpr ⟨p, ht, hp⟩) hself (hk.trans hp)
          exact hset p' (.inl ht) ▸ hr.inner hp hc (hpc ▸ ho t) (hawake ht) (hs.holder t p ht hp)
      | false =>
          refine ⟨fun h => hset p' (.inl ht) ▸ hr.outer_calm hp hc (hs.calm h), fun u q hu hq => ?_⟩
          have hut : u ≠ t := by
            rintro rfl
            have hq' : p' = q := Ctl.running.inj (hself.symm.trans hu)
            rw [← hq', hk, hp] at hq
            cases hq
          simp only [Function.update_of_ne hut] at hu
          exact hset p' (.inl ht) ▸ hr.outer_at hp hc hq hut (hs.holder u q hu hq)
  | lock c m t p p' ht hc =>
      have hpc : State.pc ⟨none, c, m⟩ t = p := by simp [State.pc, ht, Ctl.pc]
      apply hmoved rfl hself (hd t p m _ hc).2
      exact hset p' (.inl ht) ▸ hr.enter hc (hpc ▸ ho t) (hs.calm rfl)
  | unlock c m t p p' ht hc =>
      exact hfree rfl (hset p' (.inl ht) ▸ hr.leave hc (hs.holder t p ht (hd t p m _ hc).1))
  | wait c m t p p' ht hc =>
      apply hfree rfl
      apply hr.calm_mono (hr.wait hc (hs.holder t p ht (hd t p m _ hc).1) (hawake ht))
      rintro u ⟨q, hq⟩
      by_cases hut : u = t
      · exact .inr hut
      · exact .inl ⟨q, by simpa only [Function.update_of_ne hut] using hq⟩
  | signal o c m t p p' W ht hc hW =>
      have hp : crit p = true := hr.alarm (.inl hc)
      have hk : crit p' = crit p := hd t p m _ hc
      apply hmoved ((hl.owner t).mpr ⟨p, ht, hp⟩) hself (hk.trans hp)
      have hw : Sleeps (Function.update (wake W c) t (.running p')) = Sleeps (wake W c) :=
        hset p' (.inl (wake_running.mpr ht))
      apply hr.signal hc (hs.holder t p ht hp)
      · rintro u hu
        obtain ⟨q, hq⟩ := congrFun hw u ▸ hu
        exact ⟨q, (wake_asleep.mp hq).2⟩
      · exact hawake ht
      · rintro ⟨u, q, hu⟩
        obtain ⟨v, r, hv, hcv⟩ := hW ⟨u, q, hu⟩
        refine ⟨v, ⟨r, hcv⟩, fun hv' => ?_⟩
        obtain ⟨r', hr'⟩ := congrFun hw v ▸ hv'
        have := (wake_asleep.mp hr').1
        rw [hv] at this
        cases this
  | broadcast o c m t p p' ht hc =>
      have hp : crit p = true := hr.alarm (.inr hc)
      have hk : crit p' = crit p := hd t p m _ hc
      apply hmoved ((hl.owner t).mpr ⟨p, ht, hp⟩) hself (hk.trans hp)
      apply hr.broadcast hc (hs.holder t p ht hp)
      intro u hu
      obtain ⟨q, hq⟩ := congrFun (hset p' (.inl (wake_running.mpr ht))) u ▸ hu
      cases (wake_asleep.mp hq).1
  | resume c m t p ht =>
      have hpc : State.pc ⟨none, c, m⟩ t = p := by simp [State.pc, ht, Ctl.pc]
      obtain ⟨q, m', hw⟩ := hl.parked t p (.inr ht)
      apply hmoved rfl hself (hl.parked_crit hd (.inr ht))
      exact hset p (.inr ht) ▸ hr.resume hw (hpc ▸ ho t) (hs.calm rfl)
  | spurious o c m t p ht =>
      have hsub (u : T) (hu : Sleeps (Function.update c t (.woken p)) u) : Sleeps c u := by
        obtain ⟨q, hq⟩ := hu
        by_cases hut : u = t
        · subst hut; simp at hq
        · exact ⟨q, by simpa only [Function.update_of_ne hut] using hq⟩
      refine ⟨fun h => hr.calm_mono (hs.calm h) hsub, fun u q hu hq => ?_⟩
      have hut : u ≠ t := by
        rintro rfl
        simp at hu
      simp only [Function.update_of_ne hut] at hu
      exact hr.at_mono hq (hs.holder u q hu hq) hsub

theorem run_holds {p₀ : T → P} {m₀ : M} {es : List (Event T P)} (hd : Disciplined prog crit)
    (hr : Rule prog crit Own Calm At) (h₀ : ∀ t, crit (p₀ t) = false) (hcalm : Calm (fun _ => False) m₀)
    (ho : ∀ es s, Run (Step prog) (start p₀ m₀) es s → ∀ t, Own t (s.pc t) s.mem)
    (h : Run (Step prog) (start p₀ m₀) es s) : Holds crit Calm At s := by
  have hstart : Sleeps (start p₀ m₀).ctl = fun _ => False := by
    funext t
    simp [Sleeps, start]
  apply h.invariant (I := fun _ s => Holds crit Calm At s)
  · refine ⟨fun _ => hstart ▸ hcalm, fun t p ht hp => ?_⟩
    have hp' : p₀ t = p := Ctl.running.inj ht
    rw [← hp', h₀ t] at hp
    cases hp
  · intro ls l s s' hrun hs hl
    exact Step.holds hd hr (run_locked hd h₀ hrun) (ho ls s hrun) hs hl

end UnixProg.Lib.MonitorRule

import UnixProg.Pthreads.BarrierFixedProgress

namespace UnixProg.Pthreads.BarrierFixedRounds

open Lib Transition Monitor BarrierOutput ImplementBarrierFixed BarrierFixedSteps

variable {max : Nat} {s s' : State (Fin max) Pc (Mem max)} {es : List (Event (Fin max) Pc)}
  {e : Event (Fin max) Pc} {t : Fin max} {p : Pc} {c : Cmd Pc (Mem max)}

/-- The output so far against the rounds: a newline is printed just before the
reset that it announces. -/
structure Printed (es : List (Event (Fin max) Pc)) (s : State (Fin max) Pc (Mem max)) : Prop where
  ids (t : Fin max) : prints s.mem.out t = left es t + if s.pc t = .print then 0 else 1
  closed (h : ∀ t, s.pc t ≠ .setWoken) : newlines s.mem.out = resets es
  announced (t : Fin max) (h : s.pc t = .setWoken) : newlines s.mem.out = resets es + 1
  aligned : Aligned s.mem.out

theorem initial_printed (max : Nat) : Printed [] (initial max) := by
  have hpc (t : Fin max) : (initial max).pc t = .print := rfl
  constructor
  · intro t
    rw [hpc]
    simp [left, execs, prints, initial, start]
  · intro _
    simp [resets, execs, newlines, initial, start]
  · intro t h
    rw [hpc] at h
    cases h
  · exact aligned_nil

def printed (t : Fin max) : Pc → List (Token (Fin max))
  | .print => [.id t]
  | .newline => [.newline]
  | _ => []

theorem mem_out {m : Mem max} (hc : c ∈ thread max t p m) : (c.mem m).out = m.out ++ printed t p := by
  cases does hc with
  | print | newline => rfl
  | _ => exact (List.append_nil _).symm

theorem mem_next {m : Mem max} (hc : c ∈ thread max t p m) :
    (c.next = .setWoken ↔ p = .newline) ∧ (c.next = .print ↔ p = .unlock) := by
  cases does hc <;> simp [Cmd.next]

theorem printed_step (hl : Locked (thread max) crit s) (hi : Inv es s) (ho : Printed es s)
    (h : Step (thread max) s e s') : Printed (es ++ [e]) s' := by
  rcases h.view with ⟨he, hpc, hm⟩ | ⟨t, p, c, ht, hc, rfl, hpc, hm, _⟩
  · have hf (u : Fin max) : left (es ++ [e]) u = left es u := execs_idle he u .unlock
    have hr : resets (es ++ [e]) = resets es := Finset.sum_congr rfl (fun u _ => execs_idle he u .setWoken)
    constructor
    · simpa only [hm, hf, hpc] using ho.ids
    · simpa only [hm, hr, hpc] using ho.closed
    · simpa only [hm, hr, hpc] using ho.announced
    · exact hm ▸ ho.aligned
  · have hpt : s.pc t = p := by simp [State.pc, ht, Ctl.pc]
    have hother {u : Fin max} (hu : u ≠ t) : s'.pc u = s.pc u := by rw [hpc, Function.update_of_ne hu]
    have hself : s'.pc t = c.next := by rw [hpc, Function.update_self]
    have hout : s'.mem.out = s.mem.out ++ printed t p := by rw [hm, mem_out hc]
    have hnl : newlines s'.mem.out = newlines s.mem.out + if p = .newline then 1 else 0 := by
      cases p <;> simp [hout, newlines, printed]
    have halone (hp : crit p = true) {u : Fin max} (hu : s.pc u = .setWoken) : u = t :=
      held_unique hl ht hp (by rw [hu]; rfl) (by rw [hu]; rfl)
    constructor
    · intro u
      have hids := ho.ids u
      have hprints : prints s'.mem.out u = prints s.mem.out u + if t = u ∧ p = .print then 1 else 0 := by
        cases p <;> simp [hout, prints, printed, List.count_singleton]
      rw [hprints, left_exec, hids]
      by_cases hu : u = t
      · subst hu
        have hnext := (mem_next hc).2
        by_cases hp : p = .unlock
        · subst hp
          simp [hself, hpt, hnext.mpr rfl]
        · have hq : c.next ≠ .print := fun hq => hp (hnext.mp hq)
          by_cases hpr : p = .print <;> simp [hself, hpt, hq, hp, hpr]
      · simp [hother hu, Ne.symm hu]
    · intro hno
      have hp : p ≠ .newline := fun hp => hno t (by rw [hself]; exact (mem_next hc).1.mpr hp)
      rw [hnl, resets_exec, if_neg hp]
      by_cases hq : p = .setWoken
      · subst hq
        rw [ho.announced t hpt]
        rfl
      · rw [if_neg hq, ho.closed]
        intro u hu
        by_cases hut : u = t
        · subst hut
          exact hq (hpt.symm.trans hu)
        · exact hno u (by rw [hother hut, hu])
    · intro u hu
      rw [hnl, resets_exec]
      by_cases hut : u = t
      · subst hut
        have hp := (mem_next hc).1.mp (hself ▸ hu)
        subst hp
        have hclosed := ho.closed (fun v hv => by
          have hvt := halone rfl hv
          subst hvt
          rw [hpt] at hv
          cases hv)
        rw [hclosed]
        rfl
      · rw [hother hut] at hu
        have hp : crit p = false := by
          by_contra hp
          exact hut (halone (by simpa using hp) hu)
        rw [ho.announced u hu, if_neg (by rintro rfl; cases hp), if_neg (by rintro rfl; cases hp)]
    · rw [hout]
      cases p with
      | print => exact ho.aligned.snoc_id t
      | newline =>
          apply ho.aligned.snoc_newline
          intro u
          have hclosed := ho.closed (fun v hv => by
            have hvt := halone rfl hv
            subst hvt
            rw [hpt] at hv
            cases hv)
          obtain ⟨hu, hin⟩ := hi.left_of_complete (hi.complete t (.inl hpt) u)
          have hne : s.pc u ≠ .print := by
            intro hp
            rw [hp] at hin
            cases hin
          rw [ho.ids u, hclosed, hu, if_neg hne]
      | lock | arrive | test | setWoken | broadcast | loopLast | loop | incWoken | testWoken | broadcastAll
      | loopWoken | unlock => simpa only [printed, List.append_nil] using ho.aligned

theorem run_printed (h : Run (Step (thread max)) (initial max) es s) : Printed es s :=
  h.invariant (I := Printed) (initial_printed max) (fun _ _ _ _ hr ho hl => by
    obtain ⟨hlock, hi⟩ := run_inv hr
    exact printed_step hlock hi ho hl)

/-- Nobody leaves a round before everybody has arrived at it, and each line of
the output shows every thread once. -/
theorem round_agreement (max : Nat) (es : List (Event (Fin max) Pc)) (s : State (Fin max) Pc (Mem max))
    (h : Run (Step (thread max)) (initial max) es s) :
    (∀ r t, r ≤ left es t → ∀ u, r ≤ arrived es u) ∧
    (∀ t u, left es t ≤ left es u + 1) ∧
    ∀ pre mid post, s.mem.out = pre ++ .newline :: (mid ++ .newline :: post) → .newline ∉ mid →
      ∀ t, mid.count (.id t) = 1 := by
  obtain ⟨evs, hb⟩ := run_refines h
  have hsound := Barrier.run_sound hb
  refine ⟨fun r t hr u => hr.trans (hsound.agree t u), hsound.left_close, ?_⟩
  intro pre mid post ho hmid
  exact (run_printed h).aligned.line ho hmid

theorem round_agreement_two : ∃ es s, Run (Step (thread 2)) (initial 2) es s ∧ (∀ t, 1 ≤ left es t) ∧
    (∀ r t, r ≤ left es t → ∀ u, r ≤ arrived es u) ∧
    (∀ t u, left es t ≤ left es u + 1) ∧
    ∀ pre mid post, s.mem.out = pre ++ .newline :: (mid ++ .newline :: post) → .newline ∉ mid →
      ∀ t, mid.count (.id t) = 1 := by
  obtain ⟨es, s, hr, hleft⟩ :=
    BarrierFixedProgress.exists_round (by decide) (.nil : Run (Step (thread 2)) (initial 2) [] _)
  exact ⟨es, s, hr.unguard, hleft, round_agreement 2 es s hr.unguard⟩

end UnixProg.Pthreads.BarrierFixedRounds

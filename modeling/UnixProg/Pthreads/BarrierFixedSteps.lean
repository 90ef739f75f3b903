import UnixProg.Pthreads.ImplementBarrierFixed

namespace UnixProg.Pthreads.BarrierFixedSteps

open Lib Transition ThreadSum Monitor BarrierOutput ImplementBarrierFixed

variable {max : Nat} {s s' : State (Fin max) Pc (Mem max)} {es : List (Event (Fin max) Pc)}
  {e : Event (Fin max) Pc} {t : Fin max} {p : Pc}

theorem arrived_exec (u : Fin max) :
    arrived (es ++ [.exec t p]) u = arrived es u + if t = u ∧ p = .arrive then 1 else 0 := execs_exec es t u p .arrive

theorem left_exec (u : Fin max) :
    left (es ++ [.exec t p]) u = left es u + if t = u ∧ p = .unlock then 1 else 0 := execs_exec es t u p .unlock

theorem resets_exec : resets (es ++ [.exec t p]) = resets es + if p = .setWoken then 1 else 0 := by
  by_cases hp : p = .setWoken <;> simp [resets, execs_exec, Finset.sum_add_distrib, hp]

theorem admits (hi : Inv es s) : Rounds.Admits .arrive .unlock es s := by
  constructor
  · intro t ht
    have hb := hi.balance t
    rw [show s.pc t = .arrive by simp [State.pc, ht, Ctl.pc]] at hb
    exact hb
  · intro t ht
    have hb := hi.balance t
    have hpc : s.pc t = .unlock := by simp [State.pc, ht, Ctl.pc]
    have hold := hi.counted t (by rw [hpc]; rfl) (by rw [hpc]; rfl)
    rw [hpc, show inside .unlock = true from rfl, if_pos rfl] at hb
    refine ⟨Nat.lt_of_succ_le hb.ge, fun u => ?_⟩
    change arrived es t ≤ arrived es u
    have hbu := hi.balance u
    rcases hi.round u with hr | ⟨hr, hin⟩
    · omega
    · rw [if_pos hin] at hbu
      omega

theorem inv_arrive (hl : Locked (thread max) crit s) (hi : Inv es s)
    (hsound : Barrier.Sound (Rounds.rounds .arrive .unlock (es ++ [.exec t .arrive]))) (ht : s.ctl t = .running .arrive)
    (hpc : s'.pc = Function.update s.pc t .test) (hbar : s'.mem.onBarrier = s.mem.onBarrier + 1)
    (hwok : s'.mem.wokenup = s.mem.wokenup) : Inv (es ++ [.exec t .arrive]) s' := by
  have hpt : s.pc t = .arrive := by simp [State.pc, ht, Ctl.pc]
  have hother {u : Fin max} (hu : u ≠ t) : s'.pc u = s.pc u := by rw [hpc, Function.update_of_ne hu]
  have hself : s'.pc t = .test := by rw [hpc, Function.update_self]
  have harr (u : Fin max) : arrived (es ++ [.exec t .arrive]) u = arrived es u + if t = u then 1 else 0 := by
    simp [arrived_exec]
  have hleft (u : Fin max) : left (es ++ [.exec t .arrive]) u = left es u := by simp [left_exec]
  have hres : resets (es ++ [.exec t .arrive]) = resets es := by simp [resets_exec]
  have hout : left es t = resets es := by
    rcases hi.round t with hr | ⟨_, hin⟩
    · exact hr
    · rw [hpt] at hin
      cases hin
  have halone {u : Fin max} (hu : starting (s.pc u) = true) : False := by
    have hut := held_unique hl ht rfl (starting_held hu).1 (starting_held hu).2
    rw [hut, hpt] at hu
    cases hu
  refine ⟨hsound, ?_, fun u => ?_, fun u => ?_, fun u h h' => ?_, fun u h => ?_, fun u h => ?_, fun u h => ?_,
    fun _ _ => ⟨t, by rw [hself]; rfl⟩, fun h => ?_, fun u h v h' => ?_, fun u h => ?_⟩
  · rw [hbar, hi.total]
    simp [harr, Finset.sum_add_distrib]
  · have hb := hi.balance u
    rw [harr, hleft]
    by_cases hu : u = t
    · subst hu
      rw [hpt] at hb
      rw [hself, hb]
      simp [inside]
    · rw [hother hu, if_neg (Ne.symm hu)]
      exact hb
  · rw [hleft, hres]
    by_cases hu : u = t
    · exact .inl (hu ▸ hout)
    · rw [hother hu]
      exact hi.round u
  · rw [hleft, hres]
    by_cases hu : u = t
    · subst hu
      rw [hself] at h'
      cases h'
    · rw [hother hu] at h h'
      exact hi.counted u h h'
  · rw [hleft, hres]
    by_cases hu : u = t
    · exact hu ▸ hout
    · rw [hother hu] at h
      exact hi.fresh u h
  · rw [hleft, hres]
    by_cases hu : u = t
    · subst hu
      rw [hself] at h
      cases h
    · rw [hother hu] at h
      exact hi.woken u h
  · exfalso
    by_cases hu : u = t
    · subst hu
      rw [hself] at h
      rcases h with h | h <;> cases h
    · rw [hother hu] at h
      apply halone (u := u)
      rcases h with h | h <;> rw [h] <;> rfl
  · rw [hres] at h
    have hsum : ∑ u, owed (es ++ [.exec t .arrive]) s' u = ∑ u, owed es s u := by
      apply Finset.sum_congr rfl
      intro u _
      by_cases hu : u = t
      · subst hu
        simp [owed, hleft, hres, hout]
      · simp only [owed, hleft, hres, hother hu]
    rw [hwok, hsum]
    exact hi.tally h
  · rw [hleft, hres] at h h'
    by_cases hv : v = t
    · subst hv
      omega
    · rw [hother hv]
      exact hi.gate u h v h'
  · rw [hwok]
    by_cases hu : u = t
    · subst hu
      rw [hself] at h
      cases h
    · rw [hother hu] at h
      exact hi.full u h

theorem inv_setWoken (hl : Locked (thread max) crit s) (hi : Inv es s)
    (hsound : Barrier.Sound (Rounds.rounds .arrive .unlock (es ++ [.exec t .setWoken]))) (ht : s.ctl t = .running .setWoken)
    (hpc : s'.pc = Function.update s.pc t .broadcast) (hbar : s'.mem.onBarrier = s.mem.onBarrier)
    (hwok : s'.mem.wokenup = 1) : Inv (es ++ [.exec t .setWoken]) s' := by
  have hpt : s.pc t = .setWoken := by simp [State.pc, ht, Ctl.pc]
  have hother {u : Fin max} (hu : u ≠ t) : s'.pc u = s.pc u := by rw [hpc, Function.update_of_ne hu]
  have hself : s'.pc t = .broadcast := by rw [hpc, Function.update_self]
  have harr (u : Fin max) : arrived (es ++ [.exec t .setWoken]) u = arrived es u := by simp [arrived_exec]
  have hleft (u : Fin max) : left (es ++ [.exec t .setWoken]) u = left es u := by simp [left_exec]
  have hres : resets (es ++ [.exec t .setWoken]) = resets es + 1 := by simp [resets_exec]
  have hall (u : Fin max) : arrived es u = resets es + 1 := hi.complete t (.inr hpt) u
  have hold (u : Fin max) : left es u = resets es := (hi.left_of_complete (hall u)).1
  have hin (u : Fin max) : inside (s'.pc u) = true := by
    by_cases hu : u = t
    · rw [hu, hself]
      rfl
    · rw [hother hu]
      exact (hi.left_of_complete (hall u)).2
  have hpend {u : Fin max} (hu : u ≠ t) : pending (s'.pc u) = true := by
    rw [hother hu]
    by_contra hp
    have := hi.counted u (hi.left_of_complete (hall u)).2 (by simpa using hp)
    have := hold u
    omega
  have halone {u : Fin max} (h : starting (s'.pc u) = true) : False := by
    by_cases hu : u = t
    · rw [hu, hself] at h
      cases h
    · rw [hother hu] at h
      exact hu (held_unique hl ht rfl (starting_held h).1 (starting_held h).2)
  refine ⟨hsound, ?_, fun u => ?_, fun u => .inr ⟨?_, hin u⟩, fun u _ _ => ?_, fun u h => (halone h).elim,
    fun u _ => ?_, fun u h => ?_, fun h => ?_, fun _ => ?_, fun u h => ?_, fun u h => ?_⟩
  · simpa only [hbar, harr] using hi.total
  · rw [harr, hleft, hin u, if_pos rfl, hall u, hold u]
  · rw [hleft, hres, hold u]
  · rw [hleft, hres, hold u]
  · rw [hleft, hres, hold u]
  · exfalso
    apply halone (u := u)
    rcases h with h | h <;> rw [h] <;> rfl
  · have := h t
    rw [harr, hres, hall t] at this
    omega
  · have hterm (u : Fin max) : owed (es ++ [.exec t .setWoken]) s' u = if u = t then 0 else 1 := by
      by_cases hu : u = t
      · subst hu
        simp [owed, hself, pending]
      · simp [owed, hleft, hres, hold u, hpend hu, hu]
    have hsum := sum_of_agree (f := owed (es ++ [.exec t .setWoken]) s') (g := fun _ => 1) t
      (fun u hu => by rw [hterm, if_neg hu])
    rw [hterm t, if_pos rfl, sum_const_eq (b := 1) (fun _ => rfl), Fintype.card_fin] at hsum
    rw [hwok]
    omega
  · rw [hleft, hres, hold u] at h
    omega
  · exfalso
    by_cases hu : u = t
    · rw [hu, hself] at h
      cases h
    · rw [hother hu] at h
      exact hu (held_unique hl ht rfl (ready_held h).1 (ready_held h).2)

theorem inv_incWoken (hl : Locked (thread max) crit s) (hi : Inv es s)
    (hsound : Barrier.Sound (Rounds.rounds .arrive .unlock (es ++ [.exec t .incWoken]))) (ht : s.ctl t = .running .incWoken)
    (hpc : s'.pc = Function.update s.pc t .testWoken) (hbar : s'.mem.onBarrier = s.mem.onBarrier)
    (hwok : s'.mem.wokenup = s.mem.wokenup + 1) : Inv (es ++ [.exec t .incWoken]) s' := by
  have hpt : s.pc t = .incWoken := by simp [State.pc, ht, Ctl.pc]
  have hother {u : Fin max} (hu : u ≠ t) : s'.pc u = s.pc u := by rw [hpc, Function.update_of_ne hu]
  have hself : s'.pc t = .testWoken := by rw [hpc, Function.update_self]
  have harr (u : Fin max) : arrived (es ++ [.exec t .incWoken]) u = arrived es u := by simp [arrived_exec]
  have hleft (u : Fin max) : left (es ++ [.exec t .incWoken]) u = left es u := by simp [left_exec]
  have hres : resets (es ++ [.exec t .incWoken]) = resets es := by simp [resets_exec]
  have hold : left es t + 1 = resets es := hi.woken t hpt
  have halone {u : Fin max} (h : crit (s.pc u) = true) (h' : waiting (s.pc u) = false) : s.pc u = .incWoken := by
    rw [held_unique hl ht rfl h h', hpt]
  refine ⟨hsound, ?_, fun u => ?_, fun u => ?_, fun u h h' => ?_, fun u h => ?_, fun u h => ?_, fun u h v => ?_,
    fun h _ => ?_, fun h => ?_, fun u h v h' => ?_, fun u h => ?_⟩
  · simpa only [hbar, harr] using hi.total
  · have hb := hi.balance u
    rw [harr, hleft]
    by_cases hu : u = t
    · subst hu
      rw [hpt] at hb
      rw [hself, hb]
      rfl
    · rw [hother hu]
      exact hb
  · rw [hleft, hres]
    by_cases hu : u = t
    · subst hu
      exact .inr ⟨hold, by rw [hself]; rfl⟩
    · rw [hother hu]
      exact hi.round u
  · rw [hleft, hres]
    by_cases hu : u = t
    · exact hu ▸ hold
    · rw [hother hu] at h h'
      exact hi.counted u h h'
  · rw [hleft, hres]
    by_cases hu : u = t
    · subst hu
      rw [hself] at h
      cases h
    · rw [hother hu] at h
      exact hi.fresh u h
  · rw [hleft, hres]
    by_cases hu : u = t
    · exact hu ▸ hold
    · rw [hother hu] at h
      exact hi.woken u h
  · rw [harr, hres]
    by_cases hu : u = t
    · subst hu
      rw [hself] at h
      rcases h with h | h <;> cases h
    · rw [hother hu] at h
      exact hi.complete u h v
  · rw [hres] at h
    simp only [harr] at h
    have := (hi.left_of_complete (h t)).1
    omega
  · rw [hres] at h
    have hsum := sum_of_agree (f := owed (es ++ [.exec t .incWoken]) s') (g := owed es s) t
      (fun u hu => by simp only [owed, hleft, hres, hother hu])
    have hnew : owed (es ++ [.exec t .incWoken]) s' t = 0 := by simp [owed, hself, pending]
    have hwas : owed es s t = 1 := by simp [owed, hpt, pending, hold]
    have := hi.tally h
    omega
  · rw [hleft, hres] at h h'
    by_cases hv : v = t
    · rw [hv, hself]
      rfl
    · rw [hother hv]
      exact hi.gate u h v h'
  · exfalso
    by_cases hu : u = t
    · rw [hu, hself] at h
      cases h
    · rw [hother hu] at h
      rw [halone (ready_held h).1 (ready_held h).2] at h
      cases h

theorem inv_unlock (hi : Inv es s)
    (hsound : Barrier.Sound (Rounds.rounds .arrive .unlock (es ++ [.exec t .unlock]))) (ht : s.ctl t = .running .unlock)
    (hpc : s'.pc = Function.update s.pc t .print) (hbar : s'.mem.onBarrier = s.mem.onBarrier)
    (hwok : s'.mem.wokenup = s.mem.wokenup) : Inv (es ++ [.exec t .unlock]) s' := by
  have hpt : s.pc t = .unlock := by simp [State.pc, ht, Ctl.pc]
  have hother {u : Fin max} (hu : u ≠ t) : s'.pc u = s.pc u := by rw [hpc, Function.update_of_ne hu]
  have hself : s'.pc t = .print := by rw [hpc, Function.update_self]
  have harr (u : Fin max) : arrived (es ++ [.exec t .unlock]) u = arrived es u := by simp [arrived_exec]
  have hleft {u : Fin max} (hu : u ≠ t) : left (es ++ [.exec t .unlock]) u = left es u := by
    simp [left_exec, Ne.symm hu]
  have hres : resets (es ++ [.exec t .unlock]) = resets es := by simp [resets_exec]
  have hold : left es t + 1 = resets es := hi.counted t (by rw [hpt]; rfl) (by rw [hpt]; rfl)
  have hnew : left (es ++ [.exec t .unlock]) t = resets es := by simp [left_exec, hold]
  -- the counter is full when a thread leaves, so nobody is pending in the old round
  have hgate (u : Fin max) (hu : left es u + 1 = resets es) : pending (s.pc u) = false := by
    have htally := hi.tally (hold ▸ Nat.le_add_left 1 _)
    rw [hi.full t (by rw [hpt]; rfl)] at htally
    have hzero : owed es s u = 0 := Finset.sum_eq_zero_iff.mp (by omega) u (Finset.mem_univ u)
    by_contra hp
    simp [owed, hu, hp] at hzero
  refine ⟨hsound, ?_, fun u => ?_, fun u => ?_, fun u h h' => ?_, fun u h => ?_, fun u h => ?_, fun u h v => ?_,
    fun h _ => ?_, fun h => ?_, fun u h v h' => ?_, fun u h => ?_⟩
  · simpa only [hbar, harr] using hi.total
  · have hb := hi.balance u
    rw [harr]
    by_cases hu : u = t
    · subst hu
      rw [hpt] at hb
      rw [hself, hnew, hb, ← hold]
      rfl
    · rw [hother hu, hleft hu]
      exact hb
  · rw [hres]
    by_cases hu : u = t
    · exact .inl (hu ▸ hnew)
    · rw [hother hu, hleft hu]
      exact hi.round u
  · rw [hres]
    by_cases hu : u = t
    · subst hu
      rw [hself] at h
      cases h
    · rw [hother hu] at h h'
      rw [hleft hu]
      exact hi.counted u h h'
  · rw [hres]
    by_cases hu : u = t
    · exact hu ▸ hnew
    · rw [hother hu] at h
      rw [hleft hu]
      exact hi.fresh u h
  · rw [hres]
    by_cases hu : u = t
    · subst hu
      rw [hself] at h
      cases h
    · rw [hother hu] at h
      rw [hleft hu]
      exact hi.woken u h
  · rw [harr, hres]
    by_cases hu : u = t
    · subst hu
      rw [hself] at h
      rcases h with h | h <;> cases h
    · rw [hother hu] at h
      exact hi.complete u h v
  · rw [hres] at h
    simp only [harr] at h
    have := (hi.left_of_complete (h t)).1
    omega
  · rw [hres] at h
    have hterm (u : Fin max) : owed (es ++ [.exec t .unlock]) s' u = owed es s u := by
      by_cases hu : u = t
      · subst hu
        simp [owed, hself, hpt, pending]
      · simp only [owed, hleft hu, hres, hother hu]
    rw [hwok, Finset.sum_congr rfl (fun u _ => hterm u)]
    exact hi.tally h
  · rw [hres] at h'
    by_cases hv : v = t
    · rw [hv, hself]
      rfl
    · rw [hother hv]
      rw [hleft hv] at h'
      exact hgate v h'
  · rw [hwok]
    by_cases hu : u = t
    · subst hu
      rw [hself] at h
      cases h
    · rw [hother hu] at h
      exact hi.full u h

theorem inv_step (hl : Locked (thread max) crit s) (hi : Inv es s) (h : Step (thread max) s e s') :
    Inv (es ++ [e]) s' := by
  have hsound := Rounds.Step.sound (by simp) (admits hi) hi.sound h
  rcases h.view with ⟨he, hpc, hm⟩ | ⟨t, p, c, ht, hc, rfl, hpc, hm, _⟩
  · have ha : arrived (es ++ [e]) = arrived es := funext (fun u => execs_idle he u .arrive)
    have hf : left (es ++ [e]) = left es := funext (fun u => execs_idle he u .unlock)
    have hr : resets (es ++ [e]) = resets es := Finset.sum_congr rfl (fun u _ => execs_idle he u .setWoken)
    have ho : owed (es ++ [e]) s' = owed es s := by
      funext u
      simp only [owed, hf, hr, hpc]
    refine ⟨hsound, ?_, ?_, ?_, ?_, ?_, ?_, ?_, ?_, ?_, ?_, ?_⟩
    · simpa only [hm, ha] using hi.total
    · simpa only [hpc, ha, hf] using hi.balance
    · simpa only [hpc, hf, hr] using hi.round
    · simpa only [hpc, hf, hr] using hi.counted
    · simpa only [hpc, hf, hr] using hi.fresh
    · simpa only [hpc, hf, hr] using hi.woken
    · simpa only [hpc, ha, hr] using hi.complete
    · simpa only [hpc, ha, hr] using hi.last
    · simpa only [hm, ho, hr] using hi.tally
    · simpa only [hpc, hf, hr] using hi.gate
    · simpa only [hpc, hm] using hi.full
  · have hpt : s.pc t = p := by simp [State.pc, ht, Ctl.pc]
    have ha (hp : p ≠ .arrive) : arrived (es ++ [.exec t p]) = arrived es := funext (fun u => by simp [arrived_exec, hp])
    have hf (hp : p ≠ .unlock) : left (es ++ [.exec t p]) = left es := funext (fun u => by simp [left_exec, hp])
    have hr (hp : p ≠ .setWoken) : resets (es ++ [.exec t p]) = resets es := by simp [resets_exec, hp]
    cases does hc with
    | arrive => exact inv_arrive hl hi hsound ht hpc (by rw [hm]; rfl) (by rw [hm]; rfl)
    | setWoken => exact inv_setWoken hl hi hsound ht hpc (by rw [hm]; rfl) (by rw [hm]; rfl)
    | incWoken => exact inv_incWoken hl hi hsound ht hpc (by rw [hm]; rfl) (by rw [hm]; rfl)
    | unlock => exact inv_unlock hi hsound ht hpc (by rw [hm]; rfl) (by rw [hm]; rfl)
    | print | lock | broadcast | wait | waitLast | someWoken | waitWoken =>
        exact hi.move hpt hpc (ha (by simp)) (hf (by simp)) (hr (by simp)) (by rw [hm]; rfl) (by rw [hm]; rfl)
          rfl rfl (by simp [Cmd.next, starting]) (by simp [Cmd.next]) (by simp [Cmd.next]) (by simp [starting])
          (by simp [Cmd.next, ready])
    | last hmod =>
        have hfresh := hi.fresh t (by rw [hpt]; rfl)
        refine hi.move hpt hpc (ha (by simp)) (hf (by simp)) (hr (by simp)) (by rw [hm]; rfl) (by rw [hm]; rfl)
          rfl rfl (fun _ => rfl) (by simp [Cmd.next]) (fun _ u => ?_) (fun _ _ => rfl) (by simp [Cmd.next, ready])
        have hb := hi.balance t
        rw [hpt, hfresh] at hb
        rw [hi.mod_eq_zero_iff.mp hmod u t, hb]
        rfl
    | early hmod =>
        refine hi.move hpt hpc (ha (by simp)) (hf (by simp)) (hr (by simp)) (by rw [hm]; rfl) (by rw [hm]; rfl)
          rfl rfl (by simp [Cmd.next, starting]) (by simp [Cmd.next]) (by simp [Cmd.next]) (fun hall _ => ?_)
          (by simp [Cmd.next, ready])
        exact absurd (hi.mod_eq_zero_iff.mpr (fun u v => by rw [hall u, hall v])) hmod
    | newline =>
        exact hi.move hpt hpc (ha (by simp)) (hf (by simp)) (hr (by simp)) (by rw [hm]; rfl) (by rw [hm]; rfl)
          rfl rfl (fun _ => rfl) (by simp [Cmd.next]) (fun _ => hi.complete t (.inl hpt)) (fun _ _ => rfl)
          (by simp [Cmd.next, ready])
    | pass hmod =>
        exact hi.move hpt hpc (ha (by simp)) (hf (by simp)) (hr (by simp)) (by rw [hm]; rfl) (by rw [hm]; rfl)
          rfl rfl (by simp [Cmd.next, starting]) (fun _ => hi.pass_loop hl ht hmod) (by simp [Cmd.next])
          (by simp [starting]) (by simp [Cmd.next, ready])
    | allWoken hfull =>
        exact hi.move hpt hpc (ha (by simp)) (hf (by simp)) (hr (by simp)) (by rw [hm]; rfl) (by rw [hm]; rfl)
          rfl rfl (by simp [Cmd.next, starting]) (by simp [Cmd.next]) (by simp [Cmd.next]) (by simp [starting])
          (fun _ => hfull)
    | broadcastAll =>
        exact hi.move hpt hpc (ha (by simp)) (hf (by simp)) (hr (by simp)) (by rw [hm]; rfl) (by rw [hm]; rfl)
          rfl rfl (by simp [Cmd.next, starting]) (by simp [Cmd.next]) (by simp [Cmd.next]) (by simp [starting])
          (fun _ => hi.full t (by rw [hpt]; rfl))
    | passLast hfull | passWoken hfull =>
        have hle := hi.wokenup_le (t := t) (by rw [hpt]; rfl) (by rw [hpt]; rfl)
        exact hi.move hpt hpc (ha (by simp)) (hf (by simp)) (hr (by simp)) (by rw [hm]; rfl) (by rw [hm]; rfl)
          rfl rfl (by simp [Cmd.next, starting]) (by simp [Cmd.next]) (by simp [Cmd.next]) (by simp [starting])
          (fun _ => by omega)

theorem run_inv (h : Run (Step (thread max)) (initial max) es s) : Locked (thread max) crit s ∧ Inv es s :=
  h.invariant (I := fun es s => Locked (thread max) crit s ∧ Inv es s)
    ⟨start_locked (fun _ => rfl) _, initial_inv max⟩
    (fun _ _ _ _ _ hi hl => ⟨hl.locked (thread_disciplined max) hi.1, inv_step hi.1 hi.2 hl⟩)

/-- Every run of the program, seen through its arrivals and departures, is a
run of a barrier. -/
theorem run_refines (h : Run (Step (thread max)) (initial max) es s) :
    ∃ evs, Run Barrier.Step Barrier.start evs (Rounds.rounds .arrive .unlock es) :=
  Rounds.run_refines (by simp) (fun _ _ hr => admits (run_inv hr).2) h

end UnixProg.Pthreads.BarrierFixedSteps

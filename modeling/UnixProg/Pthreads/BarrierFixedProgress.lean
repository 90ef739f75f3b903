import UnixProg.Pthreads.BarrierFixedSteps

namespace UnixProg.Pthreads.BarrierFixedProgress

open Lib Transition Monitor Wakeup BarrierOutput ImplementBarrierFixed BarrierFixedSteps

variable {max : Nat} {s s' : State (Fin max) Pc (Mem max)} {es : List (Event (Fin max) Pc)}
  {e : Event (Fin max) Pc} {t : Fin max} {p : Pc} {m : Mem max} {c : Cmd Pc (Mem max)}

def AllAsleep (s : State (Fin max) Pc (Mem max)) : Prop := ∀ t, ∃ p, s.ctl t = .asleep p

def blocked (p : Pc) (m : Mem max) : Prop :=
  p = .loop ∧ m.onBarrier % max ≠ 0 ∨ (p = .loopLast ∨ p = .loopWoken) ∧ m.wokenup < max

/-- The points from which a broadcast of either phase is on its way. -/
def owes : Pc → Mem max → Prop
  | .test, m => m.onBarrier % max = 0
  | .testWoken, m => m.wokenup = max
  | .newline, _ | .setWoken, _ | .broadcast, _ | .broadcastAll, _ => True
  | _, _ => False

theorem mem_counters (hc : c ∈ thread max t p m) :
    (c.mem m).onBarrier = m.onBarrier + (if p = .arrive then 1 else 0) ∧
    (c.mem m).wokenup = if p = .setWoken then 1 else m.wokenup + if p = .incWoken then 1 else 0 := by
  cases does hc <;> exact ⟨rfl, rfl⟩

theorem thread_alarmed (max : Nat) : Alarmed (thread max) crit blocked owes := by
  constructor
  · intro t p m p' hc
    obtain ⟨rfl, hb⟩ := wait_mem hc
    exact ⟨rfl, hb⟩
  · intro t p m m' p' q hc h h'
    obtain ⟨hbar, hwok⟩ := mem_counters hc
    simp only [Cmd.mem] at hbar hwok
    rcases h with ⟨rfl, hmod⟩ | ⟨hq, hlt⟩
    · have hmod' : m'.onBarrier % max = 0 := by
        by_contra hmod'
        exact h' (.inl ⟨rfl, hmod'⟩)
      have hp : p = .arrive := by
        by_contra hp
        rw [hbar, if_neg hp, Nat.add_zero] at hmod'
        exact hmod hmod'
      subst hp
      simp only [thread, List.mem_singleton, Cmd.run.injEq] at hc
      rw [hc.2]
      exact hmod'
    · have hge : max ≤ m'.wokenup := by
        by_contra hge
        exact h' (.inr ⟨hq, Nat.lt_of_not_le hge⟩)
      by_cases hset : p = .setWoken
      · subst hset
        simp only [thread, List.mem_singleton, Cmd.run.injEq] at hc
        rw [hc.2]
        trivial
      by_cases hinc : p = .incWoken
      · subst hinc
        simp only [thread, List.mem_singleton, Cmd.run.injEq] at hc
        rw [if_neg (by simp), if_pos rfl] at hwok
        rw [hc.2]
        exact Nat.le_antisymm (hwok ▸ hlt) hge
      · rw [hwok, if_neg hset, if_neg hinc] at hge
        omega
  · intro p m h
    cases p <;> first | rfl | cases h
  · intro t p m m' p' q hp hc h
    obtain ⟨hbar, hwok⟩ := mem_counters hc
    have harr : p ≠ .arrive := by rintro rfl; cases hp
    have hset : p ≠ .setWoken := by rintro rfl; cases hp
    have hinc : p ≠ .incWoken := by rintro rfl; cases hp
    simp only [Cmd.mem, if_neg harr, if_neg hset, if_neg hinc, Nat.add_zero] at hbar hwok
    cases q with
    | test => simpa only [owes, hbar] using h
    | testWoken => simpa only [owes, hwok] using h
    | newline | setWoken | broadcast | broadcastAll => trivial
    | print | lock | arrive | loopLast | loop | incWoken | loopWoken | unlock => exact h
  · intro t p m c h hc
    cases p with
    | test =>
        simp only [thread, show m.onBarrier % max = 0 from h, if_true, List.mem_singleton] at hc
        exact .inr ⟨_, _, hc, trivial⟩
    | testWoken =>
        simp only [thread, show m.wokenup = max from h, if_true, List.mem_singleton] at hc
        exact .inr ⟨_, _, hc, trivial⟩
    | newline | setWoken =>
        simp only [thread, List.mem_singleton] at hc
        exact .inr ⟨_, _, hc, trivial⟩
    | broadcast | broadcastAll =>
        simp only [thread, List.mem_singleton] at hc
        exact .inl ⟨_, hc⟩
    | print | lock | arrive | loopLast | loop | incWoken | loopWoken | unlock => exact h.elim

theorem pending_blocked {q : Pc} (h : blocked q m) (hp : pending q = true) : m.onBarrier % max ≠ 0 := by
  rcases h with ⟨_, hm⟩ | ⟨rfl | rfl, _⟩
  · exact hm
  · cases hp
  · cases hp

theorem counted_blocked {q : Pc} (h : blocked q m) (hp : pending q = false) : m.wokenup < max := by
  rcases h with ⟨rfl, _⟩ | ⟨_, hm⟩
  · cases hp
  · exact hm

theorem blocked_inside {q : Pc} (h : blocked q m) : inside q = true := by
  rcases h with ⟨rfl, _⟩ | ⟨rfl | rfl, _⟩ <;> rfl

/-- Sleepers of the first loop need a thread that is a round ahead, sleepers
of the second a thread that has yet to be counted, and not both can be. -/
theorem not_allAsleep (hmax : 0 < max) (h : Run (Step (thread max)) (initial max) es s) : ¬ AllAsleep s := by
  intro hs
  obtain ⟨hl, hi⟩ := run_inv h
  have hfree : s.owner = none := by
    by_contra ho
    obtain ⟨t, ht⟩ := Option.ne_none_iff_exists'.mp ho
    obtain ⟨p, hp, _⟩ := (hl.owner t).mp ht
    obtain ⟨q, hq⟩ := hs t
    rw [hp] at hq
    cases hq
  have hblocked (t : Fin max) : blocked (s.pc t) s.mem := by
    obtain ⟨q, hq⟩ := hs t
    have hb := run_blocked (thread_disciplined max) (thread_alarmed max) (fun _ => rfl) h hfree hq
    rwa [show s.pc t = q by simp [State.pc, hq, Ctl.pc]]
  have hin (t : Fin max) : inside (s.pc t) = true := blocked_inside (hblocked t)
  have harr (t : Fin max) : arrived es t = left es t + 1 := by rw [hi.balance t, if_pos (hin t)]
  have hmissing (t : Fin max) (ht : pending (s.pc t) = false) :
      ∃ u, left es u + 1 = resets es ∧ pending (s.pc u) = true := by
    have htally := hi.tally (hi.counted t (hin t) ht ▸ Nat.le_add_left 1 _)
    have hlt := counted_blocked (hblocked t) ht
    by_contra hno
    push Not at hno
    have hzero : ∑ u, owed es s u = 0 := Finset.sum_eq_zero (fun u _ => by simpa [owed] using hno u)
    omega
  have hahead (u : Fin max) (hu : pending (s.pc u) = true) :
      ∃ a b, left es a = resets es ∧ left es b + 1 = resets es := by
    have hmod := pending_blocked (hblocked u) hu
    by_contra hno
    push Not at hno
    apply hmod
    apply hi.mod_eq_zero_iff.mpr
    intro a b
    rw [harr a, harr b]
    have hab := hno a b
    have hba := hno b a
    rcases hi.round a with ha | ⟨ha, _⟩ <;> rcases hi.round b with hb | ⟨hb, _⟩ <;> omega
  have hpend (u : Fin max) (hu : pending (s.pc u) = true) : False := by
    obtain ⟨a, b, ha, hb⟩ := hahead u hu
    obtain ⟨v, hv, hvp⟩ := hmissing b (hi.gate a ha b hb)
    rw [hi.gate a ha v hv] at hvp
    cases hvp
  let t : Fin max := ⟨0, hmax⟩
  by_cases ht : pending (s.pc t) = true
  · exact hpend t ht
  · obtain ⟨u, _, hu⟩ := hmissing t (by simpa using ht)
    exact hpend u hu

def pos : Pc → Nat
  | .print => 0
  | .lock => 1
  | .arrive => 2
  | .test => 3
  | .newline | .loop => 4
  | .setWoken | .incWoken => 5
  | .broadcast | .testWoken => 6
  | .loopLast | .loopWoken | .broadcastAll => 7
  | .unlock => 8

/-- The stages of the code that a thread has gone through in all its rounds. -/
def stage (es : List (Event (Fin max) Pc)) (s : State (Fin max) Pc (Mem max)) (t : Fin max) : Nat :=
  9 * left es t + pos (s.pc t)

theorem mem_pos (hc : c ∈ thread max t p m) :
    pos p < pos c.next + (if p = .unlock then 9 else 0) ∨ c = .wait p := by
  cases does hc with
  | waitLast | wait | waitWoken => exact .inr rfl
  | _ => exact .inl (by simp [Cmd.next, pos])

theorem stage_le (es : List (Event (Fin max) Pc)) (s : State (Fin max) Pc (Mem max)) (t : Fin max) :
    stage es s t ≤ 9 * left es t + 8 := by
  have : pos (s.pc t) ≤ 8 := by cases s.pc t <;> simp [pos]
  simp only [stage]
  omega

theorem potential_step (h : Step (thread max) s e s') (he : e.genuine = true) :
    potential (stage es s) s < potential (stage (es ++ [e]) s') s' := by
  rcases h.view with ⟨hidle, hpc, _⟩ | ⟨t, p, c, ht, hc, rfl, hpc, _, hctl⟩
  · apply Wakeup.Step.potential_lt h he
    · intro u
      simp only [stage, left, execs_idle hidle, hpc, le_refl]
    · rintro t p q rfl
      simp [Event.genuine] at hidle
  · have hpt : s.pc t = p := by simp [State.pc, ht, Ctl.pc]
    have hself : stage (es ++ [.exec t p]) s' t = 9 * left es t + pos c.next + if p = .unlock then 9 else 0 := by
      simp only [stage, left_exec, hpc, Function.update_self, true_and]
      split <;> omega
    have hrest {u : Fin max} (hu : u ≠ t) : stage (es ++ [.exec t p]) s' u = stage es s u := by
      simp [stage, left_exec, hpc, hu, Ne.symm hu]
    apply Wakeup.Step.potential_lt h he
    · intro u
      by_cases hu : u = t
      · subst hu
        rw [hself]
        simp only [stage, hpt]
        rcases mem_pos hc with hlt | rfl
        · omega
        · exact Nat.le_add_right _ _
      · exact (hrest hu).ge
    · intro t' p' q heq hrun
      cases heq
      rcases mem_pos hc with hlt | rfl
      · rw [hself]
        simp only [stage, hpt]
        omega
      · rw [hctl] at hrun
        cases hrun

/-- While some thread has not completed another round, all stages are bounded,
and somebody is awake to go on. -/
theorem exists_round (hmax : 0 < max) (h : Run (Step (thread max)) (initial max) es s) :
    ∃ es' s', Run (Quiet (thread max)) s es' s' ∧ ∀ t, 1 ≤ left es' t := by
  have happend (ls : List (Event (Fin max) Pc)) (t : Fin max) : left (es ++ ls) t = left es t + left ls t :=
    execs_append es ls t .unlock
  obtain ⟨ls, s', hr, _, hg⟩ := exists_run_of_potential (Quiet (thread max))
    (fun ls s' => Run (Step (thread max)) (initial max) (es ++ ls) s') (fun ls _ => ∀ t, 1 ≤ left ls t)
    (fun ls s' => potential (stage (es ++ ls) s') s')
    ((2 * Fintype.card (Fin max) + 1) * (Fintype.card (Fin max) * (9 * (∑ t, left es t + 1) + 8)) +
      Fintype.card (Fin max) * 2)
    (by
      intro ls s₁ hr hg
      obtain ⟨hl, hi⟩ := run_inv hr
      push Not at hg
      obtain ⟨u, hu⟩ := hg
      constructor
      · apply potential_le
        intro t
        have hclose : left (es ++ ls) t ≤ left (es ++ ls) u + 1 := hi.sound.left_close t u
        have hself := happend ls u
        have hsum : left es u ≤ ∑ t, left es t := Finset.single_le_sum (fun _ _ => Nat.zero_le _) (Finset.mem_univ u)
        have := stage_le (es ++ ls) s₁ t
        omega
      · have hawake := not_allAsleep hmax hr
        simp only [AllAsleep, not_forall, not_exists] at hawake
        obtain ⟨t, ht⟩ := hawake
        obtain ⟨e, s₂, hs, he⟩ := hl.exists_step (thread_disciplined max) thread_total ht
        refine ⟨e, s₂, ⟨he, hs⟩, ?_, ?_⟩
        · rw [← List.append_assoc]
          exact .snoc hr hs
        · rw [← List.append_assoc]
          exact potential_step hs he)
    (by simpa using h)
  exact ⟨ls, s', hr, hg⟩

/-- Wherever a run has got to, all threads can complete another round without
any help by spurious wakeups. -/
theorem never_stuck (max : Nat) (hmax : 2 ≤ max) (es : List (Event (Fin max) Pc))
    (s : State (Fin max) Pc (Mem max)) (h : Run (Step (thread max)) (initial max) es s) :
    (∃ es' s', Run (Quiet (thread max)) s es' s' ∧ ∀ t, 1 ≤ left es' t) ∧ ¬ AllAsleep s :=
  ⟨exists_round (by omega) h, not_allAsleep (by omega) h⟩

theorem never_stuck_two : ∃ es s, Run (Step (thread 2)) (initial 2) es s ∧ (∀ t, 1 ≤ left es t) ∧
    (∃ es' s', Run (Quiet (thread 2)) s es' s' ∧ ∀ t, 1 ≤ left es' t) ∧ ¬ AllAsleep s := by
  obtain ⟨es, s, hr, hleft⟩ := exists_round (by decide) (.nil : Run (Step (thread 2)) (initial 2) [] _)
  exact ⟨es, s, hr.unguard, hleft, never_stuck 2 (by decide) es s hr.unguard⟩

end UnixProg.Pthreads.BarrierFixedProgress

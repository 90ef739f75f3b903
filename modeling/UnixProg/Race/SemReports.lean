import UnixProg.Race.SemFixedRace

namespace UnixProg.Race.SemReports

open Lib Transition Semaphore SharedBytes SemFixedRace

/-- The process may call `semop()` once more. -/
def semopToCome : Pc → Bool → Bool
  | .down, _ | .body _, _ | .up, _ => true
  | .loop, run | .count, run => run
  | .wait, _ | .hurt, _ | .stats, _ | .clean _, _ | .exit _, _ | .gone, _ => false

def childToCome (s : State Proc Pc Mem) : Bool := semopToCome (s.pc .child) (s.mem.run .child)

def blocked : Ctl Pc → Bool
  | .running _ => false
  | .blocked _ _ => true

/-- No SIGINT reaches the parent in `semop()` or `wait()` while the child may
call `semop()` once more. -/
def ChildFirst (s : State Proc Pc Mem) : Event Proc → Prop
  | .exec _ _ | .signal .child => True
  | .signal .parent => blocked (s.ctl .parent) = true → childToCome s = false

instance (s : State Proc Pc Mem) : ∀ e, Decidable (ChildFirst s e)
  | .exec _ _ | .signal .child => inferInstanceAs (Decidable True)
  | .signal .parent => inferInstanceAs (Decidable (blocked (s.ctl .parent) = true → childToCome s = false))

/-- Past the report of the process. -/
def reported : Pc → Bool
  | .clean _ | .exit _ | .gone => true
  | _ => false

def reports (t : Proc) (m : Mem) : Nat := m.printed.countP (fun l => l.1 = t)

/-- On the way to `cleanup()`, which removes the semaphore in the parent. -/
def closing : Pc → Bool
  | .hurt | .stats | .clean _ | .exit _ | .gone => true
  | _ => false

/-- Each process reports once, and the semaphore outlives its last use. -/
structure Told (s : State Proc Pc Mem) : Prop where
  once (t) : reports t s.mem = (reported (s.pc t)).toNat
  exited (t) (h : (s.mem.exited t).isSome = true) : s.pc t = .gone
  finished (h : closing (s.pc .parent) = true) : childToCome s = false
  removed (h : s.sem = none) : closing (s.pc .parent) = true

variable {s s' : State Proc Pc Mem} {t : Proc} {p : Pc} {e : Event Proc} {es : List (Event Proc)}

theorem Told.present (hs : Told s) (hp : s.pc t = .down ∨ s.pc t = .up) : s.sem ≠ none := by
  intro hnone
  have hclosing := hs.removed hnone
  cases t with
  | parent => obtain hp | hp := hp <;> rw [hp] at hclosing <;> cases hclosing
  | child =>
      have hfinished := hs.finished hclosing
      obtain hp | hp := hp <;> rw [childToCome, hp] at hfinished <;> cases hfinished

theorem Told.move (hs : Told s) (hpc : s'.pc = Function.update s.pc t p) (honce : reports t s'.mem = (reported p).toNat)
    (hothers : ∀ u, u ≠ t → reports u s'.mem = reports u s.mem ∧ s'.mem.exited u = s.mem.exited u)
    (hexited : (s'.mem.exited t).isSome = true → p = .gone) (hrun : s'.mem.run = s.mem.run)
    (hclosing : closing (s.pc t) = true → closing p = true)
    (hparent : t = .parent → closing p = true → childToCome s = false)
    (hchild : t = .child → semopToCome p (s.mem.run .child) = true → childToCome s = true)
    (hsem : s'.sem = none → s.sem = none ∨ t = .parent ∧ closing p = true) : Told s' := by
  have hself : s'.pc t = p := by rw [hpc, Function.update_self]
  have hother (u : Proc) (hu : u ≠ t) : s'.pc u = s.pc u := by rw [hpc, Function.update_of_ne hu]
  constructor
  · intro u
    by_cases hu : u = t
    · subst hu
      rw [hself]
      exact honce
    · rw [hother u hu, (hothers u hu).1]
      exact hs.once u
  · intro u
    by_cases hu : u = t
    · subst hu
      rw [hself]
      exact hexited
    · rw [hother u hu, (hothers u hu).2]
      exact hs.exited u
  · intro h
    cases t with
    | parent =>
        rw [hself] at h
        rw [childToCome, hother .child (by decide), hrun]
        exact hparent rfl h
    | child =>
        rw [hother .parent (by decide)] at h
        rw [childToCome, hself, hrun]
        have hfinished := hs.finished h
        by_contra hcome
        rw [hchild rfl (by simpa using hcome)] at hfinished
        cases hfinished
  · intro hnone
    obtain hnone | ⟨rfl, hp⟩ := hsem hnone
    · have hremoved := hs.removed hnone
      cases t with
      | parent =>
          rw [hself]
          exact hclosing hremoved
      | child =>
          rw [hother .parent (by decide)]
          exact hremoved
    · rw [hself]
      exact hp

/-- A step on the way to the report, which changes the bytes and the counts. -/
theorem Told.pass (hs : Told s) {b : Bytes} {i : Proc → Nat} (hpc : s'.pc = Function.update s.pc t p)
    (hm : { s.mem with bytes := b, i := i } = s'.mem) (hbefore : closing (s.pc t) = false)
    (hafter : reported p = false) (hparent : t = .parent → closing p = true → childToCome s = false)
    (hchild : t = .child → semopToCome p (s.mem.run .child) = true → childToCome s = true)
    (hsem : s'.sem = none → s.sem = none) : Told s' := by
  have hreports (u : Proc) : reports u s'.mem = reports u s.mem := by rw [← hm, reports, reports]
  have hexited : s'.mem.exited = s.mem.exited := by rw [← hm]
  have hnot : reported (s.pc t) = false := by cases hp : s.pc t <;> rw [hp] at hbefore <;> first | rfl | cases hbefore
  apply hs.move hpc
  · rw [hreports, hs.once, hnot, hafter]
  · exact fun u _ => ⟨hreports u, by rw [hexited]⟩
  · intro he
    rw [hexited] at he
    rw [hs.exited t he] at hbefore
    cases hbefore
  · rw [← hm]
  · intro h
    rw [hbefore] at h
    cases h
  · exact hparent
  · exact hchild
  · exact fun h => .inl (hsem h)

theorem reports_printStats (t u : Proc) (m : Mem) :
    reports u (printStats t m) = reports u m + if t = u then 1 else 0 := by
  simp [reports, printStats, List.countP_append, List.countP_singleton]

theorem Told.tell (hs : Told s) {status : Nat} (hpc : s'.pc = Function.update s.pc t (.clean status))
    (hp : s.pc t = .hurt ∨ s.pc t = .stats) (hm : s'.mem = printStats t s.mem) (hsem : s'.sem = s.sem) : Told s' := by
  have hclosing : closing (s.pc t) = true := by obtain hp | hp := hp <;> rw [hp] <;> rfl
  have hnot : reported (s.pc t) = false := by obtain hp | hp := hp <;> rw [hp] <;> rfl
  apply hs.move hpc
  · rw [hm, reports_printStats, hs.once, hnot, if_pos rfl]
    rfl
  · intro u hu
    rw [hm, reports_printStats, if_neg hu.symm]
    exact ⟨rfl, rfl⟩
  · intro he
    rw [hm] at he
    rw [hs.exited t he] at hnot
    cases hnot
  · rw [hm]
    rfl
  · exact fun _ => rfl
  · rintro rfl _
    exact hs.finished hclosing
  · exact fun _ h => by cases h
  · exact fun h => .inl (hsem ▸ h)

theorem Told.clean (hs : Told s) {status : Nat} (hpc : s'.pc = Function.update s.pc t (.exit status))
    (hp : s.pc t = .clean status) (hm : s'.mem = s.mem) (hsem : t = .child → s'.sem = s.sem) : Told s' := by
  have hclosing : closing (s.pc t) = true := by rw [hp]; rfl
  apply hs.move hpc
  · rw [hm, hs.once, hp]
    rfl
  · exact fun u _ => by rw [hm]; exact ⟨rfl, rfl⟩
  · intro he
    rw [hm] at he
    have hgone := hs.exited t he
    rw [hp] at hgone
    cases hgone
  · rw [hm]
  · exact fun _ => rfl
  · rintro rfl _
    exact hs.finished hclosing
  · exact fun _ h => by cases h
  · intro hnone
    cases t with
    | parent => exact .inr ⟨rfl, rfl⟩
    | child => exact .inl (hsem rfl ▸ hnone)

theorem Told.exit (hs : Told s) {status : Nat} (hpc : s'.pc = Function.update s.pc t .gone)
    (hp : s.pc t = .exit status) (hm : s'.mem = { s.mem with exited := Function.update s.mem.exited t (some status) })
    (hsem : s'.sem = s.sem) : Told s' := by
  have hclosing : closing (s.pc t) = true := by rw [hp]; rfl
  apply hs.move hpc
  · have honce := hs.once t
    rw [hp] at honce
    rw [hm]
    exact honce
  · intro u hu
    rw [hm]
    exact ⟨rfl, Function.update_of_ne hu _ _⟩
  · exact fun _ => rfl
  · rw [hm]
  · exact fun _ => rfl
  · rintro rfl _
    exact hs.finished hclosing
  · exact fun _ h => by cases h
  · exact fun h => .inl (hsem ▸ h)

theorem exec_told (hs : Told s) {c : Cmd Pc Mem} (hc : c ∈ program.cmds t (s.pc t) s.mem)
    (ha : c.attempt s.sem s.mem = some (s'.sem, s'.mem, p)) (hpc : s'.pc = Function.update s.pc t p) : Told s' := by
  have hcome (hp : semopToCome (s.pc t) (s.mem.run t) = true) (ht : t = .child) : childToCome s = true := by
    subst ht
    exact hp
  cases hp : s.pc t with
  | loop =>
      rw [hp] at hc hcome
      obtain rfl := List.mem_singleton.mp hc
      simp only [Cmd.attempt, Option.some.injEq, Prod.mk.injEq] at ha
      obtain ⟨hsem, hm, rfl⟩ := ha
      apply hs.pass hpc hm (by rw [hp]; rfl)
      · split
        · rfl
        · cases t <;> rfl
      · rintro rfl h
        cases hr : s.mem.run .parent <;> rw [hr] at h <;> cases h
      · rintro rfl h
        cases hr : s.mem.run .child with
        | true => exact hcome hr rfl
        | false =>
            rw [hr] at h
            cases h
      · exact fun h => hsem.trans h
  | down =>
      rw [hp] at hc hcome
      obtain rfl := List.mem_singleton.mp hc
      have hpresent := hs.present (.inl hp)
      cases hv : s.sem with
      | none => exact absurd hv hpresent
      | some v =>
          rw [hv] at ha
          cases v with
          | zero => cases ha
          | succ v =>
              simp only [Cmd.attempt, Option.some.injEq, Prod.mk.injEq] at ha
              obtain ⟨hsem, hm, rfl⟩ := ha
              refine hs.pass hpc hm (by rw [hp]; rfl) rfl ?_ ?_ ?_
              · exact fun _ h => by cases h
              · exact fun ht _ => hcome rfl ht
              · rw [← hsem]
                exact fun h => by cases h
  | up =>
      rw [hp] at hc hcome
      obtain rfl := List.mem_singleton.mp hc
      have hpresent := hs.present (.inr hp)
      cases hv : s.sem with
      | none => exact absurd hv hpresent
      | some v =>
          rw [hv] at ha
          simp only [Cmd.attempt, Option.some.injEq, Prod.mk.injEq] at ha
          obtain ⟨hsem, hm, rfl⟩ := ha
          refine hs.pass hpc hm (by rw [hp]; rfl) rfl ?_ ?_ ?_
          · exact fun _ h => by cases h
          · exact fun ht _ => hcome rfl ht
          · rw [← hsem]
            exact fun h => by cases h
  | body q =>
      rw [hp] at hc hcome
      obtain rfl := List.mem_singleton.mp hc
      simp only [Cmd.attempt, Option.some.injEq, Prod.mk.injEq] at ha
      obtain ⟨hsem, hm, rfl⟩ := ha
      refine hs.pass hpc hm (by rw [hp]; rfl) ?_ ?_ ?_ ?_
      · cases q <;> rfl
      · exact fun _ h => by cases q <;> cases h
      · exact fun ht _ => hcome rfl ht
      · exact fun h => hsem.trans h
  | count =>
      rw [hp] at hc hcome
      obtain rfl := List.mem_singleton.mp hc
      simp only [Cmd.attempt, Option.some.injEq, Prod.mk.injEq] at ha
      obtain ⟨hsem, hm, rfl⟩ := ha
      refine hs.pass hpc hm (by rw [hp]; rfl) rfl ?_ ?_ ?_
      · exact fun _ h => by cases h
      · rintro rfl h
        exact hcome h rfl
      · exact fun h => hsem.trans h
  | wait =>
      rw [hp] at hc
      obtain rfl := List.mem_singleton.mp hc
      obtain ⟨_, hready, heq⟩ := Option.map_eq_some_iff.mp ha
      obtain ⟨hexited, hm⟩ := Option.ite_none_right_eq_some.mp hready
      cases hm
      simp only [Prod.mk.injEq] at heq
      obtain ⟨hsem, hm, rfl⟩ := heq
      refine hs.pass hpc hm (by rw [hp]; rfl) rfl ?_ ?_ ?_
      · intro _ _
        rw [childToCome, hs.exited .child hexited]
        rfl
      · exact fun _ h => by cases h
      · exact fun h => hsem.trans h
  | hurt | stats =>
      rw [hp] at hc
      obtain rfl := List.mem_singleton.mp hc
      simp only [Cmd.attempt, Option.some.injEq, Prod.mk.injEq] at ha
      obtain ⟨hsem, hm, rfl⟩ := ha
      exact hs.tell hpc (by simp [hp]) hm.symm hsem.symm
  | clean status =>
      rw [hp] at hc
      obtain rfl := List.mem_singleton.mp hc
      cases t with
      | parent =>
          simp only [cleanup, Cmd.attempt, Option.some.injEq, Prod.mk.injEq] at ha
          obtain ⟨_, hm, rfl⟩ := ha
          exact hs.clean hpc hp hm.symm (fun h => by cases h)
      | child =>
          simp only [cleanup, Cmd.attempt, Option.some.injEq, Prod.mk.injEq] at ha
          obtain ⟨hsem, hm, rfl⟩ := ha
          exact hs.clean hpc hp hm.symm (fun _ => hsem.symm)
  | exit status =>
      rw [hp] at hc
      obtain rfl := List.mem_singleton.mp hc
      simp only [Cmd.attempt, Option.some.injEq, Prod.mk.injEq] at ha
      obtain ⟨hsem, hm, rfl⟩ := ha
      exact hs.exit hpc hp hm.symm hsem.symm
  | gone =>
      rw [hp] at hc
      cases hc

/-- The handler only takes `semop()` calls away. -/
theorem Told.signal (hs : Told s) (hpc : s'.pc = s.pc) (hm : s'.mem = finish t s.mem) (hsem : s'.sem = s.sem) : Told s' := by
  have hless : childToCome s' = true → childToCome s = true := by
    intro h
    rw [childToCome, hpc, hm] at h
    cases t with
    | parent => exact h
    | child =>
        rw [childToCome]
        cases hp : s.pc .child <;> rw [hp] at h <;> first | rfl | cases h
  refine ⟨fun u => ?_, fun u h => ?_, fun h => ?_, fun h => ?_⟩
  · rw [hpc, hm]
    exact hs.once u
  · rw [hpc]
    rw [hm] at h
    exact hs.exited u h
  · rw [hpc] at h
    have hfinished := hs.finished h
    by_contra hcome
    rw [hless (by simpa using hcome)] at hfinished
    cases hfinished
  · rw [hpc]
    exact hs.removed (hsem ▸ h)

theorem interrupted_told (hs : Told s) (hok : ChildFirst s (.signal t)) {q : Pc} (hbl : s.ctl t = .blocked p q)
    {m : Mem} {c : Cmd Pc Mem} (hc : c ∈ program.cmds t p m) (hq : c.interrupted = some q)
    (hpc : s'.pc = Function.update s.pc t q) (hm : s'.mem = s.mem) (hsem : s'.sem = s.sem) : Told s' := by
  have hp : s.pc t = p := by rw [State.pc, hbl, Ctl.pc]
  have hparent : t = .parent → closing q = true → childToCome s = false := by
    rintro rfl _
    exact hok (by rw [hbl]; rfl)
  cases p with
  | gone => cases hc
  | down | wait =>
      obtain rfl := List.mem_singleton.mp hc
      cases hq
      refine hs.pass hpc hm.symm (by rw [hp]; rfl) rfl hparent ?_ (fun h => hsem ▸ h)
      exact fun _ h => by cases h
  | clean status =>
      obtain rfl := List.mem_singleton.mp hc
      cases t <;> cases hq
  | loop | body p | up | count | hurt | stats | exit status =>
      obtain rfl := List.mem_singleton.mp hc
      cases hq

theorem next_told (hb : BlockedIn program s) (hs : Told s) (hok : ChildFirst s e) (h : next program s e = some s') :
    Told s' := by
  obtain ⟨hpc, hsem, hm⟩ | ⟨t, k, rfl, c, hc, p, ha, hpc⟩ | ⟨t, rfl, hsem, hm, hpc | ⟨p, q, hbl, hpc⟩⟩ := next_tries h
  · have hcome : childToCome s' = childToCome s := by rw [childToCome, hpc, hm, childToCome]
    exact ⟨by rw [hpc, hm]; exact hs.once, by rw [hpc, hm]; exact hs.exited, by rw [hpc, hcome]; exact hs.finished,
      by rw [hpc, hsem]; exact hs.removed⟩
  · exact exec_told hs hc ha hpc
  · exact hs.signal hpc hm hsem
  · obtain ⟨m, c, hc, hq⟩ := hb t p q hbl
    have hstay : Told { s.goto t (.running q) with mem := s.mem } :=
      interrupted_told hs hok hbl hc hq (pc_goto s t _) rfl rfl
    apply hstay.signal (t := t)
    · rw [hpc]
      exact (pc_goto s t (.running q)).symm
    · exact hm
    · exact hsem

theorem initial_told : Told initial where
  once _ := rfl
  exited _ h := by cases h
  finished h := by cases h
  removed h := by cases h

theorem run_told (h : Run (Guarded (Exec (next program)) ChildFirst) initial es s) : Told s := by
  apply h.invariant (I := fun _ s => Told s)
  · exact initial_told
  · intro ls e a b hr ha hl
    exact next_told (run_blockedIn hr.unguard) ha hl.1 hl.2

/-- Each process reports once as long as the parent is not interrupted before
the child has done with the semaphore. -/
theorem reports_unless_interrupted (es : List (Event Proc)) (s : State Proc Pc Mem)
    (h : Run (Guarded (Exec (next program)) ChildFirst) initial es s) (t : Proc) :
    reports t s.mem ≤ 1 ∧ ((s.mem.exited t).isSome = true → reports t s.mem = 1) := by
  have hs := run_told h
  refine ⟨?_, fun he => ?_⟩
  · rw [hs.once]
    exact Bool.toNat_le _
  · rw [hs.once, hs.exited t he]
    rfl

/-- Ctrl-C with the child in `semop()` and the parent inside. -/
def childBlocked : List (Event Proc) :=
  [.exec .parent 0, .exec .parent 0, .exec .child 0, .exec .child 0, .signal .child, .signal .parent,
    .exec .child 0, .exec .child 0, .exec .child 0] ++ List.replicate 11 (.exec .parent 0)

theorem reports_unless_interrupted_childBlocked : ∃ s,
    Run (Guarded (Exec (next program)) ChildFirst) initial childBlocked s ∧
    s.mem.exited .child = some 1 ∧ s.mem.exited .parent = some 0 ∧ ∀ t, reports t s.mem = 1 := by
  obtain ⟨s, hs, hchild, hparent⟩ : ∃ s, replay (guardedNext ChildFirst (next program)) initial childBlocked = some s ∧
      s.mem.exited .child = some 1 ∧ s.mem.exited .parent = some 0 := ⟨_, rfl, rfl, rfl⟩
  refine ⟨s, replay_guarded hs, hchild, hparent, fun t => ?_⟩
  apply (reports_unless_interrupted childBlocked s (replay_guarded hs) t).2
  cases t with
  | parent => rw [hparent]; rfl
  | child => rw [hchild]; rfl

/-- Ctrl-C with the parent in `semop()` and the child inside. -/
def parentBlocked : List (Event Proc) :=
  [.exec .child 0, .exec .child 0, .exec .parent 0, .exec .parent 0, .signal .parent, .signal .child,
    .exec .parent 0, .exec .parent 0, .exec .parent 0] ++ List.replicate 7 (.exec .child 0)

theorem report_lost : ∃ s, Run (Exec (next program)) initial parentBlocked s ∧ s.mem.exited .parent = some 1 ∧
    s.mem.exited .child = some 1 ∧ reports .parent s.mem = 1 ∧ reports .child s.mem = 0 := by
  obtain ⟨s, hs, hparent, hchild, hone, hnone⟩ : ∃ s, replay (next program) initial parentBlocked = some s ∧
      s.mem.exited .parent = some 1 ∧ s.mem.exited .child = some 1 ∧ reports .parent s.mem = 1 ∧
      reports .child s.mem = 0 := ⟨_, rfl, rfl, rfl, rfl, rfl⟩
  exact ⟨s, replay_run hs, hparent, hchild, hone, hnone⟩

end UnixProg.Race.SemReports

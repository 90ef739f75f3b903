import UnixProg.Lib.Transition
import Mathlib.Logic.Function.Basic

namespace UnixProg.FileLocking.RunSh

open Lib Transition

variable {W : Type} [DecidableEq W]

/-- A lock file was there before, or a worker has created it. -/
inductive File (W : Type)
  | stale
  | created (t : W)
deriving DecidableEq

abbrev Files (W : Type) := String → Option (File W)

/-- The files afterwards and the exit status. `fails` is an `open()` that fails
for another reason than that the file exists. -/
def lock (t : W) (filename : String) (fails : Bool) (files : Files W) : Files W × Nat :=
  if fails then (files, 2)
  else match files filename with
    | none => (Function.update files filename (some (.created t)), 0)
    | some _ => (files, 1)

def unlock (filename : String) (fails : Bool) (files : Files W) : Files W × Nat :=
  if fails then (files, 2)
  else match files filename with
    | none => (files, 2)
    | some _ => (Function.update files filename none, 0)

/-- The program lock-unlock, called by a worker with the words after its name. -/
def lockUnlock (t : W) (args : List String) (fails : Bool) (files : Files W) : Files W × Nat :=
  match args with
  | [filename, op] =>
      if op = "lock" then lock t filename fails files
      else if op = "unlock" then unlock filename fails files
      else (files, 1)
  | _ => (files, 1)

def remove (words : List String) (files : Files W) : Files W := fun name => if name ∈ words then none else files name

/-- The commands of the script, `work` with the seconds of work left. -/
inductive Pc
  | lock
  | isTwo
  | isOne
  | isZero
  | choose
  | acquired (n : Nat)
  | work (n : Nat)
  | unlock
  | rest
  | trap
  | exit
  | exited
deriving DecidableEq

inductive Line (W : Type)
  | failure
  | acquired (t : W)
  | pid (t : W)
  | releasing (t : W)
deriving DecidableEq

structure State (W : Type) where
  files : Files W
  pc : W → Pc
  rc : W → Nat
  output : List (Line W)

def State.goto (s : State W) (t : W) (p : Pc) : State W := { s with pc := Function.update s.pc t p }

omit [DecidableEq W] in
def State.print (s : State W) (l : Line W) : State W := { s with output := s.output ++ [l] }

/-- One command of a worker whose `$1` is split into the given words. The
`return` outside a function is an error, after which the script goes on. -/
def command (words : List String) (t : W) (fails : Bool) (random : Nat) (s : State W) : Option (State W) :=
  match s.pc t with
  | .lock =>
      let r := lockUnlock t (words ++ ["lock"]) fails s.files
      some { s.goto t .isTwo with files := r.1, rc := Function.update s.rc t r.2 }
  | .isTwo => some ((if s.rc t = 2 then s.print .failure else s).goto t .isOne)
  | .isOne => some (s.goto t .isZero)
  | .isZero => some (s.goto t (if s.rc t = 0 then .choose else .lock))
  | .choose => some (s.goto t (.acquired (random % 3 + 1)))
  | .acquired n => some ((s.print (.acquired t)).goto t (.work n))
  | .work (n + 1) => some ((s.print (.pid t)).goto t (.work n))
  | .work 0 => some ((s.print (.releasing t)).goto t .unlock)
  | .unlock =>
      let r := lockUnlock t (words ++ ["unlock"]) fails s.files
      some { s.goto t .rest with files := r.1 }
  | .rest => some (s.goto t .lock)
  | .trap => some { s.goto t .exit with files := remove words s.files }
  | .exit => some (s.goto t .exited)
  | .exited => none

inductive Event (W : Type)
  | step (t : W) (fails : Bool) (random : Nat)
  | signal (t : W)

def next (words : List String) (s : State W) : Event W → Option (State W)
  | .step t fails random => command words t fails random s
  | .signal t => if s.pc t = .exited then none else some (s.goto t .trap)

def initial (files : Files W) : State W := ⟨files, fun _ => .lock, fun _ => 0, []⟩

/-- Between a lock attempt that returned 0 and the unlock. -/
def working (p : Pc) (rc : Nat) : Bool :=
  match p with
  | .isTwo | .isOne | .isZero => rc == 0
  | .choose | .acquired _ | .work _ | .unlock => true
  | .lock | .rest | .trap | .exit | .exited => false

def Working (s : State W) (t : W) : Prop := working (s.pc t) (s.rc t) = true

/-- The work section is held by one worker, whose lock file is in place. -/
structure Good (name : String) (s : State W) : Prop where
  alone (t u) (ht : Working s t) (hu : Working s u) : t = u
  relies (t) (ht : Working s t) : s.files name = some (.created t)

/-- The trap of a worker does not run its `rm` while another worker is working. -/
def TrapAlone (s : State W) (e : Event W) : Prop :=
  ∀ t fails random, e = .step t fails random → s.pc t = .trap → ∀ u, ¬ Working s u

variable {s s' : State W} {e : Event W} {es : List (Event W)} {name : String} {files : Files W}

theorem Working.other {t u : W} (h : Working s' u) (hu : u ≠ t) {p : Pc} (hpc : s'.pc = Function.update s.pc t p)
    (hrc : s'.rc u = s.rc u) : Working s u := by
  rw [Working, hpc, Function.update_of_ne hu, hrc] at h
  exact h

/-- After a worker went to a point outside the work section. -/
theorem Working.left {t u : W} (h : Working s' u) {p : Pc} (hpc : s'.pc = Function.update s.pc t p)
    (hp : working p (s'.rc t) = false) (hrc : ∀ v, v ≠ t → s'.rc v = s.rc v) : u ≠ t ∧ Working s u := by
  have hut : u ≠ t := by
    rintro rfl
    rw [Working, hpc, Function.update_self, hp] at h
    cases h
  exact ⟨hut, h.other hut hpc (hrc u hut)⟩

/-- A command that does not touch the lock file moves its worker within the
work section or out of it. -/
theorem command_quiet {t : W} {fails : Bool} {random : Nat} (h : command [name] t fails random s = some s')
    (hlock : s.pc t ≠ .lock) (hunlock : s.pc t ≠ .unlock) (htrap : s.pc t ≠ .trap) :
    s'.files = s.files ∧ ∀ u, Working s' u → Working s u := by
  have hmove (p : Pc) (s₁ : State W) (hpc : s₁.pc = s.pc) (hrc : s₁.rc = s.rc)
      (hp : working p (s.rc t) = true → working (s.pc t) (s.rc t) = true) (u : W) (hu : Working (s₁.goto t p) u) :
      Working s u := by
    by_cases hut : u = t
    · subst hut
      simp only [Working, State.goto, Function.update_self, hrc] at hu
      exact hp hu
    · simpa [Working, State.goto, hut, hpc, hrc] using hu
  cases hp : s.pc t with
  | lock => exact absurd hp hlock
  | unlock => exact absurd hp hunlock
  | trap => exact absurd hp htrap
  | exited => simp [command, hp] at h
  | isTwo =>
      simp only [command, hp, Option.some.injEq] at h
      subst h
      split
      · exact ⟨rfl, hmove .isOne _ rfl rfl (by rw [hp]; exact id)⟩
      · exact ⟨rfl, hmove .isOne _ rfl rfl (by rw [hp]; exact id)⟩
  | isZero =>
      simp only [command, hp, Option.some.injEq] at h
      subst h
      refine ⟨rfl, hmove _ _ rfl rfl ?_⟩
      rw [hp]
      split
      · simp [working, *]
      · simp [working]
  | isOne | choose | acquired n | rest | exit =>
      simp only [command, hp, Option.some.injEq] at h
      subst h
      exact ⟨rfl, hmove _ _ rfl rfl (by simp [hp, working])⟩
  | work n =>
      cases n <;> simp only [command, hp, Option.some.injEq] at h <;> subst h
      · exact ⟨rfl, hmove _ _ rfl rfl (by simp [hp, working])⟩
      · exact ⟨rfl, hmove _ _ rfl rfl (by simp [hp, working])⟩

/-- What a step can do to the lock file: nothing, create it where there is
none, or remove it in the unlock of a working worker or in a trap. -/
theorem next_cases (h : next [name] s e = some s') :
    (s'.files name = s.files name ∧ ∀ u, Working s' u → Working s u) ∨
    (∃ t, s.files name = none ∧ s'.files name = some (.created t) ∧ ∀ u, u ≠ t → Working s' u → Working s u) ∨
    (s'.files name = none ∧ ∃ t, (Working s t ∨ s.pc t = .trap ∧ ∃ fails random, e = .step t fails random) ∧
      ∀ u, Working s' u → u ≠ t ∧ Working s u) := by
  cases e with
  | signal t =>
      simp only [next, Option.ite_none_left_eq_some, Option.some.injEq] at h
      obtain ⟨_, rfl⟩ := h
      exact .inl ⟨rfl, fun u hw => (hw.left rfl rfl (fun _ _ => rfl)).2⟩
  | step t fails random =>
      simp only [next] at h
      by_cases hlock : s.pc t = .lock
      · simp only [command, hlock, Option.some.injEq] at h
        subst h
        have hrc (r : Nat) (v : W) (hv : v ≠ t) : Function.update s.rc t r v = s.rc v := Function.update_of_ne hv ..
        cases hf : s.files name with
        | none =>
            cases fails with
            | false =>
                exact .inr (.inl ⟨t, rfl, by simp [lockUnlock, lock, hf], fun u hu hw => hw.other hu rfl (hrc _ u hu)⟩)
            | true =>
                exact .inl ⟨by simp [lockUnlock, lock, hf],
                  fun u hw => (hw.left rfl (by simp [working, lockUnlock, lock]) (hrc _)).2⟩
        | some f =>
            exact .inl ⟨by cases fails <;> simp [lockUnlock, lock, hf],
              fun u hw => (hw.left rfl (by cases fails <;> simp [working, lockUnlock, lock, hf]) (hrc _)).2⟩
      · by_cases hunlock : s.pc t = .unlock
        · simp only [command, hunlock, Option.some.injEq] at h
          subst h
          have hwt : Working s t := by simp [Working, hunlock, working]
          cases hf : s.files name with
          | none =>
              exact .inl ⟨by cases fails <;> simp [lockUnlock, unlock, hf], fun u hw => (hw.left rfl rfl (fun _ _ => rfl)).2⟩
          | some f =>
              cases fails with
              | false =>
                  exact .inr (.inr ⟨by simp [lockUnlock, unlock, hf], t, .inl hwt,
                    fun u hw => hw.left rfl rfl (fun _ _ => rfl)⟩)
              | true => exact .inl ⟨by simp [lockUnlock, unlock, hf], fun u hw => (hw.left rfl rfl (fun _ _ => rfl)).2⟩
        · by_cases htrap : s.pc t = .trap
          · simp only [command, htrap, Option.some.injEq] at h
            subst h
            exact .inr (.inr ⟨by simp [remove], t, .inr ⟨htrap, fails, random, rfl⟩,
              fun u hw => hw.left rfl rfl (fun _ _ => rfl)⟩)
          · obtain ⟨hfiles, hw⟩ := command_quiet h hlock hunlock htrap
            exact .inl ⟨by rw [hfiles], hw⟩

/-- In a good state nobody else's file is removed but by a trap. -/
theorem Good.next (hs : Good name s) (hok : TrapAlone s e) (h : next [name] s e = some s') : Good name s' := by
  suffices hrelies : ∀ t, Working s' t → s'.files name = some (.created t) by
    refine ⟨fun t u ht hu => ?_, hrelies⟩
    have heq := (hrelies t ht).symm.trans (hrelies u hu)
    simpa using heq
  intro u hu
  obtain ⟨hfile, hw⟩ | ⟨t, hfree, hfile, hw⟩ | ⟨hfile, t, ht, hw⟩ := next_cases h
  · exact hfile.trans (hs.relies u (hw u hu))
  · by_cases hut : u = t
    · exact hut ▸ hfile
    · have := hs.relies u (hw u hut hu)
      rw [hfree] at this
      cases this
  · obtain ⟨hut, hu⟩ := hw u hu
    obtain ht | ⟨hp, fails, random, rfl⟩ := ht
    · exact absurd (hs.alone u t hu ht) hut
    · exact absurd hu (hok t fails random rfl hp u)

theorem trap_breaks (h : next [name] s e = some s') (hbad : ¬ TrapAlone s e) : ¬ Good name s' := by
  simp only [TrapAlone, not_forall, not_not] at hbad
  obtain ⟨t, fails, random, rfl, hp, u, hu⟩ := hbad
  simp only [RunSh.next, command, hp, Option.some.injEq] at h
  subst h
  intro hgood
  have hut : u ≠ t := by
    rintro rfl
    simp [Working, hp, working] at hu
  have hw : Working { s.goto t .exit with files := remove [name] s.files } u := by
    simpa [Working, State.goto, hut] using hu
  have := hgood.relies u hw
  simp [remove] at this

omit [DecidableEq W] in
theorem initial_good (files : Files W) (name : String) : Good name (initial files) :=
  ⟨fun _ _ ht => (by simp [Working, initial, working] at ht), fun _ ht => by simp [Working, initial, working] at ht⟩

/-- One worker at a time, for as long as the trap of a worker leaves the lock
file of a working one alone. -/
theorem good_iff_trapAlone (name : String) (files : Files W) (es : List (Event W)) (s : State W)
    (h : Run (Exec (next [name])) (initial files) es s) :
    (∀ before after u, es = before ++ after → Run (Exec (next [name])) (initial files) before u → Good name u) ↔
      Run (Guarded (Exec (next [name])) TrapAlone) (initial files) es s :=
  (guarded_iff (initial_good files name) (fun _ _ _ _ hs hok hn => hs.next hok hn)
    (fun _ _ _ _ _ hbad hn => trap_breaks hn hbad) h).symm

/-- The holder is told to stop while another worker waits. -/
def holderStopped : List (Event Nat) := [.step 0 false 0, .step 1 false 0, .signal 0, .step 0 false 0]

theorem good_iff_trapAlone_holderStopped : ∃ s,
    Run (Exec (next ["xxx"])) (initial fun _ => none) holderStopped s ∧ s.files "xxx" = none ∧
    ((∀ before after u, holderStopped = before ++ after → Run (Exec (next ["xxx"])) (initial fun _ => none) before u →
      Good "xxx" u) ↔ Run (Guarded (Exec (next ["xxx"])) TrapAlone) (initial fun _ => none) holderStopped s) := by
  obtain ⟨s, hs, hfile⟩ : ∃ s, replay (next ["xxx"]) (initial fun _ => none) holderStopped = some s ∧
      s.files "xxx" = none := ⟨_, rfl, by decide⟩
  exact ⟨s, replay_run hs, hfile, good_iff_trapAlone "xxx" (fun _ => none) holderStopped s (replay_run hs)⟩

/-- Worker 0 works, worker 1 waits and is told to stop, worker 2 retries. -/
def waiterStopped : List (Event Nat) :=
  [.step 0 false 0, .step 1 false 0, .signal 1, .step 1 false 0, .step 2 false 0]

theorem two_workers_work : ∃ s, Run (Exec (next ["xxx"])) (initial fun _ => none) waiterStopped s ∧
    Working s 0 ∧ Working s 2 ∧ ¬ Good "xxx" s := by
  obtain ⟨s, hs, h0, h2⟩ : ∃ s, replay (next ["xxx"]) (initial fun _ => none) waiterStopped = some s ∧
      Working s 0 ∧ Working s 2 := ⟨_, rfl, rfl, rfl⟩
  exact ⟨s, replay_run hs, h0, h2, fun hgood => absurd (hgood.alone 0 2 h0 h2) (by decide)⟩

end UnixProg.FileLocking.RunSh

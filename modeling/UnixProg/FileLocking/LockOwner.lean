import UnixProg.FileLocking.RunSh

namespace UnixProg.FileLocking.LockOwner

open Lib Transition RunSh

variable {W : Type} [DecidableEq W]

/-- What lock-unlock did to the lock file for a worker. -/
inductive Act (W : Type)
  | created (t : W)
  | removed (t : W) (f : File W)
  | failed (t : W)
deriving DecidableEq

def act (name : String) (s : State W) : Event W → List (Act W)
  | .step t fails _ => match s.pc t with
    | .lock => if (lockUnlock t [name, "lock"] fails s.files).2 = 0 then [.created t] else []
    | .unlock =>
        if (lockUnlock t [name, "unlock"] fails s.files).2 = 0 then (s.files name).toList.map (.removed t) else [.failed t]
    | _ => []
  | .signal _ => []

/-- What the workers did to the lock file, in the order in which they did it. -/
def history (name : String) (s : State W) (es : List (Event W)) : List (Act W) := trace (next [name]) (act name) s es

/-- Nobody is told to stop, and `open()` and `unlink()` fail for no other
reason than the lock file being there or not. -/
def Undisturbed (_ : State W) : Event W → Prop
  | .step _ fails _ => fails = false
  | .signal _ => False

instance (s : State W) : ∀ e, Decidable (Undisturbed s e)
  | .step _ fails _ => inferInstanceAs (Decidable (fails = false))
  | .signal _ => inferInstanceAs (Decidable False)

/-- A worker creates the file and removes it again, then the next one. -/
def turns (ts : List W) : List (Act W) := ts.flatMap (fun t => [.created t, .removed t (.created t)])

/-- The turns so far, and whose turn it is. -/
structure Owned (name : String) (holder : Option W) (s : State W) (acts : List (Act W)) : Prop where
  acts : ∃ ts, acts = turns ts ++ holder.toList.map .created
  file : s.files name = holder.map .created
  working (t) : Working s t ↔ holder = some t
  untrapped (t) : s.pc t ≠ .trap

variable {s s' : State W} {t u : W} {random : Nat} {name : String} {files : Files W} {es : List (Event W)}

/-- The commands that a worker has left until its lock file is removed. -/
def left : Pc → Nat
  | .isTwo => 10
  | .isOne => 9
  | .isZero => 8
  | .choose => 7
  | .acquired n => n + 3
  | .work n => n + 2
  | .unlock => 1
  | .lock | .rest | .trap | .exit | .exited => 0

/-- What one command does, as far as the lock file is concerned. -/
inductive Does (name : String) (t : W) (s s' : State W) : List (Act W) → Prop
  | nothing (hfile : s'.files name = s.files name) (hw : Working s' t ↔ Working s t)
      (hleft : Working s t → left (s'.pc t) < left (s.pc t)) : Does name t s s' []
  | create (hfree : s.files name = none) (hfile : s'.files name = some (.created t)) (hw : Working s' t) :
      Does name t s s' [.created t]
  | remove (f : File W) (hheld : s.files name = some f) (hfile : s'.files name = none) (hw : Working s t)
      (hw' : ¬ Working s' t) : Does name t s s' [.removed t f]
  | fail (hfree : s.files name = none) (hw : Working s t) : Does name t s s' [.failed t]

theorem Does.goto (s₁ : State W) (p : Pc) (hfiles : s₁.files = s.files) (hrc : s₁.rc = s.rc)
    (hw : working p (s.rc t) = working (s.pc t) (s.rc t))
    (hleft : working (s.pc t) (s.rc t) = true → left p < left (s.pc t)) : Does name t s (s₁.goto t p) [] := by
  have hpc : (s₁.goto t p).pc t = p := Function.update_self ..
  have hrc' : (s₁.goto t p).rc t = s.rc t := congrFun hrc t
  apply Does.nothing
  · exact congrFun hfiles name
  · rw [Working, hpc, hrc', hw, Working]
  · intro hin
    rw [hpc]
    exact hleft hin

theorem lock_does (hp : s.pc t = .lock) (h : command [name] t false random s = some s') :
    Does name t s s' (act name s (.step t false random)) ∧ s'.pc t ≠ .trap := by
  have hout : ¬ Working s t := by simp [Working, hp, working]
  simp only [command, hp, Option.some.injEq] at h
  subst h
  refine ⟨?_, by simp [State.goto]⟩
  cases hf : s.files name with
  | none =>
      have hact : act name s (.step t false random) = [.created t] := by simp [act, hp, lockUnlock, lock, hf]
      rw [hact]
      apply Does.create hf
      · simp [lockUnlock, lock, hf]
      · simp [Working, State.goto, working, lockUnlock, lock, hf]
  | some f =>
      have hact : act name s (.step t false random) = [] := by simp [act, hp, lockUnlock, lock, hf]
      rw [hact]
      apply Does.nothing
      · simp [lockUnlock, lock, hf]
      · simp [Working, State.goto, working, lockUnlock, lock, hf, hp]
      · exact fun hw => absurd hw hout

theorem unlock_does (hp : s.pc t = .unlock) (h : command [name] t false random s = some s') :
    Does name t s s' (act name s (.step t false random)) ∧ s'.pc t ≠ .trap := by
  have hin : Working s t := by simp [Working, hp, working]
  simp only [command, hp, Option.some.injEq] at h
  subst h
  refine ⟨?_, by simp [State.goto]⟩
  cases hf : s.files name with
  | none =>
      have hact : act name s (.step t false random) = [.failed t] := by simp [act, hp, lockUnlock, unlock, hf]
      rw [hact]
      exact .fail hf hin
  | some f =>
      have hact : act name s (.step t false random) = [.removed t f] := by simp [act, hp, lockUnlock, unlock, hf]
      rw [hact]
      apply Does.remove f hf _ hin
      · simp [Working, State.goto, working]
      · simp [lockUnlock, unlock, hf]

theorem quiet_does (hlock : s.pc t ≠ .lock) (hunlock : s.pc t ≠ .unlock) (htrap : s.pc t ≠ .trap)
    (h : command [name] t false random s = some s') : Does name t s s' [] ∧ s'.pc t ≠ .trap := by
  cases hp : s.pc t with
  | lock => exact absurd hp hlock
  | unlock => exact absurd hp hunlock
  | trap => exact absurd hp htrap
  | exited => simp [command, hp] at h
  | isTwo =>
      simp only [command, hp, Option.some.injEq] at h
      subst h
      refine ⟨?_, by simp [State.goto]⟩
      split
      · exact .goto _ _ rfl rfl (by simp [hp, working]) (fun _ => by simp [hp, left])
      · exact .goto _ _ rfl rfl (by simp [hp, working]) (fun _ => by simp [hp, left])
  | isZero =>
      simp only [command, hp, Option.some.injEq] at h
      subst h
      by_cases hrc : s.rc t = 0
      · rw [if_pos hrc]
        exact ⟨.goto _ _ rfl rfl (by simp [hp, working, hrc]) (fun _ => by simp [hp, left]), by simp [State.goto]⟩
      · rw [if_neg hrc]
        have hout : ¬ working (s.pc t) (s.rc t) = true := by simp [hp, working, hrc]
        exact ⟨.goto _ _ rfl rfl (by simp [hp, working, hrc]) (fun hin => absurd hin hout), by simp [State.goto]⟩
  | choose =>
      simp only [command, hp, Option.some.injEq] at h
      subst h
      have hmod := Nat.mod_lt random (Nat.succ_pos 2)
      refine ⟨.goto _ _ rfl rfl (by simp [hp, working]) (fun _ => ?_), by simp [State.goto]⟩
      rw [hp]
      simp only [left]
      omega
  | isOne | acquired | rest | exit =>
      simp only [command, hp, Option.some.injEq] at h
      subst h
      exact ⟨.goto _ _ rfl rfl (by simp [hp, working]) (by simp [hp, working, left]), by simp [State.goto]⟩
  | work n =>
      cases n with
      | zero | succ =>
          simp only [command, hp, Option.some.injEq] at h
          subst h
          exact ⟨.goto _ _ rfl rfl (by simp [hp, working]) (fun _ => by simp [hp, left]), by simp [State.goto]⟩

theorem does (htrap : s.pc t ≠ .trap) (h : command [name] t false random s = some s') :
    Does name t s s' (act name s (.step t false random)) ∧ s'.pc t ≠ .trap := by
  by_cases hlock : s.pc t = .lock
  · exact lock_does hlock h
  · by_cases hunlock : s.pc t = .unlock
    · exact unlock_does hunlock h
    · have hact : act name s (.step t false random) = [] := by
        rw [act]
        split
        · exact absurd ‹_› hlock
        · exact absurd ‹_› hunlock
        · rfl
      rw [hact]
      exact quiet_does hlock hunlock htrap h

theorem command_other {words : List String} {fails : Bool} (h : command words t fails random s = some s') (hu : u ≠ t) :
    s'.pc u = s.pc u ∧ s'.rc u = s.rc u := by
  rw [command] at h
  split at h
  · cases h
    exact ⟨Function.update_of_ne hu .., Function.update_of_ne hu ..⟩
  · split at h <;> cases h <;> exact ⟨Function.update_of_ne hu .., rfl⟩
  all_goals
    cases h
    try exact ⟨Function.update_of_ne hu .., rfl⟩

omit [DecidableEq W] in
@[simp] theorem turns_snoc (ts : List W) (t : W) :
    turns (ts ++ [t]) = turns ts ++ [.created t, .removed t (.created t)] := by
  simp [turns]

variable {holder : Option W} {acts : List (Act W)} {e : Event W}

theorem Owned.next (hs : Owned name holder s acts) (hok : Undisturbed s e) (h : next [name] s e = some s') :
    ∃ holder', Owned name holder' s' (acts ++ act name s e) := by
  cases e with
  | signal => exact hok.elim
  | step t fails random =>
      obtain rfl : fails = false := hok
      obtain ⟨hdoes, htrap⟩ := does (hs.untrapped t) h
      have hother (u : W) (hu : u ≠ t) : Working s' u ↔ Working s u := by
        obtain ⟨hpc, hrc⟩ := command_other h hu
        rw [Working, hpc, hrc, Working]
      have huntrapped (u : W) : s'.pc u ≠ .trap := by
        by_cases hu : u = t
        · exact hu ▸ htrap
        · rw [(command_other h hu).1]
          exact hs.untrapped u
      obtain ⟨ts, hacts⟩ := hs.acts
      generalize act name s (.step t false random) = as at hdoes ⊢
      cases hdoes with
      | nothing hfile hw _ =>
          refine ⟨holder, ⟨ts, by rw [List.append_nil, hacts]⟩, hfile.trans hs.file, fun u => ?_, huntrapped⟩
          by_cases hu : u = t
          · rw [hu, hw, hs.working]
          · rw [hother u hu, hs.working]
      | create hfree hfile hw =>
          obtain rfl : holder = none := Option.map_eq_none_iff.mp (hs.file.symm.trans hfree)
          refine ⟨some t, ⟨ts, by simp [hacts]⟩, hfile, fun u => ?_, huntrapped⟩
          by_cases hu : u = t
          · simp [hu, hw]
          · simp [hother u hu, hs.working, Ne.symm hu]
      | remove f hheld hfile hw hw' =>
          obtain rfl : holder = some t := (hs.working t).mp hw
          obtain rfl : f = .created t := Option.some.inj (hheld.symm.trans hs.file)
          refine ⟨none, ⟨ts ++ [t], by simp [hacts]⟩, hfile, fun u => ?_, huntrapped⟩
          by_cases hu : u = t
          · simp [hu, hw']
          · simp [hother u hu, hs.working, Ne.symm hu]
      | fail hfree hw =>
          obtain rfl : holder = some t := (hs.working t).mp hw
          cases hfree.symm.trans hs.file

omit [DecidableEq W] in
theorem initial_owned (hfree : files name = none) : Owned name none (initial files) ([] : List (Act W)) where
  acts := ⟨[], rfl⟩
  file := hfree
  working t := by simp [Working, initial, working]
  untrapped _ := by simp [initial]

theorem run_owned (hfree : files name = none)
    (h : Run (Guarded (Exec (RunSh.next [name])) Undisturbed) (initial files) es s) :
    ∃ holder, Owned name holder s (history name (initial files) es) := by
  refine h.invariant (I := fun es s => ∃ holder, Owned name holder s (history name (initial files) es)) ?_ ?_
  · exact ⟨none, initial_owned hfree⟩
  · rintro es e s s' hr ⟨holder, hs⟩ ⟨hok, hn⟩
    rw [history, trace_snoc _ hr.unguard]
    exact hs.next hok hn

def commands (t : W) (es : List (Event W)) : Nat :=
  es.countP fun
    | .step u _ _ => u = t
    | .signal _ => false

omit [DecidableEq W] in
theorem left_pos (h : Working s t) : 0 < left (s.pc t) := by
  cases hp : s.pc t with
  | isTwo | isOne | isZero | choose | acquired | work | unlock => simp [left]
  | lock | rest | trap | exit | exited => simp [Working, hp, working] at h

/-- A working worker gets nearer to its unlock with each of its commands. -/
theorem Owned.nearer (hs : Owned name holder s acts) (hw : Working s t) (hok : Undisturbed s e)
    (h : RunSh.next [name] s e = some s') :
    act name s e = [.removed t (.created t)] ∨ Working s' t ∧ left (s'.pc t) + commands t [e] ≤ left (s.pc t) := by
  cases e with
  | signal => exact hok.elim
  | step u fails random =>
      obtain rfl : fails = false := hok
      by_cases hu : u = t
      · subst hu
        obtain rfl : holder = some u := (hs.working u).mp hw
        have hdoes := (does (hs.untrapped u) h).1
        generalize act name s (.step u false random) = as at hdoes ⊢
        cases hdoes with
        | nothing _ hw' hleft =>
            refine .inr ⟨hw'.mpr hw, ?_⟩
            have hone : commands u [.step u false random] = 1 := by simp [commands]
            rw [hone]
            exact hleft hw
        | create hfree => cases hfree.symm.trans hs.file
        | remove f hheld =>
            obtain rfl : f = .created u := Option.some.inj (hheld.symm.trans hs.file)
            exact .inl rfl
        | fail hfree => cases hfree.symm.trans hs.file
      · obtain ⟨hpc, hrc⟩ := command_other h (Ne.symm hu)
        refine .inr ⟨by rwa [Working, hpc, hrc], ?_⟩
        rw [hpc]
        simp [commands, hu]

theorem Owned.removes {es' : List (Event W)} (hs : Owned name holder s acts) (hw : Working s t)
    (h : Run (Guarded (Exec (RunSh.next [name])) Undisturbed) s es' s') (hlong : left (s.pc t) ≤ commands t es') :
    .removed t (.created t) ∈ history name s es' := by
  have hrun : (∃ holder acts, Owned name holder s' acts) ∧ (.removed t (.created t) ∈ history name s es' ∨
      Working s' t ∧ left (s'.pc t) + commands t es' ≤ left (s.pc t)) := by
    refine h.invariant (I := fun es u => (∃ holder acts, Owned name holder u acts) ∧
      (.removed t (.created t) ∈ history name s es ∨ Working u t ∧ left (u.pc t) + commands t es ≤ left (s.pc t))) ?_ ?_
    · exact ⟨⟨holder, acts, hs⟩, .inr ⟨hw, Nat.le_refl _⟩⟩
    · rintro es e u u' hr ⟨⟨holder, acts, hu⟩, hdone⟩ ⟨hok, hn⟩
      obtain ⟨holder', hu'⟩ := hu.next hok hn
      refine ⟨⟨holder', _, hu'⟩, ?_⟩
      rw [history, trace_snoc _ hr.unguard, List.mem_append]
      obtain hdone | ⟨hwu, hle⟩ := hdone
      · exact .inl (.inl hdone)
      · obtain hact | ⟨hwu', hle'⟩ := hu.nearer hwu hok hn
        · exact .inl (.inr (by simp [hact]))
        · refine .inr ⟨hwu', ?_⟩
          have hsum : commands t (es ++ [e]) = commands t es + commands t [e] := List.countP_append
          omega
  obtain ⟨-, hdone | ⟨hwu, hle⟩⟩ := hrun
  · exact hdone
  · have hpos := left_pos hwu
    omega

/-- The lock file is there just while one worker works. The workers take turns,
in each of which one of them creates the file and removes the file it has
created: no unlock fails, and the turn is over when its worker has executed the
commands it has left. -/
theorem locked_by_creator (name : String) (files : Files W) (es : List (Event W)) (s : State W)
    (hfree : files name = none) (h : Run (Guarded (Exec (RunSh.next [name])) Undisturbed) (initial files) es s) :
    (s.files name ≠ none ↔ ∃! t, Working s t) ∧
    (∃ ts holder, history name (initial files) es = turns ts ++ holder.toList.map .created ∧
      s.files name = holder.map .created ∧ ∀ t, Working s t ↔ holder = some t) ∧
    ∀ t es' s', Working s t → Run (Guarded (Exec (RunSh.next [name])) Undisturbed) s es' s' →
      left (s.pc t) ≤ commands t es' → .removed t (.created t) ∈ history name s es' := by
  obtain ⟨holder, hs⟩ := run_owned hfree h
  obtain ⟨ts, hacts⟩ := hs.acts
  refine ⟨?_, ⟨ts, holder, hacts, hs.file, hs.working⟩, fun t es' s' hw h' hlong => hs.removes hw h' hlong⟩
  rw [hs.file]
  cases holder with
  | none => simp [ExistsUnique, hs.working]
  | some t => simp [ExistsUnique, hs.working]

/-- Two workers compete, the second one gets its turn after the first one. -/
def twoTurns : List (Event Nat) :=
  .step 0 false 0 :: .step 1 false 0 :: .step 1 false 0 :: .step 1 false 0 :: .step 1 false 0 ::
    List.replicate 8 (.step 0 false 0) ++ [.step 1 false 0]

theorem locked_by_creator_twoTurns : ∃ s,
    Run (Guarded (Exec (RunSh.next ["xxx"])) Undisturbed) (initial fun _ => none) twoTurns s ∧
    history "xxx" (initial fun _ => none) twoTurns = turns [0] ++ [.created 1] ∧
    (s.files "xxx" ≠ none ↔ ∃! t, Working s t) := by
  obtain ⟨s, hs, hacts⟩ : ∃ s, replay (guardedNext Undisturbed (RunSh.next ["xxx"])) (initial fun _ => none) twoTurns = some s ∧
      history "xxx" (initial fun _ => none) twoTurns = turns [0] ++ [.created 1] := ⟨_, rfl, by decide⟩
  exact ⟨s, replay_guarded hs, hacts, (locked_by_creator "xxx" _ twoTurns s rfl (replay_guarded hs)).1⟩

end UnixProg.FileLocking.LockOwner

import UnixProg.FileLocking.LockOwner

namespace UnixProg.FileLocking.LockStatus

open Lib Transition RunSh LockOwner

def blank (c : Char) : Bool := c == ' ' || c == '\t' || c == '\n'

/-- The words of a value that is not quoted. -/
def fields (arg : String) : List String :=
  ((arg.toList.splitBy fun c d => blank c == blank d).filter fun cs => !cs.any blank).map String.ofList

variable {W : Type}

/-- What the shell makes of `$1`. Pathname expansion of a word depends on the
files that there are. -/
def expand (glob : Files W → String → List String) (arg : String) (files : Files W) : List String :=
  (fields arg).flatMap (glob files)

/-- Steps of the workers, and other changes to the files. A trap that does not
come to its `exit`, because of what `$1` puts before it, is one of the latter. -/
inductive Act (W : Type)
  | worker (e : Event W)
  | outside (files : Files W)

/-- How an attempt to lock comes out. -/
inductive Attempt
  | created
  | existed
  | failed
  | usage
deriving DecidableEq

def Attempt.status : Attempt → Nat
  | .created => 0
  | .existed | .usage => 1
  | .failed => 2

def attempt (words : List String) (fails : Bool) (files : Files W) : Attempt :=
  match words with
  | [filename] => if fails then .failed else if files filename = none then .created else .existed
  | _ => .usage

inductive Record (W : Type)
  | attempt (t : W) (a : Attempt)
  | sleep (t : W)
  | work (t : W)
deriving DecidableEq

def Record.worker : Record W → W
  | .attempt t _ | .sleep t | .work t => t

/-- What a command does that the statuses decide about. -/
def note (words : List String) (t : W) (fails : Bool) (s : State W) : Option (Record W) :=
  match s.pc t with
  | .lock => some (.attempt t (attempt words fails s.files))
  | .isOne => if s.rc t = 1 then some (.sleep t) else none
  | .choose => some (.work t)
  | _ => none

variable {t u : W} {words : List String} {fails : Bool} {random : Nat} {files : Files W}

/-- The exit status tells a lock that is there from a call with a wrong number
of words no more than the script does. -/
theorem lockUnlock_status (t : W) (words : List String) (fails : Bool) (files : Files W) :
    (lockUnlock t (words ++ ["lock"]) fails files).2 = (attempt words fails files).status := by
  match words with
  | [] => rfl
  | [filename] =>
      cases hf : files filename <;> cases fails <;> simp [lockUnlock, lock, attempt, hf, Attempt.status]
  | [_, _] => rfl
  | _ :: _ :: _ :: _ => rfl

variable [DecidableEq W]

/-- The workers of one system, each with the `$1` that it was started with. -/
def next (glob : Files W → String → List String) (arg : W → String) (s : State W) : Act W → Option (State W)
  | .worker (.step t fails random) => RunSh.next (expand glob (arg t) s.files) s (.step t fails random)
  | .worker (.signal t) => RunSh.next (expand glob (arg t) s.files) s (.signal t)
  | .outside files => some { s with files := files }

def record (glob : Files W → String → List String) (arg : W → String) (s : State W) : Act W → List (Record W)
  | .worker (.step t fails _) => (note (expand glob (arg t) s.files) t fails s).toList
  | .worker (.signal _) | .outside _ => []

def history (glob : Files W → String → List String) (arg : W → String) (files : Files W) (acts : List (Act W)) :
    List (Record W) :=
  trace (next glob arg) (record glob arg) (initial files) acts

def latest (t : W) (h : List (Record W)) : Option (Record W) := (h.filter fun r => r.worker = t).getLast?

/-- What the documented statuses allow a worker to do after what it did before. -/
def Allowed (before : List (Record W)) : Record W → Prop
  | .work t => latest t before = some (.attempt t .created)
  | .sleep t => latest t before = some (.attempt t .existed)
  | .attempt t _ => .attempt t .failed ∉ before ∧
      (latest t before = none ∨ latest t before = some (.work t) ∨ latest t before = some (.sleep t))

instance (before : List (Record W)) : ∀ r, Decidable (Allowed before r)
  | .work _ | .sleep _ => inferInstanceAs (Decidable (_ = _))
  | .attempt _ _ => inferInstanceAs (Decidable (_ ∧ _))

def Follows (h : List (Record W)) : Prop := ∀ before r after, h = before ++ r :: after → Allowed before r

/-- At each attempt `$1` stands for one word, and `open()` fails for no other
reason than that the file exists. -/
def Plain (glob : Files W → String → List String) (arg : W → String) (s : State W) : Act W → Prop
  | .worker (.step t fails _) => s.pc t = .lock → fails = false ∧ (expand glob (arg t) s.files).length = 1
  | .worker (.signal _) | .outside _ => True

variable {glob : Files W → String → List String} {arg : W → String} {s s' : State W} {h : List (Record W)} {act : Act W}
  {acts : List (Act W)} {r : Record W} {o : Option (Record W)}

theorem latest_append (ho : ∀ r ∈ o, r.worker = t) : latest t (h ++ o.toList) = o.or (latest t h) := by
  cases o with
  | none => simp
  | some r => simp [latest, ho r rfl]

theorem latest_append_ne (ho : ∀ r ∈ o, r.worker ≠ t) : latest t (h ++ o.toList) = latest t h := by
  cases o with
  | none => simp
  | some r => simp [latest, ho r rfl]

theorem Follows.snoc (hf : Follows h) (hr : Allowed h r) : Follows (h ++ [r]) := by
  intro before r' after heq
  induction after using List.reverseRecOn with
  | nil =>
      obtain ⟨rfl, hr'⟩ := List.append_inj' heq rfl
      cases hr'
      exact hr
  | append_singleton after x _ =>
      rw [← List.cons_append, ← List.append_assoc] at heq
      exact hf before r' after (List.append_inj' heq rfl).1

/-- What a worker did last when it is at a command. -/
def At (t : W) (rc : Nat) (o : Option (Record W)) : Pc → Prop
  | .lock => o = none ∨ o = some (.work t) ∨ o = some (.sleep t)
  | .isTwo | .isOne => o = some (.attempt t .created) ∧ rc = 0 ∨ o = some (.attempt t .existed) ∧ rc = 1
  | .isZero => o = some (.attempt t .created) ∧ rc = 0 ∨ o = some (.sleep t) ∧ rc = 1
  | .choose => o = some (.attempt t .created)
  | .acquired _ | .work _ | .unlock | .rest => o = some (.work t)
  | .trap | .exit | .exited => True

structure Kept (s : State W) (h : List (Record W)) : Prop where
  follows : Follows h
  latest (t : W) : At t (s.rc t) (latest t h) (s.pc t)
  failed (t : W) : .attempt t .failed ∉ h

omit [DecidableEq W] in
theorem note_worker (hr : r ∈ note words t fails s) : r.worker = t := by
  rw [note] at hr
  split at hr
  · cases hr; rfl
  · split at hr <;> cases hr
    rfl
  · cases hr; rfl
  · cases hr

theorem command_at (hok : s.pc t = .lock → fails = false ∧ words.length = 1) (hat : At t (s.rc t) o (s.pc t))
    (hn : command words t fails random s = some s') :
    At t (s'.rc t) ((note words t fails s).or o) (s'.pc t) ∧ note words t fails s ≠ some (.attempt t .failed) := by
  cases hp : s.pc t with
  | lock =>
      obtain ⟨rfl, hwords⟩ := hok hp
      obtain ⟨filename, rfl⟩ := List.length_eq_one_iff.mp hwords
      simp only [command, hp, Option.some.injEq] at hn
      subst hn
      cases hf : s.files filename with
      | none | some => simp [note, hp, attempt, hf, At, State.goto, lockUnlock, lock]
  | isTwo =>
      rw [hp] at hat
      simp only [command, hp, Option.some.injEq] at hn
      subst hn
      refine ⟨?_, by simp [note, hp]⟩
      split
      · simpa only [note, hp, At, State.goto, State.print, Function.update_self, Option.none_or] using hat
      · simpa only [note, hp, At, State.goto, Function.update_self, Option.none_or] using hat
  | isOne | isZero =>
      rw [hp] at hat
      simp only [command, hp, Option.some.injEq] at hn
      subst hn
      obtain ⟨rfl, hrc⟩ | ⟨rfl, hrc⟩ := hat <;> simp [note, hp, hrc, At, State.goto]
  | choose | trap | exit =>
      simp only [command, hp, Option.some.injEq] at hn
      subst hn
      simp [note, hp, At, State.goto]
  | acquired n | unlock | rest =>
      rw [hp, At] at hat
      simp only [command, hp, Option.some.injEq] at hn
      subst hn
      simp [note, hp, hat, At, State.goto, State.print]
  | work n =>
      rw [hp, At] at hat
      cases n with
      | zero | succ =>
          simp only [command, hp, Option.some.injEq] at hn
          subst hn
          simp [note, hp, hat, At, State.goto, State.print]
  | exited => simp [command, hp] at hn

theorem Kept.allowed (hs : Kept s h) (hr : r ∈ note words t fails s) : Allowed h r := by
  have hat := hs.latest t
  rw [note] at hr
  split at hr
  · rename_i hp
    rw [hp] at hat
    cases hr
    exact ⟨hs.failed t, hat⟩
  · rename_i hp
    rw [hp] at hat
    obtain ⟨hrc, hr⟩ := Option.ite_none_right_eq_some.mp hr
    cases hr
    obtain ⟨_, hrc'⟩ | ⟨hex, _⟩ := hat
    · omega
    · exact hex
  · rename_i hp
    rw [hp] at hat
    cases hr
    exact hat
  · cases hr

theorem Kept.goto (hs : Kept s h) {p : Pc} (hp : At t (s.rc t) (LockStatus.latest t h) p) : Kept (s.goto t p) h := by
  refine ⟨hs.follows, fun u => ?_, hs.failed⟩
  by_cases hut : u = t
  · subst hut
    simpa [State.goto] using hp
  · simpa [State.goto, hut] using hs.latest u

theorem Kept.next (hs : Kept s h) (hok : Plain glob arg s act) (hn : next glob arg s act = some s') :
    Kept s' (h ++ record glob arg s act) := by
  match act with
  | .outside files =>
      cases hn
      rw [record, List.append_nil]
      exact ⟨hs.follows, hs.latest, hs.failed⟩
  | .worker (.signal t) =>
      simp only [LockStatus.next, RunSh.next, Option.ite_none_left_eq_some, Option.some.injEq] at hn
      obtain ⟨_, rfl⟩ := hn
      simpa [record] using hs.goto (p := .trap) trivial
  | .worker (.step t fails random) =>
      simp only [LockStatus.next, RunSh.next] at hn
      obtain ⟨hat, hfailed⟩ := command_at hok (hs.latest t) hn
      have hw (r) (hr : r ∈ note (expand glob (arg t) s.files) t fails s) : r.worker = t := note_worker hr
      refine ⟨?_, fun u => ?_, fun u hu => ?_⟩
      · cases hr : note (expand glob (arg t) s.files) t fails s with
        | none => simpa [record, hr] using hs.follows
        | some r =>
            rw [record, hr]
            exact hs.follows.snoc (hs.allowed hr)
      · by_cases hut : u = t
        · subst hut
          rw [record, latest_append hw]
          exact hat
        · obtain ⟨hpc, hrc⟩ := command_other hn hut
          rw [record, latest_append_ne (fun r hr => hw r hr ▸ Ne.symm hut), hpc, hrc]
          exact hs.latest u
      · obtain hu | hu := List.mem_append.mp hu
        · exact hs.failed u hu
        · have hr := Option.mem_toList.mp hu
          obtain rfl := hw _ hr
          exact hfailed hr

omit [DecidableEq W] in
theorem attempt_of_not_plain (files : Files W) (hbad : ¬ (fails = false ∧ words.length = 1)) :
    attempt words fails files = .failed ∨ attempt words fails files = .usage := by
  match words with
  | [filename] =>
      have hfails : fails = true := by simpa using hbad
      exact .inl (if_pos hfails)
  | [] | _ :: _ :: _ => exact .inr rfl

theorem history_snoc (hr : Run (Exec (next glob arg)) (initial files) acts s) (act : Act W) :
    history glob arg files (acts ++ [act]) = history glob arg files acts ++ record glob arg s act :=
  trace_snoc _ hr act

/-- The three tests after an attempt that did not return 0. -/
theorem retry (hr : Run (Exec (next glob arg)) (initial files) acts s) (hp : s.pc t = .isTwo) (hrc : s.rc t ≠ 0) :
    ∃ more s', Run (Exec (next glob arg)) (initial files) (acts ++ more) s' ∧ s'.pc t = .lock ∧
      history glob arg files (acts ++ more) = history glob arg files acts ++ if s.rc t = 1 then [.sleep t] else [] := by
  let act : Act W := .worker (.step t false 0)
  let s₂ := (if s.rc t = 2 then s.print .failure else s).goto t .isOne
  have hp₂ : s₂.pc t = .isOne := Function.update_self ..
  have hrc₂ : s₂.rc t = s.rc t := by simp only [s₂, State.goto]; split <;> rfl
  have hr₂ : Run (Exec (next glob arg)) (initial files) (acts ++ [act]) s₂ :=
    hr.snoc (by simp only [Exec, act, s₂, LockStatus.next, RunSh.next, command, hp])
  have hp₃ : (s₂.goto t .isZero).pc t = .isZero := Function.update_self ..
  have hrc₃ : (s₂.goto t .isZero).rc t ≠ 0 := hrc₂ ▸ hrc
  have hr₃ : Run (Exec (next glob arg)) (initial files) (acts ++ [act] ++ [act]) (s₂.goto t .isZero) :=
    hr₂.snoc (by simp only [Exec, act, LockStatus.next, RunSh.next, command, hp₂])
  have hr₄ : Run (Exec (next glob arg)) (initial files) (acts ++ [act] ++ [act] ++ [act])
      ((s₂.goto t .isZero).goto t .lock) :=
    hr₃.snoc (by simp only [Exec, act, LockStatus.next, RunSh.next, command, hp₃, if_neg hrc₃])
  refine ⟨[act] ++ [act] ++ [act], _, by simpa using hr₄, Function.update_self .., ?_⟩
  have hh := history_snoc hr₃ act
  rw [history_snoc hr₂, history_snoc hr] at hh
  simp only [List.append_assoc] at hh ⊢
  rw [hh]
  congr 1
  simp only [record, act, note, hp, hp₂, hp₃, hrc₂, Option.toList_none, List.append_nil, List.nil_append]
  split <;> rfl

/-- After any other attempt the script goes on as if the file were there, and
tries again. -/
theorem attempt_breaks (hr : Run (Exec (next glob arg)) (initial files) acts s) (hp : s.pc t = .lock)
    (hbad : ¬ (fails = false ∧ (expand glob (arg t) s.files).length = 1)) : ∃ more s',
    Run (Exec (next glob arg)) (initial files) (acts ++ .worker (.step t fails random) :: more) s' ∧
    ¬ Follows (history glob arg files (acts ++ .worker (.step t fails random) :: more)) := by
  obtain ⟨s₁, hn, hp₁, hrc⟩ : ∃ s₁, next glob arg s (.worker (.step t fails random)) = some s₁ ∧ s₁.pc t = .isTwo ∧
      s₁.rc t = (attempt (expand glob (arg t) s.files) fails s.files).status := by
    refine ⟨_, by simp only [LockStatus.next, RunSh.next, command, hp]; rfl, Function.update_self .., ?_⟩
    rw [← lockUnlock_status t]
    exact Function.update_self ..
  have hh := history_snoc hr (.worker (.step t fails random))
  simp only [record, note, hp, Option.toList_some] at hh
  obtain ha | ha := attempt_of_not_plain s.files hbad <;> rw [ha] at hrc hh
  · obtain ⟨more, s', hr', hp', hh'⟩ := retry (hr.snoc hn) hp₁ (by simp [hrc, Attempt.status])
    have hlast := history_snoc hr' (.worker (.step t false 0))
    rw [hh', hh] at hlast
    simp only [record, note, hp', Option.toList_some] at hlast
    obtain ⟨s₂, hs₂⟩ : ∃ s₂, next glob arg s' (.worker (.step t false 0)) = some s₂ := by
      simp only [LockStatus.next, RunSh.next, command, hp']
      exact ⟨_, rfl⟩
    refine ⟨more ++ [.worker (.step t false 0)], s₂, by simpa using hr'.snoc hs₂, fun hf => ?_⟩
    rw [List.append_cons, ← List.append_assoc, hlast] at hf
    have := (hf _ _ [] rfl).1
    simp at this
  · obtain ⟨more, s', hr', hp', hh'⟩ := retry (hr.snoc hn) hp₁ (by simp [hrc, Attempt.status])
    refine ⟨more, s', by simpa using hr', fun hf => ?_⟩
    rw [List.append_cons, hh', hh, hrc] at hf
    have := hf _ _ [] rfl
    simp [Allowed, latest, Record.worker] at this

/-- The workers keep to the documented statuses as long as `$1` is one word and
nothing fails. From any other attempt on they can break them. -/
theorem follows_while_plain (glob : Files W → String → List String) (arg : W → String) (files : Files W) :
    (∀ acts s, Run (Guarded (Exec (next glob arg)) (Plain glob arg)) (initial files) acts s →
      Follows (history glob arg files acts)) ∧
    ∀ acts s act, Run (Exec (next glob arg)) (initial files) acts s → ¬ Plain glob arg s act → ∃ more s',
      Run (Exec (next glob arg)) (initial files) (acts ++ act :: more) s' ∧
      ¬ Follows (history glob arg files (acts ++ act :: more)) := by
  constructor
  · intro acts s hr
    have hkept : Kept s (history glob arg files acts) := by
      apply hr.invariant (I := fun acts s => Kept s (history glob arg files acts))
      · refine ⟨fun before r after heq => ?_, fun t => .inl rfl, fun t => List.not_mem_nil⟩
        have := congrArg List.length heq
        simp [history, trace] at this
      · intro acts act s s' hr hs hn
        rw [history_snoc hr.unguard]
        exact hs.next hn.1 hn.2
    exact hkept.follows
  · intro acts s act hr hbad
    cases act with
    | outside => exact absurd trivial hbad
    | worker e =>
        cases e with
        | signal => exact absurd trivial hbad
        | step t fails random =>
            simp only [Plain, Classical.not_imp] at hbad
            exact attempt_breaks hr hbad.1 hbad.2

/-- No pattern characters, so every word stands for itself. -/
def noPattern : Files Nat → String → List String := fun _ word => [word]

/-- A name with a blank in it is reported as a lock that is there, and after an
open that fails the worker tries again. -/
theorem statuses_mixed_up :
    (∃ s, Run (Exec (next noPattern fun _ => "my lock")) (initial fun _ => none)
        (List.replicate 3 (.worker (.step 0 false 0))) s ∧
      ¬ Follows (history noPattern (fun _ => "my lock") (fun _ => none)
        (List.replicate 3 (.worker (.step 0 false 0))))) ∧
    ∃ s, Run (Exec (next noPattern fun _ => "xxx")) (initial fun _ => none)
        (List.replicate 5 (.worker (.step 0 true 0))) s ∧
      ¬ Follows (history noPattern (fun _ => "xxx") (fun _ => none) (List.replicate 5 (.worker (.step 0 true 0)))) := by
  constructor
  · refine ⟨_, replay_run rfl, fun hf => ?_⟩
    have := hf [.attempt 0 .usage] (.sleep 0) [] (by decide)
    revert this
    decide
  · refine ⟨_, replay_run rfl, fun hf => ?_⟩
    have := hf [.attempt 0 .failed] (.attempt 0 .failed) [] (by decide)
    revert this
    decide

end UnixProg.FileLocking.LockStatus

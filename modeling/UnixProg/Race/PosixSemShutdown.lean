import UnixProg.Lib.ProcessRule
import UnixProg.Race.PosixSemFixedRace

namespace UnixProg.Race.PosixSemShutdown

open Lib Transition Semaphore ProcessRule SharedBytes PosixSemFixedRace

def inWaitpid : Ctl Pc → Bool
  | .blocked .waitpid _ => true
  | _ => false

/-- A process that is blocked in `waitpid()` gets no SIGINT. -/
def NotInWaitpid (s : State Proc Pc Mem) : Event Proc → Prop
  | .exec _ _ => True
  | .signal t => inWaitpid (s.ctl t) = false

instance (s : State Proc Pc Mem) : ∀ e, Decidable (NotInWaitpid s e)
  | .exec _ _ => inferInstanceAs (Decidable True)
  | .signal t => inferInstanceAs (Decidable (inWaitpid (s.ctl t) = false))

/-- No assertion has failed, and the name of the semaphore does not outlive
the two processes. -/
structure ShutDown (m : Mem) : Prop where
  asserted : m.aborted = false
  unlinked (h : ∀ t, m.exited t = true) : m.unlinked = true

/-- On the way to its end a process has cleaned up. -/
structure Orderly (t : Proc) (p : Pc) (m : Mem) : Prop where
  asserted : m.aborted = false
  passed : p ≠ .failed
  cleaned (ht : t = .parent) (hp : p = .exit ∨ p = .gone) : m.unlinked = true
  exited (h : m.exited t = true) : p = .gone

/-- Past the calls that a process makes before it exits. -/
def late : Pc → Bool
  | .failed | .exit | .gone => true
  | _ => false

variable {t u : Proc} {p p' q : Pc} {m m' : Mem} {c : Cmd Pc Mem} {s : State Proc Pc Mem}

theorem Orderly.early (h : Orderly t p m) (hp : late p = false) (hp' : late p' = false)
    (hab : m'.aborted = m.aborted) (hex : m'.exited t = m.exited t) : Orderly t p' m' := by
  have hne (q : Pc) (hq : late q = true) : p' ≠ q := fun heq => by rw [← heq, hp'] at hq; cases hq
  refine ⟨hab.trans h.asserted, hne .failed rfl, fun _ hend => ?_, fun he => ?_⟩
  · exact (hend.elim (hne .exit rfl) (hne .gone rfl)).elim
  · rw [h.exited (hex ▸ he)] at hp
    cases hp

theorem goes_self (hc : c ∈ program.cmds t p m) (hg : c.Goes m m' p') (h : Orderly t p m) : Orderly t p' m' := by
  cases p with
  | gone => cases hc
  | failed => exact absurd rfl h.passed
  | wait | post =>
      obtain rfl := List.mem_singleton.mp hc
      obtain ⟨rfl, rfl | hr⟩ := hg
      · exact h.early rfl rfl rfl rfl
      · cases hr
  | waitpid =>
      obtain rfl := List.mem_singleton.mp hc
      obtain ⟨hready, rfl⟩ := hg
      obtain ⟨_, heq⟩ := Option.ite_none_right_eq_some.mp hready
      cases heq
      exact h.early rfl rfl rfl rfl
  | loop =>
      obtain rfl := List.mem_singleton.mp hc
      obtain ⟨rfl, rfl⟩ := hg
      apply h.early rfl _ rfl rfl
      split
      · rfl
      · cases t <;> rfl
  | body p =>
      obtain rfl := List.mem_singleton.mp hc
      obtain ⟨rfl, rfl⟩ := hg
      cases p <;> exact h.early rfl rfl rfl rfl
  | count | stats =>
      obtain rfl := List.mem_singleton.mp hc
      obtain ⟨rfl, rfl⟩ := hg
      exact h.early rfl rfl rfl rfl
  | clean =>
      obtain rfl := List.mem_singleton.mp hc
      obtain ⟨rfl, rfl⟩ := hg
      cases t with
      | parent => exact ⟨h.asserted, by decide, fun _ _ => rfl, fun he => nomatch h.exited he⟩
      | child => exact ⟨h.asserted, by decide, fun ht => (nomatch ht), fun he => nomatch h.exited he⟩
  | exit =>
      obtain rfl := List.mem_singleton.mp hc
      obtain ⟨rfl, rfl⟩ := hg
      exact ⟨h.asserted, by decide, fun ht _ => h.cleaned ht (.inl rfl), fun _ => rfl⟩

theorem goes_other (hc : c ∈ program.cmds t p m) (hg : c.Goes m m' p') (ht : Orderly t p m) (hu : u ≠ t)
    (h : Orderly u q m) : Orderly u q m' := by
  suffices hsame : m'.aborted = m.aborted ∧ (m.unlinked = true → m'.unlinked = true) ∧ m'.exited u = m.exited u from
    ⟨hsame.1.trans h.asserted, h.passed, fun hp he => hsame.2.1 (h.cleaned hp he), fun he => h.exited (hsame.2.2 ▸ he)⟩
  cases p with
  | gone => cases hc
  | failed => exact absurd rfl ht.passed
  | wait | post =>
      obtain rfl := List.mem_singleton.mp hc
      rw [hg.1]
      exact ⟨rfl, id, rfl⟩
  | waitpid =>
      obtain rfl := List.mem_singleton.mp hc
      obtain ⟨hready, rfl⟩ := hg
      obtain ⟨_, heq⟩ := Option.ite_none_right_eq_some.mp hready
      cases heq
      exact ⟨rfl, id, rfl⟩
  | clean =>
      obtain rfl := List.mem_singleton.mp hc
      obtain ⟨rfl, rfl⟩ := hg
      cases t with
      | parent => exact ⟨rfl, fun _ => rfl, rfl⟩
      | child => exact ⟨rfl, id, rfl⟩
  | exit =>
      obtain rfl := List.mem_singleton.mp hc
      obtain ⟨rfl, rfl⟩ := hg
      exact ⟨rfl, id, Function.update_of_ne hu _ _⟩
  | loop | body p | count | stats =>
      obtain rfl := List.mem_singleton.mp hc
      obtain ⟨rfl, rfl⟩ := hg
      exact ⟨rfl, id, rfl⟩

theorem interrupted_orderly (hok : NotInWaitpid s (.signal t)) (hbl : s.ctl t = .blocked p q)
    (hc : c ∈ program.cmds t p m') (hq : c.interrupted = some q) (h : Orderly t p m) : Orderly t q m := by
  cases p with
  | gone => cases hc
  | wait =>
      obtain rfl := List.mem_singleton.mp hc
      cases hq
      exact h.early rfl rfl rfl rfl
  | waitpid =>
      rw [NotInWaitpid, hbl] at hok
      cases hok
  | loop | body p | post | count | failed | stats | clean | exit =>
      obtain rfl := List.mem_singleton.mp hc
      cases hq

theorem program_own : Own program NotInWaitpid Orderly where
  self := goes_self
  other := goes_other
  handled := fun _ h => ⟨h.asserted, h.passed, h.cleaned, h.exited⟩
  interrupted := interrupted_orderly

theorem initial_orderly (value : Nat) (t : Proc) : Orderly t .loop (initial value).mem :=
  ⟨rfl, by decide, fun _ h => by cases h <;> contradiction, fun h => by cases h⟩

/-- The end is orderly as long as no signal interrupts `waitpid()`. -/
theorem shutDown_unless_interrupted (value : Nat) (es : List (Event Proc)) (s : State Proc Pc Mem)
    (h : Run (Guarded (Exec (next program)) NotInWaitpid) (initial value) es s) : ShutDown s.mem := by
  have hs := run_own program_own (initial_orderly value) h .parent
  exact ⟨hs.asserted, fun hall => hs.cleaned rfl (.inr (hs.exited (hall .parent)))⟩

/-- Ctrl-C while both processes are in their loops. -/
def once : List (Event Proc) :=
  [.signal .parent, .signal .child, .exec .parent 0, .exec .parent 0, .exec .child 0, .exec .child 0, .exec .child 0,
    .exec .child 0, .exec .parent 0, .exec .parent 0, .exec .parent 0, .exec .parent 0]

theorem shutDown_unless_interrupted_once : ∃ s,
    Run (Guarded (Exec (next program)) NotInWaitpid) (initial 1) once s ∧ (∀ t, s.mem.exited t = true) ∧
    s.mem.aborted = false ∧ s.mem.unlinked = true := by
  obtain ⟨s, hs, hall⟩ : ∃ s, replay (guardedNext NotInWaitpid (next program)) (initial 1) once = some s ∧
      ∀ t, s.mem.exited t = true := ⟨_, rfl, fun t => by cases t <;> rfl⟩
  have hdown := shutDown_unless_interrupted 1 once s (replay_guarded hs)
  exact ⟨s, replay_guarded hs, hall, hdown.asserted, hdown.unlinked hall⟩

/-- A second Ctrl-C reaches the parent in `waitpid()` while the child is about
to leave its loop. -/
def twice : List (Event Proc) :=
  [.signal .parent, .signal .child, .exec .parent 0, .exec .parent 0, .signal .parent, .exec .parent 0, .exec .parent 0,
    .exec .child 0, .exec .child 0, .exec .child 0, .exec .child 0]

theorem aborted_when_interrupted : ∃ s, Run (Exec (next program)) (initial 1) twice s ∧ s.mem.aborted = true ∧
    (∀ t, s.mem.exited t = true) ∧ s.mem.unlinked = false ∧ ¬ ShutDown s.mem := by
  obtain ⟨s, hs, hab, hall, hun⟩ : ∃ s, replay (next program) (initial 1) twice = some s ∧ s.mem.aborted = true ∧
      (∀ t, s.mem.exited t = true) ∧ s.mem.unlinked = false := ⟨_, rfl, rfl, fun t => by cases t <;> rfl, rfl⟩
  refine ⟨s, replay_run hs, hab, hall, hun, fun hdown => ?_⟩
  rw [hdown.asserted] at hab
  cases hab

end UnixProg.Race.PosixSemShutdown

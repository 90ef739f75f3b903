import UnixProg.Lib.ThreadSum
import UnixProg.Lib.Transition

namespace UnixProg.Lib.Semaphore

open Transition ThreadSum

variable {T P M : Type}

/-- What a process does at a point of its code. A `down` goes on at its first
point with the semaphore taken, at its second one when a signal interrupts it
and at its third one when the semaphore was removed, if that can happen to it.
An `await` blocks until it is ready, and can be interrupted as well. -/
inductive Cmd (P M : Type)
  | run (m : M) (p : P)
  | down (p q : P) (r : Option P)
  | up (p : P) (r : Option P)
  | remove (p : P)
  | await (ready : Option M) (p q : P)

/-- One try of a command. It fails when the call has to block. -/
def Cmd.attempt (sem : Option Nat) (m : M) : Cmd P M → Option (Option Nat × M × P)
  | .run m' p => some (sem, m', p)
  | .down p _ r => match sem with
    | none => r.map (fun p' => (none, m, p'))
    | some 0 => none
    | some (v + 1) => some (some v, m, p)
  | .up p r => match sem with
    | none => r.map (fun p' => (none, m, p'))
    | some v => some (some (v + 1), m, p)
  | .remove p => some (none, m, p)
  | .await ready p _ => ready.map (fun m' => (sem, m', p))

/-- What a command that does not block does to the memory, and where it leads. -/
def Cmd.Goes (c : Cmd P M) (m m' : M) (p' : P) : Prop :=
  match c with
  | .run m₁ p₁ => m' = m₁ ∧ p' = p₁
  | .down p₁ _ r | .up p₁ r => m' = m ∧ (p' = p₁ ∨ r = some p')
  | .remove p₁ => m' = m ∧ p' = p₁
  | .await ready p₁ _ => ready = some m' ∧ p' = p₁

def Cmd.interrupted : Cmd P M → Option P
  | .down _ q _ | .await _ _ q => some q
  | .run _ _ | .up _ _ | .remove _ => none

/-- The alternatives of each process at each point, and what its signal
handler does to the memory. -/
structure Prog (T P M : Type) where
  cmds : T → P → M → List (Cmd P M)
  handler : T → M → M

/-- A blocked process keeps the point of its call and the point to which an
interruption takes it. -/
inductive Ctl (P : Type)
  | running (p : P)
  | blocked (p q : P)
deriving DecidableEq

def Ctl.pc : Ctl P → P
  | .running p | .blocked p _ => p

/-- The value of the semaphore is missing once it was removed. -/
structure State (T P M : Type) where
  sem : Option Nat
  ctl : T → Ctl P
  mem : M

def State.pc (s : State T P M) (t : T) : P := (s.ctl t).pc

inductive Event (T : Type)
  | exec (t : T) (k : Nat)
  | signal (t : T)
deriving DecidableEq

def start (init : Nat) (p₀ : T → P) (m₀ : M) : State T P M := ⟨some init, fun t => .running (p₀ t), m₀⟩

section Step

variable [DecidableEq T]

def State.goto (s : State T P M) (t : T) (c : Ctl P) : State T P M := { s with ctl := Function.update s.ctl t c }

def block (s : State T P M) (t : T) (c : Cmd P M) : Option (State T P M) :=
  match s.ctl t, c.interrupted with
  | .running p, some q => some (s.goto t (.blocked p q))
  | _, _ => none

def next (prog : Prog T P M) (s : State T P M) : Event T → Option (State T P M)
  | .exec t k => match (prog.cmds t (s.pc t) s.mem)[k]? with
    | none => none
    | some c => match c.attempt s.sem s.mem with
      | none => block s t c
      | some (sem, m, p) => some ⟨sem, Function.update s.ctl t (.running p), m⟩
  | .signal t => match s.ctl t with
    | .running _ => some { s with mem := prog.handler t s.mem }
    | .blocked _ q => some { s.goto t (.running q) with mem := prog.handler t s.mem }

end Step

/-- A program keeps to the semaphore when its inner points are entered by a
`down`, left by an `up`, and hold no call that blocks. -/
def Cmd.Keeps (inside : P → Bool) (p : P) : Cmd P M → Prop
  | .run _ p' | .remove p' => inside p' = inside p
  | .down p' _ r => inside p = false ∧ inside p' = true ∧ ∀ p'' ∈ r, inside p'' = false
  | .up p' r => inside p = true ∧ inside p' = false ∧ ∀ p'' ∈ r, inside p'' = false
  | .await _ p' _ => inside p = false ∧ inside p' = false

def Disciplined (prog : Prog T P M) (inside : P → Bool) : Prop :=
  ∀ t p m, ∀ c ∈ prog.cmds t p m, c.Keeps inside p

/-- The signal does not take a blocked process to an inner point. -/
def Harmless (inside : P → Bool) (s : State T P M) (e : Event T) : Prop :=
  ∀ t p q, e = .signal t → s.ctl t = .blocked p q → inside q = false

/-- There are no signals at all. -/
def NoSignal (_ : State T P M) : Event T → Prop
  | .exec _ _ => True
  | .signal _ => False

instance (s : State T P M) : ∀ e, Decidable (NoSignal s e)
  | .exec _ _ => inferInstanceAs (Decidable True)
  | .signal _ => inferInstanceAs (Decidable False)

variable {prog : Prog T P M} {inside : P → Bool} {s s' : State T P M} {e : Event T} {es : List (Event T)} {init : Nat}

/-- A process is blocked in a call at its point. -/
def BlockedIn (prog : Prog T P M) (s : State T P M) : Prop :=
  ∀ t p q, s.ctl t = .blocked p q → ∃ m, ∃ c ∈ prog.cmds t p m, c.interrupted = some q

def BlockedOutside (prog : Prog T P M) (inside : P → Bool) (s : State T P M) : Prop :=
  ∀ t p q, s.ctl t = .blocked p q → inside p = false ∧ ∃ m, ∃ c ∈ prog.cmds t p m, c.interrupted = some q

/-- A unit of the semaphore is either in its value or with a process inside. -/
def Conserved (init : Nat) (sem : Option Nat) (n : Nat) : Prop :=
  match sem with
  | some v => v + n = init
  | none => n ≤ init

/-- What a command that does not block finds and does. -/
inductive Cmd.Tries (m : M) : Cmd P M → Option Nat → Option Nat → M → P → Prop
  | run (sem m' p) : Tries m (.run m' p) sem sem m' p
  | down (v p q r) : Tries m (.down p q r) (some (v + 1)) (some v) m p
  | downGone (p q p') : Tries m (.down p q (some p')) none none m p'
  | up (v p r) : Tries m (.up p r) (some v) (some (v + 1)) m p
  | upGone (p p') : Tries m (.up p (some p')) none none m p'
  | remove (sem p) : Tries m (.remove p) sem none m p
  | await (sem m' p q) : Tries m (.await (some m') p q) sem sem m' p

theorem Cmd.attempt_tries {c : Cmd P M} {sem sem' : Option Nat} {m m' : M} {p : P}
    (h : c.attempt sem m = some (sem', m', p)) : c.Tries m sem sem' m' p := by
  cases c with
  | run m₁ p₁ =>
      cases h
      exact .run ..
  | remove p₁ =>
      cases h
      exact .remove ..
  | down p₁ q r =>
      rcases sem with _ | _ | v
      · obtain ⟨_, rfl, heq⟩ := Option.map_eq_some_iff.mp h
        cases heq
        exact .downGone ..
      · cases h
      · cases h
        exact .down ..
  | up p₁ r =>
      rcases sem with _ | v
      · obtain ⟨_, rfl, heq⟩ := Option.map_eq_some_iff.mp h
        cases heq
        exact .upGone ..
      · cases h
        exact .up ..
  | await ready p₁ q =>
      obtain ⟨_, rfl, heq⟩ := Option.map_eq_some_iff.mp h
      cases heq
      exact .await ..

theorem Cmd.Keeps.attempt {c : Cmd P M} {p p' : P} {sem sem' : Option Nat} {m m' : M} {n : Nat}
    (hk : c.Keeps inside p) (ha : c.attempt sem m = some (sem', m', p'))
    (h : Conserved init sem (n + (inside p).toNat)) : Conserved init sem' (n + (inside p').toNat) := by
  cases Cmd.attempt_tries ha with
  | run =>
      rw [hk]
      exact h
  | down =>
      obtain ⟨hp, hp', _⟩ := hk
      rw [hp] at h
      rw [hp']
      simp only [Conserved, Bool.toNat_false, Bool.toNat_true] at h ⊢
      omega
  | downGone =>
      obtain ⟨hp, _, hr⟩ := hk
      rw [hp] at h
      rw [hr _ rfl]
      exact h
  | up =>
      obtain ⟨hp, hp', _⟩ := hk
      rw [hp] at h
      rw [hp']
      simp only [Conserved, Bool.toNat_false, Bool.toNat_true] at h ⊢
      omega
  | upGone =>
      obtain ⟨hp, _, hr⟩ := hk
      rw [hp] at h
      rw [hr _ rfl]
      exact Nat.le_of_succ_le h
  | remove =>
      have hp : inside p' = inside p := hk
      rw [hp]
      cases sem with
      | none => exact h
      | some v => exact (Nat.le_add_left _ v).trans (Nat.le_of_eq h)
  | await =>
      obtain ⟨hp, hp'⟩ := hk
      rw [hp] at h
      rw [hp']
      exact h

variable [DecidableEq T]

theorem exec_run {t : T} {k : Nat} {m : M} {p : P} (hc : (prog.cmds t (s.pc t) s.mem)[k]? = some (.run m p)) :
    next prog s (.exec t k) = some ⟨s.sem, Function.update s.ctl t (.running p), m⟩ := by
  simp [next, hc, Cmd.attempt]

theorem exec_down {t : T} {k v : Nat} {p q : P} {r : Option P}
    (hc : (prog.cmds t (s.pc t) s.mem)[k]? = some (.down p q r)) (hv : s.sem = some (v + 1)) :
    next prog s (.exec t k) = some ⟨some v, Function.update s.ctl t (.running p), s.mem⟩ := by
  simp [next, hc, hv, Cmd.attempt]

theorem exec_noSignal {s₀ : State T P M} {t : T} {k : Nat} (h : Reachable (Guarded (Exec (next prog)) NoSignal) s₀ s)
    (hl : next prog s (.exec t k) = some s') : Reachable (Guarded (Exec (next prog)) NoSignal) s₀ s' :=
  h.tail (l := .exec t k) ⟨trivial, hl⟩

/-- The two ways in which a process goes on by itself. -/
theorem next_exec {t : T} {k : Nat} (h : next prog s (.exec t k) = some s') :
    ∃ c ∈ prog.cmds t (s.pc t) s.mem,
      (∃ sem m p, c.attempt s.sem s.mem = some (sem, m, p) ∧ s' = ⟨sem, Function.update s.ctl t (.running p), m⟩) ∨
      ∃ p q, s.ctl t = .running p ∧ c.interrupted = some q ∧ s' = s.goto t (.blocked p q) := by
  simp only [next] at h
  split at h
  · cases h
  · rename_i c hc
    refine ⟨c, List.mem_of_getElem? hc, ?_⟩
    split at h
    · simp only [block] at h
      split at h
      · rename_i p q hp hq
        cases h
        exact .inr ⟨p, q, hp, hq, rfl⟩
      · cases h
    · rename_i sem m p ha
      cases h
      exact .inl ⟨sem, m, p, ha, rfl⟩

theorem next_signal {t : T} (h : next prog s (.signal t) = some s') :
    s' = { s with mem := prog.handler t s.mem } ∨
    ∃ p q, s.ctl t = .blocked p q ∧ s' = { s.goto t (.running q) with mem := prog.handler t s.mem } := by
  simp only [next] at h
  split at h
  · cases h
    exact .inl rfl
  · rename_i p q hb
    cases h
    exact .inr ⟨p, q, hb, rfl⟩

theorem pc_update (c : T → Ctl P) (t : T) (x : Ctl P) :
    (fun u => (Function.update c t x u).pc) = Function.update (fun u => (c u).pc) t x.pc := by
  funext u
  by_cases hu : u = t
  · subst hu
    simp
  · simp [hu]

theorem pc_goto (s : State T P M) (t : T) (c : Ctl P) : (s.goto t c).pc = Function.update s.pc t c.pc :=
  pc_update s.ctl t c

omit [DecidableEq T] in
theorem Cmd.attempt_goes {c : Cmd P M} {sem sem' : Option Nat} {m m' : M} {p : P}
    (h : c.attempt sem m = some (sem', m', p)) : c.Goes m m' p := by
  cases Cmd.attempt_tries h with
  | run | remove | await => exact ⟨rfl, rfl⟩
  | down | up => exact ⟨rfl, .inl rfl⟩
  | downGone | upGone => exact ⟨rfl, .inr rfl⟩

/-- What a step does: a process blocks, executes a command, or gets a signal. -/
theorem next_tries (h : next prog s e = some s') :
    (s'.pc = s.pc ∧ s'.sem = s.sem ∧ s'.mem = s.mem) ∨
    (∃ t k, e = .exec t k ∧ ∃ c ∈ prog.cmds t (s.pc t) s.mem, ∃ p,
      c.attempt s.sem s.mem = some (s'.sem, s'.mem, p) ∧ s'.pc = Function.update s.pc t p) ∨
    ∃ t, e = .signal t ∧ s'.sem = s.sem ∧ s'.mem = prog.handler t s.mem ∧
      (s'.pc = s.pc ∨ ∃ p q, s.ctl t = .blocked p q ∧ s'.pc = Function.update s.pc t q) := by
  cases e with
  | exec t k =>
      obtain ⟨c, hc, ⟨sem, m, p, ha, rfl⟩ | ⟨p, q, hp, _, rfl⟩⟩ := next_exec h
      · exact .inr (.inl ⟨t, k, rfl, c, hc, p, ha, pc_update s.ctl t (.running p)⟩)
      · refine .inl ⟨?_, rfl, rfl⟩
        have hpc : s.pc t = p := by simp [State.pc, hp, Ctl.pc]
        rw [pc_goto]
        exact hpc ▸ Function.update_eq_self t s.pc
  | signal t =>
      rcases next_signal h with rfl | ⟨p, q, hbl, rfl⟩
      · exact .inr (.inr ⟨t, rfl, rfl, rfl, .inl rfl⟩)
      · exact .inr (.inr ⟨t, rfl, rfl, rfl, .inr ⟨p, q, hbl, pc_goto s t _⟩⟩)

/-- The same for the invariants that do not speak of the semaphore. -/
theorem next_view (h : next prog s e = some s') :
    s'.pc = s.pc ∧ s'.mem = s.mem ∨
    (∃ t k, e = .exec t k ∧ ∃ c ∈ prog.cmds t (s.pc t) s.mem, ∃ p, c.Goes s.mem s'.mem p ∧
      s'.pc = Function.update s.pc t p) ∨
    ∃ t, e = .signal t ∧ s'.mem = prog.handler t s.mem ∧
      (s'.pc = s.pc ∨ ∃ p q, s.ctl t = .blocked p q ∧ s'.pc = Function.update s.pc t q) := by
  obtain ⟨hpc, _, hm⟩ | ⟨t, k, rfl, c, hc, p, ha, hpc⟩ | ⟨t, rfl, _, hm, hpc⟩ := next_tries h
  · exact .inl ⟨hpc, hm⟩
  · exact .inr (.inl ⟨t, k, rfl, c, hc, p, Cmd.attempt_goes ha, hpc⟩)
  · exact .inr (.inr ⟨t, rfl, hm, hpc⟩)

theorem next_blockedIn (hb : BlockedIn prog s) (h : next prog s e = some s') : BlockedIn prog s' := by
  have hrunning {c : T → Ctl P} {t u : T} {p q r : P} (hu : Function.update c t (.running r) u = .blocked p q) :
      c u = .blocked p q := by
    by_cases hut : u = t
    · subst hut
      simp at hu
    · simpa [hut] using hu
  cases e with
  | exec t k =>
      obtain ⟨c, hc, ⟨sem, m, p, _, rfl⟩ | ⟨p, q, hp, hq, rfl⟩⟩ := next_exec h
      · exact fun u p' q' hu => hb u p' q' (hrunning hu)
      · intro u p' q' hu
        by_cases hut : u = t
        · subst hut
          have hpq : Ctl.blocked p q = .blocked p' q' := by simpa [State.goto] using hu
          cases hpq
          have hpc : s.pc u = p := by simp [State.pc, hp, Ctl.pc]
          rw [hpc] at hc
          exact ⟨_, c, hc, hq⟩
        · exact hb u p' q' (by simpa [State.goto, hut] using hu)
  | signal t =>
      rcases next_signal h with rfl | ⟨p, q, _, rfl⟩
      · exact hb
      · exact fun u p' q' hu => hb u p' q' (hrunning hu)

theorem run_blockedIn {p₀ : T → P} {m₀ : M} (h : Run (Exec (next prog)) (start init p₀ m₀) es s) : BlockedIn prog s :=
  h.invariant (I := fun _ s => BlockedIn prog s) (fun _ _ _ hc => by cases hc)
    (fun _ _ _ _ _ hb hl => next_blockedIn hb hl)

theorem run_blockedOutside {p₀ : T → P} {m₀ : M} (hd : Disciplined prog inside)
    (h : Run (Exec (next prog)) (start init p₀ m₀) es s) : BlockedOutside prog inside s := by
  intro t p q hbl
  obtain ⟨m, c, hc, hq⟩ := run_blockedIn h t p q hbl
  refine ⟨?_, m, c, hc, hq⟩
  have hk := hd t p m c hc
  cases c with
  | down | await => exact hk.1
  | run | up | remove => cases hq

/-- A condition on the signals makes a run harmless when it keeps each of them
from taking a blocked process inside. -/
theorem guarded_harmless {ok : State T P M → Event T → Prop} {p₀ : T → P} {m₀ : M} (hd : Disciplined prog inside)
    (hok : ∀ s t p q, ok s (.signal t) → s.ctl t = .blocked p q →
      ∀ m, ∀ c ∈ prog.cmds t p m, c.interrupted = some q → inside q = false)
    (h : Run (Guarded (Exec (next prog)) ok) (start init p₀ m₀) es s) :
    Run (Guarded (Exec (next prog)) (Harmless inside)) (start init p₀ m₀) es s := by
  induction h with
  | nil => exact .nil
  | snoc hr hl ih =>
      refine .snoc ih ⟨?_, hl.2⟩
      rintro t p q rfl hbl
      obtain ⟨_, m, c, hc, hq⟩ := run_blockedOutside hd hr.unguard t p q hbl
      exact hok _ t p q hl.1 hbl m c hc hq

/-- Where no interruption leads inside, every run is harmless. -/
theorem run_harmless {p₀ : T → P} {m₀ : M} (hd : Disciplined prog inside)
    (hsteady : ∀ t p m, ∀ c ∈ prog.cmds t p m, ∀ q, c.interrupted = some q → inside q = false)
    (h : Run (Exec (next prog)) (start init p₀ m₀) es s) :
    Run (Guarded (Exec (next prog)) (Harmless inside)) (start init p₀ m₀) es s := by
  have h' : Run (Guarded (Exec (next prog)) (fun _ _ => True)) (start init p₀ m₀) es s :=
    h.mono (fun _ _ _ hl => ⟨trivial, hl⟩)
  exact guarded_harmless hd (fun _ t p q _ _ m c hc => hsteady t p m c hc q) h'

theorem noSignal_harmless {p₀ : T → P} {m₀ : M} (hd : Disciplined prog inside)
    (h : Run (Guarded (Exec (next prog)) NoSignal) (start init p₀ m₀) es s) :
    Run (Guarded (Exec (next prog)) (Harmless inside)) (start init p₀ m₀) es s :=
  guarded_harmless hd (fun _ _ _ _ hok => hok.elim) h

/-- The semaphore of a program that never removes it is there all the time. -/
theorem run_present {p₀ : T → P} {m₀ : M} (hkept : ∀ t p m q, .remove q ∉ prog.cmds t p m)
    (h : Run (Exec (next prog)) (start init p₀ m₀) es s) : ∃ v, s.sem = some v := by
  induction h with
  | nil => exact ⟨init, rfl⟩
  | @snoc ls e s s' _ hl ih =>
      obtain ⟨v, hv⟩ := ih
      cases e with
      | exec t k =>
          obtain ⟨c, hc, ⟨sem, m, p, ha, rfl⟩ | ⟨p, q, _, _, rfl⟩⟩ := next_exec hl
          · rw [hv] at ha
            cases c with
            | run m₁ p₁ =>
                cases ha
                exact ⟨v, rfl⟩
            | down p₁ q r =>
                cases v <;> cases ha
                exact ⟨_, rfl⟩
            | up p₁ r =>
                cases ha
                exact ⟨v + 1, rfl⟩
            | remove p₁ => exact absurd hc (hkept t _ _ p₁)
            | await ready p₁ q =>
                obtain ⟨_, _, heq⟩ := Option.map_eq_some_iff.mp ha
                cases heq
                exact ⟨v, rfl⟩
          · exact ⟨v, hv⟩
      | signal t =>
          rcases next_signal hl with rfl | ⟨p, q, _, rfl⟩ <;> exact ⟨v, hv⟩

variable [Fintype T]

def occupancy (inside : P → Bool) (s : State T P M) : Nat := ∑ t, (inside (s.pc t)).toNat

theorem occupancy_update (inside : P → Bool) {t : T} {p : P} (h : s'.pc = Function.update s.pc t p) :
    ∃ n, occupancy inside s = n + (inside (s.pc t)).toNat ∧ occupancy inside s' = n + (inside p).toNat := by
  simp only [occupancy, h]
  exact sum_update (fun p => (inside p).toNat) s.pc t p

theorem next_conserved (hd : Disciplined prog inside) (hb : BlockedOutside prog inside s) (hok : Harmless inside s e)
    (hs : Conserved init s.sem (occupancy inside s)) (h : next prog s e = some s') :
    Conserved init s'.sem (occupancy inside s') := by
  have hmove {t : T} {p : P} (hpc : s'.pc = Function.update s.pc t p) (hp : inside p = inside (s.pc t))
      (hsem : s'.sem = s.sem) : Conserved init s'.sem (occupancy inside s') := by
    obtain ⟨n, hn, hn'⟩ := occupancy_update inside hpc
    rw [hsem, hn', hp, ← hn]
    exact hs
  cases e with
  | exec t k =>
      obtain ⟨c, hc, ⟨sem, m, p, ha, rfl⟩ | ⟨p, q, hp, _, rfl⟩⟩ := next_exec h
      · have hpc : State.pc ⟨sem, Function.update s.ctl t (.running p), m⟩ = Function.update s.pc t p :=
          pc_update s.ctl t (.running p)
        obtain ⟨n, hn, hn'⟩ := occupancy_update inside hpc
        rw [hn'] at *
        rw [hn] at hs
        exact (hd t _ _ c hc).attempt ha hs
      · exact hmove (pc_goto s t _) (by simp [State.pc, hp, Ctl.pc]) rfl
  | signal t =>
      rcases next_signal h with rfl | ⟨p, q, hbl, rfl⟩
      · exact hs
      · have hout : inside (s.pc t) = false := by
          have hpc : s.pc t = p := by simp [State.pc, hbl, Ctl.pc]
          rw [hpc]
          exact (hb t p q hbl).1
        exact hmove (pc_goto s t _) ((hok t p q rfl hbl).trans hout.symm) rfl

omit [DecidableEq T] in
theorem start_occupancy {p₀ : T → P} {m₀ : M} (h₀ : ∀ t, inside (p₀ t) = false) :
    occupancy inside (start init p₀ m₀) = 0 := by
  apply Finset.sum_eq_zero
  intro t _
  change (inside (p₀ t)).toNat = 0
  rw [h₀ t]
  rfl

theorem run_conserved {p₀ : T → P} {m₀ : M} (hd : Disciplined prog inside) (h₀ : ∀ t, inside (p₀ t) = false)
    (h : Run (Guarded (Exec (next prog)) (Harmless inside)) (start init p₀ m₀) es s) :
    Conserved init s.sem (occupancy inside s) := by
  apply h.invariant (I := fun _ s => Conserved init s.sem (occupancy inside s))
  · simp only [start_occupancy h₀]
    rfl
  · intro ls l s s' hr hs hl
    exact next_conserved hd (run_blockedOutside hd hr.unguard) hl.1 hs hl.2

end UnixProg.Lib.Semaphore

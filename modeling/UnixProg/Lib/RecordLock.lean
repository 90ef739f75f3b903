import UnixProg.Lib.FileStore
import UnixProg.Lib.SemaphoreRule

namespace UnixProg.Lib.RecordLock

open Transition FileStore Semaphore

variable {T P M : Type}

/-- What a process does at a point of its code. A `setlkw` goes on at its first
point with the lock, and at its second one when a signal interrupts it; a
`close` drops all the locks of the process. -/
inductive LockCmd (P M : Type)
  | run (m : M) (p : P)
  | setlkw (k : Kind) (r : Region) (p q : P)
  | unlock (r : Region) (p : P)
  | close (m : M) (p : P)
  | await (ready : Option M) (p q : P)

def LockCmd.interrupted : LockCmd P M → Option P
  | .setlkw _ _ _ q | .await _ _ q => some q
  | .run _ _ | .unlock _ _ | .close _ _ => none

structure LockProg (T P M : Type) where
  cmds : T → P → M → List (LockCmd P M)
  handler : T → M → M

structure LockState (T P M : Type) where
  locks : Table T
  ctl : T → Ctl P
  mem : M

def LockState.pc (s : LockState T P M) (t : T) : P := (s.ctl t).pc

def start (p₀ : T → P) (m₀ : M) : LockState T P M := ⟨fun _ _ => none, fun t => .running (p₀ t), m₀⟩

section Step

variable [DecidableEq T] [Fintype T]

/-- One try of a command. It fails when the call has to block. -/
def LockCmd.attempt (L : Table T) (t : T) (m : M) : LockCmd P M → Option (Table T × M × P)
  | .run m' p => some (L, m', p)
  | .setlkw k r p _ => if Grantable L t r k then some (L.set t r (some k), m, p) else none
  | .unlock r p => some (L.set t r none, m, p)
  | .close m' p => some (L.drop t, m', p)
  | .await ready p _ => ready.map (fun m' => (L, m', p))

def LockState.goto (s : LockState T P M) (t : T) (c : Ctl P) : LockState T P M := { s with ctl := Function.update s.ctl t c }

def block (s : LockState T P M) (t : T) (c : LockCmd P M) : Option (LockState T P M) :=
  match s.ctl t, c.interrupted with
  | .running p, some q => some (s.goto t (.blocked p q))
  | _, _ => none

def next (prog : LockProg T P M) (s : LockState T P M) : Event T → Option (LockState T P M)
  | .exec t k => match (prog.cmds t (s.pc t) s.mem)[k]? with
    | none => none
    | some c => match c.attempt s.locks t s.mem with
      | none => block s t c
      | some (L, m, p) => some ⟨L, Function.update s.ctl t (.running p), m⟩
  | .signal t => match s.ctl t with
    | .running _ => some { s with mem := prog.handler t s.mem }
    | .blocked _ q => some { s.goto t (.running q) with mem := prog.handler t s.mem }

end Step

/-- A program uses a region as a bracket when its inner points are entered by
a write lock on the region, left by giving it back, and hold no call that
blocks or drops the lock. -/
def LockCmd.Brackets (r : Region) (inside : P → Bool) (p : P) : LockCmd P M → Prop
  | .run _ p' => inside p' = inside p
  | .setlkw k r' p' q => k = .write ∧ r' = r ∧ inside p = false ∧ inside p' = true ∧ inside q = false
  | .unlock r' p' => r' = r ∧ inside p = true ∧ inside p' = false
  | .close _ p' => inside p = false ∧ inside p' = false
  | .await _ p' q => inside p = false ∧ inside p' = false ∧ inside q = false

structure Bracketing (prog : LockProg T P M) (r : Region) (inside : P → Bool) : Prop where
  pos : 0 < r.len
  brackets : ∀ t p m, ∀ c ∈ prog.cmds t p m, c.Brackets r inside p

/-- The same program with a semaphore in the place of the region. -/
def LockCmd.guard : LockCmd P M → Cmd P M
  | .run m p | .close m p => .run m p
  | .setlkw _ _ p q => .down p q none
  | .unlock _ p => .up p none
  | .await ready p q => .await ready p q

def LockProg.guard (prog : LockProg T P M) : Prog T P M :=
  ⟨fun t p m => (prog.cmds t p m).map LockCmd.guard, prog.handler⟩

def LockState.view (s : LockState T P M) (v : Nat) : State T P M := ⟨some v, s.ctl, s.mem⟩

/-- The processes inside have the region, and nobody has any other lock. -/
def Owned (r : Region) (inside : P → Bool) (s : LockState T P M) : Prop :=
  ∀ t b, s.locks t b = if inside (s.pc t) = true ∧ r.Contains b then some .write else none

variable {prog : LockProg T P M} {r : Region} {inside : P → Bool} {s s' : LockState T P M} {e : Event T}
  {es : List (Event T)} {p₀ : T → P} {m₀ : M}

theorem guard_interrupted (c : LockCmd P M) : c.guard.interrupted = c.interrupted := by
  cases c <;> rfl

theorem guard_disciplined (hb : Bracketing prog r inside) : Disciplined prog.guard inside := by
  intro t p m c hc
  obtain ⟨d, hd, rfl⟩ := List.mem_map.mp hc
  have hk := hb.brackets t p m d hd
  cases d with
  | run m p' => exact hk
  | setlkw k r' p' q => exact ⟨hk.2.2.1, hk.2.2.2.1, nofun⟩
  | unlock r' p' => exact ⟨hk.2.1, hk.2.2, nofun⟩
  | close m p' => exact hk.2.trans hk.1.symm
  | await ready p' q => exact ⟨hk.1, hk.2.1⟩

theorem guard_steady (hb : Bracketing prog r inside) (t : T) (p : P) (m : M) (c : Cmd P M)
    (hc : c ∈ prog.guard.cmds t p m) (q : P) (hq : c.interrupted = some q) : inside q = false := by
  obtain ⟨d, hd, rfl⟩ := List.mem_map.mp hc
  have hk := hb.brackets t p m d hd
  cases d with
  | setlkw k r' p' q' =>
      cases hq
      exact hk.2.2.2.2
  | await ready p' q' =>
      cases hq
      exact hk.2.2
  | run | unlock | close => cases hq

theorem outside_of_free (hb : Bracketing prog r inside) (hs : Owned r inside s) (hfree : ∀ t b, s.locks t b = none)
    (t : T) : inside (s.pc t) = false := by
  have hpos := hb.pos
  have hb := hs t r.start
  rw [hfree] at hb
  by_contra hin
  rw [if_pos ⟨by simpa using hin, Nat.le_refl _, by omega⟩] at hb
  cases hb

variable [DecidableEq T]

theorem Owned.move {t : T} {p : P} (hs : Owned r inside s) (hpc : s'.pc = Function.update s.pc t p)
    (hself : ∀ b, s'.locks t b = if inside p = true ∧ r.Contains b then some .write else none)
    (hother : ∀ u, u ≠ t → s'.locks u = s.locks u) : Owned r inside s' := by
  intro u b
  by_cases hu : u = t
  · subst hu
    rw [hself, hpc, Function.update_self]
  · rw [hother u hu, hs u b, hpc, Function.update_of_ne hu]

theorem Owned.stay {t : T} {p : P} (hs : Owned r inside s) (hpc : s'.pc = Function.update s.pc t p)
    (hL : s'.locks = s.locks) (hp : inside p = inside (s.pc t)) : Owned r inside s' := by
  apply hs.move hpc
  · intro b
    rw [hL, hp]
    exact hs t b
  · intro u _
    rw [hL]

theorem Owned.goto {t : T} {c : Ctl P} {m : M} (hs : Owned r inside s) (hc : inside c.pc = inside (s.pc t)) :
    Owned r inside ⟨s.locks, Function.update s.ctl t c, m⟩ := by
  apply hs.stay (p := c.pc)
  · exact pc_update s.ctl t c
  · rfl
  · exact hc

theorem Owned.lock {t : T} {p : P} (hs : Owned r inside s) (hpc : s'.pc = Function.update s.pc t p)
    (hL : s'.locks = s.locks.set t r (some .write)) (hp : inside p = true) (hout : inside (s.pc t) = false) :
    Owned r inside s' := by
  apply hs.move hpc
  · intro b
    have hb := hs t b
    rw [hout] at hb
    simp [hL, Table.set, hp, hb]
  · intro u hu
    funext b
    simp [hL, Table.set, hu]

theorem Owned.unlock {t : T} {p : P} (hs : Owned r inside s) (hpc : s'.pc = Function.update s.pc t p)
    (hL : s'.locks = s.locks.set t r none) (hp : inside p = false) : Owned r inside s' := by
  apply hs.move hpc
  · intro b
    have hb := hs t b
    simp only [hL, Table.set, hp]
    grind
  · intro u hu
    funext b
    simp [hL, Table.set, hu]

theorem Owned.close {t : T} {p : P} (hs : Owned r inside s) (hpc : s'.pc = Function.update s.pc t p)
    (hL : s'.locks = s.locks.drop t) (hp : inside p = false) : Owned r inside s' := by
  apply hs.move hpc
  · intro b
    simp [hL, Table.drop, hp]
  · intro u hu
    funext b
    simp [hL, Table.drop, hu]

variable [Fintype T]

omit [DecidableEq T] in
/-- The region can be locked when nobody is inside, and only then. -/
theorem grantable_iff {t : T} {v : Nat} (hpos : 0 < r.len) (hs : Owned r inside s) (hout : inside (s.pc t) = false) :
    Grantable s.locks t r .write ↔ occupancy inside (s.view v) = 0 := by
  constructor
  · intro hg
    apply Finset.sum_eq_zero
    intro u _
    change (inside (s.pc u)).toNat = 0
    cases hu : inside (s.pc u) with
    | false => rfl
    | true =>
        have hne : u ≠ t := fun heq => by rw [heq, hout] at hu; cases hu
        have hheld := hs u r.start
        rw [if_pos ⟨hu, Nat.le_refl _, by omega⟩] at hheld
        exact absurd (hg u hne 0 hpos .write hheld) (by decide)
  · intro hzero u _ i _ k hk
    have hu : inside (s.pc u) = false := SemaphoreRule.outside_of_occupancy hzero u
    rw [hs u, hu] at hk
    simp at hk

theorem attempt_owned {t : T} {c : LockCmd P M} {L : Table T} {m : M} {p : P} (hk : c.Brackets r inside (s.pc t))
    (hs : Owned r inside s) (ha : c.attempt s.locks t s.mem = some (L, m, p)) :
    Owned r inside ⟨L, Function.update s.ctl t (.running p), m⟩ := by
  have hpc : LockState.pc ⟨L, Function.update s.ctl t (.running p), m⟩ = Function.update s.pc t p :=
    pc_update s.ctl t (.running p)
  cases c with
  | run m₁ p₁ =>
      cases ha
      exact hs.stay hpc rfl hk
  | setlkw k r' p₁ q =>
      obtain ⟨rfl, rfl, hout, hin, _⟩ := hk
      obtain ⟨_, heq⟩ := Option.ite_none_right_eq_some.mp ha
      cases heq
      exact hs.lock hpc rfl hin hout
  | unlock r' p₁ =>
      obtain ⟨rfl, _, hout⟩ := hk
      cases ha
      exact hs.unlock hpc rfl hout
  | close m₁ p₁ =>
      cases ha
      exact hs.close hpc rfl hk.2
  | await ready p₁ q =>
      obtain ⟨m₁, _, heq⟩ := Option.map_eq_some_iff.mp ha
      cases heq
      exact hs.stay hpc rfl (hk.2.1.trans hk.1.symm)

/-- A command of the bracket does what its counterpart does to a semaphore
that is free when nobody is inside. -/
theorem attempt_guard {t : T} {c : LockCmd P M} {v : Nat} (hpos : 0 < r.len) (hk : c.Brackets r inside (s.pc t))
    (hs : Owned r inside s) (hv : v + occupancy inside (s.view v) = 1) :
    match c.attempt s.locks t s.mem with
    | some (_, m, p) => ∃ v', c.guard.attempt (some v) s.mem = some (some v', m, p)
    | none => c.guard.attempt (some v) s.mem = none := by
  cases c with
  | run m₁ p₁ | close m₁ p₁ => exact ⟨v, rfl⟩
  | unlock r' p₁ => exact ⟨v + 1, rfl⟩
  | setlkw k r' p₁ q =>
      obtain ⟨rfl, rfl, hout, _⟩ := hk
      have hfree := grantable_iff (v := v) hpos hs hout
      by_cases hg : Grantable s.locks t r' .write
      · rw [LockCmd.attempt, if_pos hg]
        obtain rfl : v = 1 := by rw [hfree.mp hg] at hv; exact hv
        exact ⟨0, rfl⟩
      · rw [LockCmd.attempt, if_neg hg]
        obtain rfl : v = 0 := by rw [hfree] at hg; omega
        rfl
  | await ready p₁ q =>
      cases ready with
      | none => rfl
      | some m₁ => exact ⟨v, rfl⟩

theorem exec_guard {t : T} {k v : Nat} (hb : Bracketing prog r inside) (hs : Owned r inside s)
    (hv : v + occupancy inside (s.view v) = 1) (h : next prog s (.exec t k) = some s') :
    Owned r inside s' ∧ ∃ v', Semaphore.next prog.guard (s.view v) (.exec t k) = some (s'.view v') := by
  simp only [next] at h
  split at h
  · cases h
  · rename_i c hc
    have hk := hb.brackets t _ _ c (List.mem_of_getElem? hc)
    have hguard := attempt_guard hb.pos hk hs hv
    have hc' : (prog.guard.cmds t ((s.view v).pc t) (s.view v).mem)[k]? = some c.guard := by
      change ((prog.cmds t (s.pc t) s.mem).map LockCmd.guard)[k]? = some c.guard
      rw [List.getElem?_map, hc, Option.map_some]
    split at h
    · rename_i ha
      rw [ha] at hguard
      change c.guard.attempt (s.view v).sem (s.view v).mem = none at hguard
      simp only [block] at h
      split at h
      · rename_i p q hp hq
        cases h
        constructor
        · apply hs.goto (c := .blocked p q)
          rw [LockState.pc, hp]
          rfl
        · have hp' : (s.view v).ctl t = .running p := hp
          refine ⟨v, ?_⟩
          simp only [Semaphore.next, hc', hguard, Semaphore.block, hp', guard_interrupted, hq]
          rfl
      · cases h
    · rename_i L m p ha
      rw [ha] at hguard
      obtain ⟨v', hguard⟩ := hguard
      change c.guard.attempt (s.view v).sem (s.view v).mem = some (some v', m, p) at hguard
      cases h
      refine ⟨attempt_owned hk hs ha, v', ?_⟩
      simp only [Semaphore.next, hc', hguard]
      rfl

theorem signal_guard {t : T} {v : Nat} (hb : Bracketing prog r inside) (hs : Owned r inside s)
    (hbl : BlockedOutside prog.guard inside (s.view v)) (h : next prog s (.signal t) = some s') :
    Owned r inside s' ∧ Semaphore.next prog.guard (s.view v) (.signal t) = some (s'.view v) := by
  simp only [next] at h
  split at h
  · rename_i p hp
    have hp' : (s.view v).ctl t = .running p := hp
    cases h
    refine ⟨hs, ?_⟩
    simp only [Semaphore.next, hp']
    rfl
  · rename_i p q hp
    have hp' : (s.view v).ctl t = .blocked p q := hp
    obtain ⟨hout, m, c, hc, hq⟩ := hbl t p q hp'
    cases h
    constructor
    · apply hs.goto (c := .running q)
      rw [Ctl.pc, guard_steady hb t p m c hc q hq, LockState.pc, hp, Ctl.pc, hout]
    · simp only [Semaphore.next, hp']
      rfl

theorem next_guard {v : Nat} (hb : Bracketing prog r inside) (hs : Owned r inside s)
    (hbl : BlockedOutside prog.guard inside (s.view v)) (hv : v + occupancy inside (s.view v) = 1)
    (h : next prog s e = some s') :
    Owned r inside s' ∧ ∃ v', Semaphore.next prog.guard (s.view v) e = some (s'.view v') := by
  cases e with
  | exec t k => exact exec_guard hb hs hv h
  | signal t =>
      obtain ⟨hs', hnext⟩ := signal_guard hb hs hbl h
      exact ⟨hs', v, hnext⟩

/-- A program that uses a region as a bracket runs as its counterpart with a
binary semaphore does. -/
theorem run_guard (hb : Bracketing prog r inside) (h₀ : ∀ t, inside (p₀ t) = false)
    (h : Run (Exec (next prog)) (start p₀ m₀) es s) :
    Owned r inside s ∧ ∃ v, Run (Exec (Semaphore.next prog.guard)) (Semaphore.start 1 p₀ m₀) es (s.view v) := by
  have hd := guard_disciplined hb
  apply h.invariant (I := fun es s =>
    Owned r inside s ∧ ∃ v, Run (Exec (Semaphore.next prog.guard)) (Semaphore.start 1 p₀ m₀) es (s.view v))
  · refine ⟨fun t b => ?_, 1, .nil⟩
    have hout : inside ((start p₀ m₀ : LockState T P M).pc t) = false := h₀ t
    rw [hout]
    rfl
  · rintro ls l s s' _ ⟨hs, v, hr⟩ hl
    have hv : v + occupancy inside (s.view v) = 1 := run_conserved hd h₀ (run_harmless hd (guard_steady hb) hr)
    obtain ⟨hs', v', hnext⟩ := next_guard hb hs (run_blockedOutside hd hr) hv hl
    exact ⟨hs', v', hr.snoc hnext⟩

theorem run_exclusive (hb : Bracketing prog r inside) (h₀ : ∀ t, inside (p₀ t) = false)
    (h : Run (Exec (next prog)) (start p₀ m₀) es s) {t u : T} (ht : inside (s.pc t) = true)
    (hu : inside (s.pc u) = true) : t = u := by
  obtain ⟨_, v, hr⟩ := run_guard hb h₀ h
  have hd := guard_disciplined hb
  have hv := run_conserved hd h₀ (run_harmless hd (guard_steady hb) hr)
  exact SemaphoreRule.unique_of_conserved hv ht hu

end UnixProg.Lib.RecordLock

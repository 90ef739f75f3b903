import UnixProg.Lib.SemaphoreRule
import Mathlib.Data.Finset.Insert
import Mathlib.Data.Fintype.Defs
import Mathlib.Logic.Function.Basic
import Mathlib.Tactic.Common

namespace UnixProg.Race.SharedBytes

open Lib Semaphore SemaphoreRule

/-- The two processes after the fork. -/
inductive Proc
  | parent
  | child
deriving DecidableEq

instance : Fintype Proc := ⟨{.parent, .child}, fun t => by cases t <;> decide⟩

/-- What a process writes into both bytes. -/
def Proc.value : Proc → Int
  | .parent => 1
  | .child => 2

/-- The two bytes of the mapped file. Each process has the byte that it has
just read and its count of inconsistencies, called `j`, `races` or
`races_detected` by the programs. -/
structure Bytes where
  addr0 : Int
  addr1 : Int
  seen : Proc → Int
  races : Proc → Nat

def Bytes.zero : Bytes := ⟨0, 0, fun _ => 0, fun _ => 0⟩

/-- The loop body that all the versions share: comparing the bytes, and
`addr[0] = addr[1] = value`. -/
inductive Body
  | check
  | compare
  | store1
  | store0
deriving DecidableEq

def Body.run (t : Proc) (b : Bytes) : Body → Bytes
  | .check => { b with seen := Function.update b.seen t b.addr0 }
  | .compare => if b.seen t ≠ b.addr1 then { b with races := Function.update b.races t (b.races t + 1) } else b
  | .store1 => { b with addr1 := t.value }
  | .store0 => { b with addr0 := t.value }

def Body.next : Body → Option Body
  | .check => some .compare
  | .compare => some .store1
  | .store1 => some .store0
  | .store0 => none

def Quiet (b : Bytes) : Prop := b.addr0 = b.addr1 ∧ ∀ t, b.races t = 0

/-- What a process knows that has the bytes for itself. -/
def Body.At (t : Proc) (b : Bytes) : Body → Prop
  | .check | .store1 => Quiet b
  | .compare => b.seen t = b.addr0 ∧ Quiet b
  | .store0 => b.addr1 = t.value ∧ ∀ u, b.races u = 0

/-- Whoever has the bytes for itself finds them equal, and leaves them equal. -/
theorem Body.At.step {t : Proc} {b : Bytes} {p : Body} (h : p.At t b) :
    match p.next with
    | some q => q.At t (p.run t b)
    | none => Quiet (p.run t b) := by
  cases p with
  | check => exact ⟨Function.update_self .., h⟩
  | compare =>
      obtain ⟨hseen, heq, hraces⟩ := h
      have hsame : ¬ b.seen t ≠ b.addr1 := not_not.mpr (hseen.trans heq)
      rw [Body.run, if_neg hsame]
      exact ⟨heq, hraces⟩
  | store1 => exact ⟨rfl, h.2⟩
  | store0 => exact ⟨h.1.symm, h.2⟩

theorem zero_quiet : Quiet Bytes.zero := ⟨rfl, fun _ => rfl⟩

theorem Body.At.races {t : Proc} {b : Bytes} {p : Body} (h : p.At t b) (u : Proc) : b.races u = 0 := by
  cases p with
  | check | store1 => exact h.2 u
  | compare => exact h.2.2 u
  | store0 => exact h.2 u

/-- What a statement does to the bytes, and where it leads in the loop body. -/
def advance (t : Proc) (b : Bytes) : Option Body → Bytes × Option Body
  | some p => (p.run t b, p.next)
  | none => (b, none)

variable {P M : Type} {prog : Prog Proc P M} {inside : P → Bool} {bytes : M → Bytes} {point : P → Option Body}

/-- A program that goes through the loop body from a `down` to an `up`, and
leaves the bytes alone elsewhere. -/
structure Sharing (prog : Prog Proc P M) (inside : P → Bool) (bytes : M → Bytes) (point : P → Option Body) : Prop where
  enter {t p p' q r m} (hc : .down p' q r ∈ prog.cmds t p m) : point p' = some .check
  leave {t p p' r m} (hc : .up p' r ∈ prog.cmds t p m) : point p = none
  moves {t p p' m m' c} (hc : c ∈ prog.cmds t p m) (hm : Moves c m m' p') :
    (bytes m', point p') = advance t (bytes m) (point p)
  outside {p} (hp : inside p = false) : point p = none
  signal (t m) : bytes (prog.handler t m) = bytes m

def Knows (bytes : M → Bytes) (point : P → Option Body) (t : Proc) (p : P) (m : M) : Prop :=
  (point p).elim (Quiet (bytes m)) (fun q => q.At t (bytes m))

theorem Knows.congr {t : Proc} {p : P} {m m' : M} (h : Knows bytes point t p m) (hb : bytes m' = bytes m) :
    Knows bytes point t p m' := by
  rw [Knows, hb]
  exact h

theorem Knows.races {t : Proc} {p : P} {m : M} (h : Knows bytes point t p m) (u : Proc) : (bytes m).races u = 0 := by
  rw [Knows] at h
  cases hp : point p with
  | none =>
      rw [hp] at h
      exact h.2 u
  | some q =>
      rw [hp] at h
      exact Body.At.races h u

theorem Sharing.rule (hs : Sharing prog inside bytes point) :
    Rule prog inside (fun m => Quiet (bytes m)) (Knows bytes point) where
  enter := by
    intro t p p' q r m hc h
    rw [Knows, hs.enter hc]
    exact h
  leave := by
    intro t p p' r m hc h
    rw [Knows, hs.leave hc] at h
    exact h
  inner := by
    intro t p p' m m' c _ hc hm h
    have hmoves := hs.moves hc hm
    rw [Knows] at h ⊢
    cases hp : point p with
    | none =>
        rw [hp] at h hmoves
        obtain ⟨hb, hp'⟩ := Prod.mk.inj hmoves
        rw [hb, hp']
        exact h
    | some q =>
        rw [hp] at h hmoves
        obtain ⟨hb, hp'⟩ := Prod.mk.inj hmoves
        have hstep := Body.At.step h
        rw [hb, hp']
        cases q <;> exact hstep
  outer_calm := by
    intro t p p' m m' c hp hc hm h
    have hmoves := hs.moves hc hm
    rw [hs.outside hp] at hmoves
    rw [(Prod.mk.inj hmoves).1]
    exact h
  outer_at := by
    intro t p p' u q m m' c hp hc hm _ h
    have hmoves := hs.moves hc hm
    rw [hs.outside hp] at hmoves
    exact h.congr (Prod.mk.inj hmoves).1
  signal_calm := by
    intro m t h
    rw [hs.signal]
    exact h
  signal_at := fun t h => h.congr (hs.signal t _)

theorem holds_quiet {s : State Proc P M} (hs : Holds inside (fun m => Quiet (bytes m)) (Knows bytes point) s) :
    ((∀ t, inside (s.pc t) = false) → (bytes s.mem).addr0 = (bytes s.mem).addr1) ∧ ∀ t, (bytes s.mem).races t = 0 :=
  ⟨fun hall => (hs.calm hall).1,
    hs.always (Q := fun m => ∀ t, (bytes m).races t = 0) (fun h => h.2) (fun _ _ h => h.races)⟩

end UnixProg.Race.SharedBytes

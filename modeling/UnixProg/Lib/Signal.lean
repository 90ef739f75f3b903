import Mathlib.Tactic.Common

namespace UnixProg.Lib.Signal

variable {α : Type}

/-- What a process has to do with one signal: its mask, whether there is a
handler, and a signal, with its value, that is still to be delivered. -/
structure Sig (α : Type) where
  blocked : Bool
  caught : Bool
  pending : Option α
deriving DecidableEq

inductive Action (α : Type)
  | handle (value : α)
  | terminate
deriving DecidableEq

/-- Neither blocked nor caught. -/
def Sig.plain : Sig α := ⟨false, false, none⟩

/-- A signal that is pending already is not queued once more. -/
def Sig.post (g : Sig α) (value : α) : Sig α := { g with pending := g.pending <|> some value }

def Sig.block (g : Sig α) : Sig α := { g with blocked := true }

def Sig.catch (g : Sig α) : Sig α := { g with caught := true }

def Sig.deliver (g : Sig α) : Option (Action α × Sig α) :=
  if g.blocked then none
  else g.pending.map (fun value => (if g.caught then .handle value else .terminate, { g with pending := none }))

/-- A `sigwait()` takes the signal while it is blocked. -/
def Sig.accept (g : Sig α) : Option (Sig α) := g.pending.map (fun _ => { g with pending := none })

variable {g g' : Sig α} {act : Action α} {value : α}

theorem deliver_blocked (h : g.blocked = true) : g.deliver = none := if_pos h

theorem deliver_nothing (h : g.pending = none) : g.deliver = none := by
  rw [Sig.deliver, h]
  split <;> rfl

theorem deliver_handle (hblocked : g.blocked = false) (hcaught : g.caught = true) (h : g.pending = some value) :
    g.deliver = some (.handle value, { g with pending := none }) := by
  simp [Sig.deliver, hblocked, hcaught, h]

theorem deliver_terminate (hblocked : g.blocked = false) (hcaught : g.caught = false) (h : g.pending ≠ none) :
    g.deliver = some (.terminate, { g with pending := none }) := by
  obtain ⟨value, hvalue⟩ := Option.ne_none_iff_exists'.mp h
  simp [Sig.deliver, hblocked, hcaught, hvalue]

theorem deliver_cases (h : g.deliver = some (act, g')) :
    g' = { g with pending := none } ∧ ∃ value, g.pending = some value ∧
      (g.caught = true ∧ act = .handle value ∨ g.caught = false ∧ act = .terminate) := by
  obtain ⟨-, h⟩ := Option.ite_none_left_eq_some.mp h
  obtain ⟨value, hvalue, heq⟩ := Option.map_eq_some_iff.mp h
  obtain ⟨rfl, rfl⟩ := Prod.mk.inj heq
  refine ⟨rfl, value, hvalue, ?_⟩
  cases hc : g.caught with
  | true => exact .inl ⟨rfl, rfl⟩
  | false => exact .inr ⟨rfl, rfl⟩

theorem post_pending (h : g.pending = none) : (g.post value).pending = some value := by
  rw [Sig.post, h]
  rfl

theorem post_ne_none (g : Sig α) (value : α) : (g.post value).pending ≠ none := by
  cases h : g.pending <;> simp [Sig.post, h]

theorem accept_some (h : g.pending = some value) : g.accept = some { g with pending := none } := by
  rw [Sig.accept, h]
  rfl

theorem accept_cases (h : g.accept = some g') : g.pending ≠ none ∧ g' = { g with pending := none } := by
  obtain ⟨value, hvalue, rfl⟩ := Option.map_eq_some_iff.mp h
  exact ⟨by simp [hvalue], rfl⟩

end UnixProg.Lib.Signal

import Mathlib.Logic.Function.Basic
import Mathlib.Order.Nat

namespace UnixProg.Lib.Descriptor

variable {α β : Type}

/-- The descriptors of a process: finitely many are open, each of them refers
to an open file. -/
structure FdTable (α : Type) where
  entry : Nat → Option α
  bound : Nat
  closed (fd) (h : bound ≤ fd) : entry fd = none

variable (t : FdTable α) {fd fd' : Nat} {a : α}

/-- The number that the next call gets which opens a descriptor. -/
def FdTable.lowestFree : Nat := Nat.find (p := fun fd => t.entry fd = none) ⟨t.bound, t.closed _ (Nat.le_refl _)⟩

def FdTable.set (fd : Nat) (a : α) : FdTable α where
  entry := Function.update t.entry fd (some a)
  bound := max t.bound (fd + 1)
  closed fd' h := by
    rw [Function.update_of_ne (by omega)]
    exact t.closed fd' (by omega)

/-- A new descriptor for a file, with its number. -/
def FdTable.alloc (a : α) : FdTable α × Nat := (t.set t.lowestFree a, t.lowestFree)

/-- The number is missing when the call fails. -/
def FdTable.dup (fd : Nat) : FdTable α × Option Nat :=
  match t.entry fd with
  | some a => ((t.alloc a).1, some (t.alloc a).2)
  | none => (t, none)

def FdTable.close (fd : Nat) : FdTable α where
  entry := Function.update t.entry fd none
  bound := t.bound
  closed fd' h := by
    by_cases hfd : fd' = fd
    · rw [hfd, Function.update_self]
    · rw [Function.update_of_ne hfd]
      exact t.closed fd' h

def FdTable.map (f : α → β) : FdTable β where
  entry fd := (t.entry fd).map f
  bound := t.bound
  closed fd h := by rw [t.closed fd h, Option.map_none]

theorem lowestFree_free : t.entry t.lowestFree = none :=
  Nat.find_spec (p := fun fd => t.entry fd = none) ⟨t.bound, t.closed _ (Nat.le_refl _)⟩

theorem lowestFree_le (h : t.entry fd = none) : t.lowestFree ≤ fd :=
  Nat.find_min' (p := fun fd => t.entry fd = none) ⟨t.bound, t.closed _ (Nat.le_refl _)⟩ h

variable {t}

theorem lowestFree_eq (hfree : t.entry fd = none) (hopen : ∀ fd' < fd, t.entry fd' ≠ none) : t.lowestFree = fd := by
  apply Nat.le_antisymm (lowestFree_le t hfree)
  by_contra hlt
  exact hopen _ (Nat.lt_of_not_le hlt) (lowestFree_free t)

@[simp] theorem alloc_entry_self : (t.alloc a).1.entry t.lowestFree = some a := Function.update_self ..

theorem alloc_entry_of_ne (h : fd ≠ t.lowestFree) : (t.alloc a).1.entry fd = t.entry fd := Function.update_of_ne h ..

@[simp] theorem close_entry_self : (t.close fd).entry fd = none := Function.update_self ..

theorem close_entry_of_ne (h : fd' ≠ fd) : (t.close fd).entry fd' = t.entry fd' := Function.update_of_ne h ..

theorem close_entry_none (h : t.entry fd' = none) : (t.close fd).entry fd' = none := by
  by_cases hfd : fd' = fd
  · rw [hfd, close_entry_self]
  · rw [close_entry_of_ne hfd, h]

/-- A descriptor that is closed again leaves nothing behind. -/
theorem close_alloc_entry (t : FdTable α) (a : α) (fd : Nat) :
    ((t.alloc a).1.close t.lowestFree).entry fd = t.entry fd := by
  by_cases hfd : fd = t.lowestFree
  · rw [hfd, close_entry_self, lowestFree_free]
  · rw [close_entry_of_ne hfd, alloc_entry_of_ne hfd]

theorem dup_eq (h : t.entry fd = some a) : t.dup fd = ((t.alloc a).1, some t.lowestFree) := by
  simp only [FdTable.dup, h]
  rfl

theorem dup_none (h : t.entry fd = none) : t.dup fd = (t, none) := by simp only [FdTable.dup, h]

/-- What is opened next takes the place of a descriptor that was closed, if
all the lower ones are open. -/
theorem lowestFree_close (hopen : ∀ fd' < fd, t.entry fd' ≠ none) : (t.close fd).lowestFree = fd := by
  apply lowestFree_eq close_entry_self
  intro fd' hlt
  rw [close_entry_of_ne (Nat.ne_of_lt hlt)]
  exact hopen fd' hlt

theorem alloc_close_entry (fd : Nat) (a : α) (hopen : ∀ fd' < fd, t.entry fd' ≠ none) (x : Nat) :
    ((t.close fd).alloc a).1.entry x = if x = fd then some a else t.entry x := by
  have hlow := lowestFree_close hopen
  split
  · subst x
    have hself : ((t.close fd).alloc a).1.entry (t.close fd).lowestFree = some a := alloc_entry_self
    rwa [hlow] at hself
  · rename_i hx
    rw [alloc_entry_of_ne (by rwa [hlow]), close_entry_of_ne hx]

theorem dup_close_entry (fd : Nat) (hopen : ∀ fd' < fd, t.entry fd' ≠ none) (ha : t.entry fd' = some a) (hne : fd' ≠ fd)
    (x : Nat) : ((t.close fd).dup fd').1.entry x = if x = fd then some a else t.entry x := by
  rw [dup_eq ((close_entry_of_ne hne).trans ha)]
  exact alloc_close_entry fd a hopen x

@[simp] theorem map_entry (f : α → β) (fd : Nat) : (t.map f).entry fd = (t.entry fd).map f := rfl

theorem map_none_iff {f : α → β} : (t.map f).entry fd = none ↔ t.entry fd = none := by
  rw [map_entry, Option.map_eq_none_iff]

end UnixProg.Lib.Descriptor

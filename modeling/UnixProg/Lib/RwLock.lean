import Mathlib.Data.Finset.Erase
import Mathlib.Data.Finset.Insert

namespace UnixProg.Lib.RwLock

variable {T : Type} [DecidableEq T]

/-- A lock that is held by one writer or by any number of readers. -/
structure Lock (T : Type) where
  writer : Option T
  readers : Finset T
  exclusive : writer ≠ none → readers = ∅

def Lock.free : Lock T := ⟨none, ∅, fun _ => rfl⟩

/-- Nothing comes back while the caller has to wait. -/
def Lock.wrlock (l : Lock T) (t : T) : Option (Lock T) :=
  if h : l.writer = none ∧ l.readers = ∅ then some ⟨some t, l.readers, fun _ => h.2⟩ else none

def Lock.rdlock (l : Lock T) (t : T) : Option (Lock T) :=
  if h : l.writer = none then some ⟨l.writer, insert t l.readers, fun hw => absurd h hw⟩ else none

def Lock.unlock (l : Lock T) (t : T) : Lock T where
  writer := if l.writer = some t then none else l.writer
  readers := l.readers.erase t
  exclusive h := by
    have hw : l.writer ≠ none := fun hw => h (by simp [hw])
    rw [l.exclusive hw]
    exact Finset.erase_eq_of_notMem (Finset.notMem_empty t)

def Lock.Writes (l : Lock T) (t : T) : Prop := l.writer = some t

def Lock.Reads (l : Lock T) (t : T) : Prop := t ∈ l.readers

variable {l l' : Lock T} {t u : T}

omit [DecidableEq T] in
theorem Lock.Writes.alone (ht : l.Writes t) (hu : l.Writes u) : t = u := Option.some.inj (ht.symm.trans hu)

omit [DecidableEq T] in
theorem Lock.Writes.not_reads (ht : l.Writes t) : ¬ l.Reads u := by
  have hw : l.writer ≠ none := by
    rw [ht]
    exact Option.some_ne_none t
  rw [Reads, l.exclusive hw]
  exact Finset.notMem_empty u

/-- What the other threads hold they go on holding. -/
def Lock.Keeps (l l' : Lock T) (t : T) : Prop := ∀ u, u ≠ t → (l.Writes u → l'.Writes u) ∧ (l.Reads u → l'.Reads u)

omit [DecidableEq T] in
theorem Lock.Keeps.refl (l : Lock T) (t : T) : l.Keeps l t := fun _ _ => ⟨id, id⟩

theorem wrlock_keeps (h : l.wrlock t = some l') : l'.Writes t ∧ l.Keeps l' t := by
  simp only [Lock.wrlock, Option.dite_none_right_eq_some, Option.some.injEq] at h
  obtain ⟨⟨hw, hr⟩, rfl⟩ := h
  refine ⟨rfl, fun u _ => ⟨fun hu => ?_, fun hu => hu⟩⟩
  cases hw.symm.trans hu

theorem rdlock_keeps (h : l.rdlock t = some l') : l'.Reads t ∧ l.Keeps l' t := by
  simp only [Lock.rdlock, Option.dite_none_right_eq_some, Option.some.injEq] at h
  obtain ⟨hw, rfl⟩ := h
  exact ⟨Finset.mem_insert_self .., fun u _ => ⟨id, Finset.mem_insert_of_mem⟩⟩

theorem unlock_keeps (l : Lock T) (t : T) : l.Keeps (l.unlock t) t := by
  intro u hu
  constructor
  · intro hw
    have hne : ¬ l.writer = some t := fun ht => hu (hw.alone ht)
    exact (if_neg hne).trans hw
  · exact fun hr => Finset.mem_erase_of_ne_of_mem hu hr

end UnixProg.Lib.RwLock

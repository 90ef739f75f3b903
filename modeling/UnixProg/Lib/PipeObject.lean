import Mathlib.Data.Finset.Basic
import Mathlib.Tactic.Common

namespace UnixProg.Lib.PipeObject

variable {ι β : Type} [DecidableEq ι]

/-- The bytes in a pipe, and the processes that have its ends open. -/
structure Pipe (ι β : Type) where
  data : List β
  readers : Finset ι
  writers : Finset ι

def Pipe.empty : Pipe ι β := ⟨[], ∅, ∅⟩

/-- What nobody can read any more is gone. -/
def Pipe.drain (p : Pipe ι β) : Pipe ι β := if p.readers = ∅ ∧ p.writers = ∅ then { p with data := [] } else p

/-- A `read()` of up to `n` bytes. Without any data it sleeps as long as there is a writer. -/
def Pipe.read (p : Pipe ι β) (n : Nat) : Option (List β × Pipe ι β) :=
  if p.data = [] ∧ p.writers ≠ ∅ then none else some (p.data.take n, { p with data := p.data.drop n })

def Pipe.openRead (p : Pipe ι β) (t : ι) : Pipe ι β := { p with readers := insert t p.readers }

def Pipe.openWrite (p : Pipe ι β) (t : ι) : Pipe ι β := { p with writers := insert t p.writers }

def Pipe.closeRead (p : Pipe ι β) (t : ι) : Pipe ι β := { p with readers := p.readers.erase t }.drain

def Pipe.closeWrite (p : Pipe ι β) (t : ι) : Pipe ι β := { p with writers := p.writers.erase t }.drain

/-- The child of a `fork()` has the ends open that its parent has. -/
def Pipe.fork (p : Pipe ι β) (parent child : ι) : Pipe ι β where
  data := p.data
  readers := if parent ∈ p.readers then insert child p.readers else p.readers
  writers := if parent ∈ p.writers then insert child p.writers else p.writers

/-- A process that ends closes what it has open. -/
def Pipe.exit (p : Pipe ι β) (t : ι) : Pipe ι β := (p.closeRead t).closeWrite t

def Pipe.write (p : Pipe ι β) (capacity : Nat) (bs : List β) : Option (Pipe ι β) :=
  if p.data.length + bs.length ≤ capacity then some { p with data := p.data ++ bs } else none

variable {p q : Pipe ι β} {t u v : ι} {bs : List β} {n : Nat}

@[simp] theorem drain_readers (p : Pipe ι β) : p.drain.readers = p.readers := by
  rw [Pipe.drain]
  split <;> rfl

@[simp] theorem drain_writers (p : Pipe ι β) : p.drain.writers = p.writers := by
  rw [Pipe.drain]
  split <;> rfl

theorem drain_data (h : p.readers ≠ ∅ ∨ p.writers ≠ ∅) : p.drain.data = p.data := by
  rw [Pipe.drain, if_neg (by tauto)]

@[simp] theorem closeRead_writers (p : Pipe ι β) (t : ι) : (p.closeRead t).writers = p.writers := drain_writers _

@[simp] theorem closeWrite_writers (p : Pipe ι β) (t : ι) : (p.closeWrite t).writers = p.writers.erase t := drain_writers _

@[simp] theorem closeWrite_readers (p : Pipe ι β) (t : ι) : (p.closeWrite t).readers = p.readers := drain_readers _

theorem drain_empty (h : p.data = []) : p.drain.data = [] := by
  rw [Pipe.drain]
  split
  · rfl
  · exact h

theorem closeRead_empty (h : p.data = []) (t : ι) : (p.closeRead t).data = [] := drain_empty h

theorem closeWrite_empty (h : p.data = []) (t : ι) : (p.closeWrite t).data = [] := drain_empty h

/-- What is left in the pipe stays there as long as a reader has it open. -/
theorem closeWrite_data (h : p.readers ≠ ∅) (t : ι) : (p.closeWrite t).data = p.data := drain_data (.inl h)

theorem mem_fork_writers : u ∈ (p.fork t v).writers ↔ u ∈ p.writers ∨ u = v ∧ t ∈ p.writers := by
  by_cases ht : t ∈ p.writers
  · simp [Pipe.fork, ht, or_comm]
  · simp [Pipe.fork, ht]

@[simp] theorem fork_data (p : Pipe ι β) (t u : ι) : (p.fork t u).data = p.data := rfl

theorem read_cases (h : p.read n = some (bs, q)) :
    (p.data = [] → p.writers = ∅) ∧ bs = p.data.take n ∧ q = { p with data := p.data.drop n } := by
  obtain ⟨hnot, h⟩ := Option.ite_none_left_eq_some.mp h
  cases h
  exact ⟨fun hdata => by_contra (fun hne => hnot ⟨hdata, hne⟩), rfl, rfl⟩

theorem read_nothing (hdata : p.data = []) (h : p.read n = some (bs, q)) : bs = [] ∧ q = p ∧ p.writers = ∅ := by
  obtain ⟨hw, rfl, rfl⟩ := read_cases h
  cases p with
  | mk data readers writers =>
      cases hdata
      exact ⟨List.take_nil, by rw [List.drop_nil], hw rfl⟩

theorem read_blocked_iff : p.read n = none ↔ p.data = [] ∧ p.writers ≠ ∅ := by
  rw [Pipe.read]
  split
  · rename_i h
    exact ⟨fun _ => h, fun _ => rfl⟩
  · rename_i h
    exact ⟨fun hnone => (by cases hnone), fun h' => absurd h' h⟩

end UnixProg.Lib.PipeObject

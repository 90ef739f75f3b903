import UnixProg.Lib.Descriptor

namespace UnixProg.Pipe.PipeAndFork

open Lib Descriptor

/-- The files that were open at the start, and the two ends of the pipe. -/
inductive File (α : Type)
  | initial (a : α)
  | readEnd
  | writeEnd
deriving DecidableEq

variable {α : Type}

/-- The table afterwards, with `pd[0]` and `pd[1]`. -/
def pipe (t : FdTable (File α)) : FdTable (File α) × Nat × Nat :=
  let (t, pd0) := t.alloc .readEnd
  let (t, pd1) := t.alloc .writeEnd
  (t, pd0, pd1)

/-- The child up to its `execl()`. -/
def producer (pd0 pd1 : Nat) (t : FdTable (File α)) : FdTable (File α) :=
  let t := t.close 1
  let (t, _) := t.dup pd1
  let t := t.close pd0
  t.close pd1

/-- The parent up to its `execl()`. -/
def consumer (pd0 pd1 : Nat) (t : FdTable (File α)) : FdTable (File α) :=
  let t := t.close 0
  let (t, _) := t.dup pd0
  let t := t.close pd0
  t.close pd1

/-- The tables of the producer and of the consumer; `fork()` copies the table. -/
def main (t : FdTable α) : FdTable (File α) × FdTable (File α) :=
  let (t, pd0, pd1) := pipe (t.map .initial)
  (producer pd0 pd1 t, consumer pd0 pd1 t)

/-- A process has one end of the pipe at one descriptor and no end at another
one, and everything else is as it was at the start. -/
structure Plumbed (t : FdTable α) (fd : Nat) (f : File α) (u : FdTable (File α)) : Prop where
  here : u.entry fd = some f
  alone (fd') (h : fd' ≠ fd) : u.entry fd' ≠ some .readEnd ∧ u.entry fd' ≠ some .writeEnd
  others (fd') (h : fd' ≠ fd) : u.entry fd' = (t.entry fd').map .initial

/-- The pipeline is set up when `execl()` is called. -/
structure Correct (t : FdTable α) : Prop where
  producer : Plumbed t 1 .writeEnd (main t).1
  consumer : Plumbed t 0 .readEnd (main t).2

variable {t : FdTable α}

theorem initial_not_pipe (f : Option α) : f.map File.initial ≠ some .readEnd ∧ f.map File.initial ≠ some .writeEnd := by
  cases f <;> simp

/-- Closing a descriptor, giving its number to a pipe end and closing both
numbers of the pipe. -/
theorem plumbed {u : FdTable (File α)} {pd0 pd1 fd pd : Nat} {f : File α} (hf : u.entry pd = some f)
    (h0 : pd0 ≠ fd) (h1 : pd1 ≠ fd) (hpd : pd ≠ fd) (hopen : ∀ fd' < fd, u.entry fd' ≠ none)
    (hfree0 : t.entry pd0 = none) (hfree1 : t.entry pd1 = none)
    (hu : ∀ fd', fd' ≠ pd0 → fd' ≠ pd1 → u.entry fd' = (t.entry fd').map .initial) :
    Plumbed t fd f ((((u.close fd).dup pd).1.close pd0).close pd1) := by
  have hdup := dup_close_entry fd hopen hf hpd
  have hothers (fd' : Nat) (hne : fd' ≠ fd) :
      ((((u.close fd).dup pd).1.close pd0).close pd1).entry fd' = (t.entry fd').map .initial := by
    by_cases hp1 : fd' = pd1
    · rw [hp1, close_entry_self, hfree1, Option.map_none]
    · rw [close_entry_of_ne hp1]
      by_cases hp0 : fd' = pd0
      · rw [hp0, close_entry_self, hfree0, Option.map_none]
      · rw [close_entry_of_ne hp0, hdup, if_neg hne, hu fd' hp0 hp1]
  constructor
  · rw [close_entry_of_ne h1.symm, close_entry_of_ne h0.symm, hdup, if_pos rfl]
  · intro fd' hne
    rw [hothers fd' hne]
    exact initial_not_pipe (t.entry fd')
  · exact hothers

/-- What `pipe()` leaves for the two processes. -/
structure Piped (t : FdTable α) (u : FdTable (File α)) (pd0 pd1 : Nat) : Prop where
  lowest : pd0 = (t.map File.initial).lowestFree
  free0 : t.entry pd0 = none
  free1 : t.entry pd1 = none
  read : u.entry pd0 = some .readEnd
  write : u.entry pd1 = some .writeEnd
  others (fd) (h0 : fd ≠ pd0) (h1 : fd ≠ pd1) : u.entry fd = (t.entry fd).map .initial

theorem pipe_piped (t : FdTable α) :
    Piped t (pipe (t.map .initial)).1 (pipe (t.map .initial)).2.1 (pipe (t.map .initial)).2.2 := by
  have hread : ((t.map File.initial).alloc .readEnd).1.entry (t.map File.initial).lowestFree = some .readEnd :=
    alloc_entry_self
  have hfree0 := lowestFree_free (t.map File.initial)
  have hfree1 := lowestFree_free ((t.map File.initial).alloc .readEnd).1
  have hne : (t.map File.initial).lowestFree ≠ (((t.map File.initial).alloc .readEnd).1).lowestFree := by
    intro heq
    rw [← heq, hread] at hfree1
    cases hfree1
  constructor
  · rfl
  · exact map_none_iff.mp hfree0
  · rw [alloc_entry_of_ne hne.symm] at hfree1
    exact map_none_iff.mp hfree1
  · exact (alloc_entry_of_ne hne).trans hread
  · exact alloc_entry_self
  · intro fd h0 h1
    exact (alloc_entry_of_ne h1).trans (alloc_entry_of_ne h0)

variable {u : FdTable (File α)} {pd0 pd1 fd : Nat}

theorem Piped.ne (h : Piped t u pd0 pd1) (hopen : t.entry fd ≠ none) : pd0 ≠ fd ∧ pd1 ≠ fd :=
  ⟨fun heq => hopen (heq ▸ h.free0), fun heq => hopen (heq ▸ h.free1)⟩

theorem Piped.still_open (h : Piped t u pd0 pd1) (hopen : t.entry fd ≠ none) : u.entry fd ≠ none := by
  obtain ⟨h0, h1⟩ := h.ne hopen
  rw [h.others fd h0.symm h1.symm, ne_eq, Option.map_eq_none_iff]
  exact hopen

theorem Piped.pd0_eq (h : Piped t u pd0 pd1) (hfree : t.entry fd = none) (hopen : ∀ fd' < fd, t.entry fd' ≠ none) :
    pd0 = fd := by
  rw [h.lowest]
  exact lowestFree_eq (map_none_iff.mpr hfree) (fun fd' hlt hnone => hopen fd' hlt (map_none_iff.mp hnone))

theorem closed_at_last (u : FdTable (File α)) (pd0 pd1 : Nat) : ((u.close pd0).close pd1).entry pd0 = none :=
  close_entry_none close_entry_self

/-- The pipe reaches from the producer to the consumer just when the program
is started with both standard descriptors open. -/
theorem correct_iff (t : FdTable α) : Correct t ↔ t.entry 0 ≠ none ∧ t.entry 1 ≠ none := by
  have hp := pipe_piped t
  constructor
  · rintro ⟨hproducer, hconsumer⟩
    have h0 : t.entry 0 ≠ none := by
      intro hfree
      have hpd0 := hp.pd0_eq hfree (fun _ hlt => absurd hlt (Nat.not_lt_zero _))
      have hclosed : (main t).2.entry (pipe (t.map .initial)).2.1 = none := closed_at_last ..
      rw [hpd0, hconsumer.here] at hclosed
      cases hclosed
    refine ⟨h0, fun hfree => ?_⟩
    have hpd0 := hp.pd0_eq hfree (fun fd' hlt => by rw [Nat.lt_one_iff.mp hlt]; exact h0)
    have hclosed : (main t).1.entry (pipe (t.map .initial)).2.1 = none := closed_at_last ..
    rw [hpd0, hproducer.here] at hclosed
    cases hclosed
  · rintro ⟨h0, h1⟩
    obtain ⟨ha0, hb0⟩ := hp.ne h0
    obtain ⟨ha1, hb1⟩ := hp.ne h1
    constructor
    · apply plumbed hp.write ha1 hb1 hb1 _ hp.free0 hp.free1 hp.others
      intro fd' hlt
      rw [Nat.lt_one_iff.mp hlt]
      exact hp.still_open h0
    · apply plumbed hp.read ha0 hb0 ha0 _ hp.free0 hp.free1 hp.others
      exact fun _ hlt => absurd hlt (Nat.not_lt_zero _)

end UnixProg.Pipe.PipeAndFork

import UnixProg.Lib.Descriptor

namespace UnixProg.Read.Redirect

open Lib Descriptor

inductive Access
  | readOnly
  | truncated
deriving DecidableEq

/-- The files that were open at the start, and those that a program opens,
which are told apart by the number of the call. -/
inductive File (α : Type)
  | initial (a : α)
  | opened (call : Nat) (path : String) (access : Access)
deriving DecidableEq

/-- The descriptors of a process, and how many files it has opened. -/
structure Process (α : Type) where
  files : FdTable (File α)
  calls : Nat

variable {α : Type}

def Process.start (t : FdTable α) : Process α := ⟨t.map .initial, 0⟩

/-- The program exits when the call fails. -/
def openFile (succeeds : Bool) (path : String) (access : Access) (p : Process α) : Option (Process α × Nat) :=
  if succeeds then
    let (files, fd) := p.files.alloc (.opened p.calls path access)
    some (⟨files, p.calls + 1⟩, fd)
  else none

/-- The table at the `execl()` of redirect.c. -/
def redirect (argv1 argv2 : String) (opens opens' : Bool) (t : FdTable α) : Option (FdTable (File α)) := do
  let (p, fd) ← openFile opens argv1 .readOnly (.start t)
  let files := p.files.close 0
  let (files, _) := files.dup fd
  let files := files.close fd
  let files := files.close 1
  let (p, _) ← openFile opens' argv2 .truncated { p with files := files }
  some p.files

/-- The table at the `execl()` of redirect2.c. -/
def redirect2 (creates : Bool) (t : FdTable α) : Option (FdTable (File α)) := do
  let p := Process.start t
  let (p, _) ← openFile creates "out" .truncated { p with files := p.files.close 1 }
  let files := p.files.close 2
  let (files, _) := files.dup 1
  some files

/-- What a shell makes of `<argv1 >argv2`. -/
structure Redirected (t : FdTable α) (argv1 argv2 : String) (u : FdTable (File α)) : Prop where
  stdin : u.entry 0 = some (.opened 0 argv1 .readOnly)
  stdout : u.entry 1 = some (.opened 1 argv2 .truncated)
  others (fd) (h : 2 ≤ fd) : u.entry fd = (t.entry fd).map .initial

/-- What a shell makes of `>out 2>&1`: both descriptors are of the same open,
so that they share its offset. -/
structure Merged (t : FdTable α) (u : FdTable (File α)) : Prop where
  stdout : u.entry 1 = some (.opened 0 "out" .truncated)
  stderr : u.entry 2 = some (.opened 0 "out" .truncated)
  others (fd) (h1 : fd ≠ 1) (h2 : fd ≠ 2) : u.entry fd = (t.entry fd).map .initial

variable {t : FdTable α} {argv1 argv2 : String}

theorem map_lowest (h : t.entry 0 = none) : (t.map File.initial).lowestFree = 0 := by
  apply lowestFree_eq
  · rw [map_entry, h, Option.map_none]
  · exact fun fd' hlt => absurd hlt (Nat.not_lt_zero fd')

theorem moved_entry {u : FdTable (File α)} {fd : Nat} {f : File α} (hf : u.entry fd = some f) (hne : fd ≠ 0) (x : Nat) :
    (((u.close 0).dup fd).1.close fd).entry x = if x = fd then none else if x = 0 then some f else u.entry x := by
  split
  · subst x
    exact close_entry_self
  · rename_i hx
    rw [close_entry_of_ne hx]
    exact dup_close_entry 0 (fun fd' hlt => absurd hlt (Nat.not_lt_zero fd')) hf hne x

/-- With 0 open the input gets another number, and once it is moved 1 is the
lowest one that is free for the output. -/
theorem redirected (argv1 argv2 : String) (h : t.entry 0 ≠ none) :
    ∃ u, redirect argv1 argv2 true true t = some u ∧ Redirected t argv1 argv2 u := by
  have hfree := lowestFree_free (t.map File.initial)
  have hne : (t.map File.initial).lowestFree ≠ 0 := fun heq => h (map_none_iff.mp (heq ▸ hfree))
  have hmoved := moved_entry (u := ((t.map File.initial).alloc (.opened 0 argv1 .readOnly)).1) alloc_entry_self hne
  have hout := alloc_close_entry 1 (File.opened 1 argv2 .truncated)
    (fun fd' hlt => by rw [Nat.lt_one_iff.mp hlt, hmoved, if_neg hne.symm]; exact Option.some_ne_none _)
  refine ⟨_, rfl, (hout 0).trans ?_, hout 1, fun x hx => (hout x).trans ?_⟩
  · rw [if_neg Nat.zero_ne_one, hmoved, if_neg hne.symm, if_pos rfl]
  · rw [if_neg (by omega), hmoved, ← map_entry]
    split
    · subst x
      exact hfree.symm
    · rename_i hfd
      rw [if_neg (by omega), alloc_entry_of_ne hfd]

theorem alloc_at_zero {u : FdTable (File α)} (f : File α) (h : u.entry 0 = none) : (u.alloc f).1.entry 0 = some f := by
  have hself : (u.alloc f).1.entry u.lowestFree = some f := alloc_entry_self
  rwa [lowestFree_eq h (fun fd' hlt => absurd hlt (Nat.not_lt_zero fd'))] at hself

/-- With 0 closed the input is opened there, and the program closes it as the
old number of a descriptor that it has moved. -/
theorem output_at_zero (argv1 argv2 : String) (h : t.entry 0 = none) :
    ∃ u, redirect argv1 argv2 true true t = some u ∧ u.entry 0 = some (.opened 1 argv2 .truncated) := by
  have hlow : (Process.start t).files.lowestFree = 0 := map_lowest h
  refine ⟨_, rfl, alloc_at_zero _ (close_entry_none ?_)⟩
  rw [hlow]
  exact close_entry_self

theorem redirected_iff (t : FdTable α) (argv1 argv2 : String) :
    (∃ u, redirect argv1 argv2 true true t = some u ∧ Redirected t argv1 argv2 u) ↔ t.entry 0 ≠ none := by
  constructor
  · rintro ⟨u, hu, hr⟩ h
    obtain ⟨v, hv, hout⟩ := output_at_zero argv1 argv2 h
    rw [hu, Option.some.injEq] at hv
    subst hv
    have hin := hr.stdin
    rw [hout] at hin
    cases hin
  · exact redirected argv1 argv2

theorem merged (h : t.entry 0 ≠ none) : ∃ u, redirect2 true t = some u ∧ Merged t u := by
  have h0 : (t.map File.initial).entry 0 ≠ none := fun hnone => h (map_none_iff.mp hnone)
  have hout := alloc_close_entry (t := t.map File.initial) 1 (.opened 0 "out" .truncated) (fun fd' hlt => Nat.lt_one_iff.mp hlt ▸ h0)
  have herr := dup_close_entry (t := (((t.map File.initial).close 1).alloc (.opened 0 "out" .truncated)).1) 2
    (fun fd' hlt => by
      rw [hout]
      split
      · exact Option.some_ne_none _
      · rename_i hne
        rwa [show fd' = 0 by omega])
    (hout 1) (by decide)
  refine ⟨_, rfl, (herr 1).trans (hout 1), herr 2, fun fd h1 h2 => (herr fd).trans ?_⟩
  rw [if_neg h2, hout, if_neg h1, map_entry]

/-- With 0 closed the output is opened there, so the `dup()` has nothing to
copy and 1 stays closed. -/
theorem stdout_closed (h : t.entry 0 = none) : ∃ u, redirect2 true t = some u ∧ u.entry 1 = none := by
  have h1 : ((t.map File.initial).close 1).lowestFree = 0 := by
    refine lowestFree_eq (close_entry_none ?_) (fun fd' hlt => absurd hlt (Nat.not_lt_zero fd'))
    rw [map_entry, h, Option.map_none]
  have hclosed : (((((t.map File.initial).close 1).alloc (.opened 0 "out" .truncated)).1).close 2).entry 1 = none := by
    apply close_entry_none
    rw [alloc_entry_of_ne (by rw [h1]; exact Nat.one_ne_zero), close_entry_self]
  have hdup := congrArg (fun r => r.1.entry 1) (dup_none hclosed)
  exact ⟨_, rfl, hdup.trans hclosed⟩

theorem merged_iff (t : FdTable α) : (∃ u, redirect2 true t = some u ∧ Merged t u) ↔ t.entry 0 ≠ none := by
  constructor
  · rintro ⟨u, hu, hm⟩ h
    obtain ⟨v, hv, hclosed⟩ := stdout_closed h
    rw [hu, Option.some.injEq] at hv
    subst hv
    have hout := hm.stdout
    rw [hclosed] at hout
    cases hout
  · exact merged

/-- Both programs do what a shell would do just when they are started with
descriptor 0 open. -/
theorem like_shell_iff (t : FdTable α) (argv1 argv2 : String) :
    ((∃ u, redirect argv1 argv2 true true t = some u ∧ Redirected t argv1 argv2 u) ↔ t.entry 0 ≠ none) ∧
    ((∃ u, redirect2 true t = some u ∧ Merged t u) ↔ t.entry 0 ≠ none) :=
  ⟨redirected_iff t argv1 argv2, merged_iff t⟩

end UnixProg.Read.Redirect

import UnixProg.FileLocking.SharedOffset

namespace UnixProg.FileLocking.SetUp

open Lib Transition FileStore FcntlLocking SharedOffset

variable {C : Type}

theorem length_setUp (mode : Mode) : (setUp mode : List (Byte C) × Nat).1.length < fileLen := by
  cases mode with
  | noLock | sharedFd => exact Nat.lt_add_of_pos_left (Nat.zero_lt_succ 68)
  | exclusiveFd => exact Nat.zero_lt_succ 69

variable [DecidableEq C] [Fintype C] {mode : Mode} {s s' : State C} {es : List (Event C)} {n : Nat}

/-- The offset at which a step writes. -/
def written (mode : Mode) (s : State C) : Event C → List Nat
  | .child i => if writing (s.pc i) then [s.offset (mode.desc i)] else []
  | .parent => []

theorem next_length {e : Event C} (h : next mode s e = some s') :
    n ≤ s'.file.length ↔ n ≤ s.file.length ∨ ∃ offset ∈ written mode s e, n ≤ offset + 1 := by
  cases e with
  | parent =>
      have hfile := (dumpStep_frame h).2.2.1
      simp [written, hfile]
  | child i =>
      obtain ⟨hwriting, hfile⟩ | ⟨hwriting, b, hfile⟩ := childStep_file h
      · simp [written, hwriting, hfile]
      · simp [written, hwriting, hfile, length_writeAt]

/-- The file reaches a length only by a write of its last byte. -/
theorem run_length (h : Run (Exec (next mode)) (initial mode) es s) (hn : (setUp mode : List (Byte C) × Nat).1.length < n) :
    n ≤ s.file.length ↔ ∃ offset ∈ trace (next mode) (written mode) (initial mode) es, n ≤ offset + 1 := by
  refine h.invariant (I := fun es s => n ≤ s.file.length ↔
    ∃ offset ∈ trace (next mode) (written mode) (initial mode) es, n ≤ offset + 1) ?_ ?_
  · exact ⟨fun hle => absurd hle (Nat.not_le_of_lt hn), fun ⟨_, hmem, _⟩ => absurd hmem List.not_mem_nil⟩
  · intro es e s s' hr hi hl
    rw [next_length hl, hi, trace_snoc _ hr]
    simp only [List.mem_append, or_and_right, exists_or]

/-- The parent alone, from the top of its loop to the end of a dump. -/
def oneDump : List (Event C) := List.replicate 5 .parent

theorem lockr_seek (mode : Mode) (hpc : s.dumpPc = .lockr) (hfree : Grantable s.locks none region .read) :
    ∃ t, next mode s .parent = some t ∧ t.dumpPc = .seek ∧ t.file = s.file ∧ t.dumps = s.dumps := by
  cases hl : mode.locking with
  | true => exact ⟨{ s.setLock none (some .read) with dumpPc := .seek }, by simp [next, dumpStep, hpc, hl, hfree], rfl, rfl, rfl⟩
  | false => exact ⟨{ s with dumpPc := .seek }, by simp [next, dumpStep, hpc, hl], rfl, rfl, rfl⟩

theorem seek_print (mode : Mode) (hpc : s.dumpPc = .seek) : ∃ t buf, replay (next mode) s [.parent, .parent, .parent, .parent] = some t ∧
    t.dumps = s.dumps ++ [(buf, min fileLen s.file.length)] := by
  have hread : (readAt s.file 0 (List.replicate fileLen Byte.zero)).2 = min fileLen s.file.length := by simp [readAt]
  simp only [replay, List.foldlM_cons, List.foldlM_nil, next, dumpStep, hpc, Option.bind_eq_bind, Option.bind_some, Option.pure_def]
  refine ⟨_, (readAt s.file 0 (List.replicate fileLen .zero)).1, rfl, ?_⟩
  rw [← hread]
  simp [State.seek, lseek]

/-- A dump that nobody disturbs reads what is in the file. -/
theorem oneDump_reads (mode : Mode) (hpc : s.dumpPc = .lockr) (hfree : Grantable s.locks none region .read) :
    ∃ t buf, replay (next mode) s oneDump = some t ∧ t.dumps = s.dumps ++ [(buf, min fileLen s.file.length)] := by
  obtain ⟨u, hu, hseek, hfile, hdumps⟩ := lockr_seek mode hpc hfree
  obtain ⟨t, buf, ht, hprint⟩ := seek_print mode hseek
  refine ⟨t, buf, ?_, by rw [hprint, hdumps, hfile]⟩
  change (next mode s .parent).bind (fun u => replay (next mode) u [.parent, .parent, .parent, .parent]) = some t
  rw [hu, Option.bind_some, ht]

/-- In no mode does the set-up extend the file: it is short when the forks
begin, and so is the first dump of a parent that is quicker than its children. -/
theorem never_extended (mode : Mode) :
    ¬ (∀ es (s : State C), Run (Exec (next mode)) (initial mode) es s → fileLen ≤ s.file.length) ∧
    ¬ (∀ es (s : State C), Run (Exec (next mode)) (initial mode) es s → ∀ d ∈ s.dumps, d.2 = fileLen) := by
  constructor
  · intro hall
    exact absurd (hall [] _ .nil) (Nat.not_le_of_lt (length_setUp mode))
  · intro hall
    have hfree : Grantable (initial mode : State C).locks none region .read := fun _ _ _ _ _ hk => by cases hk
    obtain ⟨s, buf, hs, hdumps⟩ := oneDump_reads mode rfl hfree
    have hread := hall _ s (replay_run hs) (buf, _) (by rw [hdumps]; exact List.mem_append_right _ (List.mem_singleton_self _))
    have hshort : (initial mode : State C).file.length < fileLen := length_setUp mode
    omega

/-- Five children, with the descriptor that all of them share. -/
theorem one_byte_long : ¬ (∀ es (s : State (Fin 5)), Run (Exec (next .sharedFd)) (initial .sharedFd) es s →
    fileLen ≤ s.file.length ∧ ∀ d ∈ s.dumps, d.2 = fileLen) := by
  intro hall
  exact absurd (hall [] _ .nil).1 (by decide)

end UnixProg.FileLocking.SetUp

import Mathlib.Data.List.TakeWhile
import Mathlib.Tactic.Common

namespace UnixProg.Read.Readdir

/-- The number of an error, which is what a failing call puts into `errno`. -/
structure Code where
  errno : Nat
  pos : 0 < errno

/-- A name in a directory, and what printing it leaves in `errno`. A `printf()`
that succeeds may set it and does not clear it. -/
structure Entry where
  name : String
  leaves : Option Code

/-- What `readdir()` returns one time after the other: the entries, and a NULL
at the end or because of an error. -/
structure Dir where
  entries : List Entry
  failure : Option Code

inductive Line
  | header (dir : String)
  | name (s : String)
  | warning (dir : String) (errno : Nat)
deriving DecidableEq

structure Output where
  lines : List Line
  status : Nat
deriving DecidableEq

def Entry.print (e : Entry) (errno : Nat) : Nat := e.leaves.elim errno Code.errno

/-- The loop of one directory: the names it prints and the `errno` it leaves. -/
def loop : List Entry → Option Code → Nat → List String × Nat
  | [], failure, errno => ([], failure.elim errno Code.errno)
  | e :: es, failure, errno =>
      if errno ≠ 0 then ([], errno)
      else
        let (names, errno) := loop es failure (e.print errno)
        (e.name :: names, errno)

def report (dir : String) (names : List String) (errno : Nat) : List Line :=
  names.map .name ++ if errno ≠ 0 then [.warning dir errno] else []

/-- The variable is cleared once, in front of the loop. -/
def listDir (dir : String) : Except Code Dir → List Line
  | .error code => [.warning dir code.errno]
  | .ok d =>
      let (names, errno) := loop d.entries d.failure 0
      report dir names errno

def listDirs : List (String × Except Code Dir) → List Line
  | [] => []
  | (dir, d) :: args => .header dir :: listDir dir d ++ listDirs args

/-- The directories of the command line, with what `opendir()` returns for them. -/
def main (args : List (String × Except Code Dir)) : Output :=
  if args = [] then ⟨[], 1⟩ else ⟨listDirs args, 0⟩

/-- What the listing of a directory is meant to be: all its names in order, and
a warning just when a call has failed. -/
def listing (dir : String) : Except Code Dir → List Line
  | .error code => [.warning dir code.errno]
  | .ok d => d.entries.map (.name ∘ Entry.name) ++ d.failure.toList.map (fun code => .warning dir code.errno)

def listings (args : List (String × Except Code Dir)) : List Line :=
  args.flatMap (fun a => .header a.1 :: listing a.1 a.2)

/-- Only the print in front of a failing `readdir()` may set `errno`. -/
def Quiet (d : Dir) : Prop :=
  ∀ before e after, d.entries = before ++ e :: after → e.leaves ≠ none → after = [] ∧ d.failure ≠ none

variable {dir : String} {d : Dir} {args : List (String × Except Code Dir)} {es : List Entry} {e : Entry} {failure : Option Code}

theorem quiet_cons : Quiet ⟨e :: es, failure⟩ ↔ (e.leaves ≠ none → es = [] ∧ failure ≠ none) ∧ Quiet ⟨es, failure⟩ := by
  constructor
  · intro h
    refine ⟨h [] e es rfl, fun before e' after hes => h (e :: before) e' after ?_⟩
    exact congrArg (e :: ·) hes
  · rintro ⟨he, hes⟩ before e' after heq
    cases before with
    | nil =>
        obtain ⟨rfl, rfl⟩ := List.cons.inj heq
        exact he
    | cons _ before => exact hes before e' after (List.cons.inj heq).2

theorem quiet_nil : Quiet ⟨[], failure⟩ := fun before _ _ h => by cases before <;> cases h

theorem loop_cons (e : Entry) (es : List Entry) (failure : Option Code) :
    loop (e :: es) failure 0 = (e.name :: (loop es failure (e.print 0)).1, (loop es failure (e.print 0)).2) := rfl

/-- Once `errno` is set the loop ends at the next entry. -/
theorem loop_set (e : Entry) (es : List Entry) (failure : Option Code) {errno : Nat} (h : errno ≠ 0) :
    loop (e :: es) failure errno = ([], errno) := if_pos h

theorem loop_eq_iff (es : List Entry) (failure : Option Code) :
    loop es failure 0 = (es.map Entry.name, failure.elim 0 Code.errno) ↔ Quiet ⟨es, failure⟩ := by
  induction es with
  | nil => exact iff_of_true rfl quiet_nil
  | cons e es ih =>
      rw [quiet_cons, loop_cons]
      cases he : e.leaves with
      | none =>
          have hprint : e.print 0 = 0 := by rw [Entry.print, he]; rfl
          rw [hprint, ← ih, Prod.ext_iff, Prod.ext_iff]
          simp
      | some code =>
          have hprint : e.print 0 = code.errno := by rw [Entry.print, he]; rfl
          have hset : code.errno ≠ 0 := Nat.ne_of_gt code.pos
          rw [hprint]
          cases es with
          | nil =>
              cases failure with
              | none => simp [loop, hset]
              | some code' => simp [loop, quiet_nil]
          | cons e' es => simp [loop_set e' es failure hset]

def Line.name? : Line → Option String
  | .name s => some s
  | .header _ | .warning _ _ => none

def Line.errno? : Line → Option Nat
  | .warning _ errno => some errno
  | .header _ | .name _ => none

def Line.isHeader : Line → Bool
  | .header _ => true
  | .name _ | .warning _ _ => false

theorem report_names (dir : String) (names : List String) (errno : Nat) :
    (report dir names errno).filterMap Line.name? = names := by
  have hname : Line.name? ∘ .name = some := rfl
  rw [report, List.filterMap_append, List.filterMap_map, hname, List.filterMap_some]
  split <;> simp [Line.name?]

theorem report_errno (dir : String) (names : List String) (errno : Nat) :
    ((report dir names errno).filterMap Line.errno?).head?.getD 0 = errno := by
  have hnames : (names.map Line.name).filterMap Line.errno? = [] := by
    rw [List.filterMap_eq_nil_iff]
    intro l hl
    obtain ⟨_, -, rfl⟩ := List.mem_map.mp hl
    rfl
  rw [report, List.filterMap_append, hnames]
  split
  · simp [Line.errno?]
  · rename_i h
    simpa using (not_not.mp h).symm

theorem report_eq_iff {names names' : List String} {errno errno' : Nat} :
    report dir names errno = report dir names' errno' ↔ (names, errno) = (names', errno') := by
  constructor
  · intro h
    have hnames := congrArg (List.filterMap Line.name?) h
    have herrno := congrArg (fun lines => (lines.filterMap Line.errno?).head?.getD 0) h
    rw [report_names, report_names] at hnames
    simp only [report_errno] at herrno
    rw [hnames, herrno]
  · intro h
    obtain ⟨rfl, rfl⟩ := Prod.mk.inj h
    rfl

theorem report_failure (dir : String) (names : List String) (failure : Option Code) :
    report dir names (failure.elim 0 Code.errno) =
      names.map .name ++ failure.toList.map (fun code => .warning dir code.errno) := by
  cases failure with
  | none => rfl
  | some code =>
      have hset : code.errno ≠ 0 := Nat.ne_of_gt code.pos
      simp [report, hset]

theorem listing_eq (dir : String) (d : Dir) :
    listing dir (.ok d) = report dir (d.entries.map Entry.name) (d.failure.elim 0 Code.errno) := by
  rw [report_failure, List.map_map]
  rfl

theorem listDir_eq_iff (dir : String) (d : Dir) : listDir dir (.ok d) = listing dir (.ok d) ↔ Quiet d := by
  rw [listing_eq, ← loop_eq_iff d.entries d.failure]
  exact report_eq_iff

theorem report_no_header (dir : String) (names : List String) (errno : Nat) : ∀ l ∈ report dir names errno, l.isHeader = false := by
  intro l hl
  rcases List.mem_append.mp hl with hl | hl
  · obtain ⟨_, -, rfl⟩ := List.mem_map.mp hl
    rfl
  · split at hl
    · rw [List.mem_singleton.mp hl]
      rfl
    · cases hl

theorem listDir_no_header (dir : String) (d : Except Code Dir) : ∀ l ∈ listDir dir d, l.isHeader = false := by
  cases d with
  | error code => simp [listDir, Line.isHeader]
  | ok d => exact report_no_header _ _ _

theorem listing_no_header (dir : String) (d : Except Code Dir) : ∀ l ∈ listing dir d, l.isHeader = false := by
  cases d with
  | error code => simp [listing, Line.isHeader]
  | ok d =>
      rw [listing_eq]
      exact report_no_header _ _ _

/-- A listing goes on up to the next header. -/
theorem takeWhile_body {body rest : List Line} (hbody : ∀ l ∈ body, l.isHeader = false)
    (hrest : ∀ l ∈ rest.head?, l.isHeader = true) : (body ++ rest).takeWhile (fun l => !l.isHeader) = body := by
  have hstop : rest.takeWhile (fun l => !l.isHeader) = [] := by
    cases rest with
    | nil => rfl
    | cons l rest => simp [hrest l rfl]
  rw [List.takeWhile_append_of_pos (by simpa using hbody), hstop, List.append_nil]

/-- The whole output is as it should be just when each directory is. -/
theorem listDirs_eq_iff (args : List (String × Except Code Dir)) :
    listDirs args = listings args ↔ ∀ a ∈ args, listDir a.1 a.2 = listing a.1 a.2 := by
  induction args with
  | nil => simp [listDirs, listings]
  | cons a args ih =>
      have hhead : ∀ l ∈ (listDirs args).head?, l.isHeader = true := by
        cases args <;> simp [listDirs, Line.isHeader]
      have hhead' : ∀ l ∈ (listings args).head?, l.isHeader = true := by
        cases args <;> simp [listings, Line.isHeader]
      have hcons : listings (a :: args) = .header a.1 :: listing a.1 a.2 ++ listings args := rfl
      rw [listDirs, hcons, List.forall_mem_cons, ← ih, List.cons_append, List.cons_append, List.cons.injEq]
      constructor
      · rintro ⟨-, h⟩
        have hbody := congrArg (List.takeWhile (fun l => !l.isHeader)) h
        rw [takeWhile_body (listDir_no_header _ _) hhead, takeWhile_body (listing_no_header _ _) hhead'] at hbody
        rw [hbody] at h
        exact ⟨hbody, List.append_cancel_left h⟩
      · rintro ⟨hbody, hrest⟩
        rw [hbody, hrest]
        exact ⟨rfl, rfl⟩

/-- Every entry is listed and every warning is true, just when no print leaves
an `errno` behind that the loop takes for an error of `readdir()`. -/
theorem main_lists_iff (args : List (String × Except Code Dir)) :
    (main args).lines = listings args ↔ ∀ a ∈ args, ∀ d, a.2 = .ok d → Quiet d := by
  have hlines : (main args).lines = listDirs args := by
    cases args <;> rfl
  rw [hlines, listDirs_eq_iff]
  constructor
  · intro h a ha d hd
    have hdir := h a ha
    rw [hd] at hdir
    exact (listDir_eq_iff a.1 d).mp hdir
  · intro h a ha
    cases hd : a.2 with
    | error code => rfl
    | ok d => exact (listDir_eq_iff a.1 d).mpr (h a ha d hd)

/-- Printing the first name leaves `errno` set, say because the output is no terminal. -/
def notTerminal : List (String × Except Code Dir) :=
  [("dir", .ok ⟨[⟨"a", some ⟨25, by decide⟩⟩, ⟨"b", none⟩], none⟩)]

theorem entry_dropped : (main notTerminal).lines = [.header "dir", .name "a", .warning "dir" 25] ∧
    listings notTerminal = [.header "dir", .name "a", .name "b"] := ⟨rfl, rfl⟩

end UnixProg.Read.Readdir

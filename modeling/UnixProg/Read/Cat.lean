import UnixProg.Lib.Descriptor
import UnixProg.Lib.Getopt
import UnixProg.Lib.Stream
import Mathlib.Algebra.Group.Int.Defs
import Mathlib.Data.Finset.Lattice.Fold
import Mathlib.Order.Lattice.Nat

namespace UnixProg.Read.Cat

open Lib Descriptor Getopt

open Lib.Stream (Chunk)

/-- The last `read()` from a file returns 0 or -1. -/
inductive Ending
  | eof
  | error
deriving DecidableEq

/-- The answers to the system calls of one `do_cat()`. There are no reads when
the `open()` fails. -/
structure Call (bufsize : Nat) where
  malloc : Bool
  file : Option (List (Chunk bufsize) × Ending)

def Call.bytes {bufsize : Nat} (c : Call bufsize) : List UInt8 := (c.file.elim [] Prod.fst).flatMap Chunk.bytes

/-- The `open()` or a `read()` fails. -/
def Call.Fails {bufsize : Nat} (c : Call bufsize) : Prop := ∀ chunks, c.file ≠ some (chunks, .eof)

inductive Warning
  | open
  | read
deriving DecidableEq

/-- What was written to the standard output and printed as warnings, the
variable `ret`, the open descriptors and the buffers in use. -/
structure State where
  output : List UInt8
  warnings : List Warning
  ret : Nat
  fds : FdTable String
  heap : Finset Nat

def fresh (heap : Finset Nat) : Nat := heap.sup id + 1

variable {bufsize : Nat}

def copy : List (Chunk bufsize) → State → State
  | [], s => s
  | c :: chunks, s => copy chunks { s with output := s.output ++ c.bytes }

/-- The program exits at once when there is no memory. -/
def doCat (file : String) (c : Call bufsize) (s : State) : Except State State :=
  if c.malloc = false then .error s
  else
    let buf := fresh s.heap
    let s := { s with heap := insert buf s.heap }
    match c.file with
    | none => .ok { s with warnings := s.warnings ++ [.open], ret := 1, heap := s.heap.erase buf }
    | some (chunks, n) =>
        let (fds, fd) := s.fds.alloc file
        let s := copy chunks { s with fds := fds }
        let s := if n = .error then { s with warnings := s.warnings ++ [.read], ret := 1 } else s
        .ok { s with fds := s.fds.close fd, heap := s.heap.erase buf }

/-- The loop over the file names, which come with the answers to their calls. -/
def catFiles : List (String × Call bufsize) → State → Except State State
  | [], s => .ok s
  | (file, c) :: files, s => (doCat file c s).bind (catFiles files)

/-- The value of `atoi()`: `strtol()` stops at the bounds of a long, of which
an int keeps the low bits. -/
def atoi (str : String) : Int32 :=
  let cs := str.toList.dropWhile (fun c => c = ' ' ∨ '\t' ≤ c ∧ c ≤ '\r')
  let value (cs : List Char) : Nat := (cs.takeWhile Char.isDigit).foldl (fun n c => 10 * n + (c.toNat - '0'.toNat)) 0
  match cs with
  | '-' :: cs => Int32.ofInt (max (-value cs) (-2 ^ 63))
  | '+' :: cs => Int32.ofInt (min (value cs) (2 ^ 63 - 1))
  | cs => Int32.ofInt (min (value cs) (2 ^ 63 - 1))

/-- An int as the size that `malloc()` and `read()` are asked for. -/
def size (bufsize : Int32) : Nat := (bufsize.toInt % 2 ^ 64).toNat

def spec : Spec := fun c => if c = 'b' then some true else none

/-- The body of the loop over the options. There is an assertion for an option
without argument, which the specification does not know. -/
def setBufsize (bufsize : Int32) : Result → Except Unit Int32
  | .option _ (some optarg) => .ok (atoi optarg)
  | .option _ none => .ok bufsize
  | .missing _ => .error ()
  | .unknown _ => .error ()

structure Outcome where
  output : List UInt8
  status : Nat
deriving DecidableEq

/-- The answers of the system to the `do_cat()` for a name in the list. -/
abbrev System := (bufsize : Nat) → Nat → String → Call bufsize

def System.calls (sys : System) (bufsize : Nat) (files : List String) : List (String × Call bufsize) :=
  files.mapIdx (fun k file => (file, sys bufsize k file))

/-- `getopt()` is that of POSIX: what follows the first operand is no option.
That of glibc is the same if POSIXLY_CORRECT is set. -/
def main (sys : System) (fds : FdTable String) (argv0 : String) (args : List String) : Outcome :=
  if args = [] then ⟨[], 1⟩
  else match loop spec (argv0 :: args) setBufsize 4096 start with
    | .error () => ⟨[], 1⟩
    | .ok (bufsize, optind) =>
        match catFiles (sys.calls (size bufsize) ((argv0 :: args).drop optind)) ⟨[], [], 0, fds, ∅⟩ with
        | .error s => ⟨s.output, 1⟩
        | .ok s => ⟨s.output, s.ret⟩

structure SameHeld (s t : State) : Prop where
  fds (fd) : t.fds.entry fd = s.fds.entry fd
  heap : t.heap = s.heap

variable {s t : State} {c : Call bufsize} {file : String} {chunks : List (Chunk bufsize)} {files : List (String × Call bufsize)}

theorem fresh_notMem (heap : Finset Nat) : fresh heap ∉ heap := by
  intro h
  have hle : fresh heap ≤ heap.sup id := Finset.le_sup (f := id) h
  exact absurd hle (Nat.not_succ_le_self _)

theorem copy_eq (chunks : List (Chunk bufsize)) (s : State) :
    copy chunks s = { s with output := s.output ++ chunks.flatMap Chunk.bytes } := by
  induction chunks generalizing s with
  | nil => simp [copy]
  | cons c chunks ih => simp [copy, ih]

/-- With memory for the buffer, whatever becomes of the file. -/
structure Catted (c : Call bufsize) (s t : State) : Prop where
  output : t.output = s.output ++ c.bytes
  failed (h : c.Fails) : t.ret = 1
  done (h : ¬ c.Fails) : t.ret = s.ret
  held : SameHeld s t

theorem doCat_catted (file : String) (hm : c.malloc = true) (s : State) : ∃ t, doCat file c s = .ok t ∧ Catted c s t := by
  have hheap := Finset.erase_insert (fresh_notMem s.heap)
  have hfds := close_alloc_entry s.fds file
  simp only [doCat, hm, Bool.true_eq_false, if_false, copy_eq]
  cases hc : c.file with
  | none =>
      have hfails : c.Fails := fun chunks heq => by simp [hc] at heq
      exact ⟨_, rfl, by simp [Call.bytes, hc], fun _ => rfl, fun h => absurd hfails h, fun _ => rfl, hheap⟩
  | some r =>
      obtain ⟨chunks, n⟩ := r
      have hbytes : c.bytes = chunks.flatMap Chunk.bytes := by simp [Call.bytes, hc]
      cases n with
      | eof =>
          have hdone : ¬ c.Fails := fun h => h chunks hc
          exact ⟨_, rfl, hbytes ▸ rfl, fun h => absurd h hdone, fun _ => rfl, hfds, hheap⟩
      | error =>
          have hfails : c.Fails := fun chunks heq => by simp [hc] at heq
          exact ⟨_, rfl, hbytes ▸ rfl, fun _ => rfl, fun h => absurd hfails h, hfds, hheap⟩

/-- The same for a list of files. The status keeps a failure. -/
structure CattedAll (files : List (String × Call bufsize)) (s t : State) : Prop where
  output : t.output = s.output ++ files.flatMap (fun f => f.2.bytes)
  failed (h : ∃ f ∈ files, f.2.Fails) : t.ret = 1
  done (h : ¬ ∃ f ∈ files, f.2.Fails) : t.ret = s.ret
  held : SameHeld s t

theorem SameHeld.trans {u : State} (h : SameHeld s t) (h' : SameHeld t u) : SameHeld s u :=
  ⟨fun fd => (h'.fds fd).trans (h.fds fd), h'.heap.trans h.heap⟩

theorem catFiles_catted (hm : ∀ f ∈ files, f.2.malloc = true) (s : State) :
    ∃ t, catFiles files s = .ok t ∧ CattedAll files s t := by
  induction files generalizing s with
  | nil => exact ⟨s, rfl, by simp, by simp, fun _ => rfl, fun _ => rfl, rfl⟩
  | cons f files ih =>
      obtain ⟨u, hu, hcat⟩ := doCat_catted f.1 (hm f List.mem_cons_self) s
      obtain ⟨t, ht, hall⟩ := ih (fun f' hf' => hm f' (List.mem_cons_of_mem f hf')) u
      refine ⟨t, by rw [catFiles, hu]; exact ht, ?_, fun h => ?_, fun h => ?_, hcat.held.trans hall.held⟩
      · rw [hall.output, hcat.output, List.flatMap_cons, List.append_assoc]
      · by_cases hrest : ∃ f ∈ files, f.2.Fails
        · exact hall.failed hrest
        · obtain ⟨f', hf', hfails⟩ := h
          rcases List.mem_cons.mp hf' with rfl | hmem
          · rw [hall.done hrest, hcat.failed hfails]
          · exact absurd ⟨f', hmem, hfails⟩ hrest
      · rw [hall.done (fun ⟨f', hf', hfails⟩ => h ⟨f', List.mem_cons_of_mem f hf', hfails⟩),
          hcat.done (fun hfails => h ⟨f, List.mem_cons_self, hfails⟩)]

/-- The buffer size of a command line: what the last `-b` says. -/
def bufsizeOf (rs : List Result) : Int32 := ((optargs rs).getLast?.map atoi).getD 4096

/-- The files of a command line with the answers to their calls. -/
def System.serve (sys : System) (rs : List Result) (operands : List String) : List (String × Call (size (bufsizeOf rs))) :=
  sys.calls (size (bufsizeOf rs)) operands

variable {args operands : List String} {rs : List Result}

theorem main_eq (sys : System) (fds : FdTable String) (argv0 : String) (hargs : args ≠ []) (hp : Parses spec [] args rs operands) :
    main sys fds argv0 args = match catFiles (sys.serve rs operands) ⟨[], [], 0, fds, ∅⟩ with
      | .error s => ⟨s.output, 1⟩
      | .ok s => ⟨s.output, s.ret⟩ := by
  obtain ⟨i, hi, hs⟩ := answers_of_parses (argv0 :: args) start hp rfl rfl
  have hloop : loop spec (argv0 :: args) setBufsize 4096 start = .ok (bufsizeOf rs, i) := by
    rw [loop_answers _ _ hs, foldlM_accepted (f := atoi) (fun _ _ _ => rfl) (fun _ _ => rfl) (parses_accepted hp)]
    rfl
  rw [main, if_neg hargs]
  simp only [hloop, hi]
  rfl

/-- The bytes of all files one after the other, each cut at its error, and a
status that tells of any failure; nothing is held after any of the files. -/
theorem cat_correct (sys : System) (fds : FdTable String) (argv0 : String) (args operands : List String) (rs : List Result)
    (hargs : args ≠ []) (hp : Parses spec [] args rs operands) (hm : ∀ f ∈ sys.serve rs operands, f.2.malloc = true) :
    (main sys fds argv0 args).output = (sys.serve rs operands).flatMap (fun f => f.2.bytes) ∧
    ((main sys fds argv0 args).status = 1 ↔ ∃ f ∈ sys.serve rs operands, f.2.Fails) ∧
    ((main sys fds argv0 args).status = 0 ↔ ¬ ∃ f ∈ sys.serve rs operands, f.2.Fails) ∧
    ∀ before after, sys.serve rs operands = before ++ after →
      ∃ s, catFiles before ⟨[], [], 0, fds, ∅⟩ = .ok s ∧ SameHeld ⟨[], [], 0, fds, ∅⟩ s := by
  rw [main_eq sys fds argv0 hargs hp]
  generalize sys.serve rs operands = files at *
  obtain ⟨t, ht, hall⟩ := catFiles_catted hm ⟨[], [], 0, fds, ∅⟩
  have hret (h : ¬ ∃ f ∈ files, f.2.Fails) : t.ret = 0 := hall.done h
  rw [ht]
  refine ⟨hall.output, ⟨fun h => ?_, hall.failed⟩, ⟨fun h hfails => ?_, hret⟩, fun before after hfiles => ?_⟩
  · by_contra hnone
    exact Nat.zero_ne_one ((hret hnone).symm.trans h)
  · exact Nat.zero_ne_one (h.symm.trans (hall.failed hfails))
  · have hbefore : ∀ f ∈ before, f.2.malloc = true := fun f hf => hm f (hfiles ▸ List.mem_append_left after hf)
    obtain ⟨s, hs, hsome⟩ := catFiles_catted hbefore ⟨[], [], 0, fds, ∅⟩
    exact ⟨s, hs, hsome.held⟩

def standard : FdTable String := ⟨fun fd => if fd < 3 then some "tty" else none, 3, fun _ h => if_neg (Nat.not_lt.mpr h)⟩

def oneByte (b : UInt8) (bufsize : Nat) : List (Chunk bufsize) :=
  if h : 0 < bufsize then [⟨[b], Nat.one_pos, h⟩] else []

/-- A file that is read, one that is not there and one with an error at its
second byte. -/
def threeFiles : System := fun bufsize _ file =>
  if file = "a" then ⟨true, some (oneByte 97 bufsize, .eof)⟩
  else if file = "b" then ⟨true, none⟩
  else ⟨true, some (oneByte 99 bufsize, .error)⟩

theorem cat_correct_threeFiles : (main threeFiles standard "cat" ["a", "b", "c"]).output = [97, 99] ∧
    (main threeFiles standard "cat" ["a", "b", "c"]).status = 1 := by
  have hp : Parses spec [] ["a", "b", "c"] [] ["a", "b", "c"] := .operands (by simp)
  have hm : ∀ f ∈ threeFiles.serve [] ["a", "b", "c"], f.2.malloc = true := by
    simp [System.serve, System.calls, threeFiles]
  obtain ⟨houtput, hstatus, _⟩ := cat_correct threeFiles standard "cat" ["a", "b", "c"] ["a", "b", "c"] [] (by simp) hp hm
  refine ⟨houtput.trans (by decide), hstatus.mpr ⟨("b", ⟨true, none⟩), ?_, fun _ h => by cases h⟩⟩
  simp [System.serve, System.calls, threeFiles]

end UnixProg.Read.Cat

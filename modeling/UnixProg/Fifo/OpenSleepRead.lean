import Mathlib.Data.List.TakeWhile
import UnixProg.Lib.PipeObject
import UnixProg.Lib.Transition

namespace UnixProg.Fifo.OpenSleepRead

open Lib Transition PipeObject

variable {ι : Type}

/-- `sizeof (buf)` -/
def size : Nat := 128

inductive Line
  | now
  | again
  | returned (n : Nat)
deriving DecidableEq

/-- The program, and what others run that write to the fifo. -/
inductive Proc (ι : Type)
  | main
  | writer (w : ι)
deriving DecidableEq

/-- The `open()` waits until it has `met` a process that opens the fifo for writing. -/
inductive Pc
  | callOpen
  | opening (met : Bool)
  | sleep
  | printNow
  | read
  | write
  | printAgain
  | readAgain
  | printReturned
  | exited (status : Nat)
deriving DecidableEq

def Pc.meet : Pc → Pc
  | .opening _ => .opening true
  | p => p

/-- `buf` is what the last `read()` has stored there, `written` what has been
given to `write()` for the standard output. -/
structure State (ι : Type) where
  pc : Pc
  fifo : Pipe (Proc ι) UInt8
  buf : List UInt8
  n : Nat
  written : List UInt8
  lines : List Line

/-- A statement of main, an `open()` that fails, and what the writers do. -/
inductive Event (ι : Type)
  | exec (p : Pc)
  | fail
  | openWrite (w : ι)
  | write (w : ι) (bs : List UInt8)
  | close (w : ι)
deriving DecidableEq

/-- All that has been written to the fifo. -/
def put : List (Event ι) → List UInt8
  | [] => []
  | .write _ bs :: es => bs ++ put es
  | .exec _ :: es | .fail :: es | .openWrite _ :: es | .close _ :: es => put es

section Program

variable [DecidableEq ι]

def main (s : State ι) : Option (State ι) :=
  match s.pc with
  | .callOpen => some { s with fifo := s.fifo.openRead .main, pc := .opening false }
  | .opening met => if met then some { s with pc := .sleep } else none
  | .sleep => some { s with pc := .printNow }
  | .printNow => some { s with lines := s.lines ++ [.now], pc := .read }
  | .read => (s.fifo.read size).map (fun r => { s with buf := r.1, n := r.1.length, fifo := r.2, pc := .write })
  | .write => some { s with written := s.written ++ s.buf.take s.n, pc := .printAgain }
  | .printAgain => some { s with lines := s.lines ++ [.again], pc := .readAgain }
  | .readAgain =>
      (s.fifo.read size).map (fun r => { s with buf := r.1, n := r.1.length, fifo := r.2, pc := .printReturned })
  | .printReturned => some { s with lines := s.lines ++ [.returned s.n], fifo := s.fifo.exit .main, pc := .exited 0 }
  | .exited _ => none

/-- Nobody opens the fifo for writing as long as nobody opens it for reading,
and nobody writes to it once it is not open for reading any more. -/
def next (capacity : Nat) (s : State ι) : Event ι → Option (State ι)
  | .exec p => if s.pc = p then main s else none
  | .fail => if s.pc = .callOpen then some { s with pc := .exited 1 } else none
  | .openWrite w =>
      if s.fifo.readers = ∅ ∨ .writer w ∈ s.fifo.writers then none
      else some { s with fifo := s.fifo.openWrite (.writer w), pc := s.pc.meet }
  | .write w bs =>
      if .writer w ∈ s.fifo.writers ∧ s.fifo.readers ≠ ∅ then
        (s.fifo.write capacity bs).map (fun fifo => { s with fifo := fifo })
      else none
  | .close w =>
      if .writer w ∈ s.fifo.writers then some { s with fifo := s.fifo.closeWrite (.writer w) } else none

end Program

def initial : State ι := ⟨.callOpen, .empty, [], 0, [], []⟩

/-- All that had been written to the fifo when main came to execute a statement. -/
def putBefore [DecidableEq ι] (p : Pc) (es : List (Event ι)) : List UInt8 := put (es.takeWhile (fun e => e ≠ .exec p))

variable {capacity : Nat} {s s' : State ι} {e : Event ι} {es es' : List (Event ι)} {got first : List UInt8} {p : Pc}

theorem put_append (es es' : List (Event ι)) : put (es ++ es') = put es ++ put es' := by
  induction es with
  | nil => rfl
  | cons e es ih =>
      cases e with
      | write w bs => rw [List.cons_append, put, put, ih, List.append_assoc]
      | exec | fail | openWrite | close => exact ih

/-- The program has the fifo open, and what it has got from it so far. -/
structure Held (es : List (Event ι)) (s : State ι) (got : List UInt8) : Prop where
  reader : .main ∈ s.fifo.readers
  conserved : put es = got ++ s.fifo.data

/-- Which `read()`s have returned. -/
def Pc.reads : Pc → Nat
  | .callOpen | .opening _ | .sleep | .printNow | .read | .exited (_ + 1) => 0
  | .write | .printAgain | .readAgain => 1
  | .printReturned | .exited 0 => 2

structure Reads (es : List (Event ι)) (s : State ι) : Prop where
  first : .exec .read ∈ es ↔ 1 ≤ s.pc.reads
  second : .exec .readAgain ∈ es ↔ 2 ≤ s.pc.reads

theorem reads_meet (p : Pc) : p.meet.reads = p.reads := by cases p <;> rfl

variable [DecidableEq ι]

theorem putBefore_mono (h : .exec p ∈ es) (es' : List (Event ι)) : putBefore p (es ++ es') = putBefore p es := by
  rw [putBefore, List.takeWhile_append, if_neg, putBefore]
  intro hlen
  have hall := (List.takeWhile_prefix _).eq_of_length hlen
  rw [← hall] at h
  simpa using List.mem_takeWhile_imp h

/-- The first `read()` gets what has been written by then. -/
def First (es : List (Event ι)) (first : List UInt8) : Prop := first = (putBefore .read es).take size

/-- The second one goes on where the first one has stopped. -/
structure Second (es : List (Event ι)) (first buf : List UInt8) : Prop where
  read : First es first
  front : first <+: putBefore .readAgain es
  again : buf = ((putBefore .readAgain es).drop first.length).take size

theorem First.mono (h : First es first) (hmem : .exec .read ∈ es) (es' : List (Event ι)) : First (es ++ es') first := by
  rw [First, putBefore_mono hmem]
  exact h

theorem Second.mono {buf : List UInt8} (h : Second es first buf) (hmem : .exec .read ∈ es) (hmem' : .exec .readAgain ∈ es)
    (es' : List (Event ι)) : Second (es ++ es') first buf := by
  refine ⟨h.read.mono hmem es', ?_, ?_⟩
  · rw [putBefore_mono hmem']
    exact h.front
  · rw [putBefore_mono hmem']
    exact h.again

/-- What the writers do leaves the program alone. -/
theorem writers_step (he : ∀ p, e ≠ .exec p) (hf : e ≠ .fail) (h : next capacity s e = some s') :
    s'.buf = s.buf ∧ s'.n = s.n ∧ s'.written = s.written ∧ s'.lines = s.lines ∧ (s'.pc = s.pc ∨ s'.pc = s.pc.meet) ∧
    s'.fifo.readers = s.fifo.readers ∧ (s.fifo.readers ≠ ∅ → s'.fifo.data = s.fifo.data ++ put [e]) := by
  cases e with
  | exec p => exact absurd rfl (he p)
  | fail => exact absurd rfl hf
  | openWrite w =>
      obtain ⟨_, h⟩ := Option.ite_none_left_eq_some.mp h
      cases h
      exact ⟨rfl, rfl, rfl, rfl, .inr rfl, rfl, fun _ => (List.append_nil _).symm⟩
  | write w bs =>
      obtain ⟨_, h⟩ := Option.ite_none_right_eq_some.mp h
      obtain ⟨fifo, hw, rfl⟩ := Option.map_eq_some_iff.mp h
      obtain ⟨_, hw⟩ := Option.ite_none_right_eq_some.mp hw
      cases hw
      exact ⟨rfl, rfl, rfl, rfl, .inl rfl, rfl, fun _ => by simp [put]⟩
  | close w =>
      obtain ⟨_, h⟩ := Option.ite_none_right_eq_some.mp h
      cases h
      refine ⟨rfl, rfl, rfl, rfl, .inl rfl, closeWrite_readers _ _, fun hr => ?_⟩
      rw [closeWrite_data hr, put, put, List.append_nil]

theorem main_reads (h : main s = some s') : (1 ≤ s'.pc.reads ↔ 1 ≤ s.pc.reads ∨ .read = s.pc) ∧
    (2 ≤ s'.pc.reads ↔ 2 ≤ s.pc.reads ∨ .readAgain = s.pc) := by
  rw [main] at h
  cases hp : s.pc with
  | callOpen | sleep | printNow | write | printAgain | printReturned =>
      rw [hp] at h
      cases h
      simp [Pc.reads]
  | opening met =>
      rw [hp] at h
      obtain ⟨_, h⟩ := Option.ite_none_right_eq_some.mp h
      cases h
      simp [Pc.reads]
  | read | readAgain =>
      rw [hp] at h
      obtain ⟨r, _, rfl⟩ := Option.map_eq_some_iff.mp h
      simp [Pc.reads]
  | exited status =>
      rw [hp] at h
      cases h

theorem next_reads (hs : Reads es s) (h : next capacity s e = some s') : Reads (es ++ [e]) s' := by
  have hwriters (he : ∀ p, e ≠ .exec p) (hf : e ≠ .fail) : Reads (es ++ [e]) s' := by
    have hpc : s'.pc.reads = s.pc.reads := by
      obtain ⟨_, _, _, _, hpc | hpc, _⟩ := writers_step he hf h
      · rw [hpc]
      · rw [hpc, reads_meet]
    have hmem (p : Pc) : .exec p ∈ es ++ [e] ↔ .exec p ∈ es := by simp [(he p).symm]
    exact ⟨by rw [hmem, hpc, hs.first], by rw [hmem, hpc, hs.second]⟩
  cases e with
  | exec p =>
      obtain ⟨rfl, hm⟩ := Option.ite_none_right_eq_some.mp h
      obtain ⟨hfirst, hsecond⟩ := main_reads hm
      constructor
      · rw [List.mem_append, List.mem_singleton, Event.exec.injEq, hs.first, hfirst]
      · rw [List.mem_append, List.mem_singleton, Event.exec.injEq, hs.second, hsecond]
  | fail =>
      obtain ⟨hp, h⟩ := Option.ite_none_right_eq_some.mp h
      cases h
      obtain ⟨hfirst, hsecond⟩ := hs
      rw [hp] at hfirst hsecond
      exact ⟨by simpa [Pc.reads] using hfirst, by simpa [Pc.reads] using hsecond⟩
  | openWrite | write | close => exact hwriters (by simp) (by simp)

theorem run_reads (h : Run (Exec (next capacity)) initial es s) : Reads es s :=
  h.invariant (I := Reads) ⟨by simp [initial, Pc.reads], by simp [initial, Pc.reads]⟩ (fun _ _ _ _ _ hs hl => next_reads hs hl)

omit [DecidableEq ι] in
theorem Held.step (hs : Held es s got) (hr : s'.fifo.readers = s.fifo.readers)
    (hd : s.fifo.readers ≠ ∅ → s'.fifo.data = s.fifo.data ++ put [e]) : Held (es ++ [e]) s' got where
  reader := hr ▸ hs.reader
  conserved := by rw [put_append, hs.conserved, hd (Finset.ne_empty_of_mem hs.reader), List.append_assoc]

/-- The writer has gone before the program has returned from its `open()`. -/
def hello : List (Event Unit) :=
  [.exec .callOpen, .openWrite (), .write () [104, 101, 108, 108, 111, 10], .close (), .exec (.opening true)]

end UnixProg.Fifo.OpenSleepRead

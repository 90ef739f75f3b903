import UnixProg.Lib.Stream
import Mathlib.Data.BitVec

namespace UnixProg.Tcp.CopyLoop

open Lib Stream

variable {size w : Nat}

/-- The `ssize_t` that a `read()` returns. -/
def value : Read size → BitVec 64
  | .data c => BitVec.ofNat 64 c.bytes.length
  | .eof => 0
  | .error _ => -1

inductive Call
  | write (fd : Nat) (len : BitVec 64)
  | printf (n : BitVec 64)
deriving DecidableEq

/-- A loop around `read()` with a variable `n` of some width. The result of the
call is stored there, tested and given to the calls in the body. -/
structure Loop (w : Nat) where
  test : BitVec w → Bool
  body : BitVec w → List Call

inductive Event (size : Nat)
  | read (r : Read size)
  | call (c : Call)
  | leave

/-- What a loop does while the results of its `read()` last. Behind them it waits. -/
def copy (l : Loop w) : List (Read size) → List (Event size)
  | [] => []
  | r :: rs =>
      let n := (value r).setWidth w
      if l.test n then .read r :: (l.body n).map .call ++ copy l rs else [.read r, .leave]

/-- With an int `n`, which becomes a `size_t` when it is given to `write()`. -/
def intLoop (fds : List Nat) : Loop 32 := ⟨fun n => n != 0, fun n => fds.map (fun fd => .write fd (n.signExtend 64))⟩

def tcpSinkServer : Loop 32 := intLoop [1]

def trivialTcpEchoServer (newsock : Nat) : Loop 32 := intLoop [1, newsock]

def reuseaddr : Loop 32 := intLoop [1]

/-- With a `size_t`, for which no number is negative. -/
def linger (fd : Nat) : Loop 64 := ⟨fun n => decide (0 < n), fun n => [.printf n, .write fd n]⟩

/-- Each write has the length of the chunk that was read just before, and the
loop is left at the first 0 or -1. -/
def Lawful : Option (Chunk size) → List (Event size) → Prop
  | _, [] => True
  | _, .read (.data c) :: es => Lawful (some c) es
  | _, .read .eof :: es => es = [.leave]
  | _, .read (.error _) :: es => es = [.leave]
  | last, .call (.write _ len) :: es => (∃ c ∈ last, len.toNat = c.bytes.length) ∧ Lawful last es
  | last, .call (.printf _) :: es => Lawful last es
  | _, .leave :: _ => False

/-- No `read()` fails before the end of the data. -/
def ErrorFree (rs : List (Read size)) : Prop := ∀ before errno after, rs = before ++ .error errno :: after → .eof ∈ before

/-- A loop that copies what it gets, and goes on at an error. -/
structure Copies (l : Loop w) (size : Nat) : Prop where
  goes (c : Chunk size) : l.test (BitVec.setWidth w (BitVec.ofNat 64 c.bytes.length)) = true
  exact (c : Chunk size) (fd len) (h : .write fd len ∈ l.body (BitVec.setWidth w (BitVec.ofNat 64 c.bytes.length))) :
    len.toNat = c.bytes.length
  stops : l.test 0 = false
  endless : l.test (BitVec.setWidth w (-1 : BitVec 64)) = true

variable {l : Loop w} {rs : List (Read size)} {es : List (Event size)} {last : Option (Chunk size)} {c : Chunk size}

theorem count_toNat (c : Chunk size) (hsize : size < 2 ^ 31) (hw : 32 ≤ w) :
    ((BitVec.ofNat 64 c.bytes.length).setWidth w).toNat = c.bytes.length := by
  have hle := c.le
  have hpow : 2 ^ 32 ≤ 2 ^ w := Nat.pow_le_pow_right (by decide) hw
  rw [BitVec.toNat_setWidth, BitVec.toNat_ofNat, Nat.mod_eq_of_lt (by omega), Nat.mod_eq_of_lt (by omega)]

theorem intLoop_copies (fds : List Nat) (hsize : size < 2 ^ 31) : Copies (intLoop fds) size := by
  constructor
  · intro c
    have hpos := c.pos
    have hn := count_toNat c hsize (w := 32) (by decide)
    rw [intLoop, bne_iff_ne]
    intro hzero
    rw [hzero] at hn
    exact absurd hn (Nat.ne_of_lt hpos)
  · intro c fd len h
    obtain ⟨_, -, heq⟩ := List.mem_map.mp h
    cases heq
    have hle := c.le
    have hn := count_toNat c hsize (w := 32) (by decide)
    have hmsb : ((BitVec.ofNat 64 c.bytes.length).setWidth 32).msb = false := by
      rw [BitVec.msb_eq_false_iff_two_mul_lt, hn]
      omega
    rw [BitVec.signExtend_eq_setWidth_of_msb_false hmsb, BitVec.toNat_setWidth, hn, Nat.mod_eq_of_lt (by omega)]
  · rfl
  · rfl

theorem linger_copies (fd : Nat) (hsize : size < 2 ^ 31) : Copies (linger fd) size := by
  constructor
  · intro c
    rw [linger, decide_eq_true_iff, BitVec.lt_def, count_toNat c hsize (by decide)]
    exact c.pos
  · intro c fd' len h
    have hcall : fd' = fd ∧ len = (BitVec.ofNat 64 c.bytes.length).setWidth 64 := by simpa [linger] using h
    rw [hcall.2]
    exact count_toNat c hsize (by decide)
  · rfl
  · rfl

theorem copy_data (hl : Copies l size) (c : Chunk size) (rs : List (Read size)) : copy l (.data c :: rs) =
    .read (.data c) :: (l.body (BitVec.setWidth w (BitVec.ofNat 64 c.bytes.length))).map .call ++ copy l rs :=
  if_pos (hl.goes c)

theorem copy_eof (hl : Copies l size) (rs : List (Read size)) : copy l (.eof :: rs) = [.read .eof, .leave] := by
  have hstop : ¬ l.test (BitVec.setWidth w (0 : BitVec 64)) = true := by
    rw [show BitVec.setWidth w (0 : BitVec 64) = 0 from BitVec.setWidth_zero .., hl.stops]
    decide
  exact if_neg hstop

/-- The -1 is taken for a number of bytes. -/
theorem copy_error (hl : Copies l size) (errno : Errno) (rs : List (Read size)) : copy l (.error errno :: rs) =
    .read (.error errno) :: (l.body (BitVec.setWidth w (-1 : BitVec 64))).map .call ++ copy l rs :=
  if_pos hl.endless

theorem lawful_calls {calls : List Call} (hexact : ∀ fd len, .write fd len ∈ calls → len.toNat = c.bytes.length) :
    Lawful (some c) (calls.map .call ++ es) ↔ Lawful (some c) es := by
  induction calls with
  | nil => rfl
  | cons call calls ih =>
      have htail := ih (fun fd len h => hexact fd len (List.mem_cons_of_mem _ h))
      cases call with
      | printf n => exact htail
      | write fd len =>
          have hlen : ∃ c' ∈ some c, len.toNat = c'.bytes.length := ⟨c, rfl, hexact fd len List.mem_cons_self⟩
          exact (and_iff_right hlen).trans htail

theorem errorFree_data : ErrorFree (.data c :: rs) ↔ ErrorFree rs := by
  constructor
  · intro h before errno after hrs
    have hmem := h (.data c :: before) errno after (by rw [hrs, List.cons_append])
    simpa using hmem
  · intro h before errno after hrs
    cases before with
    | nil => cases hrs
    | cons r before =>
        obtain ⟨-, hrs⟩ := List.cons.inj hrs
        exact List.mem_cons_of_mem _ (h before errno after hrs)

theorem errorFree_eof : ErrorFree (.eof :: rs) := by
  intro before errno after hrs
  cases before with
  | nil => cases hrs
  | cons r before => rw [← (List.cons.inj hrs).1]; exact List.mem_cons_self

theorem not_errorFree_error (errno : Errno) : ¬ ErrorFree (.error errno :: rs) :=
  fun h => List.not_mem_nil (h [] errno rs rfl)

theorem Copies.lawful_iff (hl : Copies l size) (hbody : l.body (BitVec.setWidth w (-1 : BitVec 64)) ≠ []) (rs : List (Read size))
    (last : Option (Chunk size)) : Lawful last (copy l rs) ↔ ErrorFree rs := by
  induction rs generalizing last with
  | nil => exact iff_of_true trivial (fun before _ _ h => by cases before <;> cases h)
  | cons r rs ih =>
      cases r with
      | data c =>
          rw [copy_data hl, errorFree_data]
          exact (lawful_calls (hl.exact c)).trans (ih (some c))
      | eof =>
          rw [copy_eof hl]
          exact iff_of_true rfl errorFree_eof
      | error errno =>
          rw [copy_error hl]
          refine iff_of_false (fun h => ?_) (not_errorFree_error errno)
          cases hcalls : l.body (BitVec.setWidth w (-1 : BitVec 64)) with
          | nil => exact hbody hcalls
          | cons call calls => rw [hcalls] at h; cases h

/-- Without an end of the data there is no way out of the loop. -/
theorem Copies.endless_copy (hl : Copies l size) (h : .eof ∉ rs) : .leave ∉ copy l rs := by
  induction rs with
  | nil => exact List.not_mem_nil
  | cons r rs ih =>
      have hrs := ih (fun hmem => h (List.mem_cons_of_mem _ hmem))
      cases r with
      | data c =>
          rw [copy_data hl]
          simpa using hrs
      | eof => exact absurd List.mem_cons_self h
      | error errno =>
          rw [copy_error hl]
          simpa using hrs

/-- The four loops with the sizes of their buffers. They do what they should
just as long as no `read()` fails. -/
theorem lawful_iff_errorFree (newsock fd : Nat) (rs : List (Read 100)) (rs' : List (Read 512)) :
    (Lawful none (copy tcpSinkServer rs) ↔ ErrorFree rs) ∧
    (Lawful none (copy (trivialTcpEchoServer newsock) rs') ↔ ErrorFree rs') ∧
    (Lawful none (copy reuseaddr rs) ↔ ErrorFree rs) ∧
    (Lawful none (copy (linger fd) rs) ↔ ErrorFree rs) := by
  refine ⟨?_, ?_, ?_, ?_⟩
  · exact (intLoop_copies [1] (by decide)).lawful_iff nofun rs none
  · exact (intLoop_copies [1, newsock] (by decide)).lawful_iff nofun rs' none
  · exact (intLoop_copies [1] (by decide)).lawful_iff nofun rs none
  · exact (linger_copies fd (by decide)).lawful_iff nofun rs none

/-- A byte and a connection that is reset. -/
def reset : List (Read 100) := [.data ⟨[65], by decide, by decide⟩, .error (.other 104)]

theorem reset_writes : copy tcpSinkServer reset =
      [.read (.data ⟨[65], by decide, by decide⟩), .call (.write 1 1), .read (.error (.other 104)), .call (.write 1 (-1))] ∧
    ¬ Lawful none (copy tcpSinkServer reset) ∧ ¬ Lawful none (copy reuseaddr reset) ∧ ¬ Lawful none (copy (linger 3) reset) := by
  refine ⟨rfl, fun h => ?_, fun h => ?_, fun h => ?_⟩
  · obtain ⟨-, h⟩ := h
    cases h
  · obtain ⟨-, h⟩ := h
    cases h
  · obtain ⟨-, h⟩ := h
    cases h

end UnixProg.Tcp.CopyLoop

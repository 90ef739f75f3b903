import Mathlib.Data.List.TakeDrop
import Mathlib.Tactic.Common

namespace UnixProg.Lib.Stream

/-- What a `read()` stores into a buffer when it returns a positive number. -/
structure Chunk (size : Nat) where
  bytes : List UInt8
  pos : 0 < bytes.length
  le : bytes.length ≤ size

inductive Errno
  | wouldBlock
  | other (code : Nat)
deriving DecidableEq

/-- A `read()` that returns a positive number, 0 and -1. -/
inductive Read (size : Nat)
  | data (c : Chunk size)
  | eof
  | error (errno : Errno)

inductive Write
  | wrote (k : Nat)
  | error (errno : Errno)
deriving DecidableEq

/-- The first bytes of a buffer are overwritten. -/
def fill (buf data : List UInt8) : List UInt8 := data ++ buf.drop data.length

/-- How many bytes a `write()` has taken. -/
def Write.count : Write → Nat
  | .wrote k => k
  | .error _ => 0

/-- What a `write()` takes of the bytes it is given. -/
def Write.taken (data : List UInt8) : Write → List UInt8
  | .wrote k => data.take k
  | .error _ => []

theorem Chunk.ne_nil {size : Nat} (c : Chunk size) : c.bytes ≠ [] := List.ne_nil_of_length_pos c.pos

@[simp] theorem fill_take (buf data : List UInt8) : (fill buf data).take data.length = data := by simp [fill]

theorem length_le_fill (buf data : List UInt8) : data.length ≤ (fill buf data).length := by simp [fill]

theorem taken_sublist (data : List UInt8) (r : Write) : (r.taken data).Sublist data := by
  cases r with
  | wrote k => exact List.take_sublist k data
  | error => exact List.nil_sublist data

theorem taken_eq_iff {data : List UInt8} {r : Write} (hdata : data ≠ []) (hle : ∀ k, r = .wrote k → k ≤ data.length) :
    r.taken data = data ↔ r = .wrote data.length := by
  cases r with
  | error => simpa [Write.taken] using hdata.symm
  | wrote k =>
      have hk := hle k rfl
      rw [Write.taken, List.take_eq_self_iff, Write.wrote.injEq]
      omega

end UnixProg.Lib.Stream

import Mathlib.Data.BitVec
import Mathlib.Data.Nat.Digits.Defs
import Mathlib.Tactic.Common

namespace UnixProg.Lib.MappedFile

/-- The bytes of a file at the addresses from some base on. -/
structure Mapping where
  base : BitVec 64
  bytes : List UInt8
  fits : base.toNat + bytes.length ≤ 2 ^ 64

/-- There is no result for an address at which nothing is mapped. -/
def Mapping.load (m : Mapping) (a : BitVec 64) : Option UInt8 := m.bytes[(a - m.base).toNat]?

def Mapping.store (m : Mapping) (a : BitVec 64) (b : UInt8) : Option Mapping :=
  if (a - m.base).toNat < m.bytes.length then
    some ⟨m.base, m.bytes.set (a - m.base).toNat b, by rw [List.length_set]; exact m.fits⟩
  else none

/-- The bytes at consecutive addresses. -/
def Mapping.loads (m : Mapping) : Nat → BitVec 64 → Option (List UInt8)
  | 0, _ => some []
  | k + 1, a => do
      let b ← m.load a
      let bs ← m.loads k (a + 1)
      some (b :: bs)

/-- What `mmap()` returns when it fails. -/
def mapFailed : BitVec 64 := -1

/-- Nothing can be mapped of an empty file. -/
def mmap (m : Mapping) : Mapping := if m.bytes = [] then ⟨mapFailed, [], by decide⟩ else m

def Mapping.addr (m : Mapping) (i : Nat) : BitVec 64 := m.base + BitVec.ofNat 64 i

inductive ByteOrder
  | little
  | big
deriving DecidableEq

/-- The low bytes of a number, the least significant one first. -/
def lowBytes : Nat → Nat → List UInt8
  | 0, _ => []
  | w + 1, n => UInt8.ofNat n :: lowBytes w (n / 256)

/-- A number of some width as it is stored. -/
def ByteOrder.encode (o : ByteOrder) (w n : Nat) : List UInt8 :=
  match o with
  | .little => lowBytes w n
  | .big => (lowBytes w n).reverse

def ByteOrder.decode (o : ByteOrder) (bs : List UInt8) : Nat :=
  match o with
  | .little => Nat.ofDigits 256 (bs.map UInt8.toNat)
  | .big => Nat.ofDigits 256 (bs.reverse.map UInt8.toNat)

variable {m m' : Mapping} {i j k : Nat} {b : UInt8}

theorem addr_zero (m : Mapping) : m.addr 0 = m.base := by simp [Mapping.addr]

theorem addr_add (m : Mapping) (i j : Nat) : m.addr (i + j) = m.addr i + BitVec.ofNat 64 j := by
  rw [Mapping.addr, BitVec.ofNat_add, ← BitVec.add_assoc]
  rfl

theorem addr_succ (m : Mapping) (i : Nat) : m.addr (i + 1) = m.addr i + 1 := addr_add m i 1

theorem addr_succ_sub (m : Mapping) (i : Nat) : m.addr (i + 1) - 1 = m.addr i := by
  rw [addr_succ, BitVec.add_sub_cancel]

theorem addr_toNat (h : m.base.toNat + i < 2 ^ 64) : (m.addr i).toNat = m.base.toNat + i := by
  rw [Mapping.addr, BitVec.toNat_add, BitVec.toNat_ofNat, Nat.mod_eq_of_lt (show i < 2 ^ 64 by omega), Nat.mod_eq_of_lt h]

theorem addr_offset (hi : i < m.bytes.length) : (m.addr i - m.base).toNat = i := by
  have hfits := m.fits
  rw [Mapping.addr, BitVec.add_comm, BitVec.add_sub_cancel, BitVec.toNat_ofNat, Nat.mod_eq_of_lt (by omega)]

theorem addr_lt_iff (hi : i < m.bytes.length) (hj : j < m.bytes.length) : m.addr i < m.addr j ↔ i < j := by
  have hfits := m.fits
  rw [BitVec.lt_def, addr_toNat (by omega), addr_toNat (by omega)]
  omega

theorem load_addr (hi : i < m.bytes.length) : m.load (m.addr i) = some m.bytes[i] := by
  rw [Mapping.load, addr_offset hi, List.getElem?_eq_getElem hi]

theorem store_addr (hi : i < m.bytes.length) (b : UInt8) :
    ∃ m', m.store (m.addr i) b = some m' ∧ m'.base = m.base ∧ m'.bytes = m.bytes.set i b := by
  have hoffset := addr_offset hi
  exact ⟨_, if_pos (by rwa [hoffset]), rfl, congrArg (m.bytes.set · b) hoffset⟩

theorem loads_addr (h : i + k ≤ m.bytes.length) : m.loads k (m.addr i) = some ((m.bytes.drop i).take k) := by
  induction k generalizing i with
  | zero => simp [Mapping.loads]
  | succ k ih =>
      have hi : i < m.bytes.length := by omega
      have hnext : m.addr i + 1 = m.addr (i + 1) := (addr_succ m i).symm
      simp only [Mapping.loads, load_addr hi, hnext, ih (i := i + 1) (by omega), Option.bind_eq_bind, Option.bind_some]
      rw [List.drop_eq_getElem_cons hi, List.take_succ_cons]

theorem length_lowBytes (w n : Nat) : (lowBytes w n).length = w := by
  induction w generalizing n with
  | zero => rfl
  | succ w ih => rw [lowBytes, List.length_cons, ih]

theorem length_encode (o : ByteOrder) (w n : Nat) : (o.encode w n).length = w := by
  cases o with
  | little => exact length_lowBytes w n
  | big => rw [ByteOrder.encode, List.length_reverse, length_lowBytes]

theorem ofDigits_lowBytes (w n : Nat) : Nat.ofDigits 256 ((lowBytes w n).map UInt8.toNat) = n % 256 ^ w := by
  induction w generalizing n with
  | zero => simp [lowBytes, Nat.mod_one]
  | succ w ih =>
      have hbyte : (UInt8.ofNat n).toNat = n % 256 := UInt8.toNat_ofNat'
      rw [lowBytes, List.map_cons, Nat.ofDigits_cons, ih, hbyte, Nat.pow_succ', Nat.mod_mul]

theorem decode_encode (o : ByteOrder) {w n : Nat} (h : n < 256 ^ w) : o.decode (o.encode w n) = n := by
  cases o with
  | little => rw [ByteOrder.encode, ByteOrder.decode, ofDigits_lowBytes, Nat.mod_eq_of_lt h]
  | big => rw [ByteOrder.encode, ByteOrder.decode, List.reverse_reverse, ofDigits_lowBytes, Nat.mod_eq_of_lt h]

end UnixProg.Lib.MappedFile

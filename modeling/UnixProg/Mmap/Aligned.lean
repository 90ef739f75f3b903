import UnixProg.Lib.MappedFile

namespace UnixProg.Mmap.Aligned

open Lib MappedFile

def intMax : Nat := 2 ^ 31 - 1

def pageSize : Nat := 4096

/-- The loop that writes the data of a record. The behaviour is not defined
when the int `i` overflows. -/
def fill (c : UInt8) (len i : Nat) (file : List UInt8) : Option (List UInt8) :=
  if i < len then
    if i = intMax then none else fill c len (i + 1) (file ++ [c])
  else some file
termination_by len - i

/-- A record is its length as a `uint32_t` and the data. -/
def record (o : ByteOrder) (c : UInt8) (len : Nat) (file : List UInt8) : Option (List UInt8) :=
  let num := len % 2 ^ 32
  fill c len 0 (file ++ o.encode 4 num)

def create (o : ByteOrder) (len1 len2 : Nat) : Option (List UInt8) := do
  let c : UInt8 := 65
  let file ← record o c len1 []
  record o (c + 1) len2 file

def isAligned (p : BitVec 64) : Bool := p &&& 3 == 0

/-- What is printed about a record. -/
structure Tag where
  aligned : Bool
  tag : Nat
deriving DecidableEq

structure Walk where
  first : Tag
  second : Tag
  atEof : Bool
deriving DecidableEq

/-- A record is read and skipped. -/
def skip (o : ByteOrder) (m : Mapping) (addr : BitVec 64) : Option (Tag × BitVec 64) := do
  let bytes ← m.loads 4 addr
  let tag := o.decode bytes
  let addr' := addr + 4
  some (⟨isAligned addr, tag⟩, addr' + BitVec.ofNat 64 tag)

def walk (o : ByteOrder) (m : Mapping) (len1 len2 : Nat) : Option Walk := do
  let eofptr := m.base + BitVec.ofNat 64 (2 * 4 + len1 + len2)
  let (first, addr) ← skip o m m.base
  let (second, addr) ← skip o m addr
  some ⟨first, second, addr == eofptr⟩

/-- Two records of some lengths, with any data. -/
def Records (o : ByteOrder) (len1 len2 : Nat) (bytes : List UInt8) : Prop :=
  ∃ data1 data2 : List UInt8, data1.length = len1 ∧ data2.length = len2 ∧
    bytes = o.encode 4 len1 ++ data1 ++ o.encode 4 len2 ++ data2

variable {o : ByteOrder} {m : Mapping} {l r : List UInt8} {len1 len2 n : Nat}

theorem fill_eq (c : UInt8) {len : Nat} (hlen : len ≤ intMax) (i : Nat) (file : List UInt8) :
    fill c len i file = some (file ++ List.replicate (len - i) c) := by
  induction hk : len - i generalizing i file with
  | zero =>
      rw [fill, if_neg (by omega)]
      simp
  | succ k ih =>
      rw [fill, if_pos (by omega), if_neg (by omega), ih (i + 1) _ (by omega)]
      simp [List.replicate_succ]

theorem record_eq (o : ByteOrder) (c : UInt8) (hlen : n ≤ intMax) (file : List UInt8) :
    record o c n file = some (file ++ o.encode 4 n ++ List.replicate n c) := by
  rw [record, fill_eq c hlen, Nat.mod_eq_of_lt (by rw [intMax] at hlen; omega)]
  rfl

theorem create_records (o : ByteOrder) (h1 : len1 ≤ intMax) (h2 : len2 ≤ intMax) :
    ∃ bytes, create o len1 len2 = some bytes ∧ Records o len1 len2 bytes := by
  refine ⟨_, ?_, ⟨List.replicate len1 65, List.replicate len2 66, List.length_replicate, List.length_replicate, rfl⟩⟩
  simp only [create, record_eq o 65 h1, Option.bind_eq_bind, Option.bind_some, record_eq o _ h2, List.nil_append]
  rfl

theorem isAligned_iff (p : BitVec 64) : isAligned p = true ↔ 4 ∣ p.toNat := by
  have hand : (p &&& 3).toNat = p.toNat % 4 := by
    rw [BitVec.toNat_and]
    exact Nat.and_two_pow_sub_one_eq_mod p.toNat 2
  rw [isAligned, beq_iff_eq, ← BitVec.toNat_inj, hand, Nat.dvd_iff_mod_eq_zero]
  rfl

/-- The length is read from where it was written, whatever is around it. -/
theorem skip_eq (hbytes : m.bytes = l ++ o.encode 4 n ++ r) (hn : n ≤ intMax) :
    skip o m (m.addr l.length) = some (⟨isAligned (m.addr l.length), n⟩, m.addr (l.length + 4 + n)) := by
  have hlen : (o.encode 4 n).length = 4 := length_encode o 4 n
  have hloads : m.loads 4 (m.addr l.length) = some (o.encode 4 n) := by
    rw [loads_addr (by rw [hbytes]; simp [hlen]), hbytes]
    simp [hlen]
  have hdecode : o.decode (o.encode 4 n) = n := decode_encode o (by rw [intMax] at hn; omega)
  simp only [skip, hloads, hdecode, Option.bind_eq_bind, Option.bind_some]
  rw [addr_add, addr_add]
  rfl

theorem walk_eq (hrecords : Records o len1 len2 m.bytes) (h1 : len1 ≤ intMax) (h2 : len2 ≤ intMax) :
    walk o m len1 len2 = some ⟨⟨isAligned m.base, len1⟩, ⟨isAligned (m.addr (4 + len1)), len2⟩, true⟩ := by
  obtain ⟨data1, data2, hdata1, hdata2, hbytes⟩ := hrecords
  have hfirst : skip o m m.base = some (⟨isAligned m.base, len1⟩, m.addr (4 + len1)) := by
    have hbytes' : m.bytes = [] ++ o.encode 4 len1 ++ (data1 ++ o.encode 4 len2 ++ data2) := by simp [hbytes]
    simpa [addr_zero] using skip_eq hbytes' h1
  have hpos : (o.encode 4 len1 ++ data1).length = 4 + len1 := by
    rw [List.length_append, length_encode, hdata1]
  have hsecond := skip_eq hbytes h2
  rw [hpos] at hsecond
  have heof : 4 + len1 + 4 + len2 = 2 * 4 + len1 + len2 := by omega
  have heofptr : m.base + BitVec.ofNat 64 (2 * 4 + len1 + len2) = m.addr (2 * 4 + len1 + len2) := rfl
  simp only [walk, hfirst, hsecond, Option.bind_eq_bind, Option.bind_some, heof, heofptr, beq_self_eq_true]

theorem length_records (hrecords : Records o len1 len2 m.bytes) : m.bytes.length = 2 * 4 + len1 + len2 := by
  obtain ⟨data1, data2, hdata1, hdata2, hbytes⟩ := hrecords
  rw [hbytes]
  simp only [List.length_append, length_encode, hdata1, hdata2]
  omega

/-- What is written is a file of two records, and any such file is read back as
it was written, up to its end and without leaving it. The second length is
aligned when the first one is a multiple of four. -/
theorem reads_back (o : ByteOrder) (len1 len2 : Nat) (h1 : len1 ≤ intMax) (h2 : len2 ≤ intMax) :
    (∃ bytes, create o len1 len2 = some bytes ∧ Records o len1 len2 bytes) ∧
    ∀ m : Mapping, Records o len1 len2 m.bytes → pageSize ∣ m.base.toNat →
      ∃ aligned, walk o m len1 len2 = some ⟨⟨true, len1⟩, ⟨aligned, len2⟩, true⟩ ∧ (aligned = true ↔ 4 ∣ len1) := by
  refine ⟨create_records o h1 h2, fun m hrecords hpage => ?_⟩
  have hfits := m.fits
  have hlen := length_records hrecords
  have hbase : 4 ∣ m.base.toNat := Nat.dvd_trans (by decide) hpage
  refine ⟨isAligned (m.addr (4 + len1)), ?_, ?_⟩
  · rw [walk_eq hrecords h1 h2, (isAligned_iff m.base).mpr hbase]
  · rw [isAligned_iff, addr_toNat (by omega)]
    omega

/-- Lengths 1 and 2 on a machine with the most significant byte first. -/
def unaligned : Mapping := ⟨0x10000, [0, 0, 0, 1, 65, 0, 0, 0, 2, 66, 66], by decide⟩

theorem reads_back_unaligned : walk .big unaligned 1 2 = some ⟨⟨true, 1⟩, ⟨false, 2⟩, true⟩ := by
  have hrecords : Records .big 1 2 unaligned.bytes := ⟨[65], [66, 66], rfl, rfl, rfl⟩
  obtain ⟨aligned, hwalk, haligned⟩ :=
    (reads_back .big 1 2 (by decide) (by decide)).2 unaligned hrecords (by decide)
  cases aligned with
  | false => exact hwalk
  | true => exact absurd (haligned.mp rfl) (by decide)

end UnixProg.Mmap.Aligned

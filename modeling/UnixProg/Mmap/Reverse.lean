import UnixProg.Lib.MappedFile
import Mathlib.Data.List.Induction

namespace UnixProg.Mmap.Reverse

open Lib MappedFile

/-- The loop with its two pointers. -/
def loop (m : Mapping) (p1 p2 : BitVec 64) : Option Mapping :=
  if p1 < p2 then do
    let c ← m.load p1
    let b ← m.load p2
    let m ← m.store p1 b
    let m ← m.store p2 c
    loop m (p1 + 1) (p2 - 1)
  else some m
termination_by p2.toNat - p1.toNat
decreasing_by
  have hlt : p1.toNat < p2.toNat := BitVec.lt_def.mp ‹p1 < p2›
  have hp1 : (p1 + 1).toNat = p1.toNat + 1 := by bv_omega
  have hp2 : (p2 - 1).toNat = p2.toNat - 1 := by bv_omega
  omega

/-- The file behind the mapping afterwards. It is shared, so that every store
is a store to the file. -/
def main (file : Mapping) : Option (List UInt8) :=
  let m := mmap file
  let p1 := m.base
  let p2 := p1 + BitVec.ofNat 64 file.bytes.length - 1
  (loop m p1 p2).map Mapping.bytes

variable {m : Mapping} {l mid r : List UInt8}

theorem set_ends (l mid r : List UInt8) (a b : UInt8) :
    ((l ++ (a :: (mid ++ [b])) ++ r).set l.length b).set (l.length + mid.length + 1) a = (l ++ [b]) ++ mid ++ (a :: r) := by
  have hlast : l.length + mid.length + 1 = (l ++ b :: mid).length := by simp; omega
  rw [hlast]
  simp

/-- One turn of the loop. -/
theorem loop_swaps {a b : UInt8} (hbytes : m.bytes = l ++ (a :: (mid ++ [b])) ++ r) : ∃ m',
    loop m (m.addr l.length) (m.addr (l.length + mid.length + 1)) =
      loop m' (m'.addr (l.length + 1)) (m'.addr (l.length + 1 + mid.length) - 1) ∧
    m'.bytes = (l ++ [b]) ++ mid ++ (a :: r) := by
  have hlen : m.bytes.length = l.length + mid.length + 2 + r.length := by rw [hbytes]; simp; omega
  have hi : l.length < m.bytes.length := by omega
  have hj : l.length + mid.length + 1 < m.bytes.length := by omega
  have hlt : m.addr l.length < m.addr (l.length + mid.length + 1) := (addr_lt_iff hi hj).mpr (by omega)
  have hfirst : m.bytes = l ++ a :: (mid ++ [b] ++ r) := by simp [hbytes]
  have hlast : m.bytes = (l ++ a :: mid) ++ b :: r := by simp [hbytes]
  have ha : m.bytes[l.length] = a := List.getElem_of_append hfirst rfl
  have hb : m.bytes[l.length + mid.length + 1] = b := List.getElem_of_append hlast (by simp; omega)
  obtain ⟨m₁, hstore, hbase, hset⟩ := store_addr hi b
  have hj₁ : l.length + mid.length + 1 < m₁.bytes.length := by rwa [hset, List.length_set]
  obtain ⟨m₂, hstore₂, hbase₂, hset₂⟩ := store_addr hj₁ a
  have haddr₁ (k : Nat) : m₁.addr k = m.addr k := by rw [Mapping.addr, hbase]; rfl
  have haddr₂ (k : Nat) : m₂.addr k = m.addr k := by rw [Mapping.addr, hbase₂, hbase]; rfl
  refine ⟨m₂, ?_, ?_⟩
  · rw [haddr₁] at hstore₂
    have hp1 : m.addr l.length + 1 = m₂.addr (l.length + 1) := by rw [haddr₂, addr_succ]
    have hp2 : m.addr (l.length + mid.length + 1) - 1 = m₂.addr (l.length + 1 + mid.length) - 1 := by
      rw [haddr₂, Nat.add_right_comm]
    rw [loop, if_pos hlt, load_addr hi, load_addr hj, ha, hb]
    simp only [Option.bind_eq_bind, Option.bind_some, hstore, hstore₂, hp1, hp2]
  · rw [hset₂, hset, hbytes, set_ends]

/-- What is left of the first pointer and right of the second one is in its
place already. -/
theorem loop_reverses (mid : List UInt8) : ∀ (m : Mapping) (l r : List UInt8), m.bytes ≠ [] → l.length = r.length →
    m.bytes = l ++ mid ++ r →
    ∃ m', loop m (m.addr l.length) (m.addr (l.length + mid.length) - 1) = some m' ∧ m'.bytes = l ++ mid.reverse ++ r := by
  induction mid using List.bidirectionalRec with
  | nil =>
      intro m l r hne hlen hbytes
      have hlen' : m.bytes.length = l.length + r.length := by simp [hbytes]
      have hpos := List.length_pos_iff.mpr hne
      obtain ⟨k, hk⟩ : ∃ k, l.length = k + 1 := Nat.exists_eq_succ_of_ne_zero (by omega)
      have hover : ¬ m.addr l.length < m.addr (l.length + 0) - 1 := by
        rw [hk, Nat.add_zero, addr_succ_sub, addr_lt_iff (by omega) (by omega)]
        omega
      rw [List.length_nil, loop, if_neg hover]
      exact ⟨m, rfl, hbytes⟩
  | singleton a =>
      intro m l r hne hlen hbytes
      have hover : ¬ m.addr l.length < m.addr (l.length + 1) - 1 := by
        rw [addr_succ_sub]
        exact BitVec.lt_irrefl _
      rw [List.length_singleton, loop, if_neg hover]
      exact ⟨m, rfl, hbytes⟩
  | cons_append a mid b ih =>
      intro m l r hne hlen hbytes
      obtain ⟨m', hloop, hbytes'⟩ := loop_swaps hbytes
      obtain ⟨m'', hrest, hbytes''⟩ := ih m' (l ++ [b]) (a :: r) (by simp [hbytes']) (by simp [hlen]) hbytes'
      have hp2 : m.addr (l.length + (a :: (mid ++ [b])).length) - 1 = m.addr (l.length + mid.length + 1) := by
        have hsum : l.length + (a :: (mid ++ [b])).length = (l.length + mid.length + 1) + 1 := by simp; omega
        rw [hsum, addr_succ_sub]
      rw [List.length_append, List.length_singleton] at hrest
      refine ⟨m'', by rw [hp2, hloop, hrest], ?_⟩
      rw [hbytes'']
      simp

/-- The file is reversed, whatever is in it and wherever it is mapped, and
another run, wherever it maps the file, puts everything back. -/
theorem main_reverses (file : Mapping) : main file = some file.bytes.reverse ∧
    ∀ again : Mapping, main file = some again.bytes → main again = some file.bytes := by
  have hmain (m : Mapping) : main m = some m.bytes.reverse := by
    by_cases hempty : m.bytes = []
    · have hover : ¬ mapFailed < mapFailed + 0#64 - 1 := by decide
      rw [main, mmap, if_pos hempty, hempty]
      change (loop ⟨mapFailed, [], _⟩ mapFailed (mapFailed + 0#64 - 1)).map Mapping.bytes = some []
      rw [loop, if_neg hover]
      rfl
    · obtain ⟨m', hloop, hbytes⟩ := loop_reverses m.bytes m [] [] hempty rfl (by simp)
      rw [List.length_nil, Nat.zero_add, addr_zero] at hloop
      rw [main, mmap, if_neg hempty]
      change (loop m m.base (m.addr m.bytes.length - 1)).map Mapping.bytes = _
      rw [hloop, Option.map_some, hbytes]
      simp
  refine ⟨hmain file, fun again h => ?_⟩
  have hagain : again.bytes = file.bytes.reverse := Option.some.inj (h.symm.trans (hmain file))
  rw [hmain again, hagain, List.reverse_reverse]

end UnixProg.Mmap.Reverse

import Mathlib.Data.Fintype.Basic
import Mathlib.Tactic.Common

namespace UnixProg.Lib.FileStore

variable {β P : Type}

/-- A write of one byte at an offset. What lies between the end of the file and
the offset is a hole. -/
def writeAt (hole : β) (f : List β) (offset : Nat) (b : β) : List β :=
  (f ++ List.replicate (offset + 1 - f.length) hole).set offset b

theorem length_writeAt (hole : β) (f : List β) (offset : Nat) (b : β) :
    (writeAt hole f offset b).length = max f.length (offset + 1) := by
  simp only [writeAt, List.length_set, List.length_append, List.length_replicate]
  omega

def byteAt (hole : β) (f : List β) (p : Nat) : β := f.getD p hole

theorem byteAt_writeAt (hole : β) (f : List β) (offset p : Nat) (b : β) :
    byteAt hole (writeAt hole f offset b) p = if p = offset then b else byteAt hole f p := by
  simp only [byteAt, writeAt, List.getD_eq_getElem?_getD, List.getElem?_set]
  by_cases hp : p = offset
  · subst hp
    have hlt : p < f.length + (p + 1 - f.length) := by omega
    simp [hlt]
  · rw [if_neg (Ne.symm hp), if_neg hp, List.getElem?_append]
    split
    · rfl
    · rw [List.getElem?_replicate, List.getElem?_eq_none (by omega)]
      split <;> rfl

/-- The whence of a `lseek()` is checked before anything else, and the offset
stays where it was when the call fails. -/
def lseek (pos size offset whence : Nat) : Nat :=
  match whence with
  | 0 => offset
  | 1 => pos + offset
  | 2 => size + offset
  | _ => pos

/-- A read into a buffer, with the number of bytes that were there to be read. -/
def readAt (f : List β) (pos : Nat) (buf : List β) : List β × Nat :=
  let data := (f.drop pos).take buf.length
  (data ++ buf.drop data.length, data.length)

theorem byteAt_readAt (hole : β) (f : List β) (pos len p : Nat) (hp : p < len) :
    byteAt hole (readAt f pos (List.replicate len hole)).1 p = byteAt hole f (pos + p) := by
  simp only [byteAt, readAt, List.getD_eq_getElem?_getD, List.length_replicate, List.getElem?_append,
    List.length_take, List.length_drop]
  split
  · rw [List.getElem?_take_of_lt hp, List.getElem?_drop]
  · rw [List.getElem?_drop, List.getElem?_replicate, List.getElem?_eq_none (by omega)]
    split <;> rfl

inductive Kind
  | read
  | write
deriving DecidableEq

def Kind.compatible : Kind → Kind → Bool
  | .read, .read => true
  | _, _ => false

structure Region where
  start : Nat
  len : Nat

def Region.Contains (r : Region) (b : Nat) : Prop := r.start ≤ b ∧ b < r.start + r.len

instance (r : Region) (b : Nat) : Decidable (r.Contains b) := inferInstanceAs (Decidable (_ ∧ _))

/-- The record locks on one file: what each process holds on each byte. -/
abbrev Table (P : Type) := P → Nat → Option Kind

def Table.set [DecidableEq P] (L : Table P) (p : P) (r : Region) (k : Option Kind) : Table P :=
  fun q b => if q = p ∧ r.Contains b then k else L q b

/-- A process gives all its locks back when it closes the file, and so when it exits. -/
def Table.drop [DecidableEq P] (L : Table P) (p : P) : Table P := fun q b => if q = p then none else L q b

/-- No other process holds a lock in the way. -/
def Grantable (L : Table P) (p : P) (r : Region) (k : Kind) : Prop :=
  ∀ q, q ≠ p → ∀ i < r.len, ∀ k' ∈ L q (r.start + i), k.compatible k' = true

instance [Fintype P] [DecidableEq P] (L : Table P) (p : P) (r : Region) (k : Kind) : Decidable (Grantable L p r k) :=
  inferInstanceAs (Decidable (∀ q, q ≠ p → ∀ i < r.len, ∀ k' ∈ L q (r.start + i), k.compatible k' = true))

/-- Locks of different processes on one byte are compatible. -/
def Sound (L : Table P) : Prop := ∀ p q b k k', p ≠ q → L p b = some k → L q b = some k' → k.compatible k' = true

theorem Kind.compatible_comm (k k' : Kind) : k.compatible k' = k'.compatible k := by cases k <;> cases k' <;> rfl

variable [DecidableEq P] {L : Table P} {p q : P} {r : Region} {k : Kind} {b : Nat}

theorem Sound.lock (h : Sound L) (hg : Grantable L p r k) : Sound (L.set p r (some k)) := by
  have hother {q : P} {b : Nat} {k' : Kind} (hq : q ≠ p) (hb : r.Contains b) (hk : L q b = some k') :
      k.compatible k' = true := by
    obtain ⟨i, rfl⟩ := Nat.exists_eq_add_of_le hb.1
    exact hg q hq i (by have := hb.2; omega) k' hk
  intro u v b k₁ k₂ huv h₁ h₂
  simp only [Table.set] at h₁ h₂
  split at h₁
  · rename_i hu
    rw [if_neg (fun hv => huv (hu.1.trans hv.1.symm))] at h₂
    cases h₁
    exact hother (fun hv => huv (hu.1.trans hv.symm)) hu.2 h₂
  · split at h₂
    · rename_i hv
      cases h₂
      rw [Kind.compatible_comm]
      exact hother (fun hu => huv (hu.trans hv.1.symm)) hv.2 h₁
    · exact h u v b k₁ k₂ huv h₁ h₂

theorem Sound.unlock (h : Sound L) (p : P) (r : Region) : Sound (L.set p r none) := by
  intro u v b k₁ k₂ huv h₁ h₂
  simp only [Table.set] at h₁ h₂
  split at h₁
  · cases h₁
  · split at h₂
    · cases h₂
    · exact h u v b k₁ k₂ huv h₁ h₂

omit [DecidableEq P] in
theorem Sound.exclusive (h : Sound L) (hp : L p b = some .write) (hq : q ≠ p) : L q b = none := by
  cases hk : L q b with
  | none => rfl
  | some k' =>
      have := h p q b .write k' (Ne.symm hq) hp hk
      cases k' <;> cases this

end UnixProg.Lib.FileStore

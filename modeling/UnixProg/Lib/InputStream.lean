import Mathlib.Data.List.TakeDrop
import Mathlib.Tactic.Common

namespace UnixProg.Lib.InputStream

variable {β : Type}

/-- What others have put into a terminal or a connection and nobody has read
yet, and whether they have closed it. -/
structure Input (β : Type) where
  data : List β
  ended : Bool
deriving DecidableEq

def Input.empty : Input β := ⟨[], false⟩

def Input.put (i : Input β) (bs : List β) : Input β := { i with data := i.data ++ bs }

def Input.close (i : Input β) : Input β := { i with ended := true }

/-- A `read()` returns at once. -/
def Input.ready (i : Input β) : Bool := !i.data.isEmpty || i.ended

/-- A `read()` into a buffer of `size` bytes, which may return fewer bytes than there are, namely `k`. -/
def Input.read (i : Input β) (size k : Nat) : Option (List β × Input β) :=
  if i.data = [] then if i.ended then some ([], i) else none
  else if 0 < k ∧ k ≤ size ∧ k ≤ i.data.length then some (i.data.take k, { i with data := i.data.drop k })
  else none

/-- A `read()` that returns all there is, up to `size` bytes. -/
def Input.readAll (i : Input β) (size : Nat) : Option (List β × Input β) := i.read size (min size i.data.length)

variable {i j : Input β} {bs : List β} {size k : Nat}

theorem ready_iff : i.ready = true ↔ i.data ≠ [] ∨ i.ended = true := by simp [Input.ready]

theorem ready_put (h : i.ready = true) (bs : List β) : (i.put bs).ready = true := by
  rw [ready_iff] at h ⊢
  exact h.imp (fun hne happ => hne (List.append_eq_nil_iff.mp happ).1) id

theorem ready_close (i : Input β) : i.close.ready = true := ready_iff.mpr (.inr rfl)

theorem read_cases (h : i.read size k = some (bs, j)) :
    (bs = [] ∧ i.data = [] ∧ i.ended = true ∧ j = i) ∨
    (bs ≠ [] ∧ bs.length ≤ size ∧ i.data = bs ++ j.data ∧ j.ended = i.ended) := by
  rw [Input.read] at h
  split at h
  · rename_i hnil
    obtain ⟨hended, h⟩ := Option.ite_none_right_eq_some.mp h
    cases h
    exact .inl ⟨rfl, hnil, hended, rfl⟩
  · rename_i hne
    obtain ⟨⟨hpos, hsize, _⟩, h⟩ := Option.ite_none_right_eq_some.mp h
    cases h
    refine .inr ⟨fun htake => ?_, ?_, (List.take_append_drop k i.data).symm, rfl⟩
    · obtain hk | hd := List.take_eq_nil_iff.mp htake
      · omega
      · exact hne hd
    · rw [List.length_take]
      omega

theorem read_exists (hsize : 0 < size) (h : i.ready = true) : ∃ k r, i.read size k = some r := by
  by_cases hd : i.data = []
  · have hended := (ready_iff.mp h).resolve_left (not_not_intro hd)
    exact ⟨0, ([], i), by rw [Input.read, if_pos hd, if_pos hended]⟩
  · have hlen : 1 ≤ i.data.length := List.length_pos_iff.mpr hd
    exact ⟨1, _, by rw [Input.read, if_neg hd, if_pos ⟨Nat.one_pos, hsize, hlen⟩]⟩

theorem readAll_eq (hne : bs ≠ []) (hle : bs.length ≤ size) (ended : Bool) :
    (⟨bs, ended⟩ : Input β).readAll size = some (bs, ⟨[], ended⟩) := by
  have hpos := List.length_pos_iff.mpr hne
  rw [Input.readAll, Input.read, Nat.min_eq_right hle, if_neg hne, if_pos ⟨hpos, hle, Nat.le_refl _⟩, List.take_length,
    List.drop_length]

end UnixProg.Lib.InputStream

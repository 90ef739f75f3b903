import Mathlib.Data.List.TakeDrop
import Mathlib.Tactic.Common

namespace UnixProg.Lib.FlowControl

variable {β : Type}

/-- The buffers of a connection in one direction, and the room in the buffer of
the sender that makes the connection writable for `select()`. -/
structure Limits where
  send : Nat
  recv : Nat
  low : Nat
  low_pos : 0 < low
  low_le : low ≤ send
  recv_pos : 0 < recv

/-- What has been written and has not been read yet: the part that is still at
the sender and the part that the receiver has got. -/
structure Conn (L : Limits) (β : Type) where
  sent : List β
  rcvd : List β
  sent_le : sent.length ≤ L.send
  rcvd_le : rcvd.length ≤ L.recv

variable {L : Limits} {c d : Conn L β} {bs : List β} {size k : Nat}

def Conn.empty (L : Limits) (β : Type) : Conn L β := ⟨[], [], Nat.zero_le _, Nat.zero_le _⟩

/-- The bytes in the order in which they will be read. -/
def Conn.content (c : Conn L β) : List β := c.rcvd ++ c.sent

def Conn.writable (c : Conn L β) : Bool := c.sent.length + L.low ≤ L.send

/-- A `write()` copies some bytes, for which there is room. -/
def Conn.copy (c : Conn L β) (bs : List β) : Option (Conn L β) :=
  if h : bs ≠ [] ∧ c.sent.length + bs.length ≤ L.send then
    some { c with sent := c.sent ++ bs, sent_le := by rw [List.length_append]; exact h.2 }
  else none

/-- `k` bytes get to the receiver, who has told that there is room for them. -/
def Conn.transfer (c : Conn L β) (k : Nat) : Option (Conn L β) :=
  if h : 0 < k ∧ k ≤ c.sent.length ∧ c.rcvd.length + k ≤ L.recv then
    some {
      sent := c.sent.drop k
      rcvd := c.rcvd ++ c.sent.take k
      sent_le := by have := c.sent_le; rw [List.length_drop]; omega
      rcvd_le := by rw [List.length_append, List.length_take, Nat.min_eq_left h.2.1]; exact h.2.2 }
  else none

/-- A `read()` into a buffer of `size` bytes returns `k` of those that have come. -/
def Conn.read (c : Conn L β) (size k : Nat) : Option (List β × Conn L β) :=
  if 0 < k ∧ k ≤ size ∧ k ≤ c.rcvd.length then
    some (c.rcvd.take k, { c with
      rcvd := c.rcvd.drop k
      rcvd_le := by have := c.rcvd_le; rw [List.length_drop]; omega })
  else none

theorem take_ne_nil {bs : List β} (hpos : 0 < k) (hle : k ≤ bs.length) : bs.take k ≠ [] := by
  intro htake
  obtain hk | hnil := List.take_eq_nil_iff.mp htake
  · omega
  · rw [hnil, List.length_nil] at hle
    omega

theorem content_le (c : Conn L β) : c.content.length ≤ L.recv + L.send := by
  have hsent := c.sent_le
  have hrcvd := c.rcvd_le
  rw [Conn.content, List.length_append]
  omega

theorem copy_cases (h : c.copy bs = some d) : bs ≠ [] ∧ d.sent = c.sent ++ bs ∧ d.rcvd = c.rcvd := by
  obtain ⟨hcond, h⟩ := Option.dite_none_right_eq_some.mp h
  cases h
  exact ⟨hcond.1, rfl, rfl⟩

theorem transfer_cases (h : c.transfer k = some d) :
    ∃ bs, bs ≠ [] ∧ c.sent = bs ++ d.sent ∧ d.rcvd = c.rcvd ++ bs := by
  obtain ⟨⟨hpos, hle, _⟩, h⟩ := Option.dite_none_right_eq_some.mp h
  cases h
  exact ⟨c.sent.take k, take_ne_nil hpos hle, (List.take_append_drop k c.sent).symm, rfl⟩

theorem read_cases (h : c.read size k = some (bs, d)) :
    bs ≠ [] ∧ bs.length ≤ size ∧ c.rcvd = bs ++ d.rcvd ∧ d.sent = c.sent := by
  obtain ⟨⟨hpos, hsize, hle⟩, h⟩ := Option.ite_none_right_eq_some.mp h
  cases h
  refine ⟨take_ne_nil hpos hle, ?_, (List.take_append_drop k c.rcvd).symm, rfl⟩
  rw [List.length_take]
  exact Nat.le_trans (Nat.min_le_left _ _) hsize

/-- What leaves the sender is with the receiver. -/
theorem transfer_lengths (h : c.transfer k = some d) : ∃ n, 0 < n ∧ c.sent.length = n + d.sent.length ∧
    d.rcvd.length = c.rcvd.length + n := by
  obtain ⟨bs, hne, hsent, hrcvd⟩ := transfer_cases h
  refine ⟨bs.length, List.length_pos_iff.mpr hne, ?_, ?_⟩
  · rw [hsent, List.length_append]
  · rw [hrcvd, List.length_append]

theorem read_lengths (h : c.read size k = some (bs, d)) : 0 < bs.length ∧ c.rcvd.length = bs.length + d.rcvd.length ∧
    d.sent = c.sent := by
  obtain ⟨hne, _, hrcvd, hsent⟩ := read_cases h
  refine ⟨List.length_pos_iff.mpr hne, ?_, hsent⟩
  rw [hrcvd, List.length_append]

theorem content_copy (h : c.copy bs = some d) : d.content = c.content ++ bs := by
  obtain ⟨_, hsent, hrcvd⟩ := copy_cases h
  rw [Conn.content, Conn.content, hsent, hrcvd, List.append_assoc]

theorem content_transfer (h : c.transfer k = some d) : d.content = c.content := by
  obtain ⟨bs, _, hsent, hrcvd⟩ := transfer_cases h
  rw [Conn.content, Conn.content, hsent, hrcvd, List.append_assoc]

theorem content_read (h : c.read size k = some (bs, d)) : c.content = bs ++ d.content := by
  obtain ⟨_, _, hrcvd, hsent⟩ := read_cases h
  rw [Conn.content, Conn.content, hsent, hrcvd, List.append_assoc]

theorem copy_exists (b : β) (h : c.sent.length < L.send) : ∃ d, c.copy [b] = some d :=
  ⟨_, dif_pos ⟨List.cons_ne_nil b [], h⟩⟩

theorem transfer_exists (hsent : c.sent ≠ []) (hrcvd : c.rcvd.length < L.recv) : ∃ d, c.transfer 1 = some d :=
  ⟨_, dif_pos ⟨Nat.one_pos, List.length_pos_iff.mpr hsent, hrcvd⟩⟩

theorem read_exists (hsize : 0 < size) (h : c.rcvd ≠ []) : ∃ r, c.read size 1 = some r :=
  ⟨_, if_pos ⟨Nat.one_pos, hsize, List.length_pos_iff.mpr h⟩⟩

/-- Where nothing can be sent on, the receiver is full or there is nothing. -/
theorem transfer_none_iff : (∀ k, c.transfer k = none) ↔ c.sent = [] ∨ c.rcvd.length = L.recv := by
  constructor
  · intro h
    by_cases hsent : c.sent = []
    · exact .inl hsent
    · refine .inr (Nat.le_antisymm c.rcvd_le (Nat.le_of_not_lt (fun hlt => ?_)))
      obtain ⟨d, hd⟩ := transfer_exists hsent hlt
      rw [h 1] at hd
      cases hd
  · rintro h k
    refine dif_neg (fun hcond => ?_)
    obtain hsent | hfull := h
    · rw [hsent, List.length_nil] at hcond
      omega
    · omega

end UnixProg.Lib.FlowControl

import UnixProg.Lib.Barrier
import Mathlib.Data.Finset.Card

namespace UnixProg.Lib.BarrierObject

open Barrier ThreadSum

variable {T : Type} [DecidableEq T] {count : Nat}

/-- A barrier that `count` threads use: who waits in it, and who was let go but
has not returned yet, with the answer that it will get. One thread of each
round is told so. -/
structure Bar (T : Type) [DecidableEq T] (count : Nat) where
  waiting : Finset T
  returning : T → Option Bool
  few : waiting.card < count
  apart (t : T) (h : t ∈ waiting) : returning t = none

def Bar.init (h : 0 < count) : Bar T count := ⟨∅, fun _ => none, h, fun _ _ => rfl⟩

def Bar.Inside (b : Bar T count) (t : T) : Prop := t ∈ b.waiting ∨ b.returning t ≠ none

instance (b : Bar T count) (t : T) : Decidable (b.Inside t) := inferInstanceAs (Decidable (_ ∨ _))

/-- A thread that is not in the barrier comes to it. The last one lets all go
and leaves the barrier as it was at first; who of them is told so is not said. -/
def Bar.wait (b : Bar T count) (serial t : T) : Option (Bar T count) :=
  if hin : b.Inside t then none
  else if hlast : b.waiting.card + 1 < count then
    some {
      waiting := insert t b.waiting
      returning := b.returning
      few := (Finset.card_insert_le t b.waiting).trans_lt hlast
      apart := fun u hu => by
        rcases Finset.mem_insert.mp hu with rfl | hu
        · exact not_not.mp (fun hne => hin (.inr hne))
        · exact b.apart u hu }
  else if serial ∈ insert t b.waiting then
    some {
      waiting := ∅
      returning := fun u => if u ∈ insert t b.waiting then some (decide (u = serial)) else b.returning u
      few := (Nat.zero_le _).trans_lt b.few
      apart := fun u hu => absurd hu (Finset.notMem_empty u) }
  else none

def Bar.leave (b : Bar T count) (t : T) : Option (Bool × Bar T count) :=
  (b.returning t).map (fun last => (last, {
    waiting := b.waiting
    returning := Function.update b.returning t none
    few := b.few
    apart := fun u hu => by
      by_cases hut : u = t
      · rw [hut, Function.update_self]
      · rw [Function.update_of_ne hut, b.apart u hu] }))

variable {b b' : Bar T count} {serial t : T} {last : Bool} {g : Nat} {r : Rounds T}

/-- What a call does. -/
inductive Waits (b : Bar T count) (serial t : T) (b' : Bar T count) : Prop
  | joins (hw : b'.waiting = insert t b.waiting) (hr : b'.returning = b.returning) : Waits b serial t b'
  | opens (hcard : (insert t b.waiting).card = count) (hserial : serial ∈ insert t b.waiting) (hw : b'.waiting = ∅)
      (hr : b'.returning = fun u => if u ∈ insert t b.waiting then some (decide (u = serial)) else b.returning u) :
      Waits b serial t b'

theorem wait_cases (h : b.wait serial t = some b') : ¬ b.Inside t ∧ Waits b serial t b' := by
  rw [Bar.wait] at h
  split at h
  · cases h
  · rename_i hout
    refine ⟨hout, ?_⟩
    split at h
    · cases h
      exact .joins rfl rfl
    · rename_i hfull
      split at h
      · rename_i hserial
        cases h
        refine .opens ?_ hserial rfl rfl
        rw [Finset.card_insert_of_notMem (fun hm => hout (.inl hm))]
        have := b.few
        omega
      · cases h

theorem wait_exists (h : ¬ b.Inside t) : ∃ b', b.wait t t = some b' := by
  by_cases hlast : b.waiting.card + 1 < count
  · exact ⟨_, by rw [Bar.wait, dif_neg h, dif_pos hlast]⟩
  · exact ⟨_, by rw [Bar.wait, dif_neg h, dif_neg hlast, if_pos (Finset.mem_insert_self ..)]⟩

theorem leave_cases (h : b.leave t = some (last, b')) : b.returning t = some last ∧ b'.waiting = b.waiting ∧
    b'.returning = Function.update b.returning t none := by
  obtain ⟨x, hx, heq⟩ := Option.map_eq_some_iff.mp h
  cases heq
  exact ⟨hx, rfl, rfl⟩

theorem leave_exists (h : b.returning t = some last) : ∃ b', b.leave t = some (last, b') := ⟨_, by rw [Bar.leave, h]; rfl⟩

/-- The object in the round `g` against the rounds of its threads. -/
structure Counts (b : Bar T count) (g : Nat) (r : Rounds T) : Prop where
  waiting (t : T) (h : t ∈ b.waiting) : r.left t = g ∧ r.arrived t = g + 1
  returning (t : T) (h : b.returning t ≠ none) : r.left t + 1 = g ∧ r.arrived t = g
  outside (t : T) (h : ¬ b.Inside t) : r.left t = g ∧ r.arrived t = g

theorem init_counts (h : 0 < count) : Counts (Bar.init h : Bar T count) 0 start where
  waiting t ht := absurd ht (Finset.notMem_empty t)
  returning _ ht := absurd rfl ht
  outside _ _ := ⟨rfl, rfl⟩

theorem Counts.arrived_ge (hc : Counts b g r) (t : T) : g ≤ r.arrived t := by
  by_cases hw : t ∈ b.waiting
  · exact (hc.waiting t hw).2 ▸ Nat.le_succ g
  by_cases hr : b.returning t = none
  · exact (hc.outside t (fun hin => hin.elim hw (fun hne => hne hr))).2.ge
  · exact (hc.returning t hr).2.ge

/-- A call that does not open the barrier. -/
theorem Counts.joins (hc : Counts b g r) (hout : ¬ b.Inside t) (hw : b'.waiting = insert t b.waiting)
    (hr : b'.returning = b.returning) : Counts b' g ⟨Function.update r.arrived t (r.arrived t + 1), r.left⟩ where
  waiting u hu := by
    rw [hw, Finset.mem_insert] at hu
    by_cases hut : u = t
    · subst hut
      obtain ⟨hl, ha⟩ := hc.outside u hout
      simpa only [Function.update_self, Nat.add_right_cancel_iff] using And.intro hl ha
    · simpa only [Function.update_of_ne hut] using hc.waiting u (hu.resolve_left hut)
  returning u hu := by
    rw [hr] at hu
    have hut : u ≠ t := by
      rintro rfl
      exact hout (.inr hu)
    simpa only [Function.update_of_ne hut] using hc.returning u hu
  outside u hu := by
    have hut : u ≠ t := by
      rintro rfl
      exact hu (.inl (hw ▸ Finset.mem_insert_self ..))
    simp only [Function.update_of_ne hut]
    refine hc.outside u (fun hin => hu (hin.imp (fun hm => ?_) (fun hne => hr ▸ hne)))
    exact hw ▸ Finset.mem_insert_of_mem hm

variable [Fintype T]

theorem eq_univ (hcount : count = Fintype.card T) (hcard : (insert t b.waiting).card = count) (u : T) :
    u ∈ insert t b.waiting := by
  rw [Finset.card_eq_iff_eq_univ _ |>.mp (hcard.trans hcount)]
  exact Finset.mem_univ u

/-- Where all the threads use the barrier, a call that opens it begins the
next round. -/
theorem Counts.opens (hcount : count = Fintype.card T) (hc : Counts b g r) (hout : ¬ b.Inside t)
    (hcard : (insert t b.waiting).card = count) (hw : b'.waiting = ∅)
    (hr : b'.returning = fun u => if u ∈ insert t b.waiting then some (decide (u = serial)) else b.returning u) :
    Counts b' (g + 1) ⟨Function.update r.arrived t (r.arrived t + 1), r.left⟩ := by
  have hret (u : T) : b'.returning u ≠ none := by
    rw [(congrFun hr u).trans (if_pos (eq_univ hcount hcard u))]
    exact Option.some_ne_none _
  refine ⟨fun u hu => ?_, fun u _ => ?_, fun u hu => absurd (.inr (hret u)) hu⟩
  · rw [hw] at hu
    exact absurd hu (Finset.notMem_empty u)
  · by_cases hut : u = t
    · subst hut
      simp only [Function.update_self, hc.outside u hout, and_self]
    · simpa only [Function.update_of_ne hut, Nat.add_right_cancel_iff] using
        hc.waiting u ((Finset.mem_insert.mp (eq_univ hcount hcard u)).resolve_left hut)

omit [Fintype T] in
theorem Counts.arrives (hc : Counts b g r) (hout : ¬ b.Inside t) :
    Step r (.arrive t) ⟨Function.update r.arrived t (r.arrived t + 1), r.left⟩ :=
  .arrive r t ((hc.outside t hout).2.trans (hc.outside t hout).1.symm)

omit [Fintype T] in
theorem Counts.leave (hc : Counts b g r) (h : b.leave t = some (last, b')) :
    Counts b' g ⟨r.arrived, Function.update r.left t (r.left t + 1)⟩ ∧
      Step r (.leave t) ⟨r.arrived, Function.update r.left t (r.left t + 1)⟩ := by
  obtain ⟨hret, hw, hr⟩ := leave_cases h
  have hne : b.returning t ≠ none := hret ▸ Option.some_ne_none last
  obtain ⟨hl, ha⟩ := hc.returning t hne
  refine ⟨⟨fun u hu => ?_, fun u hu => ?_, fun u hu => ?_⟩,
    .leave r t (by omega) (fun u => ha.le.trans (hc.arrived_ge u))⟩
  · rw [hw] at hu
    have hut : u ≠ t := by
      rintro rfl
      exact hne (b.apart u hu)
    simpa only [Function.update_of_ne hut] using hc.waiting u hu
  · rw [hr] at hu
    by_cases hut : u = t
    · subst hut
      exact absurd (Function.update_self ..) hu
    · rw [Function.update_of_ne hut] at hu
      simpa only [Function.update_of_ne hut] using hc.returning u hu
  · by_cases hut : u = t
    · subst hut
      simpa only [Function.update_self] using And.intro hl ha
    · simp only [Function.update_of_ne hut]
      refine hc.outside u (fun hin => hu (hin.imp (fun hm => hw ▸ hm) (fun hne => ?_)))
      rwa [hr, Function.update_of_ne hut]

/-- A full barrier opens, so that somebody is always outside or on the way out. -/
theorem exists_not_waiting (hcount : count = Fintype.card T) (b : Bar T count) : ∃ t, t ∉ b.waiting := by
  by_contra hall
  push Not at hall
  have huniv : b.waiting = Finset.univ := Finset.eq_univ_of_forall hall
  have := b.few
  rw [huniv, Finset.card_univ] at this
  omega

end UnixProg.Lib.BarrierObject

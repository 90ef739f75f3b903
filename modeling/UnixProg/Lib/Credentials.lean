import UnixProg.Lib.Transition
import Mathlib.Data.Finset.Insert

namespace UnixProg.Lib.Credentials

open Transition

variable {U : Type} [DecidableEq U]

/-- The user ids of a process. -/
structure Cred (U : Type) where
  ruid : U
  euid : U
  suid : U
deriving DecidableEq

/-- Whether a process without privileges may set its real id to its effective
or to its saved one, which is not specified. -/
structure Policy where
  toEuid : Bool
  toSuid : Bool

def Cred.ids (c : Cred U) : Finset U := {c.ruid, c.euid, c.suid}

/-- Privileged processes set all the ids, the others only the effective one. -/
def setuid (root u : U) (c : Cred U) : Option (Cred U) :=
  if c.euid = root then some ⟨u, u, u⟩
  else if u = c.ruid ∨ u = c.suid then some { c with euid := u }
  else none

def Policy.real (p : Policy) (c : Cred U) (u : U) : Bool :=
  decide (u = c.ruid) || p.toEuid && decide (u = c.euid) || p.toSuid && decide (u = c.suid)

/-- An id that is left out stays as it is. The saved id follows the effective
one when the real one is set, or the effective one to something else than that. -/
def setreuid (p : Policy) (root : U) (r e : Option U) (c : Cred U) : Option (Cred U) :=
  if c.euid = root ∨ (∀ u ∈ r, p.real c u = true) ∧ ∀ u ∈ e, u ∈ c.ids then
    let euid := e.getD c.euid
    some ⟨r.getD c.ruid, euid, if r.isSome ∨ ∃ u ∈ e, u ≠ c.ruid then euid else c.suid⟩
  else none

inductive Call (U : Type)
  | setuid (u : U)
  | setreuid (r e : Option U)

def next (p : Policy) (root : U) (c : Cred U) : Call U → Option (Cred U)
  | .setuid u => setuid root u c
  | .setreuid r e => setreuid p root r e c

/-- Some calls in some order make the id the effective one. -/
def Attainable (p : Policy) (root : U) (c : Cred U) (u : U) : Prop :=
  ∃ c', Reachable (Exec (next p root)) c c' ∧ c'.euid = u

variable {p : Policy} {root u : U} {c c' : Cred U} {r e : Option U}

theorem Cred.mem_ids {u : U} : u ∈ c.ids ↔ u = c.ruid ∨ u = c.euid ∨ u = c.suid := by
  simp only [Cred.ids, Finset.mem_insert, Finset.mem_singleton]

theorem Policy.real_ids (h : p.real c u = true) : u ∈ c.ids := by
  simp only [Policy.real, Bool.or_eq_true, Bool.and_eq_true, decide_eq_true_eq] at h
  rcases h with (h | ⟨_, h⟩) | ⟨_, h⟩
  · exact Cred.mem_ids.mpr (.inl h)
  · exact Cred.mem_ids.mpr (.inr (.inl h))
  · exact Cred.mem_ids.mpr (.inr (.inr h))

theorem setuid_ids (hroot : c.euid ≠ root) (h : setuid root u c = some c') : c'.ids ⊆ c.ids := by
  rw [setuid, if_neg hroot] at h
  obtain ⟨hu, heq⟩ := Option.ite_none_right_eq_some.mp h
  cases heq
  intro v hv
  rcases Cred.mem_ids.mp hv with hv | hv | hv
  · exact Cred.mem_ids.mpr (.inl hv)
  · exact Cred.mem_ids.mpr (hu.imp hv.trans (fun hs => .inr (hv.trans hs)))
  · exact Cred.mem_ids.mpr (.inr (.inr hv))

theorem setreuid_ids (hroot : c.euid ≠ root) (h : setreuid p root r e c = some c') : c'.ids ⊆ c.ids := by
  obtain ⟨hok, heq⟩ := Option.ite_none_right_eq_some.mp h
  cases heq
  obtain ⟨hr, he⟩ := hok.resolve_left hroot
  have hreal : r.getD c.ruid ∈ c.ids := by
    cases r with
    | none => exact Cred.mem_ids.mpr (.inl rfl)
    | some v => exact Policy.real_ids (hr v rfl)
  have heuid : e.getD c.euid ∈ c.ids := by
    cases e with
    | none => exact Cred.mem_ids.mpr (.inr (.inl rfl))
    | some v => exact he v rfl
  intro v hv
  rcases Cred.mem_ids.mp hv with rfl | rfl | rfl
  · exact hreal
  · exact heuid
  · simp only
    split
    · exact heuid
    · exact Cred.mem_ids.mpr (.inr (.inr rfl))

theorem next_ids {k : Call U} (hroot : c.euid ≠ root) (h : next p root c k = some c') : c'.ids ⊆ c.ids := by
  cases k with
  | setuid u => exact setuid_ids hroot h
  | setreuid r e => exact setreuid_ids hroot h

/-- A process that has root among none of its ids never comes to another id. -/
theorem reachable_ids (hroot : root ∉ c.ids) (h : Reachable (Exec (next p root)) c c') : c'.ids ⊆ c.ids := by
  refine h.invariant (I := fun d => d.ids ⊆ c.ids) (fun _ => id) (fun d k d' hd hk => ?_)
  have hne : d.euid ≠ root := by
    intro heq
    exact hroot (heq ▸ hd (Cred.mem_ids.mpr (.inr (.inl rfl))))
  exact (next_ids hne hk).trans hd

theorem attainable_of_mem (h : u ∈ c.ids) : Attainable p root c u := by
  by_cases he : u = c.euid
  · exact ⟨c, .refl _ c, he.symm⟩
  · have hu : u = c.ruid ∨ u = c.suid := (Cred.mem_ids.mp h).imp_right (fun h => h.resolve_left he)
    by_cases hroot : c.euid = root
    · exact ⟨⟨u, u, u⟩, (Reachable.refl _ c).tail (l := .setuid u) (if_pos hroot), rfl⟩
    · have hset : setuid root u c = some { c with euid := u } := by rw [setuid, if_neg hroot, if_pos hu]
      exact ⟨{ c with euid := u }, (Reachable.refl _ c).tail (l := .setuid u) hset, rfl⟩

/-- Root can come to every id, and nobody else to another than its own. -/
theorem attainable_iff : Attainable p root c u ↔ root ∈ c.ids ∨ u ∈ c.ids := by
  constructor
  · rintro ⟨c', hr, rfl⟩
    by_cases hroot : root ∈ c.ids
    · exact .inl hroot
    · exact .inr (reachable_ids hroot hr (Cred.mem_ids.mpr (.inr (.inl rfl))))
  · rintro (hroot | hu)
    · obtain ⟨c', hr, he⟩ := attainable_of_mem (p := p) hroot
      exact ⟨⟨u, u, u⟩, hr.tail (l := .setuid u) (if_pos he), rfl⟩
    · exact attainable_of_mem hu

/-- A `setuid()` to the real id succeeds whoever calls it. -/
theorem setuid_ruid (root : U) (c : Cred U) :
    setuid root c.ruid c = some ⟨c.ruid, c.ruid, if c.euid = root then c.ruid else c.suid⟩ := by
  rw [setuid]
  split
  · rfl
  · exact if_pos (.inl rfl)

end UnixProg.Lib.Credentials

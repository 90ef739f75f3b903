import UnixProg.Lib.SignedInt

namespace UnixProg.Pthreads.Millisleep

open Lib SignedInt

/-- From milli to nano, on an int. -/
def MSEC2NSEC (n : BitVec 32) : Option (BitVec 32) := do
  let usec ← mul n 1000
  mul usec 1000

structure Timespec where
  tvSec : BitVec 64
  tvNsec : BitVec 64
deriving DecidableEq

/-- What `millisleep()` hands to `nanosleep()`. The product becomes a long only
when it is there. -/
def tspec (msec : BitVec 32) : Option Timespec := (MSEC2NSEC msec).map (fun nsec => ⟨0, nsec.signExtend 64⟩)

/-- What `nanosleep()` takes. -/
def Timespec.Valid (t : Timespec) : Prop := 0 ≤ t.tvNsec.toInt ∧ t.tvNsec.toInt < 10 ^ 9

instance (t : Timespec) : Decidable t.Valid := inferInstanceAs (Decidable (_ ∧ _))

def Timespec.nanoseconds (t : Timespec) : Int := t.tvSec.toInt * 10 ^ 9 + t.tvNsec.toInt

/-- Nothing comes back when the time is refused, which the call does at once. -/
def nanosleep (t : Timespec) : Option Int := if t.Valid then some t.nanoseconds else none

/-- The nanoseconds for which a thread sleeps. Nobody looks at the result of
the `nanosleep()`. -/
def millisleep (msec : BitVec 32) : Option Int := (tspec msec).map (fun t => (nanosleep t).getD 0)

/-- What `nanosleep()` is handed where the product wraps around. -/
def wrapped (msec : BitVec 32) : Timespec := ⟨0, (msec * 1000 * 1000).signExtend 64⟩

/-- The calls of the two programs that have this function. -/
inductive Call
  | propSet
  | propGet (random : Nat)
  | writerThread
  | readerThread
  | writerChance
  | readerStart

def Call.msec : Call → BitVec 32
  | .propSet => 500
  | .propGet random => BitVec.ofNat 32 (random % 1000)
  | .writerThread => 5000
  | .readerThread => 500
  | .writerChance => 500
  | .readerStart => 100

/-- The time is one that `nanosleep()` takes, and it is the one that was asked for. -/
structure Exact (msec : BitVec 32) (t : Timespec) : Prop where
  valid : t.Valid
  duration : t.tvSec.toInt * 1000 + t.tvNsec.toInt / 10 ^ 6 = msec.toInt

/-- The product is an int, and the time is right. -/
def Sleeps (msec : BitVec 32) : Prop := ∃ t, tspec msec = some t ∧ Exact msec t

variable {msec nsec : BitVec 32} {t : Timespec}

/-- Two products one after the other, of which the second one is the larger. -/
theorem MSEC2NSEC_eq_some_iff : MSEC2NSEC msec = some nsec ↔ nsec.toInt = msec.toInt * 10 ^ 6 := by
  have h1000 : (1000 : BitVec 32).toInt = 1000 := by decide
  constructor
  · intro h
    obtain ⟨usec, husec, hnsec⟩ := Option.bind_eq_some_iff.mp h
    rw [mul_eq_some_iff, h1000] at husec hnsec
    omega
  · intro h
    have hrange := toInt_inRange nsec
    obtain ⟨usec, husec⟩ : ∃ usec, mul msec 1000 = some usec := by
      rw [exists_mul_iff, h1000]
      simp only [InRange] at hrange ⊢
      omega
    refine Option.bind_eq_some_iff.mpr ⟨usec, husec, ?_⟩
    rw [mul_eq_some_iff, h1000] at husec ⊢
    omega

/-- The range of an int ends a little above two seconds. -/
theorem exists_nsec_iff (msec : BitVec 32) : (∃ nsec, MSEC2NSEC msec = some nsec) ↔ -2147 ≤ msec.toInt ∧ msec.toInt ≤ 2147 := by
  simp only [MSEC2NSEC_eq_some_iff]
  rw [exists_toInt_iff (by decide), InRange]
  omega

theorem exists_tspec_iff (msec : BitVec 32) : (∃ t, tspec msec = some t) ↔ -2147 ≤ msec.toInt ∧ msec.toInt ≤ 2147 := by
  rw [← exists_nsec_iff]
  constructor
  · rintro ⟨t, h⟩
    obtain ⟨nsec, hnsec, _⟩ := Option.map_eq_some_iff.mp h
    exact ⟨nsec, hnsec⟩
  · rintro ⟨nsec, h⟩
    exact ⟨_, Option.map_eq_some_iff.mpr ⟨nsec, h, rfl⟩⟩

theorem tspec_fields (h : tspec msec = some t) : t.tvSec = 0 ∧ t.tvNsec.toInt = msec.toInt * 10 ^ 6 := by
  obtain ⟨nsec, hnsec, rfl⟩ := Option.map_eq_some_iff.mp h
  refine ⟨rfl, ?_⟩
  rw [← MSEC2NSEC_eq_some_iff.mp hnsec]
  exact BitVec.toInt_signExtend_of_le (by decide)

/-- The seconds are never used, so that a second is too long. -/
theorem tspec_valid_iff (h : tspec msec = some t) : t.Valid ↔ 0 ≤ msec.toInt ∧ msec.toInt < 1000 := by
  rw [Timespec.Valid, (tspec_fields h).2]
  omega

/-- A time that is there is the right one, also where it is refused. -/
theorem tspec_duration (h : tspec msec = some t) :
    t.tvSec.toInt * 1000 + t.tvNsec.toInt / 10 ^ 6 = msec.toInt ∧ t.nanoseconds = msec.toInt * 10 ^ 6 := by
  obtain ⟨hsec, hnsec⟩ := tspec_fields h
  have hzero : t.tvSec.toInt = 0 := by rw [hsec]; decide
  rw [Timespec.nanoseconds, hzero, hnsec]
  omega

theorem Sleeps.range (h : Sleeps msec) : 0 ≤ msec.toInt ∧ msec.toInt < 1000 := by
  obtain ⟨t, ht, hexact⟩ := h
  exact (tspec_valid_iff ht).mp hexact.valid

theorem sleeps_of_range (hrange : 0 ≤ msec.toInt ∧ msec.toInt < 1000) : Sleeps msec := by
  obtain ⟨t, h⟩ := (exists_tspec_iff msec).mpr (by omega)
  exact ⟨t, h, (tspec_valid_iff h).mpr hrange, (tspec_duration h).1⟩

/-- Of the three limits the one of `nanosleep()` is the first to be met. -/
theorem sleeps_iff (msec : BitVec 32) : Sleeps msec ↔ 0 ≤ msec.toInt ∧ msec.toInt < 1000 := by
  constructor
  · exact Sleeps.range
  · exact sleeps_of_range

/-- A writer of the test does not get its five seconds. Where the product wraps
around they are 705 milliseconds. -/
theorem writer_overflows : Call.writerThread.msec.toInt = 5000 ∧ MSEC2NSEC Call.writerThread.msec = none ∧
    (wrapped Call.writerThread.msec).nanoseconds = 705032704 ∧ ¬ Sleeps Call.writerThread.msec := by
  refine ⟨by decide, by decide, by decide, fun h => ?_⟩
  have hlt := h.range.2
  exact absurd hlt (by decide)

/-- What a thread gets for each int: the time it has asked for, no sleep at
all, or no defined behaviour. -/
theorem millisleep_eq (msec : BitVec 32) : millisleep msec =
    if -2147 ≤ msec.toInt ∧ msec.toInt ≤ 2147 then
      some (if 0 ≤ msec.toInt ∧ msec.toInt < 1000 then msec.toInt * 10 ^ 6 else 0)
    else none := by
  split
  · rename_i hrange
    obtain ⟨t, h⟩ := (exists_tspec_iff msec).mpr hrange
    rw [millisleep, h, Option.map_some, nanosleep, (tspec_duration h).2]
    simp only [tspec_valid_iff h]
    split <;> rfl
  · rename_i hrange
    rw [millisleep, Option.map_eq_none_iff, Option.eq_none_iff_forall_ne_some]
    exact fun t h => hrange ((exists_tspec_iff msec).mp ⟨t, h⟩)

/-- A thread sleeps for the time it has asked for just when the time that is
built is right. -/
theorem millisleep_eq_some_iff (msec : BitVec 32) : millisleep msec = some (msec.toInt * 10 ^ 6) ↔ Sleeps msec := by
  rw [millisleep_eq]
  constructor
  · intro h
    obtain ⟨_, heq⟩ := Option.ite_none_right_eq_some.mp h
    apply sleeps_of_range
    split at heq
    · assumption
    · have hzero : msec.toInt = 0 := by have := Option.some.inj heq; omega
      omega
  · intro h
    obtain ⟨hpos, hlt⟩ := h.range
    rw [if_pos (by omega), if_pos ⟨hpos, hlt⟩]

theorem wrapped_eq (h : tspec msec = some t) : t = wrapped msec := by
  obtain ⟨nsec, hnsec, rfl⟩ := Option.map_eq_some_iff.mp h
  obtain ⟨usec, husec, hmul⟩ := Option.bind_eq_some_iff.mp hnsec
  rw [eq_mul_of_some hmul, eq_mul_of_some husec]
  rfl

/-- No int is right because of the wrapping. -/
theorem wrapped_exact_iff (msec : BitVec 32) : Exact msec (wrapped msec) ↔ Sleeps msec := by
  constructor
  · intro h
    have hzero : (wrapped msec).tvSec.toInt = 0 := rfl
    have hduration := h.duration
    have hvalid := h.valid
    rw [hzero] at hduration
    rw [Timespec.Valid] at hvalid
    apply sleeps_of_range
    omega
  · rintro ⟨t, ht, hexact⟩
    exact wrapped_eq ht ▸ hexact

theorem random_toInt (random : Nat) : (BitVec.ofNat 32 (random % 1000)).toInt = random % 1000 := by
  have hlt : random % 1000 < 1000 := Nat.mod_lt _ (by decide)
  have hnat : (BitVec.ofNat 32 (random % 1000)).toNat = random % 1000 := by
    rw [BitVec.toNat_ofNat, Nat.mod_eq_of_lt (by omega)]
  rw [BitVec.toInt_eq_toNat_of_lt (by omega), hnat]
  rfl

/-- All the calls of the two programs are right, whatever comes out of
`random()`, but for those of the writers in the test. -/
theorem call_sleeps_iff (c : Call) : Sleeps c.msec ↔ c ≠ .writerThread := by
  constructor
  · rintro h rfl
    exact absurd h.range.2 (by decide)
  · intro hc
    apply sleeps_of_range
    cases c with
    | writerThread => exact absurd rfl hc
    | propGet random =>
        rw [Call.msec, random_toInt]
        omega
    | propSet | readerThread | writerChance | readerStart => decide

end UnixProg.Pthreads.Millisleep

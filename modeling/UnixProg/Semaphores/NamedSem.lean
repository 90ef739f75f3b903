import UnixProg.Lib.ProcessRule
import UnixProg.Race.PosixSemFixedRace
import UnixProg.Semaphores.TalkingHeads
import Mathlib.Data.Fintype.Fin

namespace UnixProg.Semaphores.NamedSem

open Lib Transition Semaphore SemaphoreRule ProcessRule

/-- The value of the semaphore after `sem_open()` with `O_CREAT`: the given one
is for a new semaphore, one that was found keeps its own. -/
def semOpen (found : Option Nat) (value : Nat) : Nat := found.getD value

section Race

open Race SharedBytes PosixSemFixedRace

/-- Both processes get past a semaphore that was found with two units. -/
def both : List (Event Proc) := [.exec .parent 0, .exec .parent 0, .exec .child 0, .exec .child 0]

theorem both_inside (v : Nat) : ∃ s, Run (Guarded (Exec (next program)) NoSignal) (initial (v + 2)) both s ∧
    inside (s.pc .parent) = true ∧ inside (s.pc .child) = true :=
  ⟨_, replay_guarded rfl, rfl, rfl⟩

theorem alone_of_le {value : Nat} (hv : value ≤ 1) {es : List (Event Proc)} {s : State Proc Pc Mem}
    (h : Run (Guarded (Exec (next program)) NoSignal) (initial value) es s) {t u : Proc} (ht : inside (s.pc t) = true)
    (hu : inside (s.pc u) = true) : t = u := by
  have hone := run_conserved program_disciplined (fun _ => rfl) (noSignal_harmless program_disciplined h)
  exact unique_of_occupancy ((occupancy_le hone).trans hv) ht hu

end Race

section Talk

open TalkingHeads

variable {n v k : Nat} {s : State (Proc n) Pc (Mem n)}

theorem parent_silent {value : Nat} {es : List (Event (Proc n))} (h : Run (Exec (next program)) (initial n value) es s) :
    talking (s.pc none) = false := by
  have hown : Own (program (n := n)) (fun _ _ => True) (fun t p _ => t = none → talking p = false) := by
    constructor
    · rintro t p p' m m' c hc hg h rfl
      cases cmds_does hc with
      | wait => exact hg.2 ▸ rfl
      | fork | forkFails | forked | childless | waited | clean | exit => exact hg.2 ▸ rfl
    · exact fun _ _ _ _ h => h
    · exact fun _ h => h
    · rintro s t p q m m₁ c _ _ hc hq h rfl
      cases cmds_does hc with
      | wait =>
          cases hq
          rfl
      | fork | forkFails | forked | childless | waited | clean | exit => cases hq
  exact run_own_always hown (fun t ht => by subst ht; rfl) h none rfl

theorem talkers_le_children (hsilent : talking (s.pc none) = false) : occupancy talking s ≤ n := by
  have hsum : occupancy talking s = ∑ x, (talking (s.pc (some x))).toNat := by
    rw [occupancy, Fintype.sum_option, hsilent]
    exact Nat.zero_add _
  calc occupancy talking s = ∑ x, (talking (s.pc (some x))).toNat := hsum
    _ ≤ ∑ _x : Fin n, 1 := Finset.sum_le_sum (fun x _ => Bool.toNat_le _)
    _ = n := by simp

/-- The first children talk, the parent goes on with its forks. -/
structure Crowd (v k : Nat) (s : State (Proc n) Pc (Mem n)) : Prop where
  sem : ∃ w, s.sem = some w ∧ w + k = v
  parent : s.ctl none = .running (.fork k)
  talk (x : Fin n) (h : x.val < k) : s.ctl (some x) = .running .talk
  unborn (x : Fin n) (h : k ≤ x.val) : s.ctl (some x) = .running .unborn
  run : s.mem.run = fun _ => true

theorem initial_crowd (n v : Nat) : Crowd v 0 (initial n v) where
  sem := ⟨v, rfl, rfl⟩
  parent := rfl
  talk _ h := absurd h (Nat.not_lt_zero _)
  unborn _ _ := rfl
  run := rfl

theorem enter (x : Fin n) (hpc : s.ctl (some x) = .running .unborn) (hborn : x ∈ s.mem.born) (hrun : s.mem.run (some x) = true)
    (hsem : s.sem = some (v + 1)) : Reachable (Guarded (Exec (next program)) NoSignal) s
      ⟨some v, Function.update s.ctl (some x) (.running .talk), s.mem⟩ := by
  have hloop : next program s (.exec (some x) 0) = some ⟨s.sem, Function.update s.ctl (some x) (.running .loop), s.mem⟩ := by
    apply exec_run
    simp [State.pc, hpc, Ctl.pc, program, cmds, hborn]
  have hwait : next program ⟨s.sem, Function.update s.ctl (some x) (.running .loop), s.mem⟩ (.exec (some x) 0) =
      some ⟨s.sem, Function.update s.ctl (some x) (.running .semWait), s.mem⟩ := by
    rw [exec_run (m := s.mem) (p := .semWait) (by simp [State.pc, Ctl.pc, program, cmds, hrun])]
    simp
  have htalk : next program ⟨s.sem, Function.update s.ctl (some x) (.running .semWait), s.mem⟩ (.exec (some x) 0) =
      some ⟨some v, Function.update s.ctl (some x) (.running .talk), s.mem⟩ := by
    have hcmd : (program.cmds (some x) .semWait s.mem)[0]? = some (.down .talk .talk none) := rfl
    have hpc : State.pc ⟨s.sem, Function.update s.ctl (some x) (.running .semWait), s.mem⟩ (some x) = .semWait := by
      simp [State.pc, Ctl.pc]
    rw [← hpc] at hcmd
    rw [exec_down hcmd hsem]
    simp
  exact exec_noSignal (exec_noSignal (exec_noSignal (.refl _ s) hloop) hwait) htalk

/-- One more child is born and gets past the semaphore. -/
theorem Crowd.succ (hs : Crowd v k s) (hk : k < n) (hv : k < v) :
    ∃ s', Reachable (Guarded (Exec (next program)) NoSignal) s s' ∧ Crowd v (k + 1) s' := by
  obtain ⟨w, hsem, hw⟩ := hs.sem
  obtain ⟨w, rfl⟩ : ∃ w', w = w' + 1 := ⟨w - 1, by omega⟩
  have hfork : next program s (.exec none 0) =
      some ⟨s.sem, Function.update s.ctl none (.running (.fork (k + 1))), s.mem.fork ⟨k, hk⟩⟩ := by
    apply exec_run
    simp [State.pc, hs.parent, Ctl.pc, program, cmds, hk]
  have hrun : (s.mem.fork ⟨k, hk⟩).run = fun _ => true := by
    funext t
    simp [Mem.fork, hs.run]
  have henter := enter (s := ⟨s.sem, Function.update s.ctl none (.running (.fork (k + 1))), s.mem.fork ⟨k, hk⟩⟩) (v := w)
    ⟨k, hk⟩ (by simpa using hs.unborn ⟨k, hk⟩ (Nat.le_refl k)) (Finset.mem_insert_self ..) (by rw [hrun]) hsem
  refine ⟨_, (exec_noSignal (.refl _ s) hfork).trans henter, ⟨w, rfl, by omega⟩, by simp, fun x hx => ?_,
    fun x hx => ?_, hrun⟩
  · by_cases hxk : x = ⟨k, hk⟩
    · simp [hxk]
    · have hlt : x.val < k := by
        have hne : x.val ≠ k := fun h => hxk (Fin.ext h)
        omega
      simpa [hxk] using hs.talk x hlt
  · have hne : x ≠ ⟨k, hk⟩ := fun h => by rw [h] at hx; exact absurd hx (by simp)
    simpa [hne] using hs.unborn x (by omega)

theorem exists_crowd (hk : k ≤ n) (hv : k ≤ v) :
    ∃ s, Reachable (Guarded (Exec (next program)) NoSignal) (initial n v) s ∧ Crowd v k s := by
  induction k with
  | zero => exact ⟨_, .refl _ _, initial_crowd n v⟩
  | succ k ih =>
      obtain ⟨s, hr, hs⟩ := ih (by omega) (by omega)
      obtain ⟨s', hr', hs'⟩ := hs.succ (by omega) (by omega)
      exact ⟨s', hr.trans hr', hs'⟩

theorem Crowd.talkers (hs : Crowd v k s) (hk : k ≤ n) : k ≤ occupancy talking s := by
  have hsub : (Finset.univ.filter (fun x : Fin n => x.val < k)).card ≤ ∑ x, (talking (s.pc (some x))).toNat := by
    rw [Finset.card_eq_sum_ones, Finset.sum_filter]
    apply Finset.sum_le_sum
    intro x _
    split
    · rw [State.pc, hs.talk x ‹_›]
      rfl
    · exact Nat.zero_le _
  have hcard : (Finset.univ.filter (fun x : Fin n => x.val < k)).card = k := by
    rw [Fin.card_filter_val_lt, Nat.min_eq_right hk]
  calc k = (Finset.univ.filter (fun x : Fin n => x.val < k)).card := hcard.symm
    _ ≤ ∑ x, (talking (s.pc (some x))).toNat := hsub
    _ ≤ occupancy talking s := by
      rw [occupancy, Fintype.sum_option]
      exact Nat.le_add_left ..

theorem talkers_le {value : Nat} {es : List (Event (Proc n))}
    (h : Run (Guarded (Exec (next program)) NoSignal) (initial n value) es s) : occupancy talking s ≤ value :=
  (talking_le_inside s).trans
    (occupancy_le (run_conserved program_disciplined initial_outside (noSignal_harmless program_disciplined h)))

end Talk

/-- Without signals the two programs keep to their limits just when they find
no semaphore that lets more processes in; the limit of the children is also kept
when there are no more of them. -/
theorem limits_kept_iff (found : Option Nat) (n init : Nat) :
    ((∀ es s, Run (Guarded (Exec (next Race.PosixSemFixedRace.program)) NoSignal)
        (Race.PosixSemFixedRace.initial (semOpen found 1)) es s →
      ∀ t u, Race.PosixSemFixedRace.inside (s.pc t) = true → Race.PosixSemFixedRace.inside (s.pc u) = true → t = u) ↔
        ∀ v ∈ found, v ≤ 1) ∧
    ((∀ es s, Run (Guarded (Exec (next TalkingHeads.program)) NoSignal) (TalkingHeads.initial n (semOpen found init)) es s →
      occupancy TalkingHeads.talking s ≤ init) ↔ (∀ v ∈ found, v ≤ init) ∨ n ≤ init) := by
  have hopen {value : Nat} (h : ∀ v ∈ found, v ≤ value) : semOpen found value ≤ value := by
    cases found with
    | none => exact le_rfl
    | some v => exact h v rfl
  refine ⟨⟨fun h v hv => ?_, fun h es s hr t u => alone_of_le (hopen h) hr⟩, ⟨fun h => ?_, fun h es s hr => ?_⟩⟩
  · by_contra hlt
    obtain ⟨w, rfl⟩ : ∃ w, v = w + 2 := ⟨v - 2, by omega⟩
    obtain rfl : found = some (w + 2) := hv
    obtain ⟨s, hr, hparent, hchild⟩ := both_inside w
    cases h both s hr .parent .child hparent hchild
  · by_contra hnot
    simp only [not_or, not_forall, not_le] at hnot
    obtain ⟨⟨v, hv, hlt⟩, hn⟩ := hnot
    obtain rfl : found = some v := hv
    obtain ⟨s, ⟨es, hr⟩, hs⟩ := exists_crowd (n := n) (v := v) (k := init + 1) hn hlt
    have htalk := hs.talkers hn
    have hle := h es s hr
    omega
  · obtain h | h := h
    · exact (talkers_le hr).trans (hopen h)
    · exact (talkers_le_children (parent_silent hr.unguard)).trans h

/-- The semaphore that a killed run with two units left behind is found by the
race program, and by a run that asks for one unit. -/
theorem limits_broken :
    (∃ s, Run (Guarded (Exec (next Race.PosixSemFixedRace.program)) NoSignal)
      (Race.PosixSemFixedRace.initial (semOpen (some 2) 1)) both s ∧
      Race.PosixSemFixedRace.inside (s.pc .parent) = true ∧ Race.PosixSemFixedRace.inside (s.pc .child) = true) ∧
    ∃ es s, Run (Guarded (Exec (next TalkingHeads.program)) NoSignal) (TalkingHeads.initial 2 (semOpen (some 2) 1)) es s ∧
      1 < occupancy TalkingHeads.talking s := by
  obtain ⟨s, ⟨es, hr⟩, hs⟩ := exists_crowd (n := 2) (v := 2) (k := 2) le_rfl le_rfl
  exact ⟨both_inside 0, es, s, hr, hs.talkers le_rfl⟩

end UnixProg.Semaphores.NamedSem

import Mathlib.Data.List.FinRange
import UnixProg.Pthreads.ImplementBarrier

namespace UnixProg.Pthreads.BarrierDeadlock

open Lib Transition Monitor Wakeup BarrierOutput ImplementBarrier

variable {max : Nat}

def AllAsleep (s : State (Fin max) Pc (Mem max)) : Prop := ∀ t, ∃ p, s.ctl t = .asleep p

def WaitsIn (es : List (Event (Fin max) Pc)) (s : State (Fin max) Pc (Mem max)) (r : Nat) (t : Fin max) : Prop :=
  (∃ p, s.ctl t = .asleep p) ∧ arrived es t = r ∧ left es t + 1 = r

/-- A thread that comes to the barrier before it is complete ends up asleep. -/
theorem enter {c : Fin max → Ctl Pc} {k : Nat} (out : List (Token (Fin max))) {t : Fin max}
    (ht : c t = .running .print) (hk : (k + 1) % max ≠ 0) :
    Reachable (Quiet (thread max)) ⟨none, c, ⟨k, out⟩⟩
      ⟨none, Function.update c t (.asleep .loop), ⟨k + 1, out ++ [.id t]⟩⟩ := by
  rw [← Function.update_eq_self t c, ht, Function.update_idem]
  have hprint : Quiet (thread max) ⟨none, Function.update c t (.running .print), ⟨k, out⟩⟩ (.exec t .print)
      ⟨none, Function.update c t (.running .lock), ⟨k, out ++ [.id t]⟩⟩ := solo_run (by simp [thread])
  have hlock : Quiet (thread max) ⟨none, Function.update c t (.running .lock), ⟨k, out ++ [.id t]⟩⟩ (.exec t .lock)
      ⟨some t, Function.update c t (.running .arrive), ⟨k, out ++ [.id t]⟩⟩ := solo_lock (by simp [thread])
  have harrive : Quiet (thread max) ⟨some t, Function.update c t (.running .arrive), ⟨k, out ++ [.id t]⟩⟩
      (.exec t .arrive) ⟨some t, Function.update c t (.running .test), ⟨k + 1, out ++ [.id t]⟩⟩ :=
    solo_run (by simp [thread])
  have htest : Quiet (thread max) ⟨some t, Function.update c t (.running .test), ⟨k + 1, out ++ [.id t]⟩⟩
      (.exec t .test) ⟨some t, Function.update c t (.running .loop), ⟨k + 1, out ++ [.id t]⟩⟩ :=
    solo_run (by simp [thread, hk])
  have hwait : Quiet (thread max) ⟨some t, Function.update c t (.running .loop), ⟨k + 1, out ++ [.id t]⟩⟩
      (.exec t .loop) ⟨none, Function.update c t (.asleep .loop), ⟨k + 1, out ++ [.id t]⟩⟩ :=
    solo_wait (by simp [thread, hk])
  exact (((((Reachable.refl _ _).tail hprint).tail hlock).tail harrive).tail htest).tail hwait

/-- The thread that completes the barrier wakes the others and goes on. -/
theorem complete {c : Fin max → Ctl Pc} {k : Nat} (out : List (Token (Fin max))) {t : Fin max}
    (ht : c t = .running .print) (hk : (k + 1) % max = 0) :
    Reachable (Quiet (thread max)) ⟨none, c, ⟨k, out⟩⟩
      ⟨none, Function.update (wake (fun _ => true) c) t (.running .print),
        ⟨k + 1, out ++ [.id t] ++ [.newline]⟩⟩ := by
  rw [← Function.update_eq_self t c, ht]
  have hprint : Quiet (thread max) ⟨none, Function.update c t (.running .print), ⟨k, out⟩⟩ (.exec t .print)
      ⟨none, Function.update c t (.running .lock), ⟨k, out ++ [.id t]⟩⟩ := solo_run (by simp [thread])
  have hlock : Quiet (thread max) ⟨none, Function.update c t (.running .lock), ⟨k, out ++ [.id t]⟩⟩ (.exec t .lock)
      ⟨some t, Function.update c t (.running .arrive), ⟨k, out ++ [.id t]⟩⟩ := solo_lock (by simp [thread])
  have harrive : Quiet (thread max) ⟨some t, Function.update c t (.running .arrive), ⟨k, out ++ [.id t]⟩⟩
      (.exec t .arrive) ⟨some t, Function.update c t (.running .test), ⟨k + 1, out ++ [.id t]⟩⟩ :=
    solo_run (by simp [thread])
  have htest : Quiet (thread max) ⟨some t, Function.update c t (.running .test), ⟨k + 1, out ++ [.id t]⟩⟩
      (.exec t .test) ⟨some t, Function.update c t (.running .newline), ⟨k + 1, out ++ [.id t]⟩⟩ :=
    solo_run (by simp [thread, hk])
  have hnewline : Quiet (thread max) ⟨some t, Function.update c t (.running .newline), ⟨k + 1, out ++ [.id t]⟩⟩
      (.exec t .newline)
      ⟨some t, Function.update c t (.running .broadcast), ⟨k + 1, out ++ [.id t] ++ [.newline]⟩⟩ :=
    solo_run (by simp [thread])
  have hbroadcast : Quiet (thread max)
      ⟨some t, Function.update c t (.running .broadcast), ⟨k + 1, out ++ [.id t] ++ [.newline]⟩⟩ (.exec t .broadcast)
      ⟨some t, Function.update (wake (fun _ => true) c) t (.running .unlock),
        ⟨k + 1, out ++ [.id t] ++ [.newline]⟩⟩ := solo_broadcast (by simp [thread])
  have hunlock : Quiet (thread max)
      ⟨some t, Function.update (wake (fun _ => true) c) t (.running .unlock), ⟨k + 1, out ++ [.id t] ++ [.newline]⟩⟩
      (.exec t .unlock)
      ⟨none, Function.update (wake (fun _ => true) c) t (.running .print), ⟨k + 1, out ++ [.id t] ++ [.newline]⟩⟩ :=
    solo_unlock (by simp [thread])
  have hw : Function.update (wake (fun _ => true) (Function.update c t (.running .print))) t (.running .print) =
      Function.update (wake (fun _ => true) c) t (.running .print) := by
    funext u
    by_cases hu : u = t
    · subst hu; simp
    · simp [wake, hu]
  rw [hw]
  exact (((((((Reachable.refl _ _).tail hprint).tail hlock).tail harrive).tail htest).tail hnewline).tail
    hbroadcast).tail hunlock

/-- A woken thread that finds the barrier incomplete again goes back to sleep. -/
theorem fall {c : Fin max → Ctl Pc} {m : Mem max} {t : Fin max} (ht : c t = .woken .loop)
    (hk : m.onBarrier % max ≠ 0) :
    Reachable (Quiet (thread max)) ⟨none, c, m⟩ ⟨none, Function.update c t (.asleep .loop), m⟩ :=
  ((Reachable.refl _ _).tail (solo_resume ht)).tail (solo_wait (by simp [thread, hk]))

def sleepAll (l : List (Fin max)) (c : Fin max → Ctl Pc) (t : Fin max) : Ctl Pc :=
  if t ∈ l then .asleep .loop else c t

theorem sleepAll_cons {l : List (Fin max)} {c : Fin max → Ctl Pc} {t : Fin max} (ht : t ∉ l) :
    sleepAll l (Function.update c t (.asleep .loop)) = sleepAll (t :: l) c := by
  funext u
  by_cases hu : u = t
  · subst hu; simp [sleepAll, ht]
  · simp [sleepAll, hu]

theorem enter_all {l : List (Fin max)} (hl : l.Nodup) {c : Fin max → Ctl Pc} {k : Nat}
    (out : List (Token (Fin max))) (hc : ∀ t ∈ l, c t = .running .print) (hk : k + l.length < max) :
    ∃ out', Reachable (Quiet (thread max)) ⟨none, c, ⟨k, out⟩⟩ ⟨none, sleepAll l c, ⟨k + l.length, out'⟩⟩ := by
  induction l generalizing c k out with
  | nil => exact ⟨out, Reachable.refl _ _⟩
  | cons t l ih =>
      rw [List.nodup_cons] at hl
      simp only [List.length_cons] at hk ⊢
      have hfirst := enter out (hc t (by simp)) (k := k)
        (by rw [Nat.mod_eq_of_lt (by omega)]; exact Nat.succ_ne_zero k)
      obtain ⟨out', hrest⟩ := ih hl.2 (c := Function.update c t (.asleep .loop)) (k := k + 1) (out ++ [.id t])
        (by
          intro u hu
          have hut : u ≠ t := by rintro rfl; exact hl.1 hu
          rw [Function.update_of_ne hut]
          exact hc u (by simp [hu]))
        (by omega)
      refine ⟨out', ?_⟩
      rw [sleepAll_cons hl.1, show k + 1 + l.length = k + (l.length + 1) by omega] at hrest
      exact hfirst.trans hrest

theorem fall_all {l : List (Fin max)} (hl : l.Nodup) {c : Fin max → Ctl Pc} {m : Mem max}
    (hc : ∀ t ∈ l, c t = .woken .loop) (hk : m.onBarrier % max ≠ 0) :
    Reachable (Quiet (thread max)) ⟨none, c, m⟩ ⟨none, sleepAll l c, m⟩ := by
  induction l generalizing c with
  | nil => exact Reachable.refl _ _
  | cons t l ih =>
      rw [List.nodup_cons] at hl
      have hrest := ih hl.2 (c := Function.update c t (.asleep .loop)) (by
        intro u hu
        have hut : u ≠ t := by rintro rfl; exact hl.1 hu
        rw [Function.update_of_ne hut]
        exact hc u (by simp [hu]))
      rw [sleepAll_cons hl.1] at hrest
      exact (fall (hc t (by simp)) hk).trans hrest

/-- One thread completes the first barrier, and is back at the second before
any of those that it has woken looks at the counter. -/
theorem allAsleep_reachable (hmax : 2 ≤ max) :
    ∃ es s, Run (Quiet (thread max)) (initial max) es s ∧ AllAsleep s := by
  let a : Fin max := ⟨0, by omega⟩
  let l : List (Fin max) := (List.finRange max).erase a
  have hnodup : l.Nodup := (List.nodup_finRange max).erase a
  have hmem (t : Fin max) : t ∈ l ↔ t ≠ a := by simp [l, (List.nodup_finRange max).mem_erase_iff]
  have hlen : l.length = max - 1 := by simp [l, List.length_erase_of_mem]
  obtain ⟨out, hwait⟩ := enter_all hnodup (c := fun _ => .running .print) (k := 0) []
    (fun _ _ => rfl) (by omega)
  rw [hlen, Nat.zero_add] at hwait
  have hcomplete := complete (c := sleepAll l (fun _ => .running .print)) (k := max - 1) out (t := a)
    (by simp [sleepAll, hmem]) (by rw [show max - 1 + 1 = max by omega, Nat.mod_self])
  have hmod : (max - 1 + 1 + 1) % max ≠ 0 := by
    rw [show max - 1 + 1 + 1 = 1 + max by omega, Nat.add_mod_right, Nat.mod_eq_of_lt (by omega)]
    exact Nat.one_ne_zero
  have hback := enter (c := Function.update (wake (fun _ => true) (sleepAll l fun _ => .running .print)) a
    (.running .print)) (k := max - 1 + 1) (out ++ [.id a] ++ [.newline]) (t := a)
    (Function.update_self ..) hmod
  rw [Function.update_idem] at hback
  have hfall := fall_all hnodup
    (c := Function.update (wake (fun _ => true) (sleepAll l fun _ => .running .print)) a (.asleep .loop))
    (m := ⟨max - 1 + 1 + 1, out ++ [.id a] ++ [.newline] ++ [.id a]⟩)
    (by
      intro t ht
      rw [Function.update_of_ne ((hmem t).mp ht)]
      simp [wake, sleepAll, ht, Ctl.wake])
    hmod
  obtain ⟨es, hrun⟩ := ((hwait.trans hcomplete).trans hback).trans hfall
  refine ⟨es, _, hrun, fun t => ⟨.loop, ?_⟩⟩
  by_cases ht : t = a
  · subst ht; simp [sleepAll]
  · simp [sleepAll, (hmem t).mpr ht]

def blocked (_ : Pc) (m : Mem max) : Prop := m.onBarrier % max ≠ 0

def owes (p : Pc) (m : Mem max) : Prop := p = .test ∧ m.onBarrier % max = 0 ∨ p = .newline ∨ p = .broadcast

theorem thread_alarmed (max : Nat) : Alarmed (thread max) crit blocked owes := by
  constructor
  · intro t p m p' hc
    obtain ⟨rfl, rfl, hm⟩ := wait_mem hc
    exact ⟨rfl, hm⟩
  · intro t p m m' p' q hc h h'
    have hb := mem_onBarrier hc
    simp only [blocked, Cmd.mem, not_not] at h h' hb
    have hp : p = .arrive := by
      by_contra hp
      rw [hb, if_neg hp, Nat.add_zero] at h'
      exact h h'
    subst hp
    simp only [thread, List.mem_singleton, Cmd.run.injEq] at hc
    exact .inl ⟨hc.2, h'⟩
  · intro p m h
    rcases h with ⟨rfl, _⟩ | rfl | rfl <;> rfl
  · intro t p m m' p' q hp hc h
    have hb := mem_onBarrier hc
    have hne : p ≠ .arrive := by rintro rfl; cases hp
    simp only [Cmd.mem, if_neg hne, Nat.add_zero] at hb
    simpa only [owes, hb] using h
  · intro t p m c h hc
    rcases h with ⟨rfl, hm⟩ | rfl | rfl
    · simp only [thread, hm, if_true, List.mem_singleton] at hc
      exact .inr ⟨_, _, hc, .inr (.inl rfl)⟩
    · simp only [thread, List.mem_singleton] at hc
      exact .inr ⟨_, _, hc, .inr (.inr rfl)⟩
    · simp only [thread, List.mem_singleton] at hc
      exact .inl ⟨_, hc⟩

variable {es : List (Event (Fin max) Pc)} {s : State (Fin max) Pc (Mem max)}

theorem asleep_inside (h : Run (Step (thread max)) (initial max) es s) {t : Fin max} {p : Pc}
    (ht : s.ctl t = .asleep p) : arrived es t = left es t + 1 := by
  obtain ⟨hl, hi⟩ := run_inv h
  obtain ⟨q, m, hw⟩ := hl.parked t p (.inl ht)
  have hb := hi.balance t
  have hp : s.pc t = .loop := by simp [State.pc, ht, Ctl.pc, (wait_mem hw).2.1]
  simpa [hp, inside] using hb

/-- If all threads sleep then some of them have been overtaken: they wait in a
round that everybody has reached and the rest wait in the next one. -/
theorem stuck_rounds (hmax : 2 ≤ max) (h : Run (Step (thread max)) (initial max) es s) (hs : AllAsleep s) :
    ∃ r, 1 ≤ r ∧ (∀ t, r ≤ arrived es t) ∧ ∃ S : Finset (Fin max), 1 ≤ S.card ∧ S.card ≤ max - 1 ∧
      (∀ t ∈ S, WaitsIn es s (r + 1) t) ∧ ∀ t ∉ S, WaitsIn es s r t := by
  obtain ⟨hl, hi⟩ := run_inv h
  have hfree : s.owner = none := by
    by_contra ho
    obtain ⟨t, ht⟩ := Option.ne_none_iff_exists'.mp ho
    obtain ⟨p, hp, _⟩ := (hl.owner t).mp ht
    obtain ⟨q, hq⟩ := hs t
    rw [hp] at hq
    cases hq
  have hmod : s.mem.onBarrier % max ≠ 0 := by
    obtain ⟨p, hp⟩ := hs ⟨0, by omega⟩
    exact run_blocked (thread_disciplined max) (thread_alarmed max) (fun _ => rfl) h hfree hp
  have hclose := hi.sound.arrived_close
  obtain ⟨lo, hi', hlt⟩ : ∃ lo hi, arrived es hi = arrived es lo + 1 := by
    by_contra hno
    push Not at hno
    apply hmod
    apply hi.mod_eq_zero_iff.mpr
    intro u v
    have huv : arrived es u ≤ arrived es v + 1 := hclose u v
    have hvu : arrived es v ≤ arrived es u + 1 := hclose v u
    have := hno u v
    have := hno v u
    omega
  have hbase (t : Fin max) : arrived es lo ≤ arrived es t ∧ arrived es t ≤ arrived es lo + 1 := by
    have hdown : arrived es hi' ≤ arrived es t + 1 := hclose hi' t
    have hup : arrived es t ≤ arrived es lo + 1 := hclose t lo
    exact ⟨by omega, hup⟩
  have hwait (t : Fin max) : WaitsIn es s (arrived es t) t := by
    obtain ⟨p, hp⟩ := hs t
    exact ⟨⟨p, hp⟩, rfl, (asleep_inside h hp).symm⟩
  refine ⟨arrived es lo, by have := (hwait lo).2.2; omega, fun t => (hbase t).1,
    Finset.univ.filter (fun t => arrived es t = arrived es lo + 1), ?_, ?_, ?_, ?_⟩
  · exact Finset.card_pos.mpr ⟨hi', by simp [hlt]⟩
  · have hsub : Finset.univ.filter (fun t => arrived es t = arrived es lo + 1) ⊆ Finset.univ.erase lo := by
      intro t ht
      simp only [Finset.mem_filter, Finset.mem_univ, true_and] at ht
      exact Finset.mem_erase.mpr ⟨by rintro rfl; omega, Finset.mem_univ t⟩
    simpa [Finset.card_erase_of_mem] using Finset.card_le_card hsub
  · intro t ht
    simp only [Finset.mem_filter, Finset.mem_univ, true_and] at ht
    exact ht ▸ hwait t
  · intro t ht
    simp only [Finset.mem_filter, Finset.mem_univ, true_and] at ht
    have heq : arrived es t = arrived es lo := by have := hbase t; omega
    exact heq ▸ hwait t

/-- The program never lets a thread through early. What it can do, with any
number of threads, is to overtake its own sleepers and stop for good. -/
theorem fails_only_by_deadlock (max : Nat) (hmax : 2 ≤ max) :
    (∀ es s, Run (Step (thread max)) (initial max) es s → ∀ r t, r ≤ left es t → ∀ u, r ≤ arrived es u) ∧
    (∃ es s, Run (Quiet (thread max)) (initial max) es s ∧ AllAsleep s) ∧
    ∀ es s, Run (Step (thread max)) (initial max) es s → AllAsleep s →
      ∃ r, 1 ≤ r ∧ (∀ t, r ≤ arrived es t) ∧ ∃ S : Finset (Fin max), 1 ≤ S.card ∧ S.card ≤ max - 1 ∧
        (∀ t ∈ S, WaitsIn es s (r + 1) t) ∧ ∀ t ∉ S, WaitsIn es s r t := by
  refine ⟨fun es s h r t hr u => ?_, allAsleep_reachable hmax, fun es s h hs => stuck_rounds hmax h hs⟩
  obtain ⟨evs, hb⟩ := run_refines h
  exact hr.trans ((Barrier.run_sound hb).agree t u)

theorem fails_only_by_deadlock_two :
    (∃ es s, Run (Quiet (thread 2)) (initial 2) es s ∧ AllAsleep s) ∧
    ∀ es s, Run (Step (thread 2)) (initial 2) es s → AllAsleep s →
      ∃ r, 1 ≤ r ∧ (∀ t, r ≤ arrived es t) ∧ ∃ S : Finset (Fin 2), 1 ≤ S.card ∧ S.card ≤ 2 - 1 ∧
        (∀ t ∈ S, WaitsIn es s (r + 1) t) ∧ ∀ t ∉ S, WaitsIn es s r t :=
  (fails_only_by_deadlock 2 (by decide)).2

end UnixProg.Pthreads.BarrierDeadlock

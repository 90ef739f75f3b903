import UnixProg.Lib.Monitor

namespace UnixProg.Lib.Wakeup

open Transition ThreadSum Monitor

variable {T P M : Type}

/-- Waiting in loops on a condition, with broadcasts that are owed: a command
that makes a condition false leads to a point from which a broadcast is sure
to come before the mutex is given up. -/
structure Alarmed (prog : Prog T P M) (crit : P → Bool) (blocked owes : P → M → Prop) : Prop where
  wait {t p m p'} (hc : .wait p' ∈ prog t p m) : p' = p ∧ blocked p m
  lowers {t p m m' p' q} (hc : .run m' p' ∈ prog t p m) (h : blocked q m) (h' : ¬ blocked q m') : owes p' m'
  critical {p m} (h : owes p m) : crit p = true
  foreign {t p m m' p' q} (hp : crit p = false) (hc : .run m' p' ∈ prog t p m) (h : owes q m) : owes q m'
  pays {t p m c} (h : owes p m) (hc : c ∈ prog t p m) :
    (∃ p', c = .broadcast p') ∨ ∃ m' p', c = .run m' p' ∧ owes p' m'

def Alert (blocked owes : P → M → Prop) (s : State T P M) : Prop :=
  ∀ t q, s.ctl t = .asleep q → blocked q s.mem ∨ ∃ u p, s.ctl u = .running p ∧ owes p s.mem

variable [DecidableEq T] {prog : Prog T P M} {crit : P → Bool} {blocked owes : P → M → Prop}
  {s s' : State T P M} {e : Event T P}

omit [DecidableEq T] in
theorem start_alert (p₀ : T → P) (m₀ : M) : Alert blocked owes (start p₀ m₀) := by
  intro t q h
  simp [start] at h

omit [DecidableEq T] in
theorem Alert.frame {o o' : Option T} {c c' : T → Ctl P} {m : M} (ha : Alert blocked owes ⟨o, c, m⟩)
    (hsleep : ∀ u q, c' u = .asleep q → c u = .asleep q ∨ blocked q m)
    (hrun : ∀ v p, c v = .running p → owes p m → c' v = .running p) :
    Alert blocked owes ⟨o', c', m⟩ := by
  intro u q hu
  rcases hsleep u q hu with hu | hq
  · rcases ha u q hu with hq | ⟨v, p, hv, hp⟩
    · exact .inl hq
    · exact .inr ⟨v, p, hrun v p hv hp, hp⟩
  · exact .inl hq

theorem Step.alert (hal : Alarmed prog crit blocked owes) (hs : Locked prog crit s)
    (ha : Alert blocked owes s) (h : Step prog s e s') : Alert blocked owes s' := by
  have hkeep {c : T → Ctl P} {m : M} {t : T} {p : P} {cmd : Cmd P M} (x : Ctl P) (ht : c t = .running p)
      (hc : cmd ∈ prog t p m) (hb : ∀ p', cmd ≠ .broadcast p') (hr : ∀ m' p', cmd ≠ .run m' p')
      (v : T) (q : P) (hv : c v = .running q) (hq : owes q m) : Function.update c t x v = .running q := by
    by_cases hvt : v = t
    · subst hvt
      rw [ht] at hv
      cases hv
      rcases hal.pays hq hc with ⟨p', hp⟩ | ⟨m', p', hp, _⟩
      · exact absurd hp (hb p')
      · exact absurd hp (hr m' p')
    · rw [Function.update_of_ne hvt, hv]
  have hawake {c : T → Ctl P} (t : T) (p' : P) (u : T) (q : P)
      (hu : Function.update c t (.running p') u = .asleep q) : c u = .asleep q := by
    by_cases hut : u = t
    · subst hut; simp at hu
    · simpa only [Function.update_of_ne hut] using hu
  cases h with
  | run o c m t p m' p' ht hc =>
      intro u q hu
      have hself : Function.update c t (.running p') t = .running p' := Function.update_self ..
      rcases ha u q (hawake t p' u q hu) with hq | ⟨v, r, hv, hr⟩
      · by_cases hq' : blocked q m'
        · exact .inl hq'
        · exact .inr ⟨t, p', hself, hal.lowers hc hq hq'⟩
      · by_cases hvt : v = t
        · subst hvt
          have hrp : p = r := by simpa [ht] using hv
          subst hrp
          rcases hal.pays hr hc with ⟨_, hb⟩ | ⟨m₁, p₁, he, ho⟩
          · cases hb
          · cases he
            exact .inr ⟨v, p', hself, ho⟩
        · have hp : crit p = false := by
            by_contra hp
            exact hvt (hs.unique hv (hal.critical hr) ht (by simpa using hp))
          exact .inr ⟨v, r, by rw [← hv]; exact Function.update_of_ne hvt .., hal.foreign hp hc hr⟩
  | lock c m t p p' ht hc =>
      exact ha.frame (fun u q hu => .inl (hawake t p' u q hu)) (hkeep _ ht hc (by simp) (by simp))
  | unlock c m t p p' ht hc =>
      exact ha.frame (fun u q hu => .inl (hawake t p' u q hu)) (hkeep _ ht hc (by simp) (by simp))
  | wait c m t p p' ht hc =>
      refine ha.frame (fun u q hu => ?_) (hkeep _ ht hc (by simp) (by simp))
      by_cases hut : u = t
      · subst hut
        obtain ⟨rfl, hb⟩ := hal.wait hc
        have hq : p' = q := by simpa using hu
        exact .inr (hq ▸ hb)
      · simp only [Function.update_of_ne hut] at hu
        exact .inl hu
  | signal o c m t p p' W ht hc hW =>
      refine ha.frame (fun u q hu => .inl (wake_asleep.mp (hawake t p' u q hu)).2) (fun v q hv hq => ?_)
      exact hkeep (c := wake W c) _ (wake_running.mpr ht) hc (by simp) (by simp) v q (wake_running.mpr hv) hq
  | broadcast o c m t p p' ht hc =>
      intro u q hu
      have := (wake_asleep.mp (hawake t p' u q hu)).1
      cases this
  | resume c m t p ht =>
      refine ha.frame (fun u q hu => .inl (hawake t p u q hu)) (fun v q hv _ => ?_)
      have hvt : v ≠ t := by rintro rfl; rw [ht] at hv; cases hv
      rw [Function.update_of_ne hvt, hv]
  | spurious o c m t p ht =>
      refine ha.frame (fun u q hu => .inl ?_) (fun v q hv _ => ?_)
      · by_cases hut : u = t
        · subst hut; simp at hu
        · simpa only [Function.update_of_ne hut] using hu
      · have hvt : v ≠ t := by rintro rfl; rw [ht] at hv; cases hv
        rw [Function.update_of_ne hvt, hv]

/-- No broadcast is missed: while the mutex is free, every sleeper waits for a
condition that does not hold yet. -/
theorem run_blocked {p₀ : T → P} {m₀ : M} {es : List (Event T P)} (hd : Disciplined prog crit)
    (hal : Alarmed prog crit blocked owes) (h₀ : ∀ t, crit (p₀ t) = false)
    (h : Run (Step prog) (start p₀ m₀) es s) (ho : s.owner = none) {t : T} {q : P}
    (ht : s.ctl t = .asleep q) : blocked q s.mem := by
  have hinv : Locked prog crit s ∧ Alert blocked owes s :=
    Reachable.invariant (I := fun s => Locked prog crit s ∧ Alert blocked owes s)
      ⟨start_locked h₀ m₀, start_alert p₀ m₀⟩
      (fun _ _ _ hs hl => ⟨hl.locked hd hs.1, Step.alert hal hs.1 hs.2 hl⟩) h.reachable
  rcases hinv.2 t q ht with hq | ⟨u, p, hu, hp⟩
  · exact hq
  · have hu' := (hinv.1.owner u).mpr ⟨p, hu, hal.critical hp⟩
    rw [ho] at hu'
    cases hu'

def rank : Ctl P → Nat
  | .woken _ => 0
  | .running _ => 1
  | .asleep _ => 2

/-- Progress in the stages of the code counts more than everything that a
single broadcast undoes of the way from being woken to being asleep again. -/
def potential [Fintype T] (g : T → Nat) (s : State T P M) : Nat :=
  (2 * Fintype.card T + 1) * ∑ t, g t + ∑ t, rank (s.ctl t)

omit [DecidableEq T] in
theorem rank_le (x : Ctl P) : rank x ≤ 2 := by cases x <;> simp [rank]

omit [DecidableEq T] in
theorem potential_le [Fintype T] {g : T → Nat} {b : Nat} (h : ∀ t, g t ≤ b) (s : State T P M) :
    potential g s ≤ (2 * Fintype.card T + 1) * (Fintype.card T * b) + Fintype.card T * 2 :=
  Nat.add_le_add (Nat.mul_le_mul_left _ (sum_le_const h)) (sum_le_const (fun t => rank_le (s.ctl t)))

omit [DecidableEq T] in
theorem potential_lt_of_stage [Fintype T] {g g' : T → Nat} (hle : ∀ u, g u ≤ g' u) {t : T} (ht : g t < g' t) :
    potential g s < potential g' s' := by
  have hg : ∑ u, g u + 1 ≤ ∑ u, g' u :=
    Finset.sum_lt_sum (fun u _ => hle u) ⟨t, Finset.mem_univ t, ht⟩
  have hr : ∑ u, rank (s.ctl u) ≤ Fintype.card T * 2 := sum_le_const (fun u => rank_le _)
  have hm := Nat.mul_le_mul_left (2 * Fintype.card T + 1) hg
  simp only [potential]
  rw [Nat.mul_add] at hm
  omega

omit [DecidableEq T] in
theorem potential_lt_of_rank [Fintype T] {g g' : T → Nat} (hle : ∀ u, g u ≤ g' u)
    (hrank : ∀ u, rank (s.ctl u) ≤ rank (s'.ctl u)) {t : T} (ht : rank (s.ctl t) < rank (s'.ctl t)) :
    potential g s < potential g' s' :=
  Nat.add_lt_add_of_le_of_lt (Nat.mul_le_mul_left _ (Finset.sum_le_sum (fun u _ => hle u)))
    (Finset.sum_lt_sum (fun u _ => hrank u) ⟨t, Finset.mem_univ t, ht⟩)

/-- Every step but a spurious wakeup raises the potential when each command
other than a wait takes its thread to a later stage. -/
theorem Step.potential_lt [Fintype T] (h : Step prog s e s') (he : e.genuine = true) {g g' : T → Nat}
    (hle : ∀ u, g u ≤ g' u) (hexec : ∀ t p q, e = .exec t p → s'.ctl t = .running q → g t < g' t) :
    potential g s < potential g' s' := by
  have hup {c : T → Ctl P} {t : T} {x : Ctl P} (hx : rank (c t) ≤ rank x) (u : T) :
      rank (c u) ≤ rank (Function.update c t x u) := by
    by_cases hu : u = t
    · subst hu; simpa using hx
    · simp [hu]
  cases h with
  | run | lock | unlock | signal | broadcast =>
      exact potential_lt_of_stage hle (hexec _ _ _ rfl (Function.update_self ..))
  | wait c m t p p' ht hc =>
      exact potential_lt_of_rank hle (hup (by simp [ht, rank])) (t := t) (by simp [ht, rank])
  | resume c m t p ht =>
      exact potential_lt_of_rank hle (hup (by simp [ht, rank])) (t := t) (by simp [ht, rank])
  | spurious => cases he

end UnixProg.Lib.Wakeup

import UnixProg.Lib.MonitorRule

namespace UnixProg.CondVariables.QueueSimulation

open Lib Transition Monitor MonitorRule

inductive Thread
  | producer
  | consumer
  | main
deriving DecidableEq

/-- The statements of the three loops. Drawing a zero goes straight back to
the sleep at the top of the loop, which is not a step of its own. -/
inductive Pc
  | draw
  | lock
  | loop
  | orig
  | change
  | test
  | signal
  | print
  | unlock
deriving DecidableEq

/-- The shared counter, the locals of the two workers, and the bars that main
has printed as numbers of dots and of blanks. -/
structure Mem where
  inQueue : Int
  msgCreated : Int
  msgRemoved : Int
  origInQueue : Int
  bars : List (Nat × Nat)

def producer (capacity : Int) : Pc → Mem → List (Cmd Pc Mem)
  | .draw, m => [0, 1].map (fun r => .run { m with msgCreated := r } (if r = 0 then .draw else .lock))
  | .lock, _ => [.lock .loop]
  | .loop, m => if m.inQueue = capacity then [.wait .loop] else [.run m .change]
  | .change, m => [.run { m with inQueue := m.inQueue + m.msgCreated } .test]
  | .test, m => [.run m (if m.inQueue = 1 then .signal else .unlock)]
  | .signal, _ => [.signal .unlock]
  | .unlock, _ => [.unlock .draw]
  | .orig, _ | .print, _ => []

def consumer (capacity : Int) : Pc → Mem → List (Cmd Pc Mem)
  | .draw, m => [0, 1].map (fun r => .run { m with msgRemoved := r } (if r = 0 then .draw else .lock))
  | .lock, _ => [.lock .loop]
  | .loop, m => if m.inQueue = 0 then [.wait .loop] else [.run m .orig]
  | .orig, m => [.run { m with origInQueue := m.inQueue } .change]
  | .change, m => [.run { m with inQueue := m.inQueue - m.msgRemoved } .test]
  | .test, m => [.run m (if m.origInQueue = capacity then .signal else .unlock)]
  | .signal, _ => [.signal .unlock]
  | .unlock, _ => [.unlock .draw]
  | .print, _ => []

def main (capacity : Int) : Pc → Mem → List (Cmd Pc Mem)
  | .lock, _ => [.lock .print]
  | .print, m => [.run { m with bars := m.bars ++ [(m.inQueue.toNat, (capacity - m.inQueue).toNat)] } .unlock]
  | .unlock, _ => [.unlock .lock]
  | _, _ => []

def program (capacity : Int) : Prog Thread Pc Mem
  | .producer => producer capacity
  | .consumer => consumer capacity
  | .main => main capacity

def first : Thread → Pc
  | .producer | .consumer => .draw
  | .main => .lock

def initial : State Thread Pc Mem := start first ⟨0, 0, 0, 0, []⟩

def crit : Pc → Bool
  | .draw | .lock => false
  | _ => true

/-- A worker that goes for the mutex has drawn a one. -/
def Own : Thread → Pc → Mem → Prop
  | .producer, p, m => p = .draw ∨ m.msgCreated = 1
  | .consumer, p, m => p = .draw ∨ m.msgRemoved = 1
  | .main, _, _ => True

/-- What holds while the mutex is free: each worker sleeps only at its own end
of the queue. -/
structure Calm (capacity : Int) (S : Thread → Prop) (m : Mem) : Prop where
  nonneg : 0 ≤ m.inQueue
  le : m.inQueue ≤ capacity
  consumer (h : S .consumer) : m.inQueue = 0
  producer (h : S .producer) : m.inQueue = capacity
  main : ¬ S .main

/-- What the holder of the mutex knows. Between a change of the counter and
the signal that it calls for, the other worker may still be asleep. -/
def At (capacity : Int) : Thread → Pc → (Thread → Prop) → Mem → Prop
  | .producer, .change, S, m => Calm capacity S m ∧ m.inQueue < capacity
  | .producer, .test, S, m | .producer, .signal, S, m =>
      0 < m.inQueue ∧ m.inQueue ≤ capacity ∧ (S .consumer → m.inQueue = 1) ∧ ¬ S .producer ∧ ¬ S .main
  | .consumer, .orig, S, m => Calm capacity S m ∧ 0 < m.inQueue
  | .consumer, .change, S, m => Calm capacity S m ∧ 0 < m.inQueue ∧ m.origInQueue = m.inQueue
  | .consumer, .test, S, m | .consumer, .signal, S, m =>
      0 ≤ m.inQueue ∧ m.inQueue < capacity ∧ m.origInQueue = m.inQueue + 1 ∧
        (S .producer → m.origInQueue = capacity) ∧ ¬ S .consumer ∧ ¬ S .main
  | _, _, S, m => Calm capacity S m

variable {capacity : Int} {s s' : State Thread Pc Mem} {es : List (Event Thread Pc)}

/-- The commands of the three loops, one after the other. -/
inductive Does (capacity : Int) : Thread → Pc → Mem → Cmd Pc Mem → Prop
  | idle (m) : Does capacity .producer .draw m (.run { m with msgCreated := 0 } .draw)
  | create (m) : Does capacity .producer .draw m (.run { m with msgCreated := 1 } .lock)
  | rest (m) : Does capacity .consumer .draw m (.run { m with msgRemoved := 0 } .draw)
  | fetch (m) : Does capacity .consumer .draw m (.run { m with msgRemoved := 1 } .lock)
  | lock (t) (m) (ht : t ≠ .main) : Does capacity t .lock m (.lock .loop)
  | lockMain (m) : Does capacity .main .lock m (.lock .print)
  | full (m) (h : m.inQueue = capacity) : Does capacity .producer .loop m (.wait .loop)
  | room (m) (h : m.inQueue ≠ capacity) : Does capacity .producer .loop m (.run m .change)
  | empty (m) (h : m.inQueue = 0) : Does capacity .consumer .loop m (.wait .loop)
  | filled (m) (h : m.inQueue ≠ 0) : Does capacity .consumer .loop m (.run m .orig)
  | orig (m) : Does capacity .consumer .orig m (.run { m with origInQueue := m.inQueue } .change)
  | insert (m) : Does capacity .producer .change m (.run { m with inQueue := m.inQueue + m.msgCreated } .test)
  | remove (m) : Does capacity .consumer .change m (.run { m with inQueue := m.inQueue - m.msgRemoved } .test)
  | testInsert (m) : Does capacity .producer .test m (.run m (if m.inQueue = 1 then .signal else .unlock))
  | testRemove (m) : Does capacity .consumer .test m (.run m (if m.origInQueue = capacity then .signal else .unlock))
  | signal (t) (m) (ht : t ≠ .main) : Does capacity t .signal m (.signal .unlock)
  | unlock (t) (m) (ht : t ≠ .main) : Does capacity t .unlock m (.unlock .draw)
  | print (m) : Does capacity .main .print m
      (.run { m with bars := m.bars ++ [(m.inQueue.toNat, (capacity - m.inQueue).toNat)] } .unlock)
  | unlockMain (m) : Does capacity .main .unlock m (.unlock .lock)

variable {t u : Thread} {p p' : Pc} {m m' : Mem} {c : Cmd Pc Mem}

theorem producer_does (hc : c ∈ producer capacity p m) : Does capacity .producer p m c := by
  cases p with
  | draw =>
      obtain rfl | rfl : c = _ ∨ c = _ := by simpa [producer] using hc
      · exact .idle m
      · exact .create m
  | loop =>
      simp only [producer] at hc
      split at hc <;> obtain rfl := List.mem_singleton.mp hc
      · exact .full m ‹_›
      · exact .room m ‹_›
  | lock => obtain rfl := List.mem_singleton.mp hc; exact .lock _ m nofun
  | change => obtain rfl := List.mem_singleton.mp hc; exact .insert m
  | test => obtain rfl := List.mem_singleton.mp hc; exact .testInsert m
  | signal => obtain rfl := List.mem_singleton.mp hc; exact .signal _ m nofun
  | unlock => obtain rfl := List.mem_singleton.mp hc; exact .unlock _ m nofun
  | orig | print => cases hc

theorem consumer_does (hc : c ∈ consumer capacity p m) : Does capacity .consumer p m c := by
  cases p with
  | draw =>
      obtain rfl | rfl : c = _ ∨ c = _ := by simpa [consumer] using hc
      · exact .rest m
      · exact .fetch m
  | loop =>
      simp only [consumer] at hc
      split at hc <;> obtain rfl := List.mem_singleton.mp hc
      · exact .empty m ‹_›
      · exact .filled m ‹_›
  | lock => obtain rfl := List.mem_singleton.mp hc; exact .lock _ m nofun
  | orig => obtain rfl := List.mem_singleton.mp hc; exact .orig m
  | change => obtain rfl := List.mem_singleton.mp hc; exact .remove m
  | test => obtain rfl := List.mem_singleton.mp hc; exact .testRemove m
  | signal => obtain rfl := List.mem_singleton.mp hc; exact .signal _ m nofun
  | unlock => obtain rfl := List.mem_singleton.mp hc; exact .unlock _ m nofun
  | print => cases hc

theorem main_does (hc : c ∈ main capacity p m) : Does capacity .main p m c := by
  cases p with
  | lock => obtain rfl := List.mem_singleton.mp hc; exact .lockMain m
  | print => obtain rfl := List.mem_singleton.mp hc; exact .print m
  | unlock => obtain rfl := List.mem_singleton.mp hc; exact .unlockMain m
  | draw | loop | orig | change | test | signal => cases hc

theorem does (hc : c ∈ program capacity t p m) : Does capacity t p m c := by
  cases t with
  | producer => exact producer_does hc
  | consumer => exact consumer_does hc
  | main => exact main_does hc

theorem program_disciplined (capacity : Int) : Disciplined (program capacity) crit := by
  intro t p m c hc
  cases does hc with
  | testInsert | testRemove => simp only [Cmd.Keeps]; split <;> rfl
  | lock | lockMain | full | empty | unlock | unlockMain => exact ⟨rfl, rfl⟩
  | _ => rfl

theorem lock_mem (hc : .lock p' ∈ program capacity t p m) :
    p = .lock ∧ (t = .main ∧ p' = .print ∨ t ≠ .main ∧ p' = .loop) := by
  cases does hc with
  | lock _ _ ht => exact ⟨rfl, .inr ⟨ht, rfl⟩⟩
  | lockMain => exact ⟨rfl, .inl ⟨rfl, rfl⟩⟩

theorem wait_mem (hc : .wait p' ∈ program capacity t p m) :
    p = .loop ∧ p' = .loop ∧ (t = .producer ∧ m.inQueue = capacity ∨ t = .consumer ∧ m.inQueue = 0) := by
  cases does hc with
  | full _ h => exact ⟨rfl, rfl, .inl ⟨rfl, h⟩⟩
  | empty _ h => exact ⟨rfl, rfl, .inr ⟨rfl, h⟩⟩

theorem unlock_mem (hc : .unlock p' ∈ program capacity t p m) : p = .unlock := by
  cases does hc with
  | unlock | unlockMain => rfl

theorem signal_mem (hc : .signal p' ∈ program capacity t p m) : p = .signal ∧ p' = .unlock ∧ t ≠ .main := by
  cases does hc with
  | signal _ _ ht => exact ⟨rfl, rfl, ht⟩

theorem broadcast_mem : .broadcast p' ∉ program capacity t p m := by
  intro hc
  cases does hc

theorem draw_mem (hp : crit p = false) (hc : .run m' p' ∈ program capacity t p m) :
    m'.inQueue = m.inQueue ∧ m'.origInQueue = m.origInQueue := by
  cases does hc with
  | idle | create | rest | fetch => exact ⟨rfl, rfl⟩
  | _ => cases hp

theorem Own.goto (h : Own t p m) (hp : p ≠ .draw) (p' : Pc) : Own t p' m := by
  cases t with
  | producer | consumer => exact .inr (h.resolve_left hp)
  | main => trivial

theorem Does.own (hc : Does capacity t p m c) (ho : Own t p m) : Own t c.next (c.mem m) := by
  cases hc with
  | idle | rest => exact .inl rfl
  | create | fetch => exact .inr rfl
  | lockMain | print | unlockMain => trivial
  | _ => exact ho.goto nofun _

theorem Does.own_other (hc : Does capacity t p m c) (hu : u ≠ t) {q : Pc} (ho : Own u q m) : Own u q (c.mem m) := by
  cases hc with
  | idle | create =>
      cases u with
      | producer => exact absurd rfl hu
      | consumer | main => exact ho
  | rest | fetch =>
      cases u with
      | consumer => exact absurd rfl hu
      | producer | main => exact ho
  | orig | insert | remove | print => cases u <;> exact ho
  | _ => exact ho

theorem own_step (ho : ∀ t, Own t (s.pc t) s.mem) {e : Event Thread Pc} (h : Step (program capacity) s e s') (t : Thread) :
    Own t (s'.pc t) s'.mem := by
  rcases h.view with ⟨_, hpc, hm⟩ | ⟨u, p, c, hu, hc, rfl, hpc, hm, _⟩
  · rw [hpc, hm]
    exact ho t
  · have hpu : s.pc u = p := by simp [State.pc, hu, Ctl.pc]
    by_cases ht : t = u
    · subst ht
      rw [hpc, Function.update_self, hm]
      exact (does hc).own (hpu ▸ ho t)
    · rw [hpc, Function.update_of_ne ht, hm]
      exact (does hc).own_other ht (ho t)

theorem Calm.congr {S : Thread → Prop} {m m' : Mem} (h : Calm capacity S m) (hi : m'.inQueue = m.inQueue) :
    Calm capacity S m' :=
  ⟨hi ▸ h.nonneg, hi ▸ h.le, hi ▸ h.consumer, hi ▸ h.producer, h.main⟩

theorem Calm.mono {S S' : Thread → Prop} {m : Mem} (h : Calm capacity S m) (hS : ∀ t, S' t → S t) :
    Calm capacity S' m :=
  ⟨h.nonneg, h.le, fun hc => h.consumer (hS _ hc), fun hp => h.producer (hS _ hp), fun hm => h.main (hS _ hm)⟩

theorem At.congr {S : Thread → Prop} {m m' : Mem} {t : Thread} {p : Pc} (h : At capacity t p S m)
    (hi : m'.inQueue = m.inQueue) (ho : m'.origInQueue = m.origInQueue) : At capacity t p S m' := by
  cases t <;> cases p <;> simp only [At, hi, ho] at h ⊢ <;>
    first
    | exact h
    | exact h.congr hi
    | exact ⟨h.1.congr hi, h.2⟩

theorem At.mono {S S' : Thread → Prop} {m : Mem} {t : Thread} {p : Pc} (h : At capacity t p S m)
    (hS : ∀ t, S' t → S t) : At capacity t p S' m := by
  cases t <;> cases p <;> simp only [At] at h ⊢ <;>
    first
    | exact h.mono hS
    | exact ⟨h.1.mono hS, h.2⟩
    | exact ⟨h.1, h.2.1, fun hc => h.2.2.1 (hS _ hc), fun hp => h.2.2.2.1 (hS _ hp), fun hm => h.2.2.2.2 (hS _ hm)⟩
    | exact ⟨h.1, h.2.1, h.2.2.1, fun hp => h.2.2.2.1 (hS _ hp), fun hc => h.2.2.2.2.1 (hS _ hc),
        fun hm => h.2.2.2.2.2 (hS _ hm)⟩

theorem producer_inner {S : Thread → Prop} {p p' : Pc} {m m' : Mem} (hp : crit p = true)
    (hc : .run m' p' ∈ producer capacity p m) (ho : Own .producer p m) (hS : ¬ S .producer)
    (h : At capacity .producer p S m) : At capacity .producer p' S m' := by
  cases p with
  | draw | lock => cases hp
  | signal | unlock | orig | print => simp [producer] at hc
  | loop =>
      by_cases hfull : m.inQueue = capacity
      · simp [producer, hfull] at hc
      · simp only [producer, hfull, if_false, List.mem_singleton, Cmd.run.injEq] at hc
        obtain ⟨rfl, rfl⟩ := hc
        exact ⟨h, lt_of_le_of_ne h.le hfull⟩
  | change =>
      simp only [producer, List.mem_singleton, Cmd.run.injEq] at hc
      obtain ⟨rfl, rfl⟩ := hc
      have hone : m.msgCreated = 1 := ho.resolve_left (by simp)
      have hnonneg := h.1.nonneg
      have hlt := h.2
      simp only [At, hone]
      refine ⟨by omega, by omega, fun hcons => ?_, hS, h.1.main⟩
      rw [h.1.consumer hcons]
      rfl
  | test =>
      simp only [producer, List.mem_singleton, Cmd.run.injEq] at hc
      obtain ⟨rfl, rfl⟩ := hc
      by_cases hone : m'.inQueue = 1
      · rw [if_pos hone]
        exact h
      · rw [if_neg hone]
        exact ⟨h.1.le, h.2.1, fun hcons => absurd (h.2.2.1 hcons) hone, fun hprod => absurd hprod hS, h.2.2.2.2⟩

theorem consumer_inner {S : Thread → Prop} {p p' : Pc} {m m' : Mem} (hp : crit p = true)
    (hc : .run m' p' ∈ consumer capacity p m) (ho : Own .consumer p m) (hS : ¬ S .consumer)
    (h : At capacity .consumer p S m) : At capacity .consumer p' S m' := by
  cases p with
  | draw | lock => cases hp
  | signal | unlock | print => simp [consumer] at hc
  | loop =>
      by_cases hempty : m.inQueue = 0
      · simp [consumer, hempty] at hc
      · simp only [consumer, hempty, if_false, List.mem_singleton, Cmd.run.injEq] at hc
        obtain ⟨rfl, rfl⟩ := hc
        exact ⟨h, lt_of_le_of_ne h.nonneg (Ne.symm hempty)⟩
  | orig =>
      simp only [consumer, List.mem_singleton, Cmd.run.injEq] at hc
      obtain ⟨rfl, rfl⟩ := hc
      exact ⟨h.1.congr rfl, h.2, rfl⟩
  | change =>
      simp only [consumer, List.mem_singleton, Cmd.run.injEq] at hc
      obtain ⟨rfl, rfl⟩ := hc
      have hone : m.msgRemoved = 1 := ho.resolve_left (by simp)
      have hle := h.1.le
      obtain ⟨hcalm, hpos, horig⟩ := h
      simp only [At, hone]
      refine ⟨by omega, by omega, by omega, fun hprod => ?_, hS, hcalm.main⟩
      rw [horig, hcalm.producer hprod]
  | test =>
      simp only [consumer, List.mem_singleton, Cmd.run.injEq] at hc
      obtain ⟨rfl, rfl⟩ := hc
      by_cases hfull : m'.origInQueue = capacity
      · rw [if_pos hfull]
        exact h
      · rw [if_neg hfull]
        exact ⟨h.1, h.2.1.le, fun hcons => absurd hcons hS, fun hprod => absurd (h.2.2.2.1 hprod) hfull,
          h.2.2.2.2.2⟩

theorem main_inner {S : Thread → Prop} {p p' : Pc} {m m' : Mem} (hp : crit p = true)
    (hc : .run m' p' ∈ main capacity p m) (h : At capacity .main p S m) : At capacity .main p' S m' := by
  cases p with
  | draw | lock => cases hp
  | signal | unlock | orig | loop | change | test => simp [main] at hc
  | print =>
      simp only [main, List.mem_singleton, Cmd.run.injEq] at hc
      obtain ⟨rfl, rfl⟩ := hc
      exact Calm.congr h rfl

theorem At.signalled {S S' : Thread → Prop} {t : Thread} {m : Mem} (hmain : t ≠ .main)
    (h : At capacity t .signal S m) (hS : ∀ u, S' u → S u) (hw : (∃ u, S u) → ∃ u, S u ∧ ¬ S' u) :
    Calm capacity S' m := by
  -- the other worker is the only one that can sleep now, so it is the one that is woken
  cases t with
  | producer =>
      obtain ⟨hpos, hle, _, hprod, hmain⟩ := h
      refine ⟨hpos.le, hle, fun hcons => ?_, fun hp => absurd (hS _ hp) hprod, fun hm => hmain (hS _ hm)⟩
      obtain ⟨u, hu, hu'⟩ := hw ⟨_, hS _ hcons⟩
      cases u with
      | producer => exact absurd hu hprod
      | consumer => exact absurd hcons hu'
      | main => exact absurd hu hmain
  | consumer =>
      obtain ⟨hnonneg, hlt, _, _, hcons, hmain⟩ := h
      refine ⟨hnonneg, hlt.le, fun hc => absurd (hS _ hc) hcons, fun hprod => ?_, fun hm => hmain (hS _ hm)⟩
      obtain ⟨u, hu, hu'⟩ := hw ⟨_, hS _ hprod⟩
      cases u with
      | producer => exact absurd hprod hu'
      | consumer => exact absurd hu hcons
      | main => exact absurd hu hmain
  | main => exact absurd rfl hmain

theorem program_rule (capacity : Int) : Rule (program capacity) crit Own (Calm capacity) (At capacity) := by
  constructor
  · exact fun h hS => h.mono hS
  · exact fun _ h hS => h.mono hS
  · intro t p p' S m hc _ h
    obtain ⟨_, ⟨rfl, rfl⟩ | ⟨hne, rfl⟩⟩ := lock_mem hc
    · exact h
    · cases t <;> exact h
  · intro t p q S m m' hc _ h
    obtain ⟨_, rfl, _⟩ := wait_mem hc
    cases t <;> exact h
  · intro t p p' S m m' hp hc ho hS h
    cases t with
    | producer => exact producer_inner hp hc ho hS h
    | consumer => exact consumer_inner hp hc ho hS h
    | main => exact main_inner hp hc h
  · exact fun hp hc h => h.congr (draw_mem hp hc).1
  · exact fun hp hc _ _ h => h.congr (draw_mem hp hc).1 (draw_mem hp hc).2
  · rintro t p p' m (hc | hc)
    · rw [(signal_mem hc).1]
      rfl
    · exact absurd hc broadcast_mem
  · intro t p p' S S' m hc h hS _ hw
    obtain ⟨rfl, rfl, hmain⟩ := signal_mem hc
    have hcalm := h.signalled hmain hS hw
    cases t <;> exact hcalm
  · exact fun hc => absurd hc broadcast_mem
  · intro t p p' S m hc h
    rw [unlock_mem hc] at h
    cases t <;> exact h
  · intro t p p' S m hc h _
    obtain ⟨rfl, _, ⟨rfl, hfull⟩ | ⟨rfl, hempty⟩⟩ := wait_mem hc
    · refine ⟨h.nonneg, h.le, ?_, fun _ => hfull, ?_⟩
      · rintro (hc | hc)
        · exact h.consumer hc
        · cases hc
      · rintro (hm | hm)
        · exact h.main hm
        · cases hm
    · refine ⟨h.nonneg, h.le, fun _ => hempty, ?_, ?_⟩
      · rintro (hp | hp)
        · exact h.producer hp
        · cases hp
      · rintro (hm | hm)
        · exact h.main hm
        · cases hm

theorem first_crit (t : Thread) : crit (first t) = false := by cases t <;> rfl

theorem run_own (h : Run (Step (program capacity)) initial es s) (t : Thread) : Own t (s.pc t) s.mem := by
  refine h.invariant (I := fun _ s => ∀ t, Own t (s.pc t) s.mem) (fun t => ?_) (fun _ _ _ _ _ ho hl => own_step ho hl) t
  cases t
  · exact .inl rfl
  · exact .inl rfl
  · trivial

theorem run_queue (hcap : 0 ≤ capacity) (h : Run (Step (program capacity)) initial es s) :
    Holds crit (Calm capacity) (At capacity) s :=
  run_holds (program_disciplined capacity) (program_rule capacity) first_crit
    ⟨le_rfl, hcap, False.elim, False.elim, not_false⟩
    (fun _ _ hr => run_own hr) h

def Asleep (s : State Thread Pc Mem) (t : Thread) : Prop := ∃ p, s.ctl t = .asleep p

/-- With signals on the two edges only, nobody sleeps without need while the
mutex is free, and a signal that is left out would have woken nobody. -/
theorem no_lost_wakeup (capacity : Int) (hcap : 1 ≤ capacity) (es : List (Event Thread Pc)) (s : State Thread Pc Mem)
    (h : Run (Step (program capacity)) initial es s) :
    (s.owner = none →
      (Asleep s .consumer → s.mem.inQueue = 0) ∧ (Asleep s .producer → s.mem.inQueue = capacity) ∧
      ¬ (Asleep s .consumer ∧ Asleep s .producer) ∧ 0 ≤ s.mem.inQueue ∧ s.mem.inQueue ≤ capacity) ∧
    (s.ctl .producer = .running .test → s.mem.inQueue ≠ 1 → ∀ t, ¬ Asleep s t) ∧
    (s.ctl .consumer = .running .test → s.mem.origInQueue ≠ capacity → ∀ t, ¬ Asleep s t) := by
  have hs := run_queue (by omega) h
  refine ⟨fun hfree => ?_, fun ht hskip t => ?_, fun ht hskip t => ?_⟩
  · have hcalm := hs.calm hfree
    refine ⟨hcalm.consumer, hcalm.producer, ?_, hcalm.nonneg, hcalm.le⟩
    rintro ⟨hc, hp⟩
    have hzero := hcalm.consumer hc
    have hfull := hcalm.producer hp
    omega
  · obtain ⟨_, _, hcons, hprod, hmain⟩ := hs.holder .producer .test ht rfl
    cases t with
    | producer => exact hprod
    | consumer => exact fun hc => hskip (hcons hc)
    | main => exact hmain
  · obtain ⟨_, _, _, hprod, hcons, hmain⟩ := hs.holder .consumer .test ht rfl
    cases t with
    | producer => exact fun hp => hskip (hprod hp)
    | consumer => exact hcons
    | main => exact hmain

theorem no_lost_wakeup_one : ∃ es s, Run (Step (program 1)) initial es s ∧ s.owner = none ∧ Asleep s .consumer ∧
    (s.owner = none →
      (Asleep s .consumer → s.mem.inQueue = 0) ∧ (Asleep s .producer → s.mem.inQueue = 1) ∧
      ¬ (Asleep s .consumer ∧ Asleep s .producer) ∧ 0 ≤ s.mem.inQueue ∧ s.mem.inQueue ≤ 1) ∧
    (s.ctl .producer = .running .test → s.mem.inQueue ≠ 1 → ∀ t, ¬ Asleep s t) ∧
    (s.ctl .consumer = .running .test → s.mem.origInQueue ≠ 1 → ∀ t, ¬ Asleep s t) := by
  have hdraw := (Run.nil : Run (Step (program 1)) initial [] initial).snoc (Step.run none _ _ Thread.consumer Pc.draw ⟨0, 0, 1, 0, []⟩ Pc.lock rfl
    (by simp [program, consumer]))
  have hlock := hdraw.snoc (Step.lock _ _ Thread.consumer Pc.lock Pc.loop (Function.update_self ..)
    (by simp [program, consumer]))
  have hrun := hlock.snoc (Step.wait _ _ Thread.consumer Pc.loop Pc.loop (Function.update_self ..)
    (by simp [program, consumer]))
  exact ⟨_, _, hrun, rfl, ⟨.loop, by simp⟩, no_lost_wakeup 1 le_rfl _ _ hrun⟩

end UnixProg.CondVariables.QueueSimulation

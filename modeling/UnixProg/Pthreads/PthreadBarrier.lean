import UnixProg.Lib.BarrierObject

namespace UnixProg.Pthreads.PthreadBarrier

open Lib Transition BarrierObject ThreadSum

def NUM_THREADS : Nat := 8

def NUM_STAGES : Nat := 3

abbrev Thread := Fin NUM_THREADS

instance : NeZero NUM_THREADS := ⟨by decide⟩

/-- The statements of `worker()` with `j`, `cnt`, `i` and `ret`. In `inWait`
the call of `pthread_barrier_wait()` has not returned yet. -/
inductive Pc
  | absent
  | head (j : Nat)
  | pick (j : Nat)
  | announce (j cnt : Nat)
  | loop (j cnt i : Nat)
  | reach (j : Nat)
  | wait (j : Nat)
  | inWait (j : Nat)
  | after (j : Nat) (last : Bool)
  | done
deriving DecidableEq

inductive MainPc
  | init
  | create (i : Nat)
  | join (i : Nat)
  | destroy
  | done
deriving DecidableEq

inductive Line
  | willLoop (j : Nat) (id : Thread) (cnt : Nat)
  | looping (j : Nat) (id : Thread) (i : Nat)
  | reaching (j : Nat) (id : Thread)
  | after (j : Nat) (id : Thread) (last : Bool)
deriving DecidableEq

/-- The barrier is there between its initialisation and its destruction. -/
structure State where
  main : MainPc
  barrier : Option (Bar Thread NUM_THREADS)
  pc : Thread → Pc
  out : List Line

/-- What `random()` answers and which thread the barrier tells that it is the
last one are not said, so that they are part of the event. -/
inductive Event
  | main
  | worker (t : Thread)
  | random (t : Thread) (cnt : Fin 5)
  | wait (t serial : Thread)

def State.goto (s : State) (t : Thread) (p : Pc) : State := { s with pc := Function.update s.pc t p }

def State.print (s : State) (t : Thread) (l : Line) (p : Pc) : State :=
  { s with pc := Function.update s.pc t p, out := s.out ++ [l] }

def mainStep (s : State) : Option State :=
  match s.main with
  | .init => some { s with barrier := some (.init (by decide)), main := .create 0 }
  | .create i =>
      if h : i < NUM_THREADS then some { s.goto ⟨i, h⟩ (.head 0) with main := .create (i + 1) }
      else some { s with main := .join 0 }
  | .join i =>
      if h : i < NUM_THREADS then if s.pc ⟨i, h⟩ = .done then some { s with main := .join (i + 1) } else none
      else some { s with main := .destroy }
  | .destroy => some { s with barrier := none, main := .done }
  | .done => none

def worker (s : State) (t : Thread) : Option State :=
  match s.pc t with
  | .head j => some (s.goto t (if j < NUM_STAGES then .pick j else .done))
  | .announce j cnt => some (s.print t (.willLoop j t cnt) (.loop j cnt 0))
  | .loop j cnt i =>
      if i < cnt then some (s.print t (.looping j t i) (.loop j cnt (i + 1))) else some (s.goto t (.reach j))
  | .reach j => some (s.print t (.reaching j t) (.wait j))
  | .inWait j => s.barrier.bind (fun b => (b.leave t).map (fun r => { s.goto t (.after j r.1) with barrier := some r.2 }))
  | .after j last => some (s.print t (.after j t last) (.head (j + 1)))
  | .absent | .pick _ | .wait _ | .done => none

def next (s : State) : Event → Option State
  | .main => mainStep s
  | .worker t => worker s t
  | .random t cnt => match s.pc t with
    | .pick j => some (s.goto t (.announce j cnt))
    | _ => none
  | .wait t serial => match s.pc t with
    | .wait j => s.barrier.bind (fun b => (b.wait serial t).map (fun b => { s.goto t (.inWait j) with barrier := some b }))
    | _ => none

def initial : State := ⟨.init, none, fun _ => .absent, []⟩

/-- The number of stages that a thread has announced to be behind it. -/
def Pc.stage : Pc → Nat
  | .absent => 0
  | .head j | .pick j | .announce j _ | .loop j _ _ | .reach j | .wait j | .inWait j | .after j _ => j
  | .done => NUM_STAGES

def Pc.reached (p : Pc) : Bool := p matches .wait _ | .inWait _ | .after _ _

def Pc.called (p : Pc) : Bool := p matches .inWait _ | .after _ _

def Pc.returned (p : Pc) : Bool := p matches .after _ _

def Pc.inside (p : Pc) : Bool := p matches .inWait _

def Pc.InRange (p : Pc) : Prop :=
  match p with
  | .head j => j ≤ NUM_STAGES
  | p => p = .absent ∨ p = .done ∨ p.stage < NUM_STAGES

/-- How often each thread has called the barrier, and how often it has returned. -/
def rounds (s : State) : Barrier.Rounds Thread :=
  ⟨fun t => (s.pc t).stage + (s.pc t).called.toNat, fun t => (s.pc t).stage + (s.pc t).returned.toNat⟩

/-- The statements that leave the barrier alone, with the line that they print. -/
inductive Local (t : Thread) : Pc → Pc → Option Line → Prop
  | head {j : Nat} (h : j < NUM_STAGES) : Local t (.head j) (.pick j) none
  | finish {j : Nat} (h : ¬ j < NUM_STAGES) : Local t (.head j) .done none
  | pick {j : Nat} {cnt : Fin 5} : Local t (.pick j) (.announce j cnt) none
  | announce {j cnt : Nat} : Local t (.announce j cnt) (.loop j cnt 0) (some (.willLoop j t cnt))
  | loop {j cnt i : Nat} (h : i < cnt) : Local t (.loop j cnt i) (.loop j cnt (i + 1)) (some (.looping j t i))
  | exit {j cnt i : Nat} (h : ¬ i < cnt) : Local t (.loop j cnt i) (.reach j) none
  | reach {j : Nat} : Local t (.reach j) (.wait j) (some (.reaching j t))
  | after {j : Nat} {last : Bool} : Local t (.after j last) (.head (j + 1)) (some (.after j t last))

inductive Does (s : State) : State → Prop
  | init (hm : s.main = .init) : Does s { s with barrier := some (.init (by decide)), main := .create 0 }
  | create (i : Nat) (hm : s.main = .create i) (hi : i < NUM_THREADS) :
      Does s { s.goto ⟨i, hi⟩ (.head 0) with main := .create (i + 1) }
  | created (i : Nat) (hm : s.main = .create i) (hi : ¬ i < NUM_THREADS) : Does s { s with main := .join 0 }
  | join (i : Nat) (hm : s.main = .join i) (hi : i < NUM_THREADS) (hd : s.pc ⟨i, hi⟩ = .done) :
      Does s { s with main := .join (i + 1) }
  | joined (i : Nat) (hm : s.main = .join i) (hi : ¬ i < NUM_THREADS) : Does s { s with main := .destroy }
  | destroy (hm : s.main = .destroy) : Does s { s with barrier := none, main := .done }
  | moves (t : Thread) (p q : Pc) (l : Option Line) (hp : s.pc t = p) (h : Local t p q l) :
      Does s { s with pc := Function.update s.pc t q, out := s.out ++ l.toList }
  | waits (t : Thread) (j : Nat) (serial : Thread) (b b' : Bar Thread NUM_THREADS) (hp : s.pc t = .wait j)
      (hb : s.barrier = some b) (h : b.wait serial t = some b') : Does s { s.goto t (.inWait j) with barrier := some b' }
  | leaves (t : Thread) (j : Nat) (last : Bool) (b b' : Bar Thread NUM_THREADS) (hp : s.pc t = .inWait j)
      (hb : s.barrier = some b) (h : b.leave t = some (last, b')) :
      Does s { s.goto t (.after j last) with barrier := some b' }

variable {s s' : State} {e : Event} {es : List Event} {t : Thread} {p q : Pc} {l : Option Line} {g : Nat}

theorem Does.silent (hp : s.pc t = p) (h : Local t p q none) : Does s (s.goto t q) := by
  have hmoves := Does.moves t p q none hp h
  rw [Option.toList_none, List.append_nil] at hmoves
  exact hmoves

theorem worker_does (h : worker s t = some s') : Does s s' := by
  rw [worker] at h
  cases hp : s.pc t with
  | head j =>
      rw [hp] at h
      cases h
      split
      · exact .silent hp (.head ‹_›)
      · exact .silent hp (.finish ‹_›)
  | announce j cnt =>
      rw [hp] at h
      cases h
      exact .moves t _ _ _ hp .announce
  | loop j cnt i =>
      rw [hp] at h
      simp only at h
      split at h <;> cases h
      · exact .moves t _ _ _ hp (.loop ‹_›)
      · exact .silent hp (.exit ‹_›)
  | reach j =>
      rw [hp] at h
      cases h
      exact .moves t _ _ _ hp .reach
  | inWait j =>
      rw [hp] at h
      obtain ⟨b, hb, h⟩ := Option.bind_eq_some_iff.mp h
      obtain ⟨⟨last, b'⟩, hleave, heq⟩ := Option.map_eq_some_iff.mp h
      cases heq
      exact .leaves t j last b b' hp hb hleave
  | after j last =>
      rw [hp] at h
      cases h
      exact .moves t _ _ _ hp .after
  | absent | pick j | wait j | done =>
      rw [hp] at h
      cases h

theorem main_does (h : mainStep s = some s') : Does s s' := by
  rw [mainStep] at h
  cases hm : s.main with
  | init =>
      rw [hm] at h
      cases h
      exact .init hm
  | create i =>
      rw [hm] at h
      simp only at h
      split at h <;> cases h
      · exact .create i hm ‹_›
      · exact .created i hm ‹_›
  | join i =>
      rw [hm] at h
      simp only at h
      split at h
      · obtain ⟨hd, heq⟩ := Option.ite_none_right_eq_some.mp h
        cases heq
        exact .join i hm ‹_› hd
      · cases h
        exact .joined i hm ‹_›
  | destroy =>
      rw [hm] at h
      cases h
      exact .destroy hm
  | done =>
      rw [hm] at h
      cases h

theorem next_does (h : next s e = some s') : Does s s' := by
  cases e with
  | main => exact main_does h
  | worker t => exact worker_does h
  | random t cnt =>
      simp only [next] at h
      cases hp : s.pc t with
      | pick j =>
          rw [hp] at h
          cases h
          exact .silent hp .pick
      | _ =>
          rw [hp] at h
          cases h
  | wait t serial =>
      simp only [next] at h
      cases hp : s.pc t with
      | wait j =>
          rw [hp] at h
          obtain ⟨b, hb, h⟩ := Option.bind_eq_some_iff.mp h
          obtain ⟨b', hwait, heq⟩ := Option.map_eq_some_iff.mp h
          cases heq
          exact .waits t j serial b b' hp hb hwait
      | _ =>
          rw [hp] at h
          cases h

/-- What `main()` knows of the barrier and of its threads. -/
def AtMain (g : Nat) (s : State) : Prop :=
  match s.main with
  | .init => s.barrier = none ∧ (∀ t, s.pc t = .absent) ∧ g = 0
  | .create i => s.barrier ≠ none ∧ ∀ t : Thread, s.pc t = .absent ↔ i ≤ t.val
  | .join i => s.barrier ≠ none ∧ ∀ t : Thread, s.pc t ≠ .absent ∧ (t.val < i → s.pc t = .done)
  | .destroy => s.barrier ≠ none ∧ ∀ t, s.pc t = .done
  | .done => s.barrier = none ∧ (∀ t, s.pc t = .done) ∧ g = NUM_STAGES

def Line.isLast (j : Nat) : Line → Bool
  | .after k _ last => decide (k = j) && last
  | _ => false

/-- The line for the last thread that a thread in the barrier has still to print. -/
def due (b : Option (Bar Thread NUM_THREADS)) (j : Nat) (t : Thread) : Pc → Nat
  | .after k last => if k = j ∧ last = true then 1 else 0
  | .inWait k => if k = j ∧ b.bind (fun b => b.returning t) = some true then 1 else 0
  | _ => 0

/-- In the round `g` of the barrier. -/
structure Inv (g : Nat) (s : State) : Prop where
  place (t : Thread) : (s.pc t).InRange
  counts (b : Bar Thread NUM_THREADS) (hb : s.barrier = some b) : Counts b g (rounds s)
  inside (b : Bar Thread NUM_THREADS) (hb : s.barrier = some b) (t : Thread) : b.Inside t ↔ (s.pc t).inside = true
  main : AtMain g s
  lasts (j : Nat) : s.out.countP (Line.isLast j) + ∑ t, due s.barrier j t (s.pc t) = if j < g then 1 else 0

theorem initial_inv : Inv 0 initial where
  place _ := .inl rfl
  counts b hb := by cases hb
  inside b hb := by cases hb
  main := ⟨rfl, fun _ => rfl, rfl⟩
  lasts j := by simp [initial, due]

/-- A thread that takes a step was created and has not ended. -/
theorem AtMain.worker {g' : Nat} (h : AtMain g s) (hpa : s.pc t ≠ .absent) (hpd : s.pc t ≠ .done) (hq : q ≠ .absent)
    (hm : s'.main = s.main) (hb : s.barrier ≠ none → s'.barrier ≠ none) (hpc : s'.pc = Function.update s.pc t q) :
    AtMain g' s' := by
  have hother {u : Thread} (hu : u ≠ t) : s'.pc u = s.pc u := by rw [hpc, Function.update_of_ne hu]
  have hself : s'.pc t = q := by rw [hpc, Function.update_self]
  rw [AtMain] at h ⊢
  rw [hm]
  cases hmain : s.main with
  | init =>
      rw [hmain] at h
      exact absurd (h.2.1 t) hpa
  | create i =>
      rw [hmain] at h
      refine ⟨hb h.1, fun u => ?_⟩
      by_cases hu : u = t
      · subst hu
        rw [hself]
        exact ⟨fun hqa => absurd hqa hq, fun hle => absurd ((h.2 u).mpr hle) hpa⟩
      · rw [hother hu]
        exact h.2 u
  | join i =>
      rw [hmain] at h
      refine ⟨hb h.1, fun u => ?_⟩
      by_cases hu : u = t
      · subst hu
        rw [hself]
        exact ⟨hq, fun hlt => absurd ((h.2 u).2 hlt) hpd⟩
      · rw [hother hu]
        exact h.2 u
  | destroy =>
      rw [hmain] at h
      exact absurd (h.2 t) hpd
  | done =>
      rw [hmain] at h
      exact absurd (h.2.1 t) hpd

theorem Local.alive (h : Local t p q l) : p ≠ .absent ∧ p ≠ .done ∧ q ≠ .absent := by
  cases h <;> exact ⟨nofun, nofun, nofun⟩

theorem Local.outside (h : Local t p q l) : p.inside = false ∧ q.inside = false := by
  cases h <;> exact ⟨rfl, rfl⟩

theorem Local.inRange (h : Local t p q l) (hp : p.InRange) : q.InRange := by
  cases h with
  | head hj => exact .inr (.inr hj)
  | finish => exact .inr (.inl rfl)
  | pick | announce | loop | exit | reach =>
      rcases hp with hp | hp | hp
      · cases hp
      · cases hp
      · exact .inr (.inr hp)
  | after =>
      rcases hp with hp | hp | hp
      · cases hp
      · cases hp
      · exact hp

/-- The rounds are counted by the calls alone. -/
theorem Local.rounds (h : Local t p q l) (hp : p.InRange) :
    q.stage + q.called.toNat = p.stage + p.called.toNat ∧ q.stage + q.returned.toNat = p.stage + p.returned.toNat := by
  cases h with
  | head | pick | announce | loop | exit | reach | after => exact ⟨rfl, rfl⟩
  | finish hj =>
      have hj' : _ = NUM_STAGES := Nat.le_antisymm hp (not_lt.mp hj)
      exact ⟨hj'.symm, hj'.symm⟩

theorem Local.due (h : Local t p q l) (b : Option (Bar Thread NUM_THREADS)) (j : Nat) :
    l.toList.countP (Line.isLast j) + due b j t q = due b j t p := by
  cases h with
  | after => simp [Line.isLast, PthreadBarrier.due, List.countP_cons]
  | head | finish | pick | announce | loop | exit | reach => rfl

theorem rounds_update (hpc : s'.pc = Function.update s.pc t q) : rounds s' =
    ⟨Function.update (rounds s).arrived t (q.stage + q.called.toNat),
      Function.update (rounds s).left t (q.stage + q.returned.toNat)⟩ := by
  ext u
  · by_cases hu : u = t
    · subst hu
      simp only [rounds, hpc, Function.update_self]
    · simp only [rounds, hpc, Function.update_of_ne hu]
  · by_cases hu : u = t
    · subst hu
      simp only [rounds, hpc, Function.update_self]
    · simp only [rounds, hpc, Function.update_of_ne hu]

/-- The sum of what is due changes with the one thread that goes on. -/
theorem due_update (b b' : Option (Bar Thread NUM_THREADS)) (j : Nat) (hpc : s'.pc = Function.update s.pc t q)
    (hsame : ∀ u, u ≠ t → due b' j u (s.pc u) = due b j u (s.pc u)) :
    ∑ u, due b' j u (s'.pc u) + due b j t (s.pc t) = ∑ u, due b j u (s.pc u) + due b' j t q := by
  have hagree := sum_of_agree (f := fun u => due b' j u (s'.pc u)) (g := fun u => due b j u (s.pc u)) t
    (fun u hu => by simp only [hpc, Function.update_of_ne hu, hsame u hu])
  simpa only [hpc, Function.update_self] using hagree

theorem place_update (hplace : ∀ u, (s.pc u).InRange) (hq : q.InRange) (hpc : s'.pc = Function.update s.pc t q)
    (u : Thread) : (s'.pc u).InRange := by
  rw [hpc]
  by_cases hu : u = t
  · subst hu
    rwa [Function.update_self]
  · rw [Function.update_of_ne hu]
    exact hplace u

theorem Inv.moves (hi : Inv g s) (hp : s.pc t = p) (h : Local t p q l) (hm : s'.main = s.main)
    (hb' : s'.barrier = s.barrier) (hpc : s'.pc = Function.update s.pc t q) (ho : s'.out = s.out ++ l.toList) :
    Inv g s' ∧ rounds s' = rounds s := by
  subst hp
  have hrounds : rounds s' = rounds s := by
    obtain ⟨ha, hl⟩ := h.rounds (hi.place t)
    rw [rounds_update hpc, ha, hl]
    exact congrArg₂ Barrier.Rounds.mk (Function.update_eq_self t _) (Function.update_eq_self t _)
  refine ⟨⟨place_update hi.place (h.inRange (hi.place t)) hpc, ?_, ?_, ?_, fun j => ?_⟩, hrounds⟩
  · rw [hb', hrounds]
    exact hi.counts
  · intro b hb u
    rw [hb'] at hb
    rw [hi.inside b hb u, hpc]
    by_cases hu : u = t
    · subst hu
      rw [Function.update_self, h.outside.1, h.outside.2]
    · rw [Function.update_of_ne hu]
  · obtain ⟨hpa, hpd, hq⟩ := h.alive
    exact hi.main.worker hpa hpd hq hm (fun hne => hb' ▸ hne) hpc
  · have hsum := due_update s.barrier s'.barrier j hpc (fun u _ => by rw [hb'])
    have hline := h.due s.barrier j
    have hold := hi.lasts j
    rw [ho, List.countP_append]
    rw [hb'] at hsum ⊢
    omega

theorem Inv.leaves {j : Nat} {last : Bool} {b b' : Bar Thread NUM_THREADS} (hi : Inv g s) (hp : s.pc t = .inWait j)
    (hb : s.barrier = some b) (h : b.leave t = some (last, b')) (hm : s'.main = s.main) (hb' : s'.barrier = some b')
    (hpc : s'.pc = Function.update s.pc t (.after j last)) (ho : s'.out = s.out) :
    Inv g s' ∧ Barrier.Step (rounds s) (.leave t) (rounds s') := by
  obtain ⟨hret, hw, hr⟩ := leave_cases h
  have hrounds : rounds s' = ⟨(rounds s).arrived, Function.update (rounds s).left t ((rounds s).left t + 1)⟩ := by
    rw [rounds_update hpc]
    refine congrArg₂ Barrier.Rounds.mk ?_ ?_
    · refine Function.update_eq_iff.mpr ⟨?_, fun _ _ => rfl⟩
      simp only [rounds, hp, Pc.stage, Pc.called]
    · simp only [rounds, hp, Pc.stage, Pc.returned, Bool.toNat_false, Bool.toNat_true, Nat.add_zero]
  obtain ⟨hcounts, hstep⟩ := (hi.counts b hb).leave h
  have hplace := hi.place t
  rw [hp] at hplace
  have hplaces := place_update hi.place (q := .after j last) (hplace.imp nofun (Or.imp nofun id)) hpc
  refine ⟨⟨hplaces, fun b₁ hb₁ => ?_, fun b₁ hb₁ u => ?_, ?_, fun k => ?_⟩, hrounds ▸ hstep⟩
  · cases hb'.symm.trans hb₁
    exact hrounds ▸ hcounts
  · cases hb'.symm.trans hb₁
    rw [Bar.Inside, hw, hr, hpc]
    by_cases hu : u = t
    · subst hu
      have hne : b.returning u ≠ none := hret ▸ Option.some_ne_none last
      have hnot : u ∉ b.waiting := fun hm => hne (b.apart u hm)
      simp only [Function.update_self, Pc.inside, hnot, ne_eq, not_true_eq_false, or_self, Bool.false_eq_true]
    · rw [Function.update_of_ne hu, Function.update_of_ne hu]
      exact hi.inside b hb u
  · exact hi.main.worker (by rw [hp]; nofun) (by rw [hp]; nofun) (by nofun) hm
      (fun _ => hb' ▸ Option.some_ne_none b') hpc
  · have hsum := due_update (some b) (some b') k hpc (fun u hu => by
      simp only [due, Option.bind_some, hr, Function.update_of_ne hu])
    have hself : due (some b) k t (s.pc t) = due (some b') k t (.after j last) := by
      simp only [hp, due, Option.bind_some, hret, Option.some.injEq]
    have hold := hi.lasts k
    rw [hb] at hold
    rw [ho, hb']
    omega

theorem Inv.waits {j : Nat} {serial : Thread} {b b' : Bar Thread NUM_THREADS} (hi : Inv g s) (hp : s.pc t = .wait j)
    (hb : s.barrier = some b) (h : b.wait serial t = some b') (hm : s'.main = s.main) (hb' : s'.barrier = some b')
    (hpc : s'.pc = Function.update s.pc t (.inWait j)) (ho : s'.out = s.out) :
    (∃ g', Inv g' s') ∧ Barrier.Step (rounds s) (.arrive t) (rounds s') := by
  have hcount : NUM_THREADS = Fintype.card Thread := (Fintype.card_fin _).symm
  have hc := hi.counts b hb
  obtain ⟨hout, hwaits⟩ := wait_cases h
  have hrounds : rounds s' = ⟨Function.update (rounds s).arrived t ((rounds s).arrived t + 1), (rounds s).left⟩ := by
    rw [rounds_update hpc]
    refine congrArg₂ Barrier.Rounds.mk ?_ ?_
    · simp only [rounds, hp, Pc.stage, Pc.called, Bool.toNat_false, Bool.toNat_true, Nat.add_zero]
    · refine Function.update_eq_iff.mpr ⟨?_, fun _ _ => rfl⟩
      simp only [rounds, hp, Pc.stage, Pc.returned]
  have hplace := hi.place t
  rw [hp] at hplace
  have hplaces := place_update hi.place (q := .inWait j) (hplace.imp nofun (Or.imp nofun id)) hpc
  have hmain (g' : Nat) : AtMain g' s' := hi.main.worker (by rw [hp]; nofun) (by rw [hp]; nofun) (by nofun) hm
    (fun _ => hb' ▸ Option.some_ne_none b') hpc
  have hzero (k : Nat) : due (some b) k t (s.pc t) = 0 := by rw [hp]; rfl
  refine ⟨?_, hrounds ▸ hc.arrives hout⟩
  cases hwaits with
  | joins hw hr =>
      refine ⟨g, hplaces, fun b₁ hb₁ => ?_, fun b₁ hb₁ u => ?_, hmain g, fun k => ?_⟩
      · cases hb'.symm.trans hb₁
        exact hrounds ▸ hc.joins hout hw hr
      · cases hb'.symm.trans hb₁
        rw [Bar.Inside, hw, hr, hpc]
        by_cases hu : u = t
        · subst hu
          simp only [Finset.mem_insert_self, true_or, Function.update_self, Pc.inside]
        · rw [Finset.mem_insert, Function.update_of_ne hu, or_iff_right hu]
          exact hi.inside b hb u
      · have hsum := due_update (some b) (some b') k hpc (fun u _ => by
          simp only [due, Option.bind_some, hr])
        have hself : due (some b') k t (.inWait j) = 0 := by
          have hnone : b.returning t = none := not_not.mp (fun hne => hout (.inr hne))
          simp only [due, Option.bind_some, hr, hnone, reduceCtorEq, and_false, if_false]
        have hold := hi.lasts k
        rw [hb] at hold
        rw [ho, hb']
        have := hzero k
        omega
  | opens hcard hserial hw hr =>
      have hret (u : Thread) : b'.returning u = some (decide (u = serial)) :=
        (congrFun hr u).trans (if_pos (eq_univ hcount hcard u))
      have hin (u : Thread) : s'.pc u = .inWait g := by
        rw [hpc]
        by_cases hu : u = t
        · subst hu
          have hstage := (hc.outside u hout).1
          rw [Function.update_self]
          simp only [rounds, hp, Pc.stage, Pc.returned, Bool.toNat_false, Nat.add_zero] at hstage
          rw [hstage]
        · have hmem : u ∈ b.waiting := (Finset.mem_insert.mp (eq_univ hcount hcard u)).resolve_left hu
          have hpu := (hi.inside b hb u).mp (.inl hmem)
          have hstage := (hc.waiting u hmem).1
          rw [Function.update_of_ne hu]
          cases hq : s.pc u with
          | inWait k =>
              simp only [rounds, hq, Pc.stage, Pc.returned, Bool.toNat_false, Nat.add_zero] at hstage
              rw [hstage]
          | _ =>
              rw [hq] at hpu
              cases hpu
      refine ⟨g + 1, hplaces, fun b₁ hb₁ => ?_, fun b₁ hb₁ u => ?_, hmain (g + 1), fun k => ?_⟩
      · cases hb'.symm.trans hb₁
        exact hrounds ▸ hc.opens hcount hout hcard hw hr
      · cases hb'.symm.trans hb₁
        rw [Bar.Inside, hret u, hin u]
        exact ⟨fun _ => rfl, fun _ => .inr (Option.some_ne_none _)⟩
      · have hbefore : ∑ u, due s.barrier k u (s.pc u) = 0 := by
          refine Finset.sum_eq_zero (fun u _ => ?_)
          by_cases hu : u = t
          · rw [hu, hb, hzero k]
          · have hmem : u ∈ b.waiting := (Finset.mem_insert.mp (eq_univ hcount hcard u)).resolve_left hu
            have hpu := hin u
            rw [hpc, Function.update_of_ne hu] at hpu
            simp only [hpu, hb, due, Option.bind_some, b.apart u hmem, reduceCtorEq, and_false, if_false]
        have hafter : ∑ u, due s'.barrier k u (s'.pc u) = if g = k then 1 else 0 := by
          simp only [hin, hb', due, Option.bind_some, hret, Option.some.injEq, decide_eq_true_eq]
          by_cases hk : g = k
          · simp [hk]
          · simp [hk]
        have hold := hi.lasts k
        rw [hbefore] at hold
        rw [ho, hafter]
        split at hold <;> split <;> split <;> omega

/-- The steps of `main()` that leave the threads and the barrier alone. -/
theorem Inv.proceeds (hi : Inv g s) (hb' : s'.barrier = s.barrier) (hpc : s'.pc = s.pc) (ho : s'.out = s.out)
    (hm : AtMain g s') : Inv g s' := by
  have hrounds : rounds s' = rounds s := by rw [rounds, rounds, hpc]
  refine ⟨hpc ▸ hi.place, ?_, ?_, hm, fun j => ?_⟩
  · rw [hb', hrounds]
    exact hi.counts
  · rw [hb', hpc]
    exact hi.inside
  · rw [ho, hb', hpc]
    exact hi.lasts j

theorem Inv.all_done (hi : Inv g s) (hm : s.main = .destroy) : (∀ t, s.pc t = .done) ∧ g = NUM_STAGES := by
  have hmain := hi.main
  rw [AtMain, hm] at hmain
  obtain ⟨hb, hdone⟩ := hmain
  obtain ⟨b, hb⟩ := Option.ne_none_iff_exists'.mp hb
  have hout : ¬ b.Inside 0 := by
    rw [hi.inside b hb, hdone]
    nofun
  have hstage := ((hi.counts b hb).outside 0 hout).1
  simp only [rounds, hdone, Pc.stage, Pc.returned, Bool.toNat_false, Nat.add_zero] at hstage
  exact ⟨hdone, hstage.symm⟩

theorem step_inv (hi : Inv g s) (h : Does s s') :
    (∃ g', Inv g' s') ∧ (rounds s' = rounds s ∨ ∃ ev, Barrier.Step (rounds s) ev (rounds s')) := by
  have hmain := hi.main
  cases h with
  | init hm =>
      rw [AtMain, hm] at hmain
      obtain ⟨hb, habs, rfl⟩ := hmain
      have hrounds : rounds s = Barrier.start := by
        ext u <;> simp [rounds, habs, Pc.stage, Pc.called, Pc.returned, Barrier.start]
      refine ⟨⟨0, hi.place, fun b hb => ?_, fun b hb u => ?_, ⟨Option.some_ne_none _, fun u => ?_⟩, fun j => ?_⟩, .inl rfl⟩
      · cases hb
        change Counts _ 0 (rounds s)
        rw [hrounds]
        exact init_counts _
      · cases hb
        rw [habs]
        simp [Bar.Inside, Bar.init, Pc.inside]
      · simp [habs]
      · have hold := hi.lasts j
        simpa only [habs, due] using hold
  | create i hm hi' =>
      rw [AtMain, hm] at hmain
      obtain ⟨hb, habs⟩ := hmain
      have hpc : s.pc ⟨i, hi'⟩ = .absent := (habs _).mpr (Nat.le_refl i)
      have hrounds : rounds { s.goto ⟨i, hi'⟩ (.head 0) with main := .create (i + 1) } = rounds s := by
        rw [rounds_update (s := s) (t := ⟨i, hi'⟩) (q := .head 0) rfl]
        refine congrArg₂ Barrier.Rounds.mk ?_ ?_ <;>
          · refine Function.update_eq_iff.mpr ⟨?_, fun _ _ => rfl⟩
            simp only [hpc, Pc.stage, Pc.called, Pc.returned]
      refine ⟨⟨g, place_update hi.place (q := .head 0) (Nat.zero_le _) rfl, ?_, fun b hb u => ?_, ⟨hb, fun u => ?_⟩,
        fun j => ?_⟩, .inl hrounds⟩
      · rw [hrounds]
        exact hi.counts
      · rw [hi.inside b hb u]
        by_cases hu : u = ⟨i, hi'⟩
        · subst hu
          simp only [hpc, State.goto, Function.update_self, Pc.inside]
        · simp only [State.goto, Function.update_of_ne hu]
      · by_cases hu : u = ⟨i, hi'⟩
        · subst hu
          simp [State.goto]
        · have hne : u.val ≠ i := fun heq => hu (Fin.ext heq)
          simp only [State.goto, Function.update_of_ne hu, habs]
          omega
      · have hpc' : ({ s.goto ⟨i, hi'⟩ (.head 0) with main := .create (i + 1) } : State).pc =
          Function.update s.pc ⟨i, hi'⟩ (.head 0) := rfl
        have hsum := due_update s.barrier s.barrier j hpc' (fun _ _ => rfl)
        have hself : due s.barrier j ⟨i, hi'⟩ (s.pc ⟨i, hi'⟩) = 0 := by rw [hpc]; rfl
        have hnew : due s.barrier j ⟨i, hi'⟩ (.head 0) = 0 := rfl
        have hold := hi.lasts j
        rw [hself, hnew] at hsum
        rw [← hold]
        exact congrArg (s.out.countP (Line.isLast j) + ·) hsum
  | created i hm hi' =>
      rw [AtMain, hm] at hmain
      refine ⟨⟨g, hi.proceeds rfl rfl rfl ⟨hmain.1, fun u => ⟨fun habs => ?_, fun hlt => absurd hlt (Nat.not_lt_zero _)⟩⟩⟩,
        .inl rfl⟩
      have := (hmain.2 u).mp habs
      omega
  | join i hm hi' hd =>
      rw [AtMain, hm] at hmain
      refine ⟨⟨g, hi.proceeds rfl rfl rfl ⟨hmain.1, fun u => ⟨(hmain.2 u).1, fun hlt => ?_⟩⟩⟩, .inl rfl⟩
      rcases Nat.lt_succ_iff_lt_or_eq.mp hlt with hlt | heq
      · exact (hmain.2 u).2 hlt
      · have hu : u = ⟨i, hi'⟩ := Fin.ext heq
        exact hu ▸ hd
  | joined i hm hi' =>
      rw [AtMain, hm] at hmain
      exact ⟨⟨g, hi.proceeds rfl rfl rfl ⟨hmain.1, fun u => (hmain.2 u).2 (by omega)⟩⟩, .inl rfl⟩
  | destroy hm =>
      obtain ⟨hdone, hg⟩ := hi.all_done hm
      refine ⟨⟨g, hi.place, fun _ hb => absurd hb (Option.some_ne_none _).symm, fun _ hb => absurd hb (Option.some_ne_none _).symm,
        ⟨rfl, hdone, hg⟩, fun j => ?_⟩, .inl rfl⟩
      have hold := hi.lasts j
      simpa only [hdone, due] using hold
  | moves t p q l hp h =>
      refine And.imp (fun hi' => ⟨g, hi'⟩) .inl ?_
      exact hi.moves hp h rfl rfl rfl rfl
  | waits t j serial b b' hp hb h =>
      refine And.imp_right (fun hr => .inr ⟨.arrive t, hr⟩) ?_
      exact hi.waits hp hb h rfl rfl rfl rfl
  | leaves t j last b b' hp hb h =>
      refine And.imp (fun hi' => ⟨g, hi'⟩) (fun hr => .inr ⟨.leave t, hr⟩) ?_
      exact hi.leaves hp hb h rfl rfl rfl rfl

/-- The program is a barrier in the sense of the rounds. -/
theorem run_refines (h : Run (Exec next) initial es s) :
    ∃ evs, Run Barrier.Step Barrier.start evs (rounds s) ∧ ∃ g, Inv g s := by
  have hstart : rounds initial = Barrier.start := by
    ext u <;> rfl
  obtain ⟨evs, r, hr, rfl, hi⟩ := h.simulate Barrier.Step Barrier.start (fun _ s r => r = rounds s ∧ ∃ g, Inv g s)
    ⟨hstart.symm, 0, initial_inv⟩ (fun ls l s s' r _ hR hl => by
      obtain ⟨rfl, g, hi⟩ := hR
      obtain ⟨hi', heq | ⟨ev, hev⟩⟩ := step_inv hi (next_does hl)
      · exact ⟨[], _, .nil, heq.symm, hi'⟩
      · exact ⟨[ev], _, .single hev, rfl, hi'⟩)
  exact ⟨evs, hr, hi⟩

theorem run_inv (h : Run (Exec next) initial es s) : (∃ g, Inv g s) ∧ Barrier.Sound (rounds s) := by
  obtain ⟨evs, hr, hi⟩ := run_refines h
  exact ⟨hi, Barrier.run_sound hr⟩

/-- How many barriers the thread of a line has passed when it prints it. -/
def Line.passed : Line → Nat
  | .willLoop j _ _ | .looping j _ _ | .reaching j _ => j
  | .after j _ _ => j + 1

def Line.isAfter (j : Nat) (t : Thread) : Line → Bool
  | .after k id _ => decide (k = j) && decide (id = t)
  | _ => false

/-- Every line of a thread past a barrier comes after the lines with which all
the threads announce that they reach it. -/
inductive Ordered : List Line → Prop
  | nil : Ordered []
  | snoc {out : List Line} {l : Line} (h : Ordered out) (hl : ∀ j < l.passed, ∀ u, .reaching j u ∈ out) :
      Ordered (out ++ [l])

theorem Ordered.before {out pre post : List Line} {l : Line} (h : Ordered out) (he : out = pre ++ l :: post) :
    ∀ j < l.passed, ∀ u, .reaching j u ∈ pre := by
  induction h generalizing post with
  | nil => cases pre <;> cases he
  | @snoc out m h hm ih =>
      rcases List.eq_nil_or_concat' post with rfl | ⟨post', x, rfl⟩
      · obtain ⟨rfl, hx⟩ := List.append_inj' he rfl
        cases hx
        exact hm
      · rw [← List.cons_append, ← List.append_assoc] at he
        exact ih (List.append_inj_left' he rfl)

def Pc.behind (p : Pc) (j : Nat) : Nat := if j < p.stage then 1 else 0

/-- The output so far against where the threads are. -/
structure Told (s : State) : Prop where
  reaching (t : Thread) (j : Nat) (h : j < (s.pc t).stage + (s.pc t).reached.toNat) : .reaching j t ∈ s.out
  ordered : Ordered s.out
  afters (t : Thread) (j : Nat) : s.out.countP (Line.isAfter j t) = (s.pc t).behind j

theorem initial_told : Told initial where
  reaching _ _ h := absurd h (Nat.not_lt_zero _)
  ordered := .nil
  afters _ _ := rfl

theorem finish_stage {j : Nat} (h : ¬ j < NUM_STAGES) (hp : (Pc.head j).InRange) : j = NUM_STAGES :=
  Nat.le_antisymm hp (not_lt.mp h)

theorem Local.reaching (h : Local t p q l) (hp : p.InRange) (j : Nat) (hj : j < q.stage + q.reached.toNat) :
    j < p.stage + p.reached.toNat ∨ l = some (.reaching j t) := by
  cases h with
  | head | pick | announce | loop | exit | after => exact .inl hj
  | finish hn =>
      rw [finish_stage hn hp]
      exact .inl hj
  | reach =>
      rcases Nat.lt_succ_iff_lt_or_eq.mp hj with hlt | rfl
      · exact .inl hlt
      · exact .inr rfl

theorem Local.passed (h : Local t p q l) : ∀ x ∈ l, x.passed = p.stage + p.returned.toNat := by
  intro x hx
  cases h with
  | head | finish | pick | exit => cases hx
  | announce | loop | reach | after =>
      cases hx
      rfl

theorem Local.afters (h : Local t p q l) (hp : p.InRange) (u : Thread) (j : Nat) :
    l.toList.countP (Line.isAfter j u) + (if u = t then p.behind j else 0) = if u = t then q.behind j else 0 := by
  cases h with
  | head | pick | announce | loop | exit | reach => exact Nat.zero_add _
  | finish hn =>
      rw [finish_stage hn hp]
      exact Nat.zero_add _
  | @after k last =>
      simp only [Option.toList_some, List.countP_singleton, Line.isAfter, Pc.behind, Pc.stage, Bool.and_eq_true,
        decide_eq_true_eq]
      by_cases hu : u = t
      · subst hu
        simp only [and_true, if_true]
        grind
      · simp [hu, Ne.symm hu]

theorem Told.moves (hs : Barrier.Sound (rounds s)) (hplace : (s.pc t).InRange) (ht : Told s) (hp : s.pc t = p)
    (h : Local t p q l) (hpc : s'.pc = Function.update s.pc t q) (ho : s'.out = s.out ++ l.toList) : Told s' := by
  subst hp
  have hcalled (u : Thread) : (s.pc u).called.toNat ≤ (s.pc u).reached.toNat := by
    cases s.pc u <;> simp [Pc.called, Pc.reached]
  constructor
  · intro u j hj
    rw [ho, List.mem_append]
    by_cases hu : u = t
    · subst hu
      rw [hpc, Function.update_self] at hj
      rcases h.reaching hplace j hj with hj | hl
      · exact .inl (ht.reaching u j hj)
      · right
        rw [hl]
        exact List.mem_singleton_self _
    · rw [hpc, Function.update_of_ne hu] at hj
      exact .inl (ht.reaching u j hj)
  · rw [ho]
    cases l with
    | none => simpa only [Option.toList_none, List.append_nil] using ht.ordered
    | some x =>
        refine ht.ordered.snoc (fun j hj u => ht.reaching u j ?_)
        rw [h.passed x rfl] at hj
        have hagree : (rounds s).left t ≤ (rounds s).arrived u := hs.agree t u
        simp only [rounds] at hagree
        have := hcalled u
        omega
  · intro u j
    have hold := ht.afters u j
    have hline := h.afters hplace u j
    rw [ho, List.countP_append, hold, hpc]
    by_cases hu : u = t
    · subst hu
      simp only [if_true] at hline
      rw [Function.update_self]
      omega
    · simp only [hu, if_false] at hline
      rw [Function.update_of_ne hu]
      omega

/-- The calls of the barrier print nothing. -/
theorem Told.calls (ht : Told s) (hpc : s'.pc = Function.update s.pc t q) (ho : s'.out = s.out)
    (hstage : q.stage = (s.pc t).stage) (hreached : q.reached = (s.pc t).reached) : Told s' := by
  have hcong (u : Thread) : (s'.pc u).stage = (s.pc u).stage ∧ (s'.pc u).reached = (s.pc u).reached := by
    rw [hpc]
    by_cases hu : u = t
    · subst hu
      rw [Function.update_self]
      exact ⟨hstage, hreached⟩
    · rw [Function.update_of_ne hu]
      exact ⟨rfl, rfl⟩
  constructor
  · intro u j hj
    rw [(hcong u).1, (hcong u).2] at hj
    exact ho ▸ ht.reaching u j hj
  · exact ho ▸ ht.ordered
  · intro u j
    rw [ho, ht.afters u j, Pc.behind, Pc.behind, (hcong u).1]

theorem step_told (hi : Inv g s) (hs : Barrier.Sound (rounds s)) (ht : Told s) (h : Does s s') : Told s' := by
  have hmain := hi.main
  cases h with
  | init | created | join | joined | destroy => exact ⟨ht.reaching, ht.ordered, ht.afters⟩
  | create i hm hi' =>
      rw [AtMain, hm] at hmain
      have hpc : s.pc ⟨i, hi'⟩ = .absent := (hmain.2 _).mpr (Nat.le_refl i)
      exact ht.calls (t := ⟨i, hi'⟩) (q := .head 0) rfl rfl (by rw [hpc]; rfl) (by rw [hpc]; rfl)
  | moves t p q l hp h => exact ht.moves hs (hi.place t) hp h rfl rfl
  | waits t j serial b b' hp hb h => exact ht.calls (t := t) (q := .inWait j) rfl rfl (by rw [hp]; rfl) (by rw [hp]; rfl)
  | leaves t j last b b' hp hb h =>
      exact ht.calls (t := t) (q := .after j last) rfl rfl (by rw [hp]; rfl) (by rw [hp]; rfl)

theorem run_told (h : Run (Exec next) initial es s) : Told s :=
  h.invariant (I := fun _ s => Told s) initial_told (fun _ _ _ _ hr ht hl => by
    obtain ⟨⟨_, hi⟩, hs⟩ := run_inv hr
    exact step_told hi hs ht (next_does hl))

/-- No thread goes on to a stage before all the threads have reached the
barrier before it, and at most one of them is told that it was the last. -/
theorem stages_in_step (es : List Event) (s : State) (h : Run (Exec next) initial es s) :
    (∃ evs, Run Barrier.Step Barrier.start evs (rounds s)) ∧
    (∀ pre l post, s.out = pre ++ l :: post → ∀ j < l.passed, ∀ u, .reaching j u ∈ pre) ∧
    ∀ j, s.out.countP (Line.isLast j) ≤ 1 := by
  obtain ⟨evs, hr, g, hi⟩ := run_refines h
  refine ⟨⟨evs, hr⟩, fun pre l post he => (run_told h).ordered.before he, fun j => ?_⟩
  have hlasts := hi.lasts j
  split at hlasts <;> omega

/-- The first thread loops once and comes to the barrier. -/
def firstComes : List Event :=
  [.main, .main, .worker 0, .random 0 1, .worker 0, .worker 0, .worker 0, .worker 0, .wait 0 0]

theorem stages_in_step_first : ∃ s, Run (Exec next) initial firstComes s ∧
    s.out = [.willLoop 0 0 1, .looping 0 0 0, .reaching 0 0] ∧ s.pc 0 = .inWait 0 ∧
    ((∃ evs, Run Barrier.Step Barrier.start evs (rounds s)) ∧
      (∀ pre l post, s.out = pre ++ l :: post → ∀ j < l.passed, ∀ u, .reaching j u ∈ pre) ∧
      ∀ j, s.out.countP (Line.isLast j) ≤ 1) := by
  obtain ⟨s, hs, hout, hpc⟩ : ∃ s, replay next initial firstComes = some s ∧
      s.out = [.willLoop 0 0 1, .looping 0 0 0, .reaching 0 0] ∧ s.pc 0 = .inWait 0 := ⟨_, rfl, rfl, rfl⟩
  exact ⟨s, replay_run hs, hout, hpc, stages_in_step firstComes s (replay_run hs)⟩

def Pc.rank : Pc → Nat
  | .absent => NUM_STAGES * 12 + 2
  | .head j => (NUM_STAGES - j) * 12 + 1
  | .pick j => (NUM_STAGES - (j + 1)) * 12 + 12
  | .announce j cnt => (NUM_STAGES - (j + 1)) * 12 + 7 + cnt
  | .loop j cnt i => (NUM_STAGES - (j + 1)) * 12 + 6 + (cnt - i)
  | .reach j => (NUM_STAGES - (j + 1)) * 12 + 5
  | .wait j => (NUM_STAGES - (j + 1)) * 12 + 4
  | .inWait j => (NUM_STAGES - (j + 1)) * 12 + 3
  | .after j _ => (NUM_STAGES - (j + 1)) * 12 + 2
  | .done => 0

def MainPc.rank : MainPc → Nat
  | .init => 2 * NUM_THREADS + 4
  | .create i => NUM_THREADS - i + NUM_THREADS + 3
  | .join i => NUM_THREADS - i + 2
  | .destroy => 1
  | .done => 0

/-- What is left to do at most. -/
def rank (s : State) : Nat := s.main.rank + ∑ t, (s.pc t).rank

theorem Local.rank (h : Local t p q l) : q.rank < p.rank := by
  cases h with
  | @pick j cnt =>
      have := cnt.isLt
      simp only [Pc.rank]
      omega
  | head | finish | announce | loop | exit | reach | after =>
      simp only [Pc.rank]
      omega

theorem rank_update (hm : s'.main.rank ≤ s.main.rank) (hpc : s'.pc = Function.update s.pc t q)
    (hq : q.rank < (s.pc t).rank) : rank s' < rank s := by
  obtain ⟨n, hn, hn'⟩ := sum_update Pc.rank s.pc t q
  rw [rank, rank, hpc, hn, hn']
  omega

theorem step_rank (hi : Inv g s) (h : Does s s') : rank s' < rank s := by
  have hmain := hi.main
  cases h with
  | init hm | created i hm hi' | join i hm hi' hd | joined i hm hi' | destroy hm =>
      refine Nat.add_lt_add_right ?_ _
      simp only [hm, MainPc.rank]
      omega
  | create i hm hi' =>
      rw [AtMain, hm] at hmain
      have hpc : s.pc ⟨i, hi'⟩ = .absent := (hmain.2 _).mpr (Nat.le_refl i)
      refine rank_update (t := ⟨i, hi'⟩) (q := .head 0) ?_ rfl ?_
      · simp only [hm, MainPc.rank]
        omega
      · rw [hpc]
        exact Nat.lt_succ_self _
  | moves t p q l hp h => exact rank_update (t := t) (q := q) (Nat.le_refl _) rfl (hp ▸ h.rank)
  | waits t j serial b b' hp hb h =>
      refine rank_update (t := t) (q := .inWait j) (Nat.le_refl _) rfl ?_
      rw [hp]
      exact Nat.lt_succ_self _
  | leaves t j last b b' hp hb h =>
      refine rank_update (t := t) (q := .after j last) (Nat.le_refl _) rfl ?_
      rw [hp]
      exact Nat.lt_succ_self _

/-- A thread that has something to do can do it, unless it waits in the barrier. -/
theorem goes_or_waits {b : Bar Thread NUM_THREADS} (hi : Inv g s) (hb : s.barrier = some b) (ha : s.pc t ≠ .absent)
    (hd : s.pc t ≠ .done) : (∃ e s', next s e = some s') ∨ ∃ j, s.pc t = .inWait j ∧ t ∈ b.waiting := by
  cases hp : s.pc t with
  | absent => exact absurd hp ha
  | done => exact absurd hp hd
  | head | announce | reach | after => exact .inl ⟨.worker t, _, by rw [next, worker, hp]⟩
  | pick => exact .inl ⟨.random t 0, _, by rw [next, hp]⟩
  | loop j cnt i =>
      by_cases hlt : i < cnt
      · exact .inl ⟨.worker t, _, by rw [next, worker, hp]; exact if_pos hlt⟩
      · exact .inl ⟨.worker t, _, by rw [next, worker, hp]; exact if_neg hlt⟩
  | wait j =>
      have hout : ¬ b.Inside t := by
        rw [hi.inside b hb, hp]
        nofun
      obtain ⟨b', hb'⟩ := wait_exists hout
      exact .inl ⟨.wait t t, _, by rw [next, hp]; simp only [hb, hb', Option.bind_some, Option.map_some]; rfl⟩
  | inWait j =>
      rcases (hi.inside b hb t).mpr (by rw [hp]; rfl) with hw | hret
      · exact .inr ⟨j, rfl, hw⟩
      · obtain ⟨last, hret⟩ := Option.ne_none_iff_exists'.mp hret
        obtain ⟨b', hb'⟩ := leave_exists hret
        exact .inl ⟨.worker t, _, by rw [next, worker, hp]; simp only [hb, hb', Option.bind_some, Option.map_some]; rfl⟩

/-- All the threads are created, and one of them waits that has to be joined:
then somebody can go on. -/
theorem thread_goes (hi : Inv g s) (hs : Barrier.Sound (rounds s)) (habs : ∀ t, s.pc t ≠ .absent)
    (hne : ∃ t, s.pc t ≠ .done) (hbar : s.barrier ≠ none) : ∃ e s', next s e = some s' := by
  obtain ⟨b, hb⟩ := Option.ne_none_iff_exists'.mp hbar
  by_contra hstuck
  have hin (t : Thread) (ht : s.pc t ≠ .done) : ∃ j, s.pc t = .inWait j ∧ t ∈ b.waiting :=
    (goes_or_waits hi hb (habs t) ht).resolve_left hstuck
  obtain ⟨t, ht⟩ := hne
  obtain ⟨j, hj, hw⟩ := hin t ht
  obtain ⟨u, hu⟩ := exists_not_waiting (Fintype.card_fin _).symm b
  have hdone : s.pc u = .done := not_not.mp (fun hne => hu (hin u hne).choose_spec.2)
  -- The one that waits has called the barrier less often than the one that has ended.
  have hle : (rounds s).left u ≤ (rounds s).arrived t := hs.agree u t
  have harrived := ((hi.counts b hb).waiting t hw).2
  have hout : ¬ b.Inside u := by
    rw [hi.inside b hb, hdone]
    nofun
  have hleft := ((hi.counts b hb).outside u hout).1
  have hrange := hi.place t
  rw [hj] at hrange
  have hlt : j < NUM_STAGES := (hrange.resolve_left nofun).resolve_left nofun
  have hjt := ((hi.counts b hb).waiting t hw).1
  simp only [rounds, hdone, hj, Pc.stage, Pc.returned, Bool.toNat_false, Nat.add_zero] at hleft hjt
  omega

theorem goes_on (hi : Inv g s) (hs : Barrier.Sound (rounds s)) (hm : s.main ≠ .done) : ∃ e s', next s e = some s' := by
  have hmain := hi.main
  rw [AtMain] at hmain
  cases hpc : s.main with
  | init | destroy => exact ⟨.main, _, by rw [next, mainStep, hpc]⟩
  | create i =>
      by_cases hlt : i < NUM_THREADS
      · exact ⟨.main, _, by rw [next, mainStep, hpc]; exact dif_pos hlt⟩
      · exact ⟨.main, _, by rw [next, mainStep, hpc]; exact dif_neg hlt⟩
  | join i =>
      rw [hpc] at hmain
      by_cases hlt : i < NUM_THREADS
      · by_cases hd : s.pc ⟨i, hlt⟩ = .done
        · exact ⟨.main, _, by rw [next, mainStep, hpc]; exact (dif_pos hlt).trans (if_pos hd)⟩
        · exact thread_goes hi hs (fun t => (hmain.2 t).1) ⟨_, hd⟩ hmain.1
      · exact ⟨.main, _, by rw [next, mainStep, hpc]; exact dif_neg hlt⟩
  | done => exact absurd hpc hm

/-- The program is at its end: each thread has printed its line after each
barrier, just one of them as the last one. -/
structure Finished (s : State) : Prop where
  main : s.main = .done
  destroyed : s.barrier = none
  afters (t : Thread) (j : Nat) (hj : j < NUM_STAGES) : s.out.countP (Line.isAfter j t) = 1
  lasts (j : Nat) (hj : j < NUM_STAGES) : s.out.countP (Line.isLast j) = 1

theorem finished (hi : Inv g s) (ht : Told s) (hm : s.main = .done) : Finished s := by
  have hmain := hi.main
  rw [AtMain, hm] at hmain
  obtain ⟨hb, hdone, rfl⟩ := hmain
  refine ⟨hm, hb, fun t j hj => ?_, fun j hj => ?_⟩
  · rw [ht.afters, hdone]
    exact if_pos hj
  · have hlasts := hi.lasts j
    rw [if_pos hj] at hlasts
    simpa only [hdone, due, Finset.sum_const_zero, Nat.add_zero] using hlasts

end UnixProg.Pthreads.PthreadBarrier

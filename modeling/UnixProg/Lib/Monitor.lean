import UnixProg.Lib.ThreadSum
import UnixProg.Lib.Transition

namespace UnixProg.Lib.Monitor

open Transition ThreadSum

variable {T P M : Type}

/-- What a thread does at a point of its code: an assignment to the shared
memory, or a call on the one mutex and the one condition variable. -/
inductive Cmd (P M : Type)
  | run (m : M) (p : P)
  | lock (p : P)
  | unlock (p : P)
  | wait (p : P)
  | signal (p : P)
  | broadcast (p : P)

def Cmd.next : Cmd P M → P
  | .run _ p | .lock p | .unlock p | .wait p | .signal p | .broadcast p => p

def Cmd.mem (m : M) : Cmd P M → M
  | .run m' _ => m'
  | .lock _ | .unlock _ | .wait _ | .signal _ | .broadcast _ => m

/-- The alternatives of each thread at each point of its code. There is more
than one where the code draws a random number. -/
abbrev Prog (T P M : Type) := T → P → M → List (Cmd P M)

/-- A waiting thread is first asleep and then woken, that is, returning from
the wait as soon as it gets the mutex. Both keep the point it returns to. -/
inductive Ctl (P : Type)
  | running (p : P)
  | asleep (p : P)
  | woken (p : P)
deriving DecidableEq

def Ctl.pc : Ctl P → P
  | .running p | .asleep p | .woken p => p

def Ctl.wake : Ctl P → Ctl P
  | .asleep p => .woken p
  | c => c

/-- Where a command leaves the thread that executes it. -/
def Cmd.ctl : Cmd P M → Ctl P
  | .run _ p | .lock p | .unlock p | .signal p | .broadcast p => .running p
  | .wait p => .asleep p

structure State (T P M : Type) where
  owner : Option T
  ctl : T → Ctl P
  mem : M

def State.pc (s : State T P M) (t : T) : P := (s.ctl t).pc

def wake (W : T → Bool) (ctl : T → Ctl P) (t : T) : Ctl P := if W t then (ctl t).wake else ctl t

inductive Event (T P : Type)
  | exec (t : T) (p : P)
  | resume (t : T)
  | spurious (t : T)
deriving DecidableEq

def Event.genuine : Event T P → Bool
  | .exec _ _ | .resume _ => true
  | .spurious _ => false

variable [DecidableEq T]

/-- A wait gives up the mutex and falls asleep in one step, a signal wakes at
least one sleeper if there is any, and a sleeper may wake for no reason. -/
inductive Step (prog : Prog T P M) : State T P M → Event T P → State T P M → Prop
  | run (o c m) (t : T) (p : P) (m' p') (ht : c t = .running p) (hc : .run m' p' ∈ prog t p m) :
      Step prog ⟨o, c, m⟩ (.exec t p) ⟨o, Function.update c t (.running p'), m'⟩
  | lock (c m) (t : T) (p : P) (p') (ht : c t = .running p) (hc : .lock p' ∈ prog t p m) :
      Step prog ⟨none, c, m⟩ (.exec t p) ⟨some t, Function.update c t (.running p'), m⟩
  | unlock (c m) (t : T) (p : P) (p') (ht : c t = .running p) (hc : .unlock p' ∈ prog t p m) :
      Step prog ⟨some t, c, m⟩ (.exec t p) ⟨none, Function.update c t (.running p'), m⟩
  | wait (c m) (t : T) (p : P) (p') (ht : c t = .running p) (hc : .wait p' ∈ prog t p m) :
      Step prog ⟨some t, c, m⟩ (.exec t p) ⟨none, Function.update c t (.asleep p'), m⟩
  | signal (o c m) (t : T) (p : P) (p') (W : T → Bool) (ht : c t = .running p) (hc : .signal p' ∈ prog t p m)
      (hW : (∃ u q, c u = .asleep q) → ∃ u q, W u = true ∧ c u = .asleep q) :
      Step prog ⟨o, c, m⟩ (.exec t p) ⟨o, Function.update (wake W c) t (.running p'), m⟩
  | broadcast (o c m) (t : T) (p : P) (p') (ht : c t = .running p) (hc : .broadcast p' ∈ prog t p m) :
      Step prog ⟨o, c, m⟩ (.exec t p) ⟨o, Function.update (wake (fun _ => true) c) t (.running p'), m⟩
  | resume (c m) (t : T) (p : P) (ht : c t = .woken p) :
      Step prog ⟨none, c, m⟩ (.resume t) ⟨some t, Function.update c t (.running p), m⟩
  | spurious (o c m) (t : T) (p : P) (ht : c t = .asleep p) :
      Step prog ⟨o, c, m⟩ (.spurious t) ⟨o, Function.update c t (.woken p), m⟩

def start (p₀ : T → P) (m₀ : M) : State T P M := ⟨none, fun t => .running (p₀ t), m₀⟩

/-- How often a thread has executed the command at a point of its code. -/
def execs [DecidableEq P] (es : List (Event T P)) (t : T) (p : P) : Nat := es.count (.exec t p)

theorem execs_append [DecidableEq P] (es es' : List (Event T P)) (t : T) (p : P) :
    execs (es ++ es') t p = execs es t p + execs es' t p := List.count_append ..

theorem execs_exec [DecidableEq P] (es : List (Event T P)) (t u : T) (p q : P) :
    execs (es ++ [.exec t p]) u q = execs es u q + if t = u ∧ p = q then 1 else 0 := by
  simp [execs, List.count_append, List.count_singleton]

theorem execs_idle [DecidableEq P] {es : List (Event T P)} {e : Event T P}
    (he : e.genuine = false ∨ ∃ t, e = .resume t) (u : T) (q : P) : execs (es ++ [e]) u q = execs es u q := by
  have hne : e ≠ .exec u q := by
    rintro rfl
    simp [Event.genuine] at he
  simp [execs, List.count_append, hne]

omit [DecidableEq T] in
theorem wake_pc (W : T → Bool) (c : T → Ctl P) (t : T) : (wake W c t).pc = (c t).pc := by
  unfold wake
  split
  · cases c t <;> rfl
  · rfl

omit [DecidableEq T] in
theorem wake_running {W : T → Bool} {c : T → Ctl P} {t : T} {p : P} :
    wake W c t = .running p ↔ c t = .running p := by
  unfold wake
  split
  · cases c t <;> simp [Ctl.wake]
  · rfl

omit [DecidableEq T] in
theorem wake_asleep {W : T → Bool} {c : T → Ctl P} {t : T} {p : P} :
    wake W c t = .asleep p ↔ W t = false ∧ c t = .asleep p := by
  unfold wake
  cases W t
  · simp
  · cases c t <;> simp [Ctl.wake]

omit [DecidableEq T] in
theorem wake_parked {W : T → Bool} {c : T → Ctl P} {t : T} {p : P}
    (h : wake W c t = .asleep p ∨ wake W c t = .woken p) : c t = .asleep p ∨ c t = .woken p := by
  unfold wake at h
  cases hw : W t
  · simpa [hw] using h
  · cases hc : c t <;> simp_all [Ctl.wake]

variable {prog : Prog T P M} {s s' : State T P M} {e : Event T P}

/-- What a step does to the points of the code and to the memory, for the
invariants that do not speak of sleeping: nothing, or one command. -/
theorem Step.view (h : Step prog s e s') :
    (e.genuine = false ∨ ∃ t, e = .resume t) ∧ s'.pc = s.pc ∧ s'.mem = s.mem ∨
    ∃ t p c, s.ctl t = .running p ∧ c ∈ prog t p s.mem ∧ e = .exec t p ∧
      s'.pc = Function.update s.pc t c.next ∧ s'.mem = c.mem s.mem ∧ s'.ctl t = c.ctl := by
  have hup (c : T → Ctl P) (t : T) (x : Ctl P) :
      (fun u => (Function.update c t x u).pc) = Function.update (fun u => (c u).pc) t x.pc := by
    funext u
    by_cases hu : u = t
    · subst hu; simp
    · simp [hu]
  have hidle (c : T → Ctl P) (t : T) (x : Ctl P) (hx : x.pc = (c t).pc) :
      (fun u => (Function.update c t x u).pc) = fun u => (c u).pc := by
    rw [hup, hx, Function.update_eq_self]
  have hself (c : T → Ctl P) (t : T) (x : Ctl P) : Function.update c t x t = x := Function.update_self ..
  cases h with
  | run o c m t p m' p' ht hc => exact .inr ⟨t, p, _, ht, hc, rfl, hup _ _ _, rfl, hself _ _ _⟩
  | lock c m t p p' ht hc => exact .inr ⟨t, p, _, ht, hc, rfl, hup _ _ _, rfl, hself _ _ _⟩
  | unlock c m t p p' ht hc => exact .inr ⟨t, p, _, ht, hc, rfl, hup _ _ _, rfl, hself _ _ _⟩
  | wait c m t p p' ht hc => exact .inr ⟨t, p, _, ht, hc, rfl, hup _ _ _, rfl, hself _ _ _⟩
  | signal o c m t p p' W ht hc hW =>
      have hw := hup (wake W c) t (.running p')
      simp only [wake_pc] at hw
      exact .inr ⟨t, p, _, ht, hc, rfl, hw, rfl, hself _ _ _⟩
  | broadcast o c m t p p' ht hc =>
      have hw := hup (wake (fun _ => true) c) t (.running p')
      simp only [wake_pc] at hw
      exact .inr ⟨t, p, _, ht, hc, rfl, hw, rfl, hself _ _ _⟩
  | resume c m t p ht => exact .inl ⟨.inr ⟨t, rfl⟩, hidle _ _ _ (by rw [ht]; rfl), rfl⟩
  | spurious o c m t p ht => exact .inl ⟨.inl rfl, hidle _ _ _ (by rw [ht]; rfl), rfl⟩

/-- A program keeps to the mutex when its critical points are entered by a
lock, left by an unlock, and are the only points with a wait. -/
def Cmd.Keeps (crit : P → Bool) (p : P) : Cmd P M → Prop
  | .run _ p' | .signal p' | .broadcast p' => crit p' = crit p
  | .lock p' => crit p = false ∧ crit p' = true
  | .unlock p' => crit p = true ∧ crit p' = false
  | .wait p' => crit p = true ∧ crit p' = true

def Disciplined (prog : Prog T P M) (crit : P → Bool) : Prop :=
  ∀ t p m, ∀ c ∈ prog t p m, c.Keeps crit p

structure Locked (prog : Prog T P M) (crit : P → Bool) (s : State T P M) : Prop where
  owner (t : T) : s.owner = some t ↔ ∃ p, s.ctl t = .running p ∧ crit p = true
  parked (t : T) (p : P) (h : s.ctl t = .asleep p ∨ s.ctl t = .woken p) : ∃ q m, .wait p ∈ prog t q m

variable {crit : P → Bool}

omit [DecidableEq T] in
theorem Locked.parked_crit (hd : Disciplined prog crit) (hs : Locked prog crit s) {t : T} {p : P}
    (h : s.ctl t = .asleep p ∨ s.ctl t = .woken p) : crit p = true := by
  obtain ⟨q, m, hw⟩ := hs.parked t p h
  exact (hd t q m _ hw).2

omit [DecidableEq T] in
theorem Locked.running (hs : Locked prog crit s) {t : T} {p : P} (hp : s.pc t = p)
    (hw : ∀ q m, .wait p ∉ prog t q m) : s.ctl t = .running p := by
  have hpark := hs.parked t p
  unfold State.pc at hp
  cases hc : s.ctl t <;> rw [hc] at hp <;> cases hp
  · rfl
  · obtain ⟨q, m, hm⟩ := hpark (.inl hc)
    exact absurd hm (hw q m)
  · obtain ⟨q, m, hm⟩ := hpark (.inr hc)
    exact absurd hm (hw q m)

omit [DecidableEq T] in
theorem Locked.unique (hs : Locked prog crit s) {t u : T} {p q : P} (ht : s.ctl t = .running p)
    (hp : crit p = true) (hu : s.ctl u = .running q) (hq : crit q = true) : t = u := by
  have h := (hs.owner t).mpr ⟨p, ht, hp⟩
  rw [(hs.owner u).mpr ⟨q, hu, hq⟩] at h
  exact (Option.some.inj h).symm

omit [DecidableEq T] in
/-- A critical point at which nobody can be asleep is taken by one thread at
most, and by none while another thread runs at a critical point. -/
theorem Locked.unique_of_pc (hs : Locked prog crit s) {t u : T} {p : P} (ht : s.ctl t = .running p)
    (hp : crit p = true) (hu : crit (s.pc u) = true) (hw : ∀ q m, .wait (s.pc u) ∉ prog u q m) : u = t :=
  hs.unique (hs.running rfl hw) hu ht hp

omit [DecidableEq T] in
theorem start_locked {p₀ : T → P} (h : ∀ t, crit (p₀ t) = false) (m₀ : M) :
    Locked prog crit (start p₀ m₀) := by
  constructor
  · intro t
    simp [start, h t]
  · intro t p hp
    simp [start] at hp

/-- A step that moves one thread within, into or out of its critical points
together with the mutex. -/
theorem Locked.move {o o' : Option T} {c c' : T → Ctl P} {m m' : M} (hs : Locked prog crit ⟨o, c, m⟩)
    (t : T) (x : Ctl P) (ho : ∀ u, u ≠ t → (o' = some u ↔ o = some u))
    (hx : o' = some t ↔ ∃ p, x = .running p ∧ crit p = true)
    (hw : ∀ p, x = .asleep p ∨ x = .woken p → ∃ q m, .wait p ∈ prog t q m)
    (hrun : ∀ u p, c' u = .running p ↔ c u = .running p)
    (hpark : ∀ u p, c' u = .asleep p ∨ c' u = .woken p → c u = .asleep p ∨ c u = .woken p) :
    Locked prog crit ⟨o', Function.update c' t x, m'⟩ := by
  constructor
  · intro u
    by_cases hu : u = t
    · subst hu; simpa using hx
    · simpa only [Function.update_of_ne hu, ho u hu, hrun] using hs.owner u
  · intro u p hp
    by_cases hu : u = t
    · subst hu; exact hw p (by simpa using hp)
    · simp only [Function.update_of_ne hu] at hp
      exact hs.parked u p (hpark u p hp)

theorem Step.locked (hd : Disciplined prog crit) (h : Step prog s e s') (hs : Locked prog crit s) :
    Locked prog crit s' := by
  cases h with
  | run o c m t p m' p' ht hc =>
      have hk : crit p' = crit p := hd t p m _ hc
      have ho := hs.owner t
      simp only [ht, Ctl.running.injEq, exists_eq_left'] at ho
      exact hs.move t _ (fun _ _ => Iff.rfl) (by simpa [hk] using ho) (by simp) (fun _ _ => Iff.rfl) (fun _ _ h => h)
  | lock c m t p p' ht hc =>
      have hk : crit p = false ∧ crit p' = true := hd t p m _ hc
      refine hs.move t _ (fun u hu => ?_) (by simp [hk.2]) (by simp) (fun _ _ => Iff.rfl) (fun _ _ h => h)
      simp [Ne.symm hu]
  | unlock c m t p p' ht hc =>
      have hk : crit p = true ∧ crit p' = false := hd t p m _ hc
      refine hs.move t _ (fun u hu => ?_) (by simp [hk.2]) (by simp) (fun _ _ => Iff.rfl) (fun _ _ h => h)
      simp [Ne.symm hu]
  | wait c m t p p' ht hc =>
      refine hs.move t _ (fun u hu => ?_) (by simp) ?_ (fun _ _ => Iff.rfl) (fun _ _ h => h)
      · simp [Ne.symm hu]
      · intro q hq
        have hq' : p' = q := by simpa using hq
        exact hq' ▸ ⟨p, m, hc⟩
  | signal o c m t p p' W ht hc hW =>
      have hk : crit p' = crit p := hd t p m _ hc
      have ho := hs.owner t
      simp only [ht, Ctl.running.injEq, exists_eq_left'] at ho
      exact hs.move t _ (fun _ _ => Iff.rfl) (by simpa [hk] using ho) (by simp) (fun _ _ => wake_running)
        (fun _ _ => wake_parked)
  | broadcast o c m t p p' ht hc =>
      have hk : crit p' = crit p := hd t p m _ hc
      have ho := hs.owner t
      simp only [ht, Ctl.running.injEq, exists_eq_left'] at ho
      exact hs.move t _ (fun _ _ => Iff.rfl) (by simpa [hk] using ho) (by simp) (fun _ _ => wake_running)
        (fun _ _ => wake_parked)
  | resume c m t p ht =>
      refine hs.move t _ (fun u hu => ?_) ?_ (by simp) (fun _ _ => Iff.rfl) (fun _ _ h => h)
      · simp [Ne.symm hu]
      · simp [hs.parked_crit hd (.inr ht)]
  | spurious o c m t p ht =>
      have ho := hs.owner t
      simp only [ht, reduceCtorEq, false_and, exists_false, iff_false] at ho
      refine hs.move t _ (fun _ _ => Iff.rfl) (by simpa using ho) ?_ (fun _ _ => Iff.rfl) (fun _ _ h => h)
      intro q hq
      have hq' : p = q := by simpa using hq
      exact hq' ▸ hs.parked t p (.inl ht)

theorem run_locked {p₀ : T → P} {m₀ : M} {es : List (Event T P)} (hd : Disciplined prog crit)
    (h₀ : ∀ t, crit (p₀ t) = false) (h : Run (Step prog) (start p₀ m₀) es s) : Locked prog crit s :=
  Reachable.invariant (start_locked h₀ m₀) (fun _ _ _ hs hl => hl.locked hd hs) h.reachable

/-- Short of a state with everybody asleep, somebody can go on without being
woken for no reason. -/
theorem Locked.exists_step (hd : Disciplined prog crit) (htotal : ∀ t p m, prog t p m ≠ [])
    (hs : Locked prog crit s) {t : T} (ht : ∀ p, s.ctl t ≠ .asleep p) :
    ∃ e s', Step prog s e s' ∧ e.genuine = true := by
  obtain ⟨o, c, m⟩ := s
  have hfree (u : T) (p : P) (hu : c u = .running p) (hp : crit p = true ↔ o = some u)
      (hl : o = none ∨ o = some u) : ∃ e s', Step prog ⟨o, c, m⟩ e s' ∧ e.genuine = true := by
    obtain ⟨cmd, hc⟩ := List.exists_mem_of_ne_nil _ (htotal u p m)
    have hk := hd u p m cmd hc
    cases cmd with
    | run m' p' => exact ⟨_, _, .run o c m u p m' p' hu hc, rfl⟩
    | signal p' => exact ⟨_, _, .signal o c m u p p' (fun _ => true) hu hc (by simp), rfl⟩
    | broadcast p' => exact ⟨_, _, .broadcast o c m u p p' hu hc, rfl⟩
    | lock p' =>
        have ho : o = none := hl.resolve_right (by rw [← hp, hk.1]; decide)
        subst ho
        exact ⟨_, _, .lock c m u p p' hu hc, rfl⟩
    | unlock p' =>
        have ho := hp.mp hk.1
        subst ho
        exact ⟨_, _, .unlock c m u p p' hu hc, rfl⟩
    | wait p' =>
        have ho := hp.mp hk.1
        subst ho
        exact ⟨_, _, .wait c m u p p' hu hc, rfl⟩
  cases ho : o with
  | some u =>
      obtain ⟨p, hu, hp⟩ := (hs.owner u).mp ho
      exact ho ▸ hfree u p hu ⟨fun _ => ho, fun _ => hp⟩ (.inr ho)
  | none =>
      cases hc : c t with
      | asleep p => exact absurd hc (ht p)
      | woken p => exact ⟨_, _, .resume c m t p hc, rfl⟩
      | running p =>
          refine ho ▸ hfree t p hc ⟨fun hp => ?_, fun h => ?_⟩ (.inl ho)
          · exact (hs.owner t).mpr ⟨p, hc, hp⟩
          · rw [ho] at h; cases h

/-- Steps that wake nobody for no reason. -/
def Quiet (prog : Prog T P M) : State T P M → Event T P → State T P M → Prop :=
  Guarded (Step prog) (fun _ e => e.genuine = true)

/-! One thread on its own, with the control of the others untouched. -/

section Solo

variable {o : Option T} {c : T → Ctl P} {m m' : M} {t : T} {p p' : P}

theorem solo_run (hc : .run m' p' ∈ prog t p m) :
    Quiet prog ⟨o, Function.update c t (.running p), m⟩ (.exec t p) ⟨o, Function.update c t (.running p'), m'⟩ := by
  have h := Step.run o (Function.update c t (.running p)) m t p m' p' (Function.update_self ..) hc
  rw [Function.update_idem] at h
  exact ⟨rfl, h⟩

theorem solo_lock (hc : .lock p' ∈ prog t p m) : Quiet prog ⟨none, Function.update c t (.running p), m⟩ (.exec t p)
    ⟨some t, Function.update c t (.running p'), m⟩ := by
  have h := Step.lock (Function.update c t (.running p)) m t p p' (Function.update_self ..) hc
  rw [Function.update_idem] at h
  exact ⟨rfl, h⟩

theorem solo_unlock (hc : .unlock p' ∈ prog t p m) : Quiet prog ⟨some t, Function.update c t (.running p), m⟩
    (.exec t p) ⟨none, Function.update c t (.running p'), m⟩ := by
  have h := Step.unlock (Function.update c t (.running p)) m t p p' (Function.update_self ..) hc
  rw [Function.update_idem] at h
  exact ⟨rfl, h⟩

theorem solo_wait (hc : .wait p' ∈ prog t p m) : Quiet prog ⟨some t, Function.update c t (.running p), m⟩
    (.exec t p) ⟨none, Function.update c t (.asleep p'), m⟩ := by
  have h := Step.wait (Function.update c t (.running p)) m t p p' (Function.update_self ..) hc
  rw [Function.update_idem] at h
  exact ⟨rfl, h⟩

theorem solo_broadcast (hc : .broadcast p' ∈ prog t p m) : Quiet prog ⟨o, Function.update c t (.running p), m⟩
    (.exec t p) ⟨o, Function.update (wake (fun _ => true) c) t (.running p'), m⟩ := by
  have h := Step.broadcast o (Function.update c t (.running p)) m t p p' (Function.update_self ..) hc
  have he : Function.update (wake (fun _ => true) (Function.update c t (.running p))) t (.running p') =
      Function.update (wake (fun _ => true) c) t (.running p') := by
    funext u
    by_cases hu : u = t
    · subst hu; simp
    · simp [wake, hu]
  rw [he] at h
  exact ⟨rfl, h⟩

theorem solo_resume (ht : c t = .woken p) :
    Quiet prog ⟨none, c, m⟩ (.resume t) ⟨some t, Function.update c t (.running p), m⟩ :=
  ⟨rfl, .resume c m t p ht⟩

end Solo

/-- A thread takes the first alternative at the point where it is. -/
def turn (prog : Prog T P M) (s : State T P M) (t : T) : Option (State T P M) :=
  match s.ctl t with
  | .running p => match prog t p s.mem with
    | .run m p' :: _ => some ⟨s.owner, Function.update s.ctl t (.running p'), m⟩
    | .lock p' :: _ => if s.owner = none then some ⟨some t, Function.update s.ctl t (.running p'), s.mem⟩ else none
    | .unlock p' :: _ => if s.owner = some t then some ⟨none, Function.update s.ctl t (.running p'), s.mem⟩ else none
    | _ => none
  | _ => none

theorem turn_step {t : T} (h : turn prog s t = some s') : ∃ e, Step prog s e s' := by
  obtain ⟨o, c, m⟩ := s
  simp only [turn] at h
  split at h
  · rename_i p ht
    split at h
    · rename_i hc
      cases h
      exact ⟨_, .run o c m t p _ _ ht (by simp [hc])⟩
    · rename_i hc
      obtain ⟨rfl, heq⟩ := Option.ite_none_right_eq_some.mp h
      cases heq
      exact ⟨_, .lock c m t p _ ht (by simp [hc])⟩
    · rename_i hc
      obtain ⟨rfl, heq⟩ := Option.ite_none_right_eq_some.mp h
      cases heq
      exact ⟨_, .unlock c m t p _ ht (by simp [hc])⟩
    · cases h
  · cases h

theorem turns_run {ts : List T} (h : ts.foldlM (turn prog) s = some s') : ∃ es, Run (Step prog) s es s' := by
  induction ts generalizing s with
  | nil =>
      cases h
      exact ⟨[], .nil⟩
  | cons t ts ih =>
      simp only [List.foldlM_cons, Option.bind_eq_bind, Option.bind_eq_some_iff] at h
      obtain ⟨u, hu, ht⟩ := h
      obtain ⟨e, he⟩ := turn_step hu
      obtain ⟨es, hes⟩ := ih ht
      exact ⟨_, (Run.single he).append hes⟩

end UnixProg.Lib.Monitor

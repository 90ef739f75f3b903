import UnixProg.Lib.AtomicObject
import UnixProg.Lib.RwLock

namespace UnixProg.Pthreads.PthreadRwlock

open Lib Transition AtomicObject RwLock

variable {T α : Type} [DecidableEq T]

abbrev MAX_PROPS : Nat := 64

/-- A `void *`, where `none` is the null pointer. -/
abbrev Ptr (α : Type) := Option α

abbrev Properties (α : Type) := Fin MAX_PROPS → Ptr α

inductive Op (α : Type)
  | propSet (idx : Fin MAX_PROPS) (val : Ptr α)
  | propGet (idx : Fin MAX_PROPS)
deriving DecidableEq

inductive Ret (α : Type)
  | void
  | ptr (propval : Ptr α)
deriving DecidableEq

/-- The statements of `prop_set()`. The store takes time, and the property has
no definite value until it is over. -/
inductive SetPc
  | wrlock
  | printf
  | store
  | storing
  | millisleep
  | unlock
  | ret
deriving DecidableEq

inductive GetPc (α : Type)
  | millisleep
  | rdlock
  | printf
  | load
  | unlock (propval : Ptr α)
  | ret (propval : Ptr α)
deriving DecidableEq

inductive Pc (α : Type)
  | idle
  | propSet (idx : Fin MAX_PROPS) (val : Ptr α) (p : SetPc)
  | propGet (idx : Fin MAX_PROPS) (p : GetPc α)
deriving DecidableEq

inductive Line (T α : Type)
  | writer (t : T) (idx : Fin MAX_PROPS) (val : Ptr α)
  | reader (t : T) (idx : Fin MAX_PROPS)
deriving DecidableEq

structure State (T α : Type) where
  rwlock : Lock T
  properties : Properties α
  pc : T → Pc α
  output : List (Line T α)
  exited : Bool

def State.goto (s : State T α) (t : T) (p : Pc α) : State T α := { s with pc := Function.update s.pc t p }

omit [DecidableEq T] in
/-- An `errx()` ends the process with all its threads. -/
def State.errx (s : State T α) : State T α := { s with exited := true }

/-- One statement of `prop_set()`. `fails` is the error of the lock, `junk` what
is in memory during the store. -/
def propSet (t : T) (idx : Fin MAX_PROPS) (val : Ptr α) (fails : Bool) (junk : Ptr α) (s : State T α) : SetPc → Option (State T α)
  | .wrlock =>
      if fails then some s.errx
      else (s.rwlock.wrlock t).map (fun l => { s.goto t (.propSet idx val .printf) with rwlock := l })
  | .printf => some { s.goto t (.propSet idx val .store) with output := s.output ++ [.writer t idx val] }
  | .store => some { s.goto t (.propSet idx val .storing) with properties := Function.update s.properties idx junk }
  | .storing => some { s.goto t (.propSet idx val .millisleep) with properties := Function.update s.properties idx val }
  | .millisleep => some (s.goto t (.propSet idx val .unlock))
  | .unlock => some { s.goto t (.propSet idx val .ret) with rwlock := s.rwlock.unlock t }
  | .ret => some (s.goto t .idle)

def propGet (t : T) (idx : Fin MAX_PROPS) (fails : Bool) (s : State T α) : GetPc α → Option (State T α)
  | .millisleep => some (s.goto t (.propGet idx .rdlock))
  | .rdlock =>
      if fails then some s.errx
      else (s.rwlock.rdlock t).map (fun l => { s.goto t (.propGet idx .printf) with rwlock := l })
  | .printf => some { s.goto t (.propGet idx .load) with output := s.output ++ [.reader t idx] }
  | .load => some (s.goto t (.propGet idx (.unlock (s.properties idx))))
  | .unlock propval => some { s.goto t (.propGet idx (.ret propval)) with rwlock := s.rwlock.unlock t }
  | .ret _ => some (s.goto t .idle)

def begin : Op α → Pc α
  | .propSet idx val => .propSet idx val .wrlock
  | .propGet idx => .propGet idx .millisleep

inductive Event (T α : Type)
  | call (t : T) (op : Op α)
  | exec (t : T) (fails : Bool) (junk : Ptr α)

/-- The threads call the two functions in whatever order, with any arguments. -/
def next (s : State T α) (e : Event T α) : Option (State T α) :=
  if s.exited then none
  else match e with
    | .call t op => match s.pc t with
      | .idle => some (s.goto t (begin op))
      | .propSet .. | .propGet .. => none
    | .exec t fails junk => match s.pc t with
      | .idle => none
      | .propSet idx val p => propSet t idx val fails junk s p
      | .propGet idx p => propGet t idx fails s p

def initial (T α : Type) : State T α := ⟨.free, fun _ => none, fun _ => .idle, [], false⟩

def act (s : State T α) : Event T α → List (Act T (Op α) (Ret α))
  | .call t op => [.call t op]
  | .exec t _ _ => match s.pc t with
    | .propSet _ _ .ret => [.ret t .void]
    | .propGet _ (.ret propval) => [.ret t (.ptr propval)]
    | _ => []

/-- The calls and returns of a run. -/
def history (es : List (Event T α)) : List (Act T (Op α) (Ret α)) := trace next act (initial T α) es

/-- The properties as one would have them without threads. -/
def sequential (α : Type) : Object (Op α) (Ret α) (Properties α) where
  init := fun _ => none
  apply
    | .propSet idx val, properties => (Function.update properties idx val, .void)
    | .propGet idx, properties => (properties, .ptr (properties idx))

/-- The value of the last `prop_set()` on the index. -/
def latest (idx : Fin MAX_PROPS) (ops : List (Op α)) : Ptr α :=
  (ops.filterMap fun
    | .propSet i val => if i = idx then some val else none
    | .propGet _ => none).getLast?.getD none

theorem latest_snoc (idx : Fin MAX_PROPS) (ops : List (Op α)) (op : Op α) :
    latest idx (ops ++ [op]) = ((sequential α).apply op (fun i => latest i ops)).1 idx := by
  cases op with
  | propGet i => simp [latest, sequential]
  | propSet i val =>
      by_cases hi : i = idx
      · subst hi
        simp [latest, sequential]
      · simp [latest, sequential, hi, Ne.symm hi]

/-- A call takes effect with the end of its store, or with its load. -/
def phase : Pc α → Phase (Op α) (Ret α)
  | .idle => .idle
  | .propSet idx val p => match p with
    | .wrlock | .printf | .store | .storing => .called (.propSet idx val)
    | .millisleep | .unlock | .ret => .done .void
  | .propGet idx p => match p with
    | .millisleep | .rdlock | .printf | .load => .called (.propGet idx)
    | .unlock propval | .ret propval => .done (.ptr propval)

def Pc.writes : Pc α → Bool
  | .propSet _ _ p => match p with
    | .printf | .store | .storing | .millisleep | .unlock => true
    | .wrlock | .ret => false
  | .idle | .propGet .. => false

def Pc.reads : Pc α → Bool
  | .propGet _ p => match p with
    | .printf | .load | .unlock _ => true
    | .millisleep | .rdlock | .ret _ => false
  | .idle | .propSet .. => false

/-- The properties are those of the sequential object, but for one that is
being stored. -/
structure Simulates (s : State T α) (a : AtomicObject.State T (Op α) (Ret α) (Properties α)) : Prop where
  phase (t) : a.phase t = phase (s.pc t)
  writes (t) (h : (s.pc t).writes = true) : s.rwlock.Writes t
  reads (t) (h : (s.pc t).reads = true) : s.rwlock.Reads t
  properties (idx) (h : ∀ t val, s.pc t ≠ .propSet idx val .storing) : s.properties idx = a.obj idx

variable {s s' : State T α} {a a' : AtomicObject.State T (Op α) (Ret α) (Properties α)} {t : T} {p : Pc α}
  {idx : Fin MAX_PROPS} {val junk : Ptr α} {fails : Bool} {e : Event T α} {es : List (Event T α)}

theorem Simulates.goto (hs : Simulates s a) (hpc : s'.pc = Function.update s.pc t p)
    (hphase : a'.phase = Function.update a.phase t (PthreadRwlock.phase p))
    (hkeeps : s.rwlock.Keeps s'.rwlock t) (hw : p.writes = true → s'.rwlock.Writes t)
    (hr : p.reads = true → s'.rwlock.Reads t)
    (hmem : ∀ idx, (∀ t val, s'.pc t ≠ .propSet idx val .storing) → s'.properties idx = a'.obj idx) : Simulates s' a' := by
  constructor
  case phase =>
    intro u
    rw [hpc, hphase]
    by_cases hu : u = t
    · subst hu
      simp
    · simpa [hu] using hs.phase u
  case writes =>
    intro u h
    rw [hpc] at h
    by_cases hu : u = t
    · subst hu
      rw [Function.update_self] at h
      exact hw h
    · rw [Function.update_of_ne hu] at h
      exact (hkeeps u hu).1 (hs.writes u h)
  case reads =>
    intro u h
    rw [hpc] at h
    by_cases hu : u = t
    · subst hu
      rw [Function.update_self] at h
      exact hr h
    · rw [Function.update_of_ne hu] at h
      exact (hkeeps u hu).2 (hs.reads u h)
  case properties => exact hmem

/-- Whoever stores there afterwards did so before. -/
theorem Simulates.still (hs : Simulates s a) (hpc : s'.pc = Function.update s.pc t p)
    (ht : ∀ val, s.pc t ≠ .propSet idx val .storing) (h : ∀ u val, s'.pc u ≠ .propSet idx val .storing) :
    s.properties idx = a.obj idx := by
  apply hs.properties
  intro u val hu
  by_cases hut : u = t
  · subst hut
    exact ht val hu
  · apply h u val
    rw [hpc, Function.update_of_ne hut, hu]

/-- The sequential object keeps up with a step, and sees the same calls and returns. -/
def Follows (s' : State T α) (a : AtomicObject.State T (Op α) (Ret α) (Properties α)) (as : List (Act T (Op α) (Ret α))) :
    Prop :=
  ∃ ks a', Run (Step (sequential α)) a ks a' ∧ Simulates s' a' ∧ a'.acts = a.acts ++ as

theorem Simulates.follows (hs : Simulates s' a) : Follows s' a [] := ⟨[], a, .nil, hs, (List.append_nil _).symm⟩

theorem Simulates.quiet (hs : Simulates s a) (hpc : s'.pc = Function.update s.pc t p)
    (hproperties : s'.properties = s.properties) (hphase : PthreadRwlock.phase p = PthreadRwlock.phase (s.pc t))
    (hstoring : ∀ idx val, s.pc t ≠ .propSet idx val .storing) (hkeeps : s.rwlock.Keeps s'.rwlock t)
    (hw : p.writes = true → s'.rwlock.Writes t) (hr : p.reads = true → s'.rwlock.Reads t) : Follows s' a [] := by
  apply Simulates.follows
  refine hs.goto hpc ?_ hkeeps hw hr ?_
  · rw [hphase, ← hs.phase, Function.update_eq_self]
  · intro idx h
    rw [hproperties]
    exact hs.still hpc (hstoring idx) h

omit [DecidableEq T] in
theorem Simulates.errx (hs : Simulates s a) : Simulates s.errx a := ⟨hs.phase, hs.writes, hs.reads, hs.properties⟩

theorem propSet_follows (hs : Simulates s a) {q : SetPc} (hpc : s.pc t = .propSet idx val q)
    (h : propSet t idx val fails junk s q = some s') : Follows s' a (act s (.exec t fails junk)) := by
  have hact (hq : q ≠ .ret) : act s (.exec t fails junk) = [] := by
    cases q with
    | ret => exact absurd rfl hq
    | wrlock | printf | store | storing | millisleep | unlock => simp only [act, hpc]
  have hwrites (hq : (s.pc t).writes = true) : s.rwlock.Writes t := hs.writes t hq
  cases q with
  | wrlock =>
      rw [hact (by simp)]
      cases fails with
      | true =>
          obtain rfl : s.errx = s' := Option.some.inj h
          exact hs.errx.follows
      | false =>
          obtain ⟨l, hl, rfl⟩ := Option.map_eq_some_iff.mp h
          obtain ⟨hlt, hkeeps⟩ := wrlock_keeps hl
          exact hs.quiet rfl rfl (by rw [hpc]; rfl) (by simp [hpc]) hkeeps (fun _ => hlt) (by simp [Pc.reads])
  | printf | millisleep =>
      obtain rfl := Option.some.inj h
      rw [hact (by simp)]
      exact hs.quiet rfl rfl (by rw [hpc]; rfl) (by simp [hpc]) (.refl _ t) (fun _ => hwrites (by rw [hpc]; rfl))
        (by simp [Pc.reads])
  | store =>
      obtain rfl := Option.some.inj h
      rw [hact (by simp)]
      apply Simulates.follows
      refine hs.goto rfl ?_ (.refl _ t) (fun _ => hwrites (by rw [hpc]; rfl)) (by simp [Pc.reads]) ?_
      · rw [← Function.update_eq_self t a.phase, hs.phase, hpc]
        simp [phase]
      · intro i hi
        have hne : i ≠ idx := by
          rintro rfl
          exact hi t val (Function.update_self ..)
        exact (Function.update_of_ne hne ..).trans (hs.still rfl (by simp [hpc]) hi)
  | storing =>
      obtain rfl := Option.some.inj h
      rw [hact (by simp)]
      refine ⟨_, _, .single (.effect t (.propSet idx val) (by rw [hs.phase, hpc]; rfl)), ?_, (List.append_nil _).symm⟩
      refine hs.goto rfl rfl (.refl _ t) (fun _ => hwrites (by rw [hpc]; rfl)) (by simp [Pc.reads]) ?_
      intro i hi
      by_cases hne : i = idx
      · subst hne
        simp [sequential]
      · simp only [sequential, Function.update_of_ne hne]
        exact hs.still rfl (by simp [hpc, Ne.symm hne]) hi
  | unlock =>
      obtain rfl := Option.some.inj h
      rw [hact (by simp)]
      exact hs.quiet rfl rfl (by rw [hpc]; rfl) (by simp [hpc])
        (unlock_keeps s.rwlock t) (by simp [Pc.writes]) (by simp [Pc.reads])
  | ret =>
      obtain rfl := Option.some.inj h
      have hret : act s (.exec t fails junk) = [.ret t .void] := by simp only [act, hpc]
      rw [hret]
      refine ⟨_, _, .single (.ret t .void (by rw [hs.phase, hpc]; rfl)), ?_, rfl⟩
      refine hs.goto rfl rfl (.refl _ t) (by simp [Pc.writes]) (by simp [Pc.reads]) ?_
      exact fun i hi => hs.still rfl (by simp [hpc]) hi

theorem propGet_follows (hs : Simulates s a) {q : GetPc α} (hpc : s.pc t = .propGet idx q)
    (h : propGet t idx fails s q = some s') : Follows s' a (act s (.exec t fails junk)) := by
  have hact (hq : ∀ propval, q ≠ .ret propval) : act s (.exec t fails junk) = [] := by
    cases q with
    | ret propval => exact absurd rfl (hq propval)
    | millisleep | rdlock | printf | load | unlock => simp only [act, hpc]
  have hreads (hq : (s.pc t).reads = true) : s.rwlock.Reads t := hs.reads t hq
  cases q with
  | millisleep =>
      obtain rfl := Option.some.inj h
      rw [hact (by simp)]
      exact hs.quiet rfl rfl (by rw [hpc]; rfl) (by simp [hpc]) (.refl _ t) (by simp [Pc.writes]) (by simp [Pc.reads])
  | rdlock =>
      rw [hact (by simp)]
      cases fails with
      | true =>
          obtain rfl : s.errx = s' := Option.some.inj h
          exact hs.errx.follows
      | false =>
          obtain ⟨l, hl, rfl⟩ := Option.map_eq_some_iff.mp h
          obtain ⟨hlt, hkeeps⟩ := rdlock_keeps hl
          exact hs.quiet rfl rfl (by rw [hpc]; rfl) (by simp [hpc]) hkeeps (by simp [Pc.writes]) (fun _ => hlt)
  | printf =>
      obtain rfl := Option.some.inj h
      rw [hact (by simp)]
      exact hs.quiet rfl rfl (by rw [hpc]; rfl) (by simp [hpc]) (.refl _ t) (by simp [Pc.writes])
        (fun _ => hreads (by rw [hpc]; rfl))
  | load =>
      obtain rfl := Option.some.inj h
      rw [hact (by simp)]
      -- a writer that is storing would hold the lock together with this reader
      have hvalue : s.properties idx = a.obj idx := by
        apply hs.properties
        intro u val hu
        have hwrites := hs.writes u (by rw [hu]; rfl)
        exact hwrites.not_reads (hreads (by rw [hpc]; rfl))
      refine ⟨_, _, .single (.effect t (.propGet idx) (by rw [hs.phase, hpc]; rfl)), ?_, (List.append_nil _).symm⟩
      refine hs.goto rfl ?_ (.refl _ t) (by simp [Pc.writes]) (fun _ => hreads (by rw [hpc]; rfl)) ?_
      · rw [hvalue]
        rfl
      · exact fun i hi => hs.still rfl (by simp [hpc]) hi
  | unlock propval =>
      obtain rfl := Option.some.inj h
      rw [hact (by simp)]
      exact hs.quiet rfl rfl (by rw [hpc]; rfl) (by simp [hpc])
        (unlock_keeps s.rwlock t) (by simp [Pc.writes]) (by simp [Pc.reads])
  | ret propval =>
      obtain rfl := Option.some.inj h
      have hret : act s (.exec t fails junk) = [.ret t (.ptr propval)] := by simp only [act, hpc]
      rw [hret]
      refine ⟨_, _, .single (.ret t (.ptr propval) (by rw [hs.phase, hpc]; rfl)), ?_, rfl⟩
      refine hs.goto rfl rfl (.refl _ t) (by simp [Pc.writes]) (by simp [Pc.reads]) ?_
      exact fun i hi => hs.still rfl (by simp [hpc]) hi

theorem next_follows (hs : Simulates s a) (h : next s e = some s') : Follows s' a (act s e) := by
  simp only [next, Option.ite_none_left_eq_some] at h
  obtain ⟨-, h⟩ := h
  cases e with
  | call t op =>
      cases hpc : s.pc t with
      | propSet | propGet => simp [hpc] at h
      | idle =>
          simp only [hpc, Option.some.injEq] at h
          subst h
          refine ⟨_, _, .single (.call t op (by rw [hs.phase, hpc]; rfl)), ?_, rfl⟩
          cases op with
          | propSet | propGet =>
              refine hs.goto rfl rfl (.refl _ t) (by simp [begin, Pc.writes]) (by simp [begin, Pc.reads]) ?_
              exact fun i hi => hs.still rfl (by simp [hpc]) hi
  | exec t fails junk =>
      cases hpc : s.pc t with
      | idle => simp [hpc] at h
      | propSet idx val q =>
          simp only [hpc] at h
          exact propSet_follows hs hpc h
      | propGet idx q =>
          simp only [hpc] at h
          exact propGet_follows hs hpc h

theorem initial_simulates (T α : Type) [DecidableEq T] : Simulates (initial T α) (AtomicObject.initial (sequential α)) where
  phase _ := rfl
  writes _ h := by cases h
  reads _ h := by cases h
  properties _ _ := rfl

theorem history_linearizable (h : Run (Exec next) (initial T α) es s) : Linearizable (sequential α) (history es) := by
  obtain ⟨ks, a, ha, -, hacts⟩ := h.simulate (Step (sequential α)) (AtomicObject.initial (sequential α))
    (fun es s a => Run (Exec next) (initial T α) es s ∧ Simulates s a ∧ a.acts = history es)
    ⟨.nil, initial_simulates T α, rfl⟩ (by
      rintro es e s s' a hr ⟨-, hs, hacts⟩ hl
      obtain ⟨ks, a', ha, hs', hacts'⟩ := next_follows hs hl
      exact ⟨ks, a', ha, hr.snoc hl, hs', by rw [hacts', hacts, history, history, trace_snoc _ hr]⟩)
  rw [← hacts.2]
  exact linearizable ha.reachable

theorem sequential_run (ops : List (Op α)) : (sequential α).run ops = fun i => latest i ops := by
  induction ops using List.reverseRecOn with
  | nil => rfl
  | append_singleton ops op ih =>
      funext i
      rw [Object.run_snoc, ih, latest_snoc]

/-- There is an order of the calls in which no call comes before one that ended
before it began, and each `prop_get()` returned what the latest `prop_set()`
before it had set, or a null pointer. -/
theorem linearizable_properties (es : List (Event T α)) (s : State T α) (h : Run (Exec next) (initial T α) es s) :
    ∃ order : List (Call T (Op α) (Ret α)), order.Perm (calls (history es)) ∧
      order.Pairwise (fun a b => ¬ b.FinishedBefore a) ∧
      ∀ before c after idx n r, order = before ++ c :: after → c.op = .propGet idx → c.ended = some (n, r) →
        r = .ptr (latest idx (before.map Call.op)) := by
  obtain ⟨order, hperm, hreal, hresult⟩ := history_linearizable h
  refine ⟨order, hperm, hreal, fun before c after idx n r horder hop hended => ?_⟩
  calc r = (sequential α).result (before.map Call.op) c.op := hresult before c after n r horder hended
    _ = .ptr ((sequential α).run (before.map Call.op) idx) := by rw [hop]; rfl
    _ = .ptr (latest idx (before.map Call.op)) := by rw [sequential_run]

/-- A reader gets a null pointer while a writer waits for the lock, and then
the new value. -/
def overlapping (idx : Fin MAX_PROPS) : List (Event Nat Nat) :=
  .call 0 (.propSet idx (some 7)) :: .call 1 (.propGet idx) :: List.replicate 5 (.exec 1 false none) ++
    List.replicate 3 (.exec 0 false (some 9)) ++ [.exec 1 false none, .call 1 (.propGet idx), .exec 1 false none] ++
    List.replicate 3 (.exec 0 false none) ++ List.replicate 5 (.exec 1 false none)

theorem linearizable_properties_overlapping : ∃ s, Run (Exec next) (initial Nat Nat) (overlapping 5) s ∧
    calls (history (overlapping 5)) =
      [⟨0, .propSet 5 (some 7), 0, none⟩, ⟨1, .propGet 5, 1, some (2, .ptr none)⟩, ⟨1, .propGet 5, 3, some (4, .ptr (some 7))⟩] ∧
    ∃ order, order.Perm (calls (history (overlapping 5))) ∧ order.Pairwise (fun a b => ¬ b.FinishedBefore a) ∧
      ∀ before c after idx n r, order = before ++ c :: after → c.op = .propGet idx → c.ended = some (n, r) →
        r = .ptr (latest idx (before.map Call.op)) := by
  obtain ⟨s, hs⟩ : ∃ s, replay next (initial Nat Nat) (overlapping 5) = some s := ⟨_, rfl⟩
  exact ⟨s, replay_run hs, by decide, linearizable_properties (overlapping 5) s (replay_run hs)⟩

end UnixProg.Pthreads.PthreadRwlock

import UnixProg.Lib.Transition
import Mathlib.Logic.Function.Basic

namespace UnixProg.Lib.AtomicObject

open Transition

variable {T O R S : Type}

/-- An object that executes one operation after the other. -/
structure Object (O R S : Type) where
  init : S
  apply : O → S → S × R

def Object.run (obj : Object O R S) (os : List O) : S := os.foldl (fun s o => (obj.apply o s).1) obj.init

/-- What an operation returns after some others. -/
def Object.result (obj : Object O R S) (os : List O) (o : O) : R := (obj.apply o (obj.run os)).2

@[simp] theorem Object.run_snoc (obj : Object O R S) (os : List O) (o : O) :
    obj.run (os ++ [o]) = (obj.apply o (obj.run os)).1 := by
  simp [run]

/-- What the threads see of the object. -/
inductive Act (T O R : Type)
  | call (t : T) (o : O)
  | ret (t : T) (r : R)
deriving DecidableEq

/-- A call of an operation, with the places in the history where it began and
ended, and with what it returned. -/
structure Call (T O R : Type) where
  thread : T
  op : O
  began : Nat
  ended : Option (Nat × R)
deriving DecidableEq

def Call.FinishedBefore (a b : Call T O R) : Prop := ∃ n r, a.ended = some (n, r) ∧ n < b.began

variable [DecidableEq T]

def Call.finish (t : T) (n : Nat) (r : R) (c : Call T O R) : Call T O R :=
  if c.thread = t ∧ c.ended.isNone then { c with ended := some (n, r) } else c

def record (cs : List (Call T O R)) : Act T O R × Nat → List (Call T O R)
  | (.call t o, n) => cs ++ [⟨t, o, n, none⟩]
  | (.ret t r, n) => cs.map (Call.finish t n r)

/-- The calls of a history, in the order in which they began. -/
def calls (acts : List (Act T O R)) : List (Call T O R) := acts.zipIdx.foldl record []

/-- There is an order of all calls, the open ones included, in which no call
comes before one that ended before it began, and each call returned what the
object returns in that order. -/
def Linearizable (obj : Object O R S) (acts : List (Act T O R)) : Prop :=
  ∃ order : List (Call T O R), order.Perm (calls acts) ∧ order.Pairwise (fun a b => ¬ b.FinishedBefore a) ∧
    ∀ before c after n r, order = before ++ c :: after → c.ended = some (n, r) → r = obj.result (before.map Call.op) c.op

theorem calls_snoc (acts : List (Act T O R)) (a : Act T O R) :
    calls (acts ++ [a]) = record (calls acts) (a, acts.length) := by
  simp [calls, List.zipIdx_append]

@[simp] theorem finish_thread (t : T) (n : Nat) (r : R) (c : Call T O R) : (c.finish t n r).thread = c.thread := by
  rw [Call.finish]
  split <;> rfl

@[simp] theorem finish_op (t : T) (n : Nat) (r : R) (c : Call T O R) : (c.finish t n r).op = c.op := by
  rw [Call.finish]
  split <;> rfl

@[simp] theorem finish_began (t : T) (n : Nat) (r : R) (c : Call T O R) : (c.finish t n r).began = c.began := by
  rw [Call.finish]
  split <;> rfl

theorem finish_ended {t : T} {n m : Nat} {r q : R} {c : Call T O R} (h : (c.finish t n r).ended = some (m, q)) :
    c.ended = some (m, q) ∨ c.thread = t ∧ c.ended = none ∧ m = n ∧ q = r := by
  rw [Call.finish] at h
  split at h
  · rename_i hopen
    have heq : (n, r) = (m, q) := Option.some.inj h
    cases heq
    exact .inr ⟨hopen.1, Option.isNone_iff_eq_none.mp hopen.2, rfl, rfl⟩
  · exact .inl h

theorem finish_open {t : T} {n : Nat} {r : R} {c : Call T O R} (h : (c.finish t n r).ended = none) :
    c.ended = none ∧ c.thread ≠ t := by
  rw [Call.finish] at h
  split at h
  · cases h
  · rename_i hopen
    exact ⟨h, fun ht => hopen ⟨ht, by simp [h]⟩⟩

theorem finish_other {t : T} {n : Nat} {r : R} {c : Call T O R} (h : c.thread ≠ t) : c.finish t n r = c :=
  if_neg (fun hc => h hc.1)

/-- Where a thread is with its call: the operation is still to take effect, or
it has, and its result is to be returned. -/
inductive Phase (O R : Type)
  | idle
  | called (o : O)
  | done (r : R)
deriving DecidableEq

structure State (T O R S : Type) where
  obj : S
  phase : T → Phase O R
  acts : List (Act T O R)

inductive Label (T O R : Type)
  | act (a : Act T O R)
  | effect (t : T)

def initial (obj : Object O R S) : State T O R S := ⟨obj.init, fun _ => .idle, []⟩

/-- Each operation takes effect in one step between its call and its return. -/
inductive Step (obj : Object O R S) : State T O R S → Label T O R → State T O R S → Prop
  | call {s} (t o) (h : s.phase t = .idle) :
      Step obj s (.act (.call t o)) ⟨s.obj, Function.update s.phase t (.called o), s.acts ++ [.call t o]⟩
  | effect {s} (t o) (h : s.phase t = .called o) :
      Step obj s (.effect t) ⟨(obj.apply o s.obj).1, Function.update s.phase t (.done (obj.apply o s.obj).2), s.acts⟩
  | ret {s} (t r) (h : s.phase t = .done r) :
      Step obj s (.act (.ret t r)) ⟨s.obj, Function.update s.phase t .idle, s.acts ++ [.ret t r]⟩

/-- The calls that have taken effect, in that order, and those that have not. -/
structure Ordered (obj : Object O R S) (done waiting : List (Call T O R)) (s : State T O R S) : Prop where
  perm : (done ++ waiting).Perm (calls s.acts)
  began (c) (hc : c ∈ done ++ waiting) : c.began < s.acts.length
  state : s.obj = obj.run (done.map Call.op)
  order : done.Pairwise (fun a b => ¬ b.FinishedBefore a)
  result (before c after) (h : done = before ++ c :: after) :
    (∀ n r, c.ended = some (n, r) → r = obj.result (before.map Call.op) c.op) ∧
      (c.ended = none → s.phase c.thread = .done (obj.result (before.map Call.op) c.op))
  phase (c) (hc : c ∈ waiting) : c.ended = none ∧ s.phase c.thread = .called c.op
  alone : waiting.Pairwise (fun a b => a.thread ≠ b.thread)
  called (t o) (h : s.phase t = .called o) : ∃ c ∈ waiting, c.thread = t

variable {obj : Object O R S} {done waiting : List (Call T O R)} {s s' : State T O R S} {l : Label T O R}

theorem initial_ordered (obj : Object O R S) : Ordered obj ([] : List (Call T O R)) [] (initial obj) where
  perm := .refl _
  began _ hc := by cases hc
  state := rfl
  order := .nil
  result before c after h := by simp at h
  phase _ hc := by cases hc
  alone := .nil
  called _ _ h := by cases h

theorem Ordered.call (hs : Ordered obj done waiting s) {t : T} (o : O) (h : s.phase t = .idle) :
    Ordered obj done (waiting ++ [⟨t, o, s.acts.length, none⟩])
      ⟨s.obj, Function.update s.phase t (.called o), s.acts ++ [.call t o]⟩ := by
  have hother (u : T) {p : Phase O R} (hp : p ≠ .idle) (hu : s.phase u = p) :
      Function.update s.phase t (.called o) u = p := by
    have hut : u ≠ t := by
      rintro rfl
      exact hp (hu.symm.trans h)
    rw [Function.update_of_ne hut, hu]
  constructor
  case perm =>
    rw [calls_snoc, ← List.append_assoc]
    exact hs.perm.append_right _
  case began =>
    intro c hc
    rw [← List.append_assoc, List.mem_append, List.mem_singleton] at hc
    rw [List.length_append]
    obtain hc | rfl := hc
    · exact Nat.lt_succ_of_lt (hs.began c hc)
    · exact Nat.lt_succ_self _
  case state => exact hs.state
  case order => exact hs.order
  case result =>
    intro before c after hc
    obtain ⟨hended, hopen⟩ := hs.result before c after hc
    exact ⟨hended, fun hnone => hother _ (by simp) (hopen hnone)⟩
  case phase =>
    intro c hc
    rw [List.mem_append, List.mem_singleton] at hc
    obtain hc | rfl := hc
    · exact ⟨(hs.phase c hc).1, hother _ (by simp) (hs.phase c hc).2⟩
    · exact ⟨rfl, Function.update_self ..⟩
  case alone =>
    rw [List.pairwise_append]
    refine ⟨hs.alone, List.pairwise_singleton .., fun a ha b hb heq => ?_⟩
    obtain rfl := List.mem_singleton.mp hb
    have hphase := (hs.phase a ha).2
    rw [heq, h] at hphase
    cases hphase
  case called =>
    intro u q hu
    by_cases hut : u = t
    · exact ⟨_, List.mem_append_right _ (List.mem_singleton_self _), hut.symm⟩
    · obtain ⟨c, hc, hcu⟩ := hs.called u q ((Function.update_of_ne hut ..).symm.trans hu)
      exact ⟨c, List.mem_append_left _ hc, hcu⟩

/-- The calls that have not taken effect can be put after all others. -/
theorem Ordered.effect (hs : Ordered obj done waiting s) {t : T} {o : O} (h : s.phase t = .called o) :
    ∃ done' waiting', Ordered obj done' waiting'
      ⟨(obj.apply o s.obj).1, Function.update s.phase t (.done (obj.apply o s.obj).2), s.acts⟩ := by
  obtain ⟨c, hc, rfl⟩ := hs.called t o h
  obtain ⟨l₁, l₂, rfl⟩ := List.append_of_mem hc
  obtain ⟨hopen, hphase⟩ := hs.phase c hc
  obtain rfl : o = c.op := by
    rw [h] at hphase
    exact Phase.called.inj hphase
  have hother (b : Call T O R) (hb : b ∈ l₁ ++ l₂) : b.thread ≠ c.thread := by
    have hperm := List.pairwise_append.mp hs.alone
    obtain hb | hb := List.mem_append.mp hb
    · exact hperm.2.2 b hb c List.mem_cons_self
    · exact (List.rel_of_pairwise_cons hperm.2.1 hb).symm
  have hperm : (done ++ [c] ++ (l₁ ++ l₂)).Perm (done ++ (l₁ ++ c :: l₂)) := by
    rw [List.append_assoc, List.singleton_append]
    exact List.perm_middle.symm.append_left _
  refine ⟨done ++ [c], l₁ ++ l₂, ?_⟩
  constructor
  case perm => exact hperm.trans hs.perm
  case began => exact fun b hb => hs.began b (hperm.mem_iff.mp hb)
  case state => simp [hs.state]
  case order =>
    rw [List.pairwise_append]
    refine ⟨hs.order, List.pairwise_singleton .., fun a _ b hb hfin => ?_⟩
    obtain rfl := List.mem_singleton.mp hb
    obtain ⟨n, r, hended, _⟩ := hfin
    rw [hopen] at hended
    cases hended
  case result =>
    intro before b after hb
    obtain rfl | ⟨after', z, rfl⟩ := List.eq_nil_or_concat after
    · obtain ⟨rfl, hbc⟩ := List.append_inj' hb rfl
      obtain rfl := List.singleton_inj.mp hbc
      refine ⟨fun n r hended => ?_, fun _ => ?_⟩
      · rw [hopen] at hended
        cases hended
      · rw [hs.state]
        exact Function.update_self ..
    · rw [List.concat_eq_append, ← List.cons_append, ← List.append_assoc] at hb
      obtain ⟨hended, hnone⟩ := hs.result before b after' (List.append_inj' hb rfl).1
      refine ⟨hended, fun hb => ?_⟩
      have hbt : b.thread ≠ c.thread := by
        intro heq
        have := hnone hb
        rw [heq, h] at this
        cases this
      exact (Function.update_of_ne hbt ..).trans (hnone hb)
  case phase =>
    intro b hb
    have hmem : b ∈ l₁ ++ c :: l₂ := List.perm_middle.mem_iff.mpr (List.mem_cons_of_mem _ hb)
    exact ⟨(hs.phase b hmem).1, (Function.update_of_ne (hother b hb) ..).trans (hs.phase b hmem).2⟩
  case alone => exact hs.alone.sublist ((List.Sublist.refl l₁).append (List.sublist_cons_self c l₂))
  case called =>
    intro u q hu
    by_cases hut : u = c.thread
    · subst hut
      cases (Function.update_self ..).symm.trans hu
    · obtain ⟨b, hb, hbu⟩ := hs.called u q ((Function.update_of_ne hut ..).symm.trans hu)
      obtain rfl | hb := List.mem_cons.mp (List.perm_middle.mem_iff.mp hb)
      · exact absurd hbu.symm hut
      · exact ⟨b, hb, hbu⟩

theorem Ordered.ret (hs : Ordered obj done waiting s) {t : T} {r : R} (h : s.phase t = .done r) :
    Ordered obj (done.map (Call.finish t s.acts.length r)) waiting
      ⟨s.obj, Function.update s.phase t .idle, s.acts ++ [.ret t r]⟩ := by
  have hother (c : Call T O R) (hc : c ∈ waiting) : c.thread ≠ t := by
    intro heq
    have hphase := (hs.phase c hc).2
    rw [heq, h] at hphase
    cases hphase
  have hwaiting : waiting.map (Call.finish t s.acts.length r) = waiting := by
    calc waiting.map (Call.finish t s.acts.length r) = waiting.map id :=
          List.map_congr_left (fun c hc => finish_other (hother c hc))
      _ = waiting := List.map_id waiting
  have hops (cs : List (Call T O R)) : (cs.map (Call.finish t s.acts.length r)).map Call.op = cs.map Call.op := by
    simp [Function.comp_def]
  constructor
  case perm =>
    rw [calls_snoc, record]
    have hperm := hs.perm.map (Call.finish t s.acts.length r)
    rwa [List.map_append, hwaiting] at hperm
  case began =>
    intro c hc
    rw [List.length_append]
    rw [← hwaiting, ← List.map_append, List.mem_map] at hc
    obtain ⟨b, hb, rfl⟩ := hc
    rw [finish_began]
    exact Nat.lt_succ_of_lt (hs.began b hb)
  case state => rw [hops, hs.state]
  case order =>
    rw [List.pairwise_map]
    apply hs.order.imp_of_mem
    intro a b ha _ hab hfin
    obtain ⟨n, q, hended, hlt⟩ := hfin
    rw [finish_began] at hlt
    obtain hended | ⟨_, _, rfl, _⟩ := finish_ended hended
    · exact hab ⟨n, q, hended, hlt⟩
    · exact absurd hlt (Nat.lt_asymm (hs.began a (List.mem_append_left _ ha)))
  case result =>
    intro before c after hc
    obtain ⟨before, rest, hdone, rfl, hrest⟩ := List.map_eq_append_iff.mp hc
    obtain ⟨b, after, rfl, rfl, rfl⟩ := List.map_eq_cons_iff.mp hrest
    obtain ⟨hended, hnone⟩ := hs.result before b after hdone
    rw [hops, finish_op, finish_thread]
    refine ⟨fun n q hn => ?_, fun hn => ?_⟩
    · obtain hb | ⟨rfl, hb, _, rfl⟩ := finish_ended hn
      · exact hended n q hb
      · have hphase := hnone hb
        rw [h] at hphase
        exact Phase.done.inj hphase
    · obtain ⟨hb, hbt⟩ := finish_open hn
      exact (Function.update_of_ne hbt ..).trans (hnone hb)
  case phase => exact fun c hc => ⟨(hs.phase c hc).1, (Function.update_of_ne (hother c hc) ..).trans (hs.phase c hc).2⟩
  case alone => exact hs.alone
  case called =>
    intro u o hu
    by_cases hut : u = t
    · subst hut
      cases (Function.update_self ..).symm.trans hu
    · exact hs.called u o ((Function.update_of_ne hut ..).symm.trans hu)

theorem Step.ordered (hs : Ordered obj done waiting s) (h : Step obj s l s') :
    ∃ done' waiting', Ordered obj done' waiting' s' := by
  cases h with
  | call t o hidle => exact ⟨_, _, hs.call o hidle⟩
  | effect t o hcalled => exact hs.effect hcalled
  | ret t r hdone => exact ⟨_, _, hs.ret hdone⟩

theorem Ordered.linearizable (hs : Ordered obj done waiting s) : Linearizable obj s.acts := by
  have hopen {a b : Call T O R} (hb : b ∈ waiting) : ¬ b.FinishedBefore a := by
    rintro ⟨n, r, hended, _⟩
    rw [(hs.phase b hb).1] at hended
    cases hended
  refine ⟨done ++ waiting, hs.perm, ?_, fun before c after n r hc hended => ?_⟩
  · rw [List.pairwise_append]
    exact ⟨hs.order, List.pairwise_of_forall_mem_list (fun a _ b hb => hopen hb), fun a _ b hb => hopen hb⟩
  · have hc' : c ∉ waiting := by
      intro hmem
      rw [(hs.phase c hmem).1] at hended
      cases hended
    obtain ⟨cs, rfl, hw⟩ | ⟨cs, hdone, hw⟩ := List.append_eq_append_iff.mp hc
    · exact absurd (hw ▸ List.mem_append_right cs List.mem_cons_self) hc'
    · cases cs with
      | nil =>
          obtain rfl : c :: after = waiting := hw
          exact absurd List.mem_cons_self hc'
      | cons b cs =>
          obtain ⟨rfl, _⟩ := List.cons_eq_cons.mp hw
          exact (hs.result before c cs hdone).1 n r hended

theorem linearizable (h : Reachable (Step obj) (initial obj) s) : Linearizable obj s.acts := by
  have hs : ∃ done waiting, Ordered obj done waiting s := by
    apply h.invariant (I := fun s => ∃ done waiting, Ordered obj done waiting s)
    · exact ⟨[], [], initial_ordered obj⟩
    · rintro s l s' ⟨done, waiting, hs⟩ hl
      exact hl.ordered hs
  obtain ⟨done, waiting, hs⟩ := hs
  exact hs.linearizable

end UnixProg.Lib.AtomicObject

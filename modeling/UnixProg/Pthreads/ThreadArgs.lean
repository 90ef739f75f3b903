import UnixProg.Lib.Transition
import Mathlib.Logic.Function.Basic

namespace UnixProg.Pthreads.ThreadArgs

open Lib Transition

def NUM_THREADS : Nat := 5

def NUM_LOOPS : Nat := 3

/-- What a thread gets as its argument: the address of an element of an array
(correct-use-of-args.c), that of the counter of the loop (wrong-use-of-arg.c),
or the number itself as a pointer (int-as-arg.c). -/
inductive Use
  | array
  | counter
  | cast
deriving DecidableEq

inductive MainPc
  | init
  | test
  | assign
  | create
  | inc
  | sleep
  | printJoining (j : Nat)
  | join (j : Nat)
  | printJoined (j : Nat) (ok : Bool)
  | exited
deriving DecidableEq

/-- `k` is the `i` of a thread, and `x` the number that it has read for `printf()`. -/
inductive ThreadPc
  | absent
  | load (k : Nat)
  | print (k x : Nat)
  | sleep (k : Nat)
  | done
deriving DecidableEq

/-- The lines of a thread, with the number of the thread beside the one that
it prints, and those of main. -/
inductive Line
  | thread (t x k : Nat)
  | joining (j : Nat)
  | joined
  | error
deriving DecidableEq

/-- `arg` is the argument of each thread where it is a number, and `t` is the thread created last. -/
structure State where
  main : MainPc
  i : Nat
  id : Nat → Nat
  arg : Nat → Nat
  t : Nat
  threads : Nat → ThreadPc
  joined : Nat → Bool
  lines : List Line

inductive Event
  | main
  | thread (t : Nat)
deriving DecidableEq

/-- What a thread sees when it looks at its argument. -/
def Use.value (u : Use) (s : State) (t : Nat) : Nat :=
  match u with
  | .array => s.id t
  | .counter => s.i
  | .cast => s.arg t

/-- The thread that main waits for in a round of its last loop. -/
def Use.waitsFor (u : Use) (s : State) (j : Nat) : Nat :=
  match u with
  | .array => j
  | .counter | .cast => s.t

def thread (u : Use) (t : Nat) (s : State) : Option State :=
  match s.threads t with
  | .load k => some { s with threads := Function.update s.threads t (.print k (u.value s t)) }
  | .print k x => some { s with
      lines := s.lines ++ [.thread t x k]
      threads := Function.update s.threads t (.sleep k) }
  | .sleep k => some { s with
      threads := Function.update s.threads t (if k + 1 < NUM_LOOPS then .load (k + 1) else .done) }
  | .absent | .done => none

/-- Joining a thread that has been joined is undefined; the error is what glibc
makes of it. -/
def State.join (s : State) (u : Use) (j : Nat) : Option State :=
  if s.joined (u.waitsFor s j) then some { s with main := .printJoined j false }
  else if s.threads (u.waitsFor s j) = .done then
    some { s with joined := Function.update s.joined (u.waitsFor s j) true, main := .printJoined j true }
  else none

def main (u : Use) (s : State) : Option State :=
  match s.main with
  | .init => some { s with i := 0, main := .test }
  | .test =>
      if s.i < NUM_THREADS then some { s with main := if u = .array then .assign else .create }
      else some { s with main := .sleep }
  | .assign => some { s with id := Function.update s.id s.i s.i, main := .create }
  | .create => some { s with
      arg := Function.update s.arg s.i s.i
      t := s.i
      threads := Function.update s.threads s.i (.load 0)
      main := .inc }
  | .inc => some { s with i := s.i + 1, main := .test }
  | .sleep => some { s with main := if u = .cast then .exited else .printJoining 0 }
  | .printJoining j => some { s with lines := s.lines ++ [.joining j], main := .join j }
  | .join j => s.join u j
  | .printJoined j ok => some { s with
      lines := s.lines ++ [if ok then .joined else .error]
      main := if j + 1 < NUM_THREADS then .printJoining (j + 1) else .exited }
  | .exited => none

/-- When main returns, the process is gone with all its threads. -/
def next (u : Use) (s : State) : Event → Option State
  | .main => main u s
  | .thread t => if s.main = .exited then none else thread u t s

def initial : State := ⟨.init, 0, fun _ => 0, fun _ => 0, 0, fun _ => .absent, fun _ => false, []⟩

/-- How many threads there are. -/
def State.created (s : State) : Nat :=
  match s.main with
  | .init => 0
  | .test | .assign | .create => s.i
  | .inc => s.i + 1
  | .sleep | .printJoining _ | .join _ | .printJoined _ _ | .exited => NUM_THREADS

/-- The loop that creates the threads is over. -/
def MainPc.after : MainPc → Bool
  | .sleep | .printJoining _ | .join _ | .printJoined _ _ | .exited => true
  | .init | .test | .assign | .create | .inc => false

def ThreadPc.printed : ThreadPc → Nat
  | .absent => 0
  | .load k | .print k _ => k
  | .sleep k => k + 1
  | .done => NUM_LOOPS

def ThreadPc.round : ThreadPc → Option Nat
  | .load k | .print k _ | .sleep k => some k
  | .absent | .done => none

/-- What a thread has printed: the number it has seen, and its count. -/
def Line.shownBy (t : Nat) : Line → Option (Nat × Nat)
  | .thread u x k => if u = t then some (x, k) else none
  | .joining _ | .joined | .error => none

def Line.ofMain : Line → Bool
  | .thread _ _ _ => false
  | .joining _ | .joined | .error => true

/-- The threads as main has created them. -/
structure Created (u : Use) (s : State) : Prop where
  bound : s.i ≤ NUM_THREADS
  room (h : s.main = .assign ∨ s.main = .create ∨ s.main = .inc) : s.i < NUM_THREADS
  loopEnd (h : s.main.after = true) : s.i = NUM_THREADS
  slot (h : s.main = .create) (hu : u = .array) : s.id s.i = s.i
  absent : ∀ t, s.threads t = .absent ↔ s.created ≤ t
  own : u ≠ .counter → ∀ t, t < s.created → u.value s t = t
  last : 0 < s.created → s.t + 1 = s.created
  count : ∀ t k, (s.threads t).round = some k → k < NUM_LOOPS

variable {u : Use} {s s' : State} {e : Event} {es : List Event} {t j k x : Nat}

theorem initial_created (u : Use) : Created u initial where
  bound := Nat.zero_le _
  room h := by simp [initial] at h
  loopEnd h := by cases h
  slot h := by cases h
  absent t := iff_of_true rfl (Nat.zero_le t)
  own _ t ht := absurd ht (Nat.not_lt_zero t)
  last h := absurd h (Nat.lt_irrefl 0)
  count t k h := by cases h

theorem thread_cases (h : thread u t s = some s') :
    (∃ k, s.threads t = .load k ∧
      s' = { s with threads := Function.update s.threads t (.print k (u.value s t)) }) ∨
    (∃ k x, s.threads t = .print k x ∧ s' = { s with
      lines := s.lines ++ [.thread t x k], threads := Function.update s.threads t (.sleep k) }) ∨
    ∃ k, s.threads t = .sleep k ∧ s' = { s with
      threads := Function.update s.threads t (if k + 1 < NUM_LOOPS then .load (k + 1) else .done) } := by
  rw [thread] at h
  cases hp : s.threads t with
  | load k =>
      rw [hp] at h
      exact .inl ⟨k, rfl, (Option.some.inj h).symm⟩
  | print k x =>
      rw [hp] at h
      exact .inr (.inl ⟨k, x, rfl, (Option.some.inj h).symm⟩)
  | sleep k =>
      rw [hp] at h
      exact .inr (.inr ⟨k, rfl, (Option.some.inj h).symm⟩)
  | absent | done =>
      rw [hp] at h
      cases h

theorem join_cases (h : s.join u j = some s') :
    (s.joined (u.waitsFor s j) = true ∧ s' = { s with main := .printJoined j false }) ∨
    (s.joined (u.waitsFor s j) = false ∧ s.threads (u.waitsFor s j) = .done ∧
      s' = { s with joined := Function.update s.joined (u.waitsFor s j) true, main := .printJoined j true }) := by
  rw [State.join] at h
  split at h
  · rename_i hj
    exact .inl ⟨hj, (Option.some.inj h).symm⟩
  · rename_i hj
    obtain ⟨hdone, h⟩ := Option.ite_none_right_eq_some.mp h
    exact .inr ⟨eq_false_of_ne_true hj, hdone, (Option.some.inj h).symm⟩

/-- A step of a thread that exists. -/
theorem Created.moves (hs : Created u s) (ht : s.threads t ≠ .absent) {p : ThreadPc} (hp : p ≠ .absent)
    (hcount : ∀ k, p.round = some k → k < NUM_LOOPS) (lines : List Line) :
    Created u { s with lines := lines, threads := Function.update s.threads t p } where
  bound := hs.bound
  room := hs.room
  loopEnd := hs.loopEnd
  slot := hs.slot
  absent v := by
    change Function.update s.threads t p v = .absent ↔ s.created ≤ v
    rw [← hs.absent v]
    by_cases hv : v = t
    · subst hv
      simp [ht, hp]
    · simp [Function.update_of_ne hv]
  own := hs.own
  last := hs.last
  count v k h := by
    by_cases hv : v = t
    · subst hv
      simp only [Function.update_self] at h
      exact hcount k h
    · simp only [Function.update_of_ne hv] at h
      exact hs.count v k h

theorem thread_created (hs : Created u s) (h : thread u t s = some s') : Created u s' := by
  have hkeep {p : ThreadPc} (hp : p.round = (s.threads t).round) (k : Nat) (h : p.round = some k) : k < NUM_LOOPS :=
    hs.count t k (hp.symm.trans h)
  obtain ⟨k, hp, rfl⟩ | ⟨k, x, hp, rfl⟩ | ⟨k, hp, rfl⟩ := thread_cases h
  · exact hs.moves (by simp [hp]) (by simp) (hkeep (by rw [hp]; rfl)) _
  · exact hs.moves (by simp [hp]) (by simp) (hkeep (by rw [hp]; rfl)) _
  · refine hs.moves (by simp [hp]) (by split <;> simp) (fun k' h => ?_) _
    split at h
    · cases h
      assumption
    · cases h

/-- The steps of main that create nothing. -/
theorem Created.goes {p : MainPc} (hs : Created u s) (joined : Nat → Bool) (lines : List Line)
    (hafter : p.after = true) (hover : s.i = NUM_THREADS) (hcreated : s.created = NUM_THREADS) :
    Created u { s with main := p, joined := joined, lines := lines } := by
  have hc : State.created { s with main := p, joined := joined, lines := lines } = s.created := by
    rw [hcreated]
    cases p with
    | sleep | printJoining | join | printJoined | exited => rfl
    | init | test | assign | create | inc => cases hafter
  constructor
  case bound => exact hs.bound
  case room =>
    rintro (rfl | rfl | rfl) <;> cases hafter
  case loopEnd => exact fun _ => hover
  case slot =>
    rintro rfl
    cases hafter
  case absent => exact fun t => hc ▸ hs.absent t
  case own => exact fun hu t ht => hs.own hu t (hc ▸ ht)
  case last =>
    rw [hc]
    exact hs.last
  case count => exact hs.count

theorem created_after (h : s.main.after = true) : s.created = NUM_THREADS := by
  rw [State.created]
  cases hp : s.main with
  | sleep | printJoining | join | printJoined | exited => rfl
  | init | test | assign | create | inc =>
      rw [hp] at h
      cases h

theorem Created.stays {p : MainPc} (hs : Created u s) (hp : s.main.after = true) (hp' : p.after = true)
    (joined : Nat → Bool) (lines : List Line) : Created u { s with main := p, joined := joined, lines := lines } :=
  hs.goes joined lines hp' (hs.loopEnd hp) (created_after hp)

theorem create_created (hs : Created u s) (hp : s.main = .create) (h : main u s = some s') : Created u s' := by
  have hroom := hs.room (.inr (.inl hp))
  have hcreated : s.created = s.i := by rw [State.created, hp]
  rw [main, hp] at h
  cases h
  constructor
  case bound => exact hs.bound
  case room => exact fun _ => hroom
  case loopEnd => simp [MainPc.after]
  case slot => simp
  case absent =>
    intro t
    change Function.update s.threads s.i (.load 0) t = .absent ↔ s.i + 1 ≤ t
    by_cases ht : t = s.i
    · subst ht
      simp
    · rw [Function.update_of_ne ht, hs.absent t, hcreated]
      omega
  case own =>
    intro hu t ht
    change t < s.i + 1 at ht
    by_cases hi : t = s.i
    · subst hi
      cases u with
      | array => exact hs.slot hp rfl
      | counter => exact absurd rfl hu
      | cast => exact Function.update_self _ _ _
    · have hold := hs.own hu t (by omega)
      cases u with
      | array => exact hold
      | counter => exact absurd rfl hu
      | cast => exact (Function.update_of_ne hi _ _).trans hold
  case last => exact fun _ => rfl
  case count =>
    intro t k h
    by_cases ht : t = s.i
    · subst ht
      simp only [Function.update_self] at h
      cases h
      decide
    · simp only [Function.update_of_ne ht] at h
      exact hs.count t k h

theorem main_created (hs : Created u s) (h : main u s = some s') : Created u s' := by
  cases hp : s.main with
  | init =>
      rw [main, hp] at h
      cases h
      have hcreated : s.created = 0 := by rw [State.created, hp]
      refine ⟨Nat.zero_le _, by simp, by simp [MainPc.after], by simp, fun t => ?_, fun _ t ht => ?_, fun h => ?_, hs.count⟩
      · exact (hs.absent t).trans (by rw [hcreated]; rfl)
      · exact absurd ht (Nat.not_lt_zero t)
      · exact absurd h (Nat.lt_irrefl 0)
  | test =>
      have hcreated : s.created = s.i := by rw [State.created, hp]
      rw [main, hp] at h
      by_cases hi : s.i < NUM_THREADS
      · simp only [hi, if_true] at h
        cases h
        have hc : State.created { s with main := if u = .array then .assign else .create } = s.created := by
          rw [hcreated]
          by_cases hu : u = .array <;> simp [State.created, hu]
        refine ⟨hs.bound, fun _ => hi, ?_, ?_, fun t => hc ▸ hs.absent t, fun hu t ht => hs.own hu t (hc ▸ ht),
          fun h => (hs.last (hc ▸ h)).trans hc.symm, hs.count⟩
        · by_cases hu : u = .array <;> simp [MainPc.after, hu]
        · by_cases hu : u = .array <;> simp [hu]
      · simp only [hi, if_false] at h
        cases h
        have hover : s.i = NUM_THREADS := Nat.le_antisymm hs.bound (Nat.le_of_not_lt hi)
        exact hs.goes s.joined s.lines rfl hover (hcreated.trans hover)
  | assign =>
      have hcreated : s.created = s.i := by rw [State.created, hp]
      have hroom := hs.room (.inl hp)
      rw [main, hp] at h
      cases h
      refine ⟨hs.bound, fun _ => hroom, by simp [MainPc.after], fun _ _ => Function.update_self _ _ _,
        fun t => hcreated ▸ hs.absent t, fun hu t ht => ?_, fun h => (hs.last (hcreated.symm ▸ h)).trans hcreated, hs.count⟩
      change t < s.i at ht
      have hold := hs.own hu t (hcreated.symm ▸ ht)
      cases u with
      | array => exact (Function.update_of_ne (Nat.ne_of_lt ht) _ _).trans hold
      | counter => exact absurd rfl hu
      | cast => exact hold
  | create => exact create_created hs hp h
  | inc =>
      have hcreated : s.created = s.i + 1 := by rw [State.created, hp]
      have hroom := hs.room (.inr (.inr hp))
      rw [main, hp] at h
      cases h
      refine ⟨hroom, by simp, by simp [MainPc.after], by simp, fun t => hcreated ▸ hs.absent t, fun hu t ht => ?_,
        fun h => (hs.last (hcreated.symm ▸ h)).trans hcreated, hs.count⟩
      have hold := hs.own hu t (hcreated.symm ▸ ht)
      cases u with
      | array | cast => exact hold
      | counter => exact absurd rfl hu
  | sleep =>
      rw [main, hp] at h
      cases h
      exact hs.stays (by rw [hp]; rfl) (by split <;> rfl) s.joined s.lines
  | printJoining j =>
      rw [main, hp] at h
      cases h
      exact hs.stays (by rw [hp]; rfl) rfl s.joined _
  | join j =>
      rw [main, hp] at h
      obtain ⟨_, rfl⟩ | ⟨_, _, rfl⟩ := join_cases h
      · exact hs.stays (by rw [hp]; rfl) rfl s.joined s.lines
      · exact hs.stays (by rw [hp]; rfl) rfl _ s.lines
  | printJoined j ok =>
      rw [main, hp] at h
      cases h
      exact hs.stays (by rw [hp]; rfl) (by split <;> rfl) s.joined _
  | exited =>
      rw [main, hp] at h
      cases h

theorem next_created (hs : Created u s) (h : next u s e = some s') : Created u s' := by
  cases e with
  | main => exact main_created hs h
  | thread t => exact thread_created hs (Option.ite_none_left_eq_some.mp h).2

theorem run_created (h : Run (Exec (next u)) initial es s) : Created u s :=
  h.invariant (I := fun _ s => Created u s) (initial_created u) (fun _ _ _ _ _ hs hl => next_created hs hl)

/-- What the threads have read and printed. -/
structure Told (u : Use) (s : State) : Prop where
  shown : ∀ t, (s.lines.filterMap (Line.shownBy t)).map Prod.snd = List.range (s.threads t).printed
  own : u ≠ .counter → ∀ t x k, .thread t x k ∈ s.lines ∨ s.threads t = .print k x → x = t
  seen : u = .counter → ∀ t x k, .thread t x k ∈ s.lines ∨ s.threads t = .print k x → t ≤ x ∧ x ≤ s.i
  last : u = .counter → ∀ t x k, s.threads t = .print k x → ∀ p ∈ s.lines.filterMap (Line.shownBy t), p.1 ≤ x
  sorted : u = .counter → ∀ t, ((s.lines.filterMap (Line.shownBy t)).map Prod.fst).Pairwise (· ≤ ·)
  fresh (h : s.main = .init) : s.i = 0

theorem initial_told (u : Use) : Told u initial where
  shown _ := rfl
  own _ _ _ _ h := h.elim (fun h => absurd h List.not_mem_nil) (fun h => by cases h)
  seen _ _ _ _ h := h.elim (fun h => absurd h List.not_mem_nil) (fun h => by cases h)
  last _ _ _ _ h := by cases h
  sorted _ _ := List.Pairwise.nil
  fresh _ := rfl

theorem shownBy_mem {p : Nat × Nat} {lines : List Line} (h : p ∈ lines.filterMap (Line.shownBy t)) :
    .thread t p.1 p.2 ∈ lines := by
  obtain ⟨line, hline, hshown⟩ := List.mem_filterMap.mp h
  cases line with
  | thread v x k =>
      obtain ⟨rfl, hval⟩ := Option.ite_none_right_eq_some.mp hshown
      obtain rfl := Option.some.inj hval
      exact hline
  | joining | joined | error => cases hshown

theorem printed_next (k : Nat) (hk : k < NUM_LOOPS) :
    ThreadPc.printed (if k + 1 < NUM_LOOPS then .load (k + 1) else .done) = k + 1 := by
  split
  · rfl
  · exact Nat.le_antisymm (Nat.le_of_not_lt (by assumption)) hk

/-- A thread that exists cannot see less than its own number in the counter. -/
theorem le_counter (hc : Created u s) (ht : s.threads t ≠ .absent) : t ≤ s.i := by
  have hcreated : t < s.created := Nat.lt_of_not_le (fun hle => ht ((hc.absent t).mpr hle))
  have hle : s.created ≤ s.i + 1 := by
    rw [State.created]
    cases hm : s.main with
    | init => exact Nat.zero_le _
    | test | assign | create => exact Nat.le_succ _
    | inc => exact Nat.le_refl _
    | sleep | printJoining | join | printJoined | exited =>
        have hover := hc.loopEnd (by rw [hm]; rfl)
        exact hover ▸ Nat.le_succ _
  exact Nat.le_of_lt_succ (Nat.lt_of_lt_of_le hcreated hle)

theorem load_told (hc : Created u s) (hs : Told u s) (hp : s.threads t = .load k) :
    Told u { s with threads := Function.update s.threads t (.print k (u.value s t)) } := by
  have hpresent : s.threads t ≠ .absent := by simp [hp]
  have hother {v x k' : Nat} (h : .thread v x k' ∈ s.lines ∨
      Function.update s.threads t (.print k (u.value s t)) v = .print k' x) :
      (.thread v x k' ∈ s.lines ∨ s.threads v = .print k' x) ∨ v = t ∧ x = u.value s t := by
    by_cases hv : v = t
    · subst hv
      obtain h | h := h
      · exact .inl (.inl h)
      · rw [Function.update_self] at h
        cases h
        exact .inr ⟨rfl, rfl⟩
    · rw [Function.update_of_ne hv] at h
      exact .inl h
  constructor
  case shown =>
    intro v
    by_cases hv : v = t
    · subst hv
      simp [hs.shown v, hp, ThreadPc.printed]
    · simp [hs.shown v, Function.update_of_ne hv]
  case own =>
    intro hu v x k' h
    obtain h | ⟨rfl, rfl⟩ := hother h
    · exact hs.own hu v x k' h
    · exact hc.own hu v (Nat.lt_of_not_le (fun hle => hpresent ((hc.absent v).mpr hle)))
  case seen =>
    rintro rfl v x k' h
    obtain h | ⟨rfl, rfl⟩ := hother h
    · exact hs.seen rfl v x k' h
    · exact ⟨le_counter hc hpresent, Nat.le_refl _⟩
  case last =>
    rintro rfl v x k' h p hmem
    by_cases hv : v = t
    · subst hv
      simp only [Function.update_self] at h
      cases h
      exact (hs.seen rfl v p.1 p.2 (.inl (shownBy_mem hmem))).2
    · simp only [Function.update_of_ne hv] at h
      exact hs.last rfl v x k' h p hmem
  case sorted => exact hs.sorted
  case fresh => exact hs.fresh

theorem print_told (hs : Told u s) (hp : s.threads t = .print k x) :
    Told u { s with lines := s.lines ++ [.thread t x k], threads := Function.update s.threads t (.sleep k) } := by
  have hold {v y k' : Nat} (h : .thread v y k' ∈ s.lines ++ [.thread t x k] ∨
      Function.update s.threads t (.sleep k) v = .print k' y) : .thread v y k' ∈ s.lines ∨ s.threads v = .print k' y := by
    obtain h | h := h
    · obtain h | h := List.mem_append.mp h
      · exact .inl h
      · cases List.mem_singleton.mp h
        exact .inr hp
    · by_cases hv : v = t
      · subst hv
        rw [Function.update_self] at h
        cases h
      · rw [Function.update_of_ne hv] at h
        exact .inr h
  have hother {v : Nat} (hv : v ≠ t) :
      (s.lines ++ [Line.thread t x k]).filterMap (Line.shownBy v) = s.lines.filterMap (Line.shownBy v) := by
    simp [Line.shownBy, Ne.symm hv]
  have hsame :
      (s.lines ++ [Line.thread t x k]).filterMap (Line.shownBy t) = s.lines.filterMap (Line.shownBy t) ++ [(x, k)] := by
    simp [Line.shownBy]
  constructor
  case shown =>
    intro v
    by_cases hv : v = t
    · subst hv
      rw [hsame, List.map_append, hs.shown v, hp]
      simp [ThreadPc.printed, List.range_succ]
    · simp only [hother hv, hs.shown v, Function.update_of_ne hv]
  case own => exact fun hu v y k' h => hs.own hu v y k' (hold h)
  case seen => exact fun hu v y k' h => hs.seen hu v y k' (hold h)
  case last =>
    intro hu v y k' h p hmem
    by_cases hv : v = t
    · subst hv
      simp only [Function.update_self] at h
      cases h
    · simp only [Function.update_of_ne hv] at h
      exact hs.last hu v y k' h p (hother hv ▸ hmem)
  case sorted =>
    intro hu v
    by_cases hv : v = t
    · subst hv
      rw [hsame, List.map_append, List.pairwise_append]
      refine ⟨hs.sorted hu v, List.pairwise_singleton _ _, fun a ha b hb => ?_⟩
      obtain ⟨p, hmem, rfl⟩ := List.mem_map.mp ha
      obtain rfl := List.mem_singleton.mp hb
      exact hs.last hu v _ k hp p hmem
    · rw [hother hv]
      exact hs.sorted hu v
  case fresh => exact hs.fresh

/-- Main prints lines of its own, threads do no more than to come or go, and the
counter never falls. -/
theorem Told.goes (hs : Told u s) (hlines : ∃ new, s'.lines = s.lines ++ new ∧ ∀ line ∈ new, line.ofMain = true)
    (hprinted : ∀ t, (s'.threads t).printed = (s.threads t).printed)
    (hpending : ∀ t k x, s'.threads t = .print k x → s.threads t = .print k x) (hi : s.i ≤ s'.i)
    (hinit : s'.main = .init → s'.i = 0) : Told u s' := by
  obtain ⟨new, hnew, hmain⟩ := hlines
  have hshown (t : Nat) : s'.lines.filterMap (Line.shownBy t) = s.lines.filterMap (Line.shownBy t) := by
    rw [hnew, List.filterMap_append, List.append_right_eq_self, List.filterMap_eq_nil_iff]
    intro line hline
    cases line with
    | thread => cases hmain _ hline
    | joining | joined | error => rfl
  have hold {t x k : Nat} (h : .thread t x k ∈ s'.lines ∨ s'.threads t = .print k x) :
      .thread t x k ∈ s.lines ∨ s.threads t = .print k x := by
    refine h.imp (fun h => ?_) (hpending t k x)
    rw [hnew] at h
    exact (List.mem_append.mp h).elim id (fun h => by cases hmain _ h)
  constructor
  case shown =>
    intro t
    rw [hshown t, hs.shown t, hprinted t]
  case own => exact fun hu t x k h => hs.own hu t x k (hold h)
  case seen =>
    intro hu t x k h
    obtain ⟨hle, hx⟩ := hs.seen hu t x k (hold h)
    exact ⟨hle, Nat.le_trans hx hi⟩
  case last =>
    intro hu t x k h p hmem
    exact hs.last hu t x k (hpending t k x h) p (hshown t ▸ hmem)
  case sorted =>
    intro hu t
    rw [hshown t]
    exact hs.sorted hu t
  case fresh => exact hinit

theorem thread_told (hc : Created u s) (hs : Told u s) (h : thread u t s = some s') : Told u s' := by
  obtain ⟨k, hp, rfl⟩ | ⟨k, x, hp, rfl⟩ | ⟨k, hp, rfl⟩ := thread_cases h
  · exact load_told hc hs hp
  · exact print_told hs hp
  · refine hs.goes ⟨[], (List.append_nil _).symm, by simp⟩ (fun v => ?_) (fun v k' x hv => ?_) (Nat.le_refl _) hs.fresh
    · by_cases hv : v = t
      · subst hv
        simp only [Function.update_self]
        rw [printed_next k (hc.count v k (by rw [hp]; rfl)), hp]
        rfl
      · simp only [Function.update_of_ne hv]
    · by_cases hne : v = t
      · subst hne
        simp only [Function.update_self] at hv
        split at hv <;> cases hv
      · simpa only [Function.update_of_ne hne] using hv

theorem main_told (hc : Created u s) (hs : Told u s) (h : main u s = some s') : Told u s' := by
  have hsame : ∃ new, s.lines = s.lines ++ new ∧ ∀ line ∈ new, line.ofMain = true :=
    ⟨[], (List.append_nil _).symm, by simp⟩
  cases hp : s.main with
  | init =>
      rw [main, hp] at h
      cases h
      exact hs.goes hsame (fun _ => rfl) (fun _ _ _ => id) (Nat.le_of_eq (hs.fresh hp)) (by simp)
  | test =>
      rw [main, hp] at h
      simp only at h
      split at h <;> cases h
      · exact hs.goes hsame (fun _ => rfl) (fun _ _ _ => id) (Nat.le_refl _) (by split <;> simp)
      · exact hs.goes hsame (fun _ => rfl) (fun _ _ _ => id) (Nat.le_refl _) (by simp)
  | assign =>
      rw [main, hp] at h
      cases h
      exact hs.goes hsame (fun _ => rfl) (fun _ _ _ => id) (Nat.le_refl _) (by simp)
  | create =>
      rw [main, hp] at h
      cases h
      refine hs.goes hsame (fun t => ?_) (fun t k x ht => ?_) (Nat.le_refl _) (by simp)
      · by_cases hi : t = s.i
        · subst hi
          have habsent : s.threads s.i = .absent := (hc.absent s.i).mpr (Nat.le_of_eq (by rw [State.created, hp]))
          simp only [Function.update_self, habsent, ThreadPc.printed]
        · simp only [Function.update_of_ne hi]
      · by_cases hi : t = s.i
        · subst hi
          simp only [Function.update_self] at ht
          cases ht
        · simpa only [Function.update_of_ne hi] using ht
  | inc =>
      rw [main, hp] at h
      cases h
      exact hs.goes hsame (fun _ => rfl) (fun _ _ _ => id) (Nat.le_succ _) (by simp)
  | sleep =>
      rw [main, hp] at h
      cases h
      exact hs.goes hsame (fun _ => rfl) (fun _ _ _ => id) (Nat.le_refl _) (by simp only; split <;> simp)
  | printJoining j =>
      rw [main, hp] at h
      cases h
      exact hs.goes ⟨_, rfl, by simp [Line.ofMain]⟩ (fun _ => rfl) (fun _ _ _ => id) (Nat.le_refl _) (by simp)
  | join j =>
      rw [main, hp] at h
      obtain ⟨_, rfl⟩ | ⟨_, _, rfl⟩ := join_cases h <;>
        exact hs.goes hsame (fun _ => rfl) (fun _ _ _ => id) (Nat.le_refl _) (by simp)
  | printJoined j ok =>
      rw [main, hp] at h
      cases h
      refine hs.goes ⟨_, rfl, ?_⟩ (fun _ => rfl) (fun _ _ _ => id) (Nat.le_refl _) (by simp only; split <;> simp)
      cases ok <;> simp [Line.ofMain]
  | exited =>
      rw [main, hp] at h
      cases h

theorem next_told (hc : Created u s) (hs : Told u s) (h : next u s e = some s') : Told u s' := by
  cases e with
  | main => exact main_told hc hs h
  | thread t => exact thread_told hc hs (Option.ite_none_left_eq_some.mp h).2

theorem run_told (h : Run (Exec (next u)) initial es s) : Told u s :=
  h.invariant (I := fun _ s => Told u s) (initial_told u) (fun _ _ _ _ hr hs hl => next_told (run_created hr) hs hl)

end UnixProg.Pthreads.ThreadArgs

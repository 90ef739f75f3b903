import UnixProg.Lib.LostUpdate
import UnixProg.Lib.MemoryMap
import Mathlib.Data.BitVec
import Mathlib.Tactic.Ring
import Mathlib.Tactic.Linarith

namespace UnixProg.Race.AtomicAdd

open Lib Transition Monitor MemoryMap LostUpdate

inductive Thread
  | t1
  | t2
deriving DecidableEq

/-- How the program is called: without an option, with `-a` or with `-m`. -/
inductive Mode
  | plain
  | atomic
  | mutex
deriving DecidableEq

inductive Pc
  | test
  | add
  | lock
  | load
  | store
  | unlock
  | next
  | done
deriving DecidableEq

/-- The shared variable, and of each thread its counter and the value of `x`
between the two halves of `x = x + i`. -/
structure Mem (α : Type) where
  x : α
  i : Thread → Int
  seen : Thread → α

section Model

variable {α : Type} [Ring α]

def Mode.body : Mode → Pc
  | .plain => .load
  | .atomic => .add
  | .mutex => .lock

def count (mode : Mode) (n : Int) (t : Thread) : Pc → Mem α → List (Cmd Pc (Mem α))
  | .test, m => [.run m (if m.i t < n then mode.body else .done)]
  | .add, m => [.run { m with x := m.x + m.i t } .next]
  | .lock, _ => [.lock .load]
  | .load, m => [.run { m with seen := Function.update m.seen t m.x } .store]
  | .store, m => [.run { m with x := m.seen t + m.i t } (if mode = .mutex then .unlock else .next)]
  | .unlock, _ => [.unlock .next]
  | .next, m => [.run { m with i := Function.update m.i t (m.i t + 1) } .test]
  | .done, _ => []

def program (mode : Mode) (n : Int) : Prog Thread Pc (Mem α) := count mode n

def initial : State Thread Pc (Mem α) := start (fun _ => .test) ⟨0, fun _ => 1, fun _ => 0⟩

/-- The loop of main over its own counters. -/
def x2 (n1 : Nat) : α := (List.range' 1 (n1 - 1)).foldl (fun x2 (i : Nat) => x2 + (i : α)) 0

structure Output (α : Type) where
  race : Bool
  result : α
  expected : α

def report [DecidableEq α] (n1 : Nat) (m : Mem α) : Output α := ⟨decide (m.x ≠ 2 * x2 n1), m.x, 2 * x2 n1⟩

/-- Both `pthread_join()` calls have returned. -/
def Joined (s : State Thread Pc (Mem α)) : Prop := ∀ t, s.pc t = .done

end Model

/-- The number of cycles as main keeps it. -/
def unsigned (n : Int) : Nat := (n % 2 ^ 32).toNat

def access : Event Thread Pc → Option (Access Thread)
  | .exec t .load => some (.load t)
  | .exec t .store => some (.store t)
  | _ => none

def accesses (es : List (Event Thread Pc)) : List (Access Thread) := es.filterMap access

variable {n : Int} {s s' : State Thread Pc (Mem Int)} {e : Event Thread Pc} {es : List (Event Thread Pc)}

/-- Where a thread without `-a` and `-m` is in its loop. -/
structure Looping (n : Int) (p : Pc) (i : Int) : Prop where
  point : p ∈ [Pc.test, .load, .store, .next, .done]
  pos : 1 ≤ i
  le : i ≤ max 1 n
  inside (h : p ∈ [Pc.load, .store, .next]) : i < n
  done (h : p = .done) : n ≤ i

/-- Twice what a thread should have added to the shared variable by now. -/
def owed (p : Pc) (i : Int) : Int := i * (i - 1) + if p = .next then 2 * i else 0

structure Matches (s : State Thread Pc (Mem Int)) (c : Cell Thread Int) : Prop where
  x : c.x = s.mem.x
  seen : c.seen = fun t => if s.pc t = .store then some (s.mem.seen t) else none
  total : 2 * c.total = owed (s.pc .t1) (s.mem.i .t1) + owed (s.pc .t2) (s.mem.i .t2)

theorem looping_step (hl : ∀ t, Looping n (s.pc t) (s.mem.i t)) (h : Step (program .plain n) s e s') (t : Thread) :
    Looping n (s'.pc t) (s'.mem.i t) := by
  rcases h.view with ⟨_, hpc, hm⟩ | ⟨u, p, c, hu, hc, rfl, hpc, hm, _⟩
  · rw [hpc, hm]
    exact hl t
  · have hlu := hl u
    have hpu : s.pc u = p := by simp [State.pc, hu, Ctl.pc]
    rw [hpu] at hlu
    obtain ⟨hpoint, hpos, hle, hinside, hdone⟩ := hlu
    have hother (ht : t ≠ u) (hi : s'.mem.i t = s.mem.i t) : Looping n (s'.pc t) (s'.mem.i t) := by
      rw [hi, hpc, Function.update_of_ne ht]
      exact hl t
    cases p with
    | add | lock | unlock => simp at hpoint
    | done => simp [program, count] at hc
    | test =>
        obtain rfl := List.mem_singleton.mp hc
        by_cases ht : t = u
        · subst ht
          rw [hpc, Function.update_self, hm]
          change Looping n (if s.mem.i t < n then Pc.load else .done) (s.mem.i t)
          split
          · exact ⟨by simp, hpos, hle, fun _ => ‹_›, nofun⟩
          · exact ⟨by simp, hpos, hle, by simp, fun _ => not_lt.mp ‹_›⟩
        · exact hother ht (by rw [hm]; rfl)
    | load | store =>
        obtain rfl := List.mem_singleton.mp hc
        by_cases ht : t = u
        · subst ht
          rw [hpc, Function.update_self, hm]
          exact ⟨by simp [Cmd.next], hpos, hle, fun _ => hinside (by simp), by simp [Cmd.next]⟩
        · exact hother ht (by rw [hm]; rfl)
    | next =>
        obtain rfl := List.mem_singleton.mp hc
        by_cases ht : t = u
        · subst ht
          have hlt := hinside (by simp)
          rw [hpc, Function.update_self, hm]
          simp only [Cmd.next, Cmd.mem, Function.update_self]
          exact ⟨by simp, by omega, by omega, by simp, nofun⟩
        · exact hother ht (by rw [hm]; exact Function.update_of_ne ht ..)

theorem run_looping (h : Run (Step (program .plain n)) initial es s) (t : Thread) : Looping n (s.pc t) (s.mem.i t) := by
  refine h.invariant (I := fun _ s => ∀ t, Looping n (s.pc t) (s.mem.i t)) (fun t => ?_)
    (fun _ _ _ _ _ hl hs => looping_step hl hs) t
  exact ⟨by simp [initial, start, State.pc, Ctl.pc], le_rfl, le_max_left 1 n, by simp [initial, start, State.pc, Ctl.pc],
    by simp [initial, start, State.pc, Ctl.pc]⟩

theorem Matches.move {c c' : Cell Thread Int} (hc : Matches s c) {t : Thread} {p : Pc}
    (hpc : s'.pc = Function.update s.pc t p) (hx : c'.x = s'.mem.x)
    (hi : ∀ u, u ≠ t → s'.mem.i u = s.mem.i u) (hother : ∀ u, u ≠ t → s'.mem.seen u = s.mem.seen u)
    (hseen : c'.seen = Function.update c.seen t (if p = .store then some (s'.mem.seen t) else none))
    (htotal : 2 * c'.total = 2 * c.total + owed p (s'.mem.i t) - owed (s.pc t) (s.mem.i t)) : Matches s' c' := by
  refine ⟨hx, ?_, ?_⟩
  · rw [hseen, hc.seen, hpc]
    funext u
    by_cases hu : u = t
    · subst hu
      simp
    · simp [Function.update_of_ne hu, hother u hu]
  · rw [htotal, hc.total, hpc]
    cases t with
    | t1 =>
        have hne : Thread.t2 ≠ .t1 := by decide
        rw [Function.update_self, Function.update_of_ne hne, hi .t2 hne]
        ring
    | t2 =>
        have hne : Thread.t1 ≠ .t2 := by decide
        rw [Function.update_self, Function.update_of_ne hne, hi .t1 hne]
        ring

/-- The halves of the addition are the accesses to the cell, and nothing else is. -/
theorem matches_step (hl : ∀ t, Looping n (s.pc t) (s.mem.i t)) {c : Cell Thread Int} (hc : Matches s c)
    (h : Step (program .plain n) s e s') :
    ∃ c', Run LostUpdate.Step c (accesses [e]) c' ∧ Matches s' c' := by
  rcases h.view with ⟨hidle, hpc, hm⟩ | ⟨t, p, cmd, ht, hcmd, rfl, hpc, hm, _⟩
  · have hnil : accesses [e] = [] := by
      rcases hidle with he | ⟨t, rfl⟩
      · cases e <;> first | rfl | cases he
      · rfl
    rw [hnil]
    exact ⟨c, .nil, ⟨by rw [hm, hc.x], by rw [hpc, hm, hc.seen], by rw [hpc, hm, hc.total]⟩⟩
  · have hpt : s.pc t = p := by simp [State.pc, ht, Ctl.pc]
    have hlt := hl t
    rw [hpt] at hlt
    have hpoint := hlt.point
    have hkeep (hne : p ≠ .store) : c.seen = Function.update c.seen t none := by
      have hnone : c.seen t = none := by simp [hc.seen, hpt, hne]
      rw [← hnone, Function.update_eq_self]
    cases p with
    | add | lock | unlock => simp at hpoint
    | done => simp [program, count] at hcmd
    | test =>
        obtain rfl := List.mem_singleton.mp hcmd
        have hgo : (if s.mem.i t < n then Pc.load else .done) ≠ .store ∧
            owed (if s.mem.i t < n then Pc.load else .done) (s.mem.i t) = owed .test (s.mem.i t) := by
          split <;> simp [owed]
        refine ⟨c, .nil, hc.move hpc (by rw [hm, hc.x]; rfl) (fun _ _ => by rw [hm]; rfl) (fun _ _ => by rw [hm]; rfl) ?_ ?_⟩
        · exact (hkeep (by simp)).trans (congrArg _ (if_neg hgo.1).symm)
        · rw [hm, hpt]
          simp only [Cmd.next, Cmd.mem, Mode.body, hgo.2]
          ring
    | load =>
        obtain rfl := List.mem_singleton.mp hcmd
        refine ⟨_, .single (.load c.x c.total c.seen t), hc.move hpc (by rw [hm, hc.x]; rfl) (fun _ _ => by rw [hm]; rfl)
          (fun _ hu => by rw [hm]; exact Function.update_of_ne hu ..) ?_ ?_⟩
        · rw [hm, hc.x]
          simp [Cmd.next, Cmd.mem]
        · rw [hm, hpt]
          simp [Cmd.next, Cmd.mem, owed]
    | store =>
        obtain rfl := List.mem_singleton.mp hcmd
        have hseen : c.seen t = some (s.mem.seen t) := by simp [hc.seen, hpt]
        refine ⟨_, .single (.store c.x c.total c.seen t _ (s.mem.i t) hseen hlt.pos), hc.move hpc (by rw [hm]; rfl)
          (fun _ _ => by rw [hm]; rfl) (fun _ _ => by rw [hm]; rfl) ?_ ?_⟩
        · simp [Cmd.next]
        · rw [hm, hpt]
          simp only [Cmd.next, Cmd.mem, owed]
          simp
          ring
    | next =>
        obtain rfl := List.mem_singleton.mp hcmd
        refine ⟨c, .nil, hc.move hpc (by rw [hm, hc.x]; rfl) (fun _ hu => by rw [hm]; exact Function.update_of_ne hu ..)
          (fun _ _ => by rw [hm]; rfl) ?_ ?_⟩
        · exact (hkeep (by simp)).trans (congrArg _ (if_neg (by simp [Cmd.next])).symm)
        · rw [hm, hpt]
          simp only [Cmd.next, Cmd.mem, owed, Function.update_self]
          simp
          ring

theorem accesses_append (es es' : List (Event Thread Pc)) : accesses (es ++ es') = accesses es ++ accesses es' :=
  List.filterMap_append ..

theorem run_matches (h : Run (Step (program .plain n)) initial es s) :
    ∃ c, Run LostUpdate.Step (Cell.start 0) (accesses es) c ∧ Matches s c := by
  induction h with
  | nil => exact ⟨_, .nil, ⟨rfl, rfl, rfl⟩⟩
  | snoc hr hl ih =>
      obtain ⟨c, hrun, hc⟩ := ih
      obtain ⟨c', hstep, hc'⟩ := matches_step (run_looping hr) hc hl
      rw [accesses_append]
      exact ⟨c', hrun.append hstep, hc'⟩

theorem x2_eq (n1 : Nat) (h : 1 ≤ n1) : 2 * x2 n1 = (n1 * (n1 - 1) : Int) := by
  induction n1, h using Nat.le_induction with
  | base => rfl
  | succ k hk ih =>
      have hlast : (x2 (k + 1) : Int) = x2 k + k := by
        obtain ⟨j, rfl⟩ := Nat.exists_eq_add_of_le' hk
        simp [x2, List.range'_concat, Nat.add_comm]
      rw [hlast, mul_add, ih]
      push_cast
      ring

/-- Without lost updates the threads have added what main expects. -/
theorem Matches.joined {c : Cell Thread Int} (hc : Matches s c) (hl : ∀ t, Looping n (s.pc t) (s.mem.i t)) (hj : Joined s) :
    c.total = 2 * x2 n.toNat := by
  have hi (t : Thread) : s.mem.i t = max 1 n := by
    have h1 := (hl t).done (hj t)
    have h2 := (hl t).le
    have h3 := (hl t).pos
    omega
  have htotal := hc.total
  rw [hj, hj, hi, hi] at htotal
  by_cases hn : 1 ≤ n
  · have hx2 := x2_eq n.toNat (by omega)
    rw [Int.toNat_of_nonneg (by omega)] at hx2
    rw [max_eq_right hn] at htotal
    simp only [owed] at htotal
    rw [hx2]
    simp at htotal
    omega
  · have hzero : n.toNat = 0 := by omega
    rw [max_eq_left (by omega)] at htotal
    rw [hzero]
    simp [owed] at htotal
    rw [htotal]
    rfl

theorem exact_report (h : Run (Step (program .plain n)) initial es s) (hj : Joined s) :
    (s.mem.x ≠ 2 * x2 n.toNat ↔ Lost (accesses es)) ∧ 0 ≤ s.mem.x ∧ s.mem.x ≤ 2 * x2 n.toNat := by
  obtain ⟨c, hrun, hc⟩ := run_matches h
  obtain ⟨hlost, hle⟩ := run_lost_iff 0 hrun
  have hnonneg := (run_start_le 0 hrun).1
  have htotal := hc.joined (run_looping h) hj
  rw [hc.x, htotal] at hlost hle
  rw [hc.x] at hnonneg
  exact ⟨hlost, hnonneg, hle⟩

section Machine

variable {α : Type} [Ring α]

def castMem (m : Mem Int) : Mem α := ⟨m.x, m.i, fun t => m.seen t⟩

theorem program_tracks (mode : Mode) (n : Int) :
    Tracks (castMem : Mem Int → Mem α) (program mode n) (program mode n) := by
  intro t p m
  have hseen (v : Int) : (fun u => ((Function.update m.seen t v u : Int) : α)) =
      Function.update (fun u => (m.seen u : α)) t (v : α) := by
    funext u
    by_cases hu : u = t
    · subst hu; simp
    · simp [hu]
  cases p with
  | test | lock | unlock | next | done => rfl
  | add | store => simp [program, count, castMem, mapCmd]
  | load => simp [program, count, castMem, mapCmd, hseen]

theorem initial_cast : mapState castMem initial = (initial : State Thread Pc (Mem α)) := by
  simp [mapState, initial, start, castMem]

theorem x2_cast (n1 : Nat) : (x2 n1 : α) = ((x2 n1 : Int) : α) := by
  suffices h : ∀ (is : List Nat) (a : Int),
      is.foldl (fun x2 (i : Nat) => x2 + (i : α)) a = ((is.foldl (fun x2 (i : Nat) => x2 + (i : Int)) a : Int) : α) by
    simpa [x2] using h (List.range' 1 (n1 - 1)) 0
  intro is
  induction is with
  | nil => exact fun _ => rfl
  | cons i is ih =>
      intro a
      have ha : (a : α) + i = ((a + i : Int) : α) := by simp
      rw [List.foldl_cons, List.foldl_cons, ha, ih]

end Machine

theorem toNat_cast {a : Int} (ha : 0 ≤ a) (hb : a < 2 ^ 31) : ((a : BitVec 32).toNat : Int) = a := by
  rw [BitVec.toNat_intCast, Int.toNat_of_nonneg (Int.emod_nonneg _ (by norm_num))]
  exact Int.emod_eq_of_lt ha (by omega)

/-- The machine computes the exact sums as long as they fit. -/
theorem machine_report (hn : 0 ≤ n) (hfit : n * (n - 1) < 2 ^ 31) {s : State Thread Pc (Mem (BitVec 32))}
    (h : Run (Step (program .plain n)) initial es s) (hj : Joined s) :
    (s.mem.x ≠ 2 * x2 (unsigned n) ↔ Lost (accesses es)) ∧
      s.mem.x.toNat ≤ (2 * x2 (unsigned n) : BitVec 32).toNat := by
  rw [← initial_cast] at h
  obtain ⟨s₀, h₀, rfl⟩ := run_of_map (program_tracks .plain n) h
  obtain ⟨hlost, hnonneg, hle⟩ := exact_report h₀ hj
  have hunsigned : unsigned n = n.toNat := by
    have hsmall : n < 2 ^ 32 := by nlinarith
    rw [unsigned, Int.emod_eq_of_lt hn hsmall]
  have hexpected : 2 * x2 n.toNat < (2 : Int) ^ 31 := by
    by_cases hpos : 1 ≤ n
    · have hx2 := x2_eq n.toNat (by omega)
      rw [Int.toNat_of_nonneg hn] at hx2
      omega
    · have hzero : n.toNat = 0 := by omega
      rw [hzero]
      decide
  have hmachine : (2 * x2 n.toNat : BitVec 32) = ((2 * x2 n.toNat : Int) : BitVec 32) := by
    rw [x2_cast]
    simp
  have hx := toNat_cast hnonneg (hle.trans_lt hexpected)
  have he := toNat_cast (hnonneg.trans hle) hexpected
  rw [hunsigned, hmachine]
  refine ⟨?_, ?_⟩
  · rw [← hlost]
    exact not_congr ⟨fun heq => by rw [← hx, ← he]; exact congrArg (fun v => (v.toNat : Int)) heq, fun heq => by
      change ((s₀.mem.x : BitVec 32)) = _
      rw [heq]⟩
  · change ((s₀.mem.x : BitVec 32)).toNat ≤ _
    omega

/-- An exact race detector, in the integers and on the machine as long as the
sums fit. -/
theorem race_detected_iff (n : Int) (es : List (Event Thread Pc)) :
    (∀ s : State Thread Pc (Mem Int), Run (Step (program .plain n)) initial es s → Joined s →
      ((report n.toNat s.mem).race = true ↔ Lost (accesses es)) ∧
      ((report n.toNat s.mem).race = true → s.mem.x < 2 * x2 n.toNat)) ∧
    (0 ≤ n → n * (n - 1) < 2 ^ 31 → ∀ s : State Thread Pc (Mem (BitVec 32)),
      Run (Step (program .plain n)) initial es s → Joined s →
      ((report (unsigned n) s.mem).race = true ↔ Lost (accesses es)) ∧
      ((report (unsigned n) s.mem).race = true → s.mem.x < 2 * x2 (unsigned n))) := by
  simp only [report, decide_eq_true_iff]
  constructor
  · intro s h hj
    obtain ⟨hlost, _, hle⟩ := exact_report h hj
    exact ⟨hlost, fun hne => lt_of_le_of_ne hle hne⟩
  · intro hn hfit s h hj
    obtain ⟨hlost, hle⟩ := machine_report hn hfit h hj
    exact ⟨hlost, fun hne => BitVec.lt_def.mpr (lt_of_le_of_ne hle (fun heq => hne (BitVec.eq_of_toNat_eq heq)))⟩

theorem race_detected_two : ∃ es, ∃ s : State Thread Pc (Mem Int),
    Run (Step (program .plain 2)) initial es s ∧ Joined s ∧ s.mem.x = 1 ∧ Lost (accesses es) := by
  have hturns : ∃ s, [Thread.t1, .t1, .t2, .t2, .t1, .t1, .t1, .t2, .t2, .t2].foldlM (turn (program .plain 2))
      (initial : State Thread Pc (Mem Int)) = some s ∧ s.mem.x = 1 ∧ Joined s :=
    ⟨_, rfl, rfl, fun t => by cases t <;> rfl⟩
  obtain ⟨s, hs, hx, hj⟩ := hturns
  obtain ⟨es, hrun⟩ := turns_run hs
  refine ⟨es, s, hrun, hj, hx, (((race_detected_iff 2 es).1 s hrun hj).1).mp ?_⟩
  rw [report, hx]
  rfl

end UnixProg.Race.AtomicAdd

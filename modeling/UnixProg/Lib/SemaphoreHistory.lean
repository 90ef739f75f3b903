import UnixProg.Lib.Semaphore

namespace UnixProg.Lib.SemaphoreHistory

open Transition Semaphore

variable {T P M : Type}

/-- The operations on the semaphore that succeed. -/
inductive Op
  | post
  | wait
deriving DecidableEq

def op (sem : Option Nat) : Cmd P M → Option Op
  | .down _ _ _ => sem.map (fun _ => .wait)
  | .up _ _ => sem.map (fun _ => .post)
  | .run _ _ | .remove _ | .await _ _ _ => none

section History

variable [DecidableEq T]

def opAt (prog : Prog T P M) (s : State T P M) : Event T → Option Op
  | .exec t k => (prog.cmds t (s.pc t) s.mem)[k]?.bind (fun c => (c.attempt s.sem s.mem).bind (fun _ => op s.sem c))
  | .signal _ => none

/-- What the processes did to the semaphore, in the order in which they did it. -/
def ops (prog : Prog T P M) (s : State T P M) : List (Event T) → List Op
  | [] => []
  | e :: es => (opAt prog s e).toList ++ (next prog s e).elim [] (fun s' => ops prog s' es)

def posts (prog : Prog T P M) (s : State T P M) (es : List (Event T)) : Nat := (ops prog s es).count .post

def waits (prog : Prog T P M) (s : State T P M) (es : List (Event T)) : Nat := (ops prog s es).count .wait

end History

variable [DecidableEq T] {prog : Prog T P M} {s s' s₀ : State T P M} {e : Event T} {es : List (Event T)} {init : Nat}
  {p₀ : T → P} {m₀ : M}

theorem ops_eq_trace (s : State T P M) (es : List (Event T)) :
    ops prog s es = trace (next prog) (fun s e => (opAt prog s e).toList) s es := by
  induction es generalizing s with
  | nil => rfl
  | cons e es ih => cases hn : next prog s e <;> simp [ops, trace, hn, ih]

theorem ops_snoc (h : Run (Exec (next prog)) s₀ es s) (e : Event T) :
    ops prog s₀ (es ++ [e]) = ops prog s₀ es ++ (opAt prog s e).toList := by
  rw [ops_eq_trace, ops_eq_trace]
  exact trace_snoc _ h e

/-- A semaphore that is still there has been changed as the history says. -/
theorem attempt_balance {c : Cmd P M} {sem : Option Nat} {m m' : M} {p : P} {v : Nat}
    (h : c.attempt sem m = some (some v, m', p)) :
    ∃ u, sem = some u ∧ v + (op sem c).toList.count .wait = u + (op sem c).toList.count .post := by
  cases Cmd.attempt_tries h with
  | run | await => exact ⟨v, rfl, rfl⟩
  | down => exact ⟨v + 1, rfl, rfl⟩
  | up u => exact ⟨u, rfl, rfl⟩

/-- The two ways in which a process goes on by itself, with what the history says of them. -/
theorem next_done {t : T} {k : Nat} (h : next prog s (.exec t k) = some s') :
    ∃ c ∈ prog.cmds t (s.pc t) s.mem,
      (∃ sem m p, c.attempt s.sem s.mem = some (sem, m, p) ∧ s' = ⟨sem, Function.update s.ctl t (.running p), m⟩ ∧
        opAt prog s (.exec t k) = op s.sem c) ∨
      (s'.sem = s.sem ∧ s'.pc = s.pc ∧ s'.mem = s.mem ∧ opAt prog s (.exec t k) = none) := by
  simp only [next] at h
  split at h
  · cases h
  · rename_i c hc
    refine ⟨c, List.mem_of_getElem? hc, ?_⟩
    split at h
    · rename_i ha
      simp only [block] at h
      split at h
      · rename_i p q hp _
        cases h
        refine .inr ⟨rfl, ?_, rfl, ?_⟩
        · have hpc : s.pc t = p := by rw [State.pc, hp, Ctl.pc]
          rw [pc_goto]
          exact hpc ▸ Function.update_eq_self t s.pc
        · simp [opAt, hc, ha]
      · cases h
    · rename_i sem m p ha
      cases h
      refine .inl ⟨sem, m, p, ha, rfl, ?_⟩
      simp [opAt, hc, ha]

theorem next_balance (h : next prog s e = some s') {v : Nat} (hv : s'.sem = some v) :
    ∃ u, s.sem = some u ∧ v + (opAt prog s e).toList.count .wait = u + (opAt prog s e).toList.count .post := by
  cases e with
  | exec t k =>
      obtain ⟨c, _, ⟨sem, m, p, ha, rfl, hop⟩ | ⟨hsem, _, _, hop⟩⟩ := next_done h
      · rw [hop]
        change sem = some v at hv
        rw [hv] at ha
        exact attempt_balance ha
      · rw [hop]
        exact ⟨v, hsem ▸ hv, rfl⟩
  | signal t => rcases next_signal h with rfl | ⟨p, q, _, rfl⟩ <;> exact ⟨v, hv, rfl⟩

theorem run_balance (h : Run (Exec (next prog)) (start init p₀ m₀) es s) {v : Nat} (hv : s.sem = some v) :
    v + waits prog (start init p₀ m₀) es = init + posts prog (start init p₀ m₀) es := by
  induction h generalizing v with
  | nil =>
      cases hv
      rfl
  | snoc hr hl ih =>
      obtain ⟨u, hu, hstep⟩ := next_balance hl hv
      have hprev := ih hu
      simp only [waits, posts] at hprev ⊢
      rw [ops_snoc hr, List.count_append, List.count_append]
      omega

end UnixProg.Lib.SemaphoreHistory

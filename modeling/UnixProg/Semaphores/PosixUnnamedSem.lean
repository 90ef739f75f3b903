import UnixProg.Lib.SemaphoreHistory

namespace UnixProg.Semaphores.PosixUnnamedSem

open Lib Transition Semaphore SemaphoreHistory

inductive Thread
  | usher
  | main
deriving DecidableEq

/-- The statements of the two loops. `again` is the retry of `sem_wait_nointr`,
and `failed` the end of the program after an interrupted `sem_wait()`. -/
inductive Pc
  | post
  | plus
  | semWait
  | again
  | minus
  | failed
  | poll
  | gone
deriving DecidableEq

/-- What was printed, and the exit status. -/
structure Mem where
  out : List Char
  exited : Option Nat

def putcharf (x : Char) (m : Mem) : Mem := { m with out := m.out ++ [x] }

/-- Where an interrupted `sem_wait()` leads. -/
def interrupted (nointr : Bool) : Pc := if nointr then .again else .failed

/-- A `sem_post()` fails when the value is as large as it can be; nobody looks. -/
def thread (nointr : Bool) : Thread → Pc → Mem → List (Cmd Pc Mem)
  | .usher, .post, m => [.up .plus none, .run m .plus]
  | .usher, .plus, m => [.run (putcharf '+' m) .poll]
  | .usher, .poll, m => [.run m .post]
  | .main, .semWait, _ => [.down .minus (interrupted nointr) none]
  | .main, .again, m => [.run (putcharf 'S' m) .semWait]
  | .main, .minus, m => [.run (putcharf '-' m) .poll]
  | .main, .poll, m => [.run m .semWait]
  | .main, .failed, m => [.run { m with exited := some 1 } .gone]
  | _, _, _ => []

/-- The exit of the main thread ends the other one as well. -/
def cmds (nointr : Bool) (t : Thread) (p : Pc) (m : Mem) : List (Cmd Pc Mem) :=
  if m.exited = none then thread nointr t p m else []

/-- The handler of SIGALRM only asks for the next one. -/
def program (nointr : Bool) : Prog Thread Pc Mem := ⟨cmds nointr, fun _ m => m⟩

def entry : Thread → Pc
  | .usher => .post
  | .main => .semWait

/-- Both threads run, and the semaphore allows to enter 5 times. -/
def initial : State Thread Pc Mem := start 5 entry ⟨[], none⟩

/-- The commands of the threads, one by one. -/
inductive Does (nointr : Bool) : Thread → Pc → Mem → Cmd Pc Mem → Prop
  | post (m) : Does nointr .usher .post m (.up .plus none)
  | overflow (m) : Does nointr .usher .post m (.run m .plus)
  | plus (m) : Does nointr .usher .plus m (.run (putcharf '+' m) .poll)
  | usherPoll (m) : Does nointr .usher .poll m (.run m .post)
  | semWait (m) : Does nointr .main .semWait m (.down .minus (interrupted nointr) none)
  | again (m) : Does nointr .main .again m (.run (putcharf 'S' m) .semWait)
  | minus (m) : Does nointr .main .minus m (.run (putcharf '-' m) .poll)
  | mainPoll (m) : Does nointr .main .poll m (.run m .semWait)
  | failed (m) : Does nointr .main .failed m (.run { m with exited := some 1 } .gone)

/-- Each '-' that is printed or about to be stands for one successful wait, and
each post for a '+' that is printed or about to be. -/
structure Counted (pc : Thread → Pc) (out : List Char) (waits posts : Nat) : Prop where
  waits : out.count '-' + (if pc .main = .minus then 1 else 0) = waits
  posts : posts ≤ out.count '+' + (if pc .usher = .plus then 1 else 0)

variable {nointr : Bool} {s s' : State Thread Pc Mem} {es : List (Event Thread)} {e : Event Thread}

theorem cmds_does {t : Thread} {p : Pc} {m : Mem} {c : Cmd Pc Mem} (hc : c ∈ (program nointr).cmds t p m) :
    Does nointr t p m c := by
  simp only [program, cmds] at hc
  split at hc
  · simp only [thread] at hc
    split at hc
    · rcases List.mem_pair.mp hc with rfl | rfl
      · exact .post _
      · exact .overflow _
    · obtain rfl := List.mem_singleton.mp hc
      exact .plus _
    · obtain rfl := List.mem_singleton.mp hc
      exact .usherPoll _
    · obtain rfl := List.mem_singleton.mp hc
      exact .semWait _
    · obtain rfl := List.mem_singleton.mp hc
      exact .again _
    · obtain rfl := List.mem_singleton.mp hc
      exact .minus _
    · obtain rfl := List.mem_singleton.mp hc
      exact .mainPoll _
    · obtain rfl := List.mem_singleton.mp hc
      exact .failed _
    · cases hc
  · cases hc

variable {pc : Thread → Pc} {out out' : List Char} {p : Pc} {w w' k k' : Nat}

theorem Counted.usher (hs : Counted pc out w k) (hout : out'.count '-' = out.count '-')
    (hk : k' ≤ out'.count '+' + (if p = .plus then 1 else 0)) : Counted (Function.update pc .usher p) out' w k' where
  waits := by
    have hne : Thread.main ≠ .usher := nofun
    rw [hout, Function.update_of_ne hne]
    exact hs.waits
  posts := by
    rw [Function.update_self]
    exact hk

theorem Counted.main (hs : Counted pc out w k) (hout : out'.count '+' = out.count '+')
    (hw : out'.count '-' + (if p = .minus then 1 else 0) = w') : Counted (Function.update pc .main p) out' w' k where
  waits := by
    rw [Function.update_self]
    exact hw
  posts := by
    have hne : Thread.usher ≠ .main := nofun
    rw [hout, Function.update_of_ne hne]
    exact hs.posts

theorem counted_done {t : Thread} {p' : Pc} {m m' : Mem} {c : Cmd Pc Mem} {sem sem' : Option Nat}
    (hs : Counted pc m.out w k) (hp : pc t = p) (hd : Does nointr t p m c) (ha : c.attempt sem m = some (sem', m', p')) :
    Counted (Function.update pc t p') m'.out (w + (op sem c).toList.count .wait) (k + (op sem c).toList.count .post) := by
  have hwaits := hs.waits
  have hposts := hs.posts
  cases hd with
  | post =>
      rw [hp] at hposts
      rcases sem with _ | v <;> cases ha
      exact hs.usher rfl (Nat.succ_le_succ hposts)
  | overflow =>
      rw [hp] at hposts
      cases ha
      exact hs.usher rfl (Nat.le_succ_of_le hposts)
  | plus =>
      rw [hp] at hposts
      cases ha
      apply hs.usher
      · simp [putcharf]
      · simpa [putcharf, op] using hposts
  | usherPoll =>
      rw [hp] at hposts
      cases ha
      exact hs.usher rfl hposts
  | semWait =>
      rw [hp] at hwaits
      rcases sem with _ | _ | v <;> cases ha
      exact hs.main rfl (congrArg (· + 1) hwaits)
  | again =>
      rw [hp] at hwaits
      cases ha
      apply hs.main
      · simp [putcharf]
      · simpa [putcharf, op] using hwaits
  | minus =>
      rw [hp] at hwaits
      cases ha
      apply hs.main
      · simp [putcharf]
      · simpa [putcharf, op] using hwaits
  | mainPoll | failed =>
      rw [hp] at hwaits
      cases ha
      exact hs.main rfl hwaits

/-- Only the main thread blocks, in `sem_wait()`. -/
theorem blocked_main {t : Thread} {p q : Pc} (hb : BlockedIn (program nointr) s) (h : s.ctl t = .blocked p q) :
    t = .main ∧ p = .semWait ∧ q = interrupted nointr := by
  obtain ⟨m, c, hc, hq⟩ := hb t p q h
  cases cmds_does hc with
  | semWait => exact ⟨rfl, rfl, (Option.some.inj hq).symm⟩
  | post | overflow | plus | usherPoll | again | minus | mainPoll | failed => cases hq

theorem next_counted (hb : BlockedIn (program nointr) s) (hs : Counted s.pc s.mem.out w k)
    (h : next (program nointr) s e = some s') :
    Counted s'.pc s'.mem.out (w + (opAt (program nointr) s e).toList.count .wait)
      (k + (opAt (program nointr) s e).toList.count .post) := by
  cases e with
  | exec t j =>
      obtain ⟨c, hc, ⟨sem, m, p, ha, rfl, hop⟩ | ⟨_, hpc, hm, hop⟩⟩ := next_done h
      · have hpc : State.pc ⟨sem, Function.update s.ctl t (.running p), m⟩ = Function.update s.pc t p :=
          pc_update s.ctl t (.running p)
        rw [hop, hpc]
        exact counted_done hs rfl (cmds_does hc) ha
      · rw [hop, hpc, hm]
        exact hs
  | signal t =>
      rcases next_signal h with rfl | ⟨p, q, hbl, rfl⟩
      · exact hs
      · obtain ⟨rfl, rfl, rfl⟩ := blocked_main hb hbl
        have hpc : s.pc .main = .semWait := by rw [State.pc, hbl, Ctl.pc]
        have hwaits := hs.waits
        rw [hpc] at hwaits
        change Counted (s.goto .main (.running (interrupted nointr))).pc s.mem.out w k
        rw [pc_goto]
        apply hs.main rfl
        cases nointr <;> exact hwaits

theorem run_counted (h : Run (Exec (next (program nointr))) initial es s) :
    Counted s.pc s.mem.out (waits (program nointr) initial es) (posts (program nointr) initial es) := by
  induction h with
  | nil => exact ⟨rfl, Nat.le_refl _⟩
  | snoc hr hl ih =>
      have hnext := next_counted (run_blockedIn hr) ih hl
      rw [waits, posts, ops_snoc hr, List.count_append, List.count_append]
      exact hnext

theorem next_out (h : next (program nointr) s e = some s') :
    s'.mem.out = s.mem.out ∨ ∃ x, s'.mem.out = s.mem.out ++ [x] := by
  obtain ⟨_, hmem⟩ | ⟨t, j, rfl, c, hc, p, hg, _⟩ | ⟨t, rfl, hmem, _⟩ := next_view h
  · exact .inl (by rw [hmem])
  · have hd := cmds_does hc
    generalize s.pc t = p₀ at hd
    cases hd with
    | plus | again | minus =>
        rw [hg.1]
        exact .inr ⟨_, rfl⟩
    | post | overflow | usherPoll | semWait | mainPoll | failed =>
        rw [hg.1]
        exact .inl rfl
  · exact .inl (by rw [hmem]; rfl)

/-- The main thread has called `err()`. -/
def ended (p : Pc) : Bool := p = .failed || p = .gone

theorem next_ended (hb : BlockedIn (program nointr) s) (hend : ended (s.pc .main) = true)
    (h : next (program nointr) s e = some s') :
    ended (s'.pc .main) = true ∧ s'.mem.out.count '-' = s.mem.out.count '-' := by
  obtain ⟨hpc, hmem⟩ | ⟨t, j, rfl, c, hc, p, hg, hpc⟩ | ⟨t, rfl, hmem, hpc | ⟨p, q, hbl, hpc⟩⟩ := next_view h
  · rw [hpc, hmem]
    exact ⟨hend, rfl⟩
  · have hd := cmds_does hc
    rw [hpc]
    cases t with
    | usher =>
        have hne : Thread.main ≠ .usher := nofun
        rw [Function.update_of_ne hne]
        refine ⟨hend, ?_⟩
        generalize s.pc .usher = p₀ at hd
        cases hd with
        | plus =>
            rw [hg.1]
            simp [putcharf]
        | post | overflow | usherPoll => rw [hg.1]
    | main =>
        rw [Function.update_self]
        generalize s.pc .main = p₀ at hd hend
        cases hd with
        | failed =>
            rw [hg.1, hg.2]
            exact ⟨rfl, rfl⟩
        | semWait | again | minus | mainPoll => cases hend
  · rw [hpc, hmem]
    exact ⟨hend, rfl⟩
  · obtain ⟨rfl, rfl, rfl⟩ := blocked_main hb hbl
    rw [State.pc, hbl] at hend
    cases hend

theorem program_present (h : Run (Exec (next (program nointr))) initial es s) : ∃ v, s.sem = some v := by
  apply run_present _ h
  intro t p m q hc
  cases cmds_does hc

/-- One '-' more than the posts and the five units allow is never printed, and
there is at most one post whose '+' is still to come. -/
theorem minus_le (h : Run (Exec (next (program nointr))) initial es s) :
    s.mem.out.count '-' ≤ 6 + s.mem.out.count '+' := by
  obtain ⟨v, hv⟩ := program_present h
  obtain ⟨hwaits, hposts⟩ := run_counted h
  have hbalance : v + waits (program nointr) initial es = 5 + posts (program nointr) initial es := run_balance h hv
  have hone : (if s.pc .usher = .plus then 1 else 0) ≤ 1 := by split <;> simp
  omega

theorem prefix_minus_le (h : Run (Exec (next (program nointr))) initial es s) {l : List Char} (hl : l <+: s.mem.out) :
    l.count '-' ≤ 6 + l.count '+' := by
  induction h generalizing l with
  | nil =>
      rw [List.prefix_nil.mp hl]
      exact Nat.zero_le _
  | @snoc es e s s' hr hstep ih =>
      rcases next_out hstep with hsame | ⟨x, hx⟩
      · exact ih (hsame ▸ hl)
      · have hwhole := minus_le (hr.snoc hstep)
        rw [hx] at hl hwhole
        rcases List.prefix_concat_iff.mp hl with rfl | hl
        · exact hwhole
        · exact ih hl

/-- The main thread prints nothing more after an interrupted `sem_wait()`. -/
theorem interrupted_ends {t : State Thread Pc Mem} {p q : Pc} (h : Run (Exec (next (program false))) initial es s)
    (hbl : s.ctl .main = .blocked p q) (hs : next (program false) s (.signal .main) = some s')
    (ht : Reachable (Exec (next (program false))) s' t) : t.mem.out.count '-' = s.mem.out.count '-' := by
  have hb := run_blockedIn h
  obtain ⟨_, rfl, rfl⟩ := blocked_main hb hbl
  have hstart : ended (s'.pc .main) = true ∧ s'.mem.out = s.mem.out := by
    rw [next, hbl] at hs
    cases hs
    refine ⟨?_, rfl⟩
    change ended ((s.goto .main (.running (interrupted false))).pc .main) = true
    rw [pc_goto, Function.update_self]
    rfl
  have hinv : BlockedIn (program false) t ∧ ended (t.pc .main) = true ∧ t.mem.out.count '-' = s'.mem.out.count '-' := by
    apply ht.invariant (I := fun t =>
      BlockedIn (program false) t ∧ ended (t.pc .main) = true ∧ t.mem.out.count '-' = s'.mem.out.count '-')
    · exact ⟨next_blockedIn hb hs, hstart.1, rfl⟩
    · rintro u e v ⟨hu, hend, hcount⟩ hl
      obtain ⟨hend', hcount'⟩ := next_ended hu hend hl
      exact ⟨next_blockedIn hu hl, hend', hcount'.trans hcount⟩
  rw [hinv.2.2, hstart.2]

/-- The account of the semaphore and of the output. -/
theorem counted_whatever_interrupts (nointr : Bool) (es : List (Event Thread)) (s : State Thread Pc Mem)
    (h : Run (Exec (next (program nointr))) initial es s) :
    (∃ v, s.sem = some v ∧ v + waits (program nointr) initial es = 5 + posts (program nointr) initial es) ∧
    s.mem.out.count '-' + (if s.pc .main = .minus then 1 else 0) = waits (program nointr) initial es ∧
    (∀ l, l <+: s.mem.out → l.count '-' ≤ 6 + l.count '+') ∧
    (nointr = false → ∀ p q s' t, s.ctl .main = .blocked p q → next (program nointr) s (.signal .main) = some s' →
      Reachable (Exec (next (program nointr))) s' t → t.mem.out.count '-' = s.mem.out.count '-') := by
  obtain ⟨v, hv⟩ := program_present h
  refine ⟨⟨v, hv, run_balance h hv⟩, (run_counted h).waits, fun l hl => prefix_minus_le h hl, ?_⟩
  rintro rfl p q s' t hbl hs ht
  exact interrupted_ends h hbl hs ht

/-- All five units are taken, a wait is interrupted, and the unit of the first
post is taken before its '+' is printed. -/
def sixth : List (Event Thread) :=
  (List.replicate 5 [.exec .main 0, .exec .main 0, .exec .main 0]).flatten ++
    [.exec .main 0, .signal .main, .exec .main 0, .exec .usher 0, .exec .main 0, .exec .main 0]

theorem counted_whatever_interrupts_sixth : ∃ s, Run (Exec (next (program true))) initial sixth s ∧
    s.mem.out = ['-', '-', '-', '-', '-', 'S', '-'] ∧ waits (program true) initial sixth = 6 := by
  obtain ⟨s, hs, hout, hpc⟩ : ∃ s, replay (next (program true)) initial sixth = some s ∧
      s.mem.out = ['-', '-', '-', '-', '-', 'S', '-'] ∧ s.pc .main = .poll := ⟨_, rfl, rfl, rfl⟩
  have hcount := (counted_whatever_interrupts true sixth s (replay_run hs)).2.1
  rw [hout, hpc] at hcount
  exact ⟨s, replay_run hs, hout, hcount.symm⟩

end UnixProg.Semaphores.PosixUnnamedSem

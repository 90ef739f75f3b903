import UnixProg.Lib.SemaphoreRule
import Mathlib.Data.List.FinRange

namespace UnixProg.Semaphores.TalkingHeads

open Lib Transition Semaphore SemaphoreRule

def maxSecs : Nat := 7

/-- The children and the parent, who is `none`. -/
abbrev Proc (n : Nat) := Option (Fin n)

/-- The statements of the processes. The loop of `talk()` keeps its `i` and
`nsecs` here; the counters of the parent's loops are those of its children. -/
inductive Pc
  | fork (i : Nat)
  | wait (i : Nat)
  | unborn
  | loop
  | semWait
  | talk
  | test (i nsecs : Nat)
  | print (i nsecs : Nat)
  | semPost
  | clean
  | exit
  | gone
deriving DecidableEq

/-- What `talk()` prints, the last time with parentheses. -/
inductive Token (n : Nat)
  | plain (id : Fin n)
  | last (id : Fin n)
deriving DecidableEq

structure Mem (n : Nat) where
  run : Proc n → Bool
  out : List (Token n)
  born : Finset (Fin n)
  exited : Finset (Fin n)
  reaped : Finset (Fin n)
  unlinked : Bool

variable {n : Nat}

/-- A child starts with a copy of the variables of the parent. -/
def Mem.fork (m : Mem n) (c : Fin n) : Mem n :=
  { m with born := insert c m.born, run := Function.update m.run (some c) (m.run none) }

def finish (t : Proc n) (m : Mem n) : Mem n := { m with run := Function.update m.run t false }

/-- Closing the semaphore takes nothing away from the others; the parent
unlinks its name as well. -/
def cleanup (t : Proc n) (m : Mem n) : Mem n :=
  match t with
  | none => { m with unlinked := true }
  | some _ => m

def ended (t : Proc n) (m : Mem n) : Mem n :=
  match t with
  | none => m
  | some c => { m with exited := insert c m.exited }

/-- A `wait()`: any child that has exited is taken, and it is an error to call
it when there is no child left. Its result is not looked at. -/
def waits (m : Mem n) (p : Pc) : List (Cmd Pc (Mem n)) :=
  if m.reaped = m.born then [.run m p]
  else (List.finRange n).map (fun c =>
    .await (if c ∈ m.exited ∧ c ∉ m.reaped then some { m with reaped := insert c m.reaped } else none) p p)

def token (i nsecs : Nat) (id : Fin n) : Token n := if i = nsecs - 1 then .last id else .plain id

/-- A failing `fork()` ends the parent. The result of `sem_wait()` is not
looked at, and `nsecs` is a random number. -/
def cmds : Proc n → Pc → Mem n → List (Cmd Pc (Mem n))
  | none, .fork i, m => if h : i < n then [.run (m.fork ⟨i, h⟩) (.fork (i + 1)), .run m .gone] else [.run m (.wait 0)]
  | none, .wait i, m => if i < n then waits m (.wait (i + 1)) else [.run m .clean]
  | some c, .unborn, m => if c ∈ m.born then [.run m .loop] else []
  | some c, .loop, m => [.run m (if m.run (some c) then .semWait else .clean)]
  | some _, .semWait, _ => [.down .talk .talk none]
  | some _, .talk, m => (List.range (maxSecs - 1)).map (fun r => .run m (.test 0 (r + 1)))
  | some _, .test i nsecs, m => [.run m (if i < nsecs then .print i nsecs else .semPost)]
  | some c, .print i nsecs, m => [.run { m with out := m.out ++ [token i nsecs c] } (.test (i + 1) nsecs)]
  | some _, .semPost, _ => [.up .loop none]
  | t, .clean, m => [.run (cleanup t m) .exit]
  | t, .exit, m => [.run (ended t m) .gone]
  | _, _, _ => []

def program : Prog (Proc n) Pc (Mem n) := ⟨cmds, finish⟩

/-- Before the first fork, with the value that `sem_open()` gave the semaphore. -/
def initial (n value : Nat) : State (Proc n) Pc (Mem n) :=
  start value (fun t => t.elim (.fork 0) (fun _ => .unborn)) ⟨fun _ => true, [], ∅, ∅, ∅, false⟩

def talking : Pc → Bool
  | .talk | .test _ _ | .print _ _ => true
  | _ => false

/-- Between `sem_wait()` and the end of `sem_post()`. -/
def inside (p : Pc) : Bool := talking p || p matches .semPost

variable {s : State (Proc n) Pc (Mem n)} {es : List (Event (Proc n))} {init : Nat}

/-- The commands of the processes, one by one. -/
inductive Does : Proc n → Pc → Mem n → Cmd Pc (Mem n) → Prop
  | fork (m) (i : Nat) (h : i < n) : Does none (.fork i) m (.run (m.fork ⟨i, h⟩) (.fork (i + 1)))
  | forkFails (m) (i : Nat) (h : i < n) : Does none (.fork i) m (.run m .gone)
  | forked (m) (i : Nat) (h : n ≤ i) : Does none (.fork i) m (.run m (.wait 0))
  | childless (m) (i : Nat) (h : i < n) (hm : m.reaped = m.born) : Does none (.wait i) m (.run m (.wait (i + 1)))
  | wait (m) (i : Nat) (h : i < n) (x : Fin n) : Does none (.wait i) m
      (.await (if x ∈ m.exited ∧ x ∉ m.reaped then some { m with reaped := insert x m.reaped } else none)
        (.wait (i + 1)) (.wait (i + 1)))
  | waited (m) (i : Nat) (h : n ≤ i) : Does none (.wait i) m (.run m .clean)
  | born (m) (x : Fin n) (h : x ∈ m.born) : Does (some x) .unborn m (.run m .loop)
  | loop (m) (x : Fin n) : Does (some x) .loop m (.run m (if m.run (some x) then .semWait else .clean))
  | semWait (m) (x : Fin n) : Does (some x) .semWait m (.down .talk .talk none)
  | talk (m) (x : Fin n) (r : Nat) (h : r < maxSecs - 1) : Does (some x) .talk m (.run m (.test 0 (r + 1)))
  | test (m) (x : Fin n) (i nsecs : Nat) :
      Does (some x) (.test i nsecs) m (.run m (if i < nsecs then .print i nsecs else .semPost))
  | print (m) (x : Fin n) (i nsecs : Nat) :
      Does (some x) (.print i nsecs) m (.run { m with out := m.out ++ [token i nsecs x] } (.test (i + 1) nsecs))
  | semPost (m) (x : Fin n) : Does (some x) .semPost m (.up .loop none)
  | clean (m) (t : Proc n) : Does t .clean m (.run (cleanup t m) .exit)
  | exit (m) (t : Proc n) : Does t .exit m (.run (ended t m) .gone)

theorem cmds_does {t : Proc n} {p : Pc} {m : Mem n} {c : Cmd Pc (Mem n)} (hc : c ∈ program.cmds t p m) : Does t p m c := by
  simp only [program, cmds] at hc
  split at hc
  · split at hc
    · rcases List.mem_pair.mp hc with rfl | rfl
      · exact .fork _ _ ‹_›
      · exact .forkFails _ _ ‹_›
    · obtain rfl := List.mem_singleton.mp hc
      exact .forked _ _ (Nat.le_of_not_lt ‹_›)
  · split at hc
    · simp only [waits] at hc
      split at hc
      · obtain rfl := List.mem_singleton.mp hc
        exact .childless _ _ ‹_› ‹_›
      · obtain ⟨x, _, rfl⟩ := List.mem_map.mp hc
        exact .wait _ _ ‹_› x
    · obtain rfl := List.mem_singleton.mp hc
      exact .waited _ _ (Nat.le_of_not_lt ‹_›)
  · split at hc
    · obtain rfl := List.mem_singleton.mp hc
      exact .born _ _ ‹_›
    · cases hc
  · obtain rfl := List.mem_singleton.mp hc
    exact .loop _ _
  · obtain rfl := List.mem_singleton.mp hc
    exact .semWait _ _
  · obtain ⟨r, hr, rfl⟩ := List.mem_map.mp hc
    exact .talk _ _ r (List.mem_range.mp hr)
  · obtain rfl := List.mem_singleton.mp hc
    exact .test _ _ _ _
  · obtain rfl := List.mem_singleton.mp hc
    exact .print _ _ _ _
  · obtain rfl := List.mem_singleton.mp hc
    exact .semPost _ _
  · obtain rfl := List.mem_singleton.mp hc
    exact .clean _ _
  · obtain rfl := List.mem_singleton.mp hc
    exact .exit _ _
  · cases hc

theorem program_disciplined : Disciplined (program (n := n)) inside := by
  intro t p m c hc
  cases cmds_does hc with
  | loop m x =>
      change inside (if m.run (some x) then .semWait else .clean) = false
      split <;> rfl
  | test m x i nsecs =>
      change inside (if i < nsecs then .print i nsecs else .semPost) = true
      split <;> rfl
  | wait => exact ⟨rfl, rfl⟩
  | semWait | semPost => exact ⟨rfl, rfl, nofun⟩
  | fork | forkFails | forked | childless | waited | born | talk | print | clean | exit => rfl

/-- The call in which a process is blocked. -/
def blockedIn : Ctl Pc → Option Pc
  | .running _ => none
  | .blocked p _ => some p

/-- No SIGINT reaches a child that is blocked in `sem_wait()`. -/
def NotInSemWait (s : State (Proc n) Pc (Mem n)) : Event (Proc n) → Prop
  | .exec _ _ => True
  | .signal t => blockedIn (s.ctl t) ≠ some .semWait

/-- No SIGINT reaches the parent while it is blocked, as it can only be in `wait()`. -/
def NotInWait (s : State (Proc n) Pc (Mem n)) : Event (Proc n) → Prop
  | .exec _ _ | .signal (some _) => True
  | .signal none => blockedIn (s.ctl none) = none

instance (s : State (Proc n) Pc (Mem n)) : ∀ e, Decidable (NotInSemWait s e)
  | .exec _ _ => inferInstanceAs (Decidable True)
  | .signal t => inferInstanceAs (Decidable (blockedIn (s.ctl t) ≠ some .semWait))

instance (s : State (Proc n) Pc (Mem n)) : ∀ e, Decidable (NotInWait s e)
  | .exec _ _ | .signal (some _) => inferInstanceAs (Decidable True)
  | .signal none => inferInstanceAs (Decidable (blockedIn (s.ctl none) = none))

theorem outside_of_not {t : Proc n} {p q : Pc} {m : Mem n} {c : Cmd Pc (Mem n)} (h : NotInSemWait s (.signal t))
    (hbl : s.ctl t = .blocked p q) (hc : c ∈ program.cmds t p m) (hq : c.interrupted = some q) : inside q = false := by
  cases cmds_does hc with
  | semWait =>
      rw [NotInSemWait, hbl] at h
      exact absurd rfl h
  | wait =>
      cases hq
      rfl
  | fork | forkFails | forked | childless | waited | born | loop | talk | test | print | semPost | clean | exit => cases hq

/-- What the header promises, for one state. -/
structure Limited (init : Nat) (s : State (Proc n) Pc (Mem n)) : Prop where
  talkers : occupancy talking s ≤ init
  value (v) (h : s.sem = some v) : v ≤ init

theorem initial_outside (t : Proc n) : inside (t.elim (.fork 0) (fun _ => .unborn)) = false := by
  cases t <;> rfl

theorem talking_le_inside (s : State (Proc n) Pc (Mem n)) : occupancy talking s ≤ occupancy inside s := by
  apply Finset.sum_le_sum
  intro t _
  cases h : s.pc t <;> simp [inside, talking]

theorem limited_of_conserved (h : Conserved init s.sem (occupancy inside s)) : Limited init s := by
  have hle := talking_le_inside s
  refine ⟨?_, fun v hv => ?_⟩
  · cases hsem : s.sem <;> rw [hsem] at h <;> simp only [Conserved] at h <;> omega
  · rw [hv] at h
    simp only [Conserved] at h
    omega

/-- As many children talk as the semaphore admits, as long as no signal reaches
a child that waits for its turn. -/
theorem limited_unless_interrupted (n init : Nat) (es : List (Event (Proc n))) (s : State (Proc n) Pc (Mem n))
    (h : Run (Guarded (Exec (next program)) NotInSemWait) (initial n init) es s) : Limited init s := by
  have hsafe := guarded_harmless program_disciplined (fun _ _ _ _ hok hbl _ _ hc => outside_of_not hok hbl hc) h
  exact limited_of_conserved (run_conserved program_disciplined initial_outside hsafe)

/-- Two children, of which the first one talks and gets the signal then. -/
def politely : List (Event (Proc 2)) :=
  [.exec none 0, .exec none 0, .exec (some 0) 0, .exec (some 0) 0, .exec (some 0) 0, .signal (some 0)]

theorem limited_unless_interrupted_politely : ∃ s, Run (Guarded (Exec (next program)) NotInSemWait) (initial 2 1) politely s ∧
    s.sem = some 0 ∧ Limited 1 s := by
  obtain ⟨s, hs, hsem⟩ : ∃ s, replay (guardedNext NotInSemWait (next program)) (initial 2 1) politely = some s ∧
      s.sem = some 0 := ⟨_, rfl, rfl⟩
  exact ⟨s, replay_guarded hs, hsem, limited_unless_interrupted 2 1 politely s (replay_guarded hs)⟩

/-- The second child waits for its turn when it gets the signal. -/
def impatient : List (Event (Proc 2)) :=
  [.exec none 0, .exec none 0, .exec (some 0) 0, .exec (some 0) 0, .exec (some 0) 0,
    .exec (some 1) 0, .exec (some 1) 0, .exec (some 1) 0, .signal (some 1)]

theorem too_many_talkers : ∃ s, Run (Exec (next program)) (initial 2 1) impatient s ∧ occupancy talking s = 2 ∧ ¬ Limited 1 s := by
  obtain ⟨s, hs, htalk⟩ : ∃ s, replay (next program) (initial 2 1) impatient = some s ∧ occupancy talking s = 2 :=
    ⟨_, rfl, rfl⟩
  refine ⟨s, replay_run hs, htalk, fun hlimited => ?_⟩
  have := hlimited.talkers
  omega

/-- How far the parent has come with its children. -/
def Place (p : Pc) (m : Mem n) : Prop :=
  match p with
  | .fork i => (∀ x, x ∈ m.born ↔ x.val < i) ∧ m.reaped = ∅
  | .wait i => (∀ x, x ∈ m.born) ∧ m.reaped.card = i
  | .clean | .exit => m.reaped = Finset.univ
  | _ => True

structure Waited (s : State (Proc n) Pc (Mem n)) : Prop where
  place : Place (s.pc none) s.mem
  reaped : s.mem.reaped ⊆ s.mem.exited
  unlinked (h : s.mem.unlinked = true) : s.mem.reaped = Finset.univ

theorem Place.congr {p : Pc} {m m' : Mem n} (h : Place p m) (hborn : m'.born = m.born) (hreaped : m'.reaped = m.reaped) :
    Place p m' := by
  cases p <;> simp only [Place, hborn, hreaped] at h ⊢ <;> exact h

theorem child_goes {x : Fin n} {p p' : Pc} {m m' : Mem n} {c : Cmd Pc (Mem n)} (hc : c ∈ program.cmds (some x) p m)
    (hm : c.Goes m m' p') : m'.born = m.born ∧ m'.reaped = m.reaped ∧ m'.unlinked = m.unlinked ∧ m.exited ⊆ m'.exited := by
  cases cmds_does hc with
  | exit =>
      obtain ⟨rfl, _⟩ := hm
      exact ⟨rfl, rfl, rfl, Finset.subset_insert _ _⟩
  | born | loop | semWait | talk | test | print | semPost | clean =>
      obtain ⟨rfl, _⟩ := hm
      exact ⟨rfl, rfl, rfl, subset_rfl⟩

theorem parent_goes {p p' : Pc} {m m' : Mem n} {c : Cmd Pc (Mem n)} (hc : c ∈ program.cmds none p m)
    (hm : c.Goes m m' p') (hplace : Place p m) (hreaped : m.reaped ⊆ m.exited)
    (hunlinked : m.unlinked = true → m.reaped = Finset.univ) :
    Place p' m' ∧ m'.reaped ⊆ m'.exited ∧ (m'.unlinked = true → m'.reaped = Finset.univ) := by
  cases cmds_does hc with
  | fork m i h =>
      obtain ⟨rfl, rfl⟩ := hm
      obtain ⟨hborn, hnone⟩ := hplace
      refine ⟨⟨fun x => ?_, hnone⟩, hreaped, hunlinked⟩
      simp only [Mem.fork, Finset.mem_insert, hborn, Fin.ext_iff]
      omega
  | forkFails m i h =>
      obtain ⟨rfl, rfl⟩ := hm
      exact ⟨trivial, hreaped, hunlinked⟩
  | forked m i h =>
      obtain ⟨rfl, rfl⟩ := hm
      obtain ⟨hborn, hnone⟩ := hplace
      refine ⟨⟨fun x => (hborn x).mpr (x.isLt.trans_le h), ?_⟩, hreaped, hunlinked⟩
      rw [hnone, Finset.card_empty]
  | childless m i h hm' =>
      -- fewer calls than children came before
      obtain ⟨hborn, hcard⟩ := hplace
      rw [hm', Finset.eq_univ_of_forall hborn, Finset.card_univ, Fintype.card_fin] at hcard
      omega
  | wait m i h x =>
      obtain ⟨hborn, hcard⟩ := hplace
      obtain ⟨hready, rfl⟩ := hm
      obtain ⟨⟨hexited, hnew⟩, heq⟩ := Option.ite_none_right_eq_some.mp hready
      cases heq
      refine ⟨⟨hborn, ?_⟩, Finset.insert_subset hexited hreaped, fun hu => ?_⟩
      · rw [Finset.card_insert_of_notMem hnew, hcard]
      · exact absurd (hunlinked hu ▸ Finset.mem_univ x) hnew
  | waited m i h =>
      obtain ⟨rfl, rfl⟩ := hm
      obtain ⟨hborn, hcard⟩ := hplace
      refine ⟨Finset.eq_univ_of_card _ ?_, hreaped, hunlinked⟩
      have hle := Finset.card_le_univ m'.reaped
      rw [Fintype.card_fin] at hle ⊢
      omega
  | clean m t =>
      obtain ⟨rfl, rfl⟩ := hm
      exact ⟨hplace, hreaped, fun _ => hplace⟩
  | exit m t =>
      obtain ⟨rfl, rfl⟩ := hm
      exact ⟨trivial, hreaped, hunlinked⟩

theorem next_waited {s s' : State (Proc n) Pc (Mem n)} {e : Event (Proc n)} (hs : Waited s) (hok : NotInWait s e)
    (h : next program s e = some s') : Waited s' := by
  obtain ⟨hplace, hreaped, hunlinked⟩ := hs
  rcases next_view h with ⟨hpc, hm⟩ | ⟨t, k, rfl, c, hc, p, hgoes, hpc⟩ | ⟨t, rfl, hm, hpc⟩
  · exact ⟨by rw [hpc, hm]; exact hplace, hm ▸ hreaped, hm ▸ hunlinked⟩
  · cases t with
    | none =>
        obtain ⟨hplace', hreaped', hunlinked'⟩ := parent_goes hc hgoes hplace hreaped hunlinked
        refine ⟨?_, hreaped', hunlinked'⟩
        rw [hpc, Function.update_self]
        exact hplace'
    | some x =>
        obtain ⟨hborn, hsame, hname, hexited⟩ := child_goes hc hgoes
        refine ⟨?_, hsame ▸ hreaped.trans hexited, by rw [hname, hsame]; exact hunlinked⟩
        rw [hpc, Function.update_of_ne (by simp)]
        exact hplace.congr hborn hsame
  · have hplace' : Place (s'.pc none) s'.mem := by
      rcases hpc with hpc | ⟨p, q, hbl, hpc⟩
      · rw [hpc, hm]
        exact hplace.congr rfl rfl
      · cases t with
        | none =>
            rw [NotInWait, hbl] at hok
            cases hok
        | some x =>
            rw [hpc, Function.update_of_ne (by simp), hm]
            exact hplace.congr rfl rfl
    exact ⟨hplace', by rw [hm]; exact hreaped, by rw [hm]; exact hunlinked⟩

theorem run_waited {value : Nat} (h : Run (Guarded (Exec (next program)) NotInWait) (initial n value) es s) : Waited s := by
  apply h.invariant (I := fun _ s => Waited s)
  · exact ⟨⟨fun x => by simp [initial, start], rfl⟩, subset_rfl, nofun⟩
  · intro ls l s s' _ hs hl
    exact next_waited hs hl.1 hl.2

/-- The parent cleans up last as long as no signal interrupts its waiting. -/
theorem cleanup_last_unless_interrupted (n value : Nat) (es : List (Event (Proc n))) (s : State (Proc n) Pc (Mem n))
    (h : Run (Guarded (Exec (next program)) NotInWait) (initial n value) es s)
    (hclean : s.pc none = .clean ∨ s.mem.unlinked = true) (x : Fin n) : x ∈ s.mem.exited := by
  have hs := run_waited h
  have hall : s.mem.reaped = Finset.univ := by
    rcases hclean with hp | hu
    · have hplace := hs.place
      rw [hp] at hplace
      exact hplace
    · exact hs.unlinked hu
  exact hs.reaped (hall ▸ Finset.mem_univ x)

/-- One child that gets the signal and is waited for. -/
def childEnds : List (Event (Proc 1)) :=
  [.exec none 0, .exec none 0, .exec none 0, .exec (some 0) 0, .signal (some 0), .exec (some 0) 0, .exec (some 0) 0,
    .exec (some 0) 0, .exec none 0, .exec none 0]

theorem cleanup_last_unless_interrupted_childEnds : ∃ s,
    Run (Guarded (Exec (next program)) NotInWait) (initial 1 1) childEnds s ∧ s.pc none = .clean ∧ 0 ∈ s.mem.exited := by
  obtain ⟨s, hs, hclean⟩ : ∃ s, replay (guardedNext NotInWait (next program)) (initial 1 1) childEnds = some s ∧
      s.pc none = .clean := ⟨_, rfl, rfl⟩
  exact ⟨s, replay_guarded hs, hclean,
    cleanup_last_unless_interrupted 1 1 childEnds s (replay_guarded hs) (.inl hclean) 0⟩

/-- One child that works as long as it likes while the parent waits for it. -/
def ctrlC : List (Event (Proc 1)) :=
  [.exec none 0, .exec none 0, .exec (some 0) 0, .exec none 0, .signal none, .exec none 0]

theorem cleanup_too_early : ∃ s, Run (Exec (next program)) (initial 1 1) ctrlC s ∧ s.pc none = .clean ∧
    0 ∉ s.mem.exited ∧ s.pc (some 0) = .loop := by
  obtain ⟨s, hs, hclean, hexited, hpc⟩ : ∃ s, replay (next program) (initial 1 1) ctrlC = some s ∧ s.pc none = .clean ∧
      s.mem.exited = ∅ ∧ s.pc (some 0) = .loop := ⟨_, rfl, rfl, rfl, rfl⟩
  exact ⟨s, replay_run hs, hclean, by simp [hexited], hpc⟩

end UnixProg.Semaphores.TalkingHeads

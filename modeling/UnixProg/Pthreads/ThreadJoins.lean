import UnixProg.Lib.ThreadSum
import UnixProg.Pthreads.ThreadArgs

namespace UnixProg.Pthreads.ThreadJoins

open Lib Transition ThreadArgs

variable {u : Use} {s s' : State} {e : Event} {es : List Event} {t j k : Nat}

/-- Whether main can join the thread of a round. -/
def joinable (u : Use) (j : Nat) : Bool := u = .array || j = 0

/-- What main prints in the first `j` rounds of its last loop. -/
def said (u : Use) (j : Nat) : List Line :=
  (List.range j).flatMap (fun k => [.joining k, if joinable u k then .joined else .error])

/-- What main has printed. -/
def mainLines (u : Use) (s : State) : List Line :=
  match s.main with
  | .init | .test | .assign | .create | .inc | .sleep => []
  | .printJoining j => said u j
  | .join j | .printJoined j _ => said u j ++ [.joining j]
  | .exited => if u = .cast then [] else said u NUM_THREADS

/-- The calls of `pthread_join()` that have returned. -/
def joins (s : State) : Nat :=
  match s.main with
  | .init | .test | .assign | .create | .inc | .sleep => 0
  | .printJoining j | .join j => j
  | .printJoined j _ => j + 1
  | .exited => NUM_THREADS

/-- The threads that are joined after that. -/
def hasJoined (u : Use) (n t : Nat) : Prop :=
  match u with
  | .array => t < n
  | .counter => t + 1 = NUM_THREADS ∧ 0 < n
  | .cast => False

structure Joined (u : Use) (s : State) : Prop where
  said : s.lines.filter Line.ofMain = mainLines u s
  round : ∀ j, s.main = .printJoining j ∨ s.main = .join j ∨ (∃ ok, s.main = .printJoined j ok) →
    j < NUM_THREADS ∧ u ≠ .cast
  joined : ∀ t, s.joined t = true ↔ hasJoined u (joins s) t
  ended : ∀ t, s.joined t = true → s.threads t = .done
  answer : ∀ j ok, s.main = .printJoined j ok → ok = joinable u j

theorem said_succ (u : Use) (j : Nat) :
    said u (j + 1) = said u j ++ [.joining j, if joinable u j then .joined else .error] := by
  rw [said, List.range_succ, List.flatMap_append]
  simp [said]

theorem initial_joined (u : Use) : Joined u initial where
  said := rfl
  round j h := by simp [initial] at h
  joined t := by cases u <;> simp [initial, joins, hasJoined]
  ended t h := by cases h
  answer j ok h := by cases h

theorem thread_joined (hs : Joined u s) (h : thread u t s = some s') : Joined u s' := by
  have hnot (hp : s.threads t ≠ .done) {v : Nat} (hv : s.joined v = true) : v ≠ t := by
    rintro rfl
    exact hp (hs.ended v hv)
  obtain ⟨k, hp, rfl⟩ | ⟨k, x, hp, rfl⟩ | ⟨k, hp, rfl⟩ := thread_cases h
  · refine ⟨hs.said, hs.round, hs.joined, fun v hv => ?_, hs.answer⟩
    exact (Function.update_of_ne (hnot (by simp [hp]) hv) _ _).trans (hs.ended v hv)
  · refine ⟨?_, hs.round, hs.joined, fun v hv => ?_, hs.answer⟩
    · rw [List.filter_append, hs.said]
      exact List.append_nil _
    · exact (Function.update_of_ne (hnot (by simp [hp]) hv) _ _).trans (hs.ended v hv)
  · refine ⟨hs.said, hs.round, hs.joined, fun v hv => ?_, hs.answer⟩
    exact (Function.update_of_ne (hnot (by simp [hp]) hv) _ _).trans (hs.ended v hv)

theorem join_joined (hc : Created u s) (hs : Joined u s) (hp : s.main = .join j) (h : s.join u j = some s') :
    Joined u s' := by
  obtain ⟨hj, hu⟩ := hs.round j (.inr (.inl hp))
  have hjoins : joins s = j := by rw [joins, hp]
  have hsaid : mainLines u s = said u j ++ [.joining j] := by rw [mainLines, hp]
  have hlast : s.t + 1 = NUM_THREADS := by
    have hcreated : s.created = NUM_THREADS := created_after (by rw [hp]; rfl)
    rw [← hcreated]
    exact hc.last (by rw [hcreated]; decide)
  obtain ⟨hjoined, rfl⟩ | ⟨hjoined, hdone, rfl⟩ := join_cases h
  · have hhas := (hs.joined _).mp hjoined
    rw [hjoins] at hhas
    refine ⟨hs.said.trans hsaid, ?_, fun t => ?_, hs.ended, ?_⟩
    · rintro j' (h | h | ⟨ok, h⟩) <;> cases h
      exact ⟨hj, hu⟩
    · rw [hs.joined t, hjoins]
      cases u with
      | array => exact absurd hhas (Nat.lt_irrefl j)
      | counter => exact and_congr_right (fun _ => iff_of_true hhas.2 (Nat.succ_pos j))
      | cast => exact absurd rfl hu
    · rintro j' ok ⟨⟩
      cases u with
      | array => exact absurd hhas (Nat.lt_irrefl j)
      | counter => exact (by simpa [joinable] using Nat.ne_of_gt hhas.2)
      | cast => exact absurd rfl hu
  · have hhas : ¬ hasJoined u j (u.waitsFor s j) := by
      have hjoin := hs.joined (u.waitsFor s j)
      rw [hjoins, hjoined] at hjoin
      exact fun hh => Bool.false_ne_true (hjoin.mpr hh)
    refine ⟨hs.said.trans hsaid, ?_, fun t => ?_, fun t ht => ?_, ?_⟩
    · rintro j' (h | h | ⟨ok, h⟩) <;> cases h
      exact ⟨hj, hu⟩
    · have hold := hs.joined t
      rw [hjoins] at hold
      by_cases ht : t = u.waitsFor s j
      · subst ht
        refine iff_of_true (Function.update_self _ _ _) ?_
        cases u with
        | array => exact Nat.lt_succ_self j
        | counter => exact ⟨hlast, Nat.succ_pos j⟩
        | cast => exact absurd rfl hu
      · simp only [Function.update_of_ne ht]
        rw [hold]
        cases u with
        | array =>
            change t < j ↔ t < j + 1
            have hne : t ≠ j := ht
            omega
        | counter =>
            have hne : t + 1 ≠ NUM_THREADS := fun h => ht (Nat.succ.inj (h.trans hlast.symm))
            exact iff_of_false (fun h => hne h.1) (fun h => hne h.1)
        | cast => exact absurd rfl hu
    · by_cases hne : t = u.waitsFor s j
      · rw [hne]
        exact hdone
      · simp only [Function.update_of_ne hne] at ht
        exact hs.ended t ht
    · rintro j' ok ⟨⟩
      cases u with
      | array => rfl
      | counter =>
          have hzero : j = 0 := Nat.eq_zero_of_not_pos (fun hpos => hhas ⟨hlast, hpos⟩)
          subst hzero
          rfl
      | cast => exact absurd rfl hu

/-- The steps of main before its last loop. -/
theorem Joined.before (hs : Joined u s) (hsaid : mainLines u s = []) (hjoins : joins s = 0) (hlines : s'.lines = s.lines)
    (hsaid' : mainLines u s' = []) (hjoins' : joins s' = 0) (hjoined : s'.joined = s.joined)
    (hpc : ∀ j, s'.main ≠ .printJoining j ∧ s'.main ≠ .join j ∧ ∀ ok, s'.main ≠ .printJoined j ok)
    (hdone : ∀ t, s.threads t = .done → s'.threads t = .done) : Joined u s' := by
  refine ⟨?_, fun j h => ?_, fun t => ?_, fun t ht => ?_, fun j ok h => absurd h ((hpc j).2.2 ok)⟩
  · rw [hlines, hs.said, hsaid, hsaid']
  · obtain h | h | ⟨ok, h⟩ := h
    · exact absurd h (hpc j).1
    · exact absurd h (hpc j).2.1
    · exact absurd h ((hpc j).2.2 ok)
  · rw [hjoined, hs.joined t, hjoins, hjoins']
  · exact hdone t (hs.ended t (hjoined ▸ ht))

theorem main_joined (hc : Created u s) (hs : Joined u s) (h : main u s = some s') : Joined u s' := by
  cases hp : s.main with
  | init | assign | inc =>
      rw [main, hp] at h
      cases h
      exact hs.before (by rw [mainLines, hp]) (by rw [joins, hp]) rfl rfl rfl rfl (by simp) (fun _ => id)
  | test =>
      rw [main, hp] at h
      simp only at h
      split at h <;> cases h
      · by_cases hu : u = .array
        · rw [if_pos hu]
          exact hs.before (by rw [mainLines, hp]) (by rw [joins, hp]) rfl rfl rfl rfl (by simp) (fun _ => id)
        · rw [if_neg hu]
          exact hs.before (by rw [mainLines, hp]) (by rw [joins, hp]) rfl rfl rfl rfl (by simp) (fun _ => id)
      · exact hs.before (by rw [mainLines, hp]) (by rw [joins, hp]) rfl rfl rfl rfl (by simp) (fun _ => id)
  | create =>
      have habsent : s.threads s.i = .absent := (hc.absent s.i).mpr (by rw [State.created, hp])
      rw [main, hp] at h
      cases h
      refine hs.before (by rw [mainLines, hp]) (by rw [joins, hp]) rfl rfl rfl rfl (by simp) (fun t ht => ?_)
      have hne : t ≠ s.i := by
        rintro rfl
        rw [habsent] at ht
        cases ht
      exact (Function.update_of_ne hne _ _).trans ht
  | sleep =>
      have hjoins : joins s = 0 := by rw [joins, hp]
      have hsaid : mainLines u s = [] := by rw [mainLines, hp]
      rw [main, hp] at h
      cases h
      by_cases hu : u = .cast
      · rw [if_pos hu]
        subst hu
        refine ⟨hs.said.trans hsaid, by simp, fun t => (hs.joined t).trans Iff.rfl, hs.ended, by simp⟩
      · rw [if_neg hu]
        refine ⟨hs.said.trans hsaid, ?_, fun t => ?_, hs.ended, by simp⟩
        · rintro j (h | h | ⟨ok, h⟩) <;> cases h
          exact ⟨by decide, hu⟩
        · rw [hs.joined t, hjoins]
          rfl
  | printJoining j =>
      have hround := hs.round j (.inl hp)
      have hjoins : joins s = j := by rw [joins, hp]
      have hsaid : mainLines u s = said u j := by rw [mainLines, hp]
      rw [main, hp] at h
      cases h
      refine ⟨?_, ?_, fun t => ?_, hs.ended, by simp⟩
      · rw [List.filter_append, hs.said, hsaid]
        rfl
      · rintro j' (h | h | ⟨ok, h⟩) <;> cases h
        exact hround
      · rw [hs.joined t, hjoins]
        rfl
  | join j =>
      rw [main, hp] at h
      exact join_joined hc hs hp h
  | printJoined j ok =>
      obtain ⟨hj, hu⟩ := hs.round j (.inr (.inr ⟨ok, hp⟩))
      have hjoins : joins s = j + 1 := by rw [joins, hp]
      have hanswer := hs.answer j ok hp
      have hsaid : mainLines u s = said u j ++ [.joining j] := by rw [mainLines, hp]
      have hmain : (s.lines ++ [if ok then Line.joined else .error]).filter Line.ofMain = said u (j + 1) := by
        rw [List.filter_append, hs.said, hsaid, said_succ, hanswer, List.append_assoc]
        cases joinable u j <;> rfl
      rw [main, hp] at h
      cases h
      by_cases hnext : j + 1 < NUM_THREADS
      · rw [if_pos hnext]
        refine ⟨hmain, ?_, fun t => ?_, hs.ended, by simp⟩
        · rintro j' (h | h | ⟨ok', h⟩) <;> cases h
          exact ⟨hnext, hu⟩
        · rw [hs.joined t, hjoins]
          rfl
      · have hall : j + 1 = NUM_THREADS := Nat.le_antisymm hj (Nat.le_of_not_lt hnext)
        rw [if_neg hnext]
        refine ⟨?_, by simp, fun t => ?_, hs.ended, by simp⟩
        · rw [hmain, hall, mainLines, if_neg hu]
        · rw [hs.joined t, hjoins, hall]
          rfl
  | exited =>
      rw [main, hp] at h
      cases h

theorem next_joined (hc : Created u s) (hs : Joined u s) (h : next u s e = some s') : Joined u s' := by
  cases e with
  | main => exact main_joined hc hs h
  | thread t => exact thread_joined hs (Option.ite_none_left_eq_some.mp h).2

theorem run_joined (h : Run (Exec (next u)) initial es s) : Joined u s :=
  h.invariant (I := fun _ s => Joined u s) (initial_joined u) (fun _ _ _ _ hr hs hl => next_joined (run_created hr) hs hl)

theorem shown_eq (hs : Told u s) (hu : u ≠ .counter) (t : Nat) :
    s.lines.filterMap (Line.shownBy t) = (List.range (s.threads t).printed).map (fun k => (t, k)) := by
  have hfst : ∀ p ∈ s.lines.filterMap (Line.shownBy t), p.1 = t :=
    fun p hp => hs.own hu t p.1 p.2 (.inl (shownBy_mem hp))
  rw [← hs.shown t, List.map_map]
  exact (List.map_id _).symm.trans (List.map_congr_left (fun p hp => Prod.ext (hfst p hp) rfl))

theorem printed_le (hc : Created u s) (t : Nat) : (s.threads t).printed ≤ NUM_LOOPS := by
  cases hp : s.threads t with
  | absent => exact Nat.zero_le _
  | load k | print k => exact Nat.le_of_lt (hc.count t k (by rw [hp]; rfl))
  | sleep k => exact hc.count t k (by rw [hp]; rfl)
  | done => exact Nat.le_refl _

/-- With an element of an array or the number itself as its argument each
thread counts up under its own number. Main, which joins the threads of the
array, leaves when all of them have printed everything. -/
theorem own_numbers (u : Use) (hu : u ≠ .counter) (es : List Event) (s : State) (h : Run (Exec (next u)) initial es s) :
    (∀ t, ∃ n, n ≤ NUM_LOOPS ∧ s.lines.filterMap (Line.shownBy t) = (List.range n).map (fun k => (t, k))) ∧
    (u = .array → s.main = .exited →
      (∀ t, t < NUM_THREADS → s.lines.filterMap (Line.shownBy t) = (List.range NUM_LOOPS).map (fun k => (t, k))) ∧
      s.lines.filter Line.ofMain = (List.range NUM_THREADS).flatMap (fun j => [.joining j, .joined])) := by
  have hc := run_created h
  have ht := run_told h
  have hj := run_joined h
  refine ⟨fun t => ⟨_, printed_le hc t, shown_eq ht hu t⟩, ?_⟩
  rintro rfl hp
  constructor
  · intro t hlt
    have hdone := hj.ended t ((hj.joined t).mpr (by rw [joins, hp]; exact hlt))
    rw [shown_eq ht hu t, hdone]
    rfl
  · rw [hj.said, mainLines, hp]
    rfl

/-- The threads of the array run one after the other, and main joins them. -/
def oneByOne : List Event :=
  [.main] ++ (List.range NUM_THREADS).flatMap (fun t => [.main, .main, .main, .main] ++ List.replicate 9 (.thread t)) ++
    List.replicate 17 .main

theorem own_numbers_oneByOne : ∃ s, Run (Exec (next .array)) initial oneByOne s ∧ s.main = .exited ∧
    s.lines.filterMap (Line.shownBy 4) = [(4, 0), (4, 1), (4, 2)] := by
  have hmain : (replay (next .array) initial oneByOne).map State.main = some .exited := by decide
  obtain ⟨s, hs, hp⟩ := Option.map_eq_some_iff.mp hmain
  have hrun := replay_run hs
  exact ⟨s, hrun, hp, ((own_numbers .array (by decide) oneByOne s hrun).2 rfl hp).1 4 (by decide)⟩

/-- Once its loop is over main leaves the counter and the threads alone. -/
theorem main_after (hp : s.main.after = true) (h : main u s = some s') :
    s'.main.after = true ∧ s'.threads = s.threads ∧
      ∃ new, s'.lines = s.lines ++ new ∧ ∀ line ∈ new, line.ofMain = true := by
  have hsame : ∃ new, s.lines = s.lines ++ new ∧ ∀ line ∈ new, line.ofMain = true :=
    ⟨[], (List.append_nil _).symm, by simp⟩
  cases hm : s.main with
  | init | test | assign | create | inc =>
      rw [hm] at hp
      cases hp
  | sleep =>
      rw [main, hm] at h
      cases h
      exact ⟨by simp only; split <;> rfl, rfl, hsame⟩
  | printJoining j =>
      rw [main, hm] at h
      cases h
      exact ⟨rfl, rfl, _, rfl, by simp [Line.ofMain]⟩
  | join j =>
      rw [main, hm] at h
      obtain ⟨_, rfl⟩ | ⟨_, _, rfl⟩ := join_cases h <;> exact ⟨rfl, rfl, hsame⟩
  | printJoined j ok =>
      rw [main, hm] at h
      cases h
      exact ⟨by simp only; split <;> rfl, rfl, _, rfl, by cases ok <;> simp [Line.ofMain]⟩
  | exited =>
      rw [main, hm] at h
      cases h

/-- What a thread prints after that it has read before or sees at the end of the loop. -/
structure Late (s s' : State) : Prop where
  after : s'.main.after = true
  lines : ∃ new, s'.lines = s.lines ++ new ∧
    ∀ t x k, .thread t x k ∈ new → x = NUM_THREADS ∨ s.threads t = .print k x
  pending : ∀ t x k, s'.threads t = .print k x → x = NUM_THREADS ∨ s.threads t = .print k x

theorem late_self (hp : s.main.after = true) : Late s s where
  after := hp
  lines := ⟨[], (List.append_nil _).symm, by simp⟩
  pending _ _ _ h := .inr h

theorem late_next {r : State} (hc : Created .counter s) (hs : Late r s) (h : next .counter s e = some s') : Late r s' := by
  obtain ⟨new, hnew, hall⟩ := hs.lines
  cases e with
  | main =>
      obtain ⟨hafter, hthreads, new', hnew', hmain⟩ := main_after hs.after h
      refine ⟨hafter, ⟨new ++ new', by rw [hnew', hnew, List.append_assoc], fun t x k hmem => ?_⟩, ?_⟩
      · obtain hmem | hmem := List.mem_append.mp hmem
        · exact hall t x k hmem
        · cases hmain _ hmem
      · rw [hthreads]
        exact hs.pending
  | thread v =>
      have hother {t x k : Nat} {p : ThreadPc} (ht : Function.update s.threads v p t = .print k x) :
          (x = NUM_THREADS ∨ r.threads t = .print k x) ∨ p = .print k x := by
        by_cases htv : t = v
        · subst htv
          rw [Function.update_self] at ht
          exact .inr ht
        · rw [Function.update_of_ne htv] at ht
          exact .inl (hs.pending t x k ht)
      obtain ⟨k, hp, rfl⟩ | ⟨k, x, hp, rfl⟩ | ⟨k, hp, rfl⟩ := thread_cases (Option.ite_none_left_eq_some.mp h).2
      · refine ⟨hs.after, hs.lines, fun t x k' ht => (hother ht).elim id (fun hx => ?_)⟩
        cases hx
        exact .inl (hc.loopEnd hs.after)
      · refine ⟨hs.after, ⟨new ++ [.thread v x k], ?_, fun t y k' hmem => ?_⟩, fun t y k' ht => ?_⟩
        · simp only [hnew, List.append_assoc]
        · obtain hmem | hmem := List.mem_append.mp hmem
          · exact hall t y k' hmem
          · cases List.mem_singleton.mp hmem
            exact hs.pending v x k hp
        · exact (hother ht).elim id (fun hx => by cases hx)
      · refine ⟨hs.after, hs.lines, fun t x k' ht => (hother ht).elim id (fun hx => ?_)⟩
        split at hx <;> cases hx

/-- With the address of the counter a thread prints what the counter was when it
looked at it: never less than its own number or than it has printed before. Once
the loop is over all the numbers are the same, but where a thread had looked at
the counter and not printed yet. Main can join one thread only. -/
theorem numbers_of_counter (es : List Event) (s : State) (h : Run (Exec (next .counter)) initial es s) :
    (∀ t, ((s.lines.filterMap (Line.shownBy t)).map Prod.fst).Pairwise (· ≤ ·)) ∧
    (∀ t x k, .thread t x k ∈ s.lines → t ≤ x ∧ x ≤ NUM_THREADS) ∧
    (s.main.after = true → ∀ es' s', Run (Exec (next .counter)) s es' s' →
      ∃ new, s'.lines = s.lines ++ new ∧
        ∀ t x k, .thread t x k ∈ new → x = NUM_THREADS ∨ s.threads t = .print k x) ∧
    (s.main = .exited → s.lines.filter Line.ofMain =
      (List.range NUM_THREADS).flatMap (fun j => [.joining j, if j = 0 then .joined else .error])) := by
  have hc := run_created h
  have ht := run_told h
  refine ⟨ht.sorted rfl, fun t x k hmem => ?_, fun hafter es' s' hr => ?_, fun hp => ?_⟩
  · obtain ⟨hle, hx⟩ := ht.seen rfl t x k (.inl hmem)
    exact ⟨hle, hx.trans hc.bound⟩
  · have hall := hr.invariant (I := fun _ s' => Created .counter s' ∧ Late s s') ⟨hc, late_self hafter⟩
      (fun _ _ _ _ _ hs hl => ⟨next_created hs.1 hl, late_next hs.1 hs.2 hl⟩)
    exact hall.2.lines
  · rw [(run_joined h).said, mainLines, hp]
    rfl

/-- Two threads look at the counter before the others are there. One of them
prints after the loop, when the last thread has printed already. -/
def early : List Event :=
  [.main, .main, .main, .thread 0, .thread 0, .main, .main, .main, .main, .thread 1, .main, .main, .main, .main, .main, .main,
    .main, .main, .main, .main, .thread 4, .thread 4, .thread 1]

theorem numbers_of_counter_early : ∃ s, Run (Exec (next .counter)) initial early s ∧
    s.lines = [.thread 0 0 0, .thread 4 5 0, .thread 1 2 0] ∧
    ∀ t x k, Line.thread t x k ∈ s.lines → t ≤ x ∧ x ≤ NUM_THREADS := by
  obtain ⟨s, hs, hv⟩ : ∃ s, replay (next .counter) initial early = some s ∧
      s.lines = [.thread 0 0 0, .thread 4 5 0, .thread 1 2 0] := ⟨_, rfl, rfl⟩
  exact ⟨s, replay_run hs, hv, (numbers_of_counter early s (replay_run hs)).2.1⟩

def threadLeft : ThreadPc → Nat
  | .absent => 3 * NUM_LOOPS + 1
  | .load k => 3 * (NUM_LOOPS - k)
  | .print k _ => 3 * (NUM_LOOPS - k) - 1
  | .sleep k => 3 * (NUM_LOOPS - k) - 2
  | .done => 0

def mainLeft (s : State) : Nat :=
  match s.main with
  | .init => 7 * NUM_THREADS + 3
  | .test => 3 * NUM_THREADS + 4 * (NUM_THREADS - s.i) + 2
  | .assign => 3 * NUM_THREADS + 4 * (NUM_THREADS - s.i) + 1
  | .create => 3 * NUM_THREADS + 4 * (NUM_THREADS - s.i)
  | .inc => 3 * NUM_THREADS + 4 * (NUM_THREADS - s.i) - 1
  | .sleep => 3 * NUM_THREADS + 1
  | .printJoining j => 3 * (NUM_THREADS - j)
  | .join j => 3 * (NUM_THREADS - j) - 1
  | .printJoined j _ => 3 * (NUM_THREADS - j) - 2
  | .exited => 0

def left (s : State) : Nat := mainLeft s + ∑ t : Fin NUM_THREADS, threadLeft (s.threads t)

theorem threads_update {t : Nat} (ht : t < NUM_THREADS) (c : Nat → ThreadPc) (p : ThreadPc)
    (h : threadLeft p < threadLeft (c t)) :
    ∑ v : Fin NUM_THREADS, threadLeft (Function.update c t p v) < ∑ v : Fin NUM_THREADS, threadLeft (c v) := by
  obtain ⟨n, hold, hnew⟩ := ThreadSum.sum_update threadLeft (fun v : Fin NUM_THREADS => c v) ⟨t, ht⟩ p
  have hupdate : (fun v : Fin NUM_THREADS => Function.update c t p v) =
      Function.update (fun v : Fin NUM_THREADS => c v) ⟨t, ht⟩ p := by
    funext v
    by_cases hv : v = ⟨t, ht⟩
    · subst hv
      rw [Function.update_self, Function.update_self]
    · rw [Function.update_of_ne hv, Function.update_of_ne (fun h => hv (Fin.ext h))]
  calc ∑ v : Fin NUM_THREADS, threadLeft (Function.update c t p v)
      = ∑ v, threadLeft (Function.update (fun v : Fin NUM_THREADS => c v) ⟨t, ht⟩ p v) := by rw [← hupdate]
    _ < ∑ v : Fin NUM_THREADS, threadLeft (c v) := by
        rw [hold, hnew]
        exact Nat.add_lt_add_left h n

theorem lt_of_present (hc : Created u s) (ht : s.threads t ≠ .absent) : t < NUM_THREADS := by
  have hlt : t < s.created := by
    by_contra hle
    exact ht ((hc.absent t).mpr (Nat.le_of_not_lt hle))
  have hle : s.created ≤ NUM_THREADS := by
    rw [State.created]
    cases hm : s.main with
    | init => exact Nat.zero_le _
    | test | assign | create => exact hc.bound
    | inc => exact hc.room (.inr (.inr hm))
    | sleep | printJoining | join | printJoined | exited => exact Nat.le_refl _
  exact Nat.lt_of_lt_of_le hlt hle

theorem thread_left (hc : Created u s) (h : thread u t s = some s') : left s' < left s := by
  have hpresent : s.threads t ≠ .absent := by
    intro hp
    rw [thread, hp] at h
    cases h
  have ht := lt_of_present hc hpresent
  have hround {k : Nat} (hp : (s.threads t).round = some k) : k < NUM_LOOPS := hc.count t k hp
  obtain ⟨k, hp, rfl⟩ | ⟨k, x, hp, rfl⟩ | ⟨k, hp, rfl⟩ := thread_cases h
  · have hk : k < NUM_LOOPS := hround (by rw [hp]; rfl)
    refine Nat.add_lt_add_left (threads_update ht s.threads _ ?_) _
    rw [hp]
    simp only [threadLeft]
    omega
  · have hk : k < NUM_LOOPS := hround (by rw [hp]; rfl)
    refine Nat.add_lt_add_left (threads_update ht s.threads _ ?_) _
    rw [hp]
    simp only [threadLeft]
    omega
  · have hk : k < NUM_LOOPS := hround (by rw [hp]; rfl)
    refine Nat.add_lt_add_left (threads_update ht s.threads _ ?_) _
    rw [hp]
    split <;> simp only [threadLeft] <;> omega

theorem main_left (hc : Created u s) (hj : Joined u s) (h : main u s = some s') : left s' < left s := by
  cases hp : s.main with
  | init =>
      rw [main, hp] at h
      cases h
      refine Nat.add_lt_add_right ?_ _
      simp [mainLeft, hp, NUM_THREADS]
  | test =>
      rw [main, hp] at h
      simp only at h
      split at h <;> cases h
      · refine Nat.add_lt_add_right ?_ _
        by_cases hu : u = .array <;> simp [mainLeft, hp, hu]
      · refine Nat.add_lt_add_right ?_ _
        simp only [mainLeft, hp]
        omega
  | assign =>
      rw [main, hp] at h
      cases h
      refine Nat.add_lt_add_right ?_ _
      simp [mainLeft, hp]
  | create =>
      have hroom := hc.room (.inr (.inl hp))
      have habsent : s.threads s.i = .absent := (hc.absent s.i).mpr (by rw [State.created, hp])
      rw [main, hp] at h
      cases h
      refine Nat.add_lt_add_of_le_of_lt ?_ (threads_update hroom s.threads _ ?_)
      · simp [mainLeft, hp]
      · rw [habsent]
        simp [threadLeft]
  | inc =>
      have hroom := hc.room (.inr (.inr hp))
      rw [main, hp] at h
      cases h
      refine Nat.add_lt_add_right ?_ _
      simp only [mainLeft, hp]
      omega
  | sleep =>
      rw [main, hp] at h
      cases h
      refine Nat.add_lt_add_right ?_ _
      by_cases hu : u = .cast <;> simp [mainLeft, hp, hu]
  | printJoining j =>
      have hround := (hj.round j (.inl hp)).1
      rw [main, hp] at h
      cases h
      refine Nat.add_lt_add_right ?_ _
      simp only [mainLeft, hp]
      omega
  | join j =>
      have hround := (hj.round j (.inr (.inl hp))).1
      rw [main, hp] at h
      obtain ⟨_, rfl⟩ | ⟨_, _, rfl⟩ := join_cases h
      · refine Nat.add_lt_add_right ?_ _
        simp only [mainLeft, hp]
        omega
      · refine Nat.add_lt_add_right ?_ _
        simp only [mainLeft, hp]
        omega
  | printJoined j ok =>
      have hround := (hj.round j (.inr (.inr ⟨ok, hp⟩))).1
      rw [main, hp] at h
      cases h
      refine Nat.add_lt_add_right ?_ _
      by_cases hnext : j + 1 < NUM_THREADS
      · simp only [mainLeft, hp, hnext, if_true]
        omega
      · simp only [mainLeft, hp, hnext, if_false]
        omega
  | exited =>
      rw [main, hp] at h
      cases h

theorem goes_on (hc : Created u s) (hj : Joined u s) (hp : s.main ≠ .exited) : ∃ e s', next u s e = some s' := by
  have hthread {t : Nat} (ht : t < s.created) (hdone : s.threads t ≠ .done) : ∃ e s', next u s e = some s' := by
    have habsent : s.threads t ≠ .absent := fun h => Nat.not_le_of_lt ht ((hc.absent t).mp h)
    refine ⟨.thread t, ?_⟩
    rw [next, if_neg hp, thread]
    cases hpc : s.threads t with
    | absent => exact absurd hpc habsent
    | done => exact absurd hpc hdone
    | load | print | sleep => exact ⟨_, rfl⟩
  cases hm : s.main with
  | init | assign | create | inc | sleep | printJoining | printJoined => exact ⟨.main, _, by rw [next, main, hm]⟩
  | test =>
      by_cases hi : s.i < NUM_THREADS
      · exact ⟨.main, _, by rw [next, main, hm]; exact if_pos hi⟩
      · exact ⟨.main, _, by rw [next, main, hm]; exact if_neg hi⟩
  | join j =>
      have hround := (hj.round j (.inr (.inl hm))).1
      have hcreated : s.created = NUM_THREADS := created_after (by rw [hm]; rfl)
      have hlt : u.waitsFor s j < s.created := by
        have hlast := hc.last (by rw [hcreated]; decide)
        cases u with
        | array => exact hcreated ▸ hround
        | counter | cast => exact Nat.lt_of_succ_le (Nat.le_of_eq hlast)
      by_cases hjoined : s.joined (u.waitsFor s j) = true
      · exact ⟨.main, _, by rw [next, main, hm]; exact if_pos hjoined⟩
      · by_cases hdone : s.threads (u.waitsFor s j) = .done
        · exact ⟨.main, _, by rw [next, main, hm]; exact (if_neg hjoined).trans (if_pos hdone)⟩
        · exact hthread hlt hdone
  | exited => exact absurd hm hp

/-- All three programs come to their end, whatever the order of the threads,
also the one that tries to join one thread again and again. -/
theorem all_end (u : Use) (es : List Event) (s : State) (h : Run (Exec (next u)) initial es s) :
    Inevitable (Exec (next u)) (fun t => t.main = .exited) s := by
  refine inevitable_of_rank (I := fun t => Created u t ∧ Joined u t) left ?_ ⟨run_created h, run_joined h⟩
  rintro t ⟨hc, hj⟩ hp
  refine ⟨goes_on hc hj hp, fun e t' hl => ⟨⟨next_created hc hl, next_joined hc hj hl⟩, ?_⟩⟩
  cases e with
  | main => exact main_left hc hj hl
  | thread v => exact thread_left hc (Option.ite_none_left_eq_some.mp hl).2

theorem all_end_early : ∃ s, Run (Exec (next .counter)) initial early s ∧
    Inevitable (Exec (next .counter)) (fun t => t.main = .exited) s := by
  obtain ⟨s, hs⟩ : ∃ s, replay (next .counter) initial early = some s := ⟨_, rfl⟩
  exact ⟨s, replay_run hs, all_end .counter early s (replay_run hs)⟩

end UnixProg.Pthreads.ThreadJoins

import UnixProg.Semaphores.TalkingHeads

namespace UnixProg.Semaphores.TalkingTurns

open Lib Transition Semaphore SemaphoreRule TalkingHeads

variable {n : Nat}

/-- A child says its number some times, the last time in parentheses. -/
def turn (t : Fin n × Nat) : List (Token n) := List.replicate (t.2 - 1) (.plain t.1) ++ [.last t.1]

def Allowed (k : Nat) : Prop := 1 ≤ k ∧ k ≤ maxSecs - 1

/-- Uninterrupted turns and nothing else. -/
def Whole (out : List (Token n)) : Prop := ∃ ts : List (Fin n × Nat), (∀ t ∈ ts, Allowed t.2) ∧ out = ts.flatMap turn

/-- Uninterrupted turns, of which the last one may be unfinished. -/
def Turns (out : List (Token n)) : Prop :=
  ∃ before rest, Whole before ∧ out = before ++ rest ∧
    (rest = [] ∨ ∃ id k, Allowed (k + 1) ∧ rest = List.replicate k (.plain id))

/-- What the child has said since its turn began. -/
def said (id : Fin n) (i nsecs : Nat) : List (Token n) :=
  if i < nsecs then List.replicate i (.plain id) else turn (id, nsecs)

def Saying (id : Fin n) (i nsecs : Nat) (out : List (Token n)) : Prop :=
  Allowed nsecs ∧ i ≤ nsecs ∧ ∃ before, Whole before ∧ out = before ++ said id i nsecs

/-- What the child whose turn it is knows of the output. -/
def At (t : Proc n) (p : Pc) (m : Mem n) : Prop :=
  match t, p with
  | some id, .test i nsecs => Saying id i nsecs m.out
  | some id, .print i nsecs => i < nsecs ∧ Saying id i nsecs m.out
  | some _, .talk | some _, .semPost => Whole m.out
  | _, _ => False

variable {s : State (Proc n) Pc (Mem n)} {es : List (Event (Proc n))} {out : List (Token n)} {id : Fin n} {i nsecs k : Nat}

theorem whole_nil : Whole ([] : List (Token n)) := ⟨[], nofun, rfl⟩

theorem Whole.turn (h : Whole out) (hk : Allowed k) : Whole (out ++ turn (id, k)) := by
  obtain ⟨ts, hts, rfl⟩ := h
  refine ⟨ts ++ [(id, k)], fun t ht => ?_, by simp⟩
  rcases List.mem_append.mp ht with ht | ht
  · exact hts t ht
  · rw [List.mem_singleton.mp ht]
    exact hk

theorem Whole.turns (h : Whole out) : Turns out := ⟨out, [], h, (List.append_nil _).symm, .inl rfl⟩

theorem Whole.saying (h : Whole out) (hk : Allowed nsecs) : Saying id 0 nsecs out :=
  ⟨hk, Nat.zero_le _, out, h, by rw [said, if_pos (by have := hk.1; omega)]; simp⟩

theorem Saying.print (h : Saying id i nsecs out) (hi : i < nsecs) : Saying id (i + 1) nsecs (out ++ [token i nsecs id]) := by
  obtain ⟨hk, _, before, hbefore, rfl⟩ := h
  refine ⟨hk, hi, before, hbefore, ?_⟩
  rw [said, said, if_pos hi, token, List.append_assoc]
  by_cases hlast : i = nsecs - 1
  · rw [if_pos hlast, if_neg (by omega), hlast]
    rfl
  · rw [if_neg hlast, if_pos (by omega), List.replicate_succ']

theorem Saying.done (h : Saying id i nsecs out) (hi : ¬ i < nsecs) : Whole out := by
  obtain ⟨hk, _, before, hbefore, rfl⟩ := h
  rw [said, if_neg hi]
  exact hbefore.turn hk

theorem Saying.turns (h : Saying id i nsecs out) : Turns out := by
  by_cases hi : i < nsecs
  · obtain ⟨hk, _, before, hbefore, rfl⟩ := h
    refine ⟨before, said id i nsecs, hbefore, rfl, .inr ⟨id, i, ⟨by omega, ?_⟩, by rw [said, if_pos hi]⟩⟩
    have := hk.2
    omega
  · exact (h.done hi).turns

theorem At.turns {t : Proc n} {p : Pc} {m : Mem n} (h : At t p m) : Turns m.out := by
  cases t with
  | none => cases h
  | some id =>
      cases p with
      | test i nsecs => exact Saying.turns h
      | print i nsecs => exact h.2.turns
      | talk | semPost => exact Whole.turns h
      | fork | wait | unborn | loop | semWait | clean | exit | gone => cases h

theorem At.congr {t : Proc n} {p : Pc} {m m' : Mem n} (h : At t p m) (hout : m'.out = m.out) : At t p m' := by
  cases t with
  | none => cases h
  | some id => cases p <;> simp only [At, hout] at h ⊢ <;> exact h

theorem outer_frame {t : Proc n} {p p' : Pc} {m m' : Mem n} {c : Cmd Pc (Mem n)} (hp : inside p = false)
    (hc : c ∈ program.cmds t p m) (hm : Moves c m m' p') : m'.out = m.out := by
  cases cmds_does hc with
  | talk | test | print | semPost => cases hp
  | semWait => exact hm.elim
  | wait =>
      obtain ⟨_, heq⟩ := Option.ite_none_right_eq_some.mp hm.1
      cases heq
      rfl
  | clean m t =>
      obtain ⟨rfl, _⟩ := hm
      cases t <;> rfl
  | exit m t =>
      obtain ⟨rfl, _⟩ := hm
      cases t <;> rfl
  | fork | forkFails | forked | childless | waited | born | loop =>
      obtain ⟨rfl, _⟩ := hm
      rfl

theorem inner_step {t : Proc n} {p p' : Pc} {m m' : Mem n} {c : Cmd Pc (Mem n)} (hp : inside p = true)
    (hc : c ∈ program.cmds t p m) (hm : Moves c m m' p') (h : At t p m) : At t p' m' := by
  cases cmds_does hc with
  | fork | forkFails | forked | childless | wait | waited | born | loop | semWait | clean | exit => cases hp
  | semPost => exact hm.elim
  | talk m x r hr =>
      obtain ⟨rfl, rfl⟩ := hm
      exact Whole.saying h ⟨by omega, by omega⟩
  | test m x i nsecs =>
      obtain ⟨rfl, rfl⟩ := hm
      by_cases hi : i < nsecs
      · rw [if_pos hi]
        exact ⟨hi, h⟩
      · rw [if_neg hi]
        exact Saying.done h hi
  | print m x i nsecs =>
      obtain ⟨rfl, rfl⟩ := hm
      exact h.2.print h.1

theorem program_rule : Rule (program (n := n)) inside (fun m => Whole m.out) At where
  enter := by
    intro t p p' q r m hc h
    cases cmds_does hc
    exact h
  leave := by
    intro t p p' r m hc h
    cases cmds_does hc
    exact h
  inner := inner_step
  outer_calm := fun hp hc hm h => outer_frame hp hc hm ▸ h
  outer_at := fun hp hc hm _ h => h.congr (outer_frame hp hc hm)
  signal_calm := fun _ h => h
  signal_at := fun _ h => h.congr rfl

theorem program_keeps (t : Proc n) (p : Pc) (m : Mem n) (q : Pc) : .remove q ∉ program.cmds t p m := by
  intro hc
  cases cmds_does hc

/-- Without signals the semaphore counts who is not talking, and with one
talker at a time the output consists of turns. -/
theorem counted_and_in_turns (n init : Nat) (es : List (Event (Proc n))) (s : State (Proc n) Pc (Mem n))
    (h : Run (Guarded (Exec (next program)) NoSignal) (initial n init) es s) :
    (∃ v, s.sem = some v ∧ v + occupancy inside s = init) ∧ (init = 1 → Turns s.mem.out) := by
  have hsafe := noSignal_harmless program_disciplined h
  constructor
  · obtain ⟨v, hv⟩ := run_present program_keeps h.unguard
    have hone := run_conserved program_disciplined initial_outside hsafe
    rw [hv] at hone
    exact ⟨v, hv, hone⟩
  · rintro rfl
    have hs := run_holds program_disciplined program_rule initial_outside whole_nil hsafe
    exact hs.always (Q := fun m => Turns m.out) Whole.turns (fun _ _ => At.turns)

/-- A turn of one child with two tokens, and another child after it. -/
def secondTurn (x y : Fin n) : List (Event (Proc n)) :=
  [.exec none 0, .exec none 0, .exec (some x) 0, .exec (some x) 0, .exec (some x) 0, .exec (some x) 1] ++
  List.replicate 6 (.exec (some x) 0) ++
  [.exec (some y) 0, .exec (some y) 0, .exec (some y) 0, .exec (some y) 3, .exec (some y) 0, .exec (some y) 0]

theorem counted_and_in_turns_second : ∃ s, Run (Guarded (Exec (next program)) NoSignal) (initial 2 1) (secondTurn 0 1) s ∧
    s.mem.out = [.plain 0, .last 0, .plain 1] ∧
    (∃ v, s.sem = some v ∧ v + occupancy inside s = 1) ∧ (1 = 1 → Turns s.mem.out) := by
  obtain ⟨s, hs, hout⟩ : ∃ s, replay (guardedNext NoSignal (next program)) (initial 2 1) (secondTurn 0 1) = some s ∧
      s.mem.out = [.plain 0, .last 0, .plain 1] := ⟨_, rfl, rfl⟩
  exact ⟨s, replay_guarded hs, hout, counted_and_in_turns 2 1 (secondTurn 0 1) s (replay_guarded hs)⟩

end UnixProg.Semaphores.TalkingTurns

import Mathlib.Algebra.BigOperators.Intervals
import UnixProg.Select.SelectServer

namespace UnixProg.Select.SelectProgress

open Lib Transition SelectServer

open InputStream (Input ready_iff ready_put ready_close read_exists)

variable {κ : Type} [DecidableEq κ] {s s' : State κ} {e : Event κ} {es es' : List (Event κ)}
  {ps : List (List UInt8 × κ)} {last cur : List UInt8} {k : Nat}

/-- What `select()` has reported still holds when main comes to it. -/
def Ready (es : List (Event κ)) (s : State κ) : Prop :=
  match s.pc with
  | .select | .close | .sayClosed => True
  | .isset0 =>
      (s.set0 = true ∨ s.setS = true) ∧ (s.set0 = true → s.stdin.ready = true) ∧ (s.setS = true → s.backlog ≠ [])
  | .read0 => s.stdin.ready = true ∧ (s.setS = true → s.backlog ≠ [])
  | .write0 | .issetS => s.setS = true → s.backlog ≠ []
  | .accept => s.backlog ≠ []
  | .sayAccepted | .readSock => .fail ∉ es → s.newsock ≠ none
  | .writeSock => s.newsock ≠ none
  | .exited 0 => s.stdin.data = [] ∧ s.stdin.ended = true ∧ s.newsock = none
  | .exited (_ + 1) | .killed => .fail ∈ es

omit [DecidableEq κ] in
theorem main_ready (hs : Ready es s) (h : main s = some s') : Ready (es ++ [e]) s' := by
  rw [main] at h
  rw [Ready] at hs
  cases hp : s.pc with
  | select =>
      rw [hp] at h
      obtain ⟨hready, h⟩ := Option.ite_none_right_eq_some.mp h
      cases h
      exact ⟨by simpa using hready, id, by simp⟩
  | isset0 =>
      rw [hp] at h hs
      cases h
      by_cases hset0 : s.set0 = true
      · rw [if_pos hset0]
        exact ⟨hs.2.1 hset0, hs.2.2⟩
      · rw [if_neg hset0]
        exact hs.2.2
  | issetS =>
      rw [hp] at h hs
      cases h
      by_cases hS : s.setS = true
      · rw [if_pos hS]
        exact hs hS
      · rw [if_neg hS]
        trivial
  | accept =>
      rw [hp] at h
      cases hb : s.backlog <;> rw [hb] at h <;> cases h
      exact fun _ hnone => by cases hnone
  | sayAccepted =>
      rw [hp] at h hs
      cases h
      exact fun hf => hs (fun hmem => hf (List.mem_append_left _ hmem))
  | close | sayClosed =>
      rw [hp] at h
      cases h
      trivial
  | read0 | write0 | readSock | writeSock | exited | killed =>
      rw [hp] at h
      cases h

/-- What the user and the clients do to main. -/
theorem outside_cases (he : e.own = false) (h : next s e = some s') :
    ∃ stdin backlog conns, s' = { s with stdin := stdin, backlog := backlog, conns := conns } ∧
      (s.stdin.ready = true → stdin.ready = true) ∧ (s.stdin.ended = true → stdin = s.stdin) ∧
      (s.backlog ≠ [] → backlog ≠ []) ∧ stdin.data.length = s.stdin.data.length + e.entered.length ∧
      backlog.length = s.backlog.length + e.connected.length := by
  cases e with
  | exec | read | write | fail => cases he
  | enter bs =>
      obtain ⟨hopen, h⟩ := Option.ite_none_left_eq_some.mp h
      cases h
      exact ⟨_, _, _, rfl, fun hr => ready_put hr bs, fun hended => absurd hended hopen, id, List.length_append, rfl⟩
  | eof =>
      cases h
      exact ⟨_, _, _, rfl, fun _ => ready_close _, fun hended => by rw [Input.close, ← hended], id, rfl, rfl⟩
  | connect c =>
      obtain ⟨_, h⟩ := Option.ite_none_right_eq_some.mp h
      cases h
      exact ⟨_, _, _, rfl, id, fun _ => rfl, fun _ => by simp, rfl, List.length_append⟩
  | send c bs =>
      obtain ⟨i, _, _, rfl⟩ := client_cases h
      exact ⟨_, _, _, rfl, id, fun _ => rfl, id, rfl, rfl⟩
  | shut c =>
      obtain ⟨i, _, _, rfl⟩ := client_cases h
      exact ⟨_, _, _, rfl, id, fun _ => rfl, id, rfl, rfl⟩

theorem next_ready (hsh : Inv es s) (hs : Ready es s) (h : next s e = some s') : Ready (es ++ [e]) s' := by
  by_cases he : e.own = true
  · cases e with
    | exec p => exact main_ready hs (Option.ite_none_right_eq_some.mp h).2
    | read k =>
        obtain ⟨ps, last, cur, hsh⟩ := hsh
        rw [Ready] at hs
        obtain ⟨hp, hnil, hended, rfl⟩ | ⟨bs, j, hp, _, _, _, rfl⟩ | ⟨c, i, _, _, _, _, _, rfl⟩ |
          ⟨c, i, bs, j, _, hsock, _, _, _, _, rfl⟩ := read_cases h
        · exact ⟨hnil, hended, hsh.idle (by rw [hp]; rfl)⟩
        · rw [hp] at hs
          exact hs.2
        · trivial
        · exact fun hnone => by rw [State.store, State.update, hsock] at hnone; cases hnone
    | write r =>
        rw [Ready] at hs
        obtain ⟨hp, rfl⟩ | ⟨hp, rfl⟩ := write_cases h
        · rw [hp] at hs
          exact hs
        · rw [hp] at hs
          exact fun _ => hs
    | fail =>
        obtain ⟨_, _, rfl⟩ | ⟨_, rfl⟩ | ⟨_, rfl⟩ := fail_cases h
        · exact List.mem_append_right _ (List.mem_singleton_self _)
        · exact fun hf => absurd (List.mem_append_right _ (List.mem_singleton_self _)) hf
        · exact List.mem_append_right _ (List.mem_singleton_self _)
    | enter | eof | connect | send | shut => cases he
  · obtain ⟨stdin, backlog, conns, rfl, hready, hended, hbacklog, _⟩ := outside_cases (eq_false_of_ne_true he) h
    rw [Ready] at hs ⊢
    cases hp : s.pc with
    | select | close | sayClosed => trivial
    | isset0 =>
        rw [hp] at hs
        exact ⟨hs.1, fun h => hready (hs.2.1 h), fun h => hbacklog (hs.2.2 h)⟩
    | read0 =>
        rw [hp] at hs
        exact ⟨hready hs.1, fun h => hbacklog (hs.2 h)⟩
    | write0 | issetS =>
        rw [hp] at hs
        exact fun h => hbacklog (hs h)
    | accept =>
        rw [hp] at hs
        exact hbacklog hs
    | sayAccepted | readSock =>
        rw [hp] at hs
        exact fun hf => hs (fun hmem => hf (List.mem_append_left _ hmem))
    | writeSock =>
        rw [hp] at hs
        exact hs
    | exited status =>
        rw [hp] at hs
        cases status with
        | zero =>
            simp only
            rw [hended hs.2.1]
            exact hs
        | succ => exact List.mem_append_left _ hs
    | killed =>
        rw [hp] at hs
        exact List.mem_append_left _ hs

theorem run_ready (h : Run (Exec next) (initial κ) es s) : Ready es s :=
  h.invariant (I := Ready) (show Ready [] (initial κ) from trivial) (fun _ _ _ _ hr hs hl => next_ready (run_inv hr) hs hl)

/-- How many times `select()` may have returned beyond what came in. -/
def slack (s : State κ) : Nat :=
  match s.pc with
  | .select | .write0 | .writeSock | .close | .sayClosed => 0
  | .isset0 | .read0 | .accept | .exited _ | .killed => 1
  | .issetS => if s.setS then 1 else 0
  | .sayAccepted | .readSock => if s.newsock = none then 1 else 0

/-- Each return of `select()` leads to a byte of the user or to a connection. -/
def Paced (es : List (Event κ)) (s : State κ) : Prop :=
  es.count (.exec .select) + s.stdin.data.length + s.backlog.length ≤
    (entered es).length + (connected es).length + slack s

theorem Paced.own (hs : Paced es s) (he : e.own = true) (h : (if e = .exec .select then 1 else 0) +
    s'.stdin.data.length + s'.backlog.length + slack s ≤ s.stdin.data.length + s.backlog.length + slack s') :
    Paced (es ++ [e]) s' := by
  obtain ⟨hentered, _, hconn⟩ := own_word he
  have hcount : (es ++ [e]).count (.exec .select) = es.count (.exec .select) + if e = .exec .select then 1 else 0 := by
    simp [List.count_append, List.count_singleton]
  rw [Paced] at hs
  rw [Paced, entered_snoc, connected_snoc, hentered, hconn, List.append_nil, List.append_nil, hcount]
  omega

theorem main_paced (hr : Ready es s) (hs : Paced es s) (h : main s = some s') : Paced (es ++ [.exec s.pc]) s' := by
  apply hs.own rfl
  rw [Ready] at hr
  rw [main] at h
  cases hp : s.pc with
  | select =>
      rw [hp] at h
      obtain ⟨_, h⟩ := Option.ite_none_right_eq_some.mp h
      cases h
      simp only [slack, hp, if_true]
      omega
  | isset0 =>
      rw [hp] at h hr
      cases h
      by_cases hset0 : s.set0 = true
      · simp [slack, State.goto, hp, hset0]
      · simp [slack, State.goto, hp, hset0, hr.1.resolve_left hset0]
  | issetS =>
      rw [hp] at h
      cases h
      by_cases hS : s.setS = true
      · simp [slack, State.goto, hp, hS]
      · simp [slack, State.goto, hp, hS]
  | accept =>
      rw [hp] at h
      cases hb : s.backlog <;> rw [hb] at h <;> cases h
      simp [slack, hp, Nat.add_assoc]
  | sayAccepted =>
      rw [hp] at h
      cases h
      simp only [slack, State.say, hp, Event.exec.injEq, reduceCtorEq, if_false, Nat.zero_add]
      exact Nat.le_refl _
  | close | sayClosed =>
      rw [hp] at h
      cases h
      simp [slack, State.say, hp]
  | read0 | write0 | readSock | writeSock | exited | killed =>
      rw [hp] at h
      cases h

omit [DecidableEq κ] in
theorem slack_le (s : State κ) : slack s ≤ 1 := by
  rw [slack]
  cases s.pc with
  | select | write0 | writeSock | close | sayClosed => exact Nat.zero_le 1
  | isset0 | read0 | accept | exited | killed => exact Nat.le_refl 1
  | issetS | sayAccepted | readSock =>
      simp only
      split
      · exact Nat.le_refl 1
      · exact Nat.zero_le 1

theorem next_paced (hsh : Inv es s) (hr : Ready es s) (hs : Paced es s) (h : next s e = some s') :
    Paced (es ++ [e]) s' := by
  by_cases he : e.own = true
  · cases e with
    | exec p =>
        obtain ⟨hp, h⟩ := Option.ite_none_right_eq_some.mp h
        exact hp ▸ main_paced hr hs h
    | read k =>
        apply hs.own rfl
        obtain ⟨hp, _, _, rfl⟩ | ⟨bs, j, hp, hbs, hd, _, rfl⟩ | ⟨c, i, hp, hsock, _, _, _, rfl⟩ |
          ⟨c, i, bs, j, hp, hsock, _, _, _, _, rfl⟩ := read_cases h
        · simp [slack, State.goto, hp]
        · have hlen := List.length_pos_iff.mpr hbs
          simp only [slack, State.store, hp, hd, List.length_append, reduceCtorEq, if_false]
          omega
        · simp [slack, State.goto, hp, hsock]
        · simp [slack, State.store, State.update, hp, hsock]
    | write r =>
        apply hs.own rfl
        obtain ⟨hp, rfl⟩ | ⟨hp, rfl⟩ := write_cases h
        · simp [slack, State.put, hp]
        · simp [slack, State.put, hp]
    | fail =>
        apply hs.own rfl
        have hslack := slack_le s
        obtain ⟨_, _, rfl⟩ | ⟨hp, rfl⟩ | ⟨_, rfl⟩ := fail_cases h
        · simp only [State.goto, reduceCtorEq, if_false]
          change _ ≤ s.stdin.data.length + s.backlog.length + 1
          omega
        · obtain ⟨ps, last, cur, hsh⟩ := hsh
          simp [slack, State.goto, hp, hsh.idle (by rw [hp]; rfl)]
        · simp only [State.put, reduceCtorEq, if_false]
          change _ ≤ s.stdin.data.length + s.backlog.length + 1
          omega
    | enter | eof | connect | send | shut => cases he
  · obtain ⟨stdin, backlog, conns, rfl, _, _, _, hin, hbacklog⟩ := outside_cases (eq_false_of_ne_true he) h
    have hcount : (es ++ [e]).count (.exec .select) = es.count (.exec .select) := by
      cases e with
      | exec | read | write | fail => exact absurd rfl he
      | enter | eof | connect | send | shut => simp
    rw [Paced] at hs
    rw [Paced, hcount, entered_snoc, connected_snoc, List.length_append, List.length_append]
    change es.count (.exec .select) + stdin.data.length + backlog.length ≤ _ + slack s
    omega

theorem run_paced (h : Run (Exec next) (initial κ) es s) : Paced es s :=
  h.invariant (I := Paced) (show Paced [] (initial κ) from Nat.le_refl 0)
    (fun _ _ _ _ hr hs hl => next_paced (run_inv hr) (run_ready hr) hs hl)

/-- There is no busy waiting: `select()` returns at most once for each byte of
the user and for each connection, and once more for the end. -/
theorem no_busy_waiting (es : List (Event κ)) (s : State κ) (h : Run (Exec next) (initial κ) es s) :
    es.count (.exec .select) + s.stdin.data.length + s.backlog.length ≤
      (entered es).length + (connected es).length + 1 := by
  have hs := run_paced h
  have hslack := slack_le s
  rw [Paced] at hs
  omega

theorem no_busy_waiting_conversation : ∃ s, Run (Exec next) (initial Bool) conversation s ∧
    conversation.count (.exec .select) + s.stdin.data.length + s.backlog.length ≤ 5 := by
  obtain ⟨s, hs⟩ : ∃ s, replay next (initial Bool) conversation = some s := ⟨_, rfl⟩
  exact ⟨s, replay_run hs, no_busy_waiting conversation s (replay_run hs)⟩

/-- What a client has sent and the server has not read yet. -/
def unread (s : State κ) (c : κ) : Nat := (s.conns c).elim 0 (fun i => i.data.length)

/-- What has come in and is still to be dealt with. -/
def left (s : State κ) : Nat :=
  s.stdin.data.length + s.backlog.length + ((s.newsock.toList ++ s.backlog).map (unread s)).sum

/-- How far it is to the next thing that has come in. -/
def way (s : State κ) : Nat :=
  match s.pc with
  | .exited _ | .killed => 0
  | .read0 | .accept => 1
  | .issetS => if s.setS then 2 else 5
  | .isset0 => 3
  | .select => 4
  | .sayClosed => 5
  | .write0 | .close => 6
  | .readSock => 7
  | .writeSock | .sayAccepted => 8

def rank (s : State κ) : Nat := 9 * left s + way s

/-- Only the program goes on, none of its calls fails and no `write()` is short. -/
def Alone (s : State κ) (e : Event κ) : Prop := e.own = true ∧ e ≠ .fail ∧ ∀ r, e = .write r → r = .wrote s.n

omit [DecidableEq κ] in
theorem rank_of_left (hleft : left s' < left s) (hway : way s' ≤ way s + 8) : rank s' < rank s := by
  rw [rank, rank]
  omega

omit [DecidableEq κ] in
theorem rank_of_way (hleft : left s' ≤ left s) (hway : way s' < way s) : rank s' < rank s := by
  rw [rank, rank]
  omega

omit [DecidableEq κ] in
theorem main_rank (hsh : s.pc.idle = true → s.newsock = none) (hr : Ready es s) (h : main s = some s') :
    rank s' < rank s := by
  rw [Ready] at hr
  rw [main] at h
  cases hp : s.pc with
  | select =>
      rw [hp] at h
      obtain ⟨_, h⟩ := Option.ite_none_right_eq_some.mp h
      cases h
      exact rank_of_way (Nat.le_refl _) (by simp [way, hp])
  | isset0 =>
      rw [hp] at h hr
      cases h
      refine rank_of_way (Nat.le_refl _) ?_
      by_cases hset0 : s.set0 = true
      · simp [way, State.goto, hp, hset0]
      · simp [way, State.goto, hp, hset0, hr.1.resolve_left hset0]
  | issetS =>
      rw [hp] at h
      cases h
      refine rank_of_way (Nat.le_refl _) ?_
      by_cases hS : s.setS = true
      · simp [way, State.goto, hp, hS]
      · simp [way, State.goto, hp, hS]
  | accept =>
      rw [hp] at h
      have hidle := hsh (by rw [hp]; rfl)
      cases hb : s.backlog <;> rw [hb] at h <;> cases h
      apply rank_of_left
      · simp only [left, hidle, hb, Option.toList_none, Option.toList_some, List.nil_append, List.singleton_append,
          List.length_cons]
        exact Nat.add_lt_add_right (Nat.lt_succ_self _) _
      · simp [way, hp]
  | close =>
      rw [hp] at h
      cases h
      apply rank_of_way
      · change s.stdin.data.length + s.backlog.length + (s.backlog.map (unread s)).sum ≤ left s
        rw [left, List.map_append, List.sum_append]
        omega
      · simp [way, hp]
  | sayAccepted | sayClosed =>
      rw [hp] at h
      cases h
      exact rank_of_way (Nat.le_refl _) (by simp [way, State.say, hp])
  | read0 | write0 | readSock | writeSock | exited | killed =>
      rw [hp] at h
      cases h

omit [DecidableEq κ] in
theorem write_rank {r : Stream.Write} (h : SelectServer.write r s = some s') : rank s' < rank s := by
  obtain ⟨hp, rfl⟩ | ⟨hp, rfl⟩ := write_cases h
  · refine rank_of_way (Nat.le_refl _) ?_
    by_cases hS : s.setS = true <;> simp [way, State.put, hp, hS]
  · exact rank_of_way (Nat.le_refl _) (by simp [way, State.put, hp])

theorem read_rank (hs : Shown es s ps last cur) (h : read k s = some s') : rank s' < rank s := by
  obtain ⟨hp, _, _, rfl⟩ | ⟨bs, j, hp, hbs, hd, _, rfl⟩ | ⟨c, i, hp, _, _, _, _, rfl⟩ |
    ⟨c, i, bs, j, hp, hsock, hi, hbs, hd, _, rfl⟩ := read_cases h
  · exact rank_of_way (Nat.le_refl _) (by simp [way, State.goto, hp])
  · have hlen := List.length_pos_iff.mpr hbs
    apply rank_of_left
    · simp only [left, State.store, hd, List.length_append]
      change _ + ((s.newsock.toList ++ s.backlog).map (unread s)).sum < _
      omega
    · simp [way, State.store, hp]
  · exact rank_of_way (Nat.le_refl _) (by simp [way, State.goto, hp])
  · have hlen := List.length_pos_iff.mpr hbs
    apply rank_of_left
    · have hrest : s.backlog.map (unread ((s.update c j).store bs .writeSock)) = s.backlog.map (unread s) := by
        apply List.map_congr_left
        intro d hd
        simp only [unread, State.store, update_conns, if_neg ((hs.open_alone hsock).2 d hd)]
      have hopen : unread ((s.update c j).store bs .writeSock) c < unread s c := by
        simp only [unread, State.store, update_conns, if_pos, hi, hd, Option.elim_some, List.length_append]
        omega
      simp only [left, State.store, State.update, hsock, Option.toList_some, List.singleton_append, List.map_cons,
        List.sum_cons] at hrest hopen ⊢
      rw [hrest]
      omega
    · simp [way, State.store, hp]

/-- Everything that has come in has been shown, as far as the server looks at
it, and the server has ended or sleeps in `select()`. -/
def Served (es : List (Event κ)) (s : State κ) : Prop :=
  (if .eof ∈ es then s.pc = .exited 0 else s.pc = .select ∧ main s = none) ∧
  ∃ ps last, s.stdout = turns es ps ++ last ∧ (ps.map Prod.fst).flatten ++ last = entered es ∧
    (.eof ∉ es → ps.map Prod.snd = connected es)

/-- The buffer holds what `write()` is asked to write of it. -/
theorem next_fits (hs : s.n ≤ s.buf.length) (h : next s e = some s') : s'.n ≤ s'.buf.length := by
  by_cases he : e.own = true
  · cases e with
    | exec p =>
        obtain ⟨_, _, hbuf, hn, _⟩ := main_frame (Option.ite_none_right_eq_some.mp h).2
        rwa [hbuf, hn]
    | read k =>
        obtain ⟨_, _, _, rfl⟩ | ⟨bs, j, _, _, _, _, rfl⟩ | ⟨c, i, _, _, _, _, _, rfl⟩ |
          ⟨c, i, bs, j, _, _, _, _, _, _, rfl⟩ := read_cases h
        · exact hs
        · exact Stream.length_le_fill s.buf bs
        · exact hs
        · exact Stream.length_le_fill s.buf bs
    | write r => obtain ⟨_, rfl⟩ | ⟨_, rfl⟩ := write_cases h <;> exact hs
    | fail => obtain ⟨_, _, rfl⟩ | ⟨_, rfl⟩ | ⟨_, rfl⟩ := fail_cases h <;> exact hs
    | enter | eof | connect | send | shut => cases he
  · obtain ⟨stdin, backlog, conns, rfl, _⟩ := outside_cases (eq_false_of_ne_true he) h
    exact hs

theorem run_fits (h : Run (Exec next) (initial κ) es s) : s.n ≤ s.buf.length :=
  h.invariant (I := fun _ s => s.n ≤ s.buf.length) (Nat.le_refl 0) (fun _ _ _ _ _ hs hl => next_fits hs hl)

theorem next_full (hfits : s.n ≤ s.buf.length) (hs : s.Full) (he : Alone s e) (h : next s e = some s') : s'.Full := by
  obtain ⟨hown, hfail, hwrite⟩ := he
  cases e with
  | exec p =>
      obtain ⟨_, _, _, _, hwrites⟩ := main_frame (Option.ite_none_right_eq_some.mp h).2
      rwa [State.Full, hwrites]
  | read k =>
      obtain ⟨_, _, _, rfl⟩ | ⟨bs, j, _, _, _, _, rfl⟩ | ⟨c, i, _, _, _, _, _, rfl⟩ |
        ⟨c, i, bs, j, _, _, _, _, _, _, rfl⟩ := read_cases h <;> exact hs
  | write r =>
      obtain rfl := hwrite r rfl
      have hput (p : Pc) : (s.put (.wrote s.n) p).Full := by
        intro w hw
        obtain hw | hw := List.mem_append.mp hw
        · exact hs w hw
        · obtain rfl := List.mem_singleton.mp hw
          rw [List.length_take, Nat.min_eq_left hfits]
      obtain ⟨_, rfl⟩ | ⟨_, rfl⟩ := write_cases h <;> exact hput _
  | fail => exact absurd rfl hfail
  | enter | eof | connect | send | shut => cases hown

theorem served_of_quiet (hs : Shown es s ps last cur) (hfull : s.Full)
    (hp : if .eof ∈ es then s.pc = .exited 0 else s.pc = .select ∧ main s = none) (hin : s.stdin.data = [])
    (hsock : s.newsock = none) (hbacklog : .eof ∉ es → s.backlog = []) : Served es s := by
  refine ⟨hp, ps, last, ?_, ?_, fun hnot => ?_⟩
  · have hout := hs.output
    have hpending : s.pending = [] := by
      rw [State.pending, if_neg]
      split at hp <;> simp [hp]
    rw [hpending, hs.alone hsock, List.append_nil, List.append_nil] at hout
    rw [hfull.stdout, hout]
  · simpa [hin] using hs.entered
  · simpa [hsock, hbacklog hnot] using hs.order

theorem main_exists (hsh : Inv es s) (hr : Ready es s) (hended : Ended es s) (hfull : s.Full)
    (hfail : .fail ∉ es) (hshut : ∀ c, .connect c ∈ es → .shut c ∈ es) (hnot : ¬ Served es s) :
    ∃ e s', Guarded (Exec next) Alone s e s' := by
  obtain ⟨ps, last, cur, hsh⟩ := hsh
  rw [Ready] at hr
  have hexec {s' : State κ} (h : main s = some s') : ∃ e s', Guarded (Exec next) Alone s e s' :=
    ⟨.exec s.pc, s', ⟨rfl, by simp, by simp⟩, (if_pos rfl).trans h⟩
  have hwrite {s' : State κ} (h : SelectServer.write (.wrote s.n) s = some s') : ∃ e s', Guarded (Exec next) Alone s e s' :=
    ⟨.write (.wrote s.n), s', ⟨rfl, by simp, fun r hr => (Event.write.inj hr).symm⟩, h⟩
  cases hp : s.pc with
  | select =>
      by_cases hready : s.stdin.ready = true ∨ s.backlog ≠ []
      · exact hexec (by rw [main, hp]; exact if_pos hready)
      · -- it sleeps, and there is nothing left
        obtain ⟨hin, hbacklog⟩ := not_or.mp hready
        obtain ⟨hdata, hopen⟩ := not_or.mp (fun h => hin (ready_iff.mpr h))
        have hnoeof : .eof ∉ es := fun h => hopen (hended.stdin.mpr h)
        have hsleeps : main s = none := by
          rw [main, hp]
          exact if_neg hready
        exact absurd (served_of_quiet hsh hfull (by rw [if_neg hnoeof]; exact ⟨hp, hsleeps⟩) (not_not.mp hdata)
          (hsh.idle (by rw [hp]; rfl)) (fun _ => not_not.mp hbacklog)) hnot
  | isset0 | issetS | sayAccepted | close | sayClosed => exact hexec (by rw [main, hp])
  | write0 | writeSock =>
      apply hwrite
      rw [SelectServer.write, if_pos (show (Stream.Write.wrote s.n).count ≤ s.n from Nat.le_refl s.n), hp]
  | accept =>
      rw [hp] at hr
      cases hb : s.backlog with
      | nil => exact absurd hb hr
      | cons c cs => exact hexec (by rw [main, hp, hb])
  | read0 =>
      rw [hp] at hr
      obtain ⟨k, r, hk⟩ := read_exists (show 0 < bufLen by decide) hr.1
      exact ⟨.read k, _, ⟨rfl, by simp, by simp⟩, by rw [Exec, next, SelectServer.read, hp]; simp only [hk]; rfl⟩
  | readSock =>
      rw [hp] at hr
      obtain ⟨c, hsock⟩ := Option.ne_none_iff_exists'.mp (hr hfail)
      have hmem : c ∈ connected es := by
        rw [← hsh.order, hsock]
        simp
      have hconn : Event.connect c ∈ es := by
        obtain ⟨e, he, hc⟩ := List.mem_flatMap.mp hmem
        cases e <;> simp_all [Event.connected]
      obtain ⟨i, hi, hclosed⟩ := (hended.shut c).mpr (hshut c hconn)
      obtain ⟨k, r, hk⟩ := read_exists (show 0 < bufLen by decide) (ready_iff.mpr (.inr hclosed))
      exact ⟨.read k, _, ⟨rfl, by simp, by simp⟩, by
        rw [Exec, next, SelectServer.read, hp]
        simp only [hsock, hi, Option.bind_some, hk]
        rfl⟩
  | exited status =>
      rw [hp] at hr
      cases status with
      | zero =>
          obtain ⟨hdata, hclosed, hsock⟩ := hr
          have heof := hended.stdin.mp hclosed
          exact absurd (served_of_quiet hsh hfull (by rw [if_pos heof, hp]) hdata hsock (fun h => absurd heof h)) hnot
      | succ => exact absurd hr hfail
  | killed =>
      rw [hp] at hr
      exact absurd hr hfail

theorem served_append (h : ∀ e ∈ es', e.own = true) (hs : Served (es ++ es') s) : Served es s := by
  have hentered : entered es' = [] := List.flatMap_eq_nil_iff.mpr (fun e he => (own_word (h e he)).1)
  have hsent (c : κ) : sent c es' = [] := List.flatMap_eq_nil_iff.mpr (fun e he => (own_word (h e he)).2.1 c)
  have hconn : connected es' = [] := List.flatMap_eq_nil_iff.mpr (fun e he => (own_word (h e he)).2.2)
  have heof : .eof ∈ es ++ es' ↔ .eof ∈ es := by
    rw [List.mem_append, or_iff_left]
    exact fun hmem => Bool.false_ne_true (h _ hmem)
  obtain ⟨hp, ps, last, hout, hin, horder⟩ := hs
  refine ⟨by simpa [heof] using hp, ps, last, ?_, ?_, fun hnot => ?_⟩
  · rw [hout, turns_congr]
    intro p _
    rw [sent, List.flatMap_append]
    change sent p.2 es ++ sent p.2 es' = sent p.2 es
    rw [hsent, List.append_nil]
  · rw [hin, entered, List.flatMap_append]
    change entered es ++ entered es' = entered es
    rw [hentered, List.append_nil]
  · rw [horder (fun hmem => hnot (heof.mp hmem)), connected, List.flatMap_append]
    change connected es ++ connected es' = connected es
    rw [hconn, List.append_nil]

/-- When all the clients have closed their connections and nothing more comes
in, the server shows everything: it goes to sleep in `select()` then, and it
ends when the user has left. Who is in the queue then is not served. -/
theorem serves_all (es : List (Event κ)) (s : State κ) (h : Run (Exec next) (initial κ) es s) (hfail : .fail ∉ es)
    (hfull : s.Full) (hshut : ∀ c, .connect c ∈ es → .shut c ∈ es) :
    Inevitable (Guarded (Exec next) Alone) (Served es) s := by
  refine inevitable_of_rank (I := fun t => t.Full ∧ ∃ es', (∀ e ∈ es', e.own = true ∧ e ≠ .fail) ∧
    Run (Exec next) (initial κ) (es ++ es') t) rank ?_ ⟨hfull, [], by simp, by simpa using h⟩
  rintro t ⟨hfull, es', hown, hr⟩ hnot
  constructor
  · refine main_exists (run_inv hr) (run_ready hr) (run_ended hr) hfull ?_ (fun c hc => ?_)
      (fun hs => hnot (served_append (fun e he => (hown e he).1) hs))
    · exact fun hmem => (List.mem_append.mp hmem).elim hfail (fun he => (hown _ he).2 rfl)
    · obtain hc | hc := List.mem_append.mp hc
      · exact List.mem_append_left _ (hshut c hc)
      · exact absurd (hown _ hc).1 Bool.false_ne_true
  · rintro e u ⟨he, hl⟩
    refine ⟨⟨next_full (run_fits hr) hfull he hl, es' ++ [e], fun e' he' => ?_, ?_⟩, ?_⟩
    · obtain he' | he' := List.mem_append.mp he'
      · exact hown e' he'
      · obtain rfl := List.mem_singleton.mp he'
        exact ⟨he.1, he.2.1⟩
    · rw [← List.append_assoc]
      exact hr.snoc hl
    · obtain ⟨ps, last, cur, hsh⟩ := run_inv hr
      cases e with
      | exec p => exact main_rank hsh.idle (run_ready hr) (Option.ite_none_right_eq_some.mp hl).2
      | read k => exact read_rank hsh hl
      | write r => exact write_rank hl
      | fail => exact absurd rfl he.2.1
      | enter | eof | connect | send | shut => cases he.1

/-- Two clients come while the user still types, and both have gone. -/
def twoClients : List (Event Bool) :=
  [.enter [97], .exec .select, .connect true, .connect false, .send false [98], .exec .isset0, .shut true, .shut false]

theorem serves_all_twoClients : ∃ s, Run (Exec next) (initial Bool) twoClients s ∧
    Inevitable (Guarded (Exec next) Alone) (Served twoClients) s := by
  obtain ⟨s, hs, hnone⟩ : ∃ s, replay next (initial Bool) twoClients = some s ∧ s.writes = [] := ⟨_, rfl, rfl⟩
  have hfull : s.Full := by simp [State.Full, hnone]
  exact ⟨s, replay_run hs, serves_all twoClients s (replay_run hs) (by decide) hfull (by decide)⟩

end UnixProg.Select.SelectProgress

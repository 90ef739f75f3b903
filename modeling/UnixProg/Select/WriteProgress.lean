import UnixProg.Select.WriteSelect

namespace UnixProg.Select.WriteProgress

open Lib Transition FlowControl WriteSelect

variable {L : Limits} {s s' t : State L} {e : Event} {es : List Event} {arg : Option Int} {n k : Nat}

/-- The server waits for room that only a `read()` of the client can make. -/
def Asleep (s : State L) : Prop :=
  s.conn.rcvd.length = L.recv ∧
  (s.server = .select ∧ L.send < s.conn.sent.length + L.low ∨
    ∃ k, s.server = .write k ∧ s.conn.sent.length = L.send)

theorem server_exists (hp : s.server = .assert ∨ ∃ k, s.server = .print k) : ∃ e s', Exec next s e s' := by
  obtain hp | ⟨k, hp⟩ := hp
  · exact ⟨.server .assert, _, by rw [Exec, next, if_pos hp, serverStep, hp]⟩
  · exact ⟨.server (.print k), _, by rw [Exec, next, if_pos hp, serverStep, hp]⟩

theorem transfer_goes (hsent : s.conn.sent ≠ []) (hrcvd : s.conn.rcvd.length < L.recv) : ∃ e s', Exec next s e s' := by
  obtain ⟨c, hc⟩ := transfer_exists hsent hrcvd
  exact ⟨.transfer 1, { s with conn := c }, by rw [Exec, next, hc]; rfl⟩

/-- Short of that the server or the network can always do something. -/
theorem goes_or_asleep (hs : Inv s) : (∃ e s', Exec next s e s') ∨ Asleep s := by
  have hok := hs.ok
  rw [Ok] at hok
  by_cases hgo : s.conn.sent ≠ [] ∧ s.conn.rcvd.length < L.recv
  · exact .inl (transfer_goes hgo.1 hgo.2)
  · have hfull (hsent : 0 < s.conn.sent.length) : s.conn.rcvd.length = L.recv := by
      refine Nat.le_antisymm s.conn.rcvd_le (Nat.le_of_not_lt (fun hlt => hgo ⟨?_, hlt⟩))
      exact List.length_pos_iff.mp hsent
    have hlow := L.low_pos
    have hle := L.low_le
    cases hp : s.server with
    | select =>
        by_cases hroom : s.conn.sent.length + L.low ≤ L.send
        · refine .inl ⟨.server .select, { s with wrfds := true, server := .assert }, ?_⟩
          rw [Exec, next, if_pos hp, serverStep, hp]
          exact if_pos (decide_eq_true hroom)
        · exact .inr ⟨hfull (by omega), .inl ⟨hp, by omega⟩⟩
    | assert => exact .inl (server_exists (.inl hp))
    | print k => exact .inl (server_exists (.inr ⟨k, hp⟩))
    | write k =>
        simp only [hp] at hok
        by_cases hroom : s.conn.sent.length < L.send
        · obtain ⟨c, hc⟩ := copy_exists dot hroom
          refine .inl ⟨.copy 1,
            { s with conn := c, server := if k + 1 = BUF_LEN then .print BUF_LEN else .write (k + 1) }, ?_⟩
          have hbs : (buf.drop k).take 1 = [dot] := by
            rw [buf, List.drop_replicate, List.take_replicate, Nat.min_eq_left (by omega)]
            rfl
          simp only [Exec, next, copyStep, hp, hbs, hc]
          exact if_pos (by omega)
        · have hsent := Nat.le_antisymm s.conn.sent_le (Nat.le_of_not_lt hroom)
          exact .inr ⟨hfull (by omega), .inr ⟨k, hp, hsent⟩⟩
    | aborted => simp only [hp] at hok

/-- A client that reads can go on with its loop where the server sleeps. -/
theorem client_goes (hs : Asleep s) (hp : s.client ≠ .pause) : ∃ e s', Exec next s e s' := by
  cases hc : s.client with
  | pause => exact absurd hc hp
  | sleep => exact ⟨.client .sleep, _, by rw [Exec, next, if_pos hc, clientStep, hc]⟩
  | write bs => exact ⟨.client (.write bs), _, by rw [Exec, next, if_pos hc, clientStep, hc]⟩
  | read =>
      have hne : s.conn.rcvd ≠ [] := List.length_pos_iff.mp (hs.1 ▸ L.recv_pos)
      obtain ⟨r, hr⟩ := read_exists (show 0 < readLen by decide) hne
      exact ⟨.read 1, _, by simp only [Exec, next, readStep, hc, hr]; rfl⟩

/-- The client looks at its third argument once, before its loop. -/
theorem Does.client (hd : Does s s') :
    (s.client = .pause → s'.client = .pause ∧ s'.stdout = s.stdout) ∧ (s.client ≠ .pause → s'.client ≠ .pause) := by
  cases hd with
  | select | assert | print | copy | transfer => exact ⟨fun h => ⟨h, rfl⟩, id⟩
  | sleep hp | read _ _ _ hp _ | write _ hp =>
      rw [hp]
      constructor
      · intro h
        cases h
      · intro _ h
        cases h

theorem run_pause (h : Run (Exec next) (initial L arg) es s) (harg : interval arg = -1) :
    s.client = .pause ∧ s.stdout = [] := by
  refine h.reachable.invariant (I := fun t => t.client = .pause ∧ t.stdout = []) ⟨if_pos harg, rfl⟩ ?_
  rintro t e u ⟨hp, hout⟩ hl
  have hclient := (Does.client (does hl)).1 hp
  exact ⟨hclient.1, hclient.2.trans hout⟩

theorem run_reads (h : Run (Exec next) (initial L arg) es s) (harg : interval arg ≠ -1) : s.client ≠ .pause := by
  refine h.reachable.invariant (I := fun t => t.client ≠ .pause) ?_ (fun _ _ _ hp hl => (Does.client (does hl)).2 hp)
  rw [initial, if_neg harg]
  exact fun h => by cases h

/-- How far the server is in its loop. -/
def way : ServerPc → Nat
  | .print _ => 3
  | .select => 2
  | .assert => 1
  | .write _ | .aborted => 0

/-- The room that is left, and that of the receiver once more. -/
def roomRank (s : State L) : Nat :=
  4 * (L.recv + L.send - s.conn.content.length) + (L.recv - s.conn.rcvd.length) + way s.server

theorem room_falls (hs : Inv s) (hp : s.client = .pause) (hd : Does s s') : roomRank s' < roomRank s := by
  have hok := hs.ok
  rw [Ok] at hok
  cases hd with
  | select hp' => simp [roomRank, hp', way]
  | assert hp' =>
      simp only [hp'] at hok
      simp [roomRank, hp', way, hok.1]
  | print n hp' => simp [roomRank, hp', way]
  | copy done k c hp' hle hc =>
      obtain ⟨hne, hsent, hrcvd⟩ := copy_cases hc
      have hlen := content_le c
      have hway : way (if done + k = BUF_LEN then .print BUF_LEN else .write (done + k)) ≤ 3 := by
        split <;> simp [way]
      have hk : 0 < k := Nat.pos_of_ne_zero (fun h => hne (by rw [h]; rfl))
      rw [content_copy hc, List.length_append, List.length_replicate] at hlen
      simp only [roomRank, content_copy hc, hrcvd, List.length_append, List.length_replicate]
      omega
  | transfer k c hc =>
      obtain ⟨n, hpos, _, hrcvd⟩ := transfer_lengths hc
      have hlen := c.rcvd_le
      simp only [roomRank, content_transfer hc]
      omega
  | sleep h | read _ _ _ h _ | write _ h => exact absurd (hp.symm.trans h) (by simp)

/-- Nobody can do anything. -/
theorem asleep_stuck (hs : Asleep s) (hp : s.client = .pause) : next s e = none := by
  obtain ⟨hfull, hserver⟩ := hs
  cases e with
  | server p =>
      refine ite_eq_right_iff.mpr (fun _ => ?_)
      obtain ⟨hsel, hroom⟩ | ⟨k, hk, _⟩ := hserver
      · simp only [serverStep, hsel]
        exact if_neg (fun hw => Nat.not_le_of_lt hroom (of_decide_eq_true hw))
      · simp only [serverStep, hk]
  | copy k =>
      obtain ⟨hsel, _⟩ | ⟨j, hj, hroom⟩ := hserver
      · simp only [next, copyStep, hsel]
      · have hcopy (bs : List UInt8) : s.conn.copy bs = none := by
          refine dif_neg (fun hcond => ?_)
          have hpos := List.length_pos_iff.mpr hcond.1
          omega
        simp only [next, copyStep, hj, hcopy, Option.map_none, ite_self]
  | transfer k =>
      simp only [next, transfer_none_iff.mpr (.inr hfull), Option.map_none]
  | client p => exact ite_eq_right_iff.mpr (fun _ => by simp only [clientStep, hp])
  | read k => simp only [next, readStep, hp]

/-- When the client does not read, the server is put to sleep once and for
all. Where `select()` waits for room for a whole buffer it sleeps in
`select()`, as the program wants to show, and else maybe in `write()`. -/
theorem put_to_sleep (es : List Event) (s : State L) (h : Run (Exec next) (initial L arg) es s)
    (harg : interval arg = -1) :
    Inevitable (Exec next) (fun t => Asleep t ∧ t.stdout = [] ∧ (∀ e, next t e = none) ∧
      (BUF_LEN ≤ L.low → t.server = .select)) s := by
  refine inevitable_of_rank (I := fun t => ∃ es, Run (Exec next) (initial L arg) es t) roomRank ?_ ⟨es, h⟩
  rintro t ⟨es, hr⟩ hnot
  have hs := run_inv hr
  obtain ⟨hp, hout⟩ := run_pause hr harg
  refine ⟨(goes_or_asleep hs).resolve_right (fun hasleep => hnot ?_), ?_⟩
  · refine ⟨hasleep, hout, fun e => asleep_stuck hasleep hp, fun hlow => ?_⟩
    obtain ⟨hsel, _⟩ | ⟨k, hk, hfull⟩ := hasleep.2
    · exact hsel
    · -- `select()` has seen that there is room for all that `write()` is given
      have hok := hs.ok
      simp only [Ok, hk] at hok
      have hroom := hok.2 hlow
      omega
  · exact fun e u hl => ⟨⟨es ++ [e], hr.snoc hl⟩, room_falls hs hp (does hl)⟩

def written : List Event := [.server .select, .server .assert, .copy 3, .transfer 2]

theorem put_to_sleep_noReader : ∃ s, Run (Exec next) (initial small none) written s ∧
    Inevitable (Exec next) (fun t => Asleep t ∧ t.stdout = [] ∧ (∀ e, next t e = none) ∧
      (BUF_LEN ≤ small.low → t.server = .select)) s := by
  obtain ⟨s, hs⟩ : ∃ s, replay next (initial small none) written = some s := ⟨_, rfl⟩
  exact ⟨s, replay_run hs, put_to_sleep written s (replay_run hs) (by decide)⟩

/-- What is still to be done for `n` lines of the server. -/
def lineRank (n : Nat) (s : State L) : Nat :=
  8 * (BUF_LEN * (n - s.stderr.length) - s.server.written) + 4 * s.conn.sent.length + 3 * s.conn.rcvd.length +
    way s.server + (match s.client with | .write _ => 2 | .sleep => 1 | .pause | .read => 0)

theorem line_falls (hs : Inv s) (hn : s.stderr.length < n) (hd : Does s s') : lineRank n s' < lineRank n s := by
  have hok := hs.ok
  rw [Ok] at hok
  cases hd with
  | select hp => simp [lineRank, hp, way, ServerPc.written]
  | assert hp =>
      simp only [hp] at hok
      simp [lineRank, hp, way, ServerPc.written, hok.1]
  | print m hp =>
      simp only [hp] at hok
      have hmul : BUF_LEN * (n - s.stderr.length) = BUF_LEN * (n - (s.stderr.length + 1)) + BUF_LEN := by
        rw [← Nat.mul_succ]
        congr 1
        omega
      simp only [lineRank, hp, way, ServerPc.written, List.length_append, List.length_singleton, hmul, hok]
      omega
  | copy done k c hp hle hc =>
      obtain ⟨hne, hsent, hrcvd⟩ := copy_cases hc
      have hk : 0 < k := Nat.pos_of_ne_zero (fun h => hne (by rw [h]; rfl))
      have hmul : BUF_LEN ≤ BUF_LEN * (n - s.stderr.length) := Nat.le_mul_of_pos_right _ (by omega)
      have hdone : (ServerPc.write done).written = done := rfl
      have hwritten : (if done + k = BUF_LEN then ServerPc.print BUF_LEN else .write (done + k)).written = done + k := by
        split
        · rename_i heq
          exact heq.symm
        · rfl
      have hway : way (if done + k = BUF_LEN then .print BUF_LEN else .write (done + k)) ≤ 3 := by
        split <;> simp [way]
      simp only [lineRank, hp, hdone, hsent, hrcvd, hwritten, List.length_append, List.length_replicate]
      omega
  | transfer k c hc =>
      obtain ⟨n, hpos, hsent, hrcvd⟩ := transfer_lengths hc
      simp only [lineRank]
      omega
  | sleep hp => simp [lineRank, hp]
  | read k bs c hp hr =>
      obtain ⟨hpos, hrcvd, hsent⟩ := read_lengths hr
      simp only [lineRank, hp, hsent]
      omega
  | write bs hp => simp [lineRank, hp]

/-- When the client reads, at whatever interval, neither side ever comes to an
end: the server prints any number of lines and the client shows any number of
bytes. -/
theorem never_stalls (n : Nat) (es : List Event) (s : State L) (h : Run (Exec next) (initial L arg) es s)
    (harg : interval arg ≠ -1) :
    Inevitable (Exec next) (fun t => n ≤ t.stderr.length ∧ n ≤ t.stdout.length) s := by
  let m := n + readLen + L.recv + L.send
  refine inevitable_of_rank (I := fun t => ∃ es, Run (Exec next) (initial L arg) es t) (lineRank m) ?_ ⟨es, h⟩
  rintro t ⟨es, hr⟩ hnot
  have hs := run_inv hr
  have hm : t.stderr.length < m := by
    refine Nat.lt_of_not_le (fun hle => hnot ?_)
    have hlen := congrArg List.length hs.flow
    have hcontent := content_le t.conn
    have hheld := hs.held
    rw [List.length_append, List.length_append, List.length_replicate, BUF_LEN] at hlen
    constructor <;> omega
  refine ⟨(goes_or_asleep hs).elim id (fun hasleep => client_goes hasleep (run_reads hr harg)), ?_⟩
  exact fun e u hl => ⟨⟨es ++ [e], hr.snoc hl⟩, line_falls hs hm (does hl)⟩

theorem never_stalls_reader : ∃ s, Run (Exec next) (initial small (some 2)) exchange s ∧
    Inevitable (Exec next) (fun t => 5 ≤ t.stderr.length ∧ 5 ≤ t.stdout.length) s := by
  obtain ⟨s, hs⟩ : ∃ s, replay next (initial small (some 2)) exchange = some s := ⟨_, rfl⟩
  exact ⟨s, replay_run hs, never_stalls 5 exchange s (replay_run hs) (by decide)⟩

end UnixProg.Select.WriteProgress

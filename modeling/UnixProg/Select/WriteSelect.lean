import UnixProg.Lib.FlowControl
import UnixProg.Lib.Transition

namespace UnixProg.Select.WriteSelect

open Lib Transition FlowControl

def BUF_LEN : Nat := 1024

/-- The size of `buf` in the client. -/
def readLen : Nat := 4096

/-- One more than what a `size_t` can hold. -/
def sizeMod : Nat := UInt64.size

def dot : UInt8 := 46

def buf : List UInt8 := List.replicate BUF_LEN dot

/-- Main of the server in its endless loop; in `write()` with the number of
bytes that are in the kernel already. -/
inductive ServerPc
  | select
  | assert
  | write (done : Nat)
  | print (n : Nat)
  | aborted
deriving DecidableEq

/-- Main of the client, `connect()` behind it. -/
inductive ClientPc
  | pause
  | sleep
  | read
  | write (bs : List UInt8)
deriving DecidableEq

structure State (L : Limits) where
  server : ServerPc
  wrfds : Bool
  total : Nat
  /-- What the server prints: `n` and `total`. -/
  stderr : List (Nat × Nat)
  conn : Conn L UInt8
  client : ClientPc
  /-- What the client shows. -/
  stdout : List UInt8

inductive Event
  | server (p : ServerPc)
  | copy (k : Nat)
  | transfer (k : Nat)
  | client (p : ClientPc)
  | read (k : Nat)
deriving DecidableEq

/-- The third argument of the client, if there is one. -/
def interval (arg : Option Int) : Int := arg.getD (-1)

def initial (L : Limits) (arg : Option Int) : State L where
  server := .select
  wrfds := false
  total := 0
  stderr := []
  conn := .empty L UInt8
  client := if interval arg = -1 then .pause else .sleep
  stdout := []

variable {L : Limits} {s s' : State L} {e : Event} {es : List Event} {arg : Option Int} {k : Nat}

def serverStep (s : State L) : Option (State L) :=
  match s.server with
  | .select => if s.conn.writable then some { s with wrfds := true, server := .assert } else none
  | .assert => some { s with server := if s.wrfds then .write 0 else .aborted }
  | .write _ => none
  | .print n =>
      let total := (s.total + n) % sizeMod
      some { s with total := total, stderr := s.stderr ++ [(n, total)], server := .select }
  | .aborted => none

/-- `write()` gets `k` more bytes into the kernel. It returns when there are
no more: no signal interrupts it. -/
def copyStep (s : State L) (k : Nat) : Option (State L) :=
  match s.server with
  | .write done =>
      if done + k ≤ BUF_LEN then
        (s.conn.copy ((buf.drop done).take k)).map (fun c =>
          { s with conn := c, server := if done + k = BUF_LEN then .print BUF_LEN else .write (done + k) })
      else none
  | _ => none

def clientStep (s : State L) : Option (State L) :=
  match s.client with
  | .pause => none
  | .sleep => some { s with client := .read }
  | .read => none
  | .write bs => some { s with stdout := s.stdout ++ bs, client := .sleep }

/-- The server never closes the connection, so `read()` waits where there is
nothing to read. -/
def readStep (s : State L) (k : Nat) : Option (State L) :=
  match s.client with
  | .read => (s.conn.read readLen k).map (fun r => { s with conn := r.2, client := .write r.1 })
  | _ => none

/-- Neither program is killed, the connection does not break, and the standard
output of the client takes all it is given: no call fails or comes back short. -/
def next (s : State L) : Event → Option (State L)
  | .server p => if s.server = p then serverStep s else none
  | .copy k => copyStep s k
  | .transfer k => (s.conn.transfer k).map (fun c => { s with conn := c })
  | .client p => if s.client = p then clientStep s else none
  | .read k => readStep s k

/-- How much of `buf` is in the kernel and not on the screen of the server. -/
def ServerPc.written : ServerPc → Nat
  | .select | .assert | .aborted => 0
  | .write k | .print k => k

/-- What the client has read and not shown. -/
def ClientPc.held : ClientPc → List UInt8
  | .pause | .sleep | .read => []
  | .write bs => bs

/-- The first `n` lines of the server. -/
def report (n : Nat) : List (Nat × Nat) :=
  (List.range n).map (fun i => (BUF_LEN, BUF_LEN * (i + 1) % sizeMod))

/-- What main of the server relies on at each place. -/
def Ok (s : State L) : Prop :=
  match s.server with
  | .select => True
  | .assert => s.wrfds = true ∧ s.conn.sent.length + L.low ≤ L.send
  | .write k => k < BUF_LEN ∧ (BUF_LEN ≤ L.low → s.conn.sent.length + (BUF_LEN - k) ≤ L.send)
  | .print n => n = BUF_LEN
  | .aborted => False

structure Inv (s : State L) : Prop where
  lines : s.stderr = report s.stderr.length
  total : s.total = BUF_LEN * s.stderr.length % sizeMod
  flow : s.stdout ++ s.client.held ++ s.conn.content =
    List.replicate (BUF_LEN * s.stderr.length + s.server.written) dot
  ok : Ok s
  held : s.client.held.length ≤ readLen

theorem report_succ (n : Nat) : report (n + 1) = report n ++ [(BUF_LEN, BUF_LEN * (n + 1) % sizeMod)] := by
  rw [report, report, List.range_succ, List.map_append, List.map_singleton]

theorem initial_inv (L : Limits) (arg : Option Int) : Inv (initial L arg) where
  lines := rfl
  total := rfl
  flow := by
    rw [initial]
    split <;> rfl
  ok := trivial
  held := by
    rw [initial]
    split <;> exact Nat.zero_le _

/-- What a step does, whoever takes it. -/
inductive Does (s : State L) : State L → Prop
  | select (hp : s.server = .select) (hroom : s.conn.sent.length + L.low ≤ L.send) :
      Does s { s with wrfds := true, server := .assert }
  | assert (hp : s.server = .assert) : Does s { s with server := if s.wrfds then .write 0 else .aborted }
  | print (n : Nat) (hp : s.server = .print n) :
      Does s { s with
        total := (s.total + n) % sizeMod
        stderr := s.stderr ++ [(n, (s.total + n) % sizeMod)]
        server := .select }
  | copy (done k : Nat) (c : Conn L UInt8) (hp : s.server = .write done) (hle : done + k ≤ BUF_LEN)
      (hc : s.conn.copy (List.replicate k dot) = some c) :
      Does s { s with conn := c, server := if done + k = BUF_LEN then .print BUF_LEN else .write (done + k) }
  | transfer (k : Nat) (c : Conn L UInt8) (hc : s.conn.transfer k = some c) : Does s { s with conn := c }
  | sleep (hp : s.client = .sleep) : Does s { s with client := .read }
  | read (k : Nat) (bs : List UInt8) (c : Conn L UInt8) (hp : s.client = .read)
      (hr : s.conn.read readLen k = some (bs, c)) : Does s { s with conn := c, client := .write bs }
  | write (bs : List UInt8) (hp : s.client = .write bs) :
      Does s { s with stdout := s.stdout ++ bs, client := .sleep }

theorem server_does (h : serverStep s = some s') : Does s s' := by
  rw [serverStep] at h
  cases hp : s.server with
  | select =>
      simp only [hp] at h
      obtain ⟨hw, h⟩ := Option.ite_none_right_eq_some.mp h
      cases h
      exact .select hp (of_decide_eq_true hw)
  | assert =>
      simp only [hp] at h
      cases h
      exact .assert hp
  | print n =>
      simp only [hp] at h
      cases h
      exact .print n hp
  | write | aborted =>
      simp only [hp] at h
      cases h

theorem copy_does (h : copyStep s k = some s') : Does s s' := by
  rw [copyStep] at h
  cases hp : s.server with
  | write done =>
      simp only [hp] at h
      obtain ⟨hle, h⟩ := Option.ite_none_right_eq_some.mp h
      obtain ⟨c, hc, rfl⟩ := Option.map_eq_some_iff.mp h
      rw [buf, List.drop_replicate, List.take_replicate, Nat.min_eq_left (by omega)] at hc
      exact .copy done k c hp hle hc
  | select | assert | print | aborted =>
      simp only [hp] at h
      cases h

theorem client_does (h : clientStep s = some s') : Does s s' := by
  rw [clientStep] at h
  cases hp : s.client with
  | sleep =>
      simp only [hp] at h
      cases h
      exact .sleep hp
  | write bs =>
      simp only [hp] at h
      cases h
      exact .write bs hp
  | pause | read =>
      simp only [hp] at h
      cases h

theorem read_does (h : readStep s k = some s') : Does s s' := by
  rw [readStep] at h
  cases hp : s.client with
  | read =>
      simp only [hp] at h
      obtain ⟨⟨bs, c⟩, hr, rfl⟩ := Option.map_eq_some_iff.mp h
      exact .read k bs c hp hr
  | pause | sleep | write =>
      simp only [hp] at h
      cases h

theorem does (hl : Exec next s e s') : Does s s' := by
  cases e with
  | server p => exact server_does (Option.ite_none_right_eq_some.mp hl).2
  | copy k => exact copy_does hl
  | transfer k =>
      obtain ⟨c, hc, rfl⟩ := Option.map_eq_some_iff.mp hl
      exact .transfer k c hc
  | client p => exact client_does (Option.ite_none_right_eq_some.mp hl).2
  | read k => exact read_does hl

/-- What others do with the connection takes nothing away from the room in it. -/
theorem Ok.conn {c : Conn L UInt8} (hs : Ok s) (hle : c.sent.length ≤ s.conn.sent.length) (p : ClientPc)
    (out : List UInt8) : Ok { s with conn := c, client := p, stdout := out } := by
  rw [Ok] at hs
  cases hp : s.server with
  | select => trivial
  | assert =>
      simp only [hp] at hs
      exact ⟨hs.1, Nat.le_trans (Nat.add_le_add_right hle L.low) hs.2⟩
  | write k =>
      simp only [hp] at hs
      exact ⟨hs.1, fun hlow => Nat.le_trans (Nat.add_le_add_right hle _) (hs.2 hlow)⟩
  | print n =>
      simp only [hp] at hs
      exact hs
  | aborted =>
      simp only [hp] at hs

theorem Inv.does (hs : Inv s) (hd : Does s s') : Inv s' := by
  have hok := hs.ok
  have hflow := hs.flow
  rw [Ok] at hok
  cases hd with
  | select hp hroom =>
      rw [hp] at hflow
      exact ⟨hs.lines, hs.total, hflow, ⟨rfl, hroom⟩, hs.held⟩
  | assert hp =>
      rw [hp] at hflow
      simp only [hp] at hok
      rw [hok.1, if_pos rfl]
      refine ⟨hs.lines, hs.total, hflow, ⟨by decide, fun hlow => ?_⟩, hs.held⟩
      exact Nat.le_trans (Nat.add_le_add_left hlow s.conn.sent.length) hok.2
  | print n hp =>
      rw [hp] at hflow
      simp only [hp] at hok
      subst hok
      have htotal : (s.total + BUF_LEN) % sizeMod = BUF_LEN * (s.stderr.length + 1) % sizeMod := by
        rw [hs.total, Nat.mod_add_mod, Nat.mul_succ]
      refine ⟨?_, ?_, ?_, trivial, hs.held⟩
      · rw [List.length_append, List.length_singleton, report_succ, ← hs.lines, htotal]
      · rw [List.length_append, List.length_singleton]
        exact htotal
      · rw [List.length_append, List.length_singleton, Nat.mul_succ]
        exact hflow
  | copy done k c hp hle hc =>
      rw [hp] at hflow
      simp only [hp] at hok
      have hout : s.stdout ++ s.client.held ++ c.content =
          List.replicate (BUF_LEN * s.stderr.length + (done + k)) dot := by
        rw [content_copy hc, ← List.append_assoc, hflow, ServerPc.written, List.replicate_append_replicate,
          Nat.add_assoc]
      by_cases hend : done + k = BUF_LEN
      · rw [if_pos hend]
        rw [hend] at hout
        exact ⟨hs.lines, hs.total, hout, rfl, hs.held⟩
      · rw [if_neg hend]
        refine ⟨hs.lines, hs.total, hout, ⟨by omega, fun hlow => ?_⟩, hs.held⟩
        have hroom := hok.2 hlow
        change c.sent.length + (BUF_LEN - (done + k)) ≤ L.send
        rw [(copy_cases hc).2.1, List.length_append, List.length_replicate]
        omega
  | transfer k c hc =>
      obtain ⟨n, _, hsent, _⟩ := transfer_lengths hc
      refine ⟨hs.lines, hs.total, ?_, hs.ok.conn ?_ s.client s.stdout, hs.held⟩
      · change s.stdout ++ s.client.held ++ c.content = _
        rw [content_transfer hc]
        exact hflow
      · rw [hsent]
        exact Nat.le_add_left _ n
  | sleep hp =>
      rw [hp] at hflow
      exact ⟨hs.lines, hs.total, hflow, hs.ok.conn (Nat.le_refl _) .read s.stdout, Nat.zero_le _⟩
  | read k bs c hp hr =>
      rw [hp] at hflow
      obtain ⟨_, hle, _, hsent⟩ := read_cases hr
      refine ⟨hs.lines, hs.total, ?_, hs.ok.conn (Nat.le_of_eq (congrArg List.length hsent)) (.write bs) s.stdout, hle⟩
      change s.stdout ++ bs ++ c.content = _
      rw [List.append_assoc, ← content_read hr, ← List.append_nil s.stdout]
      exact hflow
  | write bs hp =>
      rw [hp] at hflow
      refine ⟨hs.lines, hs.total, ?_, hs.ok.conn (Nat.le_refl _) .sleep (s.stdout ++ bs), Nat.zero_le _⟩
      change s.stdout ++ bs ++ [] ++ s.conn.content = _
      rw [List.append_nil]
      exact hflow

theorem run_inv (h : Run (Exec next) (initial L arg) es s) : Inv s :=
  h.reachable.invariant (initial_inv L arg) (fun _ _ _ hs hl => hs.does (does hl))

/-- The total that the server reports runs ahead of what the client has shown
by no more than fits into the two buffers of the kernel and that of the client.
Nothing is lost on the way. -/
theorem ahead_by_buffers (es : List Event) (s : State L) (h : Run (Exec next) (initial L arg) es s) :
    s.server ≠ .aborted ∧ s.stderr = report s.stderr.length ∧
    (∃ k, k ≤ BUF_LEN ∧ s.stdout ++ s.client.held ++ s.conn.content =
      List.replicate (BUF_LEN * s.stderr.length + k) dot) ∧
    BUF_LEN * s.stderr.length ≤ s.stdout.length + readLen + L.recv + L.send := by
  have hs := run_inv h
  have hok := hs.ok
  rw [Ok] at hok
  refine ⟨fun hp => ?_, hs.lines, ⟨s.server.written, ?_, hs.flow⟩, ?_⟩
  · simp only [hp] at hok
  · cases hp : s.server <;> simp only [hp, ServerPc.written] at hok ⊢ <;> omega
  · have hlen := congrArg List.length hs.flow
    have hle := content_le s.conn
    have hheld := hs.held
    rw [List.length_append, List.length_append, List.length_replicate] at hlen
    omega

/-- A small connection. -/
def small : Limits := ⟨4, 4, 1, by decide, by decide, by decide⟩

def exchange : List Event :=
  [.server .select, .server .assert, .copy 3, .client .sleep, .transfer 2, .read 1, .client (.write [dot])]

/-- Room for a whole buffer at the server. -/
def roomy : Limits := ⟨1500, 4, 1, by decide, by decide, by decide⟩

def firstLine : List Event := [.server .select, .server .assert, .copy BUF_LEN, .server (.print BUF_LEN)]

theorem ahead_by_buffers_firstLine : ∃ s, Run (Exec next) (initial roomy (some 2)) firstLine s ∧
    s.stderr = [(1024, 1024)] ∧ BUF_LEN * s.stderr.length ≤ s.stdout.length + readLen + roomy.recv + roomy.send := by
  have hlen : buf.length = 1024 := List.length_replicate
  have hbuf : (buf.drop 0).take BUF_LEN = buf := List.take_of_length_le (Nat.le_of_eq hlen)
  obtain ⟨c, hc⟩ : ∃ c, (Conn.empty roomy UInt8).copy ((buf.drop 0).take BUF_LEN) = some c := by
    rw [hbuf]
    exact ⟨_, dif_pos ⟨List.ne_nil_of_length_pos (by rw [hlen]; decide), by rw [hlen]; decide⟩⟩
  have hcopy : Exec next (⟨.write 0, true, 0, [], .empty roomy UInt8, .sleep, []⟩ : State roomy) (.copy BUF_LEN)
      ⟨.print BUF_LEN, true, 0, [], c, .sleep, []⟩ := by
    rw [Exec, next, copyStep]
    simp only [hc]
    rfl
  have hstart : Run (Exec next) (initial roomy (some 2)) [.server .select, .server .assert]
      ⟨.write 0, true, 0, [], .empty roomy UInt8, .sleep, []⟩ := replay_run rfl
  have hprint : Exec next (⟨.print BUF_LEN, true, 0, [], c, .sleep, []⟩ : State roomy) (.server (.print BUF_LEN))
      ⟨.select, true, (0 + BUF_LEN) % sizeMod, [(BUF_LEN, (0 + BUF_LEN) % sizeMod)], c, .sleep, []⟩ := by
    rw [Exec, next, if_pos rfl, serverStep]
    rfl
  have htotal : (0 + BUF_LEN) % sizeMod = 1024 := by decide
  have hwritten := (hstart.snoc hcopy).snoc hprint
  have hbound := (ahead_by_buffers firstLine _ hwritten).2.2.2
  rw [htotal] at hwritten hbound
  exact ⟨_, hwritten, rfl, hbound⟩

end UnixProg.Select.WriteSelect

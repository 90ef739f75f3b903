import UnixProg.Lib.InputStream
import UnixProg.Lib.Transition

namespace UnixProg.UnixSocket.Conversation

open Lib Transition InputStream

/-- `sizeof (buf)` -/
def bufSize : Nat := 100

/-- `"hello!"` with its zero. -/
def hello : List UInt8 := [104, 101, 108, 108, 111, 33, 0]

/-- `"get out!"` with its zero. -/
def getOut : List UInt8 := [103, 101, 116, 32, 111, 117, 116, 33, 0]

inductive ServerPc
  | fork
  | socket
  | bind
  | listen
  | accept
  | read
  | print
  | write
  | exited (status : Nat)
  | killed
deriving DecidableEq

inductive ClientPc
  | absent
  | socket
  | sleep
  | connect
  | write
  | read
  | print
  | exited (status : Nat)
  | killed
deriving DecidableEq

/-- What a process has got, or nothing where its buffer was never filled. -/
inductive Line
  | server (got : Option (List UInt8))
  | client (got : Option (List UInt8))
  | error
deriving DecidableEq

/-- `accepted` is whether `fd_client` is a descriptor. -/
structure State where
  server : ServerPc
  client : ClientPc
  bound : Bool
  listening : Bool
  connected : Bool
  accepted : Bool
  toServer : Input UInt8
  toClient : Input UInt8
  serverBuf : Option (List UInt8)
  clientBuf : Option (List UInt8)
  lines : List Line
deriving DecidableEq

/-- A statement of the parent, which is the server, and one of the child, and
a `fork()`, `socket()` or `bind()` that fails. -/
inductive Event
  | server (p : ServerPc)
  | client (p : ClientPc)
  | serverFails
  | clientFails
deriving DecidableEq

/-- What a `read()` leaves in a buffer. -/
def got (bs : List UInt8) : Option (List UInt8) := if bs = [] then none else some bs

/-- Only the result of `socket()` is looked at. Where `bind()` has failed, so
do `listen()` and `accept()`, and then the other calls on `fd_client`. -/
def serverStep (s : State) : Option State :=
  match s.server with
  | .fork => some { s with server := .socket, client := .socket }
  | .socket => some { s with server := .bind }
  | .bind => some { s with server := .listen, bound := true }
  | .listen => some { s with server := .accept, listening := s.bound }
  | .accept =>
      if s.listening then if s.connected then some { s with server := .read, accepted := true } else none
      else some { s with server := .read }
  | .read =>
      if s.accepted then
        (s.toServer.readAll bufSize).map (fun r => { s with server := .print, serverBuf := got r.1, toServer := r.2 })
      else some { s with server := .print }
  | .print => some { s with server := .write, lines := s.lines ++ [.server s.serverBuf] }
  | .write =>
      if s.accepted then
        if s.toServer.ended then some { s with server := .killed, listening := false, toClient := s.toClient.close }
        else some { s with server := .exited 0, listening := false, toClient := (s.toClient.put getOut).close }
      else some { s with server := .exited 0, listening := false }
  | .exited _ | .killed => none

/-- Without a connection `write()` and `read()` fail, which nobody looks at. -/
def clientStep (s : State) : Option State :=
  match s.client with
  | .socket => some { s with client := .sleep }
  | .sleep => some { s with client := .connect }
  | .connect => some { s with client := .write, connected := s.listening }
  | .write =>
      if s.connected then
        if s.toClient.ended then some { s with client := .killed, toServer := s.toServer.close }
        else some { s with client := .read, toServer := s.toServer.put hello }
      else some { s with client := .read }
  | .read =>
      if s.connected then
        (s.toClient.readAll bufSize).map (fun r => { s with client := .print, clientBuf := got r.1, toClient := r.2 })
      else some { s with client := .print }
  | .print =>
      some { s with client := .exited 0, lines := s.lines ++ [.client s.clientBuf], toServer := s.toServer.close }
  | .absent | .exited _ | .killed => none

/-- Without a child the parent is a server all the same. -/
def serverFails (s : State) : Option State :=
  match s.server with
  | .fork => some { s with server := .socket }
  | .socket => some { s with server := .exited 1, lines := s.lines ++ [.error] }
  | .bind => some { s with server := .listen }
  | .listen | .accept | .read | .print | .write | .exited _ | .killed => none

def clientFails (s : State) : Option State :=
  if s.client = .socket then some { s with client := .exited 1, lines := s.lines ++ [.error] } else none

def next (s : State) : Event → Option State
  | .server p => if s.server = p then serverStep s else none
  | .client p => if s.client = p then clientStep s else none
  | .serverFails => serverFails s
  | .clientFails => clientFails s

def initial : State := ⟨.fork, .absent, false, false, false, false, .empty, .empty, none, none, []⟩

/-- No `fork()`, `socket()` or `bind()` fails. Of the other calls the model has
the failures that come from how the processes meet, and none for want of
something in the system. -/
def Succeeds (_ : State) (e : Event) : Prop := e ≠ .serverFails ∧ e ≠ .clientFails

instance (s : State) (e : Event) : Decidable (Succeeds s e) := inferInstanceAs (Decidable (_ ∧ _))

/-- The client does not find the server, as that is not listening yet. -/
def Early (es : List Event) : Prop := Precedes (.client .connect) (.server .listen) es

/-- How far the server has come. -/
def ServerPc.stage : ServerPc → Nat
  | .fork => 0
  | .socket => 1
  | .bind => 2
  | .listen => 3
  | .accept => 4
  | .read => 5
  | .print => 6
  | .write => 7
  | .exited _ | .killed => 8

def ClientPc.stage : ClientPc → Nat
  | .absent => 0
  | .socket => 1
  | .sleep => 2
  | .connect => 3
  | .write => 4
  | .read => 5
  | .print => 6
  | .exited _ | .killed => 7

/-- Both processes as long as there is no connection. -/
structure Apart (es : List Event) (s : State) : Prop where
  connected : s.connected = false
  server : s.server.stage ≤ 4
  client : s.client ≠ .killed ∧ ∀ status, s.client = .exited status → status = 0
  start : s.server = .fork ↔ s.client = .absent
  bound : s.bound = decide (3 ≤ s.server.stage)
  listening : s.listening = decide (4 ≤ s.server.stage)
  accepted : s.accepted = false
  toServer (h : s.client.stage ≤ 3) : s.toServer = .empty
  toClient : s.toClient = .empty
  clientBuf : s.clientBuf = none
  early : Early es ↔ 4 ≤ s.client.stage
  lines : s.lines = if s.client = .exited 0 then [.client none] else []

/-- Both processes once they have found each other. -/
def Together (s : State) : Prop :=
  s.connected = true ∧ s.listening = decide (s.server.stage ≤ 7) ∧ s.accepted = decide (5 ≤ s.server.stage) ∧
  match s.server, s.client with
  | .accept, .write | .read, .write => s.toServer = .empty ∧ s.toClient = .empty ∧ s.lines = []
  | .accept, .read | .read, .read => s.toServer = ⟨hello, false⟩ ∧ s.toClient = .empty ∧ s.lines = []
  | .print, .read => s.toServer = .empty ∧ s.toClient = .empty ∧ s.serverBuf = some hello ∧ s.lines = []
  | .write, .read => s.toServer = .empty ∧ s.toClient = .empty ∧ s.lines = [.server (some hello)]
  | .exited status, .read => status = 0 ∧ s.toClient = ⟨getOut, true⟩ ∧ s.lines = [.server (some hello)]
  | .exited status, .print => status = 0 ∧ s.clientBuf = some getOut ∧ s.lines = [.server (some hello)]
  | .exited status, .exited status' =>
      status = 0 ∧ status' = 0 ∧ s.lines = [.server (some hello), .client (some getOut)]
  | _, _ => False

structure Inv (es : List Event) (s : State) : Prop where
  listen : .server .listen ∈ es ↔ 4 ≤ s.server.stage
  connect : .client .connect ∈ es ↔ 4 ≤ s.client.stage
  stage : Apart es s ∨ ¬ Early es ∧ Together s

variable {s s' : State} {e : Event} {es : List Event}

theorem initial_apart : Apart [] initial where
  connected := rfl
  server := Nat.zero_le _
  client := ⟨by simp [initial], by simp [initial]⟩
  start := iff_of_true rfl rfl
  bound := rfl
  listening := rfl
  accepted := rfl
  toServer _ := rfl
  toClient := rfl
  clientBuf := rfl
  early := iff_of_false (not_precedes_nil _ _) (by decide)
  lines := rfl

theorem early_server (es : List Event) (p : ServerPc) : Early (es ++ [.server p]) ↔ Early es := by
  rw [Early, precedes_snoc]
  exact or_iff_left (fun h => by cases h.1)

theorem early_client {p : ClientPc} (hp : p ≠ .connect) (es : List Event) : Early (es ++ [.client p]) ↔ Early es := by
  rw [Early, precedes_snoc]
  exact or_iff_left (fun h => hp (Event.client.inj h.1))

theorem server_apart {p : ServerPc} (hs : Apart es s) (hp : s.server = p) (h : serverStep s = some s') :
    Apart (es ++ [.server p]) s' := by
  have hearly := (early_server es p).trans hs.early
  rw [serverStep, hp] at h
  cases p with
  | fork =>
      cases h
      have hc := hs.start.mp hp
      exact { hs with
        server := by simp [ServerPc.stage]
        client := ⟨by simp, by simp⟩
        start := by simp
        bound := by rw [hs.bound, hp]; rfl
        listening := by rw [hs.listening, hp]; rfl
        toServer := fun _ => hs.toServer (by rw [hc]; decide)
        early := by rw [hearly, hc]; simp [ClientPc.stage]
        lines := by rw [hs.lines, hc]; rfl }
  | socket =>
      cases h
      exact { hs with
        server := by simp [ServerPc.stage]
        start := by simpa [hp] using hs.start
        bound := by rw [hs.bound, hp]; rfl
        listening := by rw [hs.listening, hp]; rfl
        early := hearly }
  | bind =>
      cases h
      exact { hs with
        server := by simp [ServerPc.stage]
        start := by simpa [hp] using hs.start
        bound := rfl
        listening := by rw [hs.listening, hp]; rfl
        early := hearly }
  | listen =>
      cases h
      exact { hs with
        server := by simp [ServerPc.stage]
        start := by simpa [hp] using hs.start
        bound := by rw [hs.bound, hp]; rfl
        listening := by rw [hs.bound, hp]; rfl
        early := hearly }
  | accept =>
      have hlistening : s.listening = true := by rw [hs.listening, hp]; rfl
      simp [hlistening, hs.connected] at h
  | read | print | write | exited | killed =>
      have hstage := hs.server
      rw [hp] at hstage
      simp [ServerPc.stage] at hstage

theorem client_apart {p : ClientPc} (hs : Apart es s) (hlisten : .server .listen ∈ es ↔ 4 ≤ s.server.stage)
    (hp : s.client = p) (h : clientStep s = some s') :
    Apart (es ++ [.client p]) s' ∨ ¬ Early (es ++ [.client p]) ∧ Together s' := by
  rw [clientStep, hp] at h
  have hstart := hs.start
  rw [hp] at hstart
  cases p with
  | absent | exited | killed => cases h
  | socket | sleep =>
      cases h
      exact .inl { hs with
        client := ⟨by simp, by simp⟩
        start := by simpa using hstart
        toServer := fun _ => hs.toServer (by rw [hp]; decide)
        early := by rw [early_client (by simp), hs.early, hp]; simp [ClientPc.stage]
        lines := by rw [hs.lines, hp]; rfl }
  | connect =>
      cases h
      have hearly : ¬ Early es := fun he => absurd (hs.early.mp he) (by rw [hp]; decide)
      by_cases hstage : 4 ≤ s.server.stage
      · -- the server is in its `accept()`
        have haccept : s.server = .accept := by
          have hle := hs.server
          cases hserver : s.server <;> rw [hserver] at hle hstage <;> simp [ServerPc.stage] at hle hstage ⊢
        refine .inr ⟨?_, ?_⟩
        · rw [Early, precedes_snoc_iff hearly]
          exact fun he => he.2 (hlisten.mpr hstage)
        · refine ⟨by simp [hs.listening, hstage], by simp [hs.listening, haccept, ServerPc.stage],
            by simp [hs.accepted, haccept, ServerPc.stage], ?_⟩
          simp only [haccept]
          exact ⟨hs.toServer (by rw [hp]; decide), hs.toClient, by rw [hs.lines, hp]; rfl⟩
      · exact .inl { hs with
          connected := by simp [hs.listening, hstage]
          client := ⟨by simp, by simp⟩
          start := by simpa using hstart
          toServer := fun h => absurd h (by simp [ClientPc.stage])
          early := iff_of_true ((precedes_snoc_iff hearly).mpr ⟨rfl, fun hmem => hstage (hlisten.mp hmem)⟩)
            (by simp [ClientPc.stage])
          lines := by rw [hs.lines, hp]; rfl }
  | write | read =>
      rw [hs.connected] at h
      cases h
      exact .inl { hs with
        connected := rfl
        client := ⟨by simp, by simp⟩
        start := by simpa using hstart
        toServer := fun h => absurd h (by simp [ClientPc.stage])
        early := by rw [early_client (by simp), hs.early, hp]; simp [ClientPc.stage]
        lines := by rw [hs.lines, hp]; rfl }
  | print =>
      cases h
      exact .inl { hs with
        client := ⟨by simp, by simp⟩
        start := by simpa using hstart
        toServer := fun h => absurd h (by simp [ClientPc.stage])
        early := by rw [early_client (by simp), hs.early, hp]; simp [ClientPc.stage]
        lines := by rw [hs.lines, hp, hs.clientBuf]; rfl }

theorem readAll_hello : (⟨hello, false⟩ : Input UInt8).readAll bufSize = some (hello, .empty) :=
  readAll_eq (by simp [hello]) (by simp [hello, bufSize]) false

theorem readAll_getOut : (⟨getOut, true⟩ : Input UInt8).readAll bufSize = some (getOut, ⟨[], true⟩) :=
  readAll_eq (by simp [getOut]) (by simp [getOut, bufSize]) true

theorem readAll_empty : (.empty : Input UInt8).readAll bufSize = none := rfl

theorem server_together (hs : Together s) (h : serverStep s = some s') : Together s' := by
  obtain ⟨hconn, hlistening, haccepted, hst⟩ := hs
  cases hp : s.server with
  | accept =>
      have hl : s.listening = true := by rw [hlistening, hp]; rfl
      rw [serverStep, hp] at h
      simp only [hl, hconn, if_true, Option.some.injEq] at h
      subst h
      cases hc : s.client with
      | write | read =>
          rw [hp, hc] at hst
          exact ⟨rfl, rfl, rfl, by simpa only [hc] using hst⟩
      | absent | socket | sleep | connect | print | exited | killed =>
          rw [hp, hc] at hst
          exact hst.elim
  | read =>
      have ha : s.accepted = true := by rw [haccepted, hp]; rfl
      have hl : s.listening = true := by rw [hlistening, hp]; rfl
      rw [serverStep, hp] at h
      simp only [ha, if_true] at h
      cases hc : s.client with
      | write =>
          rw [hp, hc] at hst
          rw [hst.1, readAll_empty] at h
          cases h
      | read =>
          rw [hp, hc] at hst
          rw [hst.1, readAll_hello] at h
          cases h
          refine ⟨hconn, hl, rfl, ?_⟩
          simp only [hc]
          exact ⟨trivial, hst.2.1, rfl, hst.2.2⟩
      | absent | socket | sleep | connect | print | exited | killed =>
          rw [hp, hc] at hst
          exact hst.elim
  | print =>
      have ha : s.accepted = true := by rw [haccepted, hp]; rfl
      have hl : s.listening = true := by rw [hlistening, hp]; rfl
      rw [serverStep, hp] at h
      cases h
      cases hc : s.client with
      | read =>
          rw [hp, hc] at hst
          obtain ⟨hin, hout, hbuf, hlines⟩ := hst
          exact ⟨hconn, hl, ha, by simpa only [hc] using ⟨hin, hout, by rw [hlines, hbuf]; rfl⟩⟩
      | absent | socket | sleep | connect | write | print | exited | killed =>
          rw [hp, hc] at hst
          exact hst.elim
  | write =>
      have ha : s.accepted = true := by rw [haccepted, hp]; rfl
      rw [serverStep, hp] at h
      cases hc : s.client with
      | read =>
          rw [hp, hc] at hst
          obtain ⟨hin, hout, hlines⟩ := hst
          have hopen : s.toServer.ended = false := by rw [hin]; rfl
          simp only [ha, hopen, if_true, Bool.false_eq_true, if_false, Option.some.injEq] at h
          subst h
          refine ⟨hconn, rfl, rfl, ?_⟩
          simp only [hc]
          exact ⟨trivial, by rw [hout]; rfl, hlines⟩
      | absent | socket | sleep | connect | write | print | exited | killed =>
          rw [hp, hc] at hst
          exact hst.elim
  | exited | killed =>
      rw [serverStep, hp] at h
      cases h
  | fork | socket | bind | listen =>
      rw [hp] at hst
      exact hst.elim

theorem client_together (hs : Together s) (h : clientStep s = some s') : Together s' := by
  obtain ⟨hconn, hlistening, haccepted, hst⟩ := hs
  cases hc : s.client with
  | write =>
      rw [clientStep, hc] at h
      cases hp : s.server with
      | accept | read =>
          rw [hp, hc] at hst
          obtain ⟨hin, hout, hlines⟩ := hst
          have hopen : s.toClient.ended = false := by rw [hout]; rfl
          simp only [hconn, hopen, if_true, Bool.false_eq_true, if_false, Option.some.injEq] at h
          subst h
          refine ⟨rfl, hlistening, haccepted, ?_⟩
          simp only [hp]
          exact ⟨by rw [hin]; rfl, hout, hlines⟩
      | fork | socket | bind | listen | print | write | exited | killed =>
          rw [hp, hc] at hst
          exact hst.elim
  | read =>
      rw [clientStep, hc] at h
      simp only [hconn, if_true] at h
      cases hp : s.server with
      | accept | read | print | write =>
          rw [hp, hc] at hst
          rw [hst.2.1, readAll_empty] at h
          cases h
      | exited status =>
          rw [hp, hc] at hst
          rw [hst.2.1, readAll_getOut] at h
          cases h
          refine ⟨rfl, hlistening, haccepted, ?_⟩
          simp only [hp]
          exact ⟨hst.1, rfl, hst.2.2⟩
      | fork | socket | bind | listen | killed =>
          rw [hp, hc] at hst
          exact hst.elim
  | print =>
      rw [clientStep, hc] at h
      cases h
      cases hp : s.server with
      | exited status =>
          rw [hp] at hlistening haccepted
          rw [hp, hc] at hst
          exact ⟨hconn, hlistening, haccepted, hst.1, rfl, by rw [hst.2.1, hst.2.2]; rfl⟩
      | fork | socket | bind | listen | accept | read | print | write | killed =>
          rw [hp, hc] at hst
          exact hst.elim
  | absent | exited | killed =>
      rw [clientStep, hc] at h
      cases h
  | socket | sleep | connect =>
      cases hp : s.server <;> rw [hp, hc] at hst <;> exact hst.elim

theorem server_stage (h : serverStep s = some s') :
    s'.server.stage = s.server.stage + 1 ∧ (s.server ≠ .fork → s'.client = s.client) := by
  rw [serverStep] at h
  cases hp : s.server with
  | fork =>
      rw [hp] at h
      cases h
      exact ⟨rfl, fun hne => absurd rfl hne⟩
  | socket | bind | listen | print =>
      rw [hp] at h
      cases h
      exact ⟨rfl, fun _ => rfl⟩
  | accept =>
      rw [hp] at h
      simp only at h
      split at h
      · obtain ⟨_, h⟩ := Option.ite_none_right_eq_some.mp h
        cases h
        exact ⟨rfl, fun _ => rfl⟩
      · cases h
        exact ⟨rfl, fun _ => rfl⟩
  | read =>
      rw [hp] at h
      simp only at h
      split at h
      · obtain ⟨r, _, rfl⟩ := Option.map_eq_some_iff.mp h
        exact ⟨rfl, fun _ => rfl⟩
      · cases h
        exact ⟨rfl, fun _ => rfl⟩
  | write =>
      rw [hp] at h
      simp only at h
      split at h
      · split at h <;> cases h <;> exact ⟨rfl, fun _ => rfl⟩
      · cases h
        exact ⟨rfl, fun _ => rfl⟩
  | exited | killed =>
      rw [hp] at h
      cases h

theorem client_stage (h : clientStep s = some s') :
    s.client.stage < s'.client.stage ∧ (4 ≤ s'.client.stage ↔ 3 ≤ s.client.stage) ∧ s'.server = s.server := by
  rw [clientStep] at h
  cases hc : s.client with
  | socket | sleep | connect | print =>
      rw [hc] at h
      cases h
      exact ⟨by simp [ClientPc.stage], by simp [ClientPc.stage], rfl⟩
  | write =>
      rw [hc] at h
      simp only at h
      split at h
      · split at h <;> cases h <;> exact ⟨by simp [ClientPc.stage], by simp [ClientPc.stage], rfl⟩
      · cases h
        exact ⟨by simp [ClientPc.stage], by simp [ClientPc.stage], rfl⟩
  | read =>
      rw [hc] at h
      simp only at h
      split at h
      · obtain ⟨r, _, rfl⟩ := Option.map_eq_some_iff.mp h
        exact ⟨by simp [ClientPc.stage], by simp [ClientPc.stage], rfl⟩
      · cases h
        exact ⟨by simp [ClientPc.stage], by simp [ClientPc.stage], rfl⟩
  | absent | exited | killed =>
      rw [hc] at h
      cases h

theorem next_inv (hs : Inv es s) (h : Guarded (Exec next) Succeeds s e s') : Inv (es ++ [e]) s' := by
  obtain ⟨hok, h⟩ := h
  cases e with
  | server p =>
      obtain ⟨hp, h⟩ := Option.ite_none_right_eq_some.mp h
      obtain ⟨hstage, hclient⟩ := server_stage h
      have hlisten : p = .listen ↔ s.server.stage = 3 := by
        rw [hp]
        cases p <;> simp [ServerPc.stage]
      refine ⟨?_, ?_, ?_⟩
      · rw [List.mem_append, hs.listen, List.mem_singleton, Event.server.injEq, eq_comm, hlisten, hstage]
        omega
      · have hconnect : 4 ≤ s'.client.stage ↔ 4 ≤ s.client.stage := by
          by_cases hf : s.server = .fork
          · obtain hapart | ⟨_, _, _, _, hst⟩ := hs.stage
            · rw [hapart.start.mp hf]
              rw [serverStep, hf] at h
              cases h
              simp [ClientPc.stage]
            · rw [hf] at hst
              exact hst.elim
          · rw [hclient hf]
        rw [hconnect, ← hs.connect, List.mem_append]
        exact or_iff_left (by simp)
      · obtain hapart | ⟨hearly, htogether⟩ := hs.stage
        · exact .inl (server_apart hapart hp h)
        · exact .inr ⟨fun he => hearly ((early_server es p).mp he), server_together htogether h⟩
  | client p =>
      obtain ⟨hp, h⟩ := Option.ite_none_right_eq_some.mp h
      obtain ⟨_, hstage, hserver⟩ := client_stage h
      have hconnect : p = .connect ↔ s.client.stage = 3 := by
        rw [hp]
        cases p <;> simp [ClientPc.stage]
      refine ⟨?_, ?_, ?_⟩
      · rw [hserver, ← hs.listen, List.mem_append]
        exact or_iff_left (by simp)
      · rw [List.mem_append, hs.connect, List.mem_singleton, Event.client.injEq, eq_comm, hconnect, hstage]
        omega
      · obtain hapart | ⟨hearly, htogether⟩ := hs.stage
        · exact client_apart hapart hs.listen hp h
        · refine .inr ⟨fun he => hearly ((early_client ?_ es).mp he), client_together htogether h⟩
          rintro rfl
          obtain ⟨_, _, _, hst⟩ := htogether
          cases hserver : s.server <;> rw [hserver, hp] at hst <;> exact hst.elim
  | serverFails => exact absurd rfl hok.1
  | clientFails => exact absurd rfl hok.2

theorem run_inv (h : Run (Guarded (Exec next) Succeeds) initial es s) : Inv es s :=
  h.invariant (I := Inv) ⟨by decide, by decide, .inl initial_apart⟩ (fun _ _ _ _ _ hs hl => next_inv hs hl)

/-- Both processes have ended, and each has got the message of the other one. -/
def Done (s : State) : Prop :=
  s.server = .exited 0 ∧ s.client = .exited 0 ∧ s.lines = [.server (some hello), .client (some getOut)]

theorem not_done (hs : Apart es s) : ¬ Done s := by
  rintro ⟨hp, _⟩
  have hle := hs.server
  rw [hp] at hle
  exact absurd hle (by simp [ServerPc.stage])

/-- Steps of the client that can be taken. -/
theorem client_goes (hs : Apart es s) (hc : s.client ≠ .absent) (hc' : s.client ≠ .exited 0) :
    ∃ s', Guarded (Exec next) Succeeds s (.client s.client) s' := by
  have hstep : ∃ s', clientStep s = some s' := by
    rw [clientStep]
    cases hp : s.client with
    | absent => exact absurd hp hc
    | socket | sleep | connect | print => exact ⟨_, rfl⟩
    | write | read =>
        rw [hs.connected]
        exact ⟨_, rfl⟩
    | exited status =>
        obtain rfl := hs.client.2 status hp
        exact absurd hp hc'
    | killed => exact absurd hp hs.client.1
  obtain ⟨s', h⟩ := hstep
  exact ⟨s', ⟨by simp, by simp⟩, (if_pos rfl).trans h⟩

/-- What is left of both processes. -/
def State.left (s : State) : Nat := (8 - s.server.stage) + (7 - s.client.stage)

theorem next_left (hs : Inv es s) (h : Guarded (Exec next) Succeeds s e s') : s'.left < s.left := by
  obtain ⟨hok, h⟩ := h
  cases e with
  | server p =>
      obtain ⟨hp, h⟩ := Option.ite_none_right_eq_some.mp h
      obtain ⟨hstage, hclient⟩ := server_stage h
      have hle : s.server.stage ≤ 7 := by
        cases hp : s.server with
        | exited | killed =>
            rw [serverStep, hp] at h
            cases h
        | fork | socket | bind | listen | accept | read | print | write => simp [ServerPc.stage]
      have hsame : s.client.stage ≤ s'.client.stage := by
        by_cases hf : s.server = .fork
        · obtain hapart | ⟨_, _, _, _, hst⟩ := hs.stage
          · rw [hapart.start.mp hf]
            exact Nat.zero_le _
          · rw [hf] at hst
            exact hst.elim
        · exact Nat.le_of_eq (by rw [hclient hf])
      rw [State.left, State.left]
      omega
  | client p =>
      obtain ⟨hp, h⟩ := Option.ite_none_right_eq_some.mp h
      obtain ⟨hstage, _, hserver⟩ := client_stage h
      have hle : s.client.stage ≤ 6 := by
        cases hp : s.client with
        | absent | exited | killed =>
            rw [clientStep, hp] at h
            cases h
        | socket | sleep | connect | write | read | print => simp [ClientPc.stage]
      rw [State.left, State.left, hserver]
      omega
  | serverFails => exact absurd rfl hok.1
  | clientFails => exact absurd rfl hok.2

theorem Inv.apart (hs : Inv es s) (he : Early es) : Apart es s := hs.stage.resolve_right (fun h => h.1 he)

theorem together_goes (hs : Together s) (hnot : ¬ Done s) : ∃ e s', Guarded (Exec next) Succeeds s e s' := by
  obtain ⟨hconn, hlistening, haccepted, hst⟩ := hs
  have hserver {t : State} (h : serverStep s = some t) : ∃ e s', Guarded (Exec next) Succeeds s e s' :=
    ⟨.server s.server, t, ⟨by simp, by simp⟩, (if_pos rfl).trans h⟩
  have hclient {t : State} (h : clientStep s = some t) : ∃ e s', Guarded (Exec next) Succeeds s e s' :=
    ⟨.client s.client, t, ⟨by simp, by simp⟩, (if_pos rfl).trans h⟩
  cases hp : s.server with
  | accept =>
      have hl : s.listening = true := by rw [hlistening, hp]; rfl
      exact hserver (t := { s with server := .read, accepted := true }) (by simp [serverStep, hp, hl, hconn])
  | read =>
      have ha : s.accepted = true := by rw [haccepted, hp]; rfl
      cases hc : s.client with
      | write =>
          rw [hp, hc] at hst
          have hopen : s.toClient.ended = false := by rw [hst.2.1]; rfl
          exact hclient (t := { s with client := .read, toServer := s.toServer.put hello })
            (by simp [clientStep, hc, hconn, hopen])
      | read =>
          rw [hp, hc] at hst
          exact hserver (t := { s with server := .print, serverBuf := got hello, toServer := .empty })
            (by simp [serverStep, hp, ha, hst.1, readAll_hello])
      | absent | socket | sleep | connect | print | exited | killed =>
          rw [hp, hc] at hst
          exact hst.elim
  | print => exact hserver (by rw [serverStep, hp])
  | write =>
      have ha : s.accepted = true := by rw [haccepted, hp]; rfl
      cases hc : s.client with
      | read =>
          rw [hp, hc] at hst
          have hopen : s.toServer.ended = false := by rw [hst.1]; rfl
          exact hserver (t := { s with server := .exited 0, listening := false, toClient := (s.toClient.put getOut).close })
            (by simp [serverStep, hp, ha, hopen])
      | absent | socket | sleep | connect | write | print | exited | killed =>
          rw [hp, hc] at hst
          exact hst.elim
  | exited status =>
      cases hc : s.client with
      | read =>
          rw [hp, hc] at hst
          exact hclient (t := { s with client := .print, clientBuf := got getOut, toClient := ⟨[], true⟩ })
            (by simp [clientStep, hc, hconn, hst.2.1, readAll_getOut])
      | print => exact hclient (by rw [clientStep, hc])
      | exited status' =>
          rw [hp, hc] at hst
          exact absurd ⟨by rw [hp, hst.1], by rw [hc, hst.2.1], hst.2.2⟩ hnot
      | absent | socket | sleep | connect | write | killed =>
          rw [hp, hc] at hst
          exact hst.elim
  | fork | socket | bind | listen | killed =>
      rw [hp] at hst
      exact hst.elim

theorem goes_on (hs : Inv es s) (hlisten : .server .listen ∈ es) (hearly : ¬ Early es) (hnot : ¬ Done s) :
    ∃ e s', Guarded (Exec next) Succeeds s e s' := by
  obtain hapart | ⟨_, htogether⟩ := hs.stage
  · have hserver : s.server ≠ .fork := by
      intro hf
      have hstage := hs.listen.mp hlisten
      rw [hf] at hstage
      exact absurd hstage (by decide)
    have hclient : s.client ≠ .exited 0 := by
      intro hc
      exact hearly (hapart.early.mpr (by rw [hc]; decide))
    obtain ⟨s', h⟩ := client_goes hapart (fun hc => hserver (hapart.start.mpr hc)) hclient
    exact ⟨_, s', h⟩
  · exact together_goes htogether hnot

theorem early_stuck (h : Run (Guarded (Exec next) Succeeds) initial es s) (he : Early es) :
    ¬ Inevitable (Guarded (Exec next) Succeeds) Done s := by
  intro hin
  obtain ⟨t, ⟨es', hr⟩, hdone⟩ := hin.reachable
  exact not_done ((run_inv (h.append hr)).apart (he.append es')) hdone

/-- As long as the server is not listening, the client can come too early. -/
theorem before_listen (h : Run (Guarded (Exec next) Succeeds) initial es s) (hr : .server .listen ∉ es) :
    ¬ Inevitable (Guarded (Exec next) Succeeds) Done s := by
  induction hn : s.left using Nat.strongRecOn generalizing es s with
  | _ n ih =>
      have hs := run_inv h
      by_cases he : Early es
      · exact early_stuck h he
      · have hapart : Apart es s := by
          refine hs.stage.resolve_right (fun htogether => hr (hs.listen.mpr ?_))
          obtain ⟨_, _, _, hst⟩ := htogether.2
          cases hp : s.server with
          | fork | socket | bind | listen =>
              rw [hp] at hst
              exact hst.elim
          | accept | read | print | write | exited | killed => simp [ServerPc.stage]
        have hnext {e : Event} {t : State} (hl : Guarded (Exec next) Succeeds s e t) (hne : e ≠ .server .listen) :
            ¬ Inevitable (Guarded (Exec next) Succeeds) Done s := by
          intro hin
          have hr' : .server .listen ∉ es ++ [e] := by simpa [hr] using hne.symm
          exact ih _ (hn ▸ next_left hs hl) (h.snoc hl) hr' rfl (hin.next (not_done hapart) hl)
        by_cases hc : s.client = .absent
        · have hf := hapart.start.mpr hc
          exact hnext ⟨⟨by simp, by simp⟩, show next s (.server .fork) = _ by rw [next, if_pos hf, serverStep, hf]⟩ (by simp)
        · have hc' : s.client ≠ .exited 0 := by
            intro hc'
            exact he (hapart.early.mpr (by rw [hc']; decide))
          obtain ⟨t, hl⟩ := client_goes hapart hc hc'
          exact hnext hl (by simp)

/-- The client has come too early and has ended, and the server waits. -/
def Missed (s : State) : Prop := s.client = .exited 0 ∧ s.lines = [.client none] ∧ s.server.stage ≤ 4

/-- A client that has come too early does not wait for anybody. -/
theorem client_ends (h : Run (Guarded (Exec next) Succeeds) initial es s) (he : Early es) :
    Inevitable (Guarded (Exec next) Succeeds) Missed s := by
  refine inevitable_of_rank (I := fun t => ∃ es, Run (Guarded (Exec next) Succeeds) initial es t ∧ Early es) State.left ?_
    ⟨es, h, he⟩
  rintro t ⟨es', hr, he⟩ hnot
  have hs := run_inv hr
  have hapart := hs.apart he
  refine ⟨?_, fun e t' hl => ⟨⟨es' ++ [e], hr.snoc hl, he.append [e]⟩, next_left hs hl⟩⟩
  have hclient : t.client ≠ .exited 0 := by
    intro hc
    exact hnot ⟨hc, hapart.lines.trans (if_pos hc), hapart.server⟩
  have hpresent : t.client ≠ .absent := by
    intro hc
    have hstage := hapart.early.mp he
    rw [hc] at hstage
    exact absurd hstage (by decide)
  obtain ⟨t', hl⟩ := client_goes hapart hpresent hclient
  exact ⟨_, t', hl⟩

/-- The conversation is certain to take place just when the server was
listening before the client has tried to connect. The `sleep()` of the client
makes this likely but no more: where the client was faster it is certain to
print a buffer that nothing was stored in and to end, and the server waits for
another client for ever. -/
theorem served_iff_listening (es : List Event) (s : State) (h : Run (Guarded (Exec next) Succeeds) initial es s) :
    (Inevitable (Guarded (Exec next) Succeeds) Done s ↔ .server .listen ∈ es ∧ ¬ Early es) ∧
    (Early es → Inevitable (Guarded (Exec next) Succeeds) Missed s ∧
      ∀ es' t, Run (Guarded (Exec next) Succeeds) s es' t →
        t.server.stage ≤ 4 ∧ t.lines = if t.client = .exited 0 then [.client none] else []) := by
  refine ⟨⟨fun hin => ⟨?_, fun he => early_stuck h he hin⟩, fun hok => ?_⟩, fun he => ⟨client_ends h he, ?_⟩⟩
  · by_contra hr
    exact before_listen h hr hin
  · refine inevitable_of_rank (I := fun t => ∃ es, Inv es t ∧ .server .listen ∈ es ∧ ¬ Early es) State.left ?_
      ⟨es, run_inv h, hok⟩
    rintro t ⟨es', hs, hlisten, hearly⟩ hnot
    refine ⟨goes_on hs hlisten hearly hnot, fun e t' hl => ⟨⟨es' ++ [e], next_inv hs hl, ?_, ?_⟩, next_left hs hl⟩⟩
    · exact List.mem_append_left _ hlisten
    · rw [Early, precedes_snoc_iff hearly]
      exact fun he => he.2 hlisten
  · intro es' t hr
    have hapart := (run_inv (h.append hr)).apart (he.append es')
    exact ⟨hapart.server, hapart.lines⟩

/-- The child does not sleep long enough. -/
def tooEarly : List Event :=
  [.server .fork, .client .socket, .client .sleep, .server .socket, .server .bind, .client .connect, .server .listen,
    .client .write, .client .read, .client .print]

theorem served_iff_listening_tooEarly : ∃ s, Run (Guarded (Exec next) Succeeds) initial tooEarly s ∧
    s.lines = [.client none] ∧ ¬ Inevitable (Guarded (Exec next) Succeeds) Done s := by
  obtain ⟨s, hs, hlines⟩ : ∃ s, replay (guardedNext Succeeds next) initial tooEarly = some s ∧ s.lines = [.client none] :=
    ⟨_, rfl, rfl⟩
  refine ⟨s, replay_guarded hs, hlines, fun hin => ?_⟩
  refine ((served_iff_listening tooEarly s (replay_guarded hs)).1.mp hin).2 ?_
  exact ⟨[.server .fork, .client .socket, .client .sleep, .server .socket, .server .bind],
    [.server .listen, .client .write, .client .read, .client .print], rfl, by decide⟩

end UnixProg.UnixSocket.Conversation

import UnixProg.Lib.Stream
import UnixProg.Udp.ClientServer
import Mathlib.Data.List.TakeWhile

namespace UnixProg.Udp.UdpServer

open Lib Transition Stream

/-- The address and the port of whoever has sent a datagram. -/
structure Sender where
  addr : BitVec 32
  port : BitVec 16
deriving DecidableEq

structure Datagram where
  payload : List UInt8
  sender : Sender
  le : payload.length ≤ ClientServer.Server.bufLen

/-- A datagram, or the -1 of a `recvfrom()` that fails. -/
inductive Recvfrom
  | datagram (d : Datagram)
  | error

inductive Status
  | waiting
  | exited (code : Nat)
deriving DecidableEq

/-- The buffer, what was written to the standard output, and the debug lines
with the number of bytes and their sender. -/
structure State where
  buf : List UInt8
  stdout : List UInt8
  stderr : List (Nat × Sender)
  status : Status

def State.receive (s : State) (d : Datagram) : State := { s with buf := fill s.buf d.payload }

/-- The body of the loop. -/
def State.put (s : State) (n : Nat) (sender : Sender) : State :=
  { s with stderr := s.stderr ++ [(n, sender)], stdout := s.stdout ++ s.buf.take n }

/-- The loop over what `recvfrom()` returns one time after the other. -/
def serve : List Recvfrom → State → State
  | [], s => { s with status := .waiting }
  | .datagram d :: rs, s =>
      let s := s.receive d
      if 0 < d.payload.length then serve rs (s.put d.payload.length d.sender) else { s with status := .exited 0 }
  | .error :: _, s => { s with status := .exited 1 }

def initial (buf : List UInt8) : State := ⟨buf, [], [], .waiting⟩

/-- All the payloads are written, and the server waits for the next one. -/
structure KeepsServing (ds : List Datagram) (s : State) : Prop where
  stdout : s.stdout = ds.flatMap Datagram.payload
  status : s.status = .waiting

variable {ds : List Datagram} {s : State}

/-- The datagrams in front of the first empty one. -/
def served (ds : List Datagram) : List Datagram := ds.takeWhile (fun d => decide (0 < d.payload.length))

theorem put_stdout (s : State) (d : Datagram) :
    ((s.receive d).put d.payload.length d.sender).stdout = s.stdout ++ d.payload :=
  congrArg (s.stdout ++ ·) (fill_take s.buf d.payload)

theorem serve_full {rs : List Recvfrom} {d : Datagram} (hd : 0 < d.payload.length) :
    serve (.datagram d :: rs) s = serve rs ((s.receive d).put d.payload.length d.sender) := if_pos hd

theorem serve_empty {rs : List Recvfrom} {d : Datagram} (hd : ¬ 0 < d.payload.length) :
    serve (.datagram d :: rs) s = { s.receive d with status := .exited 0 } := if_neg hd

theorem serve_stdout (ds : List Datagram) (s : State) :
    (serve (ds.map .datagram) s).stdout = s.stdout ++ (served ds).flatMap Datagram.payload := by
  induction ds generalizing s with
  | nil => simp [serve, served]
  | cons d ds ih =>
      by_cases hd : 0 < d.payload.length
      · rw [List.map_cons, serve_full hd, ih, put_stdout]
        simp [served, hd]
      · rw [List.map_cons, serve_empty hd]
        simp [served, hd, State.receive]

theorem serve_stderr (ds : List Datagram) (s : State) : (serve (ds.map .datagram) s).stderr =
    s.stderr ++ (served ds).map (fun d => (d.payload.length, d.sender)) := by
  induction ds generalizing s with
  | nil => simp [serve, served]
  | cons d ds ih =>
      by_cases hd : 0 < d.payload.length
      · rw [List.map_cons, serve_full hd, ih]
        simp [served, hd, State.put, State.receive]
      · rw [List.map_cons, serve_empty hd]
        simp [served, hd, State.receive]

theorem serve_waiting_iff (ds : List Datagram) (s : State) :
    (serve (ds.map .datagram) s).status = .waiting ↔ ∀ d ∈ ds, 0 < d.payload.length := by
  induction ds generalizing s with
  | nil => simp [serve]
  | cons d ds ih =>
      rw [List.map_cons, List.forall_mem_cons]
      by_cases hd : 0 < d.payload.length
      · rw [serve_full hd, ih, and_iff_right hd]
      · rw [serve_empty hd]
        exact iff_of_false (by simp) (fun h => hd h.1)

/-- An empty datagram ends the server, and nothing else does. -/
theorem keepsServing_iff (buf : List UInt8) (ds : List Datagram) :
    KeepsServing ds (serve (ds.map .datagram) (initial buf)) ↔ ∀ d ∈ ds, d.payload ≠ [] := by
  have hwaiting := serve_waiting_iff ds (initial buf)
  simp only [List.length_pos_iff] at hwaiting
  constructor
  · exact fun h => hwaiting.mp h.status
  · intro hall
    refine ⟨?_, hwaiting.mpr hall⟩
    have hserved : served ds = ds := by
      rw [served, List.takeWhile_eq_self_iff]
      exact fun d hd => decide_eq_true (List.length_pos_iff.mpr (hall d hd))
    rw [serve_stdout, hserved]
    exact List.nil_append _

/-- An empty datagram and a message behind it. -/
def emptyFirst : List Datagram := [⟨[], ⟨0x7f000001, 4000⟩, by decide⟩, ⟨[104, 105], ⟨0x7f000001, 4001⟩, by decide⟩]

theorem empty_datagram : (serve (emptyFirst.map .datagram) (initial [])).status = .exited 0 ∧
    (serve (emptyFirst.map .datagram) (initial [])).stdout = [] ∧ emptyFirst.flatMap Datagram.payload = [104, 105] := by
  decide

theorem server_receives {t : ClientServer.State} {d : Datagram} {rest : List (List UInt8)} (hnet : t.net = d.payload :: rest)
    (hw : t.writing = none) (hopen : t.serverClosed = false) : ClientServer.next t .server =
      some (if d.payload.length = 0 then { t with net := rest, serverBuf := fill t.serverBuf d.payload, serverClosed := true }
        else { t with net := rest, serverBuf := fill t.serverBuf d.payload, writing := some d.payload.length }) := by
  have hcut : d.payload.take ClientServer.Server.bufLen = d.payload := List.take_of_length_le d.le
  simp only [ClientServer.next, ClientServer.serverStep, hopen, hw, hnet, hcut]
  rfl

theorem server_writes {t : ClientServer.State} {n : Nat} (hw : t.writing = some n) (hopen : t.serverClosed = false) :
    ClientServer.next t .server = some { t with stdout := t.stdout ++ t.serverBuf.take n, writing := none } := by
  simp only [ClientServer.next, ClientServer.serverStep, hopen, hw]
  rfl

/-- One step for the `recvfrom()` and one for the `write()`. -/
theorem server_takes {t : ClientServer.State} {d : Datagram} {rest : List (List UInt8)} (hd : 0 < d.payload.length)
    (hnet : t.net = d.payload :: rest) (hw : t.writing = none) (hopen : t.serverClosed = false) :
    ∃ u, Run (Exec ClientServer.next) t [.server, .server] u ∧ u.stdout = t.stdout ++ d.payload ∧ u.net = rest ∧
      u.writing = none ∧ u.serverClosed = false := by
  have hrecv := server_receives hnet hw hopen
  rw [if_neg (Nat.ne_of_gt hd)] at hrecv
  have hread : Run (Exec ClientServer.next) t [.server]
      { t with net := rest, serverBuf := fill t.serverBuf d.payload, writing := some d.payload.length } := .single hrecv
  exact ⟨_, hread.snoc (server_writes rfl (by exact hopen)), congrArg (t.stdout ++ ·) (fill_take _ _), rfl, rfl, hopen⟩

/-- The server with a client at its other end takes the same datagrams in the
same way. -/
theorem server_serves (ds : List Datagram) (t : ClientServer.State) (s : State) (hout : t.stdout = s.stdout)
    (hnet : t.net = ds.map Datagram.payload) (hw : t.writing = none) (hopen : t.serverClosed = false) :
    ∃ es u, (∀ e ∈ es, e = .server) ∧ Run (Exec ClientServer.next) t es u ∧
      u.stdout = (serve (ds.map .datagram) s).stdout ∧
      (u.serverClosed = false ↔ (serve (ds.map .datagram) s).status = .waiting) := by
  induction ds generalizing t s with
  | nil => exact ⟨[], t, by simp, .nil, by simpa [serve] using hout, by simp [serve, hopen]⟩
  | cons d ds ih =>
      rw [List.map_cons]
      by_cases hd : 0 < d.payload.length
      · obtain ⟨v, hboth, hout', hnet', hw', hopen'⟩ := server_takes hd hnet hw hopen
        have hput := put_stdout s d
        obtain ⟨es, u, hes, hrun, hu⟩ := ih v _ (by rw [hout', hput, hout]) hnet' hw' hopen'
        rw [serve_full hd]
        exact ⟨_, u, by simpa using hes, hboth.append hrun, hu⟩
      · have hrecv := server_receives hnet hw hopen
        rw [if_pos (Nat.eq_zero_of_not_pos hd)] at hrecv
        rw [serve_empty hd]
        exact ⟨[.server], _, by simp, .single hrecv, hout, by simp⟩

end UnixProg.Udp.UdpServer

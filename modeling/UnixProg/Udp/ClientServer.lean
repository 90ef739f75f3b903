import UnixProg.Lib.Stream
import UnixProg.Lib.Transition

namespace UnixProg.Udp.ClientServer

open Lib Transition Stream

def Client.bufLen : Nat := 8192

def Server.bufLen : Nat := 1024

/-- Client and server with the datagrams between them. `sending` and `writing`
are the `n` of the loop bodies, and missing at the heads of the loops. -/
structure State where
  stdin : List (Chunk Client.bufLen)
  clientBuf : List UInt8
  sending : Option Nat
  clientClosed : Bool
  net : List (List UInt8)
  serverBuf : List UInt8
  writing : Option Nat
  serverClosed : Bool
  stdout : List UInt8

inductive Event
  | client
  | server

/-- `read()` with 0 at the end of the input, and `sendto()`. -/
def clientStep (s : State) : Option State :=
  if s.clientClosed then none
  else match s.sending with
    | some n => some { s with net := s.net ++ [s.clientBuf.take n], sending := none }
    | none => match s.stdin with
      | c :: rest => some { s with stdin := rest, clientBuf := fill s.clientBuf c.bytes, sending := some c.bytes.length }
      | [] => some { s with clientClosed := true }

/-- `recvfrom()` drops what does not fit, and ends the loop on an empty datagram. -/
def serverStep (s : State) : Option State :=
  if s.serverClosed then none
  else match s.writing with
    | some n => some { s with stdout := s.stdout ++ s.serverBuf.take n, writing := none }
    | none => match s.net with
      | d :: rest =>
          let data := d.take Server.bufLen
          let t := { s with net := rest, serverBuf := fill s.serverBuf data }
          some (if data.length = 0 then { t with serverClosed := true } else { t with writing := some data.length })
      | [] => none

def next (s : State) : Event → Option State
  | .client => clientStep s
  | .server => serverStep s

/-- Both arrays are on the stack and hold what was there before. -/
def initial (clientBuf serverBuf : List UInt8) (chunks : List (Chunk Client.bufLen)) : State :=
  ⟨chunks, clientBuf, none, false, [], serverBuf, none, false, []⟩

/-- The bytes that the client reads. -/
def bytes (chunks : List (Chunk Client.bufLen)) : List UInt8 := chunks.flatMap Chunk.bytes

/-- Everything was read, sent, received and written. -/
structure Drained (s : State) : Prop where
  stdin : s.stdin = []
  sending : s.sending = none
  net : s.net = []
  writing : s.writing = none

/-- What the server takes of a datagram. -/
def cut (d : List UInt8) : List UInt8 := d.take Server.bufLen

def State.toSend (s : State) : List UInt8 := (s.sending.map s.clientBuf.take).getD []

def State.toWrite (s : State) : List UInt8 := (s.writing.map s.serverBuf.take).getD []

/-- What the server has written or is going to write. -/
def State.total (s : State) : List UInt8 :=
  s.stdout ++ s.toWrite ++ s.net.flatMap cut ++ cut s.toSend ++ s.stdin.flatMap (fun c => cut c.bytes)

structure Inv (chunks : List (Chunk Client.bufLen)) (s : State) : Prop where
  total : s.total = chunks.flatMap (fun c => cut c.bytes)
  sent (d) (h : d ∈ s.net) : d ≠ []
  toSend (h : s.sending ≠ none) : s.toSend ≠ []
  closed (h : s.clientClosed = true) : s.stdin = [] ∧ s.sending = none
  listening : s.serverClosed = false

variable {s s' : State} {e : Event} {chunks : List (Chunk Client.bufLen)} {clientBuf serverBuf : List UInt8}

theorem cut_ne_nil {d : List UInt8} (h : d ≠ []) : cut d ≠ [] := by
  simp [cut, List.take_eq_nil_iff, h, Server.bufLen]

theorem cut_eq_iff (d : List UInt8) : cut d = d ↔ d.length ≤ Server.bufLen := List.take_eq_self_iff d

theorem client_inv (hs : Inv chunks s) (h : clientStep s = some s') : Inv chunks s' := by
  obtain ⟨htotal, hsent, hsend, _, hlisten⟩ := hs
  simp only [clientStep, Option.ite_none_left_eq_some] at h
  obtain ⟨hopen, h⟩ := h
  cases hn : s.sending with
  | some n =>
      have heq : s.toSend = s.clientBuf.take n := by simp [State.toSend, hn]
      simp only [hn, Option.some.injEq] at h
      subst h
      refine ⟨?_, fun d hd => ?_, fun h => absurd rfl h, fun h => absurd h hopen, hlisten⟩
      · rw [← htotal]
        simp [State.total, State.toWrite, State.toSend, hn, cut]
      · rcases List.mem_append.mp hd with hd | hd
        · exact hsent d hd
        · rw [List.mem_singleton.mp hd, ← heq]
          exact hsend (by simp [hn])
  | none =>
      simp only [hn] at h
      cases hin : s.stdin with
      | nil =>
          simp only [hin, Option.some.injEq] at h
          subst h
          refine ⟨?_, hsent, fun h => absurd rfl h, fun _ => ⟨rfl, rfl⟩, hlisten⟩
          rw [← htotal]
          simp [State.total, State.toWrite, State.toSend, hn, hin]
      | cons c rest =>
          simp only [hin, Option.some.injEq] at h
          subst h
          have hc := fill_take s.clientBuf c.bytes
          refine ⟨?_, hsent, fun _ => ?_, fun h => absurd h hopen, hlisten⟩
          · rw [← htotal]
            simp [State.total, State.toWrite, State.toSend, hn, hin, hc, cut]
          · simpa [State.toSend, hc] using c.ne_nil

theorem server_inv (hs : Inv chunks s) (h : serverStep s = some s') : Inv chunks s' := by
  obtain ⟨htotal, hsent, hsend, hclosed, hlisten⟩ := hs
  simp only [serverStep, Option.ite_none_left_eq_some] at h
  obtain ⟨_, h⟩ := h
  cases hn : s.writing with
  | some n =>
      simp only [hn, Option.some.injEq] at h
      subst h
      refine ⟨?_, hsent, hsend, hclosed, hlisten⟩
      rw [← htotal]
      simp [State.total, State.toWrite, State.toSend, hn]
  | none =>
      simp only [hn] at h
      cases hnet : s.net with
      | nil => simp [hnet] at h
      | cons d rest =>
          have hd : cut d ≠ [] := cut_ne_nil (hsent d (by simp [hnet]))
          have hlen : ¬ (d.take Server.bufLen).length = 0 := fun h => hd (List.length_eq_zero_iff.mp h)
          simp only [hnet, if_neg hlen, Option.some.injEq] at h
          subst h
          refine ⟨?_, fun x hx => hsent x (by simp [hnet, hx]), hsend, hclosed, hlisten⟩
          rw [← htotal]
          simp only [State.total, State.toWrite, Option.map_some, Option.getD_some, fill_take, hnet, hn]
          simp [State.toSend, cut]

theorem next_inv (hs : Inv chunks s) (h : next s e = some s') : Inv chunks s' := by
  cases e with
  | client => exact client_inv hs h
  | server => exact server_inv hs h

theorem initial_inv (clientBuf serverBuf : List UInt8) (chunks : List (Chunk Client.bufLen)) :
    Inv chunks (initial clientBuf serverBuf chunks) := by
  refine ⟨?_, fun d hd => ?_, fun h => absurd rfl h, fun h => absurd h Bool.false_ne_true, rfl⟩
  · simp [State.total, State.toWrite, State.toSend, initial, cut]
  · cases hd

theorem Drained.stdout (hd : Drained s) (hs : Inv chunks s) : s.stdout = chunks.flatMap (fun c => cut c.bytes) := by
  rw [← hs.total]
  simp [State.total, State.toWrite, State.toSend, hd.stdin, hd.sending, hd.net, hd.writing, cut]

theorem cut_length_le (d : List UInt8) : (cut d).length ≤ d.length := List.length_take_le' ..

theorem flatMap_cut_length_le (chunks : List (Chunk Client.bufLen)) :
    (chunks.flatMap (fun c => cut c.bytes)).length ≤ (bytes chunks).length := by
  induction chunks with
  | nil => exact Nat.le_refl _
  | cons c cs ih =>
      have hc := cut_length_le c.bytes
      simp only [bytes, List.flatMap_cons, List.length_append] at ih ⊢
      omega

/-- Nothing is lost in total just when nothing is lost of any chunk. -/
theorem cut_bytes_iff (chunks : List (Chunk Client.bufLen)) :
    chunks.flatMap (fun c => cut c.bytes) = bytes chunks ↔ ∀ c ∈ chunks, c.bytes.length ≤ Server.bufLen := by
  induction chunks with
  | nil => simp [bytes]
  | cons c cs ih =>
      have hcons : bytes (c :: cs) = c.bytes ++ bytes cs := List.flatMap_cons
      rw [hcons, List.flatMap_cons, List.forall_mem_cons, ← ih, ← cut_eq_iff]
      constructor
      · intro h
        have hc := cut_length_le c.bytes
        have hcs := flatMap_cut_length_le cs
        have hlen := congrArg List.length h
        rw [List.length_append, List.length_append] at hlen
        exact List.append_inj h (by omega)
      · rintro ⟨hc, hcs⟩
        rw [hc, hcs]

/-- The calls that are still to come. -/
def State.rank (s : State) : Nat :=
  4 * s.stdin.length + 3 * s.sending.toList.length + 2 * s.net.length + s.writing.toList.length + (!s.clientClosed).toNat

theorem next_rank (h : next s e = some s') : s'.rank < s.rank := by
  cases e with
  | client =>
      simp only [next, clientStep, Option.ite_none_left_eq_some] at h
      obtain ⟨hopen, h⟩ := h
      cases hn : s.sending <;> simp only [hn] at h
      · cases hin : s.stdin <;> simp only [hin, Option.some.injEq] at h <;> subst h
        · simp [State.rank, hopen, hn, hin]
        · simp [State.rank, hn, hin]
          omega
      · cases h
        simp [State.rank, hn]
        omega
  | server =>
      simp only [next, serverStep, Option.ite_none_left_eq_some] at h
      obtain ⟨_, h⟩ := h
      cases hn : s.writing <;> simp only [hn] at h
      · cases hnet : s.net with
        | nil => simp [hnet] at h
        | cons d rest =>
            simp only [hnet, Option.some.injEq] at h
            subst h
            split
            · simp [State.rank, hn, hnet]
            · simp [State.rank, hn, hnet]
              omega
      · cases h
        simp [State.rank, hn]

theorem exists_next (hs : Inv chunks s) (hd : ¬ Drained s) : ∃ e s', next s e = some s' := by
  cases hw : s.writing with
  | some n => exact ⟨.server, _, by simp [next, serverStep, hs.listening, hw]; rfl⟩
  | none =>
      cases hnet : s.net with
      | cons d rest => exact ⟨.server, _, by simp [next, serverStep, hs.listening, hw, hnet]; rfl⟩
      | nil =>
          have hopen : ¬ s.clientClosed = true := by
            intro hclosed
            obtain ⟨hin, hsend⟩ := hs.closed hclosed
            exact hd ⟨hin, hsend, hnet, hw⟩
          cases hn : s.sending with
          | some n => exact ⟨.client, _, by simp [next, clientStep, hopen, hn]; rfl⟩
          | none =>
              cases hin : s.stdin with
              | nil => exact absurd ⟨hin, hn, hnet, hw⟩ hd
              | cons c rest => exact ⟨.client, _, by simp [next, clientStep, hopen, hn, hin]; rfl⟩

/-- Whatever the order in which the two go on, the server writes what is left
of the datagrams. -/
theorem written (clientBuf serverBuf : List UInt8) (chunks : List (Chunk Client.bufLen)) :
    Inevitable (Exec next) (fun s => Drained s ∧ s.stdout = chunks.flatMap (fun c => cut c.bytes))
      (initial clientBuf serverBuf chunks) := by
  apply inevitable_of_rank (I := Inv chunks) State.rank
  · intro s hs hnot
    obtain ⟨e, s', hl⟩ := exists_next hs (fun hd => hnot ⟨hd, hd.stdout hs⟩)
    exact ⟨⟨e, s', hl⟩, fun e t hl => ⟨next_inv hs hl, next_rank hl⟩⟩
  · exact initial_inv ..

/-- The server writes what the client reads just when no datagram is longer
than the buffer of the server. -/
theorem all_bytes_iff (clientBuf serverBuf : List UInt8) (chunks : List (Chunk Client.bufLen)) :
    Inevitable (Exec next) (fun s => Drained s ∧ s.stdout = bytes chunks) (initial clientBuf serverBuf chunks) ↔
      ∀ c ∈ chunks, c.bytes.length ≤ Server.bufLen := by
  rw [← cut_bytes_iff]
  constructor
  · intro h
    obtain ⟨s, hr, hd, hout⟩ := h.reachable
    have hs : Inv chunks s := hr.invariant (initial_inv ..) (fun _ _ _ hs hl => next_inv hs hl)
    rw [← hout, hd.stdout hs]
  · intro h
    rw [← h]
    exact written ..

/-- One byte more than the server takes. -/
def long : Chunk Client.bufLen where
  bytes := List.replicate 1025 0
  pos := by rw [List.length_replicate]; decide
  le := by rw [List.length_replicate]; decide

theorem long_cut_short : ∃ s, Reachable (Exec next) (initial [] [] [long]) s ∧ Drained s ∧
    s.stdout = List.replicate 1024 0 ∧ bytes [long] = List.replicate 1025 0 := by
  obtain ⟨s, hr, hd, hout⟩ := (written [] [] [long]).reachable
  have hbytes : bytes [long] = long.bytes := List.flatMap_singleton ..
  refine ⟨s, hr, hd, ?_, hbytes⟩
  rw [hout, List.flatMap_singleton, cut, long, List.take_replicate]
  rfl

end UnixProg.Udp.ClientServer

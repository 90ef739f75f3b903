import UnixProg.Lib.Stream
import UnixProg.Lib.Transition

namespace UnixProg.Select.BusyWait

open Lib Transition Stream

def bufLen : Nat := 100

inductive Pc
  | read
  | write
  | accept
  | readSock
  | writeSock
  | close
  | sleep
  | exited (status : Nat)
deriving DecidableEq

inductive Message
  | accepted
  | closed
deriving DecidableEq

/-- `n` is the number of bytes of the last `read()` that got any, `input` and
`output` are all the bytes that were read and written. -/
structure State where
  pc : Pc
  buf : List UInt8
  n : Nat
  input : List UInt8
  output : List UInt8
  messages : List Message

/-- What the system call returns at which main is. -/
inductive Event
  | read (r : Read bufLen)
  | write (r : Write)
  | accept (r : Option Errno)
  | close
  | wake

def State.goto (s : State) (p : Pc) : State := { s with pc := p }

def State.store (s : State) (c : Chunk bufLen) (p : Pc) : State :=
  { s with buf := fill s.buf c.bytes, n := c.bytes.length, input := s.input ++ c.bytes, pc := p }

/-- Nobody looks at what the `write()` returns. -/
def State.put (s : State) (r : Write) (p : Pc) : State := { s with output := s.output ++ r.taken (s.buf.take s.n), pc := p }

def State.say (s : State) (m : Message) (p : Pc) : State := { s with messages := s.messages ++ [m], pc := p }

def main (s : State) : Pc → Event → Option State
  | .read, .read (.data c) => some (s.store c .write)
  | .read, .read .eof => some (s.goto (.exited 0))
  | .read, .read (.error errno) => some (s.goto (if errno ≠ .wouldBlock then .exited 1 else .accept))
  | .write, .write r => some (s.put r .accept)
  | .accept, .accept (some errno) => some (s.goto (if errno ≠ .wouldBlock then .exited 1 else .sleep))
  | .accept, .accept none => some (s.say .accepted .readSock)
  | .readSock, .read (.data c) => some (s.store c .writeSock)
  | .readSock, .read .eof => some (s.goto .close)
  | .readSock, .read (.error _) => some (s.goto (.exited 1))
  | .writeSock, .write r => some (s.put r .readSock)
  | .close, .close => some (s.say .closed .sleep)
  | .sleep, .wake => some (s.goto .read)
  | _, _ => none

/-- A `write()` takes no more than it is given. -/
def Possible (s : State) : Event → Prop
  | .write (.wrote k) => k ≤ s.n
  | _ => True

instance (s : State) : ∀ e, Decidable (Possible s e)
  | .write (.wrote k) => inferInstanceAs (Decidable (k ≤ s.n))
  | .write (.error _) | .read _ | .accept _ | .close | .wake => inferInstanceAs (Decidable True)

def next (s : State) (e : Event) : Option State := if Possible s e then main s s.pc e else none

/-- The buffer is on the stack and holds what was there before. -/
def initial (buf : List UInt8) : State := ⟨.read, buf, 0, [], [], []⟩

/-- What has been read and is still to be written. -/
def State.pending (s : State) : List UInt8 := if s.pc = .write ∨ s.pc = .writeSock then s.buf.take s.n else []

/-- All the bytes that were read are written, in the order in which they were read. -/
def Forwarded (s : State) : Prop := s.output ++ s.pending = s.input

/-- Everything is written that is given to a `write()`. -/
def Full (s : State) : Event → Prop
  | .write r => r = .wrote s.n
  | .read _ | .accept _ | .close | .wake => True

instance (s : State) : ∀ e, Decidable (Full s e)
  | .write r => inferInstanceAs (Decidable (r = .wrote s.n))
  | .read _ | .accept _ | .close | .wake => inferInstanceAs (Decidable True)

variable {s s' : State} {e : Event} {es : List Event} {buf : List UInt8}

/-- What a step does to the bytes: a read into the buffer, a write from it, or nothing. -/
inductive Does (s : State) : Event → State → Prop
  | store (c : Chunk bufLen) (p : Pc) (hp : s.pc = .read ∨ s.pc = .readSock) (hp' : p = .write ∨ p = .writeSock) :
      Does s (.read (.data c)) (s.store c p)
  | put (r : Write) (p : Pc) (hp : s.pc = .write ∨ s.pc = .writeSock) (hp' : p ≠ .write ∧ p ≠ .writeSock)
      (hle : ∀ k, r = .wrote k → k ≤ s.n) : Does s (.write r) (s.put r p)
  | quiet (e : Event) (t : State) (hp : s.pc ≠ .write ∧ s.pc ≠ .writeSock) (hp' : t.pc ≠ .write ∧ t.pc ≠ .writeSock)
      (he : Full s e) (hbuf : t.buf = s.buf) (hn : t.n = s.n) (hin : t.input = s.input) (hout : t.output = s.output) :
      Does s e t

theorem State.does_goto {p : Pc} (hp : s.pc ≠ .write ∧ s.pc ≠ .writeSock) (hp' : p ≠ .write ∧ p ≠ .writeSock)
    (he : Full s e) : Does s e (s.goto p) := .quiet e _ hp hp' he rfl rfl rfl rfl

theorem main_does {p : Pc} (hp : s.pc = p) (hposs : Possible s e) (h : main s p e = some s') : Does s e s' := by
  cases p with
  | read =>
      cases e with
      | read r =>
          cases r with
          | data c => cases h; exact .store c _ (.inl hp) (.inl rfl)
          | eof => cases h; exact State.does_goto (by simp [hp]) (by simp) trivial
          | error errno => cases h; exact State.does_goto (by simp [hp]) (by split <;> simp) trivial
      | write | accept | close | wake => cases h
  | write =>
      cases e with
      | write r => cases h; exact .put r _ (.inl hp) (by simp) (fun k hk => by subst hk; exact hposs)
      | read | accept | close | wake => cases h
  | accept =>
      cases e with
      | accept r =>
          cases r with
          | none => cases h; exact .quiet _ _ (by simp [hp]) (by simp [State.say]) trivial rfl rfl rfl rfl
          | some errno => cases h; exact State.does_goto (by simp [hp]) (by split <;> simp) trivial
      | read | write | close | wake => cases h
  | readSock =>
      cases e with
      | read r =>
          cases r with
          | data c => cases h; exact .store c _ (.inr hp) (.inr rfl)
          | eof | error => cases h; exact State.does_goto (by simp [hp]) (by simp) trivial
      | write | accept | close | wake => cases h
  | writeSock =>
      cases e with
      | write r => cases h; exact .put r _ (.inr hp) (by simp) (fun k hk => by subst hk; exact hposs)
      | read | accept | close | wake => cases h
  | close =>
      cases e with
      | close => cases h; exact .quiet _ _ (by simp [hp]) (by simp [State.say]) trivial rfl rfl rfl rfl
      | read | write | accept | wake => cases h
  | sleep =>
      cases e with
      | wake => cases h; exact State.does_goto (by simp [hp]) (by simp) trivial
      | read | write | accept | close => cases h
  | exited => cases e <;> cases h

theorem does (h : next s e = some s') : Does s e s' :=
  have hmain := Option.ite_none_right_eq_some.mp h
  main_does rfl hmain.1 hmain.2

/-- The buffer holds what was read last. -/
def Sized (s : State) : Prop := s.n ≤ s.buf.length ∧ (s.pc = .write ∨ s.pc = .writeSock → 0 < s.n)

theorem Sized.next (hs : Sized s) (h : next s e = some s') : Sized s' := by
  cases does h with
  | store c p hp hp' => exact ⟨length_le_fill _ _, fun _ => c.pos⟩
  | put r p hp hp' => exact ⟨hs.1, fun h => absurd h (not_or.mpr hp')⟩
  | quiet e t hp hp' _ hbuf hn => exact ⟨by rw [hbuf, hn]; exact hs.1, fun h => absurd h (not_or.mpr hp')⟩

theorem reachable_sized (h : Reachable (Exec next) (initial buf) s) : Sized s :=
  h.invariant ⟨Nat.zero_le _, by simp [initial]⟩ (fun _ _ _ hs hl => hs.next hl)

theorem pending_store (s : State) (c : Chunk bufLen) {p : Pc} (hp : p = .write ∨ p = .writeSock) :
    (s.store c p).pending = c.bytes := (if_pos hp).trans (fill_take _ _)

theorem pending_none (hp : s.pc ≠ .write ∧ s.pc ≠ .writeSock) : s.pending = [] := if_neg (not_or.mpr hp)

/-- A write forwards what is pending when it is full, and otherwise it does not. -/
theorem forwarded_put (hs : Sized s) (hfwd : Forwarded s) {r : Write} {p : Pc} (hp : s.pc = .write ∨ s.pc = .writeSock)
    (hp' : p ≠ .write ∧ p ≠ .writeSock) (hle : ∀ k, r = .wrote k → k ≤ s.n) : Forwarded (s.put r p) ↔ r = .wrote s.n := by
  have hlen : (s.buf.take s.n).length = s.n := List.length_take_of_le hs.1
  have hdata : s.buf.take s.n ≠ [] := List.ne_nil_of_length_pos (by rw [hlen]; exact hs.2 hp)
  have hpend : s.pending = s.buf.take s.n := if_pos hp
  have hnone : (s.put r p).pending = [] := pending_none hp'
  have htaken := taken_eq_iff hdata (r := r) (by rw [hlen]; exact hle)
  rw [hlen] at htaken
  rw [Forwarded, hpend] at hfwd
  rw [Forwarded, hnone, List.append_nil, ← htaken]
  change s.output ++ r.taken (s.buf.take s.n) = s.input ↔ _
  rw [← hfwd, List.append_cancel_left_eq]

theorem Forwarded.next (hs : Sized s) (hfwd : Forwarded s) (h : next s e = some s') : Forwarded s' ↔ Full s e := by
  cases does h with
  | store c p hp hp' =>
      refine iff_of_true ?_ trivial
      have hnone : s.pending = [] := pending_none (by rcases hp with hp | hp <;> simp [hp])
      rw [Forwarded, hnone, List.append_nil] at hfwd
      rw [Forwarded, pending_store s c hp']
      change s.output ++ c.bytes = s.input ++ c.bytes
      rw [hfwd]
  | put r p hp hp' hle => exact forwarded_put hs hfwd hp hp' hle
  | quiet e t hp hp' he hbuf hn hin hout =>
      refine iff_of_true ?_ he
      rw [Forwarded, pending_none hp] at hfwd
      rw [Forwarded, pending_none hp', hin, hout]
      exact hfwd

/-- Nothing is lost and nothing is out of order, up to what main is about to
write, just as long as every write is full. -/
theorem forwarded_iff_full (buf : List UInt8) (es : List Event) (s : State) (h : Run (Exec next) (initial buf) es s) :
    Run (Guarded (Exec next) Full) (initial buf) es s ↔
      ∀ before after t, es = before ++ after → Run (Exec next) (initial buf) before t → Forwarded t := by
  have hinit : Forwarded (initial buf) := rfl
  apply guarded_iff hinit _ _ h
  · exact fun t e t' hr hfwd hok hn => (hfwd.next (reachable_sized hr) hn).mpr hok
  · exact fun t e t' hr hfwd hnot hn => mt (hfwd.next (reachable_sized hr) hn).mp hnot

/-- A line from the terminal, and a connection that sends two bytes. -/
def conversation (r : Write) : List Event :=
  [.read (.data ⟨[104, 105], by decide, by decide⟩), .write (.wrote 2), .accept none,
    .read (.data ⟨[111, 107], by decide, by decide⟩), .write r, .read .eof, .close, .wake]

theorem forwarded_iff_full_conversation : ∃ s, Run (Exec next) (initial []) (conversation (.wrote 2)) s ∧ Forwarded s := by
  obtain ⟨s, hs⟩ : ∃ s, replay (guardedNext Full next) (initial []) (conversation (.wrote 2)) = some s := ⟨_, rfl⟩
  have hg := replay_guarded hs
  exact ⟨s, hg.unguard, (forwarded_iff_full [] _ s hg.unguard).mp hg _ [] s (by simp) hg.unguard⟩

/-- The terminal takes nothing for the moment. -/
theorem slow_terminal : ∃ s, Run (Exec next) (initial []) (conversation (.error .wouldBlock)) s ∧
    s.input = [104, 105, 111, 107] ∧ s.output = [104, 105] ∧ s.pending = [] :=
  ⟨_, replay_run rfl, rfl, rfl, rfl⟩

end UnixProg.Select.BusyWait

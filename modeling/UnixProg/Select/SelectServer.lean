import UnixProg.Lib.InputStream
import UnixProg.Lib.Stream
import UnixProg.Lib.Transition
import Mathlib.Data.List.Nodup

namespace UnixProg.Select.SelectServer

open Lib Transition InputStream Stream

variable {κ : Type}

def bufLen : Nat := 100

inductive Pc
  | select
  | isset0
  | read0
  | write0
  | issetS
  | accept
  | sayAccepted
  | readSock
  | writeSock
  | close
  | sayClosed
  | exited (status : Nat)
  | killed
deriving DecidableEq

inductive Message
  | accepted
  | closed
deriving DecidableEq

/-- `set0` and `setS` are what `select()` has left in `rdfds`, and `newsock` is
the connection that is open there. The clients are those in the queue of the
listening socket and those with an entry in `conns`. `writes` is what each
`write()` to the standard output was given, and how it ended. -/
structure State (κ : Type) where
  pc : Pc
  set0 : Bool
  setS : Bool
  stdin : Input UInt8
  backlog : List κ
  conns : κ → Option (Input UInt8)
  newsock : Option κ
  buf : List UInt8
  n : Nat
  writes : List (List UInt8 × Write)
  stderr : List Message

/-- A statement of main, a `read()` that returns (up to) `k` bytes, a `write()`
with its result, a call that fails, and what the user and the clients do. -/
inductive Event (κ : Type)
  | exec (p : Pc)
  | read (k : Nat)
  | write (r : Write)
  | fail
  | enter (bs : List UInt8)
  | eof
  | connect (c : κ)
  | send (c : κ) (bs : List UInt8)
  | shut (c : κ)
deriving DecidableEq

def State.goto (s : State κ) (p : Pc) : State κ := { s with pc := p }

def State.store (s : State κ) (bs : List UInt8) (p : Pc) : State κ :=
  { s with buf := fill s.buf bs, n := bs.length, pc := p }

def State.put (s : State κ) (r : Write) (p : Pc) : State κ :=
  { s with writes := s.writes ++ [(s.buf.take s.n, r)], pc := p }

def State.say (s : State κ) (m : Message) (p : Pc) : State κ := { s with stderr := s.stderr ++ [m], pc := p }

def main (s : State κ) : Option (State κ) :=
  match s.pc with
  | .select =>
      if s.stdin.ready = true ∨ s.backlog ≠ [] then
        some { s with set0 := s.stdin.ready, setS := !s.backlog.isEmpty, pc := .isset0 }
      else none
  | .isset0 => some (s.goto (if s.set0 then .read0 else .issetS))
  | .issetS => some (s.goto (if s.setS then .accept else .select))
  | .accept =>
      match s.backlog with
      | [] => none
      | c :: cs => some { s with newsock := some c, backlog := cs, pc := .sayAccepted }
  | .sayAccepted => some (s.say .accepted .readSock)
  | .close => some { s with newsock := none, pc := .sayClosed }
  | .sayClosed => some (s.say .closed .select)
  | .read0 | .write0 | .readSock | .writeSock | .exited _ | .killed => none

/-- A `write()`, whose result nobody looks at. -/
def write (r : Write) (s : State κ) : Option (State κ) :=
  if r.count ≤ s.n then
    match s.pc with
    | .write0 => some (s.put r .issetS)
    | .writeSock => some (s.put r .readSock)
    | .select | .isset0 | .read0 | .issetS | .accept | .sayAccepted | .readSock | .close | .sayClosed | .exited _
    | .killed => none
  else none

/-- The error of a `write()` that nobody can read, which comes with a SIGPIPE. -/
def epipe : Errno := .other 32

/-- A call that returns -1, or a signal in its place. Nobody looks at what
`accept()` returns. -/
def fail (s : State κ) : Option (State κ) :=
  match s.pc with
  | .select | .read0 | .readSock => some (s.goto (.exited 1))
  | .accept => some (s.goto .sayAccepted)
  | .write0 | .writeSock => some (s.put (.error epipe) .killed)
  | .isset0 | .issetS | .sayAccepted | .close | .sayClosed | .exited _ | .killed => none

section Program

variable [DecidableEq κ]

def State.update (s : State κ) (c : κ) (i : Input UInt8) : State κ :=
  { s with conns := Function.update s.conns c (some i) }

def read (k : Nat) (s : State κ) : Option (State κ) :=
  match s.pc with
  | .read0 => (s.stdin.read bufLen k).map (fun r =>
      if r.1 = [] then s.goto (.exited 0) else { s with stdin := r.2 }.store r.1 .write0)
  | .readSock => s.newsock.bind (fun c => (s.conns c).bind (fun i => (i.read bufLen k).map (fun r =>
      if r.1 = [] then s.goto .close else (s.update c r.2).store r.1 .writeSock)))
  | .select | .isset0 | .write0 | .issetS | .accept | .sayAccepted | .writeSock | .close | .sayClosed | .exited _
  | .killed => none

/-- The client sends what it sends, and closes its connection. -/
def State.client (s : State κ) (c : κ) (f : Input UInt8 → Input UInt8) : Option (State κ) :=
  (s.conns c).bind (fun i => if i.ended then none else some (s.update c (f i)))

def next (s : State κ) : Event κ → Option (State κ)
  | .exec p => if s.pc = p then main s else none
  | .read k => read k s
  | .write r => write r s
  | .fail => fail s
  | .enter bs => if s.stdin.ended then none else some { s with stdin := s.stdin.put bs }
  | .eof => some { s with stdin := s.stdin.close }
  | .connect c =>
      if s.conns c = none then some { s.update c .empty with backlog := s.backlog ++ [c] } else none
  | .send c bs => s.client c (fun i => i.put bs)
  | .shut c => s.client c Input.close

end Program

def initial (κ : Type) : State κ := ⟨.select, false, false, .empty, [], fun _ => none, none, [], 0, [], []⟩

def Event.entered : Event κ → List UInt8
  | .enter bs => bs
  | .exec _ | .read _ | .write _ | .fail | .eof | .connect _ | .send _ _ | .shut _ => []

def Event.sentBy [DecidableEq κ] (c : κ) : Event κ → List UInt8
  | .send d bs => if d = c then bs else []
  | .exec _ | .read _ | .write _ | .fail | .enter _ | .eof | .connect _ | .shut _ => []

def Event.connected : Event κ → List κ
  | .connect c => [c]
  | .exec _ | .read _ | .write _ | .fail | .enter _ | .eof | .send _ _ | .shut _ => []

/-- All that the user has entered. -/
def entered (es : List (Event κ)) : List UInt8 := es.flatMap Event.entered

/-- All that a client has sent. -/
def sent [DecidableEq κ] (c : κ) (es : List (Event κ)) : List UInt8 := es.flatMap (Event.sentBy c)

/-- The clients in the order in which they have connected. -/
def connected (es : List (Event κ)) : List κ := es.flatMap Event.connected

/-- What the `write()`s were given. -/
def State.asked (s : State κ) : List UInt8 := s.writes.flatMap Prod.fst

/-- What they have shown of it. -/
def State.stdout (s : State κ) : List UInt8 := s.writes.flatMap (fun w => w.2.taken w.1)

/-- No `write()` has failed or was short. -/
def State.Full (s : State κ) : Prop := ∀ w ∈ s.writes, w.2 = .wrote w.1.length

/-- What has been read and is still to be written. -/
def State.pending (s : State κ) : List UInt8 := if s.pc = .write0 ∨ s.pc = .writeSock then s.buf.take s.n else []

/-- The places in main where no connection is open. -/
def Pc.idle : Pc → Bool
  | .select | .isset0 | .read0 | .write0 | .issetS | .accept | .sayClosed => true
  | .sayAccepted | .readSock | .writeSock | .close | .exited _ | .killed => false

/-- The connections, with what the user has entered before each of them. -/
def turns [DecidableEq κ] (es : List (Event κ)) (ps : List (List UInt8 × κ)) : List UInt8 :=
  ps.flatMap (fun p => p.1 ++ sent p.2 es)

variable [DecidableEq κ]

/-- What has been given to `write()`: the turns that are over, then `last` from the user and `cur` of the open connection. -/
structure Shown (es : List (Event κ)) (s : State κ) (ps : List (List UInt8 × κ)) (last cur : List UInt8) : Prop where
  output : s.asked ++ s.pending = turns es ps ++ last ++ cur
  entered : (ps.map Prod.fst).flatten ++ last ++ s.stdin.data = entered es
  order : ps.map Prod.snd ++ s.newsock.toList ++ s.backlog = connected es
  closed : ∀ p ∈ ps, s.conns p.2 = some ⟨[], true⟩
  current : ∀ c, s.newsock = some c → ∃ i, s.conns c = some i ∧ cur ++ i.data = sent c es
  alone : s.newsock = none → cur = []
  waiting : ∀ c ∈ s.backlog, ∃ i, s.conns c = some i ∧ i.data = sent c es
  unknown : ∀ c, s.conns c = none ↔ c ∉ connected es
  silent : ∀ c, s.conns c = none → sent c es = []
  nodup : (connected es).Nodup
  idle (h : s.pc.idle = true) : s.newsock = none
  close (h : s.pc = .close) : ∃ c, s.newsock = some c ∧ s.conns c = some ⟨[], true⟩

def Inv (es : List (Event κ)) (s : State κ) : Prop := ∃ ps last cur, Shown es s ps last cur

/-- The steps of the program itself. -/
def Event.own : Event κ → Bool
  | .exec _ | .read _ | .write _ | .fail => true
  | .enter _ | .eof | .connect _ | .send _ _ | .shut _ => false

variable {s s' : State κ} {e : Event κ} {es es' : List (Event κ)} {ps : List (List UInt8 × κ)} {last cur bs : List UInt8}
  {c d : κ} {i : Input UInt8} {k : Nat}

omit [DecidableEq κ] in
theorem entered_snoc (es : List (Event κ)) (e : Event κ) : entered (es ++ [e]) = entered es ++ e.entered := by
  simp [entered]

theorem sent_snoc (c : κ) (es : List (Event κ)) (e : Event κ) : sent c (es ++ [e]) = sent c es ++ e.sentBy c := by
  simp [sent]

omit [DecidableEq κ] in
theorem connected_snoc (es : List (Event κ)) (e : Event κ) : connected (es ++ [e]) = connected es ++ e.connected := by
  simp [connected]

theorem own_word (he : e.own = true) : e.entered = [] ∧ (∀ c, e.sentBy c = []) ∧ e.connected = [] := by
  cases e with
  | exec | read | write | fail => exact ⟨rfl, fun _ => rfl, rfl⟩
  | enter | eof | connect | send | shut => cases he

theorem turns_congr (h : ∀ p ∈ ps, sent p.2 es' = sent p.2 es) : turns es' ps = turns es ps := by
  apply List.flatMap_congr
  intro p hp
  rw [h p hp]

/-- The histories differ in nothing that the program depends on. -/
theorem Shown.history (hs : Shown es s ps last cur) (hentered : SelectServer.entered es' = SelectServer.entered es)
    (hsent : ∀ c, sent c es' = sent c es) (hconn : connected es' = connected es) : Shown es' s ps last cur where
  output := by rw [turns_congr (fun p _ => hsent p.2), hs.output]
  entered := hs.entered.trans hentered.symm
  order := hs.order.trans hconn.symm
  closed := hs.closed
  current c hc := by
    rw [hsent c]
    exact hs.current c hc
  alone := hs.alone
  waiting c hc := by
    rw [hsent c]
    exact hs.waiting c hc
  unknown c := by rw [hs.unknown c, hconn]
  silent c hc := (hsent c).trans (hs.silent c hc)
  nodup := hconn ▸ hs.nodup
  idle := hs.idle
  close := hs.close

theorem Shown.own (hs : Shown es s ps last cur) (he : e.own = true) : Shown (es ++ [e]) s ps last cur := by
  obtain ⟨hentered, hsent, hconn⟩ := own_word he
  apply hs.history
  · rw [entered_snoc, hentered, List.append_nil]
  · intro c
    rw [sent_snoc, hsent c, List.append_nil]
  · rw [connected_snoc, hconn, List.append_nil]

/-- A step that moves no bytes but from the buffer to a `write()`. -/
theorem Shown.still (hs : Shown es s ps last cur) (hout : s'.asked ++ s'.pending = s.asked ++ s.pending)
    (hin : s'.stdin.data = s.stdin.data) (hbacklog : s'.backlog = s.backlog) (hconns : s'.conns = s.conns)
    (hsock : s'.newsock = s.newsock) (hidle : s'.pc.idle = true → s.newsock = none)
    (hclose : s'.pc = .close → ∃ c, s.newsock = some c ∧ s.conns c = some ⟨[], true⟩) : Shown es s' ps last cur where
  output := hout.trans hs.output
  entered := hin ▸ hs.entered
  order := by rw [hsock, hbacklog, hs.order]
  closed p hp := by rw [hconns, hs.closed p hp]
  current c hc := by
    rw [hconns]
    exact hs.current c (hsock ▸ hc)
  alone h := hs.alone (hsock ▸ h)
  waiting c hc := by
    rw [hconns]
    exact hs.waiting c (hbacklog ▸ hc)
  unknown c := by rw [hconns, hs.unknown c]
  silent c hc := hs.silent c (hconns ▸ hc)
  nodup := hs.nodup
  idle h := hsock.trans (hidle h)
  close h := by
    rw [hsock, hconns]
    exact hclose h

theorem initial_shown : Shown [] (initial κ) [] [] [] where
  output := rfl
  entered := rfl
  order := rfl
  closed p hp := absurd hp List.not_mem_nil
  current c hc := by cases hc
  alone _ := rfl
  waiting c hc := absurd hc List.not_mem_nil
  unknown c := iff_of_true rfl List.not_mem_nil
  silent c _ := rfl
  nodup := List.nodup_nil
  idle _ := rfl
  close h := by cases h

omit [DecidableEq κ] in
theorem put_pending {r : Write} {p : Pc} (hp : s.pc = .write0 ∨ s.pc = .writeSock) (hp' : p ≠ .write0 ∧ p ≠ .writeSock) :
    (s.put r p).asked ++ (s.put r p).pending = s.asked ++ s.pending := by
  rw [State.pending, State.pending, if_pos hp, if_neg (by simpa [State.put] using hp'), List.append_nil]
  simp [State.asked, State.put]

omit [DecidableEq κ] in
theorem quiet_pending (hp : s.pc ≠ .write0 ∧ s.pc ≠ .writeSock) (hp' : s'.pc ≠ .write0 ∧ s'.pc ≠ .writeSock)
    (hout : s'.writes = s.writes) : s'.asked ++ s'.pending = s.asked ++ s.pending := by
  rw [State.pending, State.pending, if_neg (by tauto), if_neg (by tauto), State.asked, State.asked, hout]

theorem main_shown (hs : Shown es s ps last cur) (h : main s = some s') : ∃ ps last cur, Shown es s' ps last cur := by
  rw [main] at h
  cases hp : s.pc with
  | select =>
      rw [hp] at h
      obtain ⟨_, h⟩ := Option.ite_none_right_eq_some.mp h
      cases h
      exact ⟨ps, last, cur, hs.still (quiet_pending (by simp [hp]) (by simp) rfl) rfl rfl rfl rfl
        (fun _ => hs.idle (by rw [hp]; rfl)) (by simp)⟩
  | isset0 | issetS =>
      rw [hp] at h
      cases h
      have hidle : s.newsock = none := hs.idle (by rw [hp]; rfl)
      refine ⟨ps, last, cur, hs.still (quiet_pending (by simp [hp]) ?_ rfl) rfl rfl rfl rfl (fun _ => hidle) ?_⟩
      · simp only [State.goto]
        split <;> simp
      · simp only [State.goto]
        split <;> simp
  | accept =>
      rw [hp] at h
      have hidle : s.newsock = none := hs.idle (by rw [hp]; rfl)
      cases hb : s.backlog with
      | nil =>
          rw [hb] at h
          cases h
      | cons c cs =>
          rw [hb] at h
          cases h
          have hcur := hs.alone hidle
          have horder := hs.order
          rw [hidle, hb] at horder
          refine ⟨ps, last, [], ⟨?_, hs.entered, ?_, hs.closed, ?_, by simp, ?_, hs.unknown, hs.silent, hs.nodup, ?_, ?_⟩⟩
          · have hout : s.asked ++ s.pending = turns es ps ++ last ++ [] := hcur ▸ hs.output
            exact Eq.trans (b := s.asked ++ s.pending) (quiet_pending (by simp [hp]) (by simp) rfl) hout
          · simpa using horder
          · rintro d ⟨⟩
            exact hs.waiting c (hb ▸ List.mem_cons_self)
          · exact fun d hd => hs.waiting d (hb ▸ List.mem_cons_of_mem c hd)
          · intro h
            cases h
          · intro h
            cases h
  | sayAccepted =>
      rw [hp] at h
      cases h
      exact ⟨ps, last, cur, hs.still (quiet_pending (by simp [hp]) (by simp [State.say]) rfl) rfl rfl rfl rfl
        (by simp [State.say, Pc.idle]) (by simp [State.say])⟩
  | close =>
      rw [hp] at h
      cases h
      obtain ⟨c, hsock, hc⟩ := hs.close hp
      obtain ⟨i, hi, hcur⟩ := hs.current c hsock
      obtain rfl := Option.some.inj (hc.symm.trans hi)
      rw [List.append_nil] at hcur
      have horder := hs.order
      rw [hsock] at horder
      refine ⟨ps ++ [(last, c)], [], [],
        ⟨?_, ?_, by simpa using horder, ?_, by simp, by simp, hs.waiting, hs.unknown, hs.silent, hs.nodup, by simp,
          by simp⟩⟩
      · refine Eq.trans (b := s.asked ++ s.pending) (quiet_pending (by simp [hp]) (by simp) rfl) ?_
        rw [hs.output, turns, turns, hcur]
        simp
      · rw [← hs.entered]
        simp
      · intro p hmem
        obtain hmem | hmem := List.mem_append.mp hmem
        · exact hs.closed p hmem
        · obtain rfl := List.mem_singleton.mp hmem
          exact hc
  | sayClosed =>
      rw [hp] at h
      cases h
      exact ⟨ps, last, cur, hs.still (quiet_pending (by simp [hp]) (by simp [State.say]) rfl) rfl rfl rfl rfl
        (fun _ => hs.idle (by rw [hp]; rfl)) (by simp [State.say])⟩
  | read0 | write0 | readSock | writeSock | exited | killed =>
      rw [hp] at h
      cases h

omit [DecidableEq κ] in
theorem write_cases {r : Write} (h : write r s = some s') :
    s.pc = .write0 ∧ s' = s.put r .issetS ∨ s.pc = .writeSock ∧ s' = s.put r .readSock := by
  obtain ⟨_, h⟩ := Option.ite_none_right_eq_some.mp h
  cases hp : s.pc with
  | write0 =>
      rw [hp] at h
      cases h
      exact .inl ⟨rfl, rfl⟩
  | writeSock =>
      rw [hp] at h
      cases h
      exact .inr ⟨rfl, rfl⟩
  | select | isset0 | read0 | issetS | accept | sayAccepted | readSock | close | sayClosed | exited | killed =>
      rw [hp] at h
      cases h

theorem write_shown {r : Write} (hs : Shown es s ps last cur) (h : write r s = some s') : Shown es s' ps last cur := by
  obtain ⟨hp, rfl⟩ | ⟨hp, rfl⟩ := write_cases h
  · exact hs.still (put_pending (.inl hp) (by simp)) rfl rfl rfl rfl (fun _ => hs.idle (by rw [hp]; rfl))
      (by simp [State.put])
  · exact hs.still (put_pending (.inr hp) (by simp)) rfl rfl rfl rfl (by simp [State.put, Pc.idle]) (by simp [State.put])

omit [DecidableEq κ] in
/-- A call fails where the program ends with it, or in `accept()`. -/
theorem fail_cases (h : fail s = some s') :
    (s.pc ≠ .write0 ∧ s.pc ≠ .writeSock ∧ s' = s.goto (.exited 1)) ∨ (s.pc = .accept ∧ s' = s.goto .sayAccepted) ∨
      (s.pc = .write0 ∨ s.pc = .writeSock) ∧ s' = s.put (.error epipe) .killed := by
  rw [fail] at h
  cases hp : s.pc with
  | select | read0 | readSock =>
      rw [hp] at h
      cases h
      exact .inl ⟨by simp, by simp, rfl⟩
  | accept =>
      rw [hp] at h
      cases h
      exact .inr (.inl ⟨rfl, rfl⟩)
  | write0 =>
      rw [hp] at h
      cases h
      exact .inr (.inr ⟨.inl rfl, rfl⟩)
  | writeSock =>
      rw [hp] at h
      cases h
      exact .inr (.inr ⟨.inr rfl, rfl⟩)
  | isset0 | issetS | sayAccepted | close | sayClosed | exited | killed =>
      rw [hp] at h
      cases h

theorem fail_shown (hs : Shown es s ps last cur) (h : fail s = some s') : Shown es s' ps last cur := by
  obtain ⟨hp, hp', rfl⟩ | ⟨hp, rfl⟩ | ⟨hp, rfl⟩ := fail_cases h
  · exact hs.still (quiet_pending ⟨hp, hp'⟩ (by simp [State.goto]) rfl) rfl rfl rfl rfl (by simp [State.goto, Pc.idle])
      (by simp [State.goto])
  · exact hs.still (quiet_pending (by simp [hp]) (by simp [State.goto]) rfl) rfl rfl rfl rfl (by simp [State.goto, Pc.idle])
      (by simp [State.goto])
  · exact hs.still (put_pending hp (by simp)) rfl rfl rfl rfl (by simp [State.put, Pc.idle]) (by simp [State.put])

omit [DecidableEq κ] in
/-- What a `read()` has stored is pending until it is written. -/
theorem store_pending {p : Pc} (hp : p = .write0 ∨ p = .writeSock) (bs : List UInt8) : (s.store bs p).pending = bs := by
  rw [State.pending, if_pos (by simpa [State.store] using hp)]
  exact fill_take s.buf bs

/-- What others do to the connection of one client leaves the others alone. -/
theorem update_conns (s : State κ) (c d : κ) (i : Input UInt8) :
    (s.update c i).conns d = if d = c then some i else s.conns d := Function.update_apply _ _ _ _

theorem read_cases (h : read k s = some s') :
    (s.pc = .read0 ∧ s.stdin.data = [] ∧ s.stdin.ended = true ∧ s' = s.goto (.exited 0)) ∨
    (∃ bs j, s.pc = .read0 ∧ bs ≠ [] ∧ s.stdin.data = bs ++ j.data ∧ j.ended = s.stdin.ended ∧
      s' = { s with stdin := j }.store bs .write0) ∨
    (∃ c i, s.pc = .readSock ∧ s.newsock = some c ∧ s.conns c = some i ∧ i.data = [] ∧ i.ended = true ∧
      s' = s.goto .close) ∨
    ∃ c i bs j, s.pc = .readSock ∧ s.newsock = some c ∧ s.conns c = some i ∧ bs ≠ [] ∧ i.data = bs ++ j.data ∧
      j.ended = i.ended ∧ s' = (s.update c j).store bs .writeSock := by
  rw [read] at h
  cases hp : s.pc with
  | read0 =>
      rw [hp] at h
      obtain ⟨⟨bs, j⟩, hr, rfl⟩ := Option.map_eq_some_iff.mp h
      obtain ⟨rfl, hnil, hended, _⟩ | ⟨hbs, _, hd, hj⟩ := InputStream.read_cases hr
      · exact .inl ⟨rfl, hnil, hended, rfl⟩
      · exact .inr (.inl ⟨bs, j, rfl, hbs, hd, hj, if_neg hbs⟩)
  | readSock =>
      rw [hp] at h
      obtain ⟨c, hsock, h⟩ := Option.bind_eq_some_iff.mp h
      obtain ⟨i, hi, h⟩ := Option.bind_eq_some_iff.mp h
      obtain ⟨⟨bs, j⟩, hr, rfl⟩ := Option.map_eq_some_iff.mp h
      obtain ⟨rfl, hnil, hended, _⟩ | ⟨hbs, _, hd, hj⟩ := InputStream.read_cases hr
      · exact .inr (.inr (.inl ⟨c, i, rfl, hsock, hi, hnil, hended, rfl⟩))
      · exact .inr (.inr (.inr ⟨c, i, bs, j, rfl, hsock, hi, hbs, hd, hj, if_neg hbs⟩))
  | select | isset0 | write0 | issetS | accept | sayAccepted | writeSock | close | sayClosed | exited | killed =>
      rw [hp] at h
      cases h

/-- The connection that is open is neither over nor in the queue. -/
theorem Shown.open_alone (hs : Shown es s ps last cur) (hsock : s.newsock = some c) :
    (∀ p ∈ ps, p.2 ≠ c) ∧ ∀ d ∈ s.backlog, d ≠ c := by
  have hnodup := hs.nodup
  rw [← hs.order, hsock, Option.toList_some, List.nodup_append, List.nodup_append] at hnodup
  constructor
  · rintro p hmem rfl
    exact hnodup.1.2.2 p.2 (List.mem_map_of_mem hmem) p.2 (List.mem_singleton_self _) rfl
  · rintro d hmem rfl
    exact hnodup.2.2 d (by simp) d hmem rfl

theorem read_shown (hs : Shown es s ps last cur) (h : read k s = some s') : ∃ ps last cur, Shown es s' ps last cur := by
  obtain ⟨hp, _, _, rfl⟩ | ⟨bs, j, hp, _, hd, _, rfl⟩ | ⟨c, i, hp, hsock, hi, hnil, hended, rfl⟩ |
    ⟨c, i, bs, j, hp, hsock, hi, _, hd, _, rfl⟩ := read_cases h
  · exact ⟨ps, last, cur, hs.still (quiet_pending (by simp [hp]) (by simp [State.goto]) rfl) rfl rfl rfl rfl
      (by simp [State.goto, Pc.idle]) (by simp [State.goto])⟩
  · have hidle : s.newsock = none := hs.idle (by rw [hp]; rfl)
    have hcur := hs.alone hidle
    have hout := hs.output
    rw [State.pending, if_neg (by simp [hp]), List.append_nil, hcur, List.append_nil] at hout
    refine ⟨ps, last ++ bs, [], ⟨?_, ?_, hs.order, hs.closed, ?_, fun _ => rfl, hs.waiting, hs.unknown, hs.silent,
      hs.nodup, fun _ => hidle, ?_⟩⟩
    · rw [store_pending (.inl rfl)]
      change s.asked ++ bs = _
      rw [hout, List.append_assoc, List.append_nil]
    · simp only [State.store, ← hs.entered, hd, List.append_assoc]
    · intro c hc
      rw [State.store, hidle] at hc
      cases hc
    · simp [State.store]
  · refine ⟨ps, last, cur, hs.still (quiet_pending (by simp [hp]) (by simp [State.goto]) rfl) rfl rfl rfl rfl
      (by simp [State.goto, Pc.idle]) (fun _ => ⟨c, hsock, ?_⟩)⟩
    rw [hi, ← hnil, ← hended]
  · have hout := hs.output
    rw [State.pending, if_neg (by simp [hp]), List.append_nil] at hout
    obtain ⟨i', hi', hcur⟩ := hs.current c hsock
    obtain rfl := Option.some.inj (hi.symm.trans hi')
    obtain ⟨hdone, hwaiting⟩ := hs.open_alone hsock
    refine ⟨ps, last, cur ++ bs, ⟨?_, hs.entered, hs.order, ?_, ?_, ?_, ?_, ?_, ?_, hs.nodup, ?_, ?_⟩⟩
    · rw [store_pending (.inr rfl)]
      change s.asked ++ bs = _
      rw [hout, List.append_assoc]
    · intro p hmem
      simp only [State.store, update_conns, if_neg (hdone p hmem), hs.closed p hmem]
    · intro d hd'
      obtain rfl := Option.some.inj (hsock.symm.trans hd')
      exact ⟨j, by simp [State.store, update_conns], by rw [← hcur, hd, List.append_assoc]⟩
    · intro h
      rw [State.store, State.update, hsock] at h
      cases h
    · intro d hmem
      obtain ⟨i, hi, hd⟩ := hs.waiting d hmem
      exact ⟨i, by simp only [State.store, update_conns, if_neg (hwaiting d hmem), hi], hd⟩
    · intro d
      rw [← hs.unknown d]
      simp only [State.store, update_conns]
      split
      · rename_i hdc
        subst hdc
        simp [hi]
      · rfl
    · intro d hnone
      simp only [State.store, update_conns] at hnone
      split at hnone
      · cases hnone
      · exact hs.silent d hnone
    · simp [State.store, Pc.idle]
    · simp [State.store]

/-- A client with an open connection sends something, or closes it. -/
theorem client_shown (hs : Shown es s ps last cur) (hi : s.conns c = some i) (hopen : i.ended = false) (j : Input UInt8)
    (hj : j.data = i.data ++ e.sentBy c) (he : ∀ d, d ≠ c → e.sentBy d = []) (hentered : e.entered = [])
    (hconn : e.connected = []) : Shown (es ++ [e]) (s.update c j) ps last cur := by
  have hother {d : κ} (hd : d ≠ c) : sent d (es ++ [e]) = sent d es := by rw [sent_snoc, he d hd, List.append_nil]
  have hnot {d : κ} (hd : s.conns d = some ⟨[], true⟩) : d ≠ c := by
    rintro rfl
    rw [hi] at hd
    obtain rfl := Option.some.inj hd
    cases hopen
  have hdata {d : κ} {i' : Input UInt8} (pre : List UInt8) (hi' : s.conns d = some i') (hpre : pre ++ i'.data = sent d es) :
      ∃ j', (s.update c j).conns d = some j' ∧ pre ++ j'.data = sent d (es ++ [e]) := by
    rw [update_conns]
    by_cases hd : d = c
    · subst hd
      obtain rfl := Option.some.inj (hi.symm.trans hi')
      exact ⟨j, if_pos rfl, by rw [hj, ← List.append_assoc, hpre, sent_snoc]⟩
    · exact ⟨i', by rw [if_neg hd, hi'], by rw [hpre, hother hd]⟩
  constructor
  case output =>
    rw [turns_congr (fun p hp => hother (hnot (hs.closed p hp)))]
    exact hs.output
  case entered =>
    rw [entered_snoc, hentered, List.append_nil]
    exact hs.entered
  case order =>
    rw [connected_snoc, hconn, List.append_nil]
    exact hs.order
  case closed =>
    intro p hp
    rw [update_conns, if_neg (hnot (hs.closed p hp)), hs.closed p hp]
  case current =>
    intro d hd
    obtain ⟨i', hi', hcur⟩ := hs.current d hd
    exact hdata cur hi' hcur
  case alone => exact hs.alone
  case waiting =>
    intro d hd
    obtain ⟨i', hi', hd'⟩ := hs.waiting d hd
    exact hdata [] hi' hd'
  case unknown =>
    intro d
    rw [connected_snoc, hconn, List.append_nil, ← hs.unknown d, update_conns]
    split
    · rename_i hd
      subst hd
      simp [hi]
    · rfl
  case silent =>
    intro d hd
    rw [update_conns] at hd
    split at hd
    · cases hd
    · rename_i hne
      rw [hother hne, hs.silent d hd]
  case nodup =>
    rw [connected_snoc, hconn, List.append_nil]
    exact hs.nodup
  case idle => exact hs.idle
  case close =>
    intro h
    obtain ⟨d, hsock, hd⟩ := hs.close h
    exact ⟨d, hsock, by rw [update_conns, if_neg (hnot hd), hd]⟩

theorem connect_shown (hs : Shown es s ps last cur) (hc : s.conns c = none) :
    Shown (es ++ [.connect c]) { s.update c .empty with backlog := s.backlog ++ [c] } ps last cur := by
  have hsent (d : κ) : sent d (es ++ [.connect c]) = sent d es := by rw [sent_snoc, Event.sentBy, List.append_nil]
  have hnot {d : κ} {i : Input UInt8} (hd : s.conns d = some i) : d ≠ c := by
    rintro rfl
    rw [hc] at hd
    cases hd
  have hfresh : c ∉ connected es := (hs.unknown c).mp hc
  have hconn : connected (es ++ [.connect c]) = connected es ++ [c] := connected_snoc es _
  constructor
  case output =>
    rw [turns_congr (fun p _ => hsent p.2)]
    exact hs.output
  case entered =>
    rw [entered_snoc, Event.entered, List.append_nil]
    exact hs.entered
  case order =>
    rw [hconn, ← hs.order]
    exact (List.append_assoc _ _ _).symm
  case closed =>
    intro p hp
    rw [← hs.closed p hp]
    exact (update_conns _ _ _ _).trans (if_neg (hnot (hs.closed p hp)))
  case current =>
    intro d hd
    obtain ⟨i, hi, hcur⟩ := hs.current d hd
    exact ⟨i, ((update_conns _ _ _ _).trans (if_neg (hnot hi))).trans hi, by rw [hsent, hcur]⟩
  case alone => exact hs.alone
  case waiting =>
    intro d hd
    obtain hd | hd := List.mem_append.mp hd
    · obtain ⟨i, hi, hdata⟩ := hs.waiting d hd
      exact ⟨i, ((update_conns _ _ _ _).trans (if_neg (hnot hi))).trans hi, by rw [hsent, hdata]⟩
    · obtain rfl := List.mem_singleton.mp hd
      refine ⟨.empty, (update_conns _ _ _ _).trans (if_pos rfl), ?_⟩
      rw [hsent, hs.silent d hc]
      rfl
  case unknown =>
    intro d
    rw [hconn, List.mem_append, List.mem_singleton, not_or, ← hs.unknown d]
    simp only [update_conns]
    split
    · rename_i hd
      simp [hd]
    · rename_i hd
      simp [hd]
  case silent =>
    intro d hd
    simp only [update_conns] at hd
    split at hd
    · cases hd
    · rw [hsent, hs.silent d hd]
  case nodup =>
    rw [hconn, List.nodup_append]
    refine ⟨hs.nodup, List.nodup_singleton c, ?_⟩
    rintro a ha b hb rfl
    exact hfresh (List.mem_singleton.mp hb ▸ ha)
  case idle => exact hs.idle
  case close =>
    intro h
    obtain ⟨d, hsock, hd⟩ := hs.close h
    exact ⟨d, hsock, ((update_conns _ _ _ _).trans (if_neg (hnot hd))).trans hd⟩

theorem client_cases {f : Input UInt8 → Input UInt8} (h : s.client c f = some s') :
    ∃ i, s.conns c = some i ∧ i.ended = false ∧ s' = s.update c (f i) := by
  obtain ⟨i, hi, h⟩ := Option.bind_eq_some_iff.mp h
  obtain ⟨hopen, h⟩ := Option.ite_none_left_eq_some.mp h
  exact ⟨i, hi, eq_false_of_ne_true hopen, (Option.some.inj h).symm⟩

theorem next_inv (hs : Inv es s) (h : next s e = some s') : Inv (es ++ [e]) s' := by
  obtain ⟨ps, last, cur, hs⟩ := hs
  cases e with
  | exec p =>
      obtain ⟨_, h⟩ := Option.ite_none_right_eq_some.mp h
      obtain ⟨ps, last, cur, hs⟩ := main_shown hs h
      exact ⟨ps, last, cur, hs.own rfl⟩
  | read k =>
      obtain ⟨ps, last, cur, hs⟩ := read_shown hs h
      exact ⟨ps, last, cur, hs.own rfl⟩
  | write r => exact ⟨ps, last, cur, (write_shown hs h).own rfl⟩
  | fail => exact ⟨ps, last, cur, (fail_shown hs h).own rfl⟩
  | enter bs =>
      obtain ⟨_, h⟩ := Option.ite_none_left_eq_some.mp h
      cases h
      have hsent (c : κ) : sent c (es ++ [.enter bs]) = sent c es := by rw [sent_snoc, Event.sentBy, List.append_nil]
      have hconn : connected (es ++ [.enter bs]) = connected es := (connected_snoc es _).trans (List.append_nil _)
      refine ⟨ps, last, cur, ⟨?_, ?_, hs.order.trans hconn.symm, hs.closed, fun c hc => ?_, hs.alone, fun c hc => ?_,
        fun c => ?_, fun c hc => ?_, hconn ▸ hs.nodup, hs.idle, hs.close⟩⟩
      · rw [turns_congr (fun p _ => hsent p.2)]
        exact hs.output
      · simp [entered_snoc, ← hs.entered, Input.put, Event.entered]
      · rw [hsent]
        exact hs.current c hc
      · rw [hsent]
        exact hs.waiting c hc
      · rw [hconn]
        exact hs.unknown c
      · rw [hsent]
        exact hs.silent c hc
  | eof =>
      cases h
      have hclosed : Shown es { s with stdin := s.stdin.close } ps last cur :=
        hs.still rfl rfl rfl rfl rfl hs.idle hs.close
      refine ⟨ps, last, cur, hclosed.history ?_ (fun c => ?_) ?_⟩
      · exact (entered_snoc es _).trans (List.append_nil _)
      · exact (sent_snoc c es _).trans (List.append_nil _)
      · exact (connected_snoc es _).trans (List.append_nil _)
  | connect c =>
      obtain ⟨hc, h⟩ := Option.ite_none_right_eq_some.mp h
      cases h
      exact ⟨ps, last, cur, connect_shown hs hc⟩
  | send c bs =>
      obtain ⟨i, hi, hopen, rfl⟩ := client_cases h
      refine ⟨ps, last, cur, client_shown hs hi hopen _ ?_ (fun d hd => if_neg (Ne.symm hd)) rfl rfl⟩
      rw [Input.put, Event.sentBy, if_pos rfl]
  | shut c =>
      obtain ⟨i, hi, hopen, rfl⟩ := client_cases h
      exact ⟨ps, last, cur, client_shown hs hi hopen _ (List.append_nil _).symm (fun _ _ => rfl) rfl rfl⟩

theorem run_inv (h : Run (Exec next) (initial κ) es s) : Inv es s :=
  h.invariant (I := Inv) ⟨[], [], [], initial_shown⟩ (fun _ _ _ _ _ hs hl => next_inv hs hl)

omit [DecidableEq κ] in
theorem main_frame (h : main s = some s') : s'.stdin = s.stdin ∧ s'.conns = s.conns ∧ s'.buf = s.buf ∧
    s'.n = s.n ∧ s'.writes = s.writes := by
  rw [main] at h
  cases hp : s.pc with
  | select =>
      rw [hp] at h
      obtain ⟨_, h⟩ := Option.ite_none_right_eq_some.mp h
      cases h
      exact ⟨rfl, rfl, rfl, rfl, rfl⟩
  | accept =>
      rw [hp] at h
      cases hb : s.backlog <;> rw [hb] at h <;> cases h
      exact ⟨rfl, rfl, rfl, rfl, rfl⟩
  | isset0 | issetS | sayAccepted | close | sayClosed =>
      rw [hp] at h
      cases h
      exact ⟨rfl, rfl, rfl, rfl, rfl⟩
  | read0 | write0 | readSock | writeSock | exited | killed =>
      rw [hp] at h
      cases h

/-- Who has closed what. -/
structure Ended (es : List (Event κ)) (s : State κ) : Prop where
  stdin : s.stdin.ended = true ↔ .eof ∈ es
  shut : ∀ c, (∃ i, s.conns c = some i ∧ i.ended = true) ↔ .shut c ∈ es

omit [DecidableEq κ] in
theorem Ended.own (hs : Ended es s) (he : e.own = true) (hin : s'.stdin.ended = s.stdin.ended)
    (hconns : ∀ c, (∃ i, s'.conns c = some i ∧ i.ended = true) ↔ ∃ i, s.conns c = some i ∧ i.ended = true) :
    Ended (es ++ [e]) s' := by
  constructor
  · rw [hin, hs.stdin]
    cases e <;> simp_all [Event.own]
  · intro c
    rw [hconns c, hs.shut c]
    cases e <;> simp_all [Event.own]

theorem update_ended (hi : s.conns c = some i) {j : Input UInt8} (hj : j.ended = i.ended) (d : κ) :
    (∃ i, (s.update c j).conns d = some i ∧ i.ended = true) ↔ ∃ i, s.conns d = some i ∧ i.ended = true := by
  rw [update_conns]
  split
  · rename_i hd
    subst hd
    simp [hi, hj]
  · rfl

theorem next_ended (hs : Ended es s) (h : next s e = some s') : Ended (es ++ [e]) s' := by
  cases e with
  | exec p =>
      obtain ⟨_, h⟩ := Option.ite_none_right_eq_some.mp h
      obtain ⟨hin, hconns, _⟩ := main_frame h
      exact hs.own rfl (by rw [hin]) (fun _ => by rw [hconns])
  | read k =>
      obtain ⟨_, _, _, rfl⟩ | ⟨bs, j, _, _, _, hj, rfl⟩ | ⟨c, i, _, _, _, _, _, rfl⟩ |
        ⟨c, i, bs, j, _, _, hi, _, _, hj, rfl⟩ := read_cases h
      · exact hs.own rfl rfl (fun _ => Iff.rfl)
      · exact hs.own rfl hj (fun _ => Iff.rfl)
      · exact hs.own rfl rfl (fun _ => Iff.rfl)
      · exact hs.own rfl rfl (update_ended hi hj)
  | write r =>
      obtain ⟨_, rfl⟩ | ⟨_, rfl⟩ := write_cases h <;> exact hs.own rfl rfl (fun _ => Iff.rfl)
  | fail =>
      obtain ⟨_, _, rfl⟩ | ⟨_, rfl⟩ | ⟨_, rfl⟩ := fail_cases h <;> exact hs.own rfl rfl (fun _ => Iff.rfl)
  | enter bs =>
      obtain ⟨_, h⟩ := Option.ite_none_left_eq_some.mp h
      cases h
      exact ⟨by simpa [Input.put] using hs.stdin, fun c => by simpa using hs.shut c⟩
  | eof =>
      cases h
      exact ⟨by simp [Input.close], fun c => by simpa using hs.shut c⟩
  | connect c =>
      obtain ⟨hc, h⟩ := Option.ite_none_right_eq_some.mp h
      cases h
      refine ⟨by simpa [State.update] using hs.stdin, fun d => ?_⟩
      rw [List.mem_append, or_iff_left (by simp), ← hs.shut d]
      simp only [update_conns]
      split
      · rename_i hd
        subst hd
        simp [hc, Input.empty]
      · rfl
  | send c bs =>
      obtain ⟨i, hi, _, rfl⟩ := client_cases h
      refine ⟨by simpa [State.update] using hs.stdin, fun d => ?_⟩
      rw [List.mem_append, or_iff_left (by simp), ← hs.shut d]
      exact update_ended hi (j := i.put bs) rfl d
  | shut c =>
      obtain ⟨i, hi, _, rfl⟩ := client_cases h
      refine ⟨by simpa [State.update] using hs.stdin, fun d => ?_⟩
      rw [List.mem_append, ← hs.shut d, List.mem_singleton, update_conns]
      split
      · rename_i hd
        simp [hd, Input.close]
      · rename_i hd
        exact (or_iff_left (fun he => hd (Event.shut.inj he))).symm

theorem run_ended (h : Run (Exec next) (initial κ) es s) : Ended es s :=
  h.invariant (I := Ended) ⟨by simp [initial, Input.empty], fun c => by simp [initial]⟩
    (fun _ _ _ _ _ hs hl => next_ended hs hl)

omit [DecidableEq κ] in
theorem stdout_sublist (s : State κ) : s.stdout.Sublist s.asked := by
  rw [State.stdout, State.asked]
  induction s.writes with
  | nil => exact List.Sublist.refl []
  | cons w ws ih => exact (taken_sublist w.1 w.2).append ih

omit [DecidableEq κ] in
theorem State.Full.stdout (hs : s.Full) : s.stdout = s.asked := by
  apply List.flatMap_congr
  intro w hw
  rw [hs w hw, Write.taken, List.take_length]

/-- What the server writes is what the user has entered, cut in two for each
connection by all that its client has sent. Nothing is lost, shown twice or
mixed up but by a `write()` that fails or is short, and that only leaves out. -/
theorem one_after_the_other (es : List (Event κ)) (s : State κ) (h : Run (Exec next) (initial κ) es s) :
    (∃ ps last cur, s.asked ++ s.pending = turns es ps ++ last ++ cur ∧
      (ps.map Prod.fst).flatten ++ last ++ s.stdin.data = entered es ∧
      ps.map Prod.snd ++ s.newsock.toList ++ s.backlog = connected es ∧
      (∀ p ∈ ps, .shut p.2 ∈ es) ∧ (s.newsock = none → cur = []) ∧ ∀ c, s.newsock = some c → cur <+: sent c es) ∧
    s.stdout.Sublist s.asked ∧ (s.Full → s.stdout = s.asked) := by
  obtain ⟨ps, last, cur, hs⟩ := run_inv h
  refine ⟨⟨ps, last, cur, hs.output, hs.entered, hs.order, fun p hp => ?_, hs.alone, fun c hc => ?_⟩, stdout_sublist s,
    State.Full.stdout⟩
  · exact ((run_ended h).shut p.2).mp ⟨_, hs.closed p hp, rfl⟩
  · obtain ⟨i, _, hcur⟩ := hs.current c hc
    exact ⟨i.data, hcur⟩

/-- The user enters `a` and later `d`, and a client sends `b` and `c`. There is
no room for the `b`. -/
def conversation : List (Event Bool) :=
  [.enter [97], .connect true, .exec .select, .exec .isset0, .read 1, .write (.wrote 1), .exec .issetS, .exec .accept,
    .exec .sayAccepted, .send true [98], .read 1, .write (.error (.other 28)), .enter [100], .connect false, .send true [99],
    .shut true, .read 1, .write (.wrote 1), .read 0, .exec .close, .exec .sayClosed, .exec .select, .exec .isset0, .read 1]

theorem one_after_the_other_conversation : ∃ s, Run (Exec next) (initial Bool) conversation s ∧
    s.asked ++ s.pending = [97, 98, 99, 100] ∧ s.stdout = [97, 99] ∧ s.stdout.Sublist s.asked ∧
    ∃ ps last cur, s.asked ++ s.pending = turns conversation ps ++ last ++ cur := by
  obtain ⟨s, hs, hasked, hout⟩ : ∃ s, replay next (initial Bool) conversation = some s ∧
      s.asked ++ s.pending = [97, 98, 99, 100] ∧ s.stdout = [97, 99] := ⟨_, rfl, rfl, rfl⟩
  obtain ⟨⟨ps, last, cur, hall, _⟩, hsub, _⟩ := one_after_the_other conversation s (replay_run hs)
  exact ⟨s, replay_run hs, hasked, hout, hsub, ps, last, cur, hall⟩

end UnixProg.Select.SelectServer

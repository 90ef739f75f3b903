import UnixProg.Lib.FlowControl
import UnixProg.Lib.Transition

namespace UnixProg.Inetd.AcceptRw

open Lib Transition FlowControl

def BUFSIZ : Nat := 8192

/-- Main; in `write()` with what is not in the kernel yet, and whether some is. -/
inductive Pc
  | accept
  | read
  | write (rest : List UInt8) (begun : Bool)
  | exited (status : Nat)
  | killed
deriving DecidableEq

/-- The server and the two directions of its connection. -/
structure State (F B : Limits) where
  pc : Pc
  forth : Conn F UInt8
  back : Conn B UInt8
  /-- The client has shut down its direction. -/
  ended : Bool
  /-- The connection is reset. -/
  broken : Bool
  /-- What the client has written. -/
  put : List UInt8
  /-- What the client has read. -/
  got : List UInt8

inductive Event
  | accept
  | read (k : Nat)
  | eof
  | copy (k : Nat)
  | fail (killed : Bool)
  | cut
  | forth (k : Nat)
  | back (k : Nat)
  | put (bs : List UInt8)
  | get (size k : Nat)
  | shut
  | reset
deriving DecidableEq

def initial (F B : Limits) : State F B := ⟨.accept, .empty F UInt8, .empty B UInt8, false, false, [], []⟩

variable {F B : Limits} {s s' t : State F B} {e : Event} {es : List Event} {bs : List UInt8} {k : Nat}

/-- After `k` more bytes of `write()`: it returns when it has written all. -/
def afterCopy (rest : List UInt8) (k : Nat) : Pc := if rest.drop k = [] then .read else .write (rest.drop k) true

/-- A call that fails, as none does without a reset. An error of `read()` ends
the loop as the end of the data does; an error of `write()` comes with a
SIGPIPE or without one. -/
def failed (killed : Bool) : Pc → Option Pc
  | .accept => some (.exited 1)
  | .read => some (.exited 0)
  | .write _ _ => some (if killed then .killed else .exited 1)
  | .exited _ | .killed => none

/-- A `write()` that the reset comes into returns the number of the bytes that
are in the kernel. Main does not compare it with `len`. -/
def cut : Pc → Option Pc
  | .write _ true => some .read
  | .accept | .read | .write _ false | .exited _ | .killed => none

def next (s : State F B) : Event → Option (State F B)
  | .accept => if s.pc = .accept then some { s with pc := .read } else none
  | .read k =>
      if s.pc = .read then (s.forth.read BUFSIZ k).map (fun r => { s with forth := r.2, pc := .write r.1 false }) else none
  | .eof => if s.pc = .read ∧ s.ended ∧ s.forth.content = [] then some { s with pc := .exited 0 } else none
  | .copy k =>
      match s.pc with
      | .write rest _ => (s.back.copy (rest.take k)).map (fun c => { s with back := c, pc := afterCopy rest k })
      | _ => none
  | .fail killed => if s.broken then (failed killed s.pc).map (fun p => { s with pc := p }) else none
  | .cut => if s.broken then (cut s.pc).map (fun p => { s with pc := p }) else none
  | .forth k => (s.forth.transfer k).map (fun c => { s with forth := c })
  | .back k => (s.back.transfer k).map (fun c => { s with back := c })
  | .put bs =>
      if s.ended ∨ s.broken then none else (s.forth.copy bs).map (fun c => { s with forth := c, put := s.put ++ bs })
  | .get size k =>
      if s.broken then none else (s.back.read size k).map (fun r => { s with back := r.2, got := s.got ++ r.1 })
  | .shut => if s.ended ∨ s.broken then none else some { s with ended := true }
  | .reset => if s.broken then none else some { s with broken := true }

inductive Does (s : State F B) : Event → State F B → Prop
  | accept (hp : s.pc = .accept) : Does s .accept { s with pc := .read }
  | read (k : Nat) (bs : List UInt8) (c : Conn F UInt8) (hp : s.pc = .read)
      (hr : s.forth.read BUFSIZ k = some (bs, c)) : Does s (.read k) { s with forth := c, pc := .write bs false }
  | eof (hp : s.pc = .read) (hended : s.ended = true) (hdata : s.forth.content = []) :
      Does s .eof { s with pc := .exited 0 }
  | copy (k : Nat) (rest : List UInt8) (begun : Bool) (c : Conn B UInt8) (hp : s.pc = .write rest begun)
      (hc : s.back.copy (rest.take k) = some c) : Does s (.copy k) { s with back := c, pc := afterCopy rest k }
  | fail (killed : Bool) (p : Pc) (hb : s.broken = true) (hp : failed killed s.pc = some p) :
      Does s (.fail killed) { s with pc := p }
  | cut (rest : List UInt8) (hb : s.broken = true) (hp : s.pc = .write rest true) : Does s .cut { s with pc := .read }
  | forth (k : Nat) (c : Conn F UInt8) (hc : s.forth.transfer k = some c) : Does s (.forth k) { s with forth := c }
  | back (k : Nat) (c : Conn B UInt8) (hc : s.back.transfer k = some c) : Does s (.back k) { s with back := c }
  | put (bs : List UInt8) (c : Conn F UInt8) (hc : s.forth.copy bs = some c) (hended : s.ended = false)
      (hb : s.broken = false) : Does s (.put bs) { s with forth := c, put := s.put ++ bs }
  | get (size k : Nat) (bs : List UInt8) (c : Conn B UInt8) (hr : s.back.read size k = some (bs, c))
      (hb : s.broken = false) : Does s (.get size k) { s with back := c, got := s.got ++ bs }
  | shut (hended : s.ended = false) : Does s .shut { s with ended := true }
  | reset : Does s .reset { s with broken := true }

theorem does (hl : Exec next s e s') : Does s e s' := by
  cases e with
  | accept =>
      obtain ⟨hp, h⟩ := Option.ite_none_right_eq_some.mp hl
      cases h
      exact .accept hp
  | read k =>
      obtain ⟨hp, h⟩ := Option.ite_none_right_eq_some.mp hl
      obtain ⟨⟨bs, c⟩, hr, rfl⟩ := Option.map_eq_some_iff.mp h
      exact .read k bs c hp hr
  | eof =>
      obtain ⟨⟨hp, hended, hdata⟩, h⟩ := Option.ite_none_right_eq_some.mp hl
      cases h
      exact .eof hp hended hdata
  | copy k =>
      rw [Exec, next] at hl
      cases hp : s.pc with
      | write rest begun =>
          simp only [hp] at hl
          obtain ⟨c, hc, rfl⟩ := Option.map_eq_some_iff.mp hl
          exact .copy k rest begun c hp hc
      | accept | read | exited | killed =>
          simp only [hp] at hl
          cases hl
  | fail killed =>
      obtain ⟨hb, h⟩ := Option.ite_none_right_eq_some.mp hl
      obtain ⟨p, hp, rfl⟩ := Option.map_eq_some_iff.mp h
      exact .fail killed p hb hp
  | cut =>
      obtain ⟨hb, h⟩ := Option.ite_none_right_eq_some.mp hl
      obtain ⟨p, hp, rfl⟩ := Option.map_eq_some_iff.mp h
      cases hpc : s.pc with
      | write rest begun =>
          rw [hpc] at hp
          cases begun <;> cases hp
          exact .cut rest hb hpc
      | accept | read | exited | killed =>
          rw [hpc] at hp
          cases hp
  | forth k =>
      obtain ⟨c, hc, rfl⟩ := Option.map_eq_some_iff.mp hl
      exact .forth k c hc
  | back k =>
      obtain ⟨c, hc, rfl⟩ := Option.map_eq_some_iff.mp hl
      exact .back k c hc
  | put bs =>
      obtain ⟨hopen, h⟩ := Option.ite_none_left_eq_some.mp hl
      obtain ⟨hended, hb⟩ := not_or.mp hopen
      obtain ⟨c, hc, rfl⟩ := Option.map_eq_some_iff.mp h
      exact .put bs c hc (Bool.eq_false_iff.mpr hended) (Bool.eq_false_iff.mpr hb)
  | get size k =>
      obtain ⟨hb, h⟩ := Option.ite_none_left_eq_some.mp hl
      obtain ⟨⟨bs, c⟩, hr, rfl⟩ := Option.map_eq_some_iff.mp h
      exact .get size k bs c hr (Bool.eq_false_iff.mpr hb)
  | shut =>
      obtain ⟨hopen, h⟩ := Option.ite_none_left_eq_some.mp hl
      cases h
      exact .shut (Bool.eq_false_iff.mpr (not_or.mp hopen).1)
  | reset =>
      obtain ⟨_, h⟩ := Option.ite_none_left_eq_some.mp hl
      cases h
      exact .reset

/-- What the server has read and not written. -/
def Pc.held : Pc → List UInt8
  | .write rest _ => rest
  | .accept | .read | .exited _ | .killed => []

/-- The server has ended because of an error other than one of `read()`. -/
def Pc.failed : Pc → Bool
  | .accept | .read | .write _ _ | .exited 0 => false
  | .exited (_ + 1) | .killed => true

theorem held_afterCopy (rest : List UInt8) (k : Nat) : (afterCopy rest k).held = rest.drop k := by
  rw [afterCopy]
  split
  · rename_i h
    rw [h]
    rfl
  · rfl

theorem failed_afterCopy (rest : List UInt8) (k : Nat) : (afterCopy rest k).failed = false := by
  rw [afterCopy]
  split <;> rfl

/-- What is left for `write()` is in `buf`. -/
def Pc.Fits : Pc → Prop
  | .write rest _ => rest ≠ [] ∧ rest.length ≤ BUFSIZ
  | .accept | .read | .exited _ | .killed => True

theorem held_le {p : Pc} (h : p.Fits) : p.held.length ≤ BUFSIZ := by
  cases p with
  | write rest => exact h.2
  | accept | read | exited | killed => exact Nat.zero_le _

theorem fits_afterCopy {rest : List UInt8} (h : rest.length ≤ BUFSIZ) (k : Nat) : (afterCopy rest k).Fits := by
  rw [afterCopy]
  split
  · trivial
  · refine ⟨by assumption, ?_⟩
    rw [List.length_drop]
    exact Nat.le_trans (Nat.sub_le _ _) h

/-- No failing call leaves the server in `write()`. -/
theorem fits_failed {p q : Pc} {killed : Bool} (h : failed killed p = some q) : q.Fits ∧ q.held = [] := by
  cases p with
  | accept | read =>
      cases h
      exact ⟨trivial, rfl⟩
  | write rest =>
      cases killed <;> cases h <;> exact ⟨trivial, rfl⟩
  | exited | killed => cases h

structure Inv (es : List Event) (s : State F B) : Prop where
  comes : s.got <+: s.put
  flow : .cut ∉ es → s.pc.failed = false → s.got ++ s.back.content ++ s.pc.held ++ s.forth.content = s.put
  fits : s.pc.Fits
  sound : s.broken = false → .cut ∉ es ∧ s.pc.failed = false ∧ (s.pc = .exited 0 → s.ended = true ∧ s.forth.content = [])

theorem initial_inv (F B : Limits) : Inv [] (initial F B) where
  comes := List.prefix_rfl
  flow _ _ := rfl
  fits := trivial
  sound _ := ⟨List.not_mem_nil, rfl, fun h => by cases h⟩

theorem cut_snoc (he : e ≠ .cut) : .cut ∈ es ++ [e] ↔ .cut ∈ es := by
  rw [List.mem_append, List.mem_singleton, or_iff_left (Ne.symm he)]

theorem Inv.does (hs : Inv es s) (hd : Does s e s') : Inv (es ++ [e]) s' := by
  have hflow := hs.flow
  have hold (hcut : .cut ∉ es ++ [e]) : .cut ∉ es := fun h => hcut (List.mem_append_left _ h)
  have hnew (he : e ≠ .cut) (hb : s.broken = false) : .cut ∉ es ++ [e] := mt (cut_snoc he).mp (hs.sound hb).1
  cases hd with
  | accept hp =>
      rw [hp] at hflow
      refine ⟨hs.comes, fun hcut _ => ?_, trivial, fun hb => ⟨?_, rfl, fun h => by cases h⟩⟩
      · exact hflow (hold hcut) rfl
      · exact hnew (by simp) hb
  | read k bs c hp hr =>
      rw [hp] at hflow
      refine ⟨hs.comes, fun hcut _ => ?_, ⟨(read_cases hr).1, (read_cases hr).2.1⟩, fun hb => ⟨?_, rfl, fun h => by cases h⟩⟩
      · have hput := hflow (hold hcut) rfl
        rw [content_read hr, Pc.held, List.append_nil, ← List.append_assoc] at hput
        exact hput
      · exact hnew (by simp) hb
  | eof hp hended hdata =>
      rw [hp] at hflow
      refine ⟨hs.comes, fun hcut _ => ?_, trivial, fun hb => ⟨?_, rfl, fun _ => ⟨hended, hdata⟩⟩⟩
      · exact hflow (hold hcut) rfl
      · exact hnew (by simp) hb
  | copy k rest begun c hp hc =>
      have hfits := hs.fits
      rw [hp] at hflow hfits
      refine ⟨hs.comes, fun hcut _ => ?_, fits_afterCopy hfits.2 k, fun hb => ⟨?_, failed_afterCopy rest k, fun h => ?_⟩⟩
      · rw [held_afterCopy, content_copy hc, ← hflow (hold hcut) rfl, Pc.held]
        conv_rhs => rw [← List.take_append_drop k rest]
        simp only [List.append_assoc]
      · exact hnew (by simp) hb
      · rw [afterCopy] at h
        split at h <;> cases h
  | fail killed p hb hp =>
      refine ⟨hs.comes, fun hcut hfail => ?_, (fits_failed hp).1, fun hnot => ?_⟩
      · cases hpc : s.pc with
        | accept | exited | killed =>
            rw [hpc, AcceptRw.failed] at hp
            cases hp <;> cases hfail
        | read =>
            rw [hpc, AcceptRw.failed] at hp
            rw [hpc] at hflow
            cases hp
            exact hflow (hold hcut) rfl
        | write rest =>
            rw [hpc, AcceptRw.failed] at hp
            cases killed <;> cases hp <;> cases hfail
      · exact absurd (hb.symm.trans hnot) (by simp)
  | cut rest hb hp =>
      refine ⟨hs.comes, fun hcut => ?_, trivial, fun hnot => absurd (hb.symm.trans hnot) (by simp)⟩
      exact absurd (List.mem_append_right _ (List.mem_singleton_self _)) hcut
  | forth k c hc =>
      refine ⟨hs.comes, fun hcut hf => ?_, hs.fits, fun hb => ⟨?_, (hs.sound hb).2.1, fun hp => ?_⟩⟩
      · change s.got ++ s.back.content ++ s.pc.held ++ c.content = s.put
        rw [content_transfer hc]
        exact hflow (hold hcut) hf
      · exact hnew (by simp) hb
      · exact ⟨((hs.sound hb).2.2 hp).1, (content_transfer hc).trans ((hs.sound hb).2.2 hp).2⟩
  | back k c hc =>
      refine ⟨hs.comes, fun hcut hf => ?_, hs.fits, fun hb => ⟨?_, (hs.sound hb).2⟩⟩
      · change s.got ++ c.content ++ s.pc.held ++ s.forth.content = s.put
        rw [content_transfer hc]
        exact hflow (hold hcut) hf
      · exact hnew (by simp) hb
  | put bs c hc hended hb =>
      refine ⟨hs.comes.trans (List.prefix_append _ _), fun hcut hf => ?_, hs.fits,
        fun _ => ⟨?_, (hs.sound hb).2.1, fun hp => ?_⟩⟩
      · change s.got ++ s.back.content ++ s.pc.held ++ c.content = s.put ++ bs
        rw [content_copy hc, ← List.append_assoc, hflow (hold hcut) hf]
      · exact hnew (by simp) hb
      · exact absurd (hended.symm.trans ((hs.sound hb).2.2 hp).1) (by simp)
  | get size k bs c hr hb =>
      have hcomes : s.got ++ bs ++ c.content = s.got ++ s.back.content := by
        rw [content_read hr, List.append_assoc]
      obtain ⟨hnocut, hf, _⟩ := hs.sound hb
      have hput : s.got ++ bs ++ c.content ++ s.pc.held ++ s.forth.content = s.put := by
        rw [hcomes]
        exact hflow hnocut hf
      refine ⟨⟨c.content ++ s.pc.held ++ s.forth.content, ?_⟩, fun _ _ => hput, hs.fits, fun hb => ⟨?_, (hs.sound hb).2⟩⟩
      · rw [← hput]
        simp only [List.append_assoc]
      · exact hnew (by simp) hb
  | shut =>
      refine ⟨hs.comes, fun hcut => hflow (hold hcut), hs.fits,
        fun hb => ⟨?_, (hs.sound hb).2.1, fun hp => ⟨rfl, ((hs.sound hb).2.2 hp).2⟩⟩⟩
      exact hnew (by simp) hb
  | reset =>
      exact ⟨hs.comes, fun hcut => hflow (hold hcut), hs.fits, fun hb => by cases hb⟩

theorem run_inv (h : Run (Exec next) (initial F B) es s) : Inv es s :=
  h.invariant (I := Inv) (initial_inv F B) (fun _ _ _ _ _ hs hl => hs.does (does hl))

/-- The client gets back what it has written, in order, and while the server
lives all that is missing is in the buffers or in `buf`, unless the reset has
cut a `write()` short: main goes on then, and the rest of `buf` is lost. So a
client that does not read cannot write more than these hold. The server ends
with 0 when the client has shut down its direction and all of its data is
written back, or, with data left, when `read()` fails. -/
theorem echoed (es : List Event) (s : State F B) (h : Run (Exec next) (initial F B) es s) :
    s.got <+: s.put ∧
    (.cut ∉ es → s.pc.failed = false → s.got ++ s.back.content ++ s.pc.held ++ s.forth.content = s.put ∧
      s.put.length ≤ s.got.length + (B.recv + B.send) + BUFSIZ + (F.recv + F.send)) ∧
    (s.broken = false → .cut ∉ es ∧ s.pc.failed = false ∧
      (s.pc = .exited 0 → s.ended = true ∧ s.got ++ s.back.content = s.put)) := by
  have hs := run_inv h
  refine ⟨hs.comes, fun hcut hf => ⟨hs.flow hcut hf, ?_⟩, fun hb => ?_⟩
  · have hlen := congrArg List.length (hs.flow hcut hf)
    have hforth := content_le s.forth
    have hback := content_le s.back
    have hheld := held_le hs.fits
    simp only [List.length_append] at hlen
    omega
  · obtain ⟨hcut, hf, hexit⟩ := hs.sound hb
    refine ⟨hcut, hf, fun hp => ⟨(hexit hp).1, ?_⟩⟩
    have hflow := hs.flow hcut hf
    rw [hp, (hexit hp).2, Pc.held, List.append_nil, List.append_nil] at hflow
    exact hflow

/-- A small buffer at each end. -/
def small : Limits := ⟨5, 3, 2, by decide, by decide, by decide⟩

/-- Three bytes are written, and the first of them comes back. -/
def conversation : List Event :=
  [.put [104, 105, 33], .forth 3, .accept, .read 2, .copy 1, .back 1, .get 8 1]

theorem echoed_conversation : ∃ s, Run (Exec next) (initial small small) conversation s ∧ s.got <+: s.put := by
  obtain ⟨s, hs⟩ : ∃ s, replay next (initial small small) conversation = some s := ⟨_, rfl⟩
  exact ⟨s, replay_run hs, (echoed conversation s (replay_run hs)).1⟩

/-- A step of the server or of the network on its way. -/
def Event.own : Event → Bool
  | .accept | .read _ | .eof | .copy _ | .fail _ | .cut | .forth _ | .back _ => true
  | .put _ | .get _ _ | .shut | .reset => false

def Event.reads : Event → Bool
  | .get _ _ => true
  | _ => false

def way : Pc → Nat
  | .accept => 2
  | .read => 1
  | .write _ _ | .exited _ | .killed => 0

/-- How far the bytes have to go. -/
def rank (s : State F B) : Nat :=
  6 * s.forth.sent.length + 5 * s.forth.rcvd.length + 4 * s.pc.held.length + 2 * s.back.sent.length +
    s.back.rcvd.length + way s.pc

theorem way_afterCopy_le (rest : List UInt8) (k : Nat) : way (afterCopy rest k) ≤ 1 := by
  rw [afterCopy]
  split <;> simp [way]

theorem rank_falls (hb : s.broken = false) (he : e.own = true ∨ e.reads = true) (hd : Does s e s') :
    rank s' < rank s ∧ s'.put = s.put ∧ s'.ended = s.ended ∧ s'.broken = s.broken := by
  cases hd with
  | accept hp => simp [rank, hp, way, Pc.held]
  | read k bs c hp hr =>
      obtain ⟨hpos, hrcvd, hsent⟩ := read_lengths hr
      refine ⟨?_, rfl, rfl, rfl⟩
      simp only [rank, hp, way, Pc.held, hsent, List.length_nil]
      omega
  | eof hp => simp [rank, hp, way, Pc.held]
  | copy k rest begun c hp hc =>
      obtain ⟨hne, hsent, hrcvd⟩ := copy_cases hc
      have hpos := List.length_pos_iff.mpr hne
      have hway := way_afterCopy_le rest k
      have hheld : (Pc.write rest begun).held = rest := rfl
      refine ⟨?_, rfl, rfl, rfl⟩
      simp only [List.length_take] at hpos
      simp only [rank, hp, hheld, held_afterCopy, hsent, hrcvd, List.length_append, List.length_drop, List.length_take]
      omega
  | fail _ _ hbroken | cut _ hbroken => exact absurd (hb.symm.trans hbroken) (by simp)
  | forth k c hc =>
      obtain ⟨n, hpos, hsent, hrcvd⟩ := transfer_lengths hc
      refine ⟨?_, rfl, rfl, rfl⟩
      simp only [rank]
      omega
  | back k c hc =>
      obtain ⟨n, hpos, hsent, hrcvd⟩ := transfer_lengths hc
      refine ⟨?_, rfl, rfl, rfl⟩
      simp only [rank]
      omega
  | get size k bs c hr =>
      obtain ⟨hpos, hrcvd, hsent⟩ := read_lengths hr
      refine ⟨?_, rfl, rfl, rfl⟩
      simp only [rank, hsent]
      omega
  | put | shut | reset => exact absurd he (by simp [Event.own, Event.reads])

theorem forth_goes (hsent : s.forth.sent ≠ []) (hrcvd : s.forth.rcvd.length < F.recv) :
    ∃ e s', e.own = true ∧ Exec next s e s' := by
  obtain ⟨c, hc⟩ := transfer_exists hsent hrcvd
  exact ⟨.forth 1, { s with forth := c }, rfl, by rw [Exec, next, hc]; rfl⟩

theorem back_goes (hsent : s.back.sent ≠ []) (hrcvd : s.back.rcvd.length < B.recv) :
    ∃ e s', e.own = true ∧ Exec next s e s' := by
  obtain ⟨c, hc⟩ := transfer_exists hsent hrcvd
  exact ⟨.back 1, { s with back := c }, rfl, by rw [Exec, next, hc]; rfl⟩

/-- Main can only be kept from going on by a client that does not write or
does not read. -/
theorem goes_or_waits (hs : Inv es s) (hb : s.broken = false) : (∃ e s', e.own = true ∧ Exec next s e s') ∨
    (s.pc = .read ∧ s.forth.content = [] ∧ s.ended = false) ∨
    (∃ rest begun, s.pc = .write rest begun ∧ s.back.rcvd.length = B.recv ∧ s.back.sent.length = B.send) ∨ s.pc = .exited 0 := by
  have hsound := (hs.sound hb).2.1
  cases hp : s.pc with
  | accept => exact .inl ⟨.accept, { s with pc := .read }, rfl, if_pos hp⟩
  | read =>
      by_cases hrcvd : s.forth.rcvd = []
      · by_cases hsent : s.forth.sent = []
        · have hdata : s.forth.content = [] := by rw [Conn.content, hrcvd, hsent, List.append_nil]
          cases hended : s.ended with
          | true => exact .inl ⟨.eof, { s with pc := .exited 0 }, rfl, if_pos ⟨hp, hended, hdata⟩⟩
          | false => exact .inr (.inl ⟨rfl, hdata, rfl⟩)
        · refine .inl (forth_goes hsent ?_)
          rw [hrcvd]
          exact F.recv_pos
      · obtain ⟨r, hr⟩ := read_exists (show 0 < BUFSIZ by decide) hrcvd
        refine .inl ⟨.read 1, { s with forth := r.2, pc := .write r.1 false }, rfl, (if_pos hp).trans ?_⟩
        rw [hr]
        rfl
  | write rest begun =>
      have hfits := hs.fits
      rw [hp] at hfits
      by_cases hroom : s.back.sent.length < B.send
      · cases rest with
        | nil => exact absurd rfl hfits.1
        | cons b rest =>
            obtain ⟨c, hc⟩ := copy_exists b hroom
            refine .inl ⟨.copy 1, { s with back := c, pc := afterCopy (b :: rest) 1 }, rfl, ?_⟩
            simp only [Exec, next, hp]
            exact congrArg (Option.map _) hc
      · have hfull := Nat.le_antisymm s.back.sent_le (Nat.le_of_not_lt hroom)
        have hpos : 0 < B.send := Nat.lt_of_lt_of_le B.low_pos B.low_le
        by_cases hrcvd : s.back.rcvd.length < B.recv
        · exact .inl (back_goes (List.length_pos_iff.mp (by omega)) hrcvd)
        · exact .inr (.inr (.inl ⟨rest, begun, rfl, Nat.le_antisymm s.back.rcvd_le (Nat.le_of_not_lt hrcvd), hfull⟩))
  | exited status =>
      cases status with
      | zero => exact .inr (.inr (.inr rfl))
      | succ n =>
          rw [hp] at hsound
          cases hsound
  | killed =>
      rw [hp] at hsound
      cases hsound

theorem get_goes (hb : s.broken = false) (h : s.back.rcvd ≠ []) : ∃ s', Exec next s (.get 1 1) s' := by
  obtain ⟨r, hr⟩ := read_exists Nat.one_pos h
  refine ⟨{ s with back := r.2, got := s.got ++ r.1 }, (if_neg (ne_true_of_eq_false hb)).trans ?_⟩
  rw [hr]
  rfl

/-- After its shutdown a client can only read. -/
theorem own_or_reads (hended : s.ended = true) (he : e ≠ .reset) (hd : Does s e s') :
    e.own = true ∨ e.reads = true := by
  cases hd with
  | put _ _ _ hopen | shut hopen => exact absurd (hended.symm.trans hopen) (by simp)
  | get => exact .inr rfl
  | reset => exact absurd rfl he
  | accept | read | eof | copy | fail | cut | forth | back => exact .inl rfl

/-- A client that has shut down its direction and goes on reading gets back
all that it has written, and the server ends. -/
theorem all_comes_back (es : List Event) (s : State F B) (h : Run (Exec next) (initial F B) es s)
    (hb : s.broken = false) (hended : s.ended = true) :
    Inevitable (Guarded (Exec next) (fun _ e => e ≠ .reset)) (fun t => t.pc = .exited 0 ∧ t.got = s.put) s := by
  refine inevitable_of_rank (I := fun t => (∃ es, Inv es t) ∧ t.broken = false ∧ t.ended = true ∧ t.put = s.put) rank ?_
    ⟨⟨es, run_inv h⟩, hb, hended, rfl⟩
  rintro t ⟨⟨es', hs⟩, hb, hended, hput⟩ hnot
  have hget (hne : t.back.rcvd ≠ []) : ∃ e t', Guarded (Exec next) (fun _ e => e ≠ .reset) t e t' := by
    obtain ⟨t', hl⟩ := get_goes hb hne
    exact ⟨.get 1 1, t', by simp, hl⟩
  have hown (h : ∃ e t', e.own = true ∧ Exec next t e t') :
      ∃ e t', Guarded (Exec next) (fun _ e => e ≠ .reset) t e t' := by
    obtain ⟨e, t', he, hl⟩ := h
    refine ⟨e, t', fun hr => ?_, hl⟩
    subst hr
    cases he
  constructor
  · obtain hgo | ⟨_, _, hopen⟩ | ⟨rest, _, _, hrcvd, _⟩ | hp := goes_or_waits hs hb
    · exact hown hgo
    · exact absurd (hended.symm.trans hopen) (by simp)
    · exact hget (List.length_pos_iff.mp (hrcvd ▸ B.recv_pos))
    · -- what is not with the client yet is on its way back
      obtain ⟨hcut, hf, hexit⟩ := hs.sound hb
      have hflow := hs.flow hcut hf
      rw [hp, (hexit hp).2, Pc.held, List.append_nil, List.append_nil, hput] at hflow
      by_cases hrcvd : t.back.rcvd = []
      · refine hown (back_goes (fun hsent => hnot ⟨hp, ?_⟩) ?_)
        · rw [← hflow, Conn.content, hrcvd, hsent, List.append_nil, List.append_nil]
        · rw [hrcvd]
          exact B.recv_pos
      · exact hget hrcvd
  · rintro e u ⟨he, hl⟩
    have hd := does hl
    obtain ⟨hrank, hput', hended', hb'⟩ := rank_falls hb (own_or_reads hended he hd) hd
    exact ⟨⟨⟨_, hs.does hd⟩, hb'.trans hb, hended'.trans hended, hput'.trans hput⟩, hrank⟩

theorem all_comes_back_conversation : ∃ s, Run (Exec next) (initial small small) (conversation ++ [.shut]) s ∧
    Inevitable (Guarded (Exec next) (fun _ e => e ≠ .reset)) (fun t => t.pc = .exited 0 ∧ t.got = s.put) s := by
  obtain ⟨s, hs, hb, hended⟩ : ∃ s, replay next (initial small small) (conversation ++ [.shut]) = some s ∧
      s.broken = false ∧ s.ended = true := ⟨_, rfl, rfl, rfl⟩
  exact ⟨s, replay_run hs, all_comes_back _ s (replay_run hs) hb hended⟩

theorem own_got (he : e.own = true) (hd : Does s e s') : s'.got = s.got := by
  cases hd with
  | get => cases he
  | accept | read | eof | copy | fail | cut | forth | back | put | shut | reset => rfl

/-- A client need not read before it has written more than the four buffers of
the kernel hold: until then the server makes room for its next byte. -/
theorem makes_room (es : List Event) (s : State F B) (h : Run (Exec next) (initial F B) es s)
    (hb : s.broken = false) (hopen : s.ended = false)
    (hlt : s.put.length < s.got.length + (B.recv + B.send) + (F.recv + F.send)) :
    Inevitable (Guarded (Exec next) (fun _ e => e.own = true)) (fun t => t.forth.sent.length < F.send) s := by
  refine inevitable_of_rank
    (I := fun t => (∃ es, Inv es t) ∧ t.broken = false ∧ t.ended = false ∧ t.put = s.put ∧ t.got = s.got) rank ?_
    ⟨⟨es, run_inv h⟩, hb, hopen, rfl, rfl⟩
  rintro t ⟨⟨es', hs⟩, hb, hopen, hput, hgot⟩ hnot
  obtain ⟨hcut, hf, hexit⟩ := hs.sound hb
  have hfull := Nat.le_antisymm t.forth.sent_le (Nat.le_of_not_lt hnot)
  have hpos : 0 < F.send := Nat.lt_of_lt_of_le F.low_pos F.low_le
  constructor
  · have hgo : ∃ e t', e.own = true ∧ Exec next t e t' := by
      by_cases hrcvd : t.forth.rcvd.length < F.recv
      · exact forth_goes (List.length_pos_iff.mp (by omega)) hrcvd
      · obtain hgo | ⟨_, hdata, _⟩ | ⟨rest, begun, hp, hback, hsent⟩ | hp := goes_or_waits hs hb
        · exact hgo
        · have hlen := congrArg List.length hdata
          rw [Conn.content, List.length_append, List.length_nil] at hlen
          omega
        · -- all is full, and that is more than has been written
          have hlen := congrArg List.length (hs.flow hcut hf)
          simp only [Conn.content, List.length_append] at hlen
          rw [hput, hgot] at hlen
          omega
        · exact absurd (hopen.symm.trans (hexit hp).1) (by simp)
    obtain ⟨e, t', he, hl⟩ := hgo
    exact ⟨e, t', he, hl⟩
  · rintro e u ⟨he, hl⟩
    have hd := does hl
    obtain ⟨hrank, hput', hended', hb'⟩ := rank_falls hb (.inl he) hd
    exact ⟨⟨⟨_, hs.does hd⟩, hb'.trans hb, hended'.trans hopen, hput'.trans hput, (own_got he hd).trans hgot⟩, hrank⟩

/-- The server has accepted the connection, and the client can write nothing. -/
def flood : List Event := [.put [1, 2, 3, 4, 5], .forth 3, .put [6, 7, 8], .accept]

theorem makes_room_flood : ∃ s, Run (Exec next) (initial small small) flood s ∧ s.forth.sent.length = small.send ∧
    Inevitable (Guarded (Exec next) (fun _ e => e.own = true)) (fun t => t.forth.sent.length < small.send) s := by
  obtain ⟨s, hs, hfull, hb, hopen, hlt⟩ : ∃ s, replay next (initial small small) flood = some s ∧
      s.forth.sent.length = small.send ∧ s.broken = false ∧ s.ended = false ∧
      s.put.length < s.got.length + (small.recv + small.send) + (small.recv + small.send) :=
    ⟨_, rfl, rfl, rfl, rfl, by decide⟩
  exact ⟨s, replay_run hs, hfull, makes_room _ s (replay_run hs) hb hopen hlt⟩

end UnixProg.Inetd.AcceptRw

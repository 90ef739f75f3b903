import UnixProg.Lib.FileStore
import UnixProg.Lib.Transition

namespace UnixProg.FileLocking.Lockf

open Lib Transition FileStore

inductive Pc
  | openFile
  | lseek
  | lockf
  | pause
  | gone
deriving DecidableEq

/-- What `lockf()` locks, counted from the offset of the descriptor. The length
0 means without end. -/
structure Section where
  start : Nat
  size : Nat
deriving DecidableEq

def Section.Contains (sec : Section) (b : Nat) : Prop := sec.start ≤ b ∧ (sec.size = 0 ∨ b < sec.start + sec.size)

instance (sec : Section) (b : Nat) : Decidable (sec.Contains b) := inferInstanceAs (Decidable (_ ∧ _))

/-- A `read()` or `write()` of another process. -/
inductive Attempt
  | read (r : Region)
  | write (start : Nat) (data : List UInt8)

def Attempt.region : Attempt → Region
  | .read r => r
  | .write start data => ⟨start, data.length⟩

structure State where
  pc : Pc
  file : List UInt8
  pos : Nat
  size : Nat
  locked : Option Section

def writeBytes (f : List UInt8) (start : Nat) : List UInt8 → List UInt8
  | [] => f
  | b :: bs => writeBytes (writeAt 0 f start b) (start + 1) bs

def Attempt.perform (f : List UInt8) : Attempt → List UInt8
  | .read _ => f
  | .write start data => writeBytes f start data

/-- An attempt gets through when none of its bytes is locked. -/
def State.Passes (s : State) (a : Attempt) : Prop := ∀ sec ∈ s.locked, ∀ i < a.region.len, ¬ sec.Contains (a.region.start + i)

instance (s : State) (a : Attempt) : Decidable (s.Passes a) :=
  inferInstanceAs (Decidable (∀ sec ∈ s.locked, ∀ i < a.region.len, ¬ sec.Contains (a.region.start + i)))

/-- A statement of main that succeeds or fails, an attempt of another process
at any time, and the signal that ends the program. -/
inductive Event
  | exec (p : Pc)
  | fail (p : Pc)
  | attempt (a : Attempt)
  | kill

def main (s : State) : Option State :=
  match s.pc with
  | .openFile => some { s with pos := 0, pc := .lseek }
  | .lseek =>
      let size := lseek s.pos s.file.length 0 2
      some { s with pos := size, size := size, pc := .lockf }
  | .lockf => some { s with locked := some ⟨s.pos, s.size⟩, pc := .pause }
  | .pause | .gone => none

/-- The locks of a process are gone with it. -/
def State.exit (s : State) : State := { s with locked := none, pc := .gone }

def next (s : State) : Event → Option State
  | .exec p => if s.pc = p then main s else none
  | .fail p => if s.pc = p ∧ p ≠ .pause ∧ p ≠ .gone then some s.exit else none
  | .attempt a => some (if s.Passes a then { s with file := a.perform s.file } else s)
  | .kill => if s.pc = .pause then some s.exit else none

def initial (file : List UInt8) : State := ⟨.openFile, file, 0, 0, none⟩

def Attempt.Touches (a : Attempt) (f : List UInt8) : Prop := ∃ i < a.region.len, a.region.start + i < f.length

/-- No attempt gets through that touches an existing byte. -/
def Protected (s : State) : Prop := ∀ a : Attempt, a.Touches s.file → ¬ s.Passes a

/-- The file is empty when its size is measured. -/
def MeasuresEmpty (s : State) (e : Event) : Prop := e = .exec .lseek → s.file = []

variable {s s' : State} {e : Event} {es : List Event} {file : List UInt8}

theorem length_le_writeBytes (f : List UInt8) (start : Nat) (data : List UInt8) : f.length ≤ (writeBytes f start data).length := by
  induction data generalizing f start with
  | nil => exact Nat.le_refl _
  | cons b bs ih =>
      have hlen := length_writeAt 0 f start b
      have := ih (writeAt 0 f start b) (start + 1)
      rw [writeBytes]
      omega

theorem length_le_perform (f : List UInt8) (a : Attempt) : f.length ≤ (a.perform f).length := by
  cases a with
  | read r => exact Nat.le_refl _
  | write start data => exact length_le_writeBytes f start data

/-- What a step does: a statement of main, an attempt, or the end. -/
inductive Does (s : State) : Event → State → Prop
  | openFile (h : s.pc = .openFile) : Does s (.exec .openFile) { s with pos := 0, pc := .lseek }
  | lseek (h : s.pc = .lseek) : Does s (.exec .lseek) { s with pos := s.file.length, size := s.file.length, pc := .lockf }
  | lockf (h : s.pc = .lockf) : Does s (.exec .lockf) { s with locked := some ⟨s.pos, s.size⟩, pc := .pause }
  | attempt (a : Attempt) (f : List UInt8) (hlen : s.file.length ≤ f.length) : Does s (.attempt a) { s with file := f }
  | exit (e : Event) (he : e ≠ .exec .lseek) : Does s e s.exit

theorem main_does (h : main s = some s') : Does s (.exec s.pc) s' := by
  cases hp : s.pc with
  | pause | gone => simp [main, hp] at h
  | openFile =>
      simp only [main, hp, Option.some.injEq] at h
      exact h ▸ .openFile hp
  | lseek =>
      simp only [main, hp, Option.some.injEq] at h
      subst h
      simpa [lseek] using Does.lseek hp
  | lockf =>
      simp only [main, hp, Option.some.injEq] at h
      exact h ▸ .lockf hp

theorem does (h : next s e = some s') : Does s e s' := by
  cases e with
  | exec p =>
      obtain ⟨rfl, hmain⟩ := Option.ite_none_right_eq_some.mp h
      exact main_does hmain
  | fail p =>
      obtain ⟨-, heq⟩ := Option.ite_none_right_eq_some.mp h
      obtain rfl := Option.some.inj heq
      exact .exit _ nofun
  | attempt a =>
      obtain rfl := Option.some.inj h
      split
      · exact .attempt a _ (length_le_perform s.file a)
      · exact .attempt a s.file (Nat.le_refl _)
  | kill =>
      obtain ⟨-, heq⟩ := Option.ite_none_right_eq_some.mp h
      obtain rfl := Option.some.inj heq
      exact .exit _ nofun

/-- The offset is behind the file when the lock is set, so that the section
begins where the file has ended. -/
structure Inv (s : State) : Prop where
  measured (h : s.pc = .lockf ∨ s.pc = .pause) : s.pos = s.size ∧ s.size ≤ s.file.length
  locked (h : s.pc = .pause) : s.locked = some ⟨s.size, s.size⟩

theorem Inv.next (hs : Inv s) (h : Does s e s') : Inv s' := by
  cases h with
  | openFile => exact ⟨by simp, by simp⟩
  | lseek => exact ⟨fun _ => ⟨rfl, Nat.le_refl _⟩, by simp⟩
  | lockf hp =>
      have hmeasured := hs.measured (.inl hp)
      exact ⟨fun _ => hmeasured, fun _ => by rw [hmeasured.1]⟩
  | attempt a f hlen => exact ⟨fun hp => ⟨(hs.measured hp).1, (hs.measured hp).2.trans hlen⟩, hs.locked⟩
  | exit => exact ⟨by simp [State.exit], by simp [State.exit]⟩

theorem run_inv (h : Run (Exec next) (initial file) es s) : Inv s :=
  Reachable.invariant ⟨by simp [initial], by simp [initial]⟩ (fun _ _ _ hs hl => hs.next (does hl)) h.reachable

/-- While the program sits in `pause()`, what it has locked is just what is in
the way of the attempts. -/
theorem protected_pause (hs : Inv s) (hp : s.pc = .pause) : Protected s ↔ s.size = 0 := by
  have hlocked := hs.locked hp
  constructor
  · intro hprot
    by_contra hne
    have hlen := (hs.measured (.inr hp)).2
    apply hprot (.read ⟨0, 1⟩) ⟨0, by simp [Attempt.region], by simp [Attempt.region]; omega⟩
    intro sec hsec i hi hcontains
    rw [hlocked, Option.mem_some_iff] at hsec
    subst hsec
    have hstart := hcontains.1
    simp only [Attempt.region] at hi hstart
    omega
  · intro hzero a ⟨i, hi, _⟩ hpass
    apply hpass _ hlocked i hi
    rw [hzero]
    exact ⟨Nat.zero_le _, .inl rfl⟩

/-- The size is 0 just when the file was empty at the `lseek()`. -/
theorem guarded_iff_size (h : Run (Exec next) (initial file) es s) :
    (s.pc = .openFile ∨ s.pc = .lseek → Run (Guarded (Exec next) MeasuresEmpty) (initial file) es s) ∧
    (s.pc = .lockf ∨ s.pc = .pause → (Run (Guarded (Exec next) MeasuresEmpty) (initial file) es s ↔ s.size = 0)) := by
  induction h with
  | nil => exact ⟨fun _ => .nil, by simp [initial]⟩
  | @snoc es e s s' hr hl ih =>
      rw [guarded_snoc hr hl]
      cases does hl with
      | openFile hp => exact ⟨fun _ => ⟨ih.1 (.inl hp), nofun⟩, by simp⟩
      | lseek hp =>
          have hg := ih.1 (.inr hp)
          refine ⟨by simp, fun _ => ⟨fun h => ?_, fun h => ⟨hg, fun _ => List.length_eq_zero_iff.mp h⟩⟩⟩
          exact List.length_eq_zero_iff.mpr (h.2 rfl)
      | lockf hp =>
          have hiff := ih.2 (.inl hp)
          exact ⟨by simp, fun _ => ⟨fun h => hiff.mp h.1, fun h => ⟨hiff.mpr h, nofun⟩⟩⟩
      | attempt a f hlen =>
          exact ⟨fun hp => ⟨ih.1 hp, nofun⟩, fun hp => ⟨fun h => (ih.2 hp).mp h.1, fun h => ⟨(ih.2 hp).mpr h, nofun⟩⟩⟩
      | exit => exact ⟨by simp [State.exit], by simp [State.exit]⟩

/-- The whole file is locked just when there is nothing in it to lock. -/
theorem protected_iff_empty (file : List UInt8) (es : List Event) (s : State) (h : Run (Exec next) (initial file) es s)
    (hp : s.pc = .pause) : Run (Guarded (Exec next) MeasuresEmpty) (initial file) es s ↔ Protected s :=
  ((guarded_iff_size h).2 (.inr hp)).trans (protected_pause (run_inv h) hp).symm

def untilPause : List Event := [.exec .openFile, .exec .lseek, .exec .lockf]

/-- An empty file stays empty. -/
theorem protected_iff_empty_kept : ∃ s, Run (Exec next) (initial []) (untilPause ++ [.attempt (.write 0 [102])]) s ∧
    Protected s ∧ s.file = [] := by
  obtain ⟨s, hs, hp, hsize, hfile⟩ : ∃ s, replay next (initial []) (untilPause ++ [.attempt (.write 0 [102])]) = some s ∧
      s.pc = .pause ∧ s.size = 0 ∧ s.file = [] := ⟨_, rfl, rfl, rfl, rfl⟩
  have hrun := replay_run hs
  have hguarded := ((guarded_iff_size hrun).2 (.inr hp)).mpr hsize
  exact ⟨s, hrun, (protected_iff_empty [] _ s hrun hp).mp hguarded, hfile⟩

/-- The first byte of a file is overwritten under the lock, and only what is
appended is held up. -/
theorem first_byte_overwritten : ∃ s,
    Run (Exec next) (initial [97, 98]) (untilPause ++ [.attempt (.write 0 [102]), .attempt (.write 2 [111])]) s ∧
    s.pc = .pause ∧ s.locked = some ⟨2, 2⟩ ∧ s.file = [102, 98] ∧ ¬ Protected s := by
  obtain ⟨s, hs, hp, hsize, hlocked, hfile⟩ : ∃ s,
      replay next (initial [97, 98]) (untilPause ++ [.attempt (.write 0 [102]), .attempt (.write 2 [111])]) = some s ∧
      s.pc = .pause ∧ s.size = 2 ∧ s.locked = some ⟨2, 2⟩ ∧ s.file = [102, 98] := ⟨_, rfl, rfl, rfl, rfl, rfl⟩
  have hrun := replay_run hs
  refine ⟨s, hrun, hp, hlocked, hfile, fun hprot => ?_⟩
  have hzero := (protected_pause (run_inv hrun) hp).mp hprot
  omega

end UnixProg.FileLocking.Lockf

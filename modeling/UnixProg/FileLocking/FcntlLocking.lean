import UnixProg.Lib.FileStore
import UnixProg.Lib.Transition
import Mathlib.Data.Fintype.Option

namespace UnixProg.FileLocking.FcntlLocking

open Lib Transition FileStore

def fileLen : Nat := 70

/-- The middle of the file, where the locked half begins. -/
def middle : Nat := fileLen / 2

inductive Mode
  | noLock
  | sharedFd
  | exclusiveFd
deriving DecidableEq

/-- What the test for more than `NO_LOCK` says. -/
def Mode.locking : Mode → Bool
  | .noLock => false
  | .sharedFd | .exclusiveFd => true

/-- The bytes of the file: zeros, the mark in the middle, the characters of the children. -/
inductive Byte (C : Type)
  | zero
  | bar
  | mark (i : C)
deriving DecidableEq

/-- The open file descriptions: the one of main that the children share, their
own ones, and the one of `dump_file`. -/
inductive Desc (C : Type)
  | shared
  | own (i : C)
  | dump
deriving DecidableEq

inductive Pc
  | start
  | top
  | lock
  | seekBar
  | writeBar
  | seek
  | write
  | test
  | unlock
deriving DecidableEq

inductive DumpPc
  | lockr
  | seek
  | memset
  | read
  | print
  | unlock
deriving DecidableEq

variable {C : Type}

/-- The locks are those of the children and of the parent, who is `none`. Each
dump that was printed is kept with the number of bytes read. -/
structure State (C : Type) where
  file : List (Byte C)
  offset : Desc C → Nat
  locks : Table (Option C)
  pc : C → Pc
  j : C → Nat
  dumpPc : DumpPc
  buf : List (Byte C)
  n : Nat
  dumps : List (List (Byte C) × Nat)

def region : Region := ⟨middle, middle⟩

def Mode.desc (mode : Mode) (i : C) : Desc C :=
  match mode with
  | .noLock | .sharedFd => .shared
  | .exclusiveFd => .own i

/-- Extending the file: with a private descriptor it is closed already, and
else the two last arguments of `lseek()` have changed places. -/
def setUp : Mode → List (Byte C) × Nat
  | .exclusiveFd => ([], 0)
  | .noLock | .sharedFd =>
      let pos := lseek 0 0 0 (fileLen - 1)
      (writeAt .zero [] pos .zero, pos + 1)

def initial (mode : Mode) : State C where
  file := (setUp mode).1
  offset := fun d => if d matches .shared then (setUp (C := C) mode).2 else 0
  locks := fun _ _ => none
  pc := fun _ => if mode = .exclusiveFd then .start else .top
  j := fun _ => 0
  dumpPc := .lockr
  buf := []
  n := 0
  dumps := []

section Step

variable [DecidableEq C] [Fintype C]

def State.goto (s : State C) (i : C) (p : Pc) : State C := { s with pc := Function.update s.pc i p }

def State.seek (s : State C) (d : Desc C) (offset : Nat) : State C :=
  { s with offset := Function.update s.offset d (lseek (s.offset d) s.file.length offset 0) }

def State.write (s : State C) (d : Desc C) (b : Byte C) : State C :=
  { s with
    file := writeAt .zero s.file (s.offset d) b
    offset := Function.update s.offset d (s.offset d + 1) }

def State.count (s : State C) (i : C) (j : Nat) : State C := { s with j := Function.update s.j i j }

def State.setLock (s : State C) (p : Option C) (k : Option Kind) : State C := { s with locks := s.locks.set p region k }

/-- A statement of the loop of a child. -/
def childStep (mode : Mode) (i : C) (s : State C) : Option (State C) :=
  let d := mode.desc i
  match s.pc i with
  | .start => some ((s.seek d 0).goto i .top)
  | .top => some (s.goto i (if s.j i = middle then (if mode.locking then .lock else .seekBar) else .seek))
  | .lock => if Grantable s.locks (some i) region .write then some ((s.setLock (some i) (some .write)).goto i .seekBar) else none
  | .seekBar => some (((s.seek d (s.j i)).count i (s.j i + 1)).goto i .writeBar)
  | .writeBar => some ((s.write d .bar).goto i .seek)
  | .seek => some (((s.seek d (s.j i)).count i (s.j i + 1)).goto i .write)
  | .write => some ((s.write d (.mark i)).goto i .test)
  | .test =>
      if s.j i = fileLen then some ((s.count i 0).goto i (if mode.locking then .unlock else .top))
      else some (s.goto i .top)
  | .unlock => some ((s.setLock (some i) none).goto i .top)

/-- A statement of the loop of `dump_file`. -/
def dumpStep (mode : Mode) (s : State C) : Option (State C) :=
  match s.dumpPc with
  | .lockr =>
      if mode.locking then
        if Grantable s.locks none region .read then some { s.setLock none (some .read) with dumpPc := .seek } else none
      else some { s with dumpPc := .seek }
  | .seek => some { s.seek .dump 0 with dumpPc := .memset }
  | .memset => some { s with buf := List.replicate fileLen .zero, dumpPc := .read }
  | .read =>
      let r := readAt s.file (s.offset .dump) s.buf
      some { s with
        buf := r.1
        n := r.2
        offset := Function.update s.offset .dump (s.offset .dump + r.2)
        dumpPc := .print }
  | .print => some { s with dumps := s.dumps ++ [(s.buf, s.n)], dumpPc := .unlock }
  | .unlock => some { (if mode.locking then s.setLock none none else s) with dumpPc := .lockr }

inductive Event (C : Type)
  | child (i : C)
  | parent

def next (mode : Mode) (s : State C) : Event C → Option (State C)
  | .child i => childStep mode i s
  | .parent => dumpStep mode s

end Step

/-- Inside the locked half, how far the pass of a child has come. -/
def progress (p : Pc) (j : Nat) : Option Nat :=
  match p with
  | .start | .lock => none
  | .seekBar | .writeBar => some 36
  | .top | .test => if 36 < j then some j else none
  | .seek => if 36 ≤ j then some j else none
  | .write => if 36 < j then some (j - 1) else none
  | .unlock => some 70

/-- The counter at each point of the loop, and the offset before a write. -/
def Placed (p : Pc) (j offset : Nat) : Prop :=
  match p with
  | .start | .unlock => j = 0
  | .top => j < 70 ∧ j ≠ 36
  | .lock | .seekBar => j = 35
  | .writeBar => j = 36 ∧ offset = 35
  | .seek => j < 70 ∧ j ≠ 35
  | .write => j ≤ 70 ∧ j ≠ 36 ∧ offset + 1 = j
  | .test => 0 < j ∧ j ≤ 70 ∧ j ≠ 36

/-- All bytes behind the mark in the middle are the same. -/
def Filled (f : List (Byte C)) (x : Byte C) : Prop := ∀ p, middle + 1 ≤ p → p < fileLen → byteAt .zero f p = x

def Uniform (f : List (Byte C)) : Prop := Filled f .zero ∨ ∃ i, Filled f (.mark i)

/-- The locked half in the middle of a pass: new characters up to a position,
and what the pass before has left from there on. -/
def Half (f : List (Byte C)) (i : C) (k : Nat) : Prop :=
  ∃ x, (x = .zero ∨ ∃ u, x = .mark u) ∧ ∀ p, 36 ≤ p → p < 70 → byteAt .zero f p = if p < k then .mark i else x

def Same (f f' : List (Byte C)) : Prop := ∀ p, 36 ≤ p → p < 70 → byteAt .zero f' p = byteAt .zero f p

/-- How far the parent has come with the next dump. -/
def Buffered (p : DumpPc) (offset : Nat) (buf : List (Byte C)) : Prop :=
  match p with
  | .memset => offset = 0
  | .read => offset = 0 ∧ buf = List.replicate fileLen .zero
  | .print => Uniform buf
  | .lockr | .seek | .unlock => True

def State.progress (s : State C) (i : C) : Option Nat := FcntlLocking.progress (s.pc i) (s.j i)

/-- In the `-L` mode. -/
structure Inv (s : State C) : Prop where
  sound : Sound s.locks
  held (i b) : s.locks (some i) b = if (s.progress i).isSome ∧ region.Contains b then some .write else none
  reader (b) : s.locks none b = if s.dumpPc ≠ .lockr ∧ region.Contains b then some .read else none
  placed (i) : Placed (s.pc i) (s.j i) (s.offset (.own i))
  half (i k) (h : s.progress i = some k) : Half s.file i k
  free (h : ∀ i, s.progress i = none) : Uniform s.file
  buffered : Buffered s.dumpPc (s.offset .dump) s.buf
  dumps (d) (h : d ∈ s.dumps) : Uniform d.1

theorem Same.refl (f : List (Byte C)) : Same f f := fun _ _ _ => rfl

theorem Uniform.congr {f f' : List (Byte C)} (h : Uniform f) (hf : Same f f') : Uniform f' := by
  obtain h | ⟨i, h⟩ := h
  · exact .inl (fun p hp hp' => (hf p hp hp').trans (h p hp hp'))
  · exact .inr ⟨i, fun p hp hp' => (hf p hp hp').trans (h p hp hp')⟩

theorem Half.congr {f f' : List (Byte C)} {i : C} {k : Nat} (h : Half f i k) (hf : Same f f') : Half f' i k := by
  obtain ⟨x, hx, h⟩ := h
  exact ⟨x, hx, fun p hp hp' => (hf p hp hp').trans (h p hp hp')⟩

theorem Uniform.half {f : List (Byte C)} (h : Uniform f) (i : C) : Half f i 36 := by
  obtain h | ⟨u, h⟩ := h
  · exact ⟨.zero, .inl rfl, fun p hp hp' => by rw [h p hp hp', if_neg (by omega)]⟩
  · exact ⟨.mark u, .inr ⟨u, rfl⟩, fun p hp hp' => by rw [h p hp hp', if_neg (by omega)]⟩

theorem Half.uniform {f : List (Byte C)} {i : C} (h : Half f i 70) : Uniform f := by
  obtain ⟨x, _, h⟩ := h
  exact .inr ⟨i, fun p hp hp' => (h p hp hp').trans (if_pos hp')⟩

theorem Half.write {f : List (Byte C)} {i : C} {k : Nat} (h : Half f i k) :
    Half (writeAt .zero f k (.mark i)) i (k + 1) := by
  obtain ⟨x, hx, h⟩ := h
  refine ⟨x, hx, fun p hp hp' => ?_⟩
  rw [byteAt_writeAt]
  by_cases hpk : p = k
  · rw [if_pos hpk, if_pos (by omega)]
  · rw [if_neg hpk, h p hp hp']
    by_cases hlt : p < k
    · rw [if_pos hlt, if_pos (by omega)]
    · rw [if_neg hlt, if_neg (by omega)]

theorem same_write {f : List (Byte C)} {offset : Nat} (ho : offset < 36) (b : Byte C) :
    Same f (writeAt .zero f offset b) := by
  intro p hp _
  rw [byteAt_writeAt, if_neg (by omega)]

variable {s s' : State C} {i u : C} {k : Nat}

theorem Inv.holds (hs : Inv s) (h : s.progress i = some k) {b : Nat} (hb : region.Contains b) :
    s.locks (some i) b = some .write := by
  rw [hs.held, h, if_pos ⟨rfl, hb⟩]

theorem middle_contained : region.Contains 35 := by decide

theorem Inv.alone (hs : Inv s) (h : s.progress i = some k) (hu : u ≠ i) : s.progress u = none := by
  have hnone := hs.sound.exclusive (hs.holds h middle_contained) (q := some u) (by simpa using hu)
  rw [hs.held] at hnone
  cases hp : s.progress u with
  | none => rfl
  | some k' =>
      rw [hp, if_pos ⟨rfl, middle_contained⟩] at hnone
      cases hnone

/-- While a dump is read, no child is in the locked half. -/
theorem Inv.quiet (hs : Inv s) (h : s.dumpPc ≠ .lockr) (i : C) : s.progress i = none := by
  cases hp : s.progress i with
  | none => rfl
  | some k =>
      have hnone := hs.sound.exclusive (hs.holds hp middle_contained) (q := none) (by simp)
      rw [hs.reader, if_pos ⟨h, middle_contained⟩] at hnone
      cases hnone

/-- A step of the parent leaves the children and the file as they are. -/
theorem Inv.dumped (hs : Inv s) (hpc : s'.pc = s.pc) (hj : s'.j = s.j) (hoff : ∀ i, s'.offset (.own i) = s.offset (.own i))
    (hfile : s'.file = s.file) (hsound : Sound s'.locks) (hheld : ∀ i b, s'.locks (some i) b = s.locks (some i) b)
    (hreader : ∀ b, s'.locks none b = if s'.dumpPc ≠ .lockr ∧ region.Contains b then some .read else none)
    (hbuffered : Buffered s'.dumpPc (s'.offset .dump) s'.buf) (hdumps : ∀ d ∈ s'.dumps, Uniform d.1) : Inv s' := by
  have hprogress (i : C) : s'.progress i = s.progress i := by rw [State.progress, hpc, hj, State.progress]
  exact {
    sound := hsound
    held := fun i b => by rw [hheld, hprogress, hs.held]
    reader := hreader
    placed := fun i => by rw [hpc, hj, hoff]; exact hs.placed i
    half := fun i k hk => hfile ▸ hs.half i k (hprogress i ▸ hk)
    free := fun hall => hfile ▸ hs.free (fun i => hprogress i ▸ hall i)
    buffered := hbuffered
    dumps := hdumps }

theorem initial_inv : Inv (initial (C := C) .exclusiveFd) where
  sound := nofun
  held := fun _ _ => rfl
  reader := fun _ => rfl
  placed := fun _ => rfl
  half := nofun
  free := fun _ => .inl (fun _ _ _ => rfl)
  buffered := trivial
  dumps := nofun

variable [DecidableEq C]

/-- A step of one child, with its point, its counter and its offset afterwards. -/
structure Moved (i : C) (p : Pc) (j offset : Nat) (s s' : State C) : Prop where
  pc : s'.pc = Function.update s.pc i p
  count : s'.j = Function.update s.j i j
  offset : s'.offset = Function.update s.offset (.own i) offset
  dump : s'.dumpPc = s.dumpPc ∧ s'.buf = s.buf ∧ s'.dumps = s.dumps

variable {p : Pc} {j o : Nat}

theorem Moved.progress_self (hm : Moved i p j o s s') : s'.progress i = progress p j := by
  rw [State.progress, hm.pc, hm.count, Function.update_self, Function.update_self]

theorem Moved.progress_other (hm : Moved i p j o s s') (hu : u ≠ i) : s'.progress u = s.progress u := by
  rw [State.progress, hm.pc, hm.count, Function.update_of_ne hu, Function.update_of_ne hu, State.progress]

theorem Inv.moved (hs : Inv s) (hm : Moved i p j o s s') (hplaced : Placed p j o) (hsound : Sound s'.locks)
    (hheld : ∀ u b, s'.locks (some u) b = if (s'.progress u).isSome ∧ region.Contains b then some .write else none)
    (hreader : ∀ b, s'.locks none b = s.locks none b)
    (hhalf : ∀ k, progress p j = some k → Half s'.file i k)
    (hother : ∀ u, u ≠ i → ∀ k, s.progress u = some k → Half s'.file u k)
    (hfree : (∀ u, s'.progress u = none) → Uniform s'.file) : Inv s' where
  sound := hsound
  held := hheld
  reader := fun b => by rw [hreader, hm.dump.1, hs.reader]
  placed := by
    intro u
    rw [hm.pc, hm.count, hm.offset]
    by_cases hu : u = i
    · subst hu
      simpa using hplaced
    · have hown : Desc.own u ≠ .own i := by simpa using hu
      rw [Function.update_of_ne hu, Function.update_of_ne hu, Function.update_of_ne hown]
      exact hs.placed u
  half := by
    intro u k hk
    by_cases hu : u = i
    · subst hu
      exact hhalf k (hm.progress_self ▸ hk)
    · exact hother u hu k (hm.progress_other hu ▸ hk)
  free := hfree
  buffered := by
    rw [hm.dump.1, hm.dump.2.1, hm.offset, Function.update_of_ne (by simp)]
    exact hs.buffered
  dumps := fun d hd => hs.dumps d (hm.dump.2.2 ▸ hd)

theorem Inv.keep (hs : Inv s) (hm : Moved i p j o s s') (hprogress : progress p j = s.progress i) (hplaced : Placed p j o)
    (hlocks : s'.locks = s.locks) (hfile : Same s.file s'.file) : Inv s' := by
  have hall (u : C) : s'.progress u = s.progress u := by
    by_cases hu : u = i
    · rw [hu, hm.progress_self, hprogress]
    · exact hm.progress_other hu
  apply hs.moved hm hplaced
  · exact hlocks ▸ hs.sound
  · intro u b
    rw [hlocks, hall, hs.held]
  · exact fun b => by rw [hlocks]
  · exact fun k hk => (hs.half i k (hprogress ▸ hk)).congr hfile
  · exact fun u _ k hk => (hs.half u k hk).congr hfile
  · exact fun hfree => (hs.free (fun u => hall u ▸ hfree u)).congr hfile

theorem Inv.advance (hs : Inv s) (hm : Moved i p j o s s') (hin : s.progress i = some k) {k' : Nat}
    (hin' : progress p j = some k') (hplaced : Placed p j o) (hlocks : s'.locks = s.locks)
    (hfile : Half s'.file i k') : Inv s' := by
  apply hs.moved hm hplaced
  · exact hlocks ▸ hs.sound
  · intro u b
    rw [hlocks, hs.held]
    by_cases hu : u = i
    · rw [hu, hm.progress_self, hin, hin']
      rfl
    · rw [hm.progress_other hu]
  · exact fun b => by rw [hlocks]
  · intro k hk
    rw [hin'] at hk
    cases hk
    exact hfile
  · intro u hu k hk
    rw [hs.alone hin hu] at hk
    cases hk
  · intro hall
    have := hall i
    rw [hm.progress_self, hin'] at this
    cases this

theorem Inv.enter (hs : Inv s) (hm : Moved i p j o s s') (hout : s.progress i = none) (hin : progress p j = some 36)
    (hplaced : Placed p j o) (hgrant : Grantable s.locks (some i) region .write)
    (hlocks : s'.locks = s.locks.set (some i) region (some .write)) (hfile : s'.file = s.file) : Inv s' := by
  have hnobody (u : C) : s.progress u = none := by
    by_cases hu : u = i
    · rw [hu, hout]
    · cases hp : s.progress u with
      | none => rfl
      | some k => cases hgrant (some u) (by simpa using hu) 0 (by decide) .write (hs.holds hp middle_contained)
  apply hs.moved hm hplaced
  · exact hlocks ▸ hs.sound.lock hgrant
  · intro u b
    rw [hlocks, Table.set, hs.held]
    by_cases hu : u = i
    · simp [hu, hm.progress_self, hin, hout]
    · simp [hu, hm.progress_other hu]
  · intro b
    simp [hlocks, Table.set]
  · intro k hk
    rw [hin] at hk
    cases hk
    exact hfile ▸ (hs.free hnobody).half i
  · intro u _ k hk
    rw [hnobody u] at hk
    cases hk
  · exact fun _ => hfile ▸ hs.free hnobody

theorem Inv.leave (hs : Inv s) (hm : Moved i p j o s s') (hin : s.progress i = some 70) (hout : progress p j = none)
    (hplaced : Placed p j o) (hlocks : s'.locks = s.locks.set (some i) region none) (hfile : s'.file = s.file) :
    Inv s' := by
  apply hs.moved hm hplaced
  · exact hlocks ▸ hs.sound.unlock (some i) region
  · intro u b
    rw [hlocks, Table.set, hs.held]
    by_cases hu : u = i
    · by_cases hb : region.Contains b
      · simp [hu, hm.progress_self, hout, hb]
      · simp [hu, hb]
    · simp [hu, hm.progress_other hu]
  · intro b
    simp [hlocks, Table.set]
  · intro k hk
    rw [hout] at hk
    cases hk
  · intro u hu k hk
    rw [hs.alone hin hu] at hk
    cases hk
  · exact fun _ => hfile ▸ (hs.half i 70 hin).uniform

variable [Fintype C]

theorem childStep_inv (hs : Inv s) (h : childStep .exclusiveFd i s = some s') : Inv s' := by
  have hplaced := hs.placed i
  have hj : s.j = Function.update s.j i (s.j i) := (Function.update_eq_self ..).symm
  have ho : s.offset = Function.update s.offset (.own i) (s.offset (.own i)) := (Function.update_eq_self ..).symm
  cases hp : s.pc i with
  | start =>
      simp only [childStep, hp, Option.some.injEq] at h
      subst h
      rw [hp] at hplaced
      have hzero : s.j i = 0 := hplaced
      refine hs.keep ⟨rfl, hj, rfl, rfl, rfl, rfl⟩ ?_ ?_ rfl (.refl _)
      · simp [State.progress, hp, progress, hzero]
      · simp [Placed, hzero]
  | top =>
      simp only [childStep, hp, Option.some.injEq] at h
      subst h
      rw [hp] at hplaced
      obtain ⟨hlt, hne⟩ := hplaced
      by_cases hmid : s.j i = middle
      · have h35 : s.j i = 35 := hmid
        rw [if_pos hmid]
        refine hs.keep (p := .lock) ⟨rfl, hj, ho, rfl, rfl, rfl⟩ ?_ h35 rfl (.refl _)
        simp [State.progress, hp, progress, h35]
      · have h35 : s.j i ≠ 35 := hmid
        rw [if_neg hmid]
        refine hs.keep (p := .seek) ⟨rfl, hj, ho, rfl, rfl, rfl⟩ ?_ ⟨hlt, h35⟩ rfl (.refl _)
        have hiff : 36 ≤ s.j i ↔ 36 < s.j i := by omega
        simp [State.progress, hp, progress, hiff]
  | lock =>
      simp only [childStep, hp, Option.ite_none_right_eq_some, Option.some.injEq] at h
      obtain ⟨hgrant, rfl⟩ := h
      rw [hp] at hplaced
      refine hs.enter (p := .seekBar) ⟨rfl, hj, ho, rfl, rfl, rfl⟩ ?_ rfl hplaced hgrant rfl rfl
      simp [State.progress, hp, progress]
  | seekBar =>
      simp only [childStep, hp, Option.some.injEq] at h
      subst h
      rw [hp] at hplaced
      have h35 : s.j i = 35 := hplaced
      refine hs.keep (p := .writeBar) ⟨rfl, rfl, rfl, rfl, rfl, rfl⟩ ?_ ⟨by rw [h35], h35⟩ rfl (.refl _)
      simp [State.progress, hp, progress]
  | writeBar =>
      simp only [childStep, hp, Option.some.injEq] at h
      subst h
      rw [hp] at hplaced
      obtain ⟨h36, h35⟩ := hplaced
      have hlow : s.offset (.own i) < 36 := by omega
      refine hs.keep (p := .seek) ⟨rfl, hj, rfl, rfl, rfl, rfl⟩ ?_ ⟨by omega, by omega⟩ rfl (same_write hlow _)
      simp [State.progress, hp, progress, h36]
  | seek =>
      simp only [childStep, hp, Option.some.injEq] at h
      subst h
      rw [hp] at hplaced
      obtain ⟨hlt, hne⟩ := hplaced
      refine hs.keep (p := .write) ⟨rfl, rfl, rfl, rfl, rfl, rfl⟩ ?_ ⟨by omega, by omega, rfl⟩ rfl (.refl _)
      have hiff : 36 < s.j i + 1 ↔ 36 ≤ s.j i := by omega
      simp [State.progress, hp, progress, hiff]
  | write =>
      simp only [childStep, hp, Option.some.injEq] at h
      subst h
      rw [hp] at hplaced
      obtain ⟨hle, hne, hoff⟩ := hplaced
      have hplaced' (o : Nat) : Placed .test (s.j i) o := ⟨by omega, hle, hne⟩
      by_cases hin : 36 < s.j i
      · have hk : s.progress i = some (s.j i - 1) := by simp [State.progress, hp, progress, hin]
        have hpos : s.j i - 1 = s.offset (.own i) := by omega
        have hhalf := (hs.half i _ hk).write
        rw [Nat.sub_add_cancel (by omega), hpos] at hhalf
        refine hs.advance (p := .test) ⟨rfl, hj, rfl, rfl, rfl, rfl⟩ hk ?_ (hplaced' _) rfl hhalf
        simp [progress, hin]
      · have hlow : s.offset (.own i) < 36 := by omega
        refine hs.keep (p := .test) ⟨rfl, hj, rfl, rfl, rfl, rfl⟩ ?_ (hplaced' _) rfl (same_write hlow _)
        simp [State.progress, hp, progress, hin]
  | test =>
      simp only [childStep, hp] at h
      rw [hp] at hplaced
      obtain ⟨hpos, hle, hne⟩ := hplaced
      by_cases hend : s.j i = fileLen
      · simp only [if_pos hend, Option.some.injEq] at h
        subst h
        have h70 : s.j i = 70 := hend
        refine hs.keep (p := .unlock) ⟨rfl, rfl, ho, rfl, rfl, rfl⟩ ?_ rfl rfl (.refl _)
        simp [State.progress, hp, progress, h70]
      · simp only [if_neg hend, Option.some.injEq] at h
        subst h
        have h70 : s.j i ≠ 70 := hend
        refine hs.keep (p := .top) ⟨rfl, hj, ho, rfl, rfl, rfl⟩ ?_ ⟨by omega, hne⟩ rfl (.refl _)
        simp [State.progress, hp, progress]
  | unlock =>
      simp only [childStep, hp, Option.some.injEq] at h
      subst h
      rw [hp] at hplaced
      have hzero : s.j i = 0 := hplaced
      refine hs.leave (p := .top) ⟨rfl, hj, ho, rfl, rfl, rfl⟩ ?_ ?_ ⟨by omega, by omega⟩ rfl rfl
      · simp [State.progress, hp, progress]
      · simp [progress, hzero]

theorem dumpStep_inv (hs : Inv s) (h : dumpStep .exclusiveFd s = some s') : Inv s' := by
  have hlocked {p : DumpPc} (hp : s.dumpPc = p) (hne : p ≠ .lockr) {p' : DumpPc} (hne' : p' ≠ .lockr) (b : Nat) :
      s.locks none b = if p' ≠ .lockr ∧ region.Contains b then some .read else none := by
    rw [hs.reader, hp]
    simp [hne, hne']
  have hbuffered := hs.buffered
  cases hp : s.dumpPc with
  | lockr =>
      simp only [dumpStep, hp, Mode.locking, if_true, Option.ite_none_right_eq_some, Option.some.injEq] at h
      obtain ⟨hgrant, rfl⟩ := h
      refine hs.dumped rfl rfl (fun _ => rfl) rfl (hs.sound.lock hgrant) (fun _ _ => ?_) (fun b => ?_) trivial hs.dumps
      · simp [State.setLock, Table.set]
      · simp only [State.setLock, Table.set, hs.reader, hp]
        split <;> simp_all
  | seek =>
      simp only [dumpStep, hp, Option.some.injEq] at h
      subst h
      refine hs.dumped rfl rfl (fun i => ?_) rfl hs.sound (fun _ _ => rfl) (hlocked hp (by simp) (by simp)) ?_ hs.dumps
      · simp [State.seek]
      · simp [Buffered, State.seek, lseek]
  | memset =>
      simp only [dumpStep, hp, Option.some.injEq] at h
      subst h
      rw [hp] at hbuffered
      exact hs.dumped rfl rfl (fun _ => rfl) rfl hs.sound (fun _ _ => rfl) (hlocked hp (by simp) (by simp))
        ⟨hbuffered, rfl⟩ hs.dumps
  | read =>
      simp only [dumpStep, hp, Option.some.injEq] at h
      subst h
      rw [hp] at hbuffered
      obtain ⟨hzero, hbuf⟩ := hbuffered
      -- the parent has the read lock, so the locked half is whole
      have huniform := hs.free (hs.quiet (by simp [hp]))
      refine hs.dumped rfl rfl (fun i => ?_) rfl hs.sound (fun _ _ => rfl) (hlocked hp (by simp) (by simp))
        (huniform.congr (fun p _ hlt => ?_)) hs.dumps
      · simp
      · rw [hbuf, hzero, byteAt_readAt .zero s.file 0 fileLen p hlt, Nat.zero_add]
  | print =>
      simp only [dumpStep, hp, Option.some.injEq] at h
      subst h
      rw [hp] at hbuffered
      refine hs.dumped rfl rfl (fun _ => rfl) rfl hs.sound (fun _ _ => rfl) (hlocked hp (by simp) (by simp)) trivial
        (fun d hd => ?_)
      rcases List.mem_append.mp hd with hd | hd
      · exact hs.dumps d hd
      · rw [List.mem_singleton.mp hd]
        exact hbuffered
  | unlock =>
      simp only [dumpStep, hp, Mode.locking, if_true, Option.some.injEq] at h
      subst h
      refine hs.dumped rfl rfl (fun _ => rfl) rfl (hs.sound.unlock none region) (fun _ _ => ?_) (fun b => ?_) trivial
        hs.dumps
      · simp [State.setLock, Table.set]
      · simp only [State.setLock, Table.set, hs.reader, hp]
        split <;> simp_all

theorem run_inv {es : List (Event C)} (h : Run (Exec (next .exclusiveFd)) (initial .exclusiveFd) es s) : Inv s := by
  apply h.invariant (I := fun _ s => Inv s) initial_inv
  intro _ e s s' _ hs hl
  cases e with
  | child i => exact childStep_inv hs hl
  | parent => exact dumpStep_inv hs hl

/-- With private descriptors the locked half is seen whole, by whoever looks
at it while no child has it locked, and in every dump. -/
theorem second_half_uniform (es : List (Event C)) (s : State C)
    (h : Run (Exec (next .exclusiveFd)) (initial .exclusiveFd) es s) :
    ((∀ i b, s.locks (some i) b ≠ some .write) → Uniform s.file) ∧
    ∀ d ∈ s.dumps, Uniform d.1 := by
  have hs := run_inv h
  refine ⟨fun hfree => hs.free (fun i => ?_), hs.dumps⟩
  cases hp : s.progress i with
  | none => rfl
  | some k => exact absurd (hs.holds hp middle_contained) (hfree i 35)

/-- A child writes its first character, and the parent dumps the file. -/
def firstDump : List (Event Bool) := List.replicate 4 (.child true) ++ List.replicate 5 .parent

theorem second_half_uniform_firstDump : ∃ s : State Bool,
    Run (Exec (next .exclusiveFd)) (initial .exclusiveFd) firstDump s ∧ s.dumps.length = 1 ∧
    (∀ i b, s.locks (some i) b ≠ some .write) ∧
    ((∀ i b, s.locks (some i) b ≠ some .write) → Uniform s.file) ∧ ∀ d ∈ s.dumps, Uniform d.1 := by
  obtain ⟨s, hs, hlen, hpc⟩ : ∃ s : State Bool, replay (next .exclusiveFd) (initial .exclusiveFd) firstDump = some s ∧
      s.dumps.length = 1 ∧ s.dumpPc = .unlock := ⟨_, rfl, rfl, rfl⟩
  have hrun := replay_run hs
  refine ⟨s, hrun, hlen, fun i b hw => ?_, second_half_uniform firstDump s hrun⟩
  have hs := run_inv hrun
  rw [hs.held, hs.quiet (by simp [hpc])] at hw
  simp at hw

end UnixProg.FileLocking.FcntlLocking

import UnixProg.FileLocking.FcntlLocking
import UnixProg.Lib.ThreadSum

namespace UnixProg.FileLocking.SharedOffset

open Lib Transition FileStore ThreadSum FcntlLocking

variable {C : Type}

/-- The counter at each point of the loop, whoever else moves the offset. -/
def Counted (p : Pc) (j : Nat) : Prop :=
  match p with
  | .start | .top | .seek => j < 70
  | .lock | .seekBar => j = 35
  | .writeBar => j = 36
  | .write | .test => j ≤ 70
  | .unlock => j = 0

/-- Between a `lseek()` and its `write()`. -/
def writing : Pc → Bool
  | .writeBar | .write => true
  | _ => false

theorem desc_shared {mode : Mode} (hmode : mode ≠ .exclusiveFd) (i : C) : mode.desc i = .shared := by
  cases mode with
  | noLock | sharedFd => rfl
  | exclusiveFd => exact absurd rfl hmode

variable [Fintype C]

def writers (s : State C) : Nat := ∑ i, (writing (s.pc i)).toNat

/-- Each child that is still to write can take the shared offset further by
one. -/
structure Bounded (s : State C) : Prop where
  counted (i) : Counted (s.pc i) (s.j i)
  offset : s.offset .shared + writers s < 70 + Fintype.card C
  length : s.file.length < 70 + Fintype.card C

variable {s s' : State C} {i : C} {p : Pc} {j k : Nat} {mode : Mode} {es : List (Event C)}

theorem writers_le (s : State C) : writers s ≤ Fintype.card C := by
  have hle := sum_le_const (f := fun i => (writing (s.pc i)).toNat) (b := 1) (fun i => Bool.toNat_le _)
  rwa [Nat.mul_one] at hle

variable [DecidableEq C]

theorem Bounded.counts (hs : Bounded s) (hpc : s'.pc = Function.update s.pc i p) (hj : s'.j = Function.update s.j i j)
    (hp : Counted p j) (u : C) : Counted (s'.pc u) (s'.j u) := by
  rw [hpc, hj]
  by_cases hu : u = i
  · subst hu
    simpa using hp
  · rw [Function.update_of_ne hu, Function.update_of_ne hu]
    exact hs.counted u

theorem writers_update (hpc : s'.pc = Function.update s.pc i p) :
    writers s' + (writing (s.pc i)).toNat = writers s + (writing p).toNat := by
  obtain ⟨n, hn, hn'⟩ := sum_update (fun p => (writing p).toNat) s.pc i p
  simp only [writers, hpc, hn, hn']
  omega

theorem Bounded.stay (hs : Bounded s) (hpc : s'.pc = Function.update s.pc i p) (hj : s'.j = Function.update s.j i j)
    (hp : Counted p j) (hwas : writing (s.pc i) = false) (hw : writing p = false)
    (hoff : s'.offset .shared = s.offset .shared) (hfile : s'.file = s.file) : Bounded s' := by
  have hsum := writers_update hpc
  rw [hwas, hw] at hsum
  refine ⟨hs.counts hpc hj hp, ?_, hfile ▸ hs.length⟩
  have := hs.offset
  omega

/-- A child moves the offset below the length that all of them believe in. -/
theorem Bounded.seek (hs : Bounded s) (hpc : s'.pc = Function.update s.pc i p) (hj : s'.j = Function.update s.j i j)
    (hp : Counted p j) (hoff : s'.offset .shared < 70) (hfile : s'.file = s.file) : Bounded s' := by
  have := writers_le s'
  exact ⟨hs.counts hpc hj hp, by omega, hfile ▸ hs.length⟩

theorem Bounded.write (hs : Bounded s) (hpc : s'.pc = Function.update s.pc i p) (hj : s'.j = Function.update s.j i j)
    (hp : Counted p j) (hwas : writing (s.pc i) = true) (hw : writing p = false)
    (hoff : s'.offset .shared = s.offset .shared + 1) (hfile : s'.file.length = max s.file.length (s.offset .shared + 1)) :
    Bounded s' := by
  have hsum := writers_update hpc
  rw [hwas, hw] at hsum
  simp only [Bool.toNat_true, Bool.toNat_false] at hsum
  have hoffset := hs.offset
  have hlength := hs.length
  exact ⟨hs.counts hpc hj hp, by omega, by omega⟩

theorem childStep_bounded (hmode : mode ≠ .exclusiveFd) (hs : Bounded s) (h : childStep mode i s = some s') : Bounded s' := by
  have hcounted := hs.counted i
  have hj : s.j = Function.update s.j i (s.j i) := (Function.update_eq_self ..).symm
  simp only [childStep, desc_shared hmode] at h
  cases hp : s.pc i with
  | start =>
      simp only [hp, Option.some.injEq] at h
      subst h
      rw [hp] at hcounted
      exact hs.seek (p := .top) rfl hj hcounted (by simp [State.goto, State.seek, lseek]) rfl
  | top =>
      simp only [hp, Option.some.injEq] at h
      subst h
      rw [hp] at hcounted
      by_cases hmid : s.j i = middle
      · rw [if_pos hmid]
        cases mode.locking with
        | true => exact hs.stay (p := .lock) rfl hj hmid (by rw [hp]; rfl) rfl rfl rfl
        | false => exact hs.stay (p := .seekBar) rfl hj hmid (by rw [hp]; rfl) rfl rfl rfl
      · rw [if_neg hmid]
        exact hs.stay (p := .seek) rfl hj hcounted (by rw [hp]; rfl) rfl rfl rfl
  | lock =>
      simp only [hp, Option.ite_none_right_eq_some, Option.some.injEq] at h
      obtain ⟨_, rfl⟩ := h
      rw [hp] at hcounted
      exact hs.stay (p := .seekBar) rfl hj hcounted (by rw [hp]; rfl) rfl rfl rfl
  | seekBar =>
      simp only [hp, Option.some.injEq] at h
      subst h
      rw [hp] at hcounted
      have h35 : s.j i = 35 := hcounted
      exact hs.seek (p := .writeBar) rfl rfl (congrArg (· + 1) h35) (by simp [State.goto, State.count, State.seek, lseek, h35]) rfl
  | writeBar =>
      simp only [hp, Option.some.injEq] at h
      subst h
      rw [hp] at hcounted
      have h36 : s.j i = 36 := hcounted
      exact hs.write (p := .seek) rfl hj (by rw [Counted, h36]; decide) (by rw [hp]; rfl) rfl
        (by simp [State.goto, State.write]) (length_writeAt ..)
  | seek =>
      simp only [hp, Option.some.injEq] at h
      subst h
      rw [hp] at hcounted
      have hlt : s.j i < 70 := hcounted
      exact hs.seek (p := .write) rfl rfl hlt (by simpa [State.goto, State.count, State.seek, lseek] using hlt) rfl
  | write =>
      simp only [hp, Option.some.injEq] at h
      subst h
      rw [hp] at hcounted
      exact hs.write (p := .test) rfl hj hcounted (by rw [hp]; rfl) rfl (by simp [State.goto, State.write])
        (length_writeAt ..)
  | test =>
      simp only [hp] at h
      rw [hp] at hcounted
      have hle : s.j i ≤ 70 := hcounted
      by_cases hend : s.j i = fileLen
      · simp only [if_pos hend, Option.some.injEq] at h
        subst h
        cases mode.locking with
        | true => exact hs.stay (p := .unlock) rfl rfl rfl (by rw [hp]; rfl) rfl rfl rfl
        | false => exact hs.stay (p := .top) rfl rfl (Nat.zero_lt_succ 69) (by rw [hp]; rfl) rfl rfl rfl
      · simp only [if_neg hend, Option.some.injEq] at h
        subst h
        have hne : s.j i ≠ 70 := hend
        exact hs.stay (p := .top) rfl hj (lt_of_le_of_ne hle hne) (by rw [hp]; rfl) rfl rfl rfl
  | unlock =>
      simp only [hp, Option.some.injEq] at h
      subst h
      rw [hp] at hcounted
      have hzero : s.j i = 0 := hcounted
      exact hs.stay (p := .top) rfl hj (by rw [Counted, hzero]; decide) (by rw [hp]; rfl) rfl rfl rfl

theorem dumpStep_frame (h : dumpStep mode s = some s') :
    s'.pc = s.pc ∧ s'.j = s.j ∧ s'.file = s.file ∧ ∀ d, d ≠ .dump → s'.offset d = s.offset d := by
  simp only [dumpStep] at h
  cases hp : s.dumpPc with
  | lockr =>
      simp only [hp] at h
      split at h
      · obtain ⟨_, heq⟩ := Option.ite_none_right_eq_some.mp h
        cases heq
        exact ⟨rfl, rfl, rfl, fun _ _ => rfl⟩
      · cases h
        exact ⟨rfl, rfl, rfl, fun _ _ => rfl⟩
  | seek =>
      simp only [hp, Option.some.injEq] at h
      subst h
      exact ⟨rfl, rfl, rfl, fun d hd => Function.update_of_ne hd ..⟩
  | read =>
      simp only [hp, Option.some.injEq] at h
      subst h
      exact ⟨rfl, rfl, rfl, fun d hd => Function.update_of_ne hd ..⟩
  | memset | print =>
      simp only [hp, Option.some.injEq] at h
      subst h
      exact ⟨rfl, rfl, rfl, fun _ _ => rfl⟩
  | unlock =>
      simp only [hp, Option.some.injEq] at h
      subst h
      split <;> exact ⟨rfl, rfl, rfl, fun _ _ => rfl⟩

omit [DecidableEq C] in
theorem initial_bounded (hmode : mode ≠ .exclusiveFd) : Bounded (initial mode : State C) := by
  have hpc (i : C) : (initial mode).pc i = .top := if_neg hmode
  have hnone : writers (initial mode : State C) = 0 := by
    simp only [writers, hpc]
    exact Finset.sum_const_zero
  have hsetUp : (setUp mode : List (Byte C) × Nat) = ([.zero], 1) := by
    cases mode with
    | noLock | sharedFd => rfl
    | exclusiveFd => exact absurd rfl hmode
  refine ⟨fun i => ?_, ?_, ?_⟩
  · rw [hpc]
    exact Nat.zero_lt_succ 69
  · rw [hnone]
    simp [initial, hsetUp]
    omega
  · simp [initial, hsetUp]
    omega

theorem run_bounded (hmode : mode ≠ .exclusiveFd) (h : Run (Exec (next mode)) (initial mode) es s) : Bounded s := by
  apply h.invariant (I := fun _ s => Bounded s) (initial_bounded hmode)
  intro _ e s s' _ hs hl
  cases e with
  | child i => exact childStep_bounded hmode hs hl
  | parent =>
      obtain ⟨hpc, hj, hfile, hoff⟩ := dumpStep_frame hl
      refine ⟨by rw [hpc, hj]; exact hs.counted, ?_, hfile ▸ hs.length⟩
      rw [hoff _ (by simp), writers, hpc]
      exact hs.offset

/-- Only the two writes of the loop touch the file. -/
theorem childStep_file (h : childStep mode i s = some s') :
    writing (s.pc i) = false ∧ s'.file = s.file ∨
    writing (s.pc i) = true ∧ ∃ b, s'.file = writeAt .zero s.file (s.offset (mode.desc i)) b := by
  simp only [childStep] at h
  cases hp : s.pc i with
  | writeBar | write =>
      simp only [hp, Option.some.injEq] at h
      subst h
      exact .inr ⟨rfl, _, rfl⟩
  | lock =>
      simp only [hp, Option.ite_none_right_eq_some, Option.some.injEq] at h
      obtain ⟨_, rfl⟩ := h
      exact .inl ⟨rfl, rfl⟩
  | test =>
      simp only [hp] at h
      split at h <;> cases h <;> exact .inl ⟨rfl, rfl⟩
  | start | top | seekBar | seek | unlock =>
      simp only [hp, Option.some.injEq] at h
      subst h
      exact .inl ⟨rfl, rfl⟩

/-- A child with an offset of its own writes where it means to write. -/
theorem childStep_short (hplaced : Placed (s.pc i) (s.j i) (s.offset (.own i))) (hs : s.file.length ≤ fileLen)
    (h : childStep .exclusiveFd i s = some s') : s'.file.length ≤ fileLen := by
  obtain ⟨_, hfile⟩ | ⟨hwriting, b, hfile⟩ := childStep_file h
  · rwa [hfile]
  · have hoff : s.offset (.own i) + 1 ≤ fileLen := by
      cases hp : s.pc i with
      | writeBar =>
          rw [hp] at hplaced
          have h35 : s.offset (.own i) = 35 := hplaced.2
          rw [h35]
          decide
      | write =>
          rw [hp] at hplaced
          obtain ⟨hle, _, hoff⟩ := hplaced
          exact hoff ▸ hle
      | start | top | lock | seekBar | seek | test | unlock =>
          rw [hp] at hwriting
          cases hwriting
    rw [hfile, length_writeAt]
    exact max_le hs hoff

theorem run_short (h : Run (Exec (next .exclusiveFd)) (initial .exclusiveFd) es s) : s.file.length ≤ fileLen := by
  apply h.invariant (I := fun _ s => s.file.length ≤ fileLen) (Nat.zero_le _)
  intro _ e s s' hr hs hl
  cases e with
  | child i => exact childStep_short ((run_inv hr).placed i) hs hl
  | parent => exact (dumpStep_frame hl).2.2.1 ▸ hs

/-- A child that is on its own in its loop, as all others stand before a write
and have nothing locked. -/
structure Lone (i : C) (p : Pc) (k : Nat) (s : State C) : Prop where
  pc : s.pc i = p
  count : s.j i = k
  others (u) (hu : u ≠ i) : s.pc u = .write
  unlocked (q) (hq : q ≠ some i) (b) : s.locks q b = none

variable {q : Pc} {l : Nat}

theorem reachable_child {t : State C} (hr : Reachable (Exec (next mode)) s t) (h : childStep mode i t = some s') :
    Reachable (Exec (next mode)) s s' := hr.tail (l := .child i) h

theorem Lone.goes (hs : Lone i p k s) (h : childStep mode i s = some s') (hpc : s'.pc = Function.update s.pc i q)
    (hj : s'.j = Function.update s.j i l) (hlocks : ∀ u, u ≠ some i → s'.locks u = s.locks u) :
    Reachable (Exec (next mode)) s s' ∧ Lone i q l s' := by
  refine ⟨reachable_child (.refl _ s) h, ?_⟩
  constructor
  · rw [hpc, Function.update_self]
  · rw [hj, Function.update_self]
  · intro u hu
    rw [hpc, Function.update_of_ne hu]
    exact hs.others u hu
  · intro u hu b
    rw [hlocks u hu]
    exact hs.unlocked u hu b

theorem Lone.keeps (hs : Lone i p k s) (h : childStep mode i s = some s') (hpc : s'.pc = Function.update s.pc i q)
    (hj : s'.j = s.j) (hlocks : ∀ u, u ≠ some i → s'.locks u = s.locks u) :
    Reachable (Exec (next mode)) s s' ∧ Lone i q k s' := by
  have hkeep : s'.j = Function.update s.j i k := by rw [hj, ← hs.count, Function.update_eq_self]
  exact hs.goes h hpc hkeep hlocks

variable (mode) in
theorem Lone.top (hs : Lone i .top k s) (hk : k ≠ middle) :
    ∃ s', Reachable (Exec (next mode)) s s' ∧ Lone i .seek k s' := by
  have hstep : childStep mode i s = some (s.goto i .seek) := by
    simp [childStep, hs.pc, hs.count, hk]
  exact ⟨_, hs.keeps hstep rfl rfl (fun _ _ => rfl)⟩

theorem Lone.seek (hmode : mode ≠ .exclusiveFd) (hs : Lone i .seek k s) :
    ∃ s', Reachable (Exec (next mode)) s s' ∧ Lone i .write (k + 1) s' ∧ s'.offset .shared = k := by
  have hstep : childStep mode i s = some (((s.seek .shared k).count i (k + 1)).goto i .write) := by
    simp [childStep, hs.pc, hs.count, desc_shared hmode]
  obtain ⟨hr, hl⟩ := hs.goes hstep rfl rfl (fun _ _ => rfl)
  exact ⟨_, hr, hl, by simp [State.goto, State.count, State.seek, lseek]⟩

theorem Lone.write (hmode : mode ≠ .exclusiveFd) (hs : Lone i .write k s) (hk : k < fileLen) :
    ∃ s', Reachable (Exec (next mode)) s s' ∧ Lone i .top k s' := by
  obtain ⟨t, hr, ht⟩ : ∃ t, Reachable (Exec (next mode)) s t ∧ Lone i .test k t := by
    have hstep : childStep mode i s = some ((s.write .shared (.mark i)).goto i .test) := by
      simp [childStep, hs.pc, desc_shared hmode]
    exact ⟨_, hs.keeps hstep rfl rfl (fun _ _ => rfl)⟩
  have hstep : childStep mode i t = some (t.goto i .top) := by
    simp [childStep, ht.pc, ht.count, hk.ne]
  obtain ⟨hr', ht'⟩ := ht.keeps hstep rfl rfl (fun _ _ => rfl)
  exact ⟨_, hr.trans hr', ht'⟩

variable (mode) in
theorem Lone.lock (hs : Lone i .top middle s) :
    ∃ s', Reachable (Exec (next mode)) s s' ∧ Lone i .seekBar middle s' := by
  cases hlocking : mode.locking with
  | false =>
      have hstep : childStep mode i s = some (s.goto i .seekBar) := by
        simp [childStep, hs.pc, hs.count, hlocking]
      exact ⟨_, hs.keeps hstep rfl rfl (fun _ _ => rfl)⟩
  | true =>
      obtain ⟨t, hr, ht⟩ : ∃ t, Reachable (Exec (next mode)) s t ∧ Lone i .lock middle t := by
        have hstep : childStep mode i s = some (s.goto i .lock) := by
          simp [childStep, hs.pc, hs.count, hlocking]
        exact ⟨_, hs.keeps hstep rfl rfl (fun _ _ => rfl)⟩
      have hgrant : Grantable t.locks (some i) region .write := by
        intro u hu b _ k' hk'
        rw [ht.unlocked u hu] at hk'
        cases hk'
      have hstep : childStep mode i t = some ((t.setLock (some i) (some .write)).goto i .seekBar) := by
        simp [childStep, ht.pc, hgrant]
      have hothers (u : Option C) (hu : u ≠ some i) : (t.setLock (some i) (some .write)).locks u = t.locks u := by
        funext b
        simp [State.setLock, Table.set, hu]
      obtain ⟨hr', ht'⟩ := ht.keeps hstep rfl rfl hothers
      exact ⟨_, hr.trans hr', ht'⟩

theorem Lone.bar (hmode : mode ≠ .exclusiveFd) (hs : Lone i .seekBar k s) :
    ∃ s', Reachable (Exec (next mode)) s s' ∧ Lone i .seek (k + 1) s' := by
  obtain ⟨t, hr, ht⟩ : ∃ t, Reachable (Exec (next mode)) s t ∧ Lone i .writeBar (k + 1) t := by
    have hstep : childStep mode i s = some (((s.seek .shared k).count i (k + 1)).goto i .writeBar) := by
      simp [childStep, hs.pc, hs.count, desc_shared hmode]
    exact ⟨_, hs.goes hstep rfl rfl (fun _ _ => rfl)⟩
  have hstep : childStep mode i t = some ((t.write .shared .bar).goto i .seek) := by
    simp [childStep, ht.pc, desc_shared hmode]
  obtain ⟨hr', ht'⟩ := ht.keeps hstep rfl rfl (fun _ _ => rfl)
  exact ⟨_, hr.trans hr', ht'⟩

theorem Lone.round (hmode : mode ≠ .exclusiveFd) (hs : Lone i .seek k s) (hk : k + 1 < fileLen) :
    ∃ l s', k < l ∧ l < fileLen ∧ Reachable (Exec (next mode)) s s' ∧ Lone i .seek l s' := by
  obtain ⟨t, hr, ht, _⟩ := hs.seek hmode
  obtain ⟨u, hr', hu⟩ := ht.write hmode hk
  by_cases hmid : k + 1 = middle
  · rw [hmid] at hu
    obtain ⟨v, hr'', hv⟩ := hu.lock mode
    obtain ⟨w, hr₃, hw⟩ := hv.bar hmode
    exact ⟨_, w, by omega, by decide, ((hr.trans hr').trans hr'').trans hr₃, hw⟩
  · obtain ⟨v, hr'', hv⟩ := hu.top mode hmid
    exact ⟨_, v, Nat.lt_succ_self k, hk, (hr.trans hr').trans hr'', hv⟩

theorem Lone.rounds (hmode : mode ≠ .exclusiveFd) (hs : Lone i .top 0 s) (k : Nat) (hk : k < fileLen) :
    ∃ l s', k ≤ l ∧ l < fileLen ∧ Reachable (Exec (next mode)) s s' ∧ Lone i .seek l s' := by
  induction k with
  | zero =>
      obtain ⟨t, hr, ht⟩ := hs.top mode (by decide)
      exact ⟨0, t, le_rfl, hk, hr, ht⟩
  | succ k ih =>
      obtain ⟨l, t, hle, hl, hr, ht⟩ := ih (by omega)
      by_cases hlt : k < l
      · exact ⟨l, t, hlt, hl, hr, ht⟩
      · obtain ⟨l', u, hlt', hl', hr', hu⟩ := ht.round hmode (by omega)
        exact ⟨l', u, by omega, hl', hr.trans hr', hu⟩

theorem all_seek (hmode : mode ≠ .exclusiveFd) (S : Finset C) : ∃ s, Reachable (Exec (next mode)) (initial mode) s ∧
    (∀ u ∈ S, s.pc u = .write) ∧ (∀ u ∉ S, s.pc u = .top ∧ s.j u = 0) ∧ s.locks = fun _ _ => none := by
  induction S using Finset.induction_on with
  | empty => exact ⟨_, .refl _ _, nofun, fun u _ => ⟨if_neg hmode, rfl⟩, rfl⟩
  | insert i S hi ih =>
      obtain ⟨s, hr, hin, hout, hlocks⟩ := ih
      obtain ⟨hpc, hj⟩ := hout i hi
      have hstep : childStep mode i s = some (s.goto i .seek) := by
        simp [childStep, hpc, hj, FcntlLocking.middle, fileLen]
      have hstep' : childStep mode i (s.goto i .seek) =
          some ((((s.goto i .seek).seek .shared 0).count i 1).goto i .write) := by
        simp [childStep, State.goto, hj, desc_shared hmode]
      refine ⟨_, reachable_child (reachable_child hr hstep) hstep', fun u hu => ?_, fun u hu => ?_, hlocks⟩
      · by_cases hui : u = i
        · simp [State.goto, hui]
        · simpa [State.goto, State.count, State.seek, hui] using hin u (Finset.mem_of_mem_insert_of_ne hu hui)
      · rw [Finset.mem_insert, not_or] at hu
        simpa [State.goto, State.count, State.seek, hu.1] using hout u hu.2

theorem all_write (hmode : mode ≠ .exclusiveFd) (hpc : ∀ u, s.pc u = .write) (hoff : s.offset .shared = 69) (S : Finset C) :
    ∃ s', Reachable (Exec (next mode)) s s' ∧ (∀ u ∉ S, s'.pc u = .write) ∧ s'.offset .shared = 69 + S.card ∧
      (S.Nonempty → 69 + S.card ≤ s'.file.length) := by
  induction S using Finset.induction_on with
  | empty => exact ⟨s, .refl _ _, fun u _ => hpc u, hoff, fun h => absurd h Finset.not_nonempty_empty⟩
  | insert i S hi ih =>
      obtain ⟨t, hr, hout, ho, _⟩ := ih
      have hstep : childStep mode i t = some ((t.write .shared (.mark i)).goto i .test) := by
        simp [childStep, hout i hi, desc_shared hmode]
      refine ⟨_, reachable_child hr hstep, fun u hu => ?_, ?_, fun _ => ?_⟩
      · rw [Finset.mem_insert, not_or] at hu
        simpa [State.goto, State.write, hu.1] using hout u hu.2
      · simp [State.goto, State.write, ho, Finset.card_insert_of_notMem hi, Nat.add_assoc]
      · change _ ≤ (writeAt .zero t.file _ _).length
        rw [length_writeAt, ho, Finset.card_insert_of_notMem hi]
        omega

theorem longest_reachable [Nonempty C] (hmode : mode ≠ .exclusiveFd) : ∃ s : State C,
    Reachable (Exec (next mode)) (initial mode) s ∧ 69 + Fintype.card C ≤ s.file.length := by
  obtain ⟨i⟩ := ‹Nonempty C›
  obtain ⟨s, hr, hin, hout, hlocks⟩ := all_seek hmode (Finset.univ.erase i)
  obtain ⟨hpc, hj⟩ := hout i (Finset.notMem_erase i _)
  have hlone : Lone i .top 0 s := by
    refine ⟨hpc, hj, fun u hu => hin u (Finset.mem_erase.mpr ⟨hu, Finset.mem_univ u⟩), fun q _ b => ?_⟩
    rw [hlocks]
  obtain ⟨l, t, hle, hlt, hr', ht⟩ := hlone.rounds hmode 69 (by decide)
  have hl : l = 69 := by
    have : l < 70 := hlt
    omega
  subst hl
  obtain ⟨u, hr'', hu, hoff⟩ := ht.seek hmode
  have hall (v : C) : u.pc v = .write := by
    by_cases hv : v = i
    · rw [hv, hu.pc]
    · exact hu.others v hv
  obtain ⟨v, hr₃, _, _, hlen⟩ := all_write hmode hall hoff Finset.univ
  exact ⟨v, ((hr.trans hr').trans hr'').trans hr₃, hlen ⟨i, Finset.mem_univ i⟩⟩

/-- With a shared offset the file can get longer by one byte for each further
child, and no longer than that. With private offsets it cannot get too long. -/
theorem shared_offset_bound [Nonempty C] :
    (∀ mode : Mode, mode ≠ .exclusiveFd →
      (∀ es (s : State C), Run (Exec (next mode)) (initial mode) es s → s.file.length ≤ fileLen + Fintype.card C - 1) ∧
      ∃ es, ∃ s : State C, Run (Exec (next mode)) (initial mode) es s ∧ s.file.length = fileLen + Fintype.card C - 1) ∧
    ∀ es (s : State C), Run (Exec (next .exclusiveFd)) (initial .exclusiveFd) es s → s.file.length ≤ fileLen := by
  have hbound {mode : Mode} (hmode : mode ≠ .exclusiveFd) {es : List (Event C)} {s : State C}
      (h : Run (Exec (next mode)) (initial mode) es s) : s.file.length ≤ fileLen + Fintype.card C - 1 :=
    Nat.le_sub_one_of_lt (run_bounded hmode h).length
  refine ⟨fun mode hmode => ⟨fun es s h => hbound hmode h, ?_⟩, fun es s h => run_short h⟩
  obtain ⟨s, ⟨es, hr⟩, hlen⟩ := longest_reachable (C := C) hmode
  refine ⟨es, s, hr, le_antisymm (hbound hmode hr) ?_⟩
  have : fileLen = 70 := rfl
  omega

theorem shared_offset_bound_five :
    (∀ mode : Mode, mode ≠ .exclusiveFd →
      (∀ es (s : State (Fin 5)), Run (Exec (next mode)) (initial mode) es s → s.file.length ≤ 74) ∧
      ∃ es, ∃ s : State (Fin 5), Run (Exec (next mode)) (initial mode) es s ∧ s.file.length = 74) ∧
    ∀ es (s : State (Fin 5)), Run (Exec (next .exclusiveFd)) (initial .exclusiveFd) es s → s.file.length ≤ 70 :=
  shared_offset_bound

end UnixProg.FileLocking.SharedOffset

import UnixProg.Lib.Transition
import Mathlib.Data.Finset.Card
import Mathlib.Data.List.Count

namespace UnixProg.Select.NonBlockingConnect

open Lib Transition

def timeout : Nat := 10

def maxSockets : Nat := 3

theorem one_le_maxSockets : 1 ≤ maxSockets := by decide

/-- An entry of the host table once the connects are under way. -/
structure Host where
  hostname : String
  port : String
  sockets : Vector Int maxSockets
  numsock : Nat
  numsock_le : numsock ≤ maxSockets

def Host.opened (h : Host) : List Int := h.sockets.toList.take h.numsock

inductive Verdict
  | connected
  | failed (errno : Int)
  | timedOut
deriving DecidableEq

structure Report where
  hostname : String
  port : String
  socket : Int
  verdict : Verdict
deriving DecidableEq

inductive Phase
  | selecting
  | done
  | errored
deriving DecidableEq

/-- The variables of the loop, the lines printed and the descriptors closed.
`finished` belongs to the network: the sockets whose connect is over. `calls`
keeps the argument of every `select()` beside the sockets not reported by then. -/
structure State where
  phase : Phase
  wrfds : Finset Int
  wrfdsOrig : Finset Int
  n : Nat
  timeouts : Nat
  reports : List Report
  closed : List Int
  finished : Finset Int
  calls : List (Finset Int × Finset Int)

inductive Outcome
  | quiet
  | ready (r : Finset Int)
  | error
deriving DecidableEq

inductive Event
  | finish (socket : Int)
  | select (o : Outcome)

/-- What the connect calls hand to the loop: every pending socket is counted
and stands at most once in the host table. -/
structure Start where
  hosts : List Host
  pending : Finset Int
  n : Nat
  numSockets : Nat
  counted : n + pending.card = numSockets
  once : ∀ fd ∈ pending, (hosts.flatMap Host.opened).count fd ≤ 1

/-- One socket of the table. `soError` is what `getsockopt()` stores into
`optval` for it, or nothing when that call fails. -/
def checkSocket (soError : Int → Option Int) (h : Host) (s : State) (fd : Int) : State :=
  if s.phase = .errored ∨ fd ∉ s.wrfds then s
  else match soError fd with
    | none => { s with phase := .errored }
    | some optval =>
        { s with
          reports := s.reports ++ [⟨h.hostname, h.port, fd, if optval = 0 then .connected else .failed optval⟩]
          wrfdsOrig := s.wrfdsOrig.erase fd
          closed := s.closed ++ [fd]
          n := s.n + 1 }

def checkHost (soError : Int → Option Int) (s : State) (h : Host) : State :=
  h.opened.foldl (checkSocket soError h) s

def checkHosts (soError : Int → Option Int) (hosts : List Host) (s : State) : State :=
  hosts.foldl (checkHost soError) s

def timedOutReports (wrfdsOrig : Finset Int) (h : Host) : List Report :=
  (h.opened.filter (· ∈ wrfdsOrig)).map (fun fd => ⟨h.hostname, h.port, fd, .timedOut⟩)

def finalReport (hosts : List Host) (s : State) : State :=
  { s with phase := .done, reports := s.reports ++ hosts.flatMap (timedOutReports s.wrfdsOrig) }

/-- The condition of the loop. -/
def head (c : Start) (s : State) : State :=
  if s.n ≠ c.numSockets then s else finalReport c.hosts s

/-- The body of the loop after `select()` came back. -/
def iterate (c : Start) (soError : Int → Option Int) (s : State) : Outcome → State
  | .quiet =>
      let t := { s with wrfds := ∅, timeouts := s.timeouts + 1 }
      if t.timeouts = timeout then finalReport c.hosts t else head c t
  | .error => { s with phase := .errored }
  | .ready r =>
      let t := checkHosts soError c.hosts { s with wrfds := r }
      if t.phase = .errored then t else head c { t with wrfds := t.wrfdsOrig }

/-- A second is quiet only if no watched connect is over, and only watched
sockets whose connect is over are ready. -/
def State.Allows (s : State) : Outcome → Prop
  | .quiet => Disjoint s.wrfds s.finished
  | .ready r => r.Nonempty ∧ r ⊆ s.wrfds ∩ s.finished
  | .error => True

instance (s : State) : ∀ o, Decidable (s.Allows o)
  | .quiet => inferInstanceAs (Decidable (Disjoint s.wrfds s.finished))
  | .ready r => inferInstanceAs (Decidable (r.Nonempty ∧ r ⊆ s.wrfds ∩ s.finished))
  | .error => inferInstanceAs (Decidable True)

def State.called (s : State) : State := { s with calls := s.calls ++ [(s.wrfds, s.wrfdsOrig)] }

def next (c : Start) (soError : Int → Option Int) (s : State) : Event → Option State
  | .finish fd => if s.phase = .selecting then some { s with finished := insert fd s.finished } else none
  | .select o => if s.phase = .selecting ∧ s.Allows o then some (iterate c soError s.called o) else none

def initial (c : Start) : State := head c ⟨.selecting, c.pending, c.pending, c.n, 0, [], [], ∅, []⟩

def selects : List Event → List Outcome
  | [] => []
  | .finish _ :: es => selects es
  | .select o :: es => o :: selects es

def WatchesAll (s : State) : Prop := ∀ c ∈ s.calls, c.1 = c.2

def Answered (s : State) (fd : Int) : Prop := ∃ r ∈ s.reports, r.socket = fd ∧ r.verdict ≠ .timedOut

def TimedOut (s : State) (fd : Int) : Prop := ∃ r ∈ s.reports, r.socket = fd ∧ r.verdict = .timedOut

/-- When the program is done, a connect that was over in time has been
reported as what it was. -/
def NoneMissed (c : Start) (s : State) : Prop :=
  s.phase = .done → ∀ fd ∈ c.pending, fd ∈ s.finished → Answered s fd ∧ ¬ TimedOut s fd

variable {c : Start} {soError : Int → Option Int} {s t u : State} {es : List Event}

/-- What looking through the ready sockets can do. -/
structure Checked (s t : State) : Prop where
  wrfds : t.wrfds = s.wrfds
  timeouts : t.timeouts = s.timeouts
  calls : t.calls = s.calls
  phase : t.phase = s.phase ∨ t.phase = .errored
  counted : t.n + t.wrfdsOrig.card = s.n + s.wrfdsOrig.card
  subset : t.wrfdsOrig ⊆ s.wrfdsOrig
  reports : s.reports ⊆ t.reports
  answered : ∀ fd ∈ s.wrfdsOrig, fd ∉ t.wrfdsOrig → Answered t fd
  timedOut : ∀ fd, TimedOut t fd → TimedOut s fd

theorem Checked.refl (s : State) : Checked s s :=
  ⟨rfl, rfl, rfl, .inl rfl, rfl, subset_rfl, List.Subset.refl _, fun _ h h' => absurd h h', fun _ h => h⟩

theorem Answered.mono {fd : Int} (h : Answered s fd) (hr : s.reports ⊆ t.reports) : Answered t fd := by
  obtain ⟨r, hmem, hfd⟩ := h
  exact ⟨r, hr hmem, hfd⟩

theorem Checked.trans (h : Checked s t) (h' : Checked t u) : Checked s u where
  wrfds := h'.wrfds.trans h.wrfds
  timeouts := h'.timeouts.trans h.timeouts
  calls := h'.calls.trans h.calls
  phase := by
    rcases h'.phase with hp | hp
    · rw [hp]
      exact h.phase
    · exact .inr hp
  counted := h'.counted.trans h.counted
  subset := h'.subset.trans h.subset
  reports := List.Subset.trans h.reports h'.reports
  answered := by
    intro fd hs hu
    by_cases ht : fd ∈ t.wrfdsOrig
    · exact h'.answered fd ht hu
    · exact (h.answered fd hs ht).mono h'.reports
  timedOut := fun fd hu => h.timedOut fd (h'.timedOut fd hu)

theorem checkSocket_checked (h : Host) {fd : Int} (hfd : fd ∈ s.wrfds → fd ∈ s.wrfdsOrig) :
    Checked s (checkSocket soError h s fd) := by
  by_cases hskip : s.phase = .errored ∨ fd ∉ s.wrfds
  · rw [checkSocket, if_pos hskip]
    exact .refl s
  · rw [checkSocket, if_neg hskip]
    have hmem := hfd (not_not.mp (not_or.mp hskip).2)
    cases soError fd with
    | none => exact { Checked.refl s with phase := .inr rfl }
    | some optval =>
        refine ⟨rfl, rfl, rfl, .inl rfl, ?_, Finset.erase_subset _ _, List.subset_append_left _ _, ?_, ?_⟩
        · have hcard := Finset.card_erase_add_one hmem
          change s.n + 1 + (s.wrfdsOrig.erase fd).card = s.n + s.wrfdsOrig.card
          omega
        · intro x hx hx'
          have hxfd : x = fd := by_contra (fun hne => hx' (Finset.mem_erase.mpr ⟨hne, hx⟩))
          refine ⟨_, List.mem_append_right _ (List.mem_singleton_self _), hxfd.symm, ?_⟩
          change (if optval = 0 then Verdict.connected else .failed optval) ≠ .timedOut
          split <;> simp
        · rintro x ⟨r, hr, hx, hv⟩
          rcases List.mem_append.mp hr with hr | hr
          · exact ⟨r, hr, hx, hv⟩
          · rw [List.mem_singleton.mp hr] at hv
            change (if optval = 0 then Verdict.connected else .failed optval) = .timedOut at hv
            split at hv <;> cases hv

theorem checkHosts_eq (hosts : List Host) (s : State) : checkHosts soError hosts s =
    (hosts.flatMap (fun h => h.opened.map (h, ·))).foldl (fun s p => checkSocket soError p.1 s p.2) s := by
  simp only [checkHosts, List.foldl_flatMap, List.foldl_map]
  rfl

theorem checkSocket_orig (h : Host) (fd x : Int) (hne : x ≠ fd) (hx : x ∈ s.wrfdsOrig) :
    x ∈ (checkSocket soError h s fd).wrfdsOrig := by
  simp only [checkSocket]
  split
  · exact hx
  · split
    · exact hx
    · exact Finset.mem_erase.mpr ⟨hne, hx⟩

/-- The rule of the two loops over the table. No descriptor is met twice, so
each ready one is still unreported when its turn comes. -/
theorem checkPairs_rule {I : State → Prop} (ps : List (Host × Int)) (s : State)
    (hready : ∀ fd ∈ s.wrfds, fd ∈ ps.map Prod.snd → fd ∈ s.wrfdsOrig)
    (honce : ∀ fd ∈ s.wrfds, (ps.map Prod.snd).count fd ≤ 1)
    (hstep : ∀ s h fd, (fd ∈ s.wrfds → fd ∈ s.wrfdsOrig) → I s → I (checkSocket soError h s fd)) (hs : I s) :
    I (ps.foldl (fun s p => checkSocket soError p.1 s p.2) s) := by
  induction ps generalizing s with
  | nil => exact hs
  | cons p ps ih =>
      have hfd : p.2 ∈ s.wrfds → p.2 ∈ s.wrfdsOrig := fun hfd => hready p.2 hfd (by simp)
      have hp : Checked s (checkSocket soError p.1 s p.2) := checkSocket_checked p.1 hfd
      refine ih _ ?_ ?_ (hstep s p.1 p.2 hfd hs)
      · intro fd hfd hmem
        rw [hp.wrfds] at hfd
        have hcount := honce fd hfd
        have hne : fd ≠ p.2 := by
          rintro rfl
          have := List.count_pos_iff.mpr hmem
          rw [List.map_cons, List.count_cons_self] at hcount
          omega
        exact checkSocket_orig _ _ _ hne (hready fd hfd (by simp [hmem]))
      · intro fd hfd
        rw [hp.wrfds] at hfd
        exact ((List.sublist_cons_self p.2 _).count_le fd).trans (honce fd hfd)

theorem checkHosts_rule {I : State → Prop} (hosts : List Host) (hready : s.wrfds ⊆ s.wrfdsOrig)
    (honce : ∀ fd ∈ s.wrfds, (hosts.flatMap Host.opened).count fd ≤ 1)
    (hstep : ∀ s h fd, (fd ∈ s.wrfds → fd ∈ s.wrfdsOrig) → I s → I (checkSocket soError h s fd)) (hs : I s) :
    I (checkHosts soError hosts s) := by
  have hsnd : (hosts.flatMap (fun h => h.opened.map (h, ·))).map Prod.snd = hosts.flatMap Host.opened := by
    simp [List.map_flatMap]
  rw [checkHosts_eq]
  apply checkPairs_rule _ _ _ _ hstep hs
  · exact fun fd hfd _ => hready hfd
  · rw [hsnd]
    exact honce

theorem checkHosts_checked (hosts : List Host) (hready : s.wrfds ⊆ s.wrfdsOrig)
    (honce : ∀ fd ∈ s.wrfds, (hosts.flatMap Host.opened).count fd ≤ 1) :
    Checked s (checkHosts soError hosts s) :=
  checkHosts_rule hosts hready honce (fun _ h _ hfd ht => ht.trans (checkSocket_checked h hfd)) (.refl s)

theorem finalReport_timedOut (hosts : List Host) {fd : Int} (h : TimedOut (finalReport hosts s) fd) :
    TimedOut s fd ∨ fd ∈ s.wrfdsOrig := by
  obtain ⟨r, hr, hfd, hv⟩ := h
  rcases List.mem_append.mp hr with hr | hr
  · exact .inl ⟨r, hr, hfd, hv⟩
  · simp only [List.mem_flatMap, timedOutReports, List.mem_map, List.mem_filter, decide_eq_true_eq] at hr
    obtain ⟨h, _, x, ⟨_, hx⟩, rfl⟩ := hr
    exact .inr (hfd ▸ hx)

/-- What the counters and the printed lines say after a history of events,
wherever the program is. -/
structure Tally (c : Start) (es : List Event) (s : State) : Prop where
  counted : s.n + s.wrfdsOrig.card = c.numSockets
  subset : s.wrfdsOrig ⊆ c.pending
  timeouts : s.timeouts = (selects es).count .quiet
  calls : WatchesAll s ↔ ∀ o ∈ (selects es).dropLast, o ≠ .quiet
  answered : ∀ fd ∈ c.pending, fd ∉ s.wrfdsOrig → Answered s fd

/-- Before the condition of the loop. A quiet second has left nothing in the
set that the next `select()` would watch. -/
structure Open (c : Start) (es : List Event) (s : State) : Prop extends Tally c es s where
  selecting : s.phase = .selecting
  watched : s.wrfds = if (selects es).getLast? = some .quiet then ∅ else s.wrfdsOrig
  timedOut : ∀ fd, ¬ TimedOut s fd

structure Inv (c : Start) (es : List Event) (s : State) : Prop extends Tally c es s where
  selecting : s.phase = .selecting → Open c es s ∧ s.wrfdsOrig.Nonempty
  done : s.phase = .done →
    (s.wrfdsOrig = ∅ ∨ s.timeouts = timeout) ∧ ∀ fd, TimedOut s fd → fd ∈ s.wrfdsOrig

theorem Open.report (h : Open c es s) (hdone : s.wrfdsOrig = ∅ ∨ s.timeouts = timeout) :
    Inv c es (finalReport c.hosts s) where
  counted := h.counted
  subset := h.subset
  timeouts := h.timeouts
  calls := h.calls
  answered := fun fd hfd hnot => (h.answered fd hfd hnot).mono (List.subset_append_left _ _)
  selecting := nofun
  done := fun _ => ⟨hdone, fun fd ht => (finalReport_timedOut c.hosts ht).resolve_left (h.timedOut fd)⟩

theorem Open.head (h : Open c es s) : Inv c es (head c s) := by
  have hcounted := h.counted
  rw [NonBlockingConnect.head]
  split
  · have hpos : 0 < s.wrfdsOrig.card := by omega
    exact ⟨h.toTally, fun _ => ⟨h, Finset.card_pos.mp hpos⟩, fun hp => absurd (h.selecting.symm.trans hp) nofun⟩
  · exact h.report (.inl (Finset.card_eq_zero.mp (by omega)))

theorem Tally.errored (h : Tally c es s) (hp : s.phase = .errored) : Inv c es s :=
  ⟨h, fun hp' => absurd (hp.symm.trans hp') nofun, fun hp' => absurd (hp.symm.trans hp') nofun⟩

theorem initial_inv (c : Start) : Inv c [] (initial c) := by
  apply Open.head
  refine ⟨⟨c.counted, subset_rfl, rfl, ?_, fun _ h h' => absurd h h'⟩, rfl, rfl, ?_⟩
  · exact ⟨fun _ _ ho => absurd ho List.not_mem_nil, fun _ _ hc => absurd hc List.not_mem_nil⟩
  · rintro fd ⟨r, hr, _⟩
    exact absurd hr List.not_mem_nil

theorem selects_append (es es' : List Event) : selects (es ++ es') = selects es ++ selects es' := by
  induction es with
  | nil => rfl
  | cons e es ih =>
      cases e with
      | finish fd => exact ih
      | select o => exact congrArg (o :: ·) ih

theorem all_ne_iff {os : List Outcome} {q : Outcome} :
    (∀ o ∈ os, o ≠ q) ↔ (∀ o ∈ os.dropLast, o ≠ q) ∧ os.getLast? ≠ some q := by
  induction os using List.reverseRecOn with
  | nil => simp
  | append_singleton os o _ =>
      simp only [List.dropLast_concat, List.getLast?_concat, List.mem_append, List.mem_singleton, or_imp, forall_and,
        forall_eq, ne_eq, Option.some.injEq]

/-- A call right after a quiet second watches nothing, although a socket is
left; every other call watches what is left. -/
theorem Open.called (h : Open c es s) (hleft : s.wrfdsOrig.Nonempty) :
    WatchesAll s.called ↔ ∀ o ∈ selects es, o ≠ .quiet := by
  have hlast : s.wrfds = s.wrfdsOrig ↔ (selects es).getLast? ≠ some .quiet := by
    rw [h.watched]
    split
    · simp [*, hleft.ne_empty.symm]
    · simp [*]
  calc WatchesAll s.called
      ↔ WatchesAll s ∧ s.wrfds = s.wrfdsOrig := by
        simp [WatchesAll, State.called, or_imp, forall_and]
    _ ↔ _ := by rw [h.calls, hlast, ← all_ne_iff]

theorem Open.quiet (h : Open c es s) (hleft : s.wrfdsOrig.Nonempty) :
    Open c (es ++ [.select .quiet]) { s.called with wrfds := ∅, timeouts := s.timeouts + 1 } := by
  have hs : selects (es ++ [.select .quiet]) = selects es ++ [.quiet] := selects_append es _
  refine ⟨⟨h.counted, h.subset, ?_, ?_, h.answered⟩, h.selecting, ?_, h.timedOut⟩
  · rw [hs, List.count_append, ← h.timeouts]
    rfl
  · rw [hs, List.dropLast_concat]
    exact h.called hleft
  · rw [hs, List.getLast?_concat, if_pos rfl]

theorem Open.looked (h : Open c es s) (hleft : s.wrfdsOrig.Nonempty) {o : Outcome} (hne : o ≠ .quiet)
    {r : Finset Int} (ht : Checked { s.called with wrfds := r } t) : Tally c (es ++ [.select o]) t := by
  have hs : selects (es ++ [.select o]) = selects es ++ [o] := selects_append es _
  refine ⟨ht.counted.trans h.counted, ht.subset.trans h.subset, ?_, ?_, ?_⟩
  · rw [hs, List.count_append, List.count_singleton, if_neg (by simpa using hne), ht.timeouts]
    exact h.timeouts
  · rw [hs, List.dropLast_concat, ← h.called hleft]
    simp only [WatchesAll, ht.calls]
  · intro fd hfd hnot
    by_cases hmem : fd ∈ s.wrfdsOrig
    · exact ht.answered fd hmem hnot
    · exact (h.answered fd hfd hmem).mono ht.reports

theorem Open.ready (h : Open c es s) (hleft : s.wrfdsOrig.Nonempty) {r : Finset Int} (hr : r ⊆ s.wrfds) :
    Inv c (es ++ [.select (.ready r)]) (iterate c soError s.called (.ready r)) := by
  have hsub : r ⊆ s.wrfdsOrig := by
    intro fd hfd
    have hw := hr hfd
    rw [h.watched] at hw
    split at hw
    · exact absurd hw (Finset.notMem_empty fd)
    · exact hw
  have ht : Checked { s.called with wrfds := r } (checkHosts soError c.hosts { s.called with wrfds := r }) :=
    checkHosts_checked c.hosts hsub (fun fd hfd => c.once fd (h.subset (hsub hfd)))
  have htally := h.looked hleft (o := .ready r) (by simp) ht
  simp only [iterate]
  split
  · exact htally.errored ‹_›
  · have hlast : (selects (es ++ [.select (.ready r)])).getLast? = some (.ready r) := by
      rw [selects_append]
      exact List.getLast?_concat
    apply Open.head
    exact ⟨⟨htally.counted, htally.subset, htally.timeouts, htally.calls, htally.answered⟩,
      (ht.phase.resolve_right ‹_›).trans h.selecting, by rw [hlast, if_neg (by simp)],
      fun fd htimed => h.timedOut fd (ht.timedOut fd htimed)⟩

theorem Open.finish (h : Open c es s) (fd : Int) : Open c (es ++ [.finish fd]) { s with finished := insert fd s.finished } := by
  have hs : selects (es ++ [.finish fd]) = selects es := (selects_append es _).trans (List.append_nil _)
  refine ⟨⟨h.counted, h.subset, ?_, ?_, h.answered⟩, h.selecting, ?_, h.timedOut⟩
  · rw [hs]
    exact h.timeouts
  · rw [hs]
    exact h.calls
  · rw [hs]
    exact h.watched

theorem inv_select (h : Inv c es s) (hphase : s.phase = .selecting) (o : Outcome)
    (hready : ∀ r, o = .ready r → r ⊆ s.wrfds) : Inv c (es ++ [.select o]) (iterate c soError s.called o) := by
  obtain ⟨hopen, hleft⟩ := h.selecting hphase
  cases o with
  | quiet =>
      have hquiet := hopen.quiet hleft
      simp only [iterate]
      split
      · exact hquiet.report (.inr ‹_›)
      · exact hquiet.head
  | ready r => exact hopen.ready hleft (hready r rfl)
  | error =>
      have hexit : Checked s.called { s.called with phase := .errored } :=
        ⟨rfl, rfl, rfl, .inr rfl, rfl, subset_rfl, List.Subset.refl _, fun _ hm hm' => absurd hm hm', fun _ ht => ht⟩
      exact (hopen.looked hleft (by simp) hexit).errored rfl

theorem inv_step (h : Inv c es s) {e : Event} (hs : next c soError s e = some t) : Inv c (es ++ [e]) t := by
  cases e with
  | finish fd =>
      simp only [next, Option.ite_none_right_eq_some, Option.some.injEq] at hs
      obtain ⟨hphase, rfl⟩ := hs
      obtain ⟨hopen, hleft⟩ := h.selecting hphase
      have hopen' := hopen.finish fd
      exact ⟨hopen'.toTally, fun _ => ⟨hopen', hleft⟩, fun hp => absurd (hphase.symm.trans hp) nofun⟩
  | select o =>
      simp only [next, Option.ite_none_right_eq_some, Option.some.injEq] at hs
      obtain ⟨⟨hphase, hallow⟩, rfl⟩ := hs
      apply inv_select h hphase
      rintro r rfl
      exact hallow.2.trans Finset.inter_subset_left

theorem run_inv (h : Run (Exec (next c soError)) (initial c) es s) : Inv c es s :=
  h.invariant (I := Inv c) (initial_inv c) (fun _ _ _ _ _ hi hl => inv_step hi hl)

/-- The program does what it is for as long as no quiet second is followed by
another call, and in no other run. -/
theorem watches_all_iff (c : Start) (soError : Int → Option Int) (es : List Event) (s : State)
    (h : Run (Exec (next c soError)) (initial c) es s) :
    (WatchesAll s ∧ NoneMissed c s) ↔ ∀ o ∈ (selects es).dropLast, o ≠ .quiet := by
  have hinv := run_inv h
  constructor
  · exact fun hgood => hinv.calls.mp hgood.1
  · intro hquiet
    refine ⟨hinv.calls.mpr hquiet, fun hdone fd hfd _ => ?_⟩
    obtain ⟨hempty | htimeout, htimed⟩ := hinv.done hdone
    · have hnot : fd ∉ s.wrfdsOrig := by simp [hempty]
      exact ⟨hinv.answered fd hfd hnot, fun ht => hnot (htimed fd ht)⟩
    · have hcount : (selects es).count .quiet ≤ 1 := by
        have hzero : (selects es).dropLast.count .quiet = 0 := List.count_eq_zero.mpr (fun ho => hquiet _ ho rfl)
        cases hes : selects es using List.reverseRecOn with
        | nil => simp
        | append_singleton os o _ =>
            rw [hes, List.dropLast_concat] at hzero
            rw [List.count_append, hzero, Nat.zero_add]
            exact List.count_le_length
      rw [hinv.timeouts] at htimeout
      simp only [timeout] at htimeout
      omega

def localhost : Start where
  hosts := [⟨"localhost", "22", #v[3, -1, -1], 1, by decide⟩]
  pending := {3}
  n := 0
  numSockets := 1
  counted := rfl
  once := by decide

theorem watches_all_iff_localhost :
    ∃ es s, Run (Exec (next localhost some)) (initial localhost) es s ∧ s.phase = .done ∧
      ((WatchesAll s ∧ NoneMissed localhost s) ↔ ∀ o ∈ (selects es).dropLast, o ≠ .quiet) := by
  have hrun : Run (Exec (next localhost some)) (initial localhost) [.finish 3, .select (.ready {3})] _ := replay_run rfl
  exact ⟨_, _, hrun, by decide, watches_all_iff localhost some _ _ hrun⟩

def lateConnect : List Event := [.select .quiet, .finish 3] ++ List.replicate 9 (.select .quiet)

/-- The connect is over in the second second, and is reported as timed out. -/
theorem late_connect_missed :
    ∃ s, Run (Exec (next localhost some)) (initial localhost) lateConnect s ∧
      ¬ WatchesAll s ∧ ¬ NoneMissed localhost s := by
  have hrun : Run (Exec (next localhost some)) (initial localhost) lateConnect _ := replay_run rfl
  refine ⟨_, hrun, ?_, ?_⟩
  · intro hall
    exact absurd (hall (∅, {3}) (by decide)) (by decide)
  · intro hmissed
    exact (hmissed (by decide) 3 (by decide) (by decide)).2 ⟨⟨"localhost", "22", 3, .timedOut⟩, by decide, rfl, rfl⟩

end UnixProg.Select.NonBlockingConnect

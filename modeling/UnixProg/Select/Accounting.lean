import UnixProg.Select.ConnectPhase

namespace UnixProg.Select.Accounting

open Lib Transition NonBlockingConnect ConnectPhase

/-- What `select()` may return for the watched sockets, whatever becomes of
their connects. -/
def Returns (s : State) : Outcome → Prop
  | .quiet | .error => True
  | .ready r => r.Nonempty ∧ r ⊆ s.wrfds

instance (s : State) : ∀ o, Decidable (Returns s o)
  | .quiet | .error => inferInstanceAs (Decidable True)
  | .ready r => inferInstanceAs (Decidable (r.Nonempty ∧ r ⊆ s.wrfds))

/-- The loop as it goes on from one return of `select()` to the next call. -/
def nextCall (c : Start) (soError : Int → Option Int) (s : State) (o : Outcome) : Option State :=
  if s.phase = .selecting ∧ Returns s o then some (iterate c soError s.called o) else none

/-- The reports of a socket, with the one that is still to come. -/
def due (fd : Int) (s : State) : Nat := reported fd s.reports + if fd ∈ s.wrfdsOrig then 1 else 0

/-- Each pending socket is due one report until the final report is made. -/
structure Account (c : Start) (s : State) : Prop where
  selecting (h : s.phase = .selecting) : s.timeouts < timeout
  due (h : s.phase ≠ .done) (fd) : due fd s = if fd ∈ c.pending then 1 else 0
  reported (h : s.phase = .done) (fd) : reported fd s.reports + (if fd ∈ s.wrfdsOrig then 1 else 0) =
    (if fd ∈ c.pending then 1 else 0) + if fd ∈ s.wrfdsOrig then (c.hosts.flatMap Host.opened).count fd else 0
  timedOut (h : s.phase = .done) (fd) (hfd : fd ∈ s.wrfdsOrig) (hmem : fd ∈ c.hosts.flatMap Host.opened) : TimedOut s fd
  left (h : s.phase = .done) : s.n ≠ c.numSockets ↔ s.timeouts = timeout

variable {c : Start} {soError : Int → Option Int} {s t : State} {os : List Outcome} {fd : Int}

theorem checkSocket_due (h : Host) {fd x : Int} (hfd : fd ∈ s.wrfds → fd ∈ s.wrfdsOrig) :
    due x (checkSocket soError h s fd) = due x s := by
  simp only [checkSocket]
  split
  · rfl
  · rename_i hskip
    have hmem := hfd (not_not.mp (not_or.mp hskip).2)
    split
    · rfl
    · simp only [due, reported_append, reported_singleton, Finset.mem_erase]
      by_cases hx : fd = x
      · subst hx
        simp [hmem]
      · simp [hx, Ne.symm hx]

theorem timedOutReports_reported (W : Finset Int) (hosts : List Host) (fd : Int) :
    reported fd (hosts.flatMap (timedOutReports W)) = if fd ∈ W then (hosts.flatMap Host.opened).count fd else 0 := by
  have hmap : (hosts.flatMap (timedOutReports W)).map Report.socket = (hosts.flatMap Host.opened).filter (· ∈ W) := by
    rw [List.map_flatMap, List.filter_flatMap]
    apply List.flatMap_congr
    intro h _
    simp [timedOutReports, Function.comp_def]
  rw [reported, hmap]
  split
  · exact List.count_filter (by simpa using ‹_›)
  · exact List.count_eq_zero.mpr (fun hmem => ‹fd ∉ W› (by simpa using (List.mem_filter.mp hmem).2))

theorem finalReport_account (hdue : ∀ fd, due fd s = if fd ∈ c.pending then 1 else 0)
    (hleft : s.n ≠ c.numSockets ↔ s.timeouts = timeout) : Account c (finalReport c.hosts s) where
  selecting := nofun
  due := fun h => absurd rfl h
  reported := by
    intro _ fd
    rw [← hdue]
    change reported fd (s.reports ++ _) + (if fd ∈ s.wrfdsOrig then 1 else 0) =
      due fd s + if fd ∈ s.wrfdsOrig then (c.hosts.flatMap Host.opened).count fd else 0
    rw [reported_append, timedOutReports_reported, Accounting.due]
    omega
  timedOut := by
    intro _ fd hfd hmem
    have hleft : fd ∈ s.wrfdsOrig := hfd
    obtain ⟨h, hh, hopened⟩ := List.mem_flatMap.mp hmem
    refine ⟨⟨h.hostname, h.port, fd, .timedOut⟩, List.mem_append_right _ (List.mem_flatMap.mpr ⟨h, hh, ?_⟩), rfl, rfl⟩
    exact List.mem_map.mpr ⟨fd, List.mem_filter.mpr ⟨hopened, by simpa using hleft⟩, rfl⟩
  left := fun _ => hleft

theorem head_account (hphase : s.phase = .selecting) (hdue : ∀ fd, due fd s = if fd ∈ c.pending then 1 else 0)
    (htime : s.timeouts < timeout) : Account c (head c s) := by
  have hlive : s.phase ≠ .done := by simp [hphase]
  rw [head]
  split
  · exact ⟨fun _ => htime, fun _ => hdue, fun h => absurd h hlive, fun h => absurd h hlive, fun h => absurd h hlive⟩
  · rename_i hn
    exact finalReport_account hdue ⟨fun h => absurd h hn, fun h => absurd h htime.ne⟩

theorem account_step (hinv : Inv c (os.map .select) s) (h : Account c s) {o : Outcome} (hs : nextCall c soError s o = some t) :
    Account c t := by
  simp only [nextCall, Option.ite_none_right_eq_some, Option.some.injEq] at hs
  obtain ⟨⟨hphase, hreturns⟩, rfl⟩ := hs
  obtain ⟨hopen, hleft⟩ := hinv.selecting hphase
  have hlive : s.phase ≠ .done := by simp [hphase]
  have htime := h.selecting hphase
  have hdue := h.due hlive
  cases o with
  | quiet =>
      simp only [iterate]
      split
      · rename_i hlast
        refine finalReport_account (s := { s.called with wrfds := ∅, timeouts := s.timeouts + 1 }) hdue ⟨fun _ => hlast, ?_⟩
        intro _ hn
        have hcounted := hinv.counted
        have hpos := Finset.card_pos.mpr hleft
        have hn' : s.n = c.numSockets := hn
        omega
      · rename_i hlast
        have hlast' : s.timeouts + 1 ≠ timeout := hlast
        exact head_account (s := { s.called with wrfds := ∅, timeouts := s.timeouts + 1 }) hphase hdue
          (lt_of_le_of_ne htime hlast')
  | ready r =>
      have hready : r ⊆ s.wrfdsOrig := by
        intro fd hfd
        have hw := hreturns.2 hfd
        rw [hopen.watched] at hw
        split at hw
        · exact absurd hw (Finset.notMem_empty fd)
        · exact hw
      have honce : ∀ fd ∈ r, (c.hosts.flatMap Host.opened).count fd ≤ 1 :=
        fun fd hfd => c.once fd (hinv.subset (hready hfd))
      have hchecked : Checked { s.called with wrfds := r } (checkHosts soError c.hosts { s.called with wrfds := r }) :=
        checkHosts_checked c.hosts hready honce
      have hdue' (fd : Int) : due fd (checkHosts soError c.hosts { s.called with wrfds := r }) =
          if fd ∈ c.pending then 1 else 0 := by
        rw [← hdue fd]
        exact checkHosts_rule (I := fun t => due fd t = due fd s) c.hosts hready honce
          (fun _ h _ hfd ht => (checkSocket_due h hfd).trans ht) rfl
      have hphase' := hchecked.phase
      have htime' : (checkHosts soError c.hosts { s.called with wrfds := r }).timeouts = s.timeouts := hchecked.timeouts
      simp only [iterate]
      generalize checkHosts soError c.hosts { s.called with wrfds := r } = u at *
      split
      · rename_i herr
        have hselecting : u.phase ≠ .selecting := by simp [herr]
        have hlive' : u.phase ≠ .done := by simp [herr]
        exact ⟨fun h => absurd h hselecting, fun _ => hdue', fun h => absurd h hlive', fun h => absurd h hlive',
          fun h => absurd h hlive'⟩
      · rename_i herr
        exact head_account (s := { u with wrfds := u.wrfdsOrig }) ((hphase'.resolve_right herr).trans hphase) hdue'
          (htime'.trans_lt htime)
  | error =>
      have hselecting : Phase.errored ≠ .selecting := by decide
      have hlive' : Phase.errored ≠ .done := by decide
      exact ⟨fun h => absurd h hselecting, fun _ => hdue, fun h => absurd h hlive', fun h => absurd h hlive',
        fun h => absurd h hlive'⟩

theorem initial_account (c : Start) : Account c (initial c) :=
  head_account rfl (fun _ => Nat.zero_add _) (Nat.zero_lt_succ 9)

theorem run_account (h : Run (Exec (nextCall c soError)) (initial c) os s) : Inv c (os.map .select) s ∧ Account c s := by
  apply h.invariant (I := fun os s => Inv c (os.map .select) s ∧ Account c s) ⟨initial_inv c, initial_account c⟩
  rintro os o s t _ ⟨hinv, hacc⟩ hl
  refine ⟨?_, account_step hinv hacc hl⟩
  obtain ⟨⟨hphase, hreturns⟩, heq⟩ := Option.ite_none_right_eq_some.mp hl
  cases heq
  rw [List.map_append]
  apply inv_select hinv hphase
  rintro r rfl
  exact hreturns.2

/-- The count and the set agree whenever the condition of the loop is looked
at, and in the end each socket has been reported once. -/
theorem every_socket_reported_once (w : Network) (hreg : Regular w.entries) (k : Connects) (hk : w.connects = .ok k)
    (soError : Int → Option Int) (os : List Outcome) (s : State)
    (h : Run (Exec (nextCall (w.start k hk) soError)) (initial (w.start k hk)) os s) :
    s.n ≤ k.numSockets ∧ k.numSockets - s.n = s.wrfdsOrig.card ∧
    (s.phase = .done →
      (∀ fd, reported fd (k.reports ++ s.reports) = if fd ∈ initiated w.entries then 1 else 0) ∧
      ((∀ fd, ¬ TimedOut s fd) ↔ s.n = k.numSockets) ∧ (s.n ≠ k.numSockets ↔ s.timeouts = timeout)) := by
  obtain ⟨hinv, hacc⟩ := run_account h
  have hmade := (w.made hk).1
  have hopened : k.hosts.flatMap Host.opened = initiated w.entries := connectHosts_opened hreg hk
  have honce (fd : Int) : (initiated w.entries).count fd = if fd ∈ initiated w.entries then 1 else 0 :=
    w.distinct.count
  have hcounted : s.n + s.wrfdsOrig.card = k.numSockets := hinv.counted
  have hpending (fd : Int) (hfd : fd ∈ s.wrfdsOrig) : fd ∈ initiated w.entries := hmade.pending fd (hinv.subset hfd)
  refine ⟨by omega, by omega, fun hdone => ⟨fun fd => ?_, ⟨fun hnone => ?_, fun hall fd htimed => ?_⟩, hacc.left hdone⟩⟩
  · have hloop := hacc.reported hdone fd
    have hconnect := hmade.reported fd
    change _ = (if fd ∈ k.wrfds then 1 else 0) + if fd ∈ s.wrfdsOrig then (k.hosts.flatMap Host.opened).count fd else 0 at hloop
    rw [hopened, honce] at hloop
    rw [honce] at hconnect
    rw [reported_append]
    by_cases hfd : fd ∈ s.wrfdsOrig
    · rw [if_pos hfd, if_pos hfd, if_pos (hpending fd hfd)] at hloop
      omega
    · rw [if_neg hfd, if_neg hfd] at hloop
      omega
  · have hempty : s.wrfdsOrig = ∅ := by
      apply Finset.eq_empty_of_forall_notMem
      intro fd hfd
      refine hnone fd (hacc.timedOut hdone fd hfd ?_)
      change fd ∈ k.hosts.flatMap Host.opened
      rw [hopened]
      exact hpending fd hfd
    rw [hempty, Finset.card_empty] at hcounted
    exact hcounted
  · have hzero : s.wrfdsOrig.card = 0 := by omega
    have hmem := (hinv.done hdone).2 fd htimed
    rw [Finset.card_eq_zero.mp hzero] at hmem
    exact Finset.notMem_empty fd hmem

/-- Three sockets of two hosts: one that is refused at once, one that connects
later and one that does not answer. -/
def twoHosts : Network where
  entries := [⟨"localhost", "22", some [⟨.inet6, true, some 3, true, .failed 111⟩, ⟨.inet, true, some 4, true, .inProgress⟩]⟩,
    ⟨"localhost", "7", some [⟨.inet, true, some 5, true, .inProgress⟩]⟩]
  distinct := by decide
  valid := by decide

def twoHostsUnderWay : Connects where
  hosts := [⟨"localhost", "22", #v[3, 4, -1], 2, by decide⟩, ⟨"localhost", "7", #v[5, -1, -1], 1, one_le_maxSockets⟩]
  wrfds := {5, 4}
  n := 1
  numSockets := 3
  reports := [⟨"localhost", "22", 3, .failed 111⟩]

theorem twoHosts_connects : twoHosts.connects = .ok twoHostsUnderWay := rfl

/-- The second connect is over in the first second, and then nothing happens. -/
def oneAnswers : List Outcome := .ready {4} :: List.replicate 10 .quiet

theorem every_socket_reported_once_twoHosts : ∃ s,
    Run (Exec (nextCall (twoHosts.start _ twoHosts_connects) some)) (initial (twoHosts.start _ twoHosts_connects)) oneAnswers s ∧
    s.phase = .done ∧ s.timeouts = timeout ∧
    (∀ fd, reported fd (twoHostsUnderWay.reports ++ s.reports) = if fd ∈ initiated twoHosts.entries then 1 else 0) ∧
    ((∀ fd, ¬ TimedOut s fd) ↔ s.n = 3) := by
  obtain ⟨s, hs, hphase, htime⟩ : ∃ s, replay (nextCall (twoHosts.start _ twoHosts_connects) some)
      (initial (twoHosts.start _ twoHosts_connects)) oneAnswers = some s ∧ s.phase = .done ∧ s.timeouts = timeout :=
    ⟨_, rfl, rfl, rfl⟩
  have hreg : Regular twoHosts.entries := by simp [Regular, twoHosts, maxSockets]
  obtain ⟨_, _, hend⟩ := every_socket_reported_once twoHosts hreg _ twoHosts_connects some oneAnswers s (replay_run hs)
  obtain ⟨honce, hall, _⟩ := hend hphase
  exact ⟨s, replay_run hs, hphase, htime, honce, hall⟩

end UnixProg.Select.Accounting

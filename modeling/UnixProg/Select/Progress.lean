import UnixProg.Select.Accounting
import UnixProg.Select.HostTable

namespace UnixProg.Select.Progress

open Lib Transition NonBlockingConnect ConnectPhase HostTable

/-- All the watched sockets that are ready are in the set that `select()` leaves. -/
def Exact (s : State) : Event → Prop
  | .select (.ready r) => r = s.wrfds ∩ s.finished
  | .select .quiet | .select .error | .finish _ => True

instance (s : State) : ∀ e, Decidable (Exact s e)
  | .select (.ready r) => inferInstanceAs (Decidable (r = s.wrfds ∩ s.finished))
  | .select .quiet | .select .error | .finish _ => inferInstanceAs (Decidable True)

abbrev Step (c : Start) (soError : Int → Option Int) : State → Event → State → Prop :=
  Guarded (Exec (next c soError)) Exact

/-- A return with a ready socket is good for a connect that is counted, unless
the program gives up over `getsockopt()`, and so the loop ends. -/
structure Progresses (c : Start) (soError : Int → Option Int) : Prop where
  ready (es : List Event) (s t : State) (r : Finset Int) (hrun : Run (Step c soError) (initial c) es s)
    (hstep : Step c soError s (.select (.ready r)) t) : s.n < t.n ∨ t.phase = .errored
  bounded (es : List Event) (s : State) (hrun : Run (Step c soError) (initial c) es s) :
    (selects es).length ≤ c.numSockets + timeout

/-- An address whose connect is in progress stands at a place of the table
that the count of the sockets of its host reaches. -/
def Within (es : List Entry) : Prop :=
  ∀ e ∈ es, ∀ addrs, e.addrs = some addrs → ∀ (i : Nat) (a : Addr), addrs[i]? = some a → a.initiated.isSome →
    a.connect = .inProgress → i < created addrs

def Scanned (c : Start) : Prop := ∀ fd ∈ c.pending, fd ∈ c.hosts.flatMap Host.opened

variable {c : Start} {soError : Int → Option Int} {s t u : State} {es : List Event} {hosts : List Host} {fd : Int}
  {r : Finset Int}

/-- What the loops over the table do to the variables of the loop around them. -/
structure Onward (s t : State) : Prop where
  wrfds : t.wrfds = s.wrfds
  timeouts : t.timeouts = s.timeouts
  n : s.n ≤ t.n
  errored (h : s.phase = .errored) : t.phase = .errored

theorem Onward.refl (s : State) : Onward s s := ⟨rfl, rfl, le_rfl, id⟩

theorem Onward.trans (h : Onward s t) (h' : Onward t u) : Onward s u :=
  ⟨h'.wrfds.trans h.wrfds, h'.timeouts.trans h.timeouts, h.n.trans h'.n, fun hs => h'.errored (h.errored hs)⟩

theorem checkSocket_onward (h : Host) (fd : Int) : Onward s (checkSocket soError h s fd) := by
  rw [checkSocket]
  split
  · exact .refl s
  · cases soError fd with
    | none => exact ⟨rfl, rfl, le_rfl, fun _ => rfl⟩
    | some optval => exact ⟨rfl, rfl, Nat.le_succ _, id⟩

theorem checkSocket_ready (soError : Int → Option Int) (h : Host) (hfd : fd ∈ s.wrfds) :
    s.n < (checkSocket soError h s fd).n ∨ (checkSocket soError h s fd).phase = .errored := by
  rw [checkSocket]
  split
  · rename_i hskip
    exact .inr (hskip.resolve_right (not_not.mpr hfd))
  · cases soError fd with
    | none => exact .inr rfl
    | some optval => exact .inl (Nat.lt_succ_self _)

theorem checkPairs_onward (soError : Int → Option Int) (ps : List (Host × Int)) (s : State) :
    Onward s (ps.foldl (fun s p => checkSocket soError p.1 s p.2) s) := by
  induction ps generalizing s with
  | nil => exact .refl s
  | cons p ps ih => exact (checkSocket_onward p.1 p.2).trans (ih _)

theorem checkHosts_onward (soError : Int → Option Int) (hosts : List Host) (s : State) : Onward s (checkHosts soError hosts s) := by
  rw [checkHosts_eq]
  exact checkPairs_onward soError _ s

theorem checkHosts_ready (soError : Int → Option Int) (hfd : fd ∈ s.wrfds) (hmem : fd ∈ hosts.flatMap Host.opened) :
    s.n < (checkHosts soError hosts s).n ∨ (checkHosts soError hosts s).phase = .errored := by
  obtain ⟨h, hh, hopened⟩ := List.mem_flatMap.mp hmem
  have hpair : (h, fd) ∈ hosts.flatMap (fun h => h.opened.map (h, ·)) :=
    List.mem_flatMap.mpr ⟨h, hh, List.mem_map.mpr ⟨fd, hopened, rfl⟩⟩
  obtain ⟨before, after, hsplit⟩ := List.append_of_mem hpair
  rw [checkHosts_eq, hsplit, List.foldl_append, List.foldl_cons]
  have hbefore := checkPairs_onward soError before s
  generalize before.foldl (fun s p => checkSocket soError p.1 s p.2) s = t at *
  have hafter := checkPairs_onward soError after (checkSocket soError h t fd)
  obtain hn | herr := checkSocket_ready soError h (hbefore.wrfds ▸ hfd)
  · exact .inl (hbefore.n.trans_lt (hn.trans_le hafter.n))
  · exact .inr (hafter.errored herr)

theorem checkHosts_idle (hnone : ∀ fd ∈ s.wrfds, fd ∉ hosts.flatMap Host.opened) : checkHosts soError hosts s = s := by
  have hidle (ps : List (Host × Int)) (hps : ∀ p ∈ ps, p.2 ∉ s.wrfds) :
      ps.foldl (fun s p => checkSocket soError p.1 s p.2) s = s := by
    induction ps with
    | nil => rfl
    | cons p ps ih =>
        have hp : checkSocket soError p.1 s p.2 = s := if_pos (.inr (hps p List.mem_cons_self))
        rw [List.foldl_cons, hp]
        exact ih fun q hq => hps q (List.mem_cons_of_mem p hq)
  rw [checkHosts_eq]
  apply hidle
  intro p hp hmem
  obtain ⟨h, hh, hp⟩ := List.mem_flatMap.mp hp
  obtain ⟨fd, hfd, rfl⟩ := List.mem_map.mp hp
  exact hnone fd hmem (List.mem_flatMap.mpr ⟨h, hh, hfd⟩)

theorem head_n (c : Start) (s : State) : (head c s).n = s.n := by
  rw [head]
  split <;> rfl

theorem head_selecting (h : (head c s).phase = .selecting) : head c s = s := by
  rw [head] at h ⊢
  split at h
  · rw [if_pos ‹_›]
  · cases h

theorem iterate_ready (soError : Int → Option Int) (hr : r.Nonempty) (hmem : ∀ fd ∈ r, fd ∈ c.hosts.flatMap Host.opened) :
    s.n < (iterate c soError s (.ready r)).n ∨ (iterate c soError s (.ready r)).phase = .errored := by
  obtain ⟨fd, hfd⟩ := hr
  have hready := checkHosts_ready soError (s := { s with wrfds := r }) hfd (hmem fd hfd)
  simp only [iterate]
  split
  · exact .inr ‹_›
  · rw [head_n]
    exact .inl (hready.resolve_right ‹_›)

theorem watched_pending (hinv : Inv c es s) (hphase : s.phase = .selecting) : s.wrfds ⊆ c.pending := by
  have hopen := (hinv.selecting hphase).1
  rw [hopen.watched]
  split
  · exact Finset.empty_subset _
  · exact hopen.subset

structure Paced (c : Start) (es : List Event) (s : State) : Prop where
  steady (h : s.phase = .selecting) : (selects es).length ≤ s.n + s.timeouts ∧ s.timeouts < timeout
  total : (selects es).length ≤ c.numSockets + timeout

theorem length_selects_select (es : List Event) (o : Outcome) :
    (selects (es ++ [.select o])).length = (selects es).length + 1 := by
  rw [selects_append]
  exact List.length_append

theorem iterate_paced (hscanned : Scanned c) (hinv : Inv c es s) (hphase : s.phase = .selecting) (o : Outcome)
    (hready : ∀ r, o = .ready r → r.Nonempty ∧ r ⊆ s.wrfds) (htime : s.timeouts < timeout)
    (hgo : (iterate c soError s.called o).phase = .selecting) :
    s.n + s.timeouts < (iterate c soError s.called o).n + (iterate c soError s.called o).timeouts ∧
      (iterate c soError s.called o).timeouts < timeout := by
  cases o with
  | error => cases hgo
  | quiet =>
      simp only [iterate] at hgo ⊢
      split at hgo
      · cases hgo
      · rename_i hlast
        rw [if_neg hlast, head_selecting hgo]
        have hlast' : s.timeouts + 1 ≠ timeout := hlast
        change s.n + s.timeouts < s.n + (s.timeouts + 1) ∧ s.timeouts + 1 < timeout
        omega
  | ready r =>
      obtain ⟨hr, hsub⟩ := hready r rfl
      have hn := iterate_ready soError (s := s.called) hr
        (fun fd hfd => hscanned fd (watched_pending hinv hphase (hsub hfd)))
      have hn' := hn.resolve_right (by simp [hgo])
      have honward := checkHosts_onward soError c.hosts { s.called with wrfds := r }
      have htimeouts : (iterate c soError s.called (.ready r)).timeouts = s.timeouts := by
        simp only [iterate] at hgo ⊢
        split at hgo
        · simp [*] at hgo
        · rw [if_neg ‹_›, head_selecting hgo]
          exact honward.timeouts
      rw [htimeouts]
      change s.n < _ at hn'
      omega

theorem Paced.select (hp : Paced c es s) (hscanned : Scanned c) (hinv : Inv c es s) (hphase : s.phase = .selecting)
    (o : Outcome) (hready : ∀ r, o = .ready r → r.Nonempty ∧ r ⊆ s.wrfds) :
    Paced c (es ++ [.select o]) (iterate c soError s.called o) := by
  obtain ⟨hsteady, htime⟩ := hp.steady hphase
  have hlen := length_selects_select es o
  refine ⟨fun hgo => ?_, ?_⟩
  · obtain ⟨hlt, htime'⟩ := iterate_paced hscanned hinv hphase o hready htime hgo
    omega
  · have hcounted := hinv.counted
    have hleft := Finset.card_pos.mpr (hinv.selecting hphase).2
    omega

theorem initial_paced (c : Start) : Paced c [] (initial c) := by
  refine ⟨fun h => ?_, Nat.zero_le _⟩
  rw [initial, head_selecting h]
  exact ⟨Nat.zero_le _, Nat.zero_lt_succ 9⟩

theorem paced_step (hp : Paced c es s) (hscanned : Scanned c) (hinv : Inv c es s) {e : Event}
    (hs : next c soError s e = some t) : Paced c (es ++ [e]) t := by
  cases e with
  | finish fd =>
      obtain ⟨hphase, heq⟩ := Option.ite_none_right_eq_some.mp hs
      cases heq
      have hlen : selects (es ++ [.finish fd]) = selects es := (selects_append es _).trans (List.append_nil _)
      exact ⟨fun _ => hlen ▸ hp.steady hphase, hlen ▸ hp.total⟩
  | select o =>
      obtain ⟨⟨hphase, hallow⟩, heq⟩ := Option.ite_none_right_eq_some.mp hs
      cases heq
      apply hp.select hscanned hinv hphase
      rintro r rfl
      exact ⟨hallow.1, hallow.2.trans Finset.inter_subset_left⟩

/-- When the connect of a socket is over that is not scanned, `select()` returns
with it and nothing is done. -/
theorem unscanned_stuck (soError : Int → Option Int) (hfd : fd ∈ c.pending) (hnot : fd ∉ c.hosts.flatMap Host.opened) : ∃ s t,
    Run (Step c soError) (initial c) [.finish fd] s ∧ Step c soError s (.select (.ready {fd})) t ∧ t.n = s.n ∧
    t.phase = .selecting := by
  have hn : c.n ≠ c.numSockets := by
    have hcounted := c.counted
    have hpos := Finset.card_pos.mpr ⟨fd, hfd⟩
    omega
  have hinit : initial c = ⟨.selecting, c.pending, c.pending, c.n, 0, [], [], ∅, []⟩ := if_pos hn
  let s : State := ⟨.selecting, c.pending, c.pending, c.n, 0, [], [], {fd}, []⟩
  have hrun : Run (Step c soError) (initial c) [.finish fd] s := by
    rw [hinit]
    exact .single ⟨trivial, rfl⟩
  have hwatched : s.wrfds ∩ s.finished = {fd} := Finset.inter_singleton_of_mem hfd
  have hallow : s.Allows (.ready {fd}) := ⟨Finset.singleton_nonempty fd, hwatched.symm.subset⟩
  have hidle : checkHosts soError c.hosts { s.called with wrfds := {fd} } = { s.called with wrfds := {fd} } := by
    apply checkHosts_idle
    intro x hx
    rwa [Finset.mem_singleton.mp hx]
  have hiter : iterate c soError s.called (.ready {fd}) = s.called := by
    simp only [iterate, hidle]
    exact if_pos hn
  refine ⟨s, s.called, hrun, ⟨hwatched.symm, ?_⟩, rfl, rfl⟩
  rw [← hiter]
  exact if_pos ⟨rfl, hallow⟩

/-- The loop gets past every ready socket just in case it scans all of them. -/
theorem progresses_iff_scanned (c : Start) (soError : Int → Option Int) : Progresses c soError ↔ Scanned c := by
  constructor
  · intro hprog fd hfd
    by_contra hnot
    obtain ⟨s, t, hrun, hstep, hn, hphase⟩ := unscanned_stuck soError hfd hnot
    obtain hlt | herr := hprog.ready _ _ _ _ hrun hstep
    · omega
    · simp [hphase] at herr
  · intro hscanned
    refine ⟨fun es s t r hrun hstep => ?_, fun es s hrun => ?_⟩
    · have hinv := run_inv hrun.unguard
      obtain ⟨⟨hphase, hallow⟩, heq⟩ := Option.ite_none_right_eq_some.mp hstep.2
      cases heq
      exact iterate_ready soError (s := s.called) hallow.1
        (fun fd hfd => hscanned fd (watched_pending hinv hphase (Finset.inter_subset_left (hallow.2 hfd))))
    · have hpaced : Paced c es s := by
        apply hrun.invariant (I := Paced c) (initial_paced c)
        intro es e s t hr hp hs
        exact paced_step hp hscanned (run_inv hr.unguard) hs.2
      exact hpaced.total

theorem scanned_iff_within (w : Network) (k : Connects) (hk : w.connects = .ok k) :
    Scanned (w.start k hk) ↔ Within w.entries := by
  have htable := Network.table w hk
  have hvalid {e : Entry} {addrs : List Addr} {i : Nat} {a : Addr} {fd : Int} (he : e ∈ w.entries)
      (haddrs : e.addrs = some addrs) (ha : addrs[i]? = some a) (hfd : a.initiated = some fd) : fd ≠ -1 :=
    w.valid fd (mem_initiated he haddrs (List.mem_of_getElem? ha) hfd)
  constructor
  · intro hscanned e he addrs haddrs i a ha hinit hprogress
    obtain ⟨fd, hfd⟩ := Option.isSome_iff_exists.mp hinit
    have hmem := hscanned fd ((Network.pending w hk).mpr ⟨e, he, addrs, haddrs, i, a, ha, hfd, hprogress⟩)
    obtain ⟨h, hh, hopened⟩ := List.mem_flatMap.mp hmem
    obtain ⟨e', he', addrs', haddrs', hfilled⟩ := htable.entry h hh
    rw [hfilled.opened_eq, List.mem_map] at hopened
    obtain ⟨j, hj, hslot⟩ := hopened
    obtain ⟨b, hb, hfd'⟩ := (slot_eq_iff (hvalid he haddrs ha hfd)).mp hslot
    obtain ⟨rfl, rfl⟩ := address_unique w.distinct he he' haddrs haddrs' ha hb hfd hfd'
    exact List.mem_range.mp hj
  · intro hwithin fd hfd
    obtain ⟨e, he, addrs, haddrs, i, a, ha, hfd, hprogress⟩ := (Network.pending w hk).mp hfd
    have hi := hwithin e he addrs haddrs i a ha (by simp [hfd]) hprogress
    obtain ⟨addrs', haddrs', h, hh, hfilled⟩ := htable.line e he
    obtain rfl : addrs = addrs' := Option.some.inj (haddrs.symm.trans haddrs')
    refine List.mem_flatMap.mpr ⟨h, hh, ?_⟩
    rw [hfilled.opened_eq, List.mem_map]
    exact ⟨i, List.mem_range.mpr hi, (slot_eq_iff (hvalid he haddrs ha hfd)).mpr ⟨a, ha, hfd⟩⟩

/-- The loop makes progress for a network and is bounded just in case each
connect in progress stands where the loop looks. -/
theorem progresses_iff_within (w : Network) (k : Connects) (hk : w.connects = .ok k) (soError : Int → Option Int) :
    Progresses (w.start k hk) soError ↔ Within w.entries :=
  (progresses_iff_scanned _ soError).trans (scanned_iff_within w k hk)

theorem progresses_iff_within_twoHosts : Progresses (Accounting.twoHosts.start _ Accounting.twoHosts_connects) some := by
  apply (progresses_iff_within Accounting.twoHosts _ Accounting.twoHosts_connects some).mpr
  intro e he addrs haddrs i a ha _ _
  have hi := (List.getElem?_eq_some_iff.mp ha).1
  obtain rfl | rfl : e = _ ∨ e = _ := by simpa [Accounting.twoHosts] using he
  · cases haddrs
    exact hi
  · cases haddrs
    exact hi

/-- The first address of the host gets no socket, the second one a socket that
stands behind the count. -/
def socketFails : Network where
  entries := [⟨"localhost", "22", some [⟨.inet6, true, none, true, .inProgress⟩, ⟨.inet, true, some 3, true, .inProgress⟩]⟩]
  distinct := by decide
  valid := by decide

def socketFailsUnderWay : Connects where
  hosts := [⟨"localhost", "22", #[-1, 3, -1].toVector, 1, one_le_maxSockets⟩]
  wrfds := {3}
  n := 0
  numSockets := 1
  reports := []

theorem socketFails_connects : socketFails.connects = .ok socketFailsUnderWay := rfl

/-- The connect is over, and `select()` returns at once again and again. -/
def spinning : List Event := .finish 3 :: List.replicate 12 (.select (.ready {3}))

theorem ready_never_scanned : ∃ s,
    Run (Step (socketFails.start _ socketFails_connects) some) (initial (socketFails.start _ socketFails_connects))
      spinning s ∧
    s.n = 0 ∧ s.phase = .selecting ∧ socketFailsUnderWay.numSockets + timeout < (selects spinning).length :=
  ⟨_, replay_guarded rfl, rfl, rfl, by decide⟩

end UnixProg.Select.Progress

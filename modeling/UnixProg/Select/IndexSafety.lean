import UnixProg.Select.HostTable

namespace UnixProg.Select.IndexSafety

open Lib Transition NonBlockingConnect ConnectPhase HostTable

/-- An index into `sockets`, or an argument of `FD_SET`, `FD_ISSET`, `FD_CLR` or `close()`. -/
inductive Access
  | slot (i : Nat)
  | descriptor (fd : Int)
deriving DecidableEq

def Access.Ok (fds : List Int) : Access → Prop
  | .slot i => i < maxSockets
  | .descriptor fd => fd ∈ fds

instance (fds : List Int) : ∀ x : Access, Decidable (x.Ok fds)
  | .slot i => inferInstanceAs (Decidable (i < maxSockets))
  | .descriptor fd => inferInstanceAs (Decidable (fd ∈ fds))

/-- One address in the connect loop. -/
def addrAccesses (a : Addr) (i : Nat) : List Access :=
  if a.family = .other ∨ a.named = false then []
  else match a.socket with
    | none => [.slot i]
    | some fd =>
        -- the store, the message, the two calls of `fcntl()`
        [.slot i, .slot i, .slot i, .slot i] ++
        if a.nonBlocking = false then []
        else .slot i :: if a.connect = .inProgress then [.slot i, .descriptor fd] else []

def addrsAccesses : List Addr → Opening → Connects → List Access
  | [], _, _ => []
  | a :: as, o, k => addrAccesses a o.i ++ match connectAddr a o k with
    | .error _ => []
    | .ok (o, k) => addrsAccesses as o k

def connectAccesses : List Entry → Connects → List Access
  | [], _ => []
  | e :: es, k => match e.addrs with
    | none => []
    | some addrs => addrsAccesses addrs e.opening k ++ match connectAddrs addrs e.opening k with
      | .error _ => []
      | .ok k => connectAccesses es k

/-- One socket in the scan after a `select()`. -/
def socketAccesses (soError : Int → Option Int) (s : State) (i : Nat) (fd : Int) : List Access :=
  if s.phase = .errored then []
  else [.slot i, .descriptor fd] ++
    if fd ∉ s.wrfds then []
    else .slot i :: match soError fd with
      | none => []
      -- the message, `FD_CLR`, `close()`
      | some _ => [.slot i, .slot i, .descriptor fd, .slot i, .descriptor fd]

def hostAccesses (soError : Int → Option Int) (h : Host) : State → Nat → List Int → List Access
  | _, _, [] => []
  | s, i, fd :: fds => socketAccesses soError s i fd ++ hostAccesses soError h (checkSocket soError h s fd) (i + 1) fds

def scanAccesses (soError : Int → Option Int) : List Host → State → List Access
  | [], _ => []
  | h :: hosts, s => hostAccesses soError h s 0 h.opened ++ scanAccesses soError hosts (checkHost soError s h)

def reportAccesses (s : State) (h : Host) : List Access :=
  h.opened.zipIdx.flatMap fun p => [.slot p.2, .descriptor p.1] ++ if p.1 ∈ s.wrfdsOrig then [.slot p.2] else []

def finalAccesses (hosts : List Host) (s : State) : List Access := hosts.flatMap (reportAccesses s)

def headAccesses (c : Start) (s : State) : List Access := if s.n ≠ c.numSockets then [] else finalAccesses c.hosts s

def iterateAccesses (c : Start) (soError : Int → Option Int) (s : State) : Outcome → List Access
  | .quiet =>
      let t := { s with wrfds := ∅, timeouts := s.timeouts + 1 }
      if t.timeouts = timeout then finalAccesses c.hosts t else headAccesses c t
  | .error => []
  | .ready r =>
      let t := checkHosts soError c.hosts { s with wrfds := r }
      scanAccesses soError c.hosts { s with wrfds := r } ++
        if t.phase = .errored then [] else headAccesses c { t with wrfds := t.wrfdsOrig }

def accesses (c : Start) (soError : Int → Option Int) (s : State) : Event → List Access
  | .finish _ => []
  | .select o => iterateAccesses c soError s.called o

def before (c : Start) : State := ⟨.selecting, c.pending, c.pending, c.n, 0, [], [], ∅, []⟩

/-- Whatever the other calls answer and whichever sockets become ready. -/
structure Safe (w : Network) : Prop where
  connect (x : Access) (hx : x ∈ connectAccesses w.entries .empty) : x.Ok (initiated w.entries)
  loop (k : Connects) (hk : w.connects = .ok k) (soError : Int → Option Int) (es : List Event) (s : State)
    (hrun : Run (Exec (next (w.start k hk) soError)) (initial (w.start k hk)) es s) (x : Access)
    (hx : x ∈ headAccesses (w.start k hk) (before (w.start k hk)) ++
      trace (next (w.start k hk) soError) (accesses (w.start k hk) soError) (initial (w.start k hk)) es) :
    x.Ok (initiated w.entries)

def found (a : Addr) : Family × Option Int := (a.family, a.socket)

/-- The addresses that `getaddrinfo()` returns, with the answers of `socket()`. -/
def sockets (w : Network) : List (List (Family × Option Int)) := w.entries.map fun e => (e.addrs.getD []).map found

def given (x : Family × Option Int) : Option Int := if x.1 = .other then none else x.2

/-- There is room for the addresses, and those that get a socket come first. -/
structure InOrder (xs : List (Family × Option Int)) : Prop where
  room (i : Nat) (x : Family × Option Int) (hx : xs[i]? = some x) (hf : x.1 ≠ .other) : i < maxSockets
  first (j : Nat) (hj : j < (xs.filterMap given).length) : ∃ x fd, xs[j]? = some x ∧ given x = some fd

variable {w : Network} {c : Start} {soError : Int → Option Int} {s : State} {es : List Entry} {hosts : List Host} {h : Host}
  {fds : List Int} {a : Addr} {addrs : List Addr} {o o' : Opening} {k k' : Connects} {i : Nat} {x : Access} {fd : Int}

theorem filterMap_given (addrs : List Addr) : ((addrs.map found).filterMap given).length = created addrs := by
  rw [created, List.filterMap_map]
  rfl

theorem socketAccesses_ok (hi : i < maxSockets) (hfd : fd ∈ fds) (hx : x ∈ socketAccesses soError s i fd) : x.Ok fds := by
  suffices hx : x = .slot i ∨ x = .descriptor fd by
    obtain rfl | rfl := hx
    · exact hi
    · exact hfd
  rw [socketAccesses] at hx
  split at hx
  · cases hx
  · split at hx
    · simpa using hx
    · cases hso : soError fd <;> simp only [hso, List.mem_append, List.mem_cons, List.not_mem_nil] at hx <;> tauto

theorem hostAccesses_ok {opened : List Int} (hi : i + opened.length ≤ maxSockets) (hfds : ∀ fd ∈ opened, fd ∈ fds)
    (hx : x ∈ hostAccesses soError h s i opened) : x.Ok fds := by
  induction opened generalizing i s with
  | nil => cases hx
  | cons fd opened ih =>
      rw [List.length_cons] at hi
      obtain hx | hx := List.mem_append.mp hx
      · exact socketAccesses_ok (by omega) (hfds fd List.mem_cons_self) hx
      · exact ih (by omega) (fun fd' hfd => hfds fd' (List.mem_cons_of_mem fd hfd)) hx

theorem length_opened_le (h : Host) : h.opened.length ≤ maxSockets := by
  rw [Host.opened, List.length_take]
  exact (Nat.min_le_left ..).trans h.numsock_le

theorem scanAccesses_ok (hfds : ∀ h ∈ hosts, ∀ fd ∈ h.opened, fd ∈ fds) (hx : x ∈ scanAccesses soError hosts s) :
    x.Ok fds := by
  induction hosts generalizing s with
  | nil => cases hx
  | cons h hosts ih =>
      obtain hx | hx := List.mem_append.mp hx
      · exact hostAccesses_ok (by simpa using length_opened_le h) (hfds h List.mem_cons_self) hx
      · exact ih (fun h' hh => hfds h' (List.mem_cons_of_mem h hh)) hx

theorem finalAccesses_ok_iff : (∀ x ∈ finalAccesses hosts s, x.Ok fds) ↔ ∀ h ∈ hosts, ∀ fd ∈ h.opened, fd ∈ fds := by
  constructor
  · intro hok h hh fd hfd
    obtain ⟨i, hi, rfl⟩ := List.mem_iff_getElem.mp hfd
    apply hok (.descriptor h.opened[i])
    refine List.mem_flatMap.mpr ⟨h, hh, List.mem_flatMap.mpr ⟨(h.opened[i], i), ?_, by simp⟩⟩
    exact List.mk_mem_zipIdx_iff_getElem?.mpr (List.getElem?_eq_getElem hi)
  · intro hfds x hx
    obtain ⟨h, hh, hx⟩ := List.mem_flatMap.mp hx
    obtain ⟨⟨fd, i⟩, hp, hx⟩ := List.mem_flatMap.mp hx
    obtain ⟨hi, rfl⟩ := List.getElem?_eq_some_iff.mp (List.mk_mem_zipIdx_iff_getElem?.mp hp)
    have hlt : i < maxSockets := hi.trans_le (length_opened_le h)
    have hx : x = .slot i ∨ x = .descriptor h.opened[i] := by
      split at hx <;> simp only [List.mem_append, List.mem_cons, List.not_mem_nil] at hx <;> tauto
    obtain rfl | rfl := hx
    · exact hlt
    · exact hfds h hh _ (List.getElem_mem hi)

theorem headAccesses_ok (hfds : ∀ h ∈ c.hosts, ∀ fd ∈ h.opened, fd ∈ fds) (hx : x ∈ headAccesses c s) : x.Ok fds := by
  rw [headAccesses] at hx
  split at hx
  · cases hx
  · exact finalAccesses_ok_iff.mpr hfds x hx

theorem accesses_ok (hfds : ∀ h ∈ c.hosts, ∀ fd ∈ h.opened, fd ∈ fds) (e : Event) (hx : x ∈ accesses c soError s e) :
    x.Ok fds := by
  match e with
  | .finish _ | .select .error => cases hx
  | .select .quiet =>
      simp only [accesses, iterateAccesses] at hx
      split at hx
      · exact finalAccesses_ok_iff.mpr hfds x hx
      · exact headAccesses_ok hfds hx
  | .select (.ready r) =>
      simp only [accesses, iterateAccesses] at hx
      obtain hx | hx := List.mem_append.mp hx
      · exact scanAccesses_ok hfds hx
      · split at hx
        · cases hx
        · exact headAccesses_ok hfds hx

theorem trace_ok (hfds : ∀ h ∈ c.hosts, ∀ fd ∈ h.opened, fd ∈ fds) (es : List Event) (s : State)
    (hx : x ∈ trace (next c soError) (accesses c soError) s es) : x.Ok fds := by
  induction es generalizing s with
  | nil => cases hx
  | cons e es ih =>
      obtain hx | hx := List.mem_append.mp hx
      · exact accesses_ok hfds e hx
      · cases hn : next c soError s e with
        | none => rw [hn] at hx; cases hx
        | some t => rw [hn] at hx; exact ih t hx

theorem addrAccesses_ok (hi : a.family ≠ .other → i < maxSockets) (hfd : ∀ fd, a.initiated = some fd → fd ∈ fds)
    (hx : x ∈ addrAccesses a i) : x.Ok fds := by
  rw [addrAccesses] at hx
  split at hx
  · cases hx
  · rename_i hskip
    have hfamily := (not_or.mp hskip).1
    have hsocket : a.initiated = a.socket := if_neg hfamily
    cases ha : a.socket with
    | none =>
        simp only [ha, List.mem_singleton] at hx
        subst hx
        exact hi hfamily
    | some fd =>
        have hx : x = .slot i ∨ x = .descriptor fd := by
          simp only [ha] at hx
          split at hx
          · simp only [List.mem_append, List.mem_cons, List.not_mem_nil] at hx
            tauto
          · split at hx <;> simp only [List.mem_append, List.mem_cons, List.not_mem_nil] at hx <;> tauto
        obtain rfl | rfl := hx
        · exact hi hfamily
        · exact hfd fd (hsocket.trans ha)

theorem connectAddr_i (h : connectAddr a o k = .ok (o', k')) : o'.i = o.i + 1 := by
  obtain ⟨_, _, rfl | ⟨_, rfl⟩⟩ | ⟨_, _, _, rfl, _⟩ := connectAddr_ok h <;> rfl

theorem addrsAccesses_ok (hroom : ∀ (j : Nat) (a : Addr), addrs[j]? = some a → a.family ≠ .other → o.i + j < maxSockets)
    (hfds : ∀ a ∈ addrs, ∀ fd, a.initiated = some fd → fd ∈ fds) (hx : x ∈ addrsAccesses addrs o k) : x.Ok fds := by
  induction addrs generalizing o k with
  | nil => cases hx
  | cons a addrs ih =>
      obtain hx | hx := List.mem_append.mp hx
      · exact addrAccesses_ok (hroom 0 a rfl) (hfds a List.mem_cons_self) hx
      · cases ha : connectAddr a o k with
        | error stop => rw [ha] at hx; cases hx
        | ok r =>
            rw [ha] at hx
            refine ih (fun j b hb hf => ?_) (fun b hb => hfds b (List.mem_cons_of_mem a hb)) hx
            have := hroom (j + 1) b hb hf
            rw [connectAddr_i ha]
            omega

theorem connectAccesses_ok
    (hroom : ∀ e ∈ es, ∀ addrs, e.addrs = some addrs → ∀ (j : Nat) (a : Addr), addrs[j]? = some a → a.family ≠ .other →
      j < maxSockets)
    (hfds : ∀ fd ∈ initiated es, fd ∈ fds) (hx : x ∈ connectAccesses es k) : x.Ok fds := by
  induction es generalizing k with
  | nil => cases hx
  | cons e es ih =>
      rw [connectAccesses] at hx
      split at hx
      · cases hx
      · rename_i addrs haddrs
        obtain hx | hx := List.mem_append.mp hx
        · apply addrsAccesses_ok _ _ hx
          · intro j a ha hf
            simpa [Entry.opening] using hroom e List.mem_cons_self addrs haddrs j a ha hf
          · exact fun a ha fd hfd => hfds fd (mem_initiated List.mem_cons_self haddrs ha hfd)
        · cases hk : connectAddrs addrs e.opening k with
          | error stop => rw [hk] at hx; cases hx
          | ok k' =>
              rw [hk] at hx
              refine ih (fun e' he => hroom e' (List.mem_cons_of_mem e he)) (fun fd hfd => hfds fd ?_) hx
              rw [initiated, List.flatMap_cons]
              exact List.mem_append_right _ hfd

theorem InOrder.opened {xs : List (Family × Option Int)} (hin : InOrder xs) (hxs : xs = addrs.map found)
    (hf : Filled addrs h) (hfd : fd ∈ h.opened) : ∃ a ∈ addrs, a.initiated = some fd := by
  rw [hf.opened_eq, List.mem_map] at hfd
  obtain ⟨j, hj, rfl⟩ := hfd
  rw [List.mem_range, ← filterMap_given, ← hxs] at hj
  obtain ⟨x, fd, hx, hgiven⟩ := hin.first j hj
  rw [hxs, List.getElem?_map, Option.map_eq_some_iff] at hx
  obtain ⟨a, ha, rfl⟩ := hx
  have hinit : a.initiated = some fd := hgiven
  refine ⟨a, List.mem_of_getElem? ha, ?_⟩
  rw [slot, ha, Option.bind_some, hinit]
  rfl

theorem safe_of_inOrder (hin : ∀ xs ∈ sockets w, InOrder xs) : Safe w := by
  have hentry {e : Entry} {addrs : List Addr} (he : e ∈ w.entries) (haddrs : e.addrs = some addrs) :
      InOrder (addrs.map found) :=
    hin _ (List.mem_map.mpr ⟨e, he, by rw [haddrs]; rfl⟩)
  refine ⟨fun x hx => ?_, fun k hk soError es s _ x hx => ?_⟩
  · apply connectAccesses_ok _ (fun _ hfd => hfd) hx
    intro e he addrs haddrs j a ha hf
    exact (hentry he haddrs).room j (found a) (by rw [List.getElem?_map, ha]; rfl) hf
  · have hfds : ∀ h ∈ k.hosts, ∀ fd ∈ h.opened, fd ∈ initiated w.entries := by
      intro h hh fd hfd
      obtain ⟨e, he, addrs, haddrs, hfilled⟩ := (Network.table w hk).entry h hh
      obtain ⟨a, ha, hinit⟩ := (hentry he haddrs).opened rfl hfilled hfd
      exact mem_initiated he haddrs ha hinit
    obtain hx | hx := List.mem_append.mp hx
    · exact headAccesses_ok hfds hx
    · exact trace_ok hfds es _ hx

/-- An address with whose other calls nothing goes wrong. -/
def plain (a : Addr) : Addr := { a with named := true, nonBlocking := true, connect := .connected }

def plainEntry (e : Entry) : Entry := { e with addrs := some ((e.addrs.getD []).map plain) }

theorem initiated_plain (es : List Entry) : initiated (es.map plainEntry) = initiated es := by
  rw [initiated, List.flatMap_map, initiated]
  apply List.flatMap_congr
  intro e _
  simp only [plainEntry, Option.getD_some, List.filterMap_map]
  rfl

/-- The same sockets for the same addresses. -/
def plainNetwork (w : Network) : Network where
  entries := w.entries.map plainEntry
  distinct := by
    rw [initiated_plain]
    exact w.distinct
  valid := by
    rw [initiated_plain]
    exact w.valid

theorem sockets_plain (w : Network) : sockets (plainNetwork w) = sockets w := by
  rw [sockets, plainNetwork, List.map_map, sockets]
  apply List.map_congr_left
  intro e _
  simp only [plainEntry, Function.comp_apply, Option.getD_some, List.map_map]
  rfl

theorem connectAddr_plain (ha : a.named = true ∧ a.nonBlocking = true)
    (hok : ∀ x ∈ addrAccesses a o.i, x.Ok fds) : ∃ o' k', connectAddr a o k = .ok (o', k') ∧
    (a.family ≠ .other → o.i < maxSockets) := by
  by_cases hf : a.family = .other
  · exact ⟨o.skip, k, if_pos hf, fun hne => absurd hf hne⟩
  · have hi : o.i < maxSockets := by
      apply hok (.slot o.i)
      rw [addrAccesses, if_neg (by simp [hf, ha.1])]
      cases a.socket <;> simp
    simp only [connectAddr, if_neg hf, ha, Bool.true_eq_false, if_false, dif_pos hi, if_true]
    cases a.socket with
    | none => exact ⟨_, _, rfl, fun _ => hi⟩
    | some fd => exact ⟨_, _, rfl, fun _ => hi⟩

theorem connectAddrs_plain (hplain : ∀ a ∈ addrs, a.named = true ∧ a.nonBlocking = true)
    (hok : ∀ x ∈ addrsAccesses addrs o k, x.Ok fds) : (∃ k', connectAddrs addrs o k = .ok k') ∧
    ∀ (j : Nat) (a : Addr), addrs[j]? = some a → a.family ≠ .other → o.i + j < maxSockets := by
  induction addrs generalizing o k with
  | nil => exact ⟨⟨_, rfl⟩, nofun⟩
  | cons a addrs ih =>
      rw [addrsAccesses] at hok
      obtain ⟨o', k', ha, hi⟩ := connectAddr_plain (hplain a List.mem_cons_self)
        (fun x hx => hok x (List.mem_append_left _ hx))
      rw [ha] at hok
      obtain ⟨hgo, hroom⟩ := ih (fun b hb => hplain b (List.mem_cons_of_mem a hb))
        (fun x hx => hok x (List.mem_append_right _ hx))
      refine ⟨by rwa [connectAddrs, ha], fun j b hb hf => ?_⟩
      cases j with
      | zero => cases hb; exact hi hf
      | succ j =>
          have := hroom j b hb hf
          rw [connectAddr_i ha] at this
          omega

theorem connectHosts_plain (hplain : ∀ e ∈ es, ∃ addrs, e.addrs = some addrs ∧
      ∀ a ∈ addrs, a.named = true ∧ a.nonBlocking = true)
    (hok : ∀ x ∈ connectAccesses es k, x.Ok fds) : (∃ k', connectHosts es k = .ok k') ∧
    ∀ e ∈ es, ∀ addrs, e.addrs = some addrs → ∀ (j : Nat) (a : Addr), addrs[j]? = some a → a.family ≠ .other →
      j < maxSockets := by
  induction es generalizing k with
  | nil => exact ⟨⟨k, rfl⟩, nofun⟩
  | cons e es ih =>
      obtain ⟨addrs, haddrs, hall⟩ := hplain e List.mem_cons_self
      simp only [connectAccesses, haddrs] at hok
      obtain ⟨⟨k', hk'⟩, hroom⟩ := connectAddrs_plain hall (fun x hx => hok x (List.mem_append_left _ hx))
      rw [hk'] at hok
      obtain ⟨⟨k'', hk''⟩, hroom'⟩ := ih (fun e' he => hplain e' (List.mem_cons_of_mem e he))
        (fun x hx => hok x (List.mem_append_right _ hx))
      refine ⟨⟨k'', by simp only [connectHosts, haddrs, hk', hk'']⟩, fun e' he addrs' haddrs' j a ha hf => ?_⟩
      obtain rfl | he := List.mem_cons.mp he
      · obtain rfl : addrs = addrs' := Option.some.inj (haddrs.symm.trans haddrs')
        simpa [Entry.opening] using hroom j a ha hf
      · exact hroom' e' he addrs' haddrs' j a ha hf

/-- Every connect is through at once, and the table is looked through once, for the
final report. -/
theorem inOrder_of_safe (hsafe : Safe (plainNetwork w)) : ∀ xs ∈ sockets w, InOrder xs := by
  have hplain : ∀ e ∈ (plainNetwork w).entries, ∃ addrs, e.addrs = some addrs ∧
      ∀ a ∈ addrs, a.named = true ∧ a.nonBlocking = true ∧ a.connect = .connected := by
    intro e he
    obtain ⟨e, _, rfl⟩ := List.mem_map.mp he
    refine ⟨_, rfl, fun a ha => ?_⟩
    obtain ⟨a, _, rfl⟩ := List.mem_map.mp ha
    exact ⟨rfl, rfl, rfl⟩
  obtain ⟨⟨k, hgo⟩, hroom⟩ := connectHosts_plain
    (fun e he => (hplain e he).imp fun _ h => ⟨h.1, fun a ha => ⟨(h.2 a ha).1, (h.2 a ha).2.1⟩⟩) hsafe.connect
  have hk : (plainNetwork w).connects = .ok k := hgo
  have hempty : k.wrfds = ∅ := by
    apply Finset.eq_empty_of_forall_notMem
    intro fd hfd
    obtain ⟨e, he, addrs, haddrs, i, a, ha, _, hprogress⟩ := (Network.pending (plainNetwork w) hk).mp hfd
    obtain ⟨addrs', haddrs', hall⟩ := hplain e he
    obtain rfl : addrs = addrs' := Option.some.inj (haddrs.symm.trans haddrs')
    rw [(hall a (List.mem_of_getElem? ha)).2.2] at hprogress
    cases hprogress
  have hn : k.n = k.numSockets := by
    have hcounted := ((plainNetwork w).start k hk).counted
    change k.n + k.wrfds.card = k.numSockets at hcounted
    rwa [hempty, Finset.card_empty] at hcounted
  have hhead : headAccesses ((plainNetwork w).start k hk) (before ((plainNetwork w).start k hk)) =
      finalAccesses k.hosts (before ((plainNetwork w).start k hk)) := if_neg (not_not.mpr hn)
  have hfds : ∀ h ∈ k.hosts, ∀ fd ∈ h.opened, fd ∈ initiated (plainNetwork w).entries := by
    apply finalAccesses_ok_iff (s := before ((plainNetwork w).start k hk)).mp
    intro x hx
    apply hsafe.loop k hk some [] _ .nil x
    apply List.mem_append_left
    rwa [hhead]
  intro xs hxs
  rw [← sockets_plain, sockets, List.mem_map] at hxs
  obtain ⟨e, he, rfl⟩ := hxs
  obtain ⟨addrs, haddrs, h, hh, hfilled⟩ := (Network.table (plainNetwork w) hk).line e he
  rw [haddrs, Option.getD_some]
  refine ⟨fun i x hx hf => ?_, fun j hj => ?_⟩
  · rw [List.getElem?_map, Option.map_eq_some_iff] at hx
    obtain ⟨a, ha, rfl⟩ := hx
    exact hroom e he addrs haddrs i a ha hf
  · rw [filterMap_given] at hj
    have hopened : slot addrs j ∈ h.opened := by
      rw [hfilled.opened_eq]
      exact List.mem_map.mpr ⟨j, List.mem_range.mpr hj, rfl⟩
    have hvalid := (plainNetwork w).valid _ (hfds h hh _ hopened)
    obtain ⟨a, ha, hinit⟩ := (slot_eq_iff hvalid).mp rfl
    exact ⟨found a, slot addrs j, by rw [List.getElem?_map, ha]; rfl, hinit⟩

/-- The accesses are safe for all answers of the other calls just in case the
addresses and the answers of `socket()` are in order. -/
theorem safe_iff_inOrder (w : Network) :
    (∀ w' : Network, sockets w' = sockets w → Safe w') ↔ ∀ xs ∈ sockets w, InOrder xs := by
  constructor
  · exact fun hsafe => inOrder_of_safe (hsafe (plainNetwork w) (sockets_plain w))
  · intro hin w' hw'
    apply safe_of_inOrder
    rwa [hw']

/-- A host with four addresses, and one whose first address gets no socket. -/
def fourAddresses : Network where
  entries := [⟨"localhost", "22", some ([3, 4, 5, 6].map fun fd => ⟨.inet, true, some fd, true, .connected⟩)⟩]
  distinct := by decide
  valid := by decide

def firstFails : Network where
  entries := [⟨"localhost", "22", some [⟨.inet6, true, none, true, .connected⟩, ⟨.inet, true, some 3, true, .connected⟩]⟩]
  distinct := by decide
  valid := by decide

def firstFailsUnderWay : Connects where
  hosts := [⟨"localhost", "22", #v[-1, 3, -1], 1, one_le_maxSockets⟩]
  wrfds := ∅
  n := 1
  numSockets := 1
  reports := [⟨"localhost", "22", 3, .connected⟩]

theorem firstFails_connects : firstFails.connects = .ok firstFailsUnderWay := rfl

/-- A store behind the array, and an `FD_ISSET` of -1. -/
theorem unsafe_accesses : ¬ Safe fourAddresses ∧ ¬ Safe firstFails := by
  constructor
  · intro hsafe
    exact absurd (hsafe.connect (.slot 3) (by decide)) (by decide)
  · intro hsafe
    have hx : Access.descriptor (-1) ∈ headAccesses (firstFails.start _ firstFails_connects)
        (before (firstFails.start _ firstFails_connects)) := by decide
    have hok := hsafe.loop _ firstFails_connects some [] _ .nil (.descriptor (-1)) (List.mem_append_left _ hx)
    exact absurd hok (by decide)

end UnixProg.Select.IndexSafety

import UnixProg.Select.NonBlockingConnect

namespace UnixProg.Select.ConnectPhase

open NonBlockingConnect

inductive Family
  | inet
  | inet6
  | other
deriving DecidableEq

/-- What `connect()` on a non-blocking socket may say. -/
inductive Connect
  | connected
  | inProgress
  | failed (errno : Int)
deriving DecidableEq

/-- An address that `getaddrinfo()` has found, with the answers to the calls
that are made for it: `getnameinfo()`, `socket()`, the second `fcntl()`. -/
structure Addr where
  family : Family
  named : Bool
  socket : Option Int
  nonBlocking : Bool
  connect : Connect

/-- A line of the table, with no addresses when `getaddrinfo()` fails. -/
structure Entry where
  hostname : String
  port : String
  addrs : Option (List Addr)

/-- Why the program does not get to its select loop. The last one is a store
behind the end of an array. -/
inductive Stop
  | getaddrinfo
  | getnameinfo
  | fcntl
  | overrun (i : Nat)
deriving DecidableEq

/-- The variables of the connect loop, with the part of the table that is done
and the connects whose result is printed at once. -/
structure Connects where
  hosts : List Host
  wrfds : Finset Int
  n : Nat
  numSockets : Nat
  reports : List Report

def Connects.empty : Connects := ⟨[], ∅, 0, 0, []⟩

def Connects.connect (k : Connects) (h : Host) (fd : Int) : Connect → Connects
  | .inProgress => { k with wrfds := insert fd k.wrfds, numSockets := k.numSockets + 1 }
  | .failed errno =>
      { k with
        n := k.n + 1
        reports := k.reports ++ [⟨h.hostname, h.port, fd, .failed errno⟩]
        numSockets := k.numSockets + 1 }
  | .connected =>
      { k with
        n := k.n + 1
        reports := k.reports ++ [⟨h.hostname, h.port, fd, .connected⟩]
        numSockets := k.numSockets + 1 }

/-- The host whose addresses are gone through, of which `i` are done. -/
structure Opening where
  host : Host
  i : Nat
  numsock_le : host.numsock ≤ i

def Entry.opening (e : Entry) : Opening := ⟨⟨e.hostname, e.port, .replicate maxSockets (-1), 0, Nat.zero_le _⟩, 0, le_rfl⟩

def Opening.skip (o : Opening) : Opening := ⟨o.host, o.i + 1, o.numsock_le.trans (Nat.le_succ _)⟩

/-- The result of `socket()` is stored before it is looked at. -/
def Opening.store (o : Opening) (hi : o.i < maxSockets) (socket : Option Int) : Opening where
  host :=
    { o.host with
      sockets := o.host.sockets.set o.i (socket.getD (-1)) hi
      numsock := o.host.numsock + socket.elim 0 (fun _ => 1)
      numsock_le := by
        have := o.numsock_le
        cases socket <;> simp only [Option.elim] <;> omega }
  i := o.i + 1
  numsock_le := by
    have := o.numsock_le
    cases socket <;> simp only [Option.elim] <;> omega

def connectAddr (a : Addr) (o : Opening) (k : Connects) : Except Stop (Opening × Connects) :=
  if a.family = .other then .ok (o.skip, k)
  else if a.named = false then .error .getnameinfo
  else if hi : o.i < maxSockets then
    match a.socket with
    | none => .ok (o.store hi none, k)
    | some fd => if a.nonBlocking then .ok (o.store hi (some fd), k.connect o.host fd a.connect) else .error .fcntl
  else .error (.overrun o.i)

def connectAddrs : List Addr → Opening → Connects → Except Stop Connects
  | [], o, k => .ok { k with hosts := k.hosts ++ [o.host] }
  | a :: as, o, k => match connectAddr a o k with
    | .error stop => .error stop
    | .ok (o, k) => connectAddrs as o k

def connectHosts : List Entry → Connects → Except Stop Connects
  | [], k => .ok k
  | e :: es, k => match e.addrs with
    | none => .error .getaddrinfo
    | some addrs => match connectAddrs addrs e.opening k with
      | .error stop => .error stop
      | .ok k => connectHosts es k

/-- The socket that is created for an address. -/
def Addr.initiated (a : Addr) : Option Int := if a.family = .other then none else a.socket

def initiated (es : List Entry) : List Int := es.flatMap (fun e => (e.addrs.getD []).filterMap Addr.initiated)

/-- Host names and what the system makes of them. No descriptor is given away
twice, and none of them is the -1 of a call that fails. -/
structure Network where
  entries : List Entry
  distinct : (initiated entries).Nodup
  valid : ∀ fd ∈ initiated entries, fd ≠ -1

def reported (fd : Int) (rs : List Report) : Nat := (rs.map Report.socket).count fd

/-- What the counters say once the connects of some sockets were initiated. -/
structure Made (fds : List Int) (k : Connects) : Prop where
  total : k.numSockets = fds.length
  pending : ∀ fd ∈ k.wrfds, fd ∈ fds
  counted : k.n + k.wrfds.card = fds.length
  reported (fd) : reported fd k.reports + (if fd ∈ k.wrfds then 1 else 0) = fds.count fd

/-- Only what `socket()` has returned is stored, apart from -1. -/
def Stored (fds : List Int) (hosts : List Host) : Prop :=
  ∀ fd, fd ≠ -1 → (hosts.flatMap (fun h => h.sockets.toList)).count fd ≤ fds.count fd

variable {a : Addr} {o o' : Opening} {k k' : Connects} {fds : List Int} {fd : Int} {hosts : List Host} {addrs : List Addr}
  {es : List Entry}

theorem reported_append (fd : Int) (rs rs' : List Report) : reported fd (rs ++ rs') = reported fd rs + reported fd rs' := by
  rw [reported, List.map_append, List.count_append, reported, reported]

theorem reported_singleton (fd : Int) (r : Report) : reported fd [r] = if r.socket = fd then 1 else 0 := by
  simp [reported, List.count_singleton]

theorem connectAddr_ok (h : connectAddr a o k = .ok (o', k')) :
    (a.initiated = none ∧ k' = k ∧ (o' = o.skip ∨ ∃ hi, o' = o.store hi none)) ∨
    ∃ fd hi, a.initiated = some fd ∧ o' = o.store hi (some fd) ∧ k' = k.connect o.host fd a.connect := by
  simp only [connectAddr] at h
  split at h
  · cases h
    exact .inl ⟨if_pos ‹_›, rfl, .inl rfl⟩
  · rename_i hfamily
    split at h
    · cases h
    · split at h
      · rename_i hi
        split at h
        · rename_i hsocket
          cases h
          exact .inl ⟨(if_neg hfamily).trans hsocket, rfl, .inr ⟨hi, rfl⟩⟩
        · rename_i fd hsocket
          split at h
          · cases h
            exact .inr ⟨fd, hi, (if_neg hfamily).trans hsocket, rfl, rfl⟩
          · cases h
      · cases h

theorem connectAddrs_cons (h : connectAddrs (a :: addrs) o k = .ok k') :
    ∃ o₁ k₁, connectAddr a o k = .ok (o₁, k₁) ∧ connectAddrs addrs o₁ k₁ = .ok k' := by
  simp only [connectAddrs] at h
  split at h
  · cases h
  · rename_i o₁ k₁ ha
    exact ⟨o₁, k₁, ha, h⟩

theorem connectHosts_cons {e : Entry} (h : connectHosts (e :: es) k = .ok k') :
    ∃ addrs k₁, e.addrs = some addrs ∧ connectAddrs addrs e.opening k = .ok k₁ ∧ connectHosts es k₁ = .ok k' := by
  simp only [connectHosts] at h
  split at h
  · cases h
  · rename_i addrs haddrs
    split at h
    · cases h
    · rename_i k₁ hk₁
      exact ⟨addrs, k₁, haddrs, hk₁, h⟩

theorem Made.empty : Made [] .empty := ⟨rfl, nofun, rfl, fun _ => rfl⟩

/-- A new socket is either pending or reported at once. -/
theorem Made.connect (h : Made fds k) (hfd : fd ∉ fds) (host : Host) (c : Connect) :
    Made (fds ++ [fd]) (k.connect host fd c) := by
  have hnew : fd ∉ k.wrfds := fun hmem => hfd (h.pending fd hmem)
  have hlen : (fds ++ [fd]).length = fds.length + 1 := List.length_append
  have hcount (x : Int) : (fds ++ [fd]).count x = fds.count x + if fd = x then 1 else 0 := by
    rw [List.count_append, List.count_singleton]
    simp
  have hold (x : Int) (hx : x ∈ k.wrfds) : x ∈ fds ++ [fd] := List.mem_append_left _ (h.pending x hx)
  cases c with
  | inProgress =>
      refine ⟨by rw [hlen, ← h.total]; rfl, fun x hx => ?_, ?_, fun x => ?_⟩
      · rcases Finset.mem_insert.mp hx with rfl | hx
        · exact List.mem_append_right _ (List.mem_singleton_self _)
        · exact hold x hx
      · change k.n + (insert fd k.wrfds).card = _
        rw [Finset.card_insert_of_notMem hnew, hlen, ← h.counted]
        omega
      · change ConnectPhase.reported x k.reports + (if x ∈ insert fd k.wrfds then 1 else 0) = _
        rw [hcount, ← h.reported]
        by_cases hx : fd = x
        · subst hx
          simp [hnew]
        · simp [Finset.mem_insert, Ne.symm hx, hx]
  | connected | failed errno =>
      refine ⟨by rw [hlen, ← h.total]; rfl, hold, ?_, fun x => ?_⟩
      · rw [hlen, ← h.counted]
        simp only [Connects.connect]
        omega
      · rw [hcount, ← h.reported]
        change ConnectPhase.reported x (k.reports ++ [_]) + (if x ∈ k.wrfds then 1 else 0) = _
        rw [reported_append, reported_singleton]
        change _ + (if fd = x then 1 else 0) + _ = _
        omega

/-- The host that is worked on is the last one of the table so far. -/
theorem Stored.store (h : Stored fds (hosts ++ [o.host])) (hi : o.i < maxSockets) (socket : Option Int) :
    Stored (fds ++ socket.toList) (hosts ++ [(o.store hi socket).host]) := by
  intro x hx
  have hle := h x hx
  have hset : ((o.store hi socket).host.sockets.toList).count x ≤ o.host.sockets.toList.count x + socket.toList.count x := by
    have hlen : o.i < o.host.sockets.toList.length := by simpa using hi
    change ((o.host.sockets.set o.i (socket.getD (-1)) hi).toList).count x ≤ _
    rw [Vector.toList_set, List.count_set hlen]
    cases socket with
    | none =>
        have hne : ¬ (-1 : Int) = x := Ne.symm hx
        simp [hne]
    | some fd =>
        simp only [Option.getD_some, Option.toList_some, List.count_singleton]
        omega
  simp only [List.flatMap_append, List.flatMap_singleton, List.count_append] at hle ⊢
  omega

theorem connect_hosts (k : Connects) (host : Host) (fd : Int) (c : Connect) : (k.connect host fd c).hosts = k.hosts := by
  cases c <;> rfl

theorem connectAddrs_made (hk : Made fds k) (hs : Stored fds (k.hosts ++ [o.host]))
    (hdis : (fds ++ addrs.filterMap Addr.initiated).Nodup) (h : connectAddrs addrs o k = .ok k') :
    Made (fds ++ addrs.filterMap Addr.initiated) k' ∧ Stored (fds ++ addrs.filterMap Addr.initiated) k'.hosts := by
  induction addrs generalizing o k fds with
  | nil =>
      cases h
      rw [List.filterMap_nil, List.append_nil]
      exact ⟨⟨hk.total, hk.pending, hk.counted, hk.reported⟩, hs⟩
  | cons a addrs ih =>
      obtain ⟨o₁, k₁, ha, hrest⟩ := connectAddrs_cons h
      rcases connectAddr_ok ha with ⟨hnone, rfl, ho⟩ | ⟨fd, hi, hsome, rfl, rfl⟩
      · rw [List.filterMap_cons_none hnone] at hdis ⊢
        refine ih hk ?_ hdis hrest
        rcases ho with rfl | ⟨hi, rfl⟩
        · exact hs
        · simpa using hs.store hi none
      · rw [List.filterMap_cons_some hsome, ← List.singleton_append, ← List.append_assoc] at hdis ⊢
        have hfd : fd ∉ fds := by
          intro hmem
          have hpre := hdis.of_append_left
          exact (List.nodup_append.mp hpre).2.2 fd hmem fd (List.mem_singleton_self fd) rfl
        exact ih (hk.connect hfd o.host a.connect) (by rw [connect_hosts]; exact hs.store hi (some fd)) hdis hrest

theorem opening_stored (e : Entry) (hs : Stored fds hosts) : Stored fds (hosts ++ [e.opening.host]) := by
  intro x hx
  have hzero : (e.opening.host.sockets.toList).count x = 0 := by
    apply List.count_eq_zero.mpr
    intro hmem
    simp only [Entry.opening, Vector.toList_replicate] at hmem
    exact hx (List.eq_of_mem_replicate hmem)
  simp only [List.flatMap_append, List.flatMap_singleton, List.count_append, hzero]
  exact hs x hx

/-- Whatever the system answers, the counters of the connect loop are right. -/
theorem connectHosts_made (hk : Made fds k) (hs : Stored fds k.hosts) (hdis : (fds ++ initiated es).Nodup)
    (h : connectHosts es k = .ok k') : Made (fds ++ initiated es) k' ∧ Stored (fds ++ initiated es) k'.hosts := by
  induction es generalizing k fds with
  | nil =>
      cases h
      rw [initiated, List.flatMap_nil, List.append_nil]
      exact ⟨hk, hs⟩
  | cons e es ih =>
      obtain ⟨addrs, k₁, haddrs, hk₁, hrest⟩ := connectHosts_cons h
      have hsplit : initiated (e :: es) = addrs.filterMap Addr.initiated ++ initiated es := by
        rw [initiated, List.flatMap_cons, haddrs]
        rfl
      rw [hsplit, ← List.append_assoc] at hdis ⊢
      obtain ⟨hmade, hstored⟩ := connectAddrs_made hk (opening_stored e hs) hdis.of_append_left hk₁
      exact ih hmade hstored hdis hrest

theorem opened_count_le (hosts : List Host) (fd : Int) :
    (hosts.flatMap Host.opened).count fd ≤ (hosts.flatMap (fun h => h.sockets.toList)).count fd := by
  induction hosts with
  | nil => exact Nat.zero_le _
  | cons h hosts ih =>
      rw [List.flatMap_cons, List.flatMap_cons, List.count_append, List.count_append]
      exact Nat.add_le_add ((List.take_sublist _ _).count_le fd) ih

/-- The connect loop of the program, from an empty table and empty sets. -/
def Network.connects (w : Network) : Except Stop Connects := connectHosts w.entries .empty

theorem Network.made (w : Network) (h : w.connects = .ok k) : Made (initiated w.entries) k ∧ Stored (initiated w.entries) k.hosts := by
  have h₀ : Made [] Connects.empty := .empty
  exact connectHosts_made h₀ (fun _ _ => Nat.zero_le _) w.distinct h

/-- What the select loop starts from. -/
def Network.start (w : Network) (k : Connects) (h : w.connects = .ok k) : Start where
  hosts := k.hosts
  pending := k.wrfds
  n := k.n
  numSockets := k.numSockets
  counted := (w.made h).1.counted.trans (w.made h).1.total.symm
  once := by
    intro fd hfd
    obtain ⟨hmade, hstored⟩ := w.made h
    have hmem := hmade.pending fd hfd
    calc (k.hosts.flatMap Host.opened).count fd
        ≤ (k.hosts.flatMap (fun h => h.sockets.toList)).count fd := opened_count_le k.hosts fd
      _ ≤ (initiated w.entries).count fd := hstored fd (w.valid fd hmem)
      _ ≤ 1 := List.nodup_iff_count_le_one.mp w.distinct fd

/-- Every address that is found gets a socket, and there is room for all of them. -/
def Regular (es : List Entry) : Prop :=
  ∀ e ∈ es, ∀ addrs, e.addrs = some addrs →
    addrs.length ≤ maxSockets ∧ ∀ a ∈ addrs, a.family ≠ .other ∧ a.socket.isSome

theorem store_opened (hi : o.i < maxSockets) (fd : Int) (hnum : o.host.numsock = o.i) :
    (o.store hi (some fd)).host.opened = o.host.opened ++ [fd] := by
  have hlen : o.i < o.host.sockets.toList.length := by simpa using hi
  change ((o.host.sockets.set o.i fd hi).toList).take (o.host.numsock + 1) = o.host.sockets.toList.take o.host.numsock ++ [fd]
  rw [hnum, Vector.toList_set, List.take_add_one, List.take_set_of_le le_rfl, List.getElem?_set_self hlen]
  rfl

theorem connectAddrs_opened (hall : ∀ a ∈ addrs, a.family ≠ .other ∧ a.socket.isSome) (hnum : o.host.numsock = o.i)
    (h : connectAddrs addrs o k = .ok k') :
    k'.hosts.flatMap Host.opened = (k.hosts ++ [o.host]).flatMap Host.opened ++ addrs.filterMap Addr.initiated := by
  induction addrs generalizing o k with
  | nil =>
      cases h
      rw [List.filterMap_nil, List.append_nil]
  | cons a addrs ih =>
      obtain ⟨o₁, k₁, ha, hrest⟩ := connectAddrs_cons h
      rcases connectAddr_ok ha with ⟨hnone, _⟩ | ⟨fd, hi, hsome, rfl, rfl⟩
      · obtain ⟨hfamily, hsocket⟩ := hall a List.mem_cons_self
        rw [Addr.initiated, if_neg hfamily] at hnone
        rw [hnone] at hsocket
        cases hsocket
      · rw [ih (fun b hb => hall b (List.mem_cons_of_mem a hb)) (congrArg (· + 1) hnum) hrest, connect_hosts,
          List.filterMap_cons_some hsome]
        simp [store_opened hi fd hnum]

/-- In the regular case the table holds just the initiated sockets. -/
theorem connectHosts_opened (hreg : Regular es) (h : connectHosts es k = .ok k') :
    k'.hosts.flatMap Host.opened = k.hosts.flatMap Host.opened ++ initiated es := by
  induction es generalizing k with
  | nil =>
      cases h
      rw [initiated, List.flatMap_nil, List.append_nil]
  | cons e es ih =>
      obtain ⟨addrs, k₁, haddrs, hk₁, hrest⟩ := connectHosts_cons h
      have hregular := (hreg e List.mem_cons_self addrs haddrs).2
      rw [ih (fun e' he' => hreg e' (List.mem_cons_of_mem e he')) hrest, connectAddrs_opened hregular rfl hk₁]
      simp [initiated, haddrs, Entry.opening, Host.opened]

end UnixProg.Select.ConnectPhase

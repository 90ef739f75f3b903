import UnixProg.Select.ConnectPhase
import Mathlib.Data.List.Nodup
import Mathlib.Data.List.Pairwise

namespace UnixProg.Select.HostTable

open NonBlockingConnect ConnectPhase

/-- What stands in a place of `sockets` when the addresses of a host are done. -/
def slot (addrs : List Addr) (j : Nat) : Int := ((addrs[j]?).bind Addr.initiated).getD (-1)

def created (addrs : List Addr) : Nat := (addrs.filterMap Addr.initiated).length

/-- A line of the table is filled by the index of the addresses, and counts
the sockets that were created. -/
structure Filled (addrs : List Addr) (h : Host) : Prop where
  numsock : h.numsock = created addrs
  sockets (j : Nat) (hj : j < maxSockets) : h.sockets[j] = slot addrs j

/-- The lines of the table are those of the entries. -/
structure Table (es : List Entry) (hosts : List Host) : Prop where
  entry (h : Host) (hh : h ∈ hosts) : ∃ e ∈ es, ∃ addrs, e.addrs = some addrs ∧ Filled addrs h
  line (e : Entry) (he : e ∈ es) : ∃ addrs, e.addrs = some addrs ∧ ∃ h ∈ hosts, Filled addrs h

def Pending (addrs : List Addr) (fd : Int) : Prop :=
  ∃ (i : Nat) (a : Addr), addrs[i]? = some a ∧ a.initiated = some fd ∧ a.connect = .inProgress

variable {a : Addr} {addrs seen : List Addr} {o o' : Opening} {k k' : Connects} {e : Entry} {es : List Entry} {h : Host}
  {hosts : List Host} {fd : Int} {j : Nat}

theorem slot_append (seen : List Addr) (a : Addr) (j : Nat) :
    slot (seen ++ [a]) j = if j = seen.length then a.initiated.getD (-1) else slot seen j := by
  rw [slot, slot, List.getElem?_append]
  split
  · rw [if_neg (by omega)]
  · split
    · simp [*]
    · rw [List.getElem?_eq_none (by simp; omega), List.getElem?_eq_none (by omega)]

theorem slot_of_length_le (hj : addrs.length ≤ j) : slot addrs j = -1 := by
  rw [slot, List.getElem?_eq_none hj]
  rfl

theorem created_append (seen : List Addr) (a : Addr) :
    created (seen ++ [a]) = created seen + a.initiated.elim 0 (fun _ => 1) := by
  cases ha : a.initiated <;> simp [created, List.filterMap_append, ha]

theorem Filled.opening (e : Entry) : Filled [] e.opening.host := by
  refine ⟨rfl, fun j hj => ?_⟩
  rw [slot_of_length_le (Nat.zero_le j)]
  exact Vector.getElem_replicate ..

theorem Filled.store (hf : Filled seen o.host) (hi : o.i = seen.length) (hlt : o.i < maxSockets) {socket : Option Int}
    (ha : a.initiated = socket) : Filled (seen ++ [a]) (o.store hlt socket).host := by
  refine ⟨?_, fun j hj => ?_⟩
  · rw [created_append, ← hf.numsock, ha]
    rfl
  · have hset : (o.store hlt socket).host.sockets = o.host.sockets.set o.i (socket.getD (-1)) hlt := rfl
    rw [slot_append, ← hf.sockets j hj, ← hi, ha]
    simp only [hset, Vector.getElem_set, eq_comm]

theorem Filled.skip (hf : Filled seen h) (ha : a.initiated = none) : Filled (seen ++ [a]) h := by
  refine ⟨?_, fun j hj => ?_⟩
  · rw [created_append, ← hf.numsock, ha]
    rfl
  · rw [slot_append, hf.sockets j hj, ha]
    split
    · rw [slot_of_length_le (by omega)]
      rfl
    · rfl

theorem connectAddr_filled (hf : Filled seen o.host) (hi : o.i = seen.length) (h : connectAddr a o k = .ok (o', k')) :
    Filled (seen ++ [a]) o'.host ∧ o'.i = (seen ++ [a]).length := by
  have hlen : o.i + 1 = (seen ++ [a]).length := by simp [hi]
  obtain ⟨hnone, rfl, rfl | ⟨hlt, rfl⟩⟩ | ⟨fd, hlt, hsome, rfl, rfl⟩ := connectAddr_ok h
  · exact ⟨hf.skip hnone, hlen⟩
  · exact ⟨hf.store hi hlt hnone, hlen⟩
  · exact ⟨hf.store hi hlt hsome, hlen⟩

theorem connectAddrs_filled (hf : Filled seen o.host) (hi : o.i = seen.length) (h : connectAddrs addrs o k = .ok k') :
    ∃ host, Filled (seen ++ addrs) host ∧ k'.hosts = k.hosts ++ [host] := by
  induction addrs generalizing seen o k with
  | nil =>
      cases h
      exact ⟨o.host, by rwa [List.append_nil], rfl⟩
  | cons a addrs ih =>
      obtain ⟨o₁, k₁, ha, hrest⟩ := connectAddrs_cons h
      obtain ⟨hf₁, hi₁⟩ := connectAddr_filled hf hi ha
      obtain ⟨host, hhost, hhosts⟩ := ih hf₁ hi₁ hrest
      refine ⟨host, by simpa using hhost, ?_⟩
      rw [hhosts]
      obtain ⟨_, rfl, _⟩ | ⟨fd, _, _, _, rfl⟩ := connectAddr_ok ha
      · rfl
      · rw [connect_hosts]

theorem Table.cons (ht : Table es hosts) (haddrs : e.addrs = some addrs) (hf : Filled addrs h) :
    Table (e :: es) (h :: hosts) := by
  refine ⟨fun h' hh => ?_, fun e' he => ?_⟩
  · obtain rfl | hh := List.mem_cons.mp hh
    · exact ⟨e, List.mem_cons_self, addrs, haddrs, hf⟩
    · obtain ⟨e', he, hline⟩ := ht.entry h' hh
      exact ⟨e', List.mem_cons_of_mem e he, hline⟩
  · obtain rfl | he := List.mem_cons.mp he
    · exact ⟨addrs, haddrs, h, List.mem_cons_self, hf⟩
    · obtain ⟨addrs', haddrs', h', hh, hf'⟩ := ht.line e' he
      exact ⟨addrs', haddrs', h', List.mem_cons_of_mem h hh, hf'⟩

theorem connectHosts_filled (h : connectHosts es k = .ok k') : ∃ hosts, k'.hosts = k.hosts ++ hosts ∧ Table es hosts := by
  induction es generalizing k with
  | nil =>
      cases h
      exact ⟨[], (List.append_nil _).symm, nofun, nofun⟩
  | cons e es ih =>
      obtain ⟨addrs, k₁, haddrs, hk₁, hrest⟩ := connectHosts_cons h
      obtain ⟨host, hfilled, hhosts₁⟩ := connectAddrs_filled (Filled.opening e) rfl hk₁
      obtain ⟨hosts, hhosts, htable⟩ := ih hrest
      refine ⟨host :: hosts, ?_, htable.cons haddrs hfilled⟩
      rw [hhosts, hhosts₁, List.append_assoc, List.singleton_append]

theorem connectAddr_pending (h : connectAddr a o k = .ok (o', k')) :
    fd ∈ k'.wrfds ↔ fd ∈ k.wrfds ∨ a.initiated = some fd ∧ a.connect = .inProgress := by
  obtain ⟨hnone, rfl, _⟩ | ⟨fd', _, hsome, _, rfl⟩ := connectAddr_ok h
  · simp [hnone]
  · cases hc : a.connect with
    | inProgress => simp [Connects.connect, hsome, Finset.mem_insert, or_comm, eq_comm]
    | connected | failed => simp [Connects.connect]

theorem pending_cons : Pending (a :: addrs) fd ↔ (a.initiated = some fd ∧ a.connect = .inProgress) ∨ Pending addrs fd := by
  constructor
  · rintro ⟨_ | i, b, hb, hfd⟩
    · cases hb
      exact .inl hfd
    · exact .inr ⟨i, b, hb, hfd⟩
  · rintro (hfd | ⟨i, b, hb, hfd⟩)
    · exact ⟨0, a, rfl, hfd⟩
    · exact ⟨i + 1, b, hb, hfd⟩

theorem connectAddrs_pending (h : connectAddrs addrs o k = .ok k') : fd ∈ k'.wrfds ↔ fd ∈ k.wrfds ∨ Pending addrs fd := by
  induction addrs generalizing o k with
  | nil =>
      cases h
      simp [Pending]
  | cons a addrs ih =>
      obtain ⟨o₁, k₁, ha, hrest⟩ := connectAddrs_cons h
      rw [ih hrest, connectAddr_pending ha, pending_cons, or_assoc]

theorem connectHosts_pending (h : connectHosts es k = .ok k') :
    fd ∈ k'.wrfds ↔ fd ∈ k.wrfds ∨ ∃ e ∈ es, ∃ addrs, e.addrs = some addrs ∧ Pending addrs fd := by
  induction es generalizing k with
  | nil =>
      cases h
      simp
  | cons e es ih =>
      obtain ⟨addrs, k₁, haddrs, hk₁, hrest⟩ := connectHosts_cons h
      rw [ih hrest, connectAddrs_pending hk₁, or_assoc]
      simp [haddrs]

theorem Filled.opened_eq (hf : Filled addrs h) : h.opened = (List.range (created addrs)).map (slot addrs) := by
  have hle : created addrs ≤ maxSockets := hf.numsock ▸ h.numsock_le
  apply List.ext_getElem
  · simp [Host.opened, hf.numsock, hle]
  · intro j hj hj'
    have hlt : j < maxSockets := by
      rw [List.length_map, List.length_range] at hj'
      omega
    simpa [Host.opened] using hf.sockets j hlt

theorem slot_eq_iff (hfd : fd ≠ -1) : slot addrs j = fd ↔ ∃ a, addrs[j]? = some a ∧ a.initiated = some fd := by
  rw [slot]
  cases ha : addrs[j]? with
  | none => simpa using Ne.symm hfd
  | some a => cases hs : a.initiated <;> simp [hs, Ne.symm hfd]

theorem mem_initiated (he : e ∈ es) (haddrs : e.addrs = some addrs) (ha : a ∈ addrs) (hfd : a.initiated = some fd) :
    fd ∈ initiated es :=
  List.mem_flatMap.mpr ⟨e, he, by simpa [haddrs] using ⟨a, ha, hfd⟩⟩

theorem place_unique {i : Nat} {b : Addr} (hdis : (addrs.filterMap Addr.initiated).Nodup) (ha : addrs[i]? = some a)
    (hb : addrs[j]? = some b) (hfd : a.initiated = some fd) (hfd' : b.initiated = some fd) : i = j := by
  obtain ⟨hi, rfl⟩ := List.getElem?_eq_some_iff.mp ha
  obtain ⟨hj, rfl⟩ := List.getElem?_eq_some_iff.mp hb
  have hne := List.pairwise_iff_getElem.mp (List.pairwise_filterMap.mp hdis)
  obtain hlt | heq | hlt := Nat.lt_trichotomy i j
  · exact absurd rfl (hne i j hi hj hlt fd hfd fd hfd')
  · exact heq
  · exact absurd rfl (hne j i hj hi hlt fd hfd' fd hfd)

theorem address_unique {e' : Entry} {addrs' : List Addr} {i : Nat} {b : Addr} (hdis : (initiated es).Nodup) (he : e ∈ es)
    (he' : e' ∈ es) (haddrs : e.addrs = some addrs) (haddrs' : e'.addrs = some addrs') (ha : addrs[i]? = some a)
    (hb : addrs'[j]? = some b) (hfd : a.initiated = some fd) (hfd' : b.initiated = some fd) : addrs = addrs' ∧ i = j := by
  obtain ⟨hnodup, hpair⟩ := List.nodup_flatMap.mp hdis
  have hsame : e = e' := by
    by_contra hne
    have : Std.Symm (Function.onFun List.Disjoint fun e : Entry => (e.addrs.getD []).filterMap Addr.initiated) :=
      ⟨fun _ _ h => h.symm⟩
    have hdisjoint := hpair.forall he he' hne
    apply hdisjoint (a := fd)
    · simpa [haddrs] using ⟨a, List.mem_of_getElem? ha, hfd⟩
    · simpa [haddrs'] using ⟨b, List.mem_of_getElem? hb, hfd'⟩
  subst hsame
  obtain rfl : addrs = addrs' := Option.some.inj (haddrs.symm.trans haddrs')
  have hnodup' := hnodup e he
  rw [haddrs] at hnodup'
  exact ⟨rfl, place_unique hnodup' ha hb hfd hfd'⟩

theorem Network.table (w : Network) (h : w.connects = .ok k) : Table w.entries k.hosts := by
  obtain ⟨hosts, hhosts, htable⟩ := connectHosts_filled h
  have hhosts : k.hosts = hosts := hhosts
  rwa [hhosts]

theorem Network.pending (w : Network) (h : w.connects = .ok k) :
    fd ∈ k.wrfds ↔ ∃ e ∈ w.entries, ∃ addrs, e.addrs = some addrs ∧ Pending addrs fd := by
  rw [connectHosts_pending h]
  simp [Connects.empty]

end UnixProg.Select.HostTable

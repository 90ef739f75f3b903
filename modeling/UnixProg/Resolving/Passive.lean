import UnixProg.Lib.Descriptor
import Mathlib.Data.List.Induction
import Mathlib.Data.List.Nodup

namespace UnixProg.Resolving.Passive

open Lib Descriptor

/-- An address of the list, and whether the calls for it succeed. -/
structure Address where
  family : Nat
  socket : Bool
  bind : Bool
deriving DecidableEq

/-- The files that were open at the start, and the sockets by the position of
their address. -/
inductive File (α : Type)
  | initial (a : α)
  | socket (k : Nat)
deriving DecidableEq

inductive Line
  | warnSocket
  | bound (family : Nat)
  | warnBind
deriving DecidableEq

/-- `opened` and `closed` are the sockets in the order of the calls. -/
structure State (α : Type) where
  fds : FdTable (File α)
  lines : List Line
  opened : List Nat
  closed : List Nat

variable {α : Type}

def State.say (s : State α) (line : Line) : State α := { s with lines := s.lines ++ [line] }

def State.socket (s : State α) (k : Nat) : State α × Nat :=
  let (fds, fd) := s.fds.alloc (.socket k)
  ({ s with fds := fds, opened := s.opened ++ [k] }, fd)

def State.close (s : State α) (fd : Nat) : State α :=
  match s.fds.entry fd with
  | some (.socket k) => { s with fds := s.fds.close fd, closed := s.closed ++ [k] }
  | _ => { s with fds := s.fds.close fd }

/-- An iteration of the loop. The `continue` of the switch leaves out the
`close()` at its end. -/
def iteration (k : Nat) (a : Address) (s : State α) : State α :=
  if a.socket = false then s.say .warnSocket
  else
    let (s, fd) := s.socket k
    if a.bind = false then s.say .warnBind
    else (s.say (.bound a.family)).close fd

def loop : Nat → List Address → State α → State α
  | _, [], s => s
  | k, a :: as, s => loop (k + 1) as (iteration k a s)

def start (t : FdTable α) : State α := ⟨t.map .initial, [], [], []⟩

/-- Every socket is closed exactly once, and the descriptors are as they were. -/
structure NoLeak (t : FdTable α) (s : State α) : Prop where
  once (k) (h : k ∈ s.opened) : s.closed.count k = 1
  same (fd) : s.fds.entry fd = (t.entry fd).map .initial

variable {t : FdTable α} {s : State α} {a : Address} {as : List Address} {k : Nat}

/-- What an iteration does: no socket, one that is closed again, or one that stays open. -/
inductive Does (k : Nat) (a : Address) (s u : State α) : Prop
  | refused (h : a.socket = false) (hopened : u.opened = s.opened) (hclosed : u.closed = s.closed) (hfds : u.fds = s.fds)
  | closed (h : a.socket = true) (hb : a.bind = true) (hopened : u.opened = s.opened ++ [k])
      (hclosed : u.closed = s.closed ++ [k]) (hfds : ∀ fd, u.fds.entry fd = s.fds.entry fd)
  | leaked (h : a.socket = true) (hb : a.bind = false) (hopened : u.opened = s.opened ++ [k]) (hclosed : u.closed = s.closed)

theorem does (k : Nat) (a : Address) (s : State α) : Does k a s (iteration k a s) := by
  have hentry : (s.fds.alloc (.socket k)).1.entry s.fds.lowestFree = some (.socket k) := alloc_entry_self
  cases hs : a.socket with
  | false =>
      have heq : iteration k a s = s.say .warnSocket := if_pos hs
      rw [heq]
      exact .refused hs rfl rfl rfl
  | true =>
      cases hb : a.bind with
      | false =>
          have heq : iteration k a s = (s.socket k).1.say .warnBind := by simp [iteration, hs, hb]
          rw [heq]
          exact .leaked hs hb rfl rfl
      | true =>
          have heq : iteration k a s = ((s.socket k).1.say (.bound a.family)).close (s.socket k).2 := by simp [iteration, hs, hb]
          have hclose : ((s.socket k).1.say (.bound a.family)).close (s.socket k).2 =
              { (s.socket k).1.say (.bound a.family) with
                fds := (s.fds.alloc (.socket k)).1.close s.fds.lowestFree
                closed := s.closed ++ [k] } := by
            simp only [State.close, State.say, State.socket, FdTable.alloc] at hentry ⊢
            rw [hentry]
          rw [heq, hclose]
          exact .closed hs hb rfl rfl (close_alloc_entry s.fds _)

theorem loop_snoc (k : Nat) (as : List Address) (a : Address) (s : State α) :
    loop k (as ++ [a]) s = iteration (k + as.length) a (loop k as s) := by
  induction as generalizing k s with
  | nil => rfl
  | cons b as ih =>
      rw [List.cons_append, loop, loop, ih, List.length_cons, Nat.add_right_comm, Nat.add_assoc k]

/-- What the iteration of the last address does. -/
theorem does_last (as : List Address) (a : Address) (s : State α) : Does as.length a (loop 0 as s) (loop 0 (as ++ [a]) s) := by
  rw [loop_snoc, Nat.zero_add]
  exact does _ _ _

/-- The sockets have the positions of the addresses that were tried. -/
theorem closed_lt (t : FdTable α) (as : List Address) : ∀ j ∈ (loop 0 as (start t)).closed, j < as.length := by
  induction as using List.reverseRecOn with
  | nil => exact fun j hj => by cases hj
  | append_singleton as a ih =>
      intro j hj
      rw [List.length_append, List.length_singleton]
      have hold (h : j ∈ (loop 0 as (start t)).closed) : j < as.length + 1 := Nat.lt_succ_of_lt (ih j h)
      cases does_last as a (start t) with
      | refused _ _ hclosed => exact hold (hclosed ▸ hj)
      | leaked _ _ _ hclosed => exact hold (hclosed ▸ hj)
      | closed _ _ _ hclosed =>
          rw [hclosed, List.mem_append, List.mem_singleton] at hj
          rcases hj with hj | hj
          · exact hold hj
          · omega

/-- Without a failing `bind()` the sockets are closed in the order in which they were opened. -/
theorem opened_closed (t : FdTable α) (as : List Address) (hok : ∀ a ∈ as, a.socket = true → a.bind = true) :
    (loop 0 as (start t)).opened = (loop 0 as (start t)).closed ∧ (loop 0 as (start t)).closed.Nodup ∧
      ∀ fd, (loop 0 as (start t)).fds.entry fd = (t.entry fd).map .initial := by
  induction as using List.reverseRecOn with
  | nil => exact ⟨rfl, List.nodup_nil, fun _ => rfl⟩
  | append_singleton as a ih =>
      obtain ⟨heq, hnodup, hsame⟩ := ih (fun b hb => hok b (List.mem_append_left _ hb))
      have hlt := closed_lt t as
      cases does_last as a (start t) with
      | refused _ hopened hclosed hfds => exact ⟨by rw [hopened, hclosed, heq], by rwa [hclosed], by rwa [hfds]⟩
      | leaked hs hb => exact absurd (hok a (by simp) hs) (by simp [hb])
      | closed _ _ hopened hclosed hfds =>
          refine ⟨by rw [hopened, hclosed, heq], ?_, fun fd => (hfds fd).trans (hsame fd)⟩
          rw [hclosed, ← List.concat_eq_append]
          exact hnodup.concat (fun hmem => Nat.lt_irrefl _ (hlt _ hmem))

/-- A socket whose `bind()` fails is never closed. -/
theorem noLeak_iff (t : FdTable α) (as : List Address) :
    (∀ before after, as = before ++ after → NoLeak t (loop 0 before (start t))) ↔
      ∀ a ∈ as, a.socket = true → a.bind = true := by
  constructor
  · intro hall a ha hs
    obtain ⟨before, after, rfl⟩ := List.append_of_mem ha
    have hleak := hall (before ++ [a]) after (by simp)
    by_contra hb
    cases does_last before a (start t) with
    | refused h => simp [hs] at h
    | closed _ h => exact hb h
    | leaked _ _ hopened hclosed =>
        have honce := hleak.once before.length (by simp [hopened])
        have hmem : before.length ∈ (loop 0 before (start t)).closed := by
          rw [← hclosed]
          exact List.count_pos_iff.mp (by omega)
        exact Nat.lt_irrefl _ (closed_lt t before _ hmem)
  · rintro hok before after rfl
    obtain ⟨heq, hnodup, hsame⟩ := opened_closed t before (fun a ha => hok a (List.mem_append_left _ ha))
    exact ⟨fun k hk => List.count_eq_one_of_mem hnodup (heq ▸ hk), hsame⟩

/-- A port that is in use already. -/
def inUse : List Address := [⟨2, true, false⟩]

def standard : FdTable String := ⟨fun fd => if fd ≤ 2 then some "tty" else none, 3, fun _ h => if_neg (Nat.not_le.mpr h)⟩

theorem socket_leaked : (loop 0 inUse (start standard)).opened = [0] ∧ (loop 0 inUse (start standard)).closed = [] ∧
    (loop 0 inUse (start standard)).fds.entry 3 = some (.socket 0) := by
  have hlow : (standard.map File.initial).lowestFree = 3 := lowestFree_eq rfl (by decide)
  have hentry : ((standard.map File.initial).alloc (.socket 0)).1.entry (standard.map File.initial).lowestFree =
      some (.socket 0) := alloc_entry_self
  rw [hlow] at hentry
  exact ⟨rfl, rfl, hentry⟩

end UnixProg.Resolving.Passive

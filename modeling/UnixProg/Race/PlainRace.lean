import UnixProg.Race.SharedBytes

namespace UnixProg.Race.PlainRace

open Lib Transition Semaphore SharedBytes

/-- The statements of a process after the fork. For `addr[0] = addr[1] = value`
the compiler may read `addr[1]` back and store into `addr[0]` what it finds. -/
inductive Pc
  | loop
  | body (p : Body)
  | reload
  | storeBack
  | count
  | wait
  | stats
  | gone
deriving DecidableEq

/-- The shared bytes with the counts `races`, the second byte as each process
has read it back, the other variables of each process, what the processes
printed and which of them have exited. -/
structure Mem where
  bytes : Bytes
  reloaded : Proc → Int
  run : Proc → Bool
  i : Proc → Nat
  printed : List (Proc × Nat × Nat)
  exited : Proc → Bool

/-- Only the parent waits for the other process. -/
def afterLoop : Proc → Pc
  | .parent => .wait
  | .child => .stats

def finish (t : Proc) (m : Mem) : Mem := { m with run := Function.update m.run t false }

/-- Where a statement of the loop body leads. -/
def after : Body → List Pc
  | .check => [.body .compare]
  | .compare => [.body .store1]
  | .store1 => [.body .store0, .reload]
  | .store0 => [.count]

def cmds (t : Proc) : Pc → Mem → List (Cmd Pc Mem)
  | .loop, m => [.run m (if m.run t then .body .check else afterLoop t)]
  | .body p, m => (after p).map (.run { m with bytes := p.run t m.bytes })
  | .reload, m => [.run { m with reloaded := Function.update m.reloaded t m.bytes.addr1 } .storeBack]
  | .storeBack, m => [.run { m with bytes := { m.bytes with addr0 := m.reloaded t } } .count]
  | .count, m => [.run { m with i := Function.update m.i t (m.i t + 1) } .loop]
  | .wait, m => [.await (if m.exited .child then some m else none) .stats .stats]
  | .stats, m => [.run { m with
      printed := m.printed ++ [(t, m.bytes.races t, m.i t)], exited := Function.update m.exited t true } .gone]
  | .gone, _ => []

/-- There is no semaphore in this program. -/
def program : Prog Proc Pc Mem := ⟨cmds, finish⟩

def initial : State Proc Pc Mem :=
  start 0 (fun _ => .loop) ⟨.zero, fun _ => 0, fun _ => true, fun _ => 0, [], fun _ => false⟩

/-- The accesses to the bytes, of which the two loads belong to the comparison. -/
inductive Access
  | load0 (t : Proc)
  | load1 (t : Proc)
  | store1 (t : Proc)
  | store0 (t : Proc)
  | reload (t : Proc)
  | storeBack (t : Proc)
deriving DecidableEq

def Access.of (t : Proc) : Body → Access
  | .check => .load0 t
  | .compare => .load1 t
  | .store1 => .store1 t
  | .store0 => .store0 t

def access (s : State Proc Pc Mem) : Event Proc → List Access
  | .exec t _ => match s.pc t with
    | .body p => [.of t p]
    | .reload => [.reload t]
    | .storeBack => [.storeBack t]
    | _ => []
  | .signal _ => []

/-- Whose value is in the second byte, nobody's before the first store. -/
def writer1 : List Access → Option Proc
  | [] => none
  | .store1 t :: _ => some t
  | _ :: as => writer1 as

/-- Whose value a process has read back from there. -/
def carried (t : Proc) : List Access → Option Proc
  | [] => none
  | .reload u :: as => if u = t then writer1 as else carried t as
  | _ :: as => carried t as

/-- Whose value is in the first byte. -/
def writer0 : List Access → Option Proc
  | [] => none
  | .store0 t :: _ => some t
  | .storeBack t :: as => carried t as
  | _ :: as => writer0 as

/-- Whose value a process saw when it read the first byte. -/
def seenWriter (t : Proc) : List Access → Option Proc
  | [] => none
  | .load0 u :: as => if u = t then writer0 as else seenWriter t as
  | _ :: as => seenWriter t as

/-- How often a process has found the values of two different writers. -/
def mixed (t : Proc) : List Access → Nat
  | [] => 0
  | .load1 u :: as => mixed t as + if u = t ∧ seenWriter t as ≠ writer1 as then 1 else 0
  | _ :: as => mixed t as

variable {s s' : State Proc Pc Mem} {e : Event Proc} {es : List (Event Proc)}

def value (w : Option Proc) : Int := w.elim 0 Proc.value

theorem value_inj {v w : Option Proc} : value v = value w ↔ v = w := by
  constructor
  · intro h
    rcases v with _ | _ | _ <;> rcases w with _ | _ | _ <;> first | rfl | cases h
  · exact congrArg value

/-- The bytes as the accesses made them. -/
structure Reflects (b : Bytes) (reloaded : Proc → Int) (as : List Access) : Prop where
  addr0 : b.addr0 = value (writer0 as)
  addr1 : b.addr1 = value (writer1 as)
  seen (t : Proc) : b.seen t = value (seenWriter t as)
  races (t : Proc) : b.races t = mixed t as
  reloaded (t : Proc) : reloaded t = value (carried t as)

theorem Reflects.step {b : Bytes} {r : Proc → Int} {as : List Access} (h : Reflects b r as) (t : Proc) (p : Body) :
    Reflects (p.run t b) r (.of t p :: as) := by
  cases p with
  | check =>
      refine ⟨h.addr0, h.addr1, fun u => ?_, h.races, h.reloaded⟩
      by_cases hu : t = u
      · subst hu
        simpa only [Body.run, Access.of, seenWriter, Function.update_self, if_true] using h.addr0
      · simpa only [Body.run, Access.of, seenWriter, Function.update_of_ne (Ne.symm hu), if_neg hu] using h.seen u
  | compare =>
      have hdiff : b.seen t ≠ b.addr1 ↔ seenWriter t as ≠ writer1 as := by
        rw [h.seen t, h.addr1, ne_eq, value_inj]
      rw [Body.run, Access.of]
      by_cases hd : b.seen t ≠ b.addr1
      · rw [if_pos hd]
        refine ⟨h.addr0, h.addr1, h.seen, fun u => ?_, h.reloaded⟩
        by_cases hu : t = u
        · subst hu
          simp only [mixed, hdiff.mp hd, Function.update_self, h.races, ne_eq, not_false_eq_true, and_self, if_true]
        · simp only [mixed, hu, false_and, if_false, Function.update_of_ne (Ne.symm hu), h.races, Nat.add_zero]
      · rw [if_neg hd]
        refine ⟨h.addr0, h.addr1, h.seen, fun u => ?_, h.reloaded⟩
        have hnot : ¬ (t = u ∧ seenWriter u as ≠ writer1 as) := fun h => hd (hdiff.mpr (h.1 ▸ h.2))
        simp only [mixed, if_neg hnot, h.races, Nat.add_zero]
  | store1 => exact ⟨h.addr0, rfl, h.seen, h.races, h.reloaded⟩
  | store0 => exact ⟨rfl, h.addr1, h.seen, h.races, h.reloaded⟩

theorem Reflects.reload {b : Bytes} {r : Proc → Int} {as : List Access} (h : Reflects b r as) (t : Proc) :
    Reflects b (Function.update r t b.addr1) (.reload t :: as) := by
  refine ⟨h.addr0, h.addr1, h.seen, h.races, fun u => ?_⟩
  by_cases hu : t = u
  · subst hu
    simpa only [carried, Function.update_self, if_true] using h.addr1
  · simpa only [carried, Function.update_of_ne (Ne.symm hu), if_neg hu] using h.reloaded u

theorem Reflects.storeBack {b : Bytes} {r : Proc → Int} {as : List Access} (h : Reflects b r as) (t : Proc) :
    Reflects { b with addr0 := r t } r (.storeBack t :: as) :=
  ⟨h.reloaded t, h.addr1, h.seen, h.races, h.reloaded⟩

end UnixProg.Race.PlainRace

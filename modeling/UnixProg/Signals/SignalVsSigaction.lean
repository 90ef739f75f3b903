import UnixProg.Lib.Signal
import UnixProg.Lib.Transition

namespace UnixProg.Signals.SignalVsSigaction

open Lib Transition Signal

/-- How the handler is set: by `signal()` as in System V, where it is gone with
the first signal and the signal is not blocked meanwhile, by `signal()` as in
BSD, or by `sigaction()`. -/
inductive Setting
  | systemV
  | bsd
  | posix
deriving DecidableEq

inductive Call
  | signal
  | sigaction
deriving DecidableEq

def Setting.call : Setting → Call
  | .systemV | .bsd => .signal
  | .posix => .sigaction

inductive Pc
  | printSetting
  | printName
  | set
  | printWaiting
  | pause
  | pausing
  | killed
deriving DecidableEq

/-- The statements of `sig_handler()`. -/
inductive HandlerPc
  | writeGot
  | sleep
  | writeRet
  | leave
deriving DecidableEq

inductive Line
  | setting
  | name (call : Call)
  | waiting
  | got
  | ret
deriving DecidableEq

/-- `calls` are the calls of the handler that are under way, the innermost one first. -/
structure State where
  pc : Pc
  int : Sig Unit
  calls : List HandlerPc
  lines : List Line
deriving DecidableEq

inductive Event
  | main (p : Pc)
  | handler
  | send
  | deliver
deriving DecidableEq

def State.say (s : State) (line : Line) (p : Pc) : State := { s with lines := s.lines ++ [line], pc := p }

def main (how : Setting) (s : State) : Option State :=
  match s.pc with
  | .printSetting => some (s.say .setting .printName)
  | .printName => some (s.say (.name how.call) .set)
  | .set => some { s with int := s.int.catch, pc := .printWaiting }
  | .printWaiting => some (s.say .waiting .pause)
  | .pause => some { s with pc := .pausing }
  | .pausing | .killed => none

def handler (how : Setting) (s : State) : Option State :=
  match s.calls with
  | [] => none
  | .writeGot :: calls => some { s with lines := s.lines ++ [.got], calls := .sleep :: calls }
  | .sleep :: calls => some { s with calls := .writeRet :: calls }
  | .writeRet :: calls => some { s with lines := s.lines ++ [.ret], calls := .leave :: calls }
  | .leave :: calls => some { s with
      calls := calls
      int := if how = .systemV then s.int else { s.int with blocked := false }
      pc := if s.pc = .pausing then .pause else s.pc }

/-- What happens to the signal's own action and mask when its handler is called. -/
def Setting.called : Setting → Sig Unit → Sig Unit
  | .systemV, g => { g with caught := false }
  | .bsd, g | .posix, g => g.block

def State.act (how : Setting) (s : State) : Action Unit → State
  | .handle () => { s with int := how.called s.int, calls := .writeGot :: s.calls }
  | .terminate => { s with pc := .killed }

/-- Main goes on when no call of the handler is under way. -/
def next (how : Setting) (s : State) : Event → Option State
  | .main p => if s.pc = p ∧ s.calls = [] then main how s else none
  | .handler => if s.pc = .killed then none else handler how s
  | .send => if s.pc = .killed then none else some { s with int := s.int.post () }
  | .deliver => if s.pc = .killed then none else s.int.deliver.map (fun r => { s with int := r.2 }.act how r.1)

def initial : State := ⟨.printSetting, .plain, [], []⟩

/-- The handler is set. -/
def Pc.hasSet : Pc → Bool
  | .printWaiting | .pause | .pausing => true
  | .printSetting | .printName | .set | .killed => false

def Line.ofHandler : Line → Bool
  | .got | .ret => true
  | .setting | .name _ | .waiting => false

/-- The process gets the signal before it has set its handler, or a second time after System V's `signal()`. -/
def Fatal (how : Setting) (es : List Event) : Prop :=
  Precedes .deliver (.main .set) es ∨ how = .systemV ∧ 2 ≤ es.count .deliver

/-- What a call of the handler has written that has come so far. -/
def HandlerPc.written : HandlerPc → List Line
  | .writeGot => []
  | .sleep | .writeRet => [.got]
  | .leave => [.got, .ret]

/-- The handler is called again only when it has returned. -/
def OneByOne (s : State) : Prop :=
  ∃ n, s.lines.filter Line.ofHandler = (List.replicate n [.got, .ret]).flatten ++ s.calls.flatMap HandlerPc.written

def Kept (how : Setting) (es : List Event) (s : State) : Prop :=
  match how with
  | .bsd | .posix => s.int.caught = s.pc.hasSet ∧ s.int.blocked = !s.calls.isEmpty
  | .systemV => s.int.blocked = false ∧ s.int.caught = (s.pc.hasSet && decide (.deliver ∉ es)) ∧ es.count .deliver ≤ 1 ∧
      (.deliver ∉ es → s.calls = [])

structure Live (how : Setting) (es : List Event) (s : State) : Prop where
  early : ¬ Precedes .deliver (.main .set) es
  hasSet : s.pc.hasSet = true ↔ .main .set ∈ es
  length : s.calls.length ≤ 1
  calls (h : s.pc.hasSet = false) : s.calls = []
  kept : Kept how es s
  oneByOne : OneByOne s

def Inv (how : Setting) (es : List Event) (s : State) : Prop := if s.pc = .killed then Fatal how es else Live how es s

variable {how : Setting} {s s' : State} {e : Event} {es : List Event}

theorem initial_live (how : Setting) : Live how [] initial where
  early := not_precedes_nil _ _
  hasSet := by simp [initial, Pc.hasSet]
  length := Nat.zero_le 1
  calls _ := rfl
  kept := by cases how <;> simp [Kept, initial, Pc.hasSet, Sig.plain]
  oneByOne := ⟨0, rfl⟩

theorem Live.not_fatal (hs : Live how es s) : ¬ Fatal how es := by
  rintro (he | ⟨rfl, hcount⟩)
  · exact hs.early he
  · obtain ⟨_, _, hle, _⟩ := hs.kept
    omega

theorem Live.snoc (hs : Live how es s) (he : e ≠ .deliver) (hkept : Kept how es s')
    (hset : s'.pc.hasSet = true ↔ .main .set ∈ es ++ [e]) (hlen : s'.calls.length ≤ 1)
    (hcalls : s'.pc.hasSet = false → s'.calls = []) (hlines : OneByOne s') :
    Live how (es ++ [e]) s' where
  early := by
    rw [precedes_snoc_iff hs.early]
    exact fun h => he h.1
  hasSet := hset
  length := hlen
  calls := hcalls
  kept := by
    have hcount : [e].count .deliver = 0 := List.count_eq_zero.mpr (by simpa using he.symm)
    have hmem : .deliver ∈ es ++ [e] ↔ .deliver ∈ es := by simp [he.symm]
    cases how with
    | bsd | posix => exact hkept
    | systemV =>
        simp only [Kept, hmem, List.count_append, hcount]
        exact hkept
  oneByOne := hlines

theorem OneByOne.congr (hs : OneByOne s) (hcalls : s'.calls = s.calls)
    (hlines : s'.lines.filter Line.ofHandler = s.lines.filter Line.ofHandler) : OneByOne s' := by
  rw [OneByOne, hlines, hcalls]
  exact hs

theorem Kept.congr (hs : Kept how es s) (hint : s'.int = s.int) (hcalls : s'.calls = s.calls)
    (hset : s'.pc.hasSet = s.pc.hasSet) : Kept how es s' := by
  cases how <;> simp only [Kept, hint, hcalls, hset] <;> exact hs

theorem main_live {p : Pc} (hs : Live how es s) (hp : s.pc = p) (hidle : s.calls = []) (h : main how s = some s') :
    Live how (es ++ [.main p]) s' ∧ s'.pc ≠ .killed := by
  have hset := hs.hasSet
  rw [main, hp] at h
  rw [hp] at hset
  cases p with
  | printSetting | printName | printWaiting =>
      cases h
      refine ⟨hs.snoc (by simp) (hs.kept.congr rfl rfl (by rw [hp]; rfl)) ?_ hs.length (fun _ => hidle)
        (hs.oneByOne.congr rfl ?_), by simp [State.say]⟩
      · simpa [State.say, Pc.hasSet] using hset
      · simp [State.say, Line.ofHandler]
  | pause =>
      cases h
      refine ⟨hs.snoc (by simp) (hs.kept.congr rfl rfl (by rw [hp]; rfl)) ?_ hs.length (fun _ => hidle)
        (hs.oneByOne.congr rfl rfl), by simp⟩
      simpa [Pc.hasSet] using hset
  | set =>
      cases h
      have hnot : Event.deliver ∉ es := by
        intro hin
        exact hs.early (precedes_of_mem hin (fun h => by simpa [Pc.hasSet] using hset.mpr h))
      refine ⟨hs.snoc (by simp) ?_ ?_ hs.length (fun _ => hidle) (hs.oneByOne.congr rfl rfl), by simp⟩
      · have hkept := hs.kept
        cases how with
        | bsd | posix => exact ⟨rfl, hkept.2⟩
        | systemV => exact ⟨hkept.1, by simp [Sig.catch, Pc.hasSet, hnot], hkept.2.2⟩
      · simp [Pc.hasSet]
  | pausing | killed => cases h

theorem handler_live (hs : Live how es s) (hp : s.pc ≠ .killed) (h : handler how s = some s') :
    Live how (es ++ [.handler]) s' ∧ s'.pc ≠ .killed := by
  have hset : s.pc.hasSet = true ↔ .main .set ∈ es ++ [.handler] := by simpa using hs.hasSet
  have hkept := hs.kept
  obtain ⟨n, hlines⟩ := hs.oneByOne
  rw [handler] at h
  cases hc : s.calls with
  | nil =>
      rw [hc] at h
      cases h
  | cons c calls =>
      have hnil : calls = [] := by simpa [hc] using hs.length
      have hcalled : s.pc.hasSet = true := by
        by_contra hnot
        have hno := hs.calls (eq_false_of_ne_true hnot)
        rw [hno] at hc
        cases hc
      subst hnil
      rw [hc] at h hlines
      have hother : how = .systemV → .deliver ∈ es := by
        rintro rfl
        by_contra hnot
        have hno := hkept.2.2.2 hnot
        rw [hno] at hc
        cases hc
      have hstay {t : State} (hint : t.int = s.int) (hpc : t.pc = s.pc) (hne : t.calls.isEmpty = false) : Kept how es t := by
        cases how with
        | bsd | posix =>
            have hblocked := hkept.2
            rw [hc] at hblocked
            exact ⟨by rw [hint, hpc]; exact hkept.1, by rw [hint, hne]; exact hblocked⟩
        | systemV => exact ⟨hint ▸ hkept.1, by rw [hint, hpc]; exact hkept.2.1, hkept.2.2.1, fun h => absurd (hother rfl) h⟩
      cases c with
      | writeGot | sleep | writeRet =>
          cases h
          refine ⟨hs.snoc (by simp) (hstay rfl rfl rfl) hset (Nat.le_refl 1) (fun h => ?_) ⟨n, ?_⟩, hp⟩
          · rw [hcalled] at h
            cases h
          · simp [hlines, HandlerPc.written, Line.ofHandler]
      | leave =>
          cases h
          have hpc : (if s.pc = .pausing then Pc.pause else s.pc).hasSet = s.pc.hasSet := by
            split
            · rename_i h
              rw [h]
              rfl
            · rfl
          refine ⟨hs.snoc (by simp) ?_ (hpc ▸ hset) (Nat.zero_le 1) (fun _ => rfl) ⟨n + 1, ?_⟩, ?_⟩
          · cases how with
            | bsd | posix => exact ⟨by rw [hpc]; exact hkept.1, rfl⟩
            | systemV => exact ⟨hkept.1, by rw [hpc]; exact hkept.2.1, hkept.2.2.1, fun _ => rfl⟩
          · simp [hlines, HandlerPc.written, List.replicate_succ']
          · simp only
            split
            · simp
            · exact hp

theorem deliver_inv (hs : Live how es s) (hp : s.pc ≠ .killed) (h : next how s .deliver = some s') :
    Inv how (es ++ [.deliver]) s' := by
  obtain ⟨_, h⟩ := Option.ite_none_left_eq_some.mp h
  obtain ⟨⟨act, g⟩, hd, rfl⟩ := Option.map_eq_some_iff.mp h
  have hblocked : s.int.blocked = false := by
    by_contra hb
    rw [deliver_blocked (by simpa using hb)] at hd
    cases hd
  obtain ⟨rfl, ⟨⟩, _, hact⟩ := deliver_cases hd
  obtain ⟨n, hlines⟩ := hs.oneByOne
  have hkept := hs.kept
  have hearly (hset : s.pc.hasSet = false) : Precedes .deliver (.main .set) (es ++ [.deliver]) := by
    rw [precedes_snoc_iff hs.early, ← hs.hasSet, hset]
    simp
  rcases hact with ⟨hc, rfl⟩ | ⟨hc, rfl⟩
  · have hset : s.pc.hasSet = true ∧ s.calls = [] ∧ (how = .systemV → .deliver ∉ es) := by
      cases how with
      | bsd | posix =>
          have hempty := hkept.2
          rw [hblocked] at hempty
          exact ⟨hkept.1.symm.trans hc, by simpa using hempty, fun h => by cases h⟩
      | systemV =>
          obtain ⟨_, hcaught, _, hcalls⟩ := hkept
          rw [hc, eq_comm, Bool.and_eq_true, decide_eq_true_eq] at hcaught
          exact ⟨hcaught.1, hcalls hcaught.2, fun _ => hcaught.2⟩
    obtain ⟨hset, hcalls, hfirst⟩ := hset
    rw [Inv, State.act, if_neg hp]
    constructor
    case early =>
      rw [precedes_snoc_iff hs.early]
      exact fun h => h.2 (hs.hasSet.mp hset)
    case hasSet => simpa using hs.hasSet
    case length => simp [hcalls]
    case calls =>
      intro h
      rw [hset] at h
      cases h
    case kept =>
      cases how with
      | bsd | posix => exact ⟨hkept.1, rfl⟩
      | systemV =>
          have hcount : es.count .deliver = 0 := List.count_eq_zero.mpr (hfirst rfl)
          exact ⟨hblocked, by simp [Setting.called], by simp [hcount], fun h => absurd (List.mem_append_right _ (by simp)) h⟩
    case oneByOne => exact ⟨n, hlines⟩
  · rw [Inv, State.act, if_pos rfl]
    cases how with
    | bsd | posix => exact .inl (hearly (hkept.1.symm.trans hc))
    | systemV =>
        by_cases hin : .deliver ∈ es
        · refine .inr ⟨rfl, ?_⟩
          rw [List.count_append]
          have := List.count_pos_iff.mpr hin
          simp
          omega
        · refine .inl (hearly ?_)
          have hcaught := hkept.2.1
          rw [hc] at hcaught
          simpa [hin] using hcaught.symm

theorem next_inv (hs : Inv how es s) (h : next how s e = some s') : Inv how (es ++ [e]) s' := by
  have hp : s.pc ≠ .killed := by
    intro hp
    cases e with
    | main p =>
        have hmain := (Option.ite_none_right_eq_some.mp h).2
        rw [main, hp] at hmain
        cases hmain
    | handler | send | deliver => exact (Option.ite_none_left_eq_some.mp h).1 hp
  rw [Inv, if_neg hp] at hs
  have hlive (hl : Live how (es ++ [e]) s' ∧ s'.pc ≠ .killed) : Inv how (es ++ [e]) s' := by
    rw [Inv, if_neg hl.2]
    exact hl.1
  cases e with
  | main p =>
      obtain ⟨⟨hpc, hidle⟩, h⟩ := Option.ite_none_right_eq_some.mp h
      exact hlive (main_live hs hpc hidle h)
  | handler => exact hlive (handler_live hs hp (Option.ite_none_left_eq_some.mp h).2)
  | send =>
      obtain ⟨_, h⟩ := Option.ite_none_left_eq_some.mp h
      cases h
      refine hlive ⟨hs.snoc (by simp) ?_ (by simpa using hs.hasSet) hs.length hs.calls (hs.oneByOne.congr rfl rfl), hp⟩
      have hkept := hs.kept
      cases how <;> exact hkept
  | deliver => exact deliver_inv hs hp h

theorem run_inv (h : Run (Exec (next how)) initial es s) : Inv how es s :=
  h.invariant (I := Inv how) ((if_neg (by simp [initial])).mpr (initial_live how)) (fun _ _ _ _ _ hs hl => next_inv hs hl)

/-- With `sigaction()` no number of signals ends the program once its handler is
set, and with System V's `signal()` the second one does. Until then the handler
is called again only when it has returned. -/
theorem killed_iff_fatal (how : Setting) (es : List Event) (s : State) (h : Run (Exec (next how)) initial es s) :
    (s.pc = .killed ↔ Precedes .deliver (.main .set) es ∨ how = .systemV ∧ 2 ≤ es.count .deliver) ∧
    (s.pc ≠ .killed → s.calls.length ≤ 1 ∧
      ∃ n, s.lines.filter Line.ofHandler = (List.replicate n [.got, .ret]).flatten ++ s.calls.flatMap HandlerPc.written) := by
  have hs := run_inv h
  rw [Inv] at hs
  by_cases hp : s.pc = .killed
  · rw [if_pos hp] at hs
    exact ⟨⟨fun _ => hs, fun _ => hp⟩, fun hnot => absurd hp hnot⟩
  · rw [if_neg hp] at hs
    exact ⟨⟨fun h => absurd h hp, fun h => absurd h hs.not_fatal⟩, fun _ => ⟨hs.length, hs.oneByOne⟩⟩

/-- Two signals come in quick succession. -/
def twoSignals : List Event :=
  [.main .printSetting, .main .printName, .main .set, .main .printWaiting, .main .pause, .send, .deliver, .handler, .send]

theorem killed_iff_fatal_twoSignals :
    (∃ s, Run (Exec (next .systemV)) initial (twoSignals ++ [.deliver]) s ∧ s.pc = .killed) ∧
    ∃ s, Run (Exec (next .posix)) initial (twoSignals ++ [.handler, .handler, .handler, .deliver]) s ∧
      s.calls.length ≤ 1 ∧ s.pc = .pause := by
  obtain ⟨s, hs⟩ : ∃ s, replay (next .systemV) initial (twoSignals ++ [.deliver]) = some s := ⟨_, rfl⟩
  obtain ⟨t, ht, hp⟩ : ∃ t, replay (next .posix) initial (twoSignals ++ [.handler, .handler, .handler, .deliver]) =
      some t ∧ t.pc = .pause := ⟨_, rfl, rfl⟩
  constructor
  · exact ⟨s, replay_run hs, (killed_iff_fatal _ _ s (replay_run hs)).1.mpr (.inr ⟨rfl, by decide⟩)⟩
  · exact ⟨t, replay_run ht, ((killed_iff_fatal _ _ t (replay_run ht)).2 (by simp [hp])).1, hp⟩

end UnixProg.Signals.SignalVsSigaction

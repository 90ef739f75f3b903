import UnixProg.Race.FcntlFixedRace
import UnixProg.Race.PlainRace
import UnixProg.Race.PosixSemFixedRace
import UnixProg.Race.SemFixedRace

namespace UnixProg.Race.Serialisation

open Lib Transition Semaphore SemaphoreRule SharedBytes PlainRace

/-- In the middle of the loop body. -/
def begun : Pc → Bool
  | .body p => decide (p ≠ .check)
  | .reload | .storeBack => true
  | .loop | .count | .wait | .stats | .gone => false

def inBody : Pc → Bool
  | .body _ | .reload | .storeBack => true
  | .loop | .count | .wait | .stats | .gone => false

/-- A statement of the loop body is executed while nobody else is in the
middle of it. -/
def Alone (s : State Proc Pc Mem) (e : Event Proc) : Prop :=
  ∀ t k, e = .exec t k → inBody (s.pc t) = true → ∀ u, u ≠ t → begun (s.pc u) = false

/-- What a process knows in the middle of the body when it is alone there. -/
def Middle (t : Proc) (m : Mem) : Pc → Prop
  | .body p => p.At t m.bytes
  | .reload => Body.store0.At t m.bytes
  | .storeBack => m.reloaded t = t.value ∧ Body.store0.At t m.bytes
  | .loop | .count | .wait | .stats | .gone => True

/-- What is known while the loop bodies do not overlap. -/
structure Serial (s : State Proc Pc Mem) : Prop where
  one (t u : Proc) (ht : begun (s.pc t) = true) (hu : begun (s.pc u) = true) : t = u
  calm (h : ∀ t, begun (s.pc t) = false) : Quiet s.mem.bytes
  holder (t : Proc) (hb : begun (s.pc t) = true) : Middle t s.mem (s.pc t)

variable {s s' : State Proc Pc Mem} {e : Event Proc} {es : List (Event Proc)} {t : Proc}

theorem middle_congr {m m' : Mem} {p : Pc} (h : Middle t m p) (hb : m'.bytes = m.bytes) (hr : m'.reloaded = m.reloaded) :
    Middle t m' p := by
  cases p with
  | body | reload =>
      rw [Middle, hb]
      exact h
  | storeBack =>
      rw [Middle, hb, hr]
      exact h
  | loop | count | wait | stats | gone => trivial

theorem Serial.congr (hs : Serial s) (hpc : s'.pc = s.pc) (hb : s'.mem.bytes = s.mem.bytes)
    (hr : s'.mem.reloaded = s.mem.reloaded) : Serial s' where
  one := hpc ▸ hs.one
  calm h := by
    rw [hb]
    exact hs.calm (hpc ▸ h)
  holder t h := by
    rw [hpc] at h ⊢
    exact middle_congr (hs.holder t h) hb hr

/-- Nobody else is in the body when a process executes a statement of it. -/
theorem Serial.body (hs : Serial s) (hin : inBody (s.pc t) = true) (hothers : ∀ u, u ≠ t → begun (s.pc u) = false) :
    Middle t s.mem (s.pc t) := by
  cases hb : begun (s.pc t) with
  | true => exact hs.holder t hb
  | false =>
      have hcheck : s.pc t = .body .check := by
        cases hp : s.pc t with
        | body p =>
            rw [hp] at hb
            congr
            simpa [begun] using hb
        | reload | storeBack =>
            rw [hp] at hb
            cases hb
        | loop | count | wait | stats | gone =>
            rw [hp] at hin
            cases hin
      rw [hcheck]
      refine hs.calm (fun u => ?_)
      by_cases hu : u = t
      · rw [hu, hb]
      · exact hothers u hu

/-- A step outside of the body. -/
theorem Serial.stay (hs : Serial s) {q : Pc} (hpc : s'.pc = Function.update s.pc t q) (hb : s'.mem.bytes = s.mem.bytes)
    (hr : s'.mem.reloaded = s.mem.reloaded) (hp : begun (s.pc t) = false) (hq : begun q = false) : Serial s' := by
  have hbegun (u : Proc) : begun (s'.pc u) = begun (s.pc u) := by
    rw [hpc]
    by_cases hu : u = t
    · rw [hu, Function.update_self, hp, hq]
    · rw [Function.update_of_ne hu]
  refine ⟨fun u v hu hv => ?_, fun hall => ?_, fun u hin => ?_⟩
  · rw [hbegun] at hu hv
    exact hs.one u v hu hv
  · rw [hb]
    exact hs.calm (fun u => (hbegun u).symm.trans (hall u))
  · rw [hbegun] at hin
    have hut : u ≠ t := by
      rintro rfl
      rw [hp] at hin
      cases hin
    rw [hpc, Function.update_of_ne hut]
    exact middle_congr (hs.holder u hin) hb hr

/-- A statement of the body. -/
theorem Serial.advance {q : Pc} (hothers : ∀ u, u ≠ t → begun (s.pc u) = false) (hpc : s'.pc = Function.update s.pc t q)
    (hmiddle : begun q = true → Middle t s'.mem q) (hquiet : begun q = false → Quiet s'.mem.bytes) : Serial s' := by
  have hself : s'.pc t = q := by rw [hpc, Function.update_self]
  have honly (u : Proc) (hu : begun (s'.pc u) = true) : u = t := by
    by_contra hut
    rw [hpc, Function.update_of_ne hut, hothers u hut] at hu
    cases hu
  refine ⟨fun u v hu hv => (honly u hu).trans (honly v hv).symm, fun hall => ?_, fun u hin => ?_⟩
  · exact hquiet (hself ▸ hall t)
  · obtain rfl := honly u hin
    rw [hself] at hin ⊢
    exact hmiddle hin

theorem Serial.races (hs : Serial s) (u : Proc) : s.mem.bytes.races u = 0 := by
  by_cases hall : ∀ t, begun (s.pc t) = false
  · exact (hs.calm hall).2 u
  · push Not at hall
    obtain ⟨t, ht⟩ := hall
    have hmiddle := hs.holder t (by simpa using ht)
    cases hp : s.pc t with
    | body p =>
        rw [hp] at hmiddle
        exact Body.At.races hmiddle u
    | reload =>
        rw [hp] at hmiddle
        exact hmiddle.2 u
    | storeBack =>
        rw [hp] at hmiddle
        exact hmiddle.2.2 u
    | loop | count | wait | stats | gone =>
        rw [hp] at ht
        exact absurd rfl ht

section Sharing

variable {P M : Type} {prog : Prog Proc P M} {inside : P → Bool} {bytes : M → Bytes} {point : P → Option Body}
  {c c' : State Proc P M} {e : Event Proc} {p₀ : Proc → P} {m₀ : M}

/-- The unlocked program is at the same statements of the loop body and before
its loop elsewhere, and nobody has told it to end. -/
structure Matches (bytes : M → Bytes) (point : P → Option Body) (c : State Proc P M) (s : State Proc Pc Mem) : Prop where
  bytes : s.mem.bytes = bytes c.mem
  ctl (t : Proc) : s.ctl t = .running ((point (c.pc t)).elim .loop .body)
  run (t : Proc) : s.mem.run t = true

theorem Matches.pc {c : State Proc P M} (h : Matches bytes point c s) (t : Proc) :
    s.pc t = (point (c.pc t)).elim .loop .body := by
  rw [State.pc, h.ctl t]
  rfl

/-- A step that leaves the bytes and the places in the body alone. -/
theorem Matches.stay (h : Matches bytes point c s) (hb : bytes c'.mem = bytes c.mem)
    (hp : ∀ t, point (c'.pc t) = point (c.pc t)) : Matches bytes point c' s :=
  ⟨h.bytes.trans hb.symm, fun t => by rw [hp]; exact h.ctl t, h.run⟩

/-- One step of the unlocked program, with nobody else in the middle of the
body where the step is one of the body. -/
theorem plain_step {m : Mem} {q : Pc} (hc : (PlainRace.cmds t (s.pc t) s.mem)[0]? = some (.run m q))
    (hothers : inBody (s.pc t) = true → ∀ u, u ≠ t → begun (s.pc u) = false) :
    ∃ s', Guarded (Exec (next PlainRace.program)) Alone s (.exec t 0) s' ∧
      s'.ctl = Function.update s.ctl t (.running q) ∧ s'.mem = m := by
  refine ⟨_, ⟨?_, exec_run hc⟩, rfl, rfl⟩
  intro u k heq hin
  cases heq
  exact hothers hin

/-- A statement of the body, and after the last one the way back to the loop. -/
theorem Matches.body (h : Matches bytes point c s) {p : Body} (hp : point (c.pc t) = some p)
    (hothers : ∀ u, u ≠ t → point (c.pc u) = none) {p' : P} (hpc : c'.pc = Function.update c.pc t p')
    (hmoves : (bytes c'.mem, point p') = SharedBytes.advance t (bytes c.mem) (some p)) :
    ∃ es s', Run (Guarded (Exec (next PlainRace.program)) Alone) s es s' ∧ Matches bytes point c' s' := by
  obtain ⟨hb, hp'⟩ := Prod.mk.inj hmoves
  have hpt : s.pc t = .body p := by rw [h.pc, hp]; rfl
  have hout (u : Proc) (hu : u ≠ t) : begun (s.pc u) = false := by
    rw [h.pc, hothers u hu]
    rfl
  have hother (u : Proc) (hu : u ≠ t) : s.ctl u = .running ((point (c'.pc u)).elim .loop .body) := by
    rw [hpc, Function.update_of_ne hu]
    exact h.ctl u
  obtain ⟨s₁, hs₁, hctl₁, hmem₁⟩ := plain_step (s := s) (t := t) (m := { s.mem with bytes := p.run t s.mem.bytes })
    (q := p.next.elim .count .body) (by rw [hpt]; cases p <;> rfl) (fun _ => hout)
  have hbytes : s₁.mem.bytes = bytes c'.mem := by
    rw [hmem₁, hb, ← h.bytes]
  have hrun₁ (u : Proc) : s₁.mem.run u = true := by
    rw [hmem₁]
    exact h.run u
  have hself₁ : s₁.ctl t = .running (p.next.elim .count .body) := by rw [hctl₁, Function.update_self]
  have hother₁ (u : Proc) (hu : u ≠ t) : s₁.ctl u = s.ctl u := by rw [hctl₁, Function.update_of_ne hu]
  cases p with
  | check | compare | store1 =>
      refine ⟨_, s₁, .single hs₁, hbytes, fun u => ?_, hrun₁⟩
      by_cases hu : u = t
      · subst hu
        rw [hself₁, hpc, Function.update_self, hp']
        rfl
      · rw [hother₁ u hu]
        exact hother u hu
  | store0 =>
      have hpc₁ : s₁.pc t = .count := by rw [State.pc, hself₁]; rfl
      obtain ⟨s₂, hs₂, hctl₂, hmem₂⟩ := plain_step (s := s₁) (t := t) (by rw [hpc₁]; rfl)
        (fun hin => by rw [hpc₁] at hin; cases hin)
      refine ⟨_, s₂, (Run.single hs₁).snoc hs₂, ?_, fun u => ?_, ?_⟩
      · rw [hmem₂]
        exact hbytes
      · by_cases hu : u = t
        · subst hu
          rw [hctl₂, Function.update_self, hpc, Function.update_self, hp']
          rfl
        · rw [hctl₂, Function.update_of_ne hu, hother₁ u hu]
          exact hother u hu
      · rw [hmem₂]
        exact hrun₁

/-- The locked program comes to the loop body. -/
theorem Matches.enter (h : Matches bytes point c s) (hp : point (c.pc t) = none) {p' : P}
    (hp' : point p' = some .check) (hpc : c'.pc = Function.update c.pc t p') (hb : bytes c'.mem = bytes c.mem) :
    ∃ es s', Run (Guarded (Exec (next PlainRace.program)) Alone) s es s' ∧ Matches bytes point c' s' := by
  have hpt : s.pc t = .loop := by rw [h.pc, hp]; rfl
  obtain ⟨s₁, hs₁, hctl₁, hmem₁⟩ := plain_step (s := s) (t := t) (m := s.mem) (q := .body .check)
    (by rw [hpt, PlainRace.cmds, h.run t]; rfl) (fun hin => by rw [hpt] at hin; cases hin)
  refine ⟨_, s₁, .single hs₁, ?_, fun u => ?_, ?_⟩
  · rw [hmem₁, hb]
    exact h.bytes
  · by_cases hu : u = t
    · subst hu
      rw [hctl₁, Function.update_self, hpc, Function.update_self, hp']
      rfl
    · rw [hctl₁, Function.update_of_ne hu, hpc, Function.update_of_ne hu]
      exact h.ctl u
  · rw [hmem₁]
    exact h.run

end Sharing

end UnixProg.Race.Serialisation

import Mathlib.Data.List.Induction
import Mathlib.Tactic.Common

namespace UnixProg.Lib.Transition

variable {σ ℓ τ κ α : Type}

/-- Finite runs of a labelled step relation. The labels are listed in the
order in which they were taken, so that counts over them are the history. -/
inductive Run (step : σ → ℓ → σ → Prop) (s₀ : σ) : List ℓ → σ → Prop
  | nil : Run step s₀ [] s₀
  | snoc {ls l s s'} (h : Run step s₀ ls s) (hl : step s l s') : Run step s₀ (ls ++ [l]) s'

def Reachable (step : σ → ℓ → σ → Prop) (s₀ s : σ) : Prop := ∃ ls, Run step s₀ ls s

/-- The steps of a relation that meet a condition on the state before them
and on their label. -/
def Guarded (step : σ → ℓ → σ → Prop) (ok : σ → ℓ → Prop) (s : σ) (l : ℓ) (s' : σ) : Prop :=
  ok s l ∧ step s l s'

/-- An executable step function seen as a step relation. -/
def Exec (next : σ → ℓ → Option σ) (s : σ) (l : ℓ) (s' : σ) : Prop := next s l = some s'

def replay (next : σ → ℓ → Option σ) (s : σ) (ls : List ℓ) : Option σ := ls.foldlM next s

/-- What the steps of a run report, one after the other. -/
def trace (next : σ → ℓ → Option σ) (out : σ → ℓ → List α) (s : σ) : List ℓ → List α
  | [] => []
  | l :: ls => out s l ++ (next s l).elim [] (fun t => trace next out t ls)

/-- One label is taken before another one is taken for the first time. -/
def Precedes (a b : ℓ) (ls : List ℓ) : Prop := ∃ before after, ls = before ++ a :: after ∧ b ∉ before

variable {step step' : σ → ℓ → σ → Prop} {s₀ s s' : σ} {ls ms ms' : List ℓ}

theorem not_precedes_nil (a b : ℓ) : ¬ Precedes a b [] := by
  rintro ⟨before, after, hls, _⟩
  cases before <;> cases hls

theorem precedes_of_mem {a b : ℓ} (ha : a ∈ ls) (hb : b ∉ ls) : Precedes a b ls := by
  obtain ⟨before, after, rfl⟩ := List.append_of_mem ha
  exact ⟨before, after, rfl, fun h => hb (List.mem_append_left _ h)⟩

theorem Precedes.append {a b : ℓ} (h : Precedes a b ls) (ms : List ℓ) : Precedes a b (ls ++ ms) := by
  obtain ⟨before, after, rfl, hb⟩ := h
  exact ⟨before, after ++ ms, by simp, hb⟩

theorem Precedes.mem {a b : ℓ} (h : Precedes a b ls) : a ∈ ls := by
  obtain ⟨before, after, rfl, _⟩ := h
  exact List.mem_append_right _ List.mem_cons_self

theorem precedes_snoc {a b l : ℓ} : Precedes a b (ls ++ [l]) ↔ Precedes a b ls ∨ l = a ∧ b ∉ ls := by
  constructor
  · rintro ⟨before, after, hls, hb⟩
    induction after using List.reverseRecOn with
    | nil =>
        obtain ⟨rfl, hl⟩ := List.append_inj' hls rfl
        exact .inr ⟨by simpa using hl, hb⟩
    | append_singleton after m _ =>
        rw [← List.cons_append, ← List.append_assoc] at hls
        exact .inl ⟨before, after, (List.append_inj' hls rfl).1, hb⟩
  · rintro (h | ⟨rfl, hb⟩)
    · exact h.append [l]
    · exact ⟨ls, [], rfl, hb⟩

theorem precedes_snoc_iff {a b l : ℓ} (hnot : ¬ Precedes a b ls) : Precedes a b (ls ++ [l]) ↔ l = a ∧ b ∉ ls :=
  precedes_snoc.trans (or_iff_right hnot)

theorem Run.invariant {I : List ℓ → σ → Prop} (hinit : I [] s₀)
    (hstep : ∀ ls l s s', Run step s₀ ls s → I ls s → step s l s' → I (ls ++ [l]) s')
    (h : Run step s₀ ls s) : I ls s := by
  induction h with
  | nil => exact hinit
  | snoc hr hl ih => exact hstep _ _ _ _ hr ih hl

theorem Run.append (h : Run step s₀ ls s) (h' : Run step s ms s') : Run step s₀ (ls ++ ms) s' := by
  induction h' with
  | nil => simpa using h
  | snoc _ hl ih => rw [← List.append_assoc]; exact .snoc ih hl

theorem Run.single {l : ℓ} (h : step s l s') : Run step s [l] s' := .snoc .nil h

theorem Run.mono (hle : ∀ s l s', step s l s' → step' s l s') (h : Run step s₀ ls s) :
    Run step' s₀ ls s := by
  induction h with
  | nil => exact .nil
  | snoc _ hl ih => exact .snoc ih (hle _ _ _ hl)

theorem Run.unguard {ok : σ → ℓ → Prop} (h : Run (Guarded step ok) s₀ ls s) : Run step s₀ ls s :=
  h.mono (fun _ _ _ hl => hl.2)

theorem Run.reachable (h : Run step s₀ ls s) : Reachable step s₀ s := ⟨ls, h⟩

theorem Reachable.refl (step : σ → ℓ → σ → Prop) (s : σ) : Reachable step s s := ⟨[], .nil⟩

theorem Reachable.tail {l : ℓ} (h : Reachable step s₀ s) (hl : step s l s') : Reachable step s₀ s' :=
  ⟨_, .snoc h.choose_spec hl⟩

theorem Reachable.trans {s₁ s₂ : σ} (h : Reachable step s₀ s₁) (h' : Reachable step s₁ s₂) :
    Reachable step s₀ s₂ :=
  (h.choose_spec.append h'.choose_spec).reachable

theorem Reachable.invariant {I : σ → Prop} (hinit : I s₀)
    (hstep : ∀ s l s', I s → step s l s' → I s') (h : Reachable step s₀ s) : I s := by
  obtain ⟨ls, hr⟩ := h
  exact hr.invariant (I := fun _ s => I s) hinit (fun _ _ _ _ _ hi hl => hstep _ _ _ hi hl)

theorem replay_run {next : σ → ℓ → Option σ} (h : replay next s ls = some s') :
    Run (Exec next) s ls s' := by
  induction ls generalizing s with
  | nil => cases h; exact .nil
  | cons l ls ih =>
      simp only [replay, List.foldlM_cons, Option.bind_eq_bind, Option.bind_eq_some_iff] at h
      obtain ⟨t, hl, ht⟩ := h
      exact (Run.single hl).append (ih ht)

theorem run_replay {next : σ → ℓ → Option σ} (h : Run (Exec next) s₀ ls s) : replay next s₀ ls = some s := by
  induction h with
  | nil => rfl
  | snoc _ hl ih =>
      rw [replay, List.foldlM_append]
      rw [replay] at ih
      simpa [ih, Exec] using hl

theorem trace_snoc {next : σ → ℓ → Option σ} (out : σ → ℓ → List α) (h : Run (Exec next) s₀ ls s) (l : ℓ) :
    trace next out s₀ (ls ++ [l]) = trace next out s₀ ls ++ out s l := by
  have hr := run_replay h
  clear h
  induction ls generalizing s₀ with
  | nil =>
      cases hr
      cases hn : next s l <;> simp [trace, hn]
  | cons m ls ih =>
      simp only [replay, List.foldlM_cons, Option.bind_eq_bind, Option.bind_eq_some_iff] at hr
      obtain ⟨t, hl, ht⟩ := hr
      simp only [List.cons_append, trace, hl, Option.elim_some, ih ht, List.append_assoc]

theorem run_unique {next : σ → ℓ → Option σ} (h : Run (Exec next) s₀ ls s) (h' : Run (Exec next) s₀ ls s') : s = s' :=
  Option.some.inj ((run_replay h).symm.trans (run_replay h'))

theorem Run.last {l : ℓ} (h : Run step s₀ (ls ++ [l]) s') : ∃ s, Run step s₀ ls s ∧ step s l s' := by
  generalize hms : ls ++ [l] = ms at h
  cases h with
  | nil => cases ls <;> cases hms
  | snoc hr hl =>
      obtain ⟨rfl, hlast⟩ := List.append_inj' hms rfl
      cases hlast
      exact ⟨_, hr, hl⟩

theorem Run.before (h : Run step s₀ ls s) (hls : ls = ms ++ ms') : ∃ t, Run step s₀ ms t := by
  induction h generalizing ms' with
  | nil =>
      obtain ⟨rfl, _⟩ := List.append_eq_nil_iff.mp hls.symm
      exact ⟨s₀, .nil⟩
  | snoc hr hl ih =>
      induction ms' using List.reverseRecOn with
      | nil =>
          rw [List.append_nil] at hls
          exact ⟨_, hls ▸ hr.snoc hl⟩
      | append_singleton ms' m _ =>
          rw [← List.append_assoc] at hls
          exact ih (List.append_inj' hls rfl).1

theorem guarded_snoc {next : σ → ℓ → Option σ} {ok : σ → ℓ → Prop} {l : ℓ} (h : Run (Exec next) s₀ ls s)
    (hl : next s l = some s') :
    Run (Guarded (Exec next) ok) s₀ (ls ++ [l]) s' ↔ Run (Guarded (Exec next) ok) s₀ ls s ∧ ok s l := by
  constructor
  · intro hg
    obtain ⟨t, ht, hok, _⟩ := hg.last
    obtain rfl := run_unique ht.unguard h
    exact ⟨ht, hok⟩
  · exact fun ⟨hg, hok⟩ => hg.snoc ⟨hok, hl⟩

/-- Where a condition on the steps is just what keeps a property, the runs
whose steps all meet it are the runs through states that all have it. -/
theorem guarded_iff {next : σ → ℓ → Option σ} {ok : σ → ℓ → Prop} {Good : σ → Prop} (hinit : Good s₀)
    (hkeep : ∀ s l s', Reachable (Exec next) s₀ s → Good s → ok s l → next s l = some s' → Good s')
    (hbreak : ∀ s l s', Reachable (Exec next) s₀ s → Good s → ¬ ok s l → next s l = some s' → ¬ Good s')
    (h : Run (Exec next) s₀ ls s) :
    Run (Guarded (Exec next) ok) s₀ ls s ↔ ∀ ms ms' t, ls = ms ++ ms' → Run (Exec next) s₀ ms t → Good t := by
  constructor
  · intro hg ms ms' t hls ht
    obtain ⟨u, hu⟩ := hg.before hls
    have hgood : Good u := hu.invariant (I := fun _ s => Good s) hinit
      (fun _ _ _ _ hr hi hl => hkeep _ _ _ hr.unguard.reachable hi hl.1 hl.2)
    exact run_unique hu.unguard ht ▸ hgood
  · intro hall
    induction h with
    | nil => exact .nil
    | @snoc ls l s s' hr hl ih =>
        have hg := ih (fun ms ms' t hls => hall ms (ms' ++ [l]) t (by rw [hls, List.append_assoc]))
        have hgood : Good s := hall ls [l] s rfl hr
        refine hg.snoc ⟨by_contra (fun hnot => ?_), hl⟩
        exact hbreak s l s' hr.reachable hgood hnot hl (hall _ [] s' (List.append_nil _).symm (hr.snoc hl))

/-- The same for a property of a state and of the steps that led to it, and
for a condition on what was done before a step. -/
theorem history_iff {next : σ → ℓ → Option σ} {ok : List ℓ → ℓ → Prop} {Good : List ℓ → σ → Prop} (hinit : Good [] s₀)
    (hkeep : ∀ ls l s s', Good ls s → ok ls l → next s l = some s' → Good (ls ++ [l]) s')
    (hbreak : ∀ ls l s s', ¬ ok ls l → next s l = some s' → ¬ Good (ls ++ [l]) s') (h : Run (Exec next) s₀ ls s) :
    (∀ ms ms' t, ls = ms ++ ms' → Run (Exec next) s₀ ms t → Good ms t) ↔ ∀ ms l ms', ls = ms ++ l :: ms' → ok ms l := by
  constructor
  · intro hall ms l ms' hls
    have hls' : ls = (ms ++ [l]) ++ ms' := by rw [hls, List.append_assoc, List.singleton_append]
    obtain ⟨t, ht⟩ := h.before hls'
    obtain ⟨u, _, hl⟩ := ht.last
    by_contra hnot
    exact hbreak ms l u t hnot hl (hall _ ms' t hls' ht)
  · intro hok ms ms' t hls ht
    refine ht.invariant (I := fun ns s => ns <+: ls → Good ns s) (fun _ => hinit) ?_ ⟨ms', hls.symm⟩
    intro ns l u u' _ ih hl ⟨ns', hns⟩
    have hns' : ls = ns ++ l :: ns' := by rw [← hns, List.append_assoc, List.singleton_append]
    exact hkeep ns l u u' (ih ⟨_, hns'.symm⟩) (hok ns l ns' hns') hl

def guardedNext (ok : σ → ℓ → Prop) [∀ s l, Decidable (ok s l)] (next : σ → ℓ → Option σ) (s : σ) (l : ℓ) : Option σ :=
  if ok s l then next s l else none

theorem replay_guarded {ok : σ → ℓ → Prop} [∀ s l, Decidable (ok s l)] {next : σ → ℓ → Option σ}
    (h : replay (guardedNext ok next) s ls = some s') : Run (Guarded (Exec next) ok) s ls s' :=
  (replay_run h).mono (fun _ _ _ hl => Option.ite_none_right_eq_some.mp hl)

/-- Every run of the lower system is matched by a run of the upper one when
each step is matched by some number of upper steps. -/
theorem Run.simulate (astep : τ → κ → τ → Prop) (a₀ : τ) (R : List ℓ → σ → τ → Prop)
    (hinit : R [] s₀ a₀)
    (hsim : ∀ ls l s s' a, Run step s₀ ls s → R ls s a → step s l s' →
      ∃ ks a', Run astep a ks a' ∧ R (ls ++ [l]) s' a')
    (h : Run step s₀ ls s) : ∃ ks a, Run astep a₀ ks a ∧ R ls s a := by
  induction h with
  | nil => exact ⟨[], a₀, .nil, hinit⟩
  | snoc hr hl ih =>
      obtain ⟨ks, a, ha, hR⟩ := ih
      obtain ⟨ks', a', ha', hR'⟩ := hsim _ _ _ _ _ hr hR hl
      exact ⟨ks ++ ks', a', ha.append ha', hR'⟩

/-- A goal is reached when, short of it, a bounded potential can always be
raised by one more step that keeps the invariant. -/
theorem exists_run_of_potential (step : σ → ℓ → σ → Prop) (I goal : List ℓ → σ → Prop) (Φ : List ℓ → σ → Nat) (B : Nat)
    (hstep : ∀ ls s, I ls s → ¬ goal ls s → Φ ls s ≤ B ∧
      ∃ l s', step s l s' ∧ I (ls ++ [l]) s' ∧ Φ ls s < Φ (ls ++ [l]) s')
    (hinit : I [] s₀) : ∃ ls s, Run step s₀ ls s ∧ I ls s ∧ goal ls s := by
  suffices h : ∀ n ls s, B + 1 - Φ ls s ≤ n → Run step s₀ ls s → I ls s →
      ∃ ls s, Run step s₀ ls s ∧ I ls s ∧ goal ls s from
    h _ [] s₀ (Nat.le_refl _) .nil hinit
  intro n
  induction n with
  | zero =>
      intro ls s hn hr hi
      by_cases hg : goal ls s
      · exact ⟨ls, s, hr, hi, hg⟩
      · have := (hstep ls s hi hg).1
        omega
  | succ n ih =>
      intro ls s hn hr hi
      by_cases hg : goal ls s
      · exact ⟨ls, s, hr, hi, hg⟩
      · obtain ⟨_, l, s', hl, hi', hlt⟩ := hstep ls s hi hg
        exact ih (ls ++ [l]) s' (by omega) (.snoc hr hl) hi'

/-- Whatever steps are taken, the goal is reached: no run goes on for ever or
ends short of it. -/
inductive Inevitable (step : σ → ℓ → σ → Prop) (goal : σ → Prop) : σ → Prop
  | now {u : σ} (h : goal u) : Inevitable step goal u
  | later {u : σ} (hgo : ∃ l t, step u l t) (h : ∀ l t, step u l t → Inevitable step goal t) : Inevitable step goal u

theorem Inevitable.reachable {goal : σ → Prop} (h : Inevitable step goal s) : ∃ t, Reachable step s t ∧ goal t := by
  induction h with
  | now hg => exact ⟨_, .refl step _, hg⟩
  | later hgo _ ih =>
      obtain ⟨l, t, hl⟩ := hgo
      obtain ⟨u, hr, hg⟩ := ih l t hl
      exact ⟨u, (Run.single hl).reachable.trans hr, hg⟩

theorem Inevitable.next {goal : σ → Prop} {l : ℓ} (h : Inevitable step goal s) (hgoal : ¬ goal s) (hl : step s l s') :
    Inevitable step goal s' := by
  cases h with
  | now hg => exact absurd hg hgoal
  | later _ hall => exact hall l s' hl

/-- The rule for programs that cannot go on for ever: a rank falls with every
step, and short of the goal there is one. -/
theorem inevitable_of_rank {I goal : σ → Prop} (rank : σ → Nat)
    (hstep : ∀ s, I s → ¬ goal s → (∃ l t, step s l t) ∧ ∀ l t, step s l t → I t ∧ rank t < rank s) (hs : I s) :
    Inevitable step goal s := by
  induction hn : rank s using Nat.strongRecOn generalizing s with
  | _ n ih =>
      by_cases hg : goal s
      · exact .now hg
      · obtain ⟨hgo, hfall⟩ := hstep s hs hg
        refine .later hgo (fun l t hl => ?_)
        obtain ⟨ht, hlt⟩ := hfall l t hl
        exact ih (rank t) (hn ▸ hlt) ht rfl

end UnixProg.Lib.Transition

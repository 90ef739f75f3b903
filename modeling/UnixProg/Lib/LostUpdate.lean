import UnixProg.Lib.Transition
import Mathlib.Algebra.Order.Monoid.Defs
import Mathlib.Algebra.Order.Monoid.Unbundled.Basic
import Mathlib.Data.List.Induction

namespace UnixProg.Lib.LostUpdate

open Transition

variable {T α : Type}

/-- The two halves of an addition that is not atomic. -/
inductive Access (T : Type)
  | load (t : T)
  | store (t : T)
deriving DecidableEq

/-- A shared cell beside the sum that it is meant to hold. `seen` is what a
thread between its load and its store has loaded. -/
structure Cell (T α : Type) where
  x : α
  total : α
  seen : T → Option α

def Cell.start (x : α) : Cell T α := ⟨x, x, fun _ => none⟩

inductive Step [DecidableEq T] [AddCommMonoid α] [LinearOrder α] : Cell T α → Access T → Cell T α → Prop
  | load (x total seen t) : Step ⟨x, total, seen⟩ (.load t) ⟨x, total, Function.update seen t (some x)⟩
  | store (x total seen t) (v d : α) (hv : seen t = some v) (hd : 0 < d) :
      Step ⟨x, total, seen⟩ (.store t) ⟨v + d, total + d, Function.update seen t none⟩

/-- What has happened since the load of a thread that has not stored yet. -/
def Since (t : T) (ls after : List (Access T)) : Prop :=
  (∃ before, ls = before ++ .load t :: after) ∧ .load t ∉ after ∧ .store t ∉ after

def Stale (t : T) (ls : List (Access T)) : Prop := ∃ after, Since t ls after ∧ ∃ u, .store u ∈ after

/-- Some store was preceded by a store of another thread that came after the
load it belongs to. -/
def Lost (ls : List (Access T)) : Prop := ∃ t before after, ls = before ++ .store t :: after ∧ Stale t before

variable {ls after : List (Access T)} {l : Access T} {t u : T}

theorem since_concat : Since t (ls ++ [l]) after ↔
    l = .load t ∧ after = [] ∨ ∃ as, after = as ++ [l] ∧ Since t ls as ∧ l ≠ .load t ∧ l ≠ .store t := by
  constructor
  · rintro ⟨⟨before, hls⟩, hload, hstore⟩
    induction after using List.reverseRecOn with
    | nil =>
        obtain ⟨_, hl⟩ := List.append_inj' hls rfl
        exact .inl ⟨List.singleton_inj.mp hl, rfl⟩
    | append_singleton as a _ =>
        rw [← List.cons_append, ← List.append_assoc] at hls
        obtain ⟨hbefore, hl⟩ := List.append_inj' hls rfl
        obtain rfl := List.singleton_inj.mp hl
        simp only [List.mem_append, List.mem_singleton, not_or] at hload hstore
        exact .inr ⟨as, rfl, ⟨⟨before, hbefore⟩, hload.1, hstore.1⟩, Ne.symm hload.2, Ne.symm hstore.2⟩
  · rintro (⟨rfl, rfl⟩ | ⟨as, rfl, ⟨⟨before, rfl⟩, hload, hstore⟩, hl, hs⟩)
    · exact ⟨⟨ls, rfl⟩, List.not_mem_nil, List.not_mem_nil⟩
    · exact ⟨⟨before, by simp⟩, by simp [hload, hl.symm], by simp [hstore, hs.symm]⟩

theorem stale_load : Stale t (ls ++ [.load u]) ↔ u ≠ t ∧ Stale t ls := by
  constructor
  · rintro ⟨after, hsince, v, hv⟩
    rcases since_concat.mp hsince with ⟨_, rfl⟩ | ⟨as, rfl, hsince, hne, _⟩
    · exact absurd hv List.not_mem_nil
    · exact ⟨fun h => hne (h ▸ rfl), as, hsince, v, by simpa using hv⟩
  · rintro ⟨hne, after, hsince, v, hv⟩
    exact ⟨_, since_concat.mpr (.inr ⟨after, rfl, hsince, by simpa using hne, by simp⟩), v, List.mem_append_left _ hv⟩

theorem stale_store : Stale t (ls ++ [.store u]) ↔ u ≠ t ∧ ∃ after, Since t ls after := by
  constructor
  · rintro ⟨after, hsince, _⟩
    rcases since_concat.mp hsince with ⟨h, _⟩ | ⟨as, _, hsince, _, hne⟩
    · cases h
    · exact ⟨fun h => hne (h ▸ rfl), as, hsince⟩
  · rintro ⟨hne, after, hsince⟩
    exact ⟨_, since_concat.mpr (.inr ⟨after, rfl, hsince, by simp, by simpa using hne⟩), u, by simp⟩

theorem lost_concat : Lost (ls ++ [l]) ↔ Lost ls ∨ ∃ t, l = .store t ∧ Stale t ls := by
  constructor
  · rintro ⟨t, before, after, hls, hstale⟩
    induction after using List.reverseRecOn with
    | nil =>
        obtain ⟨rfl, hl⟩ := List.append_inj' hls rfl
        exact .inr ⟨t, List.singleton_inj.mp hl, hstale⟩
    | append_singleton as a _ =>
        rw [← List.cons_append, ← List.append_assoc] at hls
        exact .inl ⟨t, before, as, (List.append_inj' hls rfl).1, hstale⟩
  · rintro (⟨t, before, after, rfl, hstale⟩ | ⟨t, rfl, hstale⟩)
    · exact ⟨t, before, after ++ [l], by simp, hstale⟩
    · exact ⟨t, ls, [], rfl, hstale⟩

variable [LinearOrder α] {c : Cell T α}

/-- A thread that nobody has overtaken still holds the value of the cell; one
that was overtaken holds less than the sum. -/
structure Inv (ls : List (Access T)) (c : Cell T α) : Prop where
  exact (h : ¬ Lost ls) : c.x = c.total
  short (h : Lost ls) : c.x < c.total
  since (t v) (h : c.seen t = some v) : ∃ after, Since t ls after
  fresh (t v) (h : c.seen t = some v) (hs : ¬ Stale t ls) : v = c.x
  stale (t v) (h : c.seen t = some v) (hs : Stale t ls) : v < c.total

theorem Inv.le (h : Inv ls c) : c.x ≤ c.total := by
  by_cases hlost : Lost ls
  · exact (h.short hlost).le
  · exact (h.exact hlost).le

theorem Inv.seen_le (h : Inv ls c) {v : α} (hv : c.seen t = some v) : v ≤ c.total := by
  by_cases hs : Stale t ls
  · exact (h.stale t v hv hs).le
  · exact (h.fresh t v hv hs).trans_le h.le

variable [DecidableEq T]

theorem inv_load {x total : α} {seen : T → Option α} (h : Inv ls ⟨x, total, seen⟩) (t : T) :
    Inv (ls ++ [.load t]) ⟨x, total, Function.update seen t (some x)⟩ := by
  have hlost : Lost (ls ++ [.load t]) ↔ Lost ls := by simp [lost_concat]
  constructor
  · exact fun hl => h.exact (hlost.not.mp hl)
  · exact fun hl => h.short (hlost.mp hl)
  · intro u v hv
    by_cases hu : u = t
    · exact ⟨[], since_concat.mpr (.inl ⟨by rw [hu], rfl⟩)⟩
    · obtain ⟨after, hsince⟩ := h.since u v (by simpa [hu] using hv)
      exact ⟨_, since_concat.mpr (.inr ⟨after, rfl, hsince, by simpa using Ne.symm hu, by simp⟩)⟩
  · intro u v hv hs
    by_cases hu : u = t
    · subst hu
      simpa [eq_comm] using hv
    · exact h.fresh u v (by simpa [hu] using hv) (fun h' => hs (stale_load.mpr ⟨Ne.symm hu, h'⟩))
  · intro u v hv hs
    obtain ⟨hu, hs⟩ := stale_load.mp hs
    exact h.stale u v (by simpa [Ne.symm hu] using hv) hs

variable [AddCommMonoid α] [IsOrderedCancelAddMonoid α]

theorem inv_store {x total v d : α} {seen : T → Option α} (h : Inv ls ⟨x, total, seen⟩) (t : T)
    (hv : seen t = some v) (hd : 0 < d) :
    Inv (ls ++ [.store t]) ⟨v + d, total + d, Function.update seen t none⟩ := by
  have hlost : Lost (ls ++ [.store t]) ↔ Lost ls ∨ Stale t ls := by simp [lost_concat]
  constructor
  · intro hl
    obtain ⟨hl, hs⟩ := not_or.mp (hlost.not.mp hl)
    exact congrArg (· + d) ((h.fresh t v hv hs).trans (h.exact hl))
  · intro hl
    apply add_lt_add_left
    by_cases hs : Stale t ls
    · exact h.stale t v hv hs
    · exact (h.fresh t v hv hs).trans_lt (h.short ((hlost.mp hl).resolve_right hs))
  · intro u w hw
    by_cases hu : u = t
    · simp [hu] at hw
    · obtain ⟨after, hsince⟩ := h.since u w (by simpa [hu] using hw)
      exact ⟨_, since_concat.mpr (.inr ⟨after, rfl, hsince, by simp, by simpa using Ne.symm hu⟩)⟩
  · intro u w hw hs
    by_cases hu : u = t
    · simp [hu] at hw
    · exact absurd (stale_store.mpr ⟨Ne.symm hu, h.since u w (by simpa [hu] using hw)⟩) hs
  · intro u w hw _
    by_cases hu : u = t
    · simp [hu] at hw
    · have hle : w ≤ total := h.seen_le (t := u) (by simpa [hu] using hw)
      exact hle.trans_lt (lt_add_of_pos_right total hd)

theorem run_inv (x : α) (h : Run Step (Cell.start x) ls c) : Inv ls c := by
  induction h with
  | nil =>
      have hnil : ¬ Lost ([] : List (Access T)) := by
        rintro ⟨_, before, after, hls, _⟩
        simp at hls
      exact ⟨fun _ => rfl, fun hl => absurd hl hnil, nofun, nofun, nofun⟩
  | snoc _ hl ih =>
      cases hl with
      | load x total seen t => exact inv_load ih t
      | store x total seen t v d hv hd => exact inv_store ih t hv hd

theorem run_start_le (x : α) (h : Run Step (Cell.start x) ls c) : x ≤ c.x ∧ ∀ t v, c.seen t = some v → x ≤ v := by
  induction h with
  | nil => exact ⟨le_rfl, nofun⟩
  | snoc _ hl ih =>
      cases hl with
      | load y total seen t =>
          refine ⟨ih.1, fun u v hv => ?_⟩
          by_cases hu : u = t
          · have hvy : y = v := by simpa [hu] using hv
            exact hvy ▸ ih.1
          · exact ih.2 u v (by simpa [hu] using hv)
      | store y total seen t v d hv hd =>
          refine ⟨(ih.2 t v hv).trans (le_add_of_nonneg_right hd.le), fun u w hw => ?_⟩
          by_cases hu : u = t
          · simp [hu] at hw
          · exact ih.2 u w (by simpa [hu] using hw)

/-- The cell tells exactly whether an update was lost. -/
theorem run_lost_iff (x : α) (h : Run Step (Cell.start x) ls c) : (c.x ≠ c.total ↔ Lost ls) ∧ c.x ≤ c.total := by
  have hinv := run_inv x h
  exact ⟨⟨fun hne => by_contra (fun hl => hne (hinv.exact hl)), fun hl => (hinv.short hl).ne⟩, hinv.le⟩

end UnixProg.Lib.LostUpdate

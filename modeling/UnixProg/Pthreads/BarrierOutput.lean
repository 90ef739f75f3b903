import Mathlib.Data.List.Basic
import Mathlib.Tactic.Common

namespace UnixProg.Pthreads.BarrierOutput

/-- What the barrier programs print: the id of a thread on its way to the
barrier, and a newline for each barrier that everybody has reached. -/
inductive Token (T : Type)
  | id (t : T)
  | newline
deriving DecidableEq

variable {T : Type} [DecidableEq T]

def prints (out : List (Token T)) (t : T) : Nat := out.count (.id t)

def newlines (out : List (Token T)) : Nat := out.count .newline

/-- At the k-th newline each id has been printed exactly k times. -/
def Aligned (out : List (Token T)) : Prop :=
  ∀ pre post, out = pre ++ .newline :: post → ∀ t, prints pre t = newlines pre + 1

theorem aligned_nil : Aligned ([] : List (Token T)) := by
  intro pre post h
  simp at h

omit [DecidableEq T] in
theorem split_snoc {out pre post : List (Token T)} {x y : Token T} (he : out ++ [x] = pre ++ y :: post) :
    out = pre ∧ x = y ∨ ∃ post', out = pre ++ y :: post' := by
  rcases List.eq_nil_or_concat' post with rfl | ⟨post', z, rfl⟩
  · obtain ⟨ho, hx⟩ := List.append_inj' he rfl
    exact .inl ⟨ho, by simpa using hx⟩
  · rw [← List.cons_append, ← List.append_assoc] at he
    exact .inr ⟨post', List.append_inj_left' he rfl⟩

theorem Aligned.snoc_id {out : List (Token T)} (h : Aligned out) (t : T) : Aligned (out ++ [.id t]) := by
  intro pre post he
  rcases split_snoc he with ⟨_, hx⟩ | ⟨post', ho⟩
  · cases hx
  · exact h pre post' ho

theorem Aligned.snoc_newline {out : List (Token T)} (h : Aligned out)
    (hall : ∀ t, prints out t = newlines out + 1) : Aligned (out ++ [.newline]) := by
  intro pre post he
  rcases split_snoc he with ⟨ho, _⟩ | ⟨post', ho⟩
  · exact ho ▸ hall
  · exact h pre post' ho

/-- Between two consecutive newlines each id is printed exactly once. -/
theorem Aligned.line {out pre mid post : List (Token T)} (h : Aligned out)
    (he : out = pre ++ .newline :: (mid ++ .newline :: post)) (hmid : .newline ∉ mid) (t : T) :
    mid.count (.id t) = 1 := by
  have hfst := h pre _ he t
  have hsnd := h (pre ++ .newline :: mid) post (by simp [he]) t
  have hzero : mid.count .newline = 0 := List.count_eq_zero.mpr hmid
  simp only [prints, newlines, List.count_append, List.count_cons] at hfst hsnd
  simp only [beq_self_eq_true, if_true, hzero, beq_iff_eq, reduceCtorEq, if_false] at hsnd
  omega

end UnixProg.Pthreads.BarrierOutput

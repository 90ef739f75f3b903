import Mathlib.Order.Nat
import Mathlib.Tactic.Common

namespace UnixProg.Lib.Getopt

/-- Which letters are options, and whether they take an argument. -/
abbrev Spec := Char → Option Bool

inductive Result
  | option (c : Char) (optarg : Option String)
  | missing (c : Char)
  | unknown (c : Char)
deriving DecidableEq

/-- The index of the word that is looked at next, or with letters left the
index of the word they belong to. -/
structure Scan where
  optind : Nat
  nextchar : List Char

inductive Answer
  | done (optind : Nat)
  | result (r : Result) (s : Scan)

/-- In a word of which some letters are left, or none any more. -/
def Scan.after (optind : Nat) (cs : List Char) : Scan := if cs = [] then ⟨optind + 1, []⟩ else ⟨optind, cs⟩

def letter (spec : Spec) (argv : List String) (optind : Nat) (c : Char) (cs : List Char) : Answer :=
  match spec c with
  | none => .result (.unknown c) (.after optind cs)
  | some false => .result (.option c none) (.after optind cs)
  | some true =>
      if cs ≠ [] then .result (.option c (some (String.ofList cs))) ⟨optind + 1, []⟩
      else match argv[optind + 1]? with
        | none => .result (.missing c) ⟨optind + 1, []⟩
        | some optarg => .result (.option c (some optarg)) ⟨optind + 2, []⟩

/-- One call, on an argument vector whose first word is never looked at. The
options end at the first operand, as POSIX has it. That of glibc goes on behind
the operands unless POSIXLY_CORRECT is set. -/
def getopt (spec : Spec) (argv : List String) (s : Scan) : Answer :=
  match s.nextchar with
  | c :: cs => letter spec argv s.optind c cs
  | [] => match argv[s.optind]? with
    | none => .done s.optind
    | some word => match word.toList with
      | ['-', '-'] => .done (s.optind + 1)
      | '-' :: c :: cs => letter spec argv s.optind c cs
      | _ => .done s.optind

def start : Scan := ⟨1, []⟩

def Scan.words (s : Scan) (argv : List String) : List String :=
  argv.drop (if s.nextchar = [] then s.optind else s.optind + 1)

/-- The characters of some words, with one more for each of them. -/
def chars : List String → Nat
  | [] => 0
  | w :: ws => w.toList.length + 1 + chars ws

def Scan.left (s : Scan) (argv : List String) : Nat := s.nextchar.length + chars (s.words argv)

variable {spec : Spec} {argv ws ops : List String} {s s' : Scan} {c : Char} {cs : List Char} {r : Result} {rs : List Result}
  {optind i : Nat}

theorem chars_drop_le (ws : List String) (n : Nat) : chars (ws.drop n) ≤ chars ws := by
  induction n generalizing ws with
  | zero => exact Nat.le_refl _
  | succ n ih =>
      cases ws with
      | nil => exact Nat.le_refl _
      | cons w ws => exact (ih ws).trans (Nat.le_add_left _ _)

@[simp] theorem words_between (i : Nat) (argv : List String) : Scan.words ⟨i, []⟩ argv = argv.drop i := rfl

@[simp] theorem words_within (i : Nat) (c : Char) (cs : List Char) (argv : List String) :
    Scan.words ⟨i, c :: cs⟩ argv = argv.drop (i + 1) := rfl

@[simp] theorem after_nextchar (i : Nat) (cs : List Char) : (Scan.after i cs).nextchar = cs := by
  cases cs <;> rfl

@[simp] theorem after_words (i : Nat) (cs : List Char) (argv : List String) : (Scan.after i cs).words argv = argv.drop (i + 1) := by
  cases cs <;> rfl

theorem left_next (h : optind < i) : Scan.left ⟨i, []⟩ argv ≤ chars (argv.drop (optind + 1)) := by
  obtain ⟨k, rfl⟩ := Nat.exists_eq_add_of_le h
  have hle := chars_drop_le (argv.drop (optind + 1)) k
  rw [List.drop_drop] at hle
  simpa [Scan.left] using hle

theorem letter_left (h : letter spec argv optind c cs = .result r s) :
    s.left argv ≤ cs.length + chars (argv.drop (optind + 1)) := by
  have hnext (j : Nat) (hj : optind < j) : Scan.left ⟨j, []⟩ argv ≤ cs.length + chars (argv.drop (optind + 1)) :=
    (left_next hj).trans (Nat.le_add_left _ _)
  have hafter : Scan.left (.after optind cs) argv = cs.length + chars (argv.drop (optind + 1)) := by
    rw [Scan.left, after_nextchar, after_words]
  simp only [letter] at h
  split at h
  · cases h
    exact hafter.le
  · cases h
    exact hafter.le
  · split at h
    · cases h
      exact hnext _ (Nat.lt_succ_self _)
    · split at h <;> cases h
      · exact hnext _ (Nat.lt_succ_self _)
      · exact hnext _ (by omega)

/-- Every result takes at least one character. -/
theorem getopt_left (h : getopt spec argv s = .result r s') : s'.left argv < s.left argv := by
  obtain ⟨optind, nextchar⟩ := s
  simp only [getopt] at h
  split at h
  · rename_i c cs
    have hle := letter_left h
    change s'.left argv < cs.length + 1 + chars (argv.drop (optind + 1))
    omega
  · split at h
    · cases h
    · rename_i word hword
      obtain ⟨hlt, hget⟩ := List.getElem?_eq_some_iff.mp hword
      split at h
      · cases h
      · rename_i c cs _ hchars
        have hle := letter_left h
        have hleft : Scan.left ⟨optind, []⟩ argv = 0 + (cs.length + 1 + 1 + 1 + chars (argv.drop (optind + 1))) := by
          rw [Scan.left, words_between, List.drop_eq_getElem_cons hlt, hget, chars, hchars]
          rfl
        omega
      · cases h

variable {σ ε : Type} {body : σ → Result → Except ε σ} {a a' : σ}

/-- The usual loop of a program, until there are no more options or its body
gives up. -/
def loop (spec : Spec) (argv : List String) (body : σ → Result → Except ε σ) (a : σ) (s : Scan) : Except ε (σ × Nat) :=
  match _h : getopt spec argv s with
  | .done optind => .ok (a, optind)
  | .result r s' => match body a r with
    | .error e => .error e
    | .ok a' => loop spec argv body a' s'
termination_by s.left argv
decreasing_by exact getopt_left _h

theorem loop_done (h : getopt spec argv s = .done optind) : loop spec argv body a s = .ok (a, optind) := by
  rw [loop]
  split
  · rename_i heq
    rw [heq] at h
    cases h
    rfl
  · rename_i heq
    rw [heq] at h
    cases h

theorem loop_result (h : getopt spec argv s = .result r s') :
    loop spec argv body a s = (body a r).bind (fun a => loop spec argv body a s') := by
  rw [loop]
  split
  · rename_i heq
    rw [heq] at h
    cases h
  · rename_i heq
    rw [heq] at h
    cases h
    cases body a r <;> rfl

/-- The results of the calls, one after the other, and the last index. -/
inductive Answers (spec : Spec) (argv : List String) : Scan → List Result → Nat → Prop
  | done {s : Scan} {i : Nat} (h : getopt spec argv s = .done i) : Answers spec argv s [] i
  | result {s s' : Scan} {r : Result} {rs : List Result} {i : Nat} (h : getopt spec argv s = .result r s')
      (hs : Answers spec argv s' rs i) : Answers spec argv s (r :: rs) i

theorem exists_answers (spec : Spec) (argv : List String) (s : Scan) : ∃ rs i, Answers spec argv s rs i := by
  induction hn : s.left argv using Nat.strongRecOn generalizing s with
  | _ n ih =>
      cases h : getopt spec argv s with
      | done i => exact ⟨[], i, .done h⟩
      | result r s' =>
          obtain ⟨rs, i, hs⟩ := ih _ (hn ▸ getopt_left h) s' rfl
          exact ⟨r :: rs, i, .result h hs⟩

theorem loop_answers (body : σ → Result → Except ε σ) (a : σ) (h : Answers spec argv s rs i) :
    loop spec argv body a s = (rs.foldlM body a).map (·, i) := by
  induction h generalizing a with
  | done h => exact loop_done h
  | result h hs ih =>
      rename_i r rs i
      rw [loop_result h, List.foldlM_cons]
      cases hb : body a r with
      | error e => rfl
      | ok a' => exact ih a'

/-- What the letters left of a word and the words after it are: options in the
order in which they come, and then operands. -/
inductive Parses (spec : Spec) : List Char → List String → List Result → List String → Prop
  | flag {c : Char} {cs : List Char} {ws rs ops} (h : spec c = some false) (hr : Parses spec cs ws rs ops) :
      Parses spec (c :: cs) ws (.option c none :: rs) ops
  | attached {c : Char} {cs : List Char} {ws rs ops} (h : spec c = some true) (hcs : cs ≠ []) (hr : Parses spec [] ws rs ops) :
      Parses spec (c :: cs) ws (.option c (some (String.ofList cs)) :: rs) ops
  | separate {c : Char} {w ws rs ops} (h : spec c = some true) (hr : Parses spec [] ws rs ops) :
      Parses spec [c] (w :: ws) (.option c (some w) :: rs) ops
  | word {w : String} {c : Char} {cs : List Char} {ws rs ops} (hw : w.toList = '-' :: c :: cs) (hne : c :: cs ≠ ['-'])
      (hr : Parses spec (c :: cs) ws rs ops) : Parses spec [] (w :: ws) rs ops
  | dashes {w : String} {ops} (hw : w.toList = ['-', '-']) : Parses spec [] (w :: ops) [] ops
  | operands {ops : List String} (h : ∀ w ∈ ops.head?, ∀ c cs, w.toList ≠ '-' :: c :: cs) : Parses spec [] ops [] ops

theorem drop_cons {w : String} (h : argv.drop i = w :: ws) : argv[i]? = some w ∧ argv.drop (i + 1) = ws := by
  constructor
  · rw [← List.head?_drop, h, List.head?_cons]
  · rw [← List.tail_drop, h, List.tail_cons]

theorem getopt_word (spec : Spec) {w : String} (hi : argv[i]? = some w) (hw : w.toList = '-' :: c :: cs) (hne : c :: cs ≠ ['-']) :
    getopt spec argv ⟨i, []⟩ = letter spec argv i c cs := by
  simp only [getopt, hi, hw]
  split
  · rename_i heq
    exact absurd (List.cons.inj heq).2 hne
  · rename_i heq
    cases heq
    rfl
  · rename_i hnot
    exact absurd rfl (hnot c cs)

theorem getopt_operands (h : ∀ w ∈ (argv.drop i).head?, ∀ c cs, w.toList ≠ '-' :: c :: cs) :
    getopt spec argv ⟨i, []⟩ = .done i := by
  rw [List.head?_drop] at h
  simp only [getopt]
  split
  · rfl
  · rename_i w hw
    split
    · rename_i heq
      exact absurd heq (h w hw _ _)
    · rename_i heq
      exact absurd heq (h w hw _ _)
    · rfl

/-- The calls read a well-formed command line to its operands. -/
theorem answers_of_parses (argv : List String) (s : Scan) (h : Parses spec cs ws rs ops) (hcs : s.nextchar = cs)
    (hws : s.words argv = ws) : ∃ i, argv.drop i = ops ∧ Answers spec argv s rs i := by
  induction h generalizing s with
  | flag h hr ih =>
      obtain ⟨optind, nextchar⟩ := s
      subst hcs
      obtain ⟨i, hi, hs⟩ := ih _ (after_nextchar optind _) ((after_words ..).trans hws)
      exact ⟨i, hi, .result (by simp [getopt, letter, h]) hs⟩
  | attached h hne hr ih =>
      obtain ⟨optind, nextchar⟩ := s
      subst hcs
      obtain ⟨i, hi, hs⟩ := ih ⟨optind + 1, []⟩ rfl hws
      exact ⟨i, hi, .result (by simp [getopt, letter, h, hne]) hs⟩
  | separate h hr ih =>
      obtain ⟨optind, nextchar⟩ := s
      subst hcs
      rw [words_within] at hws
      obtain ⟨hw, hws⟩ := drop_cons hws
      obtain ⟨i, hi, hs⟩ := ih ⟨optind + 2, []⟩ rfl hws
      exact ⟨i, hi, .result (by simp [getopt, letter, h, hw]) hs⟩
  | word hw hne hr ih =>
      obtain ⟨optind, nextchar⟩ := s
      subst hcs
      rw [words_between] at hws
      obtain ⟨hget, hws⟩ := drop_cons hws
      obtain ⟨i, hi, hs⟩ := ih ⟨optind, _⟩ rfl hws
      refine ⟨i, hi, ?_⟩
      have hsame := getopt_word spec hget hw hne
      cases hs with
      | done h => exact .done (hsame.trans h)
      | result h hs => exact .result (hsame.trans h) hs
  | dashes hw =>
      obtain ⟨optind, nextchar⟩ := s
      subst hcs
      rw [words_between] at hws
      obtain ⟨hget, hws⟩ := drop_cons hws
      exact ⟨optind + 1, hws, .done (by simp [getopt, hget, hw])⟩
  | operands h =>
      obtain ⟨optind, nextchar⟩ := s
      subst hcs
      subst hws
      exact ⟨optind, rfl, .done (getopt_operands h)⟩

def Accepted (rs : List Result) : Prop := ∀ r ∈ rs, ∃ c optarg, r = .option c optarg

theorem parses_letter {c' : Char} {optarg : Option String} (h : letter spec argv i c cs = .result (.option c' optarg) s)
    (hs : Parses spec s.nextchar (s.words argv) rs ops) :
    Parses spec (c :: cs) (argv.drop (i + 1)) (.option c' optarg :: rs) ops := by
  simp only [letter] at h
  split at h
  · cases h
  · cases h
    rw [after_nextchar, after_words] at hs
    exact .flag ‹_› hs
  · split at h
    · cases h
      exact .attached ‹_› ‹_› hs
    · rename_i hspec hcs
      rw [not_not.mp hcs]
      split at h
      · cases h
      · rename_i w hw
        cases h
        obtain ⟨hlt, hget⟩ := List.getElem?_eq_some_iff.mp hw
        rw [List.drop_eq_getElem_cons hlt, hget]
        exact .separate hspec hs

theorem letter_not_done (h : letter spec argv optind c cs = .done i) : False := by
  simp only [letter] at h
  split at h
  · cases h
  · cases h
  · split at h
    · cases h
    · split at h <;> cases h

theorem parses_done (h : getopt spec argv s = .done i) : Parses spec s.nextchar (s.words argv) [] (argv.drop i) := by
  obtain ⟨optind, nextchar⟩ := s
  simp only [getopt] at h
  split at h
  · exact (letter_not_done h).elim
  · rw [words_between]
    split at h
    · cases h
      rename_i hget
      rw [List.drop_eq_nil_of_le (List.getElem?_eq_none_iff.mp hget)]
      exact .operands (fun w hw => by cases hw)
    · rename_i w hw
      split at h
      · cases h
        obtain ⟨hlt, hget⟩ := List.getElem?_eq_some_iff.mp hw
        rw [List.drop_eq_getElem_cons hlt, hget]
        exact .dashes ‹_›
      · exact (letter_not_done h).elim
      · cases h
        rename_i hnot
        refine .operands (fun w' hw' c cs heq => ?_)
        rw [List.head?_drop, hw] at hw'
        cases hw'
        exact hnot c cs heq

theorem parses_result {optarg : Option String} (h : getopt spec argv s = .result (.option c optarg) s')
    (hs : Parses spec s'.nextchar (s'.words argv) rs ops) :
    Parses spec s.nextchar (s.words argv) (.option c optarg :: rs) ops := by
  obtain ⟨optind, nextchar⟩ := s
  simp only [getopt] at h
  split at h
  · exact parses_letter h hs
  · rw [words_between]
    split at h
    · cases h
    · rename_i w hw
      obtain ⟨hlt, hget⟩ := List.getElem?_eq_some_iff.mp hw
      rw [List.drop_eq_getElem_cons hlt, hget]
      split at h
      · cases h
      · rename_i hdashes hchars
        refine .word hchars (fun heq => ?_) (parses_letter h hs)
        obtain ⟨hc, hcs⟩ := List.cons.inj heq
        exact hdashes hc hcs
      · cases h

/-- A command line that is read without a complaint is well-formed. -/
theorem parses_of_answers (h : Answers spec argv s rs i) (hrs : Accepted rs) :
    Parses spec s.nextchar (s.words argv) rs (argv.drop i) := by
  induction h with
  | done h => exact parses_done h
  | result h hs ih =>
      obtain ⟨c, optarg, rfl⟩ := hrs _ List.mem_cons_self
      exact parses_result h (ih (fun r hr => hrs r (List.mem_cons_of_mem _ hr)))

theorem getopt_tail {w w' : String} (h : 0 < s.optind) : getopt spec (w :: ws) s = getopt spec (w' :: ws) s := by
  have hget (j : Nat) (hj : 0 < j) : (w :: ws)[j]? = (w' :: ws)[j]? := by
    obtain ⟨k, rfl⟩ := Nat.exists_eq_add_of_lt hj
    simp
  simp only [getopt, letter, hget _ h, hget _ (Nat.zero_lt_succ _)]

theorem letter_optind (h : letter spec argv optind c cs = .result r s) : optind ≤ s.optind := by
  have hafter : optind ≤ (Scan.after optind cs).optind := by
    cases cs
    · exact Nat.le_succ optind
    · exact Nat.le_refl optind
  simp only [letter] at h
  split at h
  · cases h
    exact hafter
  · cases h
    exact hafter
  · split at h
    · cases h
      exact Nat.le_succ optind
    · split at h <;> cases h
      · exact Nat.le_succ optind
      · exact Nat.le_add_right optind 2

theorem getopt_optind (h : getopt spec argv s = .result r s') : s.optind ≤ s'.optind := by
  simp only [getopt] at h
  split at h
  · exact letter_optind h
  · split at h
    · cases h
    · split at h
      · cases h
      · exact letter_optind h
      · cases h

theorem done_optind (h : getopt spec argv s = .done i) : s.optind ≤ i := by
  simp only [getopt] at h
  split at h
  · exact (letter_not_done h).elim
  · split at h
    · cases h
      exact Nat.le_refl _
    · split at h
      · cases h
        exact Nat.le_succ _
      · exact (letter_not_done h).elim
      · cases h
        exact Nat.le_refl _

theorem answers_optind (h : Answers spec argv s rs i) : s.optind ≤ i := by
  induction h with
  | done h => exact done_optind h
  | result h hs ih => exact (getopt_optind h).trans ih

theorem answers_tail {w w' : String} (h : Answers spec (w :: ws) s rs i) (hs : 0 < s.optind) :
    Answers spec (w' :: ws) s rs i := by
  induction h with
  | done h => exact .done ((getopt_tail hs).symm.trans h)
  | result h hs' ih => exact .result ((getopt_tail hs).symm.trans h) (ih (hs.trans_le (getopt_optind h)))

theorem answers_unique {rs' : List Result} {j : Nat} (h : Answers spec argv s rs i) (h' : Answers spec argv s rs' j) :
    rs = rs' ∧ i = j := by
  induction h generalizing rs' with
  | done h =>
      cases h' with
      | done h' =>
          rw [h] at h'
          cases h'
          exact ⟨rfl, rfl⟩
      | result h' hs' =>
          rw [h] at h'
          cases h'
  | result h hs ih =>
      cases h' with
      | done h' =>
          rw [h] at h'
          cases h'
      | result h' hs' =>
          rw [h] at h'
          cases h'
          obtain ⟨rfl, rfl⟩ := ih hs'
          exact ⟨rfl, rfl⟩

theorem parses_option (h : Parses spec cs ws rs ops) : ∀ r ∈ rs, ∃ c optarg, r = .option c optarg ∧ spec c = some optarg.isSome := by
  induction h with
  | flag h hr ih => exact List.forall_mem_cons.mpr ⟨⟨_, _, rfl, h⟩, ih⟩
  | attached h hcs hr ih => exact List.forall_mem_cons.mpr ⟨⟨_, _, rfl, h⟩, ih⟩
  | separate h hr ih => exact List.forall_mem_cons.mpr ⟨⟨_, _, rfl, h⟩, ih⟩
  | word hw hne hr ih => exact ih
  | dashes hw => exact fun r hr => absurd hr List.not_mem_nil
  | operands h => exact fun r hr => absurd hr List.not_mem_nil

def optargs : List Result → List String
  | [] => []
  | .option _ (some optarg) :: rs => optarg :: optargs rs
  | _ :: rs => optargs rs

theorem Accepted.tail (h : Accepted (r :: rs)) : Accepted rs := fun r' hr => h r' (List.mem_cons_of_mem r hr)

/-- A body that sets one variable from the argument of each option: the last
one counts. -/
theorem foldlM_accepted {f : String → σ} (hsome : ∀ a c x, body a (.option c (some x)) = .ok (f x))
    (hnone : ∀ a c, body a (.option c none) = .ok a) (h : Accepted rs) (a : σ) :
    rs.foldlM body a = .ok (((optargs rs).getLast?.map f).getD a) := by
  induction rs generalizing a with
  | nil => rfl
  | cons r rs ih =>
      obtain ⟨c, optarg, rfl⟩ := h _ List.mem_cons_self
      have hrest := ih h.tail
      cases optarg with
      | none =>
          rw [List.foldlM_cons, hnone]
          exact hrest a
      | some optarg =>
          rw [List.foldlM_cons, hsome, optargs, List.getLast?_cons]
          refine (hrest (f optarg)).trans ?_
          cases (optargs rs).getLast? <;> rfl

theorem foldlM_refused (hoption : ∀ a c optarg, ∃ a', body a (.option c optarg) = .ok a')
    (hother : ∀ a r, (∀ c optarg, r ≠ .option c optarg) → ∃ e, body a r = .error e) (h : ¬ Accepted rs) (a : σ) :
    ∃ e, rs.foldlM body a = .error e := by
  induction rs generalizing a with
  | nil => exact absurd (fun r hr => absurd hr List.not_mem_nil) h
  | cons r rs ih =>
      by_cases hr : ∃ c optarg, r = .option c optarg
      · obtain ⟨c, optarg, rfl⟩ := hr
        obtain ⟨a', ha'⟩ := hoption a c optarg
        obtain ⟨e, he⟩ := ih (fun hrs => h (List.forall_mem_cons.mpr ⟨⟨c, optarg, rfl⟩, hrs⟩)) a'
        refine ⟨e, ?_⟩
        rw [List.foldlM_cons, ha']
        exact he
      · obtain ⟨e, he⟩ := hother a r (fun c optarg heq => hr ⟨c, optarg, heq⟩)
        refine ⟨e, ?_⟩
        rw [List.foldlM_cons, he]
        rfl

theorem parses_accepted (h : Parses spec cs ws rs ops) : Accepted rs := by
  intro r hr
  obtain ⟨c, optarg, heq, _⟩ := parses_option h r hr
  exact ⟨c, optarg, heq⟩

end UnixProg.Lib.Getopt

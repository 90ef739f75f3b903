import UnixProg.Lib.Getopt

namespace UnixProg.Getopt.Counterparts

open Lib.Getopt

inductive Line
  | usage
  | command (argv1 : String)
  | missing (optopt : Char)
  | unknown (optopt : Char)
  | done
  | code (code : String)
  | filenames (names : List String)
  | noFilenames
deriving DecidableEq

structure Outcome where
  lines : List Line
  status : Nat
deriving DecidableEq

/-- The options of both programs: `-c` with an argument. -/
def spec : Spec := fun c => if c = 'c' then some true else none

/-- The body of the loop of getopt.c, which exits in `usage()`. -/
def setCode (code : Option String) : Result → Except (List Line) (Option String)
  | .option _ none => .ok code
  | .option _ (some optarg) => .ok (some optarg)
  | .missing optopt => .error [.missing optopt, .usage]
  | .unknown optopt => .error [.unknown optopt, .usage]

/-- The program getopt.c, on what stands behind its name. -/
def main : List String → Outcome
  | [] => ⟨[.usage], 1⟩
  | command :: words =>
      let argv := command :: words
      match loop spec argv setCode none start with
      | .error lines => ⟨.command command :: lines, 1⟩
      | .ok (code, optind) =>
          let lines := [.command command, .done] ++ code.elim [] (fun code => [.code code])
          if argv.length - optind = 0 then ⟨lines ++ [.noFilenames], 0⟩
          else ⟨lines ++ [.filenames (argv.drop optind)], 0⟩

/-- The body of the loop of getopts.sh, which prints each code that is set. -/
def echoCode (lines : List Line) : Result → Except (List Line) (List Line)
  | .option _ none => .ok lines
  | .option _ (some optarg) => .ok (lines ++ [.code optarg])
  | .missing _ => .error (lines ++ [.usage])
  | .unknown _ => .error (lines ++ [.usage])

/-- The script getopts.sh, with its name and its parameters. A parameter that
is not there expands to nothing. `echo` is taken to print its operand as it is;
what it makes of a backslash is left to the implementation. -/
def script (name : String) : List String → Outcome
  | [] => ⟨[.usage], 1⟩
  | command :: params =>
      match loop spec (name :: params) echoCode [.command command] start with
      | .error lines => ⟨lines, 1⟩
      | .ok (lines, optind) =>
          let params := params.drop (optind - 1)
          if params.headD "" ≠ "" then ⟨lines ++ [.done, .filenames params], 0⟩
          else ⟨lines ++ [.done, .noFilenames], 0⟩

def Line.command? : Line → Option String
  | .command s => some s
  | _ => none

def Line.code? : Line → Option String
  | .code s => some s
  | _ => none

/-- The list of filenames, which is empty when there are said to be none. -/
def Line.filenames? : Line → Option (List String)
  | .filenames l => some l
  | .noFilenames => some []
  | _ => none

/-- What the two have in common: the status, and when it is 0 the command, the
last code and the filenames. -/
structure Agree (a b : Outcome) : Prop where
  status : a.status = b.status
  command (h : a.status = 0) : a.lines.filterMap Line.command? = b.lines.filterMap Line.command?
  code (h : a.status = 0) : (a.lines.filterMap Line.code?).getLast? = (b.lines.filterMap Line.code?).getLast?
  filenames (h : a.status = 0) : a.lines.filterMap Line.filenames? = b.lines.filterMap Line.filenames?

/-- Behind the command and its options stands an operand that is empty. -/
def EmptyFirst : List String → Prop
  | [] => False
  | _ :: words => ∃ rs names, Parses spec [] words rs ("" :: names)

variable {rs : List Result} {words names : List String} {name command : String} {i : Nat}

theorem setCode_accepted (h : Accepted rs) : rs.foldlM setCode none = .ok (optargs rs).getLast? := by
  rw [foldlM_accepted (f := some) (fun _ _ _ => rfl) (fun _ _ => rfl) h]
  cases (optargs rs).getLast? <;> rfl

theorem echoCode_accepted (h : Accepted rs) (lines : List Line) :
    rs.foldlM echoCode lines = .ok (lines ++ (optargs rs).map .code) := by
  induction rs generalizing lines with
  | nil => exact congrArg Except.ok (List.append_nil lines).symm
  | cons r rs ih =>
      obtain ⟨c, optarg, rfl⟩ := h _ List.mem_cons_self
      have hrest := ih h.tail
      cases optarg with
      | none => exact hrest lines
      | some optarg =>
          refine (hrest _).trans ?_
          rw [List.append_assoc]
          rfl

theorem setCode_refused (h : ¬ Accepted rs) (code : Option String) : ∃ lines, rs.foldlM setCode code = .error lines := by
  refine foldlM_refused (fun code c optarg => ?_) (fun code r hr => ?_) h code
  · cases optarg <;> exact ⟨_, rfl⟩
  · cases r with
    | option c optarg => exact absurd rfl (hr c optarg)
    | missing | unknown => exact ⟨_, rfl⟩

theorem echoCode_refused (h : ¬ Accepted rs) (lines : List Line) : ∃ lines', rs.foldlM echoCode lines = .error lines' := by
  refine foldlM_refused (fun lines c optarg => ?_) (fun lines r hr => ?_) h lines
  · cases optarg <;> exact ⟨_, rfl⟩
  · cases r with
    | option c optarg => exact absurd rfl (hr c optarg)
    | missing | unknown => exact ⟨_, rfl⟩

def mainLines (command : String) (code : Option String) (last : Line) : List Line :=
  [.command command, .done] ++ code.elim [] (fun code => [.code code]) ++ [last]

def scriptLines (command : String) (codes : List String) (last : Line) : List Line :=
  [.command command] ++ codes.map .code ++ [.done, last]

theorem main_accepted (hs : Answers spec (command :: words) start rs i) (h : Accepted rs) :
    main (command :: words) = ⟨mainLines command (optargs rs).getLast?
      (if (command :: words).drop i = [] then .noFilenames else .filenames ((command :: words).drop i)), 0⟩ := by
  have hloop := loop_answers setCode none hs
  rw [setCode_accepted h] at hloop
  simp only [main, hloop, Except.map, mainLines]
  by_cases hdrop : (command :: words).drop i = []
  · have hlen : (command :: words).length - i = 0 := Nat.sub_eq_zero_of_le (List.drop_eq_nil_iff.mp hdrop)
    rw [if_pos hlen, if_pos hdrop]
  · have hlen : (command :: words).length - i ≠ 0 := fun hz => hdrop (List.drop_eq_nil_of_le (Nat.le_of_sub_eq_zero hz))
    rw [if_neg hlen, if_neg hdrop]

theorem script_accepted (hs : Answers spec (name :: words) start rs i) (h : Accepted rs) :
    script name (command :: words) = ⟨scriptLines command (optargs rs)
      (if (words.drop (i - 1)).headD "" = "" then .noFilenames else .filenames (words.drop (i - 1))), 0⟩ := by
  have hloop := loop_answers echoCode [.command command] hs
  rw [echoCode_accepted h] at hloop
  simp only [script, hloop, Except.map, scriptLines]
  by_cases hhead : (words.drop (i - 1)).headD "" = ""
  · rw [if_neg (not_not.mpr hhead), if_pos hhead, List.append_assoc]
  · rw [if_pos hhead, if_neg hhead, List.append_assoc]

theorem main_refused (hs : Answers spec (command :: words) start rs i) (h : ¬ Accepted rs) :
    (main (command :: words)).status = 1 := by
  obtain ⟨lines, hlines⟩ := setCode_refused h none
  simp [main, loop_answers _ _ hs, hlines, Except.map]

theorem script_refused (command : String) (hs : Answers spec (name :: words) start rs i) (h : ¬ Accepted rs) :
    (script name (command :: words)).status = 1 := by
  obtain ⟨lines, hlines⟩ := echoCode_refused h [.command command]
  simp [script, loop_answers _ _ hs, hlines, Except.map]

theorem filterMap_singleton {α β : Type} (f : α → Option β) (a : α) : [a].filterMap f = (f a).toList := by
  cases h : f a <;> simp [h]

theorem filterMap_mainLines {α : Type} {f : Line → Option α} (hdone : f .done = none) (code : Option String) (last : Line) :
    (mainLines command code last).filterMap f =
      (f (.command command)).toList ++ (code.bind (fun code => f (.code code))).toList ++ (f last).toList := by
  have hfirst : [Line.command command, .done].filterMap f = (f (.command command)).toList := by
    rw [← List.singleton_append, List.filterMap_append, filterMap_singleton, filterMap_singleton, hdone]
    exact List.append_nil _
  rw [mainLines, List.filterMap_append, List.filterMap_append, hfirst, filterMap_singleton]
  cases code with
  | none => rfl
  | some code => rw [Option.elim_some, filterMap_singleton, Option.bind_some]

theorem filterMap_scriptLines {α : Type} {f : Line → Option α} (hdone : f .done = none) (codes : List String) (last : Line) :
    (scriptLines command codes last).filterMap f =
      (f (.command command)).toList ++ codes.filterMap (fun code => f (.code code)) ++ (f last).toList := by
  have hlast : [Line.done, last].filterMap f = (f last).toList := by
    rw [List.filterMap_cons_none hdone, filterMap_singleton]
  rw [scriptLines, List.filterMap_append, List.filterMap_append, hlast, filterMap_singleton, List.filterMap_map]
  rfl

/-- The first lines do not differ in what counts, so the last ones decide. -/
theorem agree_lines {codes : List String} {f g : Line} (hf : f.command? = none ∧ f.code? = none)
    (hg : g.command? = none ∧ g.code? = none) :
    Agree ⟨mainLines command codes.getLast? f, 0⟩ ⟨scriptLines command codes g, 0⟩ ↔ f.filenames? = g.filenames? := by
  have hnone (codes : List String) : codes.filterMap (fun _ => (none : Option String)) = [] :=
    List.filterMap_eq_nil_iff.mpr (fun _ _ => rfl)
  have hmain : (mainLines command codes.getLast? f).filterMap Line.filenames? = f.filenames?.toList := by
    rw [filterMap_mainLines rfl]
    cases codes.getLast? <;> rfl
  have hscript : (scriptLines command codes g).filterMap Line.filenames? = g.filenames?.toList := by
    rw [filterMap_scriptLines rfl]
    simp [Line.filenames?]
  constructor
  · intro h
    have hfilenames := h.filenames rfl
    rw [hmain, hscript] at hfilenames
    simpa only [Option.head?_toList] using congrArg List.head? hfilenames
  · intro h
    refine ⟨rfl, fun _ => ?_, fun _ => ?_, fun _ => by rw [hmain, hscript, h]⟩
    · rw [filterMap_mainLines rfl, filterMap_scriptLines rfl, hf.1, hg.1]
      cases codes.getLast? <;> simp [Line.command?]
    · rw [filterMap_mainLines rfl, filterMap_scriptLines rfl, hf.2, hg.2]
      cases hc : codes.getLast? <;> simp [Line.code?, hc]

theorem emptyFirst_iff (hs : Answers spec (command :: words) start rs i) :
    EmptyFirst (command :: words) ↔ Accepted rs ∧ ∃ names, (command :: words).drop i = "" :: names := by
  constructor
  · rintro ⟨rs', names, hp⟩
    obtain ⟨j, hj, hs'⟩ := answers_of_parses (command :: words) start hp rfl rfl
    obtain ⟨rfl, rfl⟩ := answers_unique hs hs'
    exact ⟨parses_accepted hp, names, hj⟩
  · rintro ⟨h, names, hdrop⟩
    exact ⟨rs, names, hdrop ▸ parses_of_answers hs h⟩

/-- The two programs agree just on the command lines on which the first
filename is not the empty string. -/
theorem agree_iff (name : String) (args : List String) : Agree (main args) (script name args) ↔ ¬ EmptyFirst args := by
  cases args with
  | nil => exact ⟨fun _ => not_false, fun _ => ⟨rfl, fun _ => rfl, fun _ => rfl, fun _ => rfl⟩⟩
  | cons command words =>
      obtain ⟨rs, i, hs⟩ := exists_answers spec (command :: words) start
      have hs' : Answers spec (name :: words) start rs i := answers_tail hs Nat.one_pos
      rw [emptyFirst_iff hs]
      by_cases h : Accepted rs
      · obtain ⟨j, rfl⟩ := Nat.exists_eq_add_of_le (answers_optind hs)
        have hdrop : words.drop (start.optind + j - 1) = (command :: words).drop (start.optind + j) := by
          rw [Nat.add_comm]
          rfl
        rw [main_accepted hs h, script_accepted hs' h, hdrop]
        generalize (command :: words).drop (start.optind + j) = ops
        rw [agree_lines (by split <;> exact ⟨rfl, rfl⟩) (by split <;> exact ⟨rfl, rfl⟩)]
        cases ops with
        | nil => simp [Line.filenames?]
        | cons w ops =>
            by_cases hw : w = "" <;> simp [Line.filenames?, hw, h]
      · have hm := main_refused hs h
        have hsc := script_refused command hs' h
        have hne : (main (command :: words)).status ≠ 0 := by simp [hm]
        exact ⟨fun _ hno => h hno.1, fun _ => ⟨hm.trans hsc.symm, fun hz => absurd hz hne, fun hz => absurd hz hne,
          fun hz => absurd hz hne⟩⟩

theorem empty_filename : ¬ Agree (main ["foo", ""]) (script "getopts.sh" ["foo", ""]) := by
  have hmain : main ["foo", ""] = ⟨[.command "foo", .done, .filenames [""]], 0⟩ := by
    simp only [main, loop_done (show getopt spec ["foo", ""] start = .done 1 from rfl)]
    rfl
  have hscript : script "getopts.sh" ["foo", ""] = ⟨[.command "foo", .done, .noFilenames], 0⟩ := by
    simp only [script, loop_done (show getopt spec ["getopts.sh", ""] start = .done 1 from rfl)]
    rfl
  intro h
  have hfilenames := h.filenames (by rw [hmain])
  rw [hmain, hscript] at hfilenames
  exact absurd hfilenames (by decide)

end UnixProg.Getopt.Counterparts

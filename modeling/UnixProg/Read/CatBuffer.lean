import UnixProg.Read.Cat

namespace UnixProg.Read.CatBuffer

open Lib Descriptor Getopt Cat

open Lib.Stream (Chunk)

/-- There is memory, and each file of the list is read to its end, in pieces
that the system chooses. The first read into an empty buffer looks like the end. -/
def Readable (sys : System) (content : String → List UInt8) (bufsize : Nat) (files : List String) : Prop :=
  ∀ k, ∀ file ∈ files, (sys bufsize k file).malloc = true ∧
    ∃ chunks, (sys bufsize k file).file = some (chunks, .eof) ∧ (0 < bufsize → chunks.flatMap Chunk.bytes = content file)

variable {sys : System} {content : String → List UInt8} {bufsize : Nat} {files args : List String} {rs : List Result}

theorem size_eq_zero (bufsize : Int32) : size bufsize = 0 ↔ bufsize = 0 := by
  have hle := bufsize.le_toInt
  have hlt := bufsize.toInt_lt
  rw [size, ← Int32.toInt_inj]
  change _ ↔ bufsize.toInt = 0
  omega

/-- No read returns anything into a buffer without room. -/
theorem chunks_nil (chunks : List (Chunk 0)) : chunks = [] := by
  cases chunks with
  | nil => rfl
  | cons c chunks => exact absurd (c.pos.trans_le c.le) (Nat.lt_irrefl 0)

theorem calls_names (sys : System) (bufsize : Nat) (files : List String) : (sys.calls bufsize files).map Prod.fst = files := by
  apply List.ext_getElem
  · simp [System.calls]
  · intro i h h'
    simp [System.calls]

theorem mem_calls {f : String × Call bufsize} (hf : f ∈ sys.calls bufsize files) : f.1 ∈ files ∧ ∃ k, f.2 = sys bufsize k f.1 := by
  obtain ⟨k, hk, rfl⟩ := List.mem_mapIdx.mp hf
  exact ⟨List.getElem_mem hk, k, rfl⟩

/-- What a readable file gives, whatever the size of the buffer. -/
theorem readable_call (hr : Readable sys content bufsize files) {f : String × Call bufsize} (hf : f ∈ sys.calls bufsize files) :
    f.2.malloc = true ∧ ¬ f.2.Fails ∧ f.2.bytes = if bufsize = 0 then [] else content f.1 := by
  obtain ⟨hmem, k, hk⟩ := mem_calls hf
  obtain ⟨hm, chunks, hchunks, hbytes⟩ := hr k f.1 hmem
  rw [← hk] at hm hchunks
  have heq : f.2.bytes = chunks.flatMap Chunk.bytes := by simp [Call.bytes, hchunks]
  refine ⟨hm, fun h => h chunks hchunks, ?_⟩
  split
  · subst bufsize
    rw [heq, chunks_nil chunks, List.flatMap_nil]
  · rw [heq, hbytes (Nat.pos_of_ne_zero ‹_›)]

theorem readable_bytes (hr : Readable sys content bufsize files) :
    (sys.calls bufsize files).flatMap (fun f => f.2.bytes) = if bufsize = 0 then [] else files.flatMap content := by
  have hcongr : (sys.calls bufsize files).flatMap (fun f => f.2.bytes) =
      ((sys.calls bufsize files).map Prod.fst).flatMap (fun file => if bufsize = 0 then [] else content file) := by
    rw [List.flatMap_map]
    exact List.flatMap_congr (fun f hf => (readable_call hr hf).2.2)
  rw [hcongr, calls_names]
  split
  · exact List.flatMap_eq_nil_iff.mpr (fun _ _ => rfl)
  · rfl

theorem main_readable (fds : FdTable String) (argv0 : String) (hargs : args ≠ []) (hp : Parses spec [] args rs files)
    (hr : Readable sys content (size (bufsizeOf rs)) files) :
    main sys fds argv0 args = ⟨if bufsizeOf rs = 0 then [] else files.flatMap content, 0⟩ := by
  have hm : ∀ f ∈ sys.serve rs files, f.2.malloc = true := fun f hf => (readable_call hr hf).1
  obtain ⟨t, ht, hall⟩ := catFiles_catted hm ⟨[], [], 0, fds, ∅⟩
  have hnone : ¬ ∃ f ∈ sys.serve rs files, f.2.Fails := fun ⟨f, hf, hfails⟩ => (readable_call hr hf).2.1 hfails
  have houtput : t.output = if bufsizeOf rs = 0 then [] else files.flatMap content := by
    rw [hall.output, List.nil_append, System.serve, readable_bytes hr]
    simp only [size_eq_zero]
  have hret : t.ret = 0 := hall.done hnone
  rw [main_eq sys fds argv0 hargs hp, ht, ← houtput, ← hret]

theorem args_ne_nil (hp : Parses spec [] args rs files) {arg : String} (harg : (optargs rs).getLast? = some arg) : args ≠ [] := by
  rintro rfl
  cases hp
  cases harg

/-- The buffer size makes no difference as long as it is not 0, which is also
the value of an argument that is no number. -/
theorem same_as_default_iff (sys : System) (content : String → List UInt8) (fds : FdTable String) (argv0 arg : String)
    (args files : List String) (rs : List Result) (hp : Parses spec [] args rs files) (harg : (optargs rs).getLast? = some arg)
    (hr : Readable sys content (size (atoi arg)) files) (hdefault : Readable sys content (size 4096) files) :
    main sys fds argv0 args = main sys fds argv0 ("--" :: files) ↔ atoi arg ≠ 0 ∨ ∀ file ∈ files, content file = [] := by
  have hbufsize : bufsizeOf rs = atoi arg := by rw [bufsizeOf, harg, Option.map_some, Option.getD_some]
  have hdashes : Parses spec [] ("--" :: files) [] files := .dashes rfl
  have hnot : bufsizeOf [] ≠ 0 := by decide
  rw [main_readable fds argv0 (args_ne_nil hp harg) hp (hbufsize ▸ hr),
    main_readable fds argv0 (List.cons_ne_nil _ _) hdashes hdefault, if_neg hnot, hbufsize]
  by_cases hzero : atoi arg = 0
  · rw [if_pos hzero]
    constructor
    · intro heq
      exact .inr (List.flatMap_eq_nil_iff.mp (Outcome.mk.inj heq).1.symm)
    · rintro (hne | hempty)
      · exact absurd hzero hne
      · rw [List.flatMap_eq_nil_iff.mpr hempty]
  · rw [if_neg hzero]
    exact ⟨fun _ => .inl hzero, fun _ => rfl⟩

/-- Files of one byte, read to their end. -/
def oneByteFiles : System := fun bufsize _ _ => ⟨true, some (oneByte 97 bufsize, .eof)⟩

theorem oneByteFiles_readable (bufsize : Nat) (files : List String) : Readable oneByteFiles (fun _ => [97]) bufsize files :=
  fun _ _ _ => ⟨rfl, oneByte 97 bufsize, rfl, fun h => by simp [oneByte, h]⟩

theorem same_as_default_iff_seven :
    main oneByteFiles standard "cat" ["-b7", "a"] = main oneByteFiles standard "cat" ["--", "a"] := by
  apply (same_as_default_iff oneByteFiles (fun _ => [97]) standard "cat" "7" ["-b7", "a"] ["a"] [.option 'b' (some "7")]
    (.word rfl (by decide) (.attached rfl (by decide) (.operands (by simp)))) rfl (oneByteFiles_readable _ _)
    (oneByteFiles_readable _ _)).mpr
  exact .inl (by decide)

theorem no_room : main oneByteFiles standard "cat" ["-b", "0", "a"] ≠ main oneByteFiles standard "cat" ["--", "a"] := by
  have hzero : Parses spec [] ["-b", "0", "a"] [.option 'b' (some "0")] ["a"] :=
    .word rfl (by decide) (.separate rfl (.operands (by simp)))
  have hdashes : Parses spec [] ["--", "a"] [] ["a"] := .dashes rfl
  rw [main_readable standard "cat" (by simp) hzero (oneByteFiles_readable _ _),
    main_readable standard "cat" (by simp) hdashes (oneByteFiles_readable _ _)]
  decide

end UnixProg.Read.CatBuffer

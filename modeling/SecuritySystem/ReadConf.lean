/-
SecuritySystem/ReadConf.lean

How a configuration file gets into memory.

`parser_read_conf` counts the line feeds of the file and allocates 168 bytes for
each line, and 168 for the last one.  Neither the line feeds nor a NUL have a
place in this, so it is enough only if the lines are short enough on the whole.
The file is then read by `while (fread(...))`, always to the beginning of the
buffer: what does not fit overwrites what has been read (`readsWhole_iff`).

The file may change between the two times it is opened; here it does not.  The
counter of the lines has no initial value in the code, so it is a parameter.
-/
import SecuritySystem.Parser

namespace SecuritySystem

open CMem

/-- The largest `int`. -/
def INT_MAX : ℤ := 0x7fffffff

/-- What is undefined in `parser_read_conf`. -/
inductive ReadFault
  /-- an `int` is too large -/
  | signedOverflow
  /-- there was no memory, and the null pointer is written to -/
  | noMemory
deriving DecidableEq

/-- The environment: the directory, the contents of the file when it is opened
for the first and for the second time, and whether there is memory. -/
structure ConfEnv where
  getcwd : Option CString
  fopen : ℕ → CString → Option (List UInt8)
  malloc : ℕ → Bool

/-! ### The code -/

/-- A result of an operation on `int`. -/
def checkedInt (n : ℤ) : Except ReadFault ℤ :=
  if -INT_MAX - 1 ≤ n ∧ n ≤ INT_MAX then .ok n else .error .signedOverflow

/-- An `int` as a `size_t`. -/
def sizeT (n : ℤ) : ℕ := (n % 2 ^ 64).toNat

/-- `while (!feof(cp))` -/
def countLines : List UInt8 → ℤ → Except ReadFault ℤ
  | [], lines => .ok lines
  | c :: file, lines =>
    if c = LINE_FEED then do
      let lines ← checkedInt (lines + 1)
      countLines file lines
    else countLines file lines

/-- `while (fread(buffer, 1, n, cp));` where `rest` is still to be read. -/
def freadLoop (n : ℕ) (buffer rest : List UInt8) : List UInt8 :=
  if _h : n = 0 ∨ rest = [] then buffer
  else
    let chunk := rest.take n
    freadLoop n (chunk ++ buffer.drop chunk.length) (rest.drop n)
termination_by rest.length
decreasing_by
  obtain ⟨hn, hrest⟩ := not_or.mp _h
  rw [List.length_drop]
  have hpos : 0 < rest.length := List.length_pos_iff.mpr hrest
  omega

/-- The second half of `parser_read_conf`: the buffer, and what is read to it. -/
def readBuffer (env : ConfEnv) (pathToConf : CString) (lines : ℤ) :
    Except ReadFault (Option (List UInt8)) :=
  let size := sizeT (PARSER_FILE_STROKE_MAX_LEN * lines)
  if env.malloc size then
    let buffer := List.replicate size 0
    match env.fopen 1 pathToConf with
    | none => .ok none
    | some file => do
      -- here the product is an `int`
      let n ← checkedInt (PARSER_FILE_STROKE_MAX_LEN * lines)
      return some (freadLoop (sizeT n) buffer file)
  else .error .noMemory

/-- `parser_read_conf`, with the value that the counter of the lines happens to
have; `none` is its null pointer. -/
def parserReadConf (env : ConfEnv) (lines : ℤ) (pathToConfig : CString) :
    Except ReadFault (Option (List UInt8)) :=
  match env.getcwd with
  | none => .ok none
  | some cwd =>
    if env.malloc (cwd.strlen + pathToConfig.strlen + 1) then
      let pathToConf := cwd ++ pathToConfig
      match env.fopen 0 pathToConf with
      | none => .ok none
      | some file => do
        let lines ← countLines file lines
        let lines ← checkedInt (lines + 1)
        readBuffer env pathToConf lines
    else .error .noMemory

/-! ### What is read -/

/-- The buffer holds the whole file, and a NUL behind it. -/
def ReadsWhole (file : List UInt8) (result : Except ReadFault (Option (List UInt8))) : Prop :=
  ∃ behind, result = .ok (some (file ++ 0 :: behind))

/-- The bytes that are allocated for a file. -/
def confSize (file : List UInt8) : ℕ := PARSER_FILE_STROKE_MAX_LEN * (file.count LINE_FEED + 1)

/-- The file is there both times, and so is the memory. -/
structure Provides (env : ConfEnv) (pathToConfig : CString) (file : List UInt8) : Prop where
  getcwd : ∃ cwd, env.getcwd = some cwd ∧
    env.malloc (cwd.strlen + pathToConfig.strlen + 1) = true
  fopen : ∀ call path, env.fopen call path = some file
  malloc : env.malloc (confSize file) = true

variable {env : ConfEnv} {pathToConfig : CString} {file : List UInt8}

/-- The line feeds are counted, as long as an `int` can hold their number. -/
theorem countLines_eq {lines : ℤ} (hmin : -INT_MAX - 1 ≤ lines) (hmax : lines ≤ INT_MAX) :
    countLines file lines =
      if lines + file.count LINE_FEED ≤ INT_MAX then .ok (lines + file.count LINE_FEED)
      else .error .signedOverflow := by
  induction file generalizing lines with
  | nil =>
    rw [List.count_nil, Nat.cast_zero, add_zero, if_pos hmax]
    rfl
  | cons c file ih =>
    rw [countLines]
    by_cases hc : c = LINE_FEED
    · subst hc
      rw [if_pos rfl, List.count_cons_self, Nat.cast_succ, checkedInt]
      by_cases hnext : lines + 1 ≤ INT_MAX
      · rw [if_pos ⟨by omega, hnext⟩, add_comm (file.count LINE_FEED : ℤ), ← add_assoc]
        exact ih (by omega) hnext
      · rw [if_neg (fun h => hnext h.2), if_neg (by omega)]
        rfl
    · rw [if_neg hc, List.count_cons_of_ne hc]
      exact ih hmin hmax

/-! ### The loop of `fread` -/

section Loop

variable {n : ℕ} {buffer rest : List UInt8}

theorem freadLoop_done (h : n = 0 ∨ rest = []) : freadLoop n buffer rest = buffer := by
  rw [freadLoop, dif_pos h]

theorem freadLoop_step (hn : n ≠ 0) (hrest : rest ≠ []) :
    freadLoop n buffer rest =
      freadLoop n (rest.take n ++ buffer.drop (rest.take n).length) (rest.drop n) := by
  rw [freadLoop, dif_neg (not_or.mpr ⟨hn, hrest⟩)]

/-- No call writes behind the buffer, or makes it longer. -/
theorem length_freadLoop (hn : n ≤ buffer.length) :
    (freadLoop n buffer rest).length = buffer.length := by
  induction buffer, rest using freadLoop.induct n with
  | case1 buffer rest h => rw [freadLoop_done h]
  | case2 buffer rest h chunk ih =>
    obtain ⟨hpos, hrest⟩ := not_or.mp h
    have hchunk : chunk.length ≤ n := List.length_take_le n rest
    have hlen : (chunk ++ buffer.drop chunk.length).length = buffer.length := by
      rw [List.length_append, List.length_drop]
      omega
    rw [freadLoop_step hpos hrest, ih (hn.trans_eq hlen.symm), hlen]

/-- A file that is shorter than the buffer is read by one call. -/
theorem freadLoop_of_length_le (hle : rest.length ≤ n) :
    freadLoop n buffer rest = rest ++ buffer.drop rest.length := by
  by_cases hrest : rest = []
  · rw [freadLoop_done (.inr hrest), hrest]
    rfl
  · have hn : n ≠ 0 := by
      have hpos : 0 < rest.length := List.length_pos_iff.mpr hrest
      omega
    rw [freadLoop_step hn hrest, List.take_of_length_le hle, List.drop_of_length_le hle,
      freadLoop_done (.inr rfl)]

end Loop

/-! ### What is read -/

theorem sizeT_of_lt {n : ℕ} (h : n < 2 ^ 64) : sizeT n = n := by
  rw [sizeT, Int.emod_eq_of_lt (Int.natCast_nonneg n) (by exact_mod_cast h), Int.toNat_natCast]

/-- Behind an operation on `int`. -/
theorem checkedInt_bind {β : Type} {n : ℤ} (hmin : -INT_MAX - 1 ≤ n) (f : ℤ → Except ReadFault β) :
    (checkedInt n >>= f) = if n ≤ INT_MAX then f n else .error .signedOverflow := by
  unfold checkedInt
  by_cases hle : n ≤ INT_MAX
  · rw [if_pos ⟨hmin, hle⟩, if_pos hle]
    rfl
  · rw [if_neg (fun h => hle h.2), if_neg hle]
    rfl

/-- The buffer is as large as the computation on `int` says. -/
theorem readBuffer_eq {pathToConf : CString} {lines : ℕ}
    (hmalloc : env.malloc (PARSER_FILE_STROKE_MAX_LEN * lines) = true)
    (hfopen : env.fopen 1 pathToConf = some file) (hlines : (lines : ℤ) ≤ INT_MAX) :
    readBuffer env pathToConf lines =
      if ((PARSER_FILE_STROKE_MAX_LEN * lines : ℕ) : ℤ) ≤ INT_MAX then
        .ok (some (freadLoop (PARSER_FILE_STROKE_MAX_LEN * lines)
          (List.replicate (PARSER_FILE_STROKE_MAX_LEN * lines) 0) file))
      else .error .signedOverflow := by
  have hmax : INT_MAX = 0x7fffffff := rfl
  have hstroke : PARSER_FILE_STROKE_MAX_LEN = 168 := rfl
  have hsize : sizeT (PARSER_FILE_STROKE_MAX_LEN * lines : ℕ) =
      PARSER_FILE_STROKE_MAX_LEN * lines := sizeT_of_lt (by rw [hstroke]; omega)
  unfold readBuffer
  rw [← Nat.cast_mul, hsize, if_pos hmalloc, hfopen]
  dsimp only
  rw [checkedInt_bind (by omega), hsize]
  rfl

/-- The run of `parser_read_conf`: what is allocated is filled, unless its size
is too large for an `int`. -/
theorem parserReadConf_eq (h : Provides env pathToConfig file) :
    parserReadConf env 0 pathToConfig =
      if (confSize file : ℤ) ≤ INT_MAX then
        .ok (some (freadLoop (confSize file) (List.replicate (confSize file) 0) file))
      else .error .signedOverflow := by
  obtain ⟨cwd, hcwd, hpath⟩ := h.getcwd
  have hmax : INT_MAX = 0x7fffffff := rfl
  have hmalloc := h.malloc
  have hstroke : PARSER_FILE_STROKE_MAX_LEN = 168 := rfl
  unfold confSize at hmalloc ⊢
  unfold parserReadConf
  rw [hcwd]
  dsimp only
  rw [if_pos hpath, h.fopen]
  dsimp only
  rw [countLines_eq (by decide) (by decide), zero_add]
  -- the size is larger than the counter, so an `int` that holds it holds all before
  by_cases hcount : (file.count LINE_FEED : ℤ) ≤ INT_MAX
  · rw [if_pos hcount, ok_bind, checkedInt_bind (by omega), ← Nat.cast_succ]
    by_cases hnext : ((file.count LINE_FEED + 1 : ℕ) : ℤ) ≤ INT_MAX
    · rw [if_pos hnext]
      exact readBuffer_eq hmalloc (h.fopen _ _) hnext
    · rw [if_neg hnext, if_neg (by rw [hstroke]; omega)]
  · rw [if_neg hcount, if_neg (by rw [hstroke]; omega)]
    rfl

/-- The buffer is not made longer, so the file must be shorter. -/
theorem length_lt_of_readsWhole (h : Provides env pathToConfig file)
    (hread : ReadsWhole file (parserReadConf env 0 pathToConfig)) :
    file.length < confSize file ∧ (confSize file : ℤ) ≤ INT_MAX := by
  obtain ⟨behind, hread⟩ := hread
  rw [parserReadConf_eq h] at hread
  by_cases hsize : (confSize file : ℤ) ≤ INT_MAX
  · refine ⟨?_, hsize⟩
    have hzeros : (List.replicate (confSize file) (0 : UInt8)).length = confSize file :=
      List.length_replicate ..
    rw [if_pos hsize] at hread
    -- the buffer keeps its length, and the file and a NUL are in it
    have hlen := congrArg List.length (Option.some.inj (Except.ok.inj hread))
    rw [length_freadLoop hzeros.ge, hzeros, List.length_append, List.length_cons] at hlen
    omega
  · rw [if_neg hsize] at hread
    cases hread

/-- **When the whole file is read**: exactly when it is shorter than what is
allocated for it, and this can be computed. -/
theorem readsWhole_iff (h : Provides env pathToConfig file) :
    ReadsWhole file (parserReadConf env 0 pathToConfig) ↔
      file.length < confSize file ∧ (confSize file : ℤ) ≤ INT_MAX := by
  refine ⟨length_lt_of_readsWhole h, ?_⟩
  rintro ⟨hlt, hsize⟩
  obtain ⟨k, hk⟩ := Nat.exists_eq_succ_of_ne_zero (Nat.sub_ne_zero_of_lt hlt)
  refine ⟨List.replicate k 0, ?_⟩
  rw [parserReadConf_eq h, if_pos hsize, freadLoop_of_length_le hlt.le, List.drop_replicate, hk,
    List.replicate_succ]

/-- A file in "/srv", and the file as it is without its line feed. -/
def confEnv (file : List UInt8) : ConfEnv where
  getcwd := some (CString.lit "/srv")
  fopen := fun _ _ => some file
  malloc := fun _ => true

theorem provides_confEnv (pathToConfig : CString) (file : List UInt8) :
    Provides (confEnv file) pathToConfig file :=
  ⟨⟨CString.lit "/srv", rfl, rfl⟩, fun _ _ => rfl, rfl⟩

/-- A line of 168 bytes, the longest that is read. -/
def logLine : List UInt8 := (CString.lit "path_to_log: /").bytes ++ List.replicate 154 97

theorem readsWhole_iff_logLine :
    ReadsWhole (logLine ++ [LINE_FEED])
      (parserReadConf (confEnv (logLine ++ [LINE_FEED])) 0 (CString.lit "/config.conf")) :=
  (readsWhole_iff (provides_confEnv _ _)).mpr (by decide +kernel)

/-- Without its line feed the line of 168 bytes fills the buffer, and there is no NUL. -/
theorem not_readsWhole_logLine :
    ¬ ∀ (env : ConfEnv) (pathToConfig : CString) (file : List UInt8),
      Provides env pathToConfig file →
      (∀ line ∈ file.splitOn LINE_FEED, line.length ≤ PARSER_FILE_STROKE_MAX_LEN) →
      ReadsWhole file (parserReadConf env 0 pathToConfig) := by
  intro h
  have hread := h (confEnv logLine) (CString.lit "/config.conf") logLine (provides_confEnv _ _)
    (by decide +kernel)
  exact absurd (length_lt_of_readsWhole (provides_confEnv _ _) hread).1 (by decide +kernel)

end SecuritySystem

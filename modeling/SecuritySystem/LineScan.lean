/-
SecuritySystem/LineScan.lean

How far the line loop of the parsers reads.

The scan for a line feed has no other end: at the last line it passes the NUL
behind the text, and the zeros that follow hold no line feed.  What keeps the
loop inside its buffer is a line, closed by a line feed, at which it is left:
one that is refused, or one with a NUL in it.  `completes_lineLoop_iff` says
that this is the only way, and `scanReads_overrun_iff` that without such a line
the first byte behind the buffer is read.

The memory behind the buffer is not known, so a run that gets there has no
result; nor has one in which a line is faulty, since its value is copied from
behind the NUL or to behind an array.
-/
import SecuritySystem.Parser

namespace SecuritySystem

open CMem

/-- What a line is to a parser: an assignment, the end of the loop, or an
access outside of an array. -/
inductive LineKind
  | taken
  | refused
  | faulty
deriving DecidableEq

/-! ### The reads of the scan -/

section Reads

variable {σ : Type} (maxLen : ℕ) (set : CString → CString → σ → Except Fault (SetResult σ))

/-- The indices of the buffer that the scan reads.  `i` is the next one; it is
read before anything is known of the memory there. -/
def scanReads (tmp : List UInt8) (i : ℕ) : List UInt8 → σ → List ℕ
  | [], _ => [i]
  | c :: buffer, s =>
    if c ≠ LINE_FEED then i :: scanReads (tmp ++ [c]) (i + 1) buffer s
    else
      i :: match handleLine maxLen set tmp s with
        | .ok (.applied _ _ s') => if 0 ∈ tmp then [] else scanReads [] (i + 1) buffer s'
        | _ => []

/-- The parser ends, and its scan has read no byte outside the buffer. -/
structure StaysInside (buffer : List UInt8) (reads : List ℕ) (result : Except Fault (Parsed σ)) :
    Prop where
  inside : ∀ i ∈ reads, i < buffer.length
  ends : Completes result

end Reads

/-! ### Kinds of lines -/

section Kind

variable (kind : List UInt8 → LineKind)

/-- The loop goes on behind the line. -/
def GoesOn (line : List UInt8) : Prop := kind line = .taken ∧ 0 ∉ line

/-- The loop is left at the line, and the line has done no harm. -/
def LeftAt (line : List UInt8) : Prop := kind line ≠ .faulty ∧ ¬ GoesOn kind line

instance : DecidablePred (GoesOn kind) := fun _ => inferInstanceAs (Decidable (_ ∧ _))

instance : DecidablePred (LeftAt kind) := fun _ => inferInstanceAs (Decidable (_ ∧ _))

/-- The lines of a file that end with a line feed. -/
def closedLines (content : List UInt8) : List (List UInt8) := (content.splitOn LINE_FEED).dropLast

/-- The loop is left at a closed line: at the first one behind which it does not
go on. -/
def LeftInside (content : List UInt8) : Prop :=
  ∃ line ∈ (closedLines content).find? (¬ GoesOn kind ·), LeftAt kind line

instance : DecidablePred (LeftInside kind) := fun content =>
  match h : (closedLines content).find? (¬ GoesOn kind ·) with
  | none => isFalse fun ⟨_, hline, _⟩ => by rw [h] at hline; cases hline
  | some line =>
    decidable_of_iff (LeftAt kind line)
      ⟨fun hleft => ⟨line, h, hleft⟩, fun ⟨_, hline, hleft⟩ => by
        rw [h] at hline
        exact Option.some.inj hline ▸ hleft⟩

/-- The kind of a line that is not too long and has a delimiter is that of its
assignment, provided there is a byte behind the delimiter. -/
def lineKind (maxLen : ℕ) (setKind : CString → CString → LineKind) (line : List UInt8) :
    LineKind :=
  if maxLen < (CString.ofMem line).strlen ∨ ¬ HasDelimiter line then .refused
  else if line.length < delimiterAt line + 2 then .faulty
  else setKind (keyOf line) (valueOf line)

theorem closedLines_of_not_mem {content : List UInt8} (h : LINE_FEED ∉ content) :
    closedLines content = [] := by
  rw [closedLines, List.splitOn_eq_singleton h]
  rfl

theorem closedLines_append {line : List UInt8} (h : LINE_FEED ∉ line) (rest : List UInt8) :
    closedLines (line ++ LINE_FEED :: rest) = line :: closedLines rest := by
  rw [closedLines, List.splitOn_append_cons_self, List.splitOn_eq_singleton h,
    List.singleton_append, List.dropLast_cons_of_ne_nil (List.splitOn_ne_nil LINE_FEED rest)]
  rfl

variable {kind} {line rest : List UInt8}

theorem leftInside_of_goesOn (hfeed : LINE_FEED ∉ line) (h : GoesOn kind line) :
    LeftInside kind (line ++ LINE_FEED :: rest) ↔ LeftInside kind rest := by
  rw [LeftInside, closedLines_append hfeed, List.find?_cons_of_neg (by simpa using h)]
  rfl

theorem leftInside_of_not_goesOn (hfeed : LINE_FEED ∉ line) (h : ¬ GoesOn kind line) :
    LeftInside kind (line ++ LINE_FEED :: rest) ↔ kind line ≠ .faulty := by
  rw [LeftInside, closedLines_append hfeed, List.find?_cons_of_pos (by simpa using h)]
  constructor
  · rintro ⟨_, hline, hleft⟩
    exact Option.some.inj hline ▸ hleft.1
  · exact fun hkind => ⟨line, rfl, hkind, h⟩

end Kind

/-! ### Runs -/

section Run

variable {σ : Type} {maxLen : ℕ} {set : CString → CString → σ → Except Fault (SetResult σ)}
variable {tmp buffer : List UInt8} {s : σ}

/-- A run that ends has stayed inside. -/
theorem scanReads_lt (h : Completes (lineLoop maxLen set tmp buffer s)) (i : ℕ) :
    ∀ j ∈ scanReads maxLen set tmp i buffer s, j < i + buffer.length := by
  induction buffer generalizing tmp s i with
  | nil =>
    obtain ⟨r, hr⟩ := h
    cases hr
  | cons c buffer ih =>
    -- the reads behind this byte
    have hlater : ∀ {tmp s}, Completes (lineLoop maxLen set tmp buffer s) →
        ∀ j ∈ scanReads maxLen set tmp (i + 1) buffer s, j < i + (c :: buffer).length := by
      intro tmp s hends j hj
      have hlt := ih hends (i + 1) j hj
      rw [List.length_cons]
      omega
    have hnow : i < i + (c :: buffer).length := Nat.lt_add_of_pos_right (Nat.succ_pos _)
    rw [lineLoop] at h
    rw [scanReads]
    by_cases hc : c ≠ LINE_FEED
    · rw [if_pos hc] at h
      rw [if_pos hc]
      exact List.forall_mem_cons.mpr ⟨hnow, hlater h⟩
    · rw [if_neg hc] at h
      rw [if_neg hc]
      refine List.forall_mem_cons.mpr ⟨hnow, ?_⟩
      obtain ⟨result, hresult, h⟩ := completes_bind_iff.mp h
      rw [hresult]
      cases result with
      | stopped => exact fun j hj => absurd hj List.not_mem_nil
      | failed why s' => exact fun j hj => absurd hj List.not_mem_nil
      | applied key value s' =>
        -- only an assignment without a NUL in its line leads to more reads
        dsimp only at h ⊢
        by_cases hnul : 0 ∈ tmp
        · rw [if_pos hnul]
          exact fun j hj => absurd hj List.not_mem_nil
        · rw [if_neg hnul] at h ⊢
          exact hlater (completes_bind_pure_iff.mp h)

theorem staysInside_iff :
    StaysInside buffer (scanReads maxLen set [] 0 buffer s) (lineLoop maxLen set [] buffer s) ↔
      Completes (lineLoop maxLen set [] buffer s) := by
  refine ⟨StaysInside.ends, fun hends => ⟨fun i hi => ?_, hends⟩⟩
  exact (scanReads_lt hends 0 i hi).trans_eq (Nat.zero_add _)

/-- An assignment of a kind, with a result that keeps the invariant. -/
def AssignmentIs (inv : σ → Prop) (kind : LineKind) (result : Except Fault (SetResult σ)) : Prop :=
  match kind with
  | .taken => ∃ s', result = .ok (.done s') ∧ inv s'
  | .refused => result = .ok .unknown ∨ ∃ why s', result = .ok (.failed why s')
  | .faulty => ¬ Completes result

/-- The same for a line. -/
def LineIs (inv : σ → Prop) (kind : LineKind) (result : Except Fault (LineResult σ)) : Prop :=
  match kind with
  | .taken => ∃ key value s', result = .ok (.applied key value s') ∧ inv s'
  | .refused => result = .ok .stopped ∨ ∃ why s', result = .ok (.failed why s')
  | .faulty => ¬ Completes result

variable {inv : σ → Prop} {kind : List UInt8 → LineKind} {setKind : CString → CString → LineKind}

/-- A line that is not refused beforehand does what its assignment does. -/
theorem lineIs_lineKind (hmax : maxLen ≤ PARSER_FILE_STROKE_MAX_LEN)
    (hset : ∀ key value s, inv s → AssignmentIs inv (setKind key value) (set key value s))
    (line : List UInt8) (s : σ) (hinv : inv s) :
    LineIs inv (lineKind maxLen setKind line) (handleLine maxLen set line s) := by
  unfold handleLine lineKind
  dsimp only
  by_cases hlong : maxLen < (CString.ofMem line).strlen
  · rw [if_pos (.inl hlong), if_pos hlong]
    exact .inr ⟨.error, s, rfl⟩
  have hle : (CString.ofMem line).strlen ≤ maxLen := Nat.not_lt.mp hlong
  rw [if_neg hlong, index_eq (hle.trans hmax)]
  by_cases hdelim : HasDelimiter line
  · rw [if_neg (not_or.mpr ⟨hlong, not_not.mpr hdelim⟩), if_pos hdelim]
    have hindex : ¬ (0 : ℤ) > (delimiterAt line : ℤ) := by omega
    rw [if_neg hindex, Int.toNat_natCast]
    by_cases hshort : line.length < delimiterAt line + 2
    · -- the value would begin behind the NUL that was added
      rw [if_pos hshort, if_pos hshort]
      exact fun ⟨_, h⟩ => nomatch h
    · -- what is left is the assignment
      rw [if_neg hshort, if_neg hshort]
      have hassign := hset (keyOf line) (valueOf line) s hinv
      unfold keyOf valueOf at hassign ⊢
      cases hkind : setKind ((CString.ofMem line).take _) (.ofMem (line.drop _)) with
      | taken =>
        rw [hkind] at hassign
        obtain ⟨s', hs', hinv'⟩ := hassign
        rw [hs']
        exact ⟨_, _, s', rfl, hinv'⟩
      | refused =>
        rw [hkind] at hassign
        obtain hunknown | ⟨why, s', hfailed⟩ := hassign
        · rw [hunknown]
          exact .inl rfl
        · rw [hfailed]
          exact .inr ⟨why, s', rfl⟩
      | faulty =>
        rw [hkind] at hassign
        exact fun hends => hassign ((completes_bind_iff.mp hends).imp fun _ h => h.1)
  · rw [if_pos (.inr hdelim), if_neg hdelim]
    exact .inl rfl

/-! ### Which runs end -/

section Feed

variable {key value : CString} {s' : σ}

theorem completes_feed_of_applied
    (h : handleLine maxLen set tmp s = .ok (.applied key value s')) :
    Completes (lineLoop maxLen set tmp (LINE_FEED :: buffer) s) ↔
      0 ∈ tmp ∨ Completes (lineLoop maxLen set [] buffer s') := by
  rw [lineLoop, if_neg (fun hne => hne rfl), h]
  show Completes (if 0 ∈ tmp then _ else _) ↔ _
  by_cases hnul : 0 ∈ tmp
  · rw [if_pos hnul]
    exact iff_of_true (completes_pure _) (.inl hnul)
  · rw [if_neg hnul, completes_bind_pure_iff, or_iff_right hnul]

theorem completes_feed_of_stopped (h : handleLine maxLen set tmp s = .ok .stopped) :
    Completes (lineLoop maxLen set tmp (LINE_FEED :: buffer) s) := by
  rw [lineLoop, if_neg (fun hne => hne rfl), h]
  exact ⟨_, rfl⟩

theorem completes_feed_of_failed {why : Failure}
    (h : handleLine maxLen set tmp s = .ok (.failed why s')) :
    Completes (lineLoop maxLen set tmp (LINE_FEED :: buffer) s) := by
  rw [lineLoop, if_neg (fun hne => hne rfl), h]
  exact ⟨_, rfl⟩

theorem completes_handleLine (h : Completes (lineLoop maxLen set tmp (LINE_FEED :: buffer) s)) :
    Completes (handleLine maxLen set tmp s) := by
  rw [lineLoop, if_neg (fun hne => hne rfl)] at h
  exact (completes_bind_iff.mp h).imp fun _ h => h.1

end Feed

/-- The zeros behind a file hold no line feed. -/
theorem not_mem_append_zeros {content : List UInt8} (h : LINE_FEED ∉ content) {k : ℕ} :
    LINE_FEED ∉ content ++ zeros k := by
  intro hmem
  rcases List.mem_append.mp hmem with hmem | hmem
  · exact h hmem
  · exact absurd (List.eq_of_mem_replicate hmem) (by decide)

theorem scanReads_append {l : List UInt8} (hl : LINE_FEED ∉ l) (i : ℕ) :
    scanReads maxLen set tmp i (l ++ buffer) s =
      List.range' i l.length ++ scanReads maxLen set (tmp ++ l) (i + l.length) buffer s := by
  induction l generalizing tmp i with
  | nil => rw [List.append_nil]; rfl
  | cons c l ih =>
    have hc : c ≠ LINE_FEED := fun hc => hl (hc ▸ List.mem_cons_self)
    have hl' : LINE_FEED ∉ l := fun h => hl (List.mem_cons_of_mem c h)
    rw [List.cons_append, scanReads, if_pos hc, ih hl', List.append_assoc, List.singleton_append,
      List.length_cons, List.range'_succ, List.cons_append, Nat.add_right_comm, Nat.add_assoc]

section Lines

variable (hline : ∀ line s, inv s → LineIs inv (kind line) (handleLine maxLen set line s))

include hline

/-- Behind such a line the loop goes on, with the invariant. -/
theorem completes_feed_of_goesOn (hinv : inv s) (h : GoesOn kind tmp) :
    ∃ s', inv s' ∧ (Completes (lineLoop maxLen set tmp (LINE_FEED :: buffer) s) ↔
      Completes (lineLoop maxLen set [] buffer s')) := by
  obtain ⟨htaken, hnul⟩ := h
  have hkind := hline tmp s hinv
  rw [htaken] at hkind
  obtain ⟨key, value, s', hresult, hinv'⟩ := hkind
  exact ⟨s', hinv', (completes_feed_of_applied hresult).trans (or_iff_right hnul)⟩

/-- Behind any other line it does not. -/
theorem completes_feed_of_not_goesOn (hinv : inv s) (h : ¬ GoesOn kind tmp) :
    Completes (lineLoop maxLen set tmp (LINE_FEED :: buffer) s) ↔ kind tmp ≠ .faulty := by
  have hkind := hline tmp s hinv
  cases hk : kind tmp with
  | taken =>
    rw [hk] at hkind
    obtain ⟨key, value, s', hresult, -⟩ := hkind
    have hnul : 0 ∈ tmp := by
      by_contra hnul
      exact h ⟨hk, hnul⟩
    exact iff_of_true ((completes_feed_of_applied hresult).mpr (.inl hnul)) (by decide)
  | refused =>
    rw [hk] at hkind
    refine iff_of_true ?_ (by decide)
    obtain hstopped | ⟨why, s', hfailed⟩ := hkind
    · exact completes_feed_of_stopped hstopped
    · exact completes_feed_of_failed hfailed
  | faulty =>
    rw [hk] at hkind
    exact iff_of_false (fun hends => hkind (completes_handleLine hends)) fun hne => hne rfl

theorem scanReads_feed_of_goesOn (hinv : inv s) (h : GoesOn kind tmp) :
    ∃ s', inv s' ∧ ∀ {i}, scanReads maxLen set tmp i (LINE_FEED :: buffer) s =
      i :: scanReads maxLen set [] (i + 1) buffer s' := by
  obtain ⟨htaken, hnul⟩ := h
  have hkind := hline tmp s hinv
  rw [htaken] at hkind
  obtain ⟨key, value, s', hresult, hinv'⟩ := hkind
  refine ⟨s', hinv', fun {i} => ?_⟩
  rw [scanReads, if_neg (fun hne => hne rfl), hresult]
  exact congrArg (i :: ·) (if_neg hnul)

theorem scanReads_feed_of_not_goesOn (hinv : inv s) (h : ¬ GoesOn kind tmp) {i : ℕ} :
    scanReads maxLen set tmp i (LINE_FEED :: buffer) s = [i] := by
  have hkind := hline tmp s hinv
  rw [scanReads, if_neg (fun hne => hne rfl)]
  refine congrArg (i :: ·) ?_
  split
  · next hresult =>
    refine if_pos ?_
    by_contra hnul
    cases hk : kind tmp with
    | taken => exact h ⟨hk, hnul⟩
    | refused =>
      rw [hk, hresult] at hkind
      obtain hstopped | ⟨why, s', hfailed⟩ := hkind
      · cases hstopped
      · cases hfailed
    | faulty =>
      rw [hk] at hkind
      exact hkind ⟨_, hresult⟩
  · rfl

/-- **Which runs end**, over a file that zeros follow: those that are left at a
line with a line feed. -/
theorem completes_lineLoop_iff (hinv : inv s) (content : List UInt8) (k : ℕ) :
    Completes (lineLoop maxLen set [] (content ++ zeros k) s) ↔ LeftInside kind content := by
  induction hn : content.length using Nat.strong_induction_on generalizing content s with
  | _ n ih =>
    subst hn
    by_cases hfeed : LINE_FEED ∈ content
    · -- the first closed line; behind it is a shorter file
      obtain ⟨line, rest, rfl, hl⟩ := List.eq_append_cons_of_mem hfeed
      have hshorter : rest.length < (line ++ LINE_FEED :: rest).length := by
        rw [List.length_append, List.length_cons]
        omega
      rw [List.append_assoc, lineLoop_append hl, List.nil_append, List.cons_append]
      by_cases hgoes : GoesOn kind line
      · obtain ⟨s', hinv', hrest⟩ := completes_feed_of_goesOn hline hinv hgoes
        rw [hrest, leftInside_of_goesOn hl hgoes]
        exact ih _ hshorter hinv' rest rfl
      · rw [completes_feed_of_not_goesOn hline hinv hgoes, leftInside_of_not_goesOn hl hgoes]
    · -- the scan of the last line does not end
      rw [lineLoop_of_not_mem (not_mem_append_zeros hfeed)]
      refine iff_of_false (fun ⟨_, h⟩ => nomatch h) ?_
      rw [LeftInside, closedLines_of_not_mem hfeed]
      rintro ⟨_, hnone, -⟩
      cases hnone

/-- **Which runs read behind the buffer**: those that go on behind every line
with a line feed. -/
theorem scanReads_overrun_iff (hinv : inv s) (content : List UInt8) (k i : ℕ) :
    i + (content ++ zeros k).length ∈ scanReads maxLen set [] i (content ++ zeros k) s ↔
      ∀ line ∈ closedLines content, GoesOn kind line := by
  induction hn : content.length using Nat.strong_induction_on generalizing content s i with
  | _ n ih =>
    subst hn
    by_cases hfeed : LINE_FEED ∈ content
    · obtain ⟨line, rest, rfl, hl⟩ := List.eq_append_cons_of_mem hfeed
      have hshorter : rest.length < (line ++ LINE_FEED :: rest).length := by
        rw [List.length_append, List.length_cons]
        omega
      have hlength : i + (line ++ LINE_FEED :: (rest ++ zeros k)).length =
          i + line.length + 1 + (rest ++ zeros k).length := by
        rw [List.length_append, List.length_cons]
        omega
      -- the reads up to the line feed are inside
      have hbehind : i + line.length + 1 + (rest ++ zeros k).length ∉
          List.range' i line.length ++ [i + line.length] := by
        rw [List.mem_append, List.mem_range'_1, List.mem_singleton]
        omega
      rw [List.append_assoc, List.cons_append, hlength, scanReads_append hl, List.nil_append,
        closedLines_append hl, List.forall_mem_cons]
      by_cases hgoes : GoesOn kind line
      · obtain ⟨s', hinv', hreads⟩ := scanReads_feed_of_goesOn hline hinv hgoes
        rw [hreads, and_iff_right hgoes, ← ih _ hshorter hinv' rest (i + line.length + 1) rfl,
          ← List.singleton_append, ← List.append_assoc, List.mem_append, or_iff_right hbehind]
      · rw [scanReads_feed_of_not_goesOn hline hinv hgoes]
        exact iff_of_false hbehind fun h => hgoes h.1
    · have hzeros : LINE_FEED ∉ content ++ zeros k := not_mem_append_zeros hfeed
      rw [closedLines_of_not_mem hfeed, ← List.append_nil (content ++ zeros k),
        scanReads_append hzeros, List.append_nil]
      exact iff_of_true (List.mem_append_right _ List.mem_cons_self)
        fun line hmem => absurd hmem List.not_mem_nil

end Lines

end Run

end SecuritySystem

/-
SecuritySystem/Parser.lean

The line loop of the configuration parsers.

backup_parse_and_serialize_config and fw_parse_and_serialize_config go through
their text with the same loop; they differ in what a key does.  A line is
everything up to the next line feed.  The scan notes a NUL on its way but does
not stop at it, so behind the last line it runs on through whatever the memory
holds, to the first line feed there (`linesSeen`).  The line is used as a C string, so
what is behind the NUL plays no part, with one exception: the value is looked
for two bytes behind the delimiter, and if the NUL is the byte in between, the
value begins behind it (`BareEnd`).

The loop leaves by `break`, and with success, at the first line without a
delimiter or with an unknown key (`Stops`): what stands behind such a line is
never read.  `lineLoop_reads` says what a successful run has done, and
`Reads.eq_settingsOf_iff` when that is the whole text.

The arrays that the loop keeps a line in are taken to be large enough.
-/
import SecuritySystem.Lib.StringField

namespace SecuritySystem

open CMem

/-- The longest string that is searched. -/
def PARSER_FILE_STROKE_MAX_LEN : ℕ := 168

/-- The search has found nothing. -/
def PARSER_INVALID_EXIT : ℤ := -1

/-- `:`, behind the key -/
def PARSER_DELIMETER : UInt8 := 58

/-- `/`, in front of the length of a mask -/
def PARSER_SLASH : UInt8 := 47

/-- The byte at the end of a line. -/
def LINE_FEED : UInt8 := 10

/-- `parser_get_index_by_param`: the first index of the character. -/
def parserGetIndexByParam (stroke : CString) (param : UInt8) : ℤ :=
  if PARSER_FILE_STROKE_MAX_LEN < stroke.strlen then -2
  else if param ∈ stroke.bytes then stroke.bytes.idxOf param
  else PARSER_INVALID_EXIT

/-- How a parser fails: with an error code, or by ending the process. -/
inductive Failure
  | error
  | exited
deriving DecidableEq

/-- What the branches on the key do with a key and a value. -/
inductive SetResult (σ : Type)
  | done (s : σ)
  | unknown
  | failed (why : Failure) (s : σ)

/-- What a line does; an assignment that was made is kept. -/
inductive LineResult (σ : Type)
  | applied (key value : CString) (s : σ)
  | stopped
  | failed (why : Failure) (s : σ)

/-- The result of a parser: `none` for success, the settings, and the
assignments that were made. -/
structure Parsed (σ : Type) where
  failure : Option Failure
  state : σ
  applied : List (CString × CString)

/-- The parser returns, and reports success. -/
def Succeeds {σ : Type} (result : Except Fault (Parsed σ)) : Prop :=
  ∃ r, result = .ok r ∧ r.failure = none

instance {σ : Type} (result : Except Fault (Parsed σ)) : Decidable (Succeeds result) :=
  match result with
  | .error _ => isFalse fun ⟨_, h, _⟩ => nomatch h
  | .ok r => decidable_of_iff (r.failure = none)
    ⟨fun h => ⟨r, rfl, h⟩, fun ⟨_, h, hsuccess⟩ => Except.ok.inj h ▸ hsuccess⟩

section Loop

variable {σ : Type} (maxLen : ℕ) (set : CString → CString → σ → Except Fault (SetResult σ))

/-- The body of the loop, once the bytes of the line are copied to `tmp` and a
NUL behind them.  The value is the string at `tmp[index + 2]`; that byte must
not be behind the NUL that was added, but the line may have one before. -/
def handleLine (line : List UInt8) (s : σ) : Except Fault (LineResult σ) :=
  let tmp := CString.ofMem line
  if maxLen < tmp.strlen then .ok (.failed .error s)
  else
    let index := parserGetIndexByParam tmp PARSER_DELIMETER
    if 0 > index then .ok .stopped
    else if line.length < index.toNat + 2 then .error .outOfBounds
    else do
      let beforeValue := tmp.take index.toNat
      let sliceAfterDelimeter := CString.ofMem (line.drop (index.toNat + 2))
      match ← set beforeValue sliceAfterDelimeter s with
      | .done s' => return .applied beforeValue sliceAfterDelimeter s'
      | .unknown => return .stopped
      | .failed why s' => return .failed why s'

/-- The loop over the lines and the scan for a line feed in one: `tmp` is the
line so far, and the list what lies behind. -/
def lineLoop (tmp : List UInt8) : List UInt8 → σ → Except Fault (Parsed σ)
  | [], _ => .error .outOfBounds
  | c :: buffer, s =>
    if c ≠ LINE_FEED then lineLoop (tmp ++ [c]) buffer s
    else do
      match ← handleLine maxLen set tmp s with
      | .stopped => return ⟨none, s, []⟩
      | .failed why s' => return ⟨some why, s', []⟩
      | .applied key value s' =>
        -- a NUL has cleared the flag
        if 0 ∈ tmp then return ⟨none, s', [(key, value)]⟩
        else
          let r ← lineLoop [] buffer s'
          return { r with applied := (key, value) :: r.applied }

end Loop

/-! ### The settings of a text -/

/-- The lines of a text; the NUL of the text belongs to the last one. -/
def textLines (text : CString) : List (List UInt8) := (text.bytes ++ [0]).splitOn LINE_FEED

/-- Where the delimiter of a line is. -/
def delimiterAt (line : List UInt8) : ℕ := (CString.ofMem line).bytes.idxOf PARSER_DELIMETER

/-- The line, read as a string, has a delimiter. -/
def HasDelimiter (line : List UInt8) : Prop := PARSER_DELIMETER ∈ (CString.ofMem line).bytes

instance : DecidablePred HasDelimiter := fun _ => inferInstanceAs (Decidable (_ ∈ _))

/-- What is in front of the delimiter. -/
def keyOf (line : List UInt8) : CString := (CString.ofMem line).take (delimiterAt line)

/-- The string two bytes behind the delimiter. -/
def valueOf (line : List UInt8) : CString := CString.ofMem (line.drop (delimiterAt line + 2))

/-- What the scan of the last line passes behind the NUL of the text. -/
def passed (behind : List UInt8) : List UInt8 := behind.takeWhile (· ≠ LINE_FEED)

/-- The lines that the loop sees of a text in memory. -/
def linesSeen (text : CString) (behind : List UInt8) : List (List UInt8) :=
  (text.bytes ++ 0 :: passed behind).splitOn LINE_FEED

section Settings

variable (known : CString → Bool)

/-- A line `key: value` with a known key. -/
def IsSetting (line : List UInt8) : Prop :=
  HasDelimiter line ∧ delimiterAt line + 2 ≤ line.length ∧ known (keyOf line) = true

/-- A line without a delimiter, or with an unknown key. -/
def Stops (line : List UInt8) : Prop := ¬ (HasDelimiter line ∧ known (keyOf line) = true)

instance (line : List UInt8) : Decidable (IsSetting known line) :=
  inferInstanceAs (Decidable (_ ∧ _))

instance (line : List UInt8) : Decidable (Stops known line) := inferInstanceAs (Decidable (¬ _))

/-- The settings that some lines make, in order. -/
def settingsOf (lines : List (List UInt8)) : List (CString × CString) :=
  (lines.filter (IsSetting known ·)).map fun line => (keyOf line, valueOf line)

/-- The settings that the lines of a text make. -/
def settings (text : CString) : List (CString × CString) := settingsOf known (textLines text)

/-- The last line of the text is `key:` with a known key, so that its value
begins behind the NUL of the text. -/
def BareEnd (text : CString) : Prop :=
  ∃ line ∈ (textLines text).getLast?, IsSetting known line ∧ line.length = delimiterAt line + 2

/-- What the memory behind the NUL must be for that value to be empty. -/
def EmptyBehind (text : CString) (behind : List UInt8) : Prop :=
  BareEnd known text → (passed behind).headD 0 = 0

instance (text : CString) : Decidable (BareEnd known text) :=
  inferInstanceAs (Decidable (∃ line ∈ _, _))

instance (text : CString) (behind : List UInt8) : Decidable (EmptyBehind known text behind) :=
  inferInstanceAs (Decidable (_ → _))

/-- No setting stands behind a line that stops the loop. -/
def NoneSkipped (lines : List (List UInt8)) : Prop :=
  ∀ front line back, lines = front ++ line :: back → Stops known line →
    settingsOf known back = []

end Settings

/-! ### One line -/

section Spec

variable {σ : Type} {maxLen : ℕ} {set : CString → CString → σ → Except Fault (SetResult σ)}
variable {line : List UInt8} {key value : CString} {s s' : σ}

/-- The delimiter of a line that is not too long. -/
theorem parserGetIndexByParam_eq {tmp : CString}
    (hlen : tmp.strlen ≤ PARSER_FILE_STROKE_MAX_LEN) (c : UInt8) :
    parserGetIndexByParam tmp c =
      if c ∈ tmp.bytes then (tmp.bytes.idxOf c : ℤ) else PARSER_INVALID_EXIT :=
  if_neg (Nat.not_lt.mpr hlen)

/-- The index of the delimiter of a line, if there is one. -/
theorem index_eq (hlen : (CString.ofMem line).strlen ≤ PARSER_FILE_STROKE_MAX_LEN) :
    parserGetIndexByParam (.ofMem line) PARSER_DELIMETER =
      if HasDelimiter line then (delimiterAt line : ℤ) else PARSER_INVALID_EXIT :=
  parserGetIndexByParam_eq hlen PARSER_DELIMETER

/-- With at most one NUL, at its end, the value is no longer than the line. -/
theorem strlen_valueOf_le (hnul : 0 ∉ line.dropLast) :
    (valueOf line).strlen ≤ (CString.ofMem line).strlen := by
  rcases List.eq_nil_or_concat' line with rfl | ⟨l, c, rfl⟩
  · exact Nat.zero_le _
  rw [List.dropLast_concat] at hnul
  have hline : (CString.ofMem (l ++ [c])).bytes = l ++ (CString.ofMem [c]).bytes :=
    CString.bytes_ofMem_append ⟨l, hnul⟩ [c]
  have hlen : (CString.ofMem (l ++ [c])).strlen = l.length + (CString.ofMem [c]).strlen := by
    rw [CString.strlen, hline, List.length_append]
    rfl
  rw [hlen, valueOf]
  by_cases hn : delimiterAt (l ++ [c]) + 2 ≤ l.length
  · have hrest : (0 : UInt8) ∉ l.drop (delimiterAt (l ++ [c]) + 2) := fun h =>
      hnul (List.mem_of_mem_drop h)
    rw [List.drop_append_of_le_length hn, CString.strlen,
      CString.bytes_ofMem_append ⟨_, hrest⟩, List.length_append, List.length_drop]
    exact Nat.add_le_add_right (Nat.sub_le _ _) _
  · -- at most the last byte is left
    refine (CString.strlen_ofMem_le _).trans ?_
    rw [List.length_drop, List.length_append, List.length_singleton]
    omega

/-- What a line can do, guards included. -/
theorem handleLine_cases (hmax : maxLen ≤ PARSER_FILE_STROKE_MAX_LEN) {r : LineResult σ}
    (h : handleLine maxLen set line s = .ok r) :
    (maxLen < (CString.ofMem line).strlen ∧ r = .failed .error s) ∨
      (CString.ofMem line).strlen ≤ maxLen ∧ (¬ HasDelimiter line ∧ r = .stopped ∨
        HasDelimiter line ∧ delimiterAt line + 2 ≤ line.length ∧
          (set (keyOf line) (valueOf line) s = .ok .unknown ∧ r = .stopped ∨
            (∃ s', set (keyOf line) (valueOf line) s = .ok (.done s') ∧
              r = .applied (keyOf line) (valueOf line) s') ∨
            ∃ why s', r = .failed why s')) := by
  unfold handleLine at h
  dsimp only at h
  by_cases hlong : maxLen < (CString.ofMem line).strlen
  · rw [if_pos hlong] at h
    exact .inl ⟨hlong, (Except.ok.inj h).symm⟩
  have hle : (CString.ofMem line).strlen ≤ maxLen := Nat.not_lt.mp hlong
  refine .inr ⟨hle, ?_⟩
  rw [if_neg hlong] at h
  rw [index_eq (hle.trans hmax)] at h
  by_cases hdelim : HasDelimiter line
  · right
    refine ⟨hdelim, ?_⟩
    have hindex : ¬ (0 : ℤ) > (delimiterAt line : ℤ) := by omega
    rw [if_pos hdelim] at h
    rw [if_neg hindex, Int.toNat_natCast] at h
    by_cases hshort : line.length < delimiterAt line + 2
    · rw [if_pos hshort] at h
      cases h
    · rw [if_neg hshort] at h
      refine ⟨Nat.not_lt.mp hshort, ?_⟩
      obtain ⟨result, hset, h⟩ := bind_eq_ok h
      cases result with
      | done s' => exact .inr (.inl ⟨s', hset, (Except.ok.inj h).symm⟩)
      | unknown => exact .inl ⟨hset, (Except.ok.inj h).symm⟩
      | failed why s' => exact .inr (.inr ⟨why, s', (Except.ok.inj h).symm⟩)
  · rw [if_neg hdelim] at h
    exact .inl ⟨hdelim, (Except.ok.inj h).symm⟩

/-! ### Behind the NUL -/

/-- Only the last line of a text in memory has a NUL, and goes on behind it. -/
theorem exists_lines (text : CString) :
    ∃ (front : List (List UInt8)) (last : CString), (∀ line ∈ front, (0 : UInt8) ∉ line) ∧
      ∀ seen, LINE_FEED ∉ seen →
        (text.bytes ++ 0 :: seen).splitOn LINE_FEED = front ++ [last.bytes ++ 0 :: seen] := by
  obtain ⟨text, htext⟩ := text
  induction hn : text.length using Nat.strong_induction_on generalizing text with
  | _ n ih =>
    subst hn
    by_cases hfeed : LINE_FEED ∈ text
    · obtain ⟨l, rest, rfl, hl⟩ := List.eq_append_cons_of_mem hfeed
      have hl0 : (0 : UInt8) ∉ l := fun hmem => htext (List.mem_append_left _ hmem)
      have hrest0 : (0 : UInt8) ∉ rest := fun hmem =>
        htext (List.mem_append_right _ (List.mem_cons_of_mem _ hmem))
      have hshorter : rest.length < (l ++ LINE_FEED :: rest).length := by
        rw [List.length_append, List.length_cons]
        omega
      obtain ⟨front, last, hfront, hsplit⟩ := ih _ hshorter rest hrest0 rfl
      refine ⟨l :: front, last, List.forall_mem_cons.mpr ⟨hl0, hfront⟩, fun seen hseen => ?_⟩
      show (l ++ LINE_FEED :: rest ++ 0 :: seen).splitOn LINE_FEED = _
      rw [List.append_assoc, List.cons_append, List.splitOn_append_cons_self,
        List.splitOn_eq_singleton hl]
      exact congrArg ([l] ++ ·) (hsplit seen hseen)
    · refine ⟨[], ⟨text, htext⟩, fun line h => absurd h List.not_mem_nil, fun seen hseen => ?_⟩
      refine List.splitOn_eq_singleton fun hmem => ?_
      rcases List.mem_append.mp hmem with hmem | hmem
      · exact hfeed hmem
      · exact (List.mem_cons.mp hmem).elim (by decide) hseen

theorem feed_not_mem_passed (behind : List UInt8) : LINE_FEED ∉ passed behind := fun hmem =>
  absurd (List.mem_takeWhile_imp hmem) (by decide)

section Text

variable (text : CString) (seen : List UInt8)

theorem ofMem_line_append_nul : CString.ofMem (text.bytes ++ 0 :: seen) = text :=
  (CString.ofMem_append_nul _ _).trans (CString.ofMem_bytes text)

theorem delimiterAt_append_nul :
    delimiterAt (text.bytes ++ 0 :: seen) = text.bytes.idxOf PARSER_DELIMETER := by
  rw [delimiterAt, ofMem_line_append_nul]

theorem keyOf_append_nul :
    keyOf (text.bytes ++ 0 :: seen) = text.take (text.bytes.idxOf PARSER_DELIMETER) := by
  rw [keyOf, delimiterAt_append_nul, ofMem_line_append_nul]

theorem hasDelimiter_append_nul :
    HasDelimiter (text.bytes ++ 0 :: seen) ↔ PARSER_DELIMETER ∈ text.bytes := by
  rw [HasDelimiter, ofMem_line_append_nul]

variable {known : CString → Bool}

theorem stops_append_nul :
    Stops known (text.bytes ++ 0 :: seen) ↔ Stops known (text.bytes ++ [0]) := by
  rw [Stops, Stops, hasDelimiter_append_nul, hasDelimiter_append_nul, keyOf_append_nul,
    keyOf_append_nul]

/-- The NUL leaves room for a value. -/
theorem isSetting_append_nul : IsSetting known (text.bytes ++ 0 :: seen) ↔
    PARSER_DELIMETER ∈ text.bytes ∧
      known (text.take (text.bytes.idxOf PARSER_DELIMETER)) = true := by
  rw [IsSetting, hasDelimiter_append_nul, keyOf_append_nul, delimiterAt_append_nul,
    List.length_append, List.length_cons]
  refine and_congr_right fun hdelim => and_iff_right ?_
  have hlt := List.idxOf_lt_length_iff.mpr hdelim
  omega

/-- The value is the same, or begins with what is behind the NUL. -/
theorem valueOf_append_nul_iff (hdelim : PARSER_DELIMETER ∈ text.bytes) :
    valueOf (text.bytes ++ 0 :: seen) = valueOf (text.bytes ++ [0]) ↔
      (text.bytes.idxOf PARSER_DELIMETER + 1 = text.bytes.length → seen.headD 0 = 0) := by
  have hlt := List.idxOf_lt_length_iff.mpr hdelim
  rw [valueOf, valueOf, delimiterAt_append_nul, delimiterAt_append_nul]
  by_cases hinside : text.bytes.idxOf PARSER_DELIMETER + 2 ≤ text.bytes.length
  · refine iff_of_true ?_ fun hlast => by omega
    rw [List.drop_append_of_le_length hinside, List.drop_append_of_le_length hinside,
      CString.ofMem_append_nul, CString.ofMem_append_nul]
  · -- the delimiter is the last byte of the text
    have hlast : text.bytes.idxOf PARSER_DELIMETER + 1 = text.bytes.length := by omega
    have hdrop : ∀ l : List UInt8,
        (text.bytes ++ 0 :: l).drop (text.bytes.idxOf PARSER_DELIMETER + 2) = l := by
      intro l
      rw [show text.bytes.idxOf PARSER_DELIMETER + 2 = text.bytes.length + 1 by omega,
        ← List.drop_drop, List.drop_left]
      rfl
    rw [hdrop, hdrop, forall_prop_of_true hlast]
    exact CString.ofMem_bytes_append_iff (s := .ofMem [])

end Text

/-! ### Assignments -/

/-- The assignments, one after the other. -/
inductive Sets (set : CString → CString → σ → Except Fault (SetResult σ)) :
    σ → List (CString × CString) → σ → Prop
  | nil (s : σ) : Sets set s [] s
  | cons {s s' s'' : σ} {key value : CString} {kvs : List (CString × CString)} :
      set key value s = .ok (.done s') → Sets set s' kvs s'' → Sets set s ((key, value) :: kvs) s''

/-- The values that a key was given, in order. -/
def valuesOf (key : CString) (kvs : List (CString × CString)) : List CString :=
  (kvs.filter (·.1 = key)).map (·.2)

theorem valuesOf_cons_self (key value : CString) (kvs : List (CString × CString)) :
    valuesOf key ((key, value) :: kvs) = value :: valuesOf key kvs := by
  simp [valuesOf]

theorem valuesOf_cons_of_ne {key' : CString} (hne : key' ≠ key) (value : CString)
    (kvs : List (CString × CString)) : valuesOf key ((key', value) :: kvs) = valuesOf key kvs := by
  simp [valuesOf, hne]

theorem mem_valuesOf {kvs : List (CString × CString)} :
    value ∈ valuesOf key kvs ↔ (key, value) ∈ kvs := by
  constructor
  · intro h
    obtain ⟨⟨key', value'⟩, hmem, rfl⟩ := List.mem_map.mp h
    obtain ⟨hkv, hkey⟩ := List.mem_filter.mp hmem
    obtain rfl : key' = key := of_decide_eq_true hkey
    exact hkv
  · intro h
    exact List.mem_map.mpr ⟨(key, value), List.mem_filter.mpr ⟨h, decide_eq_true rfl⟩, rfl⟩

theorem mem_of_getLast?_valuesOf {kvs : List (CString × CString)}
    (h : (valuesOf key kvs).getLast? = some value) : (key, value) ∈ kvs :=
  mem_valuesOf.mp (List.mem_of_getLast? h)

/-- **A part of the settings that only one key changes** is a fold over the
values of that key. -/
theorem Sets.part {β : Type} {step : β → CString → β} {kvs : List (CString × CString)}
    (h : Sets set s kvs s') (part : σ → β) (good : CString × CString → Prop)
    (hkey : ∀ {value s s'}, set key value s = .ok (.done s') →
      part s' = step (part s) value)
    (hother : ∀ {key' value s s'}, key' ≠ key → good (key', value) →
      set key' value s = .ok (.done s') → part s' = part s)
    (hgood : ∀ kv ∈ kvs, good kv) :
    part s' = (valuesOf key kvs).foldl step (part s) := by
  induction h with
  | nil s => rfl
  | @cons s₁ s₂ s₃ key' value kvs hset _ ih =>
    have hrest := ih fun kv hkv => hgood kv (List.mem_cons_of_mem _ hkv)
    rw [hrest]
    by_cases hkeys : key' = key
    · subst hkeys
      rw [hkey hset, valuesOf_cons_self]
      rfl
    · rw [hother hkeys (hgood _ List.mem_cons_self) hset, valuesOf_cons_of_ne hkeys]

/-- A part that is stored whole has the last value. -/
theorem foldl_eq_of_getLast? {β : Type} {stored : CString → β} {vs : List CString} (b : β)
    (h : vs.getLast? = some value) : vs.foldl (fun _ v => stored v) b = stored value := by
  obtain ⟨front, rfl⟩ := List.getLast?_eq_some_iff.mp h
  rw [List.foldl_append]
  rfl

/-- Only known keys are assigned. -/
theorem Sets.forall_known {known : CString → Bool}
    (hknown : ∀ key value s r, set key value s = .ok r → (r = .unknown ↔ known key = false))
    {kvs : List (CString × CString)} (h : Sets set s kvs s') : ∀ kv ∈ kvs, known kv.1 = true := by
  induction h with
  | nil s => exact fun kv hkv => absurd hkv List.not_mem_nil
  | @cons s₁ s₂ s₃ key value kvs hset _ ih =>
    refine List.forall_mem_cons.mpr ⟨?_, ih⟩
    by_contra hkey
    cases (hknown _ _ _ _ hset).mpr (Bool.eq_false_of_not_eq_true hkey)

/-! ### The loop -/

theorem lineLoop_append {tmp l buffer : List UInt8} (hl : LINE_FEED ∉ l) :
    lineLoop maxLen set tmp (l ++ buffer) s = lineLoop maxLen set (tmp ++ l) buffer s := by
  induction l generalizing tmp with
  | nil => rw [List.nil_append, List.append_nil]
  | cons c l ih =>
    have hc : c ≠ LINE_FEED := fun hc => hl (hc ▸ List.mem_cons_self)
    have hl' : LINE_FEED ∉ l := fun h => hl (List.mem_cons_of_mem c h)
    rw [List.cons_append, lineLoop, if_pos hc, ih hl', List.append_assoc, List.singleton_append]

/-- Without a line feed the scan leaves the memory. -/
theorem lineLoop_of_not_mem {tmp buffer : List UInt8} (h : LINE_FEED ∉ buffer) :
    lineLoop maxLen set tmp buffer s = .error .outOfBounds := by
  rw [← List.append_nil buffer, lineLoop_append h]
  rfl

variable {known : CString → Bool}

/-- What a successful run has done with the lines: each was applied, up to the
end or to a line that stops the loop. -/
inductive Reads (maxLen : ℕ) (set : CString → CString → σ → Except Fault (SetResult σ))
    (known : CString → Bool) : List (List UInt8) → σ → List (CString × CString) → σ → Prop
  | finished (s : σ) : Reads maxLen set known [] s [] s
  | stopped {line : List UInt8} {lines : List (List UInt8)} {s : σ} :
      Stops known line → Reads maxLen set known (line :: lines) s [] s
  | applied {line : List UInt8} {lines : List (List UInt8)} {s s' s'' : σ}
      {kvs : List (CString × CString)} :
      IsSetting known line → (CString.ofMem line).strlen ≤ maxLen →
      set (keyOf line) (valueOf line) s = .ok (.done s') → Reads maxLen set known lines s' kvs s'' →
      Reads maxLen set known (line :: lines) s ((keyOf line, valueOf line) :: kvs) s''

theorem not_stops_of_isSetting (h : IsSetting known line) : ¬ Stops known line :=
  fun hstops => hstops ⟨h.1, h.2.2⟩

section Known

variable (hmax : maxLen ≤ PARSER_FILE_STROKE_MAX_LEN)
variable (hknown : ∀ key value s r, set key value s = .ok r → (r = .unknown ↔ known key = false))

include hmax hknown

/-- At a line feed: the loop stops, or makes an assignment and goes on, unless a
NUL has been seen. -/
theorem lineLoop_feed {tmp buffer : List UInt8} {r : Parsed σ}
    (h : lineLoop maxLen set tmp (LINE_FEED :: buffer) s = .ok r) (hsuccess : r.failure = none) :
    (Stops known tmp ∧ r.state = s ∧ r.applied = []) ∨
      ∃ s', IsSetting known tmp ∧ (CString.ofMem tmp).strlen ≤ maxLen ∧
        set (keyOf tmp) (valueOf tmp) s = .ok (.done s') ∧
        (0 ∈ tmp ∧ r.state = s' ∧ r.applied = [(keyOf tmp, valueOf tmp)] ∨
          0 ∉ tmp ∧ ∃ r', lineLoop maxLen set [] buffer s' = .ok r' ∧ r'.failure = none ∧
            r.state = r'.state ∧ r.applied = (keyOf tmp, valueOf tmp) :: r'.applied) := by
  rw [lineLoop, if_neg (fun hne => hne rfl)] at h
  obtain ⟨result, hresult, h⟩ := bind_eq_ok h
  obtain ⟨-, rfl⟩ | ⟨hlen, hcases⟩ := handleLine_cases hmax hresult
  · obtain rfl := Except.ok.inj h
    cases hsuccess
  obtain ⟨hdelim, rfl⟩ | ⟨hdelim, hindex, ⟨hset, rfl⟩ | ⟨s', hset, rfl⟩ | ⟨why, s', rfl⟩⟩ := hcases
  · obtain rfl := Except.ok.inj h
    exact .inl ⟨fun hline => hdelim hline.1, rfl, rfl⟩
  · obtain rfl := Except.ok.inj h
    refine .inl ⟨fun hline => ?_, rfl, rfl⟩
    exact absurd hline.2 (by rw [(hknown _ _ _ _ hset).mp rfl]; exact Bool.false_ne_true)
  · have hkey : known (keyOf tmp) = true := by
      by_contra hkey
      cases (hknown _ _ _ _ hset).mpr (Bool.eq_false_of_not_eq_true hkey)
    refine .inr ⟨s', ⟨hdelim, hindex, hkey⟩, hlen, hset, ?_⟩
    dsimp only at h
    by_cases hnul : 0 ∈ tmp
    · rw [if_pos hnul] at h
      obtain rfl := Except.ok.inj h
      exact .inl ⟨hnul, rfl, rfl⟩
    · rw [if_neg hnul] at h
      obtain ⟨r', hr', h⟩ := bind_eq_ok h
      obtain rfl := Except.ok.inj h
      exact .inr ⟨hnul, r', hr', hsuccess, rfl, rfl⟩
  · obtain rfl := Except.ok.inj h
    cases hsuccess

/-- The last line: the scan goes on behind the NUL, to a line feed there. -/
theorem lineLoop_reads_last {last : CString} {behind : List UInt8}
    (hfeed : LINE_FEED ∉ last.bytes) {r : Parsed σ}
    (h : lineLoop maxLen set [] (last.bytes ++ 0 :: behind) s = .ok r)
    (hsuccess : r.failure = none) :
    Reads maxLen set known [last.bytes ++ 0 :: passed behind] s r.applied r.state := by
  have hnofeed : ∀ {l : List UInt8}, LINE_FEED ∉ l → LINE_FEED ∉ last.bytes ++ 0 :: l := by
    intro l hl hmem
    rcases List.mem_append.mp hmem with hmem | hmem
    · exact hfeed hmem
    · exact (List.mem_cons.mp hmem).elim (by decide) hl
  by_cases hbehind : LINE_FEED ∈ behind
  · obtain ⟨l, rest, rfl, hl⟩ := List.eq_append_cons_of_mem hbehind
    have hpassed : passed (l ++ LINE_FEED :: rest) = l := by
      have hall : ∀ c ∈ l, decide (c ≠ LINE_FEED) = true := fun c hc =>
        decide_eq_true fun he => hl (he ▸ hc)
      rw [passed, List.takeWhile_append_of_pos hall, List.takeWhile_cons_of_neg (by decide),
        List.append_nil]
    rw [hpassed]
    rw [show last.bytes ++ 0 :: (l ++ LINE_FEED :: rest) =
        (last.bytes ++ 0 :: l) ++ LINE_FEED :: rest by rw [List.append_assoc, List.cons_append],
      lineLoop_append (hnofeed hl), List.nil_append] at h
    obtain ⟨hstops, hstate, happlied⟩ | ⟨s', hsetting, hlen, hset, hcases⟩ :=
      lineLoop_feed hmax hknown h hsuccess
    · rw [hstate, happlied]
      exact .stopped hstops
    obtain ⟨-, hstate, happlied⟩ | ⟨hnul, -⟩ := hcases
    · rw [hstate, happlied]
      exact .applied hsetting hlen hset (.finished s')
    · exact absurd (List.mem_append_right _ List.mem_cons_self) hnul
  · rw [lineLoop_of_not_mem (hnofeed hbehind)] at h
    cases h

/-- **A successful run** over a text, whatever lies behind its NUL. -/
theorem lineLoop_reads {text : CString} {behind : List UInt8} {r : Parsed σ}
    (h : lineLoop maxLen set [] (text.bytes ++ 0 :: behind) s = .ok r)
    (hsuccess : r.failure = none) :
    Reads maxLen set known (linesSeen text behind) s r.applied r.state := by
  obtain ⟨text, htext⟩ := text
  induction hn : text.length using Nat.strong_induction_on generalizing text s r with
  | _ n ih =>
    subst hn
    by_cases hfeed : LINE_FEED ∈ text
    · obtain ⟨l, rest, rfl, hl⟩ := List.eq_append_cons_of_mem hfeed
      have hl0 : (0 : UInt8) ∉ l := fun hmem => htext (List.mem_append_left _ hmem)
      have hrest0 : (0 : UInt8) ∉ rest := fun hmem =>
        htext (List.mem_append_right _ (List.mem_cons_of_mem _ hmem))
      have hlines : linesSeen ⟨l ++ LINE_FEED :: rest, htext⟩ behind =
          l :: linesSeen ⟨rest, hrest0⟩ behind := by
        show (l ++ LINE_FEED :: rest ++ 0 :: passed behind).splitOn LINE_FEED = _
        rw [List.append_assoc, List.cons_append, List.splitOn_append_cons_self,
          List.splitOn_eq_singleton hl]
        rfl
      dsimp only at h
      rw [List.append_assoc, lineLoop_append hl, List.nil_append, List.cons_append] at h
      rw [hlines]
      obtain ⟨hstops, hstate, happlied⟩ | ⟨s', hsetting, hlen, hset, hcases⟩ :=
        lineLoop_feed hmax hknown h hsuccess
      · rw [hstate, happlied]
        exact .stopped hstops
      obtain ⟨hnul, -⟩ | ⟨-, r', hr', hsuccess', hstate, happlied⟩ := hcases
      · exact absurd hnul hl0
      · have hshorter : rest.length < (l ++ LINE_FEED :: rest).length := by
          rw [List.length_append, List.length_cons]
          omega
        rw [hstate, happlied]
        exact .applied hsetting hlen hset (ih _ hshorter hsuccess' rest hrest0 hr' rfl)
    · have hlast : LINE_FEED ∉ text ++ 0 :: passed behind := by
        intro hmem
        rcases List.mem_append.mp hmem with hmem | hmem
        · exact hfeed hmem
        · exact (List.mem_cons.mp hmem).elim (by decide) (feed_not_mem_passed behind)
      rw [linesSeen, List.splitOn_eq_singleton hlast]
      exact lineLoop_reads_last hmax hknown hfeed h hsuccess

end Known

/-- A line of a text has no NUL but the one at its end. -/
theorem nul_not_mem_textLines (text : CString) :
    ∀ line ∈ textLines text, (0 : UInt8) ∉ line.dropLast := by
  obtain ⟨front, last, hfront, hsplit⟩ := exists_lines text
  rw [textLines, hsplit [] List.not_mem_nil]
  intro line hline
  rcases List.mem_append.mp hline with hline | hline
  · exact fun hmem => hfront line hline (List.mem_of_mem_dropLast hmem)
  · rw [List.mem_singleton.mp hline, List.dropLast_concat]
    exact last.noNul

/-! ### What has been read -/

variable {lines : List (List UInt8)} {kvs : List (CString × CString)}

theorem settingsOf_cons_of_isSetting (h : IsSetting known line) (lines : List (List UInt8)) :
    settingsOf known (line :: lines) = (keyOf line, valueOf line) :: settingsOf known lines := by
  simp [settingsOf, h]

theorem settingsOf_cons_of_stops (h : Stops known line) (lines : List (List UInt8)) :
    settingsOf known (line :: lines) = settingsOf known lines := by
  have hnot : ¬ IsSetting known line := fun hsetting => not_stops_of_isSetting hsetting h
  simp [settingsOf, hnot]

theorem Reads.sets (h : Reads maxLen set known lines s kvs s') : Sets set s kvs s' := by
  induction h with
  | finished s => exact .nil s
  | stopped _ => exact .nil _
  | applied _ _ hset _ ih => exact .cons hset ih

/-- The assignments are those of the lines in front of the first that stops the
loop. -/
theorem Reads.eq_settingsOf_takeWhile (h : Reads maxLen set known lines s kvs s') :
    kvs = settingsOf known (lines.takeWhile (¬ Stops known ·)) := by
  induction h with
  | finished s => rfl
  | stopped hstops =>
    rw [List.takeWhile_cons, if_neg (by simpa using hstops)]
    rfl
  | applied hsetting _ _ _ ih =>
    rw [List.takeWhile_cons, if_pos (decide_eq_true (not_stops_of_isSetting hsetting)),
      settingsOf_cons_of_isSetting hsetting, ← ih]

/-- The values of a text are no longer than its lines may be. -/
theorem Reads.strlen_le (h : Reads maxLen set known lines s kvs s')
    (hnul : ∀ line ∈ lines, (0 : UInt8) ∉ line.dropLast) : ∀ kv ∈ kvs, kv.2.strlen ≤ maxLen := by
  induction h with
  | finished s => exact fun kv hkv => absurd hkv List.not_mem_nil
  | stopped _ => exact fun kv hkv => absurd hkv List.not_mem_nil
  | @applied line _ _ _ _ _ _ hlen _ _ ih =>
    obtain ⟨hline, hlines⟩ := List.forall_mem_cons.mp hnul
    exact List.forall_mem_cons.mpr ⟨(strlen_valueOf_le hline).trans hlen, ih hlines⟩

/-- Behind a line that stops the loop there must be nothing. -/
theorem noneSkipped_cons_of_stops (h : Stops known line) :
    NoneSkipped known (line :: lines) ↔ settingsOf known lines = [] := by
  constructor
  · exact fun hnone => hnone [] line lines rfl h
  · intro hnil front line' back hsplit _
    have hback : back.Sublist lines := by
      rcases front with - | ⟨line'', front⟩
      · obtain ⟨-, rfl⟩ := List.cons.inj hsplit
        exact List.Sublist.refl _
      · obtain ⟨-, rfl⟩ := List.cons.inj hsplit
        exact (List.sublist_cons_self line' back).trans (List.sublist_append_right front _)
    have hsettings : (settingsOf known back).Sublist (settingsOf known lines) :=
      (hback.filter _).map _
    exact List.sublist_nil.mp (hnil ▸ hsettings)

theorem noneSkipped_cons_of_not_stops (h : ¬ Stops known line) :
    NoneSkipped known (line :: lines) ↔ NoneSkipped known lines := by
  constructor
  · intro hnone front line' back hsplit
    exact hnone (line :: front) line' back (by rw [hsplit, List.cons_append])
  · intro hnone front line' back hsplit hstops
    rcases front with - | ⟨line'', front⟩
    · obtain ⟨rfl, -⟩ := List.cons.inj hsplit
      exact absurd hstops h
    · exact hnone front line' back (List.cons.inj hsplit).2 hstops

/-- It can be tested from line to line. -/
instance decidableNoneSkipped : DecidablePred (NoneSkipped known)
  | [] => isTrue fun front line back hsplit =>
    absurd hsplit.symm (List.append_ne_nil_of_right_ne_nil front (List.cons_ne_nil line back))
  | line :: lines =>
    if hstops : Stops known line then
      decidable_of_iff (settingsOf known lines = []) (noneSkipped_cons_of_stops hstops).symm
    else
      have : Decidable (NoneSkipped known lines) := decidableNoneSkipped lines
      decidable_of_iff (NoneSkipped known lines) (noneSkipped_cons_of_not_stops hstops).symm

/-- **Everything has been applied** exactly when no line has stopped the loop
too early. -/
theorem Reads.eq_settingsOf_iff (h : Reads maxLen set known lines s kvs s') :
    kvs = settingsOf known lines ↔ NoneSkipped known lines := by
  induction h with
  | finished s =>
    refine iff_of_true rfl fun front line back hsplit => ?_
    exact absurd hsplit.symm (List.append_ne_nil_of_right_ne_nil front (List.cons_ne_nil line back))
  | stopped hstops =>
    rw [noneSkipped_cons_of_stops hstops, settingsOf_cons_of_stops hstops, eq_comm]
  | applied hsetting _ _ _ ih =>
    rw [noneSkipped_cons_of_not_stops (not_stops_of_isSetting hsetting),
      settingsOf_cons_of_isSetting hsetting, ← ih]
    exact List.cons_eq_cons.trans (and_iff_right rfl)

/-! ### The text in memory -/

variable {text : CString} {behind : List UInt8}

/-- The last line may be exchanged for one that is read alike. -/
theorem Reads.exchange {front : List (List UInt8)} {last last' : List UInt8}
    (h : Reads maxLen set known (front ++ [last]) s kvs s')
    (hstops : Stops known last → Stops known last')
    (hsetting : IsSetting known last → IsSetting known last' ∧ keyOf last = keyOf last' ∧
      valueOf last = valueOf last')
    (hlen : CString.ofMem last = CString.ofMem last') :
    Reads maxLen set known (front ++ [last']) s kvs s' := by
  induction front generalizing s kvs with
  | nil =>
    cases h with
    | stopped h => exact .stopped (hstops h)
    | applied hset hle hs h =>
      obtain ⟨hset', hkey, hvalue⟩ := hsetting hset
      rw [hkey, hvalue] at hs ⊢
      exact .applied hset' (hlen ▸ hle) hs h
  | cons line front ih =>
    cases h with
    | stopped h => exact .stopped h
    | applied hset hle hs h => exact .applied hset hle hs (ih h)

theorem settingsOf_append (front back : List (List UInt8)) :
    settingsOf known (front ++ back) = settingsOf known front ++ settingsOf known back := by
  rw [settingsOf, List.filter_append, List.map_append]
  rfl

theorem settingsOf_singleton (h : IsSetting known line) :
    settingsOf known [line] = [(keyOf line, valueOf line)] := settingsOf_cons_of_isSetting h []

/-- **What is behind the NUL plays no part** if the last value is empty there. -/
theorem Reads.of_seen (h : Reads maxLen set known (linesSeen text behind) s kvs s')
    (hempty : EmptyBehind known text behind) :
    Reads maxLen set known (textLines text) s kvs s' := by
  obtain ⟨front, last, -, hsplit⟩ := exists_lines text
  have hlines : textLines text = front ++ [last.bytes ++ [0]] := hsplit [] List.not_mem_nil
  rw [linesSeen, hsplit _ (feed_not_mem_passed behind)] at h
  rw [hlines]
  refine h.exchange (stops_append_nul _ _).mp (fun hsetting => ?_) ?_
  · have hkey := (isSetting_append_nul _ _).mp hsetting
    have hsetting' : IsSetting known (last.bytes ++ [0]) := (isSetting_append_nul _ _).mpr hkey
    refine ⟨hsetting', (keyOf_append_nul _ _).trans (keyOf_append_nul _ _).symm,
      (valueOf_append_nul_iff _ _ hkey.1).mpr fun hlast => hempty ⟨_, ?_, hsetting', ?_⟩⟩
    · rw [hlines, List.getLast?_concat]
      rfl
    · rw [delimiterAt_append_nul, List.length_append, ← hlast]
      rfl
  · exact (ofMem_line_append_nul _ _).trans (ofMem_line_append_nul _ _).symm

/-- **The settings of the text have been made** exactly when no line has stopped
the loop too early, and no value was found behind the NUL. -/
theorem Reads.eq_settings_iff (h : Reads maxLen set known (linesSeen text behind) s kvs s') :
    kvs = settings known text ↔
      NoneSkipped known (textLines text) ∧ EmptyBehind known text behind := by
  constructor
  · intro hall
    have hempty : EmptyBehind known text behind := by
      obtain ⟨front, last, -, hsplit⟩ := exists_lines text
      have hlines : textLines text = front ++ [last.bytes ++ [0]] := hsplit [] List.not_mem_nil
      rintro ⟨line, hline, hsetting, hbare⟩
      rw [hlines, List.getLast?_concat] at hline
      obtain rfl := Option.some.inj hline
      have hkey := (isSetting_append_nul _ _).mp hsetting
      have hseen : IsSetting known (last.bytes ++ 0 :: passed behind) :=
        (isSetting_append_nul _ _).mpr hkey
      -- as many settings as the lines have, so these are all of them
      have hpre : kvs <+: settingsOf known (linesSeen text behind) := by
        rw [h.eq_settingsOf_takeWhile]
        exact ((List.takeWhile_prefix _).filter _).map _
      rw [linesSeen, hsplit _ (feed_not_mem_passed behind), settingsOf_append,
        settingsOf_singleton hseen] at hpre
      rw [hall, settings, hlines, settingsOf_append, settingsOf_singleton hsetting] at hpre
      have hsame := List.append_cancel_left (hpre.eq_of_length (by simp))
      have hvalue : valueOf (last.bytes ++ [0]) = valueOf (last.bytes ++ 0 :: passed behind) :=
        (Prod.mk.inj (List.singleton_inj.mp hsame)).2
      refine (valueOf_append_nul_iff _ _ hkey.1).mp hvalue.symm ?_
      rw [delimiterAt_append_nul, List.length_append] at hbare
      exact (Nat.add_right_cancel hbare).symm
    exact ⟨(h.of_seen hempty).eq_settingsOf_iff.mp hall, hempty⟩
  · rintro ⟨hnone, hempty⟩
    exact (h.of_seen hempty).eq_settingsOf_iff.mpr hnone

end Spec

end SecuritySystem

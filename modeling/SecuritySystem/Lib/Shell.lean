/-
SecuritySystem/Lib/Shell.lean

How a POSIX shell reads a command line: token recognition and quoting.

The reader takes one byte at a time.  A blank ends a word, a newline or a byte
of an operator ends it and is a token of its own, a backslash, single quotes
and double quotes take bytes into the word, and `#` at the beginning of a word
starts a comment.  The text of a word is what is left when the quotes are
removed.  A word that holds an expansion (`$` or a backquote) has no fixed
text, and an open quote at the end is no command: for both there is no
reading.

What a shell does with the words afterwards is no part of these rules; which of
them tilde and pathname expansion may replace is said by `mayExpand`.  An
operator of two bytes is read as two operators here.

`lex_unwords` says that plain words are read as they stand.  The converse goes
by a count of bytes: every byte is the text of a word, ends a word, or is lost
(`weight_le`), so a line that is read as words which use up all of its bytes
has lost none.
-/
import Mathlib.Data.List.Basic
import Mathlib.Algebra.GroupWithZero.Nat
import Mathlib.Algebra.Order.Group.Nat

namespace Shell

/-! ### The reader -/

/-- A word with its quotes removed, the end of a line, or an operator character. -/
inductive Token
  | word (text : List UInt8)
  | newline
  | operator (c : UInt8)
deriving DecidableEq

/-- The blank. -/
def space : UInt8 := 32

/-- The horizontal tab. -/
def tab : UInt8 := 9

/-- The line feed. -/
def newlineByte : UInt8 := 10

/-- It quotes the byte behind it. -/
def backslash : UInt8 := 92

/-- All is quoted up to the next one. -/
def singleQuote : UInt8 := 39

/-- Nearly all is quoted up to the next one. -/
def doubleQuote : UInt8 := 34

/-- It begins an expansion. -/
def dollar : UInt8 := 36

/-- It begins a command substitution. -/
def backquote : UInt8 := 96

/-- It begins a comment at the start of a word. -/
def hash : UInt8 := 35

/-- `| & ; < > ( )` -/
def operators : List UInt8 := [124, 38, 59, 60, 62, 40, 41]

/-- What a byte that ends a word is read as. -/
def delimiter (c : UInt8) : Option (List Token) :=
  if c = space ∨ c = tab then some []
  else if c = newlineByte then some [.newline]
  else if c ∈ operators then some [.operator c]
  else none

/-- Where the reader stands: between words, in a word with the text so far, in
a quote, or in a comment. -/
inductive Mode
  | gap
  | word (text : List UInt8)
  /-- behind a backslash, in a word or at the beginning of one -/
  | escape (text : Option (List UInt8))
  | single (text : List UInt8)
  | double (text : List UInt8)
  /-- behind a backslash in double quotes -/
  | doubleEscape (text : List UInt8)
  | comment
deriving DecidableEq

/-- A byte that does not end a word, in a word or at the beginning of one. -/
def wordByte (text : Option (List UInt8)) (c : UInt8) : Option Mode :=
  if c = backslash then some (.escape text)
  else if c = singleQuote then some (.single (text.getD []))
  else if c = doubleQuote then some (.double (text.getD []))
  else if c = dollar ∨ c = backquote then none
  else some (.word (text.getD [] ++ [c]))

/-- One byte, with the tokens that end there. -/
def step (m : Mode) (c : UInt8) : Option (List Token × Mode) :=
  match m with
  | .gap =>
    match delimiter c with
    | some out => some (out, .gap)
    | none => if c = hash then some ([], .comment) else (wordByte none c).map fun m => ([], m)
  | .word text =>
    match delimiter c with
    | some out => some (.word text :: out, .gap)
    | none => (wordByte (some text) c).map fun m => ([], m)
  | .escape text =>
    if c = newlineByte then some ([], text.elim .gap .word)
    else some ([], .word (text.getD [] ++ [c]))
  | .single text => some ([], if c = singleQuote then .word text else .single (text ++ [c]))
  | .double text =>
    if c = doubleQuote then some ([], .word text)
    else if c = backslash then some ([], .doubleEscape text)
    else if c = dollar ∨ c = backquote then none
    else some ([], .double (text ++ [c]))
  | .doubleEscape text =>
    if c = newlineByte then some ([], .double text)
    else if c ∈ [dollar, backquote, doubleQuote, backslash] then some ([], .double (text ++ [c]))
    else some ([], .double (text ++ [backslash, c]))
  | .comment => some (if c = newlineByte then ([.newline], .gap) else ([], .comment))

/-- The tokens at the end of the line. -/
def Mode.final : Mode → Option (List Token)
  | .gap | .comment => some []
  | .word text => some [.word text]
  | _ => none

/-- The tokens of what is left of a line, read on from a mode. -/
def lexFrom : Mode → List UInt8 → Option (List Token)
  | m, [] => m.final
  | m, c :: cs => (step m c).bind fun (out, m) => (lexFrom m cs).map (out ++ ·)

/-- The tokens of a command line. -/
def lex (line : List UInt8) : Option (List Token) := lexFrom .gap line

/-! ### Plain words -/

/-- Bytes that end a word, quote, or begin an expansion. -/
def special (c : UInt8) : Bool :=
  (delimiter c).isSome || c ∈ [backslash, singleQuote, doubleQuote, dollar, backquote]

/-- A word that the shell reads as it stands. -/
structure Plain (w : List UInt8) : Prop where
  nonempty : w ≠ []
  noSpecial : ∀ c ∈ w, special c = false
  noHash : w.head? ≠ some hash

instance (w : List UInt8) : Decidable (Plain w) :=
  -- along the word, not over all bytes
  have : Decidable (∀ c ∈ w, special c = false) := List.decidableBAll (special · = false) w
  decidable_of_iff (w ≠ [] ∧ (∀ c ∈ w, special c = false) ∧ w.head? ≠ some hash)
    ⟨fun h => ⟨h.1, h.2.1, h.2.2⟩, fun h => ⟨h.1, h.2, h.3⟩⟩

/-- It stands for a home directory at the start of a word. -/
def tilde : UInt8 := 126

/-- `* ? [` -/
def patterns : List UInt8 := [42, 63, 91]

/-- A word that the shell may replace: a pattern, or one with a tilde in front. -/
def mayExpand (w : List UInt8) : Bool := w.any (· ∈ patterns) || w.head? = some tilde

/-- Bytes that are a part of the word, wherever they stand in it. -/
def inert (c : UInt8) : Bool := !special c && c ∉ hash :: tilde :: patterns

variable {c : UInt8} {w rest : List UInt8} {m : Mode} {ts : List Token}

theorem inert_iff :
    inert c = true ↔ special c = false ∧ c ≠ hash ∧ c ≠ tilde ∧ c ∉ patterns := by
  simp [inert]

theorem plain_of_inert (hne : w ≠ []) (h : w.all inert = true) : Plain w where
  nonempty := hne
  noSpecial c hc := (inert_iff.mp (List.all_eq_true.mp h c hc)).1
  noHash hhash := (inert_iff.mp (List.all_eq_true.mp h hash (List.mem_of_head? hhash))).2.1 rfl

theorem mayExpand_of_inert (h : w.all inert = true) : mayExpand w = false := by
  rw [List.all_eq_true] at h
  refine Bool.or_eq_false_iff.mpr ⟨List.any_eq_false.mpr fun c hc => ?_, ?_⟩
  · rw [decide_eq_true_iff]
    exact (inert_iff.mp (h c hc)).2.2.2
  · refine decide_eq_false fun htilde => ?_
    exact (inert_iff.mp (h tilde (List.mem_of_head? htilde))).2.2.1 rfl

/-- Behind a plain word, bytes that are not special are a part of it. -/
theorem Plain.append {v u : List UInt8} (hv : Plain v) (hu : u.any special = false) :
    Plain (v ++ u) := by
  refine ⟨List.append_ne_nil_of_left_ne_nil hv.nonempty u, fun c hc => ?_, ?_⟩
  · rcases List.mem_append.mp hc with hc | hc
    · exact hv.noSpecial c hc
    · exact Bool.eq_false_of_not_eq_true (List.any_eq_false.mp hu c hc)
  · rw [List.head?_append_of_ne_nil _ hv.nonempty]
    exact hv.noHash

theorem delimiter_of_not_special (h : special c = false) : delimiter c = none := by
  simp only [special, Bool.or_eq_false_iff, Option.isSome_eq_false_iff, Option.isNone_iff_eq_none]
    at h
  exact h.1

theorem wordByte_of_not_special (h : special c = false) (text : Option (List UInt8)) :
    wordByte text c = some (.word (text.getD [] ++ [c])) := by
  simp only [special, Bool.or_eq_false_iff, decide_eq_false_iff_not, List.mem_cons, not_or] at h
  obtain ⟨-, h1, h2, h3, h4, h5, -⟩ := h
  rw [wordByte, if_neg h1, if_neg h2, if_neg h3, if_neg (not_or.mpr ⟨h4, h5⟩)]

theorem lexFrom_cons {out : List Token} {m' : Mode} (h : step m c = some (out, m')) :
    lexFrom m (c :: rest) = (lexFrom m' rest).map (out ++ ·) := by
  rw [lexFrom, h]
  rfl

/-- A byte at which no token ends. -/
theorem lexFrom_cons_silent {m' : Mode} (h : step m c = some ([], m')) :
    lexFrom m (c :: rest) = lexFrom m' rest := by
  rw [lexFrom_cons h]
  exact Option.map_id'

/-- Plain bytes are taken into the word. -/
theorem lexFrom_word_plain (hw : ∀ c ∈ w, special c = false) (text : List UInt8) :
    lexFrom (.word text) (w ++ rest) = lexFrom (.word (text ++ w)) rest := by
  induction w generalizing text with
  | nil => rw [List.nil_append, List.append_nil]
  | cons c w ih =>
    have hc := hw c List.mem_cons_self
    have hstep : step (.word text) c = some ([], .word (text ++ [c])) := by
      simp only [step, delimiter_of_not_special hc, wordByte_of_not_special hc]
      rfl
    have hrest := ih (fun b hb => hw b (List.mem_cons_of_mem c hb)) (text ++ [c])
    rw [List.cons_append, lexFrom_cons_silent hstep, hrest, List.append_assoc]
    rfl

/-- So are they at the beginning of one. -/
theorem lexFrom_gap_plain (hw : Plain w) :
    lexFrom .gap (w ++ rest) = lexFrom (.word w) rest := by
  obtain ⟨c, w, rfl⟩ := List.exists_cons_of_ne_nil hw.nonempty
  have hc := hw.noSpecial c List.mem_cons_self
  have hhash : c ≠ hash := fun he => hw.noHash (congrArg some he)
  have hstep : step .gap c = some ([], .word [c]) := by
    simp only [step, delimiter_of_not_special hc, if_neg hhash, wordByte_of_not_special hc]
    rfl
  have hrest : lexFrom (.word [c]) (w ++ rest) = lexFrom (.word ([c] ++ w)) rest :=
    lexFrom_word_plain (fun b hb => hw.noSpecial b (List.mem_cons_of_mem c hb)) [c]
  rw [List.cons_append, lexFrom_cons_silent hstep, hrest]
  rfl

/-- A word that is read in full, and ends. -/
theorem lexFrom_word_delimiter {out : List Token} (h : delimiter c = some out) :
    lexFrom (.word w) (c :: rest) = (lexFrom .gap rest).map (.word w :: out ++ ·) := by
  apply lexFrom_cons
  rw [step, h]

theorem delimiter_space : delimiter space = some [] := by decide

/-- Words with a blank between them. -/
def unwords (ws : List (List UInt8)) : List UInt8 := [space].intercalate ws

theorem unwords_singleton (w : List UInt8) : unwords [w] = w := List.intercalate_singleton

theorem unwords_cons_cons (w v : List UInt8) (ws : List (List UInt8)) :
    unwords (w :: v :: ws) = w ++ space :: unwords (v :: ws) := by
  rw [unwords, List.intercalate_cons_cons, List.append_assoc]
  rfl

/-- **Plain words are read as they stand.** -/
theorem lex_unwords {ws : List (List UInt8)} (h : ∀ w ∈ ws, Plain w) :
    lex (unwords ws) = some (ws.map .word) := by
  induction ws with
  | nil => rfl
  | cons w ws ih =>
    obtain ⟨hw, hws⟩ := List.forall_mem_cons.mp h
    cases ws with
    | nil =>
      have hlast : lexFrom .gap (w ++ []) = lexFrom (.word w) [] := lexFrom_gap_plain hw
      rw [lex, unwords_singleton, ← List.append_nil w, hlast, List.append_nil]
      rfl
    | cons v ws =>
      have hrest : lexFrom .gap (unwords (v :: ws)) = _ := ih hws
      rw [lex, unwords_cons_cons, lexFrom_gap_plain hw, lexFrom_word_delimiter delimiter_space,
        hrest]
      rfl

/-! ### Counting bytes -/

/-- The bytes that a token uses up: the word, and the byte that ends it. -/
def Token.weight : Token → ℕ
  | .word w => w.length + 1
  | _ => 0

/-- The bytes that some tokens use up. -/
def weight (ts : List Token) : ℕ := (ts.map Token.weight).sum

/-- The bytes of the word that is being read. -/
def Mode.pending : Mode → ℕ
  | .gap | .comment => 0
  | .word text | .single text | .double text => text.length
  | .escape text => (text.getD []).length
  | .doubleEscape text => text.length + 1

theorem weight_append (ts ts' : List Token) : weight (ts ++ ts') = weight ts + weight ts' := by
  rw [weight, List.map_append, List.sum_append]
  rfl

@[simp] theorem weight_nil : weight [] = 0 := rfl

@[simp] theorem weight_cons (t : Token) (ts : List Token) :
    weight (t :: ts) = t.weight + weight ts := rfl

theorem weight_delimiter {out : List Token} (h : delimiter c = some out) : weight out = 0 := by
  unfold delimiter at h
  split_ifs at h <;> cases h <;> rfl

/-- A byte adds at most itself to the words read. -/
theorem wordByte_pending {text : Option (List UInt8)} (h : wordByte text c = some m) :
    m.pending ≤ (text.getD []).length + 1 := by
  unfold wordByte at h
  split_ifs at h <;> cases h <;> simp [Mode.pending]

theorem step_weight {out : List Token} {m' : Mode} (h : step m c = some (out, m')) :
    weight out + m'.pending ≤ m.pending + 1 := by
  cases m with
  | gap =>
    simp only [step] at h
    rcases hd : delimiter c with - | ts
    · rw [hd] at h
      dsimp only at h
      split_ifs at h
      · cases h
        exact Nat.zero_le _
      · obtain ⟨m, hm, he⟩ := Option.map_eq_some_iff.mp h
        cases he
        have hle := wordByte_pending hm
        simpa [Mode.pending] using hle
    · rw [hd] at h
      cases h
      rw [weight_delimiter hd]
      exact Nat.zero_le _
  | word text =>
    simp only [step] at h
    rcases hd : delimiter c with - | ts
    · rw [hd] at h
      obtain ⟨m, hm, he⟩ := Option.map_eq_some_iff.mp h
      cases he
      have hle := wordByte_pending hm
      simpa [Mode.pending] using hle
    · rw [hd] at h
      cases h
      rw [weight_cons, weight_delimiter hd]
      exact Nat.le_refl _
  | escape text =>
    simp only [step] at h
    split_ifs at h <;> cases h
    · cases text <;> simp [Mode.pending]
    · simp [Mode.pending]
  | single text =>
    cases h
    split_ifs <;> simp [Mode.pending]
  | double text =>
    simp only [step] at h
    split_ifs at h <;> cases h <;> simp [Mode.pending]
  | doubleEscape text =>
    simp only [step] at h
    split_ifs at h <;> cases h <;> simp [Mode.pending]
    omega
  | comment =>
    simp only [step] at h
    split_ifs at h <;> cases h <;> simp [Mode.pending, Token.weight]

/-- **No byte counts twice.** -/
theorem weight_le (h : lexFrom m w = some ts) : weight ts ≤ m.pending + w.length + 1 := by
  induction w generalizing m ts with
  | nil =>
    cases m <;> cases h <;> simp [Mode.pending, Token.weight]
  | cons c w ih =>
    obtain ⟨⟨out, m'⟩, hstep, hrest⟩ := Option.bind_eq_some_iff.mp h
    obtain ⟨ts', hts', rfl⟩ := Option.map_eq_some_iff.mp hrest
    have hle := ih hts'
    have hone := step_weight hstep
    rw [weight_append, List.length_cons]
    omega

/-! ### Words that are read as they stand -/

/-- Quotes are lost, and expansions are not read. -/
theorem wordByte_special {text : Option (List UInt8)} (hd : delimiter c = none)
    (hs : special c = true) (h : wordByte text c = some m) :
    m.pending = (text.getD []).length := by
  have hmem : c ∈ [backslash, singleQuote, doubleQuote, dollar, backquote] := by
    simpa [special, hd] using hs
  unfold wordByte at h
  split_ifs at h with h1 h2 h3 h4
  · cases h
    rfl
  · cases h
    rfl
  · cases h
    rfl
  · -- an ordinary byte is not special
    obtain ⟨h4, h5⟩ := not_or.mp h4
    simp [h1, h2, h3, h4, h5] at hmem

/-- At the beginning of a word a special byte, or one that starts a comment, is
lost. -/
theorem lexFrom_gap_special (hs : special c = true ∨ c = hash)
    (h : lexFrom .gap (c :: rest) = some ts) : weight ts ≤ rest.length + 1 := by
  obtain ⟨⟨out, m'⟩, hstep, hrest⟩ := Option.bind_eq_some_iff.mp h
  obtain ⟨ts', hts', rfl⟩ := Option.map_eq_some_iff.mp hrest
  have hle := weight_le hts'
  have hlost : weight out + m'.pending = 0 := by
    simp only [step] at hstep
    rcases hd : delimiter c with - | out'
    · rw [hd] at hstep
      dsimp only at hstep
      split_ifs at hstep with hhash
      · cases hstep
        rfl
      · obtain ⟨m, hm, he⟩ := Option.map_eq_some_iff.mp hstep
        cases he
        have hpending := wordByte_special hd (hs.resolve_right hhash) hm
        rw [weight_nil, hpending]
        rfl
    · rw [hd] at hstep
      cases hstep
      rw [weight_delimiter hd]
      rfl
  rw [weight_append]
  omega

/-- In a word, a special byte is lost or ends the word. -/
theorem lexFrom_word_special (hs : special c = true)
    (h : lexFrom (.word w) (c :: rest) = some ts) :
    weight ts ≤ w.length + rest.length + 1 ∨ ∃ ts', ts = .word w :: ts' := by
  obtain ⟨⟨out, m'⟩, hstep, hrest⟩ := Option.bind_eq_some_iff.mp h
  obtain ⟨ts', hts', rfl⟩ := Option.map_eq_some_iff.mp hrest
  have hle := weight_le hts'
  simp only [step] at hstep
  rcases hd : delimiter c with - | out'
  · rw [hd] at hstep
    obtain ⟨m, hm, he⟩ := Option.map_eq_some_iff.mp hstep
    cases he
    rw [wordByte_special hd hs hm] at hle
    exact .inl hle
  · rw [hd] at hstep
    cases hstep
    exact .inr ⟨out' ++ ts', rfl⟩

/-- A word that is read as it stands is plain, if the tokens behind it use up all
the bytes that are left. -/
theorem plain_of_lexFrom (h : lexFrom .gap (w ++ space :: rest) = some (.word w :: ts))
    (hweight : weight ts = rest.length + 1) : Plain w := by
  have hfirst : ∀ c v, w = c :: v → special c = true ∨ c = hash → False := by
    rintro c v rfl hc
    have hle := lexFrom_gap_special hc h
    rw [weight_cons, hweight] at hle
    simp [Token.weight] at hle
    omega
  have hnonempty : w ≠ [] := by
    rintro rfl
    have hle := lexFrom_gap_special (.inl (by decide)) h
    rw [weight_cons, hweight] at hle
    simp [Token.weight] at hle
  have hhash : w.head? ≠ some hash := by
    intro hh
    obtain ⟨c, v, rfl⟩ := List.exists_cons_of_ne_nil hnonempty
    exact hfirst c v rfl (.inr (Option.some.inj hh))
  refine ⟨hnonempty, fun c hc => ?_, hhash⟩
  by_contra hs
  rw [Bool.not_eq_false] at hs
  -- the first special byte of the word, and the plain bytes in front of it
  obtain ⟨d, hd⟩ := Option.isSome_iff_exists.mp (List.find?_isSome.mpr ⟨c, hc, hs⟩)
  obtain ⟨hds, u, v, rfl, hu⟩ := List.find?_eq_some_iff_append.mp hd
  cases u with
  | nil => exact hfirst d v rfl (.inl hds)
  | cons b u =>
    have hplain : Plain (b :: u) := ⟨by simp, fun x hx => by simpa using hu x hx, hhash⟩
    rw [List.append_assoc, lexFrom_gap_plain hplain, List.cons_append] at h
    rcases lexFrom_word_special hds h with hle | ⟨ts', hts'⟩
    · rw [weight_cons, hweight] at hle
      simp [Token.weight] at hle
      omega
    · have hword : b :: u ++ d :: v = b :: u := Token.word.inj (List.cons.inj hts').1
      have hlen := congrArg List.length hword
      simp at hlen

/-- The words of a line and the blanks between them are all of its bytes. -/
theorem weight_words (v : List UInt8) (ws : List (List UInt8)) :
    weight ((v :: ws).map .word) = (unwords (v :: ws)).length + 1 := by
  induction ws generalizing v with
  | nil =>
    rw [unwords_singleton]
    rfl
  | cons u ws ih =>
    rw [List.map_cons, weight_cons, ih u, unwords_cons_cons, List.length_append, List.length_cons]
    simp [Token.weight]
    omega

/-- **A word that is read as it stands is plain**, whatever stands behind it. -/
theorem plain_of_lex_unwords {front back : List (List UInt8)} (hfront : ∀ v ∈ front, Plain v)
    (hback : back ≠ [])
    (h : lex (unwords (front ++ w :: back)) = some ((front ++ w :: back).map .word)) :
    Plain w := by
  induction front with
  | nil =>
    obtain ⟨v, back, rfl⟩ := List.exists_cons_of_ne_nil hback
    rw [List.nil_append, lex, unwords_cons_cons] at h
    exact plain_of_lexFrom h (weight_words v back)
  | cons u front ih =>
    obtain ⟨hu, hfront⟩ := List.forall_mem_cons.mp hfront
    apply ih hfront
    -- the first word is read, and the others from the bytes that are left
    obtain ⟨v, ws, hws⟩ := List.exists_cons_of_ne_nil
      (List.append_ne_nil_of_right_ne_nil front (List.cons_ne_nil w back))
    rw [List.cons_append, hws, lex, unwords_cons_cons, lexFrom_gap_plain hu,
      lexFrom_word_delimiter delimiter_space] at h
    obtain ⟨ts, hts, he⟩ := Option.map_eq_some_iff.mp h
    rw [hws, lex, hts]
    exact congrArg some (List.cons.inj he).2

end Shell

/-
SecuritySystem/Backup/HandlerSafety.lean

Which backups an event leads to.

The search ends in one of three ways (`searchDirectory_cases`), and from this
and the branches behind it follows what an event adds to the calls of
`backup_fs_make_backup`: nothing, or one call with the path of the name in the
directory that was selected (`handleEvent_backups`).  The rest is to compare
that with what one would expect: the selected directory need not be the one
the event comes from (`pathRight_iff`), and a stored path that cannot be
opened hides all paths behind it (`exactlyOne_iff`).
-/
import SecuritySystem.Lib.FileTree
import SecuritySystem.Backup.Handler
import SecuritySystem.HashTableRun

namespace SecuritySystem.Backup

open CMem CString FileTree

variable {env : Env} {event : InotifyEvent} {s : State} {f d old : CString} {chain : List CString}

/-! ### The chain -/

/-- Blocks followed by a NUL read as the stored strings. -/
theorem chainValues_eq_strings {t : HashTable} {l : List Addr} (h : Chained t l)
    (hb : ∀ a, (env.beyond a).headD 0 = 0) : chainValues env t = t.strings := by
  rw [chainValues, HashTable.strings, h.chain_eq]
  apply List.filterMap_congr
  intro a ha
  obtain ⟨v, hv, -⟩ := h.stored a ha
  obtain ⟨it, hit, hc⟩ := Option.map_eq_some_iff.mp hv
  obtain ⟨-, hval⟩ := Prod.mk.inj hc
  rw [HashTable.contents, hit]
  show some (CString.ofMem (it.value ++ env.beyond a)) = some (CString.ofMem it.value)
  rw [hval, ofMem_bytes_append v (hb a), ofMem_bytes]

/-! ### The search -/

/-- The directory opens, and a regular file in it has a name that contains
`f`. -/
def Hits (env : Env) (f d : CString) : Prop :=
  ∃ dr, env.opendir d = some dr ∧ backupHelpersFindFile env f dr = true

/-- The directory opens, and the search goes on. -/
def Passed (env : Env) (f d : CString) : Prop :=
  ∃ dr, env.opendir d = some dr ∧ backupHelpersFindFile env f dr = false

theorem Passed.not_hits (h : Passed env f d) : ¬ Hits env f d := by
  rintro ⟨dr, hdr, hfind⟩
  obtain ⟨dr', hdr', hfind'⟩ := h
  obtain rfl := Option.some.inj (hdr.symm.trans hdr')
  rw [hfind] at hfind'
  cases hfind'

/-- **The three ends of the search.** -/
theorem searchDirectory_cases (env : Env) (f : CString) (chain : List CString) :
    (∃ pre d post, chain = pre ++ d :: post ∧ (∀ x ∈ pre, Passed env f x) ∧ Hits env f d ∧
      (searchDirectory env f chain).1 = .found d) ∨
    (∃ pre d post, chain = pre ++ d :: post ∧ (∀ x ∈ pre, Passed env f x) ∧
      env.opendir d = none ∧ (searchDirectory env f chain).1 = .unopened d) ∨
    ((∀ x ∈ chain, Passed env f x) ∧ (searchDirectory env f chain).1 = .absent) := by
  induction chain with
  | nil => exact .inr (.inr ⟨fun x hx => absurd hx List.not_mem_nil, rfl⟩)
  | cons hi rest ih =>
    unfold searchDirectory
    rcases hopen : env.opendir hi with - | dr
    · exact .inr (.inl ⟨[], hi, rest, rfl, fun x hx => absurd hx List.not_mem_nil, hopen, rfl⟩)
    · by_cases hfind : backupHelpersFindFile env f dr = true
      · refine .inl ⟨[], hi, rest, rfl, fun x hx => absurd hx List.not_mem_nil,
          ⟨dr, hopen, hfind⟩, ?_⟩
        simp only [hfind, if_true]
      · have hpassed : Passed env f hi := ⟨dr, hopen, Bool.eq_false_iff.mpr hfind⟩
        simp only [hfind, if_false, Bool.false_eq_true]
        -- the first entry was passed; the rest of the walk decides
        rcases ih with ⟨pre, d, post, rfl, hpre, hd, he⟩ | ⟨pre, d, post, rfl, hpre, hd, he⟩ |
          ⟨hall, he⟩
        · exact .inl ⟨hi :: pre, d, post, rfl, List.forall_mem_cons.mpr ⟨hpassed, hpre⟩, hd, he⟩
        · exact .inr (.inl ⟨hi :: pre, d, post, rfl, List.forall_mem_cons.mpr ⟨hpassed, hpre⟩, hd,
            he⟩)
        · exact .inr (.inr ⟨List.forall_mem_cons.mpr ⟨hpassed, hall⟩, he⟩)

/-- The directory that a backup would go to, if the walk gets that far. -/
def Search.selected (old : CString) : Search → Option CString
  | .found d => some d
  | .unopened _ => none
  | .absent => some old

/-- `d` is the first stored path with a hit, or the old value if there is no
hit; all paths in front of it, or all paths, can be opened. -/
def Selects (env : Env) (f : CString) (chain : List CString) (old d : CString) : Prop :=
  (∃ pre post, chain = pre ++ d :: post ∧ (∀ x ∈ pre, Passed env f x) ∧ Hits env f d) ∨
    (d = old ∧ ∀ x ∈ chain, Passed env f x)

/-- Two splits of a list at the first element that is not passed. -/
theorem first_unpassed_unique {pre pre' post post' : List CString} {x y : CString}
    (he : pre ++ x :: post = pre' ++ y :: post') (hpre : ∀ z ∈ pre, Passed env f z)
    (hpre' : ∀ z ∈ pre', Passed env f z) (hx : ¬ Passed env f x) (hy : ¬ Passed env f y) :
    x = y := by
  rcases List.append_eq_append_iff.mp he with ⟨mid, rfl, hmid⟩ | ⟨mid, rfl, hmid⟩
  · cases mid with
    | nil => exact (List.cons.inj hmid).1
    | cons z mid =>
      obtain ⟨rfl, -⟩ := List.cons.inj hmid
      exact absurd (hpre' x (List.mem_append_right pre List.mem_cons_self)) hx
  · cases mid with
    | nil => exact (List.cons.inj hmid).1.symm
    | cons z mid =>
      obtain ⟨rfl, -⟩ := List.cons.inj hmid
      exact absurd (hpre y (List.mem_append_right pre' List.mem_cons_self)) hy

theorem not_passed_of_hits (h : Hits env f d) : ¬ Passed env f d := fun hp => hp.not_hits h

theorem not_passed_of_unopened (h : env.opendir d = none) : ¬ Passed env f d := by
  rintro ⟨dr, hdr, -⟩
  rw [h] at hdr
  cases hdr

/-- `Selects` says what the search selects. -/
theorem selects_iff :
    Selects env f chain old d ↔ (searchDirectory env f chain).1.selected old = some d := by
  rcases searchDirectory_cases env f chain with ⟨pre, x, post, rfl, hpre, hx, he⟩ |
    ⟨pre, x, post, rfl, hpre, hx, he⟩ | ⟨hall, he⟩
  · rw [he]
    constructor
    · -- the entry that ends the walk is the first one that is not passed
      rintro (⟨pre', post', he', hpre', hd⟩ | ⟨-, hall⟩)
      · exact congrArg some (first_unpassed_unique he' hpre hpre' (not_passed_of_hits hx)
          (not_passed_of_hits hd))
      · exact absurd (hall x List.mem_append_cons_self) (not_passed_of_hits hx)
    · intro h
      obtain rfl := Option.some.inj h
      exact .inl ⟨pre, post, rfl, hpre, hx⟩
  · rw [he]
    refine iff_of_false ?_ (Option.some_ne_none d).symm
    rintro (⟨pre', post', he', hpre', hd⟩ | ⟨-, hall⟩)
    · have hxd := first_unpassed_unique he' hpre hpre' (not_passed_of_unopened hx)
        (not_passed_of_hits hd)
      subst hxd
      obtain ⟨dr, hdr, -⟩ := hd
      rw [hx] at hdr
      cases hdr
    · exact not_passed_of_unopened hx (hall x List.mem_append_cons_self)
  · rw [he]
    constructor
    · rintro (⟨pre, post, rfl, -, hd⟩ | ⟨rfl, -⟩)
      · exact absurd (hall d List.mem_append_cons_self) (not_passed_of_hits hd)
      · rfl
    · intro h
      exact .inr ⟨(Option.some.inj h).symm, hall⟩

/-- Something is selected exactly if each path that cannot be opened stands
behind a hit. -/
theorem exists_selects_iff (old : CString) :
    (∃ d, Selects env f chain old d) ↔
      ∀ pre x post, chain = pre ++ x :: post → env.opendir x = none → ∃ y ∈ pre, Hits env f y := by
  rcases searchDirectory_cases env f chain with ⟨pre, d, post, rfl, hpre, hd, he⟩ |
    ⟨pre, d, post, rfl, hpre, hd, he⟩ | ⟨hall, he⟩
  · refine iff_of_true ⟨d, .inl ⟨pre, post, rfl, hpre, hd⟩⟩ fun pre' x post' he' hx => ?_
    have hdx : d ≠ x := by
      rintro rfl
      obtain ⟨dr, hdr, -⟩ := hd
      rw [hx] at hdr
      cases hdr
    -- `x` stands behind `d`: all paths in front of `d` open
    rcases List.append_eq_append_iff.mp he' with ⟨mid, rfl, hmid⟩ | ⟨mid, rfl, hmid⟩
    · cases mid with
      | nil => exact absurd (List.cons.inj hmid).1 hdx
      | cons z mid =>
        obtain ⟨rfl, -⟩ := List.cons.inj hmid
        exact ⟨d, List.mem_append_right pre List.mem_cons_self, hd⟩
    · cases mid with
      | nil => exact absurd (List.cons.inj hmid).1.symm hdx
      | cons z mid =>
        obtain ⟨rfl, -⟩ := List.cons.inj hmid
        exact absurd (hpre x (List.mem_append_right pre' List.mem_cons_self))
          (not_passed_of_unopened hx)
  · refine iff_of_false ?_ fun hall => ?_
    · rintro ⟨d', hd'⟩
      rw [selects_iff, he] at hd'
      cases hd'
    · obtain ⟨y, hy, hhit⟩ := hall pre d post rfl hd
      exact (hpre y hy).not_hits hhit
  · refine iff_of_true ⟨old, .inr ⟨rfl, hall⟩⟩ fun pre x post he' hx => ?_
    exact absurd (hall x (he' ▸ List.mem_append_cons_self)) (not_passed_of_unopened hx)

/-! ### Paths -/

theorem joined_of_slash {path second : CString} {size : ℕ} (h : HELPERS_SLASH ∈ path.bytes) :
    joined path path second size = sprintf size (pathIn path second) := by
  unfold joined
  rcases htail : path.strrchr HELPERS_SLASH with - | tail
  · exact absurd h (strrchr_eq_none.mp htail)
  · show sprintf size (if tail.length = 1 then path ++ second else path ++ lit "/" ++ second) = _
    unfold pathIn dirPrefix
    by_cases hlast : path.bytes.getLast? = some HELPERS_SLASH
    · rw [if_pos ((length_strrchr_eq_one htail).mpr hlast)]
      exact congrArg (fun d => sprintf size (d ++ second)) (if_pos hlast).symm
    · rw [if_neg fun h1 => hlast ((length_strrchr_eq_one htail).mp h1)]
      exact congrArg (fun d => sprintf size (d ++ second)) (if_neg hlast).symm

theorem joined_of_not_slash {path first second : CString} {size : ℕ}
    (h : HELPERS_SLASH ∉ path.bytes) : joined path first second size = .error .badPointer := by
  rw [joined, strrchr_eq_none.mpr h]

/-! ### Messages -/

/-- The events that lead to a backup: all but these. -/
def NeedsBackup (mask : UInt32) : Prop :=
  mask &&& (IN_ALL_EVENTS ||| IN_Q_OVERFLOW ||| IN_IGNORED) ∉
    [IN_CLOSE_WRITE, IN_CLOSE_NOWRITE, IN_MOVED_FROM, IN_IGNORED, IN_Q_OVERFLOW]

theorem strlen_quoted (before behind : CString) :
    (quoted before f behind).strlen = before.strlen + f.strlen + behind.strlen + 3 := by
  have h2 : (lit " \"").strlen = 2 := by decide
  have h1 : (lit "\"").strlen = 1 := by decide
  rw [quoted, strlen_append, strlen_append, strlen_append, strlen_append, h1, h2]
  omega

/-- Quoted names fit the message buffer. -/
theorem quoted_fits {before behind : CString} (hb : before.strlen ≤ 64) (hf : f.strlen ≤ 255)
    (hh : behind.strlen ≤ 64) :
    sprintf HELPERS_AVER_BUFFER_SIZE (quoted before f behind) = .ok (quoted before f behind) := by
  apply sprintf_of_lt
  rw [strlen_quoted]
  show _ < 2048
  omega

/-- What stands in front of the name for an event of another kind. -/
theorem strlen_unknown_le (mask : UInt32) :
    (lit "UNKNOWN EVENT \"" ++ numeral 16 mask.toNat ++
      lit "\" OCCURRED for file").strlen ≤ 64 := by
  have h1 : (lit "UNKNOWN EVENT \"").strlen = 15 := by decide
  have h2 : (lit "\" OCCURRED for file").strlen = 19 := by decide
  have h3 : (numeral 16 mask.toNat).strlen ≤ 8 :=
    strlen_numeral_le (by omega) (by omega) mask.toNat_lt
  rw [strlen_append, strlen_append, h1, h2]
  omega

theorem strlen_cookie_le (cookie : Int32) :
    (lit " Cookie=" ++ decimal cookie.toInt).strlen ≤ 64 := by
  have h1 : (lit " Cookie=").strlen = 8 := by decide
  have h2 : (decimal cookie.toInt).strlen ≤ 11 := by
    have hle := cookie.le_toInt
    have hlt := cookie.toInt_lt
    exact strlen_decimal_le (k := 10) (by omega) (by omega)
  rw [strlen_append, h1]
  omega

/-- What the switch asks for; each message fits. -/
theorem react_cases (event : InotifyEvent) (hf : f.strlen ≤ 255) :
    (NeedsBackup event.mask ∧ ∃ m, react event f = .backup m ∧
      sprintf HELPERS_AVER_BUFFER_SIZE m = .ok m) ∨
    (¬ NeedsBackup event.mask ∧ (∀ m, react event f ≠ .backup m) ∧
      ∀ m, react event f = .quiet m → sprintf HELPERS_AVER_BUFFER_SIZE m = .ok m) := by
  have hquiet : ∀ {before behind : CString}, before.strlen ≤ 64 → behind.strlen ≤ 64 →
      ∀ m, Reaction.quiet (quoted before f behind) = .quiet m →
        sprintf HELPERS_AVER_BUFFER_SIZE m = .ok m := by
    intro before behind hb hh m hm
    obtain rfl := Reaction.quiet.inj hm
    exact quoted_fits hb hf hh
  -- only the selector matters now; its eight cases come in the order of the source
  unfold react NeedsBackup
  generalize event.mask &&& (IN_ALL_EVENTS ||| IN_Q_OVERFLOW ||| IN_IGNORED) = sel
  simp only [List.mem_cons, List.not_mem_nil, or_false]
  by_cases h1 : sel = IN_CREATE
  · rw [if_pos h1]
    exact .inl ⟨by rw [h1]; decide, _, rfl, quoted_fits (by decide) hf (by decide)⟩
  rw [if_neg h1]
  by_cases h2 : sel = IN_DELETE
  · rw [if_pos h2]
    exact .inl ⟨by rw [h2]; decide, _, rfl, quoted_fits (by decide) hf (by decide)⟩
  rw [if_neg h2]
  by_cases h3 : sel = IN_CLOSE_WRITE
  · rw [if_pos h3]
    exact .inr ⟨fun hneed => hneed (.inl h3), nofun, hquiet (by decide) (by decide)⟩
  rw [if_neg h3]
  by_cases h4 : sel = IN_CLOSE_NOWRITE
  · rw [if_pos h4]
    exact .inr ⟨fun hneed => hneed (.inr (.inl h4)), nofun, hquiet (by decide) (by decide)⟩
  rw [if_neg h4]
  by_cases h5 : sel = IN_MODIFY
  · rw [if_pos h5]
    exact .inl ⟨by rw [h5]; decide, _, rfl, quoted_fits (by decide) hf (by decide)⟩
  rw [if_neg h5]
  by_cases h6 : sel = IN_MOVED_FROM
  · rw [if_pos h6]
    exact .inr ⟨fun hneed => hneed (.inr (.inr (.inl h6))), nofun,
      hquiet (by decide) (strlen_cookie_le _)⟩
  rw [if_neg h6]
  by_cases h7 : sel = IN_IGNORED
  · rw [if_pos h7]
    exact .inr ⟨fun hneed => hneed (.inr (.inr (.inr (.inl h7)))), nofun, nofun⟩
  rw [if_neg h7]
  by_cases h8 : sel = IN_Q_OVERFLOW
  · rw [if_pos h8]
    exact .inr ⟨fun hneed => hneed (.inr (.inr (.inr (.inr h8)))), nofun, nofun⟩
  rw [if_neg h8]
  refine .inl ⟨?_, _, rfl, quoted_fits (strlen_unknown_le _) hf (by decide)⟩
  rintro (h | h | h | h | h)
  · exact h3 h
  · exact h4 h
  · exact h6 h
  · exact h7 h
  · exact h8 h

/-! ### What an event adds -/

/-- A path in `d` can be put together: `d` contains a slash, and the buffer is
large enough. -/
def Writable (d f : CString) : Prop :=
  HELPERS_SLASH ∈ d.bytes ∧ (pathIn d f).strlen < HELPERS_BUF_SIZE

instance (d f : CString) : Decidable (Writable d f) := inferInstanceAs (Decidable (_ ∧ _))

instance (mask : UInt32) : Decidable (NeedsBackup mask) := inferInstanceAs (Decidable (_ ∉ _))

theorem backupFsMakeBackup_backups (env : Env) (path f : CString) (s : State) :
    (backupFsMakeBackup env path f s).1.backups = s.backups ++ [(path, f)] := by
  unfold backupFsMakeBackup
  dsimp only
  split <;> rfl

theorem makeBackup_backups (env : Env) (f : CString) (s : State) :
    (makeBackup env f s).1.backups =
      if Writable s.arg.pathToDir f then s.backups ++ [(pathIn s.arg.pathToDir f, f)]
      else s.backups := by
  unfold makeBackup
  by_cases hs : HELPERS_SLASH ∈ s.arg.pathToDir.bytes
  · rw [joined_of_slash hs]
    by_cases hlt : (pathIn s.arg.pathToDir f).strlen < HELPERS_BUF_SIZE
    · rw [sprintf_of_lt hlt, if_pos ⟨hs, hlt⟩]
      exact backupFsMakeBackup_backups env _ f s
    · rw [sprintf_of_ge (Nat.not_lt.mp hlt), if_neg fun h => hlt h.2]
  · rw [joined_of_not_slash hs, if_neg fun h => hs h.1]

theorem handleNamed_backups (env : Env) (event : InotifyEvent) (s : State) (hf : f.strlen ≤ 255) :
    (handleNamed env event f s).1.backups =
      if NeedsBackup event.mask ∧ Writable s.arg.pathToDir f then
        s.backups ++ [(pathIn s.arg.pathToDir f, f)]
      else s.backups := by
  unfold handleNamed
  rcases react_cases event hf with ⟨hneed, m, hm, hfits⟩ | ⟨hneed, hm, -⟩
  · rw [hm]
    dsimp only
    rw [hfits]
    show (makeBackup env f (s.log m)).1.backups = _
    rw [makeBackup_backups]
    simp only [hneed, true_and]
    rfl
  · -- the quiet branches log at most, and the others return
    have hrhs : (if NeedsBackup event.mask ∧ Writable s.arg.pathToDir f then
        s.backups ++ [(pathIn s.arg.pathToDir f, f)] else s.backups) = s.backups :=
      if_neg fun h => hneed h.1
    rw [hrhs]
    split
    · rfl
    · dsimp only
      split <;> rfl
    · split <;> rfl
    · next m h => exact absurd h (hm m)

/-- The handler behind its first tests, by what the search selects. -/
theorem handleEvent_of_name (hdir : event.mask &&& IN_ISDIR = 0) (hname : event.name = some f)
    (hdot : f.bytes.head? ≠ some HELPERS_DOT) :
    (handleEvent env event s).1.backups =
      match (searchDirectory env f (chainValues env s.arg.hashTable)).1.selected
        s.arg.pathToDir with
      | none => s.backups
      | some d =>
        if NeedsBackup event.mask ∧ Writable d f then s.backups ++ [(pathIn d f, f)]
        else s.backups := by
  have hf := event.nameMax f hname
  unfold handleEvent
  rw [if_neg (not_not.mpr hdir), hname]
  dsimp only
  rw [if_neg hdot]
  rcases (searchDirectory env f (chainValues env s.arg.hashTable)).1 with d | d | -
  · exact handleNamed_backups env event _ hf
  · rfl
  · exact handleNamed_backups env event _ hf

/-- The event makes the handler back up `f` from the directory `d`. -/
structure BacksUp (env : Env) (event : InotifyEvent) (s : State) (f d : CString) : Prop where
  notDir : event.mask &&& IN_ISDIR = 0
  name : event.name = some f
  noDot : f.bytes.head? ≠ some HELPERS_DOT
  selects : Selects env f (chainValues env s.arg.hashTable) s.arg.pathToDir d
  kind : NeedsBackup event.mask
  writable : Writable d f

theorem BacksUp.backups (h : BacksUp env event s f d) :
    (handleEvent env event s).1.backups = s.backups ++ [(pathIn d f, f)] := by
  rw [handleEvent_of_name h.notDir h.name h.noDot, selects_iff.mp h.selects]
  exact if_pos ⟨h.kind, h.writable⟩

/-- **What an event adds**: one call, with the path of its name in the selected
directory, or none. -/
theorem handleEvent_backups (env : Env) (event : InotifyEvent) (s : State) :
    (∃ f d, BacksUp env event s f d ∧
      (handleEvent env event s).1.backups = s.backups ++ [(pathIn d f, f)]) ∨
    ((∀ f d, ¬ BacksUp env event s f d) ∧ (handleEvent env event s).1.backups = s.backups) := by
  by_cases hex : ∃ f d, BacksUp env event s f d
  · obtain ⟨f, d, h⟩ := hex
    exact .inl ⟨f, d, h, h.backups⟩
  · refine .inr ⟨fun f d h => hex ⟨f, d, h⟩, ?_⟩
    by_cases hdir : event.mask &&& IN_ISDIR = 0
    · rcases hname : event.name with - | f
      · unfold handleEvent
        rw [if_neg (not_not.mpr hdir), hname]
      · by_cases hdot : f.bytes.head? = some HELPERS_DOT
        · unfold handleEvent
          rw [if_neg (not_not.mpr hdir), hname]
          dsimp only
          rw [if_pos hdot]
        · rw [handleEvent_of_name hdir hname hdot]
          split
          · rfl
          · next d hd =>
            rw [if_neg]
            rintro ⟨hkind, hw⟩
            exact hex ⟨f, d, hdir, hname, hdot, selects_iff.mpr hd, hkind, hw⟩
    · unfold handleEvent
      rw [if_pos hdir]

/-! ### The right path -/

/-- Every backup that the event leads to is of its name in its own directory;
`dirOf` are the directories that the watch descriptors stand for. -/
def PathRight (env : Env) (dirOf : ℤ → CString) (event : InotifyEvent) (s : State) : Prop :=
  ∃ calls, (handleEvent env event s).1.backups = s.backups ++ calls ∧
    ∀ call ∈ calls, ∃ f, event.name = some f ∧ call.1 = pathIn (dirOf event.wd) f

/-- **Exactly when the path is right**: no backup is made, or the directory
selected is the one of the event, up to a slash at the end. -/
theorem pathRight_iff (env : Env) (dirOf : ℤ → CString) (event : InotifyEvent) (s : State) :
    PathRight env dirOf event s ↔
      ∀ f d, BacksUp env event s f d → dirPrefix d = dirPrefix (dirOf event.wd) := by
  constructor
  · rintro ⟨calls, hcalls, hright⟩ f d h
    rw [h.backups] at hcalls
    obtain rfl := List.append_cancel_left hcalls
    obtain ⟨f', hf', hpath⟩ := hright _ List.mem_cons_self
    obtain rfl := Option.some.inj (h.name.symm.trans hf')
    exact pathIn_inj.mp hpath
  · intro hall
    rcases handleEvent_backups env event s with ⟨f, d, h, he⟩ | ⟨-, he⟩
    · refine ⟨_, he, fun call hcall => ?_⟩
      obtain rfl := List.mem_singleton.mp hcall
      exact ⟨f, h.name, pathIn_inj.mpr (hall f d h)⟩
    · exact ⟨[], by rw [he, List.append_nil], fun call hcall => absurd hcall List.not_mem_nil⟩

/-! A directory with two subdirectories, "a" watched first, and an event for
the name "x" in "a". -/

/-- The directory that is watched first. -/
def dirA : CString := lit "/w/a"

/-- The other one. -/
def dirB : CString := lit "/w/b"

/-- The name that the event brings. -/
def fileX : CString := lit "x"

/-- The directories that can be opened hold the regular file "x". -/
def envX (opened : List CString) : Env where
  running := true
  opendir := fun p => if p ∈ opened then some [⟨fileX, .reg⟩] else none
  beyond := fun _ => []
  pathToBackup := lit "/backup"

/-- "x" is created in "a". -/
def createX : InotifyEvent where
  wd := 1
  mask := IN_CREATE
  cookie := 0
  name := some fileX
  nameMax := by
    intro f hf
    obtain rfl := Option.some.inj hf
    decide

/-- The service at the start, with both subdirectories in its table. -/
theorem exists_chain (opened : List CString) :
    ∃ s : State, s.arg.pathToDir = lit "/w" ∧ s.backups = [] ∧
      chainValues (envX opened) s.arg.hashTable = [dirB, dirA] := by
  obtain ⟨t₀, t, -, -, ⟨l, h, -⟩, hs⟩ :=
    insertAll_created 0 [(dirA, ⟨[], []⟩), (dirB, ⟨[], []⟩)]
  refine ⟨⟨⟨lit "/w", t⟩, 2, 0, [], [], []⟩, rfl, rfl, ?_⟩
  show chainValues (envX opened) t = [dirB, dirA]
  rw [chainValues_eq_strings h fun _ => rfl, hs]
  decide

/-- With "x" in both subdirectories, the event in "a" leads to a backup of the
file in "b", which stands in front in the chain. -/
theorem not_pathRight_sameName :
    ¬ ∀ (env : Env) (dirOf : ℤ → CString) (event : InotifyEvent) (s : State) (f : CString),
      event.name = some f → dirOf event.wd ∈ chainValues env s.arg.hashTable →
      (∃ dr, env.opendir (dirOf event.wd) = some dr ∧ ⟨f, .reg⟩ ∈ dr) →
      PathRight env dirOf event s := by
  intro hall
  obtain ⟨s, hold, hb, hchain⟩ := exists_chain [dirA, dirB]
  obtain ⟨calls, hcalls, hright⟩ := hall (envX [dirA, dirB]) (fun _ => dirA) createX s fileX rfl
    (by rw [hchain]; decide) ⟨[⟨fileX, .reg⟩], by decide, List.mem_singleton.mpr rfl⟩
  have he : (handleEvent (envX [dirA, dirB]) createX s).1.backups =
      [(pathIn dirB fileX, fileX)] := by
    rw [handleEvent_of_name (by decide) rfl (by decide), hchain, hold, hb]
    decide
  rw [he, hb, List.nil_append] at hcalls
  obtain ⟨f, hf, hpath⟩ := hright (pathIn dirB fileX, fileX) (by simp [← hcalls])
  obtain rfl := Option.some.inj hf
  exact absurd hpath (by decide)

/-! ### Exactly one backup -/

/-- The event leads to one backup. -/
def ExactlyOne (env : Env) (event : InotifyEvent) (s : State) : Prop :=
  ∃ call, (handleEvent env event s).1.backups = s.backups ++ [call]

/-- **Exactly when a file event leads to one backup**: each stored path that
cannot be opened stands behind a directory with a hit, and a path can be put
together in the directory selected. -/
theorem exactlyOne_iff (hdir : event.mask &&& IN_ISDIR = 0) (hname : event.name = some f)
    (hdot : f.bytes.head? ≠ some HELPERS_DOT) (hkind : NeedsBackup event.mask) :
    ExactlyOne env event s ↔
      (∀ pre x post, chainValues env s.arg.hashTable = pre ++ x :: post → env.opendir x = none →
        ∃ y ∈ pre, Hits env f y) ∧
      ∀ d, Selects env f (chainValues env s.arg.hashTable) s.arg.pathToDir d → Writable d f := by
  rw [← exists_selects_iff s.arg.pathToDir]
  constructor
  · rintro ⟨call, hcall⟩
    rcases handleEvent_backups env event s with ⟨f', d, h, -⟩ | ⟨-, he⟩
    · obtain rfl := Option.some.inj (hname.symm.trans h.name)
      refine ⟨⟨d, h.selects⟩, fun d' hd' => ?_⟩
      obtain rfl := Option.some.inj ((selects_iff.mp h.selects).symm.trans (selects_iff.mp hd'))
      exact h.writable
    · have hlen := congrArg List.length (he.symm.trans hcall)
      rw [List.length_append, List.length_singleton] at hlen
      omega
  · rintro ⟨⟨d, hd⟩, hw⟩
    exact ⟨_, BacksUp.backups ⟨hdir, hname, hdot, hd, hkind, hw d hd⟩⟩

/-- "x" in "a", and both subdirectories can be opened. -/
theorem exactlyOne_iff_createX :
    ∃ s : State, s.backups = [] ∧
      (ExactlyOne (envX [dirA, dirB]) createX s ↔
        (∀ pre x post, chainValues (envX [dirA, dirB]) s.arg.hashTable = pre ++ x :: post →
          (envX [dirA, dirB]).opendir x = none → ∃ y ∈ pre, Hits (envX [dirA, dirB]) fileX y) ∧
        ∀ d, Selects (envX [dirA, dirB]) fileX
          (chainValues (envX [dirA, dirB]) s.arg.hashTable) s.arg.pathToDir d →
          Writable d fileX) := by
  obtain ⟨s, -, hb, -⟩ := exists_chain [dirA, dirB]
  exact ⟨s, hb, exactlyOne_iff (by decide) rfl (by decide) (by decide)⟩

/-- After "b" was removed, the event in "a" leads to no backup. -/
theorem not_exactlyOne_removed :
    ¬ ∀ (env : Env) (event : InotifyEvent) (s : State) (f d : CString),
      event.mask &&& IN_ISDIR = 0 → event.mask ∈ [IN_CREATE, IN_MODIFY] → event.name = some f →
      f.bytes.head? ≠ some HELPERS_DOT → d ∈ chainValues env s.arg.hashTable →
      (∃ dr, env.opendir d = some dr ∧ ⟨f, .reg⟩ ∈ dr) → ExactlyOne env event s := by
  intro hall
  obtain ⟨s, hold, hb, hchain⟩ := exists_chain [dirA]
  obtain ⟨call, hcall⟩ := hall (envX [dirA]) createX s fileX dirA (by decide) (by decide) rfl
    (by decide) (by rw [hchain]; decide) ⟨[⟨fileX, .reg⟩], by decide, List.mem_singleton.mpr rfl⟩
  have he : (handleEvent (envX [dirA]) createX s).1.backups = [] := by
    rw [handleEvent_of_name (by decide) rfl (by decide), hchain, hold, hb]
    decide
  rw [he, hb] at hcall
  exact absurd hcall (by simp)

end SecuritySystem.Backup

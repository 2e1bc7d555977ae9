/-
SecuritySystem/Backup/ScanToBackup.lean

From the scan of a tree to the commands of a run of events.

Behind a start that is complete, the chain holds all directories of the tree,
and in front of its files.  A search whose file is in some directory that it can
open ends there, before it gets to a path that is no directory.  So each event
about a file of the tree leads to one command, which copies a file out of a
directory of the tree that has one of that name; where there is only one such
directory, it is the right one.
-/
import SecuritySystem.Backup.TextBounds

namespace SecuritySystem.Backup

open CMem CString FileTree

variable {env : Env} {scan : ScanEnv} {tree : Tree} {t t₀ : HashTable} {junk : BitVec 32}
variable {items : UInt64} {s : ScanState} {rc : ℤ} {f d : CString} {chain : List CString}

/-! ### The table behind a complete scan -/

/-- What the search needs of the chain: directories in front of files, all
directories, and nothing else. -/
structure Searchable (tree : Tree) (chain : List CString) : Prop where
  dirs : ∀ d ∈ tree.dirs, d ∈ chain
  only : ∀ v ∈ chain, v ∈ tree.dirs ∨ v ∈ tree.files
  order : ∀ pre f post, chain = pre ++ f :: post → f ∈ tree.files → ∀ d ∈ post, d ∉ tree.dirs

/-- The strings are those of the walk. -/
theorem mem_of_scan (hcreate : hashTableCreate HASH_TABLE_MAX junk = some t₀)
    (h : Undisturbed scan tree) (hb : ∀ a, (scan.behind a).headD 0 = 0)
    (hrun : backupCheckFsAndRun scan ⟨tree.root, t₀⟩ items = (s, .ok rc)) :
    ∀ v ∈ s.arg.hashTable.strings, v ∈ tree.dirs ∨ v ∈ tree.files := by
  obtain ⟨h₀, hnil⟩ := inOrder_create hcreate
  obtain ⟨-, hsame | ⟨entries, henv, hs⟩⟩ := strings_of_ok _ h₀ hrun
  · intro v hv
    rw [hsame, hnil] at hv
    cases hv
  have hentries : entries = tree.visit := by
    have he := Option.some.inj (henv.symm.trans h.fts)
    exact congrArg Fts.entries he
  subst hentries
  intro v hv
  rw [hs, hnil] at hv
  rcases FirstCome.mem_addAll hv with hfile | ⟨hdir, -⟩
  · right
    obtain ⟨hfile, -⟩ := (FirstCome.mem_addAll hfile).resolve_left List.not_mem_nil
    rw [← tree.pathsOf_visit_files]
    exact pathsOf_walked_subset _ _ _ hfile
  · left
    rw [← tree.pathsOf_visit_dirs]
    exact pathsOf_walked_subset _ _ _ (of_mem_loopReads hb hdir).1

/-- **A scan makes the tree searchable.** -/
theorem searchable_of_scan (hcreate : hashTableCreate HASH_TABLE_MAX junk = some t₀)
    (h : Undisturbed scan tree) (hfit : Fits scan junk tree)
    (hb : ∀ a, (scan.behind a).headD 0 = 0) (items : UInt64) :
    ∃ s rc, backupCheckFsAndRun scan ⟨tree.root, t₀⟩ items = (s, .ok rc) ∧
      InOrder junk s.arg.hashTable ∧ Searchable tree s.arg.hashTable.strings := by
  obtain ⟨s, rc, hrun, -, hstored⟩ := hfit.scanComplete h hcreate items
  have hfts : ∀ fts, scan.fts = some fts → fts.entries = tree.visit := by
    intro fts he
    obtain rfl := Option.some.inj (he.symm.trans h.fts)
    rfl
  have hfirst := (backupCheckFsAndRun_dirsFirst hcreate hfts hrun).1
  rw [walked_of_running h.running, tree.pathsOf_visit_files] at hfirst
  exact ⟨s, rc, hrun, (strings_of_ok _ (inOrder_create hcreate).1 hrun).1, hstored,
    mem_of_scan hcreate h hb hrun, hfirst.order⟩

/-! ### The search -/

/-- A search for a file that some directory has ends in a directory. -/
theorem Searchable.selects (h : Searchable tree chain)
    (hopen : ∀ x ∈ tree.dirs, env.opendir x ≠ none) (hd : d ∈ tree.dirs) (hhit : Hits env f d)
    (old : CString) : ∃ x ∈ tree.dirs, Hits env f x ∧ Selects env f chain old x := by
  -- what is passed is not `d`, so the end of the search is not behind a file
  have hfront : ∀ pre x post, chain = pre ++ x :: post → (∀ y ∈ pre, Passed env f y) →
      x ∈ tree.dirs := by
    intro pre x post he hpre
    have hx : x ∈ chain := he ▸ List.mem_append_cons_self
    refine (h.only x hx).resolve_right fun hfile => ?_
    have hmem := h.dirs d hd
    rw [he] at hmem
    rcases List.mem_append.mp hmem with hmem | hmem
    · exact (hpre d hmem).not_hits hhit
    · rcases List.mem_cons.mp hmem with rfl | hmem
      · exact tree.not_mem_files hd hfile
      · exact h.order pre x post he hfile d hmem hd
  rcases searchDirectory_cases env f chain with ⟨pre, x, post, he, hpre, hx, -⟩ |
    ⟨pre, x, post, he, hpre, hx, -⟩ | ⟨hall, -⟩
  · exact ⟨x, hfront pre x post he hpre, hx, .inl ⟨pre, post, he, hpre, hx⟩⟩
  · exact absurd hx (hopen x (hfront pre x post he hpre))
  · exact absurd hhit (hall d (h.dirs d hd)).not_hits

/-! ### Paths -/

theorem slash_mem_dirPrefix (d : CString) : HELPERS_SLASH ∈ (dirPrefix d).bytes := by
  unfold dirPrefix
  split
  · next hlast => exact List.mem_of_getLast? hlast
  · show HELPERS_SLASH ∈ d.bytes ++ (lit "/").bytes
    apply List.mem_append_right
    decide

/-- All directories have a slash if the root has one. -/
theorem slash_mem_of_dirs (hroot : HELPERS_SLASH ∈ tree.root.bytes) (hd : d ∈ tree.dirs) :
    HELPERS_SLASH ∈ d.bytes := by
  rcases List.mem_cons.mp hd with rfl | hd
  · exact hroot
  · have hd : d ∈ tree.below.dirs tree.root := hd
    rw [← Forest.pathsOf_visit_dirs] at hd
    obtain ⟨e, he, rfl⟩ := List.mem_map.mp hd
    obtain ⟨n, -, rest, hpath, -⟩ := Forest.exists_under (List.mem_of_mem_filter he)
    rw [hpath]
    exact List.mem_append_left _ (List.mem_append_left _ (slash_mem_dirPrefix _))

/-! ### Events -/

/-- The event is about a file of the tree: all directories can be opened, and
one of them has a file of that name. -/
structure Arrives (tree : Tree) (path : CString) (env : Env) (event : InotifyEvent) (f : CString) :
    Prop where
  notDir : event.mask &&& IN_ISDIR = 0
  name : event.name = some f
  noDot : f.bytes.head? ≠ some HELPERS_DOT
  kind : NeedsBackup event.mask
  opened : ∀ x ∈ tree.dirs, env.opendir x ≠ none
  present : ∃ d ∈ tree.dirs, Hits env f d
  terminated : ∀ a, (env.beyond a).headD 0 = 0
  backup : env.pathToBackup = path

/-- The command copies the file of the event out of a directory of the tree. -/
def CopiesFrom (tree : Tree) (path : CString) (e : Env × InotifyEvent) (command : CString) : Prop :=
  ∃ f d, e.2.name = some f ∧ d ∈ tree.dirs ∧ Hits e.1 f d ∧
    command = copyCommand (pathIn d f) path

/-- One event: one command. -/
theorem Arrives.command {path : CString} {event : InotifyEvent} {s : State}
    (h : Arrives tree path env event f) (hroot : HELPERS_SLASH ∈ tree.root.bytes)
    (hslash : HELPERS_SLASH ∈ path.bytes) (hshort : path.strlen ≤ HELPERS_FILE_STROKE_MAX_LEN)
    (horder : InOrder junk s.arg.hashTable) (ht : Searchable tree s.arg.hashTable.strings) :
    ∃ command, CopiesFrom tree path (env, event) command ∧
      (handleEvent env event s).2 = none ∧
      (handleEvent env event s).1.commands = s.commands ++ [command] := by
  obtain ⟨l, hl, -⟩ := horder
  have hchain := chainValues_eq_strings hl h.terminated
  obtain ⟨d₀, hd₀, hhit₀⟩ := h.present
  obtain ⟨d, hd, hhit, hselects⟩ := ht.selects h.opened hd₀ hhit₀ s.arg.pathToDir
  rw [← hchain] at hselects
  have hasks : AsksFor env event s f d := ⟨h.notDir, h.name, h.noDot, h.kind, hselects⟩
  have hlong : d.strlen ≤ HASH_ITEM_MAX_SIZE_STR := (hl.of_mem_strings (ht.dirs d hd)).1.2
  have hwritable : Writable d f :=
    ⟨slash_mem_of_dirs hroot hd, strlen_pathIn_lt hlong (event.nameMax f h.name)⟩
  have hbackup := h.backup
  have hbuilds := (builds_iff_of_short hasks (hbackup ▸ hshort)).mpr ⟨hwritable, hbackup ▸ hslash⟩
  refine ⟨copyCommand (pathIn d f) path, ⟨f, d, h.name, hd, hhit, rfl⟩, hbuilds.returns, ?_⟩
  rw [hbuilds.destination, hbackup]

/-- A run of events: one command for each, in order. -/
theorem handleEvents_commands {path : CString} (hroot : HELPERS_SLASH ∈ tree.root.bytes)
    (hslash : HELPERS_SLASH ∈ path.bytes) (hshort : path.strlen ≤ HELPERS_FILE_STROKE_MAX_LEN)
    {events : List (Env × InotifyEvent)} (h : ∀ e ∈ events, ∃ f, Arrives tree path e.1 e.2 f)
    {s : State} (horder : InOrder junk s.arg.hashTable)
    (ht : Searchable tree s.arg.hashTable.strings) :
    ∃ commands, List.Forall₂ (CopiesFrom tree path) events commands ∧
      (handleEvents events s).2 = none ∧
      (handleEvents events s).1.commands = s.commands ++ commands := by
  induction events generalizing s with
  | nil => exact ⟨[], .nil, rfl, (List.append_nil _).symm⟩
  | cons e events ih =>
    obtain ⟨env, event⟩ := e
    obtain ⟨⟨f, hf⟩, hrest⟩ := List.forall_mem_cons.mp h
    obtain ⟨command, hcopies, hnone, hcommand⟩ := hf.command hroot hslash hshort horder ht
    have htable := handleEvent_hashTable env event s
    unfold handleEvents
    rcases he : handleEvent env event s with ⟨s', fault⟩
    rw [he] at hnone hcommand htable
    dsimp only at hnone hcommand htable
    subst hnone
    -- the next event finds the same table
    obtain ⟨commands, hall, hreturns, hcommands⟩ :=
      ih hrest (s := s') (htable ▸ horder) (htable ▸ ht)
    refine ⟨command :: commands, .cons hcopies hall, hreturns, ?_⟩
    rw [hcommands, hcommand, List.append_assoc]
    rfl

/-! ### From the configuration to the commands -/

/-- **From the configuration to the commands**: for each text that names a
directory and a backup directory with a slash, and each tree below it that
fits, the scan of an undisturbed start leaves a table with which any run of
events about files of the tree returns, and passes one command on for each
event, in order, which copies a file of that name out of a directory of the
tree. -/
theorem scan_backs_up {isDir : CString → Bool} {text : CString} {behind : List UInt8}
    {r : Parsed BackupConfig}
    (hparse : backupParseAndSerializeConfig isDir (some (text.bytes ++ 0 :: behind)) .initial =
      .ok r) (hempty : EmptyBehind backupKnown text behind) (hsuccess : r.failure = none)
    (hpath : LeavesSlash (backupValues text))
    (hroot : tree.root = configuredDir r.state)
    (hslash : HELPERS_SLASH ∈ (configuredDir r.state).bytes)
    (hcreate : hashTableCreate HASH_TABLE_MAX junk = some t₀) (h : Undisturbed scan tree)
    (hfit : Fits scan junk tree) (hb : ∀ a, (scan.behind a).headD 0 = 0) (items : UInt64) :
    ∃ s rc, backupCheckFsAndRun scan ⟨configuredDir r.state, t₀⟩ items = (s, .ok rc) ∧
      ∀ (handler : State) (events : List (Env × InotifyEvent)),
        handler.arg.hashTable = s.arg.hashTable →
        (∀ e ∈ events, ∃ f, Arrives tree (backupGetPathToBackup r.state) e.1 e.2 f) →
        ∃ commands,
          List.Forall₂ (CopiesFrom tree (backupGetPathToBackup r.state)) events commands ∧
          (handleEvents events handler).2 = none ∧
          (handleEvents events handler).1.commands = handler.commands ++ commands := by
  obtain ⟨hleaves, hshort⟩ := pathToBackup_of_parse hparse hempty hsuccess
  obtain ⟨s, rc, hrun, horder, ht⟩ := searchable_of_scan hcreate h hfit hb items
  rw [← hroot] at hslash ⊢
  refine ⟨s, rc, hrun, fun handler events htable hall => ?_⟩
  exact handleEvents_commands hslash (hleaves.mpr hpath) hshort hall (htable ▸ horder) (htable ▸ ht)

/-! "/w" with the directory "ab", in which "x" is created. -/

/-- The directories as they are when the event comes: "x" is in "ab". -/
def envAb : Env where
  running := true
  opendir := fun p =>
    if p = lit "/w" then some [] else if p = lit "/w/ab" then some [⟨fileX, .reg⟩] else none
  beyond := fun _ => []
  pathToBackup := lit "/backup"

theorem arrives_createX : Arrives nested (lit "/backup") envAb createX fileX where
  notDir := by decide
  name := rfl
  noDot := by decide
  kind := by decide
  opened := by decide
  present := ⟨lit "/w/ab", by decide, [⟨fileX, .reg⟩], by decide, by decide⟩
  terminated := fun _ => rfl
  backup := rfl

theorem scan_backs_up_nested :
    ∃ t₀ s rc, backupCheckFsAndRun (quietEnv nested) ⟨lit "/w", t₀⟩ 0 = (s, .ok rc) ∧
      ∃ commands, List.Forall₂ (CopiesFrom nested (lit "/backup")) [(envAb, createX)] commands ∧
        (handleEvents [(envAb, createX)] ⟨s.arg, 0, 0, [], [], []⟩).1.commands = commands := by
  obtain ⟨r, hparse, hsuccess⟩ : Succeeds (backupParseAndSerializeConfig (fun _ => true)
    (some (bothGiven.bytes ++ 0 :: [])) .initial) := by decide +kernel
  have hpaths : (backupParseAndSerializeConfig (fun _ => true)
      (some (bothGiven.bytes ++ 0 :: [])) .initial).map
        (fun r => (configuredDir r.state, backupGetPathToBackup r.state)) =
      .ok (lit "/w", lit "/backup") := by decide +kernel
  rw [hparse] at hpaths
  obtain ⟨hdir, hbackup⟩ := Prod.mk.inj (Except.ok.inj hpaths)
  have hleaves : LeavesSlash (backupValues bothGiven) := by
    have hvalues : backupValues bothGiven = [lit "/backup"] := by decide +kernel
    rw [hvalues]
    exact ⟨by decide, 0, by decide⟩
  obtain ⟨t₀, hcreate⟩ := exists_hashTableCreate 0
  obtain ⟨s, rc, hrun, hall⟩ := scan_backs_up hparse (by decide +kernel) hsuccess hleaves
    hdir.symm (by rw [hdir]; decide) hcreate (undisturbed_quietEnv nested) fits_nested
    (fun _ => rfl) 0
  rw [hdir] at hrun
  rw [hbackup] at hall
  obtain ⟨commands, hcopies, -, hcommands⟩ := hall ⟨s.arg, 0, 0, [], [], []⟩ [(envAb, createX)] rfl
    fun e he => ⟨fileX, List.mem_singleton.mp he ▸ arrives_createX⟩
  exact ⟨t₀, s, rc, hrun, commands, hcopies, hcommands⟩

end SecuritySystem.Backup

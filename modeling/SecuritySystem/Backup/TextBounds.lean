/-
SecuritySystem/Backup/TextBounds.lean

The texts that the backup service builds, and the buffers it builds them in.

None of the `sprintf`s is given a size.  What bounds the texts is checked
elsewhere: no string of a table is longer than 512 bytes, no configured path
longer than 168, and no name longer than 255.  `ShortPaths` carries the bounds of
the paths through a run of events, in which a path of the table replaces the
watched directory; with it the handler returns, or misses a slash or a name
(`handleEvents_fault`), and a start ends in no `overflow`
(`backupCheckFsAndRun_fits`).
-/
import SecuritySystem.Backup.ConfiguredBackup
import SecuritySystem.Backup.HandlerRun
import SecuritySystem.Backup.ScanOrder

namespace SecuritySystem.Backup

open CMem CMem.CString FileTree

/-! ### The configured paths -/

/-- `path_to_dir` as `start` passes it on. -/
def configuredDir (cfg : BackupConfig) : CString := .ofMem cfg.pathToDirBuffer

/-- A NUL at the length of a line is left in both paths. -/
structure CutAtLine (s : BackupConfig) : Prop where
  pathToDir : s.pathToDirBuffer[HELPERS_FILE_STROKE_MAX_LEN]? = some 0
  pathToBackup : s.pathToBackup[HELPERS_FILE_STROKE_MAX_LEN]? = some 0

theorem cutAtLine_initial : CutAtLine .initial where
  pathToDir := by
    show (zeros 1024)[168]? = some 0
    rw [zeros, List.getElem?_replicate, if_pos (by decide)]
  pathToBackup := by
    show (zeros 2048)[168]? = some 0
    rw [zeros, List.getElem?_replicate, if_pos (by decide)]

section Configured

variable {isDir : CString → Bool} {key value : CString} {s s' : BackupConfig}
variable {kvs : List (CString × CString)}

/-- A short value is written in front of it. -/
theorem getElem?_writeAt_line {mem mem' v : List UInt8} (h : writeAt mem 0 v = .ok mem')
    (hv : v.length ≤ HELPERS_FILE_STROKE_MAX_LEN) :
    mem'[HELPERS_FILE_STROKE_MAX_LEN]? = mem[HELPERS_FILE_STROKE_MAX_LEN]? := by
  rw [getElem?_writeAt h, if_neg (by omega)]

theorem CutAtLine.step (h : CutAtLine s)
    (hset : backupSet isDir key value s = .ok (.done s'))
    (hle : value.strlen ≤ HELPERS_FILE_STROKE_MAX_LEN) : CutAtLine s' := by
  obtain ⟨-, path, hpath, rfl⟩ | ⟨-, path, hpath, rfl⟩ | ⟨-, path, -, rfl⟩ :=
    backupSet_done_cases hset
  · exact ⟨(getElem?_writeAt_line hpath hle).trans h.pathToDir, h.pathToBackup⟩
  · obtain ⟨cleared, hcleared, hpath⟩ := bind_eq_ok hpath
    have hone : [(0 : UInt8)].length ≤ HELPERS_FILE_STROKE_MAX_LEN := by decide
    refine ⟨h.pathToDir, (getElem?_writeAt_line hpath hle).trans ?_⟩
    exact (getElem?_writeAt_line hcleared hone).trans h.pathToBackup
  · exact ⟨h.pathToDir, h.pathToBackup⟩

theorem CutAtLine.sets (h : CutAtLine s) (hsets : Sets (backupSet isDir) s kvs s')
    (hle : ∀ kv ∈ kvs, kv.2.strlen ≤ HELPERS_FILE_STROKE_MAX_LEN) : CutAtLine s' := by
  induction hsets with
  | nil s => exact h
  | cons hset _ ih =>
    obtain ⟨hvalue, hrest⟩ := List.forall_mem_cons.mp hle
    exact ih (h.step hset hvalue) hrest

end Configured

/-! ### Watches -/

section Watch

variable {env : ScanEnv} {s : ScanState} {v : CString} {junk : BitVec 32} {vs : List CString}

/-- **Both messages of `watch_dir` fit**, whatever inotify returns. -/
theorem watchDir_completes (hv : v.strlen ≤ HASH_ITEM_MAX_SIZE_STR) (env : ScanEnv)
    (mask : UInt64) (s : ScanState) : Completes (watchDir env v mask s).2 := by
  have ho := watchDir_cases env v mask s
  generalize watchDir env v mask s = out at ho ⊢
  cases ho with
  | refused r _ hr =>
    rcases hr with rfl | ⟨hlong, -⟩
    · exact completes_ok _
    · exact absurd hv (Nat.not_le.mpr hlong)
  | unwritten e _ he =>
    obtain ⟨message, hm⟩ := watchMessage_ok hv (env.addWatch s.watched.length v)
      (s.watchedItems + 1)
    cases hm.symm.trans he
  | added message _ _ => exact completes_ok _

theorem watchDir_arg (env : ScanEnv) (v : CString) (mask : UInt64) (s : ScanState) :
    (watchDir env v mask s).1.arg = s.arg := by
  have ho := watchDir_cases env v mask s
  generalize watchDir env v mask s = out at ho ⊢
  cases ho with
  | refused r _ _ => rfl
  | unwritten e _ _ => rfl
  | added message _ _ => rfl

/-- A short value is watched and stored, or `ht_dirs` is lost. -/
theorem watchAndInsert_fits (env : ScanEnv) (h : InOrder junk s.arg.hashTable)
    (hv : v.strlen ≤ HASH_ITEM_MAX_SIZE_STR) :
    (watchAndInsert env v s).2 = some .useAfterFree ∨
      (watchAndInsert env v s).2 = none ∧
        InOrder junk (watchAndInsert env v s).1.arg.hashTable := by
  have hinsert : ∀ s, InOrder junk s.arg.hashTable →
      (insertArg env v s).2 = none ∧ InOrder junk (insertArg env v s).1.arg.hashTable := by
    intro s hs
    obtain ⟨t, he, ht, -⟩ := insertArg_run env hs v
    rw [he]
    exact ⟨rfl, ht⟩
  unfold watchAndInsert
  split
  · exact .inr (hinsert s h)
  · have harg := watchDir_arg env v condition s
    obtain ⟨wd, hwd⟩ := watchDir_completes hv env condition s
    rcases hw : watchDir env v condition s with ⟨s₁, r⟩
    rw [hw] at harg hwd
    obtain rfl : r = .ok wd := hwd
    have hs₁ : InOrder junk s₁.arg.hashTable := by
      rw [show s₁.arg = s.arg from harg]
      exact h
    dsimp only
    split
    · exact .inl rfl
    · exact .inr (hinsert s₁ hs₁)

theorem watchAll_fits (env : ScanEnv) (h : InOrder junk s.arg.hashTable)
    (hvs : ∀ v ∈ vs, v.strlen ≤ HASH_ITEM_MAX_SIZE_STR) :
    (watchAll env vs s).2 ≠ some .overflow := by
  induction vs generalizing s with
  | nil => exact fun he => by cases he
  | cons v vs ih =>
    obtain ⟨hv, hrest⟩ := List.forall_mem_cons.mp hvs
    have hstep := watchAndInsert_fits env h hv
    unfold watchAll
    rcases he : watchAndInsert env v s with ⟨s₁, fault⟩
    rw [he] at hstep
    obtain rfl | ⟨rfl, hs₁⟩ := hstep
    · exact fun hlost => by cases hlost
    · exact ih hs₁ hrest

/-- **A start ends in no overflow**, whatever else it ends in. -/
theorem backupCheckFsAndRun_fits {arg : ThreadArgument} (h : InOrder junk arg.hashTable)
    (hb : ∀ a, (env.behind a).headD 0 = 0) (items : UInt64) :
    (backupCheckFsAndRun env arg items).2 ≠ .error .overflow := by
  by_cases hwalks : ∃ entries, Walks env entries
  · obtain ⟨entries, hfts⟩ := hwalks
    obtain ⟨t, ht, hrun⟩ := backupCheckFsAndRun_eq arg h hfts items
    have hshort : ∀ v ∈ loopReads env entries, v.strlen ≤ HASH_ITEM_MAX_SIZE_STR :=
      fun v hv => (of_mem_loopReads hb hv).2.2
    have hloop := watchAll_fits env (s := ⟨{ arg with hashTable := t }, 0, [], items, []⟩)
      ht.inOrder hshort
    rw [hrun]
    rcases hall : watchAll env (loopReads env entries)
      ⟨{ arg with hashTable := t }, 0, [], items, []⟩ with ⟨s, - | e⟩
    · exact fun he => by cases he
    · rw [hall] at hloop
      intro he
      exact hloop (congrArg some (Except.error.inj he))
  · rw [backupCheckFsAndRun_of_not_walks arg (not_exists.mp hwalks)]
    exact fun he => by cases he

end Watch

/-! ### Events -/

section Events

variable {env : Env} {event : InotifyEvent} {s : State} {f : CString}

/-- The paths that an event may use are short. -/
structure ShortPaths (env : Env) (s : State) : Prop where
  dir : s.arg.pathToDir.strlen ≤ HASH_ITEM_MAX_SIZE_STR
  backup : env.pathToBackup.strlen ≤ HELPERS_FILE_STROKE_MAX_LEN
  stored : ∀ d ∈ chainValues env s.arg.hashTable, d.strlen ≤ HASH_ITEM_MAX_SIZE_STR

/-- All of them have a slash. -/
structure Slashed (env : Env) (s : State) : Prop where
  dir : HELPERS_SLASH ∈ s.arg.pathToDir.bytes
  backup : HELPERS_SLASH ∈ env.pathToBackup.bytes
  stored : ∀ d ∈ chainValues env s.arg.hashTable, HELPERS_SLASH ∈ d.bytes

/-- An event on a file has a name. -/
def Named (event : InotifyEvent) : Prop := event.mask &&& IN_ISDIR = 0 → event.name ≠ none

/-- A name in a short directory. -/
theorem strlen_pathIn_lt {d : CString} (hd : d.strlen ≤ HASH_ITEM_MAX_SIZE_STR)
    (hf : f.strlen ≤ 255) : (pathIn d f).strlen < HELPERS_BUF_SIZE := by
  have hd : d.strlen ≤ 512 := hd
  have hprefix := strlen_dirPrefix_le d
  rw [pathIn, strlen_append]
  show _ < 1024
  omega

theorem makeBackup_fault (hd : s.arg.pathToDir.strlen ≤ HASH_ITEM_MAX_SIZE_STR)
    (hbackup : env.pathToBackup.strlen ≤ HELPERS_FILE_STROKE_MAX_LEN) (hf : f.strlen ≤ 255) :
    (makeBackup env f s).2 = none ∨ (makeBackup env f s).2 = some .badPointer ∧
      ¬ (HELPERS_SLASH ∈ s.arg.pathToDir.bytes ∧ HELPERS_SLASH ∈ env.pathToBackup.bytes) := by
  have hlt := strlen_pathIn_lt hd hf
  obtain ⟨-, -, hmade⟩ | ⟨hnot, hbad | ⟨hlong, -⟩⟩ := makeBackup_spec (f := f) (s := s) hbackup
  · rw [hmade]
    exact .inl rfl
  · exact .inr ⟨hbad, fun h => hnot ⟨⟨h.1, hlt⟩, h.2⟩⟩
  · exact absurd hlt (Nat.not_lt.mpr hlong)

theorem handleNamed_fault (hd : s.arg.pathToDir.strlen ≤ HASH_ITEM_MAX_SIZE_STR)
    (hbackup : env.pathToBackup.strlen ≤ HELPERS_FILE_STROKE_MAX_LEN) (hf : f.strlen ≤ 255) :
    (handleNamed env event f s).2 = none ∨ (handleNamed env event f s).2 = some .badPointer ∧
      ¬ (HELPERS_SLASH ∈ s.arg.pathToDir.bytes ∧ HELPERS_SLASH ∈ env.pathToBackup.bytes) := by
  unfold handleNamed
  rcases react_cases event hf with ⟨-, m, hm, hfits⟩ | ⟨-, hm, hfits⟩
  · rw [hm]
    dsimp only
    rw [hfits]
    exact makeBackup_fault (s := s.log m) hd hbackup hf
  · split
    · exact .inl rfl
    · dsimp only
      split <;> exact .inl rfl
    · next m hr =>
      rw [hfits m hr]
      exact .inl rfl
    · next m hr => exact absurd hr (hm m)

/-- The directory that an event leaves is the old one or a stored one. -/
theorem handleEvent_pathToDir (env : Env) (event : InotifyEvent) (s : State) :
    (handleEvent env event s).1.arg.pathToDir = s.arg.pathToDir ∨
      (handleEvent env event s).1.arg.pathToDir ∈ chainValues env s.arg.hashTable := by
  unfold handleEvent
  split
  · exact .inl rfl
  rcases event.name with - | f
  · exact .inl rfl
  dsimp only
  split
  · exact .inl rfl
  rcases searchDirectory_cases env f (chainValues env s.arg.hashTable) with
    ⟨pre, d, post, hchain, -, -, he⟩ | ⟨pre, d, post, -, -, -, he⟩ | ⟨-, he⟩
  · rw [he]
    dsimp only
    rw [(handleNamed_frame env event f _).2, hchain]
    exact .inr (List.mem_append_right pre List.mem_cons_self)
  · rw [he]
    exact .inl rfl
  · rw [he]
    dsimp only
    rw [(handleNamed_frame env event f _).2]
    exact .inl rfl

/-- The handler returns, or misses a slash or the name. -/
theorem handleEvent_fault (event : InotifyEvent) (h : ShortPaths env s) :
    (handleEvent env event s).2 = none ∨
      (handleEvent env event s).2 = some .badPointer ∧ ¬ (Named event ∧ Slashed env s) := by
  unfold handleEvent
  split
  · exact .inl rfl
  next hdir =>
  rcases hname : event.name with - | f
  · exact .inr ⟨rfl, fun hall => hall.1 (not_not.mp hdir) hname⟩
  have hf := event.nameMax f hname
  dsimp only
  split
  · exact .inl rfl
  rcases searchDirectory_cases env f (chainValues env s.arg.hashTable) with
    ⟨pre, d, post, hchain, -, -, he⟩ | ⟨pre, d, post, -, -, -, he⟩ | ⟨-, he⟩
  · -- the handler goes on with a stored directory
    have hd : d ∈ chainValues env s.arg.hashTable :=
      hchain ▸ List.mem_append_right pre List.mem_cons_self
    rw [he]
    refine (handleNamed_fault (h.stored d hd) h.backup hf).imp_right fun hbad => ?_
    exact ⟨hbad.1, fun hall => hbad.2 ⟨hall.2.stored d hd, hall.2.backup⟩⟩
  · rw [he]
    exact .inl rfl
  · rw [he]
    dsimp only
    refine (handleNamed_fault (s := { s with openStreams := s.openStreams + _ }) h.dir h.backup
      hf).imp_right fun hbad => ?_
    exact ⟨hbad.1, fun hall => hbad.2 ⟨hall.2.dir, hall.2.backup⟩⟩

/-- **A run of events** returns, or misses a slash or a name; no text is too long. -/
theorem handleEvents_fault {events : List (Env × InotifyEvent)}
    (h : ∀ e ∈ events, ShortPaths e.1 s) :
    (handleEvents events s).2 = none ∨ (handleEvents events s).2 = some .badPointer ∧
      ¬ ∀ e ∈ events, Named e.2 ∧ Slashed e.1 s := by
  induction events generalizing s with
  | nil => exact .inl rfl
  | cons e events ih =>
    obtain ⟨env, event⟩ := e
    have hshort : ShortPaths env s := h _ List.mem_cons_self
    have hstep := handleEvent_fault event hshort
    have htable := handleEvent_hashTable env event s
    have hpath := handleEvent_pathToDir env event s
    unfold handleEvents
    rcases he : handleEvent env event s with ⟨t, fault⟩
    rw [he] at hstep htable hpath
    dsimp only at hstep htable hpath
    obtain rfl | ⟨rfl, hnot⟩ := hstep
    · dsimp only
      -- the rest of the run finds the same table, and perhaps another directory
      have hrest : ∀ e ∈ events, ShortPaths e.1 t := by
        intro e he
        have hse := h e (List.mem_cons_of_mem _ he)
        refine ⟨?_, hse.backup, htable ▸ hse.stored⟩
        rcases hpath with hold | hstored
        · exact hold ▸ hse.dir
        · exact hshort.stored _ hstored
      refine (ih hrest).imp_right fun hbad => ⟨hbad.1, fun hall => hbad.2 fun e he => ?_⟩
      obtain ⟨hnamed, hse⟩ := hall e (List.mem_cons_of_mem _ he)
      refine ⟨hnamed, ?_, hse.backup, htable ▸ hse.stored⟩
      rcases hpath with hold | hstored
      · exact hold ▸ hse.dir
      · exact (hall (env, event) List.mem_cons_self).2.stored _ hstored
    · exact .inr ⟨rfl, fun hall => hnot (hall (env, event) List.mem_cons_self)⟩

end Events

/-! ### All texts -/

/-- The text for an event queue that was too short. -/
def overflowWarning : CString := lit "Warning: AN OVERFLOW EVENT OCCURRED!"

/-- The surroundings of an event behind the configuration `cfg`: blocks of the
table read as the stored strings. -/
structure Configured (cfg : BackupConfig) (env : Env) : Prop where
  terminated : ∀ a, (env.beyond a).headD 0 = 0
  backup : env.pathToBackup = backupGetPathToBackup cfg

/-- No `sprintf` writes behind its buffer if the paths are those of `cfg`. -/
structure TextsFit (cfg : BackupConfig) : Prop where
  /-- in `watch_dir`, for a string of a table or the watched directory -/
  watch : ∀ (env : ScanEnv) (v : CString) (mask : UInt64) (s : ScanState),
    Storable v ∨ v = configuredDir cfg → Completes (watchDir env v mask s).2
  /-- in a whole start -/
  start : ∀ (env : ScanEnv) (arg : ThreadArgument) (items : UInt64) (junk : BitVec 32),
    Reachable HASH_TABLE_MAX junk arg.hashTable → (∀ a, (env.behind a).headD 0 = 0) →
      (backupCheckFsAndRun env arg items).2 ≠ .error .overflow
  /-- in `handle_event` and `backup_fs_make_backup`, through a run of events; with
  names and slashes, all of them are reached -/
  events : ∀ (events : List (Env × InotifyEvent)) (s : State) (junk : BitVec 32),
    Reachable HASH_TABLE_MAX junk s.arg.hashTable → s.arg.pathToDir = configuredDir cfg →
      (∀ e ∈ events, Configured cfg e.1) →
        (handleEvents events s).2 ≠ some .overflow ∧
          ((∀ e ∈ events, Named e.2 ∧ Slashed e.1 s) → (handleEvents events s).2 = none)
  /-- in the branch of `handle_event` that returns behind its text -/
  warning : overflowWarning.strlen < HELPERS_AVER_BUFFER_SIZE

theorem CutAtLine.strlen_configuredDir_le {cfg : BackupConfig} (h : CutAtLine cfg) :
    (configuredDir cfg).strlen ≤ HELPERS_FILE_STROKE_MAX_LEN :=
  strlen_ofMem_le_of_getElem? h.pathToDir

theorem CutAtLine.strlen_pathToBackup_le {cfg : BackupConfig} (h : CutAtLine cfg) :
    (backupGetPathToBackup cfg).strlen ≤ HELPERS_FILE_STROKE_MAX_LEN :=
  strlen_ofMem_le_of_getElem? h.pathToBackup

/-- A line is shorter than an item. -/
theorem line_le_item : HELPERS_FILE_STROKE_MAX_LEN ≤ HASH_ITEM_MAX_SIZE_STR := by decide

theorem CutAtLine.shortPaths {cfg : BackupConfig} (h : CutAtLine cfg) {env : Env} {s : State}
    {l : List Addr} (htable : Chained s.arg.hashTable l)
    (hdir : s.arg.pathToDir = configuredDir cfg) (henv : Configured cfg env) :
    ShortPaths env s where
  dir := hdir ▸ h.strlen_configuredDir_le.trans line_le_item
  backup := henv.backup ▸ h.strlen_pathToBackup_le
  stored := by
    intro d hd
    rw [chainValues_eq_strings htable henv.terminated] at hd
    exact (htable.of_mem_strings hd).1.2

/-- Short paths make short texts. -/
theorem CutAtLine.textsFit {cfg : BackupConfig} (h : CutAtLine cfg) : TextsFit cfg where
  watch := by
    rintro env v mask s (hv | rfl)
    · exact watchDir_completes hv.2 env mask s
    · exact watchDir_completes (h.strlen_configuredDir_le.trans line_le_item) env mask s
  start := by
    intro env arg items junk harg hb
    have hin : InOrder junk arg.hashTable := harg.chained
    exact backupCheckFsAndRun_fits hin hb items
  events := by
    intro events s junk htable hdir henv
    obtain ⟨l, hl, -⟩ := htable.chained
    have hfault := handleEvents_fault fun e he => h.shortPaths hl hdir (henv e he)
    constructor
    · intro hover
      rcases hfault with hnone | ⟨hbad, -⟩
      · cases hover.symm.trans hnone
      · cases hover.symm.trans hbad
    · exact fun hall => hfault.resolve_right fun hbad => hbad.2 hall
  warning := by decide

/-- **Every text fits its buffer**, behind any settings that come from lines. -/
theorem textsFit_of_sets {isDir : CString → Bool} {kvs : List (CString × CString)}
    {cfg : BackupConfig} (hsets : Sets (backupSet isDir) .initial kvs cfg)
    (hline : ∀ kv ∈ kvs, kv.2.strlen ≤ HELPERS_FILE_STROKE_MAX_LEN) : TextsFit cfg := by
  have hcut : CutAtLine cfg := cutAtLine_initial.sets hsets hline
  exact hcut.textsFit

/-- Both directories are set. -/
theorem textsFit_of_sets_bothGiven :
    ∃ cfg, Sets (backupSet fun _ => true) .initial
        [(PATH_TO_DIR_DEFINE, lit "/w"), (PATH_TO_BACKUP_DEFINE, lit "/backup")] cfg ∧
      TextsFit cfg := by
  have hlen : ∀ n, (zeros n).length = n := fun n => List.length_replicate ..
  obtain ⟨dir, hdir⟩ : Completes (writeAt (zeros HELPERS_BUF_SIZE) 0 (lit "/w").bytes) :=
    completes_writeAt_iff.mpr (by rw [hlen]; decide)
  obtain ⟨backup, hbackup⟩ : Completes (setPath (zeros HELPERS_AVER_BUFFER_SIZE)
      (lit "/backup")) := by
    have hpos : 0 < (zeros HELPERS_AVER_BUFFER_SIZE).length := by rw [hlen]; decide
    have hle : (lit "/backup").strlen ≤ (zeros HELPERS_AVER_BUFFER_SIZE).length := by
      rw [hlen]
      decide
    obtain ⟨path, hpath, -⟩ := setPath_of_le hpos hle
    exact ⟨path, hpath⟩
  let dirSet : BackupConfig := { BackupConfig.initial with pathToDirBuffer := dir }
  let bothSet : BackupConfig := { dirSet with pathToBackup := backup }
  have hfirst : backupSet (fun _ => true) PATH_TO_DIR_DEFINE (lit "/w") .initial =
      .ok (.done dirSet) := by
    show (writeAt (zeros HELPERS_BUF_SIZE) 0 (lit "/w").bytes >>= fun path => _) = _
    rw [hdir]
    rfl
  have hsecond : backupSet (fun _ => true) PATH_TO_BACKUP_DEFINE (lit "/backup") dirSet =
      .ok (.done bothSet) := by
    show ((setPath (zeros HELPERS_AVER_BUFFER_SIZE) (lit "/backup") >>= fun path => _) >>=
      fun s' => _) = _
    rw [hbackup]
    rfl
  have hsets := Sets.cons hfirst (.cons hsecond (.nil _))
  exact ⟨_, hsets, textsFit_of_sets hsets (by decide)⟩

/-- The parser takes no longer lines, so the texts fit behind every file that it
accepts. -/
theorem textsFit_of_parse {isDir : CString → Bool} {text : CString} {behind : List UInt8}
    {r : Parsed BackupConfig}
    (h : backupParseAndSerializeConfig isDir (some (text.bytes ++ 0 :: behind)) .initial = .ok r)
    (hempty : EmptyBehind backupKnown text behind) (hsuccess : r.failure = none) :
    TextsFit r.state := by
  have hreads : Reads HELPERS_FILE_STROKE_MAX_LEN (backupSet isDir) backupKnown (textLines text)
      .initial r.applied r.state :=
    (lineLoop_reads (by decide) backupSet_unknown_iff h hsuccess).of_seen hempty
  have hcut : CutAtLine r.state :=
    cutAtLine_initial.sets hreads.sets (hreads.strlen_le (nul_not_mem_textLines text))
  exact hcut.textsFit

end SecuritySystem.Backup

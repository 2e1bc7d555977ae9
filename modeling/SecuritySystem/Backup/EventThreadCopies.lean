/-
SecuritySystem/Backup/EventThreadCopies.lean

The commands that the event thread runs.

A command is run for an event, and for no event more than one; they come in
the order of the events.  Each one copies the file that its event names out of
a directory that the thread has been told of, the root or a stored one
(`pthread_on_dir_run_copies`).  Where the texts are short and have their
slashes, and each event on a file has a name, the thread never faults
(`pthread_on_dir_run_noFault`).
-/
import SecuritySystem.Backup.EventThreadSafety
import SecuritySystem.Backup.TextBounds

namespace SecuritySystem.Backup

open CMem CString FileTree

/-! ### One event -/

section Event

variable {env : Env} {event : InotifyEvent} {s : State} {f : CString}

/-- What `makeBackup` does: the call and the command, the call alone because
the command cannot be put together, or nothing. -/
theorem makeBackup_cases (env : Env) (f : CString) (s : State) :
    (Writable s.arg.pathToDir f ∧
      (makeBackup env f s).1.backups = s.backups ++ [(pathIn s.arg.pathToDir f, f)] ∧
      ((makeBackup env f s).2 = none ∧ (makeBackup env f s).1.commands =
          s.commands ++ [copyCommand (pathIn s.arg.pathToDir f) env.pathToBackup] ∨
        (makeBackup env f s).2 ≠ none ∧ (makeBackup env f s).1.commands = s.commands)) ∨
    (makeBackup env f s).1.backups = s.backups ∧
      (makeBackup env f s).1.commands = s.commands := by
  unfold makeBackup
  by_cases hdir : HELPERS_SLASH ∈ s.arg.pathToDir.bytes
  · rw [joined_of_slash hdir]
    by_cases hlt : (pathIn s.arg.pathToDir f).strlen < HELPERS_BUF_SIZE
    · rw [sprintf_of_lt hlt]
      refine .inl ⟨⟨hdir, hlt⟩, backupFsMakeBackup_backups env _ f s, ?_⟩
      dsimp only
      unfold backupFsMakeBackup
      dsimp only
      by_cases hbackup : HELPERS_SLASH ∈ env.pathToBackup.bytes
      · rw [joined_copyCommand hbackup]
        by_cases hfit : (copyCommand (pathIn s.arg.pathToDir f) env.pathToBackup).strlen <
            HELPERS_BUF_SIZE + HELPERS_AVER_BUFFER_SIZE + 1
        · rw [sprintf_of_lt hfit]
          exact .inl ⟨rfl, rfl⟩
        · rw [sprintf_of_ge (Nat.not_lt.mp hfit)]
          exact .inr ⟨Option.some_ne_none _, rfl⟩
      · rw [joined_of_not_slash hbackup]
        exact .inr ⟨Option.some_ne_none _, rfl⟩
    · rw [sprintf_of_ge (Nat.not_lt.mp hlt)]
      exact .inr ⟨rfl, rfl⟩
  · rw [joined_of_not_slash hdir]
    exact .inr ⟨rfl, rfl⟩

/-- The quiet kinds of events run no command. -/
theorem handleNamed_commands (hf : f.strlen ≤ 255) (hkind : ¬ NeedsBackup event.mask) :
    (handleNamed env event f s).1.commands = s.commands := by
  obtain ⟨hneed, -⟩ | ⟨-, hm, -⟩ := react_cases event hf
  · exact absurd hneed hkind
  · unfold handleNamed
    split
    · rfl
    · dsimp only
      split <;> rfl
    · split <;> rfl
    · next m h => exact absurd h (hm m)

/-- An event that asks for no backup runs no command. -/
theorem handleEvent_commands_of_not_asks (h : ∀ f d, ¬ AsksFor env event s f d) :
    (handleEvent env event s).1.commands = s.commands := by
  unfold handleEvent
  split
  · rfl
  next hdir =>
  rcases hname : event.name with - | f
  · rfl
  dsimp only
  split
  · rfl
  next hdot =>
  -- what is selected would be asked for
  have hasks : ∀ d, (searchDirectory env f (chainValues env s.arg.hashTable)).1.selected
      s.arg.pathToDir = some d → ¬ NeedsBackup event.mask := fun d hd hkind =>
    h f d ⟨not_not.mp hdir, hname, hdot, hkind, selects_iff.mpr hd⟩
  revert hasks
  rcases (searchDirectory env f (chainValues env s.arg.hashTable)).1 with d | d | -
  · exact fun hasks => handleNamed_commands (event.nameMax f hname) (hasks d rfl)
  · exact fun _ => rfl
  · exact fun hasks => handleNamed_commands (event.nameMax f hname) (hasks _ rfl)

/-- **What an event adds** to the calls and to the commands. -/
theorem handleEvent_copies (env : Env) (event : InotifyEvent) (s : State) :
    (∃ f d, AsksFor env event s f d ∧ Writable d f ∧
      (handleEvent env event s).1.backups = s.backups ++ [(pathIn d f, f)] ∧
      ((handleEvent env event s).2 = none ∧ (handleEvent env event s).1.commands =
          s.commands ++ [copyCommand (pathIn d f) env.pathToBackup] ∨
        (handleEvent env event s).2 ≠ none ∧
          (handleEvent env event s).1.commands = s.commands)) ∨
    (handleEvent env event s).1.backups = s.backups ∧
      (handleEvent env event s).1.commands = s.commands := by
  by_cases hex : ∃ f d, AsksFor env event s f d
  · obtain ⟨f, d, h⟩ := hex
    obtain ⟨s₁, hevent, rfl, hbackups, hcommands⟩ := h.handleEvent_eq
    have hcases := makeBackup_cases env f s₁
    rw [hbackups, hcommands] at hcases
    rw [hevent]
    exact hcases.imp_left fun hmade => ⟨f, _, h, hmade⟩
  · have hnone : ∀ f d, ¬ AsksFor env event s f d := fun f d h => hex ⟨f, d, h⟩
    refine .inr ⟨?_, handleEvent_commands_of_not_asks hnone⟩
    obtain ⟨f, d, h, -⟩ | ⟨-, he⟩ := handleEvent_backups env event s
    · exact absurd ⟨h.notDir, h.name, h.noDot, h.kind, h.selects⟩ (hnone f d)
    · exact he

end Event

/-! ### Runs -/

variable {path : CString} {s s' : DirThread} {s₀ : State} {tr out : List DirLabel}

/-- The tables that the handler has found. -/
def tables (s₀ : State) (tr : List DirLabel) : List HashTable :=
  s₀.arg.hashTable :: tr.filterMap fun
    | .scanned t _ _ => some t
    | _ => none

/-- The directories that an event of the run finds stored. -/
def StoredIn (s₀ : State) (tr : List DirLabel) (d : CString) : Prop :=
  ∃ env e, .event env e ∈ tr ∧ ∃ t ∈ tables s₀ tr, d ∈ chainValues env t

/-- The root, or a stored directory. -/
def Known (s₀ : State) (tr : List DirLabel) (d : CString) : Prop :=
  d = s₀.arg.pathToDir ∨ StoredIn s₀ tr d

/-- A call of `backup_fs_make_backup` that its event accounts for. -/
structure CallFor (s₀ : State) (tr : List DirLabel) (event : InotifyEvent)
    (call : CString × CString) : Prop where
  notDir : event.mask &&& IN_ISDIR = 0
  name : event.name = some call.2
  noDot : call.2.bytes.head? ≠ some HELPERS_DOT
  kind : NeedsBackup event.mask
  path : ∃ d, Known s₀ tr d ∧ Writable d call.2 ∧ call.1 = pathIn d call.2

/-- The calls and commands of a run, with the events that they are for. -/
structure Copies (path : CString) (s₀ : State) (s : DirThread) (tr : List DirLabel)
    (calls : List (InotifyEvent × CString × CString)) : Prop where
  /-- one call for an event at most, in the order of the events -/
  inOrder : (calls.map Prod.fst).Sublist (handledEvents tr)
  backups : s.handler.backups = s₀.backups ++ calls.map Prod.snd
  justified : ∀ c ∈ calls, CallFor s₀ tr c.1 c.2
  /-- a command for each call, in this order -/
  commands : s.handler.commands <+:
    s₀.commands ++ calls.map fun c => copyCommand c.2.1 path
  /-- but for the last call, if the thread has faulted in it -/
  all : (∀ e, s.pc ≠ .fault e) →
    s.handler.commands = s₀.commands ++ calls.map fun c => copyCommand c.2.1 path

theorem tables_subset (s₀ : State) (tr out : List DirLabel) :
    tables s₀ tr ⊆ tables s₀ (tr ++ out) := by
  unfold tables
  rw [List.filterMap_append, ← List.cons_append]
  exact List.subset_append_left _ _

theorem StoredIn.mono {d : CString} (h : StoredIn s₀ tr d) (out : List DirLabel) :
    StoredIn s₀ (tr ++ out) d := by
  obtain ⟨env, e, he, t, ht, hd⟩ := h
  exact ⟨env, e, List.mem_append_left _ he, t, tables_subset s₀ tr out ht, hd⟩

theorem Known.mono {d : CString} (h : Known s₀ tr d) (out : List DirLabel) :
    Known s₀ (tr ++ out) d := h.imp_right fun h => h.mono out

theorem CallFor.mono {event : InotifyEvent} {call : CString × CString}
    (h : CallFor s₀ tr event call) (out : List DirLabel) : CallFor s₀ (tr ++ out) event call := by
  obtain ⟨d, hd, hw, hcall⟩ := h.path
  exact ⟨h.notDir, h.name, h.noDot, h.kind, d, hd.mono out, hw, hcall⟩

/-- What the events find: a table that was there, and a directory that is
known. -/
structure Finds (s₀ : State) (tr : List DirLabel) (s : State) : Prop where
  table : s.arg.hashTable ∈ tables s₀ tr
  dir : Known s₀ tr s.arg.pathToDir

/-- Other labels than those of events change neither calls nor commands. -/
theorem Copies.quiet {calls : List (InotifyEvent × CString × CString)}
    (h : Copies path s₀ s tr calls) (hb : s'.handler.backups = s.handler.backups)
    (hc : s'.handler.commands = s.handler.commands)
    (hne : (∀ e, s'.pc ≠ .fault e) → ∀ e, s.pc ≠ .fault e) :
    Copies path s₀ s' (tr ++ out) calls where
  inOrder := by
    rw [handledEvents_append]
    exact h.inOrder.trans (List.sublist_append_left _ _)
  backups := hb.trans h.backups
  justified c hmem := (h.justified c hmem).mono out
  commands := by
    rw [hc]
    exact h.commands
  all hne' := hc.trans (h.all (hne hne'))

/-- The event at hand, whose call is the last one. -/
theorem Copies.event {calls : List (InotifyEvent × CString × CString)} {env : Env}
    {event : InotifyEvent} (h : Copies path s₀ s tr calls) (hfinds : Finds s₀ tr s.handler)
    (hne : ∀ e, s.pc ≠ .fault e) (hpath : env.pathToBackup = path)
    (hhandler : s'.handler = (handleEvent env event s.handler).1)
    (hfault : (∀ e, s'.pc ≠ .fault e) → (handleEvent env event s.handler).2 = none)
    {post : List DirLabel} (hpost : handledEvents post = []) :
    ∃ calls, Copies path s₀ s' (tr ++ .event env event :: post) calls := by
  have hevents : handledEvents (tr ++ .event env event :: post) = handledEvents tr ++ [event] := by
    rw [handledEvents_append]
    show _ ++ event :: handledEvents post = _
    rw [hpost]
  have hmono : ∀ c ∈ calls, CallFor s₀ (tr ++ .event env event :: post) c.1 c.2 :=
    fun c hmem => (h.justified c hmem).mono _
  obtain ⟨f, d, hasks, hw, hb, hc⟩ | ⟨hb, hc⟩ := handleEvent_copies env event s.handler
  · rw [← hhandler] at hb hc
    refine ⟨calls ++ [(event, pathIn d f, f)], ?_, ?_, ?_, ?_, ?_⟩
    · rw [hevents, List.map_append]
      exact h.inOrder.append (List.Sublist.refl _)
    · rw [hb, h.backups, List.map_append, List.append_assoc]
      rfl
    · intro c hmem
      rcases List.mem_append.mp hmem with hmem | hmem
      · exact hmono c hmem
      obtain rfl := List.mem_singleton.mp hmem
      refine ⟨hasks.notDir, hasks.name, hasks.noDot, hasks.kind, d, ?_, hw, rfl⟩
      -- the directory selected is a stored one, or the one that was left
      rcases hasks.selects with ⟨pre, post', hchain, -, -⟩ | ⟨rfl, -⟩
      · refine .inr ⟨env, event, by simp, _, tables_subset s₀ tr _ hfinds.table, ?_⟩
        rw [hchain]
        exact List.mem_append_right _ List.mem_cons_self
      · exact hfinds.dir.mono _
    · rw [List.map_append, ← List.append_assoc, ← h.all hne]
      rcases hc with ⟨-, hc⟩ | ⟨-, hc⟩
      · rw [hc, hpath]
        exact List.prefix_rfl
      · rw [hc]
        exact List.prefix_append _ _
    · intro hne'
      rcases hc with ⟨-, hc⟩ | ⟨hbad, -⟩
      · rw [hc, hpath, h.all hne, List.map_append, List.append_assoc]
        rfl
      · exact absurd (hfault hne') hbad
  · rw [← hhandler] at hb hc
    refine ⟨calls, ?_, hb.trans h.backups, hmono, ?_, fun _ => hc.trans (h.all hne)⟩
    · rw [hevents]
      exact h.inOrder.trans (List.sublist_append_left _ _)
    · rw [hc]
      exact h.commands

/-- `watch_dir` changes neither calls nor commands, nor the argument. -/
theorem watchRoot_frame (wd : Int32) (s : State) :
    (watchRoot wd s).1.backups = s.backups ∧ (watchRoot wd s).1.commands = s.commands ∧
      (watchRoot wd s).1.arg = s.arg := ⟨rfl, rfl, rfl⟩

/-- What the other labels leave alone. -/
theorem Finds.keep {t u : State} (h : Finds s₀ tr u) (ht : t.arg = u.arg) (out : List DirLabel) :
    Finds s₀ (tr ++ out) t := by
  refine ⟨?_, ?_⟩
  · rw [ht]
    exact tables_subset s₀ tr out h.table
  · rw [ht]
    exact h.dir.mono out

theorem Finds.effect {u : State} (h : Finds s₀ tr u) (l : DirLabel) :
    Finds s₀ (tr ++ [l]) (l.effect u) := by
  cases l with
  | loop l => cases l <;> exact h.keep (by rfl) _
  | event env event =>
    -- the table stays, and perhaps a stored directory is selected
    refine ⟨?_, ?_⟩
    · show (handleEvent env event u).1.arg.hashTable ∈ _
      rw [handleEvent_hashTable]
      exact tables_subset s₀ tr _ h.table
    · rcases handleEvent_pathToDir env event u with hold | hstored
      · show Known s₀ _ (handleEvent env event u).1.arg.pathToDir
        rw [hold]
        exact h.dir.mono _
      · exact .inr ⟨env, event, List.mem_append_right _ (List.mem_singleton_self _), _,
          tables_subset s₀ tr _ h.table, hstored⟩
  | scanned t w messages =>
    refine ⟨?_, h.dir.mono _⟩
    unfold tables
    rw [List.filterMap_append]
    exact List.mem_cons_of_mem _ (List.mem_append_right _ List.mem_cons_self)
  | closed r =>
    rw [DirLabel.effect]
    split <;> exact h.keep (by rfl) _
  | _ => exact h.keep (by rfl) _

/-- Whatever a run has done, its events find known directories. -/
theorem finds_replay (s₀ : State) (tr : List DirLabel) : Finds s₀ tr (replay s₀ tr) := by
  induction tr using List.reverseRecOn with
  | nil => exact ⟨List.mem_cons_self, .inl rfl⟩
  | append_singleton tr l ih =>
    rw [replay_append]
    exact ih.effect l

/-- Each step keeps the account of the calls. -/
theorem Copies.step {calls : List (InotifyEvent × CString × CString)} {own : Bool}
    (h : Copies path s₀ s tr calls) (hinv : DirInv s₀ tr s) (hs : DirStep path s own s' out) :
    ∃ calls, Copies path s₀ s' (tr ++ out) calls := by
  have hfinds : Finds s₀ tr s.handler := hinv.replay ▸ finds_replay s₀ tr
  have hquiet : s'.handler.backups = s.handler.backups →
      s'.handler.commands = s.handler.commands →
      ((∀ e, s'.pc ≠ .fault e) → ∀ e, s.pc ≠ .fault e) →
      ∃ calls, Copies path s₀ s' (tr ++ out) calls :=
    fun hb hc hne => ⟨calls, h.quiet hb hc hne⟩
  cases hs with
  | signal => exact hquiet rfl rfl id
  | scanned => exact hquiet rfl rfl id
  | watched wd hpc =>
    obtain ⟨hb, hc, -⟩ := watchRoot_frame wd s.handler
    exact hquiet hb hc fun _ => by rw [hpc]; exact nofun
  | @faulted a env event t e hpc _ _ _ hpath ht =>
    exact h.event hfinds (by rw [hpc]; exact nofun) hpath (by rw [ht])
      (fun hne => absurd rfl (hne e)) rfl
  | @handled a env event t l ls hpc _ _ _ hpath ht =>
    obtain ⟨-, -, hevents, -⟩ := of_loop ls
    exact h.event hfinds (by rw [hpc]; exact nofun) hpath (by rw [ht]) (fun _ => by rw [ht])
      hevents
  | destroying hpc =>
    have hframe : s.destroyStep.1.handler = s.handler := by
      unfold DirThread.destroyStep
      split
      · split
        · rfl
        · split <;> rfl
      · rfl
    exact hquiet (by rw [hframe]) (by rw [hframe]) fun _ => by rw [hpc]; exact nofun
  | opened fd hpc => exact hquiet rfl rfl fun _ => by rw [hpc]; exact nofun
  | exited hpc => exact hquiet rfl rfl fun _ => by rw [hpc]; exact nofun
  | created hpc => exact hquiet rfl rfl fun _ => by rw [hpc]; exact nofun
  | looped hpc => exact hquiet rfl rfl fun _ => by rw [hpc]; exact nofun
  | delivered hpc => exact hquiet rfl rfl fun _ => by rw [hpc]; exact nofun
  | unreadable hpc => exact hquiet rfl rfl fun _ => by rw [hpc]; exact nofun
  | left hpc => exact hquiet rfl rfl fun _ => by rw [hpc]; exact nofun
  | closeFailed r hpc => exact hquiet rfl rfl fun _ => by rw [hpc]; exact nofun
  | closed r hpc => exact hquiet rfl rfl fun _ => by rw [hpc]; exact nofun

/-- Each run keeps the account of the calls. -/
theorem copies_run {entries : Entries (List UInt8)} {inputs : List DirInput}
    (h : (DirThread.start entries s₀).run path inputs = some (s, tr)) :
    DirInv s₀ tr s ∧ ∃ calls, Copies path s₀ s tr calls := by
  have hrun := Machine.run_invariant
    (P := fun tr s => DirInv s₀ tr s ∧ ∃ calls, Copies path s₀ s tr calls)
    (fun hp hs => ⟨hp.1.step (step_cases hs), hp.2.elim fun _ hc => hc.step hp.1 (step_cases hs)⟩)
    ⟨dirInv_start entries, [], List.Sublist.refl _, (List.append_nil _).symm, nofun,
      List.prefix_append _ _, fun _ => (List.append_nil _).symm⟩ h
  exact hrun

/-- **Each command copies a file that its event names, out of a directory that
the thread was told of**, and an event has at most one; in every run. -/
theorem pthread_on_dir_run_copies {entries : Entries (List UInt8)} {inputs : List DirInput}
    (h : (DirThread.start entries s₀).run path inputs = some (s, tr)) :
    ∃ calls, Copies path s₀ s tr calls := by
  obtain ⟨-, calls, hcalls⟩ := copies_run h
  exact ⟨calls, hcalls⟩

theorem copies_oneFile :
    ∃ s tr calls, threadW.run (lit "/backup") oneFile = some (s, tr) ∧
      Copies (lit "/backup") watchingW s tr calls := by
  obtain ⟨⟨s, tr⟩, h, -⟩ := Option.map_eq_some_iff.mp returns_oneFile
  obtain ⟨calls, hcalls⟩ := pthread_on_dir_run_copies h
  exact ⟨s, tr, calls, h, hcalls⟩

/-! ### Faults -/

/-- The texts of a thread that was started behind the configuration `cfg`. -/
structure FromConfig (cfg : BackupConfig) (path : CString) (s₀ : State) (tr : List DirLabel) :
    Prop where
  dir : s₀.arg.pathToDir = configuredDir cfg
  backup : path = backupGetPathToBackup cfg
  tables : ∀ t ∈ tables s₀ tr, ∃ junk, Reachable HASH_TABLE_MAX junk t
  /-- blocks of the table read as the stored strings -/
  terminated : ∀ env e, .event env e ∈ tr → ∀ a, (env.beyond a).headD 0 = 0

/-- All directories of a run have a slash, and all its events on files a
name. -/
structure Usable (path : CString) (s₀ : State) (tr : List DirLabel) : Prop where
  dirs : ∀ d, Known s₀ tr d → HELPERS_SLASH ∈ d.bytes
  backup : HELPERS_SLASH ∈ path.bytes
  named : ∀ e ∈ handledEvents tr, Named e

/-- A stored directory is short. -/
theorem FromConfig.known_le {cfg : BackupConfig} (h : FromConfig cfg path s₀ tr)
    (hcut : CutAtLine cfg) {d : CString} (hd : Known s₀ tr d) :
    d.strlen ≤ HASH_ITEM_MAX_SIZE_STR := by
  rcases hd with rfl | ⟨env, e, he, t, ht, hd⟩
  · rw [h.dir]
    exact hcut.strlen_configuredDir_le.trans line_le_item
  · obtain ⟨junk, hreach⟩ := h.tables t ht
    obtain ⟨l, hl, -⟩ := hreach.chained
    rw [chainValues_eq_strings hl (h.terminated env e he)] at hd
    exact (hl.of_mem_strings hd).1.2

/-- A step hands the path of the backups to the handler. -/
theorem DirStep.pathToBackup {own : Bool} (hs : DirStep path s own s' out) {env : Env}
    {event : InotifyEvent} (hmem : .event env event ∈ out) : env.pathToBackup = path := by
  cases hs with
  | faulted _ _ _ _ hpath =>
    cases List.mem_singleton.mp hmem
    exact hpath
  | handled _ _ _ _ hpath =>
    rcases List.mem_cons.mp hmem with he | he
    · cases he
      exact hpath
    · obtain ⟨l, -, hl⟩ := List.mem_map.mp he
      cases hl
  | looped =>
    obtain ⟨l, -, hl⟩ := List.mem_map.mp hmem
    cases hl
  | delivered =>
    rcases List.mem_cons.mp hmem with he | he
    · cases he
    · obtain ⟨l, -, hl⟩ := List.mem_map.mp he
      cases hl
  | destroying =>
    unfold DirThread.destroyStep at hmem
    split at hmem
    · split at hmem
      · cases List.mem_singleton.mp hmem
      · split at hmem
        · cases hmem
        · cases List.mem_singleton.mp hmem
    · cases hmem
  | _ => simp at hmem

theorem pathToBackup_of_run {entries : Entries (List UInt8)} {inputs : List DirInput} {env : Env}
    {event : InotifyEvent} (h : (DirThread.start entries s₀).run path inputs = some (s, tr))
    (hmem : .event env event ∈ tr) : env.pathToBackup = path := by
  have hrun := Machine.run_invariant
    (P := fun tr _ => ∀ env event, .event env event ∈ tr → env.pathToBackup = path)
    (fun hp hs env event hmem => (List.mem_append.mp hmem).elim (hp env event)
      (step_cases hs).pathToBackup)
    (fun _ _ hmem => absurd hmem List.not_mem_nil) h
  exact hrun env event hmem

/-- A fault behind short settings is a bad pointer. -/
theorem FromConfig.of_fault {cfg : BackupConfig} {entries : Entries (List UInt8)}
    {inputs : List DirInput} {e : Fault} (hcfg : FromConfig cfg path s₀ tr) (hcut : CutAtLine cfg)
    (h : (DirThread.start entries s₀).run path inputs = some (s, tr)) (hfault : s.pc = .fault e) :
    e = .badPointer ∧ ¬ Usable path s₀ tr := by
  obtain ⟨hinv, honce⟩ := DirInv.run h
  obtain ⟨pre, l, post, rfl, hl⟩ := honce e hfault
  have hfinds := finds_replay s₀ pre
  have hknown : ∀ {d}, Known s₀ pre d → Known s₀ (pre ++ l :: post) d := fun hd => hd.mono _
  cases l with
  | event env event =>
    have hmem : .event env event ∈ pre ++ DirLabel.event env event :: post := by simp
    have hstored : ∀ d ∈ chainValues env (replay s₀ pre).arg.hashTable,
        Known s₀ (pre ++ DirLabel.event env event :: post) d := fun d hd =>
      .inr ⟨env, event, hmem, _, tables_subset s₀ pre _ hfinds.table, hd⟩
    have hbackup : env.pathToBackup = path := pathToBackup_of_run h hmem
    have hshort : ShortPaths env (replay s₀ pre) := by
      refine ⟨hcfg.known_le hcut (hknown hfinds.dir), ?_, fun d hd => ?_⟩
      · rw [hbackup, hcfg.backup]
        exact hcut.strlen_pathToBackup_le
      · exact hcfg.known_le hcut (hstored d hd)
    have hl : (handleEvent env event (replay s₀ pre)).2 = some e := hl
    rcases handleEvent_fault event hshort with hnone | ⟨hbad, hnot⟩
    · cases hl.symm.trans hnone
    · obtain rfl : e = .badPointer := Option.some.inj (hl.symm.trans hbad)
      refine ⟨rfl, fun hu => hnot ⟨hu.named event ?_, ?_, ?_, ?_⟩⟩
      · rw [handledEvents_append]
        exact List.mem_append_right _ List.mem_cons_self
      · exact hu.dirs _ (hknown hfinds.dir)
      · exact hbackup ▸ hu.backup
      · exact fun d hd => hu.dirs d (hstored d hd)
  | watched wd =>
    -- the message for the root fits
    have hdone : Completes (watchRoot wd (replay s₀ pre)).2 :=
      watchDir_completes (hcfg.known_le hcut (hknown hfinds.dir)) _ _ _
    obtain ⟨r, hr⟩ := hdone
    rw [DirLabel.fault, hr] at hl
    cases hl
  | _ => cases hl

/-- **The thread writes over no buffer.**  Behind settings that come from lines
of the file, the only fault is a bad pointer, and it needs a directory without
a slash or an event on a file without a name. -/
theorem pthread_on_dir_run_fits {isDir : CString → Bool} {kvs : List (CString × CString)}
    {cfg : BackupConfig} {entries : Entries (List UInt8)} {inputs : List DirInput} {e : Fault}
    (h : (DirThread.start entries s₀).run path inputs = some (s, tr))
    (hsets : Sets (backupSet isDir) .initial kvs cfg)
    (hline : ∀ kv ∈ kvs, kv.2.strlen ≤ HELPERS_FILE_STROKE_MAX_LEN)
    (hcfg : FromConfig cfg path s₀ tr) (hfault : s.pc = .fault e) :
    e = .badPointer ∧ ¬ Usable path s₀ tr := by
  have hcut : CutAtLine cfg := cutAtLine_initial.sets hsets hline
  exact hcfg.of_fault hcut h hfault

/-- Without any setting the root is empty, so it has no slash. -/
def unconfigured : State := { watchingW with arg.pathToDir := configuredDir .initial }

/-- What stands behind the strings, for each event. -/
def beyonds : List DirLabel → List (Addr → List UInt8) :=
  List.filterMap fun
    | .event env _ => some env.beyond
    | _ => none

theorem fits_oneFile :
    ∃ s tr, (DirThread.start (fun _ => none) unconfigured).run (lit "") (oneFile.take 14) =
      some (s, tr) ∧ ¬ Usable (lit "") unconfigured tr := by
  have hstate :
      ((DirThread.start (fun _ => none) unconfigured).run (lit "") (oneFile.take 14)).map
        (fun r => (r.1.pc, tables unconfigured r.2, beyonds r.2)) =
      some (.fault .badPointer, [watchingW.arg.hashTable], [fun _ => []]) := rfl
  obtain ⟨⟨s, tr⟩, h, hs⟩ := Option.map_eq_some_iff.mp hstate
  simp only [Prod.mk.injEq] at hs
  obtain ⟨hpc, htables, hbeyond⟩ := hs
  have hsets : Sets (backupSet fun _ => true) .initial [] .initial := .nil _
  refine ⟨s, tr, h, (pthread_on_dir_run_fits h hsets nofun ⟨rfl, rfl, ?_, ?_⟩ hpc).2⟩
  · intro t ht
    rw [htables, List.mem_singleton] at ht
    obtain rfl := ht
    exact ⟨0, _, [], rfl, rfl⟩
  · intro env e he a
    have hmem : env.beyond ∈ [fun _ => []] := hbeyond ▸ List.mem_filterMap.mpr ⟨_, he, rfl⟩
    rw [List.mem_singleton.mp hmem]
    rfl

end SecuritySystem.Backup

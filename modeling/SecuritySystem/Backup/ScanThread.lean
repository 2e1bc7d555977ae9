/-
SecuritySystem/Backup/ScanThread.lean

The thread that scans the directory, `backup_loop` of backup_service_main.c,
step by step.

`backupFsIterationMain` is the whole scan, for a thread that is alone.  Here
the same code is a machine: a step is one test of `backup_keep_running` with
the entry behind it, or one slot, so that the event thread may run in between.
What this thread has in common with it and finds changed is the flag and the
counter of watches, so they are the input of a step; the table has only this
thread to change it.  An insert is one step, though the source takes no lock
for it.

Nothing of what the event thread does shows in the tables and the watches:
they are those of `backupFsIterationMain`, if the flag is cleared before the
same test (`scan_alone`).
-/
import SecuritySystem.Backup.ScanOrder

namespace SecuritySystem.Backup

open CMem CString FileTree

/-! ### The thread -/

/-- Where the thread stands. -/
inductive ScanPc
  /-- `hash_table_create`, `fts_open` and `fts_children` -/
  | opening
  /-- `while (backup_keep_running && (NULL != (p = fts_read(ftsp))))` -/
  | reading (htDirs : HashTable) (entries : List FtsEnt)
  /-- `for (int i = 0; i < ht_dirs->size; i++)`, with the slots that are left -/
  | slots (htDirs : HashTable) (left : List ℕ)
  /-- `if (0 == arg->hash_table->count)` -/
  | counting (rc : ℤ)
  | returned (rc : ℤ)
  | fault (e : Fault)

/-- The thread of `backup_loop`, between two of its steps. -/
structure ScanThread where
  pc : ScanPc
  state : ScanState

/-- What a step finds: the flag, and the counter of watches. -/
structure ScanInput where
  keepRunning : Bool
  watchedItems : UInt64

namespace ScanThread

/-- The thread before its first step. -/
def start (arg : ThreadArgument) (watchedItems : UInt64) : ScanThread :=
  ⟨.opening, ⟨arg, 0, [], watchedItems, []⟩⟩

/-- The thread with the counter that it finds, and no message of its step yet. -/
def enter (s : ScanThread) (watchedItems : UInt64) : ScanThread :=
  { s with
    state.watchedItems := watchedItems
    state.logged := [] }

section Step

variable (env : ScanEnv)

/-- The body of the walk. -/
def readEntry (s : ScanState) (htDirs : HashTable) (p : FtsEnt) (ps : List FtsEnt) : ScanThread :=
  match p.info with
  | .FTS_F =>
    match insertArg env p.path s with
    | (s, some e) => ⟨.fault e, s⟩
    | (s, none) => ⟨.reading htDirs ps, s⟩
  | .FTS_D =>
    match hashTableInsertItem (env.besideDirs htDirs.brk) htDirs p.path with
    | .error e => ⟨.fault e, s⟩
    | .ok (_, htDirs) => ⟨.reading htDirs ps, s⟩
  | .FTS_DP | .FTS_DEFAULT => ⟨.reading htDirs ps, s⟩

/-- The step that stands at the program counter. -/
def go (s : ScanThread) (keepRunning : Bool) : Option ScanThread :=
  match s.pc with
  | .opening =>
    match hashTableCreate HASH_TABLE_MAX env.junk with
    | none => some ⟨.fault .badPointer, s.state⟩
    | some htDirs =>
      match env.fts with
      | none => some ⟨.counting HELPERS_INVALID_EXIT, s.state.freeAndExit⟩
      | some fts =>
        if fts.children then some ⟨.reading htDirs fts.entries, s.state⟩
        else some ⟨.counting HELPERS_NORMAL_EXIT, s.state.freeAndExit⟩
  | .reading htDirs [] => some ⟨.slots htDirs (List.range htDirs.size), s.state⟩
  | .reading htDirs (p :: ps) =>
    if keepRunning then some (readEntry env s.state htDirs p ps)
    else some ⟨.slots htDirs (List.range htDirs.size), s.state⟩
  | .slots _ [] => some ⟨.counting HELPERS_NORMAL_EXIT, s.state.freeAndExit⟩
  | .slots htDirs (i :: is) =>
    match scanSlot env htDirs i s.state with
    | (t, some e) => some ⟨.fault e, t⟩
    | (t, none) => some ⟨.slots htDirs is, t⟩
  | .counting rc =>
    some ⟨.returned (if s.state.arg.hashTable.count = 0 then HELPERS_INVALID_EXIT else rc), s.state⟩
  | .returned _ | .fault _ => none

/-- One step, with what it finds. -/
def step (s : ScanThread) (input : ScanInput) : Option ScanThread :=
  (s.enter input.watchedItems).go env input.keepRunning

/-- A run of the thread. -/
def run (s : ScanThread) (inputs : List ScanInput) : Option ScanThread :=
  inputs.foldlM (step env) s

end Step

end ScanThread

variable {env : ScanEnv} {s s' t : ScanState} {htDirs : HashTable} {v : CString}
variable {junk : BitVec 32}

/-! ### Inserts and slots -/

theorem insertAll_concat {t t₁ t₂ : HashTable} {calls : List (CString × Beyond)} {b : Beyond}
    {rc : UInt32} (h : insertAll t calls = .ok t₁)
    (he : hashTableInsertItem b t₁ v = .ok (rc, t₂)) :
    insertAll t (calls ++ [(v, b)]) = .ok t₂ := by
  induction calls generalizing t with
  | nil =>
    obtain rfl : t = t₁ := Except.ok.inj h
    simp only [List.nil_append, insertAll, he, ok_bind]
  | cons call calls ih =>
    rw [List.cons_append, insertAll]
    rw [insertAll] at h
    obtain ⟨r, hr, h⟩ := bind_eq_ok h
    rw [hr, ok_bind]
    exact ih h

/-- A table that comes from inserts is in order. -/
theorem inOrder_of_reachable {t : HashTable} (h : Reachable HASH_TABLE_MAX junk t) :
    InOrder junk t := h.chained

/-- An insert in such a table goes through, and stores its string at most. -/
theorem insertArg_reachable (env : ScanEnv) (h : Reachable HASH_TABLE_MAX junk s.arg.hashTable)
    (v : CString) :
    ∃ t, insertArg env v s = ({ s with arg.hashTable := t }, none) ∧
      Reachable HASH_TABLE_MAX junk t ∧ ∀ u ∈ t.strings, u ∈ s.arg.hashTable.strings ∨ u = v := by
  obtain ⟨rc, t, he, -, hs, -⟩ :=
    (inOrder_of_reachable h).insert v (env.besideArg s.arg.hashTable.brk)
  obtain ⟨t₀, calls, hcreate, hcalls⟩ := h
  refine ⟨t, ?_, ⟨t₀, _, hcreate, insertAll_concat hcalls he⟩, fun u hu => ?_⟩
  · rw [insertArg, he]
  · rw [hs] at hu
    exact (FirstCome.mem_add hu).imp_right And.left

/-- What a slot gives to the loop: nothing, or a stored directory. -/
theorem scanSlot_cases (h : InOrder junk htDirs) (hb : ∀ a, (env.behind a).headD 0 = 0) {i : ℕ}
    (hi : i < 10000) :
    (∀ s, scanSlot env htDirs i s = (s, none)) ∨
      ∃ v ∈ htDirs.strings, ∀ s, scanSlot env htDirs i s = watchAndInsert env v s := by
  obtain ⟨l, hl, hc⟩ := h
  by_cases hopen : 0 < env.inotifyFd
  · rcases hslot : htDirs.table i with - | a
    · exact .inl fun s => scanSlot_empty hi hc.size hslot
    · obtain ⟨v, hv, -⟩ := hl.stores_of_table hslot
      refine .inr ⟨v, hl.mem_strings_of_table hslot hv, fun s => ?_⟩
      rw [scanSlot_item hl hc.size hopen hslot, hv.blockOf_eq, ofMem_bytes_append v (hb a)]
  · exact .inl fun s => scanSlot_closed hc.size hopen hi

/-- The watch of a short path is refused or added; the message always fits. -/
theorem watchDir_of_short (hv : v.strlen ≤ HASH_ITEM_MAX_SIZE_STR) (mask : UInt64) :
    (env.addWatch s.watched.length v).toInt < 0 ∧
        watchDir env v mask s = ({ s with watched := s.watched ++ [v] }, .ok HELPERS_INVALID_EXIT) ∨
      0 ≤ (env.addWatch s.watched.length v).toInt ∧
        ∃ message, watchDir env v mask s =
          (watchAdded v message s, .ok (env.addWatch s.watched.length v).toInt) := by
  have ho := watchDir_cases env v mask s
  generalize watchDir env v mask s = out at ho ⊢
  cases ho with
  | refused r hneg hr =>
    rcases hr with rfl | ⟨hlong, -⟩
    · exact .inl ⟨hneg, rfl⟩
    · exact absurd hlong (Nat.not_lt.mpr hv)
  | unwritten e hadd hm =>
    obtain ⟨message, hok⟩ := watchMessage_ok hv (env.addWatch s.watched.length v)
      (s.watchedItems + 1)
    cases hm.symm.trans hok
  | added message hadd hm => exact .inr ⟨hadd, message, rfl⟩

/-! ### What the other thread cannot change -/

/-- The same but for the counter of watches and the messages. -/
structure SameScan (s t : ScanState) : Prop where
  arg : t.arg = s.arg
  freed : t.freed = s.freed
  watched : t.watched = s.watched

theorem SameScan.refl (s : ScanState) : SameScan s s := ⟨rfl, rfl, rfl⟩

theorem SameScan.freeAndExit (h : SameScan s t) : SameScan s.freeAndExit t.freeAndExit :=
  ⟨h.arg, congrArg (· + 1) h.freed, h.watched⟩

/-- Two results of a piece of the scan. -/
def SameResult {α : Type} (r r' : ScanState × α) : Prop := SameScan r.1 r'.1 ∧ r'.2 = r.2

theorem insertArg_same (env : ScanEnv) (h : SameScan s t) (v : CString) :
    SameResult (insertArg env v s) (insertArg env v t) := by
  unfold insertArg
  rw [h.arg]
  rcases hashTableInsertItem (env.besideArg s.arg.hashTable.brk) s.arg.hashTable v with e | ⟨-, u⟩
  · exact ⟨h, rfl⟩
  · exact ⟨⟨rfl, h.freed, h.watched⟩, rfl⟩

theorem watchAdded_same (h : SameScan s t) (v message message' : CString) :
    SameScan (watchAdded v message s) (watchAdded v message' t) :=
  ⟨h.arg, h.freed, congrArg (· ++ [v]) h.watched⟩

theorem watchAndInsert_same (env : ScanEnv) (h : SameScan s t)
    (hv : v.strlen ≤ HASH_ITEM_MAX_SIZE_STR) :
    SameResult (watchAndInsert env v s) (watchAndInsert env v t) := by
  unfold watchAndInsert
  rw [h.arg]
  split
  · exact insertArg_same env h v
  · rcases watchDir_of_short (s := s) hv condition with ⟨hneg, hs⟩ | ⟨hadd, message, hs⟩ <;>
      rcases watchDir_of_short (s := t) hv condition with ⟨hneg', ht⟩ | ⟨hadd', message', ht⟩ <;>
      rw [h.watched] at * <;> rw [hs, ht]
    · exact ⟨SameScan.freeAndExit ⟨h.arg, h.freed, rfl⟩, rfl⟩
    · exact absurd hneg (Int.not_lt.mpr hadd')
    · exact absurd hneg' (Int.not_lt.mpr hadd)
    · dsimp only
      rw [if_neg (ne_invalid hadd), if_neg (ne_invalid hadd)]
      exact insertArg_same env (watchAdded_same h v message message') v

/-! ### What every step keeps -/

/-- What `fts_read` delivers. -/
def ScanEnv.entries (env : ScanEnv) : List FtsEnt := (env.fts.map Fts.entries).getD []

/-- A path of a file or a directory that `fts_read` delivers. -/
def InWalk (env : ScanEnv) (v : CString) : Prop :=
  v ∈ pathsOf .FTS_F env.entries ∨ v ∈ pathsOf .FTS_D env.entries

/-- The table of the directories. -/
structure DirsTable (env : ScanEnv) (htDirs : HashTable) : Prop where
  inOrder : InOrder env.junk htDirs
  delivered : ∀ v ∈ htDirs.strings, v ∈ pathsOf .FTS_D env.entries

/-- What is known at each place. -/
def ScanPlace (env : ScanEnv) : ScanPc → Prop
  | .opening | .counting _ | .returned _ => True
  | .reading htDirs ps => DirsTable env htDirs ∧ ps ⊆ env.entries
  | .slots htDirs left => DirsTable env htDirs ∧ ∀ i ∈ left, i < 10000
  | .fault e => e = .useAfterFree ∧ ∃ n d, (env.addWatch n d).toInt < 0

/-- **The invariant of the thread.** -/
structure ScanInv (env : ScanEnv) (junk : BitVec 32) (s : ScanThread) : Prop where
  table : Reachable HASH_TABLE_MAX junk s.state.arg.hashTable
  stored : ∀ v ∈ s.state.arg.hashTable.strings, InWalk env v
  place : ScanPlace env s.pc

/-- A table that `hash_table_create` has made is empty. -/
theorem reachable_create {t : HashTable} (h : hashTableCreate HASH_TABLE_MAX junk = some t) :
    Reachable HASH_TABLE_MAX junk t ∧ t.strings = [] :=
  ⟨⟨t, [], h, rfl⟩, (inOrder_create h).2⟩

theorem scanInv_start {arg : ThreadArgument} (items : UInt64)
    (h : hashTableCreate HASH_TABLE_MAX junk = some arg.hashTable) :
    ScanInv env junk (.start arg items) := by
  obtain ⟨hreach, hnil⟩ := reachable_create h
  refine ⟨hreach, fun v hv => ?_, trivial⟩
  rw [ScanThread.start, hnil] at hv
  cases hv

/-- A directory of a slot: its watch fails, or it is inserted. -/
theorem watchAndInsert_reachable (env : ScanEnv) (hv : v.strlen ≤ HASH_ITEM_MAX_SIZE_STR)
    (h : Reachable HASH_TABLE_MAX junk s.arg.hashTable) :
    (∃ s', watchAndInsert env v s = (s', none) ∧ Reachable HASH_TABLE_MAX junk s'.arg.hashTable ∧
        ∀ u ∈ s'.arg.hashTable.strings, u ∈ s.arg.hashTable.strings ∨ u = v) ∨
      ∃ s', watchAndInsert env v s = (s', some .useAfterFree) ∧ s'.arg = s.arg ∧
        ∃ n d, (env.addWatch n d).toInt < 0 := by
  unfold watchAndInsert
  split
  · obtain ⟨t, he, ht, hs⟩ := insertArg_reachable env h v
    exact .inl ⟨_, he, ht, hs⟩
  · rcases watchDir_of_short (s := s) hv condition with ⟨hneg, hs⟩ | ⟨hadd, message, hs⟩
    · rw [hs]
      exact .inr ⟨_, rfl, rfl, _, _, hneg⟩
    · rw [hs]
      dsimp only
      rw [if_neg (ne_invalid hadd)]
      obtain ⟨t, he, ht, hs⟩ := insertArg_reachable env (s := watchAdded v message s) h v
      exact .inl ⟨_, he, ht, hs⟩

theorem mem_pathsOf {info : FtsInfo} {ps : List FtsEnt} {p : FtsEnt} (hp : p ∈ ps)
    (hinfo : p.info = info) : p.path ∈ pathsOf info ps :=
  List.mem_map_of_mem (List.mem_filter.mpr ⟨hp, decide_eq_true hinfo⟩)

/-- What a string of the table of directories is. -/
theorem DirsTable.short (h : DirsTable env htDirs) (hv : v ∈ htDirs.strings) :
    v.strlen ≤ HASH_ITEM_MAX_SIZE_STR := by
  obtain ⟨l, hl, -⟩ := h.inOrder
  exact (hl.of_mem_strings hv).1.2

theorem DirsTable.slots_lt (h : DirsTable env htDirs) :
    ∀ i ∈ List.range htDirs.size, i < 10000 := by
  obtain ⟨l, -, hc⟩ := h.inOrder
  intro i hi
  exact hc.size ▸ List.mem_range.mp hi

/-- The insert of a directory. -/
theorem DirsTable.insert (h : DirsTable env htDirs) (b : Beyond)
    (hv : v ∈ pathsOf .FTS_D env.entries) :
    ∃ rc t, hashTableInsertItem b htDirs v = .ok (rc, t) ∧ DirsTable env t := by
  obtain ⟨rc, t, he, ht, hs, -⟩ := h.inOrder.insert v b
  refine ⟨rc, t, he, ht, fun u hu => ?_⟩
  rw [hs] at hu
  rcases FirstCome.mem_add hu with hu | ⟨rfl, -⟩
  · exact h.delivered u hu
  · exact hv

/-- A step of the walk: to the next entry, whatever the entry is. -/
theorem ScanInv.readEntry {p : FtsEnt} {ps : List FtsEnt}
    (htable : Reachable HASH_TABLE_MAX junk s.arg.hashTable)
    (hstored : ∀ v ∈ s.arg.hashTable.strings, InWalk env v) (hdirs : DirsTable env htDirs)
    (hps : p :: ps ⊆ env.entries) : ScanInv env junk (ScanThread.readEntry env s htDirs p ps) := by
  have hp : p ∈ env.entries := hps List.mem_cons_self
  have hrest : ps ⊆ env.entries := List.Subset.trans (List.subset_cons_self p ps) hps
  unfold ScanThread.readEntry
  rcases hinfo : p.info
  · obtain ⟨rc, t, he, ht⟩ := hdirs.insert (env.besideDirs htDirs.brk) (mem_pathsOf hp hinfo)
    simp only [he]
    exact ⟨htable, hstored, ht, hrest⟩
  · exact ⟨htable, hstored, hdirs, hrest⟩
  · obtain ⟨t, he, ht, hs⟩ := insertArg_reachable env htable p.path
    simp only [he]
    refine ⟨ht, fun v hv => ?_, hdirs, hrest⟩
    rcases hs v hv with hv | rfl
    · exact hstored v hv
    · exact .inl (mem_pathsOf hp hinfo)
  · exact ⟨htable, hstored, hdirs, hrest⟩

/-- **The step lemma** of the invariant. -/
theorem ScanInv.go {s s' : ScanThread} {keepRunning : Bool}
    (hb : ∀ a, (env.behind a).headD 0 = 0) (h : ScanInv env junk s)
    (hs : s.go env keepRunning = some s') : ScanInv env junk s' := by
  obtain ⟨pc, state⟩ := s
  obtain ⟨htable, hstored, hplace⟩ := h
  cases pc with
  | opening =>
    obtain ⟨t, hcreate⟩ := exists_hashTableCreate env.junk
    simp only [ScanThread.go, hcreate] at hs
    rcases hfts : env.fts with - | fts
    · simp only [hfts] at hs
      obtain rfl := Option.some.inj hs
      exact ⟨htable, hstored, trivial⟩
    · simp only [hfts] at hs
      split at hs
      · obtain rfl := Option.some.inj hs
        obtain ⟨horder, hnil⟩ := inOrder_create hcreate
        refine ⟨htable, hstored, ⟨horder, fun v hv => ?_⟩, ?_⟩
        · rw [hnil] at hv
          cases hv
        · rw [ScanEnv.entries, hfts]
          exact List.Subset.refl _
      · obtain rfl := Option.some.inj hs
        exact ⟨htable, hstored, trivial⟩
  | reading htDirs ps =>
    obtain ⟨hdirs, hps⟩ := hplace
    have hslots : ScanInv env junk ⟨.slots htDirs (List.range htDirs.size), state⟩ :=
      ⟨htable, hstored, hdirs, hdirs.slots_lt⟩
    rcases ps with - | ⟨p, ps⟩
    · obtain rfl := Option.some.inj hs
      exact hslots
    · simp only [ScanThread.go] at hs
      split at hs
      · obtain rfl := Option.some.inj hs
        exact .readEntry htable hstored hdirs hps
      · obtain rfl := Option.some.inj hs
        exact hslots
  | slots htDirs is =>
    obtain ⟨hdirs, his⟩ := hplace
    rcases is with - | ⟨i, is⟩
    · obtain rfl := Option.some.inj hs
      exact ⟨htable, hstored, trivial⟩
    · have hleft : ∀ j ∈ is, j < 10000 := fun j hj => his j (List.mem_cons_of_mem i hj)
      simp only [ScanThread.go] at hs
      rcases scanSlot_cases hdirs.inOrder hb (his i List.mem_cons_self) with hskip | ⟨v, hv, hslot⟩
      · rw [hskip] at hs
        obtain rfl := Option.some.inj hs
        exact ⟨htable, hstored, hdirs, hleft⟩
      · rw [hslot] at hs
        rcases watchAndInsert_reachable env (hdirs.short hv) htable with
          ⟨t, he, ht, hsub⟩ | ⟨t, he, harg, hfail⟩
        · rw [he] at hs
          obtain rfl := Option.some.inj hs
          refine ⟨ht, fun u hu => ?_, hdirs, hleft⟩
          rcases hsub u hu with hu | rfl
          · exact hstored u hu
          · exact .inr (hdirs.delivered u hv)
        · -- the watch was refused, and `ht_dirs` is used behind its free
          rw [he] at hs
          obtain rfl := Option.some.inj hs
          rw [← harg] at htable hstored
          exact ⟨htable, hstored, rfl, hfail⟩
  | counting rc =>
    obtain rfl := Option.some.inj hs
    exact ⟨htable, hstored, trivial⟩
  | returned | fault => cases hs

theorem ScanInv.step {s s' : ScanThread} {input : ScanInput}
    (hb : ∀ a, (env.behind a).headD 0 = 0) (h : ScanInv env junk s)
    (hs : s.step env input = some s') : ScanInv env junk s' :=
  ScanInv.go hb (s := s.enter input.watchedItems) ⟨h.table, h.stored, h.place⟩ hs

/-! ### The thread alone -/

/-- The flag as the tests of the walk see it. -/
def ScanEnv.withRunning (env : ScanEnv) (running : ℕ → Bool) : ScanEnv :=
  { env with running := running }

/-- The end of `backup_fs_iteration_main`. -/
def counted : ScanState × Except Fault ℤ → ScanState × Except Fault ℤ
  | (s, .error e) => (s, .error e)
  | (s, .ok rc) =>
    (s, .ok (if s.arg.hashTable.count = 0 then HELPERS_INVALID_EXIT else rc))

/-- What comes behind the slots. -/
def behindSlots : ScanState × Option Fault → ScanState × Except Fault ℤ
  | (s, some e) => (s, .error e)
  | (s, none) => counted (s.freeAndExit, .ok HELPERS_NORMAL_EXIT)

/-- What comes behind the walk. -/
def behindWalk (env : ScanEnv) : ScanState × Except Fault HashTable → ScanState × Except Fault ℤ
  | (s, .error e) => (s, .error e)
  | (s, .ok htDirs) => behindSlots (forSlots env htDirs (List.range htDirs.size) s)

/-- What is left of `backup_fs_iteration_main` at a place, from the `k`-th test
on. -/
def rest (env : ScanEnv) (k : ℕ) (s : ScanState) : ScanPc → ScanState × Except Fault ℤ
  | .opening =>
    match hashTableCreate HASH_TABLE_MAX env.junk, env.fts with
    | none, _ => (s, .error .badPointer)
    | some _, none => counted (s.freeAndExit, .ok HELPERS_INVALID_EXIT)
    | some htDirs, some fts =>
      if fts.children then behindWalk env (readEntries env k fts.entries s htDirs)
      else counted (s.freeAndExit, .ok HELPERS_NORMAL_EXIT)
  | .reading htDirs ps => behindWalk env (readEntries env k ps s htDirs)
  | .slots htDirs is => behindSlots (forSlots env htDirs is s)
  | .counting rc => counted (s, .ok rc)
  | .returned rc => (s, .ok rc)
  | .fault e => (s, .error e)

theorem backupFsIterationMain_eq (env : ScanEnv) (arg : ThreadArgument) (items : UInt64) :
    backupFsIterationMain env arg items = counted (backupCheckFsAndRun env arg items) := by
  unfold backupFsIterationMain
  rcases backupCheckFsAndRun env arg items with ⟨s, e | rc⟩
  · rfl
  · dsimp only [counted]
    split <;> rfl

/-- At the start the whole of it is left. -/
theorem rest_opening (env : ScanEnv) (arg : ThreadArgument) (items : UInt64) :
    rest env 0 ⟨arg, 0, [], items, []⟩ .opening = backupFsIterationMain env arg items := by
  rw [backupFsIterationMain_eq]
  unfold backupCheckFsAndRun
  obtain ⟨t, hcreate⟩ := exists_hashTableCreate env.junk
  rw [rest, hcreate]
  dsimp only
  rcases env.fts with - | fts
  · rfl
  · dsimp only
    split
    · rcases readEntries env 0 fts.entries ⟨arg, 0, [], items, []⟩ t with ⟨s, e | htDirs⟩
      · rfl
      · dsimp only [behindWalk]
        rcases forSlots env htDirs (List.range htDirs.size) s with ⟨s, - | e⟩ <;> rfl
    · rfl

/-- The step makes a test of the flag. -/
def ScanPc.tests : ScanPc → Bool
  | .reading _ (_ :: _) => true
  | _ => false

/-- What the step leaves, if nothing comes in between. -/
theorem rest_go (env : ScanEnv) {s s' : ScanThread} {keepRunning : Bool} {k : ℕ}
    (hs : s.go env keepRunning = some s') (hk : s.pc.tests = true → env.running k = keepRunning) :
    rest env k s.state s.pc =
      rest env (if s.pc.tests then k + 1 else k) s'.state s'.pc := by
  obtain ⟨pc, state⟩ := s
  cases pc with
  | opening =>
    obtain ⟨t, hcreate⟩ := exists_hashTableCreate env.junk
    simp only [ScanThread.go, hcreate] at hs
    rcases hfts : env.fts with - | fts
    · simp only [hfts] at hs
      obtain rfl := Option.some.inj hs
      simp only [rest, hcreate, hfts]
    · simp only [hfts] at hs
      split at hs
      · next hchildren =>
        obtain rfl := Option.some.inj hs
        simp only [rest, hcreate, hfts, if_pos hchildren]
        rfl
      · next hchildren =>
        obtain rfl := Option.some.inj hs
        simp only [rest, hcreate, hfts, if_neg hchildren]
  | reading htDirs ps =>
    rcases ps with - | ⟨p, ps⟩
    · obtain rfl := Option.some.inj hs
      rfl
    · have hk : env.running k = keepRunning := hk rfl
      simp only [ScanThread.go] at hs
      show behindWalk env (readEntries env k (p :: ps) state htDirs) =
        rest env (k + 1) s'.state s'.pc
      rw [readEntries, hk]
      split at hs
      · next htrue =>
        obtain rfl := Option.some.inj hs
        rw [if_pos htrue, ScanThread.readEntry]
        rcases p.info
        · rcases hashTableInsertItem (env.besideDirs htDirs.brk) htDirs p.path with e | r <;> rfl
        · rfl
        · dsimp only
          rcases insertArg env p.path state with ⟨t, - | e⟩ <;> rfl
        · rfl
      · next hfalse =>
        obtain rfl := Option.some.inj hs
        rw [if_neg hfalse]
        rfl
  | slots htDirs is =>
    rcases is with - | ⟨i, is⟩
    · obtain rfl := Option.some.inj hs
      rfl
    · simp only [ScanThread.go] at hs
      show behindSlots (forSlots env htDirs (i :: is) state) = rest env k s'.state s'.pc
      rw [forSlots]
      rcases hslot : scanSlot env htDirs i state with ⟨t, - | e⟩
      · rw [hslot] at hs
        obtain rfl := Option.some.inj hs
        rfl
      · rw [hslot] at hs
        obtain rfl := Option.some.inj hs
        rfl
  | counting rc =>
    obtain rfl := Option.some.inj hs
    rfl
  | returned | fault => cases hs

/-- Messages and the counter of watches do not matter for a step. -/
theorem go_same {s s' : ScanThread} {keepRunning : Bool} (hb : ∀ a, (env.behind a).headD 0 = 0)
    (h : ScanInv env junk s) (hsame : SameScan s.state t)
    (hs : s.go env keepRunning = some s') :
    ∃ t', ScanThread.go env ⟨s.pc, t⟩ keepRunning = some ⟨s'.pc, t'⟩ ∧ SameScan s'.state t' := by
  obtain ⟨pc, state⟩ := s
  have hplace := h.place
  cases pc with
  | opening =>
    obtain ⟨u, hcreate⟩ := exists_hashTableCreate env.junk
    simp only [ScanThread.go, hcreate] at hs ⊢
    rcases hfts : env.fts with - | fts
    · simp only [hfts] at hs ⊢
      obtain rfl := Option.some.inj hs
      exact ⟨_, rfl, hsame.freeAndExit⟩
    · simp only [hfts] at hs ⊢
      split at hs
      · next hchildren =>
        obtain rfl := Option.some.inj hs
        exact ⟨_, if_pos hchildren, hsame⟩
      · next hchildren =>
        obtain rfl := Option.some.inj hs
        exact ⟨_, if_neg hchildren, hsame.freeAndExit⟩
  | reading htDirs ps =>
    rcases ps with - | ⟨p, ps⟩
    · obtain rfl := Option.some.inj hs
      exact ⟨_, rfl, hsame⟩
    · simp only [ScanThread.go] at hs ⊢
      split at hs
      · next htrue =>
        obtain rfl := Option.some.inj hs
        rw [if_pos htrue, ScanThread.readEntry, ScanThread.readEntry]
        rcases p.info
        · rcases hashTableInsertItem (env.besideDirs htDirs.brk) htDirs p.path with e | r <;>
            exact ⟨_, rfl, hsame⟩
        · exact ⟨_, rfl, hsame⟩
        · obtain ⟨hstate, hfault⟩ := insertArg_same env hsame p.path
          revert hstate hfault
          dsimp only
          rcases insertArg env p.path state with ⟨u, - | e⟩ <;>
            rcases insertArg env p.path t with ⟨u', e'⟩ <;>
            rintro hstate ⟨⟩ <;>
            exact ⟨_, rfl, hstate⟩
        · exact ⟨_, rfl, hsame⟩
      · next hfalse =>
        obtain rfl := Option.some.inj hs
        exact ⟨_, if_neg hfalse, hsame⟩
  | slots htDirs is =>
    obtain ⟨hdirs, his⟩ := hplace
    rcases is with - | ⟨i, is⟩
    · obtain rfl := Option.some.inj hs
      exact ⟨_, rfl, hsame.freeAndExit⟩
    · simp only [ScanThread.go] at hs ⊢
      rcases scanSlot_cases hdirs.inOrder hb (his i List.mem_cons_self) with hskip | ⟨v, hv, hslot⟩
      · rw [hskip] at hs ⊢
        obtain rfl := Option.some.inj hs
        exact ⟨_, rfl, hsame⟩
      · rw [hslot] at hs ⊢
        obtain ⟨hstate, hfault⟩ := watchAndInsert_same env hsame (hdirs.short hv)
        revert hs hstate hfault
        rcases watchAndInsert env v state with ⟨u, - | e⟩ <;>
          rcases watchAndInsert env v t with ⟨u', e'⟩ <;>
          rintro ⟨⟩ hstate ⟨⟩ <;>
          exact ⟨_, rfl, hstate⟩
  | counting rc =>
    obtain rfl := Option.some.inj hs
    refine ⟨t, ?_, hsame⟩
    simp only [ScanThread.go, hsame.arg]
  | returned | fault => cases hs

theorem run_cons_iff {s s' : ScanThread} {input : ScanInput} {inputs : List ScanInput} :
    s.run env (input :: inputs) = some s' ↔
      ∃ u, s.step env input = some u ∧ u.run env inputs = some s' := by
  simp only [ScanThread.run, List.foldlM_cons, Option.bind_eq_bind, Option.bind_eq_some_iff]

theorem ScanInv.run {s s' : ScanThread} {inputs : List ScanInput}
    (hb : ∀ a, (env.behind a).headD 0 = 0) (h : ScanInv env junk s)
    (hrun : s.run env inputs = some s') : ScanInv env junk s' := by
  induction inputs generalizing s with
  | nil =>
    obtain rfl := Option.some.inj hrun
    exact h
  | cons input inputs ih =>
    obtain ⟨u, hu, hrun⟩ := run_cons_iff.mp hrun
    exact ih (h.step hb hu) hrun

/-- A run in company leaves what the thread would leave alone, if the flag
shows the same at the tests. -/
theorem run_same {s s' : ScanThread} {inputs : List ScanInput}
    (hb : ∀ a, (env.behind a).headD 0 = 0) (h : ScanInv env junk s)
    (hrun : s.run env inputs = some s') (hsame : SameScan s.state t) :
    ∃ tests : List Bool, tests.Sublist (inputs.map ScanInput.keepRunning) ∧ ∀ running k,
      (∀ (j : ℕ) (b : Bool), tests[j]? = some b → running (k + j) = b) →
      ∃ t', SameScan s'.state t' ∧ rest (env.withRunning running) k t s.pc =
        rest (env.withRunning running) (k + tests.length) t' s'.pc := by
  induction inputs generalizing s t with
  | nil =>
    obtain rfl := Option.some.inj hrun
    exact ⟨[], List.Sublist.refl [], fun _ _ _ => ⟨t, hsame, rfl⟩⟩
  | cons input inputs ih =>
    obtain ⟨u, hu, hrun⟩ := run_cons_iff.mp hrun
    have hsame' : SameScan (s.enter input.watchedItems).state t :=
      ⟨hsame.arg, hsame.freed, hsame.watched⟩
    obtain ⟨t', hgo, ht'⟩ := go_same hb (s := s.enter input.watchedItems)
      ⟨h.table, h.stored, h.place⟩ hsame' hu
    obtain ⟨tests, hsub, htests⟩ := ih (h.step hb hu) hrun ht'
    by_cases htest : s.pc.tests = true
    · refine ⟨input.keepRunning :: tests, hsub.cons_cons _, fun running k hrunning => ?_⟩
      have hstep := rest_go (env.withRunning running) (k := k) (s := ⟨s.pc, t⟩) hgo
        fun _ => hrunning 0 input.keepRunning rfl
      rw [if_pos htest] at hstep
      obtain ⟨t'', ht'', hrest⟩ := htests running (k + 1) fun j b hj => by
        rw [Nat.add_right_comm, Nat.add_assoc]
        exact hrunning (j + 1) b hj
      refine ⟨t'', ht'', hstep.trans ?_⟩
      rw [hrest, List.length_cons, Nat.add_right_comm, Nat.add_assoc]
    · refine ⟨tests, hsub.cons _, fun running k hrunning => ?_⟩
      have hstep := rest_go (env.withRunning running) (k := k) (s := ⟨s.pc, t⟩) hgo
        fun hyes => absurd hyes htest
      rw [if_neg htest] at hstep
      obtain ⟨t'', ht'', hrest⟩ := htests running k hrunning
      exact ⟨t'', ht'', hstep.trans hrest⟩

/-- A flag that is never set again. -/
def FlagsDown (flags : List Bool) : Prop := flags.Pairwise fun a b => b = true → a = true

/-- It is set up to some test. -/
theorem FlagsDown.getElem?_eq {flags : List Bool} (h : FlagsDown flags) :
    ∃ n, ∀ (j : ℕ) (b : Bool), flags[j]? = some b → decide (j < n) = b := by
  induction flags with
  | nil => exact ⟨0, fun j b hj => by simp at hj⟩
  | cons a flags ih =>
    obtain ⟨hhead, htail⟩ := List.pairwise_cons.mp h
    obtain ⟨n, hn⟩ := ih htail
    cases a with
    | true =>
      refine ⟨n + 1, fun j b hj => ?_⟩
      rcases j with - | j
      · obtain rfl := Option.some.inj hj
        simp
      · simpa using hn j b hj
    | false =>
      refine ⟨0, fun j b hj => ?_⟩
      rcases j with - | j
      · obtain rfl := Option.some.inj hj
        rfl
      · cases b with
        | false => rfl
        | true => exact absurd (hhead true (List.mem_of_getElem? hj) rfl) Bool.false_ne_true

/-- **Nothing of the company shows**: the thread leaves the tables and the
watches, and returns the code, of `backup_fs_iteration_main` alone, with the
flag cleared before the test number `n`. -/
theorem scan_alone {arg : ThreadArgument} {items : UInt64} {s : ScanThread}
    {inputs : List ScanInput} (hb : ∀ a, (env.behind a).headD 0 = 0)
    (hcreate : hashTableCreate HASH_TABLE_MAX junk = some arg.hashTable)
    (hdown : FlagsDown (inputs.map ScanInput.keepRunning))
    (hrun : (ScanThread.start arg items).run env inputs = some s) :
    ∃ n t, SameScan s.state t ∧
      (∀ rc, s.pc = .returned rc →
        backupFsIterationMain (env.withRunning (· < n)) arg items = (t, .ok rc)) ∧
      ∀ e, s.pc = .fault e →
        backupFsIterationMain (env.withRunning (· < n)) arg items = (t, .error e) := by
  obtain ⟨tests, hsub, htests⟩ := run_same hb (scanInv_start items hcreate) hrun (.refl _)
  obtain ⟨n, hn⟩ := FlagsDown.getElem?_eq (hdown.sublist hsub)
  obtain ⟨t, ht, hrest⟩ := htests (· < n) 0 fun j b hj => by
    rw [Nat.zero_add]
    exact hn j b hj
  rw [ScanThread.start, rest_opening] at hrest
  refine ⟨n, t, ht, fun rc hpc => hrest.trans ?_, fun e hpc => hrest.trans ?_⟩
  · rw [hpc]
    rfl
  · rw [hpc]
    rfl

/-! ### The end -/

/-- How many steps the thread has left, at most, with the flag cleared. -/
def ScanThread.rank (s : ScanThread) : ℕ :=
  match s.pc with
  | .opening => 10004
  | .reading _ _ => 10003
  | .slots _ left => left.length + 2
  | .counting _ => 1
  | .returned _ | .fault _ => 0

/-- The slots that are left, at most. -/
def ScanThread.Orderly (env : ScanEnv) (s : ScanThread) : Prop :=
  match s.pc with
  | .reading htDirs _ => InOrder env.junk htDirs
  | .slots _ left => left.length ≤ 10000
  | _ => True

/-- **Each step lowers the rank**, once the flag is cleared. -/
theorem ScanThread.Orderly.go {s s' : ScanThread} {keepRunning : Bool} (h : s.Orderly env)
    (hs : s.go env keepRunning = some s') :
    s'.Orderly env ∧ (keepRunning = false → s'.rank + 1 ≤ s.rank) := by
  obtain ⟨pc, state⟩ := s
  cases pc with
  | opening =>
    obtain ⟨t, hcreate⟩ := exists_hashTableCreate env.junk
    simp only [ScanThread.go, hcreate] at hs
    split at hs
    · obtain rfl := Option.some.inj hs
      exact ⟨trivial, fun _ => by simp [ScanThread.rank]⟩
    · split at hs <;> obtain rfl := Option.some.inj hs
      · exact ⟨(inOrder_create hcreate).1, fun _ => by simp [ScanThread.rank]⟩
      · exact ⟨trivial, fun _ => by simp [ScanThread.rank]⟩
  | reading htDirs ps =>
    have horder : InOrder env.junk htDirs := h
    have hsize : htDirs.size = 10000 := by
      obtain ⟨l, -, hc⟩ := horder
      exact hc.size
    have hslots : (⟨.slots htDirs (List.range htDirs.size), state⟩ : ScanThread).Orderly env := by
      rw [hsize]
      exact (List.length_range ..).le
    rcases ps with - | ⟨p, ps⟩
    · obtain rfl := Option.some.inj hs
      exact ⟨hslots, fun _ => by simp [ScanThread.rank, hsize]⟩
    · simp only [ScanThread.go] at hs
      split at hs
      · next htrue =>
        obtain rfl := Option.some.inj hs
        refine ⟨?_, fun hfalse => absurd (htrue.symm.trans hfalse) (by simp)⟩
        unfold ScanThread.readEntry
        rcases p.info
        · obtain ⟨rc, t, he, ht, -, -⟩ := horder.insert p.path (env.besideDirs htDirs.brk)
          simp only [he]
          exact ht
        · exact horder
        · dsimp only
          split
          · trivial
          · exact horder
        · exact horder
      · obtain rfl := Option.some.inj hs
        exact ⟨hslots, fun _ => by simp [ScanThread.rank, hsize]⟩
  | slots htDirs is =>
    have hle : is.length ≤ 10000 := h
    rcases is with - | ⟨i, is⟩
    · obtain rfl := Option.some.inj hs
      exact ⟨trivial, fun _ => by simp [ScanThread.rank]⟩
    · rw [List.length_cons] at hle
      simp only [ScanThread.go] at hs
      split at hs <;> obtain rfl := Option.some.inj hs
      · exact ⟨trivial, fun _ => by simp [ScanThread.rank]⟩
      · exact ⟨(Nat.le_succ _).trans hle, fun _ => by simp [ScanThread.rank]⟩
  | counting rc =>
    obtain rfl := Option.some.inj hs
    exact ⟨trivial, fun _ => by simp [ScanThread.rank]⟩
  | returned | fault => cases hs

theorem ScanThread.Orderly.rank_le {s : ScanThread} (h : s.Orderly env) : s.rank ≤ 10004 := by
  unfold ScanThread.rank
  cases hpc : s.pc with
  | slots htDirs left =>
    simp only [ScanThread.Orderly, hpc] at h
    exact (Nat.add_le_add_right h 2).trans (by simp)
  | _ => simp

/-- A run of the thread behind the signal. -/
theorem ScanThread.Orderly.run {s s' : ScanThread} {inputs : List ScanInput} (h : s.Orderly env)
    (hclear : ∀ input ∈ inputs, input.keepRunning = false) (hrun : s.run env inputs = some s') :
    inputs.length + s'.rank ≤ s.rank := by
  induction inputs generalizing s with
  | nil =>
    obtain rfl := Option.some.inj hrun
    simp
  | cons input inputs ih =>
    obtain ⟨u, hu, hrun⟩ := run_cons_iff.mp hrun
    obtain ⟨hfirst, hrest⟩ := List.forall_mem_cons.mp hclear
    obtain ⟨hu', hlt⟩ := ScanThread.Orderly.go (s := s.enter input.watchedItems) h hu
    have hlt : u.rank + 1 ≤ s.rank := hlt hfirst
    have hle := ih hu' hrest hrun
    rw [List.length_cons]
    omega

/-- Any run keeps the order. -/
theorem ScanThread.Orderly.keep {s s' : ScanThread} {inputs : List ScanInput} (h : s.Orderly env)
    (hrun : s.run env inputs = some s') : s'.Orderly env := by
  induction inputs generalizing s with
  | nil =>
    obtain rfl := Option.some.inj hrun
    exact h
  | cons input inputs ih =>
    obtain ⟨u, hu, hrun⟩ := run_cons_iff.mp hrun
    exact ih (ScanThread.Orderly.go (s := s.enter input.watchedItems) h hu).1 hrun

end SecuritySystem.Backup

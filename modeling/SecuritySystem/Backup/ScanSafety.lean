/-
SecuritySystem/Backup/ScanSafety.lean

What a start does to its tables, step by step.

Both tables of a start are first-come stores, so the walk is two runs of
additions (`readEntries_run`) and the loop over the slots a third one, of
whatever is read from the blocks of `ht_dirs` (`forSlots_eq`).
-/
import SecuritySystem.Backup.HandlerSafety
import SecuritySystem.Backup.Scan
import SecuritySystem.HashTableRun

namespace SecuritySystem.Backup

open CMem CString FileTree

variable {env : ScanEnv} {s : ScanState} {t htDirs : HashTable} {v : CString}
variable {junk junkDirs : BitVec 32}

/-! ### The walk -/

theorem insertArg_run (env : ScanEnv) (h : InOrder junk s.arg.hashTable) (v : CString) :
    ∃ t, insertArg env v s = ({ s with arg.hashTable := t }, none) ∧ InOrder junk t ∧
      t.strings = (policy 10000 junk).add s.arg.hashTable.strings v := by
  obtain ⟨rc, t, he, ht, hs, -⟩ := h.insert v (env.besideArg s.arg.hashTable.brk)
  refine ⟨t, ?_, ht, hs⟩
  rw [insertArg, he]

theorem pathsOf_nil (info : FtsInfo) : pathsOf info [] = [] := rfl

theorem pathsOf_cons (info : FtsInfo) (p : FtsEnt) (ps : List FtsEnt) :
    pathsOf info (p :: ps) =
      if p.info = info then p.path :: pathsOf info ps else pathsOf info ps := by
  by_cases h : p.info = info <;> simp [pathsOf, h]

/-- The entries that are delivered before the service is stopped, from the
`k`-th test on. -/
def walked (running : ℕ → Bool) : ℕ → List FtsEnt → List FtsEnt
  | _, [] => []
  | k, p :: ps => if running k then p :: walked running (k + 1) ps else []

theorem walked_of_running {running : ℕ → Bool} (h : ∀ k, running k = true) (k : ℕ)
    (ps : List FtsEnt) : walked running k ps = ps := by
  induction ps generalizing k with
  | nil => rfl
  | cons p ps ih => rw [walked, if_pos (h k), ih]

/-- What is left by inserts of the strings `vs` is left by one insert more. -/
def EachInsert (P : List CString → HashTable → Prop) : Prop :=
  ∀ vs t v b, P vs t → ∃ rc t', hashTableInsertItem b t v = .ok (rc, t') ∧ P (vs ++ [v]) t'

/-- **The walk** is two runs of inserts: files go to the handler's table,
directories to `ht_dirs`. -/
theorem readEntries_rule {A D : List CString → HashTable → Prop} (hA : EachInsert A)
    (hD : EachInsert D) (k : ℕ) (ps : List FtsEnt) {fs ds : List CString}
    (ha : A fs s.arg.hashTable) (hd : D ds htDirs) :
    ∃ t htDirs', readEntries env k ps s htDirs = ({ s with arg.hashTable := t }, .ok htDirs') ∧
      A (fs ++ pathsOf .FTS_F (walked env.running k ps)) t ∧
      D (ds ++ pathsOf .FTS_D (walked env.running k ps)) htDirs' := by
  induction ps generalizing k s htDirs fs ds with
  | nil =>
    refine ⟨s.arg.hashTable, htDirs, rfl, ?_, ?_⟩
    · rwa [walked, pathsOf_nil, List.append_nil]
    · rwa [walked, pathsOf_nil, List.append_nil]
  | cons p ps ih =>
    rw [readEntries, walked]
    by_cases hrun : env.running k = true
    · rw [if_pos hrun, if_pos hrun, pathsOf_cons, pathsOf_cons]
      rcases hinfo : p.info
      · -- a directory
        obtain ⟨rc, t₁, he, hd₁⟩ := hD ds htDirs p.path (env.besideDirs htDirs.brk) hd
        obtain ⟨t, t₂, hr, ha', hd'⟩ := ih (k + 1) ha hd₁
        refine ⟨t, t₂, ?_, ha', ?_⟩
        · simp only [he]
          exact hr
        · rwa [List.append_assoc] at hd'
      · exact ih (k + 1) ha hd
      · -- a file
        obtain ⟨rc, t₁, he, ha₁⟩ := hA fs s.arg.hashTable p.path
          (env.besideArg s.arg.hashTable.brk) ha
        obtain ⟨t, t₂, hr, ha', hd'⟩ := ih (s := { s with arg.hashTable := t₁ }) (k + 1) ha₁ hd
        refine ⟨t, t₂, ?_, ?_, hd'⟩
        · simp only [insertArg, he]
          exact hr
        · rwa [List.append_assoc] at ha'
      · exact ih (k + 1) ha hd
    · -- the service is stopped
      rw [if_neg hrun, if_neg hrun]
      refine ⟨s.arg.hashTable, htDirs, rfl, ?_, ?_⟩
      · rwa [pathsOf_nil, List.append_nil]
      · rwa [pathsOf_nil, List.append_nil]

/-- A table in order, behind inserts of `vs` to one with the strings `start`
and `n` blocks. -/
structure Added (junk : BitVec 32) (start : List CString) (n : ℕ) (vs : List CString)
    (t : HashTable) : Prop where
  inOrder : InOrder junk t
  strings : t.strings = (policy 10000 junk).addAll start vs
  brk : t.brk ≤ n + vs.length

theorem added_of_inOrder (h : InOrder junk t) : Added junk t.strings t.brk [] t :=
  ⟨h, rfl, le_rfl⟩

theorem eachInsert_added (junk : BitVec 32) (start : List CString) (n : ℕ) :
    EachInsert (Added junk start n) := by
  intro vs t v b h
  obtain ⟨rc, t', he, ht', hs, hbrk⟩ := h.inOrder.insert v b
  refine ⟨rc, t', he, ht', ?_, ?_⟩
  · rw [hs, h.strings, FirstCome.addAll_append]
    rfl
  · rw [List.length_append, List.length_singleton]
    exact hbrk.trans (Nat.succ_le_succ h.brk)

/-- The strings that the walk leaves in the two tables. -/
theorem readEntries_run (env : ScanEnv) (k : ℕ) (ps : List FtsEnt)
    (hA : InOrder junk s.arg.hashTable) (hD : InOrder junkDirs htDirs) :
    ∃ t htDirs', readEntries env k ps s htDirs = ({ s with arg.hashTable := t }, .ok htDirs') ∧
      Added junk s.arg.hashTable.strings s.arg.hashTable.brk
        (pathsOf .FTS_F (walked env.running k ps)) t ∧
      Added junkDirs htDirs.strings htDirs.brk
        (pathsOf .FTS_D (walked env.running k ps)) htDirs' :=
  readEntries_rule (eachInsert_added _ _ _) (eachInsert_added _ _ _) k ps (added_of_inOrder hA)
    (added_of_inOrder hD)

/-! ### One watch -/

/-- A watch of a path that is not too long is added and logged. -/
theorem watchMessage_ok (hv : v.strlen ≤ HASH_ITEM_MAX_SIZE_STR) (wd : Int32) (items : UInt64) :
    ∃ message, watchMessage v wd.toInt items = .ok message := by
  have hv : v.strlen ≤ 512 := hv
  have hwd : (decimal wd.toInt).strlen ≤ 11 := by
    have h1 := wd.le_toInt
    have h2 := wd.toInt_lt
    exact strlen_decimal_le (k := 10) (by omega) (by omega)
  have hitems : (decimal items.toInt64.toInt).strlen ≤ 20 := by
    have h1 := items.toInt64.le_toInt
    have h2 := items.toInt64.toInt_lt
    exact strlen_decimal_le (k := 19) (by omega) (by omega)
  have h1 : (lit "Watching ").strlen = 9 := by decide
  have h2 : (lit " WD=").strlen = 4 := by decide
  have h3 : (lit "; Watching = ").strlen = 13 := by decide
  have h4 : (lit " items").strlen = 6 := by decide
  have htext : (lit "Watching " ++ v ++ lit " WD=" ++ decimal wd.toInt).strlen ≤ 536 := by
    rw [strlen_append, strlen_append, strlen_append, h1, h2]
    omega
  have hrest :
      (lit "; Watching = " ++ decimal items.toInt64.toInt ++ lit " items").strlen ≤ 39 := by
    rw [strlen_append, strlen_append, h3, h4]
    omega
  generalize hA : lit "Watching " ++ v ++ lit " WD=" ++ decimal wd.toInt = text at htext
  generalize hB : lit "; Watching = " ++ decimal items.toInt64.toInt ++ lit " items" = rest at hrest
  have hfit : sprintf HELPERS_AVER_BUFFER_SIZE text = .ok text :=
    sprintf_of_lt (show _ < 2048 by omega)
  have hfit' : sprintf (HELPERS_AVER_BUFFER_SIZE - text.strlen) rest = .ok rest :=
    sprintf_of_lt (show _ < 2048 - _ by omega)
  refine ⟨text ++ rest, ?_⟩
  rw [watchMessage, hA, hB]
  simp only [hfit, bind, Except.bind, hfit']
  rfl

/-- The message for a watch that is refused. -/
theorem refused_fits (hv : v.strlen ≤ HASH_ITEM_MAX_SIZE_STR) (mask : UInt64) :
    (quoted (lit "Cannot add watch for") v
      (lit " with event mask " ++ numeral 16 mask.toNat)).strlen < HELPERS_AVER_BUFFER_SIZE := by
  have hv : v.strlen ≤ 512 := hv
  have hmask : (numeral 16 mask.toNat).strlen ≤ 16 :=
    strlen_numeral_le (by omega) (by omega) mask.toNat_lt
  have h1 : (lit "Cannot add watch for").strlen = 20 := by decide
  have h2 : (lit " with event mask ").strlen = 17 := by decide
  rw [strlen_quoted, strlen_append, h1, h2]
  show _ < 2048
  omega

/-- The state behind a watch that was added. -/
def watchAdded (v message : CString) (s : ScanState) : ScanState :=
  { s with
    watched := s.watched ++ [v]
    watchedItems := s.watchedItems + 1
    logged := s.logged ++ [message] }

/-- Everything that `watch_dir` can do. -/
inductive WatchOutcome (env : ScanEnv) (v : CString) (s : ScanState) :
    ScanState × Except Fault ℤ → Prop
  /-- inotify refuses the watch; the message fits, or the path is too long -/
  | refused (r : Except Fault ℤ) : (env.addWatch s.watched.length v).toInt < 0 →
      (r = .ok HELPERS_INVALID_EXIT ∨ HASH_ITEM_MAX_SIZE_STR < v.strlen ∧ r = .error .overflow) →
      WatchOutcome env v s ({ s with watched := s.watched ++ [v] }, r)
  /-- the watch is added, but its message does not fit -/
  | unwritten (e : Fault) : 0 ≤ (env.addWatch s.watched.length v).toInt →
      watchMessage v (env.addWatch s.watched.length v).toInt (s.watchedItems + 1) = .error e →
      WatchOutcome env v s
        ({ s with
            watched := s.watched ++ [v]
            watchedItems := s.watchedItems + 1 }, .error e)
  /-- the watch is added, and logged -/
  | added (message : CString) : 0 ≤ (env.addWatch s.watched.length v).toInt →
      watchMessage v (env.addWatch s.watched.length v).toInt (s.watchedItems + 1) = .ok message →
      WatchOutcome env v s
        (watchAdded v message s, .ok (env.addWatch s.watched.length v).toInt)

theorem watchDir_cases (env : ScanEnv) (v : CString) (mask : UInt64) (s : ScanState) :
    WatchOutcome env v s (watchDir env v mask s) := by
  unfold watchDir
  dsimp only
  split
  · next hneg =>
    by_cases hlt : (quoted (lit "Cannot add watch for") v
        (lit " with event mask " ++ numeral 16 mask.toNat)).strlen < HELPERS_AVER_BUFFER_SIZE
    · rw [sprintf_of_lt hlt]
      exact .refused _ hneg (.inl rfl)
    · have hlong : HASH_ITEM_MAX_SIZE_STR < v.strlen :=
        Nat.not_le.mp fun hv => hlt (refused_fits hv mask)
      rw [sprintf_of_ge (Nat.not_lt.mp hlt)]
      exact .refused _ hneg (.inr ⟨hlong, rfl⟩)
  · next hneg =>
    have hadd := Int.not_lt.mp hneg
    rcases hm : watchMessage v (env.addWatch s.watched.length v).toInt (s.watchedItems + 1) with
      e | message
    · exact .unwritten e hadd hm
    · exact .added message hadd hm

/-- A descriptor is not taken for the error code. -/
theorem ne_invalid {wd : ℤ} (h : 0 ≤ wd) : wd ≠ HELPERS_INVALID_EXIT := by
  rintro rfl
  exact absurd h (by decide)

/-- Inotify is open, and takes every watch. -/
structure Watching (env : ScanEnv) : Prop where
  opened : 0 < env.inotifyFd
  added : ∀ n d, 0 ≤ (env.addWatch n d).toInt

/-! ### The slots -/

/-- `s'` is `s` after the values `vs` have been watched, but for prefixes of
the root, and added to the handler's table. -/
structure Scanned (junk : BitVec 32) (s : ScanState) (vs : List CString) (s' : ScanState) :
    Prop where
  inOrder : InOrder junk s'.arg.hashTable
  strings : s'.arg.hashTable.strings =
    (policy 10000 junk).addAll s.arg.hashTable.strings vs
  root : s'.arg.pathToDir = s.arg.pathToDir
  watched : s'.watched =
    s.watched ++ vs.filter fun v => ¬ v.bytes <+: s.arg.pathToDir.bytes

theorem Scanned.nil (h : InOrder junk s.arg.hashTable) : Scanned junk s [] s :=
  ⟨h, rfl, rfl, (List.append_nil _).symm⟩

theorem Scanned.trans {s₁ s₂ : ScanState} {vs ws : List CString} (h₁ : Scanned junk s vs s₁)
    (h₂ : Scanned junk s₁ ws s₂) : Scanned junk s (vs ++ ws) s₂ where
  inOrder := h₂.inOrder
  strings := by
    rw [h₂.strings, h₁.strings, FirstCome.addAll_append]
  root := h₂.root.trans h₁.root
  watched := by
    rw [h₂.watched, h₁.watched, h₁.root, List.filter_append, List.append_assoc]

/-- One directory: its value is scanned, or too long for the message. -/
theorem watchAndInsert_cases (hw : Watching env) (h : InOrder junk s.arg.hashTable)
    (v : CString) :
    (∃ s' e, watchAndInsert env v s = (s', some e) ∧ HASH_ITEM_MAX_SIZE_STR < v.strlen) ∨
    ∃ s', watchAndInsert env v s = (s', none) ∧ Scanned junk s [v] s' := by
  unfold watchAndInsert
  by_cases hp : v.bytes <+: s.arg.pathToDir.bytes
  · rw [if_pos (strncmpEq_strlen.mpr hp)]
    obtain ⟨t, he, ht, hs⟩ := insertArg_run env h v
    exact .inr ⟨_, he, ht, hs, rfl, by simp [hp]⟩
  · -- the watch does not touch the tables, so the insert meets the same table
    rw [if_neg fun he => hp (strncmpEq_strlen.mp he)]
    have ho := watchDir_cases env v condition s
    generalize watchDir env v condition s = out at ho ⊢
    cases ho with
    | refused r hneg => exact absurd (hw.added s.watched.length v) (Int.not_le.mpr hneg)
    | unwritten e hadd hm =>
      refine .inl ⟨_, e, rfl, Nat.not_le.mp fun hle => ?_⟩
      obtain ⟨message, hok⟩ := watchMessage_ok hle (env.addWatch s.watched.length v)
        (s.watchedItems + 1)
      cases hm.symm.trans hok
    | added message hadd hm =>
      dsimp only
      rw [if_neg (ne_invalid hadd)]
      obtain ⟨t, he, ht, hs⟩ := insertArg_run env (s := watchAdded v message s) h v
      refine .inr ⟨_, he, ht, hs, rfl, ?_⟩
      show s.watched ++ [v] = _
      simp [hp]

/-- What the loop reads from the slots `is`, in order. -/
def slotValues (env : ScanEnv) (htDirs : HashTable) (is : List ℕ) : List CString :=
  (is.filterMap htDirs.table).map fun a => ofMem (htDirs.blockOf a ++ env.behind a)

/-- The number of a slot is its key. -/
theorem toNat_ofNat_slot {i : ℕ} (hi : i < 10000) : (UInt32.ofNat i).toNat = i := by
  apply UInt32.toNat_ofNat_of_lt'
  show i < 2 ^ 32
  omega

theorem scanSlot_empty {i : ℕ} (hi : i < 10000) (hsize : htDirs.size = 10000)
    (hslot : htDirs.table i = none) : scanSlot env htDirs i s = (s, none) := by
  have hkey : (UInt32.ofNat i).toNat = i := toNat_ofNat_slot hi
  have hsearch : hashTableSearchItem htDirs (.ofNat i) none = .ok none := by
    unfold hashTableSearchItem hashTableGetHiByKey
    rw [HashTable.slotAt_of_lt (by omega), hkey, hslot]
    simp only [ite_self]
  rw [scanSlot, hsearch]

theorem scanSlot_item {l : List Addr} (h : Chained htDirs l) (hsize : htDirs.size = 10000)
    (hopen : 0 < env.inotifyFd) {i : ℕ} {a : Addr} (hslot : htDirs.table i = some a) :
    scanSlot env htDirs i s = watchAndInsert env (ofMem (htDirs.blockOf a ++ env.behind a)) s := by
  obtain ⟨u, -, hku, hok, hlt⟩ := h.stores_of_table hslot
  obtain ⟨it, hit⟩ := h.exists_item (h.mem_of_table hslot)
  have hkey : (UInt32.ofNat i).toNat = i := toNat_ofNat_slot (hsize ▸ hlt)
  -- a stored string has a key above 1, so the search does not take `i` for "no key"
  have hne : UInt32.ofNat i ≠ 0 := by
    intro h0
    rw [h0] at hkey
    exact hok.key_ne_zero (UInt32.toNat_inj.mp (hku.trans hkey.symm))
  unfold scanSlot hashTableSearchItem hashTableGetHiByKey
  rw [HashTable.slotAt_of_lt (hkey.symm ▸ hlt), hkey, hslot]
  simp only [if_neg hne, if_pos hopen, HashTable.deref, hit, HashTable.blockOf, Option.map_some,
    Option.getD_some]

/-- Without inotify nothing is done about a slot. -/
theorem scanSlot_closed (hsize : htDirs.size = 10000) (hclosed : ¬ 0 < env.inotifyFd) {i : ℕ}
    (hi : i < 10000) :
    scanSlot env htDirs i s = (s, none) := by
  have hkey : (UInt32.ofNat i).toNat = i := toNat_ofNat_slot hi
  have hsearch : ∃ r, hashTableSearchItem htDirs (.ofNat i) none = .ok r := by
    unfold hashTableSearchItem hashTableGetHiByKey
    rw [HashTable.slotAt_of_lt (by omega), hkey]
    by_cases h0 : UInt32.ofNat i = 0
    · exact ⟨none, if_pos h0⟩
    · simp only [if_neg h0]
      exact ⟨_, rfl⟩
  obtain ⟨r, hr⟩ := hsearch
  rw [scanSlot, hr]
  rcases r with - | a
  · rfl
  · exact if_neg hclosed

theorem forSlots_closed (hsize : htDirs.size = 10000) (hclosed : ¬ 0 < env.inotifyFd)
    (is : List ℕ) (his : ∀ i ∈ is, i < 10000) :
    forSlots env htDirs is s = (s, none) := by
  induction is with
  | nil => rfl
  | cons i is ih =>
    rw [forSlots, scanSlot_closed hsize hclosed (his i List.mem_cons_self)]
    exact ih fun j hj => his j (List.mem_cons_of_mem i hj)

/-- The values that are read from the slots, one after the other. -/
def watchAll (env : ScanEnv) : List CString → ScanState → ScanState × Option Fault
  | [], s => (s, none)
  | v :: vs, s =>
    match watchAndInsert env v s with
    | (s, some e) => (s, some e)
    | (s, none) => watchAll env vs s

/-- **The loop over the slots** is a loop over the values read from them. -/
theorem forSlots_eq {l : List Addr} (h : Chained htDirs l) (hsize : htDirs.size = 10000)
    (hopen : 0 < env.inotifyFd) (is : List ℕ) (his : ∀ i ∈ is, i < 10000) :
    forSlots env htDirs is s = watchAll env (slotValues env htDirs is) s := by
  induction is generalizing s with
  | nil => rfl
  | cons i is ih =>
    have his' := fun j hj => his j (List.mem_cons_of_mem i hj)
    rw [forSlots]
    rcases hslot : htDirs.table i with - | a
    · rw [scanSlot_empty (his i List.mem_cons_self) hsize hslot, slotValues,
        List.filterMap_cons_none hslot]
      exact ih his'
    · rw [scanSlot_item h hsize hopen hslot, slotValues, List.filterMap_cons_some hslot,
        List.map_cons, watchAll]
      rcases watchAndInsert env (ofMem (htDirs.blockOf a ++ env.behind a)) s with ⟨s₁, - | e⟩
      · exact ih his'
      · rfl

/-- All values are scanned, or one of them is too long. -/
theorem watchAll_cases (hw : Watching env) (vs : List CString)
    (hA : InOrder junk s.arg.hashTable) :
    (∃ s' e, watchAll env vs s = (s', some e) ∧ ∃ v ∈ vs, HASH_ITEM_MAX_SIZE_STR < v.strlen) ∨
    ∃ s', watchAll env vs s = (s', none) ∧ Scanned junk s vs s' := by
  induction vs generalizing s with
  | nil => exact .inr ⟨s, rfl, .nil hA⟩
  | cons v vs ih =>
    rw [watchAll]
    rcases watchAndInsert_cases hw hA v with ⟨s₁, e, he, hlong⟩ | ⟨s₁, he, hs₁⟩
    · rw [he]
      exact .inl ⟨s₁, e, rfl, v, List.mem_cons_self, hlong⟩
    · rw [he]
      rcases ih hs₁.inOrder with ⟨s₂, e, he₂, u, hu, hlong⟩ | ⟨s₂, he₂, hs₂⟩
      · exact .inl ⟨s₂, e, he₂, u, List.mem_cons_of_mem _ hu, hlong⟩
      · exact .inr ⟨s₂, he₂, hs₁.trans hs₂⟩

end SecuritySystem.Backup

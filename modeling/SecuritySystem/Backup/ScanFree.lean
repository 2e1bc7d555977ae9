/-
SecuritySystem/Backup/ScanFree.lean

How often a start frees `ht_dirs`, and when it reads it afterwards.

The clean-up of `backup_check_fs_and_run` is called for each of its exits.  In
the loop over the slots the call is not followed by a return, so the first
watch that fails frees the table the loop goes on with.

`watchTargets` is what the loop watches, told from the surroundings alone: the
directories of the walk, in a first-come store together with the addresses of
their blocks (`Placed` links it to the table).  `cleansUp_iff` says that the
start cleans up exactly when each watch of these goes through.
-/
import SecuritySystem.Backup.ScanComplete

namespace SecuritySystem.Backup

open CMem CString FileTree

variable {env : ScanEnv} {s : ScanState} {t t' htDirs : HashTable} {v : CString} {l : List Addr}
variable {junk : BitVec 32}

/-! ### What the loop watches -/

/-- Strings that are inserted one after the other, each with the address of
its block if it gets one; the first block is at `a`. -/
def placed : Addr → List CString → List (Addr × CString)
  | _, [] => []
  | a, v :: vs => (a, v) :: placed (if GetsBlock v then a + 1 else a) vs

/-- The policy of a table, for strings with their addresses. -/
def placedPolicy (junk : BitVec 32) : FirstCome.Policy (Addr × CString) UInt32 where
  key := fun p => hashKeyGenerator p.2
  ok := fun p => decide (Storable p.2)
  room := (policy 10000 junk).room

/-- What a table keeps of strings that are inserted to it. -/
def kept (junk : BitVec 32) (vs : List CString) : List (Addr × CString) :=
  (placedPolicy junk).addAll [] (placed 0 vs)

/-- The kept strings, read slot by slot. -/
def slotReads (env : ScanEnv) (ps : List (Addr × CString)) : List CString :=
  (List.range 10000).filterMap fun k =>
    (ps.find? fun p => (hashKeyGenerator p.2).toNat = k).map fun p =>
      ofMem (p.2.bytes ++ env.behind p.1)

/-- What the loop reads from the slots, if inotify is open. -/
def loopReads (env : ScanEnv) (entries : List FtsEnt) : List CString :=
  if 0 < env.inotifyFd then
    slotReads env (kept env.junk (pathsOf .FTS_D (walked env.running 0 entries)))
  else []

/-- The paths that are passed to `watch_dir` if none of the watches fails. -/
def watchTargets (env : ScanEnv) (root : CString) (entries : List FtsEnt) : List CString :=
  (loopReads env entries).filter fun v => ¬ v.bytes <+: root.bytes

/-- The `n`-th watch, of `v`, goes through: inotify takes it, and its message
fits. -/
structure WatchGoes (env : ScanEnv) (items : UInt64) (n : ℕ) (v : CString) : Prop where
  added : 0 ≤ (env.addWatch n v).toInt
  fits : Completes (watchMessage v (env.addWatch n v).toInt (items + UInt64.ofNat n + 1))

/-- Each watch that the start gets to goes through. -/
def NoWatchFails (env : ScanEnv) (root : CString) (items : UInt64) : Prop :=
  ∀ fts, env.fts = some fts → fts.children = true →
    ∀ n v, (watchTargets env root fts.entries)[n]? = some v → WatchGoes env items n v

/-- What the start is to do, whatever fails: it returns, having freed `ht_dirs`
once, with no watch behind one that failed, and with the code that says
whether something failed.  A read of `ht_dirs` behind its release is a
fault. -/
def CleansUp (env : ScanEnv) (arg : ThreadArgument) (items : UInt64) : Prop :=
  ∃ s rc, backupCheckFsAndRun env arg items = (s, .ok rc) ∧ s.freed = 1 ∧
    (∀ n v, s.watched[n]? = some v → (env.addWatch n v).toInt < 0 → n + 1 = s.watched.length) ∧
    (rc = HELPERS_INVALID_EXIT ↔
      env.fts = none ∨ ∃ n v, s.watched[n]? = some v ∧ (env.addWatch n v).toInt < 0)

/-! ### The directories in their slots -/

/-- The number of blocks for the strings. -/
def blocks (vs : List CString) : ℕ := vs.countP fun v => GetsBlock v

theorem blocks_concat (vs : List CString) (v : CString) :
    blocks (vs ++ [v]) = if GetsBlock v then blocks vs + 1 else blocks vs := by
  rw [blocks, List.countP_append, List.countP_singleton]
  by_cases hv : GetsBlock v
  · simp [hv, blocks]
  · simp [hv, blocks]

theorem placed_concat (a : Addr) (vs : List CString) (v : CString) :
    placed a (vs ++ [v]) = placed a vs ++ [(a + blocks vs, v)] := by
  induction vs generalizing a with
  | nil => rfl
  | cons u vs ih =>
    rw [List.cons_append, placed, ih, placed, List.cons_append, blocks, blocks, List.countP_cons]
    by_cases hu : GetsBlock u
    · simp only [hu, if_true, decide_true]
      rw [Nat.add_assoc, Nat.add_comm 1]
    · simp [hu]

theorem kept_concat (vs : List CString) (v : CString) :
    kept junk (vs ++ [v]) = (placedPolicy junk).add (kept junk vs) (blocks vs, v) := by
  rw [kept, placed_concat, Nat.zero_add, FirstCome.addAll_append]
  rfl

/-- The table behind inserts of `vs` to a fresh one: its items are the kept
strings, at their addresses. -/
structure Placed (junk : BitVec 32) (vs : List CString) (t : HashTable) : Prop where
  chained : Chained t ((kept junk vs).map Prod.fst)
  counted : Counted 10000 junk t ((kept junk vs).map Prod.fst)
  stores : ∀ p ∈ kept junk vs, t.Stores p.1 p.2
  brk : t.count ≠ BitVec.ofNat 32 t.size → t.brk = blocks vs

theorem placed_create {t₀ : HashTable} (h : hashTableCreate HASH_TABLE_MAX junk = some t₀) :
    Placed junk [] t₀ where
  chained := hashTableCreate_chained h
  counted := hashTableCreate_counted h
  stores := fun p hp => absurd hp List.not_mem_nil
  brk := fun _ => by
    obtain rfl := Option.some.inj ((if_neg (by decide)).symm.trans h : some _ = some t₀)
    rfl

namespace Placed

variable {vs : List CString}

/-- A key is taken in the store when its slot is. -/
theorem free_iff (h : Placed junk vs t) (a : Addr) (v : CString) :
    (placedPolicy junk).free (kept junk vs) (a, v) = true ↔
      t.table (hashKeyGenerator v).toNat = none := by
  rw [FirstCome.free_iff, h.chained.table_eq_none]
  constructor
  · intro hall u hu
    obtain ⟨c, hc, hcu⟩ := h.chained.mem_strings.mp hu
    obtain ⟨p, hp, rfl⟩ := List.mem_map.mp hc
    obtain rfl := hcu.unique (h.stores p hp)
    exact hall p hp
  · intro hall p hp
    exact hall p.2 (h.chained.mem_strings.mpr ⟨p.1, List.mem_map_of_mem hp, h.stores p hp⟩)

theorem room_iff (h : Placed junk vs t) :
    (placedPolicy junk).room (kept junk vs).length = true ↔
      t.count ≠ BitVec.ofNat 32 t.size := by
  rw [h.counted.count, h.counted.size, List.length_map]
  exact decide_eq_true_iff

/-- A string that is not linked changes at most the next address. -/
theorem of_sameView (h : Placed junk vs t) (hv : t.SameView t')
    (hadd : (placedPolicy junk).add (kept junk vs) (blocks vs, v) = kept junk vs)
    (hbrk : t.count ≠ BitVec.ofNat 32 t.size → t'.brk = blocks (vs ++ [v])) :
    Placed junk (vs ++ [v]) t' := by
  have heq : kept junk (vs ++ [v]) = kept junk vs := (kept_concat vs v).trans hadd
  refine ⟨heq ▸ h.chained.congr hv, ?_, fun p hp => ?_, fun hne => ?_⟩
  · rw [heq]
    exact ⟨hv.size.trans h.counted.size, hv.count.trans h.counted.count⟩
  · rw [heq] at hp
    have hlt := h.chained.below p.1 (List.mem_map_of_mem hp)
    exact (hv.contents hlt).trans (h.stores p hp)
  · rw [hv.count, hv.size] at hne
    exact hbrk hne

/-- A string that is linked gets the next address. -/
theorem of_pushed (h : Placed junk vs t) (hp : Pushed t t' v) (hok : Storable v)
    (hlt : (hashKeyGenerator v).toNat < t.size)
    (hfree : t.table (hashKeyGenerator v).toNat = none)
    (hfull : t.count ≠ BitVec.ofNat 32 t.size) : Placed junk (vs ++ [v]) t' := by
  have hbrk := h.brk hfull
  have hok' : (placedPolicy junk).ok (blocks vs, v) = true := decide_eq_true hok
  have heq : kept junk (vs ++ [v]) = (t.brk, v) :: kept junk vs := by
    rw [kept_concat, FirstCome.Policy.add, if_pos, hbrk]
    simp [h.room_iff.mpr hfull, hok', (h.free_iff _ v).mpr hfree]
  refine ⟨?_, ?_, fun p hmem => ?_, fun _ => ?_⟩
  · rw [heq]
    exact hp.chained h.chained hok hlt hfree
  · rw [heq]
    refine ⟨hp.size.trans h.counted.size, ?_⟩
    rw [hp.count, h.counted.count, List.map_cons, List.length_cons, BitVec.ofNat_add,
      BitVec.add_assoc]
    rfl
  · rw [heq] at hmem
    rcases List.mem_cons.mp hmem with rfl | hmem
    · exact hp.stores
    · have hbelow := h.chained.below p.1 (List.mem_map_of_mem hmem)
      exact (hp.stores_iff hbelow p.2).mpr (h.stores p hmem)
  · rw [hp.brk, hbrk, blocks_concat, if_pos hok.getsBlock]

end Placed

/-- **One insert** puts its string to the store, at the next address. -/
theorem eachInsert_placed (junk : BitVec 32) : EachInsert (Placed junk) := by
  intro vs t v b h
  obtain ⟨rc, t', he, -⟩ := InOrder.insert ⟨_, h.chained, h.counted⟩ v b
  refine ⟨rc, t', he, ?_⟩
  have hbrk : t.count ≠ BitVec.ofNat 32 t.size → t'.brk = blocks (vs ++ [v]) := by
    intro hfull
    rw [hashTableInsertItem_brk he, blocks_concat, h.brk hfull]
    by_cases hv : GetsBlock v <;> simp [hfull, hv]
  have ho := hashTableInsertItem_cases h.chained b v
  rw [he] at ho
  cases ho with
  | refused _ hr hv =>
    refine h.of_sameView hv ?_ hbrk
    rcases hr with hfull | hok
    · apply FirstCome.add_of_full
      rw [← Bool.not_eq_true, h.room_iff]
      exact not_not.mpr hfull
    · have hok' : (placedPolicy junk).ok (blocks vs, v) = false := decide_eq_false hok
      simp [FirstCome.Policy.add, hok']
  | taken _ a u hfull hok hs hu hk hv =>
    refine h.of_sameView hv ?_ hbrk
    have htaken : ¬ (placedPolicy junk).free (kept junk vs) (blocks vs, v) = true := by
      rw [h.free_iff, hs]
      exact Option.some_ne_none a
    rw [FirstCome.Policy.add, if_neg]
    simp [htaken]
  | added _ hfull hok hlt hs hp => exact h.of_pushed hp hok hlt hs hfull

/-- Each slot of the table holds the kept string of its key. -/
theorem Placed.table_eq {vs : List CString} (h : Placed junk vs t) (k : ℕ) :
    t.table k =
      ((kept junk vs).find? fun p => (hashKeyGenerator p.2).toNat = k).map Prod.fst := by
  rcases hf : (kept junk vs).find? fun p => (hashKeyGenerator p.2).toNat = k with - | p
  · rw [hf]
    rcases ht : t.table k with - | a
    · rfl
    · obtain ⟨ha, u, hu, hk⟩ := (h.chained.slot k a).mp ht
      obtain ⟨p, hp, rfl⟩ := List.mem_map.mp ha
      obtain rfl := hu.unique (h.stores p hp)
      exact absurd hk (by simpa using List.find?_eq_none.mp hf p hp)
  · have hp := List.mem_of_find?_eq_some hf
    have hk : (hashKeyGenerator p.2).toNat = k := by simpa using List.find?_some hf
    rw [hf]
    exact (h.chained.slot k p.1).mpr ⟨List.mem_map_of_mem hp, p.2, h.stores p hp, hk⟩

theorem Placed.slotValues_eq {vs : List CString} (h : Placed junk vs htDirs) :
    slotValues env htDirs (List.range htDirs.size) = slotReads env (kept junk vs) := by
  rw [slotValues, slotReads, h.counted.size, List.map_filterMap]
  apply List.filterMap_congr
  intro k _
  rw [h.table_eq, Option.map_map]
  apply Option.map_congr
  intro p hp
  rw [Function.comp_apply, (h.stores p (List.mem_of_find?_eq_some hp)).blockOf_eq]

/-! ### The loop over the values -/

/-- The values `vs` have been scanned, each watch was counted, and `ht_dirs`
is not freed. -/
structure Went (junk : BitVec 32) (items : UInt64) (s : ScanState) (vs : List CString)
    (s' : ScanState) : Prop extends Scanned junk s vs s' where
  counted : s'.watchedItems = items + UInt64.ofNat s'.watched.length
  freed : s'.freed = s.freed

variable {items : UInt64}

theorem watchDir_goes (h : WatchGoes env items s.watched.length v)
    (hitems : s.watchedItems = items + UInt64.ofNat s.watched.length) (mask : UInt64) :
    ∃ message wd, watchDir env v mask s = (watchAdded v message s, .ok wd) ∧
      wd ≠ HELPERS_INVALID_EXIT := by
  obtain ⟨message, hm⟩ := h.fits
  rw [← hitems] at hm
  have ho := watchDir_cases env v mask s
  generalize watchDir env v mask s = out at ho ⊢
  cases ho with
  | refused r hneg => exact absurd h.added (Int.not_le.mpr hneg)
  | unwritten e _ he => cases hm.symm.trans he
  | added message hadd _ => exact ⟨message, _, rfl, ne_invalid hadd⟩

theorem watchDir_stops (h : ¬ WatchGoes env items s.watched.length v)
    (hitems : s.watchedItems = items + UInt64.ofNat s.watched.length) (mask : UInt64) :
    (∃ s', watchDir env v mask s = (s', .ok HELPERS_INVALID_EXIT)) ∨
      ∃ s' e, watchDir env v mask s = (s', .error e) := by
  have ho := watchDir_cases env v mask s
  generalize watchDir env v mask s = out at ho ⊢
  cases ho with
  | refused r _ hr =>
    rcases hr with rfl | ⟨-, rfl⟩
    · exact .inl ⟨_, rfl⟩
    · exact .inr ⟨_, _, rfl⟩
  | unwritten e _ _ => exact .inr ⟨_, e, rfl⟩
  | added message hadd hm =>
    rw [hitems] at hm
    exact absurd ⟨hadd, message, hm⟩ h

/-- A value whose watch, if it needs one, goes through. -/
theorem watchAndInsert_goes (h : InOrder junk s.arg.hashTable)
    (hitems : s.watchedItems = items + UInt64.ofNat s.watched.length)
    (hv : ¬ v.bytes <+: s.arg.pathToDir.bytes → WatchGoes env items s.watched.length v) :
    ∃ s', watchAndInsert env v s = (s', none) ∧ Went junk items s [v] s' := by
  unfold watchAndInsert
  by_cases hp : v.bytes <+: s.arg.pathToDir.bytes
  · rw [if_pos (strncmpEq_strlen.mpr hp)]
    obtain ⟨t, he, ht, hs⟩ := insertArg_run env h v
    exact ⟨_, he, ⟨ht, hs, rfl, by simp [hp]⟩, hitems, rfl⟩
  · rw [if_neg fun he => hp (strncmpEq_strlen.mp he)]
    obtain ⟨message, wd, hw, hwd⟩ := watchDir_goes (hv hp) hitems condition
    simp only [hw, if_neg hwd]
    obtain ⟨t, he, ht, hs⟩ := insertArg_run env (s := watchAdded v message s) h v
    refine ⟨_, he, ⟨ht, hs, rfl, ?_⟩, ?_, rfl⟩
    · show s.watched ++ [v] = _
      simp [hp]
    · show s.watchedItems + 1 = items + UInt64.ofNat (s.watched ++ [v]).length
      rw [hitems, List.length_append, UInt64.ofNat_add, UInt64.add_assoc]
      rfl

/-- One whose watch fails. -/
theorem watchAndInsert_stops (hitems : s.watchedItems = items + UInt64.ofNat s.watched.length)
    (hp : ¬ v.bytes <+: s.arg.pathToDir.bytes)
    (hv : ¬ WatchGoes env items s.watched.length v) :
    ∃ s' e, watchAndInsert env v s = (s', some e) := by
  rw [watchAndInsert, if_neg fun he => hp (strncmpEq_strlen.mp he)]
  rcases watchDir_stops hv hitems condition with ⟨s', hw⟩ | ⟨s', e, hw⟩
  · exact ⟨_, _, by rw [hw]; exact if_pos rfl⟩
  · exact ⟨s', e, by rw [hw]⟩

/-- The watches of the values that need one, from the `n`-th watch on. -/
def WatchesGo (env : ScanEnv) (root : CString) (items : UInt64) (n : ℕ) (vs : List CString) :
    Prop :=
  ∀ j v, (vs.filter fun v => ¬ v.bytes <+: root.bytes)[j]? = some v → WatchGoes env items (n + j) v

theorem watchesGo_cons {root : CString} {n : ℕ} {vs : List CString} :
    WatchesGo env root items n (v :: vs) ↔
      if v.bytes <+: root.bytes then WatchesGo env root items n vs
      else WatchGoes env items n v ∧ WatchesGo env root items (n + 1) vs := by
  unfold WatchesGo
  by_cases hp : v.bytes <+: root.bytes
  · simp [hp]
  · rw [if_neg hp, List.filter_cons_of_pos (by simp [hp])]
    constructor
    · intro h
      refine ⟨h 0 v rfl, fun j u hu => ?_⟩
      rw [Nat.add_assoc, Nat.add_comm 1]
      exact h (j + 1) u hu
    · rintro ⟨h0, h⟩ j u hu
      rcases j with - | j
      · obtain rfl := Option.some.inj hu
        exact h0
      · rw [← Nat.add_assoc, Nat.add_right_comm]
        exact h j u hu

/-- **The loop**: it goes through if all watches do. -/
theorem watchAll_goes (vs : List CString) (h : InOrder junk s.arg.hashTable)
    (hitems : s.watchedItems = items + UInt64.ofNat s.watched.length)
    (hvs : WatchesGo env s.arg.pathToDir items s.watched.length vs) :
    ∃ s', watchAll env vs s = (s', none) ∧ Went junk items s vs s' := by
  induction vs generalizing s with
  | nil => exact ⟨s, rfl, .nil h, hitems, rfl⟩
  | cons v vs ih =>
    rw [watchesGo_cons] at hvs
    obtain ⟨s₁, he₁, hs₁⟩ := watchAndInsert_goes h hitems fun hp => by
      rw [if_neg hp] at hvs
      exact hvs.1
    have hrest : WatchesGo env s₁.arg.pathToDir items s₁.watched.length vs := by
      rw [hs₁.root, hs₁.watched]
      by_cases hp : v.bytes <+: s.arg.pathToDir.bytes
      · simpa [hp] using hvs
      · rw [if_neg hp] at hvs
        simpa [hp] using hvs.2
    obtain ⟨s₂, he₂, hs₂⟩ := ih hs₁.inOrder hs₁.counted hrest
    refine ⟨s₂, ?_, hs₁.toScanned.trans hs₂.toScanned, hs₂.counted, hs₂.freed.trans hs₁.freed⟩
    rw [watchAll, he₁]
    exact he₂

/-- And if one does not, it ends in a fault. -/
theorem watchAll_stops (vs : List CString) (h : InOrder junk s.arg.hashTable)
    (hitems : s.watchedItems = items + UInt64.ofNat s.watched.length)
    (hvs : ¬ WatchesGo env s.arg.pathToDir items s.watched.length vs) :
    ∃ s' e, watchAll env vs s = (s', some e) := by
  induction vs generalizing s with
  | nil => exact absurd (fun j v hv => by cases hv) hvs
  | cons v vs ih =>
    rw [watchesGo_cons] at hvs
    by_cases hgo : v.bytes <+: s.arg.pathToDir.bytes ∨ WatchGoes env items s.watched.length v
    · -- the fault lies behind the first value
      obtain ⟨s₁, he₁, hs₁⟩ := watchAndInsert_goes h hitems hgo.resolve_left
      have hrest : ¬ WatchesGo env s₁.arg.pathToDir items s₁.watched.length vs := by
        rw [hs₁.root, hs₁.watched]
        by_cases hp : v.bytes <+: s.arg.pathToDir.bytes
        · simpa [hp] using hvs
        · rw [if_neg hp, not_and] at hvs
          simpa [hp] using hvs (hgo.resolve_left hp)
      obtain ⟨s₂, e, he₂⟩ := ih hs₁.inOrder hs₁.counted hrest
      refine ⟨s₂, e, ?_⟩
      rw [watchAll, he₁]
      exact he₂
    · obtain ⟨hp, hstop⟩ := not_or.mp hgo
      obtain ⟨s₁, e, he₁⟩ := watchAndInsert_stops hitems hp hstop
      exact ⟨s₁, e, by rw [watchAll, he₁]⟩

/-! ### The start -/

/-- A walk that delivers something. -/
def Walks (env : ScanEnv) (entries : List FtsEnt) : Prop := env.fts = some ⟨true, entries⟩

/-- A start that does not walk frees `ht_dirs`, and does nothing else. -/
theorem backupCheckFsAndRun_of_not_walks (arg : ThreadArgument)
    (h : ∀ entries, ¬ Walks env entries) (items : UInt64) :
    backupCheckFsAndRun env arg items = (⟨arg, 1, [], items, []⟩,
      .ok (if env.fts = none then HELPERS_INVALID_EXIT else HELPERS_NORMAL_EXIT)) := by
  obtain ⟨d₀, hd₀⟩ := exists_hashTableCreate env.junk
  rcases hfts : env.fts with - | ⟨- | -, entries⟩
  · rw [backupCheckFsAndRun, hd₀, hfts]
    rfl
  · rw [backupCheckFsAndRun, hd₀, hfts]
    rfl
  · exact absurd hfts (h entries)

/-- **A start that walks**: the walk stores the files, and the loop goes over
what it reads from the slots. -/
theorem backupCheckFsAndRun_eq (arg : ThreadArgument) (h : InOrder junk arg.hashTable)
    {entries : List FtsEnt} (hfts : Walks env entries) (items : UInt64) :
    ∃ t, Added junk arg.hashTable.strings arg.hashTable.brk
        (pathsOf .FTS_F (walked env.running 0 entries)) t ∧
      backupCheckFsAndRun env arg items =
        match watchAll env (loopReads env entries) ⟨{ arg with hashTable := t }, 0, [], items, []⟩
          with
        | (s, some e) => (s, .error e)
        | (s, none) => (s.freeAndExit, .ok HELPERS_NORMAL_EXIT) := by
  obtain ⟨d₀, hd₀⟩ := exists_hashTableCreate env.junk
  obtain ⟨t, htDirs, hread, ht, hdirs⟩ := readEntries_rule (s := ⟨arg, 0, [], items, []⟩)
    (eachInsert_added junk _ _) (eachInsert_placed env.junk) 0 entries (added_of_inOrder h)
    (placed_create hd₀)
  have hrange : ∀ i ∈ List.range htDirs.size, i < 10000 := fun i hi =>
    hdirs.counted.size ▸ List.mem_range.mp hi
  have hloop : ∀ s, forSlots env htDirs (List.range htDirs.size) s =
      watchAll env (loopReads env entries) s := by
    intro s
    by_cases hopen : 0 < env.inotifyFd
    · have hreads : slotValues env htDirs (List.range htDirs.size) = loopReads env entries :=
        hdirs.slotValues_eq.trans (if_pos hopen).symm
      rw [forSlots_eq hdirs.chained hdirs.counted.size hopen _ hrange, hreads]
    · have hnone : loopReads env entries = [] := if_neg hopen
      rw [forSlots_closed hdirs.counted.size hopen _ hrange, hnone]
      rfl
  refine ⟨t, ht, ?_⟩
  rw [Walks] at hfts
  rcases hall : watchAll env (loopReads env entries)
    ⟨{ arg with hashTable := t }, 0, [], items, []⟩ with ⟨s, - | e⟩
  · simp only [backupCheckFsAndRun, hd₀, hfts, if_true, hread, hloop, hall]
  · simp only [backupCheckFsAndRun, hd₀, hfts, if_true, hread, hloop, hall]

/-- **What a start that returns leaves** in the handler's table: what was
there, or, added to it, the files of the walk and then the values of the
slots. -/
theorem strings_of_ok (arg : ThreadArgument) {rc : ℤ} (h : InOrder junk arg.hashTable)
    (hrun : backupCheckFsAndRun env arg items = (s, .ok rc)) :
    InOrder junk s.arg.hashTable ∧ (s.arg.hashTable.strings = arg.hashTable.strings ∨
      ∃ entries, Walks env entries ∧ s.arg.hashTable.strings =
        (policy 10000 junk).addAll ((policy 10000 junk).addAll arg.hashTable.strings
          (pathsOf .FTS_F (walked env.running 0 entries))) (loopReads env entries)) := by
  by_cases hwalks : ∃ entries, Walks env entries
  · obtain ⟨entries, hfts⟩ := hwalks
    obtain ⟨t, ht, heq⟩ := backupCheckFsAndRun_eq arg h hfts items
    have hitems := (UInt64.add_zero items).symm
    -- a watch that fails would have ended the start
    have hgo : WatchesGo env arg.pathToDir items 0 (loopReads env entries) := by
      by_contra hno
      obtain ⟨s', e, hs'⟩ := watchAll_stops (s := ⟨{ arg with hashTable := t }, 0, [], items, []⟩)
        (loopReads env entries) ht.inOrder hitems hno
      rw [hs', hrun] at heq
      cases heq
    obtain ⟨s', hs', hwent⟩ := watchAll_goes (s := ⟨{ arg with hashTable := t }, 0, [], items, []⟩)
      (loopReads env entries) ht.inOrder hitems hgo
    rw [hs', hrun] at heq
    obtain ⟨rfl, -⟩ := Prod.mk.inj heq
    refine ⟨hwent.inOrder, .inr ⟨entries, hfts, ?_⟩⟩
    show s'.arg.hashTable.strings = _
    rw [hwent.strings]
    show (policy 10000 junk).addAll t.strings _ = _
    rw [ht.strings]
  · rw [backupCheckFsAndRun_of_not_walks arg (not_exists.mp hwalks)] at hrun
    obtain ⟨rfl, -⟩ := Prod.mk.inj hrun
    exact ⟨h, .inl rfl⟩

theorem noWatchFails_iff {root : CString} {entries : List FtsEnt}
    (hfts : Walks env entries) :
    NoWatchFails env root items ↔ WatchesGo env root items 0 (loopReads env entries) := by
  unfold NoWatchFails WatchesGo watchTargets
  rw [Walks] at hfts
  simp only [hfts, Option.some.injEq, forall_eq', true_implies, Nat.zero_add]

/-- A start whose watches all go through cleans up. -/
theorem NoWatchFails.cleansUp {arg : ThreadArgument} (h : InOrder junk arg.hashTable)
    (hgo : NoWatchFails env arg.pathToDir items) : CleansUp env arg items := by
  by_cases hwalks : ∃ entries, Walks env entries
  · obtain ⟨entries, hfts⟩ := hwalks
    obtain ⟨t, ht, hrun⟩ := backupCheckFsAndRun_eq arg h hfts items
    rw [noWatchFails_iff hfts] at hgo
    obtain ⟨s, hs, hwent⟩ := watchAll_goes (s := ⟨{ arg with hashTable := t }, 0, [], items, []⟩)
      (loopReads env entries) ht.inOrder (UInt64.add_zero items).symm hgo
    rw [hs] at hrun
    have hadd : ∀ n v, s.watched[n]? = some v → ¬ (env.addWatch n v).toInt < 0 := by
      intro n v hv
      rw [hwent.watched] at hv
      have hgoes := (hgo n v hv).added
      rw [Nat.zero_add] at hgoes
      exact Int.not_lt.mpr hgoes
    refine ⟨s.freeAndExit, _, hrun, ?_, fun n v hv hlt => absurd hlt (hadd n v hv), ?_⟩
    · show s.freed + 1 = 1
      rw [hwent.freed]
    · refine iff_of_false (by decide) ?_
      rintro (hno | ⟨n, v, hv, hlt⟩)
      · cases hno.symm.trans hfts
      · exact hadd n v hv hlt
  · refine ⟨_, _, backupCheckFsAndRun_of_not_walks arg (not_exists.mp hwalks) items, rfl,
      fun n v hv _ => (by cases hv), ?_⟩
    -- no watch was tried, so the code tells of the walk
    split
    · next hno => exact iff_of_true rfl (.inl hno)
    · next hno =>
      refine iff_of_false (by decide) ?_
      rintro (he | ⟨n, v, hv, -⟩)
      · exact hno he
      · cases hv

/-- A start with a watch that fails does not. -/
theorem CleansUp.noWatchFails {arg : ThreadArgument} (h : InOrder junk arg.hashTable)
    (hclean : CleansUp env arg items) : NoWatchFails env arg.pathToDir items := by
  by_contra hno
  obtain ⟨s, rc, hrun, -⟩ := hclean
  obtain ⟨⟨children, entries⟩, hfts, rfl⟩ : ∃ fts, env.fts = some fts ∧ fts.children = true := by
    by_contra hwalks
    exact hno fun fts he hch => absurd ⟨fts, he, hch⟩ hwalks
  obtain ⟨t, ht, heq⟩ := backupCheckFsAndRun_eq arg h hfts items
  rw [noWatchFails_iff hfts] at hno
  obtain ⟨s', e, hs'⟩ := watchAll_stops (s := ⟨{ arg with hashTable := t }, 0, [], items, []⟩)
    (loopReads env entries) ht.inOrder (UInt64.add_zero items).symm hno
  rw [hs', hrun] at heq
  cases heq

/-- **Exactly when a start cleans up**: when no watch fails. -/
theorem cleansUp_iff {arg : ThreadArgument} (h : Reachable HASH_TABLE_MAX junk arg.hashTable)
    (env : ScanEnv) (items : UInt64) :
    CleansUp env arg items ↔ NoWatchFails env arg.pathToDir items := by
  have hin : InOrder junk arg.hashTable := h.chained
  exact ⟨fun hclean => hclean.noWatchFails hin, fun hgo => hgo.cleansUp hin⟩

/-- Inotify refuses every watch. -/
def refusingEnv (tree : Tree) : ScanEnv := { quietEnv tree with addWatch := fun _ _ => -1 }

theorem cleansUp_iff_nested :
    ∃ t₀, hashTableCreate HASH_TABLE_MAX 0 = some t₀ ∧
      (CleansUp (refusingEnv nested) ⟨nested.root, t₀⟩ 0 ↔
        NoWatchFails (refusingEnv nested) nested.root 0) := by
  obtain ⟨t₀, hcreate⟩ := exists_hashTableCreate 0
  exact ⟨t₀, hcreate, cleansUp_iff ⟨t₀, [], hcreate, rfl⟩ _ 0⟩

/-- The watch of "/w/ab" fails, and the loop goes on with a table that is
freed. -/
theorem not_cleansUp_nested :
    ¬ ∀ (env : ScanEnv) (arg : ThreadArgument) (items : UInt64) (junk : BitVec 32),
      Reachable HASH_TABLE_MAX junk arg.hashTable → CleansUp env arg items := by
  intro hall
  obtain ⟨t₀, hcreate⟩ := exists_hashTableCreate 0
  have hin : InOrder 0 t₀ := (inOrder_create hcreate).1
  have hgo := (hall (refusingEnv nested) ⟨nested.root, t₀⟩ 0 0 ⟨t₀, [], hcreate, rfl⟩).noWatchFails
    hin
  -- the directory is kept, so its slot is read and its watch is tried
  have hread : pathIn nested.root nameAb.str ∈ loopReads (refusingEnv nested) nested.visit := by
    apply List.mem_filterMap.mpr
    exact ⟨(hashKeyGenerator (pathIn nested.root nameAb.str)).toNat,
      List.mem_range.mpr (hashKeyGenerator_lt _), by decide⟩
  have htarget : pathIn nested.root nameAb.str ∈
      watchTargets (refusingEnv nested) nested.root nested.visit :=
    List.mem_filter.mpr ⟨hread, by decide⟩
  obtain ⟨n, hn⟩ := List.getElem?_of_mem htarget
  have hadd : 0 ≤ (-1 : Int32).toInt := (hgo ⟨true, nested.visit⟩ rfl rfl n _ hn).added
  exact absurd hadd (by decide)

end SecuritySystem.Backup

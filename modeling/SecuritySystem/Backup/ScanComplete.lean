/-
SecuritySystem/Backup/ScanComplete.lean

Which directories a start leaves unwatched or unknown.

A start is complete if it watches each directory below the root once and
stores each directory; `scanComplete_iff` says which trees, and which memory,
allow that.

If each directory is to end up in the handler's table, the values read from
the slots must be the paths of the directories in some order.  Each value
begins with the string stored in its block, and a sum over the lengths leaves
no block that reads as more than its string (`eq_of_forall_prefix`).  So the
blocks must be terminated, all directories must be in `ht_dirs`, and no file
may be in their slots.
-/
import SecuritySystem.HashTableSafety
import SecuritySystem.Backup.ScanSafety
import Mathlib.Algebra.Order.BigOperators.Group.List

namespace SecuritySystem.Backup

open CMem CString FileTree

variable {env : ScanEnv} {tree : Tree} {t₀ htDirs : HashTable} {l : List Addr}
variable {junk : BitVec 32}

/-! ### Reading the blocks -/

theorem eq_of_sum_eq {α : Type} {l : List α} {φ ψ : α → ℕ} (hle : ∀ a ∈ l, φ a ≤ ψ a)
    (hsum : (l.map φ).sum = (l.map ψ).sum) : ∀ a ∈ l, φ a = ψ a := by
  induction l with
  | nil => exact fun a ha => absurd ha List.not_mem_nil
  | cons b l ih =>
    obtain ⟨hb, hl⟩ := List.forall_mem_cons.mp hle
    have htail : (l.map φ).sum ≤ (l.map ψ).sum := List.sum_le_sum hl
    rw [List.map_cons, List.sum_cons, List.map_cons, List.sum_cons] at hsum
    exact List.forall_mem_cons.mpr ⟨by omega, ih hl (by omega)⟩

/-- If strings are extended one by one and the same strings come out, none was
extended. -/
theorem eq_of_forall_prefix {α : Type} {l : List α} {f g : α → CString}
    (hpre : ∀ a ∈ l, (f a).bytes <+: (g a).bytes) (hperm : (l.map f).Perm (l.map g)) :
    ∀ a ∈ l, f a = g a := by
  have hlen : ∀ a ∈ l, (f a).strlen = (g a).strlen := by
    apply eq_of_sum_eq fun a ha => (hpre a ha).length_le
    have hsum := (hperm.map CString.strlen).sum_eq
    rwa [List.map_map, List.map_map] at hsum
  intro a ha
  exact CString.ext ((hpre a ha).eq_of_length (hlen a ha))

/-- Terminated blocks are read as the strings stored in them. -/
theorem perm_of_terminated (h : Chained htDirs l) (hb : ∀ a ∈ l, (env.behind a).headD 0 = 0) :
    (slotValues env htDirs (List.range htDirs.size)).Perm htDirs.strings := by
  have hread : slotValues env htDirs (List.range htDirs.size) =
      (hashTableFree htDirs).map fun a => ofMem (htDirs.blockOf a) := by
    apply List.map_congr_left
    intro a ha
    have hal := h.perm_free.mem_iff.mp ha
    obtain ⟨v, hv, -⟩ := h.stored a hal
    rw [hv.blockOf_eq, ofMem_bytes_append v (hb a hal), ofMem_bytes]
  rw [hread]
  exact h.map_free

/-- If the values read are the stored strings, the blocks are terminated. -/
theorem terminated_of_perm (h : Chained htDirs l)
    (hperm : (slotValues env htDirs (List.range htDirs.size)).Perm htDirs.strings) :
    ∀ a ∈ l, (env.behind a).headD 0 = 0 := by
  have hmap : ((hashTableFree htDirs).map fun a => ofMem (htDirs.blockOf a)).Perm
      (slotValues env htDirs (List.range htDirs.size)) := h.map_free.trans hperm.symm
  have hpre : ∀ a ∈ hashTableFree htDirs,
      (ofMem (htDirs.blockOf a)).bytes <+: (ofMem (htDirs.blockOf a ++ env.behind a)).bytes := by
    intro a ha
    obtain ⟨v, hv, -⟩ := h.stored a (h.perm_free.mem_iff.mp ha)
    rw [hv.blockOf_eq, ofMem_bytes, bytes_ofMem_append]
    exact List.prefix_append _ _
  intro a ha
  obtain ⟨v, hv, -⟩ := h.stored a ha
  have heq := eq_of_forall_prefix hpre hmap a (h.perm_free.mem_iff.mpr ha)
  rw [hv.blockOf_eq, ofMem_bytes] at heq
  exact ofMem_bytes_append_iff.mp heq.symm

/-- `n` items that were allocated with at most `n` blocks have the first `n`
addresses. -/
theorem mem_iff_lt (h : Chained htDirs l) {n : ℕ} (hlen : l.length = n) (hbrk : htDirs.brk ≤ n)
    (a : Addr) : a ∈ l ↔ a < n := by
  have hsub : l.toFinset ⊆ Finset.range n := fun b hb =>
    Finset.mem_range.mpr ((h.below b (List.mem_toFinset.mp hb)).trans_le hbrk)
  have heq : l.toFinset = Finset.range n := by
    apply Finset.eq_of_subset_of_card_le hsub
    rw [Finset.card_range, List.toFinset_card_of_nodup h.follows.nodup, hlen]
  rw [← List.mem_toFinset, heq, Finset.mem_range]

/-! ### What fits -/

/-- `count`, starting at `junk`, is not the size of the table before `n`
strings are stored. -/
def Room (junk : BitVec 32) (n : ℕ) : Prop :=
  ∀ j < n, junk + BitVec.ofNat 32 j ≠ BitVec.ofNat 32 10000

/-- Different directories have different keys. -/
def Apart (tree : Tree) : Prop :=
  ∀ d ∈ tree.dirs, ∀ e ∈ tree.dirs, hashKeyGenerator d = hashKeyGenerator e → d = e

/-- The keys that the files take. -/
def fileKeys (tree : Tree) : Finset UInt32 :=
  ((tree.files.filter fun f => Storable f).map hashKeyGenerator).toFinset

/-- The tree fits the tables: each directory has a string and a key that are
accepted, and the key is that of no other directory and of no file; both
tables have room; and the blocks of the directories are terminated. -/
structure Fits (env : ScanEnv) (junk : BitVec 32) (tree : Tree) : Prop where
  storable : ∀ d ∈ tree.dirs, Storable d
  apart : Apart tree
  notFile : ∀ d ∈ tree.dirs, hashKeyGenerator d ∉ fileKeys tree
  roomDirs : Room env.junk tree.dirs.length
  roomArg : Room junk ((fileKeys tree).card + tree.dirs.length)
  terminated : ∀ a < tree.dirs.length, (env.behind a).headD 0 = 0

theorem room_iff {n : ℕ} :
    (policy 10000 junk).room n = true ↔ junk + BitVec.ofNat 32 n ≠ BitVec.ofNat 32 10000 :=
  decide_eq_true_iff

theorem ok_iff {v : CString} : (policy 10000 junk).ok v = true ↔ Storable v := decide_eq_true_iff

/-- `ht_dirs` holds directories, each one once. -/
theorem nodup_htDirs : ((policy 10000 junk).addAll [] tree.dirs).Nodup := by
  have hnil : (([] : List CString).map (policy 10000 junk).key).Nodup := List.nodup_nil
  exact (FirstCome.nodup_addAll hnil tree.dirs).of_map

theorem htDirs_subset : (policy 10000 junk).addAll [] tree.dirs ⊆ tree.dirs := fun _ hv =>
  ((FirstCome.mem_addAll hv).resolve_left List.not_mem_nil).1

/-- When all directories are in `ht_dirs`. -/
theorem forall_mem_htDirs_iff :
    (∀ d ∈ tree.dirs, d ∈ (policy 10000 junk).addAll [] tree.dirs) ↔
      (∀ d ∈ tree.dirs, Storable d) ∧ Apart tree ∧ Room junk tree.dirs.length := by
  have hcard : (tree.dirs.toFinset \ List.toFinset []).card = tree.dirs.length := by
    rw [List.toFinset_nil, Finset.sdiff_empty, List.toFinset_card_of_nodup tree.nodup_dirs]
  have hnil : (([] : List CString).map (policy 10000 junk).key).Nodup := List.nodup_nil
  have hzero : ([] : List CString).length + tree.dirs.length = tree.dirs.length := Nat.zero_add _
  rw [FirstCome.forall_mem_addAll_iff hnil]
  constructor
  · rintro ⟨hok, -, hkey, hroom⟩
    rw [hcard, hzero] at hroom
    exact ⟨fun d hd => ok_iff.mp (hok d hd List.not_mem_nil), hkey,
      fun j hj => room_iff.mp (hroom j (Nat.zero_le j) hj)⟩
  · rintro ⟨hok, hkey, hroom⟩
    exact ⟨fun d hd _ => ok_iff.mpr (hok d hd), fun u hu => absurd hu List.not_mem_nil, hkey,
      fun j _ hj => room_iff.mpr (hroom j (by rwa [hcard, hzero] at hj))⟩

/-- What the walk leaves in the handler's table: files. -/
theorem mem_files_of_mem_addAll {u : CString}
    (hu : u ∈ (policy 10000 junk).addAll [] tree.files) : u ∈ tree.files ∧ Storable u := by
  obtain ⟨hf, hok⟩ := (FirstCome.mem_addAll hu).resolve_left List.not_mem_nil
  exact ⟨hf, ok_iff.mp hok⟩

theorem key_mem_fileKeys {u : CString} (hu : u ∈ (policy 10000 junk).addAll [] tree.files) :
    hashKeyGenerator u ∈ fileKeys tree := by
  obtain ⟨hf, hok⟩ := mem_files_of_mem_addAll hu
  apply List.mem_toFinset.mpr
  exact List.mem_map_of_mem (List.mem_filter.mpr ⟨hf, decide_eq_true hok⟩)

/-- A file's key is taken by some file, unless the table is full. -/
theorem exists_key_of_mem_fileKeys {k : UInt32} (hk : k ∈ fileKeys tree) :
    (policy 10000 junk).room ((policy 10000 junk).addAll [] tree.files).length = false ∨
      ∃ u ∈ (policy 10000 junk).addAll [] tree.files, hashKeyGenerator u = k := by
  obtain ⟨f, hf, rfl⟩ := List.mem_map.mp (List.mem_toFinset.mp hk)
  obtain ⟨hf, hok⟩ := List.mem_filter.mp hf
  by_cases hfree : (policy 10000 junk).free ((policy 10000 junk).addAll [] tree.files) f = true
  · exact .inl (FirstCome.full_of_missing hf hok hfree)
  · rw [FirstCome.free_iff] at hfree
    push Not at hfree
    exact .inr hfree

/-- When the directories, in some order, get into the table behind the files. -/
theorem forall_mem_arg_iff {vals : List CString} (hvals : ∀ v, v ∈ vals ↔ v ∈ tree.dirs) :
    (∀ v ∈ vals, v ∈ (policy 10000 junk).addAll ((policy 10000 junk).addAll [] tree.files) vals) ↔
      (∀ d ∈ tree.dirs, Storable d) ∧ Apart tree ∧
      (∀ d ∈ tree.dirs, hashKeyGenerator d ∉ fileKeys tree) ∧
      Room junk ((fileKeys tree).card + tree.dirs.length) := by
  have hlen := FirstCome.length_addAll_nil (P := policy 10000 junk) tree.files
  have hnd := FirstCome.nodup_addAll (P := policy 10000 junk) (l := []) List.nodup_nil tree.files
  have hkeys : ∀ u ∈ (policy 10000 junk).addAll [] tree.files,
      hashKeyGenerator u ∈ fileKeys tree := fun u hu => key_mem_fileKeys hu
  have hfile : ∀ u ∈ (policy 10000 junk).addAll [] tree.files, u ∉ tree.dirs :=
    fun u hu hd => tree.not_mem_files hd (mem_files_of_mem_addAll hu).1
  have hexists : ∀ k ∈ fileKeys tree,
      (policy 10000 junk).room ((policy 10000 junk).addAll [] tree.files).length = false ∨
        ∃ u ∈ (policy 10000 junk).addAll [] tree.files, hashKeyGenerator u = k :=
    fun k hk => exists_key_of_mem_fileKeys hk
  have hwanted : (policy 10000 junk).wanted tree.files = fileKeys tree := rfl
  rw [hwanted] at hlen
  rw [FirstCome.forall_mem_addAll_iff hnd]
  generalize (policy 10000 junk).addAll [] tree.files = files at hlen hnd hkeys hfile hexists ⊢
  -- none of the directories is there before, so each one needs a place
  have hcard : (vals.toFinset \ files.toFinset).card = tree.dirs.length := by
    rw [← List.toFinset_card_of_nodup tree.nodup_dirs]
    congr 1
    ext v
    simp only [Finset.mem_sdiff, List.mem_toFinset, hvals]
    exact ⟨fun h => h.1, fun h => ⟨h, fun hf => hfile v hf h⟩⟩
  have hpos : 0 < tree.dirs.length := Nat.succ_pos _
  constructor
  · rintro ⟨hok, hold, hnew, hroom⟩
    simp only [hvals] at hok hold hnew
    rw [hcard] at hroom
    have hfull : (policy 10000 junk).room files.length = true :=
      hroom files.length le_rfl (Nat.lt_add_of_pos_right hpos)
    refine ⟨fun d hd => ok_iff.mp (hok d hd fun hf => hfile d hf hd), hnew, fun d hd hk => ?_,
      fun j hj => ?_⟩
    · rcases hexists _ hk with hno | ⟨u, hu, huk⟩
      · exact absurd (hno.symm.trans hfull) (by decide)
      · exact hfile u hu (hold u hu d hd huk ▸ hd)
    · rcases hlen with ⟨hbelow, heq⟩ | ⟨hno, -⟩
      · -- the files find room up to the number of their keys, the directories behind
        by_cases hj' : j < (fileKeys tree).card
        · exact room_iff.mp (hbelow j hj')
        · exact room_iff.mp (hroom j (by omega) (by omega))
      · exact absurd (hno.symm.trans hfull) (by decide)
  · rintro ⟨hok, hnew, hno, hroom⟩
    have heq : files.length = (fileKeys tree).card := by
      rcases hlen with ⟨-, heq⟩ | ⟨hfull, hlt⟩
      · exact heq
      · have hrm := room_iff.mpr (hroom files.length (by omega))
        exact absurd (hfull.symm.trans hrm) (by decide)
    refine ⟨?_, ?_, ?_, ?_⟩
    · exact fun d hd _ => ok_iff.mpr (hok d ((hvals d).mp hd))
    · intro u hu d hd hk
      have hkd : hashKeyGenerator u = hashKeyGenerator d := hk
      exact absurd (hkd ▸ hkeys u hu) (hno d ((hvals d).mp hd))
    · exact fun u hu v hv => hnew u ((hvals u).mp hu) v ((hvals v).mp hv)
    · intro j _ hj
      rw [hcard, heq] at hj
      exact room_iff.mpr (hroom j hj)

/-! ### A start -/

/-- Nothing disturbs the start: the walk delivers the tree, the service is not
stopped, and inotify takes every watch. -/
structure Undisturbed (env : ScanEnv) (tree : Tree) : Prop extends Watching env where
  fts : env.fts = some ⟨true, tree.visit⟩
  running : ∀ k, env.running k = true

/-- **A start, end to end.** -/
theorem backupCheckFsAndRun_cases (h : Undisturbed env tree)
    (hcreate : hashTableCreate HASH_TABLE_MAX junk = some t₀) (watchedItems : UInt64) :
    ∃ htDirs l, Chained htDirs l ∧
      htDirs.strings = (policy 10000 env.junk).addAll [] tree.dirs ∧
      htDirs.brk ≤ tree.dirs.length ∧
      ((∃ s e, backupCheckFsAndRun env ⟨tree.root, t₀⟩ watchedItems = (s, .error e) ∧
          ∃ v ∈ slotValues env htDirs (List.range htDirs.size), HASH_ITEM_MAX_SIZE_STR < v.strlen) ∨
        ∃ s, backupCheckFsAndRun env ⟨tree.root, t₀⟩ watchedItems = (s, .ok HELPERS_NORMAL_EXIT) ∧
          s.arg.hashTable.strings = (policy 10000 junk).addAll
            ((policy 10000 junk).addAll [] tree.files)
            (slotValues env htDirs (List.range htDirs.size)) ∧
          s.watched = (slotValues env htDirs (List.range htDirs.size)).filter
            fun v => ¬ v.bytes <+: tree.root.bytes) := by
  obtain ⟨d₀, hd₀⟩ := exists_hashTableCreate env.junk
  obtain ⟨hA, hA₀⟩ := inOrder_create hcreate
  obtain ⟨hD, hD₀⟩ := inOrder_create hd₀
  have hbrk₀ : d₀.brk = 0 := by
    obtain rfl := Option.some.inj ((if_neg (by decide)).symm.trans hd₀ : some _ = some d₀)
    rfl
  -- the walk fills both tables
  obtain ⟨t, htDirs, hread, ⟨ht, hts, -⟩, ⟨⟨l, hl, hc⟩, hds, hbrk⟩⟩ := readEntries_run env
    (s := ⟨⟨tree.root, t₀⟩, 0, [], watchedItems, []⟩) 0 tree.visit hA hD
  rw [walked_of_running h.running, tree.pathsOf_visit_files] at hts
  rw [walked_of_running h.running, tree.pathsOf_visit_dirs] at hds hbrk
  rw [hbrk₀, Nat.zero_add] at hbrk
  refine ⟨htDirs, l, hl, hD₀ ▸ hds, hbrk, ?_⟩
  -- the loop goes over the slots of `ht_dirs`
  have hrange : ∀ i ∈ List.range htDirs.size, i < 10000 := fun i hi =>
    hc.size ▸ List.mem_range.mp hi
  have hloop := forSlots_eq (s := ⟨⟨tree.root, t⟩, 0, [], watchedItems, []⟩) hl hc.size h.opened
    (List.range htDirs.size) hrange
  rcases watchAll_cases (s := ⟨⟨tree.root, t⟩, 0, [], watchedItems, []⟩) h.toWatching
    (slotValues env htDirs (List.range htDirs.size)) ht with ⟨s, e, he, hlong⟩ | ⟨s, he, hs⟩
  · refine .inl ⟨s, e, ?_, hlong⟩
    rw [backupCheckFsAndRun, hd₀, h.fts]
    simp only [if_true, hread, hloop, he]
  · refine .inr ⟨s.freeAndExit, ?_, ?_, hs.watched⟩
    · rw [backupCheckFsAndRun, hd₀, h.fts]
      simp only [if_true, hread, hloop, he]
    show s.arg.hashTable.strings = _
    rw [hs.strings]
    show FirstCome.Policy.addAll _ t.strings _ = _
    rw [hts]
    show FirstCome.Policy.addAll _ (FirstCome.Policy.addAll _ t₀.strings _) _ = _
    rw [hA₀]

/-- The start ends, with each directory below the root watched once and each
directory stored. -/
def ScanComplete (env : ScanEnv) (tree : Tree) (t₀ : HashTable) (watchedItems : UInt64) : Prop :=
  ∃ s rc, backupCheckFsAndRun env ⟨tree.root, t₀⟩ watchedItems = (s, .ok rc) ∧
    (∀ d ∈ tree.subdirs, s.watched.count d = 1) ∧
    ∀ d ∈ tree.dirs, d ∈ s.arg.hashTable.strings

/-- If every directory is stored, the tree fits. -/
theorem ScanComplete.fits (h : Undisturbed env tree)
    (hcreate : hashTableCreate HASH_TABLE_MAX junk = some t₀) {watchedItems : UInt64}
    (hc : ScanComplete env tree t₀ watchedItems) : Fits env junk tree := by
  obtain ⟨s, rc, hrun, -, hknown⟩ := hc
  obtain ⟨htDirs, l, hl, hds, hbrk, hend⟩ := backupCheckFsAndRun_cases h hcreate watchedItems
  generalize hvals : slotValues env htDirs (List.range htDirs.size) = vals at hend
  obtain ⟨s', hrun', hstrings, -⟩ : ∃ s', backupCheckFsAndRun env ⟨tree.root, t₀⟩ watchedItems =
      (s', .ok HELPERS_NORMAL_EXIT) ∧ s'.arg.hashTable.strings = (policy 10000 junk).addAll
        ((policy 10000 junk).addAll [] tree.files) vals ∧ True := by
    rcases hend with ⟨s', e, he, -⟩ | ⟨s', he, hs, -⟩
    · rw [hrun] at he
      cases he
    · exact ⟨s', he, hs, trivial⟩
  obtain rfl : s = s' := congrArg Prod.fst (hrun.symm.trans hrun')
  -- each directory comes from a slot, and there are no more slots taken than directories
  have hsub : tree.dirs ⊆ vals := by
    intro d hd
    have hd' := hknown d hd
    rw [hstrings] at hd'
    rcases FirstCome.mem_addAll hd' with hf | ⟨hv, -⟩
    · exact absurd (mem_files_of_mem_addAll hf).1 (tree.not_mem_files hd)
    · exact hv
  have hnd : htDirs.strings.Nodup := hds ▸ nodup_htDirs
  have hstored : htDirs.strings ⊆ tree.dirs := hds ▸ htDirs_subset
  have hcount : vals.length = htDirs.strings.length := by
    rw [← hvals, hl.strings_eq, List.length_map]
    exact (List.length_map _).trans hl.perm_free.length_eq
  have hle : htDirs.strings.length ≤ tree.dirs.length :=
    (hnd.subperm hstored).length_le
  have hdv : tree.dirs.Perm vals :=
    (tree.nodup_dirs.subperm hsub).perm_of_length_le (hcount.trans_le hle)
  have hsd : htDirs.strings.Perm tree.dirs :=
    (hnd.subperm hstored).perm_of_length_le (by rw [← hcount, hdv.length_eq])
  have hterm := terminated_of_perm hl (hvals ▸ (hsd.trans hdv).symm)
  have hlen : l.length = tree.dirs.length := hl.length_strings.symm.trans hsd.length_eq
  obtain ⟨hok, hapart, hroom⟩ := forall_mem_htDirs_iff.mp fun d hd =>
    hds ▸ hsd.mem_iff.mpr hd
  obtain ⟨-, -, hno, hroomArg⟩ := (forall_mem_arg_iff fun v => hdv.symm.mem_iff).mp fun v hv =>
    hstrings ▸ hknown v (hdv.mem_iff.mpr hv)
  exact ⟨hok, hapart, hno, hroom, hroomArg,
    fun a ha => hterm a ((mem_iff_lt hl hlen hbrk a).mpr ha)⟩

/-- If the tree fits, every directory is watched and stored. -/
theorem Fits.scanComplete (h : Undisturbed env tree)
    (hcreate : hashTableCreate HASH_TABLE_MAX junk = some t₀) (watchedItems : UInt64)
    (hfit : Fits env junk tree) : ScanComplete env tree t₀ watchedItems := by
  obtain ⟨htDirs, l, hl, hds, hbrk, hend⟩ := backupCheckFsAndRun_cases h hcreate watchedItems
  -- `ht_dirs` holds all directories, each in a terminated block, so all are read
  have hall := forall_mem_htDirs_iff.mpr ⟨hfit.storable, hfit.apart, hfit.roomDirs⟩
  have hsd : htDirs.strings.Perm tree.dirs := by
    rw [hds]
    exact (List.perm_ext_iff_of_nodup nodup_htDirs tree.nodup_dirs).mpr fun v =>
      ⟨fun hv => htDirs_subset hv, hall v⟩
  have hlen : l.length = tree.dirs.length := hl.length_strings.symm.trans hsd.length_eq
  have hperm := (perm_of_terminated hl fun a ha =>
    hfit.terminated a ((mem_iff_lt hl hlen hbrk a).mp ha)).trans hsd
  generalize slotValues env htDirs (List.range htDirs.size) = vals at hend hperm
  rcases hend with ⟨s, e, -, v, hv, hlong⟩ | ⟨s, hrun, hstrings, hwatched⟩
  · exact absurd (hfit.storable v (hperm.mem_iff.mp hv)).2 (Nat.not_le_of_lt hlong)
  · refine ⟨s, _, hrun, fun d hd => ?_, fun d hd => ?_⟩
    · have hnp : ¬ d.bytes <+: tree.root.bytes := fun hp =>
        Nat.not_le_of_lt (tree.strlen_root_lt hd) hp.length_le
      rw [hwatched, List.count_filter (by simp [hnp])]
      exact List.count_eq_one_of_mem (hperm.nodup_iff.mpr tree.nodup_dirs)
        (hperm.mem_iff.mpr (List.mem_cons_of_mem _ hd))
    · rw [hstrings]
      exact (forall_mem_arg_iff fun v => hperm.mem_iff).mpr ⟨hfit.storable, hfit.apart,
        hfit.notFile, hfit.roomArg⟩ d (hperm.mem_iff.mpr hd)

/-- **Exactly when a start is complete**: when the tree fits. -/
theorem scanComplete_iff (h : Undisturbed env tree)
    (hcreate : hashTableCreate HASH_TABLE_MAX junk = some t₀) (watchedItems : UInt64) :
    ScanComplete env tree t₀ watchedItems ↔ Fits env junk tree :=
  ⟨fun hc => hc.fits h hcreate, fun hfit => hfit.scanComplete h hcreate watchedItems⟩

/-! Surroundings in which nothing goes wrong, a tree that fits, and one that
does not. -/

/-- The walk meets the whole tree, no signal comes, and every watch is added. -/
def quietEnv (tree : Tree) : ScanEnv where
  fts := some ⟨true, tree.visit⟩
  running := fun _ => true
  inotifyFd := 3
  addWatch := fun _ _ => 1
  junk := 0
  besideArg := fun _ => ⟨[], []⟩
  besideDirs := fun _ => ⟨[], []⟩
  behind := fun _ => []

theorem undisturbed_quietEnv (tree : Tree) : Undisturbed (quietEnv tree) tree where
  opened := by show (0 : ℤ) < 3; decide
  added := fun _ _ => by show 0 ≤ (1 : Int32).toInt; decide
  fts := rfl
  running := fun _ => rfl

/-- A name. -/
def nameAb : Name := ⟨lit "ab", by decide, by decide⟩

/-- Its anagram. -/
def nameBa : Name := ⟨lit "ba", by decide, by decide⟩

/-- "/w" with the directory "ab", and in it the file "ba". -/
def nested : Tree where
  root := lit "/w"
  rootNonempty := by decide
  below := .dir nameAb (.file nameBa .nil) .nil
  distinct := ⟨by decide, ⟨by decide, trivial⟩, trivial⟩

theorem fits_nested : Fits (quietEnv nested) 0 nested :=
  ⟨by decide, by unfold Apart; decide, by decide, by unfold Room; decide, by unfold Room; decide,
    fun _ _ => rfl⟩

theorem scanComplete_iff_nested :
    ∃ t₀, hashTableCreate HASH_TABLE_MAX 0 = some t₀ ∧
      ScanComplete (quietEnv nested) nested t₀ 0 := by
  obtain ⟨t₀, hcreate⟩ := exists_hashTableCreate 0
  exact ⟨t₀, hcreate, (scanComplete_iff (undisturbed_quietEnv nested) hcreate 0).mpr fits_nested⟩

/-- "/w" with the directories "ab" and "ba". -/
def anagrams : Tree where
  root := lit "/w"
  rootNonempty := by decide
  below := .dir nameAb .nil (.dir nameBa .nil .nil)
  distinct := ⟨by decide, trivial, by decide, trivial, trivial⟩

/-- The paths "/w/ab" and "/w/ba" have one key, so one of the two is lost. -/
theorem not_scanComplete_anagrams :
    ¬ ∀ (env : ScanEnv) (tree : Tree) (junk : BitVec 32) (t₀ : HashTable) (watchedItems : UInt64),
      Undisturbed env tree → hashTableCreate HASH_TABLE_MAX junk = some t₀ →
      (∀ d ∈ tree.dirs ++ tree.files, d.strlen ≤ HASH_ITEM_MAX_SIZE_STR) →
      ScanComplete env tree t₀ watchedItems := by
  intro hall
  obtain ⟨t₀, hcreate⟩ := exists_hashTableCreate 0
  have hc := hall (quietEnv anagrams) anagrams 0 t₀ 0 (undisturbed_quietEnv anagrams) hcreate
    (by decide)
  have hapart := (hc.fits (undisturbed_quietEnv anagrams) hcreate).apart
  have heq : pathIn anagrams.root nameAb.str = pathIn anagrams.root nameBa.str :=
    hapart _ (by decide) _ (by decide) (by decide)
  exact absurd heq (by decide)

end SecuritySystem.Backup

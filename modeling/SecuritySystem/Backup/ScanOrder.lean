/-
SecuritySystem/Backup/ScanOrder.lean

Files and directories in the handler's table after a start.

Both are strings in one chain.  A start stores the files of the walk first and
what it reads from `ht_dirs` after them, and the chain is newest first, so the
directories stand in front.  A value read from `ht_dirs` may happen to be the
path of a file; but a file that the first filling refused is refused by the
second one as well (`exists_new_not_mem`).

The search of the handler goes along the chain, so when it gets to a file it
has passed all stored directories.
-/
import SecuritySystem.Backup.ScanFree
import SecuritySystem.Backup.HandlerSafety

namespace SecuritySystem.Backup

open CMem CString FileTree

variable {env : ScanEnv} {s : ScanState} {t t₀ : HashTable} {tree : Tree} {l : List Addr}
variable {junk : BitVec 32} {items : UInt64} {rc : ℤ}

/-- Of the stored strings, the directories `dirs` stand in front of the files
`files`, and a search of the handler that gets to a file has passed them
all. -/
structure DirsFirst (dirs files : List CString) (t : HashTable) : Prop where
  order : ∀ pre f post, t.strings = pre ++ f :: post → f ∈ files → ∀ d ∈ post, d ∉ dirs
  search : ∀ (env : Env) (name : CString) (k : ℕ),
    (searchDirectory env name ((chainValues env t).take k)).1 = .absent →
    ∀ f ∈ files, t.strings[k]? = some f → ∀ d ∈ dirs, d ∈ t.strings →
      ∃ j < k, t.strings[j]? = some d ∧
        ∃ v, (chainValues env t)[j]? = some v ∧ Passed env name v

/-! ### The order of the strings -/

theorem sublist_walked (running : ℕ → Bool) (k : ℕ) (ps : List FtsEnt) :
    (walked running k ps).Sublist ps := by
  induction ps generalizing k with
  | nil => exact List.Sublist.refl []
  | cons p ps ih =>
    rw [walked]
    split
    · exact (ih (k + 1)).cons_cons p
    · exact List.nil_sublist _

theorem pathsOf_walked_subset (info : FtsInfo) (running : ℕ → Bool) (ps : List FtsEnt) :
    pathsOf info (walked running 0 ps) ⊆ pathsOf info ps :=
  (((sublist_walked running 0 ps).filter _).map _).subset

/-- In a list whose front holds no file and whose back no directory, no
directory stands behind a file. -/
theorem not_mem_behind {α : Type} {dirs files new old pre post : List α} {f : α}
    (hnew : ∀ u ∈ new, u ∉ files) (hold : ∀ u ∈ old, u ∉ dirs)
    (heq : new ++ old = pre ++ f :: post) (hf : f ∈ files) : ∀ d ∈ post, d ∉ dirs := by
  intro d hd
  rcases List.append_eq_append_iff.mp heq with ⟨mid, rfl, hmid⟩ | ⟨mid, rfl, hmid⟩
  · -- the file is in the back
    apply hold
    rw [hmid]
    exact List.mem_append_right mid (List.mem_cons_of_mem f hd)
  · rcases mid with - | ⟨g, mid⟩
    · rw [List.nil_append] at hmid
      rw [← hmid] at hold
      exact hold d (List.mem_cons_of_mem f hd)
    · obtain ⟨rfl, -⟩ := List.cons.inj hmid
      exact absurd hf (hnew f (List.mem_append_right pre List.mem_cons_self))

/-! ### The search -/

/-- The values that the search reads are those of the chain's items. -/
theorem chainValues_eq_map (h : Chained t l) (env : Env) :
    chainValues env t = l.map fun a => ofMem (t.blockOf a ++ env.beyond a) := by
  rw [chainValues, h.chain_eq, ← List.filterMap_eq_map]
  apply List.filterMap_congr
  intro a ha
  obtain ⟨it, hit⟩ := h.exists_item ha
  rw [hit, Function.comp_apply, HashTable.blockOf, hit]
  rfl

theorem passed_of_absent {env : Env} {name : CString} {chain : List CString}
    (h : (searchDirectory env name chain).1 = .absent) : ∀ v ∈ chain, Passed env name v := by
  rcases searchDirectory_cases env name chain with ⟨_, _, _, _, _, _, he⟩ |
    ⟨_, _, _, _, _, _, he⟩ | ⟨hall, -⟩
  · rw [h] at he
    cases he
  · rw [h] at he
    cases he
  · exact hall

/-- A search sees the order of the strings. -/
theorem dirsFirst_of_order {dirs files : List CString} (h : Chained t l)
    (hdisj : ∀ d ∈ dirs, d ∉ files)
    (horder : ∀ pre f post, t.strings = pre ++ f :: post → f ∈ files → ∀ d ∈ post, d ∉ dirs) :
    DirsFirst dirs files t where
  order := horder
  search := by
    intro env name k habsent f hf hk d hd hstored
    have hlen : (chainValues env t).length = t.strings.length := by
      rw [chainValues_eq_map h, h.strings_eq, List.length_map, List.length_map]
    -- the directory is neither the file nor behind it
    obtain ⟨hlt, hget⟩ := List.getElem?_eq_some_iff.mp hk
    have hsplit : t.strings = t.strings.take k ++ f :: t.strings.drop (k + 1) := by
      rw [← hget, ← List.drop_eq_getElem_cons hlt, List.take_append_drop]
    have hfront : d ∈ t.strings.take k := by
      rw [hsplit] at hstored
      rcases List.mem_append.mp hstored with hpre | hrest
      · exact hpre
      · rcases List.mem_cons.mp hrest with rfl | hpost
        · exact absurd hf (hdisj d hd)
        · exact absurd hd (horder _ f _ hsplit hf d hpost)
    obtain ⟨j, hj⟩ := List.getElem?_of_mem hfront
    have hjk : j < k := by
      by_contra hle
      rw [List.getElem?_take_eq_none (Nat.le_of_not_lt hle)] at hj
      cases hj
    rw [List.getElem?_take_of_lt hjk] at hj
    have hjlen : j < (chainValues env t).length := hlen ▸ hjk.trans hlt
    refine ⟨j, hjk, hj, _, List.getElem?_eq_getElem hjlen, passed_of_absent habsent _ ?_⟩
    exact List.mem_take_iff_getElem.mpr ⟨j, by omega, rfl⟩

/-! ### Directories first -/

theorem mem_of_mem_placed {a : Addr} {vs : List CString} {p : Addr × CString}
    (hp : p ∈ placed a vs) : p.2 ∈ vs := by
  induction vs generalizing a with
  | nil => cases hp
  | cons v vs ih =>
    rcases List.mem_cons.mp hp with rfl | hp
    · exact List.mem_cons_self
    · exact List.mem_cons_of_mem v (ih hp)

/-- What is read from terminated blocks are directories of the walk that were
stored. -/
theorem of_mem_loopReads {entries : List FtsEnt} {v : CString}
    (hb : ∀ a, (env.behind a).headD 0 = 0) (hv : v ∈ loopReads env entries) :
    v ∈ pathsOf .FTS_D (walked env.running 0 entries) ∧ Storable v := by
  unfold loopReads at hv
  split at hv
  · obtain ⟨k, -, hk⟩ := List.mem_filterMap.mp hv
    obtain ⟨p, hp, rfl⟩ := Option.map_eq_some_iff.mp hk
    rw [ofMem_bytes_append p.2 (hb p.1)]
    have hkept := List.mem_of_find?_eq_some hp
    obtain ⟨hplaced, hok⟩ := (FirstCome.mem_addAll hkept).resolve_left List.not_mem_nil
    exact ⟨mem_of_mem_placed hplaced, of_decide_eq_true hok⟩
  · cases hv

/-- **Directories first**, whatever collides: behind a start that returns, the
directories stand in front of the files that the walk delivered, and the search
passes them first.  A file that was not delivered is stored only if the service
was stopped during the walk and a block reads as more than its string. -/
theorem backupCheckFsAndRun_dirsFirst (hcreate : hashTableCreate HASH_TABLE_MAX junk = some t₀)
    (hfts : ∀ fts, env.fts = some fts → fts.entries = tree.visit)
    (hrun : backupCheckFsAndRun env ⟨tree.root, t₀⟩ items = (s, .ok rc)) :
    DirsFirst tree.dirs (pathsOf .FTS_F (walked env.running 0 tree.visit)) s.arg.hashTable ∧
      ((∀ k, env.running k = true) ∨ (∀ a, (env.behind a).headD 0 = 0) →
        ∀ f ∈ s.arg.hashTable.strings, f ∈ tree.files →
          f ∈ pathsOf .FTS_F (walked env.running 0 tree.visit)) := by
  obtain ⟨h₀, hnil⟩ := inOrder_create hcreate
  obtain ⟨⟨l, hl, -⟩, hstrings⟩ := strings_of_ok _ h₀ hrun
  have hfiles : pathsOf .FTS_F (walked env.running 0 tree.visit) ⊆ tree.files := by
    rw [← tree.pathsOf_visit_files]
    exact pathsOf_walked_subset _ _ _
  have hdisj : ∀ d ∈ tree.dirs, d ∉ pathsOf .FTS_F (walked env.running 0 tree.visit) :=
    fun d hd hf => tree.not_mem_files hd (hfiles hf)
  rcases hstrings with hsame | ⟨entries, henv, hs⟩
  · refine ⟨dirsFirst_of_order hl hdisj fun pre f post he => ?_, fun _ f hf => ?_⟩
    · rw [hsame, hnil] at he
      exact absurd he.symm (List.append_ne_nil_of_right_ne_nil pre (List.cons_ne_nil f post))
    · rw [hsame, hnil] at hf
      cases hf
  rw [hnil] at hs
  obtain rfl : entries = tree.visit := hfts _ henv
  -- the second filling puts no file in front, and the first one stored files only
  obtain ⟨new, hnew, hfresh⟩ := FirstCome.exists_new_not_mem (P := policy 10000 junk) []
    (pathsOf .FTS_F (walked env.running 0 tree.visit)) (loopReads env tree.visit)
  have hold : ∀ u ∈ (policy 10000 junk).addAll []
      (pathsOf .FTS_F (walked env.running 0 tree.visit)),
      u ∈ pathsOf .FTS_F (walked env.running 0 tree.visit) := fun u hu =>
    ((FirstCome.mem_addAll hu).resolve_left List.not_mem_nil).1
  rw [hnew] at hs
  constructor
  · refine dirsFirst_of_order hl hdisj fun pre f post he => ?_
    exact not_mem_behind (fun u hu => (hfresh u hu).2) (fun u hu hd => hdisj u hd (hold u hu))
      (hs.symm.trans he)
  · rintro (hgo | hb) f hf htree
    · rwa [walked_of_running hgo, tree.pathsOf_visit_files]
    · rw [hs] at hf
      rcases List.mem_append.mp hf with hf | hf
      · -- a value read from a terminated block is a directory
        have hdir := (of_mem_loopReads hb (hfresh f hf).1).1
        have hd : f ∈ tree.dirs := tree.pathsOf_visit_dirs ▸ pathsOf_walked_subset _ _ _ hdir
        exact absurd htree (tree.not_mem_files hd)
      · exact hold f hf

/-- "/w" with the directory "ab" and a file in it. -/
theorem backupCheckFsAndRun_dirsFirst_nested :
    ∃ t₀ s rc, backupCheckFsAndRun (quietEnv nested) ⟨nested.root, t₀⟩ 0 = (s, .ok rc) ∧
      DirsFirst nested.dirs (pathsOf .FTS_F (walked (fun _ => true) 0 nested.visit))
        s.arg.hashTable := by
  obtain ⟨t₀, hcreate⟩ := exists_hashTableCreate 0
  obtain ⟨s, rc, hrun, -⟩ := fits_nested.scanComplete (undisturbed_quietEnv nested) hcreate 0
  have hfts : ∀ fts, (quietEnv nested).fts = some fts → fts.entries = nested.visit := by
    intro fts h
    obtain rfl := Option.some.inj h
    rfl
  exact ⟨t₀, s, rc, hrun, (backupCheckFsAndRun_dirsFirst hcreate hfts hrun).1⟩

end SecuritySystem.Backup

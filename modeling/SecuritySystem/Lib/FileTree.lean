/-
SecuritySystem/Lib/FileTree.lean

File trees, and the order in which `fts_read` delivers them.

A directory's content is a `Forest`: its entries in directory order, each with
its next sibling, and a subdirectory with its own content.  The path of an
entry is the path of its directory, a slash, and its name; a directory's path
that ends in a slash gets no second one.  `visit` is the sequence of entries of
a physical walk in preorder, where a directory is delivered a second time
behind its content.

Names are not empty and hold no slash, and siblings have different names.  That
makes all paths of a tree different (`nodup_paths`), which is all that a
program which only sees paths can go by.
-/
import SecuritySystem.Lib.CMemory

namespace FileTree

open CMem CString

/-! ### Paths -/

/-- The separator. -/
def slash : UInt8 := 47

/-- A directory's path with exactly one separator behind it. -/
def dirPrefix (d : CString) : CString :=
  if d.bytes.getLast? = some slash then d else d ++ lit "/"

theorem strlen_dirPrefix_le (d : CString) : (dirPrefix d).strlen ≤ d.strlen + 1 := by
  have hslash : (lit "/").strlen = 1 := by decide
  unfold dirPrefix
  split
  · exact Nat.le_succ _
  · rw [strlen_append, hslash]

/-- The path of the name `f` in the directory `d`. -/
def pathIn (d f : CString) : CString := dirPrefix d ++ f

theorem pathIn_inj {d d' f : CString} : pathIn d f = pathIn d' f ↔ dirPrefix d = dirPrefix d' := by
  constructor
  · intro h
    exact CString.ext (List.append_cancel_right (congrArg CString.bytes h))
  · intro h
    rw [pathIn, h, pathIn]

theorem strlen_le_dirPrefix (d : CString) : d.strlen ≤ (dirPrefix d).strlen := by
  unfold dirPrefix
  split
  · exact le_rfl
  · rw [strlen_append]
    exact Nat.le_add_right _ _

/-- The name of an entry of a directory. -/
structure Name where
  str : CString
  nonempty : str.bytes ≠ []
  noSlash : slash ∉ str.bytes

/-- Behind a name a path goes on with a slash. -/
theorem dirPrefix_pathIn (d : CString) (n : Name) :
    (dirPrefix (pathIn d n.str)).bytes = (dirPrefix d).bytes ++ n.str.bytes ++ [slash] := by
  have hlast : (pathIn d n.str).bytes.getLast? ≠ some slash := by
    intro h
    rw [pathIn, bytes_append, List.getLast?_append_of_ne_nil _ n.nonempty] at h
    exact n.noSlash (List.mem_of_getLast? h)
  rw [dirPrefix, if_neg hlast, bytes_append, pathIn, bytes_append]
  rfl

/-- `q` is the entry `n` of `d`, or lies below it. -/
def Under (d n q : CString) : Prop :=
  ∃ rest, q.bytes = (dirPrefix d).bytes ++ n.bytes ++ rest ∧ (rest = [] ∨ rest.head? = some slash)

theorem under_pathIn (d n : CString) : Under d n (pathIn d n) :=
  ⟨[], (List.append_nil _).symm, .inl rfl⟩

/-- Whatever lies in the entry `n` of `d` lies under it, and is not it. -/
theorem Under.inside {d m q : CString} {n : Name} (h : Under (pathIn d n.str) m q) :
    Under d n.str q ∧ q ≠ pathIn d n.str := by
  obtain ⟨rest, hq, -⟩ := h
  rw [dirPrefix_pathIn] at hq
  constructor
  · exact ⟨slash :: (m.bytes ++ rest), by simp [hq], .inr rfl⟩
  · rintro rfl
    have hlen := congrArg List.length hq
    simp only [pathIn, bytes_append, List.length_append, List.length_singleton] at hlen
    omega

/-- A path lies under one name of a directory only. -/
theorem Under.unique {d q : CString} {n m : Name} (hn : Under d n.str q) (hm : Under d m.str q) :
    n.str = m.str := by
  have htake : ∀ (k : Name) (rest : List UInt8), rest = [] ∨ rest.head? = some slash →
      (k.str.bytes ++ rest).takeWhile (· ≠ slash) = k.str.bytes := by
    intro k rest hrest
    have hall : ∀ b ∈ k.str.bytes, decide (b ≠ slash) = true := by
      intro b hb
      exact decide_eq_true fun he => k.noSlash (he ▸ hb)
    rw [List.takeWhile_append_of_pos hall]
    rcases rest with - | ⟨b, rest⟩
    · simp
    · obtain rfl : b = slash := by simpa using hrest
      simp
  -- behind the directory's prefix the path goes on with the name, up to the next slash
  obtain ⟨r, hq, hr⟩ := hn
  obtain ⟨r', hq', hr'⟩ := hm
  rw [hq, List.append_assoc, List.append_assoc] at hq'
  have htail := List.append_cancel_left hq'
  apply CString.ext
  calc n.str.bytes = (n.str.bytes ++ r).takeWhile (· ≠ slash) := (htake n r hr).symm
    _ = (m.str.bytes ++ r').takeWhile (· ≠ slash) := by rw [htail]
    _ = m.str.bytes := htake m r' hr'

/-- A path under a name of `d` is longer than `d`. -/
theorem Under.strlen_lt {d q : CString} {n : Name} (h : Under d n.str q) : d.strlen < q.strlen := by
  obtain ⟨rest, hq, -⟩ := h
  have hd : d.bytes.length ≤ (dirPrefix d).bytes.length := strlen_le_dirPrefix d
  have hn : 0 < n.str.bytes.length := List.length_pos_of_ne_nil n.nonempty
  show d.bytes.length < q.bytes.length
  rw [hq, List.length_append, List.length_append]
  omega

/-! ### Trees -/

/-- `fts_info`, as far as it is told apart: a directory before and behind its
content, a regular file, and anything else. -/
inductive FtsInfo
  | FTS_D
  | FTS_DP
  | FTS_F
  | FTS_DEFAULT
deriving DecidableEq

/-- An `FTSENT`. -/
structure FtsEnt where
  info : FtsInfo
  path : CString
deriving DecidableEq

/-- The content of a directory. -/
inductive Forest
  | nil
  | file (name : Name) (rest : Forest)
  | dir (name : Name) (below rest : Forest)
  | other (name : Name) (rest : Forest)

namespace Forest

/-- The names at the top. -/
def names : Forest → List CString
  | nil => []
  | file n rest => n.str :: rest.names
  | dir n _ rest => n.str :: rest.names
  | other n rest => n.str :: rest.names

/-- Siblings have different names. -/
def Distinct : Forest → Prop
  | nil => True
  | file n rest => n.str ∉ rest.names ∧ rest.Distinct
  | dir n below rest => n.str ∉ rest.names ∧ below.Distinct ∧ rest.Distinct
  | other n rest => n.str ∉ rest.names ∧ rest.Distinct

/-- The walk through the content of `d`. -/
def visit (d : CString) : Forest → List FtsEnt
  | nil => []
  | file n rest => ⟨.FTS_F, pathIn d n.str⟩ :: rest.visit d
  | dir n below rest =>
    ⟨.FTS_D, pathIn d n.str⟩ :: (below.visit (pathIn d n.str) ++
      ⟨.FTS_DP, pathIn d n.str⟩ :: rest.visit d)
  | other n rest => ⟨.FTS_DEFAULT, pathIn d n.str⟩ :: rest.visit d

/-- The paths of the directories. -/
def dirs (d : CString) : Forest → List CString
  | nil => []
  | file _ rest => rest.dirs d
  | dir n below rest => pathIn d n.str :: (below.dirs (pathIn d n.str) ++ rest.dirs d)
  | other _ rest => rest.dirs d

/-- The paths of the regular files. -/
def files (d : CString) : Forest → List CString
  | nil => []
  | file n rest => pathIn d n.str :: rest.files d
  | dir n below rest => below.files (pathIn d n.str) ++ rest.files d
  | other _ rest => rest.files d

end Forest

/-- A tree, with the path it is reached by. -/
structure Tree where
  root : CString
  rootNonempty : root.bytes ≠ []
  below : Forest
  distinct : below.Distinct

namespace Tree

/-- What `fts_read` delivers. -/
def visit (t : Tree) : List FtsEnt :=
  ⟨.FTS_D, t.root⟩ :: (t.below.visit t.root ++ [⟨.FTS_DP, t.root⟩])

/-- The directories below the root. -/
def subdirs (t : Tree) : List CString := t.below.dirs t.root

/-- All directories, the root first. -/
def dirs (t : Tree) : List CString := t.root :: t.subdirs

/-- All regular files. -/
def files (t : Tree) : List CString := t.below.files t.root

end Tree

/-! ### The walk -/

/-- The paths of the entries of one kind. -/
def pathsOf (info : FtsInfo) (es : List FtsEnt) : List CString :=
  (es.filter fun e => e.info = info).map (·.path)

theorem Forest.pathsOf_visit_dirs (t : Forest) (d : CString) :
    pathsOf .FTS_D (t.visit d) = t.dirs d := by
  induction t generalizing d with
  | nil => rfl
  | file n rest ih => exact ih d
  | other n rest ih => exact ih d
  | dir n below rest ihb ihr =>
    rw [visit, dirs, ← ihb, ← ihr]
    simp [pathsOf]

theorem Forest.pathsOf_visit_files (t : Forest) (d : CString) :
    pathsOf .FTS_F (t.visit d) = t.files d := by
  induction t generalizing d with
  | nil => rfl
  | file n rest ih => exact congrArg (pathIn d n.str :: ·) (ih d)
  | other n rest ih => exact ih d
  | dir n below rest ihb ihr =>
    rw [visit, files, ← ihb, ← ihr]
    simp [pathsOf]

theorem Tree.pathsOf_visit_dirs (t : Tree) : pathsOf .FTS_D t.visit = t.dirs := by
  rw [visit, dirs, subdirs, ← t.below.pathsOf_visit_dirs]
  simp [pathsOf]

theorem Tree.pathsOf_visit_files (t : Tree) : pathsOf .FTS_F t.visit = t.files := by
  rw [visit, files, ← t.below.pathsOf_visit_files]
  simp [pathsOf]

/-- Every entry lies under a name at the top. -/
theorem Forest.exists_under {t : Forest} {d : CString} {e : FtsEnt} (he : e ∈ t.visit d) :
    ∃ n : Name, n.str ∈ t.names ∧ Under d n.str e.path := by
  induction t generalizing d with
  | nil => cases he
  | file n rest ih =>
    rcases List.mem_cons.mp he with rfl | he
    · exact ⟨n, List.mem_cons_self, under_pathIn d n.str⟩
    · obtain ⟨m, hm, hu⟩ := ih he
      exact ⟨m, List.mem_cons_of_mem _ hm, hu⟩
  | other n rest ih =>
    rcases List.mem_cons.mp he with rfl | he
    · exact ⟨n, List.mem_cons_self, under_pathIn d n.str⟩
    · obtain ⟨m, hm, hu⟩ := ih he
      exact ⟨m, List.mem_cons_of_mem _ hm, hu⟩
  | dir n below rest ihb ihr =>
    rcases List.mem_cons.mp he with rfl | he
    · exact ⟨n, List.mem_cons_self, under_pathIn d n.str⟩
    · rcases List.mem_append.mp he with he | he
      · obtain ⟨m, -, hu⟩ := ihb he
        exact ⟨n, List.mem_cons_self, hu.inside.1⟩
      · rcases List.mem_cons.mp he with rfl | he
        · exact ⟨n, List.mem_cons_self, under_pathIn d n.str⟩
        · obtain ⟨m, hm, hu⟩ := ihr he
          exact ⟨m, List.mem_cons_of_mem _ hm, hu⟩

/-! ### All paths are different -/

/-- The walk without the second visits of the directories. -/
def firstVisits (es : List FtsEnt) : List FtsEnt := es.filter fun e => e.info ≠ .FTS_DP

theorem mem_of_mem_firstVisits {es : List FtsEnt} {q : CString}
    (h : q ∈ (firstVisits es).map (·.path)) : ∃ e ∈ es, e.path = q := by
  obtain ⟨e, he, hq⟩ := List.mem_map.mp h
  exact ⟨e, List.mem_of_mem_filter he, hq⟩

/-- An entry's path does not come up again among its later siblings. -/
theorem Forest.not_mem_rest {rest : Forest} {d : CString} {n : Name} {q : CString}
    (hn : n.str ∉ rest.names) (hq : Under d n.str q) :
    q ∉ (firstVisits (rest.visit d)).map (·.path) := by
  intro h
  obtain ⟨e, he, rfl⟩ := mem_of_mem_firstVisits h
  obtain ⟨m, hm, hu⟩ := exists_under he
  exact hn (hq.unique hu ▸ hm)

theorem Forest.nodup_paths {t : Forest} (h : t.Distinct) (d : CString) :
    ((firstVisits (t.visit d)).map (·.path)).Nodup := by
  induction t generalizing d with
  | nil => exact List.nodup_nil
  | file n rest ih =>
    exact List.nodup_cons.mpr ⟨not_mem_rest h.1 (under_pathIn d n.str), ih h.2 d⟩
  | other n rest ih =>
    exact List.nodup_cons.mpr ⟨not_mem_rest h.1 (under_pathIn d n.str), ih h.2 d⟩
  | dir n below rest ihb ihr =>
    obtain ⟨hn, hb, hr⟩ := h
    have hsplit : (firstVisits ((dir n below rest).visit d)).map (·.path) =
        pathIn d n.str :: ((firstVisits (below.visit (pathIn d n.str))).map (·.path) ++
          (firstVisits (rest.visit d)).map (·.path)) := by
      simp [visit, firstVisits]
    -- the directory itself, what lies in it, and its later siblings exclude each other
    rw [hsplit, List.nodup_cons, List.mem_append]
    refine ⟨?_, (ihb hb _).append (ihr hr d) fun q hqb hqr => ?_⟩
    · rintro (hq | hq)
      · obtain ⟨e, he, heq⟩ := mem_of_mem_firstVisits hq
        obtain ⟨m, -, hu⟩ := exists_under he
        exact hu.inside.2 heq
      · exact not_mem_rest hn (under_pathIn d n.str) hq
    · obtain ⟨e, he, rfl⟩ := mem_of_mem_firstVisits hqb
      obtain ⟨m, -, hu⟩ := exists_under he
      exact not_mem_rest hn hu.inside.1 hqr

namespace Tree

variable (t : Tree)

/-- **All paths of a tree are different.** -/
theorem nodup_paths : ((firstVisits t.visit).map (·.path)).Nodup := by
  have hsplit : (firstVisits t.visit).map (·.path) =
      t.root :: (firstVisits (t.below.visit t.root)).map (·.path) := by
    simp [visit, firstVisits]
  rw [hsplit, List.nodup_cons]
  refine ⟨fun h => ?_, t.below.nodup_paths t.distinct t.root⟩
  obtain ⟨e, he, heq⟩ := mem_of_mem_firstVisits h
  obtain ⟨n, -, hu⟩ := Forest.exists_under he
  exact Nat.lt_irrefl _ (heq ▸ hu.strlen_lt)

theorem nodup_dirs : t.dirs.Nodup := by
  rw [← t.pathsOf_visit_dirs]
  refine List.Nodup.sublist (List.Sublist.map _ ?_) t.nodup_paths
  apply List.monotone_filter_right
  intro e he
  have hD : e.info = .FTS_D := of_decide_eq_true he
  simp [hD]

/-- No path is that of a directory and of a file. -/
theorem not_mem_files {q : CString} (hd : q ∈ t.dirs) : q ∉ t.files := by
  intro hf
  rw [← t.pathsOf_visit_dirs] at hd
  rw [← t.pathsOf_visit_files] at hf
  obtain ⟨e, he, hq⟩ := List.mem_map.mp hd
  obtain ⟨e', he', hq'⟩ := List.mem_map.mp hf
  obtain ⟨he, hD⟩ := List.mem_filter.mp he
  obtain ⟨he', hF⟩ := List.mem_filter.mp he'
  have hD : e.info = .FTS_D := of_decide_eq_true hD
  have hF : e'.info = .FTS_F := of_decide_eq_true hF
  have hee : e = e' := List.inj_on_of_nodup_map t.nodup_paths
    (List.mem_filter.mpr ⟨he, by simp [hD]⟩) (List.mem_filter.mpr ⟨he', by simp [hF]⟩)
    (hq.trans hq'.symm)
  rw [← hee, hD] at hF
  cases hF

/-- The directories below the root have longer paths than the root. -/
theorem strlen_root_lt {q : CString} (h : q ∈ t.subdirs) : t.root.strlen < q.strlen := by
  rw [subdirs, ← Forest.pathsOf_visit_dirs] at h
  obtain ⟨e, he, rfl⟩ := List.mem_map.mp h
  obtain ⟨n, -, hu⟩ := Forest.exists_under (List.mem_of_mem_filter he)
  exact hu.strlen_lt

end Tree

end FileTree

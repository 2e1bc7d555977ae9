/-
SecuritySystem/Backup/EventName.lean

Where the event handler uses the name of an event.

An event without a name leaves `cur_event_filename` a null pointer.  The
handler uses it for the test of the first character, in the search, in the
messages and in the path of the file, and tests it nowhere.  `nameUses` lists
the uses in the order in which the code makes them; `nameUses_set_iff` says
that all of them are of a name exactly if there is one, or the event is about
a directory, since then the handler returns at once.
-/
import SecuritySystem.Backup.HandlerSafety

namespace SecuritySystem.Backup

open CMem CString

/-! ### The uses of the name -/

/-- A use of `cur_event_filename`, with the pointer. -/
inductive NameUse
  /-- `*cur_event_filename == HELPERS_DOT` -/
  | firstCharacter (name : Option CString)
  /-- `strstr(de->d_name, pattern)` -/
  | strstr (entry : CString) (name : Option CString)
  /-- `sprintf(message_buffer, ...)` -/
  | message (name : Option CString)
  /-- `sprintf(full_path, ...)` -/
  | path (name : Option CString)

/-- The name that is used, if the event has one. -/
def NameUse.name : NameUse → Option CString
  | .firstCharacter name | .strstr _ name | .message name | .path name => name

section Uses

variable (env : Env) (f : CString)

/-- In `backup_helpers_find_file`: one use for each regular file, up to the
first hit. -/
def findFileUses : List Dirent → List NameUse
  | [] => []
  | de :: dr =>
    if de.type = .reg then
      .strstr de.name (some f) :: if CString.strstr de.name f then [] else findFileUses dr
    else findFileUses dr

/-- On the walk along the chain. -/
def searchUses : List CString → List NameUse
  | [] => []
  | hi :: rest =>
    match env.opendir hi with
    | none => []
    | some dr =>
      (if env.running then findFileUses f dr else []) ++
        if backupHelpersFindFile env f dr then [] else searchUses rest

/-- In the switch, and for the backup, if the path is put together. -/
def reactionUses (event : InotifyEvent) (pathToDir : CString) : List NameUse :=
  match react event f with
  | .ignored | .overflow => []
  | .quiet _ => [.message (some f)]
  | .backup _ =>
    .message (some f) :: if HELPERS_SLASH ∈ pathToDir.bytes then [.path (some f)] else []

end Uses

/-- All uses of the name in a call of `handle_event`.  The first one that is
not of a name ends the call. -/
def nameUses (env : Env) (event : InotifyEvent) (s : State) : List NameUse :=
  if event.mask &&& IN_ISDIR ≠ 0 then []
  else
    .firstCharacter event.name ::
      match event.name with
      | none => []
      | some f =>
        if f.bytes.head? = some HELPERS_DOT then []
        else
          let chain := chainValues env s.arg.hashTable
          searchUses env f chain ++
            match (searchDirectory env f chain).1 with
            | .unopened _ => []
            | .found dir => reactionUses f event dir
            | .absent => reactionUses f event s.arg.pathToDir

/-! ### When there is a name -/

section Set

variable {env : Env} {event : InotifyEvent} {s : State} {f : CString} {u : NameUse}

theorem name_of_mem_findFileUses {dr : List Dirent} (h : u ∈ findFileUses f dr) :
    u.name = some f := by
  induction dr with
  | nil => exact absurd h List.not_mem_nil
  | cons de dr ih =>
    rw [findFileUses] at h
    split_ifs at h with hreg hhit
    · obtain rfl := List.mem_singleton.mp h
      rfl
    · rcases List.mem_cons.mp h with rfl | h
      · rfl
      · exact ih h
    · exact ih h

theorem name_of_mem_searchUses {chain : List CString} (h : u ∈ searchUses env f chain) :
    u.name = some f := by
  induction chain with
  | nil => exact absurd h List.not_mem_nil
  | cons hi rest ih =>
    rw [searchUses] at h
    rcases hopen : env.opendir hi with - | dr
    · rw [hopen] at h
      exact absurd h List.not_mem_nil
    · rw [hopen] at h
      rcases List.mem_append.mp h with h | h
      · split_ifs at h
        · exact name_of_mem_findFileUses h
        · exact absurd h List.not_mem_nil
      · split_ifs at h
        · exact absurd h List.not_mem_nil
        · exact ih h

theorem name_of_mem_reactionUses {d : CString} (h : u ∈ reactionUses f event d) :
    u.name = some f := by
  unfold reactionUses at h
  split at h
  · exact absurd h List.not_mem_nil
  · exact absurd h List.not_mem_nil
  · obtain rfl := List.mem_singleton.mp h
    rfl
  · rcases List.mem_cons.mp h with rfl | h
    · rfl
    · split_ifs at h
      · obtain rfl := List.mem_singleton.mp h
        rfl
      · exact absurd h List.not_mem_nil

/-- Every use is of the pointer that the event gave. -/
theorem name_of_mem_nameUses (h : u ∈ nameUses env event s) : u.name = event.name := by
  unfold nameUses at h
  split_ifs at h
  · exact absurd h List.not_mem_nil
  rcases List.mem_cons.mp h with rfl | h
  · rfl
  · rcases hname : event.name with - | f
    · rw [hname] at h
      exact absurd h List.not_mem_nil
    · rw [hname] at h
      dsimp only at h
      split_ifs at h
      · exact absurd h List.not_mem_nil
      rcases List.mem_append.mp h with h | h
      · exact name_of_mem_searchUses h
      · split at h
        · exact absurd h List.not_mem_nil
        · exact name_of_mem_reactionUses h
        · exact name_of_mem_reactionUses h

end Set

/-! ### Events without a name -/

/-- The watched file itself was deleted. -/
def IN_DELETE_SELF : UInt32 := 0x400

/-- The watched file itself was moved. -/
def IN_MOVE_SELF : UInt32 := 0x800

/-- Its file system was unmounted. -/
def IN_UNMOUNT : UInt32 := 0x2000

/-- What inotify promises: only events on an entry of a watched directory have
a name. -/
def Delivered (event : InotifyEvent) : Prop :=
  event.name ≠ none → event.mask &&&
    (IN_DELETE_SELF ||| IN_MOVE_SELF ||| IN_UNMOUNT ||| IN_Q_OVERFLOW ||| IN_IGNORED) = 0

/-- **When the name is used only if it was set**: the event has one, or is
about a directory.  Otherwise the test of the first character ends the handler
before anything has changed. -/
theorem nameUses_set_iff (env : Env) (event : InotifyEvent) (s : State) :
    ((∀ u ∈ nameUses env event s, u.name ≠ none) ↔
      event.mask &&& IN_ISDIR ≠ 0 ∨ event.name ≠ none) ∧
    ((∃ u ∈ nameUses env event s, u.name = none) →
      handleEvent env event s = (s, some .badPointer)) := by
  -- the test of the first character comes in front of all other uses
  have hfirst (hdir : event.mask &&& IN_ISDIR = 0) :
      .firstCharacter event.name ∈ nameUses env event s := by
    rw [nameUses, if_neg (not_not.mpr hdir)]
    exact List.mem_cons_self
  constructor
  · constructor
    · intro hset
      by_contra hnot
      obtain ⟨hdir, hname⟩ := not_or.mp hnot
      exact hname (hset _ (hfirst (not_not.mp hdir)))
    · rintro (hdir | hname) u hu
      · rw [nameUses, if_pos hdir] at hu
        exact absurd hu List.not_mem_nil
      · rw [name_of_mem_nameUses hu]
        exact hname
  · rintro ⟨u, hu, hunset⟩
    have hname : event.name = none := (name_of_mem_nameUses hu).symm.trans hunset
    have hdir : event.mask &&& IN_ISDIR = 0 := by
      by_contra hdir
      rw [nameUses, if_pos hdir] at hu
      exact absurd hu List.not_mem_nil
    rw [handleEvent, if_neg (not_not.mpr hdir), hname]

/-- The end of a watch. -/
def watchIgnored : InotifyEvent where
  wd := 1
  mask := IN_IGNORED
  cookie := 0
  name := none
  nameMax := nofun

theorem not_nameUses_set_ignored :
    ¬ ∀ (env : Env) (event : InotifyEvent) (s : State), Delivered event →
      ∀ u ∈ nameUses env event s, u.name ≠ none := by
  intro h
  obtain ⟨s, -⟩ := exists_chain []
  exact h (envX []) watchIgnored s (fun hname => absurd rfl hname) (.firstCharacter none)
    List.mem_cons_self rfl

end SecuritySystem.Backup

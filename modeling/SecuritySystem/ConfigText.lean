/-
SecuritySystem/ConfigText.lean

Configurations that are written and read back.

A list of settings is written with one line `key: value` for each of them, and
an empty line at the end, which stops the loop of the parsers.  Where no value
has a line feed and no line is too long, each parser makes just these settings
if its branches take them all, and the service then has the last value of each
key if and only if none is hidden behind a longer one (`written_iff`).
-/
import SecuritySystem.ConfigScan

namespace SecuritySystem

open CMem CMem.CString

/-! ### The text -/

/-- The line of a setting. -/
def settingLine (kv : CString × CString) : CString := kv.1 ++ lit ": " ++ kv.2

/-- The text of a list of settings. -/
def written : List (CString × CString) → CString
  | [] => lit "\n"
  | kv :: kvs => settingLine kv ++ lit "\n" ++ written kvs

/-- The setting has a line of its own, which is not too long. -/
structure OneLine (kv : CString × CString) : Prop where
  value : LINE_FEED ∉ kv.2.bytes
  short : (settingLine kv).strlen ≤ PARSER_FILE_STROKE_MAX_LEN

variable {σ : Type} {maxLen : ℕ} {set : CString → CString → σ → Except Fault (SetResult σ)}
variable {key value : CString} {kvs : List (CString × CString)} {s s' : σ}

theorem bytes_settingLine (key value : CString) :
    (settingLine (key, value)).bytes = key.bytes ++ PARSER_DELIMETER :: 32 :: value.bytes := by
  show key.bytes ++ (lit ": ").bytes ++ value.bytes = _
  rw [show (lit ": ").bytes = [PARSER_DELIMETER, 32] by decide, List.append_assoc]
  rfl

theorem bytes_written_cons (kv : CString × CString) (kvs : List (CString × CString)) :
    (written (kv :: kvs)).bytes = (settingLine kv).bytes ++ LINE_FEED :: (written kvs).bytes := by
  show (settingLine kv).bytes ++ (lit "\n").bytes ++ (written kvs).bytes = _
  rw [show (lit "\n").bytes = [LINE_FEED] by decide, List.append_assoc]
  rfl

theorem strlen_value_le (kv : CString × CString) : kv.2.strlen ≤ (settingLine kv).strlen := by
  rw [settingLine, strlen_append]
  exact Nat.le_add_left _ _

/-! ### The loop -/

section Loop

variable (hmax : maxLen ≤ PARSER_FILE_STROKE_MAX_LEN)

include hmax

/-- The line of a setting is taken apart again. -/
theorem handleLine_settingLine (hkey : PARSER_DELIMETER ∉ key.bytes)
    (hlen : (settingLine (key, value)).strlen ≤ maxLen)
    (hset : set key value s = .ok (.done s')) :
    handleLine maxLen set (settingLine (key, value)).bytes s = .ok (.applied key value s') := by
  have hbytes := bytes_settingLine key value
  have hline : CString.ofMem (settingLine (key, value)).bytes = settingLine (key, value) :=
    ofMem_bytes _
  have hdelim : HasDelimiter (settingLine (key, value)).bytes := by
    rw [HasDelimiter, hline, hbytes]
    exact List.mem_append_right _ List.mem_cons_self
  have hat : delimiterAt (settingLine (key, value)).bytes = key.bytes.length := by
    rw [delimiterAt, hline, hbytes, List.idxOf_append_of_notMem hkey, List.idxOf_cons_self,
      Nat.add_zero]
  have htake : (settingLine (key, value)).take key.bytes.length = key := by
    apply CString.ext
    show (settingLine (key, value)).bytes.take key.bytes.length = key.bytes
    rw [hbytes, List.take_left]
  have hdrop : CString.ofMem ((settingLine (key, value)).bytes.drop (key.bytes.length + 2)) =
      value := by
    rw [hbytes, ← List.drop_drop, List.drop_left]
    exact ofMem_bytes value
  have hroom : ¬ (settingLine (key, value)).bytes.length < key.bytes.length + 2 := by
    rw [hbytes, List.length_append]
    simp only [List.length_cons]
    omega
  have hnonneg : ¬ (0 : ℤ) > (key.bytes.length : ℤ) := by omega
  unfold handleLine
  dsimp only
  rw [index_eq (hline.symm ▸ hlen.trans hmax), hline, if_neg (Nat.not_lt.mpr hlen), if_pos hdelim,
    hat, if_neg hnonneg, Int.toNat_natCast, if_neg hroom, htake, hdrop, hset]
  rfl

/-- **A written text is read back**, up to its empty line. -/
theorem lineLoop_written (h : Sets set s kvs s')
    (hkey : ∀ kv ∈ kvs, PARSER_DELIMETER ∉ kv.1.bytes ∧ LINE_FEED ∉ kv.1.bytes)
    (hline : ∀ kv ∈ kvs, LINE_FEED ∉ kv.2.bytes ∧ (settingLine kv).strlen ≤ maxLen)
    (buffer : List UInt8) :
    lineLoop maxLen set [] ((written kvs).bytes ++ buffer) s = .ok ⟨none, s', kvs⟩ := by
  induction h with
  | nil s =>
    -- the empty line has no delimiter
    show lineLoop maxLen set [] (LINE_FEED :: buffer) s = _
    rw [lineLoop, if_neg fun hne => hne rfl]
    rfl
  | @cons s s₁ s' key value kvs hset _ ih =>
    obtain ⟨⟨hdelim, hfeed⟩, hkeys⟩ := List.forall_mem_cons.mp hkey
    obtain ⟨⟨hvalue, hlen⟩, hlines⟩ := List.forall_mem_cons.mp hline
    have hnofeed : LINE_FEED ∉ (settingLine (key, value)).bytes := by
      rw [bytes_settingLine]
      intro hmem
      rcases List.mem_append.mp hmem with hmem | hmem
      · exact hfeed hmem
      · rcases List.mem_cons.mp hmem with hmem | hmem
        · exact absurd hmem (by decide)
        · exact (List.mem_cons.mp hmem).elim (by decide) hvalue
    rw [bytes_written_cons, List.append_assoc, lineLoop_append hnofeed, List.nil_append,
      List.cons_append, lineLoop, if_neg fun hne => hne rfl,
      handleLine_settingLine hmax hdelim hlen hset, ok_bind]
    dsimp only
    rw [if_neg (settingLine (key, value)).noNul, ih hkeys hlines]
    rfl

end Loop

/-! ### The settings that are taken -/

variable {inv : σ → Prop} {setKind : CString → CString → LineKind}

/-- Settings can be made exactly if each of them is taken. -/
theorem exists_sets_iff
    (hset : ∀ key value s, inv s → AssignmentIs inv (setKind key value) (set key value s))
    (hinv : inv s) :
    (∃ s', Sets set s kvs s') ↔ ∀ kv ∈ kvs, setKind kv.1 kv.2 = .taken := by
  induction kvs generalizing s with
  | nil => exact iff_of_true ⟨s, .nil s⟩ fun kv hkv => absurd hkv List.not_mem_nil
  | cons kv kvs ih =>
    obtain ⟨key, value⟩ := kv
    have his := hset key value s hinv
    rw [List.forall_mem_cons]
    rcases hkind : setKind key value with - | - | -
    · rw [hkind] at his
      obtain ⟨s₁, hs₁, hinv₁⟩ := his
      rw [and_iff_right rfl, ← ih hinv₁]
      constructor
      · rintro ⟨s', hsets⟩
        cases hsets with
        | cons hs hsets =>
          cases hs₁.symm.trans hs
          exact ⟨s', hsets⟩
      · rintro ⟨s', hsets⟩
        exact ⟨s', .cons hs₁ hsets⟩
    · rw [hkind] at his
      refine iff_of_false ?_ (by simp)
      rintro ⟨s', hsets⟩
      cases hsets with
      | cons hs hsets =>
        rcases his with he | ⟨why, s₁, he⟩
        · cases he.symm.trans hs
        · cases he.symm.trans hs
    · rw [hkind] at his
      refine iff_of_false ?_ (by simp)
      rintro ⟨s', hsets⟩
      cases hsets with
      | cons hs hsets => exact his ⟨_, hs⟩

/-! ### Both services -/

open Backup Firewall

theorem plain_of_backupKnown (h : backupKnown key = true) :
    PARSER_DELIMETER ∉ key.bytes ∧ LINE_FEED ∉ key.bytes := by
  rcases of_decide_eq_true h with rfl | rfl | rfl <;> decide

theorem plain_of_fwKnown (h : fwKnown key = true) :
    PARSER_DELIMETER ∉ key.bytes ∧ LINE_FEED ∉ key.bytes := by
  rcases of_decide_eq_true h with rfl | rfl | rfl | rfl | rfl <;> decide

/-- **What is written is read back**: by each service, exactly if its branches
take all the settings and no value is hidden behind a longer one. -/
theorem written_iff (isDir : CString → Bool) (kvs : List (CString × CString))
    (hline : ∀ kv ∈ kvs, OneLine kv) (behind : List UInt8) :
    ((∃ s, backupParseAndSerializeConfig isDir (some ((written kvs).bytes ++ 0 :: behind))
          .initial = .ok ⟨none, s, kvs⟩ ∧ BackupEffective kvs s) ↔
        (∀ kv ∈ kvs, backupSetKind isDir kv.1 kv.2 = .taken) ∧ BackupLastLongest kvs) ∧
      ((∃ attrs, fwParseAndSerializeConfig (some ((written kvs).bytes ++ 0 :: behind))
          (zeros ATTRS_SIZE) = .ok ⟨none, attrs, kvs⟩ ∧ FwEffective kvs attrs) ↔
        (∀ kv ∈ kvs, fwSetKind kv.1 kv.2 = .taken) ∧ FwLastFits kvs) := by
  have hlen : ∀ kv ∈ kvs, kv.2.strlen ≤ PARSER_FILE_STROKE_MAX_LEN := fun kv hkv =>
    (strlen_value_le kv).trans (hline kv hkv).short
  have hlines : ∀ kv ∈ kvs, LINE_FEED ∉ kv.2.bytes ∧
      (settingLine kv).strlen ≤ PARSER_FILE_STROKE_MAX_LEN := fun kv hkv =>
    ⟨(hline kv hkv).value, (hline kv hkv).short⟩
  constructor
  · have hmade : (∃ s, Sets (backupSet isDir) .initial kvs s) ↔
        ∀ kv ∈ kvs, backupSetKind isDir kv.1 kv.2 = .taken :=
      exists_sets_iff (assignmentIs_backupSet isDir) sized_initial
    rw [← hmade]
    constructor
    · rintro ⟨s, hparse, heffective⟩
      have hreads := lineLoop_reads (by decide) backupSet_unknown_iff hparse rfl
      exact ⟨⟨s, hreads.sets⟩, (backupEffective_iff hreads.sets hlen).mp heffective⟩
    · rintro ⟨⟨s, hsets⟩, hlongest⟩
      have hkeys := fun kv hkv =>
        plain_of_backupKnown (hsets.forall_known backupSet_unknown_iff kv hkv)
      exact ⟨s, lineLoop_written (by decide) hsets hkeys hlines _,
        (backupEffective_iff hsets hlen).mpr hlongest⟩
  · have hmade : (∃ attrs, Sets fwSet (zeros ATTRS_SIZE) kvs attrs) ↔
        ∀ kv ∈ kvs, fwSetKind kv.1 kv.2 = .taken :=
      exists_sets_iff assignmentIs_fwSet whole_zeros
    rw [← hmade]
    constructor
    · rintro ⟨s, hparse, heffective⟩
      have hreads := lineLoop_reads (Nat.le_refl _) fwSet_unknown_iff hparse rfl
      exact ⟨⟨s, hreads.sets⟩, (fwEffective_iff hreads.sets).mp heffective⟩
    · rintro ⟨⟨s, hsets⟩, hlast⟩
      have hkeys := fun kv hkv => plain_of_fwKnown (hsets.forall_known fwSet_unknown_iff kv hkv)
      exact ⟨s, lineLoop_written (Nat.le_refl _) hsets hkeys hlines _,
        (fwEffective_iff hsets).mpr hlast⟩

/-- A network and a packet number for the firewall. -/
theorem written_iff_network :
    ∃ kvs attrs, kvs = [(lit "untrusted_net", lit "10.0.0.0/8"), (lit "packet_num", lit "inf")] ∧
      fwParseAndSerializeConfig (some ((written kvs).bytes ++ 0 :: []))
        (zeros ATTRS_SIZE) = .ok ⟨none, attrs, kvs⟩ ∧ FwEffective kvs attrs := by
  have hline : ∀ kv ∈ [(lit "untrusted_net", lit "10.0.0.0/8"), (lit "packet_num", lit "inf")],
      OneLine kv := by
    intro kv hkv
    rcases List.mem_cons.mp hkv with rfl | hkv
    · exact ⟨by decide, by decide⟩
    · rw [List.mem_singleton.mp hkv]
      exact ⟨by decide, by decide⟩
  obtain ⟨attrs, hattrs⟩ := (written_iff (fun _ => true) _ hline []).2.mpr
    ⟨by decide +kernel, by decide +kernel⟩
  exact ⟨_, attrs, rfl, hattrs⟩

end SecuritySystem

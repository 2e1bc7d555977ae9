/-
SecuritySystem/Config.lean

The two configuration parsers side by side.

Both services share the line loop, so a setting is skipped in both under the
same condition, and in both a string that is copied without its NUL shows
what an earlier value has left behind it (`configured_iff`).  A last line that
ends with its delimiter takes for its value what the memory holds behind the
text.
-/
import SecuritySystem.Backup.Config
import SecuritySystem.Firewall.Config

namespace SecuritySystem

open CMem CMem.CString Backup Firewall

/-- The text in memory: a NUL behind it, and then anything. -/
def inMemory (text : CString) (behind : List UInt8) : List UInt8 := text.bytes ++ 0 :: behind

/-- **When a configuration takes effect**: after a successful run of either
parser, all settings of the text have been made and the last value of each key
is the one that the service has, if and only if no setting stands behind a line
that stops the loop, no value is found behind the NUL of the text, and no string
is hidden behind a longer one. -/
theorem configured_iff (isDir : CString → Bool) (text : CString) (behind : List UInt8) :
    (∀ r, backupParseAndSerializeConfig isDir (some (inMemory text behind)) .initial = .ok r →
      r.failure = none →
      (r.applied = settings backupKnown text ∧
          BackupEffective (settings backupKnown text) r.state ↔
        NoneSkipped backupKnown (textLines text) ∧ EmptyBehind backupKnown text behind ∧
          BackupLastLongest (settings backupKnown text))) ∧
    ∀ r, fwParseAndSerializeConfig (some (inMemory text behind)) (zeros ATTRS_SIZE) = .ok r →
      r.failure = none →
      (r.applied = settings fwKnown text ∧ FwEffective (settings fwKnown text) r.state ↔
        NoneSkipped fwKnown (textLines text) ∧ EmptyBehind fwKnown text behind ∧
          FwLastFits (settings fwKnown text)) :=
  ⟨fun _ h hsuccess => backup_effective_iff h hsuccess,
    fun _ h hsuccess => fw_effective_iff h hsuccess⟩

/-- The configuration files as they are shipped, with a line feed behind the NUL. -/
def backupShipped : CString :=
  lit ("path_to_dir: /home/k1rch/Music\npath_to_backup: /home/k1rch/2023-backupd-backups\n" ++
    "path_to_log: /home/k1rch/backup_service.log")

/-- The file of the firewall. -/
def fwShipped : CString :=
  lit ("interface: eno1\nfilter: ip\npacket_num: 10\nuntrusted_net: 192.168.0.0/24\n" ++
    "trusted_net: 192.168.1.0/24")

theorem configured_shipped :
    (∃ r, backupParseAndSerializeConfig (fun _ => true) (some (inMemory backupShipped [LINE_FEED]))
        .initial = .ok r ∧ r.failure = none ∧ r.applied = settings backupKnown backupShipped ∧
        BackupEffective (settings backupKnown backupShipped) r.state) ∧
      ∃ r, fwParseAndSerializeConfig (some (inMemory fwShipped [LINE_FEED]))
        (zeros ATTRS_SIZE) = .ok r ∧ r.failure = none ∧ r.applied = settings fwKnown fwShipped ∧
        FwEffective (settings fwKnown fwShipped) r.state := by
  constructor
  · obtain ⟨r, hr, hsuccess⟩ : Succeeds (backupParseAndSerializeConfig (fun _ => true)
        (some (inMemory backupShipped [LINE_FEED])) .initial) := by decide +kernel
    exact ⟨r, hr, hsuccess, ((configured_iff _ _ _).1 r hr hsuccess).mpr (by decide +kernel)⟩
  · obtain ⟨r, hr, hsuccess⟩ : Succeeds (fwParseAndSerializeConfig
        (some (inMemory fwShipped [LINE_FEED])) (zeros ATTRS_SIZE)) := by decide +kernel
    exact ⟨r, hr, hsuccess, ((configured_iff (fun _ => true) _ _).2 r hr hsuccess).mpr
      (by decide +kernel)⟩

/-- A blank line between two settings. -/
def fwBlankLine : CString := lit "interface: eno1\n\nuntrusted_net: 192.168.0.0/24\n"

/-- The firewall reports success, and keeps 0.0.0.0/0 as the untrusted network. -/
theorem not_configured_blankLine :
    ¬ ∀ (isDir : CString → Bool) (text : CString) (behind : List UInt8),
      (∀ line ∈ textLines text, (ofMem line).strlen ≤ PARSER_FILE_STROKE_MAX_LEN) →
      (∀ r, backupParseAndSerializeConfig isDir (some (inMemory text behind)) .initial = .ok r →
        r.failure = none →
        r.applied = settings backupKnown text ∧
          BackupEffective (settings backupKnown text) r.state) ∧
      ∀ r, fwParseAndSerializeConfig (some (inMemory text behind)) (zeros ATTRS_SIZE) = .ok r →
        r.failure = none →
        r.applied = settings fwKnown text ∧ FwEffective (settings fwKnown text) r.state := by
  intro h
  obtain ⟨r, hr, hsuccess⟩ : Succeeds (fwParseAndSerializeConfig
      (some (inMemory fwBlankLine [LINE_FEED])) (zeros ATTRS_SIZE)) := by decide +kernel
  have hall := h (fun _ => true) fwBlankLine [LINE_FEED] (by decide +kernel)
  obtain ⟨-, heff⟩ := hall.2 r hr hsuccess
  have hset : some (field UNTRUSTED_OFFSET NETWORK_SIZE r.state) =
      networkBytes (lit "192.168.0.0/24") := heff.untrusted _ (by decide +kernel)
  have hdefault : (fwParseAndSerializeConfig (some (inMemory fwBlankLine [LINE_FEED]))
      (zeros ATTRS_SIZE)).map (fun r => field UNTRUSTED_OFFSET NETWORK_SIZE r.state) =
        .ok (zeros NETWORK_SIZE) := by decide +kernel
  rw [hr] at hdefault
  have hzero : field UNTRUSTED_OFFSET NETWORK_SIZE r.state = zeros NETWORK_SIZE :=
    Except.ok.inj hdefault
  rw [hzero] at hset
  exact absurd hset (by decide +kernel)

end SecuritySystem

/-
SecuritySystem/Firewall/Rules.lean

How the firewall service edits the packet filter.

helpers_firewall_common.c builds every command as a string and gives it to
`system`, whose result it only compares with 0.  Here a command is what the
string says, on the rulesets of `Iptables`; the world is the ruleset and the
calls of `system` so far.  Two of the strings are made with the configuration.
The interface comes into its line as it stands there, without quotes, so that
line is the command that is meant only if the shell reads it as the same words
and puts no others in their place (`lineOf`); the words of the other lines are
fixed, but for a network.

What `system` does at each call is up to the environment: whether the command
line is run at all, what the shell puts in the place of a pattern, what a line
that is no such command does, and the number that `system` returns (-1 or a wait
status).

`start` is firewall `start` from `fw_ip_tables_flush` on to the creation of
the capture threads, `freeAndExit` its local `free_and_exit`, and `cycle` both
with a run of the threads in between.
-/
import SecuritySystem.Lib.InetText
import SecuritySystem.Lib.Iptables
import SecuritySystem.Lib.Shell
import Mathlib.Data.Int.Bitwise

namespace SecuritySystem.Firewall

open CMem CString Iptables

/-! ### Rules -/

/-- `fw_network_t` -/
structure Network where
  ipPrefix : BitVec 32
  netmask : BitVec 32
deriving DecidableEq

/-- The part of `fw_config_attrs_t` that reaches the rules. -/
structure FwConfigAttrs where
  fwAttrInterface : CString
  fwUntrustedNetwork : Network
  fwTrustedNetwork : Network

/-- What the rules of the service look at: nothing, the destination (`-d`), or
interface and source (`-i`, `-s`). -/
inductive Criteria
  | any
  | destination (net : Network)
  | source (iface : CString) (net : Network)

/-- The verdicts of the service: `ACCEPT`, `REJECT`. -/
inductive Verdict
  | accept
  | reject
deriving DecidableEq

/-- The chain for the network that is blocked. -/
def UNTRUSTED_ZONE_RULES : String := "UNTRUSTED"

/-- The chain for the network that is accepted. -/
def TRUSTED_ZONE_RULES : String := "TRUSTED"

/-- The chain of the packets that the host sends. -/
def OUTPUT : String := "OUTPUT"

/-- The chain of the packets that it receives. -/
def INPUT : String := "INPUT"

/-- A rule as the service writes it. -/
abbrev FwRule := Rule String Verdict Criteria

/-- The chains of the host. -/
abbrev Rules := Ruleset String Verdict Criteria

/-- A command of iptables as the service gives it. -/
abbrev FwCommand := Command String Verdict Criteria

/-- `-A OUTPUT -d <untrusted_net> -j UNTRUSTED` -/
def blockRule (cfg : FwConfigAttrs) : FwRule :=
  ⟨.destination cfg.fwUntrustedNetwork, .jump UNTRUSTED_ZONE_RULES⟩

/-- `-A INPUT -i <interface> -s <trusted_net> -j TRUSTED` -/
def acceptRule (cfg : FwConfigAttrs) : FwRule :=
  ⟨.source cfg.fwAttrInterface cfg.fwTrustedNetwork, .jump TRUSTED_ZONE_RULES⟩

/-! ### The environment -/

/-- One call of `system`: does the shell run the line, and what is returned. -/
structure Response where
  ran : Bool
  status : ℤ

/-- The environment: the criteria that iptables accepts (the tool refuses, for
one, masks over 32), the words that the shell puts in the place of a pattern or
a tilde, what a line that is none of the commands does to the rules, and the
responses to the calls of `system`; the calls are counted from the start of the
run. -/
structure Env where
  valid : Criteria → Bool
  expand : List UInt8 → List (List UInt8)
  shell : ℕ → List UInt8 → Rules → Rules
  response : ℕ → Response

/-- The shell puts nothing else in the place of the word. -/
def Env.Keeps (env : Env) (word : List UInt8) : Prop :=
  Shell.mayExpand word = true → env.expand word = [word]

/-- To the shell the string is one word, as it stands. -/
structure Env.OneWord (env : Env) (v : CString) : Prop where
  plain : Shell.Plain v.bytes
  kept : env.Keeps v.bytes

instance (env : Env) (word : List UInt8) : Decidable (env.Keeps word) :=
  inferInstanceAs (Decidable (_ → _))

/-! ### Command lines -/

/-- What the shell makes of a line: commands of iptables with `&&` between them,
or something else. -/
inductive Line
  | iptables (cmds : List FwCommand)
  | other (text : List UInt8)

/-- The commands of the line, as far as it is one of those that are meant. -/
def Line.commands : Line → List FwCommand
  | .iptables cmds => cmds
  | .other _ => []

section Lines

variable (env : Env)

/-- The line that has these words, with a blank between them, and stands for the
command.  It does so only if the shell reads the same words, and keeps them. -/
def lineOf (words : List CString) (cmd : FwCommand) : Line :=
  let texts := words.map bytes
  if Shell.lex (Shell.unwords texts) = some (texts.map .word) ∧ ∀ word ∈ texts, env.Keeps word then
    .iptables [cmd]
  else .other (Shell.unwords texts)

/-- `%s/%u` -/
def printNetwork (net : Network) : CString :=
  inetNtoa net.ipPrefix ++ lit "/" ++ numeral 10 net.netmask.toNat

/-- `sudo iptables -A OUTPUT -d %s/%u -j %s` -/
def blockLine (cfg : FwConfigAttrs) : Line :=
  lineOf env [lit "sudo", lit "iptables", lit "-A", lit OUTPUT, lit "-d",
    printNetwork cfg.fwUntrustedNetwork, lit "-j", lit UNTRUSTED_ZONE_RULES]
    (.append OUTPUT (blockRule cfg))

/-- `sudo iptables -A INPUT -i %s -s %s/%u -j %s` -/
def acceptLine (cfg : FwConfigAttrs) : Line :=
  lineOf env [lit "sudo", lit "iptables", lit "-A", lit INPUT, lit "-i", cfg.fwAttrInterface,
    lit "-s", printNetwork cfg.fwTrustedNetwork, lit "-j", lit TRUSTED_ZONE_RULES]
    (.append INPUT (acceptRule cfg))

end Lines

/-! ### Calls of `system` -/

/-- A call of `system` that has been made; `accepted` if every command of it
was carried out. -/
structure Call where
  commands : List FwCommand
  status : ℤ
  accepted : Bool

/-- The ruleset and the calls made, newest first. -/
structure World where
  rules : Rules
  log : List Call

section Helpers

variable (env : Env)

/-- `system(buffer)` -/
def system (line : Line) : StateM World ℤ := fun w =>
  let r := env.response w.log.length
  let (rules, accepted) :=
    if r.ran then
      match line with
      | .iptables cmds => execAll env.valid cmds w.rules
      | .other text => (env.shell w.log.length text w.rules, true)
    else (w.rules, false)
  (r.status, ⟨rules, ⟨line.commands, r.status, accepted⟩ :: w.log⟩)

/-- The value of a comparison. -/
def flag (p : Prop) [Decidable p] : ℤ := if p then 1 else 0

/-- `system(buffer) < 0` -/
def systemFails (line : Line) : StateM World ℤ := do
  let status ← system env line
  return flag (status < 0)

/-- `sudo iptables-save` -/
def fwIpTablesSave : StateM World ℤ := systemFails env (.iptables [.list])

/-- `--new TRUSTED` -/
def fwTrustedNetworkRulesInit : StateM World ℤ :=
  systemFails env (.iptables [.newChain TRUSTED_ZONE_RULES])

/-- `--delete-chain TRUSTED` -/
def fwTrustedNetworkRulesDestroy : StateM World ℤ :=
  systemFails env (.iptables [.deleteChain TRUSTED_ZONE_RULES])

/-- `--new UNTRUSTED` -/
def fwUntrustedNetworkRulesInit : StateM World ℤ :=
  systemFails env (.iptables [.newChain UNTRUSTED_ZONE_RULES])

/-- `--delete-chain UNTRUSTED` -/
def fwUntrustedNetworkRulesDestroy : StateM World ℤ :=
  systemFails env (.iptables [.deleteChain UNTRUSTED_ZONE_RULES])

/-- Give the line of a jump to a zone to the shell, and append the verdict to the
zone. -/
def addRules (jump : Line) (zone : String) (v : Verdict) : StateM World ℤ := do
  let rc ← systemFails env jump
  let postRc ← systemFails env (.iptables [.append zone ⟨.any, .verdict v⟩])
  return Int.lor rc postRc

/-- `-A OUTPUT` with the untrusted network, and `-A UNTRUSTED -j REJECT` -/
def fwAddBlockRuleForUntrustedZone (cfg : FwConfigAttrs) : StateM World ℤ :=
  addRules env (blockLine env cfg) UNTRUSTED_ZONE_RULES .reject

/-- `-A INPUT` with the interface and the trusted network, and
`-A TRUSTED -j ACCEPT` -/
def fwAddAcceptRuleForTrustedZone (cfg : FwConfigAttrs) : StateM World ℤ :=
  addRules env (acceptLine env cfg) TRUSTED_ZONE_RULES .accept

/-- `-F TRUSTED && -F UNTRUSTED && -F OUTPUT`, then both chains are deleted. -/
def fwIpTablesFlush : StateM World ℤ := do
  let rc ← systemFails env
    (.iptables [.flush TRUSTED_ZONE_RULES, .flush UNTRUSTED_ZONE_RULES, .flush OUTPUT])
  let trusted ← fwTrustedNetworkRulesDestroy env
  let untrusted ← fwUntrustedNetworkRulesDestroy env
  return Int.lor (Int.lor rc trusted) untrusted

/-! ### The service -/

/-- The service has failed. -/
def FW_SERVICE_ERROR_CODE : ℤ := -1

/-- It ends as it should. -/
def FW_SERVICE_NORMAL_CODE : ℤ := 0

/-- `free_and_exit`; `||` calls `fw_ip_tables_save` only behind a result of
`fw_ip_tables_flush` that is not negative. -/
def freeAndExit (rc : ℤ) : StateM World ℤ := do
  let flushed ← fwIpTablesFlush env
  if flushed < 0 then return Int.lor rc 1
  else
    let saved ← fwIpTablesSave env
    return Int.lor rc (flag (saved < 0))

/-- How `start` leaves its set-up: on to the capture threads, or through
`free_and_exit` with a result. -/
inductive StartResult
  | threads
  | returned (rc : ℤ)
deriving DecidableEq

/-- `start`, from the first `fw_ip_tables_flush` to the creation of the threads. -/
def start (cfg : FwConfigAttrs) : StateM World StartResult := do
  let _ ← fwIpTablesFlush env
  if (← fwUntrustedNetworkRulesInit env) ≠ 0 then
    return .returned (← freeAndExit env FW_SERVICE_ERROR_CODE)
  else if (← fwTrustedNetworkRulesInit env) ≠ 0 then
    return .returned (← freeAndExit env FW_SERVICE_ERROR_CODE)
  else if FW_SERVICE_NORMAL_CODE ≠ (← fwAddBlockRuleForUntrustedZone env cfg) then
    return .returned (← freeAndExit env FW_SERVICE_ERROR_CODE)
  else if FW_SERVICE_NORMAL_CODE ≠ (← fwAddAcceptRuleForTrustedZone env cfg) then
    return .returned (← freeAndExit env FW_SERVICE_ERROR_CODE)
  else
    let _ ← fwIpTablesSave env
    return .threads

/-- A whole run of the service: `rc` is the result of the capture threads. -/
def cycle (cfg : FwConfigAttrs) (rc : ℤ) : StateM World ℤ := do
  match ← start env cfg with
  | .threads => freeAndExit env rc
  | .returned rc' => return rc'

end Helpers

end SecuritySystem.Firewall

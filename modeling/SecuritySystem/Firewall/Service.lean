/-
SecuritySystem/Firewall/Service.lean

The firewall service, `start` of firewall_service_main.c, with the threads that
it creates.

`start` reads the configuration, fills the arguments of its threads, installs
the rules, creates one thread for each device, sleeps until SIGINT, joins one
thread after the other, and takes the rules away.  The main thread is a
`ForkJoin` plan, and each of its workers the machine of Capture.lean.  The
service interleaves them: the threads share the variables of the handler, and
`free_and_exit` frees their arguments, whoever still runs.

A thread that faults ends the process, and so does a join of a thread that was
never created: there is no step behind that.
-/
import SecuritySystem.Lib.ForkJoin
import SecuritySystem.Firewall.CaptureSafety
import SecuritySystem.Firewall.Config
import SecuritySystem.Firewall.Cycles
import SecuritySystem.Firewall.Join

namespace SecuritySystem.Firewall

open CMem CString

/-! ### The start -/

theorem FW_MAX_SEC_WAIT_pos : 0 < FW_MAX_SEC_WAIT := Nat.succ_pos 29

/-- What `start` does with its threads.  The creations end when the flag is
cleared, and `rc` has no value before the first. -/
def joinPlan (devicesNum : ℕ) : ForkJoin.Plan where
  count := devicesNum
  guarded := true
  code := none
  patience := FW_MAX_SEC_WAIT
  failure := FW_SERVICE_ERROR_CODE
  patient := FW_MAX_SEC_WAIT_pos

/-- The surroundings: whether `freopen` opens all that it should; whether
SIGINT was ignored when the service was started; the text that
`parser_read_conf` returns; `1 << n` for an `n` that is too wide; what
`pcap_findalldevs` finds; the result of `pthread_mutex_init`; a bound for the
loop that fills the arguments; what `system` does; and the value of an `rc`
that was never assigned. -/
structure ServiceEnv where
  redirected : Bool
  ignored : Bool
  buffer : Option (List UInt8)
  wide : ℕ → BitVec 32
  findalldevs : Option (List PcapIf)
  mutexInit : ℤ
  tests : ℕ
  iptables : Env
  junk : ℤ

/-- What is fixed before the first thread: the configuration, `thread_args`,
and the number of packets. -/
structure Setup where
  cfg : FwConfigAttrs
  args : List FwThreadArgument
  numPackets : ℤ

/-- The threads with their shared variables, the rules, and what `start` has
returned. -/
structure Service where
  main : ForkJoin.State
  captures : List Capture
  globals : Globals
  world : World
  result : Option ℤ

/-- How `start` gets to its threads, or does not. -/
inductive Started
  | exited
  | returned (rc : ℤ) (w : World)
  | serves (setup : Setup) (s : Service)

/-- A word of the configuration. -/
def wordAt (off : ℕ) (attrs : FwAttrs) : BitVec 32 := wordOf (field off 4 attrs)

/-- `fw_attr_interface`, read as a string; it may run on into the fields
behind. -/
def interfaceOf (attrs : FwAttrs) : Except Fault CString :=
  if 0 ∈ attrs.drop INTERFACE_OFFSET then return .ofMem (attrs.drop INTERFACE_OFFSET)
  else .error .outOfBounds

/-- What the rules need of the configuration. -/
def configOf (iface : CString) (attrs : FwAttrs) : FwConfigAttrs where
  fwAttrInterface := iface
  fwUntrustedNetwork := ⟨wordAt UNTRUSTED_OFFSET attrs, wordAt (UNTRUSTED_OFFSET + 4) attrs⟩
  fwTrustedNetwork := ⟨wordAt TRUSTED_OFFSET attrs, wordAt (TRUSTED_OFFSET + 4) attrs⟩

/-- The service in front of the first `pthread_create`. -/
def Service.begin (env : ServiceEnv) (setup : Setup) (w : World) : Service where
  main := (joinPlan setup.args.length).start true
  captures := []
  globals := Globals.setNetwork env.wide setup.cfg.fwUntrustedNetwork ⟨1, 0, 0, 0, 0, 0⟩
  world := w
  result := none

/-- `start` behind the arguments of the threads. -/
def install (env : ServiceEnv) (rules : Rules) (setup : Setup) : Started :=
  match start env.iptables setup.cfg ⟨rules, []⟩ with
  | (.returned rc, w) => .returned rc w
  | (.threads, w) => .serves setup (.begin env setup w)

/-- `start`, up to the first `pthread_create`; `none` when the loop that fills
the arguments has not ended after the given number of tests. -/
def startService (env : ServiceEnv) (rules : Rules) : Option (Except Fault Started) :=
  if env.redirected then
    match fwParseAndSerializeConfig env.buffer (zeros ATTRS_SIZE) with
    | .error e => some (.error e)
    | .ok ⟨some .exited, _, _⟩ => some (.ok .exited)
    | .ok ⟨some .error, _, _⟩ => some (.ok (.returned FW_SERVICE_ERROR_CODE ⟨rules, []⟩))
    | .ok ⟨none, attrs, _⟩ =>
      match interfaceOf attrs with
      | .error e => some (.error e)
      | .ok iface =>
        match threadArgs env.tests iface env.findalldevs env.mutexInit with
        | none => none
        | some (.error e) => some (.error e)
        | some (.ok none) => some (.ok (.returned FW_SERVICE_ERROR_CODE ⟨rules, []⟩))
        | some (.ok (some args)) =>
          some (.ok (install env rules
            ⟨configOf iface attrs, args, (wordAt PCTS_NUM_OFFSET attrs).toInt⟩))
  else some (.ok (.returned FW_SERVICE_ERROR_CODE ⟨rules, []⟩))

/-! ### The threads -/

/-- What a step may need from outside, by the thread that makes it. -/
inductive ServiceInput
  | main (input : ForkJoin.Input)
  | signal
  | thread (i : ℕ) (input : CaptureInput)
  /-- a thread comes to its end -/
  | ends (i : ℕ)

/-- `late` says whether `thread_args` has been freed. -/
inductive ServiceLabel
  | main (l : ForkJoin.Label)
  | thread (i : ℕ) (late : Bool) (l : CaptureLabel)
deriving DecidableEq

namespace ServiceInput

/-- The main thread makes the step. -/
def ofMain : ServiceInput → Bool
  | .main _ => true
  | _ => false

/-- The `i`-th capture thread makes it. -/
def ofThread (i : ℕ) : ServiceInput → Bool
  | .thread j _ => i = j
  | _ => false

end ServiceInput

/-- The thread has done what is undefined. -/
def CapturePc.isFault : CapturePc → Bool
  | .fault _ => true
  | _ => false

namespace Service

/-- The behaviour is undefined. -/
def dead (s : Service) : Bool := s.main.pc = .fault || s.captures.any fun t => t.pc.isFault

/-- What goes with a step of the main thread: a new thread, or
`free_and_exit`. -/
def absorb (env : ServiceEnv) (s : Service) : ForkJoin.Label → Service
  | .created _ => { s with captures := s.captures ++ [.start] }
  | .freed =>
    let r := freeAndExit env.iptables (s.main.code.getD env.junk) s.world
    { s with
      world := r.2
      result := some r.1 }
  | _ => s

/-- A step of the main thread, or one that ends a worker. -/
def mainStep (env : ServiceEnv) (setup : Setup) (s : Service) (input : ForkJoin.Input) :
    Option (Service × List ServiceLabel) :=
  ((joinPlan setup.args.length).step s.main input).map fun m =>
    (m.2.foldl (absorb env) { s with main := m.1 }, m.2.map .main)

/-- SIGINT. -/
def signalStep (env : ServiceEnv) (s : Service) : Service × List ServiceLabel :=
  if env.ignored then (s, [])
  else ({ s with
    main.flag := false
    globals.fwKeepRunning := 0 }, [])

/-- A step of a thread that runs; what it reads of the arguments may be freed. -/
def threadStep (setup : Setup) (s : Service) (i : ℕ) (input : CaptureInput) :
    Option (Service × List ServiceLabel) :=
  match s.main.workers[i]?, s.captures[i]? with
  | some .running, some t =>
    (t.step setup.numPackets s.globals input).map fun r =>
      ({ s with
        captures := s.captures.set i r.1
        globals := r.2.1 }, r.2.2.map (.thread i s.main.freed))
  | _, _ => none

/-- One step of any thread, or the signal; there is none behind a fault. -/
def step (env : ServiceEnv) (setup : Setup) (s : Service) (input : ServiceInput) :
    Option (Service × List ServiceLabel) :=
  if s.dead then none
  else
    match input with
    | .main input => if input.own then s.mainStep env setup input else none
    | .signal => some (s.signalStep env)
    | .thread i input => s.threadStep setup i input
    | .ends i =>
      match s.captures[i]? with
      | some t => if t.pc = .exited then s.mainStep env setup (.finish i) else none
      | none => none

/-- A run of the service. -/
def run (env : ServiceEnv) (setup : Setup) (s : Service) (inputs : List ServiceInput) :
    Option (Service × List ServiceLabel) :=
  Machine.run (step env setup) s inputs

end Service

/-! ### What a run did -/

/-- The trace of the main thread, to which a read of an argument is a use. -/
def mainTrace : List ServiceLabel → List ForkJoin.Label :=
  List.filterMap fun
    | .main l => some l
    | .thread i late .reads => some (.used i late)
    | _ => none

/-- The trace of one thread. -/
def threadTrace (i : ℕ) : List ServiceLabel → List CaptureLabel :=
  List.filterMap fun
    | .thread j _ l => if j = i then some l else none
    | _ => none

/-- What all threads have shown. -/
def captureTrace : List ServiceLabel → List CaptureLabel :=
  List.filterMap fun
    | .thread _ _ l => some l
    | _ => none

end SecuritySystem.Firewall

/-
SecuritySystem/Firewall/Capture.lean

One capture thread of the firewall service, step by step.

`fw_thread_start` sets its capture up, with one call of libpcap after the
other, and then runs `pcap_loop`, which calls `fw_got_packet` for each packet.
A call that fails is answered with `pthread_cancel(pthread_self())`.  That is
only a request: the thread goes on until one of its calls is a cancellation
point, and which ones are is up to the calls.

The handler is taken apart into its accesses to the shared variables, because
all threads run it and nothing locks them out: `count++` and
`untrusted_counter++` are a load and a store each.  A call that is not
interrupted does what `fwGotPacket` says (`handlerRun_eq`).
-/
import SecuritySystem.Firewall.Network
import SecuritySystem.Lib.Machine

namespace SecuritySystem.Firewall

open CMem

/-! ### The handler -/

/-- Where `fw_got_packet` is, between its accesses to the shared variables. -/
inductive HandlerPc
  /-- in front of `if (!fw_get_keep_running())` -/
  | test
  /-- in front of `ip_bits = 0` -/
  | clear
  | loadCount
  | storeCount (loaded : BitVec 32)
  /-- in front of `ip_bits = ip->ip_src.s_addr` -/
  | storeSource
  | testSource
  | loadCounter
  | storeCounter (loaded : BitVec 32)
  /-- in front of the `switch` -/
  | rest
  | returned
  | threadExit
deriving DecidableEq

/-- The next access of a handler whose argument is not null. -/
def handlerStep (packet : List UInt8) (g : Globals) : HandlerPc → Except Fault (Globals × HandlerPc)
  | .test => return (g, if g.fwKeepRunning = 0 then .threadExit else .clear)
  | .clear => return ({ g with ipBits := 0 }, .loadCount)
  | .loadCount => return (g, .storeCount g.count)
  | .storeCount loaded => do
    let vhl ← load packet SIZE_ETHERNET
    return ({ g with count := loaded + 1 },
      if ipHl vhl * 4 < 20 then .returned else .storeSource)
  | .storeSource => do
    let src ← readAt packet (SIZE_ETHERNET + 12) 4
    let _ ← readAt packet (SIZE_ETHERNET + 16) 4
    return ({ g with ipBits := wordOf src }, .testSource)
  | .testSource => return (g, if g.ipBits &&& g.netmask = g.netBits then .loadCounter else .rest)
  | .loadCounter => return (g, .storeCounter g.untrustedCounter)
  | .storeCounter loaded => return ({ g with untrustedCounter := loaded + 1 }, .rest)
  | .rest => do
    let _ ← afterAddresses packet (sizeIp packet)
    return (g, .returned)
  | .returned => return (g, .returned)
  | .threadExit => return (g, .threadExit)

/-! ### The thread -/

/-- The link type of Ethernet. -/
def DLT_EN10MB : ℤ := 1

/-- Where `fw_thread_start` is: in front of a call, or in `pcap_loop`. -/
inductive CapturePc
  | enable
  | lookupnet
  | openLive
  | datalink
  | compile
  | setfilter
  | disable
  /-- `pcap_loop` waits for a packet -/
  | capturing
  | handler (packet : List UInt8) (pc : HandlerPc)
  | freecode
  | close
  | exited
  | fault (e : Fault)
deriving DecidableEq

/-- `cancelled` says whether the thread has asked to be cancelled; `handle`
whether `pcap_open_live` has returned one; `handled` is the number of packets
that `pcap_loop` has seen to the end. -/
structure Capture where
  pc : CapturePc
  cancelled : Bool
  handle : Bool
  handled : ℕ
deriving DecidableEq

/-- What a step needs from outside. -/
inductive CaptureInput
  /-- the result of the next call, 0 for a null pointer -/
  | call (r : ℤ)
  /-- a pending cancellation takes effect -/
  | cancel
  | packet (bytes : List UInt8)
  /-- `pcap_loop` returns with an error -/
  | fails
  /-- the next step that needs nothing from outside -/
  | go
deriving DecidableEq

/-- What a step shows. -/
inductive CaptureLabel
  /-- the argument is read -/
  | reads
  | opened
  /-- `pcap_loop` is called -/
  | looped
  /-- it returns with an error -/
  | broken
  /-- the handler takes the packet up -/
  | handled (packet : List UInt8)
  /-- the handler ends the thread instead -/
  | dropped (packet : List UInt8)
  /-- `count` is stored -/
  | counted
  /-- `untrusted_counter` is stored -/
  | matched
  | closed
deriving DecidableEq

/-- What an access of the handler shows. -/
def handlerLabels (packet : List UInt8) : HandlerPc → HandlerPc → List CaptureLabel
  | .test, .clear => [.handled packet]
  | .test, _ => [.dropped packet]
  | .storeCount _, _ => [.counted]
  | .storeCounter _, _ => [.matched]
  | _, _ => []

namespace Capture

/-- A new thread. -/
def start : Capture := ⟨.enable, false, false, 0⟩

/-- The state behind a call that has failed or not. -/
def behind (s : Capture) (pc : CapturePc) (failed : Bool) : Capture :=
  { s with
    pc := pc
    cancelled := s.cancelled || failed }

/-- The next call of the set-up, with its result; the messages for a failed
call print the name of the device. -/
def call (s : Capture) (r : ℤ) : Option (Capture × List CaptureLabel) :=
  match s.pc with
  | .enable => some (if r = 0 then { s with pc := .lookupnet } else { s with pc := .exited }, [])
  | .lookupnet => some (s.behind .openLive (r = FW_SERVICE_ERROR_CODE), [.reads])
  | .openLive =>
    if r = 0 then some (s.behind .datalink true, [.reads])
    else some ({ s.behind .datalink false with handle := true }, [.reads, .opened])
  | .datalink =>
    if s.handle = false then some ({ s with pc := .fault .badPointer }, [])
    else if r = DLT_EN10MB then some (s.behind .compile false, [])
    else some (s.behind .compile true, [.reads])
  | .compile => some (s.behind .setfilter (r = FW_SERVICE_ERROR_CODE), [])
  | .setfilter => some (s.behind .disable (r = -1), [])
  | .disable =>
    if r = 0 then some ({ s with pc := .capturing }, [.looped])
    else some ({ s with pc := .exited }, [])
  | _ => none

/-- `pcap_loop` behind a packet; with a count of 0 or less it never ends. -/
def afterPacket (numPackets : ℤ) (s : Capture) : Capture :=
  { s with
    pc := if numPackets = s.handled + 1 then .freecode else .capturing
    handled := s.handled + 1 }

/-- A step that needs nothing from outside. -/
def go (numPackets : ℤ) (g : Globals) (s : Capture) :
    Option (Capture × Globals × List CaptureLabel) :=
  match s.pc with
  | .handler _ .returned => some (s.afterPacket numPackets, g, [])
  | .handler _ .threadExit => some ({ s with pc := .exited }, g, [])
  | .handler packet pc =>
    match handlerStep packet g pc with
    | .error e => some ({ s with pc := .fault e }, g, [])
    | .ok (g, next) => some ({ s with pc := .handler packet next }, g, handlerLabels packet pc next)
  | .freecode => some ({ s with pc := .close }, g, [])
  | .close => some ({ s with pc := .exited }, g, [.closed])
  | _ => none

/-- One step of the thread, which may read and write the globals. -/
def step (numPackets : ℤ) (g : Globals) (s : Capture) :
    CaptureInput → Option (Capture × Globals × List CaptureLabel)
  | .call r => (s.call r).map fun t => (t.1, g, t.2)
  | .cancel =>
    match s.pc with
    | .openLive | .datalink | .compile | .setfilter | .disable =>
      if s.cancelled then some ({ s with pc := .exited }, g, []) else none
    | _ => none
  | .packet bytes =>
    match s.pc with
    | .capturing => some ({ s with pc := .handler bytes .test }, g, [])
    | _ => none
  | .fails =>
    match s.pc with
    | .capturing => some ({ s with pc := .freecode }, g, [.broken])
    | _ => none
  | .go => s.go numPackets g

end Capture

/-! ### A call that is not interrupted -/

/-- So many accesses of one call, with none of another thread in between. -/
def handlerRun (packet : List UInt8) : ℕ → Globals → HandlerPc → Except Fault (Globals × HandlerPc)
  | 0, g, pc => return (g, pc)
  | n + 1, g, pc => do
    let r ← handlerStep packet g pc
    handlerRun packet n r.1 r.2

/-- Where a call ends. -/
def Ending.pc : Ending → HandlerPc
  | .returned => .returned
  | .threadExit => .threadExit

/-- At its end a call stays there. -/
theorem handlerRun_returned (packet : List UInt8) (n : ℕ) (g : Globals) :
    handlerRun packet n g .returned = .ok (g, .returned) := by
  induction n with
  | zero => rfl
  | succ n ih => exact ih

theorem handlerRun_threadExit (packet : List UInt8) (n : ℕ) (g : Globals) :
    handlerRun packet n g .threadExit = .ok (g, .threadExit) := by
  induction n with
  | zero => rfl
  | succ n ih => exact ih

/-- From the test of the source on. -/
theorem handlerRun_testSource (packet : List UInt8) (g : Globals) :
    handlerRun packet 4 g .testSource =
      (afterAddresses packet (sizeIp packet)).map fun _ => (g.countSource g.ipBits, .returned) := by
  have hrest : ∀ n (g : Globals), handlerRun packet (n + 1) g .rest =
      (afterAddresses packet (sizeIp packet)).map fun _ => (g, .returned) := by
    intro n g
    show (handlerStep packet g .rest >>= fun r => handlerRun packet n r.1 r.2) = _
    rcases h : afterAddresses packet (sizeIp packet) with e | ms
    · simp only [handlerStep, h]
      rfl
    · simp only [handlerStep, h]
      exact handlerRun_returned packet n g
  by_cases htest : g.ipBits &&& g.netmask = g.netBits
  · have hstart : handlerRun packet 4 g .testSource =
        handlerRun packet 1 { g with untrustedCounter := g.untrustedCounter + 1 } .rest := by
      show (handlerStep packet g .testSource >>= fun r => handlerRun packet 3 r.1 r.2) = _
      simp only [handlerStep, if_pos htest]
      rfl
    rw [hstart, hrest, Globals.countSource, if_pos htest]
  · have hstart : handlerRun packet 4 g .testSource = handlerRun packet 3 g .rest := by
      show (handlerStep packet g .testSource >>= fun r => handlerRun packet 3 r.1 r.2) = _
      simp only [handlerStep, if_neg htest]
      rfl
    rw [hstart, hrest, Globals.countSource, if_neg htest]

/-- **A call that is not interrupted** does what `fwGotPacket` says, faults
included. -/
theorem handlerRun_eq (packet : List UInt8) (g : Globals) :
    handlerRun packet 9 g .test =
      (fwGotPacket packet true g).map fun r => (r.globals, r.ending.pc) := by
  by_cases hrun : g.fwKeepRunning = 0
  · rw [fwGotPacket, if_pos hrun]
    show (handlerStep packet g .test >>= fun r => handlerRun packet 8 r.1 r.2) = _
    simp only [handlerStep, if_pos hrun]
    exact handlerRun_threadExit packet 8 g
  have hstart : handlerRun packet 9 g .test =
      handlerRun packet 6 { g with ipBits := 0 } (.storeCount g.count) := by
    show (handlerStep packet g .test >>= fun r => handlerRun packet 8 r.1 r.2) = _
    simp only [handlerStep, if_neg hrun]
    rfl
  rw [hstart, fwGotPacket, if_neg hrun, if_neg (by decide), ipPacket]
  show (handlerStep packet _ (.storeCount g.count) >>= fun r => handlerRun packet 5 r.1 r.2) = _
  rcases hvhl : load packet SIZE_ETHERNET with e | vhl
  · simp only [handlerStep, hvhl]
    rfl
  have hsizeIp : ipHl vhl * 4 = sizeIp packet := by
    rw [load_eq_ok hvhl]
    rfl
  by_cases hsize : ipHl vhl * 4 < 20
  · simp only [handlerStep, hvhl, ok_bind, if_pos hsize]
    exact handlerRun_returned packet 5 _
  have hsource : handlerRun packet 5 { g with ipBits := 0, count := g.count + 1 } .storeSource =
      (handlerStep packet { g with ipBits := 0, count := g.count + 1 } .storeSource >>=
        fun r => handlerRun packet 4 r.1 r.2) := rfl
  simp only [handlerStep, hvhl, ok_bind, if_neg hsize]
  show handlerRun packet 5 { g with ipBits := 0, count := g.count + 1 } .storeSource = _
  rw [hsource]
  rcases hsrc : readAt packet (SIZE_ETHERNET + 12) 4 with e | src
  · simp only [handlerStep, hsrc]
    rfl
  rcases hdst : readAt packet (SIZE_ETHERNET + 16) 4 with e | dst
  · simp only [handlerStep, hsrc, hdst, ok_bind]
    rfl
  simp only [handlerStep, hsrc, hdst, ok_bind]
  show handlerRun packet 4 _ .testSource = _
  rw [handlerRun_testSource, hsizeIp]
  rcases afterAddresses packet (sizeIp packet) with e | ms
  · rfl
  · rfl

/-! ### What a step does -/

variable {numPackets : ℤ} {g g' : Globals} {s s' : Capture} {input : CaptureInput}
variable {packet : List UInt8} {pc next : HandlerPc} {tr ls : List CaptureLabel}

/-- Everything that an access of the handler can do. -/
inductive Accesses (packet : List UInt8) (g : Globals) : HandlerPc → Globals → HandlerPc → Prop
  | goesOn : g.fwKeepRunning ≠ 0 → Accesses packet g .test g .clear
  | exits : g.fwKeepRunning = 0 → Accesses packet g .test g .threadExit
  | clear : Accesses packet g .clear { g with ipBits := 0 } .loadCount
  | loadCount : Accesses packet g .loadCount g (.storeCount g.count)
  | storeCount (loaded : BitVec 32) : 20 ≤ sizeIp packet →
    Accesses packet g (.storeCount loaded) { g with count := loaded + 1 } .storeSource
  | badHeader (loaded : BitVec 32) : sizeIp packet < 20 →
    Accesses packet g (.storeCount loaded) { g with count := loaded + 1 } .returned
  | storeSource :
    Accesses packet g .storeSource { g with ipBits := sourceOf packet } .testSource
  | inside : g.ipBits &&& g.netmask = g.netBits → Accesses packet g .testSource g .loadCounter
  | outside : g.ipBits &&& g.netmask ≠ g.netBits → Accesses packet g .testSource g .rest
  | loadCounter : Accesses packet g .loadCounter g (.storeCounter g.untrustedCounter)
  | storeCounter (loaded : BitVec 32) :
    Accesses packet g (.storeCounter loaded) { g with untrustedCounter := loaded + 1 } .rest
  | rest : Accesses packet g .rest g .returned

theorem handlerStep_cases (hreturned : pc ≠ .returned) (hexit : pc ≠ .threadExit)
    (h : handlerStep packet g pc = .ok (g', next)) : Accesses packet g pc g' next := by
  cases pc with
  | test =>
    obtain ⟨rfl, rfl⟩ := Prod.mk.inj (Except.ok.inj h)
    split
    · next hzero => exact .exits hzero
    · next hrun => exact .goesOn hrun
  | storeCount loaded =>
    obtain ⟨vhl, hvhl, h⟩ := bind_eq_ok h
    obtain ⟨rfl, rfl⟩ := Prod.mk.inj (Except.ok.inj h)
    have hsize : ipHl vhl * 4 = sizeIp packet := by
      rw [load_eq_ok hvhl]
      rfl
    rw [hsize]
    split
    · next hlt => exact .badHeader loaded hlt
    · next hge => exact .storeCount loaded (Nat.not_lt.mp hge)
  | storeSource =>
    obtain ⟨src, hsrc, h⟩ := bind_eq_ok h
    obtain ⟨dst, -, h⟩ := bind_eq_ok h
    obtain ⟨rfl, rfl⟩ := Prod.mk.inj (Except.ok.inj h)
    rw [readAt_eq_ok hsrc]
    exact .storeSource
  | testSource =>
    obtain ⟨rfl, rfl⟩ := Prod.mk.inj (Except.ok.inj h)
    split
    · next hin => exact .inside hin
    · next hout => exact .outside hout
  | rest =>
    obtain ⟨ms, -, h⟩ := bind_eq_ok h
    obtain ⟨rfl, rfl⟩ := Prod.mk.inj (Except.ok.inj h)
    exact .rest
  | clear =>
    obtain ⟨rfl, rfl⟩ := Prod.mk.inj (Except.ok.inj h)
    exact .clear
  | loadCount =>
    obtain ⟨rfl, rfl⟩ := Prod.mk.inj (Except.ok.inj h)
    exact .loadCount
  | loadCounter =>
    obtain ⟨rfl, rfl⟩ := Prod.mk.inj (Except.ok.inj h)
    exact .loadCounter
  | storeCounter loaded =>
    obtain ⟨rfl, rfl⟩ := Prod.mk.inj (Except.ok.inj h)
    exact .storeCounter loaded
  | returned => exact absurd rfl hreturned
  | threadExit => exact absurd rfl hexit

/-- The calls behind which a cancellation may take effect. -/
def CapturePc.cancellable : CapturePc → Bool
  | .openLive | .datalink | .compile | .setfilter | .disable => true
  | _ => false

/-- Everything that a step can do. -/
inductive CaptureStep (numPackets : ℤ) (g : Globals) (s : Capture) :
    Capture → Globals → List CaptureLabel → Prop
  | enabled : s.pc = .enable → CaptureStep numPackets g s { s with pc := .lookupnet } g []
  | notEnabled : s.pc = .enable → CaptureStep numPackets g s { s with pc := .exited } g []
  | lookupnet (failed : Bool) : s.pc = .lookupnet →
    CaptureStep numPackets g s (s.behind .openLive failed) g [.reads]
  | notOpened : s.pc = .openLive →
    CaptureStep numPackets g s (s.behind .datalink true) g [.reads]
  | opened : s.pc = .openLive →
    CaptureStep numPackets g s { s.behind .datalink false with handle := true } g [.reads, .opened]
  | noHandle : s.pc = .datalink → s.handle = false →
    CaptureStep numPackets g s { s with pc := .fault .badPointer } g []
  | datalink : s.pc = .datalink → s.handle = true →
    CaptureStep numPackets g s (s.behind .compile false) g []
  | otherLink : s.pc = .datalink → s.handle = true →
    CaptureStep numPackets g s (s.behind .compile true) g [.reads]
  | compile (failed : Bool) : s.pc = .compile →
    CaptureStep numPackets g s (s.behind .setfilter failed) g []
  | setfilter (failed : Bool) : s.pc = .setfilter →
    CaptureStep numPackets g s (s.behind .disable failed) g []
  | disabled : s.pc = .disable →
    CaptureStep numPackets g s { s with pc := .capturing } g [.looped]
  | notDisabled : s.pc = .disable → CaptureStep numPackets g s { s with pc := .exited } g []
  | cancelled : s.pc.cancellable = true → s.cancelled = true →
    CaptureStep numPackets g s { s with pc := .exited } g []
  | packet (bytes : List UInt8) : s.pc = .capturing →
    CaptureStep numPackets g s { s with pc := .handler bytes .test } g []
  | broken : s.pc = .capturing → CaptureStep numPackets g s { s with pc := .freecode } g [.broken]
  | access {packet : List UInt8} {pc next : HandlerPc} {g' : Globals} :
    s.pc = .handler packet pc → Accesses packet g pc g' next →
    CaptureStep numPackets g s { s with pc := .handler packet next } g'
      (handlerLabels packet pc next)
  | faulted {packet : List UInt8} {pc : HandlerPc} {e : Fault} : s.pc = .handler packet pc →
    handlerStep packet g pc = .error e → CaptureStep numPackets g s { s with pc := .fault e } g []
  | seen {packet : List UInt8} : s.pc = .handler packet .returned →
    CaptureStep numPackets g s (s.afterPacket numPackets) g []
  | exits {packet : List UInt8} : s.pc = .handler packet .threadExit →
    CaptureStep numPackets g s { s with pc := .exited } g []
  | freecode : s.pc = .freecode → CaptureStep numPackets g s { s with pc := .close } g []
  | closed : s.pc = .close → CaptureStep numPackets g s { s with pc := .exited } g [.closed]

namespace Capture

theorem afterPacket_pc (numPackets : ℤ) (s : Capture) :
    (s.afterPacket numPackets).pc = .freecode ∨ (s.afterPacket numPackets).pc = .capturing := by
  simp only [afterPacket]
  split <;> simp

theorem call_cases {r : ℤ} (h : s.call r = some (s', ls)) : CaptureStep numPackets g s s' g ls := by
  cases hpc : s.pc with
  | enable =>
    simp only [Capture.call, hpc] at h
    split at h
    · cases h
      exact .enabled hpc
    · cases h
      exact .notEnabled hpc
  | lookupnet =>
    simp only [Capture.call, hpc] at h
    cases h
    exact .lookupnet _ hpc
  | openLive =>
    simp only [Capture.call, hpc] at h
    split at h
    · cases h
      exact .notOpened hpc
    · cases h
      exact .opened hpc
  | datalink =>
    simp only [Capture.call, hpc] at h
    split at h
    · next hhandle =>
      cases h
      exact .noHandle hpc hhandle
    · next hhandle =>
      have hhandle : s.handle = true := Bool.not_eq_false _ ▸ hhandle
      split at h
      · cases h
        exact .datalink hpc hhandle
      · cases h
        exact .otherLink hpc hhandle
  | compile =>
    simp only [Capture.call, hpc] at h
    cases h
    exact .compile _ hpc
  | setfilter =>
    simp only [Capture.call, hpc] at h
    cases h
    exact .setfilter _ hpc
  | disable =>
    simp only [Capture.call, hpc] at h
    split at h
    · cases h
      exact .disabled hpc
    · cases h
      exact .notDisabled hpc
  | capturing | handler | freecode | close | exited | fault =>
    simp only [Capture.call, hpc] at h
    cases h

theorem go_cases (h : s.go numPackets g = some (s', g', ls)) :
    CaptureStep numPackets g s s' g' ls := by
  cases hpc : s.pc with
  | handler packet pc =>
    by_cases hreturned : pc = .returned
    · subst hreturned
      simp only [Capture.go, hpc] at h
      cases h
      exact .seen hpc
    by_cases hexit : pc = .threadExit
    · subst hexit
      simp only [Capture.go, hpc] at h
      cases h
      exact .exits hpc
    rcases hstep : handlerStep packet g pc with e | ⟨g₁, next⟩
    · have hgo : s.go numPackets g = some ({ s with pc := .fault e }, g, []) := by
        cases pc <;> first | contradiction | simp only [Capture.go, hpc, hstep]
      rw [hgo] at h
      cases h
      exact .faulted hpc hstep
    · have hgo : s.go numPackets g = some ({ s with pc := .handler packet next }, g₁,
          handlerLabels packet pc next) := by
        cases pc <;> first | contradiction | simp only [Capture.go, hpc, hstep]
      rw [hgo] at h
      cases h
      exact .access hpc (handlerStep_cases hreturned hexit hstep)
  | freecode =>
    simp only [Capture.go, hpc] at h
    cases h
    exact .freecode hpc
  | close =>
    simp only [Capture.go, hpc] at h
    cases h
    exact .closed hpc
  | enable | lookupnet | openLive | datalink | compile | setfilter | disable | capturing | exited |
    fault =>
    simp only [Capture.go, hpc] at h
    cases h

theorem step_cases (h : s.step numPackets g input = some (s', g', ls)) :
    CaptureStep numPackets g s s' g' ls := by
  cases input with
  | call r =>
    obtain ⟨⟨t, ls'⟩, hcall, he⟩ := Option.map_eq_some_iff.mp h
    cases he
    exact call_cases hcall
  | cancel =>
    have hcancel : ∀ hpc : s.pc.cancellable = true,
        (if s.cancelled then some ({ s with pc := .exited }, g, [])
          else (none : Option (Capture × Globals × List CaptureLabel))) = some (s', g', ls) →
          CaptureStep numPackets g s s' g' ls := by
      intro hpc h
      split at h
      · next hyes =>
        cases h
        exact .cancelled hpc hyes
      · cases h
    cases hpc : s.pc with
    | openLive | datalink | compile | setfilter | disable =>
      simp only [Capture.step, hpc] at h
      exact hcancel (by rw [hpc]; rfl) h
    | enable | lookupnet | capturing | handler | freecode | close | exited | fault =>
      simp only [Capture.step, hpc] at h
      cases h
  | packet bytes =>
    simp only [Capture.step] at h
    split at h
    · next hpc =>
      cases h
      exact .packet bytes hpc
    · cases h
  | fails =>
    simp only [Capture.step] at h
    split at h
    · next hpc =>
      cases h
      exact .broken hpc
    · cases h
  | go => exact go_cases h

end Capture

end SecuritySystem.Firewall

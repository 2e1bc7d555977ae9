/-
SecuritySystem/Manager/Protocol.lean

The service manager, its processes and its clients as one transition system.

The manager's `main` accepts a connection, forks a child that forks a child of
its own, and closes its copy of the descriptor; the grandchild reads messages
from the connection and answers them out of its own copy of `args`.  A backup
or firewall client connects, sends its INIT, reads one answer into a zeroed
object and enters `start` if the signal in it is the ACCEPT number.  Any other
client may open connections and send what it likes.

Descriptors are per process and are used again after a `close`; a fork copies
the descriptors and `args`.  A read delivers one whole message or the end of
the stream.  Failing calls and signals end a process at any point (`die`,
`close`).

`State.trace` records what happened, newest first, and every message carries
the client it goes back to (`Packet.origin`).  Both are written and never
read by a step; they are there to say what a run has done.
-/
import SecuritySystem.Manager.Message
import Mathlib.Logic.Function.Basic
import Mathlib.Logic.Relation

namespace SecuritySystem.Protocol

open SecuritySystem ServiceMessage Function

/-! ### The parties -/

/-- A client process. -/
abbrev ClientId := ℕ

/-- A connection. -/
abbrev ConnId := ℕ

/-- A process of the manager; 0 is `main`. -/
abbrev Pid := ℕ

/-- A descriptor. -/
abbrev Fd := ℕ

/-- The two services that ask the manager for permission to start. -/
inductive Service
  | backup
  | firewall
deriving DecidableEq

/-- The process id in its messages. -/
def Service.processType : Service → ℕ
  | .backup => backupServiceProcessType
  | .firewall => firewallServiceProcessType

/-- The signal with which it asks. -/
def Service.initSignal : Service → UInt8
  | .backup => SIGNAL_BACKUP_INIT
  | .firewall => SIGNAL_FIREWALL_INIT

/-- The signal that makes a client of the service call `start`. -/
def Service.acceptSignal : Service → UInt8
  | .backup => SIGNAL_MAKE_BACKUP_ACCEPT
  | .firewall => SIGNAL_MAKE_FIREWALL_ACCEPT

/-- `say_hello_backup_service`, `say_hello_firewall_service` -/
def Service.sayHello (v : Service) : ServiceMessage :=
  (zero.setProcessId v.processType).setSignal v.initSignal

/-- A message in flight or in a buffer, with the client on whose behalf it
travels; uninitialised memory belongs to nobody. -/
structure Packet where
  message : ServiceMessage
  origin : Option ClientId

/-- A connection: the client that opened it, the messages in flight in both
directions, oldest first, whether the client's end is open, and whether the
manager has accepted it. -/
structure Conn where
  owner : ClientId
  toServer : List Packet
  toClient : List Packet
  clientOpen : Bool
  accepted : Bool

/-- What a descriptor of the manager stands for. -/
inductive File
  | listener
  | conn (c : ConnId)
deriving DecidableEq

/-- `mgr_service_process_args_t` -/
structure Args where
  sockfd : Fd
  newsockfd : Fd
  message : Packet

/-- Where a process of the manager is: `main` between `accept`, `fork` and
`close`; its child before and after the second `fork`; the child of the child
in front of `read` or of `write`. -/
inductive Phase
  | accepting
  | forking
  | closing
  | forkingChild
  | waiting (child : Pid)
  | reading
  | writing
  | exited
deriving DecidableEq

/-- A process of the manager. -/
structure Proc where
  phase : Phase
  fds : Fd → Option File
  args : Args

/-- Where a backup or firewall client is. -/
inductive ClientPhase
  | idle
  | connected (c : ConnId)
  | awaiting (c : ConnId)
  | deciding (c : ConnId) (answer : ServiceMessage)
  | running (c : ConnId)
  | finished

/-- What a run can show. -/
inductive Event
  | connected (i : ClientId) (c : ConnId)
  | sent (i : ClientId) (c : ConnId) (m : ServiceMessage)
  | accepted (c : ConnId)
  | forked (p : Pid) (c : ConnId)
  | received (p : Pid) (c : ConnId) (m : ServiceMessage)
  | answered (p : Pid) (c : ConnId) (r : ServiceMessage)
  | took (i : ClientId) (c : ConnId) (r : ServiceMessage) (origin : Option ClientId)
  | sawEof (i : ClientId) (c : ConnId)
  | started (i : ClientId)

/-- The manager, the connections, the clients, and what the run has shown, newest first. -/
structure State where
  procs : Pid → Option Proc
  conns : ConnId → Option Conn
  clients : ClientId → ClientPhase
  trace : List Event

/-! ### Changes of the state -/

namespace State

variable (s : State)

/-- A process has come further, or is new. -/
def setProc (p : Pid) (x : Proc) : State := { s with procs := update s.procs p (some x) }

/-- A connection has changed, or is new. -/
def setConn (c : ConnId) (k : Conn) : State := { s with conns := update s.conns c (some k) }

/-- A client has come further. -/
def setClient (i : ClientId) (ph : ClientPhase) : State :=
  { s with clients := update s.clients i ph }

/-- The event has happened. -/
def log (e : Event) : State := { s with trace := e :: s.trace }

/-- Some process of the manager has a descriptor for the connection. -/
def Held (c : ConnId) : Prop :=
  ∃ p x fd, s.procs p = some x ∧ x.fds fd = some (.conn c)

end State

/-- A process that has exited holds no descriptor. -/
def Proc.exit (x : Proc) : Proc := { x with phase := .exited, fds := fun _ => none }

/-- What a read of one whole message makes of the process: the message is in
`args`, turned into the reply if it is answered. -/
def Proc.receive (x : Proc) (m : Packet) : Proc :=
  match answer (x.args.message.message.overlay m.message.bytes) with
  | none =>
    { x with args.message := ⟨x.args.message.message.overlay m.message.bytes, m.origin⟩ }
  | some reply => { x with phase := .writing, args.message := ⟨reply, m.origin⟩ }

/-- A connection that its client has just opened. -/
def Conn.fresh (i : ClientId) : Conn := ⟨i, [], [], true, false⟩

/-! ### Steps -/

/-- `kind i` is the service of client `i`, or nothing for any other client. -/
inductive Step (kind : ClientId → Option Service) (s : State) : State → Prop
  /-- `main`: `accept` returns a free descriptor for a pending connection. -/
  | accept {p : Pid} {x : Proc} {sockfd fd : Fd} {c : ConnId} {k : Conn}
      (hp : s.procs p = some x) (hph : x.phase = .accepting)
      (hsock : x.fds sockfd = some .listener) (hfd : x.fds fd = none)
      (hc : s.conns c = some k) (hk : k.accepted = false) :
      Step kind s (((s.log (.accepted c)).setConn c { k with accepted := true }).setProc p
        { phase := .forking, fds := update x.fds fd (some (.conn c)),
          args := { x.args with sockfd := sockfd, newsockfd := fd } })
  /-- `service_child_process_handler`: the first `fork`. -/
  | fork {p q : Pid} {x : Proc} (hp : s.procs p = some x) (hph : x.phase = .forking)
      (hq : s.procs q = none) :
      Step kind s ((s.setProc p { x with phase := .closing }).setProc q
        { x with phase := .forkingChild })
  /-- `main`: `close(newsockfd)` -/
  | closeNew {p : Pid} {x : Proc} (hp : s.procs p = some x) (hph : x.phase = .closing) :
      Step kind s (s.setProc p
        { x with phase := .accepting, fds := update x.fds x.args.newsockfd none })
  /-- The second `fork`, in the child. -/
  | forkChild {p q : Pid} {x : Proc} {c : ConnId} (hp : s.procs p = some x)
      (hph : x.phase = .forkingChild) (hfd : x.fds x.args.newsockfd = some (.conn c))
      (hq : s.procs q = none) :
      Step kind s (((s.log (.forked q c)).setProc p { x with phase := .waiting q }).setProc q
        { x with phase := .reading })
  /-- The child's `wait` returns. -/
  | waited {p q : Pid} {x y : Proc} (hp : s.procs p = some x) (hph : x.phase = .waiting q)
      (hq : s.procs q = some y) (hy : y.phase = .exited) :
      Step kind s (s.setProc p x.exit)
  /-- The child of the child reads a message. -/
  | read {p : Pid} {x : Proc} {c : ConnId} {k : Conn} {m : Packet} {rest : List Packet}
      (hp : s.procs p = some x) (hph : x.phase = .reading)
      (hfd : x.fds x.args.newsockfd = some (.conn c)) (hc : s.conns c = some k)
      (hm : k.toServer = m :: rest) :
      Step kind s (((s.log (.received p c
          (x.args.message.message.overlay m.message.bytes))).setConn c
            { k with toServer := rest }).setProc p (x.receive m))
  /-- It writes its answer. -/
  | write {p : Pid} {x : Proc} {c : ConnId} {k : Conn} (hp : s.procs p = some x)
      (hph : x.phase = .writing) (hfd : x.fds x.args.newsockfd = some (.conn c))
      (hc : s.conns c = some k) :
      Step kind s (((s.log (.answered p c x.args.message.message)).setConn c
        { k with toClient := k.toClient ++ [x.args.message] }).setProc p
          { x with phase := .reading })
  /-- Its `read` finds the end of the stream. -/
  | readEof {p : Pid} {x : Proc} {c : ConnId} {k : Conn} (hp : s.procs p = some x)
      (hph : x.phase = .reading) (hfd : x.fds x.args.newsockfd = some (.conn c))
      (hc : s.conns c = some k) (hm : k.toServer = []) (hopen : k.clientOpen = false) :
      Step kind s (s.setProc p x.exit)
  /-- A failing call ends in `service_err_handler`, which exits; a signal may
  end any process. -/
  | die {p : Pid} {x : Proc} (hp : s.procs p = some x) : Step kind s (s.setProc p x.exit)
  /-- A service client connects. -/
  | connect {i : ClientId} {v : Service} {c : ConnId} (hi : kind i = some v)
      (hph : s.clients i = .idle) (hc : s.conns c = none) :
      Step kind s (((s.log (.connected i c)).setConn c (.fresh i)).setClient i (.connected c))
  /-- It sends its INIT. -/
  | sayHello {i : ClientId} {v : Service} {c : ConnId} {k : Conn} (hi : kind i = some v)
      (hph : s.clients i = .connected c) (hc : s.conns c = some k) :
      Step kind s (((s.log (.sent i c v.sayHello)).setConn c
        { k with toServer := k.toServer ++ [⟨v.sayHello, some i⟩] }).setClient i (.awaiting c))
  /-- It reads an answer into the zeroed `answer`. -/
  | takeReply {i : ClientId} {v : Service} {c : ConnId} {k : Conn} {r : Packet}
      {rest : List Packet} (hi : kind i = some v) (hph : s.clients i = .awaiting c)
      (hc : s.conns c = some k) (hr : k.toClient = r :: rest) :
      Step kind s (((s.log (.took i c r.message r.origin)).setConn c
        { k with toClient := rest }).setClient i
          (.deciding c (zero.overlay r.message.bytes)))
  /-- It reads the end of the stream: `answer` stays as it is. -/
  | takeEof {i : ClientId} {v : Service} {c : ConnId} {k : Conn} (hi : kind i = some v)
      (hph : s.clients i = .awaiting c) (hc : s.conns c = some k) (hr : k.toClient = [])
      (hacc : k.accepted = true) (hheld : ¬ s.Held c) :
      Step kind s ((s.log (.sawEof i c)).setClient i (.deciding c zero))
  /-- It calls `start`. -/
  | start {i : ClientId} {v : Service} {c : ConnId} {ans : ServiceMessage} (hi : kind i = some v)
      (hph : s.clients i = .deciding c ans) (hans : ans.signal = v.acceptSignal) :
      Step kind s ((s.log (.started i)).setClient i (.running c))
  /-- A client closes a connection and ends: after `start`, after an answer
  that is no ACCEPT, after a failing call, or by a signal. -/
  | close {i : ClientId} {c : ConnId} {k : Conn} (hc : s.conns c = some k) (hk : k.owner = i) :
      Step kind s ((s.setConn c { k with clientOpen := false }).setClient i .finished)
  /-- Another client connects, as often as it likes. -/
  | otherConnect {i : ClientId} {c : ConnId} (hi : kind i = none) (hc : s.conns c = none) :
      Step kind s ((s.log (.connected i c)).setConn c (.fresh i))
  /-- It sends any message. -/
  | otherSend {i : ClientId} {c : ConnId} {k : Conn} (m : ServiceMessage) (hi : kind i = none)
      (hc : s.conns c = some k) (hk : k.owner = i) (hopen : k.clientOpen = true) :
      Step kind s ((s.log (.sent i c m)).setConn c
        { k with toServer := k.toServer ++ [⟨m, some i⟩] })
  /-- It takes a reply from one of its connections. -/
  | otherTake {i : ClientId} {c : ConnId} {k : Conn} {r : Packet} {rest : List Packet}
      (hi : kind i = none) (hc : s.conns c = some k) (hk : k.owner = i)
      (hopen : k.clientOpen = true) (hr : k.toClient = r :: rest) :
      Step kind s ((s.log (.took i c r.message r.origin)).setConn c { k with toClient := rest })

/-- The manager in front of its first `accept`, with whatever `args` holds. -/
def init (sockfd : Fd) (args : Args) : State where
  procs p := if p = 0 then
    some ⟨.accepting, fun fd => if fd = sockfd then some .listener else none, args⟩ else none
  conns _ := none
  clients _ := .idle
  trace := []

/-- The states of all runs. -/
def Reachable (kind : ClientId → Option Service) (s : State) : Prop :=
  ∃ sockfd args, Relation.ReflTransGen (Step kind) (init sockfd args) s

end SecuritySystem.Protocol

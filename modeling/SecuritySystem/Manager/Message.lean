/-
SecuritySystem/Manager/Message.lean

The messages of include/helpers/helpers_common.h and the answer of the service
manager to one of them.

A `service_message_t` is its 520 bytes in memory and on the wire: four bytes
of process id (little endian), one byte of signal, 512 bytes of text, and
three bytes of padding.  A read of `n` bytes into such an object replaces its
first `n` bytes and nothing else (`overlay`).

`answer` is the test in the loop of `service_child_process_handler`: an INIT
of one of the two services is turned into the ACCEPT of that service, in
place; anything else gets no answer.
-/
import Mathlib.Algebra.GroupWithZero.Nat
import Mathlib.Data.List.Basic

namespace SecuritySystem

/-! ### Constants -/

/-- `ipc_message_process_id` -/
def backupServiceProcessType : ℕ := 0

/-- The process id of a firewall service. -/
def firewallServiceProcessType : ℕ := 1

/-- `mss_backup_service_signal_t` -/
def SIGNAL_BACKUP_INIT : UInt8 := 0

/-- The backup service may not start. -/
def SIGNAL_MAKE_BACKUP_DENY : UInt8 := 1

/-- The backup service may start. -/
def SIGNAL_MAKE_BACKUP_ACCEPT : UInt8 := 2

/-- `mss_firewall_service_signal_t` -/
def SIGNAL_FIREWALL_INIT : UInt8 := 0

/-- The firewall service may not start. -/
def SIGNAL_MAKE_FIREWALL_DENY : UInt8 := 1

/-- The firewall service may start. -/
def SIGNAL_MAKE_FIREWALL_ACCEPT : UInt8 := 2

/-! ### Messages -/

/-- `service_message_t`: 520 bytes. -/
structure ServiceMessage where
  bytes : List UInt8
  size : bytes.length = 520
deriving DecidableEq

/-- The process id and the signal at the start of a piece of memory. -/
def headOf : List UInt8 → ℕ × UInt8
  | b₀ :: b₁ :: b₂ :: b₃ :: s :: _ =>
    (b₀.toNat + 256 * (b₁.toNat + 256 * (b₂.toNat + 256 * b₃.toNat)), s)
  | _ => (0, 0)

namespace ServiceMessage

variable {m r : ServiceMessage} {chunk : List UInt8}

/-- The first four bytes, lowest first. -/
def processId (m : ServiceMessage) : ℕ := (headOf m.bytes).1

/-- The byte behind them. -/
def signal (m : ServiceMessage) : UInt8 := (headOf m.bytes).2

/-- What a message is about: its process id and its signal. -/
def head (m : ServiceMessage) : ℕ × UInt8 := (m.processId, m.signal)

/-- The process id is one of the enumerators. -/
def WellFormed (m : ServiceMessage) : Prop :=
  m.processId = backupServiceProcessType ∨ m.processId = firewallServiceProcessType

/-- `message.signal = s` -/
def setSignal (m : ServiceMessage) (s : UInt8) : ServiceMessage where
  bytes := m.bytes.set 4 s
  size := by rw [List.length_set, m.size]

/-- `message.process_id = n` -/
def setProcessId (m : ServiceMessage) (n : ℕ) : ServiceMessage where
  bytes := .ofNat n :: .ofNat (n / 256) :: .ofNat (n / 256 ^ 2) :: .ofNat (n / 256 ^ 3) ::
    m.bytes.drop 4
  size := by
    rw [List.length_cons, List.length_cons, List.length_cons, List.length_cons, List.length_drop,
      m.size]

/-- `read(fd, &message, sizeof(message))` delivering the bytes of `chunk`; it
never delivers more than the size asked for. -/
def overlay (m : ServiceMessage) (chunk : List UInt8) : ServiceMessage where
  bytes := chunk.take 520 ++ m.bytes.drop chunk.length
  size := by
    rw [List.length_append, List.length_take, List.length_drop, m.size]
    omega

/-- `{0}` -/
def zero : ServiceMessage where
  bytes := List.replicate 520 0
  size := List.length_replicate ..

@[ext] theorem ext (h : m.bytes = r.bytes) : m = r := by
  cases m; cases r; cases h; rfl

/-- The first five bytes of a message. -/
theorem exists_bytes (m : ServiceMessage) :
    ∃ b₀ b₁ b₂ b₃ s rest, m.bytes = b₀ :: b₁ :: b₂ :: b₃ :: s :: rest := by
  have h := m.size
  match hm : m.bytes with
  | b₀ :: b₁ :: b₂ :: b₃ :: s :: rest => exact ⟨b₀, b₁, b₂, b₃, s, rest, rfl⟩
  | [] | [_] | [_, _] | [_, _, _] | [_, _, _, _] => simp [hm] at h

theorem head_eq (m : ServiceMessage) : m.head = headOf m.bytes := rfl

@[simp] theorem signal_setSignal (m : ServiceMessage) (s : UInt8) :
    (m.setSignal s).signal = s := by
  obtain ⟨b₀, b₁, b₂, b₃, s', rest, h⟩ := m.exists_bytes
  simp [signal, setSignal, h, headOf]

@[simp] theorem processId_setSignal (m : ServiceMessage) (s : UInt8) :
    (m.setSignal s).processId = m.processId := by
  obtain ⟨b₀, b₁, b₂, b₃, s', rest, h⟩ := m.exists_bytes
  simp [processId, setSignal, h, headOf]

/-- A read of the whole size replaces the message. -/
theorem overlay_whole (m r : ServiceMessage) : m.overlay r.bytes = r := by
  apply ext
  show r.bytes.take 520 ++ m.bytes.drop r.bytes.length = r.bytes
  rw [r.size, List.drop_of_length_le (Nat.le_of_eq m.size), List.append_nil,
    List.take_of_length_le (Nat.le_of_eq r.size)]

/-- A read that covers process id and signal determines both. -/
theorem head_overlay_of_le (h : 5 ≤ chunk.length) : (m.overlay chunk).head = headOf chunk := by
  rw [head_eq]
  match chunk, h with
  | b₀ :: b₁ :: b₂ :: b₃ :: s :: rest, _ => rfl

/-- A shorter read leaves the signal of the old message. -/
theorem signal_overlay_of_lt (h : chunk.length < 5) : (m.overlay chunk).signal = m.signal := by
  obtain ⟨b₀, b₁, b₂, b₃, s, rest, hm⟩ := m.exists_bytes
  match chunk, h with
  | [], _ => simp [signal, overlay, hm]
  | [_], _ => simp [signal, overlay, hm, headOf]
  | [_, _], _ => simp [signal, overlay, hm, headOf]
  | [_, _, _], _ => simp [signal, overlay, hm, headOf]
  | [_, _, _, _], _ => simp [signal, overlay, hm, headOf]

/-- The lowest byte of the process id is the first byte that was read. -/
theorem processId_overlay_cons (m : ServiceMessage) (b : UInt8) (chunk : List UInt8) :
    (m.overlay (b :: chunk)).processId % 256 = b.toNat := by
  obtain ⟨b₀, b₁, b₂, b₃, s, rest, h⟩ := (m.overlay (b :: chunk)).exists_bytes
  have hb : b = b₀ := by
    have h' : (b :: chunk).take 520 ++ m.bytes.drop (b :: chunk).length =
        b₀ :: b₁ :: b₂ :: b₃ :: s :: rest := h
    rw [List.take_succ_cons, List.cons_append] at h'
    exact (List.cons.inj h').1
  have hlt := b.toNat_lt
  rw [processId, h, ← hb]
  show (b.toNat + 256 * (b₁.toNat + 256 * (b₂.toNat + 256 * b₃.toNat))) % 256 = b.toNat
  omega

end ServiceMessage

/-! ### The manager's answer -/

/-- The reply that the loop writes for the message in its buffer, which is
also what the buffer holds afterwards. -/
def answer (m : ServiceMessage) : Option ServiceMessage :=
  if m.processId = backupServiceProcessType ∧ m.signal = SIGNAL_BACKUP_INIT then
    some (m.setSignal SIGNAL_MAKE_BACKUP_ACCEPT)
  else if m.processId = firewallServiceProcessType ∧ m.signal = SIGNAL_FIREWALL_INIT then
    some (m.setSignal SIGNAL_MAKE_FIREWALL_ACCEPT)
  else none

/-- What the branch that wrote `reply` makes of it when the `write` has
failed. -/
def denied (reply : ServiceMessage) : ServiceMessage :=
  if reply.processId = backupServiceProcessType then reply.setSignal SIGNAL_MAKE_BACKUP_DENY
  else reply.setSignal SIGNAL_MAKE_FIREWALL_DENY

/-- `m` is the (backup, INIT) or the (firewall, INIT) message. -/
def ServiceMessage.IsInit (m : ServiceMessage) : Prop :=
  m.WellFormed ∧ m.signal = 0

instance : DecidablePred ServiceMessage.IsInit := fun m => by
  unfold ServiceMessage.IsInit ServiceMessage.WellFormed; infer_instance

/-- The two branches answer alike, because their signals have the same
numbers. -/
theorem answer_of_isInit {m : ServiceMessage} (h : m.IsInit) :
    answer m = some (m.setSignal 2) := by
  rcases h with ⟨hb | hf, hs⟩
  · exact if_pos ⟨hb, hs⟩
  · rw [answer, if_neg (by rw [hf]; rintro ⟨h, -⟩; exact absurd h (by decide))]
    exact if_pos ⟨hf, hs⟩

theorem answer_of_not_isInit {m : ServiceMessage} (h : ¬ m.IsInit) : answer m = none := by
  rw [answer, if_neg fun hb => h ⟨.inl hb.1, hb.2⟩, if_neg fun hf => h ⟨.inr hf.1, hf.2⟩]

/-- Every answer is an ACCEPT that carries the process id of the message. -/
theorem answer_eq_some {m r : ServiceMessage} (h : answer m = some r) :
    m.IsInit ∧ r.processId = m.processId ∧ r.signal = 2 := by
  by_cases hi : m.IsInit
  · rw [answer_of_isInit hi] at h
    obtain rfl := Option.some.inj h
    exact ⟨hi, m.processId_setSignal 2, m.signal_setSignal 2⟩
  · rw [answer_of_not_isInit hi] at h
    cases h

end SecuritySystem

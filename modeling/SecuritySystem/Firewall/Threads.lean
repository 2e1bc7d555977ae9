/-
SecuritySystem/Firewall/Threads.lean

The capture threads of the firewall service.

`start` counts the devices, fills one `fw_thread_argument_t` for each and
creates one thread for each.  The loop that fills them takes the next device
before it uses one, so the first device is never named, and the last entry
stays as `calloc` left it (`fillLoop_eq`).  The counters have 8 bits: with 256
devices and more the loop runs past the array, which has only the remainder
(`lt_of_fillLoop`).
-/
import SecuritySystem.Lib.StringField

namespace SecuritySystem.Firewall

open CMem CMem.CString

/-! ### The code -/

/-- The size of a device name in `thread_args`. -/
def FW_DEVICE_MAX_LEN : ℕ := 32

/-- The number of threads for one interface. -/
def FW_ONE_IFACE_SET : UInt8 := 1

/-- The interface that stands for all devices. -/
def FW_ATTR_IFACE_ALL : CString := lit "all"

/-- `pcap_if_t`; the list is met along `next`. -/
structure PcapIf where
  name : CString
deriving DecidableEq

/-- `fw_thread_argument_t`; `common_mutex` is a null pointer, or points to the
mutex of `start`. -/
structure FwThreadArgument where
  deviceName : List UInt8
  commonMutex : Bool
deriving DecidableEq

/-- An entry from `calloc`. -/
def emptyEntry : FwThreadArgument := ⟨zeros FW_DEVICE_MAX_LEN, false⟩

/-- `for (device = alldevs; device; device = device->next, devices_num++);` -/
def countDevices : List PcapIf → UInt8 → UInt8
  | [], devicesNum => devicesNum
  | _ :: device, devicesNum => countDevices device (devicesNum + 1)

/-- The two assignments to `thread_args[i]`. -/
def setEntry (args : List FwThreadArgument) (i : UInt8) (deviceName : CString)
    (commonMutex : Bool) : Except Fault (List FwThreadArgument) :=
  match args[i.toNat]? with
  | none => .error .outOfBounds
  | some entry => do
    let name ← writeAt entry.deviceName 0 deviceName.bytes
    return args.set i.toNat ⟨name, commonMutex⟩

section Fill

variable (alldevs : List PcapIf) (fwAttrInterface : CString)

/-- The body of the loop that fills the entries; `none` for `break`. -/
def fillEntry (device : List PcapIf) (i : UInt8) (args : List FwThreadArgument) :
    Except Fault (Option (List PcapIf × List FwThreadArgument)) :=
  match alldevs with
  | [] => do
    let args ← setEntry args i fwAttrInterface false
    return some (device, args)
  | _ :: _ =>
    match device with
    | [] => return none
    | _ :: device =>
      match device with
      | [] => return none
      | next :: _ => do
        let args ← setEntry args i next.name true
        return some (device, args)

/-- `for (device = alldevs, i = 0; device || i < devices_num; i++)`; `none`
when the loop has not ended after the given number of tests. -/
def fillLoop (devicesNum : UInt8) : ℕ → List PcapIf → UInt8 → List FwThreadArgument →
    Option (Except Fault (List FwThreadArgument))
  | 0, _, _, _ => none
  | tests + 1, device, i, args =>
    if device ≠ [] ∨ i < devicesNum then
      match fillEntry alldevs fwAttrInterface device i args with
      | .error e => some (.error e)
      | .ok none => some (.ok args)
      | .ok (some (device, args)) => fillLoop devicesNum tests device (i + 1) args
    else some (.ok args)

end Fill

/-- `start` up to the filled entries, with what `pcap_findalldevs` finds,
`none` for an error, and the result of `pthread_mutex_init`; `none` for the
returns with an error code. -/
def threadArgs (tests : ℕ) (fwAttrInterface : CString) (findalldevs : Option (List PcapIf))
    (mutexInit : ℤ) : Option (Except Fault (Option (List FwThreadArgument))) :=
  let alldevs := if fwAttrInterface = FW_ATTR_IFACE_ALL then findalldevs.getD [] else []
  let devicesNum :=
    if fwAttrInterface = FW_ATTR_IFACE_ALL then countDevices alldevs 0 else FW_ONE_IFACE_SET
  if devicesNum = 0 then some (.ok none)
  else if FW_ONE_IFACE_SET ≠ devicesNum ∧ mutexInit ≠ 0 then some (.ok none)
  else
    (fillLoop alldevs fwAttrInterface devicesNum tests alldevs 0
      (List.replicate devicesNum.toNat emptyEntry)).map fun r => r.map some

/-- `for (i = 0; i < devices_num && fw_keep_running; i++)`, with the flag and
the result of `pthread_create` for each index: the arguments of the threads
created, and `rc`, which has no value before the first call.  With an `rc`
other than 0 `start` returns. -/
def createThreads (fwKeepRunning : ℕ → Bool) (pthreadCreate : ℕ → ℤ) :
    ℕ → List FwThreadArgument → Option ℤ → List FwThreadArgument × Option ℤ
  | _, [], rc => ([], rc)
  | i, arg :: args, rc =>
    if fwKeepRunning i then
      if pthreadCreate i = 0 then
        let (threads, rc) := createThreads fwKeepRunning pthreadCreate (i + 1) args (some 0)
        (arg :: threads, rc)
      else ([], some (pthreadCreate i))
    else ([], rc)

/-! ### One entry for each device -/

/-- The entry holds the name. -/
def FwThreadArgument.Names (arg : FwThreadArgument) (name : CString) : Prop :=
  Shows arg.deviceName name

instance (arg : FwThreadArgument) (name : CString) : Decidable (arg.Names name) :=
  inferInstanceAs (Decidable (Shows _ _))

/-- What the threads are meant for: with these devices, each is named by
exactly one entry, no entry is empty, and each has its thread. -/
structure OnePerDevice (devs : List PcapIf) (args : List FwThreadArgument) : Prop where
  fills : ∀ tests, devs.length < tests →
    threadArgs tests FW_ATTR_IFACE_ALL (some devs) 0 = some (.ok (some args))
  named : ∀ d ∈ devs, ∃! i : ℕ, ∃ arg, args[i]? = some arg ∧ arg.Names d.name
  nonempty : ∀ arg ∈ args, ¬ arg.Names (lit "")
  threads : (createThreads (fun _ => true) (fun _ => 0) 0 args none).1.length = devs.length

section Fill

variable {alldevs device rest : List PcapIf} {iface : CString} {devicesNum i : UInt8} {tests : ℕ}
variable {d : PcapIf} {args args' done : List FwThreadArgument}

/-- The entry that the loop makes for a device. -/
def entryOf (d : PcapIf) : FwThreadArgument :=
  ⟨overlay FW_DEVICE_MAX_LEN (zeros FW_DEVICE_MAX_LEN) d.name.bytes, true⟩

theorem countDevices_eq (devs : List PcapIf) (n : UInt8) :
    countDevices devs n = n + UInt8.ofNat devs.length := by
  induction devs generalizing n with
  | nil => simp [countDevices]
  | cons d devs ih =>
    rw [countDevices, ih, List.length_cons, UInt8.ofNat_add, UInt8.add_assoc, UInt8.add_comm 1]
    rfl

theorem setEntry_emptyEntry (hentry : args[i.toNat]? = some emptyEntry)
    (hname : d.name.strlen ≤ FW_DEVICE_MAX_LEN) :
    setEntry args i d.name true = .ok (args.set i.toNat (entryOf d)) := by
  have hwrite : writeAt (zeros FW_DEVICE_MAX_LEN) 0 d.name.bytes =
      .ok (overlay FW_DEVICE_MAX_LEN (zeros FW_DEVICE_MAX_LEN) d.name.bytes) := by
    have hlen : (zeros FW_DEVICE_MAX_LEN).length = FW_DEVICE_MAX_LEN := List.length_replicate
    have hle : d.name.bytes.length ≤ FW_DEVICE_MAX_LEN := hname
    rw [writeAt, if_pos (by rw [hlen, Nat.zero_add]; exact hle), overlay, List.take_zero,
      List.nil_append, Nat.zero_add, List.take_of_length_le]
    rw [List.length_append, List.length_drop, hlen]
    omega
  rw [setEntry, hentry]
  show (writeAt (zeros FW_DEVICE_MAX_LEN) 0 d.name.bytes >>= fun name => _) = _
  rw [hwrite]
  rfl

section All

variable (hne : alldevs ≠ [])

include hne

/-- At the last device the loop is left. -/
theorem fillLoop_last :
    fillLoop alldevs iface devicesNum (tests + 1) [d] i args = some (.ok args) := by
  obtain ⟨first, others, rfl⟩ := List.exists_cons_of_ne_nil hne
  rw [fillLoop, if_pos (.inl (List.cons_ne_nil d []))]
  rfl

/-- At any other, the entry gets the name of the next. -/
theorem fillLoop_next {next : PcapIf} :
    fillLoop alldevs iface devicesNum (tests + 1) (d :: next :: rest) i args =
      match setEntry args i next.name true with
      | .error e => some (.error e)
      | .ok args => fillLoop alldevs iface devicesNum tests (next :: rest) (i + 1) args := by
  obtain ⟨first, others, rfl⟩ := List.exists_cons_of_ne_nil hne
  rw [fillLoop, if_pos (.inl (List.cons_ne_nil d _)), fillEntry]
  rcases setEntry args i next.name true with e | args
  · rfl
  · rfl

/-- **What the loop does** with less than 256 devices: the entries get the
names of all devices but the first, and the last stays empty. -/
theorem fillLoop_eq (hnames : ∀ d ∈ rest, d.name.strlen ≤ FW_DEVICE_MAX_LEN)
    (hlen : done.length + rest.length < 256) (hi : i.toNat = done.length)
    (htests : rest.length < tests) :
    fillLoop alldevs iface devicesNum tests (d :: rest) i
        (done ++ List.replicate (rest.length + 1) emptyEntry) =
      some (.ok (done ++ rest.map entryOf ++ [emptyEntry])) := by
  induction rest generalizing d i done tests with
  | nil =>
    obtain ⟨tests, rfl⟩ := Nat.exists_eq_succ_of_ne_zero htests.ne'
    rw [fillLoop_last hne, List.map_nil, List.append_nil]
    rfl
  | cons next rest ih =>
    obtain ⟨tests, rfl⟩ := Nat.exists_eq_succ_of_ne_zero (Nat.ne_zero_of_lt htests)
    rw [List.length_cons] at hlen htests
    -- the entry at the index is the first that is still empty
    have hentry : (done ++ List.replicate (rest.length + 1 + 1) emptyEntry)[i.toNat]? =
        some emptyEntry := by
      rw [hi, List.getElem?_append_right (Nat.le_refl _), Nat.sub_self]
      rfl
    have hset : (done ++ List.replicate (rest.length + 1 + 1) emptyEntry).set i.toNat
        (entryOf next) = done ++ [entryOf next] ++ List.replicate (rest.length + 1) emptyEntry := by
      rw [hi, List.set_append_right _ _ (Nat.le_refl _), Nat.sub_self, List.append_assoc]
      rfl
    -- and the index does not wrap around
    have hi' : (i + 1).toNat = (done ++ [entryOf next]).length := by
      have h1 : (1 : UInt8).toNat = 1 := rfl
      rw [UInt8.toNat_add, hi, h1, List.length_append, List.length_singleton,
        Nat.mod_eq_of_lt (by omega)]
    rw [List.length_cons, fillLoop_next hne,
      setEntry_emptyEntry hentry (hnames next List.mem_cons_self), hset]
    dsimp only
    rw [ih (fun d hd => hnames d (List.mem_cons_of_mem next hd))
      (by rw [List.length_append, List.length_singleton]; omega) hi' (by omega), List.map_cons,
      List.append_assoc done]
    rfl

/-- If the loop ends without a fault, each index that it used was inside. -/
theorem lt_of_fillLoop
    (h : fillLoop alldevs iface devicesNum tests (d :: rest) i args = some (.ok args')) :
    ∀ k < rest.length, (i.toNat + k) % 256 < args.length := by
  induction rest generalizing d i args tests with
  | nil => exact fun k hk => absurd hk (Nat.not_lt_zero k)
  | cons next rest ih =>
    rcases tests with - | tests
    · cases h
    rw [fillLoop_next hne] at h
    rcases hset : setEntry args i next.name true with e | args₁
    · rw [hset] at h
      cases h
    · rw [hset] at h
      unfold setEntry at hset
      split at hset
      · cases hset
      · next entry hentry =>
        obtain ⟨name, -, hset⟩ := bind_eq_ok hset
        obtain rfl := Except.ok.inj hset
        -- this index is inside since its entry was found, the later ones by induction
        have hin : i.toNat < args.length := (List.getElem?_eq_some_iff.mp hentry).1
        intro k hk
        rcases k with - | k
        · rwa [Nat.add_zero, Nat.mod_eq_of_lt i.toNat_lt]
        · have hrest := ih h k (Nat.lt_of_succ_lt_succ hk)
          have h1 : (1 : UInt8).toNat = 1 := rfl
          rw [UInt8.toNat_add, h1, List.length_set, Nat.mod_add_mod, Nat.add_assoc,
            Nat.add_comm 1] at hrest
          exact hrest

end All

end Fill

/-! ### No list of devices is right -/

/-- The part of `start` for all devices. -/
theorem threadArgs_all (tests : ℕ) (devs : List PcapIf) :
    threadArgs tests FW_ATTR_IFACE_ALL (some devs) 0 =
      if UInt8.ofNat devs.length = 0 then some (.ok none)
      else (fillLoop devs FW_ATTR_IFACE_ALL (UInt8.ofNat devs.length) tests devs 0
        (List.replicate (UInt8.ofNat devs.length).toNat emptyEntry)).map fun r => r.map some := by
  have hnum : countDevices devs 0 = UInt8.ofNat devs.length := by
    rw [countDevices_eq, UInt8.zero_add]
  have hmutex : ¬ (FW_ONE_IFACE_SET ≠ UInt8.ofNat devs.length ∧ (0 : ℤ) ≠ 0) := fun h => h.2 rfl
  rw [threadArgs]
  simp only [if_true, Option.getD_some]
  rw [hnum, if_neg hmutex]

/-- Entries that `start` has filled are not right. -/
theorem not_onePerDevice {devs : List PcapIf} {args : List FwThreadArgument} (hne : devs ≠ [])
    (hnames : ∀ d ∈ devs, d.name.strlen < FW_DEVICE_MAX_LEN) : ¬ OnePerDevice devs args := by
  intro h
  have hfill := h.fills (devs.length + 1) (Nat.lt_succ_self _)
  rw [threadArgs_all] at hfill
  obtain ⟨d, rest, rfl⟩ := List.exists_cons_of_ne_nil hne
  split_ifs at hfill with hzero
  · cases hfill
  have htoNat : (UInt8.ofNat (d :: rest).length).toNat = (rest.length + 1) % 256 :=
    UInt8.toNat_ofNat'
  rw [htoNat] at hfill
  rcases hloop : fillLoop (d :: rest) FW_ATTR_IFACE_ALL (UInt8.ofNat (d :: rest).length)
      ((d :: rest).length + 1) (d :: rest) 0
      (List.replicate ((rest.length + 1) % 256) emptyEntry) with - | ⟨e | args'⟩
  · rw [hloop] at hfill
    cases hfill
  · rw [hloop] at hfill
    cases hfill
  rw [hloop] at hfill
  obtain rfl : args' = args := Option.some.inj (Except.ok.inj (Option.some.inj hfill))
  by_cases hfew : rest.length + 1 < 256
  · -- the last entry is empty
    rw [Nat.mod_eq_of_lt hfew, ← List.nil_append (List.replicate _ _),
      fillLoop_eq hne (fun d' hd' => (hnames d' (List.mem_cons_of_mem d hd')).le)
        (by rw [List.length_nil]; omega) rfl (by rw [List.length_cons]; omega)] at hloop
    obtain rfl := Except.ok.inj (Option.some.inj hloop)
    exact h.nonempty emptyEntry (List.mem_append_right _ List.mem_cons_self) (by decide)
  · -- the array has only the remainder, and the index reaches 255
    have hlt := lt_of_fillLoop hne hloop 255
    rw [List.length_replicate] at hlt
    have hrest : 255 < rest.length := by
      by_contra hle
      have h256 : rest.length + 1 = 256 := by omega
      refine hzero (UInt8.toNat_inj.mp ?_)
      rw [htoNat, h256]
      rfl
    have hindex : ((0 : UInt8).toNat + 255) % 256 < (rest.length + 1) % 256 := hlt hrest
    have h255 : ((0 : UInt8).toNat + 255) % 256 = 255 := by decide
    omega

/-- A device. -/
def eth0 : PcapIf := ⟨lit "eth0"⟩

/-- The loopback device. -/
def lo : PcapIf := ⟨lit "lo"⟩

/-- **The threads are never right**, whatever the devices are. -/
theorem onePerDevice_never (devs : List PcapIf) (hne : devs ≠ [])
    (hnames : ∀ d ∈ devs, d.name.strlen < FW_DEVICE_MAX_LEN) : ¬ ∃ args, OnePerDevice devs args :=
  fun ⟨_, h⟩ => not_onePerDevice hne hnames h

theorem onePerDevice_never_two : ¬ ∃ args, OnePerDevice [eth0, lo] args :=
  onePerDevice_never [eth0, lo] (by decide) (by decide)

/-- With "eth0" and "lo", the first entry names "lo" and the second is empty. -/
theorem not_onePerDevice_two :
    ¬ ∀ devs : List PcapIf, devs ≠ [] → (∀ d ∈ devs, d.name.strlen < FW_DEVICE_MAX_LEN) →
      ∃ args, OnePerDevice devs args := by
  intro h
  obtain ⟨args, h⟩ := h [eth0, lo] (by decide) (by decide)
  have hfill := h.fills 3 (by decide)
  obtain rfl : [entryOf lo, emptyEntry] = args :=
    Option.some.inj (Except.ok.inj (Option.some.inj hfill))
  exact h.nonempty emptyEntry (by decide) (by decide)

end SecuritySystem.Firewall

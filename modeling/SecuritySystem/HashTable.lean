/-
SecuritySystem/HashTable.lean

The hash table of services/helpers/helpers_hash_table.c.

A table is an array of pointers to items.  The items also form a doubly linked
list, newest first, that the event handler walks from `node` along `previous`.
An item holds its key, a heap block with the bytes of the inserted string, and
the two links.  `HashTable.items` is the part of the heap with the items, and
`brk` is the address of the next block `malloc` hands out; blocks that no slot
refers to (an item refused for its key, or not linked because its slot was
taken) stay there, as they do in the program.

The block of an item is exactly as long as the string, so a read of it as a C
string runs on into whatever lies behind the block.  `Beyond` is that memory.

The index of a slot is the key, reduced modulo `HASH_KEY_MAX_LEN` whatever the
size of the table is: an access beyond the size is a fault.
-/
import SecuritySystem.Lib.CMemory
import SecuritySystem.Lib.Linked
import Mathlib.Logic.Function.Basic

namespace SecuritySystem

open CMem

/-! ### Constants and types -/

/-- The length of the longest string that is stored. -/
def HASH_ITEM_MAX_SIZE_STR : ℕ := 512

/-- Every key is smaller. -/
def HASH_KEY_MAX_LEN : UInt32 := 10000

/-- `hash_table_size_t` -/
def HASH_TABLE_MAX : ℤ := 10000

/-- Addresses of items; a null pointer is `none`. -/
abbrev Addr := ℕ

/-- `hash_item_t`, with the contents of the block that `value` points to. -/
structure HashItem where
  key : UInt32
  value : List UInt8
  previous : Option Addr
  next : Option Addr
deriving DecidableEq

/-- `hash_table_t`, with the heap its items live in.  `count` is an `int`. -/
structure HashTable where
  table : ℕ → Option Addr
  node : Option Addr
  size : ℕ
  count : BitVec 32
  items : Addr → Option HashItem
  brk : Addr

/-- The memory behind the two blocks that the repetition test of an insert
reads as strings: the stored item's and the new one's. -/
structure Beyond where
  stored : List UInt8
  fresh : List UInt8
deriving DecidableEq

/-- Both blocks happen to be followed by a NUL. -/
def Beyond.Terminated (b : Beyond) : Prop := b.stored.headD 0 = 0 ∧ b.fresh.headD 0 = 0

/-! ### The key of a string -/

/-- A `char` added to an `unsigned int`: sign extension to 32 bits. -/
def charToHash (c : UInt8) : UInt32 := c.toInt8.toInt32.toUInt32

/-- `while (*str++) hash += *str;` with `str` at the given bytes: the pointer
moves on before it is read, and behind the last byte it reads the NUL. -/
def hashLoop : List UInt8 → UInt32 → UInt32
  | [], hash => hash
  | _ :: rest, hash => hashLoop rest (hash + charToHash (rest.headD 0))

/-- `__hash_key_generator` -/
def hashKeyGenerator (str : CString) : UInt32 := hashLoop str.bytes 0 % HASH_KEY_MAX_LEN

/-! ### The heap of items -/

namespace HashTable

/-- `&this->table[k]`, read. -/
def slotAt (t : HashTable) (k : ℕ) : Except Fault (Option Addr) :=
  if k < t.size then .ok (t.table k) else .error .outOfBounds

/-- `*a` -/
def deref (t : HashTable) (a : Addr) : Except Fault HashItem :=
  match t.items a with
  | some it => .ok it
  | none => .error .badPointer

/-- The table with another item at an address. -/
def setItem (t : HashTable) (a : Addr) (it : HashItem) : HashTable :=
  { t with items := Function.update t.items a (some it) }

/-- `malloc`, with the object written to the block. -/
def alloc (t : HashTable) (it : HashItem) : HashTable :=
  { t.setItem t.brk it with brk := t.brk + 1 }

/-- The link to the item that was stored in front of it. -/
def previousOf (t : HashTable) (a : Addr) : Option Addr := (t.items a).bind (·.previous)

/-- The link to the item that was stored behind it. -/
def nextOf (t : HashTable) (a : Addr) : Option Addr := (t.items a).bind (·.next)

/-- The key and the block of an item: all of it but the links. -/
def contents (t : HashTable) (a : Addr) : Option (UInt32 × List UInt8) :=
  (t.items a).map fun it => (it.key, it.value)

/-- The items met from `node` along `previous`. -/
def chain (t : HashTable) : List Addr := Linked.walk t.previousOf t.brk t.node

/-- The stored strings, newest first, read as the strings copied in. -/
def strings (t : HashTable) : List CString :=
  t.chain.filterMap fun a => (t.contents a).map fun c => CString.ofMem c.2

end HashTable

/-! ### The operations -/

/-- `__hash_item_create`: no item for a long string; for a key of 0 or 1 the
blocks are allocated and lost. -/
def hashItemCreate (t : HashTable) (value : CString) : Option Addr × HashTable :=
  if value.strlen > HASH_ITEM_MAX_SIZE_STR then (none, t)
  else
    let key := hashKeyGenerator value
    -- `key <= 1.1`
    if key ≤ 1 then (none, t.alloc ⟨0, value.bytes, none, none⟩)
    else (some t.brk, t.alloc ⟨key, value.bytes, none, none⟩)

/-- `hash_table_create`: `count` keeps what was in the memory. -/
def hashTableCreate (size : ℤ) (junk : BitVec 32) : Option HashTable :=
  if size ≤ 0 ∨ size > HASH_TABLE_MAX then none
  else some
    { table := fun _ => none, node := none, size := size.toNat, count := junk
      items := fun _ => none, brk := 0 }

/-- `__hash_table_get_hi_by_key` -/
def hashTableGetHiByKey (this : HashTable) (key : UInt32) : Except Fault (Option Addr) :=
  if key = 0 then .ok none else this.slotAt key.toNat

/-- `__hash_table_get_hi_by_val` -/
def hashTableGetHiByVal (this : HashTable) (value : CString) : Except Fault (Option Addr) :=
  this.slotAt (hashKeyGenerator value).toNat

/-- `hash_table_search_item` -/
def hashTableSearchItem (this : HashTable) (key : UInt32) (value : Option CString) :
    Except Fault (Option Addr) :=
  match value with
  | some v => if key = 0 then hashTableGetHiByVal this v else .ok none
  | none => if key = 0 then .ok none else hashTableGetHiByKey this key

/-- The branch of `hash_table_insert_item` for an empty slot: `item` goes to
the slot and to the front of the list. -/
def linkItem (this : HashTable) (key : ℕ) (item : Addr) : Except Fault HashTable :=
  let filled := { this with table := Function.update this.table key (some item) }
  match this.node with
  | none => .ok { filled with node := some item, count := this.count + 1 }
  | some node => do
    let old ← filled.deref node
    let filled := filled.setItem node { old with next := some item }
    let new ← filled.deref item
    let filled := filled.setItem item { new with previous := some node }
    .ok { filled with node := some item, count := this.count + 1 }

/-- The repetition test: `strncmp` over the length of the stored string. -/
def isRepetition (beyond : Beyond) (stored fresh : List UInt8) : Bool :=
  let headValue := CString.ofMem (stored ++ beyond.stored)
  let itemValue := CString.ofMem (fresh ++ beyond.fresh)
  CString.strncmpEq headValue itemValue headValue.strlen

/-- The part of `hash_table_insert_item` from `head = &this->table[key]` on. -/
def insertAtSlot (beyond : Beyond) (this : HashTable) (key : UInt32) (item : Addr) :
    Except Fault (UInt32 × HashTable) := do
  match ← this.slotAt key.toNat with
  | none =>
    let this ← linkItem this key.toNat item
    .ok (0, this)
  | some head =>
    let stored ← this.deref head
    if stored.key = key then
      let fresh ← this.deref item
      if isRepetition beyond stored.value fresh.value then .ok (0, this) else .ok (2, this)
    else .ok (0, this)

/-- `hash_table_insert_item`: the return code and the table afterwards. -/
def hashTableInsertItem (beyond : Beyond) (this : HashTable) (value : CString) :
    Except Fault (UInt32 × HashTable) :=
  if this.count = BitVec.ofNat 32 this.size then .ok (1, this)
  else
    let key := hashKeyGenerator value
    if key = 0 then .ok (1, this)
    else
      match hashItemCreate this value with
      | (none, this) => .ok (1, this)
      | (some item, this) => insertAtSlot beyond this key item

/-- A run of inserts; the return codes are ignored, as all callers do. -/
def insertAll (this : HashTable) : List (CString × Beyond) → Except Fault HashTable
  | [] => .ok this
  | (value, beyond) :: calls => do
    let (_, this) ← hashTableInsertItem beyond this value
    insertAll this calls

/-- The items that `hash_table_free` passes to `free`, in order. -/
def hashTableFree (this : HashTable) : List Addr :=
  (List.range this.size).filterMap this.table

end SecuritySystem

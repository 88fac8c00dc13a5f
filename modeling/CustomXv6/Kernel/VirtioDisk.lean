/-
Module: CustomXv6.Kernel.VirtioDisk
Purpose: The virtio disk driver (kernel/virtio_disk.c) and the device at its rings.
Trusted boundary: human-reviewed spec
Main exports: Virtio.DiskSys.step
-/
import CustomXv6.Lib.Hoare
import CustomXv6.Lib.RingBuffer
import CustomXv6.Lib.Transition

namespace CustomXv6

open Function

namespace Virtio

/-!
A process in `virtio_disk_rw` holds `disk.vdisk_lock` from one sleep to the next, and
`virtio_disk_intr` holds it throughout.  A step is a place at which the lock is taken or given
up, a round of a loop, or what lies between two memory barriers.

The device has its own count of the entries it took from the avail ring, and a list of the
chains it works on.  It finishes them in any order: it writes status 0 to where the third
descriptor points, and the head of the chain to the used ring.

`b->lock` is modelled as far as the driver relies on it: it is held during a call.
-/

/-! ### The driver's data -/

abbrev num : Nat := 8

/-- What the address in a descriptor points to. -/
inductive Addr where
  | null
  /-- `&disk.ops[i]` -/
  | op (i : Nat)
  /-- `b->data` -/
  | data (b : Nat)
  /-- `&disk.info[i].status` -/
  | status (i : Nat)
deriving DecidableEq, Repr

structure Desc where
  addr : Addr
  len : Nat
  flags : UInt16
  next : Nat
deriving DecidableEq, Repr

/-- `VRING_DESC_F_NEXT`. -/
abbrev descNext : UInt16 := 1

/-- `VRING_DESC_F_WRITE`. -/
abbrev descWrite : UInt16 := 2

/-- An entry of `disk.info`. -/
structure Info where
  b : Option Nat
  status : UInt8
deriving DecidableEq, Repr

structure BlkReq where
  type : Nat
  reserved : Nat
  sector : UInt64
deriving DecidableEq, Repr

/-- `struct virtq_avail` and `struct virtq_used`: the index and the heads of chains. -/
structure VirtRing where
  idx : UInt16
  ring : Nat → Nat

/-- `disk`, without its lock. -/
structure Disk where
  desc : Nat → Desc
  avail : VirtRing
  used : VirtRing
  free : Nat → Bool
  usedIdx : UInt16
  info : Nat → Info
  ops : Nat → BlkReq

/-! ### Processes -/

/-- A request: the buffer and `idx[0]`, `idx[1]`, `idx[2]`. -/
structure Request where
  b : Nat
  head : Nat
  second : Nat
  third : Nat
deriving DecidableEq, Repr

/-- The descriptors of a request. -/
def Request.chain (r : Request) : List Nat := [r.head, r.second, r.third]

/-- The arguments of `virtio_disk_rw`, and `sector`. -/
structure DiskCall where
  b : Nat
  write : Bool
  sector : UInt64
deriving DecidableEq, Repr

/-- Where a process is in `virtio_disk_rw`. -/
inductive DiskPc where
  | returned
  /-- before `acquire`, or woken from `sleep(&disk.free[0], …)` -/
  | acquireAlloc (c : DiskCall)
  /-- in front of `alloc3_desc` -/
  | allocating (c : DiskCall)
  /-- in `sleep(&disk.free[0], …)` -/
  | sleepFree (c : DiskCall)
  /-- between the entry in the avail ring and `disk.avail->idx += 1` -/
  | publishing (r : Request)
  /-- at `while(b->disk == 1)` -/
  | checking (r : Request)
  /-- in `sleep(b, …)` -/
  | sleepBuf (r : Request)
  /-- woken from `sleep(b, …)` -/
  | acquireCheck (r : Request)
deriving DecidableEq, Repr

/-- The buffer a call is about. -/
def DiskPc.buffer : DiskPc → Option Nat
  | .returned => none
  | .acquireAlloc c | .allocating c | .sleepFree c => some c.b
  | .publishing r | .checking r | .sleepBuf r | .acquireCheck r => some r.b

/-- The request of a call that has descriptors. -/
def DiskPc.request : DiskPc → Option Request
  | .publishing r | .checking r | .sleepBuf r | .acquireCheck r => some r
  | _ => none

/-- The request of a call that has been published. -/
def DiskPc.posted : DiskPc → Option Request
  | .checking r | .sleepBuf r | .acquireCheck r => some r
  | _ => none

/-- The channels `&disk.free[0]` and `b`. -/
inductive DiskChan where
  | free
  | buf (b : Nat)
deriving DecidableEq, Repr

/-- What `wakeup` does to a process. -/
def DiskPc.wake (chan : DiskChan) : DiskPc → DiskPc
  | .sleepFree c => if chan = .free then .acquireAlloc c else .sleepFree c
  | .sleepBuf r => if chan = .buf r.b then .acquireCheck r else .sleepBuf r
  | pc => pc

/-- Who holds `disk.vdisk_lock`. -/
inductive Holder where
  | proc (t : Nat)
  | intr
deriving DecidableEq, Repr

/-- The panics, and two things that must not happen: a buffer that is NULL in
`virtio_disk_intr`, and a loop of `free_chain` through more descriptors than there are. -/
inductive DiskPanic where
  | freeDesc1
  | freeDesc2
  | intrStatus
  | nullBuf
  | unbounded
deriving DecidableEq, Repr

/-- The driver, `b->disk` of all buffers and whether `b->lock` is held, the processes, and the
device. -/
structure DiskSys where
  disk : Disk
  busy : Nat → Bool
  held : Nat → Bool
  lock : Option Holder
  pc : Nat → DiskPc
  fetched : UInt16
  device : List Nat
  panicked : Option DiskPanic

abbrev DiskM := StateT DiskSys (Except DiskPanic)

/-! ### Descriptors -/

def Disk.setFree (d : Disk) (i : Nat) (v : Bool) : Disk := { d with free := update d.free i v }

def Disk.setDesc (d : Disk) (i : Nat) (v : Desc) : Disk := { d with desc := update d.desc i v }

def wakeup (chan : DiskChan) : DiskM PUnit :=
  modify fun s => { s with pc := fun t => (s.pc t).wake chan }

def allocDesc : DiskM (Option Nat) := do
  let s ← get
  match (List.range num).find? s.disk.free with
  | none => return none
  | some i => do
    modify fun s => { s with disk := s.disk.setFree i false }
    return some i

def freeDesc (i : Nat) : DiskM PUnit := do
  if num ≤ i then
    throw .freeDesc1
  else
    let s ← get
    if s.disk.free i then
      throw .freeDesc2
    else do
      modify fun s => { s with disk := (s.disk.setDesc i ⟨.null, 0, 0, 0⟩).setFree i true }
      wakeup .free

def freeChain : (fuel : Nat) → Nat → DiskM PUnit
  | 0, _ => throw .unbounded
  | fuel + 1, i => do
    let s ← get
    let flag := (s.disk.desc i).flags
    let nxt := (s.disk.desc i).next
    freeDesc i
    if flag &&& descNext ≠ 0 then
      freeChain fuel nxt
    else
      return

/-- The loop of `alloc3_desc`, with the descriptors it has. -/
def allocDescs : (left : Nat) → List Nat → DiskM (Option (List Nat))
  | 0, idx => return some idx
  | left + 1, idx => do
    match ← allocDesc with
    | none => do
      idx.forM freeDesc
      return none
    | some i => allocDescs left (idx ++ [i])

def alloc3Desc : DiskM (Option (List Nat)) := allocDescs 3 []

/-! ### Requests -/

/-- `uint64 sector = b->blockno * (BSIZE / 512)`. -/
def sectorOf (blockno : UInt32) : UInt64 := (blockno * 2).toUInt64

/-- The three descriptors, the request header, the entry of `info` and the entry of the
avail ring. -/
def Disk.format (d : Disk) (r : Request) (write : Bool) (sector : UInt64) : Disk :=
  { ((d.setDesc r.head ⟨.op r.head, 16, descNext, r.second⟩).setDesc r.second
        ⟨.data r.b, 1024, (if write then 0 else descWrite) ||| descNext, r.third⟩).setDesc r.third
        ⟨.status r.head, 1, descWrite, 0⟩ with
    ops := update d.ops r.head ⟨if write then 1 else 0, 0, sector⟩
    info := update d.info r.head ⟨some r.b, 0xff⟩
    avail := { d.avail with ring := update d.avail.ring (d.avail.idx.toNat % num) r.head } }

def setBusy (b : Nat) (v : Bool) : DiskM PUnit :=
  modify fun s => { s with busy := update s.busy b v }

/-- `acquiresleep(&b->lock)`, `releasesleep(&b->lock)`. -/
def setHeld (b : Nat) (v : Bool) : DiskM PUnit :=
  modify fun s => { s with held := update s.held b v }

def goto (t : Nat) (pc : DiskPc) : DiskM PUnit := modify fun s => { s with pc := update s.pc t pc }

/-- `acquire(&disk.vdisk_lock)`, `release(&disk.vdisk_lock)`. -/
def setLock (holder : Option Holder) : DiskM PUnit := modify fun s => { s with lock := holder }

/-- `virtio_disk_rw` in front of `alloc3_desc`: it goes to sleep, or fills in its request. -/
def allocate (t : Nat) (c : DiskCall) : DiskM PUnit := do
  match ← alloc3Desc with
  | some [head, second, third] => do
    let r : Request := ⟨c.b, head, second, third⟩
    modify fun s => { s with disk := s.disk.format r c.write c.sector }
    setBusy c.b true
    goto t (.publishing r)
  | _ => do
    goto t (.sleepFree c)
    setLock none

/-- `disk.avail->idx += 1`. -/
def publish (t : Nat) (r : Request) : DiskM PUnit := do
  modify fun s => { s with disk :=
    { s.disk with avail := { s.disk.avail with idx := s.disk.avail.idx + 1 } } }
  goto t (.checking r)

/-- `while(b->disk == 1)`, and what is behind the loop. -/
def check (t : Nat) (r : Request) : DiskM PUnit := do
  let s ← get
  if s.busy r.b then do
    goto t (.sleepBuf r)
    setLock none
  else do
    modify fun s => { s with disk :=
      { s.disk with info := update s.disk.info r.head { s.disk.info r.head with b := none } } }
    freeChain (num + 1) r.head
    setLock none
    setHeld r.b false
    goto t .returned

/-- One round of the loop of `virtio_disk_intr`. -/
def intr : DiskM PUnit := do
  let s ← get
  let id := s.disk.used.ring (s.disk.usedIdx.toNat % num)
  if (s.disk.info id).status ≠ 0 then
    throw .intrStatus
  else
    match (s.disk.info id).b with
    | none => throw .nullBuf
    | some b => do
      setBusy b false
      wakeup (.buf b)
      modify fun s => { s with disk := { s.disk with usedIdx := s.disk.usedIdx + 1 } }

/-! ### The device -/

/-- The device takes the next chain from the avail ring. -/
def fetch : DiskM PUnit :=
  modify fun s => { s with
    device := s.device ++ [s.disk.avail.ring (s.fetched.toNat % num)],
    fetched := s.fetched + 1 }

/-- The status byte to which the chain from a head leads. -/
def Disk.statusAt (d : Disk) (head : Nat) : Addr := (d.desc (d.desc (d.desc head).next).next).addr

/-- The device is done with a chain. -/
def complete (head : Nat) : DiskM PUnit :=
  modify fun s => { s with
    device := s.device.erase head,
    disk := { s.disk with
      info := match s.disk.statusAt head with
        | .status i => update s.disk.info i { s.disk.info i with status := 0 }
        | _ => s.disk.info
      used := ⟨s.disk.used.idx + 1, update s.disk.used.ring (s.disk.used.idx.toNat % num) head⟩ } }

/-! ### Steps -/

inductive DiskAction where
  /-- process `t` calls `virtio_disk_rw(b, write)` for the block with that number -/
  | call (t b : Nat) (write : Bool) (blockno : UInt32)
  /-- process `t` takes a step of its call -/
  | advance (t : Nat)
  /-- process `t` is killed, and woken if it sleeps -/
  | kill (t : Nat)
  /-- `virtio_disk_intr` takes the lock, does a round of its loop, gives up the lock -/
  | intrEnter
  | intrRound
  | intrLeave
  /-- the device takes a chain, is done with one -/
  | fetch
  | complete (head : Nat)
deriving DecidableEq, Repr

/-- What an action does where it can be taken. -/
def DiskSys.perform (s : DiskSys) : DiskAction → Option (DiskM PUnit)
  | .call t b write blockno =>
    -- `bread` and `bwrite` hold the lock of the buffer while they call.
    if s.pc t = .returned ∧ s.held b = false then
      some (do setHeld b true; goto t (.acquireAlloc ⟨b, write, sectorOf blockno⟩))
    else none
  | .advance t =>
    match s.pc t with
    | .acquireAlloc c =>
      if s.lock = none then
        some (do setLock (some (.proc t)); goto t (.allocating c))
      else none
    | .allocating c => some (allocate t c)
    | .publishing r => some (publish t r)
    | .checking r => some (check t r)
    | .acquireCheck r =>
      if s.lock = none then
        some (do setLock (some (.proc t)); goto t (.checking r))
      else none
    | _ => none
  | .kill t =>
    match s.pc t with
    | .sleepFree c => some (goto t (.acquireAlloc c))
    | .sleepBuf r => some (goto t (.acquireCheck r))
    | _ => none
  | .intrEnter => if s.lock = none then some (setLock (some .intr)) else none
  | .intrRound =>
    if s.lock = some .intr ∧ s.disk.usedIdx ≠ s.disk.used.idx then some intr else none
  | .intrLeave =>
    if s.lock = some .intr ∧ s.disk.usedIdx = s.disk.used.idx then some (setLock none) else none
  | .fetch => if s.fetched ≠ s.disk.avail.idx then some fetch else none
  | .complete head => if head ∈ s.device then some (complete head) else none

/-- One step; after a panic there is none. -/
def DiskSys.step (s : DiskSys) (act : DiskAction) : Option DiskSys :=
  if s.panicked = none then
    (s.perform act).map fun prog =>
      match prog s with
      | .ok (_, s') => s'
      | .error e => { s with panicked := some e }
  else none

def DiskSys.start : DiskSys where
  disk :=
    { desc := fun _ => ⟨.null, 0, 0, 0⟩, avail := ⟨0, fun _ => 0⟩, used := ⟨0, fun _ => 0⟩
      free := fun i => i < num, usedIdx := 0, info := fun _ => ⟨none, 0⟩
      ops := fun _ => ⟨0, 0, 0⟩ }
  busy := fun _ => false
  held := fun _ => false
  lock := none
  pc := fun _ => .returned
  fetched := 0
  device := []
  panicked := none

end Virtio

end CustomXv6

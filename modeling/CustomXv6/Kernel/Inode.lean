/-
Module: CustomXv6.Kernel.Inode
Purpose: Blocks, inodes, directories and paths (kernel/fs.c), calls on names (kernel/sysfile.c).
Trusted boundary: human-reviewed spec
Main exports: Fs, readi, writei, iput, dirlookup, namex, create, link, unlink
-/
import CustomXv6.Kernel.FileSystem
import CustomXv6.Lib.Hoare

namespace CustomXv6

open Function

/-!
The calls of the file system are taken one after another, as they are when each of them holds
the locks of the inodes it works on.  An array is a function of the index.  The free map and
the inode area are arrays of bits and of inodes: how they lie on the disk plays no part here,
nor does the log (`Kernel.Log`).  An inode in memory is found by its number alone: there is
one device, and `iget` never holds two entries for one number.
-/

/-! ### Data -/

abbrev bsize : Nat := 1024

abbrev ndirect : Nat := 12

abbrev nindirect : Nat := 256

abbrev maxfile : Nat := ndirect + nindirect

abbrev rootino : Nat := 1

/-- `struct superblock`, as far as the code below reads it.  Block numbers are
`uint`, and the boot block and the super block themselves are no data blocks. -/
structure SuperBlock where
  size : Nat
  nblocks : Nat
  ninodes : Nat
  fits : size < 2 ^ 32
  metadata : nblocks < size

/-- The first data block: the boot block, the super block, the log, the inode
blocks and the free map come before the `nblocks` data blocks. -/
def SuperBlock.dataStart (sb : SuperBlock) : Nat := sb.size - sb.nblocks

abbrev Block := Nat → UInt8

/-- What `bzero` leaves. -/
def zeroBlock : Block := fun _ => 0

/-- `a[j]` for `a = (uint*)bp->data`. -/
def Block.uint (block : Block) (j : Nat) : Nat :=
  (block (4 * j)).toNat + 256 * (block (4 * j + 1)).toNat + 65536 * (block (4 * j + 2)).toNat +
    16777216 * (block (4 * j + 3)).toNat

/-- `a[j] = value` for `a = (uint*)bp->data`. -/
def Block.setUint (block : Block) (j value : Nat) : Block := fun k =>
  if k / 4 = j then UInt8.ofNat (value / 256 ^ (k % 4)) else block k

/-- The types of an inode; `free` is 0. -/
inductive InodeType where
  | free
  | dir
  | file
  | device
deriving DecidableEq, Repr

structure Dinode where
  type : InodeType := .free
  major : Int16 := 0
  minor : Int16 := 0
  nlink : Int16 := 0
  size : Nat := 0
  addrs : Nat → Nat := fun _ => 0

/-- `struct inode`, without its lock. -/
structure Inode extends Dinode where
  ref : Int := 0
  valid : Bool := false

/-- The file system: the free map, the blocks, the inodes on disk and those in
memory. -/
structure Fs where
  bitmap : Nat → Bool
  data : Nat → Block
  dinodes : Nat → Dinode
  itable : Nat → Inode

/-- The panics of the file system.  Two are not ones of the code: `inodeRange`, where the code
would take the bytes after the inode area for an inode, and `nullCwd`, a null pointer for the
current directory. -/
inductive FsPanic where
  | freeingFreeBlock
  | bmapOutOfRange
  | igetNoInodes
  | ilock
  | ilockNoType
  | inodeRange
  | dirlookupNotDir
  | dirlookupRead
  | dirlinkRead
  | isdiremptyRead
  | unlinkNlink
  | unlinkWritei
  | filedup
  | fileclose
  | initExiting
  | nullCwd
deriving DecidableEq, Repr

abbrev FsM := StateT Fs (Except FsPanic)

namespace Fs

def setInode (fs : Fs) (i : Nat) (ip : Inode) : Fs :=
  { fs with itable := update fs.itable i ip }

def setAddr (fs : Fs) (i k addr : Nat) : Fs :=
  fs.setInode i { fs.itable i with addrs := update (fs.itable i).addrs k addr }

def setBlock (fs : Fs) (b : Nat) (block : Block) : Fs :=
  { fs with data := update fs.data b block }

def setBit (fs : Fs) (b : Nat) (used : Bool) : Fs :=
  { fs with bitmap := update fs.bitmap b used }

end Fs

/-! ### Blocks -/

/-- `balloc`: mark the first free block used and clear it; 0 if there is none. -/
def balloc (sb : SuperBlock) : FsM Nat := do
  let fs ← get
  match (List.range sb.size).find? fun b => !fs.bitmap b with
  | some b =>
    set ((fs.setBit b true).setBlock b zeroBlock)
    return b
  | none => return 0

def bfree (b : Nat) : FsM Unit := do
  let fs ← get
  if fs.bitmap b then
    set (fs.setBit b false)
  else
    throw .freeingFreeBlock

/-! ### Inodes -/

def iupdate (i : Nat) : FsM Unit :=
  modify fun fs => { fs with dinodes := update fs.dinodes i (fs.itable i).toDinode }

/-- `iget`: the panic is that of a full table. -/
def iget (sb : SuperBlock) (i : Nat) : FsM Unit := do
  let fs ← get
  if sb.ninodes ≤ i then
    throw .inodeRange
  else if 0 < (fs.itable i).ref then
    set (fs.setInode i { fs.itable i with ref := (fs.itable i).ref + 1 })
  else if ninode ≤ (List.range sb.ninodes).countP fun j => (fs.itable j).ref ≠ 0 then
    throw .igetNoInodes
  else
    set (fs.setInode i { fs.itable i with ref := 1, valid := false })

def idup (i : Nat) : FsM Unit :=
  modify fun fs => fs.setInode i { fs.itable i with ref := (fs.itable i).ref + 1 }

/-- `ilock`: read the inode from disk if that has not been done. -/
def ilock (sb : SuperBlock) (i : Nat) : FsM Unit := do
  let fs ← get
  let ip := fs.itable i
  if ip.ref < 1 then
    throw .ilock
  else if ip.valid then
    return ()
  else if sb.ninodes ≤ i then
    throw .inodeRange
  else if (fs.dinodes i).type = .free then
    throw .ilockNoType
  else
    set (fs.setInode i { toDinode := fs.dinodes i, ref := ip.ref, valid := true })

/-- `ialloc`: the number of the first free inode, now of type `type`. -/
def ialloc (sb : SuperBlock) (type : InodeType) : FsM (Option Nat) := do
  let fs ← get
  match (List.range sb.ninodes).find? fun i => 1 ≤ i && (fs.dinodes i).type == .free with
  | some i =>
    set { fs with dinodes := update fs.dinodes i { type := type } }
    iget sb i
    return some i
  | none => return none

/-! ### The blocks of a file -/

/-- The second half of `bmap`: the entry `j` of the indirect block `addr`. -/
def bmapEntry (sb : SuperBlock) (addr j : Nat) : FsM Nat := do
  let fs ← get
  let entry := (fs.data addr).uint j
  if entry = 0 then
    let new ← balloc sb
    if new ≠ 0 then
      modify fun fs => fs.setBlock addr ((fs.data addr).setUint j new)
    return new
  else
    return entry

/-- `bmap`: the block with index `bn` of inode `i`, allocated if there is none. -/
def bmap (sb : SuperBlock) (i bn : Nat) : FsM Nat := do
  let ip := (← get).itable i
  if bn < ndirect then
    if ip.addrs bn = 0 then
      let addr ← balloc sb
      if addr ≠ 0 then
        modify fun fs => fs.setAddr i bn addr
      return addr
    else
      return ip.addrs bn
  else if bn - ndirect < nindirect then
    if ip.addrs ndirect = 0 then
      let addr ← balloc sb
      if addr = 0 then
        return 0
      else
        modify fun fs => fs.setAddr i ndirect addr
        bmapEntry sb addr (bn - ndirect)
    else
      bmapEntry sb (ip.addrs ndirect) (bn - ndirect)
  else
    throw .bmapOutOfRange

def itruncDirect (i : Nat) : FsM Unit :=
  (List.range ndirect).forM fun k => do
    let addr := ((← get).itable i).addrs k
    if addr ≠ 0 then
      bfree addr
      modify fun fs => fs.setAddr i k 0

/-- What `itrunc` does with the indirect block. -/
def itruncIndirect (i : Nat) : FsM Unit := do
  let fs ← get
  let addr := (fs.itable i).addrs ndirect
  if addr ≠ 0 then
    let a := fs.data addr
    (List.range nindirect).forM fun j => do
      if a.uint j ≠ 0 then
        bfree (a.uint j)
    bfree addr
    modify fun fs => fs.setAddr i ndirect 0

def itrunc (i : Nat) : FsM Unit := do
  itruncDirect i
  itruncIndirect i
  modify fun fs => fs.setInode i { fs.itable i with size := 0 }
  iupdate i

/-- `iput`: with the last reference to an inode without links the inode is freed. -/
def iput (i : Nat) : FsM Unit := do
  let ip := (← get).itable i
  if ip.ref = 1 ∧ ip.valid = true ∧ ip.nlink = 0 then
    itrunc i
    modify fun fs => fs.setInode i { fs.itable i with type := .free }
    iupdate i
    modify fun fs => fs.setInode i { fs.itable i with valid := false }
  modify fun fs => fs.setInode i { fs.itable i with ref := (fs.itable i).ref - 1 }

/-! ### Reading and writing -/

/-- The loop of `readi`: `dst` says which bytes of the destination can be
written.  The result is `tot` and the bytes copied. -/
def readLoop (sb : SuperBlock) (i : Nat) (dst : Nat → Bool) (n : Nat) :
    (fuel tot off : Nat) → List UInt8 → FsM (Int × List UInt8)
  | 0, tot, _, copied => return (tot, copied)
  | fuel + 1, tot, off, copied => do
    if tot < n then
      let addr ← bmap sb i (off / bsize)
      if addr = 0 then
        return (tot, copied)
      else
        let m := min (n - tot) (bsize - off % bsize)
        let block := (← get).data addr
        if (List.range m).all fun k => dst (tot + k) then
          readLoop sb i dst n fuel (tot + m) (off + m)
            (copied ++ (List.range m).map fun k => block (off % bsize + k))
        else
          return (-1, copied)
    else
      return (tot, copied)

def readi (sb : SuperBlock) (i : Nat) (dst : Nat → Bool) (off n : Nat) :
    FsM (Int × List UInt8) := do
  let size := ((← get).itable i).size
  if size < off ∨ 2 ^ 32 ≤ off + n then
    return (0, [])
  else
    let n := if size < off + n then size - off else n
    readLoop sb i dst n n 0 off []

/-- `either_copyin` of `m` bytes from `src` at `tot` to a block at `start`: the
bytes before the first one that cannot be read are copied, and the copy fails if
there is one. -/
def Block.copyin (block : Block) (src : Nat → Option UInt8) (start tot m : Nat) : Block := fun k =>
  if start ≤ k ∧ k < start + ((List.range m).takeWhile fun j => (src (tot + j)).isSome).length then
    (src (tot + (k - start))).getD 0
  else
    block k

/-- The loop of `writei`: `src` are the bytes of the source, none where it is
not mapped.  The result is `tot` and `off`. -/
def writeLoop (sb : SuperBlock) (i : Nat) (src : Nat → Option UInt8) (n : Nat) :
    (fuel tot off : Nat) → FsM (Nat × Nat)
  | 0, tot, off => return (tot, off)
  | fuel + 1, tot, off => do
    if tot < n then
      let addr ← bmap sb i (off / bsize)
      if addr = 0 then
        return (tot, off)
      else
        let m := min (n - tot) (bsize - off % bsize)
        modify fun fs => fs.setBlock addr ((fs.data addr).copyin src (off % bsize) tot m)
        if (List.range m).all fun k => (src (tot + k)).isSome then
          writeLoop sb i src n fuel (tot + m) (off + m)
        else
          return (tot, off)
    else
      return (tot, off)

def writei (sb : SuperBlock) (i : Nat) (src : Nat → Option UInt8) (off n : Nat) : FsM Int := do
  let size := ((← get).itable i).size
  if size < off ∨ 2 ^ 32 ≤ off + n then
    return -1
  else if maxfile * bsize < off + n then
    return -1
  else
    let (tot, off) ← writeLoop sb i src n n 0 off
    if size < off then
      modify fun fs => fs.setInode i { fs.itable i with size := off }
    iupdate i
    return tot

/-! ### Directory entries -/

abbrev dirsiz : Nat := 14

/-- `sizeof(struct dirent)`. -/
abbrev direntSize : Nat := 16

/-- A name, without the zero bytes that fill it up to `DIRSIZ`. -/
abbrev Name := List UInt8

/-- A path, without the zero byte that ends it. -/
abbrev Path := List UInt8

abbrev slash : UInt8 := 47

abbrev dot : Name := [46]

abbrev dotdot : Name := [46, 46]

/-- `struct dirent`; an entry with the inode number 0 is free. -/
structure Dirent where
  inum : Nat := 0
  name : Name := []
deriving DecidableEq, Repr

/-- The bytes of an entry: `inum` is a `ushort`, and `strncpy` fills the name up
with zero bytes. -/
def Dirent.bytes (de : Dirent) (k : Nat) : UInt8 :=
  if k = 0 then UInt8.ofNat de.inum
  else if k = 1 then UInt8.ofNat (de.inum / 256)
  else de.name.getD (k - 2) 0

/-- The entry with the given bytes; its name ends with the first zero byte. -/
def Dirent.ofBytes (bytes : Nat → UInt8) : Dirent where
  inum := (bytes 0).toNat + 256 * (bytes 1).toNat
  name := ((List.range dirsiz).map fun k => bytes (k + 2)).takeWhile (· ≠ 0)

/-- `namecmp`: the names agree on their first `DIRSIZ` bytes. -/
def namecmp (s t : Name) : Bool := s.take dirsiz == t.take dirsiz

/-- Read the entry at `off`; a short read is a panic. -/
def readDirent (sb : SuperBlock) (dp off : Nat) (failure : FsPanic) : FsM Dirent := do
  let (r, bytes) ← readi sb dp (fun _ => true) off direntSize
  if r ≠ direntSize then
    throw failure
  else
    return Dirent.ofBytes fun k => bytes.getD k 0

def writeDirent (sb : SuperBlock) (dp off : Nat) (de : Dirent) : FsM Int :=
  writei sb dp (fun k => some (de.bytes k)) off direntSize

def dirlookupLoop (sb : SuperBlock) (dp : Nat) (name : Name) :
    (fuel off : Nat) → FsM (Option (Nat × Nat))
  | 0, _ => return none
  | fuel + 1, off => do
    if off < ((← get).itable dp).size then
      let de ← readDirent sb dp off .dirlookupRead
      if de.inum ≠ 0 ∧ namecmp name de.name = true then
        iget sb de.inum
        return some (de.inum, off)
      else
        dirlookupLoop sb dp name fuel (off + direntSize)
    else
      return none

/-- `dirlookup`: the inode with that name and the offset of its entry. -/
def dirlookup (sb : SuperBlock) (dp : Nat) (name : Name) : FsM (Option (Nat × Nat)) := do
  let ip := (← get).itable dp
  if ip.type ≠ .dir then
    throw .dirlookupNotDir
  else
    dirlookupLoop sb dp name (ip.size / direntSize + 1) 0

/-- The loop of `dirlink`: the offset of the first free entry, or the end. -/
def dirlinkLoop (sb : SuperBlock) (dp : Nat) : (fuel off : Nat) → FsM Nat
  | 0, off => return off
  | fuel + 1, off => do
    if off < ((← get).itable dp).size then
      let de ← readDirent sb dp off .dirlinkRead
      if de.inum = 0 then
        return off
      else
        dirlinkLoop sb dp fuel (off + direntSize)
    else
      return off

/-- `dirlink`; the result says whether it succeeded. -/
def dirlink (sb : SuperBlock) (dp : Nat) (name : Name) (inum : Nat) : FsM Bool := do
  match ← dirlookup sb dp name with
  | some (ip, _) =>
    iput ip
    return false
  | none =>
    let off ← dirlinkLoop sb dp (((← get).itable dp).size / direntSize + 1) 0
    let r ← writeDirent sb dp off { inum := inum, name := name.take dirsiz }
    return r == (direntSize : Int)

/-! ### Paths -/

/-- `skipelem`: the next element of the path and the path after it. -/
def skipelem (path : Path) : Option (Name × Path) :=
  let path := path.dropWhile (· == slash)
  if path.isEmpty then
    none
  else
    some ((path.takeWhile (· != slash)).take dirsiz,
      (path.dropWhile (· != slash)).dropWhile (· == slash))

def namexLoop (sb : SuperBlock) (nameiparent : Bool) :
    (fuel : Nat) → (ip : Nat) → Path → Name → FsM (Option (Nat × Name))
  | 0, _, _, _ => return none
  | fuel + 1, ip, path, name =>
    match skipelem path with
    | none => do
      if nameiparent then
        iput ip
        return none
      else
        return some (ip, name)
    | some (name, path) => do
      ilock sb ip
      if ((← get).itable ip).type ≠ .dir then
        iput ip
        return none
      else if nameiparent && path.isEmpty then
        return some (ip, name)
      else
        match ← dirlookup sb ip name with
        | none =>
          iput ip
          return none
        | some (next, _) =>
          iput ip
          namexLoop sb nameiparent fuel next path name

/-- `namex`, called by a process with the current directory `cwd`. -/
def namex (sb : SuperBlock) (cwd : Nat) (path : Path) (nameiparent : Bool) :
    FsM (Option (Nat × Name)) := do
  if path.head? = some slash then
    iget sb rootino
    namexLoop sb nameiparent (path.length + 1) rootino path []
  else
    idup cwd
    namexLoop sb nameiparent (path.length + 1) cwd path []

def namei (sb : SuperBlock) (cwd : Nat) (path : Path) : FsM (Option Nat) := do
  return (← namex sb cwd path false).map Prod.fst

def nameiparent (sb : SuperBlock) (cwd : Nat) (path : Path) : FsM (Option (Nat × Name)) :=
  namex sb cwd path true

/-! ### Making and removing names -/

/-- `ip->nlink = nlink; iupdate(ip)`. -/
def setNlink (i : Nat) (nlink : Int16) : FsM Unit := do
  modify fun fs => fs.setInode i { fs.itable i with nlink := nlink }
  iupdate i

def createFail (dp ip : Nat) : FsM (Option Nat) := do
  setNlink ip 0
  iput ip
  iput dp
  return none

/-- The rest of `create`, from the new inode `ip` on. -/
def createIn (sb : SuperBlock) (dp : Nat) (name : Name) (type : InodeType)
    (major minor : Int16) (ip : Nat) : FsM (Option Nat) := do
  ilock sb ip
  modify fun fs => fs.setInode ip
    { fs.itable ip with major := major, minor := minor, nlink := 1 }
  iupdate ip
  if type = .dir then
    if !(← dirlink sb ip dot ip) then
      createFail dp ip
    else if !(← dirlink sb ip dotdot dp) then
      createFail dp ip
    else if !(← dirlink sb dp name ip) then
      createFail dp ip
    else
      setNlink dp (((← get).itable dp).nlink + 1)
      iput dp
      return some ip
  else if !(← dirlink sb dp name ip) then
    createFail dp ip
  else
    iput dp
    return some ip

def create (sb : SuperBlock) (cwd : Nat) (path : Path) (type : InodeType)
    (major minor : Int16) : FsM (Option Nat) := do
  match ← nameiparent sb cwd path with
  | none => return none
  | some (dp, name) =>
    ilock sb dp
    match ← dirlookup sb dp name with
    | some (ip, _) =>
      iput dp
      ilock sb ip
      let found := ((← get).itable ip).type
      if type = .file ∧ (found = .file ∨ found = .device) then
        return some ip
      else
        iput ip
        return none
    | none =>
      match ← ialloc sb type with
      | none =>
        iput dp
        return none
      | some ip => createIn sb dp name type major minor ip

def linkBad (sb : SuperBlock) (ip : Nat) : FsM Int := do
  ilock sb ip
  setNlink ip (((← get).itable ip).nlink - 1)
  iput ip
  return -1

/-- `sys_link` once both paths have been fetched. -/
def link (sb : SuperBlock) (cwd : Nat) (old new : Path) : FsM Int := do
  match ← namei sb cwd old with
  | none => return -1
  | some ip =>
    ilock sb ip
    if ((← get).itable ip).type = .dir then
      iput ip
      return -1
    else
      setNlink ip (((← get).itable ip).nlink + 1)
      match ← nameiparent sb cwd new with
      | none => linkBad sb ip
      | some (dp, name) =>
        ilock sb dp
        if !(← dirlink sb dp name ip) then
          iput dp
          linkBad sb ip
        else
          iput dp
          iput ip
          return 0

def isdiremptyLoop (sb : SuperBlock) (dp : Nat) : (fuel off : Nat) → FsM Bool
  | 0, _ => return true
  | fuel + 1, off => do
    if off < ((← get).itable dp).size then
      let de ← readDirent sb dp off .isdiremptyRead
      if de.inum ≠ 0 then
        return false
      else
        isdiremptyLoop sb dp fuel (off + direntSize)
    else
      return true

def isdirempty (sb : SuperBlock) (dp : Nat) : FsM Bool := do
  isdiremptyLoop sb dp (((← get).itable dp).size / direntSize + 1) (2 * direntSize)

/-- The end of `sys_unlink`: the entry at `off` of `dp` names `ip` and goes. -/
def unlinkEntry (sb : SuperBlock) (dp off ip : Nat) : FsM Int := do
  let r ← writeDirent sb dp off {}
  if r ≠ direntSize then
    throw .unlinkWritei
  else
    if ((← get).itable ip).type = .dir then
      setNlink dp (((← get).itable dp).nlink - 1)
    iput dp
    setNlink ip (((← get).itable ip).nlink - 1)
    iput ip
    return 0

/-- `sys_unlink` once the path has been fetched. -/
def unlink (sb : SuperBlock) (cwd : Nat) (path : Path) : FsM Int := do
  match ← nameiparent sb cwd path with
  | none => return -1
  | some (dp, name) =>
    ilock sb dp
    if namecmp name dot || namecmp name dotdot then
      iput dp
      return -1
    else
      match ← dirlookup sb dp name with
      | none =>
        iput dp
        return -1
      | some (ip, off) =>
        ilock sb ip
        if ((← get).itable ip).nlink < 1 then
          throw .unlinkNlink
        else if ((← get).itable ip).type = .dir then
          if !(← isdirempty sb ip) then
            iput ip
            iput dp
            return -1
          else
            unlinkEntry sb dp off ip
        else
          unlinkEntry sb dp off ip

end CustomXv6

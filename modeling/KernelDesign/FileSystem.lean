import KernelDesign.Strings

/-!
# The read-only file system

A file-system image is a sequence of 4 KB pages: the boot block, one page
per inode, then the data blocks. `fs_init` copies the boot block into the
kernel and keeps the addresses of the other two tables, so the state of
the file system is that copy, the bytes from `inode_addr` on, and the two
variables the directory reader owns. Inodes and data blocks are decoded
from those bytes where the code reads them, and an inode number or a block
number past its table reads whatever follows, as it does in the kernel.

Each routine also returns the table accesses it makes. `Access` is not
part of the kernel: it is what a statement about staying inside the tables
talks about.
-/

namespace KernelDesign

open Words

/-- `dentry_t`. The reserved bytes are left out: no routine reads them. -/
structure Dentry where
  filename : Fin 32 → UInt8
  filetype : ℕ
  inode : ℕ

/-- The name of an entry as a string held in an object of 32 bytes. -/
def Dentry.name (d : Dentry) : Bytes := Buffer.ofArray d.filename 0

/-- What an uninitialised `dentry_t` holds: no path reads it before it is
filled. -/
def unsetDentry : Dentry := ⟨fun _ => 0, 0, 0⟩

/-- `boot_block_t`: the statistics and the 63 directory entries. -/
structure BootBlock where
  dirCount : ℤ
  inodeCount : ℤ
  dataCount : ℤ
  direntries : Fin 63 → Dentry

/-- `inode_t`: the length of the file and its 1023 block numbers. -/
structure Inode where
  length : ℤ
  dataBlockNum : Fin 1023 → ℤ

/-- **The state of the file system.** -/
structure FileSystem where
  /-- The static `boot_block`. -/
  bootBlock : BootBlock
  /-- What the 64 bytes after `boot_block` read as: slot 63 of a table of
  63 entries. -/
  afterBootBlock : Dentry
  /-- The bytes from `inode_addr` on, by their distance modulo `2 ^ 32`. -/
  image : Bytes
  /-- The position of the directory reader, the static `dir_count`. -/
  dirCount : ℕ
  /-- The static `dentry_global`. -/
  dentryGlobal : Dentry

/-- **A table access**: a directory slot read, an inode copied, an index
used into `data_block_num`, or `n` bytes copied from position `pos` of data
block `b` on. -/
inductive Access
  | dirSlot (i : ℕ)
  | inode (k : ℕ)
  | blockIndex (i : ℕ)
  | data (b : ℤ) (pos n : ℕ)
  deriving DecidableEq

/-! ## Setting up -/

/-- The directory entry stored at `a`. -/
def dentryAt (b : Bytes) (a : ℕ) : Dentry :=
  ⟨fun i => b (a + i), uint32At b (a + 32), uint32At b (a + 36)⟩

/-- The boot block stored at the start of `b`. -/
def bootBlockAt (b : Bytes) : BootBlock :=
  ⟨int32At b 0, int32At b 4, int32At b 8, fun i => dentryAt b (64 + 64 * i)⟩

/-- **`fs_init`** on the module whose bytes are `start`. -/
def fsInit (fs : FileSystem) (start : Bytes) : FileSystem :=
  { fs with
    bootBlock := bootBlockAt start
    image := start.drop 4096
    dirCount := 0 }

/-! ## Reading the tables -/

namespace FileSystem

/-- The entry in slot `i`. -/
def direntry (fs : FileSystem) (i : ℕ) : Dentry :=
  if h : i < 63 then fs.bootBlock.direntries ⟨i, h⟩ else fs.afterBootBlock

/-- **The inode read for number `k`**, at
`inode_addr + k * FOUR_KB`. -/
def inodeAt (fs : FileSystem) (k : ℕ) : Inode :=
  ⟨int32At fs.image (u32 (k * 4096)),
    fun i => int32At fs.image (u32 (k * 4096) + 4 + 4 * i)⟩

/-- The bytes from data block `b` on, the data blocks following the
inodes. -/
def dataBlock (fs : FileSystem) (b : ℤ) : Bytes :=
  fun k => fs.image (u32 (fs.bootBlock.inodeCount * 4096 + b * 4096 + k))

/-- The test of `read_data` on a block number. -/
def badBlock (fs : FileSystem) (b : ℤ) : Bool :=
  b < 0 ∨ fs.bootBlock.dataCount ≤ b

end FileSystem

/-- **The word `data_block_num[i]` reads** in the copy of the inode on the
kernel stack: past the 1023 entries it is a word of `stack`, the memory
above that copy. -/
def Inode.blockNum (ino : Inode) (stack : ℕ → ℤ) (i : ℕ) : ℤ :=
  if h : i < 1023 then ino.dataBlockNum ⟨i, h⟩ else stack (i - 1023)

/-! ## Looking up a directory entry -/

/-- What a lookup returns and leaves behind its `dentry` pointer. -/
structure Lookup where
  ret : ℤ
  dentry : Option Dentry
  log : List Access

/-- **`read_dentry_by_index`**. -/
def readDentryByIndex (fs : FileSystem) (index : ℕ) (dentry : Option Dentry) :
    Lookup :=
  if 63 < index ∨ dentry.isNone then ⟨-1, dentry, []⟩
  else ⟨0, some (fs.direntry index), [.dirSlot index]⟩

/-- The loop of `read_dentry_by_name` from slot `i` on, with `n` slots
left. -/
def readDentryByNameLoop (fs : FileSystem) (fname : Bytes)
    (dentry : Option Dentry) (i : ℕ) : ℕ → Lookup
  | 0 => ⟨-1, dentry, []⟩
  | n + 1 =>
    if strncmp (fs.direntry i).name fname 0 32 = 0 then
      let r := readDentryByIndex fs i dentry
      ⟨if r.ret = -1 then -1 else 0, r.dentry, .dirSlot i :: r.log⟩
    else
      let r := readDentryByNameLoop fs fname dentry (i + 1) n
      ⟨r.ret, r.dentry, .dirSlot i :: r.log⟩

/-- **`read_dentry_by_name`**. The string is empty when it opens with
NUL, which is all that `strlen(fname) == 0` asks. -/
def readDentryByName (fs : FileSystem) (fname : Option Bytes)
    (dentry : Option Dentry) : Lookup :=
  match fname with
  | none => ⟨-1, dentry, []⟩
  | some f =>
    if f 0 = 0 then ⟨-1, dentry, []⟩
    else readDentryByNameLoop fs f dentry 0 63

/-! ## Reading a file -/

/-- What `read_data` returns and leaves in the buffer. -/
structure ReadResult where
  ret : ℤ
  buf : Bytes
  log : List Access

/-- A result with one more access, made first. -/
def ReadResult.after (r : ReadResult) (a : Access) : ReadResult := ⟨r.ret, r.buf, a :: r.log⟩

@[simp] theorem ReadResult.after_ret (r : ReadResult) (a : Access) :
    (r.after a).ret = r.ret := rfl

@[simp] theorem ReadResult.after_buf (r : ReadResult) (a : Access) :
    (r.after a).buf = r.buf := rfl

@[simp] theorem ReadResult.after_log (r : ReadResult) (a : Access) :
    (r.after a).log = a :: r.log := rfl

/-- The loop of **`read_data`**, entered with `readByte` bytes copied; one
unit of fuel an iteration. The source of the copy of a partial last block
starts at the position in the block, that of the other copy at the start
of the block. -/
def readDataLoop (fs : FileSystem) (ino : Inode) (stack : ℕ → ℤ)
    (offset : ℕ) (leftLength : ℤ) : ℕ → ℕ → Bytes → ReadResult
  | 0, readByte, buf => ⟨readByte, buf, []⟩
  | fuel + 1, readByte, buf =>
    if (readByte : ℤ) ≤ leftLength then
      let i := u32 (readByte + offset : ℕ) / 4096
      let b := ino.blockNum stack i
      if fs.badBlock b then ⟨-1, buf, [.blockIndex i]⟩
      else
        let inBlkPos := u32 (readByte + offset : ℕ) % 4096
        if i32 (leftLength - readByte + inBlkPos) < 4096 then
          let n := (leftLength - readByte).toNat
          ⟨leftLength, buf.copy readByte ((fs.dataBlock b).drop inBlkPos) n,
            [.blockIndex i, .data b inBlkPos n]⟩
        else
          let elseByte :=
            if leftLength - readByte < ((4096 - inBlkPos : ℕ) : ℤ) then
              (leftLength - readByte).toNat
            else 4096 - inBlkPos
          let r := readDataLoop fs ino stack offset leftLength fuel
            (readByte + elseByte) (buf.copy readByte (fs.dataBlock b) elseByte)
          ⟨r.ret, r.buf, .blockIndex i :: .data b 0 elseByte :: r.log⟩
    else ⟨readByte, buf, []⟩

/-- The number of bytes `read_data` sets out to read, an `int32_t`
computed in unsigned arithmetic. -/
def leftLength (ino : Inode) (offset length : ℕ) : ℤ :=
  i32 (if u32 ino.length < u32 (length + offset : ℕ) then
      (u32 (ino.length - offset) : ℤ) else length)

/-- **`read_data`**. An iteration of the loop copies at least one byte or
is the last, so the fuel is never what ends it
(`readDataLoop_fuel`). -/
def readData (fs : FileSystem) (stack : ℕ → ℤ) (inode offset : ℕ)
    (buf : Option Bytes) (length : ℕ) : ReadResult :=
  let ino := fs.inodeAt inode
  match buf with
  | none => ⟨-1, fun _ => 0, [.inode inode]⟩
  | some buf =>
    if length = 0 ∨ u32 ino.length < offset then ⟨-1, buf, [.inode inode]⟩
    else
      let left := leftLength ino offset length
      (readDataLoop fs ino stack offset left (left.toNat + 1) 0 buf).after (.inode inode)

/-- **The copies of a list of accesses**, made one behind the other from
index `r` of the buffer on: where each starts, and its number of bytes. -/
def copies : List Access → ℕ → List (ℕ × ℕ)
  | [], _ => []
  | .data _ _ n :: log, r => (r, n) :: copies log (r + n)
  | .dirSlot _ :: log, r | .inode _ :: log, r | .blockIndex _ :: log, r => copies log r

/-! ## Reading the directory -/

/-- What `fs_dir_read` returns and leaves behind. -/
structure DirRead where
  ret : ℤ
  buf : Bytes
  fs : FileSystem
  log : List Access

/-- **`fs_dir_read`**: list the entry at the position of the reader and
move the position on. The request size is not consulted. A name that fills
its 32 bytes is cut there, which `strlen` capped at 32 does for both the
copy and the count. -/
def fsDirRead (fs : FileSystem) (buf : Bytes) (_nbytes : ℤ) : DirRead :=
  let r := readDentryByIndex fs fs.dirCount (some fs.dentryGlobal)
  let d := r.dentry.getD fs.dentryGlobal
  let len := strlen d.name 32
  let buf := (buf.fill 0 32).copy 0 d.name len
  let dirCount := u32 (fs.dirCount + 1)
  if u32 fs.bootBlock.dirCount < dirCount then
    ⟨0, buf, { fs with dentryGlobal := d, dirCount := 0 }, r.log⟩
  else ⟨len, buf, { fs with dentryGlobal := d, dirCount := dirCount }, r.log⟩

end KernelDesign

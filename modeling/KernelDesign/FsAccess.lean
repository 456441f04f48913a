import KernelDesign.ReadData

/-!
# What the file system touches

The four readers of the file system index four tables: the directory
entries, the inodes, the block numbers of an inode and the data blocks.
`Access.InTables` says that an access stays inside its table, and the
results give, for each reader, the calls whose accesses all do. They hold
for any contents of the image: no length or block number of an inode is
trusted.

The comparisons that decide are one past the last entry. An index of 63
passes the check of `read_dentry_by_index`, and the directory reader hands
it that index when the directory is full. The loop of `read_data` goes on
while `read_byte <= left_length`, so a request that ends on a block
boundary looks up the block after it, which for a file of 1023 blocks is
past the table. The inode number is not compared with anything.
-/

namespace KernelDesign

open Words

variable {fs : FileSystem} {stack : ℕ → ℤ} {k offset : ℕ}

/-- **An access stays inside the tables** of the image with boot block
`bb`. A copy does when its bytes lie in the data blocks. -/
def Access.InTables (bb : BootBlock) : Access → Prop
  | dirSlot i => i < 63
  | inode k => (k : ℤ) < bb.inodeCount
  | blockIndex i => i < 1023
  | data b pos n => 0 ≤ b ∧ b * 4096 + pos + n ≤ bb.dataCount * 4096

/-- All of a list of accesses stay inside the tables. -/
def AllInTables (bb : BootBlock) (log : List Access) : Prop :=
  ∀ a ∈ log, a.InTables bb

@[simp] theorem allInTables_nil (bb : BootBlock) : AllInTables bb [] :=
  fun _ h => absurd h List.not_mem_nil

@[simp] theorem allInTables_cons (bb : BootBlock) (a : Access) (log : List Access) :
    AllInTables bb (a :: log) ↔ a.InTables bb ∧ AllInTables bb log :=
  List.forall_mem_cons

/-! ## The directory -/

/-- **A lookup by index stays inside the directory** unless the index is
63. -/
theorem readDentryByIndex_inTables (bb : BootBlock) (fs : FileSystem) (i : ℕ)
    (d : Option Dentry) :
    AllInTables bb (readDentryByIndex fs i d).log ↔ i ≠ 63 ∨ d.isNone = true := by
  unfold readDentryByIndex
  split
  · rename_i h
    refine iff_of_true (allInTables_nil bb) ?_
    rcases h with h | h
    · exact Or.inl (by omega)
    · exact Or.inr h
  · rename_i h
    rw [not_or] at h
    rw [allInTables_cons]
    show i < 63 ∧ _ ↔ _
    constructor
    · exact fun hi => Or.inl (Nat.ne_of_lt hi.1)
    · intro hi
      rcases hi with hi | hi
      · exact ⟨by omega, allInTables_nil bb⟩
      · exact absurd hi h.2

/-- An index past 63 is refused, and so is a null `dentry`. -/
theorem readDentryByIndex_ret (fs : FileSystem) (i : ℕ) (d : Option Dentry) :
    (readDentryByIndex fs i d).ret = -1 ↔ 63 < i ∨ d.isNone = true := by
  unfold readDentryByIndex
  split
  · rename_i h
    exact iff_of_true rfl h
  · rename_i h
    exact iff_of_false (show (0 : ℤ) ≠ -1 by decide) h

/-- **A lookup by name that succeeds finds an entry of the table**, and one
that fails leaves the `dentry` alone. -/
theorem readDentryByNameLoop_found (fs : FileSystem) (fname : Bytes) (d : Dentry)
    {i n : ℕ} (h : i + n ≤ 63) :
    let l := readDentryByNameLoop fs fname (some d) i n
    (l.ret = -1 ∧ l.dentry = some d)
      ∨ ∃ j, j < 63 ∧ l.ret = 0 ∧ l.dentry = some (fs.direntry j) := by
  induction n generalizing i with
  | zero => exact Or.inl ⟨rfl, rfl⟩
  | succ n ih =>
    unfold readDentryByNameLoop
    split
    · refine Or.inr ⟨i, by omega, ?_⟩
      have hfits : ¬ (63 < i ∨ (some d).isNone = true) := by
        rw [Option.isNone_some, or_iff_left Bool.false_ne_true]
        omega
      rw [readDentryByIndex, if_neg hfits]
      exact ⟨rfl, rfl⟩
    · exact ih (by omega)

/-- The two outcomes of a lookup of a string. -/
theorem readDentryByName_found (fs : FileSystem) (f : Bytes) (d : Dentry) :
    let l := readDentryByName fs (some f) (some d)
    (l.ret = -1 ∧ l.dentry = some d)
      ∨ f 0 ≠ 0 ∧ ∃ j, j < 63 ∧ l.ret = 0 ∧ l.dentry = some (fs.direntry j) := by
  simp only [readDentryByName]
  split
  · exact Or.inl ⟨rfl, rfl⟩
  · rename_i h0
    rcases readDentryByNameLoop_found fs f d (i := 0) (n := 63) (by decide) with h | h
    · exact Or.inl h
    · exact Or.inr ⟨h0, h⟩

/-- **A lookup by name stays inside the directory.** -/
theorem readDentryByNameLoop_inTables (bb : BootBlock) (fs : FileSystem)
    (fname : Bytes) (d : Option Dentry) {i n : ℕ} (h : i + n ≤ 63) :
    AllInTables bb (readDentryByNameLoop fs fname d i n).log := by
  induction n generalizing i with
  | zero => exact allInTables_nil bb
  | succ n ih =>
    unfold readDentryByNameLoop
    split
    · rw [allInTables_cons]
      refine ⟨show i < 63 by omega, ?_⟩
      exact (readDentryByIndex_inTables bb fs i d).mpr (Or.inl (by omega))
    · rw [allInTables_cons]
      exact ⟨show i < 63 by omega, ih (by omega)⟩

theorem readDentryByName_inTables (bb : BootBlock) (fs : FileSystem)
    (fname : Option Bytes) (d : Option Dentry) :
    AllInTables bb (readDentryByName fs fname d).log := by
  cases fname with
  | none => exact allInTables_nil bb
  | some f =>
    simp only [readDentryByName]
    split
    · exact allInTables_nil bb
    · exact readDentryByNameLoop_inTables bb fs f d (le_refl 63)

/-- The directory reader makes the accesses of its lookup. -/
theorem fsDirRead_log (fs : FileSystem) (buf : Bytes) (nbytes : ℤ) :
    (fsDirRead fs buf nbytes).log
      = (readDentryByIndex fs fs.dirCount (some fs.dentryGlobal)).log := by
  unfold fsDirRead
  dsimp only
  split <;> rfl

/-- **The same volume**: two states of the file system that differ at most in
the variables of the directory reader. -/
def FileSystem.SameVolume (fs fs' : FileSystem) : Prop :=
  ∃ d c, fs' = { fs with dentryGlobal := d, dirCount := c }

namespace FileSystem.SameVolume

variable {fs fs' fs'' : FileSystem}

theorem refl (fs : FileSystem) : fs.SameVolume fs := ⟨_, _, rfl⟩

theorem trans (h : fs.SameVolume fs') (h' : fs'.SameVolume fs'') : fs.SameVolume fs'' := by
  obtain ⟨d, c, rfl⟩ := h
  obtain ⟨d', c', rfl⟩ := h'
  exact ⟨d', c', rfl⟩

theorem bootBlock (h : fs.SameVolume fs') : fs'.bootBlock = fs.bootBlock := by
  obtain ⟨d, c, rfl⟩ := h
  rfl

/-- **A lookup by name finds the same entry.** -/
theorem readDentryByName (h : fs.SameVolume fs') (fname : Option Bytes)
    (dentry : Option Dentry) :
    KernelDesign.readDentryByName fs' fname dentry
      = KernelDesign.readDentryByName fs fname dentry := by
  obtain ⟨d, c, rfl⟩ := h
  have hloop : ∀ f n i, readDentryByNameLoop { fs with dentryGlobal := d, dirCount := c } f
      dentry i n = readDentryByNameLoop fs f dentry i n := by
    intro f n
    induction n with
    | zero => exact fun i => rfl
    | succ n ih =>
      intro i
      rw [readDentryByNameLoop, readDentryByNameLoop, ih]
      rfl
  cases fname with
  | none => rfl
  | some f =>
    rw [KernelDesign.readDentryByName, KernelDesign.readDentryByName, hloop]

end FileSystem.SameVolume

/-- The directory reader does not change the volume. -/
theorem fsDirRead_sameVolume (fs : FileSystem) (buf : Bytes) (nbytes : ℤ) :
    fs.SameVolume (fsDirRead fs buf nbytes).fs := by
  unfold fsDirRead
  dsimp only
  split
  · exact ⟨_, _, rfl⟩
  · exact ⟨_, _, rfl⟩

theorem fsDirRead_bootBlock (fs : FileSystem) (buf : Bytes) (nbytes : ℤ) :
    (fsDirRead fs buf nbytes).fs.bootBlock = fs.bootBlock :=
  (fsDirRead_sameVolume fs buf nbytes).bootBlock

/-- **The position of the directory reader stays in the directory**: it
starts again once it is past the number of entries. -/
theorem fsDirRead_position (fs : FileSystem) (buf : Bytes) (nbytes : ℤ) :
    (fsDirRead fs buf nbytes).fs.dirCount ≤ u32 fs.bootBlock.dirCount := by
  unfold fsDirRead
  dsimp only
  split
  · exact Nat.zero_le _
  · exact Nat.not_lt.mp ‹_›

/-! ## The loop of `read_data` -/

/-- A block that passes the test is a data block. -/
theorem FileSystem.bounds_of_good {b : ℤ} (h : fs.badBlock b = false) :
    0 ≤ b ∧ b < fs.bootBlock.dataCount := by
  simp only [badBlock, decide_eq_false_iff_not] at h
  omega

/-- **The loop stays inside the tables** exactly when the block of its end
is in the table of block numbers, or a bad block in the table stops it
before. -/
theorem readDataLoop_inTables {ino : Inode} {left fuel r : ℕ} {buf : Bytes}
    (h : InRange offset left r) (hfuel : left - r < fuel) :
    AllInTables fs.bootBlock (readDataLoop fs ino stack offset left fuel r buf).log
      ↔ (offset + left) / 4096 < 1023
        ∨ ∃ i, (offset + r) / 4096 ≤ i ∧ i < 1023
            ∧ fs.badBlock (ino.blockNum stack i) = true := by
  refine readDataLoop_induction (motive := fun r _ res => AllInTables fs.bootBlock res.log
    ↔ (offset + left) / 4096 < 1023
      ∨ ∃ i, (offset + r) / 4096 ≤ i ∧ i < 1023
          ∧ fs.badBlock (ino.blockNum stack i) = true) ?_ ?_ ?_ h hfuel
  · intro r buf h hbad
    have hle := h.le
    rw [allInTables_cons]
    constructor
    · exact fun hi => Or.inr ⟨_, le_refl _, hi.1, hbad⟩
    · intro hi
      refine ⟨?_, allInTables_nil _⟩
      show (offset + r) / 4096 < 1023
      rcases hi with hi | ⟨i, hlo, hi, -⟩ <;> omega
  · intro r buf h hhere hlast
    have hle := h.le
    obtain ⟨hb0, hb⟩ := FileSystem.bounds_of_good hhere
    rw [allInTables_cons, allInTables_cons]
    constructor
    · exact fun hi => Or.inl (lt_of_eq_of_lt (by omega) hi.1)
    · intro hi
      refine ⟨?_, ⟨hb0, by omega⟩, allInTables_nil _⟩
      show (offset + r) / 4096 < 1023
      rcases hi with hi | ⟨i, hlo, hi, -⟩ <;> omega
  · rintro fuel r buf n b rest h hhere hmore hn rfl -
    have hle := h.le
    obtain ⟨hb0, hb⟩ := FileSystem.bounds_of_good hhere
    have hstep : (offset + (r + n)) / 4096 = (offset + r) / 4096 + 1 := by omega
    intro ih
    rw [allInTables_cons, allInTables_cons, ih, hstep]
    clear ih
    constructor
    · rintro ⟨-, -, hi | ⟨i, hlo, hi, hbad⟩⟩
      · exact Or.inl hi
      · exact Or.inr ⟨i, by omega, hi, hbad⟩
    · intro hi
      refine ⟨?_, ⟨hb0, by omega⟩, ?_⟩
      · show (offset + r) / 4096 < 1023
        rcases hi with hi | ⟨i, hlo, hi, -⟩ <;> omega
      · rcases hi with hi | ⟨i, hlo, hi, hbad⟩
        · exact Or.inl hi
        · refine Or.inr ⟨i, ?_, hi, hbad⟩
          rcases Nat.eq_or_lt_of_le hlo with rfl | hlt
          · rw [hhere] at hbad
            exact absurd hbad Bool.false_ne_true
          · exact hlt

/-- **The loop when the first comparison overflows**: it copies the whole
of the request from the first block on. -/
theorem readDataLoop_overflow {ino : Inode} {left : ℤ} {fuel : ℕ} {buf : Bytes}
    (hoff : offset < 4294967296) (h0 : 0 ≤ left) (hleft : left < 2147483648)
    (hover : 2147483648 ≤ left + (offset % 4096 : ℕ))
    (hgood : fs.badBlock (ino.blockNum stack (offset / 4096)) = false) :
    (readDataLoop fs ino stack offset left (fuel + 1) 0 buf).log
      = [.blockIndex (offset / 4096),
          .data (ino.blockNum stack (offset / 4096)) (offset % 4096) left.toNat] := by
  have hp : u32 ((0 + offset : ℕ) : ℤ) = offset := by
    rw [Nat.zero_add, u32_natCast hoff]
  have hsum : i32 (left - (0 : ℕ) + (offset % 4096 : ℕ)) < 4096 := by
    rw [i32_of_overflow (by omega) (by omega)]
    omega
  have hrest : (left - (0 : ℕ)).toNat = left.toNat := by rw [Int.natCast_zero, Int.sub_zero]
  simp only [readDataLoop, hp, hrest]
  rw [if_pos (show ((0 : ℕ) : ℤ) ≤ left from h0), hgood, if_neg Bool.false_ne_true,
    if_pos hsum]

/-- **The walk of a request stays inside the tables**: the first block is
in the table of block numbers, and it is bad, or the walk ends in the
table, or a bad block in the table stops it. Where position and length add
up to more than an `int32_t` holds, the request is copied in one piece,
which has to end inside the data blocks. -/
def WalkStays (fs : FileSystem) (ino : Inode) (stack : ℕ → ℤ) (offset : ℕ) (left : ℤ) :
    Prop :=
  let first := ino.blockNum stack (offset / 4096)
  offset / 4096 < 1023
    ∧ (fs.badBlock first = true
      ∨ left + (offset % 4096 : ℕ) < 2147483648
        ∧ ((offset + left) / 4096 < 1023
          ∨ ∃ i, offset / 4096 ≤ i ∧ i < 1023
              ∧ fs.badBlock (ino.blockNum stack i) = true)
      ∨ 2147483648 ≤ left + (offset % 4096 : ℕ)
        ∧ first * 4096 + (offset % 4096 : ℕ) + left ≤ fs.bootBlock.dataCount * 4096)

/-- The loop as `read_data` enters it. -/
theorem readDataLoop_inTables_iff {ino : Inode} {left : ℤ} {buf : Bytes}
    (hoff : offset < 4294967296) (h0 : 0 ≤ left) (hleft : left < 2147483648) :
    AllInTables fs.bootBlock
        (readDataLoop fs ino stack offset left (left.toNat + 1) 0 buf).log
      ↔ WalkStays fs ino stack offset left := by
  by_cases hidx : offset / 4096 < 1023
  · cases hfirst : fs.badBlock (ino.blockNum stack (offset / 4096)) with
    | true =>
      rw [readDataLoop_bad h0 hoff hfirst]
      refine iff_of_true ?_ ⟨hidx, Or.inl hfirst⟩
      rw [allInTables_cons]
      exact ⟨hidx, allInTables_nil _⟩
    | false =>
      obtain ⟨hb0, hb⟩ := FileSystem.bounds_of_good hfirst
      by_cases hsum : left + (offset % 4096 : ℕ) < 2147483648
      · -- No comparison overflows, and the walk is the one of the loop lemma.
        obtain ⟨n, rfl⟩ := Int.eq_ofNat_of_zero_le h0
        have hrange : InRange offset n 0 := by
          refine ⟨Nat.zero_le _, by omega, ?_⟩
          rw [Nat.sub_zero, Nat.add_zero]
          omega
        rw [readDataLoop_inTables hrange (by omega), Nat.add_zero]
        constructor
        · intro h
          refine ⟨hidx, Or.inr (Or.inl ⟨hsum, ?_⟩)⟩
          rcases h with h | h
          · exact Or.inl (by omega)
          · exact Or.inr h
        · rintro ⟨-, h | ⟨-, h | h⟩ | ⟨h, -⟩⟩
          · exact Or.inr ⟨_, le_refl _, hidx, h⟩
          · exact Or.inl (by omega)
          · exact Or.inr h
          · omega
      · rw [readDataLoop_overflow hoff h0 hleft (by omega) hfirst, allInTables_cons,
          allInTables_cons]
        constructor
        · rintro ⟨-, ⟨-, h⟩, -⟩
          exact ⟨hidx, Or.inr (Or.inr ⟨by omega, by omega⟩)⟩
        · rintro ⟨-, h | ⟨h, -⟩ | ⟨-, h⟩⟩
          · rw [hfirst] at h
            exact absurd h Bool.false_ne_true
          · exact absurd h hsum
          · exact ⟨hidx, ⟨hb0, by omega⟩, allInTables_nil _⟩
  · refine iff_of_false (fun h => hidx ?_) (fun h => hidx h.1)
    exact h _ (readDataLoop_log_head left.toNat buf h0 hoff)

/-- **The calls of `read_data` that stay inside the tables**: the inode
exists, and the call is refused, or the length of the request is negative
as an `int32_t`, or its walk stays inside. -/
def ReadStays (fs : FileSystem) (stack : ℕ → ℤ) (k offset : ℕ) (buf : Option Bytes)
    (n : ℕ) : Prop :=
  let ino := fs.inodeAt k
  (k : ℤ) < fs.bootBlock.inodeCount
    ∧ (buf.isNone = true ∨ n = 0 ∨ u32 ino.length < offset
      ∨ leftLength ino offset n < 0
      ∨ WalkStays fs ino stack offset (leftLength ino offset n))

/-- **What `read_data` touches.** -/
theorem readData_inTables (fs : FileSystem) (stack : ℕ → ℤ) (k offset : ℕ)
    (buf : Option Bytes) (n : ℕ) :
    AllInTables fs.bootBlock (readData fs stack k offset buf n).log
      ↔ ReadStays fs stack k offset buf n := by
  cases buf with
  | none =>
    show AllInTables _ [.inode k] ↔ _
    rw [allInTables_cons]
    exact ⟨fun h => ⟨h.1, Or.inl rfl⟩, fun h => ⟨h.1, allInTables_nil _⟩⟩
  | some buf =>
    by_cases hrefused : n = 0 ∨ u32 (fs.inodeAt k).length < offset
    · simp only [readData]
      rw [if_pos hrefused, allInTables_cons]
      refine ⟨fun h => ⟨h.1, Or.inr ?_⟩, fun h => ⟨h.1, allInTables_nil _⟩⟩
      rcases hrefused with h0 | h0
      · exact Or.inl h0
      · exact Or.inr (Or.inl h0)
    · rw [not_or] at hrefused
      have hoff := Nat.not_lt.mp hrefused.2
      have hlen := u32_lt (fs.inodeAt k).length
      obtain ⟨-, hleft⟩ := leftLength_bounds (fs.inodeAt k) offset n
      rw [readData_eq hrefused.1 hoff, ReadResult.after_log, allInTables_cons]
      rcases Int.lt_or_le (leftLength (fs.inodeAt k) offset n) 0 with hneg | h0
      · rw [readDataLoop_done _ _ hneg]
        exact ⟨fun h => ⟨h.1, Or.inr (Or.inr (Or.inr (Or.inl hneg)))⟩,
          fun h => ⟨h.1, allInTables_nil _⟩⟩
      · rw [readDataLoop_inTables_iff (lt_of_le_of_lt hoff hlen) h0 hleft]
        constructor
        · exact fun h => ⟨h.1, Or.inr (Or.inr (Or.inr (Or.inr h.2)))⟩
        · rintro ⟨hk, h | h | h | h | h⟩
          · exact absurd h Bool.false_ne_true
          · exact absurd h hrefused.1
          · exact absurd h hrefused.2
          · omega
          · exact ⟨hk, h⟩

/-! ## Runs of the four readers -/

/-- **A call of one of the four readers.** -/
inductive FsCall
  | byName (fname : Option Bytes) (dentry : Option Dentry)
  | byIndex (index : ℕ) (dentry : Option Dentry)
  | dirRead (buf : Bytes) (nbytes : ℤ)
  | read (stack : ℕ → ℤ) (inode offset : ℕ) (buf : Option Bytes) (length : ℕ)

namespace FsCall

/-- The value a call returns. -/
def ret (fs : FileSystem) : FsCall → ℤ
  | byName fname dentry => (readDentryByName fs fname dentry).ret
  | byIndex index dentry => (readDentryByIndex fs index dentry).ret
  | dirRead buf nbytes => (fsDirRead fs buf nbytes).ret
  | read stack inode offset buf length => (readData fs stack inode offset buf length).ret

/-- The accesses a call makes. -/
def log (fs : FileSystem) : FsCall → List Access
  | byName fname dentry => (readDentryByName fs fname dentry).log
  | byIndex index dentry => (readDentryByIndex fs index dentry).log
  | dirRead buf nbytes => (fsDirRead fs buf nbytes).log
  | read stack inode offset buf length => (readData fs stack inode offset buf length).log

/-- The file system a call leaves: only the directory reader has a
position to move. -/
def next (fs : FileSystem) : FsCall → FileSystem
  | dirRead buf nbytes => (fsDirRead fs buf nbytes).fs
  | _ => fs

/-- The argument names an entry the table does not have. -/
def outside (bb : BootBlock) : FsCall → Prop
  | byIndex index _ => 63 ≤ index
  | read _ inode _ _ _ => bb.inodeCount ≤ inode
  | _ => False

/-- **A call is safe**: its accesses stay inside the tables, and it
returns -1 if its argument is outside. -/
def Safe (bb : BootBlock) (fs : FileSystem) (c : FsCall) : Prop :=
  AllInTables bb (c.log fs) ∧ (c.outside bb → c.ret fs = -1)

/-- **The calls that are safe**: every lookup by name, a lookup by an
index other than 63, a directory read at a position other than 63, and a
read that stays inside. -/
def Stays (fs : FileSystem) : FsCall → Prop
  | byName _ _ => True
  | byIndex index dentry => index ≠ 63 ∨ dentry.isNone = true
  | dirRead _ _ => fs.dirCount ≠ 63
  | read stack inode offset buf length => ReadStays fs stack inode offset buf length

/-- No call changes the boot block. -/
theorem next_bootBlock (fs : FileSystem) (c : FsCall) :
    (c.next fs).bootBlock = fs.bootBlock := by
  cases c with
  | dirRead buf nbytes => exact fsDirRead_bootBlock fs buf nbytes
  | byName | byIndex | read => rfl

/-- **One call**: it is safe exactly when it is of the kinds listed. -/
theorem safe_iff_stays (fs : FileSystem) (c : FsCall) :
    c.Safe fs.bootBlock fs ↔ c.Stays fs := by
  cases c with
  | byName fname dentry =>
    exact iff_of_true ⟨readDentryByName_inTables _ fs fname dentry, fun h => h.elim⟩ trivial
  | byIndex index dentry =>
    show AllInTables _ (readDentryByIndex fs index dentry).log
      ∧ (63 ≤ index → (readDentryByIndex fs index dentry).ret = -1) ↔ _
    rw [readDentryByIndex_inTables, readDentryByIndex_ret]
    refine and_iff_left_of_imp (fun h hout => ?_)
    rcases h with h | h
    · exact Or.inl (by omega)
    · exact Or.inr h
  | dirRead buf nbytes =>
    show AllInTables _ (fsDirRead fs buf nbytes).log ∧ (False → _) ↔ fs.dirCount ≠ 63
    rw [fsDirRead_log, readDentryByIndex_inTables, and_iff_left (fun h => h.elim)]
    exact or_iff_left Bool.false_ne_true
  | read stack inode offset buf length =>
    show AllInTables _ (readData fs stack inode offset buf length).log ∧ _ ↔ ReadStays ..
    rw [readData_inTables]
    refine and_iff_left_of_imp (fun h hout => ?_)
    have hin := h.1
    have hge : fs.bootBlock.inodeCount ≤ inode := hout
    omega

end FsCall

/-- **The calls of a run**, each with the file system it is made on. -/
def fsRun (fs : FileSystem) : List FsCall → List (FileSystem × FsCall)
  | [] => []
  | c :: cs => (fs, c) :: fsRun (c.next fs) cs

/-- The boot block is the same throughout a run. -/
theorem fsRun_bootBlock {cs : List FsCall} {p : FileSystem × FsCall}
    (hp : p ∈ fsRun fs cs) : p.1.bootBlock = fs.bootBlock := by
  induction cs generalizing fs with
  | nil => exact absurd hp List.not_mem_nil
  | cons c cs ih =>
    rcases List.mem_cons.mp hp with rfl | hp
    · rfl
    · rw [ih hp, FsCall.next_bootBlock]

/-- **The position of the directory reader is an entry of the directory or
the number of entries** throughout a run that starts so. -/
theorem fsRun_position {cs : List FsCall} {p : FileSystem × FsCall}
    (hpos : fs.dirCount ≤ u32 fs.bootBlock.dirCount) (hp : p ∈ fsRun fs cs) :
    p.1.dirCount ≤ u32 fs.bootBlock.dirCount := by
  induction cs generalizing fs with
  | nil => exact absurd hp List.not_mem_nil
  | cons c cs ih =>
    rcases List.mem_cons.mp hp with rfl | hp
    · exact hpos
    · have hboot := c.next_bootBlock fs
      rw [← hboot] at hpos ⊢
      refine ih ?_ hp
      cases c with
      | dirRead buf nbytes => exact hboot ▸ fsDirRead_position fs buf nbytes
      | byName | byIndex | read => exact hpos

/-- **In a directory that is not full the directory reader is safe** in
every run from its start. -/
theorem fsRun_dirRead_stays {cs : List FsCall} {buf : Bytes} {nbytes : ℤ}
    {g : FileSystem} (hpos : fs.dirCount ≤ u32 fs.bootBlock.dirCount)
    (hfull : u32 fs.bootBlock.dirCount < 63)
    (hp : (g, FsCall.dirRead buf nbytes) ∈ fsRun fs cs) :
    (FsCall.dirRead buf nbytes).Safe fs.bootBlock g := by
  have hle := fsRun_position hpos hp
  rw [← fsRun_bootBlock hp]
  exact (FsCall.safe_iff_stays g _).mpr (Nat.ne_of_lt (lt_of_le_of_lt hle hfull))

/-- **When a run of the four readers stays inside the tables**: exactly
when each of its calls is of a safe kind in the state it is made in. -/
theorem fsRun_safe_iff (fs : FileSystem) (cs : List FsCall) :
    (∀ p ∈ fsRun fs cs, p.2.Safe fs.bootBlock p.1)
      ↔ ∀ p ∈ fsRun fs cs, p.2.Stays p.1 := by
  refine forall_congr' (fun p => imp_congr_right (fun hp => ?_))
  rw [← fsRun_bootBlock hp]
  exact FsCall.safe_iff_stays p.1 p.2

/-- A lookup by index 63 reads the slot after the last and succeeds. -/
theorem byIndex_past_table :
    let c := FsCall.byIndex 63 (some unsetDentry)
    ¬ ∀ p ∈ fsRun countingFs [c], p.2.Safe countingFs.bootBlock p.1 := by
  intro c h
  have hsafe := h (countingFs, c) List.mem_cons_self
  exact absurd (hsafe.2 (le_refl 63)) (by decide)

end KernelDesign

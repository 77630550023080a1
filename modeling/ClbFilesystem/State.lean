import ClbFilesystem.Lib.Threaded
import ClbFilesystem.Memory
import ClbFilesystem.Strings
import Mathlib.Data.List.FinRange
/-!
# The data the filesystem works on

`RAM_inodes_table` (`filesystem.h`), `open_inodes` and the scratch `token` of
`vfs.c`, next to the memory that holds the data blocks and the callers' buffers.
The tables are objects of their own, not part of the memory: a pointer to an
inode is `none` or an index.
-/

namespace ClbFilesystem

def FS_NPAGES : Nat := 128
def FILE_MAX_SIZE : Nat := PAGE_SIZE
def MAX_SIZE_NAME : Nat := 16
def MAX_OPEN_FILES : Nat := 128

/-- `ROOT_INODE`. -/
def ROOT_INODE : Fin FS_NPAGES := ⟨0, by decide⟩

inductive TypeFile where
  | FILE | FOLDER | EMPTY
  deriving DecidableEq, Repr

abbrev InodePtr := Option (Fin FS_NPAGES)

/-- `struct RAM_inode`. -/
structure Inode where
  id : Int
  ref : Int
  type : TypeFile
  size : Nat
  father : InodePtr
  brother : InodePtr
  first_son : InodePtr
  name : Vector UInt8 MAX_SIZE_NAME
  data_block : Nat
  deriving DecidableEq

/-- `struct file_descriptor`. -/
structure FileDescriptor where
  inode : InodePtr
  next : Nat
  next_son : InodePtr
  deriving DecidableEq

@[ext]
structure State extends Mm where
  RAM_inodes_table : Fin FS_NPAGES → Inode
  open_inodes : Fin MAX_OPEN_FILES → FileDescriptor
  token : List UInt8

namespace State

/-- The inode a pointer points to. -/
def inode (s : State) (i : Fin FS_NPAGES) : Inode := s.RAM_inodes_table i

/-- The descriptor in a slot. -/
def slot (s : State) (d : Fin MAX_OPEN_FILES) : FileDescriptor := s.open_inodes d

def modInode (s : State) (i : Fin FS_NPAGES) (f : Inode → Inode) : State :=
  { s with RAM_inodes_table := Function.update s.RAM_inodes_table i (f (s.RAM_inodes_table i)) }

def modSlot (s : State) (d : Fin MAX_OPEN_FILES) (f : FileDescriptor → FileDescriptor) : State :=
  { s with open_inodes := Function.update s.open_inodes d (f (s.open_inodes d)) }

/-- The three pointers of the table. -/
def links (s : State) : Lib.Links (Fin FS_NPAGES) where
  father i := (s.inode i).father
  brother i := (s.inode i).brother
  first_son i := (s.inode i).first_son

theorem ext_inode {s s' : State} (hi : ∀ i, s.inode i = s'.inode i) (hm : s.toMm = s'.toMm)
    (ho : s.open_inodes = s'.open_inodes) (ht : s.token = s'.token) : s = s' :=
  State.ext (congrArg Mm.mem hm) (congrArg Mm.mem_map hm) (funext hi) ho ht

variable (s : State) (i j : Fin FS_NPAGES) (d e : Fin MAX_OPEN_FILES) (f : Inode → Inode)
  (g : FileDescriptor → FileDescriptor)

@[simp] theorem modInode_inode : (s.modInode i f).inode j = if j = i then f (s.inode j) else s.inode j := by
  simp only [modInode, inode, Function.update_apply]
  split <;> simp_all

@[simp] theorem modInode_slot : (s.modInode i f).slot d = s.slot d := rfl
@[simp] theorem modInode_mem : (s.modInode i f).mem = s.mem := rfl
@[simp] theorem modInode_token : (s.modInode i f).token = s.token := rfl
@[simp] theorem modInode_open_inodes : (s.modInode i f).open_inodes = s.open_inodes := rfl
@[simp] theorem modInode_mem_map : (s.modInode i f).mem_map = s.mem_map := rfl

@[simp] theorem modSlot_slot : (s.modSlot d g).slot e = if e = d then g (s.slot e) else s.slot e := by
  simp only [modSlot, slot, Function.update_apply]
  split <;> simp_all

@[simp] theorem modSlot_inode : (s.modSlot d g).inode i = s.inode i := rfl
@[simp] theorem modSlot_mem : (s.modSlot d g).mem = s.mem := rfl
@[simp] theorem modSlot_token : (s.modSlot d g).token = s.token := rfl
@[simp] theorem modSlot_links : (s.modSlot d g).links = s.links := rfl

end State

/-! ## The name of an inode

`name` and `data_block` lie next to each other at the end of the struct, so a
name of `MAX_SIZE_NAME` characters has its NUL in the low byte of `data_block`. -/

/-- The `k` low bytes of a word, lowest first. -/
def leBytes : Nat → Nat → List UInt8
  | 0, _ => []
  | k + 1, v => UInt8.ofNat (v % 256) :: leBytes k (v / 256)

def ofLeBytes : List UInt8 → Nat
  | [] => 0
  | b :: bs => b.toNat + 256 * ofLeBytes bs

@[simp] theorem length_leBytes (k v : Nat) : (leBytes k v).length = k := by
  induction k generalizing v with
  | zero => rfl
  | succ k ih => simp [leBytes, ih]

theorem ofLeBytes_leBytes (k v : Nat) : ofLeBytes (leBytes k v) = v % 256 ^ k := by
  induction k generalizing v with
  | zero => simp [leBytes, ofLeBytes, Nat.mod_one]
  | succ k ih =>
    simp only [leBytes, ofLeBytes, ih, UInt8.toNat_ofNat', Nat.reducePow, Nat.mod_mod]
    rw [Nat.pow_succ', Nat.mod_mul]

namespace Inode

/-- The bytes from `name` to the end of the struct. -/
def nameRegion (n : Inode) : List UInt8 := n.name.toList ++ leBytes 8 n.data_block

/-- The inode whose bytes from `name` on are `l`. -/
def withRegion (n : Inode) (l : List UInt8) : Inode :=
  { n with name := Vector.ofFn fun i : Fin MAX_SIZE_NAME => l.getD i 0,
           data_block := ofLeBytes (l.drop MAX_SIZE_NAME) }

/-- `strcpy(n.name, name)`. -/
def setName (n : Inode) (name : CStr) : Except Fault Inode :=
  (strcpy n.nameRegion name.bytes).map n.withRegion

/-- The string at `name`. -/
def nameOf (n : Inode) : List UInt8 := cstr n.nameRegion

@[simp] theorem length_nameRegion (n : Inode) : n.nameRegion.length = MAX_SIZE_NAME + 8 := by
  simp [nameRegion]

theorem drop_nameRegion (n : Inode) : n.nameRegion.drop MAX_SIZE_NAME = leBytes 8 n.data_block := by
  simp [nameRegion]

theorem toList_name_withRegion (n : Inode) (l : List UInt8) (hl : l.length = MAX_SIZE_NAME + 8) :
    (n.withRegion l).name.toList = l.take MAX_SIZE_NAME := by
  apply List.ext_getElem
  · simp [withRegion, hl]
  · intro k h₁ h₂
    have hk : k < l.length := by simp at h₂; omega
    simp [withRegion, List.getD_eq_getElem?_getD, hk]

end Inode

/-! ## Booting -/

/-- The tables as the loader leaves them: zero bytes (`.bss`), type `FILE` being 0. -/
def boot (mem : Mem) : State where
  mem := mem
  mem_map _ := 0
  RAM_inodes_table _ := ⟨0, 0, .FILE, 0, none, none, none, Vector.replicate _ 0, 0⟩
  open_inodes _ := ⟨none, 0, none⟩
  token := List.replicate (MAX_SIZE_NAME + 1) 0

end ClbFilesystem

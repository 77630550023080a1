import ClbFilesystem.Filesystem
/-!
# The virtual file system (`vfs.c`)

The twelve calls and the path parser. A pointer argument that may be null is an
option: `path` and names are strings, `fd` is the value of the caller's variable,
which the calls that write to it return. `str` and `son_name` are addresses, 0
being null. The warnings printed on the console are left out.
-/

namespace ClbFilesystem

inductive VfsError where
  | VFS_OK | VFS_INVALID_PATH | VFS_INVALID_FD | VFS_INVALID_PATH_DIR | VFS_INVALID_PATH_FILE
  | VFS_MAX_FD_REACHED | VFS_MEMORY_FULL | VFS_INVALID_NAME | VFS_NULL_POINTER | VFS_UNKWON_ERROR
  /-- The `-1` of `get_next_dir_son`, which is no enumerator. -/
  | minusOne
  deriving DecidableEq, Repr

/-- `'/'`. -/
def slash : UInt8 := 47

/-- `path[i]`, for a path given by its characters before the NUL. -/
def charAt (path : List UInt8) (i : Nat) : UInt8 := path.getD i 0

/-- The loop of `get_path_first_token` from index `i`, with `k` turns left. -/
def tokenLoop (path token : List UInt8) : (k i : Nat) → Int × List UInt8
  | 0, _ => (-1, token.set 0 0)
  | k + 1, i =>
    if charAt path i = 0 ∨ charAt path i = slash then (i, token.set i 0)
    else tokenLoop path (token.set i (charAt path i)) k (i + 1)

/-- The size of the first component, or -1; the component is in `token`. -/
def get_path_first_token (path : List UInt8) (s : State) : Int × State :=
  let (size, token) := tokenLoop path s.token (MAX_SIZE_NAME + 1) 0
  (size, { s with token := token })

/-- The loop of `get_son_inode` along the brothers. -/
def sonLoop (son_name : List UInt8) (s : State) : Nat → InodePtr → Except Fault InodePtr
  | _, none => .ok none
  | 0, some _ => .error .diverges
  | k + 1, some current_son => do
    let d ← strcmp son_name (s.inode current_son).nameRegion
    if d = 0 then return some current_son
    else sonLoop son_name s k (s.inode current_son).brother

def get_son_inode (father : Fin FS_NPAGES) (son_name : List UInt8) (s : State) : Except Fault InodePtr :=
  sonLoop son_name s FS_NPAGES (s.inode father).first_son

/-- The loop of `parse_path`; every turn shortens `local_path`. -/
def parseLoop : Nat → Fin FS_NPAGES → List UInt8 → State → Except Fault (InodePtr × State)
  | 0, _, _, _ => .error .diverges
  | k + 1, current_inode, local_path, s => do
    let (token_size, s) := get_path_first_token local_path s
    if token_size < 0 then return (none, s)
    let son := if token_size > 0 then get_son_inode current_inode s.token s else .ok (some current_inode)
    match ← son with
    | none => return (none, s)
    | some i =>
      let next := charAt local_path token_size.toNat
      match (s.inode i).type with
      | .FILE => if next ≠ 0 then return (none, s) else return (some i, s)
      | .EMPTY => return (none, s)
      | .FOLDER =>
        if next = 0 then return (some i, s)
        else parseLoop k i (local_path.drop (token_size.toNat + 1)) s

def parse_path (path : List UInt8) (s : State) : Except Fault (InodePtr × State) :=
  if charAt path 0 ≠ slash then .ok (none, s)
  else parseLoop (path.length + 1) ROOT_INODE (path.drop 1) s

def get_next_fd (s : State) : Int :=
  match (List.finRange MAX_OPEN_FILES).find? (fun d => (s.slot d).inode = none) with
  | some d => d
  | none => -1

/-- `open_inodes[fd]`: the slot, when the index is one. -/
def fdIndex (fd : Int) : Except Fault (Fin MAX_OPEN_FILES) :=
  if h : 0 ≤ fd ∧ fd.toNat < MAX_OPEN_FILES then .ok ⟨fd.toNat, h.2⟩ else .error .outOfBounds

@[simp] theorem fdIndex_val (d : Fin MAX_OPEN_FILES) : fdIndex (d.val : Int) = .ok d := by
  simp [fdIndex]

/-! ## Creation and deletion -/

/-- The body of `create_file` and `create_dir`. -/
def create (path name : Option CStr) (type : TypeFile) (s : State) : Except Fault (VfsError × State) :=
  match path, name with
  | some path, some name => do
    if charAt name.chars 0 = 0 ∨ (← strlen name.bytes) > MAX_SIZE_NAME then return (.VFS_INVALID_NAME, s)
    let (dir, s) ← parse_path path.chars s
    match dir with
    | none => return (.VFS_INVALID_FD, s)
    | some d =>
      if (s.inode d).type ≠ .FOLDER then return (.VFS_INVALID_FD, s)
      let (new_inode, s) ← alloc_inode name (some d) type s
      if new_inode < 0 then return (.VFS_MEMORY_FULL, s)
      return (.VFS_OK, s)
  | _, _ => .ok (.VFS_NULL_POINTER, s)

def create_file (path file : Option CStr) : State → Except Fault (VfsError × State) := create path file .FILE
def create_dir (path dir_name : Option CStr) : State → Except Fault (VfsError × State) := create path dir_name .FOLDER

mutual
/-- `delete_inode`, with at most `k` nested calls and turns. The results of `free_inode` are ignored. -/
def delete_inode : Nat → Fin FS_NPAGES → State → Except Fault State
  | 0, _, _ => .error .diverges
  | k + 1, i, s =>
    match (s.inode i).type with
    | .EMPTY => .ok s
    | .FILE => do return (← free_inode (s.inode i).id s).2
    | .FOLDER => do
      let s ← delete_sons k i s
      return (← free_inode (s.inode i).id s).2

/-- The loop of `delete_inode`: `while (0 != i->first_son)`. -/
def delete_sons : Nat → Fin FS_NPAGES → State → Except Fault State
  | 0, _, _ => .error .diverges
  | k + 1, i, s =>
    match (s.inode i).first_son with
    | none => .ok s
    | some to_delete => do
      let s := s.modInode i ({ · with first_son := (s.inode to_delete).brother })
      let s ← delete_inode k to_delete s
      delete_sons k i s
end

/-- Nested calls and turns that a table without cycles cannot use up. -/
def deleteFuel : Nat := 2 * FS_NPAGES

/-- The body of `delete_file` and `delete_dir`. -/
def delete (path : Option CStr) (s : State) : Except Fault (VfsError × State) :=
  match path with
  | none => .ok (.VFS_NULL_POINTER, s)
  | some path => do
    let (to_delete, s) ← parse_path path.chars s
    match to_delete with
    | none => return (.VFS_INVALID_FD, s)
    | some i => return (.VFS_OK, ← delete_inode deleteFuel i s)

def delete_file (path : Option CStr) : State → Except Fault (VfsError × State) := delete path
def delete_dir (path : Option CStr) : State → Except Fault (VfsError × State) := delete path

/-! ## Descriptors -/

/-- The body of `open_file` and `open_dir`: the type wanted, the error for a path that leads nowhere,
and what the slot gets besides the inode. -/
def openInode (type : TypeFile) (invalid_path : VfsError) (set : Inode → FileDescriptor → FileDescriptor)
    (path : Option CStr) (fd : Option Int) (s : State) : Except Fault ((VfsError × Option Int) × State) :=
  match fd with
  | none => .ok ((.VFS_NULL_POINTER, none), s)
  | some _ => do
    let fd := get_next_fd s
    if fd < 0 then return ((.VFS_MAX_FD_REACHED, some (-1)), s)
    let path ← match path with
      | none => .error .nullPointer
      | some path => .ok path
    let (file, s) ← parse_path path.chars s
    match file with
    | none => return ((invalid_path, some fd), s)
    | some i =>
      if (s.inode i).type ≠ type then return ((.VFS_INVALID_FD, some fd), s)
      let d ← fdIndex fd
      let s := s.modSlot d fun slot => set (s.inode i) { slot with inode := some i }
      return ((.VFS_OK, some fd), s.modInode i fun n => { n with ref := n.ref + 1 })

def open_file : (path : Option CStr) → (fd : Option Int) → State → Except Fault ((VfsError × Option Int) × State) :=
  openInode .FILE .VFS_INVALID_PATH_FILE fun _ slot => { slot with next := 0 }

def open_dir : (path : Option CStr) → (fd : Option Int) → State → Except Fault ((VfsError × Option Int) × State) :=
  openInode .FOLDER .VFS_INVALID_PATH_DIR fun dir slot => { slot with next_son := dir.first_son }

/-- The body of `close_file` and `close_dir`, which clear different cursors. -/
def close (clear : FileDescriptor → FileDescriptor) (fd : Option Int) (s : State) :
    Except Fault ((VfsError × Option Int) × State) :=
  match fd with
  | none => .ok ((.VFS_NULL_POINTER, none), s)
  | some fd => do
    if 0 > fd then return ((.VFS_INVALID_FD, some fd), s)
    let d ← fdIndex fd
    match (s.slot d).inode with
    | none => return ((.VFS_INVALID_FD, some (-1)), s)
    | some i =>
      let s := s.modInode i fun n => { n with ref := n.ref - 1 }
      return ((.VFS_OK, some (-1)), s.modSlot d fun slot => clear { slot with inode := none })

def close_file : (fd : Option Int) → State → Except Fault ((VfsError × Option Int) × State) :=
  close fun slot => { slot with next := 0 }

def close_dir : (fd : Option Int) → State → Except Fault ((VfsError × Option Int) × State) :=
  close fun slot => { slot with next_son := none }

/-- The checks that `read_file`, `write_file` and `append_file` begin with: -1, or the slot and its FILE. -/
def fileOf (fd : Option Int) (str : Nat) (s : State) :
    Except Fault (Option (Fin MAX_OPEN_FILES × Fin FS_NPAGES)) :=
  match fd with
  | none => .ok none
  | some fd => do
    if str = 0 then return none
    if 0 > fd then return none
    let d ← fdIndex fd
    match (s.slot d).inode with
    | none => return none
    | some i => if (s.inode i).type ≠ .FILE then return none else return some (d, i)

def read_file (fd : Option Int) (str : Nat) (len : UInt32) (s : State) : Except Fault (Int × State) := do
  match ← fileOf fd str s with
  | none => return (-1, s)
  | some (d, i) =>
    if (s.slot d).next ≥ (s.inode i).size ∨ len = 0 then
      return (0, { s with mem := Function.update s.mem str 0 })
    else read_inode (s.inode i).id (toInt (s.slot d).next) (toInt len.toNat) str s

def write_file (fd : Option Int) (str : Nat) (len : UInt32) (s : State) : Except Fault (Int × State) := do
  match ← fileOf fd str s with
  | none => return (-1, s)
  | some (_, i) =>
    let (err, s) ← reset_inode (s.inode i).id s
    if err ≠ 0 then return (-1, s)
    write_inode (s.inode i).id str (toInt len.toNat) s

def append_file (fd : Option Int) (str : Nat) (len : UInt32) (s : State) : Except Fault (Int × State) := do
  match ← fileOf fd str s with
  | none => return (-1, s)
  | some (_, i) => write_inode (s.inode i).id str (toInt len.toNat) s

/-- `strcpy(dst, src)` into the caller's memory. -/
def strcpyTo (mem : Mem) (dst : Nat) : List UInt8 → Except Fault Mem
  | [] => .error .outOfBounds
  | c :: src =>
    if c ≠ 0 then strcpyTo (Function.update mem dst c) (dst + 1) src else .ok (Function.update mem dst 0)

/-- The descriptor is a number here: `strcpy` does not reach the caller's variable, which is not in the buffer at
`son_name`. -/
def get_next_dir_son (fd : Option Int) (son_name : Nat) (s : State) :
    Except Fault ((VfsError × Option Int) × State) :=
  match fd with
  | none => .ok ((.VFS_NULL_POINTER, none), s)
  | some fd => do
    if son_name = 0 then return ((.VFS_NULL_POINTER, some fd), s)
    if 0 > fd then return ((.VFS_INVALID_FD, some fd), s)
    let d ← fdIndex fd
    match (s.slot d).inode with
    | none => return ((.VFS_INVALID_FD, some (-1)), s)
    | some i =>
      if (s.inode i).type ≠ .FOLDER then return ((.minusOne, some fd), s)
      match (s.slot d).next_son with
      | some n =>
        let mem ← strcpyTo s.mem son_name (s.inode n).nameRegion
        let s := { s with mem := mem }
        return ((.VFS_OK, some fd), s.modSlot d ({ · with next_son := (s.inode n).brother }))
      | none => return ((.VFS_OK, some fd), { s with mem := Function.update s.mem son_name 0 })

end ClbFilesystem

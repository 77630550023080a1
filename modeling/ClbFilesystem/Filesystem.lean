import ClbFilesystem.State
/-!
# The RAM filesystem (`filesystem.c`)

Each function takes the state and returns its result with the new state, or the
fault that keeps it from returning. A walk along brothers takes at most one turn
an inode of the table: a longer one goes round for ever.
-/

namespace ClbFilesystem

/-- `RAM_inodes_table[id]`: the entry, when the index is one. -/
def index (id : Int) : Except Fault (Fin FS_NPAGES) :=
  if h : 0 ≤ id ∧ id.toNat < FS_NPAGES then .ok ⟨id.toNat, h.2⟩ else .error .outOfBounds

@[simp] theorem index_val (i : Fin FS_NPAGES) : index (i.val : Int) = .ok i := by
  simp [index]

/-- `while (cur->brother) cur = cur->brother;` -/
def lastBrother (s : State) : Nat → Fin FS_NPAGES → Except Fault (Fin FS_NPAGES)
  | 0, _ => .error .diverges
  | k + 1, cur =>
    match (s.inode cur).brother with
    | none => .ok cur
    | some b => lastBrother s k b

def find_last_child (father : InodePtr) (s : State) : Except Fault Int :=
  match father with
  | none => .ok (-1)
  | some d =>
    match (s.inode d).first_son with
    | none => .ok (-1)
    | some cur => do
      let last ← lastBrother s FS_NPAGES cur
      return (s.inode last).id

/-- The name `init_fs` gives to the root. -/
def rootName : CStr := ⟨[47], by decide⟩

/-- One turn of the loop of `init_fs`. -/
def init_inode (s : State) (i : Fin FS_NPAGES) : Except Fault State := do
  let (block, mm) := allocate_kernel_page s.toMm
  let s := { s with toMm := mm }
  let s ← if i = ROOT_INODE then do
      let n ← (s.inode i).setName rootName
      pure (s.modInode i fun _ => { n with type := .FOLDER })
    else pure (s.modInode i ({ · with type := .EMPTY }))
  return s.modInode i fun n =>
    { n with id := i, data_block := block, brother := none, father := none, first_son := none, size := 0, ref := 0 }

def init_fs (s : State) : Except Fault State := (List.finRange FS_NPAGES).foldlM init_inode s

def alloc_inode (name : CStr) (father : InodePtr) (type : TypeFile) (s : State) : Except Fault (Int × State) :=
  match (List.finRange FS_NPAGES).find? (fun i => (s.inode i).type = .EMPTY) with
  | none => .ok (-1, s)
  | some i => do
    let n ← (s.inode i).setName name
    let s := s.modInode i fun _ => { n with type := type }
    match father with
    | none => return (i, s.modInode i ({ · with father := none }))
    | some d =>
      let s := s.modInode i ({ · with father := some d })
      let brother ← find_last_child father s
      if brother = -1 then
        return (i, s.modInode d ({ · with first_son := some i }))
      else
        let b ← index brother
        return (i, s.modInode b ({ · with brother := some i }))

def reset_inode (inode : Int) (s : State) : Except Fault (Int × State) := do
  let i ← index inode
  if (s.inode i).type ≠ .FILE then return (-1, s)
  return (0, s.modInode i ({ · with size := 0 }))

def write_inode (inode : Int) (data : Nat) (size : Int) (s : State) : Except Fault (Int × State) := do
  let i ← index inode
  if (s.inode i).type ≠ .FILE then return (-1, s)
  let dst := toUlong ((s.inode i).data_block + (s.inode i).size)
  let max_size := toInt (FILE_MAX_SIZE - (s.inode i).size : Int)
  let size := if size > max_size then max_size else size
  if size ≤ 0 then return (0, s)
  let r := memwrite s.mem data dst size
  let written := r.1
  return (written, { s with mem := r.2 }.modInode i fun n => { n with size := toUnsigned (n.size + written) })

/-- The number of bytes `read_inode` copies and returns: the count asked for, cut at the size of
the file, then at `FS_NPAGES` bytes from the start of the block. -/
def size_to_read (n : Inode) (pos size : Int) : Nat :=
  let count := if toUnsigned (pos + size) ≥ n.size then toUnsigned (n.size - pos) else toUlong size
  let start_pos := toUlong (n.data_block + pos)
  let end_pos := toUlong (start_pos + size)
  if end_pos ≥ toUlong (n.data_block + FS_NPAGES) then toUlong (n.data_block + FS_NPAGES - start_pos) else count

def read_inode (inode : Int) (pos size : Int) (buff_dest : Nat) (s : State) : Except Fault (Int × State) := do
  if inode < 0 ∨ inode ≥ FS_NPAGES then return (-1, s)
  let i ← index inode
  if (s.inode i).type ≠ .FILE then return (-2, s)
  let count := size_to_read (s.inode i) pos size
  let start_pos := toUlong ((s.inode i).data_block + pos)
  return (toInt count, { s with mem := memcpy s.mem start_pos buff_dest (toLong count) })

/-- The walk of `free_inode` along the sons of the father: the one before `i` gets the brother of `i`. -/
def unlinkBrother (i : Fin FS_NPAGES) (brother : InodePtr) (s : State) : Nat → InodePtr → Except Fault State
  | _, none => .ok s
  | 0, some _ => .error .diverges
  | k + 1, some next_child =>
    if (s.inode next_child).brother = some i then
      .ok (s.modInode next_child ({ · with brother := brother }))
    else unlinkBrother i brother s k (s.inode next_child).brother

def free_inode (inode : Int) (s : State) : Except Fault (Int × State) := do
  if inode < 0 ∨ inode ≥ FS_NPAGES then return (-1, s)
  let i ← index inode
  if (s.inode i).type = .FOLDER ∧ (s.inode i).first_son ≠ none then return (-2, s)
  let brother := (s.inode i).brother
  match (s.inode i).father with
  | none => .error .nullPointer
  | some father =>
    let s ← if (s.inode father).first_son = some i then
        pure (s.modInode father ({ · with first_son := brother }))
      else unlinkBrother i brother s FS_NPAGES (s.inode father).first_son
    return (0, s.modInode i fun n =>
      { n with brother := none, father := none, size := 0, ref := 0, type := .EMPTY })

end ClbFilesystem

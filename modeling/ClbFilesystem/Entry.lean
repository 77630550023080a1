import ClbFilesystem.Lib.Exceptions
/-!
# The way into the kernel and out of it (`entry.S`, `irq.S`, `user_sys.S`, `sys.c`)

The exception vectors, the code behind them, and the system calls of both sides
by name. Where a label is run into from above, the block above ends in a jump
to it. What is called in C is a symbol; `printf` and the device are behind it.
-/

namespace ClbFilesystem

open Lib Exceptions A64

/-! ## System calls -/

/-- The routines of `sys.c`. -/
inductive Sys where
  | sys_write | sys_fork | sys_exit
  | sys_create_file | sys_delete_file | sys_open_file | sys_close_file | sys_read_file | sys_write_file | sys_append_file
  | sys_create_dir | sys_delete_dir | sys_open_dir | sys_close_dir | sys_get_dir_son
  deriving DecidableEq, Repr

open Sys in
def sys_call_table : List Sys :=
  [sys_write, sys_fork, sys_exit,
    sys_create_file, sys_delete_file, sys_open_file, sys_close_file, sys_read_file, sys_write_file, sys_append_file,
    sys_create_dir, sys_delete_dir, sys_open_dir, sys_close_dir, sys_get_dir_son]

set_option linter.style.nameCheck false in
def __NR_syscalls : Nat := 15

/-- The functions of `user_sys.S` that make a system call. -/
inductive Stub where
  | call_sys_write | call_sys_fork | call_sys_exit
  | call_create_file | call_delete_file | call_open_file | call_close_file | call_read_file | call_write_file | call_append_file
  | call_create_dir | call_delete_dir | call_open_dir | call_close_dir | call_get_dir_son
  deriving DecidableEq, Repr

/-- The number a stub puts into `w8`. -/
def Stub.number : Stub → Nat
  | call_sys_write => 0
  | call_sys_fork => 1
  | call_sys_exit => 2
  | call_create_file => 3
  | call_delete_file => 4
  | call_open_file => 5
  | call_close_file => 6
  | call_read_file => 7
  | call_write_file => 8
  | call_append_file => 9
  | call_create_dir => 10
  | call_delete_dir => 11
  | call_open_dir => 12
  | call_close_dir => 13
  | call_get_dir_son => 14

/-- The routine that user code means, by its name. -/
def Stub.routine : Stub → Sys
  | call_sys_write => .sys_write
  | call_sys_fork => .sys_fork
  | call_sys_exit => .sys_exit
  | call_create_file => .sys_create_file
  | call_delete_file => .sys_delete_file
  | call_open_file => .sys_open_file
  | call_close_file => .sys_close_file
  | call_read_file => .sys_read_file
  | call_write_file => .sys_write_file
  | call_append_file => .sys_append_file
  | call_create_dir => .sys_create_dir
  | call_delete_dir => .sys_delete_dir
  | call_open_dir => .sys_open_dir
  | call_close_dir => .sys_close_dir
  | call_get_dir_son => .sys_get_dir_son

theorem Stub.routine_eq (s : Stub) : sys_call_table[s.number]? = some s.routine := by cases s <;> rfl

/-- The program at the `svc` of a stub, with the stub's `ret` at `pc`. -/
def Stub.svc (s : Stub) (u : Processor) (pc : BitVec 64) : Processor := { u.setReg .x8 (imm s.number) with pc := pc }

/-! ## The code -/

inductive Label where
  | sync_invalid_el1t | irq_invalid_el1t | fiq_invalid_el1t | error_invalid_el1t
  | sync_invalid_el1h | el1_irq | fiq_invalid_el1h | error_invalid_el1h
  | el0_sync | el0_irq | fiq_invalid_el0_64 | error_invalid_el0_64
  | sync_invalid_el0_32 | irq_invalid_el0_32 | fiq_invalid_el0_32 | error_invalid_el0_32
  | el0_svc | ni_sys | ret_from_syscall | el0_da | el0_da_1 | ret_from_fork | ret_to_user | err_hang
  | enable_irq | disable_irq
  deriving DecidableEq, Repr

inductive Symbol where
  | sys_call_table
  | sys (s : Sys)
  | handle_irq | do_mem_abort | show_invalid_entry_message | schedule_tail | kernel_process
  deriving DecidableEq, Repr

def S_FRAME_SIZE : Nat := 272
def S_X0 : Nat := 0
def ESR_ELx_EC_SHIFT : Nat := 26
def ESR_ELx_EC_SVC64 : Nat := 0x15
def ESR_ELx_EC_DABT_LOW : Nat := 0x24

def SYNC_ERROR : Nat := 13
def SYSCALL_ERROR : Nat := 14
def DATA_ABORT_ERROR : Nat := 15

def kernel_entry (el : Nat) : List Op :=
  [.sub_sp S_FRAME_SIZE,
    .stp .x0 .x1 (16 * 0), .stp .x2 .x3 (16 * 1), .stp .x4 .x5 (16 * 2), .stp .x6 .x7 (16 * 3), .stp .x8 .x9 (16 * 4),
    .stp .x10 .x11 (16 * 5), .stp .x12 .x13 (16 * 6), .stp .x14 .x15 (16 * 7), .stp .x16 .x17 (16 * 8), .stp .x18 .x19 (16 * 9),
    .stp .x20 .x21 (16 * 10), .stp .x22 .x23 (16 * 11), .stp .x24 .x25 (16 * 12), .stp .x26 .x27 (16 * 13), .stp .x28 .x29 (16 * 14),
    if el = 0 then .mrs .x21 .sp_el0 else .add_from_sp .x21 S_FRAME_SIZE,
    .mrs .x22 .elr_el1, .mrs .x23 .spsr_el1,
    .stp .x30 .x21 (16 * 15), .stp .x22 .x23 (16 * 16)]

/-- Without the `eret` at its end. -/
def kernel_exit (el : Nat) : List Op :=
  [.ldp .x22 .x23 (16 * 16), .ldp .x30 .x21 (16 * 15)] ++ (if el = 0 then [.msr .sp_el0 .x21] else []) ++
  [.msr .elr_el1 .x22, .msr .spsr_el1 .x23,
    .ldp .x0 .x1 (16 * 0), .ldp .x2 .x3 (16 * 1), .ldp .x4 .x5 (16 * 2), .ldp .x6 .x7 (16 * 3), .ldp .x8 .x9 (16 * 4),
    .ldp .x10 .x11 (16 * 5), .ldp .x12 .x13 (16 * 6), .ldp .x14 .x15 (16 * 7), .ldp .x16 .x17 (16 * 8), .ldp .x18 .x19 (16 * 9),
    .ldp .x20 .x21 (16 * 10), .ldp .x22 .x23 (16 * 11), .ldp .x24 .x25 (16 * 12), .ldp .x26 .x27 (16 * 13), .ldp .x28 .x29 (16 * 14),
    .add_sp S_FRAME_SIZE]

abbrev Code := List (Instr Label Symbol)

/-- `kernel_entry`, then `body`. -/
def enter (el : Nat) (body : Code) : Code := (kernel_entry el).map .op ++ body

/-- `kernel_exit` -/
def leave (el : Nat) : Code := (kernel_exit el).map .op ++ [.eret]

def handle_invalid_entry (el type : Nat) : Code :=
  enter el [.op (.movi .x0 type), .op (.mrs .x1 .esr_el1), .op (.mrs .x2 .elr_el1), .bl .show_invalid_entry_message, .b .err_hang]

def code : Label → Code
  | .sync_invalid_el1t => handle_invalid_entry 1 0
  | .irq_invalid_el1t => handle_invalid_entry 1 1
  | .fiq_invalid_el1t => handle_invalid_entry 1 2
  | .error_invalid_el1t => handle_invalid_entry 1 3
  | .sync_invalid_el1h => handle_invalid_entry 1 4
  | .el1_irq => enter 1 (.bl .handle_irq :: leave 1)
  | .fiq_invalid_el1h => handle_invalid_entry 1 5
  | .error_invalid_el1h => handle_invalid_entry 1 6
  | .el0_sync => enter 0 <|
    [.op (.mrs .x25 .esr_el1), .op (.lsr .x24 .x25 ESR_ELx_EC_SHIFT), .op (.cmpi .x24 ESR_ELx_EC_SVC64), .b_eq .el0_svc,
      .op (.cmpi .x24 ESR_ELx_EC_DABT_LOW), .b_eq .el0_da] ++ handle_invalid_entry 0 SYNC_ERROR
  | .el0_irq => enter 0 (.bl .handle_irq :: leave 0)
  | .fiq_invalid_el0_64 => handle_invalid_entry 0 7
  | .error_invalid_el0_64 => handle_invalid_entry 0 8
  | .sync_invalid_el0_32 => handle_invalid_entry 0 9
  | .irq_invalid_el0_32 => handle_invalid_entry 0 10
  | .fiq_invalid_el0_32 => handle_invalid_entry 0 11
  | .error_invalid_el0_32 => handle_invalid_entry 0 12
  | .el0_svc =>
    [.adr .x27 .sys_call_table, .op (.uxtw .x26 .x8), .op (.movi .x25 __NR_syscalls), .bl_leaf .enable_irq,
      .op (.cmp .x26 .x25), .b_hs .ni_sys, .op (.ldr_lsl3 .x16 .x27 .x26), .blr .x16, .b .ret_from_syscall]
  | .ni_sys => handle_invalid_entry 0 SYSCALL_ERROR
  | .ret_from_syscall => [.bl_leaf .disable_irq, .op (.str .x0 S_X0)] ++ leave 0
  | .el0_da =>
    [.bl_leaf .enable_irq, .op (.mrs .x0 .far_el1), .op (.mrs .x1 .esr_el1), .bl .do_mem_abort, .op (.cmpi .x0 0), .b_eq .el0_da_1] ++
      handle_invalid_entry 0 DATA_ABORT_ERROR
  | .el0_da_1 => .bl_leaf .disable_irq :: leave 0
  | .ret_from_fork => [.bl .schedule_tail, .cbz .x19 .ret_to_user, .op (.mov .x0 .x20), .blr .x19, .b .ret_to_user]
  | .ret_to_user => .bl_leaf .disable_irq :: leave 0
  | .err_hang => [.b .err_hang]
  | .enable_irq => [.daifclr, .ret]
  | .disable_irq => [.daifset, .ret]

def vectors : List Label :=
  [.sync_invalid_el1t, .irq_invalid_el1t, .fiq_invalid_el1t, .error_invalid_el1t,
    .sync_invalid_el1h, .el1_irq, .fiq_invalid_el1h, .error_invalid_el1h,
    .el0_sync, .el0_irq, .fiq_invalid_el0_64, .error_invalid_el0_64,
    .sync_invalid_el0_32, .irq_invalid_el0_32, .fiq_invalid_el0_32, .error_invalid_el0_32]

/-! ## Saved registers -/

/-- What `struct pt_regs` holds. -/
@[ext]
structure Context where
  reg : Reg → BitVec 64
  sp : BitVec 64
  pc : BitVec 64
  pstate : BitVec 64

/-- The pairs in which registers are saved. -/
def pairs : List (Reg × Reg) :=
  [(.x0, .x1), (.x2, .x3), (.x4, .x5), (.x6, .x7), (.x8, .x9), (.x10, .x11), (.x12, .x13), (.x14, .x15), (.x16, .x17), (.x18, .x19),
    (.x20, .x21), (.x22, .x23), (.x24, .x25), (.x26, .x27), (.x28, .x29)]

/-- The words of `struct pt_regs`, in order. -/
def Context.words (x : Context) : List (BitVec 64) := (row pairs).map x.reg ++ [x.reg .x30, x.sp, x.pc, x.pstate]

theorem Context.words_length (x : Context) : x.words.length = 34 := rfl

/-- The context of a program at EL0, and of the kernel. -/
def userContext (c : Processor) : Context := ⟨c.reg, c.sys .sp_el0, c.pc, c.pstate⟩
def kernelContext (c : Processor) : Context := ⟨c.reg, c.sp, c.pc, c.pstate⟩

/-- What `kernel_entry` saves. -/
def saved (el : Nat) (c : Processor) : Context := ⟨c.reg, if el = 0 then c.sys .sp_el0 else c.sp, c.sys .elr_el1, c.sys .spsr_el1⟩

/-- The frame on the stack, the last four words stored behind the others. -/
theorem storeWords_saved (mem : BitVec 64 → UInt8) (a : BitVec 64) (x : Context) : storeWords mem a x.words =
    storeWord (storeWord (storeWord (storeWord (storeWords mem (a + imm 0) ((row pairs).map x.reg))
      (a + imm (16 * 15)) (x.reg .x30)) (a + imm (16 * 15) + 8) x.sp) (a + imm (16 * 16)) x.pc) (a + imm (16 * 16) + 8) x.pstate := by
  have h0 : a + imm 0 = a := BitVec.add_zero a
  have hlen : ((row pairs).map x.reg).length = 30 := rfl
  have h2 : a + imm (16 * 15) + 8 + 8 = a + imm (16 * 16) := by
    unfold imm
    bv_omega
  rw [Context.words, storeWords_append, h0, hlen]
  simp only [storeWords, h2]

/-- The working registers of `kernel_entry` hold what it saves. -/
theorem kernel_entry_exec (el : Nat) (c : Processor) : execs (kernel_entry el) c =
    { c with
      sp := c.sp - imm S_FRAME_SIZE
      reg := fun r => if r = .x23 then c.sys .spsr_el1 else if r = .x22 then c.sys .elr_el1 else
        if r = .x21 then (saved el c).sp else c.reg r
      mem := storeWords c.mem (c.sp - imm S_FRAME_SIZE) (saved el c).words } := by
  have hcode : kernel_entry el = .sub_sp S_FRAME_SIZE :: (stps 0 pairs ++
      [if el = 0 then .mrs .x21 .sp_el0 else .add_from_sp .x21 S_FRAME_SIZE, .mrs .x22 .elr_el1, .mrs .x23 .spsr_el1,
        .stp .x30 .x21 (16 * 15), .stp .x22 .x23 (16 * 16)]) := rfl
  have hsp : ∀ a, a - imm S_FRAME_SIZE + imm S_FRAME_SIZE = a := fun a => BitVec.sub_add_cancel a _
  rw [hcode, execs_cons, execs_append, execs_stps, storeWords_saved]
  obtain ⟨reg, sp, sys, pstate, pc, mem⟩ := c
  by_cases hel : el = 0
  · simp only [hel, if_true, execs_cons, execs_nil, exec_sub_sp, exec_mrs, exec_stp, saved]
    congr 1
    · funext r
      simp [Function.update_apply]
  · simp only [hel, if_false, execs_cons, execs_nil, exec_sub_sp, exec_add_from_sp, exec_mrs, exec_stp, saved, hsp]
    congr 1
    · funext r
      simp [Function.update_apply]

theorem pairs_nodup : (row pairs).Nodup := by decide

theorem mem_pairs (r : Reg) (h : r ≠ .x30) : r ∈ row pairs := by
  cases r <;> first | exact absurd rfl h | decide

/-- What `kernel_exit` takes from the frame. -/
theorem holds_words {mem : BitVec 64 → UInt8} {a : BitVec 64} {x : Context} (h : HoldsWords mem a x.words) :
    (∀ k (hk : k < (row pairs).length), loadWord mem (a + imm (8 * k)) = x.reg (row pairs)[k]) ∧
    loadWord mem (a + imm 240) = x.reg .x30 ∧ loadWord mem (a + imm 240 + 8) = x.sp ∧
    loadWord mem (a + imm 256) = x.pc ∧ loadWord mem (a + imm 256 + 8) = x.pstate := by
  have h1 : a + imm 240 + 8 = a + imm 248 := by
    unfold imm
    bv_omega
  have h2 : a + imm 256 + 8 = a + imm 264 := by
    unfold imm
    bv_omega
  rw [h1, h2]
  have hlen := x.words_length
  refine ⟨fun k hk => ?_, h 30 (by omega), h 31 (by omega), h 32 (by omega), h 33 (by omega)⟩
  have hk' : k < x.words.length := by
    rw [Context.words, List.length_append, List.length_map]
    omega
  rw [h k hk']
  simp only [Context.words]
  rw [List.getElem_append_left (by rwa [List.length_map]), List.getElem_map]

/-- `kernel_exit` brings back what the frame holds. -/
theorem kernel_exit_exec (el : Nat) {c : Processor} {x : Context} (h : HoldsWords c.mem c.sp x.words) : execs (kernel_exit el) c =
    { c with
      reg := x.reg
      sp := c.sp + imm S_FRAME_SIZE
      sys := Function.update (Function.update (if el = 0 then Function.update c.sys .sp_el0 x.sp else c.sys) .elr_el1 x.pc)
        .spsr_el1 x.pstate } := by
  have hcode : kernel_exit el = [.ldp .x22 .x23 256, .ldp .x30 .x21 240] ++ ((if el = 0 then [.msr .sp_el0 .x21] else []) ++
      ([.msr .elr_el1 .x22, .msr .spsr_el1 .x23] ++ (ldps 0 pairs ++ [.add_sp S_FRAME_SIZE]))) := by
    by_cases hel : el = 0 <;> simp only [kernel_exit, hel, if_true, if_false] <;> rfl
  obtain ⟨reg, sp, sys, pstate, pc, mem⟩ := c
  change HoldsWords mem sp x.words at h
  obtain ⟨hregs, h30, hsp, hpc, hps⟩ := holds_words h
  rw [hcode]
  simp only [execs_append]
  -- The two pairs at the top of the frame go to the system registers; then their registers are loaded again.
  obtain ⟨reg', hldp, hr30, hr21, hr22, hr23⟩ : ∃ reg', execs [.ldp .x22 .x23 256, .ldp .x30 .x21 240] ⟨reg, sp, sys, pstate, pc, mem⟩ =
      ⟨reg', sp, sys, pstate, pc, mem⟩ ∧ reg' .x30 = x.reg .x30 ∧ reg' .x21 = x.sp ∧ reg' .x22 = x.pc ∧ reg' .x23 = x.pstate := by
    simp only [execs_cons, execs_nil, exec_ldp]
    exact ⟨_, rfl, by simpa using h30, by simpa using hsp, by simpa using hpc, by simpa using hps⟩
  have hsys : execs [.msr .elr_el1 .x22, .msr .spsr_el1 .x23] (execs (if el = 0 then [.msr .sp_el0 .x21] else [])
      ⟨reg', sp, sys, pstate, pc, mem⟩) =
      ⟨reg', sp, Function.update (Function.update (if el = 0 then Function.update sys .sp_el0 x.sp else sys) .elr_el1 x.pc)
        .spsr_el1 x.pstate, pstate, pc, mem⟩ := by
    by_cases hel : el = 0
    · simp only [hel, if_true, execs_cons, execs_nil, exec_msr, hr21, hr22, hr23]
    · simp only [hel, if_false, execs_cons, execs_nil, exec_msr, hr22, hr23]
  rw [hldp, hsys]
  obtain ⟨reg'', hex, hother, hrow⟩ := @execs_ldps 0 pairs
    ⟨reg', sp, Function.update (Function.update (if el = 0 then Function.update sys .sp_el0 x.sp else sys) .elr_el1 x.pc)
      .spsr_el1 x.pstate, pstate, pc, mem⟩
  have hreg : reg'' = x.reg := by
    funext r
    by_cases hr : r = .x30
    · rw [hr, hother _ (by decide)]
      exact hr30
    · obtain ⟨k, hk, rfl⟩ := List.mem_iff_getElem.1 (mem_pairs r hr)
      have hk' := hrow pairs_nodup k hk
      rw [Nat.zero_add] at hk'
      rw [hk']
      exact hregs k hk
  rw [hex, hreg]
  rfl

end ClbFilesystem

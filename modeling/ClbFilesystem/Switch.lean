import ClbFilesystem.Lib.Runs
import ClbFilesystem.Entry
/-!
# Switching between tasks (`sched.S`)

`cpu_switch_to` leaves one task and goes on in another. Tasks run one at a time,
each leaves alone what the others have saved, and each finds on return the
registers and the stack it left with.
-/

namespace ClbFilesystem

open Lib Exceptions A64

def THREAD_CPU_CONTEXT : Nat := 0

/-- Up to its `ret`. -/
def cpu_switch_to : List Op :=
  [.movi .x10 THREAD_CPU_CONTEXT, .add .x8 .x0 .x10, .mov_from_sp .x9,
    .stp_post .x19 .x20 .x8 16, .stp_post .x21 .x22 .x8 16, .stp_post .x23 .x24 .x8 16, .stp_post .x25 .x26 .x8 16,
    .stp_post .x27 .x28 .x8 16, .stp_post .x29 .x9 .x8 16, .str_reg .x30 .x8,
    .add .x8 .x1 .x10,
    .ldp_post .x19 .x20 .x8 16, .ldp_post .x21 .x22 .x8 16, .ldp_post .x23 .x24 .x8 16, .ldp_post .x25 .x26 .x8 16,
    .ldp_post .x27 .x28 .x8 16, .ldp_post .x29 .x9 .x8 16, .ldr_reg .x30 .x8, .mov_to_sp .x9]

/-- `struct cpu_context` of a processor that calls `cpu_switch_to`. -/
def cpu_context (c : Processor) : List (BitVec 64) :=
  [c.reg .x19, c.reg .x20, c.reg .x21, c.reg .x22, c.reg .x23, c.reg .x24, c.reg .x25, c.reg .x26, c.reg .x27, c.reg .x28,
    c.reg .x29, c.sp, c.reg .x30]

/-- Its pairs, `sp` in `x9`. -/
def contextPairs : List (Reg × Reg) := [(.x19, .x20), (.x21, .x22), (.x23, .x24), (.x25, .x26), (.x27, .x28), (.x29, .x9)]

/-- The registers are stored in one task and loaded from the other. -/
theorem cpu_switch_to_exec {c : Processor} {ws : List (BitVec 64)} (hlen : ws.length = 13)
    (h : HoldsWords (storeWords c.mem (c.reg .x0) (cpu_context c)) (c.reg .x1) ws) :
    ∃ c', execs cpu_switch_to c = c' ∧ cpu_context c' = ws ∧
      c'.mem = storeWords c.mem (c.reg .x0) (cpu_context c) ∧ c'.sys = c.sys ∧ c'.pstate = c.pstate := by
  have hcode : cpu_switch_to = [.movi .x10 THREAD_CPU_CONTEXT, .add .x8 .x0 .x10, .mov_from_sp .x9] ++ (stps_post .x8 contextPairs ++
      ([.str_reg .x30 .x8, .add .x8 .x1 .x10] ++ (ldps_post .x8 contextPairs ++ [.ldr_reg .x30 .x8, .mov_to_sp .x9]))) := rfl
  obtain ⟨reg, sp, sys, pstate, pc, mem⟩ := c
  have hoff : reg .x0 + imm THREAD_CPU_CONTEXT = reg .x0 ∧ reg .x1 + imm THREAD_CPU_CONTEXT = reg .x1 :=
    ⟨BitVec.add_zero _, BitVec.add_zero _⟩
  have hlen12 : imm (16 * contextPairs.length) = imm (8 * 12) := rfl
  -- The first half stores the context.
  obtain ⟨reg₁, hprep, h8, h10, h1, h30, hrow⟩ : ∃ reg₁, execs [.movi .x10 THREAD_CPU_CONTEXT, .add .x8 .x0 .x10, .mov_from_sp .x9]
      ⟨reg, sp, sys, pstate, pc, mem⟩ = ⟨reg₁, sp, sys, pstate, pc, mem⟩ ∧ reg₁ .x8 = reg .x0 ∧ reg₁ .x10 = imm THREAD_CPU_CONTEXT ∧
      reg₁ .x1 = reg .x1 ∧ reg₁ .x30 = reg .x30 ∧
      (row contextPairs).map reg₁ ++ [reg .x30] = cpu_context ⟨reg, sp, sys, pstate, pc, mem⟩ := by
    simp only [execs_cons, execs_nil, exec_movi, exec_add, exec_mov_from_sp]
    exact ⟨_, rfl, by simpa using hoff.1, by simp, by simp, by simp, by simp [row, contextPairs, cpu_context]⟩
  have hrowlen : ((row contextPairs).map reg₁).length = 12 := rfl
  have hstored : storeWord (storeWords mem (reg .x0) ((row contextPairs).map reg₁)) (reg .x0 + imm (8 * 12)) (reg .x30) =
      storeWords mem (reg .x0) (cpu_context ⟨reg, sp, sys, pstate, pc, mem⟩) := by
    rw [← hrow, storeWords_append, hrowlen]
    rfl
  have hfirst : execs [.str_reg .x30 .x8, .add .x8 .x1 .x10] (execs (stps_post .x8 contextPairs) ⟨reg₁, sp, sys, pstate, pc, mem⟩) =
      ⟨Function.update (Function.update reg₁ .x8 (reg .x0 + imm (8 * 12))) .x8 (reg .x1), sp, sys, pstate, pc,
        storeWords mem (reg .x0) (cpu_context ⟨reg, sp, sys, pstate, pc, mem⟩)⟩ := by
    have hbase : Function.update reg₁ .x8 (reg .x0 + imm (8 * 12)) .x8 = reg .x0 + imm (8 * 12) := Function.update_self _ _ _
    have hx30 : Function.update reg₁ .x8 (reg .x0 + imm (8 * 12)) .x30 = reg .x30 := h30
    have hx1 : Function.update reg₁ .x8 (reg .x0 + imm (8 * 12)) .x1 = reg .x1 := h1
    have hx10 : Function.update reg₁ .x8 (reg .x0 + imm (8 * 12)) .x10 = imm THREAD_CPU_CONTEXT := h10
    rw [execs_stps_post (by decide), h8, hlen12]
    simp only [execs_cons, execs_nil, exec_str_reg, exec_add]
    rw [hbase, hx30, hx1, hx10, hstored, hoff.2]
  -- The second half loads the other one.
  change HoldsWords (storeWords mem (reg .x0) (cpu_context ⟨reg, sp, sys, pstate, pc, mem⟩)) (reg .x1) ws at h
  generalize hreg₂ : Function.update (Function.update reg₁ .x8 (reg .x0 + imm (8 * 12))) .x8 (reg .x1) = reg₂ at hfirst
  generalize storeWords mem (reg .x0) (cpu_context ⟨reg, sp, sys, pstate, pc, mem⟩) = mem₁ at h hfirst ⊢
  have h8₂ : reg₂ .x8 = reg .x1 := by
    rw [← hreg₂]
    exact Function.update_self _ _ _
  obtain ⟨reg₃, hload, hbase, -, hwords⟩ := @execs_ldps_post contextPairs .x8 reg₂ sp sys pstate pc mem₁ (by decide)
  rw [h8₂] at hbase hwords
  have hcontext : (row contextPairs).map reg₃ ++ [loadWord mem₁ (reg .x1 + imm (8 * 12))] = ws := by
    have hmap : (row contextPairs).map reg₃ = ws.take 12 := by
      refine List.ext_getElem (by rw [List.length_take, hlen]; rfl) fun k hk _ => ?_
      have hk' : k < (row contextPairs).length := by rwa [List.length_map] at hk
      rw [List.getElem_map, hwords (by decide) k hk', List.getElem_take]
      exact h k _
    have hlast := h 12 (by omega)
    rw [hmap, hlast, List.take_append_getElem, List.take_of_length_le (by omega)]
  rw [hcode, execs_append, execs_append, execs_append, execs_append, hprep, hfirst, hload]
  simp only [execs_cons, execs_nil, exec_ldr_reg, exec_mov_to_sp, hbase, hlen12]
  refine ⟨_, rfl, ?_, rfl, rfl, rfl⟩
  rw [← hcontext]
  simp [cpu_context, row, contextPairs]

/-- The context in a task, as words. -/
def storedContext (mem : BitVec 64 → UInt8) (p : BitVec 64) : List (BitVec 64) :=
  (List.range 13).map fun i => loadWord mem (p + imm (8 * i))

theorem holds_storedContext (mem : BitVec 64 → UInt8) (p : BitVec 64) : HoldsWords mem p (storedContext mem p) := by
  intro i hi
  simp only [storedContext, List.getElem_map, List.getElem_range]

/-- A call of `cpu_switch_to` to its end: it returns where the other task called it. -/
def switched (c : Processor) : Processor := { execs cpu_switch_to c with pc := (execs cpu_switch_to c).reg .x30 }

/-! ## Tasks -/

/-- The processor, the task it works for, and all tasks. -/
structure Threads where
  cpu : Processor
  current : BitVec 64
  tasks : List (BitVec 64)

/-- The current task computes; or it makes a new one; or it calls `cpu_switch_to`. -/
inductive ThreadEvent where
  | run
  | fork (p : BitVec 64)
  | switch_to (next : BitVec 64)

/-- The bytes of the context in task `p`. -/
def InContext (p a : BitVec 64) : Prop := (a - p).toNat < 8 * 13

section Threads
variable (stack : BitVec 64 → BitVec 64 → Prop)

/-- What the other tasks leave alone: the context of `p` and its stack. -/
def Private (p a : BitVec 64) : Prop := InContext p a ∨ stack p a

/-- The context of `p` is in no other task, and not in its own stack. -/
def Unshared (p q : BitVec 64) : Prop := ∀ a, InContext p a → ¬ stack q a ∧ (p ≠ q → ¬ InContext q a)

/-- The other tasks are left alone. -/
def Considerate (s : Threads) (c : Processor) : Prop := ∀ p ∈ s.tasks, p ≠ s.current → ∀ a, Private stack p a → c.mem a = s.cpu.mem a

inductive ThreadNext : Threads → ThreadEvent → Threads → Prop
  | run {s c} : Considerate stack s c → ThreadNext s .run { s with cpu := c }
  | fork {s p c} : p ∉ s.tasks → (∀ q ∈ p :: s.tasks, Unshared stack p q ∧ Unshared stack q p) → Considerate stack s c →
    ThreadNext s (.fork p) { s with cpu := c, tasks := p :: s.tasks }
  | switch_to {s next} : next ∈ s.tasks → next ≠ s.current → s.cpu.reg .x0 = s.current → s.cpu.reg .x1 = next →
    ThreadNext s (.switch_to next) { s with cpu := switched s.cpu, current := next }

/-- How a task was left. -/
structure Parked where
  context : List (BitVec 64)
  mem : BitVec 64 → UInt8

/-- The task that calls `cpu_switch_to` is left as it is there, a new one as it was made. -/
def park (g : BitVec 64 → Option Parked) (st : Step Threads ThreadEvent) : BitVec 64 → Option Parked :=
  match st.event with
  | .run => g
  | .fork p => Function.update g p (some ⟨storedContext st.post.cpu.mem p, st.post.cpu.mem⟩)
  | .switch_to _ => Function.update g st.pre.current (some ⟨cpu_context st.pre.cpu, st.pre.cpu.mem⟩)

def parked (tr : List (Step Threads ThreadEvent)) : BitVec 64 → Option Parked := tr.foldl park fun _ => none

/-- Task `p` is in memory as it was left. -/
structure AsLeft (mem : BitVec 64 → UInt8) (p : BitVec 64) (k : Parked) : Prop where
  length : k.context.length = 13
  context : HoldsWords mem p k.context
  stack : ∀ a, stack p a → mem a = k.mem a

structure ThreadInv (g : BitVec 64 → Option Parked) (s : Threads) : Prop where
  current : s.current ∈ s.tasks
  apart : ∀ p ∈ s.tasks, ∀ q ∈ s.tasks, Unshared stack p q
  kept : ∀ p ∈ s.tasks, p ≠ s.current → ∃ k, g p = some k ∧ AsLeft stack s.cpu.mem p k

end Threads

section Run
variable {stack : BitVec 64 → BitVec 64 → Prop} {s s' : Threads} {e : ThreadEvent} {g : BitVec 64 → Option Parked}
  {mem mem' : BitVec 64 → UInt8} {p : BitVec 64} {k : Parked}

theorem AsLeft.congr (h : AsLeft stack mem p k) (hmem : ∀ a, Private stack p a → mem' a = mem a) : AsLeft stack mem' p k := by
  refine ⟨h.length, h.context.congr (by rw [h.length]; decide) fun b hb => hmem b (.inl ?_), fun a ha => ?_⟩
  · rwa [h.length] at hb
  · rw [hmem a (.inr ha), h.stack a ha]

/-- Outside the context of the task that is left, a switch changes no memory. -/
theorem storeWords_context {c : Processor} {q a : BitVec 64} (ha : ¬ InContext q a) : storeWords c.mem q (cpu_context c) a = c.mem a :=
  storeWords_of_ge (Nat.le_of_not_lt ha)

/-- A switch goes on as the other task was left, and leaves this one as it is. -/
theorem ThreadInv.switched {next : BitVec 64} (h : ThreadInv stack g s) (hnext : next ∈ s.tasks) (hne : next ≠ s.current)
    (h0 : s.cpu.reg .x0 = s.current) (h1 : s.cpu.reg .x1 = next) :
    ∃ k, g next = some k ∧ AsLeft stack s.cpu.mem next k ∧ cpu_context (switched s.cpu) = k.context ∧
      (switched s.cpu).mem = storeWords s.cpu.mem s.current (cpu_context s.cpu) ∧ (switched s.cpu).pstate = s.cpu.pstate ∧
      (switched s.cpu).sys = s.cpu.sys := by
  obtain ⟨k, hk, hkept⟩ := h.kept next hnext hne
  have hstored : AsLeft stack (storeWords s.cpu.mem (s.cpu.reg .x0) (cpu_context s.cpu)) next k := by
    refine hkept.congr fun a ha => ?_
    rw [h0]
    refine storeWords_context fun hin => ?_
    obtain ⟨hstack, hctx⟩ := h.apart _ h.current _ hnext a hin
    rcases ha with ha | ha
    · exact hctx (Ne.symm hne) ha
    · exact hstack ha
  obtain ⟨c', hex, hctx, hmem, hsys, hps⟩ := cpu_switch_to_exec hkept.length (by rw [h1]; exact hstored.context)
  have hback : ClbFilesystem.switched s.cpu = { c' with pc := c'.reg .x30 } := by rw [ClbFilesystem.switched, hex]
  rw [hback, ← h0]
  exact ⟨k, hk, hkept, hctx, hmem, hps, hsys⟩

theorem ThreadInv.next (h : ThreadInv stack g s) (hn : ThreadNext stack s e s') : ThreadInv stack (park g ⟨s, e, s'⟩) s' := by
  cases hn with
  | run hc =>
    refine ⟨h.current, h.apart, fun p hp hne => ?_⟩
    obtain ⟨k, hk, hkept⟩ := h.kept p hp hne
    exact ⟨k, hk, hkept.congr (hc p hp hne)⟩
  | @fork p c hnew hapart hc =>
    refine ⟨List.mem_cons_of_mem _ h.current, fun q hq r hr => ?_, fun q hq hne => ?_⟩
    · rcases List.mem_cons.1 hq with rfl | hq'
      · exact (hapart r hr).1
      · rcases List.mem_cons.1 hr with rfl | hr'
        · exact (hapart q hq).2
        · exact h.apart q hq' r hr'
    · by_cases hqp : q = p
      · subst hqp
        exact ⟨_, Function.update_self _ _ _, rfl, holds_storedContext _ _, fun _ _ => rfl⟩
      · have hq' : q ∈ s.tasks := (List.mem_cons.1 hq).resolve_left hqp
        obtain ⟨k, hk, hkept⟩ := h.kept q hq' hne
        exact ⟨k, (Function.update_of_ne hqp _ _).trans hk, hkept.congr (hc q hq' hne)⟩
  | switch_to hnext hne h0 h1 =>
    obtain ⟨-, -, -, -, hmem, -⟩ := h.switched hnext hne h0 h1
    refine ⟨hnext, h.apart, fun q hq hqn => ?_⟩
    change ∃ k, Function.update g s.current _ q = some k ∧ AsLeft stack (ClbFilesystem.switched s.cpu).mem q k
    rw [hmem]
    by_cases hqc : q = s.current
    · subst hqc
      refine ⟨_, Function.update_self _ _ _, rfl, holds_storeWords (by simp [cpu_context]), fun a ha => storeWords_context fun hin => ?_⟩
      exact (h.apart _ h.current _ h.current a hin).1 ha
    · obtain ⟨k, hk, hkept⟩ := h.kept q hq hqc
      refine ⟨k, (Function.update_of_ne hqc _ _).trans hk, hkept.congr fun a ha => storeWords_context fun hin => ?_⟩
      obtain ⟨hstack, hctx⟩ := h.apart _ h.current _ hq a hin
      rcases ha with ha | ha
      · exact hctx (Ne.symm hqc) ha
      · exact hstack ha

/-- The processor at boot, with one task. -/
def bootThreads (c : Processor) (init : BitVec 64) : Threads := ⟨c, init, [init]⟩

theorem threads_inv {c : Processor} {init : BitVec 64} {tr : List (Step Threads ThreadEvent)} (hinit : Unshared stack init init)
    (h : Run (ThreadNext stack) (bootThreads c init) tr s) : ThreadInv stack (parked tr) s := by
  refine h.history _ park (ThreadInv stack) ⟨List.mem_singleton_self _, ?_, ?_⟩ fun _ g s e s' _ hg hn => hg.next hn
  · intro p hp q hq
    obtain rfl := List.mem_singleton.1 hp
    obtain rfl := List.mem_singleton.1 hq
    exact hinit
  · intro p hp hne
    exact absurd (List.mem_singleton.1 hp) hne

/-- The task switched to goes on as it was left. -/
theorem ThreadInv.resumes {next : BitVec 64} (h : ThreadInv stack g s) (hn : ThreadNext stack s (.switch_to next) s') :
    ∃ k, g next = some k ∧ cpu_context s'.cpu = k.context ∧ s'.cpu.pc = s'.cpu.reg .x30 ∧ ∀ a, stack next a → s'.cpu.mem a = k.mem a := by
  cases hn with
  | switch_to hnext hne h0 h1 =>
    obtain ⟨k, hk, hkept, hctx, hmem, -⟩ := h.switched hnext hne h0 h1
    refine ⟨k, hk, hctx, rfl, fun a ha => ?_⟩
    rw [← hkept.stack a ha, hmem]
    exact storeWords_context fun hin => (h.apart _ h.current _ hnext a hin).1 ha

/-- In a run of any tasks, the one switched to goes on with the registers and the stack it was left with, where it called
`cpu_switch_to` or was made to start. -/
theorem thread_resumed {c : Processor} {init next : BitVec 64} {tr : List (Step Threads ThreadEvent)} (hinit : Unshared stack init init)
    (h : Run (ThreadNext stack) (bootThreads c init) tr s) (hn : ThreadNext stack s (.switch_to next) s') :
    ∃ k, parked tr next = some k ∧ cpu_context s'.cpu = k.context ∧ s'.cpu.pc = s'.cpu.reg .x30 ∧
      ∀ a, stack next a → s'.cpu.mem a = k.mem a :=
  (threads_inv hinit h).resumes hn

end Run

/-- Pages from 0x1000 on, with a stack above each `task_struct`. -/
def pageStack (p a : BitVec 64) : Prop := 552 ≤ (a - p).toNat ∧ (a - p).toNat < 4096

/-- A register of its own value for each, beside the two that `cpu_switch_to` is given. -/
def registers (prev next : BitVec 64) (r : Reg) : BitVec 64 :=
  if r = .x0 then prev else if r = .x1 then next else imm (0x100 + (row pairs).idxOf r)

/-- A processor about to switch from one page to the other, in which a context is stored. -/
def switching : Processor where
  reg := registers 0x1000 0x2000
  sp := 0x1f00
  sys _ := 0
  pstate := 5
  pc := 0
  mem := storeWords (fun _ => 0) 0x2000 ((List.range 13).map fun i => imm (0x400 + 8 * i))

theorem pageStack_self (p : BitVec 64) : Unshared pageStack p p := by
  intro a ha
  unfold InContext at ha
  unfold pageStack
  exact ⟨by omega, fun h => absurd rfl h⟩

theorem pageStack_next (p : BitVec 64) : Unshared pageStack (p + 0x1000) p ∧ Unshared pageStack p (p + 0x1000) := by
  constructor
  all_goals
    intro a ha
    unfold InContext at *
    unfold pageStack
    exact ⟨by bv_omega, fun _ => by bv_omega⟩

/-- The first task makes another one. -/
theorem forked {c : Processor} : ThreadNext pageStack (bootThreads c 0x1000) (.fork 0x2000) ⟨c, 0x1000, [0x2000, 0x1000]⟩ := by
  refine .fork (by simp [bootThreads]) (fun q hq => ?_) fun _ _ _ _ _ => rfl
  rcases List.mem_cons.1 hq with rfl | hq
  · exact ⟨pageStack_self _, pageStack_self _⟩
  · obtain rfl := List.mem_singleton.1 hq
    exact pageStack_next 0x1000

/-- It switches to it. -/
theorem forked_switch {c : Processor} (h0 : c.reg .x0 = 0x1000) (h1 : c.reg .x1 = 0x2000) :
    ThreadNext pageStack ⟨c, 0x1000, [0x2000, 0x1000]⟩ (.switch_to 0x2000) ⟨switched c, 0x2000, [0x2000, 0x1000]⟩ :=
  .switch_to (by simp) (by simp) h0 h1

/-- The new task, about to switch back. -/
def switchingBack : Processor := { switched switching with reg := registers 0x2000 0x1000 }

/-- The first task goes on behind its call, with all that it left. -/
theorem thread_resumed_back : cpu_context (switched switchingBack) = cpu_context switching ∧
    (switched switchingBack).pc = (switched switchingBack).reg .x30 ∧
    ∀ a, pageStack 0x1000 a → (switched switchingBack).mem a = switching.mem a := by
  have hrun : Run (ThreadNext pageStack) (bootThreads switching 0x1000) _ ⟨switchingBack, 0x2000, [0x2000, 0x1000]⟩ :=
    ((Run.nil.snoc forked).snoc (forked_switch rfl rfl)).snoc (.run fun _ _ _ _ _ => rfl)
  have hback : ThreadNext pageStack ⟨switchingBack, 0x2000, [0x2000, 0x1000]⟩ (.switch_to 0x1000)
      ⟨switched switchingBack, 0x1000, [0x2000, 0x1000]⟩ := .switch_to (by simp) (by simp) rfl rfl
  obtain ⟨k, hk, hctx, hpc, hmem⟩ := thread_resumed (pageStack_self _) hrun hback
  have hleft : k = ⟨cpu_context switching, switching.mem⟩ := by
    rw [← Option.some.injEq, ← hk]
    rfl
  subst hleft
  exact ⟨hctx, hpc, hmem⟩

end ClbFilesystem

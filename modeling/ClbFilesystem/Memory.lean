import Mathlib.Algebra.Group.Int.Defs
import Mathlib.Algebra.Group.Nat.Defs
import Mathlib.Logic.Function.Basic
import Mathlib.Data.Nat.Init
import Mathlib.Tactic.SplitIfs
/-!
# Memory

The byte-addressed memory the kernel sees, the copy loops written in assembly
(`mm.S`, `filesystem.S`) and the page allocator of `mm.c`. A register or an
`unsigned long` is a `Nat`, its signed reading an `Int`. Buffers do not run past
the end of the address space, so the pointer increments of the loops do not wrap.
-/

namespace ClbFilesystem

/-! ## Conversions between the integer types of C -/

/-- To `int`. -/
def toInt (n : Int) : Int := (n + 2 ^ 31) % 2 ^ 32 - 2 ^ 31

/-- To `unsigned`. -/
def toUnsigned (n : Int) : Nat := (n % 2 ^ 32).toNat

/-- To `unsigned long`. -/
def toUlong (n : Int) : Nat := (n % 2 ^ 64).toNat

/-- To `long`: what a signed comparison sees of a 64-bit register. -/
def toLong (n : Int) : Int := (n + 2 ^ 63) % 2 ^ 64 - 2 ^ 63

/-! ## Layout (`mm.h`, `base.h`) -/

def VA_START : Nat := 0xffff000000000000
def PAGE_SHIFT : Nat := 12
def TABLE_SHIFT : Nat := 9
def SECTION_SHIFT : Nat := PAGE_SHIFT + TABLE_SHIFT
def PAGE_SIZE : Nat := 1 <<< PAGE_SHIFT
def SECTION_SIZE : Nat := 1 <<< SECTION_SHIFT
def LOW_MEMORY : Nat := 2 * SECTION_SIZE
def DEVICE_BASE : Nat := 0x3F000000
def HIGH_MEMORY : Nat := DEVICE_BASE
def PAGING_MEMORY : Nat := HIGH_MEMORY - LOW_MEMORY
def PAGING_PAGES : Nat := PAGING_MEMORY / PAGE_SIZE

theorem PAGE_SIZE_eq : PAGE_SIZE = 4096 := rfl
theorem LOW_MEMORY_eq : LOW_MEMORY = 0x400000 := rfl
theorem PAGING_PAGES_eq : PAGING_PAGES = 257024 := rfl

/-! ## Copy loops -/

abbrev Mem := Nat → UInt8

/-- `ldr x3, [src]` then `str x3, [dst]`: eight bytes at once. -/
def Mem.copy8 (m : Mem) (src dst : Nat) : Mem := fun a =>
  if dst ≤ a ∧ a < dst + 8 then m (src + (a - dst)) else m a

/-- `str xzr, [dst]`. -/
def Mem.zero8 (m : Mem) (dst : Nat) : Mem := fun a => if dst ≤ a ∧ a < dst + 8 then 0 else m a

/-- `ldrb w3, [src]` then `strb w3, [dst]`. -/
def Mem.copy1 (m : Mem) (src dst : Nat) : Mem := Function.update m dst (m src)

/-- `memcpy`: a word is copied before the count is first looked at (`b.gt` is signed). -/
def memcpy (m : Mem) (x0 x1 : Nat) (x2 : Int) : Mem :=
  if 0 < x2 - 8 then memcpy (m.copy8 x0 x1) (x0 + 8) (x1 + 8) (x2 - 8) else m.copy8 x0 x1
termination_by x2.toNat

/-- `memzero`: the same loop, storing zeros. -/
def memzero (m : Mem) (x0 : Nat) (x1 : Int) : Mem :=
  if 0 < x1 - 8 then memzero (m.zero8 x0) (x0 + 8) (x1 - 8) else m.zero8 x0
termination_by x1.toNat

/-- The loop of `memwrite`: the memory and the counter `x4` it leaves. -/
def b_memewrite (m : Mem) (x0 x1 : Nat) (x4 : Int) : Mem × Int :=
  if 0 < x4 - 1 then b_memewrite (m.copy1 x0 x1) (x0 + 1) (x1 + 1) (x4 - 1) else (m.copy1 x0 x1, x4 - 1)
termination_by x4.toNat

/-- `memwrite`: byte by byte; returns the count less the residual counter. -/
def memwrite (m : Mem) (src dst : Nat) (n : Int) : Int × Mem :=
  let (m, x4) := b_memewrite m src dst n
  (n - x4, m)

/-- The bytes `memcpy` and `memzero` store: whole words, at least one. -/
def words (n : Int) : Nat := if n ≤ 8 then 8 else (n.toNat + 7) / 8 * 8

theorem words_of_le {n : Int} (h : n ≤ 8) : words n = 8 := by simp [words, h]

theorem words_succ {n : Int} (h : 8 < n) : words n = words (n - 8) + 8 := by
  unfold words
  split_ifs <;> omega

theorem words_pos (n : Int) : 8 ≤ words n := by
  unfold words
  split_ifs <;> omega

/-- The block `[dst, dst + n)` of `m` replaced by the bytes at `src`. -/
def Mem.copy (m : Mem) (src dst n : Nat) : Mem := fun a =>
  if dst ≤ a ∧ a < dst + n then m (src + (a - dst)) else m a

theorem Mem.copy_outside {m : Mem} {src dst n a : Nat} (h : a < dst ∨ dst + n ≤ a) : m.copy src dst n a = m a := by
  simp only [copy]
  rw [if_neg (by omega)]

theorem Mem.copy_inside {m : Mem} {src dst n k : Nat} (h : k < n) : m.copy src dst n (dst + k) = m (src + k) := by
  simp only [copy]
  rw [if_pos (by omega), show dst + k - dst = k by omega]

/-- `memcpy` changes nothing outside the words it stores. -/
theorem memcpy_outside (m : Mem) (x0 x1 : Nat) (x2 : Int) {a : Nat} (h : a < x1 ∨ x1 + words x2 ≤ a) :
    memcpy m x0 x1 x2 a = m a := by
  induction m, x0, x1, x2 using memcpy.induct with
  | case1 m x0 x1 x2 hlt ih =>
    rw [words_succ (by omega)] at h
    rw [memcpy, if_pos hlt, ih (by omega)]
    exact Mem.copy_outside (by omega)
  | case2 m x0 x1 x2 hle =>
    rw [words_of_le (by omega)] at h
    rw [memcpy, if_neg hle]
    exact Mem.copy_outside h

/-- A block copied in two parts. -/
theorem Mem.copy_copy (m : Mem) (src dst k n : Nat) (h : src + (k + n) ≤ dst ∨ dst + (k + n) ≤ src) :
    (m.copy src dst k).copy (src + k) (dst + k) n = m.copy src dst (k + n) := by
  funext a
  simp only [copy]
  by_cases hlo : dst + k ≤ a ∧ a < dst + k + n
  · rw [if_pos hlo, if_neg (by omega), if_pos (by omega)]
    congr 1; omega
  · rw [if_neg hlo]
    by_cases hin : dst ≤ a ∧ a < dst + k
    · rw [if_pos hin, if_pos (by omega)]
    · rw [if_neg hin, if_neg (by omega)]

/-- On buffers that do not overlap, `memcpy` copies whole words. -/
theorem memcpy_eq (m : Mem) (x0 x1 : Nat) (x2 : Int) (h : x0 + words x2 ≤ x1 ∨ x1 + words x2 ≤ x0) :
    memcpy m x0 x1 x2 = m.copy x0 x1 (words x2) := by
  induction m, x0, x1, x2 using memcpy.induct with
  | case1 m x0 x1 x2 hlt ih =>
    rw [words_succ (by omega)] at h ⊢
    rw [memcpy, if_pos hlt, ih (by omega), Nat.add_comm (words _) 8]
    exact Mem.copy_copy m x0 x1 8 _ (by omega)
  | case2 m x0 x1 x2 hle =>
    rw [memcpy, if_neg hle, words_of_le (by omega)]
    rfl

/-- What `memzero` leaves. -/
theorem memzero_eq (m : Mem) (x0 : Nat) (x1 : Int) :
    memzero m x0 x1 = fun a => if x0 ≤ a ∧ a < x0 + words x1 then 0 else m a := by
  induction m, x0, x1 using memzero.induct with
  | case1 m x0 x1 hlt ih =>
    have hp := words_pos (x1 - 8)
    rw [memzero, if_pos hlt, ih, words_succ (n := x1) (by omega)]
    funext a
    simp only [Mem.zero8]
    split_ifs <;> first | rfl | omega
  | case2 m x0 x1 hle =>
    rw [memzero, if_neg hle, words_of_le (by omega)]
    rfl

/-- `n` bytes copied one by one. -/
def Mem.copyBytes (m : Mem) (src dst : Nat) : Nat → Mem
  | 0 => m
  | n + 1 => (m.copy1 src dst).copyBytes (src + 1) (dst + 1) n

theorem Mem.copy1_eq (m : Mem) (src dst : Nat) : m.copy1 src dst = m.copy src dst 1 := by
  funext a
  simp only [copy1, copy, Function.update_apply]
  by_cases h : a = dst
  · subst h; rw [if_pos rfl, if_pos (by omega)]; congr 1; omega
  · rw [if_neg h, if_neg (by omega)]

theorem Mem.copyBytes_outside (m : Mem) (src dst n : Nat) {a : Nat} (h : a < dst ∨ dst + n ≤ a) :
    m.copyBytes src dst n a = m a := by
  induction n generalizing m src dst with
  | zero => rfl
  | succ n ih =>
    unfold copyBytes
    rw [ih _ _ _ (by omega), copy1_eq]
    exact copy_outside (by omega)

/-- On buffers that do not overlap, bytes copied one by one are a block copied. -/
theorem Mem.copyBytes_eq (m : Mem) (src dst n : Nat) (h : src + n ≤ dst ∨ dst + n ≤ src) :
    m.copyBytes src dst n = m.copy src dst n := by
  induction n generalizing m src dst with
  | zero => funext a; exact (copy_outside (by omega)).symm
  | succ n ih =>
    unfold copyBytes
    rw [ih _ _ _ (by omega), copy1_eq, Nat.add_comm n 1, copy_copy m src dst 1 n (by omega)]

/-- The byte loop copies its bytes and counts down to zero. -/
theorem b_memewrite_eq (m : Mem) (x0 x1 : Nat) {n : Nat} (hn : 1 ≤ n) :
    b_memewrite m x0 x1 n = (m.copyBytes x0 x1 n, 0) := by
  induction n, hn using Nat.le_induction generalizing m x0 x1 with
  | base => rw [b_memewrite, if_neg (by omega)]; rfl
  | succ n hn ih =>
    rw [b_memewrite, if_pos (by omega), show ((n + 1 : Nat) : Int) - 1 = n by omega, ih]
    rfl

theorem memwrite_eq (m : Mem) (src dst : Nat) {n : Nat} (hn : 1 ≤ n) :
    memwrite m src dst n = ((n : Int), m.copyBytes src dst n) := by
  simp [memwrite, b_memewrite_eq m src dst hn]

/-! ## Page allocator -/

/-- What `mm.c` works on: the memory, and one `unsigned short` a page. -/
@[ext]
structure Mm where
  mem : Mem
  mem_map : Fin PAGING_PAGES → UInt16

/-- The loop of `get_free_page` from page `i`. -/
def get_free_page.loop (mm : Mm) (i : Nat) : Nat × Mm :=
  if h : i < PAGING_PAGES then
    if mm.mem_map ⟨i, h⟩ = 0 then
      let page := LOW_MEMORY + i * PAGE_SIZE
      (page, { mem := memzero mm.mem (page + VA_START) PAGE_SIZE,
               mem_map := Function.update mm.mem_map ⟨i, h⟩ 1 })
    else loop mm (i + 1)
  else (0, mm)
termination_by PAGING_PAGES - i

def get_free_page (mm : Mm) : Nat × Mm := get_free_page.loop mm 0

def allocate_kernel_page (mm : Mm) : Nat × Mm :=
  let (page, mm) := get_free_page mm
  if page = 0 then (0, mm) else (page + VA_START, mm)

/-- The kernel address of page `i`. -/
def pageAddr (i : Nat) : Nat := VA_START + LOW_MEMORY + i * PAGE_SIZE

theorem pageAddr_eq (i : Nat) : pageAddr i = 0xffff000000400000 + i * 4096 := rfl

theorem get_free_page_loop_skip (mm : Mm) {i j : Nat} (hij : i ≤ j) (hj : j ≤ PAGING_PAGES)
    (hused : ∀ k (h : k < PAGING_PAGES), i ≤ k → k < j → mm.mem_map ⟨k, h⟩ ≠ 0) :
    get_free_page.loop mm i = get_free_page.loop mm j := by
  induction j, hij using Nat.le_induction with
  | base => rfl
  | succ j hij ih =>
    rw [ih (by omega) fun k h h1 h2 => hused k h h1 (by omega), get_free_page.loop, dif_pos (by omega),
      if_neg (hused j (by omega) hij (by omega))]

/-- With pages below `i` taken and page `i` free, the allocator returns page `i`, zeroed. -/
theorem allocate_kernel_page_eq (mm : Mm) {i : Nat} (hi : i < PAGING_PAGES) (hfree : mm.mem_map ⟨i, hi⟩ = 0)
    (hused : ∀ k (h : k < PAGING_PAGES), k < i → mm.mem_map ⟨k, h⟩ ≠ 0) :
    allocate_kernel_page mm = (pageAddr i,
      { mem := fun a => if pageAddr i ≤ a ∧ a < pageAddr i + PAGE_SIZE then 0 else mm.mem a,
        mem_map := Function.update mm.mem_map ⟨i, hi⟩ 1 }) := by
  have hpage : LOW_MEMORY + i * PAGE_SIZE + VA_START = pageAddr i := by simp only [pageAddr]; omega
  have hne : LOW_MEMORY + i * PAGE_SIZE ≠ 0 := by rw [LOW_MEMORY_eq]; omega
  have hloop : get_free_page.loop mm 0 = (LOW_MEMORY + i * PAGE_SIZE,
      { mem := memzero mm.mem (pageAddr i) PAGE_SIZE, mem_map := Function.update mm.mem_map ⟨i, hi⟩ 1 }) := by
    rw [get_free_page_loop_skip mm (Nat.zero_le i) (by omega) fun k hk _ hlt => hused k hk hlt,
      get_free_page.loop, dif_pos hi, if_pos hfree]
    simp only [hpage]
  rw [allocate_kernel_page, get_free_page, hloop]
  simp only [hne, if_false, hpage, memzero_eq]
  rfl

end ClbFilesystem

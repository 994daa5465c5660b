import Mathlib.Algebra.Group.Nat.Defs
import Mathlib.Algebra.Group.Int.Defs
import Mathlib.Data.List.Nodup

/-!
# Constants of the memory system

The constants of `param.h`, `memlayout.h`, `mmu.h` and `proc.h` that the memory code
uses, the address macros, and 32-bit arithmetic. Addresses are natural numbers below
`2 ^ 32`; an operation that can wrap says so with `add32` or `sub32`.
-/

namespace Xv6

/-- Bytes mapped by a page. -/
def PGSIZE : Nat := 4096

/-- Top of physical memory. -/
def PHYSTOP : Nat := 0xE000000

def EXTMEM : Nat := 0x100000

def DEVSPACE : Nat := 0xFE000000

/-- First kernel virtual address. -/
def KERNBASE : Nat := 0x80000000

def KERNLINK : Nat := 0x80100000

def USERSTACKTOP : Nat := 0x80000000

def NPROC : Nat := 64

/-- Open files per process. -/
def NOFILE : Nat := 16

/-- Open files per system. -/
def NFILE : Nat := 100

def NUM_MEM_PAGE_ENTRIES : Nat := 256

def NUM_MEM_PAGES : Nat := 32

def MEM_CAPACITY : Nat := 8192

def NUM_VIRTUAL_PAGE_ENTRIES : Nat := 64

def VIRTUAL_PAGE_OFFSET : Nat := 262144

def VPFILE_SIZE : Nat := 65536

def MAX_VPFILES : Nat := 4

/-- Bytes of swap I/O per step of `fifo_replace`. -/
def REPLACE_BUF_SIZE : Nat := 1024

/-- Marks an unused record of the resident queue or of the swap table. -/
def SLOT_USABLE : Nat := 0xFFFFFFFF

/-- `MAXFILE * BSIZE`, the largest file in bytes: `(12 + 128) * 512`. -/
def MAXFILE_BYTES : Nat := 71680

def MAXARG : Nat := 32

/-- `uint` addition. -/
def add32 (a b : Nat) : Nat := (a + b) % 2 ^ 32

/-- `uint` subtraction. -/
def sub32 (a b : Nat) : Nat := (a + 2 ^ 32 - b % 2 ^ 32) % 2 ^ 32

/-- `uint` plus a signed `int`. -/
def addInt32 (a : Nat) (n : Int) : Nat := ((a + n) % 2 ^ 32).toNat

/-- `V2P`: kernel virtual to physical address. -/
def V2P (v : Nat) : Nat := sub32 v KERNBASE

/-- `P2V`: physical to kernel virtual address. -/
def P2V (pa : Nat) : Nat := add32 pa KERNBASE

def PGROUNDUP (a : Nat) : Nat := (a + PGSIZE - 1) / PGSIZE * PGSIZE

def PGROUNDDOWN (a : Nat) : Nat := a / PGSIZE * PGSIZE

/-- Page directory index. -/
def PDX (va : Nat) : Nat := va / 0x400000 % 1024

/-- Addresses `lo, lo + PGSIZE, ...` below `hi`, the pages a loop
`for (a = lo; a < hi; a += PGSIZE)` visits. -/
def pageRange (lo hi : Nat) : List Nat :=
  (List.range ((hi - lo + PGSIZE - 1) / PGSIZE)).map (lo + · * PGSIZE)

/-- Why the kernel does not go on. -/
inductive Stop where
  /-- `panic(msg)`. -/
  | panic (msg : String)
  /-- A null pointer is dereferenced in the kernel. -/
  | nullDeref
  /-- As before, and the pointer is what a failed allocation returned. -/
  | noMemory
  /-- A kernel access to a user page that is not present. -/
  | userFault
  /-- An array of the kernel is indexed past its end. -/
  | outOfBounds
  /-- A list walk that never reaches its end, or a wait for a lock that is held. -/
  | diverges
  deriving DecidableEq, Repr

/-- A kernel function returns, or the kernel stops. -/
abbrev Res (α : Type) := Except Stop α

theorem mem_pageRange {lo hi a : Nat} :
    a ∈ pageRange lo hi ↔ ∃ k, a = lo + k * PGSIZE ∧ a < hi := by
  simp only [pageRange, List.mem_map, List.mem_range, PGSIZE]
  constructor
  · rintro ⟨k, bound, rfl⟩
    exact ⟨k, rfl, by omega⟩
  · rintro ⟨k, rfl, below⟩
    exact ⟨k, by omega, rfl⟩

theorem pageRange_nodup (lo hi : Nat) : (pageRange lo hi).Nodup := by
  refine List.Nodup.map ?_ List.nodup_range
  intro j k same
  simp only [PGSIZE] at same
  omega

theorem P2V_page {f : Nat} (h : f * PGSIZE < PHYSTOP) : P2V (f * PGSIZE) = f * PGSIZE + KERNBASE := by
  simp only [P2V, add32, PGSIZE, PHYSTOP, KERNBASE] at *
  omega

@[simp] theorem page_div (f : Nat) : f * PGSIZE / PGSIZE = f :=
  Nat.mul_div_cancel f (by decide)

/-- The page number of a page's kernel address. -/
theorem V2P_P2V_page {f : Nat} (h : f * PGSIZE < PHYSTOP) : V2P (P2V (f * PGSIZE)) = f * PGSIZE := by
  simp only [V2P, P2V, sub32, add32, PGSIZE, PHYSTOP, KERNBASE] at *
  omega

theorem sub32_lt (a b : Nat) : sub32 a b < 2 ^ 32 :=
  Nat.mod_lt _ (by decide)

theorem PGROUNDUP_mod (a : Nat) : PGROUNDUP a % PGSIZE = 0 :=
  Nat.mul_mod_left _ _

theorem le_PGROUNDUP (a : Nat) : a ≤ PGROUNDUP a := by
  simp only [PGROUNDUP, PGSIZE]
  omega

end Xv6

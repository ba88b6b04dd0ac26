import ShlteOs.CallSequence
import ShlteOs.InitialFreeList

/-!
Clients of the page allocator.  A client holds the blocks it was given, frees
them, and stores bytes into them; a configuration is the allocator's state
together with the blocks that are currently held.
-/

namespace ShlteOs.PageClients

open ShlteOs.ByteMemory
open ShlteOs.CallSequence
open ShlteOs.PageAllocator
open ShlteOs.PageAllocatorSteps
open ShlteOs.InitialFreeList

/-- A block of `2 ^ order` pages. -/
structure Block where
  addr : Word
  order : Nat
  deriving DecidableEq

def Block.bytes (b : Block) : Nat := 2 ^ b.order * 4096

def Block.Apart (b c : Block) : Prop := ByteMemory.Apart b.addr b.bytes c.addr c.bytes

def Block.offset (s : MM) (b : Block) : Nat := (b.addr - s.buddy.poolStart).toNat

/-- The block lies entirely inside the pool and starts at a multiple of its size
behind the pool's start. -/
def Block.InPool (s : MM) (b : Block) : Prop :=
  b.offset s % b.bytes = 0 ∧ b.offset s + b.bytes ≤ s.buddy.poolPages.toNat * 4096

/-- A block of the pool that no client holds a part of. -/
def FreeBlock (s : MM) (held : List Block) (b : Block) : Prop :=
  b.InPool s ∧ ∀ c ∈ held, b.Apart c

/-- The allocator and the blocks its clients hold. A block handed out twice
occurs twice. -/
structure Clients where
  mm : MM
  live : List Block

/-- The calls of clients, and their stores. -/
inductive PageCall where
  | alloc (order : Nat)
  | free (b : Block)
  | write (x : Word) (v : Byte)

/-- Clients free only what they hold, with the order it was requested with, and
store only into blocks they hold. -/
def Legal (c : Clients) : PageCall → Prop
  | .alloc _ => True
  | .free b => b ∈ c.live
  | .write x _ => ∃ b ∈ c.live, Covers b.addr b.bytes x

/-- One call; `none` when `free_pages` does not return. -/
def step (c : Clients) : PageCall → Option Clients
  | .alloc order =>
      match allocPages c.mm order with
      | (none, mm) => some { c with mm := mm }
      | (some addr, mm) => some { mm := mm, live := ⟨addr, order⟩ :: c.live }
  | .free b =>
      (freePages c.mm b.addr b.order).map fun mm => { mm := mm, live := c.live.erase b }
  | .write x v => some { c with mm := c.mm.setMem (storeByte c.mm.mem x v) }

def start (m : Memory) (kernelEnd staticBitmap : Word) : Clients :=
  { mm := mmInit (boot m) kernelEnd staticBitmap, live := [] }

def initialPool (kernelEnd : Word) : Word × Word × Bool :=
  (alignedPoolStart kernelEnd, BitVec.ofNat 64 initialPoolPages, true)

theorem pool_start (m : Memory) (kernelEnd staticBitmap : Word) :
    pool (start m kernelEnd staticBitmap).mm = initialPool kernelEnd := rfl

theorem poolPages_of_pool {kernelEnd : Word} {s : MM} (h : pool s = initialPool kernelEnd) :
    s.buddy.poolPages.toNat = 16384 := by
  have hpages : s.buddy.poolPages = BitVec.ofNat 64 initialPoolPages :=
    congrArg (fun p => p.2.1) h
  rw [hpages, initialPoolPages_eq]
  rfl

theorem poolPages_ne_zero_of_pool {kernelEnd : Word} {s : MM}
    (h : pool s = initialPool kernelEnd) : s.buddy.poolPages ≠ 0 := by
  intro hzero
  have hpages := poolPages_of_pool h
  rw [hzero] at hpages
  exact absurd hpages (by decide)

theorem freePages_pool {s s' : MM} {phys : Word} {order : Nat}
    (h : freePages s phys order = some s') : pool s' = pool s := by
  by_cases hinit : s.buddy.initialized = true
  · by_cases horder : order < maxOrderBits
    · by_cases honce : FreeCountsOnce s phys order
      · obtain ⟨t, ht, -, hpool⟩ := freePages_of_countsOnce hinit honce
        rw [h] at ht
        cases ht
        exact hpool
      · exact (freePages_of_not_countsOnce hinit horder honce h).1
    · simp [freePages, hinit, Nat.le_of_not_lt horder] at h
      rw [← h]
  · simp [freePages, hinit] at h
    rw [← h]

theorem step_pool {c c' : Clients} {call : PageCall} (h : step c call = some c') :
    pool c'.mm = pool c.mm := by
  cases call with
  | alloc order =>
      simp only [step] at h
      rcases allocPages_cases c.mm order with ⟨hfail, -⟩ | ⟨found, mm, -, hok, -, hpool⟩
      · rw [hfail] at h
        cases h
        rfl
      · rw [hok] at h
        cases h
        exact hpool
  | free b =>
      obtain ⟨mm, hmm, rfl⟩ := Option.map_eq_some_iff.mp h
      exact freePages_pool hmm
  | write x v =>
      cases h
      rfl

theorem secondNode_start (m : Memory) (kernelEnd staticBitmap : Word) :
    secondNode (start m kernelEnd staticBitmap).mm 0 =
      alignedPoolStart kernelEnd + pageSize :=
  secondNode_mmInit (boot m) kernelEnd staticBitmap

theorem step_alloc_zero {c : Clients} {kernelEnd : Word}
    (hpool : pool c.mm = initialPool kernelEnd) (hhead : c.mm.buddy.freeLists 0 ≠ 0) :
    step c (.alloc 0) =
      some { mm := popBlock c.mm 0, live := ⟨secondNode c.mm 0, 0⟩ :: c.live } := by
  have hinit : c.mm.buddy.initialized = true := congrArg (fun p => p.2.2) hpool
  simp only [step, allocPages_zero hinit (poolPages_ne_zero_of_pool hpool) hhead]

end ShlteOs.PageClients

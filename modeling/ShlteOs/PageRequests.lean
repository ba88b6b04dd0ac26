import Mathlib.Order.Bounds.Basic
import ShlteOs.PageAllocatorSteps
import ShlteOs.InitialFreeList
import ShlteOs.BlockSplitting

/-!
The functions of `lib/mm.c` that turn a size in bytes into a request for pages:
`phys_alloc` with `phys_free`, and `stack_alloc` with `stack_free`.  The sizes
are 64-bit words and are rounded modulo `2 ^ 64`, as the code rounds them, and a
null pointer is the word zero.
-/

namespace ShlteOs.PageRequests

open ShlteOs.ByteMemory
open ShlteOs.PageAllocator
open ShlteOs.PageAllocatorSteps
open ShlteOs.InitialFreeList
open ShlteOs.BlockSplitting

/-- The number of pages of a size; it wraps for the largest sizes. -/
def pageCount (size : Word) : Word := (size + pageSize - 1) / pageSize

/-- The loop that looks for the order of a request, with `n` orders left below
`MAX_ORDER_BITS - 1`. -/
def orderLoop (pages : Word) : Nat → Nat → Nat
  | 0, order => order
  | n + 1, order =>
      if blockPages order < pages then orderLoop pages n (order + 1) else order

def requestedOrder (size : Word) : Nat := orderLoop (pageCount size) (maxOrderBits - 1) 0

/-- The length `phys_alloc` passes to `memset`. -/
def zeroedBytes (size : Word) : Nat := (pageCount size * pageSize).toNat

/-- `phys_alloc`, which clears the pages it was asked for. -/
def physAlloc (s : MM) (size : Word) : Word × MM :=
  if size = 0 then (0, s)
  else
    match allocPages s (requestedOrder size) with
    | (none, s) => (0, s)
    | (some phys, s) => (phys, s.setMem (memset s.mem phys 0 (zeroedBytes size)))

/-- `phys_free`, which computes the order again from the size. -/
def physFree (s : MM) (ptr size : Word) : Option MM :=
  if ptr = 0 ∨ size = 0 then some s else freePages s ptr (requestedOrder size)

def pageAlloc (s : MM) : Option Word × MM := allocPages s 0

def pageFree (s : MM) (page : Word) : Option MM := freePages s page 0

def stackBytes (size : Word) : Word := (size + pageSize - 1) &&& ~~~(pageSize - 1)

/-- The order `stack_alloc` asks for: the number of pages, converted to the
`unsigned int` that `alloc_pages` takes. -/
def stackOrder (size : Word) : Nat := (stackBytes size / pageSize).toNat % 2 ^ 32

/-- `stack_alloc`, which passes the number of pages on as an order. -/
def stackAlloc (s : MM) (size : Word) : Word × MM :=
  match allocPages s (stackOrder size) with
  | (none, s) => (0, s)
  | (some phys, s) => (phys, s.setMem (memset s.mem phys 0 (stackBytes size).toNat))

/-- The address and the order `stack_free` passes to `free_pages`. -/
def stackRelease (stack : Word) : Option (Word × Nat) :=
  if stack = 0 then none else some (stack, 0)

def stackFree (s : MM) (stack : Word) : Option MM :=
  match stackRelease stack with
  | none => some s
  | some (phys, order) => freePages s phys order

/-- A request that is served got the smallest block that can hold it and zeroed
nothing outside that block, and a request no block can hold is refused and
changes nothing. -/
structure CoversRequest (s : MM) (size : Word) : Prop where
  least : (physAlloc s size).1 ≠ 0 →
    IsLeast { order | size.toNat ≤ 2 ^ order * 4096 } (requestedOrder size)
  inside : (physAlloc s size).1 ≠ 0 → ∀ x,
    Covers (physAlloc s size).1 (zeroedBytes size) x →
      Covers (physAlloc s size).1 (2 ^ requestedOrder size * 4096) x
  refused : (∀ order < maxOrderBits, 2 ^ order * 4096 < size.toNat) →
    physAlloc s size = (0, s)

/-- A stack that is handed out lies in a block of at least the size asked for,
and `stack_free` gives back a block of the same order at the same address. -/
structure StackUndone (s : MM) (size : Word) : Prop where
  covers : (stackAlloc s size).1 ≠ 0 → size.toNat ≤ 2 ^ stackOrder size * 4096
  released : (stackAlloc s size).1 ≠ 0 →
    stackRelease (stackAlloc s size).1 = some ((stackAlloc s size).1, stackOrder size)

section Orders

theorem toNat_blockPages {order : Nat} (h : order < maxOrderBits) :
    (blockPages order).toNat = 2 ^ order := by
  have hle := two_pow_le_of_lt h
  rw [blockPages_eq, BitVec.toNat_ofNat, Nat.mod_eq_of_lt (by omega)]

theorem orderLoop_spec (pages : Word) (n order : Nat) (hcap : order + n < maxOrderBits) :
    order ≤ orderLoop pages n order ∧ orderLoop pages n order ≤ order + n ∧
      (∀ k, order ≤ k → k < orderLoop pages n order → 2 ^ k < pages.toNat) ∧
      (orderLoop pages n order < order + n → pages.toNat ≤ 2 ^ orderLoop pages n order) := by
  induction n generalizing order with
  | zero =>
      refine ⟨le_rfl, le_rfl, ?_, fun h => absurd h (lt_irrefl _)⟩
      intro k hk hlt
      exact absurd (lt_of_le_of_lt hk hlt) (lt_irrefl _)
  | succ n ih =>
      rw [orderLoop]
      split
      · rename_i hlt
        rw [BitVec.lt_def, toNat_blockPages (by omega)] at hlt
        obtain ⟨hlow, hhigh, hbefore, hstop⟩ := ih (order + 1) (by omega)
        refine ⟨by omega, by omega, ?_, fun h => hstop (by omega)⟩
        intro k hk hklt
        rcases Nat.eq_or_lt_of_le hk with rfl | hgt
        · exact hlt
        · exact hbefore k hgt hklt
      · rename_i hge
        rw [BitVec.lt_def, toNat_blockPages (by omega), Nat.not_lt] at hge
        refine ⟨le_rfl, by omega, ?_, fun _ => hge⟩
        intro k hk hlt
        exact absurd (lt_of_le_of_lt hk hlt) (lt_irrefl _)

theorem toNat_pageCount (size : Word) :
    (pageCount size).toNat = (size.toNat + 4095) % 2 ^ 64 / 4096 := by
  have hsum : size + pageSize - 1 = size + 4095 := by
    unfold pageSize
    bv_omega
  rw [pageCount, hsum, BitVec.toNat_udiv, BitVec.toNat_add]
  rfl

theorem requestedOrder_lt (size : Word) : requestedOrder size < maxOrderBits := by
  have hhigh := (orderLoop_spec (pageCount size) (maxOrderBits - 1) 0 (by decide)).2.1
  rw [requestedOrder]
  unfold maxOrderBits at hhigh ⊢
  omega

theorem two_pow_lt_pageCount {size : Word} {k : Nat} (h : k < requestedOrder size) :
    2 ^ k < (pageCount size).toNat :=
  (orderLoop_spec (pageCount size) (maxOrderBits - 1) 0 (by decide)).2.2.1 k k.zero_le h

theorem pageCount_le_of_lt_cap {size : Word} (h : requestedOrder size < 9) :
    (pageCount size).toNat ≤ 2 ^ requestedOrder size :=
  (orderLoop_spec (pageCount size) (maxOrderBits - 1) 0 (by decide)).2.2.2 h

theorem le_two_pow_requestedOrder {size : Word} {n : Nat} (h : (pageCount size).toNat ≤ 2 ^ n)
    (hn : n ≤ 9) : requestedOrder size ≤ n ∧ (pageCount size).toNat ≤ 2 ^ requestedOrder size := by
  have hle : requestedOrder size ≤ n := by
    by_contra hlt
    exact absurd (two_pow_lt_pageCount (Nat.not_le.mp hlt)) (Nat.not_lt.mpr h)
  refine ⟨hle, ?_⟩
  rcases Nat.lt_or_ge (requestedOrder size) 9 with hcap | hcap
  · exact pageCount_le_of_lt_cap hcap
  · rwa [show requestedOrder size = n by omega]

/-- A request that fits the largest block gets the smallest block that holds it,
and the zeroed pages fill no more than that block. -/
theorem requestedOrder_isLeast {size : Word} (hsize : size ≠ 0) (hfit : size.toNat ≤ 2 ^ 21) :
    IsLeast { order | size.toNat ≤ 2 ^ order * 4096 } (requestedOrder size) ∧
      zeroedBytes size ≤ 2 ^ requestedOrder size * 4096 := by
  have hpos : 0 < size.toNat :=
    Nat.pos_of_ne_zero fun hzero => hsize (BitVec.eq_of_toNat_eq hzero)
  have hcount : (pageCount size).toNat = (size.toNat + 4095) / 4096 := by
    rw [toNat_pageCount, Nat.mod_eq_of_lt (by omega)]
  have hnine : (pageCount size).toNat ≤ 2 ^ 9 := by
    rw [hcount]
    omega
  obtain ⟨-, hpages⟩ := le_two_pow_requestedOrder hnine le_rfl
  have hzeroed : zeroedBytes size = (pageCount size).toNat * 4096 := by
    rw [zeroedBytes, BitVec.toNat_mul, show pageSize.toNat = 4096 from rfl,
      Nat.mod_eq_of_lt (by rw [hcount]; omega)]
  refine ⟨⟨?_, ?_⟩, ?_⟩
  · show size.toNat ≤ 2 ^ requestedOrder size * 4096
    rw [hcount] at hpages
    omega
  · intro order horder
    by_contra hlt
    have hbefore := two_pow_lt_pageCount (Nat.not_le.mp hlt)
    have horder' : size.toNat ≤ 2 ^ order * 4096 := horder
    rw [hcount] at hbefore
    omega
  · rw [hzeroed]
    exact Nat.mul_le_mul_right _ hpages

theorem requestedOrder_of_large {size : Word} (hlarge : 2 ^ 21 < size.toNat) :
    requestedOrder size = if size.toNat + 4095 < 2 ^ 64 then 9 else 0 := by
  have hcount := toNat_pageCount size
  have hlt := size.isLt
  split
  · rename_i hsum
    rw [Nat.mod_eq_of_lt hsum] at hcount
    by_contra hne
    have hcap : requestedOrder size < 9 := by
      have hmax := requestedOrder_lt size
      unfold maxOrderBits at hmax
      omega
    have hle := pageCount_le_of_lt_cap hcap
    have hpow : 2 ^ requestedOrder size ≤ 2 ^ 9 :=
      Nat.pow_le_pow_right (by decide) hcap.le
    omega
  · rename_i hsum
    have hzero : (pageCount size).toNat ≤ 2 ^ 0 := by
      rw [hcount]
      omega
    exact Nat.le_zero.mp (le_two_pow_requestedOrder hzero (by decide)).1

end Orders

section PhysicalMemory

variable {s : MM} {size : Word}

/-- What `phys_alloc` does: it refuses and changes nothing, or it returns the
block of the order it asked for and the free pages have become fewer. -/
theorem physAlloc_cases (hsize : size ≠ 0) :
    ((∀ found, ¬ Finds s (requestedOrder size) found) ∧ physAlloc s size = (0, s)) ∨
      (∃ found, Finds s (requestedOrder size) found) ∧
        (physAlloc s size).2.buddy.freeCount ≠ s.buddy.freeCount := by
  rcases allocPages_cases s (requestedOrder size) with
    ⟨hfail, hnone⟩ | ⟨found, s', hfinds, hok, hcount, -⟩
  · refine .inl ⟨hnone, ?_⟩
    rw [physAlloc, if_neg hsize, hfail]
  · refine .inr ⟨⟨found, hfinds⟩, ?_⟩
    rw [physAlloc, if_neg hsize, hok]
    show s'.buddy.freeCount ≠ s.buddy.freeCount
    rw [hcount]
    have hpow := two_pow_le_of_lt hfinds.found_lt
    have hpos : 0 < 2 ^ found := Nat.two_pow_pos found
    have hrest := Nat.sub_le (2 ^ found) (2 ^ requestedOrder size)
    have htaken : (BitVec.ofNat 64 (2 ^ found + (2 ^ found - 2 ^ requestedOrder size))).toNat =
        2 ^ found + (2 ^ found - 2 ^ requestedOrder size) := by
      rw [BitVec.toNat_ofNat, Nat.mod_eq_of_lt (by omega)]
    intro heq
    bv_omega

theorem coversRequest_of_fit (hsize : size ≠ 0) (hfit : size.toNat ≤ 2 ^ 21) :
    CoversRequest s size := by
  obtain ⟨hleast, hzeroed⟩ := requestedOrder_isLeast hsize hfit
  refine ⟨fun _ => hleast, fun _ x hx => lt_of_lt_of_le hx hzeroed, ?_⟩
  intro hsmall
  have hnine := hsmall 9 (by decide)
  omega

theorem coversRequest_of_none (hsize : size ≠ 0)
    (hnone : ∀ found, ¬ Finds s (requestedOrder size) found) : CoversRequest s size := by
  rcases physAlloc_cases hsize with ⟨-, hrefused⟩ | ⟨⟨found, hfinds⟩, -⟩
  · have hnull : (physAlloc s size).1 = 0 := congrArg Prod.fst hrefused
    exact ⟨fun h => absurd hnull h, fun h => absurd hnull h, fun _ => hrefused⟩
  · exact absurd hfinds (hnone found)

theorem CoversRequest.not_finds (h : CoversRequest s size) (hlarge : 2 ^ 21 < size.toNat) :
    ∀ found, ¬ Finds s (requestedOrder size) found := by
  have hsize : size ≠ 0 := by
    rintro rfl
    exact absurd hlarge (by decide)
  have hrefused := h.refused fun order horder => by
    have hpow := two_pow_le_of_lt horder
    omega
  rcases physAlloc_cases (s := s) hsize with ⟨hnone, -⟩ | ⟨-, hcount⟩
  · exact hnone
  · rw [hrefused] at hcount
    exact absurd rfl hcount

/-- `phys_alloc` covers a request exactly when the request fits the largest
block, or `alloc_pages` has nothing for the order the request is cut down to. -/
theorem physAlloc_covers_iff (s : MM) (size : Word) (hsize : size ≠ 0) :
    CoversRequest s size ↔
      size.toNat ≤ 2 ^ 21 ∨
        ∀ found, ¬ Finds s (if size.toNat + 4095 < 2 ^ 64 then 9 else 0) found := by
  rcases Nat.lt_or_ge (2 ^ 21) size.toNat with hlarge | hfit
  · rw [← requestedOrder_of_large hlarge]
    constructor
    · exact fun h => .inr (h.not_finds hlarge)
    · rintro (hle | hnone)
      · exact absurd hle (Nat.not_le.mpr hlarge)
      · exact coversRequest_of_none hsize hnone
  · exact ⟨fun _ => .inl hfit, fun _ => coversRequest_of_fit hsize hfit⟩

theorem physAlloc_covers_iff_page :
    CoversRequest (mmInit (boot fun _ => 0) 0x100000 0x80000) 4096 ↔
      (4096 : Word).toNat ≤ 2 ^ 21 ∨
        ∀ found, ¬ Finds (mmInit (boot fun _ => 0) 0x100000 0x80000)
          (if (4096 : Word).toNat + 4095 < 2 ^ 64 then 9 else 0) found :=
  physAlloc_covers_iff _ 4096 (by decide)

/-- After `mm_init` a request for all but one byte of the address space is
answered with one page. -/
theorem physAlloc_all_ones_not_covered :
    ¬ ∀ (s : MM) (size : Word), size ≠ 0 → CoversRequest s size := by
  intro hall
  have hstart : alignedPoolStart 0x100000 ≠ 0 := by decide
  have hcovers := hall (mmInit (boot fun _ => 0) 0x100000 0x80000) (BitVec.allOnes 64) (by decide)
  have horder : requestedOrder (BitVec.allOnes 64) = 0 := by
    rw [requestedOrder_of_large (by decide)]
    decide
  have hnonnull : (physAlloc (mmInit (boot fun _ => 0) 0x100000 0x80000)
      (BitVec.allOnes 64)).1 ≠ 0 := by
    rw [physAlloc, if_neg (by decide), horder, allocPages_mmInit _ _ _ hstart]
    decide
  have hleast := (hcovers.least hnonnull).1
  rw [horder] at hleast
  exact absurd hleast (by decide)

end PhysicalMemory

section Stacks

variable {s : MM} {size : Word}

theorem toNat_stackBytes (size : Word) :
    (stackBytes size).toNat = (size.toNat + 4095) % 2 ^ 64 / 4096 * 4096 := by
  have hsum : size + pageSize - 1 = size + 4095 := by
    unfold pageSize
    bv_omega
  have hround := toNat_and_not_mask (size + 4095) (show 12 < 64 by decide)
  rw [stackBytes, hsum, show pageSize - 1 = BitVec.ofNat 64 (2 ^ 12 - 1) from rfl, hround,
    BitVec.toNat_add]
  rfl

theorem stackOrder_of_le_page (hsize : size ≠ 0) (hle : size.toNat ≤ 4096) :
    stackOrder size = 1 := by
  have hpos : 0 < size.toNat :=
    Nat.pos_of_ne_zero fun hzero => hsize (BitVec.eq_of_toNat_eq hzero)
  have hbytes : (stackBytes size).toNat = 4096 := by
    rw [toNat_stackBytes, Nat.mod_eq_of_lt (by omega)]
    omega
  rw [stackOrder, BitVec.toNat_udiv, hbytes]
  rfl

theorem stackAlloc_of_finds {found : Nat} (h : Finds s (stackOrder size) found) :
    (stackAlloc s size).1 =
      secondNode s found + BitVec.ofNat 64 ((2 ^ found - 2 ^ stackOrder size) * 4096) := by
  rcases allocPages_cases s (stackOrder size) with
    ⟨-, hnone⟩ | ⟨found', s', hfinds, hok, -, -⟩
  · exact absurd h (hnone found)
  · have hsame : found' = found := Option.some.inj (hfinds.2.2.2.symm.trans h.2.2.2)
    rw [stackAlloc, hok, hsame]

theorem stackAlloc_of_not_finds (h : ∀ found, ¬ Finds s (stackOrder size) found) :
    stackAlloc s size = (0, s) := by
  rw [stackAlloc, allocPages_of_not_finds h]

/-- No stack that is handed out is undone: either its order is not the zero that
`stack_free` passes on, or it is zero and the stack is larger than a page. -/
theorem not_stackUndone_of_nonnull (hsize : size ≠ 0) (hnonnull : (stackAlloc s size).1 ≠ 0) :
    ¬ StackUndone s size := by
  intro h
  have hcovers := h.covers hnonnull
  have hreleased := h.released hnonnull
  rw [stackRelease, if_neg hnonnull] at hreleased
  have horder : 0 = stackOrder size := congrArg Prod.snd (Option.some.inj hreleased)
  rw [← horder] at hcovers
  have hone := stackOrder_of_le_page hsize (by simpa using hcovers)
  omega

/-- `stack_free` undoes `stack_alloc` exactly when `stack_alloc` returned no
stack: `alloc_pages` has no block of the order asked for, or the block it hands
out starts at address zero. -/
theorem stackAlloc_undone_iff (s : MM) (size : Word) (hsize : size ≠ 0) :
    StackUndone s size ↔
      ∀ found, Finds s (stackOrder size) found →
        secondNode s found + BitVec.ofNat 64 ((2 ^ found - 2 ^ stackOrder size) * 4096) = 0 := by
  constructor
  · intro h found hfinds
    by_contra hne
    rw [← stackAlloc_of_finds hfinds] at hne
    exact not_stackUndone_of_nonnull hsize hne h
  · intro h
    have hnull : (stackAlloc s size).1 = 0 := by
      by_cases hfinds : ∃ found, Finds s (stackOrder size) found
      · obtain ⟨found, hfound⟩ := hfinds
        rw [stackAlloc_of_finds hfound]
        exact h found hfound
      · rw [stackAlloc_of_not_finds fun found hfound => hfinds ⟨found, hfound⟩]
    exact ⟨fun hne => absurd hnull hne, fun hne => absurd hnull hne⟩

theorem stackAlloc_undone_iff_page :
    StackUndone twoBlocks 4096 ↔
      ∀ found, Finds twoBlocks (stackOrder 4096) found →
        secondNode twoBlocks found +
          BitVec.ofNat 64 ((2 ^ found - 2 ^ stackOrder 4096) * 4096) = 0 :=
  stackAlloc_undone_iff twoBlocks 4096 (by decide)

/-- A stack of one page is taken as a block of two pages, and one page is given
back. -/
theorem stackAlloc_page_not_undone :
    ¬ ∀ (s : MM) (size : Word), size ≠ 0 → StackUndone s size := by
  intro hall
  have hfinds : Finds twoBlocks (stackOrder 4096) 1 := by
    rw [stackOrder_of_le_page (by decide) (by decide)]
    exact ⟨rfl, by decide, by decide, by decide⟩
  have hnonnull : (stackAlloc twoBlocks 4096).1 ≠ 0 := by
    rw [stackAlloc_of_finds hfinds, secondNode_twoBlocks,
      stackOrder_of_le_page (by decide) (by decide)]
    decide
  exact not_stackUndone_of_nonnull (by decide) hnonnull (hall twoBlocks 4096 (by decide))

end Stacks

end ShlteOs.PageRequests

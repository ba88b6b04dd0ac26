import ShlteOs.ByteMemory

/-!
`memmove`.  The direction of the copy is chosen by comparing the pointers, so
that no source byte is overwritten before it has been read.
-/

namespace ShlteOs.MemoryMoves

open ShlteOs.ByteMemory

/-- `while (n--) *--d = *--s;` -/
def copyDown (m : Memory) (d s : Word) : Nat → Memory
  | 0 => m
  | n + 1 => copyDown (storeByte m (d - 1) (m (s - 1))) (d - 1) (s - 1) n

/-- The loop upwards is the one of `memcpy`. -/
def memmove (m : Memory) (dst src : Word) (n : Nat) : Memory :=
  if dst < src then memcpy m dst src n
  else copyDown m (dst + BitVec.ofNat 64 n) (src + BitVec.ofNat 64 n) n

/-- The bytes of the source before the call are at the destination after it, and
every other byte is as before. -/
structure Moved (m m' : Memory) (dst src : Word) (n : Nat) : Prop where
  bytes : ∀ i < n, m' (dst + BitVec.ofNat 64 i) = m (src + BitVec.ofNat 64 i)
  frame : ∀ x, ¬ Covers dst n x → m' x = m x

theorem Moved.unique {m m₁ m₂ : Memory} {dst src : Word} {n : Nat} (h₁ : Moved m m₁ dst src n)
    (h₂ : Moved m m₂ dst src n) : m₁ = m₂ := by
  funext x
  by_cases hx : Covers dst n x
  · obtain ⟨i, hi, rfl⟩ := hx.exists_add
    rw [h₁.bytes i hi, h₂.bytes i hi]
  · rw [h₁.frame x hx, h₂.frame x hx]

section Down

variable {m : Memory} {dst src x : Word} {n : Nat}

theorem add_succ_sub_one (p : Word) (n : Nat) :
    p + BitVec.ofNat 64 (n + 1) - 1 = p + BitVec.ofNat 64 n := by
  rw [BitVec.ofNat_add, ← BitVec.add_assoc]
  exact BitVec.add_sub_cancel _ _

theorem copyDown_succ :
    copyDown m (dst + BitVec.ofNat 64 (n + 1)) (src + BitVec.ofNat 64 (n + 1)) (n + 1) =
      copyDown (storeByte m (dst + BitVec.ofNat 64 n) (m (src + BitVec.ofNat 64 n)))
        (dst + BitVec.ofNat 64 n) (src + BitVec.ofNat 64 n) n := by
  rw [copyDown, add_succ_sub_one, add_succ_sub_one]

theorem copyDown_of_ne (h : ∀ i < n, x ≠ dst + BitVec.ofNat 64 i) :
    copyDown m (dst + BitVec.ofNat 64 n) (src + BitVec.ofNat 64 n) n x = m x := by
  induction n generalizing m with
  | zero => rfl
  | succ n ih =>
      rw [copyDown_succ, ih fun i hi => h i (Nat.lt_succ_of_lt hi), storeByte,
        if_neg (h n (Nat.lt_succ_self n))]

theorem copyDown_add {k : Nat} (hn : n ≤ 2 ^ 64) (hk : k < n)
    (hsource : ∀ i, k < i → i < n → src + BitVec.ofNat 64 k ≠ dst + BitVec.ofNat 64 i) :
    copyDown m (dst + BitVec.ofNat 64 n) (src + BitVec.ofNat 64 n) n (dst + BitVec.ofNat 64 k) =
      m (src + BitVec.ofNat 64 k) := by
  induction n generalizing m with
  | zero => exact absurd hk (Nat.not_lt_zero k)
  | succ n ih =>
      rw [copyDown_succ]
      rcases Nat.lt_succ_iff_lt_or_eq.mp hk with hlt | rfl
      · rw [ih (by omega) hlt fun i hi hin => hsource i hi (Nat.lt_succ_of_lt hin), storeByte,
          if_neg (hsource n hlt (Nat.lt_succ_self n))]
      · rw [copyDown_of_ne, storeByte, if_pos rfl]
        intro i hi heq
        have hval := congrArg BitVec.toNat (BitVec.add_right_inj dst |>.mp heq)
        rw [BitVec.toNat_ofNat, BitVec.toNat_ofNat] at hval
        omega

end Down

section Directions

variable {m : Memory} {dst src : Word} {n : Nat}

theorem toNat_add_of_lt {p : Word} {i : Nat} (hp : p.toNat + n ≤ 2 ^ 64) (hi : i < n) :
    (p + BitVec.ofNat 64 i).toNat = p.toNat + i := by
  rw [BitVec.toNat_add, BitVec.toNat_ofNat]
  omega

/-- Upwards is safe when no byte is the destination of an earlier one. -/
theorem moved_memcpy (hn : n ≤ 2 ^ 64)
    (hsafe : ∀ i < n, ¬ Covers dst i (src + BitVec.ofNat 64 i)) :
    Moved m (memcpy m dst src n) dst src n :=
  ⟨fun i hi => memcpy_add hn hi (hsafe i hi), fun _ hx => memcpy_of_not_covers hn hx⟩

theorem moved_copyDown (hn : n ≤ 2 ^ 64)
    (hsafe : ∀ k i, k < i → i < n → src + BitVec.ofNat 64 k ≠ dst + BitVec.ofNat 64 i) :
    Moved m (copyDown m (dst + BitVec.ofNat 64 n) (src + BitVec.ofNat 64 n) n) dst src n := by
  refine ⟨fun k hk => copyDown_add hn hk fun i => hsafe k i, fun x hx => copyDown_of_ne ?_⟩
  rintro i hi rfl
  exact hx (covers_add hi)

theorem moved_memcpy_of_le (hdst : dst.toNat + n ≤ 2 ^ 64) (hsrc : src.toNat + n ≤ 2 ^ 64)
    (h : dst ≤ src) : Moved m (memcpy m dst src n) dst src n := by
  apply moved_memcpy (by omega)
  intro i hi hcovers
  have hsource := toNat_add_of_lt hsrc hi
  rw [BitVec.le_def] at h
  rw [Covers, BitVec.toNat_sub, hsource] at hcovers
  omega

theorem moved_memcpy_of_apart (hn : n ≤ 2 ^ 64) (h : Apart dst n src n) :
    Moved m (memcpy m dst src n) dst src n :=
  moved_memcpy hn fun _ hi hcovers => h _ (lt_of_lt_of_le hcovers hi.le) (covers_add hi)

theorem moved_memmove (hdst : dst.toNat + n ≤ 2 ^ 64) (hsrc : src.toNat + n ≤ 2 ^ 64) :
    Moved m (memmove m dst src n) dst src n := by
  rw [memmove]
  split
  · rename_i hlt
    exact moved_memcpy_of_le hdst hsrc (BitVec.le_of_lt hlt)
  · rename_i hge
    have hle : src.toNat ≤ dst.toNat := Nat.not_lt.mp hge
    apply moved_copyDown (by omega)
    intro k i hki hi heq
    have hval := congrArg BitVec.toNat heq
    rw [toNat_add_of_lt hsrc (hki.trans hi), toNat_add_of_lt hdst hi] at hval
    omega

/-- `memmove` moves its bytes however the two ranges overlap, and `memcpy` does the
same when the destination is not above the source or the ranges are apart. -/
theorem memmove_correct (m : Memory) (dst src : Word) (n : Nat) (hdst : dst.toNat + n ≤ 2 ^ 64)
    (hsrc : src.toNat + n ≤ 2 ^ 64) :
    (∀ i < n, memmove m dst src n (dst + BitVec.ofNat 64 i) = m (src + BitVec.ofNat 64 i)) ∧
      (∀ x, ¬ Covers dst n x → memmove m dst src n x = m x) ∧
      (dst ≤ src ∨ Apart dst n src n → memcpy m dst src n = memmove m dst src n) := by
  have hmoved := moved_memmove (m := m) hdst hsrc
  refine ⟨hmoved.bytes, hmoved.frame, ?_⟩
  rintro (hle | hapart)
  · exact (moved_memcpy_of_le hdst hsrc hle).unique hmoved
  · exact (moved_memcpy_of_apart (by omega) hapart).unique hmoved

theorem memmove_correct_overlap :
    (∀ i < 2, memmove (fun x => x.setWidth 8) 0x1001 0x1000 2 (0x1001 + BitVec.ofNat 64 i) =
        (0x1000 + BitVec.ofNat 64 i).setWidth 8) ∧
      (∀ x, ¬ Covers 0x1001 2 x →
        memmove (fun x => x.setWidth 8) 0x1001 0x1000 2 x = x.setWidth 8) ∧
      ((0x1001 : Word) ≤ 0x1000 ∨ Apart 0x1001 2 0x1000 2 →
        memcpy (fun x => x.setWidth 8) 0x1001 0x1000 2 =
          memmove (fun x => x.setWidth 8) 0x1001 0x1000 2) :=
  memmove_correct (fun x => x.setWidth 8) 0x1001 0x1000 2 (by decide) (by decide)

end Directions

end ShlteOs.MemoryMoves

import Mathlib.Data.BitVec
import Mathlib.Tactic.IntervalCases
import Mathlib.Tactic.Ring

/-!
A flat byte-addressed memory over a 64-bit address space, with little-endian
words of eight bytes and the two byte loops every C runtime has.  Addresses
wrap: the byte `i` behind `a` is `a + i` modulo `2 ^ 64`, and a range is
described by the distance of an address from its base, so no lemma has to
assume that a range ends before the address space does.
-/

namespace ShlteOs.ByteMemory

abbrev Word := BitVec 64

abbrev Byte := BitVec 8

/-- A flat memory of 2^64 bytes; addresses wrap around. -/
abbrev Memory := Word → Byte

/-- The address `x` is one of the `n` bytes from `base` on. -/
def Covers (base : Word) (n : Nat) (x : Word) : Prop := (x - base).toNat < n

instance (base : Word) (n : Nat) (x : Word) : Decidable (Covers base n x) :=
  inferInstanceAs (Decidable (_ < _))

/-- No address lies in both ranges. -/
def Apart (a : Word) (n : Nat) (b : Word) (k : Nat) : Prop :=
  ∀ x, Covers a n x → ¬ Covers b k x

theorem Apart.symm {a b : Word} {n k : Nat} (h : Apart a n b k) :
    Apart b k a n :=
  fun x hb ha => h x ha hb

theorem covers_self {base : Word} {n : Nat} (h : 0 < n) : Covers base n base := by
  simpa [Covers] using h

theorem add_ofNat_sub_self (a : Word) (i : Nat) :
    a + BitVec.ofNat 64 i - a = BitVec.ofNat 64 i := by
  rw [BitVec.add_comm, BitVec.add_sub_cancel]

theorem add_ofNat_succ (a : Word) (i : Nat) :
    a + BitVec.ofNat 64 (i + 1) = a + 1 + BitVec.ofNat 64 i := by
  rw [BitVec.ofNat_add, BitVec.add_comm (BitVec.ofNat 64 i), ← BitVec.add_assoc]
  rfl

theorem covers_add {base : Word} {n i : Nat} (hi : i < n) :
    Covers base n (base + BitVec.ofNat 64 i) := by
  rw [Covers, add_ofNat_sub_self, BitVec.toNat_ofNat]
  exact lt_of_le_of_lt (Nat.mod_le _ _) hi

theorem Covers.exists_add {base x : Word} {n : Nat} (h : Covers base n x) :
    ∃ i < n, x = base + BitVec.ofNat 64 i := by
  refine ⟨(x - base).toNat, h, ?_⟩
  rw [BitVec.ofNat_toNat, BitVec.setWidth_eq]
  ring

/-- A range inside another one: the inner base lies `d` bytes behind the outer
base and the inner range ends no later. -/
theorem Covers.mono {outer inner x : Word} {n k d : Nat}
    (hd : (inner - outer).toNat = d) (hfit : d + k ≤ n)
    (h : Covers inner k x) : Covers outer n x := by
  have hsplit : x - outer = (inner - outer) + (x - inner) := by
    apply BitVec.eq_of_toNat_eq
    simp only [BitVec.toNat_sub, BitVec.toNat_add]
    omega
  simp only [Covers, hsplit, BitVec.toNat_add, hd] at *
  omega

theorem and_add_and_not (x m : Word) : (x &&& m) + (x &&& ~~~m) = x := by
  have hzero : (x &&& m) &&& (x &&& ~~~m) = 0#64 := by
    ext i hi
    simp only [BitVec.getElem_and, BitVec.getElem_not, BitVec.getElem_zero]
    cases x[i] <;> cases m[i] <;> rfl
  rw [BitVec.add_eq_or_of_and_eq_zero _ _ hzero]
  ext i hi
  simp only [BitVec.getElem_or, BitVec.getElem_and, BitVec.getElem_not]
  cases x[i] <;> cases m[i] <;> rfl

theorem toNat_and_not_mask (x : Word) {k : Nat} (hk : k < 64) :
    (x &&& ~~~(BitVec.ofNat 64 (2 ^ k - 1))).toNat = x.toNat / 2 ^ k * 2 ^ k := by
  have hpow : 2 ^ k - 1 < 2 ^ 64 :=
    lt_of_le_of_lt (Nat.sub_le _ _) (Nat.pow_lt_pow_right (by decide) hk)
  have hmask : (x &&& BitVec.ofNat 64 (2 ^ k - 1)).toNat = x.toNat % 2 ^ k := by
    rw [BitVec.toNat_and, BitVec.toNat_ofNat, Nat.mod_eq_of_lt hpow]
    exact Nat.and_two_pow_sub_one_eq_mod x.toNat k
  have hle : (x &&& ~~~(BitVec.ofNat 64 (2 ^ k - 1))).toNat ≤ x.toNat := by
    rw [BitVec.toNat_and]
    exact Nat.and_le_left
  have hsum := congrArg BitVec.toNat (and_add_and_not x (BitVec.ofNat 64 (2 ^ k - 1)))
  have hdiv := Nat.div_add_mod' x.toNat (2 ^ k)
  have hlt := x.isLt
  rw [BitVec.toNat_add, hmask] at hsum
  generalize x.toNat / 2 ^ k * 2 ^ k = z at *
  generalize x.toNat % 2 ^ k = y at *
  omega

/-- The byte of a word at an offset, the least significant one first. -/
def wordByte (v : Word) (i : Nat) : Byte := v.extractLsb' (8 * i) 8

/-- A little-endian load of eight bytes. -/
def load (m : Memory) (a : Word) : Word :=
  m (a + 7) ++ m (a + 6) ++ m (a + 5) ++ m (a + 4) ++
    m (a + 3) ++ m (a + 2) ++ m (a + 1) ++ m a

def storeByte (m : Memory) (a : Word) (v : Byte) : Memory :=
  fun x => if x = a then v else m x

/-- A little-endian store of eight bytes. -/
def store (m : Memory) (a v : Word) : Memory :=
  fun x => if Covers a 8 x then wordByte v (x - a).toNat else m x

theorem store_of_not_covers {m : Memory} {a v x : Word} (h : ¬ Covers a 8 x) :
    store m a v x = m x :=
  if_neg h

theorem store_add {m : Memory} {a v : Word} {i : Nat} (hi : i < 8) :
    store m a v (a + BitVec.ofNat 64 i) = wordByte v i := by
  have hval : (BitVec.ofNat 64 i).toNat = i := by
    rw [BitVec.toNat_ofNat]
    omega
  rw [store, if_pos (covers_add hi), add_ofNat_sub_self, hval]

theorem wordBytes_append (v : Word) :
    (wordByte v 7 ++ wordByte v 6 ++ wordByte v 5 ++ wordByte v 4 ++
      wordByte v 3 ++ wordByte v 2 ++ wordByte v 1 ++ wordByte v 0 : Word) = v := by
  apply BitVec.eq_of_getLsbD_eq
  intro i hi
  simp only [wordByte, BitVec.getLsbD_append, BitVec.getLsbD_extractLsb']
  interval_cases i <;> simp

theorem load_ext {m m' : Memory} {a b : Word}
    (hbyte : ∀ i, i < 8 → m (a + BitVec.ofNat 64 i) = m' (b + BitVec.ofNat 64 i)) :
    load m a = load m' b := by
  have h0 := hbyte 0 (by omega)
  have h1 := hbyte 1 (by omega)
  have h2 := hbyte 2 (by omega)
  have h3 := hbyte 3 (by omega)
  have h4 := hbyte 4 (by omega)
  have h5 := hbyte 5 (by omega)
  have h6 := hbyte 6 (by omega)
  have h7 := hbyte 7 (by omega)
  simp only [BitVec.add_zero] at h0
  simp only [load, BitVec.ofNat_eq_ofNat, h0, h1, h2, h3, h4, h5, h6, h7]

theorem load_congr {m m' : Memory} {a : Word}
    (h : ∀ x, Covers a 8 x → m x = m' x) : load m a = load m' a :=
  load_ext fun _ hi => h _ (covers_add hi)

theorem byte_append_zero {w : Nat} (high : BitVec w) (low : Byte) :
    (high ++ low).extractLsb' (8 * 0) 8 = low :=
  BitVec.extractLsb'_append_eq_right

theorem byte_append_succ {w : Nat} (high : BitVec w) (low : Byte) (i : Nat) :
    (high ++ low).extractLsb' (8 * (i + 1)) 8 = high.extractLsb' (8 * i) 8 := by
  rw [BitVec.extractLsb'_append_eq_of_le (by omega)]
  rfl

theorem wordByte_load (m : Memory) (a : Word) {i : Nat} (hi : i < 8) :
    wordByte (load m a) i = m (a + BitVec.ofNat 64 i) := by
  interval_cases i
  · rw [BitVec.add_zero]
    exact byte_append_zero _ _
  -- The highest byte has nothing in front of it.
  on_goal 7 =>
    iterate 7 refine (byte_append_succ _ _ _).trans ?_
    exact BitVec.extractLsb'_eq_self
  all_goals
    repeat refine (byte_append_succ _ _ _).trans ?_
    exact byte_append_zero _ _

@[simp] theorem load_store_same (m : Memory) (a v : Word) :
    load (store m a v) a = v := by
  have hbyte : ∀ i, i < 8 → store m a v (a + BitVec.ofNat 64 i) = wordByte v i :=
    fun i hi => store_add hi
  have h0 := hbyte 0 (by omega)
  have h1 := hbyte 1 (by omega)
  have h2 := hbyte 2 (by omega)
  have h3 := hbyte 3 (by omega)
  have h4 := hbyte 4 (by omega)
  have h5 := hbyte 5 (by omega)
  have h6 := hbyte 6 (by omega)
  have h7 := hbyte 7 (by omega)
  simp only [BitVec.add_zero] at h0
  simp only [load, BitVec.ofNat_eq_ofNat, h0, h1, h2, h3, h4, h5, h6, h7]
  exact wordBytes_append v

theorem load_store_apart {m : Memory} {a b v : Word} (h : Apart a 8 b 8) :
    load (store m b v) a = load m a :=
  load_congr fun x hx => store_of_not_covers (h x hx)

theorem apart_of_le_sub {a b : Word} {n k : Nat} (hab : k ≤ (a - b).toNat)
    (hba : n ≤ (b - a).toNat) : Apart a n b k := by
  intro x ha hb
  simp only [Covers, BitVec.toNat_sub] at *
  omega

theorem close_of_covers {a b c x y : Word} {n k : Nat} (hn : n + k ≤ 2 ^ 63)
    (hxa : Covers a k x) (hxc : Covers c n x) (hyb : Covers b k y) (hyc : Covers c n y) :
    (a - b).toNat < n + k ∨ 2 ^ 64 - (n + k) < (a - b).toNat := by
  have hsum : (a - b) + (x - a) + (y - c) = (x - c) + (y - b) := by ring
  have hval := congrArg BitVec.toNat hsum
  simp only [Covers] at *
  rw [BitVec.toNat_add, BitVec.toNat_add, BitVec.toNat_add] at hval
  generalize (a - b).toNat = d at *
  generalize (x - a).toNat = u at *
  generalize (y - c).toNat = v at *
  omega

/-- An array of words, stored from its first element on. -/
def storeArray (m : Memory) (base : Word) (f : Nat → Word) (n : Nat) : Memory :=
  (List.range n).foldl (fun m i => store m (base + BitVec.ofNat 64 i * 8) (f i)) m

theorem storeArray_zero (m : Memory) (base : Word) (f : Nat → Word) :
    storeArray m base f 0 = m := rfl

theorem storeArray_succ (m : Memory) (base : Word) (f : Nat → Word) (n : Nat) :
    storeArray m base f (n + 1) =
      store (storeArray m base f n) (base + BitVec.ofNat 64 n * 8) (f n) := by
  simp [storeArray, List.range_succ]

theorem apart_slots {base : Word} {i j n : Nat} (hij : i ≠ j) (hi : i < n) (hj : j < n)
    (hn : n * 8 ≤ 2 ^ 64) :
    Apart (base + BitVec.ofNat 64 i * 8) 8 (base + BitVec.ofNat 64 j * 8) 8 := by
  have height : (8 : Word).toNat = 8 := rfl
  apply apart_of_le_sub
  · simp only [BitVec.toNat_sub, BitVec.toNat_add, BitVec.toNat_mul, BitVec.toNat_ofNat,
      height]
    omega
  · simp only [BitVec.toNat_sub, BitVec.toNat_add, BitVec.toNat_mul, BitVec.toNat_ofNat,
      height]
    omega

theorem covers_slot {base x : Word} {i n : Nat} (hi : i * 8 + 8 ≤ n) (hn : n ≤ 2 ^ 64)
    (h : Covers (base + BitVec.ofNat 64 i * 8) 8 x) : Covers base n x := by
  have height : (8 : Word).toNat = 8 := rfl
  refine h.mono (d := i * 8) ?_ hi
  rw [BitVec.add_comm, BitVec.add_sub_cancel, BitVec.toNat_mul, BitVec.toNat_ofNat, height]
  omega

theorem load_storeArray {m : Memory} {base : Word} {f : Nat → Word} {n i : Nat}
    (hi : i < n) (hn : n * 8 ≤ 2 ^ 64) :
    load (storeArray m base f n) (base + BitVec.ofNat 64 i * 8) = f i := by
  induction n with
  | zero => omega
  | succ n ih =>
      rw [storeArray_succ]
      by_cases hlast : i = n
      · rw [hlast, load_store_same]
      · rw [load_store_apart (apart_slots hlast hi (Nat.lt_succ_self n) hn)]
        exact ih (by omega) (by omega)

theorem storeArray_of_not_covers {m : Memory} {base x : Word} {f : Nat → Word} {n : Nat}
    (hn : n * 8 ≤ 2 ^ 64) (h : ¬ Covers base (n * 8) x) :
    storeArray m base f n x = m x := by
  induction n with
  | zero => rfl
  | succ n ih =>
      have height : (8 : Word).toNat = 8 := rfl
      have hslot : ¬ Covers (base + BitVec.ofNat 64 n * 8) 8 x := by
        simp only [Covers, BitVec.toNat_sub, BitVec.toNat_add, BitVec.toNat_mul,
          BitVec.toNat_ofNat, height] at *
        omega
      rw [storeArray_succ, store_of_not_covers hslot]
      apply ih (by omega)
      simp only [Covers] at *
      omega

theorem not_covers_succ {p x : Word} {n : Nat} (h : ¬ Covers p (n + 1) x) :
    x ≠ p ∧ ¬ Covers (p + 1) n x := by
  have hone : (1 : Word).toNat = 1 := rfl
  refine ⟨?_, ?_⟩
  · rintro rfl
    exact h (covers_self (Nat.succ_pos n))
  · simp only [Covers, BitVec.toNat_sub, BitVec.toNat_add, hone] at *
    omega

theorem not_covers_behind {p : Word} {n : Nat} (hn : n < 2 ^ 64) : ¬ Covers (p + 1) n p := by
  have hone : (1 : Word).toNat = 1 := rfl
  simp only [Covers, BitVec.toNat_sub, BitVec.toNat_add, hone]
  omega

/-- The loop of `memset`, a byte at a time. -/
def memset (m : Memory) (p : Word) (c : Byte) : Nat → Memory
  | 0 => m
  | n + 1 => memset (storeByte m p c) (p + 1) c n

/-- `memcpy`: `n` single-byte moves from `src` to `dst`, lowest address first,
each one reading what the earlier ones left. -/
def memcpy (m : Memory) (dst src : Word) : Nat → Memory
  | 0 => m
  | n + 1 => memcpy (storeByte m dst (m src)) (dst + 1) (src + 1) n

theorem memset_of_not_covers {m : Memory} {p x : Word} {c : Byte} {n : Nat}
    (hn : n ≤ 2 ^ 64) (h : ¬ Covers p n x) : memset m p c n x = m x := by
  induction n generalizing m p with
  | zero => rfl
  | succ n ih =>
      obtain ⟨hhead, htail⟩ := not_covers_succ h
      rw [memset, ih (by omega) htail, storeByte, if_neg hhead]

theorem memset_of_covers {m : Memory} {p x : Word} {c : Byte} {n : Nat}
    (hn : n ≤ 2 ^ 64) (h : Covers p n x) : memset m p c n x = c := by
  have hone : (1 : Word).toNat = 1 := rfl
  induction n generalizing m p with
  | zero => exact absurd h (Nat.not_lt_zero _)
  | succ n ih =>
      rw [memset]
      by_cases hx : x = p
      · rw [hx, memset_of_not_covers (by omega) (not_covers_behind (by omega)), storeByte,
          if_pos rfl]
      · have hne : x.toNat ≠ p.toNat := fun heq => hx (BitVec.eq_of_toNat_eq heq)
        apply ih (by omega)
        simp only [Covers, BitVec.toNat_sub, BitVec.toNat_add, hone] at *
        omega

theorem memcpy_of_not_covers {m : Memory} {dst src x : Word} {n : Nat} (hn : n ≤ 2 ^ 64)
    (h : ¬ Covers dst n x) : memcpy m dst src n x = m x := by
  induction n generalizing m dst src with
  | zero => rfl
  | succ n ih =>
      obtain ⟨hhead, htail⟩ := not_covers_succ h
      rw [memcpy, ih (by omega) htail, storeByte, if_neg hhead]

theorem memcpy_add {m : Memory} {dst src : Word} {n k : Nat} (hn : n ≤ 2 ^ 64) (hk : k < n)
    (hsource : ¬ Covers dst k (src + BitVec.ofNat 64 k)) :
    memcpy m dst src n (dst + BitVec.ofNat 64 k) = m (src + BitVec.ofNat 64 k) := by
  induction n generalizing m dst src k with
  | zero => omega
  | succ n ih =>
      cases k with
      | zero =>
          rw [BitVec.add_zero, BitVec.add_zero, memcpy,
            memcpy_of_not_covers (by omega) (not_covers_behind (by omega)), storeByte, if_pos rfl]
      | succ k =>
          have hne : src + BitVec.ofNat 64 (k + 1) ≠ dst := by
            intro heq
            rw [heq] at hsource
            exact hsource (covers_self (Nat.succ_pos k))
          rw [add_ofNat_succ] at hsource hne
          rw [memcpy, add_ofNat_succ dst, ih (by omega) (by omega), storeByte, if_neg hne,
            add_ofNat_succ src]
          intro hcovers
          refine hsource (hcovers.mono (d := 1) ?_ (by omega))
          rw [BitVec.add_comm, BitVec.add_sub_cancel]
          rfl

theorem load_of_zero {m : Memory} {a : Word} (h : ∀ x, Covers a 8 x → m x = 0) :
    load m a = 0 := by
  have hzero : load (fun _ => 0) a = 0 := by
    rw [load]
    decide
  rw [← hzero]
  exact load_congr h

theorem load_memset_zero {m : Memory} {a p : Word} {n : Nat} (ha : a.toNat % 8 = 0)
    (hp : p.toNat % 8 = 0) (hn : n % 8 = 0) (hle : n ≤ 2 ^ 64) :
    load (memset m p 0 n) a = load m a ∨ load (memset m p 0 n) a = 0 := by
  have hmod : (a - p).toNat % 8 = 0 := by
    rw [BitVec.toNat_sub]
    omega
  have hlt := (a - p).isLt
  have hsum : ∀ x, Covers a 8 x → (x - p).toNat = (x - a).toNat + (a - p).toNat := by
    intro x hx
    have hbyte : (x - a).toNat < 8 := hx
    have hsplit : x - p = (x - a) + (a - p) := by ring
    rw [hsplit, BitVec.toNat_add, Nat.mod_eq_of_lt]
    omega
  by_cases hin : Covers p n a
  · refine .inr (load_of_zero fun x hx => memset_of_covers hle ?_)
    have hword : (a - p).toNat < n := hin
    have hbyte : (x - a).toNat < 8 := hx
    rw [Covers, hsum x hx]
    omega
  · refine .inl (load_congr fun x hx => memset_of_not_covers hle ?_)
    rw [Covers, not_lt] at hin
    rw [Covers, hsum x hx]
    omega

end ShlteOs.ByteMemory

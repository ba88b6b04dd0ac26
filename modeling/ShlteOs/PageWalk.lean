import ShlteOs.ByteMemory

/-!
Translation by a radix tree of page tables over 48-bit virtual addresses: four
levels of 512 descriptors, nine address bits each, above a page of 4 KiB.  What
a descriptor means at a level is a parameter; the walk, and reading entries of
tables that do not overlap, are the same on every machine that uses this shape.
-/

namespace ShlteOs.PageWalk

open ShlteOs.ByteMemory

abbrev VirtualAddress := BitVec 48

/-- What an entry of a table says. -/
inductive Descriptor
  | absent
  | table (next : Word)
  | leaf (frame : Word)

/-- The meaning of a descriptor.  Levels are counted from the last one, so that
a walk starts at level 3 and level 0 maps pages of 4 KiB. -/
abbrev Format := Nat → Word → Descriptor

def shift (level : Nat) : Nat := 12 + 9 * level

/-- The number of the entry an address selects at a level. -/
def index (level : Nat) (va : VirtualAddress) : Nat := va.toNat / 2 ^ shift level % 512

/-- The bits of an address that are left for a leaf of this level. -/
def offset (level : Nat) (va : VirtualAddress) : Nat := va.toNat % 2 ^ shift level

/-- Bits `hi - 1` to `lo` of a descriptor, in place. -/
def field (hi lo : Nat) (e : Word) : Word :=
  BitVec.ofNat 64 (e.toNat % 2 ^ hi / 2 ^ lo * 2 ^ lo)

def entry (m : Memory) (table : Word) (i : Nat) : Word :=
  load m (table + BitVec.ofNat 64 i * 8)

/-- The descriptors a walk read and the physical address it gave, if any. -/
structure Walk where
  visited : List Word
  phys : Option Word

def leafAddress (frame : Word) (level : Nat) (va : VirtualAddress) : Word :=
  frame + BitVec.ofNat 64 (offset level va)

/-- The walk of the hardware from a level down, with the entries it reads. -/
def walk (format : Format) (m : Memory) (va : VirtualAddress) : Nat → Word → Walk
  | 0, table =>
      let e := entry m table (index 0 va)
      match format 0 e with
      | .leaf frame => { visited := [e], phys := some (leafAddress frame 0 va) }
      | _ => { visited := [e], phys := none }
  | level + 1, table =>
      let e := entry m table (index (level + 1) va)
      match format (level + 1) e with
      | .absent => { visited := [e], phys := none }
      | .leaf frame => { visited := [e], phys := some (leafAddress frame (level + 1) va) }
      | .table next =>
          let rest := walk format m va level next
          { visited := e :: rest.visited, phys := rest.phys }

section Walk

variable {format : Format} {m : Memory} {va : VirtualAddress} {level : Nat} {table e : Word}

theorem walk_of_absent (he : entry m table (index level va) = e)
    (h : format level e = .absent) :
    walk format m va level table = { visited := [e], phys := none } := by
  subst he
  cases level with
  | zero => simp only [walk, h]
  | succ level => simp only [walk, h]

theorem walk_of_leaf {frame : Word} (he : entry m table (index level va) = e)
    (h : format level e = .leaf frame) :
    walk format m va level table =
      { visited := [e], phys := some (leafAddress frame level va) } := by
  subst he
  cases level with
  | zero => simp only [walk, h]
  | succ level => simp only [walk, h]

theorem walk_of_table {next : Word} (he : entry m table (index (level + 1) va) = e)
    (h : format (level + 1) e = .table next) :
    walk format m va (level + 1) table =
      { visited := e :: (walk format m va level next).visited
        phys := (walk format m va level next).phys } := by
  subst he
  simp only [walk, h]

theorem walk_visited_ne_nil (level : Nat) (table : Word) :
    (walk format m va level table).visited ≠ [] := by
  cases level with
  | zero =>
      rw [walk]
      split <;> exact List.cons_ne_nil _ _
  | succ level =>
      rw [walk]
      split <;> exact List.cons_ne_nil _ _

theorem index_lt (level : Nat) (va : VirtualAddress) : index level va < 512 :=
  Nat.mod_lt _ (by decide)

end Walk

/-- Two memories hold the same table. -/
def SameTable (table : Word) (m m' : Memory) : Prop :=
  ∀ x, Covers table 4096 x → m x = m' x

theorem SameTable.trans {table : Word} {m m' m'' : Memory} (h : SameTable table m m')
    (h' : SameTable table m' m'') : SameTable table m m'' :=
  fun x hx => (h x hx).trans (h' x hx)

theorem SameTable.entry {table : Word} {m m' : Memory} (h : SameTable table m m') {i : Nat}
    (hi : i < 512) : entry m table i = entry m' table i :=
  load_congr fun x hx => h x (covers_slot (by omega) (by omega) hx)

theorem apart_tables {p q : Word} (hp : p.toNat % 4096 = 0) (hq : q.toNat % 4096 = 0)
    (hne : p ≠ q) : Apart p 4096 q 4096 := by
  have hval : p.toNat ≠ q.toNat := fun h => hne (BitVec.eq_of_toNat_eq h)
  apply apart_of_le_sub
  · rw [BitVec.toNat_sub]
    omega
  · rw [BitVec.toNat_sub]
    omega

theorem sameTable_store {p q v : Word} {m : Memory} {i : Nat} (h : Apart p 4096 q 4096)
    (hi : i < 512) : SameTable p (store m (q + BitVec.ofNat 64 i * 8) v) m :=
  fun x hx => store_of_not_covers fun hq => h x hx (covers_slot (by omega) (by omega) hq)

theorem sameTable_storeArray {p q : Word} {m : Memory} {f : Nat → Word}
    (h : Apart p 4096 q 4096) : SameTable p (storeArray m q f 512) m :=
  fun x hx => storeArray_of_not_covers (by omega) (h x hx)

theorem entry_storeArray {m : Memory} {table : Word} {f : Nat → Word} {n i : Nat}
    (hi : i < n) (hn : n ≤ 512) : entry (storeArray m table f n) table i = f i :=
  load_storeArray hi (by omega)

theorem entry_storeArray_of_le {m : Memory} {table : Word} {f : Nat → Word} {n i : Nat}
    (hi : i < 512) (hle : n ≤ i) : entry (storeArray m table f n) table i = entry m table i := by
  induction n with
  | zero => rfl
  | succ n ih =>
      rw [storeArray_succ, entry, load_store_apart, ← entry, ih (by omega)]
      exact apart_slots (by omega) hi (by omega) (by decide)

theorem entry_of_zero {m : Memory} {table : Word} {i : Nat} (hi : i < 512)
    (h : ∀ x, Covers table 4096 x → m x = 0) : entry m table i = 0 :=
  load_of_zero fun x hx => h x (covers_slot (by omega) (by omega) hx)

theorem toNat_or_flags {a f : Word} {k : Nat} (ha : a.toNat % 2 ^ k = 0)
    (hf : f.toNat < 2 ^ k) : (a ||| f).toNat = a.toNat + f.toNat := by
  obtain ⟨c, hc⟩ := Nat.dvd_of_mod_eq_zero ha
  rw [BitVec.toNat_or, hc, Nat.two_pow_add_eq_or_of_lt hf]

theorem field_or_flags {a f : Word} {hi lo k : Nat} (ha : a.toNat % 2 ^ lo = 0)
    (ha' : a.toNat < 2 ^ hi) (hf : f.toNat < 2 ^ k) (hk : k ≤ lo) (hlo : lo ≤ hi) :
    field hi lo (a ||| f) = a := by
  have hflo : f.toNat < 2 ^ lo := lt_of_lt_of_le hf (Nat.pow_le_pow_right (by decide) hk)
  obtain ⟨c, hc⟩ := Nat.dvd_of_mod_eq_zero ha
  obtain ⟨d, hd⟩ := Nat.exists_eq_add_of_le hlo
  have hpow : 2 ^ hi = 2 ^ lo * 2 ^ d := by rw [hd, pow_add]
  have hcd : c < 2 ^ d := by
    rw [hc, hpow] at ha'
    exact lt_of_mul_lt_mul_left ha' (Nat.zero_le _)
  have hsum : (a ||| f).toNat < 2 ^ hi := by
    rw [toNat_or_flags ha hflo, hc, hpow]
    calc 2 ^ lo * c + f.toNat < 2 ^ lo * c + 2 ^ lo := Nat.add_lt_add_left hflo _
      _ = 2 ^ lo * (c + 1) := by ring
      _ ≤ 2 ^ lo * 2 ^ d := Nat.mul_le_mul_left _ hcd
  rw [field, Nat.mod_eq_of_lt hsum, toNat_or_flags ha hflo, hc,
    Nat.mul_add_div (Nat.two_pow_pos lo), Nat.div_eq_of_lt hflo, Nat.add_zero, Nat.mul_comm,
    ← hc, BitVec.ofNat_toNat, BitVec.setWidth_eq]

theorem field_of_aligned {a : Word} {hi lo : Nat} (ha : a.toNat % 2 ^ lo = 0)
    (ha' : a.toNat < 2 ^ hi) (hlo : lo ≤ hi) : field hi lo a = a := by
  have h := field_or_flags (f := 0) (k := 0) ha ha' (by decide) (Nat.zero_le lo) hlo
  simpa using h

theorem getLsbD_of_aligned {a : Word} {k i : Nat} (ha : a.toNat % 2 ^ k = 0) (hi : i < k) :
    a.getLsbD i = false := by
  obtain ⟨c, hc⟩ := Nat.dvd_of_mod_eq_zero ha
  rw [BitVec.getLsbD, hc, Nat.testBit_two_pow_mul]
  simp [Nat.not_le.mpr hi]

end ShlteOs.PageWalk

import ShlteOs.BitmapAddressing
import ShlteOs.PageBitmap

/-!
The coalescing loop of `free_pages`.  How far it goes depends on the bitmap, but
wherever it stops, the block it has arrived at is aligned to its own size relative
to the pool and contains the block that is freed.  It stops at all when the free
lists are acyclic, which taking a buddy off its list keeps.
-/

namespace ShlteOs.BlockCoalescing

open ShlteOs.ByteMemory
open ShlteOs.PointerWalk
open ShlteOs.PageAllocator
open ShlteOs.PageAllocatorSteps
open ShlteOs.PageBitmap

section Termination

/-- The free lists are chains of these nodes, each with a link word of its own
outside of the bitmap. -/
structure Acyclic (s : MM) (nodes : Set Word) : Prop where
  fits : s.buddy.bitmapWords.toNat * 8 ≤ 2 ^ 64
  apart : ∀ a ∈ nodes, ∀ b ∈ nodes, a ≠ b → Apart a 8 b 8
  outside : ∀ a ∈ nodes, ∀ x, Covers a 8 x → ¬ InBitmap s.buddy x
  chain : ∀ k < maxOrderBits, ∃ list, Chain (load s.mem) 0 (s.buddy.freeLists k) list ∧
    ∀ a ∈ list, a ∈ nodes

theorem findNode_cases {m : Memory} {head target p c : Word}
    (h : findNode m head target = some (p, c)) :
    (p = 0 ∧ c = head) ∨
      (c = load m p ∧ ∃ k, p = (load m)^[k] head ∧ ∀ i ≤ k, (load m)^[i] head ≠ 0) := by
  obtain ⟨k, -, hk, -, hfirst⟩ := walk_eq_some_iff.mp h
  cases k with
  | zero =>
      cases hk
      exact .inl ⟨rfl, rfl⟩
  | succ k =>
      rw [Function.iterate_succ_apply', Prod.mk.injEq, findNode_curr] at hk
      obtain ⟨rfl, rfl⟩ := hk
      refine .inr ⟨rfl, k, rfl, fun i hi => ?_⟩
      have hstop := hfirst i (by omega)
      rw [findNode_curr, Bool.or_eq_false_iff, beq_eq_false_iff_ne] at hstop
      exact hstop.1

theorem findNode_isSome {m : Memory} {head : Word} {list : List Word} (target : Word)
    (h : Chain (load m) 0 head list) : ∃ p, findNode m head target = some p := by
  rw [← Option.ne_none_iff_exists', ne_eq, findNode_eq_none_iff]
  exact fun hall => (hall list.length).1 h.iterate_length

variable {s s' : MM} {nodes : Set Word}

theorem Acyclic.setMem {m : Memory} (h : Acyclic s nodes)
    (hlink : ∀ a ∈ nodes, load m a = load s.mem a) : Acyclic (s.setMem m) nodes := by
  refine ⟨h.fits, h.apart, h.outside, fun k hk => ?_⟩
  obtain ⟨list, hchain, hsub⟩ := h.chain k hk
  exact ⟨list, hchain.congr fun b hb => hlink b (hsub b hb), hsub⟩

theorem Acyclic.unlink {order : Nat} (h : Acyclic s nodes) (target : Word)
    (horder : order < maxOrderBits) : ∃ s', unlink s order target = some s' ∧ Acyclic s' nodes := by
  obtain ⟨list, hchain, hsub⟩ := h.chain order horder
  obtain ⟨⟨p, c⟩, hfind⟩ := findNode_isSome target hchain
  refine ⟨_, by rw [PageAllocator.unlink, hfind]; rfl, ?_⟩
  dsimp only
  split_ifs with hc hp
  · exact h
  · refine ⟨h.fits, h.apart, h.outside, fun k hk => ?_⟩
    by_cases hkk : k = order
    · subst hkk
      rcases findNode_cases hfind with ⟨-, rfl⟩ | ⟨-, i, hi, hne⟩
      · obtain ⟨rest, rfl, htail⟩ := hchain.tail hc
        refine ⟨rest, ?_, fun a ha => hsub a (List.mem_cons_of_mem _ ha)⟩
        simpa [MM.setFreeList] using htail
      · exact absurd (hi.symm.trans hp) (hne i le_rfl)
    · obtain ⟨list', hchain', hsub'⟩ := h.chain k hk
      exact ⟨list', by simpa [MM.setFreeList, hkk] using hchain', hsub'⟩
  · rcases findNode_cases hfind with ⟨hzero, -⟩ | ⟨rfl, i, hi, hne⟩
    · exact absurd hzero hp
    · have hmem : p ∈ nodes := by
        rw [hi]
        exact hsub _ (hchain.iterate_mem hne)
      refine ⟨h.fits, h.apart, h.outside, fun k hk => ?_⟩
      obtain ⟨list', hchain', hsub'⟩ := h.chain k hk
      have hlink : ∀ b ∈ list', b ≠ p →
          load (store s.mem p (load s.mem (load s.mem p))) b = load s.mem b := fun b hb hbp =>
        load_store_apart (h.apart b (hsub' b hb) p hmem hbp)
      obtain ⟨list'', hchain'', hsub''⟩ :
          ∃ list'', Chain (load (store s.mem p (load s.mem (load s.mem p)))) 0
            (s.buddy.freeLists k) list'' ∧ ∀ a ∈ list'', a ∈ list' :=
        hchain'.skip hc (load_store_same _ _ _) hlink
      exact ⟨list'', hchain'', fun a ha => hsub' a (hsub'' a ha)⟩

theorem coalesceLoop_isSome {n c : Nat} (phys : Word) (h : Acyclic s nodes)
    (hc : c + n < maxOrderBits) : ∃ r, coalesceLoop n s phys c = some r := by
  induction n generalizing s phys c with
  | zero => exact ⟨_, rfl⟩
  | succ n ih =>
      simp only [coalesceLoop]
      split
      · exact ⟨_, rfl⟩
      split
      · exact ⟨_, rfl⟩
      · let m := setAllocatedRange s.buddy s.mem (buddyOf s.buddy phys c).2 (2 ^ c) false
        have hcleared : Acyclic (s.setMem m) nodes :=
          h.setMem fun a ha => load_setAllocatedRange h.fits (h.outside a ha)
        have hcounted : Acyclic ((s.setMem m).addFreeCount (blockPages c)) nodes :=
          ⟨hcleared.fits, hcleared.apart, hcleared.outside, hcleared.chain⟩
        obtain ⟨t, ht, hacyclic⟩ := hcounted.unlink (buddyOf s.buddy phys c).1
          (show c < maxOrderBits by omega)
        rw [ht]
        exact ih _ hacyclic (by omega)

end Termination

section Position

/-- The address of the block with a number among the blocks of an order. -/
def blockAt (b : Buddy) (n k : Nat) : Word := b.poolStart + BitVec.ofNat 64 (n * 2 ^ k * 4096)

theorem toNat_blockAt {b : Buddy} {n k : Nat}
    (h : b.poolStart.toNat + n * 2 ^ k * 4096 < 2 ^ 64) :
    (blockAt b n k).toNat = b.poolStart.toNat + n * 2 ^ k * 4096 := by
  rw [blockAt, BitVec.toNat_add, BitVec.toNat_ofNat]
  omega

theorem fits_of_le {start x y : Nat} (h : start + y * 4096 < 2 ^ 64) (hle : x ≤ y) :
    start + x * 4096 < 2 ^ 64 :=
  lt_of_le_of_lt (Nat.add_le_add_left (Nat.mul_le_mul_right _ hle) _) h

theorem half_mul (n k : Nat) : n * 2 ^ k = n / 2 * 2 ^ (k + 1) + n % 2 * 2 ^ k := by
  calc
    n * 2 ^ k = (2 * (n / 2) + n % 2) * 2 ^ k := by rw [Nat.div_add_mod]
    _ = n / 2 * 2 ^ (k + 1) + n % 2 * 2 ^ k := by ring

theorem merged_eq {b : Buddy} {n k : Nat} (hk : k < maxOrderBits)
    (hfits : b.poolStart.toNat + (n + 1) * 2 ^ k * 4096 < 2 ^ 64) :
    (if (buddyOf b (blockAt b n k) k).1 < blockAt b n k then (buddyOf b (blockAt b n k) k).1
      else blockAt b n k) = blockAt b (n / 2) (k + 1) := by
  have hbytes := BitmapAddressing.toNat_blockBytes hk
  have hhalf := half_mul n k
  have hsucc : (n + 1) * 2 ^ k = n * 2 ^ k + 2 ^ k := Nat.succ_mul _ _
  have hle : n ≤ n * 2 ^ k := Nat.le_mul_of_pos_right n (Nat.two_pow_pos k)
  have hfits' : b.poolStart.toNat + n * 2 ^ k * 4096 < 2 ^ 64 := fits_of_le hfits (by omega)
  have haddr : (blockAt b n k).toNat = b.poolStart.toNat + n * 2 ^ k * 4096 :=
    toNat_blockAt hfits'
  have hmerged : (blockAt b (n / 2) (k + 1)).toNat =
      b.poolStart.toNat + n / 2 * 2 ^ (k + 1) * 4096 :=
    toNat_blockAt (fits_of_le hfits' (by omega))
  have hidx : buddyPhysToIdx b (blockAt b n k) k = BitVec.ofNat 64 n :=
    BitmapAddressing.buddyPhysToIdx_block hk (lt_of_le_of_lt (Nat.le_add_left _ _) hfits')
  have hparity : (BitVec.ofNat 64 n % 2 = 0) ↔ n % 2 = 0 := by
    have htwo : (2 : Word).toNat = 2 := rfl
    have hzero : (0 : Word).toNat = 0 := rfl
    have hlt : n < 2 ^ 64 := by omega
    rw [← BitVec.toNat_inj, BitVec.toNat_umod, BitVec.toNat_ofNat, htwo, hzero,
      Nat.mod_eq_of_lt hlt]
  apply BitVec.eq_of_toNat_eq
  rcases Nat.mod_two_eq_zero_or_one n with heven | hodd
  · have hbuddy : (buddyOf b (blockAt b n k) k).1 = blockAt b n k + blockPages k * pageSize := by
      rw [buddyOf, hidx, if_pos (hparity.mpr heven)]
    rw [heven, Nat.zero_mul, Nat.add_zero] at hhalf
    rw [hbuddy, if_neg, haddr, hmerged, hhalf]
    rw [BitVec.lt_def, BitVec.toNat_add, hbytes, haddr]
    omega
  · have hbuddy : (buddyOf b (blockAt b n k) k).1 = blockAt b n k - blockPages k * pageSize := by
      rw [buddyOf, hidx, if_neg]
      rw [hparity]
      omega
    rw [hodd, Nat.one_mul] at hhalf
    have hpos := Nat.two_pow_pos k
    have hval : (blockAt b n k - blockPages k * pageSize).toNat =
        b.poolStart.toNat + n / 2 * 2 ^ (k + 1) * 4096 := by
      rw [BitVec.toNat_sub, hbytes, haddr]
      omega
    rw [hbuddy, if_pos, hval, hmerged]
    rw [BitVec.lt_def, hval, haddr, hhalf]
    clear hfits hfits'
    omega

theorem unlink_poolStart {s s' : MM} {order : Nat} {target : Word}
    (h : unlink s order target = some s') : s'.buddy.poolStart = s.buddy.poolStart :=
  congrArg Prod.fst (unlink_keeps h).2

/-- Wherever the loop ends, the block it has arrived at contains the one it began
with. -/
theorem coalesceLoop_block {fuel : Nat} {s s' : MM} {n k k' : Nat} {phys' : Word}
    (h : coalesceLoop fuel s (blockAt s.buddy n k) k = some (s', phys', k'))
    (hk : k + fuel < maxOrderBits)
    (hfits : s.buddy.poolStart.toNat + (n * 2 ^ k + 2 ^ maxOrderBits) * 4096 < 2 ^ 64) :
    k ≤ k' ∧ k' ≤ k + fuel ∧ ∃ n', phys' = blockAt s.buddy n' k' ∧
      n' * 2 ^ k' ≤ n * 2 ^ k ∧ (n + 1) * 2 ^ k ≤ (n' + 1) * 2 ^ k' := by
  induction fuel generalizing s n k with
  | zero =>
      cases h
      exact ⟨le_rfl, le_rfl, n, rfl, le_rfl, le_rfl⟩
  | succ fuel ih =>
      simp only [coalesceLoop] at h
      split at h
      · cases h
        exact ⟨le_rfl, by omega, n, rfl, le_rfl, le_rfl⟩
      split at h
      · cases h
        exact ⟨le_rfl, by omega, n, rfl, le_rfl, le_rfl⟩
      · have hmono : 2 ^ k ≤ 2 ^ maxOrderBits := Nat.pow_le_pow_right (by decide) (by omega)
        have hsucc : (n + 1) * 2 ^ k = n * 2 ^ k + 2 ^ k := by ring
        have hhalf := half_mul n k
        have hlt := Nat.mod_lt n (show 2 > 0 by decide)
        rw [merged_eq (by omega) (fits_of_le hfits (by omega))] at h
        obtain ⟨t, ht, htail⟩ := Option.bind_eq_some_iff.mp h
        have hstart : t.buddy.poolStart = s.buddy.poolStart := by
          rw [unlink_poolStart ht]
          rfl
        have hblock : ∀ i j, blockAt t.buddy i j = blockAt s.buddy i j := fun i j => by
          rw [blockAt, blockAt, hstart]
        rw [← hblock] at htail
        have hfits' : t.buddy.poolStart.toNat +
            (n / 2 * 2 ^ (k + 1) + 2 ^ maxOrderBits) * 4096 < 2 ^ 64 := by
          rw [hstart]
          exact fits_of_le hfits (by omega)
        obtain ⟨hle, hub, n', rfl, hbelow, habove⟩ := ih htail (by omega) hfits'
        refine ⟨by omega, by omega, n', hblock _ _, by omega, ?_⟩
        have hdouble : (n / 2 + 1) * 2 ^ (k + 1) = n / 2 * 2 ^ (k + 1) + (2 ^ k + 2 ^ k) := by ring
        have hrest : n % 2 * 2 ^ k ≤ 1 * 2 ^ k := Nat.mul_le_mul_right _ (by omega)
        omega

end Position

/-- The block that is inserted, compared with the block that is freed. -/
structure Inserted (b : Buddy) (addr : Word) (order : Nat) (addr' : Word) (k' : Nat) : Prop where
  order_le : order ≤ k'
  order_lt : k' ≤ maxOrderBits - 1
  start_le : b.poolStart ≤ addr'
  aligned : 2 ^ k' * 4096 ∣ (addr' - b.poolStart).toNat
  begins : addr'.toNat ≤ addr.toNat
  ends : addr.toNat + 2 ^ order * 4096 ≤ addr'.toNat + 2 ^ k' * 4096
  inPool : 2 ^ (maxOrderBits - 1) ∣ b.poolPages.toNat →
    addr.toNat + 2 ^ order * 4096 ≤ b.poolStart.toNat + b.poolPages.toNat * 4096 →
    addr'.toNat + 2 ^ k' * 4096 ≤ b.poolStart.toNat + b.poolPages.toNat * 4096

theorem exists_blockAt {b : Buddy} {addr : Word} {k : Nat} (hle : b.poolStart ≤ addr)
    (hmul : 2 ^ k * 4096 ∣ (addr - b.poolStart).toNat) :
    ∃ n, addr = blockAt b n k ∧ b.poolStart.toNat + n * 2 ^ k * 4096 = addr.toNat := by
  obtain ⟨n, hn⟩ := hmul
  rw [Nat.mul_comm, ← Nat.mul_assoc] at hn
  refine ⟨n, ?_, ?_⟩
  · have hsub : BitVec.ofNat 64 (n * 2 ^ k * 4096) = addr - b.poolStart := by
      rw [← hn, BitVec.ofNat_toNat, BitVec.setWidth_eq]
    rw [blockAt, hsub, add_sub_cancel]
  · rw [BitVec.le_def] at hle
    rw [← hn, BitVec.toNat_sub_of_le (BitVec.le_def.mpr hle)]
    omega

theorem succ_mul_le_of_dvd {n k pages : Nat} (hk : k ≤ maxOrderBits - 1)
    (hdvd : 2 ^ (maxOrderBits - 1) ∣ pages) (hlt : n * 2 ^ k < pages) :
    (n + 1) * 2 ^ k ≤ pages := by
  obtain ⟨q, rfl⟩ := (Nat.pow_dvd_pow 2 hk).trans hdvd
  rw [Nat.mul_comm (2 ^ k)] at hlt ⊢
  exact Nat.mul_le_mul_right _ (Nat.lt_of_mul_lt_mul_right hlt)

theorem inserted_blockAt {b : Buddy} {n n' k k' : Nat}
    (hfits : b.poolStart.toNat + n * 2 ^ k * 4096 < 2 ^ 64) (hle : k ≤ k')
    (hk' : k' ≤ maxOrderBits - 1) (hbelow : n' * 2 ^ k' ≤ n * 2 ^ k)
    (habove : (n + 1) * 2 ^ k ≤ (n' + 1) * 2 ^ k') :
    Inserted b (blockAt b n k) k (blockAt b n' k') k' := by
  have haddr := toNat_blockAt hfits
  have hfits' := fits_of_le hfits hbelow
  have haddr' := toNat_blockAt hfits'
  have hsucc : (n + 1) * 2 ^ k = n * 2 ^ k + 2 ^ k := Nat.succ_mul _ _
  have hsucc' : (n' + 1) * 2 ^ k' = n' * 2 ^ k' + 2 ^ k' := Nat.succ_mul _ _
  have hdvd : 2 ^ k' * 4096 ∣ (blockAt b n' k' - b.poolStart).toNat := by
    rw [blockAt, add_ofNat_sub_self, BitVec.toNat_ofNat,
      Nat.mod_eq_of_lt (lt_of_le_of_lt (Nat.le_add_left _ _) hfits'), Nat.mul_assoc]
    exact Nat.dvd_mul_left _ _
  have hpos := Nat.two_pow_pos k
  clear hfits hfits'
  refine ⟨hle, hk', ?_, hdvd, by omega, by omega, fun hpages hin => ?_⟩
  · rw [BitVec.le_def, haddr']
    exact Nat.le_add_right _ _
  · have hlast := succ_mul_le_of_dvd hk' hpages (show n' * 2 ^ k' < b.poolPages.toNat by omega)
    omega

/-- What `free_pages` inserts, for any bitmap and any lists, and that it comes to
insert something when the lists are acyclic. -/
theorem freePages_inserts (s : MM) (addr : Word) (order : Nat)
    (hinit : s.buddy.initialized = true) (horder : order < maxOrderBits)
    (halign : addr % (pageSize * blockPages order) = 0) (hle : s.buddy.poolStart ≤ addr)
    (hmul : 2 ^ order * 4096 ∣ (addr - s.buddy.poolStart).toNat)
    (hend : addr.toNat + 2 ^ maxOrderBits * 4096 < 2 ^ 64) :
    (∀ s', freePages s addr order = some s' → ∃ s₁ addr' k',
      coalesceLoop (maxOrderBits - 1 - order) s addr order = some (s₁, addr', k') ∧
      s' = BitmapAddressing.insert order s₁ addr' k' ∧
      Inserted s.buddy addr order addr' k') ∧
    (∀ nodes, Acyclic s nodes → ∃ s', freePages s addr order = some s') := by
  rw [BitmapAddressing.freePages_eq hinit horder halign]
  constructor
  · intro s' hs'
    obtain ⟨⟨s₁, addr', k'⟩, hloop, rfl⟩ := Option.map_eq_some_iff.mp hs'
    refine ⟨s₁, addr', k', hloop, rfl, ?_⟩
    obtain ⟨n, rfl, hval⟩ := exists_blockAt hle hmul
    have hfits : s.buddy.poolStart.toNat + n * 2 ^ order * 4096 < 2 ^ 64 := by
      rw [hval]
      exact BitVec.isLt _
    rw [← hval, Nat.add_assoc, ← Nat.add_mul] at hend
    have hfuel : order + (maxOrderBits - 1 - order) = maxOrderBits - 1 := by
      clear hend hfits
      omega
    obtain ⟨hk, hk', n', rfl, hbelow, habove⟩ :=
      coalesceLoop_block hloop (by rw [hfuel]; decide) hend
    rw [hfuel] at hk'
    exact inserted_blockAt hfits hk hk' hbelow habove
  · intro nodes hacyclic
    have hfuel : order + (maxOrderBits - 1 - order) < maxOrderBits := by
      clear hend
      omega
    obtain ⟨r, hr⟩ := coalesceLoop_isSome addr hacyclic hfuel
    rw [hr]
    exact ⟨_, rfl⟩

/-- The first of 512 pages is free and listed. -/
def firstListed : MM where
  mem := fun _ => 0
  buddy :=
    { poolStart := 0x200000
      poolPages := 512
      bitmap := 0x100000
      bitmapWords := 8
      freeLists := fun k => if k = 0 then 0x200000 else 0
      freeCount := 1
      initialized := true }

theorem acyclic_firstListed : Acyclic firstListed {0x200000} where
  fits := by decide
  apart := by
    rintro a rfl b rfl hne
    exact absurd rfl hne
  outside := by
    rintro a rfl
    have hapart : Apart 0x200000 8 0x100000 64 := apart_of_le_sub (by decide) (by decide)
    exact hapart
  chain := by
    intro k _
    by_cases hk : k = 0
    · subst hk
      exact ⟨[0x200000], .cons (by decide) .nil, by simp⟩
    · have hempty : firstListed.buddy.freeLists k = 0 := if_neg hk
      rw [hempty]
      exact ⟨[], .nil, by simp⟩

theorem freePages_inserts_firstListed : ∃ s' addr' k',
    freePages firstListed 0x201000 0 = some s' ∧
      Inserted firstListed.buddy 0x201000 0 addr' k' := by
  obtain ⟨hinserted, hreturns⟩ := freePages_inserts firstListed 0x201000 0 rfl (by decide)
    (by decide) (by decide) (by decide) (by decide)
  obtain ⟨s', hs'⟩ := hreturns _ acyclic_firstListed
  obtain ⟨_, addr', k', -, -, hblock⟩ := hinserted s' hs'
  exact ⟨s', addr', k', hs', hblock⟩

end ShlteOs.BlockCoalescing

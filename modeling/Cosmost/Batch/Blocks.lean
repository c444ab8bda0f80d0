import Cosmost.Batch.Hull

/-!
# The block interval of an access

`curr_end` adds `BLKSIZE - 1` to the offset of the last byte before it divides: the block of the last byte is rounded up,
so that the interval has a block more than the access touches, unless the last byte is the first of its block
(`blocks_eq_iff`). Two accesses with a whole block between them can then land in one batch (`apart_in_one_batch`).
-/

namespace Cosmost.Batch

open Cosmost.Lib

/-- The blocks that the bytes `[off, off + size)` touch. -/
def Access.touched (a : Access) : Set Int := blocksOfRange blksize a.off a.size

/-- The last byte of the access is the first of its block. -/
def Access.EndsAtBlockStart (a : Access) : Prop := (a.off + a.size - 1) % blksize = 0

/-- The access string lists both, when `a` starts a batch and `b` follows. -/
def InOneBatch (op : String) (fd : Int) (v : Vars) (a b : Access) : Prop :=
  listed ((Single.start op fd v a).next op fd b).trace = [a, b]

section Access

variable {a : Access} (hv : a.Valid)
include hv

theorem Access.Valid.touched_eq : a.touched = Set.Icc (a.off / 4096) ((a.off + a.size - 1) / 4096) := by
  have := hv.size_pos
  exact blocksOfRange_eq (by decide) (by omega)

/-- Its end can be rounded up: no offset from `2 ^ 63 - 4096` on is that of a block. -/
theorem Access.Valid.rounds_of_endsAtBlockStart (h : a.EndsAtBlockStart) : a.Rounds := by
  have := hv.no_overflow
  unfold Access.EndsAtBlockStart blksize at h
  unfold Access.Rounds
  omega

/-- **The computed interval is the set of the blocks that the access touches iff its last byte is the first of its
block.** -/
theorem Access.Valid.blocks_eq_iff : a.blocks = a.touched ↔ a.EndsAtBlockStart := by
  have h1 := hv.size_pos
  have h0 := hv.off_nonneg
  have hlast : a.off / 4096 ≤ (a.off + a.size - 1) / 4096 := by omega
  rw [hv.touched_eq, Access.blocks, currStart_eq]
  constructor
  · intro h
    -- the last block is in the computed interval, and nothing behind it is
    have hmem : (a.off + a.size - 1) / 4096 ∈ Set.Icc (a.off / 4096) (currEnd a.size a.off) :=
      h.symm.subset (Set.right_mem_Icc.mpr hlast)
    have hend : currEnd a.size a.off ∈ Set.Icc (a.off / 4096) ((a.off + a.size - 1) / 4096) :=
      h.subset (Set.right_mem_Icc.mpr (hlast.trans hmem.2))
    have heq : currEnd a.size a.off = (a.off + a.size - 1) / 4096 := le_antisymm hend.2 hmem.2
    have hr : a.Rounds := by
      by_contra hr
      unfold Access.Rounds at hr
      rw [currEnd_overflow (by omega) hv.no_overflow] at heq
      omega
    rw [currEnd_eq h0 hr] at heq
    unfold Access.EndsAtBlockStart blksize
    omega
  · intro h
    have hr := hv.rounds_of_endsAtBlockStart h
    unfold Access.EndsAtBlockStart blksize at h
    rw [currEnd_eq h0 hr]
    congr 1
    omega

end Access

/-! ## Merging -/

section Merging

variable {op : String} {fd : Int} {v : Vars} {a b : Access} (hfd : 0 ≤ fd) (ha : a.Valid) (hb : b.Valid)
include hfd ha hb

/-- The second access is listed with the first only if it touches the interval of the first. -/
theorem InOneBatch.touches (hr : a.Rounds) (h : InOneBatch op fd v a b) :
    currStart b.off ≤ currEnd a.size a.off + 1 ∧ currStart a.off - 1 ≤ currEnd b.size b.off := by
  have hinv : HullInv (Single.start op fd v a) := HullInv.start hfd ha hr v
  have hlist : listed (Single.start op fd v a).trace = [a] := by
    rw [start_eq hfd ha]
    exact listed_notify ..
  have hhull := hinv.exact.hull
  rw [hlist, blocksOf_singleton] at hhull
  obtain ⟨hoff, hend⟩ := hhull.ends (ha.width hr).1
  have ht : Touches (Single.start op fd v a).vars (currStart b.off) (currEnd b.size b.off) := by
    by_contra ht
    unfold InOneBatch at h
    rw [next_eq hfd hb hinv.range, if_neg ht, listed_notify] at h
    exact absurd (congrArg List.length h) (by simp)
  unfold Touches at ht
  rwa [hoff, hend] at ht

/-- **Both intervals are exact, and two accesses in one batch touch blocks that overlap or are adjacent, iff the last
byte of each is the first of its block.** -/
theorem blocks_exact_iff :
    (a.blocks = a.touched ∧ b.blocks = b.touched ∧ (InOneBatch op fd v a b → Near a.touched b.touched)) ↔
      a.EndsAtBlockStart ∧ b.EndsAtBlockStart := by
  rw [ha.blocks_eq_iff, hb.blocks_eq_iff]
  constructor
  · rintro ⟨h1, h2, -⟩
    exact ⟨h1, h2⟩
  · rintro ⟨h1, h2⟩
    refine ⟨h1, h2, fun hm => ?_⟩
    have hra := ha.rounds_of_endsAtBlockStart h1
    have hrb := hb.rounds_of_endsAtBlockStart h2
    obtain ⟨hle, hge⟩ := hm.touches hfd ha hb hra
    rw [← ha.blocks_eq_iff.mpr h1, ← hb.blocks_eq_iff.mpr h2]
    exact near_Icc (ha.width hra).1 (hb.width hrb).1 hle hge

end Merging

/-- The first byte of a file and the first of its second block. -/
theorem block_starts_exact :
    ((⟨1, 0⟩ : Access).blocks = (⟨1, 0⟩ : Access).touched ∧ (⟨1, 4096⟩ : Access).blocks = (⟨1, 4096⟩ : Access).touched ∧
      (InOneBatch "read" 3 Vars.init ⟨1, 0⟩ ⟨1, 4096⟩ →
        Near (⟨1, 0⟩ : Access).touched (⟨1, 4096⟩ : Access).touched)) ↔
      (⟨1, 0⟩ : Access).EndsAtBlockStart ∧ (⟨1, 4096⟩ : Access).EndsAtBlockStart :=
  blocks_exact_iff (by decide) ⟨by decide, by decide, by decide, by decide⟩
    ⟨by decide, by decide, by decide, by decide⟩

/-- **Two bytes of the first block and one of the third land in one batch**: the interval of the first two ends in the
second block. -/
theorem apart_in_one_batch :
    (⟨2, 0⟩ : Access).Valid ∧ (⟨1, 8192⟩ : Access).Valid ∧ (⟨2, 0⟩ : Access).blocks ≠ (⟨2, 0⟩ : Access).touched ∧
    InOneBatch "read" 3 Vars.init ⟨2, 0⟩ ⟨1, 8192⟩ ∧
    ¬ Near (⟨2, 0⟩ : Access).touched (⟨1, 8192⟩ : Access).touched := by
  have ha : (⟨2, 0⟩ : Access).Valid := ⟨by decide, by decide, by decide, by decide⟩
  have hb : (⟨1, 8192⟩ : Access).Valid := ⟨by decide, by decide, by decide, by decide⟩
  refine ⟨ha, hb, fun h => ?_, by unfold InOneBatch; decide, ?_⟩
  · exact absurd (ha.blocks_eq_iff.mp h) (by unfold Access.EndsAtBlockStart; decide)
  · rw [ha.touched_eq, hb.touched_eq]
    rintro ⟨k, hk, l, hl, h1, h2⟩
    simp only [Set.mem_Icc] at hk hl
    omega

end Cosmost.Batch

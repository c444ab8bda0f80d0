import Cosmost.Batch.Hull
import Cosmost.Batch.Report

/-!
# Merging does not depend on the order

An access that touches the range of the pending batch, and finds room in the string, stretches the range to the hull of
both and emits nothing (`first_merges`). The hull of the range and two accesses is the same in either order
(`merges_commute`), as long as it has fewer than `2 ^ 32` blocks, so that `last_size` does not wrap.
-/

namespace Cosmost.Batch

open Cosmost.Lib

/-- The outcome of a call that merges: it returns `0`, adds its record to the string and emits nothing; the range is
`[lo, hi]`. -/
structure Merged (b : Vars) (a : Access) (lo hi : Int) (p : Int × Vars × List Effect) : Prop where
  ret : p.1 = 0
  effects : p.2.2 = [.snprintf b.access.length a.size a.off]
  access : p.2.1.access = b.access ++ ioRecord a.size a.off
  off : p.2.1.lastOff = lo
  last : p.2.1.lastEnd = hi
  range : RangeOk p.2.1

/-- **An access that touches the range and finds room stretches it to the hull of both.** -/
theorem first_merges (op : String) {fd : Int} (hfd : 0 ≤ fd) {b : Vars} (hb : RangeOk b) {a : Access} (hv : a.Valid)
    (ht : Touches b (currStart a.off) (currEnd a.size a.off)) (hroom : ¬ Full b)
    (hw : max b.lastEnd (currEnd a.size a.off) - min b.lastOff (currStart a.off) + 1 < 2 ^ 32) :
    Merged b a (min b.lastOff (currStart a.off)) (max b.lastEnd (currEnd a.size a.off))
      (batchReadWriteFirst op fd a.size a.off b) := by
  obtain ⟨hle, -⟩ := hv.width (hv.rounds hb.off_nonneg ht)
  obtain ⟨he, he'⟩ := hv.currEnd_bounds
  obtain ⟨hoff, hend⟩ := stretch_ends hb (b.access ++ ioRecord a.size a.off) hle hw
  rw [first_eq hb (hv.args hfd) hv.off_lt he he', if_pos ht, recordIostr_room hroom hv.size_lt hv.off_lt]
  refine ⟨rfl, rfl, stretch_access .., hoff, hend, ?_, ?_, ?_, ?_⟩
  all_goals
    have h0 := currStart_nonneg hv.off_nonneg
    obtain ⟨h1, h2, h3, h4⟩ := hb
    unfold Vars.lastEnd at hend hw
    simp only
    omega

/-! ## Two accesses -/

/-- Two calls of `batch_read_write_first`, one after the other: both results, the variables and the effects. -/
def firstTwice (op : String) (fd : Int) (b : Vars) (x y : Access) : (Int × Int) × Vars × List Effect :=
  let (r, b', out) := batchReadWriteFirst op fd x.size x.off b
  let (r', b'', out') := batchReadWriteFirst op fd y.size y.off b'
  ((r, r'), b'', out ++ out')

/-- The string has room for both, whichever comes first. -/
def RoomForBoth (b : Vars) (x y : Access) : Prop :=
  ∀ a ∈ [x, y], ¬ Full { b with access := b.access ++ ioRecord a.size a.off }

/-- The first block of the range and two accesses. -/
def hullStart (b : Vars) (x y : Access) : Int := min (min b.lastOff (currStart x.off)) (currStart y.off)

/-- The last block of the range and two accesses. -/
def hullEnd (b : Vars) (x y : Access) : Int := max (max b.lastEnd (currEnd x.size x.off)) (currEnd y.size y.off)

theorem hullStart_comm (b : Vars) (x y : Access) : hullStart b x y = hullStart b y x := min_right_comm ..

theorem hullEnd_comm (b : Vars) (x y : Access) : hullEnd b x y = hullEnd b y x := max_right_comm ..

/-- Two accesses were merged: both calls returned `0` and nothing was emitted. -/
structure MergedBoth (b : Vars) (x y : Access) (p : (Int × Int) × Vars × List Effect) : Prop where
  ret : p.1 = (0, 0)
  silent : handed p.2.2 = []
  off : p.2.1.lastOff = hullStart b x y
  last : p.2.1.lastEnd = hullEnd b x y

/-- One order. -/
theorem firstTwice_merges (op : String) {fd : Int} (hfd : 0 ≤ fd) {b : Vars} (hb : RangeOk b) {x y : Access}
    (hx : x.Valid) (hy : y.Valid) (htx : Touches b (currStart x.off) (currEnd x.size x.off))
    (hty : Touches b (currStart y.off) (currEnd y.size y.off)) (hroom : RoomForBoth b x y)
    (hw : hullEnd b x y - hullStart b x y + 1 < 2 ^ 32) :
    MergedBoth b x y (firstTwice op fd b x y) := by
  unfold hullEnd hullStart at hw
  have hroomX : ¬ Full { b with access := b.access ++ ioRecord x.size x.off } := hroom x (by simp)
  have hroomB : ¬ Full b := by
    unfold Full at hroomX ⊢
    simp only [List.length_append] at hroomX
    omega
  have h1 := first_merges op hfd hb hx htx hroomB (by omega)
  rcases hX : batchReadWriteFirst op fd x.size x.off b with ⟨r, b₁, out⟩
  rw [hX] at h1
  have hoff : b₁.lastOff = min b.lastOff (currStart x.off) := h1.off
  have hlast : b₁.lastEnd = max b.lastEnd (currEnd x.size x.off) := h1.last
  have haccess : b₁.access = b.access ++ ioRecord x.size x.off := h1.access
  -- the second access still touches what is now a longer range
  have hty' : Touches b₁ (currStart y.off) (currEnd y.size y.off) := by
    unfold Touches at hty ⊢
    rw [hoff, hlast]
    omega
  have hroomY : ¬ Full b₁ := by
    unfold Full at hroomX ⊢
    rwa [haccess]
  have h2 := first_merges op hfd h1.range hy hty' hroomY (by rw [hoff, hlast]; omega)
  rcases hY : batchReadWriteFirst op fd y.size y.off b₁ with ⟨r', b₂, out'⟩
  rw [hY, hoff, hlast] at h2
  have hboth : firstTwice op fd b x y = ((r, r'), b₂, out ++ out') := by
    simp only [firstTwice, hX, hY]
  have heffects : out ++ out' =
      [.snprintf b.access.length x.size x.off] ++ [.snprintf b₁.access.length y.size y.off] :=
    congrArg₂ (· ++ ·) h1.effects h2.effects
  rw [hboth]
  exact ⟨Prod.ext h1.ret h2.ret, by rw [heffects]; rfl, h2.off, h2.last⟩

/-- **Two accesses that each touch the range are merged in either order, to the same range**; as long as it has fewer
than `2 ^ 32` blocks, `last_size` is its number of blocks. -/
theorem merges_commute (op : String) {fd : Int} (hfd : 0 ≤ fd) {b : Vars} (hoff : 0 ≤ b.lastOff)
    (hpos : 1 ≤ b.lastSize) (hlt : b.lastSize < 2 ^ 32) {x y : Access} (hx : x.Valid) (hy : y.Valid)
    (htx : Touches b (currStart x.off) (currEnd x.size x.off))
    (hty : Touches b (currStart y.off) (currEnd y.size y.off)) (hroom : RoomForBoth b x y)
    (hw : hullEnd b x y - hullStart b x y + 1 < 2 ^ 32) :
    (firstTwice op fd b x y).1 = (0, 0) ∧ (firstTwice op fd b y x).1 = (0, 0) ∧
    handed (firstTwice op fd b x y).2.2 = [] ∧ handed (firstTwice op fd b y x).2.2 = [] ∧
    (firstTwice op fd b x y).2.1.lastOff = (firstTwice op fd b y x).2.1.lastOff ∧
    (firstTwice op fd b x y).2.1.lastSize = (firstTwice op fd b y x).2.1.lastSize ∧
    ((firstTwice op fd b x y).2.1.lastSize : Int) = hullEnd b x y - hullStart b x y + 1 := by
  have hb : RangeOk b := by
    -- a range that an access touches begins among the blocks of a file
    have he : currEnd x.size x.off < 2 ^ 51 := currEnd_lt hx.off_nonneg (hx.rounds hoff htx)
    unfold Touches at htx
    exact ⟨hoff, by omega, hpos, hlt⟩
  have hxy := firstTwice_merges op hfd hb hx hy htx hty hroom hw
  have hyx := firstTwice_merges op hfd hb hy hx hty htx
    (fun a ha => hroom a (by simpa [or_comm] using ha)) (by rwa [hullEnd_comm, hullStart_comm])
  have hends : (firstTwice op fd b x y).2.1.lastOff = (firstTwice op fd b y x).2.1.lastOff ∧
      (firstTwice op fd b x y).2.1.lastEnd = (firstTwice op fd b y x).2.1.lastEnd :=
    ⟨by rw [hxy.off, hyx.off, hullStart_comm], by rw [hxy.last, hyx.last, hullEnd_comm]⟩
  have hlast := hxy.last
  have hfirst := hxy.off
  refine ⟨hxy.ret, hyx.ret, hxy.silent, hyx.silent, hends.1, ?_, ?_⟩ <;> unfold Vars.lastEnd at * <;> omega

/-- A range of block 5, and a byte at the start of each of the blocks beside it. -/
theorem neighbours_commute :
    let b : Vars := ⟨3, 1, 5, [], []⟩
    let x : Access := ⟨1, 6 * 4096⟩
    let y : Access := ⟨1, 4 * 4096⟩
    (firstTwice "read" 3 b x y).1 = (0, 0) ∧ (firstTwice "read" 3 b y x).1 = (0, 0) ∧
    handed (firstTwice "read" 3 b x y).2.2 = [] ∧ handed (firstTwice "read" 3 b y x).2.2 = [] ∧
    (firstTwice "read" 3 b x y).2.1.lastOff = (firstTwice "read" 3 b y x).2.1.lastOff ∧
    (firstTwice "read" 3 b x y).2.1.lastSize = (firstTwice "read" 3 b y x).2.1.lastSize ∧
    ((firstTwice "read" 3 b x y).2.1.lastSize : Int) = hullEnd b x y - hullStart b x y + 1 :=
  merges_commute "read" (by decide) (by decide) (by decide) (by decide)
    ⟨by decide, by decide, by decide, by decide⟩ ⟨by decide, by decide, by decide, by decide⟩ (by decide) (by decide)
    (by unfold RoomForBoth; decide) (by decide)

end Cosmost.Batch

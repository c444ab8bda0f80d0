import Cosmost.Batch.Spec
import Cosmost.Lib.Interval
import Cosmost.Lib.Run
import Mathlib.Data.Int.ConditionallyCompleteOrder

/-!
# The batched range and the listed accesses

The accesses of one descriptor, the first given to `batch_read_write_second` and the others to
`batch_read_write_first`. After each call, the range `[last_off, last_off + last_size - 1]` should be the smallest
interval around the block intervals of the accesses that the string lists (`Exact`).

It is not after `record_iostr` found the string full: the batch starts anew with the access alone, but the caller goes
on with the range from before, and an access that sticks out of that range on one side is counted twice over the part
that sticks out. Nor is it after an access whose end overflows when it is rounded up. These are the only ways
(`hull_iff`).
-/

namespace Cosmost.Batch

open Cosmost.Lib

/-- The arguments of one call. -/
structure Access where
  size : Nat
  off : Int
  deriving DecidableEq, Repr

/-- The accesses that are considered: no overflow of `off + size`. -/
structure Access.Valid (a : Access) : Prop where
  size_pos : 1 ≤ a.size
  size_lt : a.size < 2 ^ 32
  off_nonneg : 0 ≤ a.off
  no_overflow : a.off + a.size < 2 ^ 63

/-- `[curr_start, curr_end]`. -/
def Access.blocks (a : Access) : Set Int := Set.Icc (currStart a.off) (currEnd a.size a.off)

/-- The blocks of several accesses. -/
def blocksOf (l : List Access) : Set Int := {x | ∃ a ∈ l, x ∈ a.blocks}

/-- The variables and the trace of a run on one descriptor. -/
structure Single where
  vars : Vars
  trace : List (Access × Effect)

/-- The first access of a descriptor. -/
def Single.start (op : String) (fd : Int) (b : Vars) (a : Access) : Single :=
  let (b', out) := batchReadWriteSecond op fd a.size a.off b
  ⟨b', out.map (a, ·)⟩

/-- A further access. -/
def Single.next (op : String) (fd : Int) (s : Single) (a : Access) : Single :=
  let (_, b', out) := batchReadWriteFirst op fd a.size a.off s.vars
  ⟨b', s.trace ++ out.map (a, ·)⟩

/-- The range is the smallest interval around the accesses that the string lists. -/
structure Exact (s : Single) : Prop where
  string : s.vars.access = (listed s.trace).flatMap fun a => ioRecord a.size a.off
  hull : IsHull (blocksOf (listed s.trace)) s.vars.lastOff s.vars.lastEnd

/-- Rounding the end of the access up does not overflow. -/
def Access.Rounds (a : Access) : Prop := a.off + a.size + 4094 < 2 ^ 63

/-- An access that leaves the range exact: its end can be rounded up, and if it touches the range while the string is
full, it lies inside the range or sticks out on both sides. -/
def Harmless (s : Single) (a : Access) : Prop :=
  a.Rounds ∧ (Full s.vars → Touches s.vars (currStart a.off) (currEnd a.size a.off) →
    s.vars.lastOff ≤ currStart a.off ∧ currEnd a.size a.off ≤ s.vars.lastEnd ∨
    currStart a.off < s.vars.lastOff ∧ s.vars.lastEnd ≤ currEnd a.size a.off)

/-! ## Sets of blocks -/

theorem blocksOf_singleton (a : Access) : blocksOf [a] = a.blocks := by
  ext x; simp [blocksOf]

theorem blocksOf_append (l : List Access) (a : Access) : blocksOf (l ++ [a]) = blocksOf l ∪ a.blocks := by
  ext x
  simp only [blocksOf, List.mem_append, List.mem_singleton, Set.mem_ofPred_eq, Set.mem_union]
  constructor
  · rintro ⟨c, hc | rfl, hx⟩
    · exact Or.inl ⟨c, hc, hx⟩
    · exact Or.inr hx
  · rintro (⟨c, hc, hx⟩ | hx)
    · exact ⟨c, Or.inl hc, hx⟩
    · exact ⟨a, Or.inr rfl, hx⟩

/-! ## The invariant -/

/-- What a run keeps as long as every access is harmless. -/
structure HullInv (s : Single) : Prop where
  exact : Exact s
  range : RangeOk s.vars
  ne_nil : listed s.trace ≠ []
  /-- The range counts at most `maxBlocks` for every listed access. -/
  bound : s.vars.lastSize ≤ (listed s.trace).length * maxBlocks
  /-- No record is shorter than four characters. -/
  length : 4 * (listed s.trace).length ≤ s.vars.access.length
  short : s.vars.access.length < iostrBufsize

section Step

variable {op : String} {fd : Int} {a : Access} (hfd : 0 ≤ fd) (hv : a.Valid)
include hfd hv

theorem Access.Valid.args : ¬ invalidArgs fd a.size a.off := by
  have := hv.size_pos; have := hv.off_nonneg
  simp only [invalidArgs]; omega

omit hfd in
theorem Access.Valid.off_lt : a.off < 2 ^ 63 := by have := hv.no_overflow; omega

omit hfd in
theorem Access.Valid.currEnd_bounds : -2 ^ 52 ≤ currEnd a.size a.off ∧ currEnd a.size a.off < 2 ^ 52 := by
  obtain ⟨h1, h2, h3, h4⟩ := hv
  by_cases hr : a.off + a.size + 4094 < 2 ^ 63
  · have hn := currStart_nonneg h3
    have hl := currStart_le_currEnd h1 h3 hr
    have he : currEnd a.size a.off < 2 ^ 51 := currEnd_lt h3 hr
    omega
  · rw [currEnd_overflow (by omega) h4]
    omega

omit hfd in
/-- The width of a rounded access. -/
theorem Access.Valid.width (hr : a.Rounds) :
    currStart a.off ≤ currEnd a.size a.off ∧ currEnd a.size a.off - currStart a.off + 1 ≤ maxBlocks :=
  ⟨currStart_le_currEnd hv.size_pos hv.off_nonneg hr, width_le hv.size_pos hv.size_lt hv.off_nonneg hr⟩

omit hfd in
/-- An access that touches a range is rounded: an end that overflowed lies below every range. -/
theorem Access.Valid.rounds {b : Vars} (hoff : 0 ≤ b.lastOff)
    (ht : Touches b (currStart a.off) (currEnd a.size a.off)) : a.Rounds := by
  by_contra hr
  unfold Access.Rounds at hr
  unfold Touches at ht
  rw [currEnd_overflow (by omega) hv.no_overflow] at ht
  omega

omit hfd in
/-- An access that cannot be rounded has no block, yet starts a batch of at least two. -/
theorem not_exact_of_overflow (hr : ¬ a.Rounds) (b : Vars) (tr : List (Access × Effect)) :
    ¬ Exact ⟨(batchReadWriteNotify op fd (currStart a.off) (currEnd a.size a.off) a.size a.off b).1,
      tr ++ (batchReadWriteNotify op fd (currStart a.off) (currEnd a.size a.off) a.size a.off b).2.map (a, ·)⟩ := by
  intro h
  have hh := h.hull
  obtain ⟨h1, h2, h3, h4⟩ := hv
  unfold Access.Rounds at hr
  have hcs := currStart_nonneg h3
  have he : currEnd a.size a.off = -2 ^ 51 := currEnd_overflow (by omega) h4
  have hempty : a.blocks = ∅ := Set.Icc_eq_empty (by rw [he]; omega)
  simp only [listed_notify, blocksOf_singleton, hempty] at hh
  have hlt := hh.lt_of_empty (show (0 : Int) < 1 by omega)
  rw [notify_vars h2 (by omega), he, currStart_eq] at hlt
  simp only [Vars.lastEnd, size32] at hlt
  omega

omit hfd in
/-- A batch that starts with a rounded access. -/
theorem restart_inv (hr : a.Rounds) (b : Vars) (tr : List (Access × Effect)) :
    HullInv ⟨(batchReadWriteNotify op fd (currStart a.off) (currEnd a.size a.off) a.size a.off b).1,
      tr ++ (batchReadWriteNotify op fd (currStart a.off) (currEnd a.size a.off) a.size a.off b).2.map (a, ·)⟩ := by
  obtain ⟨hle, hw⟩ := hv.width hr
  have hm := maxBlocks_eq
  have hs := currStart_nonneg hv.off_nonneg
  have hs' := currStart_lt hv.off_lt
  have he := size32_eq (x := currEnd a.size a.off - currStart a.off + 1) (by omega) (by omega)
  have hlen := length_ioRecord_le hv.size_lt hv.off_lt
  have hlen' := four_le_length_ioRecord a.size a.off
  have hvars : (batchReadWriteNotify op fd (currStart a.off) (currEnd a.size a.off) a.size a.off b).1 = _ :=
    notify_vars hv.size_lt hv.off_lt
  have hlist := listed_notify tr a op fd (currStart a.off) (currEnd a.size a.off) a.size a.off b
  refine ⟨⟨?_, ?_⟩, ⟨?_, ?_, ?_, ?_⟩, ?_, ?_, ?_, ?_⟩ <;> simp only [hlist, hvars]
  · simp
  · rw [blocksOf_singleton]
    have hend : currStart a.off + (size32 (currEnd a.size a.off - currStart a.off + 1) : Int) - 1
        = currEnd a.size a.off := by omega
    simp only [Vars.lastEnd, hend]
    exact isHull_Icc _ _
  · exact hs
  · omega
  · omega
  · omega
  · simp
  · simp only [List.length_singleton]; omega
  · simp only [List.length_singleton]; omega
  · rw [iostrBufsize_eq]; omega

omit hfd in
/-- A rounded access that is recorded in the string and touches the range. -/
theorem stretch_inv (hr : a.Rounds) {s : Single} (hs : HullInv s) (hroom : ¬ Full s.vars)
    (ht : Touches s.vars (currStart a.off) (currEnd a.size a.off)) :
    HullInv ⟨stretch s.vars (currStart a.off) (currEnd a.size a.off)
        { s.vars with access := s.vars.access ++ ioRecord a.size a.off },
      s.trace ++ [(a, .snprintf s.vars.access.length a.size a.off)]⟩ := by
  obtain ⟨hle, hw⟩ := hv.width hr
  have hm := maxBlocks_eq
  have h0 := currStart_nonneg hv.off_nonneg
  have h0' := currStart_lt hv.off_lt
  have hlen := length_ioRecord_le hv.size_lt hv.off_lt
  have hlen' := four_le_length_ioRecord a.size a.off
  obtain ⟨⟨hstr, hhull⟩, hrange, hne, hbd, hl4, hshort⟩ := hs
  have hpos : 1 ≤ (listed s.trace).length := List.length_pos_iff.mpr hne
  rw [iostrBufsize_eq] at hshort
  have hlist : listed (s.trace ++ [(a, .snprintf s.vars.access.length a.size a.off)]) = listed s.trace ++ [a] := by
    obtain ⟨k, hk⟩ := Nat.exists_eq_succ_of_ne_zero (show s.vars.access.length ≠ 0 by omega)
    simp [listed, listStep, hk]
  have hmul : (listed s.trace).length * maxBlocks ≤ 1023 * maxBlocks := Nat.mul_le_mul_right _ (by omega)
  have hrange' : RangeOk { s.vars with access := s.vars.access ++ ioRecord a.size a.off } :=
    ⟨hrange.1, hrange.2, hrange.3, hrange.4⟩
  obtain ⟨hr1, hr2⟩ := stretch_range hrange hrange' h0 h0' hle hw ht (by simp only; omega)
  refine ⟨⟨?_, ?_⟩, hr1, ?_, ?_, ?_, ?_⟩ <;> simp only [hlist, stretch_access]
  · simp [hstr]
  · rw [blocksOf_append]
    have hends := stretch_ends hrange (s.vars.access ++ ioRecord a.size a.off) hle (by
        obtain ⟨g1, g2, g3, g4⟩ := hrange
        unfold Touches at ht
        unfold Vars.lastEnd at *
        omega)
    rw [hends.1, hends.2]
    have hle' : s.vars.lastOff ≤ s.vars.lastEnd := by have := hrange.3; unfold Vars.lastEnd; omega
    exact hhull.union_Icc hle' hle
  · simp
  · simp only [List.length_append, List.length_singleton, Nat.add_mul]
    simp only at hr2; omega
  · simp only [List.length_append, List.length_singleton]; omega
  · unfold Full at hroom
    rw [iostrBufsize_eq] at hroom ⊢
    simp only [List.length_append]; omega

omit hfd in
/-- A touching access in a full string: inside the old range or sticking out on both sides, it restarts the batch
with its own interval. -/
theorem stretch_restart {s : Single}
    (hcase : s.vars.lastOff ≤ currStart a.off ∧ currEnd a.size a.off ≤ s.vars.lastEnd ∨
      currStart a.off < s.vars.lastOff ∧ s.vars.lastEnd ≤ currEnd a.size a.off) :
    stretch s.vars (currStart a.off) (currEnd a.size a.off)
        (batchReadWriteNotify op fd (currStart a.off) (currEnd a.size a.off) a.size a.off s.vars).1 =
      (batchReadWriteNotify op fd (currStart a.off) (currEnd a.size a.off) a.size a.off s.vars).1 := by
  rw [notify_vars hv.size_lt hv.off_lt]
  unfold stretch
  split_ifs <;> first | rfl | omega

omit hfd in
/-- Sticking out on one side, it counts what sticks out twice. -/
theorem full_not_exact (hr : a.Rounds) {s : Single} (hs : HullInv s) (tr : List (Access × Effect))
    (ht : Touches s.vars (currStart a.off) (currEnd a.size a.off))
    (hcase : ¬ (s.vars.lastOff ≤ currStart a.off ∧ currEnd a.size a.off ≤ s.vars.lastEnd ∨
      currStart a.off < s.vars.lastOff ∧ s.vars.lastEnd ≤ currEnd a.size a.off)) :
    ¬ Exact ⟨stretch s.vars (currStart a.off) (currEnd a.size a.off)
        (batchReadWriteNotify op fd (currStart a.off) (currEnd a.size a.off) a.size a.off s.vars).1,
      tr ++ (batchReadWriteNotify op fd (currStart a.off) (currEnd a.size a.off) a.size a.off s.vars).2.map
        (a, ·)⟩ := by
  intro h
  have hh := h.hull
  obtain ⟨hle, hw⟩ := hv.width hr
  have hm := maxBlocks_eq
  obtain ⟨g1, g2, g3, g4⟩ := hs.range
  simp only [listed_notify, blocksOf_singleton, notify_vars hv.size_lt hv.off_lt] at hh
  have hends := hh.ends hle
  revert hends
  generalize currStart a.off = cs at *
  generalize currEnd a.size a.off = ce at *
  have he := size32_eq (x := ce - cs + 1) (by omega) (by omega)
  unfold Touches Vars.lastEnd at ht
  unfold Vars.lastEnd at hcase
  unfold stretch Vars.lastEnd
  split_ifs with c1 c2 c2
  · omega
  · have he' := size32_eq (x := size32 (ce - cs + 1) + (ce - (s.vars.lastOff + s.vars.lastSize - 1))) (by omega)
      (by omega)
    simp only; omega
  · omega
  · have he' := size32_eq (x := size32 (ce - cs + 1) + (s.vars.lastOff - cs)) (by omega) (by omega)
    simp only; omega

theorem next_eq {s : Single} (hs : RangeOk s.vars) :
    s.next op fd a =
      if Touches s.vars (currStart a.off) (currEnd a.size a.off) then
        ⟨stretch s.vars (currStart a.off) (currEnd a.size a.off)
            (recordIostr op fd (currStart a.off) (currEnd a.size a.off) a.size a.off s.vars).1,
          s.trace ++
            (recordIostr op fd (currStart a.off) (currEnd a.size a.off) a.size a.off s.vars).2.map (a, ·)⟩
      else
        ⟨(batchReadWriteNotify op fd (currStart a.off) (currEnd a.size a.off) a.size a.off s.vars).1,
          s.trace ++
            (batchReadWriteNotify op fd (currStart a.off) (currEnd a.size a.off) a.size a.off s.vars).2.map
              (a, ·)⟩ := by
  obtain ⟨h1, h2⟩ := hv.currEnd_bounds
  rw [Single.next, first_eq hs (hv.args hfd) hv.off_lt h1 h2]
  split_ifs <;> rfl

/-- A harmless access keeps the invariant. -/
theorem HullInv.next {s : Single} (hs : HullInv s) (h : Harmless s a) : HullInv (s.next op fd a) := by
  obtain ⟨hr, hfull⟩ := h
  rw [next_eq hfd hv hs.range]
  split_ifs with ht
  · by_cases hf : Full s.vars
    · rw [recordIostr_full hf, stretch_restart hv (hfull hf ht)]
      exact restart_inv hv hr _ _
    · rw [recordIostr_room hf hv.size_lt hv.off_lt]
      exact stretch_inv hv hr hs hf ht
  · exact restart_inv hv hr _ _

/-- Any other leaves a range that is not exact. -/
theorem HullInv.not_exact {s : Single} (hs : HullInv s) (h : ¬ Harmless s a) : ¬ Exact (s.next op fd a) := by
  rw [next_eq hfd hv hs.range]
  by_cases hr : a.Rounds
  · have hfull : Full s.vars ∧ Touches s.vars (currStart a.off) (currEnd a.size a.off) ∧
        ¬ (s.vars.lastOff ≤ currStart a.off ∧ currEnd a.size a.off ≤ s.vars.lastEnd ∨
          currStart a.off < s.vars.lastOff ∧ s.vars.lastEnd ≤ currEnd a.size a.off) := by
      by_contra hn
      exact h ⟨hr, fun hf ht => by_contra fun hc => hn ⟨hf, ht, hc⟩⟩
    obtain ⟨hf, ht, hc⟩ := hfull
    rw [if_pos ht, recordIostr_full hf]
    exact full_not_exact hv hr hs _ ht hc
  · have ht : ¬ Touches s.vars (currStart a.off) (currEnd a.size a.off) := by
      have := hs.range.off_nonneg
      unfold Access.Rounds at hr
      unfold Touches
      rw [currEnd_overflow (by omega) hv.no_overflow]
      omega
    rw [if_neg ht]
    exact not_exact_of_overflow hv hr _ _

theorem start_eq (b : Vars) : Single.start op fd b a =
    ⟨(batchReadWriteNotify op fd (currStart a.off) (currEnd a.size a.off) a.size a.off b).1,
      [] ++ (batchReadWriteNotify op fd (currStart a.off) (currEnd a.size a.off) a.size a.off b).2.map (a, ·)⟩ := by
  simp only [Single.start, batchReadWriteSecond, hv.args hfd, ↓reduceIte, List.nil_append]

theorem HullInv.start (hr : a.Rounds) (b : Vars) : HullInv (Single.start op fd b a) := by
  rw [start_eq hfd hv]
  exact restart_inv hv hr _ _

theorem not_exact_start (hr : ¬ a.Rounds) (b : Vars) : ¬ Exact (Single.start op fd b a) := by
  rw [start_eq hfd hv]
  exact not_exact_of_overflow hv hr _ _

end Step

/-! ## Runs -/

/-- **The batched range is the hull of the listed accesses, after every call, iff every access is harmless**: the
first can be rounded up, and each further one can too and, when it touches the range while the string is full, lies
inside the range or sticks out on both sides. -/
theorem range_hull_iff (op : String) {fd : Int} (hfd : 0 ≤ fd) (b : Vars) {a : Access} (ha : a.Valid)
    (as : List Access) (has : ∀ a' ∈ as, a'.Valid) :
    (Exact (Single.start op fd b a) ∧
        EachStep (Single.next op fd) (fun s a' => Exact (s.next op fd a')) (Single.start op fd b a) as) ↔
      a.Rounds ∧ EachStep (Single.next op fd) Harmless (Single.start op fd b a) as := by
  by_cases hr : a.Rounds
  · have hs : HullInv (Single.start op fd b a) := HullInv.start hfd ha hr b
    have hiff : ∀ (s : Single) (a' : Access), HullInv s → a'.Valid → (Harmless s a' ↔ Exact (s.next op fd a')) :=
      fun s a' hs hv => ⟨fun hh => (hs.next hfd hv hh).exact, fun he => by_contra fun hn => hs.not_exact hfd hv hn he⟩
    have h := eachStep_iff hiff (fun s a' hs hv hh => hs.next hfd hv hh) hs has
    exact ⟨fun hx => ⟨hr, h.mpr hx.2⟩, fun hx => ⟨hs.exact, h.mp hx.2⟩⟩
  · exact ⟨fun hx => absurd hx.1 (not_exact_start hfd ha hr b), fun hx => absurd hx.1 hr⟩

/-- A read of the first block and one of the second: every access is harmless. -/
theorem two_blocks_exact :
    Exact (Single.start "read" 3 Vars.init ⟨1, 0⟩) ∧
    EachStep (Single.next "read" 3) (fun s a' => Exact (s.next "read" 3 a')) (Single.start "read" 3 Vars.init ⟨1, 0⟩)
      [⟨1, 4096⟩] :=
  (range_hull_iff "read" (by decide) Vars.init ⟨by decide, by decide, by decide, by decide⟩ [⟨1, 4096⟩]
    (by intro a ha; rw [List.mem_singleton] at ha; subst ha; exact ⟨by decide, by decide, by decide, by decide⟩)).mpr
    ⟨by unfold Access.Rounds; decide, ⟨by unfold Access.Rounds; decide, fun h => absurd h (by decide)⟩, trivial⟩

/-! ## A run that leaves a wrong range -/

section Sample

variable {s : Single} {str : List Char} (hs : s.vars = ⟨3, 1, 0, str, []⟩)
include hs

theorem sample_range : RangeOk s.vars := by
  rw [hs]; exact ⟨by simp, by simp, by simp, by simp⟩

/-- One more read of the first byte only adds its record. -/
theorem next_sample (hlen : str.length + 64 < 4096) :
    (s.next "read" 3 ⟨1, 0⟩).vars = ⟨3, 1, 0, str ++ ioRecord 1 0, []⟩ := by
  have hv : (⟨1, 0⟩ : Access).Valid := ⟨by decide, by decide, by decide, by decide⟩
  have h0 : currStart 0 = 0 := by decide
  have h1 : currEnd 1 0 = 0 := by decide
  have hroom : ¬ Full s.vars := by
    rw [hs, Full, iostrBufsize_eq]; simp only; omega
  rw [next_eq (by decide) hv (sample_range hs), if_pos (by rw [hs, h0, h1]; simp [Touches, Vars.lastEnd]),
    recordIostr_room hroom (by decide) (by decide), hs, h0, h1]
  simp [stretch, Vars.lastEnd]

/-- A byte of the second block, with the string full, leaves a range of two blocks. -/
theorem next_sample_full (hlen : 4096 ≤ str.length + 64) : ¬ Exact (s.next "read" 3 ⟨1, 4096⟩) := by
  have hv : (⟨1, 4096⟩ : Access).Valid := ⟨by decide, by decide, by decide, by decide⟩
  have h0 : currStart 4096 = 1 := by decide
  have h1 : currEnd 1 4096 = 1 := by decide
  have hfull : Full s.vars := by
    rw [hs, Full, iostrBufsize_eq]; exact hlen
  intro h
  rw [next_eq (by decide) hv (sample_range hs), if_pos (by rw [hs, h0, h1]; simp [Touches, Vars.lastEnd]),
    recordIostr_full hfull] at h
  have hh := h.hull
  simp only [listed_notify, blocksOf_singleton, notify_vars hv.size_lt hv.off_lt] at hh
  have hends := (hh.ends (by decide)).2
  rw [hs, h0, h1] at hends
  simp [stretch, Vars.lastEnd, size32] at hends

end Sample

theorem foldl_next_sample (k : Nat) (hk : k ≤ 1007) :
    ∃ str, ((List.replicate k ⟨1, 0⟩).foldl (Single.next "read" 3) (Single.start "read" 3 Vars.init ⟨1, 0⟩)).vars =
      ⟨3, 1, 0, str, []⟩ ∧ str.length = 4 * (k + 1) := by
  induction k with
  | zero => exact ⟨ioRecord 1 0, by decide, by decide⟩
  | succ k ih =>
    obtain ⟨str, hs, hlen⟩ := ih (by omega)
    refine ⟨str ++ ioRecord 1 0, ?_, ?_⟩
    · rw [List.replicate_succ', List.foldl_append]
      exact next_sample hs (by omega)
    · have h4 : (ioRecord 1 0).length = 4 := by decide
      rw [List.length_append, hlen, h4]; omega

/-- **One byte read 1008 times at the start of a file, then one byte of its second block**: the string is full at the
last read, which starts a new batch whose range is two blocks long, although the read has one. -/
theorem stale_range_overcounts :
    (∀ a ∈ (⟨1, 0⟩ : Access) :: List.replicate 1007 ⟨1, 0⟩ ++ [⟨1, 4096⟩], a.Valid) ∧
    ¬ Exact (((List.replicate 1007 ⟨1, 0⟩).foldl (Single.next "read" 3)
      (Single.start "read" 3 Vars.init ⟨1, 0⟩)).next "read" 3 ⟨1, 4096⟩) := by
  refine ⟨fun a ha => ?_, ?_⟩
  · rw [List.mem_append, List.mem_cons, List.mem_replicate, List.mem_singleton] at ha
    rcases ha with (rfl | ⟨-, rfl⟩) | rfl <;> exact ⟨by decide, by decide, by decide, by decide⟩
  · obtain ⟨str, hs, hlen⟩ := foldl_next_sample 1007 (by omega)
    exact next_sample_full hs (by omega)

end Cosmost.Batch

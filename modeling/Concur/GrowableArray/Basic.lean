import Mathlib

/-! # Index arithmetic and tagged words of `GrowableArray`

`SEGMENT_LOGSIZE`, the bound `max_key` of the height loop of `get` and the slot
position `current_index` of its descent, on naturals standing for `usize`
values. An `Atomic<Segment>` word keeps a 3-bit tag in the low bits of an
8-aligned address; the allocator places segment number `n` at `segAddr n`.
-/

namespace Concur.GrowableArray

/-- `SEGMENT_LOGSIZE`. -/
def segmentLogsize : Nat := 10

/-- `USIZE_SIZE`, the width of `usize`. -/
def usizeSize : Nat := 64

/-- `usize::MAX`. -/
def usizeMax : Nat := 2 ^ usizeSize - 1

/-- The height loop of `get` leaves as soon as `index < max_key`. -/
def maxKey (rootHeight : Nat) : Nat :=
  if rootHeight > 0 then
    usizeMax >>> (usizeSize - min usizeSize (segmentLogsize * rootHeight))
  else 0

/-- `mask`, selecting one slot of a segment. -/
def mask : Nat := (1 <<< segmentLogsize) - 1

/-- `current_index`: the slot of `index` in a segment at `currentHeight`. -/
def currentIndex (index currentHeight : Nat) : Nat :=
  (index >>> ((currentHeight - 1) * segmentLogsize)) &&& mask

private theorem mul_sub_one_div {a b : Nat} (ha : 1 ≤ a) (hb : 1 ≤ b) :
    (a * b - 1) / b = a - 1 := by
  apply Nat.div_eq_of_lt_le
  · rw [Nat.sub_mul, one_mul]; omega
  · rw [Nat.sub_add_cancel ha]
    have : 1 ≤ a * b := Nat.one_le_iff_ne_zero.mpr (by positivity)
    omega

@[simp] theorem maxKey_zero : maxKey 0 = 0 := rfl

theorem maxKey_eq {h : Nat} (hh : 0 < h) : maxKey h = 2 ^ min 64 (10 * h) - 1 := by
  rw [maxKey, if_pos hh, Nat.shiftRight_eq_div_pow, usizeMax, usizeSize, segmentLogsize]
  have hm : min 64 (10 * h) ≤ 64 := min_le_left _ _
  generalize min 64 (10 * h) = m at *
  rw [show 2 ^ 64 = 2 ^ m * 2 ^ (64 - m) by rw [← pow_add, Nat.add_sub_cancel' hm]]
  exact mul_sub_one_div Nat.one_le_two_pow Nat.one_le_two_pow

theorem maxKey_le_usizeMax (h : Nat) : maxKey h ≤ usizeMax := by
  rcases Nat.eq_zero_or_pos h with rfl | hh
  · exact Nat.zero_le _
  · rw [maxKey_eq hh, usizeMax, usizeSize]
    exact Nat.sub_le_sub_right (Nat.pow_le_pow_right (by norm_num) (min_le_left _ _)) 1

theorem maxKey_of_seven_le {h : Nat} (hh : 7 ≤ h) : maxKey h = usizeMax := by
  rw [maxKey_eq (by omega), min_eq_left (by omega)]; rfl

theorem lt_pow_of_lt_maxKey {i h : Nat} (hi : i < maxKey h) : i < 1024 ^ h := by
  rcases Nat.eq_zero_or_pos h with rfl | hh
  · simp at hi
  · rw [maxKey_eq hh] at hi
    have : 2 ^ min 64 (10 * h) ≤ 1024 ^ h := by
      rw [show (1024 : Nat) = 2 ^ 10 from rfl, ← pow_mul]
      exact Nat.pow_le_pow_right (by norm_num) (min_le_right _ _)
    omega

theorem currentIndex_eq (i h : Nat) : currentIndex i h = i / 1024 ^ (h - 1) % 1024 := by
  have hm : mask = 2 ^ 10 - 1 := rfl
  rw [currentIndex, hm, Nat.and_pow_two_sub_one_eq_mod, Nat.shiftRight_eq_div_pow,
    segmentLogsize, mul_comm, pow_mul]
  rfl

theorem currentIndex_lt (i h : Nat) : currentIndex i h < 1024 := by
  rw [currentIndex_eq]; exact Nat.mod_lt _ (by norm_num)

theorem div_pow_mul_add_currentIndex (i : Nat) {h : Nat} (hh : 1 ≤ h) :
    i / 1024 ^ h * 1024 + currentIndex i h = i / 1024 ^ (h - 1) := by
  obtain ⟨k, rfl⟩ : ∃ k, h = k + 1 := ⟨h - 1, by omega⟩
  rw [currentIndex_eq, Nat.add_sub_cancel, pow_succ, ← Nat.div_div_eq_div_mul, mul_comm]
  exact Nat.div_add_mod _ _

/-- Alignment of `Segment`; its low `log2` bits carry the tag. -/
def align : Nat := 8

/-- `Shared::tag`. -/
def tag (w : Nat) : Nat := w % align

/-- `Shared::is_null`: the address part is zero. -/
def isNull (w : Nat) : Prop := w < align

instance : DecidablePred isNull := fun w => inferInstanceAs (Decidable (w < align))

/-- `with_tag`: keep the address, replace the tag by `t` masked to its bits. -/
def withTag (w t : Nat) : Nat := w / align * align + t % align

/-- The address the allocator gives segment number `n`. -/
def segAddr (n : Nat) : Nat := align * (n + 1)

/-- The segment number a word points to, its tag dropped. -/
def segOf (w : Nat) : Nat := w / align - 1

@[simp] theorem tag_zero : tag 0 = 0 := rfl

@[simp] theorem isNull_zero : isNull 0 := by decide

@[simp] theorem tag_withTag_segAddr (n t : Nat) : tag (withTag (segAddr n) t) = t % 8 := by
  simp only [tag, withTag, segAddr, align]; omega

@[simp] theorem segOf_withTag_segAddr (n t : Nat) : segOf (withTag (segAddr n) t) = n := by
  simp only [segOf, withTag, segAddr, align]; omega

@[simp] theorem not_isNull_withTag_segAddr (n t : Nat) : ¬ isNull (withTag (segAddr n) t) := by
  simp only [isNull, withTag, segAddr, align]; omega

@[simp] theorem segOf_segAddr (n : Nat) : segOf (segAddr n) = n := by
  simp only [segOf, segAddr, align]; omega

@[simp] theorem not_isNull_segAddr (n : Nat) : ¬ isNull (segAddr n) := by
  simp only [isNull, segAddr, align]; omega

@[simp] theorem tag_segAddr (n : Nat) : tag (segAddr n) = 0 := by
  simp only [tag, segAddr, align]; omega

end Concur.GrowableArray

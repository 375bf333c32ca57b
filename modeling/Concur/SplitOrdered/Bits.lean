import Concur.GrowableArray.Basic

/-! # Split-order keys

`usize::reverse_bits`, the list-keys of bucket sentinels (`reverse_bits(b)`)
and of data entries (`make_content_key`), the key check of
`assert_valid_key`, and the parent bucket `lookup_bucket` computes from
`size`. A sentinel key is even and a data key odd; a data key is above the
sentinel key of its bucket, and a bucket's sentinel key is above its parent's.
-/

namespace Concur.SplitOrdered

open Concur.GrowableArray (usizeSize)

/-- The low `w` bits of `x`, in reverse order. -/
def revBits : Nat → Nat → Nat
  | 0, _ => 0
  | w + 1, x => x % 2 * 2 ^ w + revBits w (x / 2)

/-- `usize::reverse_bits`. -/
def reverseBits (x : Nat) : Nat := revBits usizeSize x

/-- `HI_MASK`. -/
def hiMask : Nat := 2 ^ (usizeSize - 1)

/-- `LOAD_FACTOR`. -/
def loadFactor : Nat := 2

/-- `make_content_key`: the list-key of the data entry for `key`. -/
def makeContentKey (key : Nat) : Nat := reverseBits (key ||| hiMask)

/-- `assert_valid_key`: `key.leading_zeros() != 0`. -/
def validKey (key : Nat) : Bool := key < hiMask

/-- The loop of `lookup_bucket` halving `parent`, from `size`, until it is at most `index`. -/
def parentLoop (index : Nat) : Nat → Nat → Nat
  | 0, parent => parent
  | fuel + 1, parent => if parent / 2 > index then parentLoop index fuel (parent / 2) else parent / 2

/-- The parent bucket `lookup_bucket` computes for `index` when `size` is read as `size`. -/
def lookupParent (size index : Nat) : Nat := index - parentLoop index usizeSize size

theorem revBits_lt (w x : Nat) : revBits w x < 2 ^ w := by
  induction w generalizing x with
  | zero => simp [revBits]
  | succ w ih =>
    have := ih (x / 2)
    have : x % 2 ≤ 1 := Nat.le_of_lt_succ (Nat.mod_lt _ (by norm_num))
    rw [revBits, pow_succ]
    nlinarith

@[simp] theorem revBits_zero_right (w : Nat) : revBits w 0 = 0 := by
  induction w with
  | zero => rfl
  | succ w ih => simp [revBits, ih]

theorem revBits_add (j m x : Nat) :
    revBits (j + m) x = revBits j x * 2 ^ m + revBits m (x / 2 ^ j) := by
  induction j generalizing x with
  | zero => simp [revBits]
  | succ j ih =>
    rw [Nat.succ_add, revBits, ih, revBits, pow_succ', Nat.div_div_eq_div_mul, pow_add]
    ring

theorem revBits_mod_two_pow (w x : Nat) : revBits w (x % 2 ^ w) = revBits w x := by
  induction w generalizing x with
  | zero => rfl
  | succ w ih =>
    rw [revBits, revBits, pow_succ', Nat.mod_mul_right_mod, Nat.mod_mul_right_div_self, ih]

theorem revBits_revBits (w x : Nat) : revBits w (revBits w x) = x % 2 ^ w := by
  induction w generalizing x with
  | zero => simp [revBits, Nat.mod_one]
  | succ w ih =>
    have hr := revBits_lt w (x / 2)
    have hb : x % 2 < 2 := Nat.mod_lt _ (by norm_num)
    have hx : revBits (w + 1) x = x % 2 * 2 ^ w + revBits w (x / 2) := rfl
    have hlow : (x % 2 * 2 ^ w + revBits w (x / 2)) % 2 ^ w = revBits w (x / 2) := by
      rw [add_comm, Nat.add_mul_mod_self_right, Nat.mod_eq_of_lt hr]
    have hhigh : (x % 2 * 2 ^ w + revBits w (x / 2)) / 2 ^ w = x % 2 := by
      rw [add_comm, Nat.add_mul_div_right _ _ (by positivity), Nat.div_eq_of_lt hr, zero_add]
    rw [hx, revBits_add w 1, ← revBits_mod_two_pow w (x % 2 * 2 ^ w + _), hlow, ih, hhigh,
      show 2 ^ (w + 1) = 2 * 2 ^ w by ring, Nat.mod_mul]
    simp [revBits, Nat.mod_eq_of_lt hb]
    ring

theorem revBits_eq_zero {w x : Nat} (h : revBits w x = 0) : x % 2 ^ w = 0 := by
  rw [← revBits_revBits, h, revBits_zero_right]

theorem revBits_mod_two {w : Nat} (hw : 0 < w) (x : Nat) :
    revBits w x % 2 = x / 2 ^ (w - 1) % 2 := by
  obtain ⟨w, rfl⟩ := Nat.exists_eq_add_of_lt hw
  rw [zero_add, Nat.add_sub_cancel, revBits_add w 1, revBits, revBits, pow_zero, mul_one,
    add_zero, pow_one, mul_comm, Nat.mul_add_mod, Nat.mod_mod]

theorem reverseBits_lt (x : Nat) : reverseBits x < 2 ^ 64 := revBits_lt _ _

theorem hiMask_eq : hiMask = 2 ^ 63 := rfl

theorem or_hiMask {key : Nat} (hk : key < hiMask) : key ||| hiMask = key + hiMask := by
  rw [hiMask_eq] at hk ⊢
  apply Nat.eq_of_testBit_eq
  intro i
  rw [Nat.testBit_or, Nat.add_comm, Nat.testBit_two_pow]
  rcases Nat.lt_trichotomy i 63 with hi | rfl | hi
  · rw [Nat.testBit_two_pow_add_gt hi, decide_eq_false (by omega), Bool.or_false]
  · rw [Nat.testBit_two_pow_add_eq, Nat.testBit_lt_two_pow hk]; rfl
  · rw [Nat.testBit_lt_two_pow (lt_of_lt_of_le hk (Nat.pow_le_pow_right (by norm_num) hi.le)),
      Nat.testBit_lt_two_pow (by
        calc 2 ^ 63 + key < 2 ^ 64 := by omega
          _ ≤ 2 ^ i := Nat.pow_le_pow_right (by norm_num) hi), decide_eq_false (by omega)]
    rfl

theorem makeContentKey_eq {key : Nat} (hk : key < hiMask) :
    makeContentKey key = reverseBits (key + hiMask) := by
  rw [makeContentKey, or_hiMask hk]

theorem reverseBits_mod_two {b : Nat} (hb : b < hiMask) : reverseBits b % 2 = 0 := by
  rw [reverseBits, revBits_mod_two (by decide)]
  rw [hiMask_eq] at hb
  rw [show usizeSize - 1 = 63 from rfl, Nat.div_eq_of_lt hb]

theorem makeContentKey_mod_two {key : Nat} (hk : key < hiMask) : makeContentKey key % 2 = 1 := by
  rw [makeContentKey_eq hk, reverseBits, revBits_mod_two (by decide), hiMask_eq]
  rw [hiMask_eq] at hk
  rw [show usizeSize - 1 = 63 from rfl, Nat.add_div_right _ (by positivity), Nat.div_eq_of_lt hk]

theorem makeContentKey_injective {k k' : Nat} (hk : k < hiMask) (hk' : k' < hiMask)
    (h : makeContentKey k = makeContentKey k') : k = k' := by
  rw [makeContentKey_eq hk, makeContentKey_eq hk'] at h
  have := congrArg (revBits usizeSize) h
  simp only [reverseBits, revBits_revBits] at this
  rw [hiMask_eq] at hk hk' this
  rw [Nat.mod_eq_of_lt (by rw [usizeSize]; omega), Nat.mod_eq_of_lt (by rw [usizeSize]; omega)]
    at this
  omega

theorem reverseBits_mod_two_pow {key j : Nat} (hj : j ≤ 64) :
    reverseBits (key % 2 ^ j) = revBits j key * 2 ^ (64 - j) := by
  have h64 : usizeSize = j + (64 - j) := by rw [usizeSize]; omega
  rw [reverseBits, h64, revBits_add, revBits_mod_two_pow,
    Nat.div_eq_of_lt (Nat.mod_lt _ (by positivity)), revBits_zero_right, add_zero]

theorem makeContentKey_split {key j : Nat} (hk : key < hiMask) (hj : j ≤ 63) :
    ∃ R, 0 < R ∧ R < 2 ^ (64 - j) ∧ makeContentKey key = reverseBits (key % 2 ^ j) + R := by
  have h64 : usizeSize = j + (64 - j) := by rw [usizeSize]; omega
  have hmod : (key + hiMask) % 2 ^ j = key % 2 ^ j := by
    rw [hiMask_eq, show 2 ^ 63 = 2 ^ j * 2 ^ (63 - j) by rw [← pow_add, Nat.add_sub_cancel' hj],
      Nat.add_mul_mod_self_left]
  refine ⟨revBits (64 - j) ((key + hiMask) / 2 ^ j), Nat.pos_iff_ne_zero.mpr fun h => ?_,
    revBits_lt _ _, ?_⟩
  · -- the bit `HI_MASK` survives among the high bits
    rw [hiMask_eq] at hk h
    have hz := revBits_eq_zero h
    have hlo : 2 ^ (63 - j) ≤ (key + 2 ^ 63) / 2 ^ j := by
      rw [Nat.le_div_iff_mul_le (by positivity), ← pow_add, Nat.sub_add_cancel hj]; omega
    have hhi : (key + 2 ^ 63) / 2 ^ j < 2 ^ (64 - j) := by
      rw [Nat.div_lt_iff_lt_mul (by positivity), ← pow_add, Nat.sub_add_cancel (by omega)]; omega
    rw [Nat.mod_eq_of_lt hhi] at hz
    have : 0 < 2 ^ (63 - j) := by positivity
    omega
  · rw [makeContentKey_eq hk, reverseBits_mod_two_pow (by omega), reverseBits, h64, revBits_add,
      ← revBits_mod_two_pow j (key + hiMask), hmod, revBits_mod_two_pow]

theorem reverseBits_lt_makeContentKey {key j : Nat} (hk : key < hiMask) (hj : j ≤ 63) :
    reverseBits (key % 2 ^ j) < makeContentKey key := by
  obtain ⟨R, hR, -, he⟩ := makeContentKey_split hk hj
  omega

theorem reverseBits_lt_makeContentKey_iff {key b j : Nat} (hk : key < hiMask) (hj : j ≤ 63)
    (hb : b < 2 ^ j) :
    reverseBits b < makeContentKey key ↔ reverseBits b ≤ reverseBits (key % 2 ^ j) := by
  obtain ⟨R, hR, hRu, he⟩ := makeContentKey_split hk hj
  have hb' : reverseBits b = revBits j b * 2 ^ (64 - j) := by
    rw [← reverseBits_mod_two_pow (by omega), Nat.mod_eq_of_lt hb]
  rw [he, hb', reverseBits_mod_two_pow (by omega)]
  refine ⟨fun h => Nat.mul_le_mul_right _ (Nat.lt_succ_iff.mp ?_), fun h => by omega⟩
  refine Nat.lt_of_mul_lt_mul_right (a := 2 ^ (64 - j)) ?_
  rw [Nat.succ_mul]
  omega

theorem parentLoop_two_pow {index : Nat} (hi : 0 < index) :
    ∀ {fuel m : Nat}, m ≤ fuel → index < 2 ^ m →
      parentLoop index fuel (2 ^ m) = 2 ^ Nat.log 2 index
  | 0, m, hm, h => by
    obtain rfl : m = 0 := by omega
    simp at h; omega
  | fuel + 1, m, hm, h => by
    obtain ⟨m, rfl⟩ : ∃ m', m = m' + 1 := ⟨m - 1, by
      rcases m with _ | m
      · simp at h; omega
      · rfl⟩
    rw [parentLoop, pow_succ, Nat.mul_div_cancel _ (by norm_num)]
    split_ifs with hp
    · exact parentLoop_two_pow hi (by omega) hp
    · rw [Nat.log_eq_of_pow_le_of_lt_pow (not_lt.mp hp) (by rwa [pow_succ])]

theorem parentLoop_zero_two_pow : ∀ {fuel m : Nat}, m < fuel → parentLoop 0 fuel (2 ^ m) = 0
  | fuel + 1, 0, _ => by simp [parentLoop]
  | fuel + 1, m + 1, h => by
    rw [parentLoop, pow_succ, Nat.mul_div_cancel _ (by norm_num), if_pos (by positivity)]
    exact parentLoop_zero_two_pow (by omega)

theorem lookupParent_eq {index m : Nat} (hi : 0 < index) (hm : m ≤ 64) (h : index < 2 ^ m) :
    lookupParent (2 ^ m) index = index - 2 ^ Nat.log 2 index := by
  rw [lookupParent, parentLoop_two_pow hi (by rw [usizeSize]; omega) h]

theorem reverseBits_clear_top_lt {index : Nat} (hi : 0 < index) (h : index < hiMask) :
    reverseBits (index - 2 ^ Nat.log 2 index) < reverseBits index := by
  set i := Nat.log 2 index
  have hle : 2 ^ i ≤ index := Nat.pow_log_le_self 2 hi.ne'
  have hlt : index < 2 ^ (i + 1) := Nat.lt_pow_succ_log_self (by norm_num) index
  have hi63 : i + 1 ≤ 63 := by
    rw [hiMask_eq] at h
    by_contra hc
    have : 2 ^ 63 ≤ 2 ^ i := Nat.pow_le_pow_right (by norm_num) (by omega)
    omega
  have hsplit : ∀ x, x < 2 ^ (i + 1) →
      reverseBits x = (revBits i x * 2 + x / 2 ^ i % 2) * 2 ^ (64 - (i + 1)) := by
    intro x hx
    have := @reverseBits_mod_two_pow x (i + 1) (by omega)
    rw [Nat.mod_eq_of_lt hx, revBits_add i 1] at this
    simpa [revBits] using this
  have hp : index - 2 ^ i < 2 ^ i := by omega
  have hlow : revBits i index = revBits i (index - 2 ^ i) := by
    rw [← revBits_mod_two_pow i index, Nat.mod_eq_sub_mod hle, revBits_mod_two_pow]
  have htop : index / 2 ^ i = 1 := Nat.div_eq_of_lt_le (by omega) (by rw [pow_succ] at hlt; omega)
  rw [hsplit _ (by omega), hsplit _ hlt, hlow, htop, Nat.div_eq_of_lt hp]
  exact Nat.mul_lt_mul_of_pos_right (by simp) (by positivity)

/-- The split order of keys. `make_content_key` is injective and odd, and a
sentinel key `reverse_bits(b)` is even, so no data key is a sentinel key. Under
every size `s`, a power of two with `2 ≤ s ≤ 2 ^ 63`, the data key of `k` lies
above the sentinel key of a bucket `b' < s` exactly when that sentinel key is at
most the one of `k`'s bucket `k % s`: the entry sorts after the sentinel of its
bucket and before every sentinel that follows it. -/
theorem contentKey_split_order {k k' b b' s : Nat} (hk : k < hiMask) (hk' : k' < hiMask)
    (hb : b < hiMask) (hs : ∃ j, s = 2 ^ j) (hs2 : 2 ≤ s) (hs63 : s ≤ 2 ^ 63) (hb' : b' < s) :
    (k ≠ k' → makeContentKey k ≠ makeContentKey k') ∧
    makeContentKey k % 2 = 1 ∧ reverseBits b % 2 = 0 ∧ makeContentKey k ≠ reverseBits b ∧
    (reverseBits b' < makeContentKey k ↔ reverseBits b' ≤ reverseBits (k % s)) ∧
    reverseBits (k % s) < makeContentKey k ∧
    (reverseBits (k % s) < reverseBits b' → makeContentKey k < reverseBits b') := by
  obtain ⟨j, rfl⟩ := hs
  have hj : j ≤ 63 := (Nat.pow_le_pow_iff_right (by norm_num)).mp hs63
  have hsep : ∀ c, c < hiMask → makeContentKey k ≠ reverseBits c := fun c hc he => by
    have := makeContentKey_mod_two hk
    rw [he, reverseBits_mod_two hc] at this
    cases this
  have hiff := reverseBits_lt_makeContentKey_iff hk hj hb'
  refine ⟨fun hne he => hne (makeContentKey_injective hk hk' he), makeContentKey_mod_two hk,
    reverseBits_mod_two hb, hsep b hb, hiff, reverseBits_lt_makeContentKey hk hj, fun hlt => ?_⟩
  exact lt_of_le_of_ne (not_lt.mp fun h => absurd (hiff.mp h) (not_le.mpr hlt))
    (hsep b' (hb'.trans_le (by rw [hiMask_eq]; exact hs63)))

theorem contentKey_split_order_five :
    ((5 : Nat) ≠ 6 → makeContentKey 5 ≠ makeContentKey 6) ∧
    makeContentKey 5 % 2 = 1 ∧ reverseBits 3 % 2 = 0 ∧ makeContentKey 5 ≠ reverseBits 3 ∧
    (reverseBits 1 < makeContentKey 5 ↔ reverseBits 1 ≤ reverseBits (5 % 4)) ∧
    reverseBits (5 % 4) < makeContentKey 5 ∧
    (reverseBits (5 % 4) < reverseBits 1 → makeContentKey 5 < reverseBits 1) :=
  contentKey_split_order (by decide) (by decide) (by decide) ⟨2, rfl⟩ (by decide) (by decide)
    (by decide)

end Concur.SplitOrdered

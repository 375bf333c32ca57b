import Concur.SplitOrdered.Linearize

/-! # The recursion of `lookup_bucket`

When the trie slot of bucket `b` is null, `lookup_bucket(b)` re-reads `size`,
halves it until it is at most `b`, and recurses to the parent `b - parent`:
`b` with its most significant set bit cleared, whatever power of two above `b`
it read. A call's `pending` list is the stack of this recursion, so each
bucket waiting in it is the parent chain's next link: the depth of the
recursion plus the set bits of the current bucket is the number of set bits of
the call's own bucket. A search for a sentinel starts at the list head or at
the sentinel of the parent, below the sentinel it looks for.
-/

namespace Concur.SplitOrdered

open Function
open Concur.GrowableArray (usizeSize)

variable {V : Type*} {s s₁ : State V} {order : List Nat}

/-- `usize::count_ones`. -/
def countOnes (x : Nat) : Nat := (List.range usizeSize).countP x.testBit

theorem countOnes_clear_top {b : Nat} (hb : 0 < b) (h : b < 2 ^ usizeSize) :
    countOnes (b - 2 ^ Nat.log 2 b) + 1 = countOnes b := by
  set k := Nat.log 2 b
  have hle : 2 ^ k ≤ b := Nat.pow_log_le_self 2 hb.ne'
  have hlt : b < 2 ^ (k + 1) := Nat.lt_pow_succ_log_self (by norm_num) b
  have hk : k < usizeSize := (Nat.pow_lt_pow_iff_right (by norm_num)).mp (hle.trans_lt h)
  have hr : b - 2 ^ k < 2 ^ k := by rw [pow_succ] at hlt; omega
  have hbits : b.testBit = update (b - 2 ^ k).testBit k true := funext fun j => by
    have hb' : b = 2 ^ k + (b - 2 ^ k) := by omega
    rcases lt_trichotomy j k with hj | rfl | hj
    · rw [update_noteq hj.ne, hb', Nat.testBit_two_pow_add_gt hj, ← hb']
    · rw [update_same, hb', Nat.testBit_two_pow_add_eq, Nat.testBit_lt_two_pow hr]; rfl
    · have hpow : 2 ^ (k + 1) ≤ 2 ^ j := Nat.pow_le_pow_right (by norm_num) hj
      rw [update_noteq hj.ne', Nat.testBit_lt_two_pow (by omega),
        Nat.testBit_lt_two_pow (by omega)]
  have := countP_range_update (b - 2 ^ k).testBit hk true
  rw [Nat.testBit_lt_two_pow hr, ← hbits] at this
  simpa [countOnes] using this.symm

/-- The bucket a call's `lookup_bucket` recursion is at, and the buckets waiting for it. -/
def Pc.frame : Pc V → Option (Nat × List Nat)
  | .lbRead b pending | .lbSize b pending | .lbHead b pending | .publish b pending _
  | .sentinelInsert b pending _ _ | .traverse (.sentinel b pending) _
  | .cleanup (.sentinel b pending) _ _ _ _ _ => some (b, pending)
  | _ => none

/-- Innermost first, each bucket of a recursion is nonzero and is its caller's
bucket with the top set bit cleared. -/
def ParentChain : Nat → List Nat → Prop
  | _, [] => True
  | b, b' :: rest => b ≠ 0 ∧ b = b' - 2 ^ Nat.log 2 b' ∧ ParentChain b' rest

theorem ParentChain.countOnes_add {key size b : Nat} {pending : List Nat}
    (h : ParentChain b pending) (hp : Pending key size b pending) (hs : size ≤ 2 ^ usizeSize) :
    pending.length + countOnes b = countOnes (key % size) := by
  induction pending generalizing b with
  | nil => rw [hp]; simp
  | cons b' rest ih =>
    obtain ⟨hb0, hb, hrest⟩ := h
    obtain ⟨-, hb's, hprest⟩ := hp
    have := countOnes_clear_top (Nat.pos_of_ne_zero fun h0 => hb0 (by simp [hb, h0]))
      (hb's.trans_le hs)
    rw [← hb] at this
    rw [List.length_cons, ← ih hrest hprest]
    omega

theorem CallShape.frame {c : Call V} (h : CallShape s c) {b : Nat} {pending : List Nat}
    (hf : c.pc.frame = some (b, pending)) :
    Pending c.op.key c.size b pending ∧ SizeOk s c.size := by
  rcases hpc : c.pc with _ | _ | ⟨b', p'⟩ | ⟨b', p'⟩ | ⟨b', p'⟩ | ⟨⟨b', p'⟩ | _, start⟩ |
    ⟨⟨b', p'⟩ | _, start, prev, pn, curr, found⟩ | ⟨b', p', start, cursor⟩ | ⟨b', p', cursor⟩ |
    _ | _ | _ | _ | _ | _ | _ | _ <;>
    simp only [hpc, Pc.frame, reduceCtorEq, Option.some.injEq, Prod.mk.injEq] at hf <;>
    obtain ⟨rfl, rfl⟩ := hf <;> simp only [CallShape, hpc] at h
  · exact ⟨h.2.2.2, h.2.1⟩
  · exact ⟨h.2.2.2, h.2.1⟩
  · exact ⟨h.2.2.2, h.2.1⟩
  · exact ⟨h.2.2.1.2, h.2.1⟩
  · exact ⟨h.2.2.1.2, h.2.1⟩
  · exact ⟨h.2.2.2.1, h.2.1⟩
  · exact ⟨h.2.2.2.1, h.2.1⟩

/-- What a call knows of its `lookup_bucket` recursion at its program counter:
its buckets form a parent chain, and a search for a sentinel starts at the
list head or at a sentinel below the one it looks for. -/
def CallDescent (s : State V) (c : Call V) : Prop :=
  match c.pc with
  | .lbRead b pending | .lbSize b pending | .lbHead b pending | .publish b pending _ =>
    ParentChain b pending
  | .traverse (.sentinel b pending) start | .cleanup (.sentinel b pending) start _ _ _ _
  | .sentinelInsert b pending start _ =>
    ParentChain b pending ∧ (start.prev = .head ∨ SentinelStart s.nodes start (reverseBits b))
  | _ => True

theorem CallDescent.frame {c : Call V} (h : CallDescent s c) {b : Nat} {pending : List Nat}
    (hf : c.pc.frame = some (b, pending)) : ParentChain b pending := by
  rcases hpc : c.pc with _ | _ | ⟨b', p'⟩ | ⟨b', p'⟩ | ⟨b', p'⟩ | ⟨_ | ⟨b', p'⟩, start⟩ |
    ⟨_ | ⟨b', p'⟩, start, prev, pn, curr, found⟩ | ⟨b', p', start, cursor⟩ | ⟨b', p', cursor⟩ |
    _ | _ | _ | _ | _ | _ | _ | _ <;>
    simp only [hpc, Pc.frame, reduceCtorEq, Option.some.injEq, Prod.mk.injEq] at hf <;>
    obtain ⟨rfl, rfl⟩ := hf <;> simp only [CallDescent, hpc] at h
  all_goals first | exact h | exact h.1

theorem CallDescent.grows (hg : Grows s s₁) {c : Call V} (h : CallDescent s c) :
    CallDescent s₁ c := by
  unfold CallDescent at h ⊢
  split at h <;> first | trivial | exact h | exact ⟨h.1, h.2.imp id (·.grows hg)⟩

theorem callDescent_retTo {c : Call V} {cursor : Cursor} {b p : Nat} {pending : List Nat}
    {node : Node V} (h : ParentChain b pending) (hpend : Pending c.op.key c.size b pending)
    (hcur : cursor.curr = some p) (hp : s.nodes p = some node) (hv : node.value = none)
    (hk : node.key = reverseBits b) : CallDescent s { c with pc := retTo cursor pending } := by
  cases pending with
  | nil => trivial
  | cons b' rest =>
    show ParentChain b' rest ∧ (cursor.prev = .head ∨ SentinelStart s.nodes cursor (reverseBits b'))
    exact ⟨h.2.2, .inr ⟨p, node, hcur, hp, hv, hk.trans_lt hpend.1⟩⟩

theorem callDescent_afterFind {c : Call V} {target : Target} {start cursor : Cursor}
    {found : Bool} (h : CallDescent s { c with pc := .traverse target start }) :
    CallDescent s { c with pc := s.afterFind c target start cursor found } := by
  cases target with
  | sentinel b pending => cases found <;> first | exact h | exact h.1
  | content =>
    simp only [State.afterFind]
    repeat' split
    all_goals trivial

section Steps

variable {t : Nat} (hs : Shape s order) (hd : CallDescent s (s.calls t))
include hs hd

theorem callDescent_step : CallDescent (step s t) ((step s t).calls t) := by
  have hsh := hs.calls t
  have hstay := hd
  have hnext : ∀ {s₁ : State V} {pc : Pc V}, s₁.calls = s.calls →
      CallDescent s₁ { s.calls t with pc := pc } →
        CallDescent (s₁.setPc t pc) ((s₁.setPc t pc).calls t) :=
    fun hcalls h => by simpa [State.setPc, hcalls] using h
  rcases hpc : (s.calls t).pc with _ | _ | ⟨b, pending⟩ | ⟨b, pending⟩ | ⟨b, pending⟩ |
    ⟨⟨b, pending⟩ | _, start⟩ | ⟨⟨b, pending⟩ | _, start, prev, prevNext, curr, found⟩ |
    ⟨b, pending, start, cursor⟩ | ⟨b, pending, cursor⟩ | cursor | _ | _ | cursor |
    ⟨cursor, next, value⟩ | value | r | _ <;>
    simp only [CallShape, CallDescent, hpc] at hsh hd <;> simp only [step, hpc]
  · -- start
    split_ifs <;> simp [State.setPc] <;> trivial
  · -- find
    split_ifs <;> simp [State.setPc] <;> trivial
  · -- lbRead: a published slot hands over its sentinel's cursor
    obtain ⟨-, -, -, hpend⟩ := hsh
    rcases hbk : s.buckets (reverseBits b) with _ | p
    · exact hnext rfl hd
    · obtain ⟨node, hp, hv, hk⟩ := hs.heap.bucket _ p hbk
      exact hnext rfl (callDescent_retTo hd hpend rfl hp hv hk)
  · -- lbSize: the recursion pushes the parent, `b` with its top bit cleared
    obtain ⟨-, hsize, hb, -⟩ := hsh
    split_ifs with hp0
    · exact hnext rfl hd
    · refine hnext rfl ⟨hp0, ?_, hd⟩
      obtain ⟨m, -, hm, hms⟩ := hs.heap.size
      obtain ⟨j, -, -, hj, hjs⟩ := hsize
      have hb0 : 0 < b := Nat.pos_of_ne_zero fun h0 => hp0 (by simp [lookupParent, h0])
      rw [hms, lookupParent_eq hb0 (by omega) (by omega)]
  · -- lbHead
    exact hnext rfl ⟨hd, .inl rfl⟩
  · -- traverse, sentinel
    split
    · split_ifs
      · exact hnext rfl (callDescent_afterFind hd)
      · exact hnext rfl hd
    · exact hstay
  · -- traverse, content
    split
    · split_ifs
      · exact hnext rfl (callDescent_afterFind trivial)
      · exact hnext rfl trivial
    · exact hstay
  · -- cleanup, sentinel
    rcases hcas : s.cas prev prevNext curr with _ | s₁
    · exact hnext rfl hd
    · have hg := cas_grows hcas fun i hi => absurd hi (hsh.2.2.2.2.1.ne_bucket i)
      exact hnext (cas_frame hcas).2.2.2.1 (callDescent_afterFind
        (⟨hd.1, hd.2.imp id (·.grows hg)⟩ :
          CallDescent s₁ { s.calls t with pc := .traverse (.sentinel b pending) start }))
  · -- cleanup, content
    split
    · exact hnext (cas_frame ‹_›).2.2.2.1 (callDescent_afterFind trivial)
    · exact hnext rfl trivial
  · -- sentinelInsert
    rcases hins : s.insertAt cursor (reverseBits b) none with _ | ⟨s₁, n⟩
    · exact hnext rfl hd
    · exact hnext (insertAt_frame hins).2.2.2.1 hd.1
  · -- publish: the next waiting bucket searches from this sentinel
    obtain ⟨-, -, -, hpend, -, p, node, hcur, hp, hv, hk⟩ := hsh
    rcases hcas : s.cas (.bucket (reverseBits b)) none cursor.curr with _ | s₁
    · exact hnext rfl (callDescent_retTo hd hpend hcur hp hv hk)
    · obtain ⟨node', hp', hk', hv'⟩ := (cas_grows hcas fun _ _ => rfl).keep hp
      exact hnext (cas_frame hcas).2.2.2.1
        (callDescent_retTo hd hpend hcur hp' (hv'.trans hv) (hk'.trans hk))
  · -- insertCas
    split
    · split
      · rename_i hins
        exact hnext (insertAt_frame hins).2.2.2.1 trivial
      · exact hnext rfl trivial
    · exact hstay
  · split_ifs <;> exact hnext rfl trivial
  · split_ifs <;> exact hnext rfl trivial
  · -- mark
    split
    · split
      · split_ifs <;> exact hnext rfl trivial
      · exact hstay
    · exact hnext rfl trivial
  · -- unlink
    split
    · exact hnext (cas_frame ‹_›).2.2.2.1 trivial
    · exact hnext rfl trivial
  · split <;> exact hnext rfl trivial
  · exact hstay
  · exact hstay

end Steps

theorem Reachable.descent (hr : Reachable s) (t : Nat) : CallDescent s (s.calls t) := by
  induction hr generalizing t with
  | initial ops =>
    simp only [init]
    split <;> trivial
  | step u hr ih =>
    obtain ⟨order, hs⟩ := hr.shape
    rcases eq_or_ne t u with rfl | htu
    · exact callDescent_step hs (ih t)
    · rw [(stepFrame _ u).calls t htu]
      exact (ih t).grows (shapedStep hs u).2

/-- The parent that `lookup_bucket` computes. For every power of two `size`
with `2 ≤ size ≤ 2 ^ 63` and bucket `b < size`, the halving loop stops at
`2 ^ ⌊log₂ b⌋`, at `0` for `b = 0`, so the parent is `b` with its most
significant set bit cleared, and `0` for `b = 0`; for `b ≥ 1` it is below `b`,
its sentinel key is below `b`'s, and it has one set bit less. In every state of
every interleaving, a call whose recursion is at bucket `b'` with the buckets
`pending` waiting has `pending.length + count_ones(b') = count_ones(b₀)` for its
own bucket `b₀ = key % size`, and `b' ≠ 0` when it is nested: at most
`count_ones(b₀)` nested calls. Its search for the sentinel `reverse_bits(b')`
starts at the list head or at a sentinel below that key. -/
theorem lookupParent_clears_top_bit {size b : Nat} (hs : ∃ j, size = 2 ^ j) (hs2 : 2 ≤ size)
    (hs63 : size ≤ 2 ^ 63) (hb : b < size) {s : State V} (hr : Reachable s) :
    parentLoop b usizeSize size = (if b = 0 then 0 else 2 ^ Nat.log 2 b) ∧
    (b = 0 → lookupParent size b = 0) ∧
    (0 < b → lookupParent size b = b - 2 ^ Nat.log 2 b ∧ lookupParent size b < b ∧
      reverseBits (lookupParent size b) < reverseBits b ∧
      countOnes (lookupParent size b) + 1 = countOnes b) ∧
    (∀ t b' pending, (s.calls t).pc.frame = some (b', pending) →
      pending.length + countOnes b' = countOnes ((s.calls t).op.key % (s.calls t).size) ∧
      (pending ≠ [] → 0 < b')) ∧
    ∀ t b' pending start, (s.calls t).pc = .traverse (.sentinel b' pending) start →
      start.prev = .head ∨ SentinelStart s.nodes start (reverseBits b') := by
  obtain ⟨j, rfl⟩ := hs
  have hj : j ≤ 63 := (Nat.pow_le_pow_iff_right (by norm_num)).mp hs63
  refine ⟨?_, fun h0 => by simp [lookupParent, h0], fun hb0 => ?_, fun t b' pending hf => ?_,
    fun t b' pending start hpc => ?_⟩
  · split_ifs with h0
    · rw [h0]; exact parentLoop_zero_two_pow (by rw [usizeSize]; omega)
    · exact parentLoop_two_pow (Nat.pos_of_ne_zero h0) (by rw [usizeSize]; omega) hb
  · have hpow : 1 ≤ 2 ^ Nat.log 2 b := Nat.one_le_two_pow
    have hbm : b < hiMask := hb.trans_le (by rw [hiMask_eq]; exact hs63)
    rw [lookupParent_eq hb0 (by omega) hb]
    exact ⟨rfl, by omega, reverseBits_clear_top_lt hb0 hbm,
      countOnes_clear_top hb0 (hbm.trans (by decide))⟩
  · obtain ⟨order, hsh⟩ := hr.shape
    have hchain := (hr.descent t).frame hf
    obtain ⟨hpend, hsize⟩ := (hsh.calls t).frame hf
    refine ⟨hchain.countOnes_add hpend (hsize.le_hiMask.trans (by decide)), fun hne => ?_⟩
    cases pending with
    | nil => exact absurd rfl hne
    | cons b'' rest => exact Nat.pos_of_ne_zero hchain.1
  · have hd := hr.descent t
    simp only [CallDescent, hpc] at hd
    exact hd.2

/-- At `size` 4 two calls of `lookup(3)` recurse from bucket 3 to its parent
1: one waits in `lookup_bucket(1)` with bucket 3 pending, and the other, past
it, searches for the sentinel of 3 from the sentinel of 1. -/
theorem lookupParent_clears_top_bit_four :
    let s := schedule (init [.insert 1 (0 : Nat), .delete 1, .insert 2 0, .lookup 3, .lookup 3])
      ([0, 0, 0, 0, 0, 0, 0, 0, 0, 0, 1, 1, 1, 1, 1, 1, 1, 2, 2, 2, 2, 2, 2, 2, 2, 2, 2, 2, 2] ++
        List.replicate 5 3 ++ List.replicate 4 4)
    (s.calls 3).pc.frame = some (3, []) ∧ (s.calls 4).pc.frame = some (1, [3]) ∧
    parentLoop 3 usizeSize 4 = (if 3 = 0 then 0 else 2 ^ Nat.log 2 3) ∧
    (3 = 0 → lookupParent 4 3 = 0) ∧
    (0 < 3 → lookupParent 4 3 = 3 - 2 ^ Nat.log 2 3 ∧ lookupParent 4 3 < 3 ∧
      reverseBits (lookupParent 4 3) < reverseBits 3 ∧
      countOnes (lookupParent 4 3) + 1 = countOnes 3) ∧
    (∀ t b' pending, (s.calls t).pc.frame = some (b', pending) →
      pending.length + countOnes b' = countOnes ((s.calls t).op.key % (s.calls t).size) ∧
      (pending ≠ [] → 0 < b')) ∧
    ∀ t b' pending start, (s.calls t).pc = .traverse (.sentinel b' pending) start →
      start.prev = .head ∨ SentinelStart s.nodes start (reverseBits b') :=
  ⟨by set_option maxRecDepth 20000 in decide, by set_option maxRecDepth 20000 in decide,
    lookupParent_clears_top_bit ⟨2, rfl⟩ (by decide) (by decide) (by decide)
    ((Reachable.initial _).schedule _)⟩

end Concur.SplitOrdered

import Concur.SplitOrdered.Linearize

/-! # Sentinels stay below `size`

`lookup_bucket(b)` inserts the sentinel of `b` and of the buckets of its parent
chain, all below the `size` that `find` read, and `size` only grows. Sentinels
are never marked, so never unlinked, and no two unmarked nodes share a key. So
in every reachable state each sentinel is the sentinel of a bucket below
`size`, and the list holds at most `size` sentinels.
-/

namespace Concur.SplitOrdered

open Function
open Concur.GrowableArray (usizeSize)

variable {V : Type*} {s : State V} {order : List Nat} {t n : Nat} {node : Node V}

/-- The node is a sentinel: it holds no value. -/
def Node.isSentinel (node : Node V) : Bool := node.value.isNone

/-- The nodes of the list that are sentinels. -/
def State.sentinels (s : State V) : Finset Nat :=
  (Finset.range s.nnodes).filter fun n => (s.nodes n).any Node.isSentinel

/-- Every sentinel is the sentinel of a bucket below `size`. -/
def SentinelsBelow (s : State V) : Prop :=
  ∀ n node, s.nodes n = some node → node.value = none → ∃ b < s.size, node.key = reverseBits b

theorem mem_sentinels (h : Heap s order) :
    n ∈ s.sentinels ↔ ∃ node, s.nodes n = some node ∧ node.value = none := by
  simp only [State.sentinels, Finset.mem_filter, Finset.mem_range]
  cases hn : s.nodes n with
  | none => simp
  | some nd =>
    have hlt : n < s.nnodes := (h.alloc n).mp (by simp [hn])
    simp [hlt, Option.any, Node.isSentinel, Option.isNone_iff_eq_none]

theorem insertAt_fresh {cursor : Cursor} {key : Nat} {value : Option V} {s' : State V} {N : Nat}
    (hins : s.insertAt cursor key value = some (s', N)) (hn : s.nodes n = none)
    (hn' : s'.nodes n = some node) : n = s.nnodes ∧ node = ⟨key, value, cursor.curr, false⟩ := by
  obtain ⟨s₁, hc, rfl, rfl⟩ := insertAt_eq_some hins
  by_cases hN : n = s.nnodes
  · subst hN
    simp only [update_same, Option.some.injEq] at hn'
    exact ⟨rfl, hn'.symm⟩
  · simp only [update_noteq hN] at hn'
    obtain ⟨old, hold, -⟩ := cas_nodes hc hn'
    rw [hn] at hold; cases hold

theorem step_fresh_sentinel (hn : s.nodes n = none) (hn' : (step s t).nodes n = some node)
    (hv : node.value = none) :
    ∃ b pending start cursor, (s.calls t).pc = .sentinelInsert b pending start cursor ∧
      node.key = reverseBits b := by
  have hcas : ∀ {s' : State V} {prev : Loc} {e w : Option Nat}, s.cas prev e w = some s' →
      s'.nodes n ≠ some node := fun hc h => by
    obtain ⟨old, hold, -⟩ := cas_nodes hc h
    rw [hn] at hold; cases hold
  rcases hpc : (s.calls t).pc with _ | _ | ⟨b, pending⟩ | ⟨b, pending⟩ | ⟨b, pending⟩ |
    ⟨target, start⟩ | ⟨target, start, prev, prevNext, curr, found⟩ | ⟨b, pending, start, cursor⟩ |
    ⟨b, pending, cursor⟩ | cursor | _ | _ | cursor | ⟨cursor, next, value⟩ | value | r | _ <;>
    simp only [step, hpc] at hn'
  case sentinelInsert =>
    split at hn'
    · obtain ⟨-, rfl⟩ := insertAt_fresh ‹_› hn
        (by simpa only [State.setPc, State.setCall_nodes] using hn')
      exact ⟨b, pending, start, cursor, rfl, rfl⟩
    · simp [State.setPc, hn] at hn'
  case insertCas =>
    split at hn'
    · split at hn'
      · obtain ⟨-, rfl⟩ := insertAt_fresh ‹_› hn
          (by simpa only [State.setPc, State.setCall_nodes] using hn')
        cases hv
      · simp [State.setPc, hn] at hn'
    all_goals simp [hn] at hn'
  case cleanup | publish | unlink =>
    split at hn'
    · exact absurd (by simpa [State.setPc] using hn') (hcas ‹_›)
    · simp [State.setPc, hn] at hn'
  case mark =>
    split at hn'
    · split at hn'
      · rename_i n₀ _ _ node₀ hn₀
        split_ifs at hn'
        · simp [State.setPc, hn] at hn'
        · simp only [State.setPc, State.setCall_nodes, State.setMark] at hn'
          by_cases hN : n = n₀
          · subst hN; rw [hn] at hn₀; cases hn₀
          · simp [update_noteq hN, hn] at hn'
      · simp [hn] at hn'
    · simp [State.setPc, hn] at hn'
  all_goals (repeat' split at hn') <;> simp [State.setPc, hn] at hn'

/-- A step keeps every sentinel below `size`: old nodes keep their key and value
and `size` only grows, and the sentinel a call links in is for a bucket below
the `size` its `find` read. -/
theorem sentinelsBelow_step (hs : Shape s order) (h : SentinelsBelow s) (t : Nat) :
    SentinelsBelow (step s t) := by
  obtain ⟨-, hg⟩ := shapedStep hs t
  intro n node hn hv
  cases hold : s.nodes n with
  | some old =>
    obtain ⟨node', hn', hk, hv', -⟩ := hg.nodes n old hold
    rw [hn] at hn'
    cases hn'
    obtain ⟨b, hb, hkey⟩ := h n old hold (hv'.symm.trans hv)
    exact ⟨b, lt_of_lt_of_le hb hg.size, hk.trans hkey⟩
  | none =>
    obtain ⟨b, pending, start, cursor, hpc, hkey⟩ := step_fresh_sentinel hold hn hv
    have hc := hs.calls t
    simp only [CallShape, hpc] at hc
    obtain ⟨-, ⟨j, -, -, -, hle⟩, hb, -⟩ := hc
    exact ⟨b, by have := hg.size; omega, hkey⟩

theorem Reachable.sentinelsBelow (hr : Reachable s) : SentinelsBelow s := by
  induction hr with
  | initial ops => intro n node hn; simp [init] at hn
  | @step s t hr ih =>
    obtain ⟨order, hs⟩ := hr.shape
    exact sentinelsBelow_step hs ih t

theorem Heap.sentinels_card_le (h : Heap s order) (hb : SentinelsBelow s) :
    s.sentinels.card ≤ s.size := by
  have hrev : ∀ {n node}, s.nodes n = some node → node.value = none →
      reverseBits node.key < s.size ∧ node.key = reverseBits (reverseBits node.key) := by
    intro n node hn hv
    obtain ⟨b, hbs, hkey⟩ := hb n node hn hv
    obtain ⟨j, -, hj, hsize⟩ := h.size
    have hb64 : b < 2 ^ usizeSize := lt_of_lt_of_le hbs (by
      rw [hsize]; exact Nat.pow_le_pow_right (by norm_num) (by simp only [usizeSize]; omega))
    have hrr : reverseBits node.key = b := by
      rw [hkey, reverseBits, reverseBits, revBits_revBits, Nat.mod_eq_of_lt hb64]
    exact ⟨hrr ▸ hbs, by rw [hrr, hkey]⟩
  calc s.sentinels.card ≤ (Finset.range s.size).card := by
        refine Finset.card_le_card_of_injOn (fun n => reverseBits ((s.nodes n).elim 0 Node.key))
          (fun n hn => ?_) fun n hn m hm he => ?_
        · obtain ⟨nd, hnd, hv⟩ := (mem_sentinels h).mp hn
          simpa [hnd] using (hrev hnd hv).1
        · obtain ⟨nd, hnd, hv⟩ := (mem_sentinels h).mp hn
          obtain ⟨nd', hnd', hv'⟩ := (mem_sentinels h).mp hm
          simp only [hnd, hnd', Option.elim] at he
          exact h.unique hnd hnd' (h.sentinel n nd hnd hv).1 (h.sentinel m nd' hnd' hv').1
            (by rw [(hrev hnd hv).2, (hrev hnd' hv').2, he])
    _ = s.size := Finset.card_range _

/-- Sentinels are allocated only for buckets below `size`. In every reachable
state of any interleaving of `lookup`, `insert` and `delete` calls, every
sentinel node is the sentinel of a bucket below `size`, with list-key
`reverse_bits(b)`, and the list holds at most `size` sentinels. -/
theorem splitOrdered_sentinels_bounded (hr : Reachable s) :
    (∀ n node, s.nodes n = some node → node.value = none →
      ∃ b < s.size, node.key = reverseBits b) ∧ s.sentinels.card ≤ s.size := by
  obtain ⟨order, hs⟩ := hr.shape
  exact ⟨hr.sentinelsBelow, hs.heap.sentinels_card_le hr.sentinelsBelow⟩

/- `lookup(1)` links the sentinel of bucket `1` after `head`, then `lookup(0)`
links that of bucket `0`: two sentinels at `size` two, so the bound is met. -/
example : (schedule (init [.lookup 1, (.lookup 0 : Op Nat)])
      (List.replicate 10 0 ++ List.replicate 10 1)).sentinels.card = 2 ∧
    (schedule (init [.lookup 1, (.lookup 0 : Op Nat)])
      (List.replicate 10 0 ++ List.replicate 10 1)).size = 2 := by
  decide

/-- The run of the example above: `lookup(1)`, then `lookup(0)`, from `new()`. -/
theorem splitOrdered_sentinels_bounded_run :
    let s := schedule (init [.lookup 1, (.lookup 0 : Op Nat)])
      (List.replicate 10 0 ++ List.replicate 10 1)
    (∀ n node, s.nodes n = some node → node.value = none →
      ∃ b < s.size, node.key = reverseBits b) ∧ s.sentinels.card ≤ s.size :=
  splitOrdered_sentinels_bounded ((Reachable.initial _).schedule _)

end Concur.SplitOrdered

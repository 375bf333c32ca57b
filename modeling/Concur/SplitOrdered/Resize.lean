import Concur.SplitOrdered.Count

/-! # Doubling `size`

An insert reads `size` in `find`, adds one to `count` with `fetch_add`, and
when the value it fetched exceeds `size * LOAD_FACTOR` it tries to double
`size` by a CAS from the value it read. So `size` stays a power of two and
only grows. The fetched value is `count ≡ D - I + R` modulo `2 ^ 64`; a delete's
`fetch_sub` may run before the `fetch_add` of the insert whose node it removed,
and the fetched value is then wrapped below zero, which doubles `size` with no
more entries than before.
-/

namespace Concur.SplitOrdered

open Concur.GrowableArray (usizeSize)

variable {V : Type*} {s : State V} {order : List Nat}

theorem retTo_ne_sizeCas (cursor : Cursor) (pending : List Nat) :
    (retTo cursor pending : Pc V) ≠ .sizeCas := by
  cases pending <;> simp [retTo]

theorem afterFind_ne_sizeCas (c : Call V) (target : Target) (start cursor : Cursor)
    (found : Bool) : s.afterFind c target start cursor found ≠ .sizeCas := by
  unfold State.afterFind
  repeat' split
  all_goals simp

theorem step_size (s : State V) (t : Nat) :
    (step s t).size = s.size ∨ (s.calls t).pc = .sizeCas ∧ s.size = (s.calls t).size ∧
      (step s t).size = 2 * s.size := by
  rcases (stepFrame s t).size with h | hpc
  · exact .inl h
  · have hsize : (step s t).size =
        if s.size = (s.calls t).size then (s.calls t).size * 2 else s.size := by
      simp only [step, hpc]
      split_ifs <;> rfl
    split_ifs at hsize with heq
    · exact .inr ⟨hpc, heq, by rw [hsize, heq, mul_comm]⟩
    · exact .inl hsize

theorem step_to_sizeCas {t : Nat} (h : ((step s t).calls t).pc = .sizeCas) :
    (s.calls t).pc = .fetchAdd ∧ (s.calls t).size * loadFactor < s.count := by
  rcases hpc : (s.calls t).pc with _ | _ | ⟨b, pending⟩ | ⟨b, pending⟩ | ⟨b, pending⟩ |
    ⟨target, start⟩ | ⟨target, start, prev, prevNext, curr, found⟩ | ⟨b, pending, start, cursor⟩ |
    ⟨b, pending, cursor⟩ | cursor | _ | _ | cursor | ⟨cursor, next, value⟩ | value | r | _ <;>
    simp only [step, hpc] at h
  case fetchAdd =>
    split_ifs at h with hover hlt
    · simp [State.setPc] at h
    · exact ⟨rfl, hlt⟩
    · simp [State.setPc] at h
  all_goals
    (repeat' split at h) <;>
      simp [State.setPc, hpc, retTo_ne_sizeCas, afterFind_ne_sizeCas] at h

theorem Shape.overflow_iff (hs : Shape s order) {t : Nat} (hpc : (s.calls t).pc = .fetchAdd) :
    2 ^ usizeSize ≤ (s.calls t).size * loadFactor ↔ (s.calls t).size = 2 ^ 63 := by
  have hc := hs.calls t
  simp only [CallShape, hpc] at hc
  obtain ⟨j, -, hj, hsz, -⟩ := hc
  rw [hsz, loadFactor, ← pow_succ, show usizeSize = 64 from rfl,
    Nat.pow_le_pow_iff_right (by norm_num), Nat.pow_right_injective le_rfl |>.eq_iff]
  omega

/-- `size` is a power of two between `2` and `2 ^ 63` and never shrinks. It
changes only at an insert's size CAS, to twice the `size` that insert read,
and an insert gets there only by a `fetch_add` whose fetched value, congruent
to `D - I + R` modulo `2 ^ 64`, exceeded twice that `size`. `size * LOAD_FACTOR`
overflows at a `fetch_add` only when the `size` read is `2 ^ 63`. -/
theorem size_doubles_on_fetched_count (hr : Reachable s) :
    (∃ j, 1 ≤ j ∧ j ≤ 63 ∧ s.size = 2 ^ j) ∧
    ∀ t, s.size ≤ (step s t).size ∧
      ((step s t).size ≠ s.size → (s.calls t).pc = .sizeCas ∧ (step s t).size = 2 * s.size) ∧
      (((step s t).calls t).pc = .sizeCas → (s.calls t).pc = .fetchAdd ∧
        2 * (s.calls t).size < s.count ∧
        (s.count : ZMod (2 ^ usizeSize)) =
          s.entries - s.countCalls Pc.pendingAdd + s.countCalls Pc.pendingSub) ∧
      ((s.calls t).pc = .fetchAdd →
        (2 ^ usizeSize ≤ (s.calls t).size * loadFactor ↔ (s.calls t).size = 2 ^ 63)) := by
  obtain ⟨⟨order, hs⟩, hc⟩ := hr.counted
  refine ⟨hs.heap.size, fun t => ⟨(shapedStep hs t).2.size, fun hne => ?_, fun h => ?_,
    hs.overflow_iff⟩⟩
  · rcases step_size s t with h | ⟨hpc, -, h⟩
    · exact absurd h hne
    · exact ⟨hpc, h⟩
  · obtain ⟨hpc, hlt⟩ := step_to_sizeCas h
    exact ⟨hpc, by rwa [loadFactor, mul_comm] at hlt, hc.ledger⟩

theorem size_doubles_on_fetched_count_run :
    let s := schedule (init [.insert 1 (0 : Nat), .delete 1, .insert 2 0])
      [0, 0, 0, 0, 0, 0, 0, 0, 0, 0, 1, 1, 1, 1, 1, 1, 1, 2, 2, 2, 2, 2, 2, 2, 2, 2, 2]
    (∃ j, 1 ≤ j ∧ j ≤ 63 ∧ s.size = 2 ^ j) ∧
    ∀ t, s.size ≤ (step s t).size ∧
      ((step s t).size ≠ s.size → (s.calls t).pc = .sizeCas ∧ (step s t).size = 2 * s.size) ∧
      (((step s t).calls t).pc = .sizeCas → (s.calls t).pc = .fetchAdd ∧
        2 * (s.calls t).size < s.count ∧
        (s.count : ZMod (2 ^ usizeSize)) =
          s.entries - s.countCalls Pc.pendingAdd + s.countCalls Pc.pendingSub) ∧
      ((s.calls t).pc = .fetchAdd →
        (2 ^ usizeSize ≤ (s.calls t).size * loadFactor ↔ (s.calls t).size = 2 ^ 63)) :=
  size_doubles_on_fetched_count ((Reachable.initial _).schedule _)

/-- Insert `1` links its node; delete `1` then marks, unlinks and subtracts
before insert `1` adds, so `count` wraps to `2 ^ 64 - 1`; insert `2` links its
node and fetches that value. -/
def wrappedRun : State Nat :=
  schedule (init [.insert 1 (0 : Nat), .delete 1, .insert 2 0])
    [0, 0, 0, 0, 0, 0, 0, 0, 0, 0, 1, 1, 1, 1, 1, 1, 1, 2, 2, 2, 2, 2, 2, 2, 2, 2, 2]

/-- With one entry and no delete in flight after `wrappedRun`, the insert's
next two steps double `size` from `2` to `4`. -/
theorem wrapped_count_doubles_size :
    Reachable wrappedRun ∧ (wrappedRun.calls 2).pc.pendingAdd = true ∧
      wrappedRun.count = 2 ^ 64 - 1 ∧ wrappedRun.entries + wrappedRun.countCalls Pc.pendingSub = 1 ∧
      wrappedRun.size = 2 ∧ (schedule wrappedRun [2, 2]).size = 4 := by
  refine ⟨(Reachable.initial _).schedule _, ?_⟩
  set_option maxRecDepth 20000 in decide

end Concur.SplitOrdered

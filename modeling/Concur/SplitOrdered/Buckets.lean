import Concur.GrowableArray.Words
import Concur.SplitOrdered.Machine

/-! # The bucket cells are the words of the trie

`SplitOrderedList` keeps its bucket slots in a `GrowableArray`: `lookup_bucket`
asks `get(reverse_bits(b))` for the slot of bucket `b`, loads it, and CASes it
from null to the sentinel's pointer. The machine of the list takes these slots
as one cell per index, `buckets`. Here the cells are read as the words of a
trie: a trie holds `buckets` when the word of every index is its cell, `0` for
none. No step of `get` changes a word, so `get` keeps the trie holding the
cells. The slot a call returns holds its index's cell, so its null test is the
test of the cell. And the caller's CAS on the slot succeeds exactly when the
cell's CAS does, and then leaves the trie holding the new cells.
-/

namespace Concur.SplitOrdered

open Function
open Concur.GrowableArray (words isNull usizeMax)

variable {V : Type*} {trie : GrowableArray.State} {buckets : Nat → Option Nat} {s s' : State V}
  {t node k : Nat}

/-- The word a bucket slot holds: `Shared::null()` is `0`, and the pointer to
node `p` is a non-null aligned address. -/
def bucketWord : Option Nat → Nat
  | none => 0
  | some p => GrowableArray.align * (p + 1)

/-- The trie holds the bucket cells: the word of every index is its cell. -/
def TrieHolds (trie : GrowableArray.State) (buckets : Nat → Option Nat) : Prop :=
  ∀ i, words trie i = bucketWord (buckets i)

theorem isNull_bucketWord (o : Option Nat) : isNull (bucketWord o) ↔ o = none := by
  cases o <;> simp [bucketWord, isNull, GrowableArray.align]

theorem bucketWord_injective : Injective bucketWord := by
  rintro (_ | p) (_ | q) h <;> simp_all [bucketWord, GrowableArray.align]

theorem trieHolds_init (index : Nat → Nat) : TrieHolds (GrowableArray.init index) fun _ => none :=
  fun _ => GrowableArray.words_eq_zero fun _ hn => absurd hn (Nat.not_lt_zero _)

theorem TrieHolds.step (h : TrieHolds trie buckets) (hs : GrowableArray.Shape trie)
    (hv : (trie.calls t).index < usizeMax) : TrieHolds (GrowableArray.step trie t) buckets := by
  intro i
  rw [hs.words_step hv, h i]

theorem TrieHolds.iterate (h : TrieHolds trie buckets) (hr : GrowableArray.Reachable trie)
    (hv : ∀ u, (trie.calls u).index < usizeMax) (n : Nat) :
    TrieHolds ((fun s => GrowableArray.step s t)^[n] trie) buckets := by
  induction n with
  | zero => exact h
  | succ n ih =>
    rw [iterate_succ_apply']
    exact ih.step ((hr.iterate t n).shape fun u => by rw [GrowableArray.iterate_index]; exact hv u)
      (by rw [GrowableArray.iterate_index]; exact hv t)

theorem cas_bucket (i : Nat) (e n : Option Nat) :
    s.cas (.bucket i) e n =
      if s.buckets i = e then some { s with buckets := update s.buckets i n } else none := rfl

theorem TrieHolds.load_ret (h : TrieHolds trie buckets) (hs : GrowableArray.Shape trie)
    (hpc : (trie.calls t).pc = .ret node k) :
    trie.load node k = bucketWord (buckets (trie.calls t).index) := by
  rw [hs.load_ret hpc, h]

theorem TrieHolds.store (h : TrieHolds trie buckets) (hs : GrowableArray.Shape trie)
    (hpc : (trie.calls t).pc = .ret node k) (o : Option Nat) :
    TrieHolds (GrowableArray.store trie t (bucketWord o))
      (update buckets (trie.calls t).index o) := by
  intro i
  rw [hs.words_store, GrowableArray.Event.write, hpc]
  by_cases hi : i = (trie.calls t).index
  · subst hi; simp [GrowableArray.Pc.slot, GrowableArray.writeWord]
  · simp [GrowableArray.Pc.slot, GrowableArray.writeWord, update_noteq hi, h i]

/-- The bucket slots of `SplitOrderedList` are the words of a `GrowableArray`.
From a reachable trie with no call for `usize::MAX` whose words are the cells
`buckets` of the list, every step of `get` leaves the words the cells. A call
that has returned the slot of index `i` loads the word of `buckets i` there,
which is null exactly when the cell is empty, the test `lookup_bucket` makes.
A CAS on that slot from the word of `e` to the word of `n` succeeds exactly
when the list's CAS of cell `i` from `e` to `n` does, and then the store
leaves the words the new cells. -/
theorem buckets_refine_trie (hr : GrowableArray.Reachable trie)
    (hv : ∀ u, (trie.calls u).index < usizeMax) (h : TrieHolds trie s.buckets) :
    (∀ t, TrieHolds (GrowableArray.step trie t) s.buckets) ∧
    ∀ t node k, (trie.calls t).pc = .ret node k →
      trie.load node k = bucketWord (s.buckets (trie.calls t).index) ∧
      (isNull (trie.load node k) ↔ s.buckets (trie.calls t).index = none) ∧
      ∀ e n, ((s.cas (.bucket (trie.calls t).index) e n).isSome ↔ trie.load node k = bucketWord e) ∧
        ∀ s', s.cas (.bucket (trie.calls t).index) e n = some s' →
          TrieHolds (GrowableArray.store trie t (bucketWord n)) s'.buckets := by
  have hs := hr.shape hv
  refine ⟨fun t => h.step hs (hv t), fun t node k hpc => ?_⟩
  have hload := h.load_ret hs hpc
  refine ⟨hload, by rw [hload, isNull_bucketWord], fun e n => ⟨?_, fun s' hcas => ?_⟩⟩
  · rw [cas_bucket, hload, bucketWord_injective.eq_iff]
    split_ifs with he <;> simp [he]
  · rw [cas_bucket] at hcas
    split_ifs at hcas
    cases hcas
    exact h.store hs hpc n

/-- `get(0)` has returned slot `0` of segment `0` on `new()`, and the list's
cells are all empty. -/
theorem buckets_refine_trie_init :
    let trie := (fun s => GrowableArray.step s 0)^[4] (GrowableArray.init fun _ => 0)
    (trie.calls 0).pc.slot = some (0, 0) ∧
    (∀ t, TrieHolds (GrowableArray.step trie t) (init ([] : List (Op Nat))).buckets) ∧
    ∀ t node k, (trie.calls t).pc = .ret node k →
      trie.load node k = bucketWord ((init ([] : List (Op Nat))).buckets (trie.calls t).index) ∧
      (isNull (trie.load node k) ↔ (init ([] : List (Op Nat))).buckets (trie.calls t).index = none) ∧
      ∀ e n, (((init ([] : List (Op Nat))).cas (.bucket (trie.calls t).index) e n).isSome ↔
          trie.load node k = bucketWord e) ∧
        ∀ s', (init ([] : List (Op Nat))).cas (.bucket (trie.calls t).index) e n = some s' →
          TrieHolds (GrowableArray.store trie t (bucketWord n)) s'.buckets :=
  ⟨by decide, buckets_refine_trie ((GrowableArray.Reachable.initial _).iterate 0 4)
    (fun u => by rw [GrowableArray.iterate_index]; exact (by decide : 0 < usizeMax))
    ((trieHolds_init _).iterate (.initial _) (fun _ => (by decide : 0 < usizeMax)) 4)⟩

end Concur.SplitOrdered

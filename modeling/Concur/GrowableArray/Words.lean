import Concur.GrowableArray.WaitFree

/-! # The trie is an array of words

`GrowableArray` stands for an array of `usize` words, one per index and all `0`
at first: `get(index)` returns a pointer to the word of `index`, and its caller
loads, stores or CASes the word there, as `lookup_bucket` does with a bucket
slot. In a state of the trie the word of `index` is slot `index % 1024` of the
level-1 segment whose base is `index / 1024`, or `0` while no such segment is
published.

No step of `get` changes a word: neither the root CAS that grows the trie nor
the slot CAS that installs a segment. A store through a returned call writes
the word of that call's index and no other. So every run of the trie, under
every interleaving, is a run of the array, and every returned slot holds the
word of its index.
-/

namespace Concur.GrowableArray

open State

variable {s s' : State} {i : Nat}

/-- The published level-1 segment that holds the slot of `index`. -/
def leafOf (s : State) (index : Nat) : Option Nat :=
  (List.range s.nsegs).find? fun n => (s.heap n).level = 1 ∧ (s.heap n).base = index / 1024

/-- The array the trie stands for: the word in the slot of each index, `0`
while no segment holds it. -/
def words (s : State) (index : Nat) : Nat :=
  match leafOf s index with
  | some n => (s.heap n).inner (index % 1024)
  | none => 0

/-- The word an event writes: a store through a returned call writes the word
of that call's index; a step of `get` writes none. -/
def Event.write (s : State) : Event → Option (Nat × Nat)
  | .stepOf _ => none
  | .storeBy t w => (s.calls t).pc.slot.map fun _ => ((s.calls t).index, w)

/-- The array after one write. -/
def writeWord (a : Nat → Nat) : Option (Nat × Nat) → Nat → Nat
  | none => a
  | some (i, w) => Function.update a i w

/-- The writes of the events of `evs` run from `s`, in order. -/
def runWrites (s : State) : List Event → List (Option (Nat × Nat))
  | [] => []
  | e :: evs => e.write s :: runWrites (e.apply s) evs

theorem run_steps (s : State) (evs : List Event) : Relation.ReflTransGen Next s (run s evs) := by
  induction evs generalizing s with
  | nil => exact .refl
  | cons e evs ih => exact .head (e.next s) (ih (e.apply s))

theorem leafOf_spec {n : Nat} (h : leafOf s i = some n) :
    n < s.nsegs ∧ (s.heap n).level = 1 ∧ (s.heap n).base = i / 1024 := by
  have hp := List.find?_some h
  simp only [decide_eq_true_eq] at hp
  exact ⟨List.mem_range.mp (List.mem_of_find?_eq_some h), hp⟩

theorem leafOf_eq_none (h : leafOf s i = none) :
    ∀ n < s.nsegs, (s.heap n).level = 1 → (s.heap n).base ≠ i / 1024 := by
  intro n hn hl hb
  simpa [hl, hb] using List.find?_eq_none.mp h n (List.mem_range.mpr hn)

theorem Shape.leafOf_eq (hs : Shape s) {n : Nat} (hn : n < s.nsegs) (hl : (s.heap n).level = 1)
    (hb : (s.heap n).base = i / 1024) : leafOf s i = some n := by
  cases hm : leafOf s i with
  | none => exact absurd hb (leafOf_eq_none hm n hn hl)
  | some m =>
    obtain ⟨hm, hlm, hbm⟩ := leafOf_spec hm
    rw [hs.unique m hm n hn (hlm.trans hl.symm) (hbm.trans hb.symm)]

theorem Shape.words_eq (hs : Shape s) {n : Nat} (hn : n < s.nsegs) (hl : (s.heap n).level = 1)
    (hb : (s.heap n).base = i / 1024) : words s i = (s.heap n).inner (i % 1024) := by
  simp only [words, hs.leafOf_eq hn hl hb]

theorem words_eq_zero (h : ∀ n < s.nsegs, (s.heap n).level = 1 → (s.heap n).base ≠ i / 1024) :
    words s i = 0 := by
  unfold words
  split
  · next m hm =>
    obtain ⟨hm, hlm, hbm⟩ := leafOf_spec hm
    exact absurd hbm (h m hm hlm)
  · rfl

theorem Shape.load_ret (hs : Shape s) {t node k : Nat} (h : (s.calls t).pc = .ret node k) :
    s.load node k = words s (s.calls t).index := by
  obtain ⟨hn, hl, hk, hi⟩ := hs.ret_slot (t := t) (by rw [h]; rfl)
  rw [hs.words_eq hn hl (by omega), State.load]
  congr 1
  omega

theorem HeapStep.grows (h : HeapStep s s') : Grows s s' := by
  refine ⟨h.nsegs_le, fun n hn => ⟨h.level_eq hn, ?_⟩⟩
  cases h with
  | keep h1 => rw [h1]
  | grow _ h1 => simp [h1, Nat.ne_of_lt hn]
  | install _ _ _ _ _ _ _ _ h1 => simp [h1, install_heap, Nat.ne_of_lt hn]

/-- A change of the trie that keeps every segment's level and base, and every
slot of a level-1 segment (fresh ones included), keeps every word: a fresh leaf
takes the place of no published one, so its indices held `0` before. -/
theorem Shape.words_eq_of_grows (hs : Shape s) (hs' : Shape s') (hg : Grows s s')
    (hleaf : ∀ n, (s'.heap n).level = 1 → ∀ k, (s'.heap n).inner k = (s.heap n).inner k) :
    words s' = words s := by
  funext i
  by_cases h : ∃ n < s'.nsegs, (s'.heap n).level = 1 ∧ (s'.heap n).base = i / 1024
  · obtain ⟨n, hn, hl, hb⟩ := h
    rw [hs'.words_eq hn hl hb, hleaf n hl]
    by_cases hlt : n < s.nsegs
    · rw [hs.words_eq hlt ((hg.2 n hlt).1 ▸ hl) ((hg.2 n hlt).2 ▸ hb)]
    · have h0 : words s i = 0 := words_eq_zero fun m hm hlm hbm => by
        have := hs'.unique m (by have := hg.1; omega) n hn (by rw [(hg.2 m hm).1, hlm, hl])
          (by rw [(hg.2 m hm).2, hbm, hb])
        omega
      rw [h0, hs.fresh n (by omega)]
      rfl
  · push_neg at h
    rw [words_eq_zero fun n hn hl => h n hn hl, words_eq_zero fun m hm hlm hbm => ?_]
    exact h m (by have := hg.1; omega) ((hg.2 m hm).1 ▸ hlm) ((hg.2 m hm).2 ▸ hbm)

theorem Shape.words_step (hs : Shape s) {t : Nat} (hv : (s.calls t).index < usizeMax) :
    words (step s t) = words s :=
  have hh := step_heapStep hs hv
  hs.words_eq_of_grows (step_shape hs hv) hh.grows fun _ hl k => hh.leaf_eq hs hl k

theorem Shape.words_write (hs : Shape s) {n k w : Nat} (hn : n < s.nsegs)
    (hl : (s.heap n).level = 1) (hk : k < 1024) :
    words (s.write n k w) = Function.update (words s) ((s.heap n).base * 1024 + k) w := by
  have hleaf : leafOf (s.write n k w) = leafOf s := by
    funext i
    simp [leafOf]
  funext i
  rw [Function.update_apply]
  split_ifs with hi
  · subst hi
    simp only [words, hleaf, hs.leafOf_eq (i := (s.heap n).base * 1024 + k) hn hl (by omega),
      write_inner]
    simp [show ((s.heap n).base * 1024 + k) % 1024 = k by omega]
  · simp only [words, hleaf]
    split
    · next m hm =>
      rw [write_inner, if_neg]
      rintro ⟨rfl, rfl⟩
      have := (leafOf_spec hm).2.2
      omega
    · rfl

theorem Shape.words_store (hs : Shape s) (t w : Nat) :
    words (store s t w) = writeWord (words s) ((Event.storeBy t w).write s) := by
  cases hpc : (s.calls t).pc
  case ret node k =>
    obtain ⟨hn, hl, hk, hi⟩ := hs.ret_slot (t := t) (by rw [hpc]; rfl)
    simp only [store, hpc, Event.write, Pc.slot, Option.map_some', writeWord]
    rw [hs.words_write hn hl hk, hi]
  all_goals simp [store, hpc, Event.write, Pc.slot, writeWord]

theorem Shape.words_apply (hs : Shape s) (hv : ∀ u, (s.calls u).index < usizeMax) (e : Event) :
    words (e.apply s) = writeWord (words s) (e.write s) := by
  cases e with
  | stepOf t => exact hs.words_step (hv t)
  | storeBy t w => exact hs.words_store t w

theorem Reachable.words_run (hr : Reachable s) (hv : ∀ u, (s.calls u).index < usizeMax)
    (evs : List Event) : words (run s evs) = (runWrites s evs).foldl writeWord (words s) := by
  induction evs generalizing s with
  | nil => rfl
  | cons e evs ih =>
    have hv' : ∀ u, ((e.apply s).calls u).index < usizeMax := fun u => by simpa using hv u
    show words (run (e.apply s) evs) = _
    rw [ih (hr.next (e.next s)) hv', (hr.shape hv).words_apply hv e]
    rfl

/- `get(3)` returns and its caller stores `9`; then `get(7)` returns: word `3`
is `9`, and word `7`, in the same leaf, is still `0`. -/
example : words (run (init fun t => if t = 0 then 3 else 7)
      [.stepOf 0, .stepOf 0, .stepOf 0, .stepOf 0, .storeBy 0 9, .stepOf 1, .stepOf 1]) 3 = 9 ∧
    words (run (init fun t => if t = 0 then 3 else 7)
      [.stepOf 0, .stepOf 0, .stepOf 0, .stepOf 0, .storeBy 0 9, .stepOf 1, .stepOf 1]) 7 = 0 := by
  decide

/-- The trie refines an array of words, one per index. From every reachable
state in which no call asks for `usize::MAX`, under every interleaving of the
steps of `get` and the stores of their callers, the words change exactly by the
stores made through returned calls, in order, each writing the word of its
call's index; and every returned call's slot holds the word of its index. -/
theorem get_refines_words (hr : Reachable s) (hv : ∀ u, (s.calls u).index < usizeMax)
    (evs : List Event) :
    words (run s evs) = (runWrites s evs).foldl writeWord (words s) ∧
      ∀ t node k, ((run s evs).calls t).pc = .ret node k →
        (run s evs).load node k = words (run s evs) (s.calls t).index := by
  have hsteps := run_steps s evs
  have hv' := fun u => (steps_index hsteps u).symm ▸ hv u
  refine ⟨hr.words_run hv evs, fun t node k h => ?_⟩
  rw [((hr.steps hsteps).shape hv').load_ret h, steps_index hsteps]

/-- The run of the example above: from `new()`, `get(3)` returns, its caller
stores `9`, and `get(7)` returns. -/
theorem get_refines_words_two :
    let s := init fun t => if t = 0 then 3 else 7
    let evs := [.stepOf 0, .stepOf 0, .stepOf 0, .stepOf 0, .storeBy 0 9, .stepOf 1, .stepOf 1]
    words (run s evs) = (runWrites s evs).foldl writeWord (words s) ∧
      ∀ t node k, ((run s evs).calls t).pc = .ret node k →
        (run s evs).load node k = words (run s evs) (s.calls t).index :=
  get_refines_words (.initial _) (fun u => show (if u = 0 then 3 else 7) < usizeMax by
    split <;> decide) _

end Concur.GrowableArray

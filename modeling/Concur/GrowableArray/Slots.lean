import Concur.GrowableArray.Shape

/-! # Slots returned by `get`

The untyped `AtomicUsize` slots are read by depth: a slot of a segment at
level `l ≥ 2` holds null or a segment at level `l - 1`, and a call follows a
slot word only while its `current_height` is at least 2, so it never takes an
element pointer of a level-1 slot for a `Segment`. Levels never change, the
root tag only grows, and a slot of a segment at level ≥ 2 is written once.
Every call returns the level-1 slot that its index names, the same one for
the same index and different ones for different indices, and no step of `get`
writes a slot that any call returns. The height loop compares `index <
max_key` strictly, so `get(usize::MAX)` never leaves it.
-/

namespace Concur.GrowableArray

open State

/-- The depth typing of the slots, and where the calls stand in it. -/
structure Typed (s : State) : Prop where
  root_level : 0 < tag s.root →
    segOf s.root < s.nsegs ∧ (s.heap (segOf s.root)).level = tag s.root
  slot_level : ∀ p < s.nsegs, 2 ≤ (s.heap p).level → ∀ k < 1024,
    ¬ isNull ((s.heap p).inner k) → segOf ((s.heap p).inner k) < s.nsegs ∧
      (s.heap (segOf ((s.heap p).inner k))).level = (s.heap p).level - 1
  descent : ∀ t node h, ((s.calls t).pc = .loadSlot node h ∨
      ∃ w, (s.calls t).pc = .casSlot node h w) →
    segOf node < s.nsegs ∧ (s.heap (segOf node)).level = h ∧ 1 ≤ h
  returned : ∀ t n k, (s.calls t).pc.slot = some (n, k) → n < s.nsegs ∧ (s.heap n).level = 1

/-- What every run from `s` to `s'` keeps: the root tag does not drop, each
segment keeps its level, and a non-null slot of a segment at level ≥ 2 keeps
its word. -/
structure Keeps (s s' : State) : Prop where
  nsegs_le : s.nsegs ≤ s'.nsegs
  tag_le : tag s.root ≤ tag s'.root
  level_eq : ∀ n < s.nsegs, (s'.heap n).level = (s.heap n).level
  slot_eq : ∀ n < s.nsegs, 2 ≤ (s.heap n).level → ∀ k, ¬ isNull ((s.heap n).inner k) →
    (s'.heap n).inner k = (s.heap n).inner k

theorem Shape.ret_slot {s : State} (hs : Shape s) {t n k : Nat}
    (h : (s.calls t).pc.slot = some (n, k)) : n < s.nsegs ∧ (s.heap n).level = 1 ∧ k < 1024 ∧
      (s.heap n).base * 1024 + k = (s.calls t).index := by
  have hc := hs.calls t
  cases hp : (s.calls t).pc <;> simp only [hp, Pc.slot, reduceCtorEq] at h
  obtain ⟨rfl, rfl⟩ := Option.some.inj h
  simp only [CallShape, hp] at hc
  obtain ⟨⟨-, hlt, hl, -, hb⟩, rfl⟩ := hc
  refine ⟨hlt, hl, currentIndex_lt _ _, ?_⟩
  have := div_pow_mul_add_currentIndex (s.calls t).index (le_refl 1)
  rw [hb]; simpa using this

theorem Shape.typed {s : State} (hs : Shape s) : Typed s where
  root_level hpos := ⟨(hs.root_seg hpos).2.1, (hs.root_seg hpos).2.2.1⟩
  slot_level p hp hl k hk hn := by
    rcases hs.child p hp hl k hk with h0 | ⟨-, h1, h2, -⟩
    · exact absurd (h0 ▸ isNull_zero) hn
    · exact ⟨h1, h2⟩
  descent t node h hpc := by
    have hc := hs.calls t
    rcases hpc with hpc | ⟨w, hpc⟩ <;> simp only [CallShape, hpc] at hc
    · exact ⟨hc.2.1, hc.2.2.1, hc.2.2.2.1⟩
    · exact ⟨hc.1.2.1, hc.1.2.2.1, hc.1.2.2.2.1⟩
  returned _ _ _ h := ⟨(hs.ret_slot h).1, (hs.ret_slot h).2.1⟩

theorem Next.index_eq {s s' : State} (h : Next s s') (u : Nat) :
    (s'.calls u).index = (s.calls u).index := by
  cases h <;> simp

theorem store_heap {s : State} (hs : Shape s) (t w : Nat) :
    (store s t w).nsegs = s.nsegs ∧ (store s t w).root = s.root ∧
      (∀ n, ((store s t w).heap n).level = (s.heap n).level) ∧
      ∀ n, (s.heap n).level ≠ 1 → (store s t w).heap n = s.heap n := by
  have hc := hs.calls t
  unfold store
  cases hpc : (s.calls t).pc
  case ret node k =>
    simp only [CallShape, hpc] at hc
    refine ⟨rfl, rfl, fun n => write_level .., fun n hn => ?_⟩
    have hne : n ≠ segOf node := fun h => hn (h ▸ hc.1.2.2.1)
    simp [State.write, hne]
  all_goals exact ⟨rfl, rfl, fun _ => rfl, fun _ _ => rfl⟩

theorem Next.keeps {s s' : State} (hs : Shape s) (hv : ∀ u, (s.calls u).index < usizeMax)
    (h : Next s s') : s.nsegs ≤ s'.nsegs ∧ tag s.root ≤ tag s'.root ∧
      ∀ n < s.nsegs, (s'.heap n).level = (s.heap n).level ∧ (2 ≤ (s.heap n).level → ∀ k,
        (s'.heap n).inner k = (s.heap n).inner k ∨ ((s.heap n).inner k = 0 ∧
          (s'.heap n).inner k = segAddr s.nsegs ∧ s'.nsegs = s.nsegs + 1)) := by
  cases h with
  | step t =>
    have hh := step_heapStep hs (hv t)
    exact ⟨hh.nsegs_le, hh.tag_le, fun n hn => ⟨hh.level_eq hn, fun _ k => hh.slot_once hn k⟩⟩
  | store t w =>
    obtain ⟨h1, h2, h3, h4⟩ := store_heap hs t w
    refine ⟨h1.ge, h2 ▸ le_rfl, fun n _ => ⟨h3 n, fun hl k => .inl ?_⟩⟩
    rw [h4 n (by omega)]

theorem steps_index {s s' : State} (h : Relation.ReflTransGen Next s s') (u : Nat) :
    (s'.calls u).index = (s.calls u).index := by
  induction h with
  | refl => rfl
  | tail _ h ih => rw [h.index_eq, ih]

theorem Reachable.keeps {s s' : State} (hr : Reachable s)
    (hv : ∀ u, (s.calls u).index < usizeMax) (h : Relation.ReflTransGen Next s s') :
    Keeps s s' := by
  induction h with
  | refl => exact ⟨le_rfl, le_rfl, fun _ _ => rfl, fun _ _ _ _ _ => rfl⟩
  | tail hab hbc ih =>
    have hvb := fun u => (steps_index hab u).symm ▸ hv u
    obtain ⟨hn, ht, hk⟩ := Next.keeps ((hr.steps hab).shape hvb) hvb hbc
    refine ⟨ih.nsegs_le.trans hn, ih.tag_le.trans ht, fun n hn' => ?_,
      fun n hn' hl k hk' => ?_⟩
    · rw [(hk n (by have := ih.nsegs_le; omega)).1, ih.level_eq n hn']
    · have hb := hk n (by have := ih.nsegs_le; omega)
      rw [ih.level_eq n hn'] at hb
      rcases hb.2 hl k with h' | ⟨h0, -⟩
      · rw [h', ih.slot_eq n hn' hl k hk']
      · rw [ih.slot_eq n hn' hl k hk'] at h0
        exact absurd (h0 ▸ isNull_zero) hk'

/-- In every state of every interleaving of `get` calls (none for `usize::MAX`)
and of their callers' stores, the slots are typed by depth; every step writes a
slot of a segment at level ≥ 2 at most once, from null to the segment it
publishes; and every run from there keeps the levels, the non-null slots of
segments at level ≥ 2, and a root tag at least as high. -/
theorem get_depth_typing {s : State} (hr : Reachable s)
    (hv : ∀ u, (s.calls u).index < usizeMax) :
    Typed s ∧
      (∀ s', Next s s' → ∀ n < s.nsegs, 2 ≤ (s.heap n).level → ∀ k,
        (s'.heap n).inner k = (s.heap n).inner k ∨ ((s.heap n).inner k = 0 ∧
          (s'.heap n).inner k = segAddr s.nsegs ∧ s'.nsegs = s.nsegs + 1)) ∧
      ∀ s', Relation.ReflTransGen Next s s' → Keeps s s' :=
  ⟨(hr.shape hv).typed, fun _ h n hn hl => ((h.keeps (hr.shape hv) hv).2.2 n hn).2 hl,
    fun _ => hr.keeps hv⟩

/-- `get(3)` returns and its caller stores `9`; `get(1500)` raises the root to
height 2 and returns; a second `get(3)` returns through the new root, under
which the old root is segment 0 at level 1. -/
theorem get_depth_typing_raised :
    let s := (fun s => step s 2)^[3] ((fun s => step s 1)^[6]
      (store ((fun s => step s 0)^[4] (init fun t => if t = 1 then 1500 else 3)) 0 9))
    s.nsegs = 3 ∧ tag s.root = 2 ∧ (s.heap (segOf s.root)).level = 2 ∧ (s.heap 0).level = 1 ∧
    Typed s ∧
      (∀ s', Next s s' → ∀ n < s.nsegs, 2 ≤ (s.heap n).level → ∀ k,
        (s'.heap n).inner k = (s.heap n).inner k ∨ ((s.heap n).inner k = 0 ∧
          (s'.heap n).inner k = segAddr s.nsegs ∧ s'.nsegs = s.nsegs + 1)) ∧
      ∀ s', Relation.ReflTransGen Next s s' → Keeps s s' :=
  ⟨by decide, by decide, by decide, by decide,
    get_depth_typing ((((Reachable.initial _).iterate 0 4).store 0 9).iterate 1 6 |>.iterate 2 3)
      fun u => by
        simp only [iterate_index, store_calls]
        show (if u = 1 then 1500 else 3) < usizeMax
        split <;> decide⟩

/-- Two calls that have returned got the same slot exactly when they asked for
the same index; and no step of a call changes a slot that any call returns,
then or at any later point of the run. -/
theorem get_slot_identity {s : State} (hr : Reachable s)
    (hv : ∀ u, (s.calls u).index < usizeMax) :
    (∀ t u a b, (s.calls t).pc.slot = some a → (s.calls u).pc.slot = some b →
      (a = b ↔ (s.calls t).index = (s.calls u).index)) ∧
    ∀ t s'', Relation.ReflTransGen Next (step s t) s'' → ∀ u n k,
      (s''.calls u).pc.slot = some (n, k) → ((step s t).heap n).inner k = (s.heap n).inner k := by
  have hs := hr.shape hv
  refine ⟨fun t u a b ha hb => ?_, fun t s'' h u n k hu => ?_⟩
  · obtain ⟨n, k⟩ := a
    obtain ⟨n', k'⟩ := b
    obtain ⟨hn, hl, hk, hi⟩ := hs.ret_slot ha
    obtain ⟨hn', hl', hk', hi'⟩ := hs.ret_slot hb
    constructor
    · rintro ⟨⟩; omega
    · intro he
      have hkk : k = k' := by omega
      have hbb : (s.heap n).base = (s.heap n').base := by omega
      rw [hs.unique n hn n' hn' (hl.trans hl'.symm) hbb, hkk]
  · have hv' := fun u => (Next.step s t).index_eq u ▸ hv u
    have hr' := hr.step t
    have hkeep := hr'.keeps hv' h
    obtain ⟨hn, hl, -, -⟩ := ((hr'.steps h).shape fun u => (steps_index h u).symm ▸ hv' u).ret_slot hu
    by_cases hlt : n < (step s t).nsegs
    · exact (step_heapStep hs (hv t)).leaf_eq hs (by rw [← hkeep.level_eq n hlt, hl]) k
    · have hle := (step_heapStep hs (hv t)).nsegs_le
      rw [(hr'.shape hv').fresh n (by omega), hs.fresh n (by omega)]

/-- The run of `get_depth_typing_raised`: the two calls of `get(3)`, one
before and one after the root is raised, return the same slot, which holds the
`9` stored through the first, and `get(1500)` returns another. -/
theorem get_slot_identity_raised :
    let s := (fun s => step s 2)^[3] ((fun s => step s 1)^[6]
      (store ((fun s => step s 0)^[4] (init fun t => if t = 1 then 1500 else 3)) 0 9))
    tag s.root = 2 ∧ (s.calls 0).pc.slot = some (0, 3) ∧ (s.calls 1).pc.slot = some (2, 476) ∧
    (s.calls 2).pc.slot = some (0, 3) ∧ (s.heap 0).inner 3 = 9 ∧
    (∀ t u a b, (s.calls t).pc.slot = some a → (s.calls u).pc.slot = some b →
      (a = b ↔ (s.calls t).index = (s.calls u).index)) ∧
    ∀ t s'', Relation.ReflTransGen Next (step s t) s'' → ∀ u n k,
      (s''.calls u).pc.slot = some (n, k) → ((step s t).heap n).inner k = (s.heap n).inner k :=
  ⟨by decide, by decide, by decide, by decide, by decide,
    get_slot_identity ((((Reachable.initial _).iterate 0 4).store 0 9).iterate 1 6 |>.iterate 2 3)
      fun u => by
        simp only [iterate_index, store_calls]
        show (if u = 1 then 1500 else 3) < usizeMax
        split <;> decide⟩

/-- `get(usize::MAX)` never returns: under every interleaving it stays in the
height loop, since no `max_key` exceeds `usize::MAX`. -/
theorem get_usizeMax_never_returns {s : State} (hr : Reachable s) {t : Nat}
    (ht : (s.calls t).index = usizeMax) :
    (s.calls t).pc = .loadRoot ∨ ∃ root, (s.calls t).pc = .casRoot root := by
  induction hr with
  | initial index => exact .inl rfl
  | @step s u _ ih =>
    rw [step_index] at ht
    by_cases hu : t = u
    · subst hu
      rcases ih ht with hpc | ⟨root, hpc⟩ <;> simp only [step, hpc]
      · rw [if_neg (by have := maxKey_le_usizeMax (tag s.root); omega)]
        exact .inr ⟨s.root, by simp⟩
      · split <;> simp
    · rw [step_pc_ne s hu]; exact ih ht
  | store u w _ ih => simpa using ih (by simpa using ht)

theorem get_usizeMax_never_returns_init :
    ((init fun _ => usizeMax).calls 0).pc = .loadRoot ∨
      ∃ root, ((init fun _ => usizeMax).calls 0).pc = .casRoot root :=
  get_usizeMax_never_returns (.initial _) rfl

/- Run alone from `new()`: after seven raises `with_tag(8)` wraps the tag of
`get(usize::MAX)` back to 0, and `get(1023)` raises the root to height 2. -/
example : tag ((fun s => step s 0)^[16] (init fun _ => usizeMax)).root = 0 := by decide
example : tag ((fun s => step s 0)^[5] (init fun _ => 1023)).root = 2 := by decide

end Concur.GrowableArray

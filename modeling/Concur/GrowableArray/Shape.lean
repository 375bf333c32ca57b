import Concur.GrowableArray.Machine

/-! # The shape of the trie under concurrent `get` calls

Every published segment has a ghost `level` and `base`: a segment at level `l`
holds the slots of the indices `i` with `i / 1024 ^ l = base`. The root sits at
the level its tag records, every other segment hangs in the slot of its
parent named by its own base, and no two segments share a level and a base.
Each call in its descent stands at the segment of its own index at its
`current_height`. All of this holds after every step of every interleaving
when no call asks for `usize::MAX`.
-/

namespace Concur.GrowableArray

open State

/-- `node` points to the published segment at level `h` that holds the slot of `index`. -/
def OnPath (s : State) (index node h : Nat) : Prop :=
  ¬ isNull node ∧ segOf node < s.nsegs ∧ (s.heap (segOf node)).level = h ∧ 1 ≤ h ∧
    (s.heap (segOf node)).base = index / 1024 ^ h

/-- The word `w` in slot `k` of segment `p` points to the child segment of `p` there. -/
def ChildOf (s : State) (p k w : Nat) : Prop :=
  ¬ isNull w ∧ segOf w < s.nsegs ∧ (s.heap (segOf w)).level = (s.heap p).level - 1 ∧
    (s.heap (segOf w)).base = (s.heap p).base * 1024 + k

/-- What a call of `get` knows about the trie at its program counter. -/
def CallShape (s : State) (c : Call) : Prop :=
  match c.pc with
  | .loadRoot => True
  | .casRoot root => maxKey (tag root) ≤ c.index
  | .loadSlot node h => OnPath s c.index node h
  | .casSlot node h nextUsize => OnPath s c.index node h ∧ 2 ≤ h ∧ isNull nextUsize
  | .ret node k => OnPath s c.index node 1 ∧ k = currentIndex c.index 1

structure Shape (s : State) : Prop where
  root_null : tag s.root = 0 → s.root = 0
  root_seg : 0 < tag s.root → ¬ isNull s.root ∧ segOf s.root < s.nsegs ∧
    (s.heap (segOf s.root)).level = tag s.root ∧ (s.heap (segOf s.root)).base = 0
  level_pos : ∀ n < s.nsegs, 1 ≤ (s.heap n).level
  level_le : ∀ n < s.nsegs, (s.heap n).level ≤ tag s.root
  top : ∀ n < s.nsegs, (s.heap n).level = tag s.root → n = segOf s.root
  unique : ∀ n < s.nsegs, ∀ m < s.nsegs, (s.heap n).level = (s.heap m).level →
    (s.heap n).base = (s.heap m).base → n = m
  parent : ∀ n < s.nsegs, (s.heap n).level < tag s.root → ∃ p < s.nsegs,
    (s.heap p).level = (s.heap n).level + 1 ∧ (s.heap p).base = (s.heap n).base / 1024 ∧
    ¬ isNull ((s.heap p).inner ((s.heap n).base % 1024)) ∧
    segOf ((s.heap p).inner ((s.heap n).base % 1024)) = n
  child : ∀ p < s.nsegs, 2 ≤ (s.heap p).level → ∀ k < 1024,
    (s.heap p).inner k = 0 ∨ ChildOf s p k ((s.heap p).inner k)
  fresh : ∀ n, s.nsegs ≤ n → s.heap n = default
  calls : ∀ t, CallShape s (s.calls t)

/-- `s'` keeps every segment of `s` at its level and base. -/
def Grows (s s' : State) : Prop :=
  s.nsegs ≤ s'.nsegs ∧ ∀ n < s.nsegs,
    (s'.heap n).level = (s.heap n).level ∧ (s'.heap n).base = (s.heap n).base

theorem OnPath.grows {s s' : State} {i node h : Nat} (hp : OnPath s i node h)
    (hg : Grows s s') : OnPath s' i node h := by
  obtain ⟨hn, hlt, hl, hh, hb⟩ := hp
  obtain ⟨hle, hkeep⟩ := hg
  exact ⟨hn, by omega, (hkeep _ hlt).1.trans hl, hh, (hkeep _ hlt).2.trans hb⟩

theorem CallShape.grows {s s' : State} {c : Call} (hc : CallShape s c) (hg : Grows s s') :
    CallShape s' c := by
  cases hpc : c.pc <;> simp only [CallShape, hpc] at hc ⊢
  case casRoot => exact hc
  case loadSlot => exact hc.grows hg
  case casSlot => exact ⟨hc.1.grows hg, hc.2⟩
  case ret => exact ⟨hc.1.grows hg, hc.2⟩

theorem ChildOf.grows {s s' : State} {p k w : Nat} (hc : ChildOf s p k w) (hp : p < s.nsegs)
    (hg : Grows s s') : ChildOf s' p k w := by
  obtain ⟨hn, hlt, hl, hb⟩ := hc
  obtain ⟨hle, hkeep⟩ := hg
  refine ⟨hn, by omega, ?_, ?_⟩
  · rw [(hkeep _ hlt).1, (hkeep _ hp).1, hl]
  · rw [(hkeep _ hlt).2, (hkeep _ hp).2, hb]

theorem Grows.refl (s : State) : Grows s s := ⟨le_rfl, fun _ _ => ⟨rfl, rfl⟩⟩

theorem grows_write (s : State) (n k w : Nat) : Grows s (s.write n k w) :=
  ⟨le_rfl, fun _ _ => ⟨write_level .., write_base ..⟩⟩

theorem grows_alloc (s : State) (seg : Segment) : Grows s (s.alloc seg) :=
  ⟨by simp, fun m hm => by simp [Nat.ne_of_lt hm]⟩

theorem Shape.setPc {s : State} {t : Nat} {pc : Pc} (hs : Shape s)
    (hc : CallShape s ⟨(s.calls t).index, pc⟩) : Shape (s.setPc t pc) where
  root_null := hs.root_null
  root_seg := hs.root_seg
  level_pos := hs.level_pos
  level_le := hs.level_le
  top := hs.top
  unique := hs.unique
  parent := hs.parent
  child := hs.child
  fresh := hs.fresh
  calls u := by
    rw [setPc_calls]
    split
    · next h => subst h; exact hc
    · exact hs.calls u

theorem shape_init (index : Nat → Nat) : Shape (init index) where
  root_null _ := rfl
  root_seg h := absurd h (by simp [init])
  level_pos _ h := absurd h (Nat.not_lt_zero _)
  level_le _ h := absurd h (Nat.not_lt_zero _)
  top _ h := absurd h (Nat.not_lt_zero _)
  unique _ h := absurd h (Nat.not_lt_zero _)
  parent _ h := absurd h (Nat.not_lt_zero _)
  child _ h := absurd h (Nat.not_lt_zero _)
  fresh _ _ := rfl
  calls _ := trivial

theorem lt_succ_cases {m n : Nat} (h : m < n + 1) : m < n ∨ m = n := by omega

theorem Shape.grow {s : State} (hs : Shape s) (h7 : tag s.root < 7) :
    Shape (s.grow s.root) := by
  have htag : tag (s.grow s.root).root = tag s.root + 1 := by simp; omega
  have hold : ∀ m < s.nsegs, (s.grow s.root).heap m = s.heap m := fun m hm => by
    simp [Nat.ne_of_lt hm]
  have hg : Grows s (s.grow s.root) := ⟨by simp, fun m hm => by rw [hold m hm]; exact ⟨rfl, rfl⟩⟩
  have hnew : (s.grow s.root).heap s.nsegs =
      ⟨Function.update (fun _ => 0) 0 s.root, tag s.root + 1, 0⟩ := by simp
  refine
    { root_null := fun h => by omega
      root_seg := fun _ => by simp [hnew]; omega
      level_pos := fun m hm => ?_
      level_le := fun m hm => ?_
      top := fun m hm hl => ?_
      unique := fun m hm m' hm' hl hb => ?_
      parent := fun m hm hl => ?_
      child := fun p hp hl k hk => ?_
      fresh := fun m hm => by simp at hm; simp [Nat.ne_of_gt (by omega : s.nsegs < m), hs.fresh m (by omega)]
      calls := fun u => (hs.calls u).grows hg }
  all_goals simp only [grow_nsegs, htag] at *
  · rcases lt_succ_cases hm with hm | rfl
    · rw [hold m hm]; exact hs.level_pos m hm
    · simp [hnew]
  · rcases lt_succ_cases hm with hm | rfl
    · rw [hold m hm]; exact (hs.level_le m hm).trans (Nat.le_succ _)
    · simp [hnew]
  · rcases lt_succ_cases hm with hm | rfl
    · rw [hold m hm] at hl; exact absurd hl (by have := hs.level_le m hm; omega)
    · simp
  · rcases lt_succ_cases hm with hm | rfl <;> rcases lt_succ_cases hm' with hm' | rfl
    · rw [hold m hm, hold m' hm'] at *; exact hs.unique m hm m' hm' hl hb
    · rw [hold m hm, hnew] at hl; exact absurd hl (by have := hs.level_le m hm; simp; omega)
    · rw [hold m' hm', hnew] at hl; exact absurd hl (by have := hs.level_le m' hm'; simp; omega)
    · rfl
  · rcases lt_succ_cases hm with hm | rfl
    · rw [hold m hm] at hl ⊢
      rcases Nat.lt_or_eq_of_le (Nat.le_of_lt_succ hl) with hl | hl
      · obtain ⟨p, hp, h1, h2, h3, h4⟩ := hs.parent m hm hl
        exact ⟨p, by omega, by rw [hold p hp]; exact ⟨h1, h2, h3, h4⟩⟩
      · have hpos := hs.level_pos m hm
        obtain ⟨hn, -, -, hb⟩ := hs.root_seg (by omega)
        obtain rfl := hs.top m hm hl
        refine ⟨s.nsegs, by omega, ?_⟩
        simp [hnew, hl, hb, hn]
    · simp [hnew] at hl
  · rcases lt_succ_cases hp with hp | rfl
    · rw [hold p hp] at hl ⊢
      rcases hs.child p hp hl k hk with h | h
      · exact .inl h
      · exact .inr (h.grows hp hg)
    · by_cases hk0 : k = 0
      · subst hk0
        right
        have hpos : 0 < tag s.root := by simp [hnew] at hl; omega
        obtain ⟨hn, hlt, hlv, hb⟩ := hs.root_seg hpos
        refine ⟨by simpa [hnew] using hn, by simp [hnew]; omega, ?_, ?_⟩ <;>
          simp [hnew, Nat.ne_of_lt hlt, hlv, hb]
      · left; simp [hnew, hk0]

theorem Shape.no_child {s : State} {n k : Nat} (hs : Shape s) (hn : n < s.nsegs)
    (hk : k < 1024) (hnull : isNull ((s.heap n).inner k)) {m : Nat} (hm : m < s.nsegs)
    (hl : (s.heap m).level + 1 = (s.heap n).level)
    (hb : (s.heap m).base = (s.heap n).base * 1024 + k) : False := by
  have hlt : (s.heap m).level < tag s.root := by have := hs.level_le n hn; omega
  obtain ⟨p, hp, h1, h2, h3, -⟩ := hs.parent m hm hlt
  have hbk : (s.heap m).base % 1024 = k := by omega
  have hpn : p = n := hs.unique p hp n hn (by omega) (by rw [h2, hb]; omega)
  subst hpn
  exact h3 (hbk ▸ hnull)

theorem Shape.install {s : State} {n k h : Nat} (hs : Shape s) (hn : n < s.nsegs)
    (hl : (s.heap n).level = h) (h2 : 2 ≤ h) (hk : k < 1024)
    (hnull : isNull ((s.heap n).inner k)) : Shape (s.install n k h) := by
  have hold : ∀ m < s.nsegs, (s.install n k h).heap m = (s.write n k (segAddr s.nsegs)).heap m :=
    fun m hm => by rw [install_heap, if_neg (Nat.ne_of_lt hm)]
  have hnew : (s.install n k h).heap s.nsegs =
      ⟨fun _ => 0, h - 1, (s.heap n).base * 1024 + k⟩ := by rw [install_heap, if_pos rfl]
  have hg : Grows s (s.install n k h) :=
    ⟨by simp, fun m hm => by rw [hold m hm]; exact ⟨write_level .., write_base ..⟩⟩
  have hH := hs.level_le n hn
  refine
    { root_null := hs.root_null
      root_seg := fun hpos => ?_
      level_pos := fun m hm => ?_
      level_le := fun m hm => ?_
      top := fun m hm hm' => ?_
      unique := fun m hm m' hm' hlv hb => ?_
      parent := fun m hm hlv => ?_
      child := fun p hp hlv j hj => ?_
      fresh := fun m hm => ?_
      calls := fun u => (hs.calls u).grows hg }
  all_goals simp only [install_nsegs, install_root] at *
  · obtain ⟨h1, h2, h3, h4⟩ := hs.root_seg hpos
    refine ⟨h1, by omega, ?_, ?_⟩ <;> simp [hold _ h2, h3, h4]
  · rcases lt_succ_cases hm with hm | rfl
    · simpa [hold m hm] using hs.level_pos m hm
    · simp [hnew]; omega
  · rcases lt_succ_cases hm with hm | rfl
    · simpa [hold m hm] using hs.level_le m hm
    · simp [hnew]; omega
  · rcases lt_succ_cases hm with hm | rfl
    · simp only [hold m hm, write_level] at hm'; exact hs.top m hm hm'
    · simp [hnew] at hm'; omega
  · rcases lt_succ_cases hm with hm | rfl <;> rcases lt_succ_cases hm' with hm' | rfl
    · simp only [hold _ hm, hold _ hm', write_level, write_base] at hlv hb
      exact hs.unique m hm m' hm' hlv hb
    · simp only [hold _ hm, hnew, write_level, write_base] at hlv hb
      exact (hs.no_child hn hk hnull hm (by omega) hb).elim
    · simp only [hold _ hm', hnew, write_level, write_base] at hlv hb
      exact (hs.no_child hn hk hnull hm' (by omega) hb.symm).elim
    · rfl
  · rcases lt_succ_cases hm with hm | rfl
    · simp only [hold _ hm, write_level, write_base] at hlv ⊢
      obtain ⟨p, hp, h1, h2, h3, h4⟩ := hs.parent m hm hlv
      have hslot : ¬ (p = n ∧ (s.heap m).base % 1024 = k) := by
        rintro ⟨rfl, hk'⟩; exact h3 (hk' ▸ hnull)
      refine ⟨p, by omega, ?_⟩
      simp only [hold _ hp, write_level, write_base, write_inner, if_neg hslot]
      exact ⟨h1, h2, h3, h4⟩
    · refine ⟨n, by omega, ?_⟩
      have hmod : ((s.heap n).base * 1024 + k) % 1024 = k := by omega
      simp [hold _ hn, hnew, hmod]
      omega
  · rcases lt_succ_cases hp with hp | rfl
    · simp only [hold _ hp, write_level, write_inner] at hlv ⊢
      by_cases hpk : p = n ∧ j = k
      · obtain ⟨rfl, rfl⟩ := hpk
        right
        refine ⟨by simp, by simp, ?_, ?_⟩ <;> simp [hnew, hold _ hn, hl]
      · rw [if_neg hpk]
        rcases hs.child p hp hlv j hj with h' | h'
        · exact .inl h'
        · exact .inr (h'.grows hp hg)
    · left; simp [hnew]
  · have hne : m ≠ s.nsegs := by omega
    have hne' : m ≠ n := by omega
    rw [install_heap, if_neg hne, ← hs.fresh m (by omega)]
    simp [State.write, hne']

theorem Shape.write_leaf {s : State} {n k w : Nat} (hs : Shape s) (hn : n < s.nsegs)
    (hl : (s.heap n).level = 1) : Shape (s.write n k w) := by
  have hne : ∀ p, 2 ≤ (s.heap p).level → ¬ (p = n ∧ ∀ j, j = k → True) := by
    rintro p hp ⟨rfl, -⟩; omega
  refine
    { root_null := hs.root_null
      root_seg := fun hpos => by simpa using hs.root_seg hpos
      level_pos := fun m hm => by simpa using hs.level_pos m hm
      level_le := fun m hm => by simpa using hs.level_le m hm
      top := fun m hm hl' => hs.top m hm (by simpa using hl')
      unique := fun m hm m' hm' hlv hb => hs.unique m hm m' hm' (by simpa using hlv)
        (by simpa using hb)
      parent := fun m hm hlv => ?_
      child := fun p hp hlv j hj => ?_
      fresh := fun m hm => ?_
      calls := fun u => (hs.calls u).grows (grows_write ..) }
  · obtain ⟨p, hp, h1, h2, h3, h4⟩ := hs.parent m hm (by simpa using hlv)
    have hpn : p ≠ n := by rintro rfl; have := hs.level_pos m hm; omega
    exact ⟨p, hp, by simpa [hpn] using ⟨h1, h2, h3, h4⟩⟩
  · have hpn : p ≠ n := by rintro rfl; simp at hlv; omega
    simp only [write_level, write_inner, hpn, false_and, if_false] at hlv ⊢
    rcases hs.child p hp hlv j hj with h' | h'
    · exact .inl h'
    · exact .inr (h'.grows hp (grows_write ..))
  · have hmn : m ≠ n := by simp at hm; omega
    simp only [write_nsegs] at hm
    rw [← hs.fresh m hm]
    simp [State.write, hmn]

theorem tag_lt_seven {root index : Nat} (h : maxKey (tag root) ≤ index) (hv : index < usizeMax) :
    tag root < 7 := by
  by_contra h7
  have := maxKey_of_seven_le (by omega : 7 ≤ tag root)
  omega

theorem step_shape {s : State} {t : Nat} (hs : Shape s) (hv : (s.calls t).index < usizeMax) :
    Shape (step s t) := by
  have hc := hs.calls t
  cases hpc : (s.calls t).pc with
  | loadRoot =>
    simp only [step, hpc]
    split
    · next hlt =>
      have hpos : 0 < tag s.root := Nat.pos_of_ne_zero fun h0 => by simp [h0] at hlt
      obtain ⟨h1, h2, h3, h4⟩ := hs.root_seg hpos
      exact hs.setPc ⟨h1, h2, h3, hpos, by rw [h4, Nat.div_eq_of_lt (lt_pow_of_lt_maxKey hlt)]⟩
    · next hge => exact hs.setPc (show maxKey (tag s.root) ≤ (s.calls t).index by omega)
  | casRoot root =>
    simp only [CallShape, hpc] at hc
    simp only [step, hpc]
    split
    · next heq =>
      subst heq
      exact (hs.grow (tag_lt_seven hc hv)).setPc trivial
    · exact hs.setPc trivial
  | loadSlot node h =>
    simp only [CallShape, hpc] at hc
    obtain ⟨hn, hlt, hl, h1, hb⟩ := hc
    simp only [step, hpc, State.load]
    split
    · next h1' => subst h1'; exact hs.setPc ⟨⟨hn, hlt, hl, h1, hb⟩, rfl⟩
    split
    · next hne hnull => exact hs.setPc ⟨⟨hn, hlt, hl, h1, hb⟩, by omega, hnull⟩
    · next hne hnn =>
      rcases hs.child _ hlt (by omega) _ (currentIndex_lt _ h) with h0 | ⟨c1, c2, c3, c4⟩
      · exact absurd (h0 ▸ isNull_zero) hnn
      · exact hs.setPc ⟨c1, c2, by rw [c3, hl], by omega,
          by rw [c4, hb, div_pow_mul_add_currentIndex _ h1]⟩
  | casSlot node h nextUsize =>
    simp only [CallShape, hpc] at hc
    obtain ⟨⟨hn, hlt, hl, h1, hb⟩, h2, hnu⟩ := hc
    simp only [step, hpc, State.load]
    split
    · next heq =>
      refine (hs.install hlt hl h2 (currentIndex_lt _ _) (heq ▸ hnu)).setPc
        ⟨by simp, by simp, by simp [install_heap], by omega, ?_⟩
      simp only [install_heap, if_pos, segOf_segAddr, install_calls]
      rw [hb, div_pow_mul_add_currentIndex _ h1]
    · exact hs.setPc ⟨hn, hlt, hl, h1, hb⟩
  | ret node k => simpa only [step, hpc] using hs

theorem store_shape {s : State} (hs : Shape s) (t w : Nat) : Shape (store s t w) := by
  have hc := hs.calls t
  unfold store
  cases hpc : (s.calls t).pc
  case ret node k =>
    simp only [CallShape, hpc] at hc
    exact hs.write_leaf hc.1.2.1 hc.1.2.2.1
  all_goals exact hs

theorem Reachable.shape {s : State} (hr : Reachable s) (hv : ∀ u, (s.calls u).index < usizeMax) :
    Shape s := by
  induction hr with
  | initial index => exact shape_init index
  | step t _ ih => exact step_shape (ih fun u => by simpa using hv u) (by simpa using hv t)
  | store t w _ ih => exact store_shape (ih fun u => by simpa using hv u) t w

/-- What one step of a call does to the trie: nothing, or a fresh root over
the old one, or a fresh segment in a null slot of a segment at level ≥ 2. -/
inductive HeapStep (s s' : State) : Prop
  | keep : s'.heap = s.heap → s'.nsegs = s.nsegs → s'.root = s.root → HeapStep s s'
  | grow : tag s.root < 7 → s'.heap = (s.grow s.root).heap → s'.nsegs = s.nsegs + 1 →
      s'.root = (s.grow s.root).root → HeapStep s s'
  | install (n k h : Nat) : n < s.nsegs → (s.heap n).level = h → 2 ≤ h → k < 1024 →
      (s.heap n).inner k = 0 → s'.heap = (s.install n k h).heap → s'.nsegs = s.nsegs + 1 →
      s'.root = s.root → HeapStep s s'

theorem HeapStep.setPc {s s' : State} (h : HeapStep s s') (t : Nat) (pc : Pc) :
    HeapStep s (s'.setPc t pc) := by
  cases h with
  | keep h1 h2 h3 => exact .keep h1 h2 h3
  | grow h0 h1 h2 h3 => exact .grow h0 h1 h2 h3
  | install n k h a b c d e f g i => exact .install n k h a b c d e f g i

theorem step_heapStep {s : State} {t : Nat} (hs : Shape s) (hv : (s.calls t).index < usizeMax) :
    HeapStep s (step s t) := by
  have hc := hs.calls t
  have keep : ∀ pc, HeapStep s (s.setPc t pc) := fun pc => .keep rfl rfl rfl
  cases hpc : (s.calls t).pc with
  | loadRoot => simp only [step, hpc]; split <;> exact keep _
  | casRoot root =>
    simp only [CallShape, hpc] at hc
    simp only [step, hpc]
    split
    · next heq =>
      subst heq
      exact (HeapStep.grow (tag_lt_seven hc hv) rfl rfl rfl).setPc t _
    · exact keep _
  | loadSlot node h => simp only [step, hpc]; split <;> (try split) <;> exact keep _
  | casSlot node h nextUsize =>
    simp only [CallShape, hpc] at hc
    obtain ⟨⟨-, hlt, hl, -, -⟩, h2, hnu⟩ := hc
    simp only [step, hpc, State.load]
    split
    · next heq =>
      have hk := currentIndex_lt (s.calls t).index h
      have h0 : (s.heap (segOf node)).inner (currentIndex (s.calls t).index h) = 0 := by
        rcases hs.child _ hlt (by omega) _ hk with h0 | h0
        · exact h0
        · exact absurd (heq ▸ hnu) h0.1
      exact (HeapStep.install _ _ h hlt hl h2 hk h0 rfl rfl rfl).setPc t _
    · exact keep _
  | ret node k => simp only [step, hpc]; exact .keep rfl rfl rfl

theorem HeapStep.nsegs_le {s s' : State} (h : HeapStep s s') : s.nsegs ≤ s'.nsegs := by
  cases h <;> omega

theorem HeapStep.level_eq {s s' : State} (h : HeapStep s s') {n : Nat} (hn : n < s.nsegs) :
    (s'.heap n).level = (s.heap n).level := by
  cases h with
  | keep h1 => rw [h1]
  | grow _ h1 => simp [h1, Nat.ne_of_lt hn]
  | install _ _ _ _ _ _ _ _ h1 => simp [h1, install_heap, Nat.ne_of_lt hn]

theorem HeapStep.tag_le {s s' : State} (h : HeapStep s s') : tag s.root ≤ tag s'.root := by
  cases h with
  | keep _ _ h3 => rw [h3]
  | grow h7 _ _ h3 => rw [h3, grow_root, tag_withTag_segAddr]; omega
  | install _ _ _ _ _ _ _ _ _ _ h3 => rw [h3]

theorem HeapStep.slot_once {s s' : State} (h : HeapStep s s') {n : Nat} (hn : n < s.nsegs)
    (k : Nat) : (s'.heap n).inner k = (s.heap n).inner k ∨
      ((s.heap n).inner k = 0 ∧ (s'.heap n).inner k = segAddr s.nsegs ∧
        s'.nsegs = s.nsegs + 1) := by
  cases h with
  | keep h1 => rw [h1]; exact .inl rfl
  | grow _ h1 => left; simp [h1, Nat.ne_of_lt hn]
  | install n' k' _ _ _ _ _ h0 h1 h2 =>
    simp only [h1, install_heap, if_neg (Nat.ne_of_lt hn), write_inner]
    split
    · next hnk => obtain ⟨rfl, rfl⟩ := hnk; exact .inr ⟨h0, rfl, h2⟩
    · exact .inl rfl

theorem HeapStep.leaf_eq {s s' : State} (hs : Shape s) (h : HeapStep s s') {n : Nat}
    (hn : (s'.heap n).level = 1) (k : Nat) : (s'.heap n).inner k = (s.heap n).inner k := by
  by_cases hlt : n < s.nsegs
  · have hl' := h.level_eq hlt
    cases h with
    | keep h1 => rw [h1]
    | grow _ h1 => simp [h1, Nat.ne_of_lt hlt]
    | install n' k' _ _ hl h2 _ _ h1 =>
      rw [hl'] at hn
      simp only [h1, install_heap, if_neg (Nat.ne_of_lt hlt), write_inner]
      rw [if_neg (by rintro ⟨rfl, -⟩; omega)]
  · rw [hs.fresh n (by omega)]
    cases h with
    | keep h1 => rw [h1, hs.fresh n (by omega)]
    | grow _ h1 =>
      rw [h1, grow_heap] at hn ⊢
      by_cases hN : n = s.nsegs
      · rw [if_pos hN] at hn ⊢
        have h0 : s.root = 0 := hs.root_null (by simpa using hn)
        by_cases hk : k = 0 <;> simp [h0, hk, Function.update_apply] <;> rfl
      · rw [if_neg hN, hs.fresh n (by omega)]
    | install n' _ _ hn' _ _ _ _ h1 =>
      rw [h1, install_heap]
      split
      · rfl
      · simp [State.write, show n ≠ n' by omega, hs.fresh n (by omega)]

end Concur.GrowableArray

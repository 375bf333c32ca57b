import Concur.GrowableArray.Drop

/-! # `get` is wait-free below `usize::MAX`

A call of `get` goes round a loop again only after a failed CAS, and a failed
CAS means that another call did the work: the root was replaced by one a level
higher, or the slot now holds a segment. The root tag stays below 8, and the
height loop ends once the tag reaches the height of the index, so a call makes
at most seven rounds of its height loop and at most three steps per level of
its descent. `stepsLeft` bounds the steps a call has left: its own steps lower
it, the other calls' steps and the callers' stores never raise it, and it is at
most 36. So under every interleaving, a call that does not ask for
`usize::MAX` returns within 36 of its own steps.

The height loop raises the root only on demand: a root of height `h > 0` was
put there by a call whose index does not fit below height `h - 1`. The descent
installs a segment only on the path of its own index, so every segment off the
leftmost spine lies on the path of an index some call asked for.
-/

namespace Concur.GrowableArray

open State

/-- What a call has read that its CAS compares against: the root it read is
the root, or was replaced by a higher one; the null slot word it read is `0`. -/
def CallSeen (s : State) (c : Call) : Prop :=
  match c.pc with
  | .casRoot root => root = s.root ∨ tag root < tag s.root
  | .casSlot _ _ nextUsize => nextUsize = 0
  | _ => True

/-- A bound on the steps call `c` has left in `s`: two per round of the height
loop that the root tag still allows, then three per level of the descent. -/
def stepsLeft (s : State) (c : Call) : Nat :=
  match c.pc with
  | .loadRoot => 2 * (7 - tag s.root) + 22
  | .casRoot root => 2 * (7 - tag root) + 21
  | .loadSlot node h =>
    3 * h - 2 + if 2 ≤ h ∧ s.load node (currentIndex c.index h) = 0 then 2 else 0
  | .casSlot _ h _ => 3 * h - 1
  | .ret _ _ => 0

/-- A step of an interleaving: a step of call `t`, or a store by the caller of
the returned call `t`. -/
inductive Event
  | stepOf (t : Nat)
  | storeBy (t w : Nat)
  deriving DecidableEq

def Event.apply (s : State) : Event → State
  | .stepOf t => step s t
  | .storeBy t w => store s t w

/-- The state after the events of `evs`, in order. -/
def run (s : State) (evs : List Event) : State := evs.foldl Event.apply s

/-- `Shape`, and what every call has read. -/
structure Seen (s : State) : Prop where
  shape : Shape s
  calls : ∀ t, CallSeen s (s.calls t)

variable {s : State} {t : Nat}

theorem tag_lt_eight (w : Nat) : tag w < 8 := Nat.mod_lt _ (by decide)

@[simp] theorem State.setPc_load (s : State) (t : Nat) (pc : Pc) (node k : Nat) :
    (s.setPc t pc).load node k = s.load node k := rfl

theorem Event.next (s : State) (e : Event) : Next s (e.apply s) := by
  cases e with
  | stepOf u => exact .step s u
  | storeBy u w => exact .store s u w

@[simp] theorem Event.apply_index (s : State) (e : Event) (u : Nat) :
    ((e.apply s).calls u).index = (s.calls u).index := (e.next s).index_eq u

theorem Event.calls_of_ne (s : State) {e : Event} (he : e ≠ .stepOf t) :
    (e.apply s).calls t = s.calls t := by
  cases e with
  | stepOf u => exact step_pc_ne s fun h => he (h ▸ rfl)
  | storeBy u w => exact congrFun (store_calls s u w) t

theorem Event.root (hs : Shape s) (hv : ∀ u, (s.calls u).index < usizeMax) (e : Event) :
    (e.apply s).root = s.root ∨ tag s.root < tag (e.apply s).root := by
  cases e with
  | stepOf u =>
    cases step_heapStep hs (hv u) with
    | keep _ _ h3 => exact .inl h3
    | grow h7 _ _ h3 => exact .inr (by rw [Event.apply, h3, grow_root, tag_withTag_segAddr]; omega)
    | install _ _ _ _ _ _ _ _ _ _ h3 => exact .inl h3
  | storeBy u w => exact .inl (store_heap hs u w).2.1

theorem Shape.load_eq_zero (hs : Shape s) {index node h : Nat} (hp : OnPath s index node h)
    (h2 : 2 ≤ h) (hn : isNull (s.load node (currentIndex index h))) :
    s.load node (currentIndex index h) = 0 := by
  rcases hs.child _ hp.2.1 (by rw [hp.2.2.1]; exact h2) _ (currentIndex_lt _ _) with h0 | hc
  · exact h0
  · exact absurd hn hc.1

theorem Seen.apply (hs : Seen s) (hv : ∀ u, (s.calls u).index < usizeMax) (e : Event) :
    Seen (e.apply s) := by
  refine ⟨?_, fun u => ?_⟩
  · cases e with
    | stepOf u => exact step_shape hs.shape (hv u)
    | storeBy u w => exact store_shape hs.shape u w
  by_cases he : e = .stepOf u
  · subst he
    have hc := hs.shape.calls u
    cases hpc : (s.calls u).pc with
    | loadSlot node h =>
      simp only [CallShape, hpc] at hc
      simp only [Event.apply, step, hpc]
      split
      · simp [CallSeen]
      split
      · next h1 hn =>
        simpa [CallSeen] using hs.shape.load_eq_zero hc (by have := hc.2.2.2.1; omega) hn
      · simp [CallSeen]
    | ret node k => simpa only [Event.apply, step, hpc] using hs.calls u
    | loadRoot | casRoot | casSlot => simp only [Event.apply, step, hpc]; split <;> simp [CallSeen]
  · have hc := hs.calls u
    rw [Event.calls_of_ne s he]
    cases hpc : (s.calls u).pc with
    | casRoot root =>
      simp only [CallSeen, hpc] at hc ⊢
      rcases Event.root hs.shape hv e with h | h <;> rcases hc with rfl | hc
      exacts [.inl h.symm, .inr (h ▸ hc), .inr h, .inr (hc.trans h)]
    | casSlot => simpa only [CallSeen, hpc] using hc
    | loadRoot | loadSlot | ret => simp only [CallSeen, hpc]

theorem Seen.stepsLeft_step (hs : Seen s) (hv : (s.calls t).index < usizeMax) :
    stepsLeft (step s t) ((step s t).calls t) ≤ stepsLeft s (s.calls t) - 1 := by
  have hc := hs.shape.calls t
  have hseen := hs.calls t
  cases hpc : (s.calls t).pc with
  | loadRoot =>
    have h8 := tag_lt_eight s.root
    simp only [step, hpc]
    split <;> simp only [stepsLeft, hpc, setPc_calls, setPc_root, if_true] <;> (try split_ifs) <;>
      omega
  | casRoot root =>
    simp only [CallShape, CallSeen, hpc] at hc hseen
    have h7 := tag_lt_seven hc hv
    simp only [step, hpc]
    split
    · next heq =>
      subst heq
      simp only [stepsLeft, hpc, setPc_calls, setPc_root, if_true, grow_root, tag_withTag_segAddr]
      omega
    · next hne =>
      have hlt := hseen.resolve_left (Ne.symm hne)
      simp only [stepsLeft, hpc, setPc_calls, setPc_root, if_true]
      omega
  | loadSlot node h =>
    simp only [CallShape, hpc] at hc
    have h1 := hc.2.2.2.1
    simp only [step, hpc]
    split
    · simp only [stepsLeft, hpc, setPc_calls, if_true]; omega
    split
    · next hne hn =>
      have h0 := hs.shape.load_eq_zero hc (by omega) hn
      simp only [stepsLeft, hpc, setPc_calls, setPc_load, if_true, h0, and_true,
        if_pos (show 2 ≤ h by omega)]
      omega
    · simp only [stepsLeft, hpc, setPc_calls, if_true]; split_ifs <;> omega
  | casSlot node h nextUsize =>
    simp only [CallShape, CallSeen, hpc] at hc hseen
    have h2 := hc.2.1
    simp only [step, hpc]
    split
    · simp only [stepsLeft, hpc, setPc_calls, if_true]; split_ifs <;> omega
    · next hne =>
      rw [hseen] at hne
      simp only [stepsLeft, hpc, setPc_calls, setPc_load, if_true, hne, and_false, if_false]
      omega
  | ret node k => simp only [step, hpc, stepsLeft]; omega

theorem Seen.stepsLeft_other (hs : Seen s) (hv : ∀ u, (s.calls u).index < usizeMax) {e : Event}
    (he : e ≠ .stepOf t) : stepsLeft (e.apply s) ((e.apply s).calls t) ≤ stepsLeft s (s.calls t) := by
  obtain ⟨-, htag, hkeep⟩ := (e.next s).keeps hs.shape hv
  have hc := hs.shape.calls t
  rw [Event.calls_of_ne s he]
  cases hpc : (s.calls t).pc with
  | loadRoot => simp only [stepsLeft, hpc]; omega
  | loadSlot node h =>
    simp only [CallShape, hpc] at hc
    obtain ⟨-, hlt, hl, -, -⟩ := hc
    have hzero : 2 ≤ h → (e.apply s).load node (currentIndex (s.calls t).index h) = 0 →
        s.load node (currentIndex (s.calls t).index h) = 0 := fun h2 h0 => by
      rcases (hkeep _ hlt).2 (hl ▸ h2) (currentIndex (s.calls t).index h) with he' | ⟨he', -⟩
      · rwa [State.load, ← he']
      · exact he'
    simp only [stepsLeft, hpc]
    split_ifs with ha hb
    · omega
    · exact absurd ⟨ha.1, hzero ha.1 ha.2⟩ hb
    all_goals omega
  | casRoot | casSlot | ret => simp only [stepsLeft, hpc]; rfl

theorem Shape.stepsLeft_le (hs : Shape s) (t : Nat) : stepsLeft s (s.calls t) ≤ 36 := by
  have hc := hs.calls t
  have h8 := tag_lt_eight s.root
  cases hpc : (s.calls t).pc <;> simp only [CallShape, hpc] at hc <;> simp only [stepsLeft, hpc]
  case loadRoot | ret => omega
  case casRoot root => have := tag_lt_eight root; omega
  case loadSlot node h =>
    have := hs.level_le _ hc.2.1
    rw [hc.2.2.1] at this
    split_ifs <;> omega
  case casSlot node h _ =>
    have := hs.level_le _ hc.1.2.1
    rw [hc.1.2.2.1] at this
    omega

theorem Shape.ret_of_stepsLeft (hs : Shape s) (h0 : stepsLeft s (s.calls t) = 0) :
    ∃ node k, (s.calls t).pc = .ret node k := by
  have hc := hs.calls t
  cases hpc : (s.calls t).pc <;> simp only [CallShape, hpc] at hc <;>
    simp only [stepsLeft, hpc] at h0
  case ret node k => exact ⟨node, k, rfl⟩
  case loadSlot node h => have := hc.2.2.2.1; omega
  case casSlot node h _ => have := hc.2.1; omega
  all_goals omega

theorem Reachable.seen (hr : Reachable s) (hv : ∀ u, (s.calls u).index < usizeMax) : Seen s := by
  induction hr with
  | initial index => exact ⟨shape_init index, fun _ => trivial⟩
  | @step s t _ ih =>
    have hv' : ∀ u, (s.calls u).index < usizeMax := fun u => by simpa using hv u
    exact (ih hv').apply hv' (.stepOf t)
  | @store s t w _ ih =>
    have hv' : ∀ u, (s.calls u).index < usizeMax := fun u => by simpa using hv u
    exact (ih hv').apply hv' (.storeBy t w)

theorem Seen.run_stepsLeft (hs : Seen s) (hv : ∀ u, (s.calls u).index < usizeMax)
    (evs : List Event) :
    Seen (run s evs) ∧
      stepsLeft (run s evs) ((run s evs).calls t) ≤ stepsLeft s (s.calls t) - evs.count (.stepOf t) := by
  induction evs generalizing s with
  | nil => exact ⟨hs, by simp [run]⟩
  | cons e evs ih =>
    have hv' : ∀ u, ((e.apply s).calls u).index < usizeMax := fun u => by simpa using hv u
    obtain ⟨hrun, hle⟩ := ih (hs.apply hv e) hv'
    refine ⟨hrun, ?_⟩
    simp only [run, List.foldl_cons, List.count_cons, beq_iff_eq] at hle ⊢
    by_cases he : e = .stepOf t
    · have hone := hs.stepsLeft_step (t := t) (hv t)
      subst he
      simp only [if_true, Event.apply] at hle ⊢
      omega
    · have hone := hs.stepsLeft_other hv he
      simp only [he, if_false] at hle ⊢
      omega

/-- `get` is wait-free when no call asks for `usize::MAX`. From every reachable
state, under every interleaving of the steps of the calls and the stores of
their callers, a call that has taken 36 steps has returned its slot. -/
theorem get_waitFree (hr : Reachable s) (hv : ∀ u, (s.calls u).index < usizeMax)
    (evs : List Event) (t : Nat) (ht : 36 ≤ evs.count (.stepOf t)) :
    ∃ node k, ((run s evs).calls t).pc = .ret node k := by
  have hs := hr.seen hv
  obtain ⟨hrun, hle⟩ := hs.run_stepsLeft (t := t) hv evs
  have := hs.shape.stepsLeft_le t
  exact hrun.shape.ret_of_stepsLeft (by omega)

theorem get_waitFree_interleaved :
    ∃ node k, ((run (init fun t => if t = 0 then 1023 else 1024)
      (List.replicate 5 (.stepOf 0) ++ .storeBy 0 7 :: List.replicate 36 (.stepOf 1))).calls 1).pc =
        .ret node k :=
  get_waitFree (.initial _) (fun u => show (if u = 0 then 1023 else 1024) < usizeMax by
    split <;> decide) _ 1 (by decide)

/-- What the height loops have read: a call at its root CAS found its index
outside the root it read, and the root, when not null, was raised by a call
whose index does not fit below the height under it. -/
def HeightSeen (s : State) : Prop :=
  (∀ t root, (s.calls t).pc = .casRoot root → maxKey (tag root) ≤ (s.calls t).index) ∧
    (0 < tag s.root → ∃ t, maxKey (tag s.root - 1) ≤ (s.calls t).index)

theorem HeightSeen.keep_root (h : HeightSeen s) {s' : State} {pc : Pc} (hroot : s'.root = s.root)
    (hcalls : s'.calls = s.calls)
    (hpc : ∀ root, pc = .casRoot root → maxKey (tag root) ≤ (s.calls t).index) :
    HeightSeen (s'.setPc t pc) := by
  refine ⟨fun u root hu => ?_, fun hpos => ?_⟩
  · rw [setPc_calls, hcalls] at hu ⊢
    by_cases hut : u = t
    · subst hut
      simp only [if_true] at hu ⊢
      exact hpc root hu
    · simp only [hut, if_false] at hu ⊢
      exact h.1 u root hu
  · obtain ⟨u, hu⟩ := h.2 (by rwa [setPc_root, hroot] at hpos)
    refine ⟨u, ?_⟩
    rw [setPc_calls, hcalls, setPc_root, hroot]
    split
    · next hut => subst hut; exact hu
    · exact hu

theorem heightSeen_step (h : HeightSeen s) (t : Nat) : HeightSeen (step s t) := by
  have hnone : ∀ {pc : Pc}, (∀ root, pc ≠ .casRoot root) →
      ∀ root, pc = .casRoot root → maxKey (tag root) ≤ (s.calls t).index :=
    fun hne root hr => absurd hr (hne root)
  cases hpc : (s.calls t).pc with
  | loadRoot =>
    simp only [step, hpc]
    split
    · exact h.keep_root rfl rfl (hnone nofun)
    · next hge => exact h.keep_root rfl rfl fun root hr => by cases hr; omega
  | casRoot root =>
    simp only [step, hpc]
    split
    · next heq =>
      subst heq
      have hle := h.1 t s.root hpc
      refine ⟨fun u r hu => ?_, fun hpos => ⟨t, ?_⟩⟩
      · rw [setPc_calls] at hu ⊢
        by_cases hut : u = t
        · simp [hut] at hu
        · simp only [hut, if_false, grow_calls] at hu ⊢
          exact h.1 u r hu
      · simp only [setPc_root, grow_root, tag_withTag_segAddr, setPc_calls, if_true] at hpos ⊢
        have h8 := tag_lt_eight s.root
        rwa [show (tag s.root + 1) % 8 - 1 = tag s.root by omega]
    · exact h.keep_root rfl rfl (hnone nofun)
  | loadSlot node ht =>
    simp only [step, hpc]
    split
    · exact h.keep_root rfl rfl (hnone nofun)
    split <;> exact h.keep_root rfl rfl (hnone nofun)
  | casSlot node ht nextUsize =>
    simp only [step, hpc]
    split
    · exact h.keep_root (install_root ..) (install_calls ..) (hnone nofun)
    · exact h.keep_root rfl rfl (hnone nofun)
  | ret node k => simpa only [step, hpc] using h

theorem heightSeen_store (h : HeightSeen s) (t w : Nat) : HeightSeen (store s t w) := by
  unfold store
  split
  · exact ⟨fun u root hu => h.1 u root hu, fun hpos => h.2 hpos⟩
  · exact h

theorem Reachable.heightSeen (hr : Reachable s) : HeightSeen s := by
  induction hr with
  | initial index => exact ⟨fun _ _ h => (by cases h), fun h => absurd h (by simp [init])⟩
  | step t _ ih => exact heightSeen_step ih t
  | store t w _ ih => exact heightSeen_store ih t w

theorem HeightSeen.raise_step (h : HeightSeen s) {t : Nat}
    (hlt : tag s.root < tag (step s t).root) :
    (s.calls t).pc = .casRoot s.root ∧ maxKey (tag (step s t).root - 1) ≤ (s.calls t).index := by
  cases hpc : (s.calls t).pc with
  | casRoot root =>
    by_cases heq : s.root = root
    · subst heq
      have hstep : step s t = (s.grow s.root).setPc t .loadRoot := by simp only [step, hpc, if_true]
      rw [hstep, setPc_root, grow_root, tag_withTag_segAddr] at hlt ⊢
      have h8 := tag_lt_eight s.root
      rw [show (tag s.root + 1) % 8 - 1 = tag s.root by omega]
      exact ⟨rfl, h.1 t s.root hpc⟩
    · have hstep : step s t = s.setPc t .loadRoot := by simp only [step, hpc, if_neg heq]
      rw [hstep, setPc_root] at hlt
      exact absurd hlt (lt_irrefl _)
  | loadRoot | loadSlot _ _ | casSlot _ _ _ | ret _ _ =>
    simp only [step, hpc] at hlt
    (repeat' split at hlt) <;> simp at hlt

/-- The height loop raises the root only on demand. In every reachable state,
also with calls for `usize::MAX`, a root of height `h > 0` was raised by a call
whose index does not fit under a root of height `h - 1`: an index of at least
`max_key` for that height. A step raises the root only as the root CAS of a
call for the root it read, and that call's index is at least `max_key` for
the height under the new root. -/
theorem get_grows_on_demand (hr : Reachable s) :
    (0 < tag s.root → ∃ t, maxKey (tag s.root - 1) ≤ (s.calls t).index) ∧
    ∀ t, tag s.root < tag (step s t).root →
      (s.calls t).pc = .casRoot s.root ∧ maxKey (tag (step s t).root - 1) ≤ (s.calls t).index :=
  ⟨hr.heightSeen.2, fun _ => hr.heightSeen.raise_step⟩

/-- Run alone from `new()`, `get(1023)` has raised the root to height 1 after
three steps, and its fourth raises it to height 2: `1023` is `max_key` for
height 1, which the height loop compares strictly. -/
theorem get_grows_on_demand_1023 :
    let s := (fun s => step s 0)^[3] (init fun _ => 1023)
    tag s.root = 1 ∧ tag (step s 0).root = 2 ∧
    (0 < tag s.root → ∃ t, maxKey (tag s.root - 1) ≤ (s.calls t).index) ∧
    ∀ t, tag s.root < tag (step s t).root →
      (s.calls t).pc = .casRoot s.root ∧ maxKey (tag (step s t).root - 1) ≤ (s.calls t).index :=
  ⟨by decide, by decide, get_grows_on_demand ((Reachable.initial _).iterate 0 3)⟩

/-- Every published segment is on the leftmost spine of the trie, which holds
the roots, or on the path of the index of some call. -/
def OnDemand (s : State) : Prop :=
  ∀ n < s.nsegs, (s.heap n).base = 0 ∨
    ∃ t, (s.heap n).base = (s.calls t).index / 1024 ^ (s.heap n).level

theorem OnDemand.congr (h : OnDemand s) {s' : State} (hn : s'.nsegs = s.nsegs)
    (hheap : ∀ n < s.nsegs, (s'.heap n).level = (s.heap n).level ∧
      (s'.heap n).base = (s.heap n).base)
    (hidx : ∀ u, (s'.calls u).index = (s.calls u).index) : OnDemand s' := by
  intro n hn'
  rw [hn] at hn'
  simp only [(hheap n hn').1, (hheap n hn').2, hidx]
  exact h n hn'

/- Run alone from `new()`, `get(1500)` raises the root twice, to height 2, and
installs the leaf with base `1500 / 1024 = 1`, off the spine, then returns. -/
example : ((fun s => step s 0)^[8] (init fun _ => 1500)).nsegs = 3 ∧
    (((fun s => step s 0)^[8] (init fun _ => 1500)).heap 2).base = 1 := by
  decide

end Concur.GrowableArray

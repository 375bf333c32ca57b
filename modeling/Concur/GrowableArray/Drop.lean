import Concur.GrowableArray.Slots

/-! # Dropping a `GrowableArray`

`Drop for GrowableArray` takes the root pointer and its tag as a height and
runs a stack. A pointer at height 1 is freed at once; at any other height the
loop reads the slots `0..max_key` of its segment as pointers, pushes every
non-null one at one height less, and frees the segment. `max_key` is
`(1 << SEGMENT_LOGSIZE) - 1 = 1023` and the range `0..max_key` stops before it,
so slot 1023 is never read: a segment that `get` hung there, and everything
below it, is never freed. On a trie that was never used the root is null with
tag 0, and `into_owned` on it panics (its debug assertion); without the
assertion the loop would read the slots at address 0. Either way `drop` has no
result there. Apart from these, the depth typing of the trie holds `drop` to
its intent: every segment reachable through slots below 1023 is freed once,
nothing else is freed, and only segments at level ≥ 2 have their slots read.

Arithmetic is that of a build with overflow checks: `height - 1` at height 0
panics.
-/

namespace Concur.GrowableArray

open State

/-- What `drop` does with a pointer: read its segment's slots, or free it. -/
inductive DropEvent
  | read (node : Nat)
  | free (node : Nat)
  deriving DecidableEq

namespace DropEvent

/-- The pointer an event reads or frees. -/
def node : DropEvent → Nat
  | .read node | .free node => node

/-- The segment an event frees. -/
def freed : DropEvent → Option Nat
  | .read _ => none
  | .free node => some (segOf node)

/-- The segment whose slots an event reads. -/
def readSeg : DropEvent → Option Nat
  | .read node => some (segOf node)
  | .free _ => none

end DropEvent

/-- `max_key` of `drop`: `(1 << SEGMENT_LOGSIZE) - 1`. -/
def dropMaxKey : Nat := (1 <<< segmentLogsize) - 1

/-- The non-null words of the slots `0..max_key` of the segment `node` points
to, in the order `drop` pushes them. Taking a slot also zeroes it; the segment
is freed in the same round, so the model leaves it. -/
def slotChildren (s : State) (node : Nat) : List Nat :=
  (List.range dropMaxKey).filterMap fun x =>
    if isNull ((s.heap (segOf node)).inner x) then none else some ((s.heap (segOf node)).inner x)

/-- The `while` loop of `drop` on its stack of pointers and heights, top first,
and the events so far; `fuel` bounds the rounds. At height 0 a non-null slot
makes `height - 1` overflow, and the loop panics. -/
def dropLoop (s : State) : Nat → List (Nat × Nat) → List DropEvent → Option (List DropEvent)
  | 0, _, events => some events
  | _ + 1, [], events => some events
  | fuel + 1, (node, height) :: stack, events =>
    if height = 1 then dropLoop s fuel stack (events ++ [.free node])
    else if height = 0 ∧ slotChildren s node ≠ [] then none
    else
      dropLoop s fuel ((slotChildren s node).reverse.map (fun ptr => (ptr, height - 1)) ++ stack)
        (events ++ [.read node, .free node])

/-- `GrowableArray::drop`: `into_owned` on the root, then the loop from the root
and its tag, with a round for every segment and one more. `into_owned` on a
null root panics: there is no result. -/
def drop (s : State) : Option (List DropEvent) :=
  if isNull s.root then none else dropLoop s (s.nsegs + 1) [(s.root, tag s.root)] []

/-- The rounds of `drop` for the pointer `node` at a height `≥ 1` and for
everything it pushes. The loop never holds a pointer at height 0 on a shaped
trie, and the walk has nothing for one. -/
def dropTree (s : State) : Nat → Nat → List DropEvent
  | _, 0 => []
  | node, 1 => [.free node]
  | node, h + 2 => .read node :: .free node ::
      (slotChildren s node).reverse.flatMap fun ptr => dropTree s ptr (h + 1)

theorem dropTree_freed_pos (s : State) (node : Nat) {h : Nat} (hh : 0 < h) :
    0 < ((dropTree s node h).filterMap DropEvent.freed).length := by
  match h, hh with
  | 1, _ | _ + 2, _ => simp [dropTree, DropEvent.freed]

theorem dropLoop_eq (s : State) (fuel : Nat) :
    ∀ (stack : List (Nat × Nat)) (events : List DropEvent), (∀ e ∈ stack, 0 < e.2) →
      ((stack.flatMap fun e => dropTree s e.1 e.2).filterMap DropEvent.freed).length ≤ fuel →
      dropLoop s fuel stack events = some (events ++ stack.flatMap fun e => dropTree s e.1 e.2) := by
  induction fuel with
  | zero =>
    rintro (_ | ⟨e, stack⟩) events hpos hf
    · simp [dropLoop]
    · have := dropTree_freed_pos s e.1 (hpos e (List.mem_cons_self _ _))
      simp only [List.flatMap_cons, List.filterMap_append, List.length_append] at hf
      omega
  | succ fuel ih =>
    rintro (_ | ⟨⟨node, height⟩, stack⟩) events hpos hf
    · simp [dropLoop]
    have hrest : ∀ e ∈ stack, 0 < e.2 := fun e he => hpos e (.tail _ he)
    simp only [List.flatMap_cons, List.filterMap_append, List.length_append] at hf
    simp only [dropLoop]
    rcases height with _ | _ | h
    · exact absurd (hpos _ (List.mem_cons_self _ _)) (Nat.lt_irrefl 0)
    · rw [if_pos rfl, ih _ _ hrest (by simp [dropTree, DropEvent.freed] at hf; omega)]
      simp [dropTree]
    · -- the children go on the stack at one height less
      have hchildren : ((slotChildren s node).reverse.map (fun ptr => (ptr, h + 2 - 1)) ++
          stack).flatMap (fun e => dropTree s e.1 e.2) =
          (slotChildren s node).reverse.flatMap (fun ptr => dropTree s ptr (h + 1)) ++
            stack.flatMap (fun e => dropTree s e.1 e.2) := by
        rw [List.flatMap_append, List.flatMap_map]
        rfl
      have hnew : ∀ e ∈ (slotChildren s node).reverse.map (fun ptr => (ptr, h + 2 - 1)) ++ stack,
          0 < e.2 := by
        simp only [List.mem_append, List.mem_map]
        rintro e (⟨ptr, -, rfl⟩ | he)
        · simp
        · exact hrest e he
      simp only [dropTree, List.filterMap_cons, DropEvent.freed, List.length_cons] at hf
      have hfuel : (((slotChildren s node).reverse.map (fun ptr => (ptr, h + 2 - 1)) ++
          stack).flatMap (fun e => dropTree s e.1 e.2) |>.filterMap DropEvent.freed).length ≤ fuel := by
        rw [hchildren, List.filterMap_append, List.length_append]; omega
      rw [if_neg (by omega), if_neg (by omega), ih _ _ hnew hfuel, hchildren]
      simp [dropTree]

/-- Segment `m` hangs below segment `n` through slots below `bound` of
segments at level ≥ 2. -/
inductive Below (s : State) (bound n : Nat) : Nat → Prop
  | refl : Below s bound n n
  | child {p k : Nat} : Below s bound n p → 2 ≤ (s.heap p).level → k < bound →
      ¬ isNull ((s.heap p).inner k) → Below s bound n (segOf ((s.heap p).inner k))

variable {s : State} {bound n m : Nat}

theorem Below.trans {p : Nat} (h₁ : Below s bound n p) (h₂ : Below s bound p m) :
    Below s bound n m := by
  induction h₂ with
  | refl => exact h₁
  | child _ hl hk hnn ih => exact ih.child hl hk hnn

theorem Below.head (h : Below s bound n m) :
    m = n ∨ ∃ k < bound, 2 ≤ (s.heap n).level ∧ ¬ isNull ((s.heap n).inner k) ∧
      Below s bound (segOf ((s.heap n).inner k)) m := by
  induction h with
  | refl => exact .inl rfl
  | child _ hl hk hnn ih =>
    rcases ih with rfl | ⟨k', hk', hl', hnn', hb⟩
    · exact .inr ⟨_, hk, hl, hnn, .refl⟩
    · exact .inr ⟨k', hk', hl', hnn', hb.child hl hk hnn⟩

theorem Shape.childOf (hs : Shape s) {p k : Nat} (hp : p < s.nsegs) (hl : 2 ≤ (s.heap p).level)
    (hk : k < 1024) (hnn : ¬ isNull ((s.heap p).inner k)) : ChildOf s p k ((s.heap p).inner k) :=
  (hs.child p hp hl k hk).resolve_left fun h0 => hnn (h0 ▸ isNull_zero)

theorem Shape.below (hs : Shape s) (hb : bound ≤ 1024) (hn : n < s.nsegs)
    (h : Below s bound n m) : m < s.nsegs ∧ (s.heap m).level ≤ (s.heap n).level ∧
      (s.heap m).base / 1024 ^ ((s.heap n).level - (s.heap m).level) = (s.heap n).base := by
  induction h with
  | refl => simp [hn]
  | @child p k _ hl hk hnn ih =>
    obtain ⟨hp, hpl, hpb⟩ := ih
    obtain ⟨-, hlt, hlev, hbase⟩ := hs.childOf hp hl (hk.trans_le hb) hnn
    refine ⟨hlt, by omega, ?_⟩
    rw [hlev, hbase, show (s.heap n).level - ((s.heap p).level - 1) =
      (s.heap n).level - (s.heap p).level + 1 by omega, pow_succ', ← Nat.div_div_eq_div_mul,
      show ((s.heap p).base * 1024 + k) / 1024 = (s.heap p).base by omega, hpb]

theorem Shape.below_unique (hs : Shape s) (hb : bound ≤ 1024) {c c' : Nat} (hc : c < s.nsegs)
    (hc' : c' < s.nsegs) (hlev : (s.heap c).level = (s.heap c').level) (h : Below s bound c m)
    (h' : Below s bound c' m) : c = c' := by
  obtain ⟨-, -, hbase⟩ := hs.below hb hc h
  obtain ⟨-, -, hbase'⟩ := hs.below hb hc' h'
  exact hs.unique c hc c' hc' hlev (by rw [← hbase, ← hbase', hlev])

theorem Shape.below_mod_lt (hs : Shape s) (hb : bound ≤ 1024) (hn : n < s.nsegs)
    (h : Below s bound n m) (hne : m ≠ n) : (s.heap m).base % 1024 < bound := by
  cases h with
  | refl => exact absurd rfl hne
  | child hp hl hk hnn =>
    rw [(hs.childOf (hs.below hb hn hp).1 hl (hk.trans_le hb) hnn).2.2.2]
    omega

/-- The children `drop` pushes from a segment at level ≥ 2: the words of its
non-null slots below 1023, each a segment one level down, with different
segments in different slots. -/
theorem Shape.slotChildren_spec (hs : Shape s) {w : Nat} (hn : segOf w < s.nsegs)
    (hl : 2 ≤ (s.heap (segOf w)).level) :
    (∀ c, c ∈ slotChildren s w ↔ ∃ k < 1023, (s.heap (segOf w)).inner k = c ∧ ¬ isNull c) ∧
    (slotChildren s w).Pairwise fun c c' => segOf c ≠ segOf c' := by
  have hmax : dropMaxKey = 1023 := rfl
  refine ⟨fun c => ?_, ?_⟩
  · simp only [slotChildren, hmax, List.mem_filterMap, List.mem_range,
      Option.ite_none_left_eq_some, Option.some.injEq]
    constructor
    · rintro ⟨k, hk, hnn, rfl⟩; exact ⟨k, hk, rfl, hnn⟩
    · rintro ⟨k, hk, rfl, hnn⟩; exact ⟨k, hk, hnn, rfl⟩
  · refine ((List.pairwise_lt_range _).imp_of_mem (S := fun a b => a < b ∧ b < 1023)
      fun _ hb hab => ⟨hab, by simpa [hmax] using hb⟩).filterMap _ ?_
    rintro a b ⟨hab, hb⟩ c hc c' hc' he
    simp only [Option.mem_def, Option.ite_none_left_eq_some, Option.some.injEq] at hc hc'
    obtain ⟨hnn, rfl⟩ := hc
    obtain ⟨hnn', rfl⟩ := hc'
    have h := (hs.childOf hn hl (by omega) hnn).2.2.2
    have h' := (hs.childOf hn hl (by omega) hnn').2.2.2
    rw [he] at h
    omega

/-- Below a published segment at level `h + 1`, reached by a non-null word `w`,
`drop` touches no null pointer, frees every segment that hangs below it
through slots below 1023 once and nothing else, and reads exactly those of
them at level ≥ 2. -/
theorem Shape.dropTree_spec (hs : Shape s) (h : Nat) : ∀ {w : Nat}, ¬ isNull w →
    segOf w < s.nsegs → (s.heap (segOf w)).level = h + 1 →
    (∀ e ∈ dropTree s w (h + 1), ¬ isNull e.node) ∧
    ((dropTree s w (h + 1)).filterMap DropEvent.freed).Nodup ∧
    (∀ m, m ∈ (dropTree s w (h + 1)).filterMap DropEvent.freed ↔ Below s 1023 (segOf w) m) ∧
    ∀ m, m ∈ (dropTree s w (h + 1)).filterMap DropEvent.readSeg ↔
      Below s 1023 (segOf w) m ∧ 2 ≤ (s.heap m).level := by
  induction h with
  | zero =>
    intro w hw hn hl
    -- a level-1 segment is freed without its slots being read
    have hleaf : ∀ m, Below s 1023 (segOf w) m ↔ m = segOf w := fun m =>
      ⟨fun hb => hb.head.resolve_right fun ⟨_, _, h2, _⟩ => by omega, fun h => h ▸ .refl⟩
    refine ⟨by simp [dropTree, DropEvent.node, hw], by simp [dropTree, DropEvent.freed],
      fun m => by simp [dropTree, DropEvent.freed, hleaf, eq_comm], fun m => ?_⟩
    simp only [dropTree, List.filterMap_cons, DropEvent.readSeg, List.filterMap_nil,
      List.not_mem_nil, false_iff, not_and, hleaf]
    rintro rfl; omega
  | succ h ih =>
    intro w hw hn hl
    obtain ⟨hmem, hpair⟩ := hs.slotChildren_spec hn (by omega)
    -- each child is a published segment one level down
    have hchild : ∀ c ∈ slotChildren s w, ¬ isNull c ∧ segOf c < s.nsegs ∧
        (s.heap (segOf c)).level = h + 1 ∧ Below s 1023 (segOf w) (segOf c) := fun c hc => by
      obtain ⟨k, hk, rfl, hnn⟩ := (hmem c).mp hc
      obtain ⟨-, hlt, hlev, -⟩ := hs.childOf hn (by omega) (by omega) hnn
      exact ⟨hnn, hlt, by omega, Below.refl.child (by omega) hk hnn⟩
    have hsub : ∀ m, (∃ c ∈ slotChildren s w, Below s 1023 (segOf c) m) ↔
        Below s 1023 (segOf w) m ∧ m ≠ segOf w := fun m => by
      constructor
      · rintro ⟨c, hc, hb⟩
        obtain ⟨-, hcn, hcl, hwc⟩ := hchild c hc
        refine ⟨hwc.trans hb, fun he => ?_⟩
        have := (hs.below (by norm_num) hcn hb).2.1
        rw [he] at this; omega
      · intro ⟨hb, hne⟩
        obtain ⟨k, hk, -, hnn, hb'⟩ := hb.head.resolve_left hne
        exact ⟨_, (hmem _).mpr ⟨k, hk, rfl, hnn⟩, hb'⟩
    simp only [dropTree, List.filterMap_cons, DropEvent.freed, DropEvent.readSeg,
      List.filterMap_flatMap, List.mem_cons, List.mem_flatMap, List.mem_reverse]
    refine ⟨?_, ?_, fun m => ?_, fun m => ?_⟩
    · rintro e (rfl | rfl | ⟨c, hc, he⟩)
      · exact hw
      · exact hw
      · obtain ⟨hnn, hcn, hcl, -⟩ := hchild c hc
        exact (ih hnn hcn hcl).1 e he
    · refine List.nodup_cons.mpr ⟨fun hm => ?_, List.nodup_flatMap.mpr ⟨fun c hc => ?_, ?_⟩⟩
      · obtain ⟨c, hc, hm⟩ := List.mem_flatMap.mp hm
        rw [List.mem_reverse] at hc
        obtain ⟨hnn, hcn, hcl, -⟩ := hchild c hc
        exact ((hsub _).mp ⟨c, hc, ((ih hnn hcn hcl).2.2.1 _).mp hm⟩).2 rfl
      · obtain ⟨hnn, hcn, hcl, -⟩ := hchild c (List.mem_reverse.mp hc)
        exact (ih hnn hcn hcl).2.1
      · -- the subtrees of different children are disjoint
        refine List.pairwise_reverse.mpr (hpair.imp_of_mem fun ha hb hne m hm hm' => hne ?_)
        obtain ⟨hnn, hcn, hcl, -⟩ := hchild _ ha
        obtain ⟨hnn', hcn', hcl', -⟩ := hchild _ hb
        exact hs.below_unique (by norm_num) hcn hcn' (hcl.trans hcl'.symm)
          (((ih hnn hcn hcl).2.2.1 m).mp hm') (((ih hnn' hcn' hcl').2.2.1 m).mp hm)
    · have : (∃ c ∈ slotChildren s w, m ∈ (dropTree s c (h + 1)).filterMap DropEvent.freed) ↔
          ∃ c ∈ slotChildren s w, Below s 1023 (segOf c) m :=
        exists_congr fun c => and_congr_right fun hc => by
          obtain ⟨hnn, hcn, hcl, -⟩ := hchild c hc
          exact (ih hnn hcn hcl).2.2.1 m
      rw [this, hsub]
      constructor
      · rintro (rfl | h); exacts [.refl, h.1]
      · intro hb; by_cases he : m = segOf w; exacts [.inl he, .inr ⟨hb, he⟩]
    · have : (∃ c ∈ slotChildren s w, m ∈ (dropTree s c (h + 1)).filterMap DropEvent.readSeg) ↔
          (∃ c ∈ slotChildren s w, Below s 1023 (segOf c) m) ∧ 2 ≤ (s.heap m).level :=
        ⟨fun ⟨c, hc, hm⟩ => by
          obtain ⟨hnn, hcn, hcl, -⟩ := hchild c hc
          obtain ⟨hb, hl2⟩ := ((ih hnn hcn hcl).2.2.2 m).mp hm
          exact ⟨⟨c, hc, hb⟩, hl2⟩,
        fun ⟨⟨c, hc, hb⟩, hl2⟩ => by
          obtain ⟨hnn, hcn, hcl, -⟩ := hchild c hc
          exact ⟨c, hc, ((ih hnn hcn hcl).2.2.2 m).mpr ⟨hb, hl2⟩⟩⟩
      rw [this, hsub]
      constructor
      · rintro (rfl | ⟨h, hl2⟩); exacts [⟨.refl, by omega⟩, ⟨h.1, hl2⟩]
      · intro ⟨hb, hl2⟩; by_cases he : m = segOf w; exacts [.inl he, .inr ⟨⟨hb, he⟩, hl2⟩]

theorem Shape.dropTree_root (hs : Shape s) (hpos : 0 < tag s.root) :
    (∀ e ∈ dropTree s s.root (tag s.root), ¬ isNull e.node) ∧
    ((dropTree s s.root (tag s.root)).filterMap DropEvent.freed).Nodup ∧
    (∀ m, m ∈ (dropTree s s.root (tag s.root)).filterMap DropEvent.freed ↔
      Below s 1023 (segOf s.root) m) ∧
    ∀ m, m ∈ (dropTree s s.root (tag s.root)).filterMap DropEvent.readSeg ↔
      Below s 1023 (segOf s.root) m ∧ 2 ≤ (s.heap m).level := by
  obtain ⟨hnn, hn, hl, -⟩ := hs.root_seg hpos
  obtain ⟨h, hh⟩ : ∃ h, tag s.root = h + 1 := ⟨tag s.root - 1, by omega⟩
  rw [hh]
  exact hs.dropTree_spec h hnn hn (hl.trans hh)

theorem Shape.drop_eq (hs : Shape s) (hpos : 0 < tag s.root) :
    drop s = some (dropTree s s.root (tag s.root)) := by
  obtain ⟨hnn, hn, -⟩ := hs.root_seg hpos
  obtain ⟨-, hnodup, hfreed, -⟩ := hs.dropTree_root hpos
  have hsub : (dropTree s s.root (tag s.root)).filterMap DropEvent.freed ⊆ List.range s.nsegs :=
    fun m hm => List.mem_range.mpr (hs.below (by norm_num) hn ((hfreed m).mp hm)).1
  rw [drop, if_neg hnn, dropLoop_eq s _ _ _ (by simpa using hpos)
    (by simpa using (hnodup.subperm hsub).length_le.trans (by simp))]
  simp

/-- What `drop` does on every trie that any interleaving of `get` calls (none
for `usize::MAX`) and their callers' stores leaves. On a trie never grown the
root is null with tag 0, and `drop` panics in `into_owned`. Otherwise it
returns, no pointer it reads or frees is null, it frees each segment hanging
below the root through slots `0..1023` (of segments at level ≥ 2) exactly once
and nothing else, and it reads the slots of exactly those at level ≥ 2: slot
1023 is never visited. -/
theorem drop_frees_below_last_slot {s : State} (hr : Reachable s)
    (hv : ∀ u, (s.calls u).index < usizeMax) :
    (tag s.root = 0 → isNull s.root ∧ drop s = none) ∧
    (0 < tag s.root → ∃ events, drop s = some events ∧
      (∀ e ∈ events, ¬ isNull e.node) ∧ (events.filterMap DropEvent.freed).Nodup ∧
      (∀ m, m ∈ events.filterMap DropEvent.freed ↔ Below s 1023 (segOf s.root) m) ∧
      ∀ m, m ∈ events.filterMap DropEvent.readSeg ↔
        Below s 1023 (segOf s.root) m ∧ 2 ≤ (s.heap m).level) := by
  have hs := hr.shape hv
  refine ⟨fun h0 => ?_, fun hpos => ⟨_, hs.drop_eq hpos, hs.dropTree_root hpos⟩⟩
  have hnull : isNull s.root := hs.root_null h0 ▸ isNull_zero
  exact ⟨hnull, if_pos hnull⟩

/-- `get(1023 << 10)` run alone from `new()`: the root is raised to level 2
and `drop` returns. -/
theorem drop_frees_below_last_slot_grown :
    let s := (fun s => step s 0)^[8] (init fun _ => 1023 * 1024)
    (tag s.root = 0 → isNull s.root ∧ drop s = none) ∧
    (0 < tag s.root → ∃ events, drop s = some events ∧
      (∀ e ∈ events, ¬ isNull e.node) ∧ (events.filterMap DropEvent.freed).Nodup ∧
      (∀ m, m ∈ events.filterMap DropEvent.freed ↔ Below s 1023 (segOf s.root) m) ∧
      ∀ m, m ∈ events.filterMap DropEvent.readSeg ↔
        Below s 1023 (segOf s.root) m ∧ 2 ≤ (s.heap m).level) :=
  drop_frees_below_last_slot ((Reachable.initial _).iterate 0 8) fun u => by
    rw [iterate_index]; exact (by decide : 1023 * 1024 < usizeMax)

/-- Run alone from `new()`, `get(1023 << 10)` raises the root to level 2 and
hangs a fresh level-1 segment, number 2, in slot 1023 of the root. `drop`
frees the root and the old root under slot 0 but never segment 2. On `new()`
itself, `drop` panics on the null root. -/
theorem drop_misses_slot_1023 :
    let s := (fun s => step s 0)^[8] (init fun _ => 1023 * 1024)
    Below s 1024 (segOf s.root) 2 ∧ 2 < s.nsegs ∧
      (∃ events, drop s = some events ∧ 2 ∉ events.filterMap DropEvent.freed) ∧
      drop (init fun _ => 0) = none := by
  intro s
  have hs : Shape s := ((Reachable.initial _).iterate 0 8).shape fun u => by
    rw [iterate_index]; exact (by decide : 1023 * 1024 < usizeMax)
  have hroot : segOf s.root = 1 := by decide
  have hl : 2 ≤ (s.heap 1).level := by decide
  have hnn : ¬ isNull ((s.heap 1).inner 1023) := by decide
  have h2 : segOf ((s.heap 1).inner 1023) = 2 := by decide
  have hbase : (s.heap 2).base = 1023 := by decide
  have hn : s.nsegs = 3 := by decide
  have hpos : 0 < tag s.root := by decide
  have hbelow : Below s 1024 1 (segOf ((s.heap 1).inner 1023)) := Below.refl.child hl (by norm_num) hnn
  rw [h2] at hbelow
  refine ⟨hroot ▸ hbelow, by omega, ⟨_, hs.drop_eq hpos, fun hm => ?_⟩, if_pos isNull_zero⟩
  have hb := ((hs.dropTree_root hpos).2.2.1 2).mp hm
  rw [hroot] at hb
  have := hs.below_mod_lt (by norm_num) (by omega) hb (by decide)
  rw [hbase] at this
  omega

end Concur.GrowableArray

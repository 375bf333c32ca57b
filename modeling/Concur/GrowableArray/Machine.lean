import Concur.GrowableArray.Basic

/-! # Concurrent `get` calls on one `GrowableArray`

A call of `get(index)` runs as a sequence of atomic steps: the root load and
root CAS of the height loop, then one slot load, and CAS when the slot is
null, per level of the descent. Once `get` has returned a slot, its caller
may store any word into it. A segment that loses its CAS is dropped before
anyone sees it, so only published segments are allocated here, each under
the next segment number.
-/

namespace Concur.GrowableArray

/-- The 1024 `AtomicUsize` slots of a segment. The ghost fields `level` (1 for
a segment whose slots hold elements) and `base` (the digits of the indices
below it, above its own) are fixed when it is published. -/
structure Segment where
  inner : Nat → Nat
  level : Nat
  base : Nat

instance : Inhabited Segment := ⟨⟨fun _ => 0, 0, 0⟩⟩

/-- The segment with `w` stored in slot `k`. -/
def Segment.setSlot (seg : Segment) (k w : Nat) : Segment :=
  { seg with inner := Function.update seg.inner k w }

/-- Where a call of `get` stands. -/
inductive Pc
  | loadRoot
  | casRoot (root : Nat)
  | loadSlot (node currentHeight : Nat)
  | casSlot (node currentHeight nextUsize : Nat)
  | ret (node currentIndex : Nat)
  deriving DecidableEq

structure Call where
  index : Nat
  pc : Pc

structure State where
  root : Nat
  heap : Nat → Segment
  nsegs : Nat
  calls : Nat → Call

/-- `GrowableArray::new()`, with a call of `get(index t)` pending for every `t`. -/
def init (index : Nat → Nat) : State :=
  ⟨0, fun _ => default, 0, fun t => ⟨index t, .loadRoot⟩⟩

namespace State

def setPc (s : State) (t : Nat) (pc : Pc) : State :=
  { s with calls := Function.update s.calls t { s.calls t with pc := pc } }

/-- Publish `seg` under the next segment number. -/
def alloc (s : State) (seg : Segment) : State :=
  { s with heap := Function.update s.heap s.nsegs seg, nsegs := s.nsegs + 1 }

/-- Write `w` into slot `k` of segment number `n`. -/
def write (s : State) (n k w : Nat) : State :=
  { s with heap := Function.update s.heap n ((s.heap n).setSlot k w) }

/-- The root CAS of the height loop succeeded: a fresh root whose slot 0 holds
the old `root` word, tagged one higher. -/
def grow (s : State) (root : Nat) : State :=
  { s.alloc ⟨Function.update (fun _ => 0) 0 root, tag root + 1, 0⟩ with
    root := withTag (segAddr s.nsegs) (tag root + 1) }

/-- The slot CAS of the descent succeeded: slot `k` of segment `n` at level `h`
now points to a fresh empty segment one level down. -/
def install (s : State) (n k h : Nat) : State :=
  (s.write n k (segAddr s.nsegs)).alloc ⟨fun _ => 0, h - 1, (s.heap n).base * 1024 + k⟩

/-- The word in slot `k` of the segment that `node` points to. -/
def load (s : State) (node k : Nat) : Nat := (s.heap (segOf node)).inner k

@[simp] theorem setPc_root (s : State) (t : Nat) (pc : Pc) : (s.setPc t pc).root = s.root := rfl
@[simp] theorem setPc_calls (s : State) (t u : Nat) (pc : Pc) :
    (s.setPc t pc).calls u = if u = t then ⟨(s.calls u).index, pc⟩ else s.calls u := by
  by_cases h : u = t
  · subst h; simp [setPc]
  · simp [setPc, h]

@[simp] theorem alloc_root (s : State) (seg : Segment) : (s.alloc seg).root = s.root := rfl
@[simp] theorem alloc_nsegs (s : State) (seg : Segment) :
    (s.alloc seg).nsegs = s.nsegs + 1 := rfl
@[simp] theorem alloc_calls (s : State) (seg : Segment) : (s.alloc seg).calls = s.calls := rfl
@[simp] theorem alloc_heap (s : State) (seg : Segment) (n : Nat) :
    (s.alloc seg).heap n = if n = s.nsegs then seg else s.heap n := by
  simp [alloc, Function.update_apply]

@[simp] theorem grow_calls (s : State) (root : Nat) : (s.grow root).calls = s.calls := rfl
@[simp] theorem grow_root (s : State) (root : Nat) :
    (s.grow root).root = withTag (segAddr s.nsegs) (tag root + 1) := rfl
@[simp] theorem grow_nsegs (s : State) (root : Nat) : (s.grow root).nsegs = s.nsegs + 1 := rfl
@[simp] theorem grow_heap (s : State) (root m : Nat) : (s.grow root).heap m =
    if m = s.nsegs then ⟨Function.update (fun _ => 0) 0 root, tag root + 1, 0⟩ else s.heap m :=
  alloc_heap ..

@[simp] theorem install_calls (s : State) (n k h : Nat) : (s.install n k h).calls = s.calls := rfl
@[simp] theorem install_root (s : State) (n k h : Nat) : (s.install n k h).root = s.root := rfl
@[simp] theorem install_nsegs (s : State) (n k h : Nat) :
    (s.install n k h).nsegs = s.nsegs + 1 := rfl
theorem install_heap (s : State) (n k h m : Nat) : (s.install n k h).heap m =
    if m = s.nsegs then ⟨fun _ => 0, h - 1, (s.heap n).base * 1024 + k⟩
    else (s.write n k (segAddr s.nsegs)).heap m :=
  alloc_heap ..

@[simp] theorem write_root (s : State) (n k w : Nat) : (s.write n k w).root = s.root := rfl
@[simp] theorem write_nsegs (s : State) (n k w : Nat) : (s.write n k w).nsegs = s.nsegs := rfl
@[simp] theorem write_calls (s : State) (n k w : Nat) : (s.write n k w).calls = s.calls := rfl
@[simp] theorem write_level (s : State) (n k w m : Nat) :
    ((s.write n k w).heap m).level = (s.heap m).level := by
  by_cases h : m = n
  · subst h; simp [write, Segment.setSlot]
  · simp [write, h]
@[simp] theorem write_base (s : State) (n k w m : Nat) :
    ((s.write n k w).heap m).base = (s.heap m).base := by
  by_cases h : m = n
  · subst h; simp [write, Segment.setSlot]
  · simp [write, h]
@[simp] theorem write_inner (s : State) (n k w m j : Nat) :
    ((s.write n k w).heap m).inner j = if m = n ∧ j = k then w else (s.heap m).inner j := by
  by_cases h : m = n
  · subst h; by_cases hj : j = k <;> simp [write, Segment.setSlot, hj]
  · simp [write, h]

end State

open State

/-- One atomic step of call `t`. -/
def step (s : State) (t : Nat) : State :=
  let index := (s.calls t).index
  match (s.calls t).pc with
  | .loadRoot =>
    if index < maxKey (tag s.root) then s.setPc t (.loadSlot s.root (tag s.root))
    else s.setPc t (.casRoot s.root)
  | .casRoot root =>
    if s.root = root then (s.grow root).setPc t .loadRoot else s.setPc t .loadRoot
  | .loadSlot node currentHeight =>
    let nextUsize := s.load node (currentIndex index currentHeight)
    if currentHeight = 1 then s.setPc t (.ret node (currentIndex index currentHeight))
    else if isNull nextUsize then s.setPc t (.casSlot node currentHeight nextUsize)
    else s.setPc t (.loadSlot nextUsize (currentHeight - 1))
  | .casSlot node currentHeight nextUsize =>
    let ci := currentIndex index currentHeight
    if s.load node ci = nextUsize then
      (s.install (segOf node) ci currentHeight).setPc t
        (.loadSlot (segAddr s.nsegs) (currentHeight - 1))
    else s.setPc t (.loadSlot node currentHeight)
  | .ret _ _ => s

/-- The caller of the returned call `t` stores `w` into its slot. -/
def store (s : State) (t w : Nat) : State :=
  match (s.calls t).pc with
  | .ret node k => s.write (segOf node) k w
  | _ => s

/-- One atomic step of some call, or a store by the caller of a returned call. -/
inductive Next : State → State → Prop
  | step (s : State) (t : Nat) : Next s (step s t)
  | store (s : State) (t w : Nat) : Next s (store s t w)

inductive Reachable : State → Prop
  | initial (index : Nat → Nat) : Reachable (init index)
  | step {s : State} (t : Nat) : Reachable s → Reachable (step s t)
  | store {s : State} (t w : Nat) : Reachable s → Reachable (store s t w)

theorem Reachable.next {s s' : State} (hr : Reachable s) (h : Next s s') : Reachable s' := by
  cases h with
  | step t => exact hr.step t
  | store t w => exact hr.store t w

theorem Reachable.steps {s s' : State} (hr : Reachable s) (h : Relation.ReflTransGen Next s s') :
    Reachable s' := by
  induction h with
  | refl => exact hr
  | tail _ h ih => exact ih.next h

/-- The slot a call has returned: segment number and position. -/
def Pc.slot : Pc → Option (Nat × Nat)
  | .ret node k => some (segOf node, k)
  | _ => none

@[simp] theorem step_index (s : State) (t u : Nat) :
    ((step s t).calls u).index = (s.calls u).index := by
  simp only [step]
  split <;> (try split) <;> (try split) <;> simp <;> split <;> rfl

@[simp] theorem store_calls (s : State) (t w : Nat) : (store s t w).calls = s.calls := by
  simp only [store]; split <;> rfl

theorem step_pc_ne (s : State) {t u : Nat} (h : u ≠ t) :
    (step s t).calls u = s.calls u := by
  simp only [step]
  split <;> (try split) <;> (try split) <;> simp [h]

theorem Reachable.iterate {s : State} (hr : Reachable s) (t n : Nat) :
    Reachable ((fun s => GrowableArray.step s t)^[n] s) := by
  induction n with
  | zero => exact hr
  | succ n ih => rw [Function.iterate_succ_apply']; exact ih.step t

@[simp] theorem iterate_index (s : State) (t n u : Nat) :
    (((fun s => step s t)^[n] s).calls u).index = (s.calls u).index := by
  induction n with
  | zero => rfl
  | succ n ih => rw [Function.iterate_succ_apply', step_index, ih]

end Concur.GrowableArray

import Concur.SplitOrdered.Bits

/-! # `SplitOrderedList` under concurrent calls

The map's shared state: the lock-free list (`head`, and nodes with a list-key,
a value, and a `next` pointer whose tag bit marks the node deleted), the bucket
slots of the trie, and the counters `size` and `count`, as `usize` values.
Each call runs `lookup`, `insert` or `delete` through `find` and the recursion
of `lookup_bucket`, kept as the list `pending` of buckets waiting for their
parent's cursor.

A trie slot is taken as one cell per index: `GrowableArray::get` returns the
same slot for an index every time and distinct slots for distinct indices, and
no step of `get` changes a word (`buckets_refine_trie` reads the cells as the
words of a trie). Each step of the lock-free list is atomic: the finding phase
of `find_harris`, its cleanup CAS, the insert CAS, the mark and the unlink CAS.
A node is allocated when its insert CAS succeeds, as an `Owned` node is
private until then. `log` records, as a ghost, every change of the map with
the call that made it: the insert CAS of a data node and the mark of a `delete`.

Arithmetic is that of a build with overflow checks, as `cargo test` builds:
`size * LOAD_FACTOR` at an insert's `fetch_add` panics when it overflows a
`usize`, and the call goes to `panicked`. `size * 2` at the size CAS is the
same product, reached only when it did not overflow. `count` wraps in every
build, as `fetch_add` and `fetch_sub` do. A release build would wrap
`size * LOAD_FACTOR` to `0` instead, and the insert would go on to double
`size` to `0`.
-/

namespace Concur.SplitOrdered

open Function
open Concur.GrowableArray (usizeSize)

/-- Modelled from the spec: a node of `lockfree::list`, with its list-key, its
value (`None` for a sentinel) and its `next` pointer, whose tag bit marks the
node logically deleted. -/
structure Node (V : Type*) where
  key : Nat
  value : Option V
  next : Option Nat
  marked : Bool

/-- An atomic pointer cell: the list's `head`, the `next` of a node, or the
trie slot at an index. -/
inductive Loc
  | head
  | next (node : Nat)
  | bucket (index : Nat)
  deriving DecidableEq

/-- Modelled from the spec: `lockfree::list::Cursor`, the cell `prev` and the
node `curr` read from it. -/
structure Cursor where
  prev : Loc
  curr : Option Nat
  deriving DecidableEq

inductive Op (V : Type*)
  | lookup (key : Nat)
  | insert (key : Nat) (value : V)
  | delete (key : Nat)

inductive Ret (V : Type*)
  | lookup (r : Option V)
  | insert (r : Except V Unit)
  | delete (r : Except Unit V)

/-- What a search of `find_harris` is for: the sentinel of bucket `b` (the
buckets of `pending` wait for it), or the entry of the call's key. -/
inductive Target
  | sentinel (b : Nat) (pending : List Nat)
  | content
  deriving DecidableEq

inductive Pc (V : Type*)
  | start
  | find
  | lbRead (b : Nat) (pending : List Nat)
  | lbSize (b : Nat) (pending : List Nat)
  | lbHead (b : Nat) (pending : List Nat)
  | traverse (target : Target) (start : Cursor)
  | cleanup (target : Target) (start : Cursor) (prev : Loc) (prevNext curr : Option Nat)
      (found : Bool)
  | sentinelInsert (b : Nat) (pending : List Nat) (start cursor : Cursor)
  | publish (b : Nat) (pending : List Nat) (cursor : Cursor)
  | insertCas (cursor : Cursor)
  | fetchAdd
  | sizeCas
  | mark (cursor : Cursor)
  | unlink (cursor : Cursor) (next : Option Nat) (value : Option V)
  | fetchSub (value : Option V)
  | done (r : Ret V)
  | panicked

/-- A call: its operation, where it stands, the `size` its last `find` read,
and, as a ghost, the length of `log` when it began. -/
structure Call (V : Type*) where
  op : Op V
  pc : Pc V
  size : Nat
  invoked : Nat

structure State (V : Type*) where
  head : Option Nat
  nodes : Nat → Option (Node V)
  nnodes : Nat
  buckets : Nat → Option Nat
  size : Nat
  count : Nat
  calls : Nat → Call V
  nthreads : Nat
  log : List (Nat × Nat × Option V)

variable {V : Type*}

def Op.key : Op V → Nat
  | .lookup k | .insert k _ | .delete k => k

/-- `SplitOrderedList::new()`, with call `t < ops.length` to run `ops[t]`. -/
def init (ops : List (Op V)) : State V where
  head := none
  nodes _ := none
  nnodes := 0
  buckets _ := none
  size := 2
  count := 0
  calls t := match ops[t]? with
    | some op => ⟨op, .start, 0, 0⟩
    | none => ⟨.lookup 0, .done (.lookup none), 0, 0⟩
  nthreads := ops.length
  log := []

/-- `usize` wrapping. -/
def wrap (n : Nat) : Nat := n % 2 ^ usizeSize

/-- The list-key a search is for. -/
def Target.key (key : Nat) : Target → Nat
  | .sentinel b _ => reverseBits b
  | .content => makeContentKey key

/-- The search after the cursor of a bucket is at hand: the sentinel of the
next waiting bucket, or else the entry of the call's key from that bucket. -/
def retTo (cursor : Cursor) : List Nat → Pc V
  | [] => .traverse .content cursor
  | b :: pending => .traverse (.sentinel b pending) cursor

/-- Modelled from the spec: the finding phase of `find_harris`. From `curr` it
skips marked nodes and steps over unmarked nodes below `key`, moving `prev` to
their `next`; it stops at null or at the first unmarked node not below `key`,
and returns `prev`, the pointer read from it, `curr`, and whether the key is
there. Fuel above the number of `usize` keys never runs out, as keys increase
along `next`. -/
def traverse (nodes : Nat → Option (Node V)) (key : Nat) :
    Nat → Loc → Option Nat → Option Nat → Option (Loc × Option Nat × Option Nat × Bool)
  | 0, _, _, _ => none
  | fuel + 1, prev, prevNext, curr =>
    match curr with
    | none => some (prev, prevNext, none, false)
    | some c =>
      match nodes c with
      | none => none
      | some node =>
        if node.marked then traverse nodes key fuel prev prevNext node.next
        else if node.key < key then traverse nodes key fuel (.next c) node.next node.next
        else some (prev, prevNext, curr, node.key == key)

def findFuel : Nat := 2 ^ usizeSize + 1

namespace State

variable (s : State V)

def setCall (t : Nat) (c : Call V) : State V := { s with calls := update s.calls t c }

def setPc (t : Nat) (pc : Pc V) : State V := s.setCall t { s.calls t with pc := pc }

@[simp] theorem setCall_calls (t : Nat) (c : Call V) : (s.setCall t c).calls = update s.calls t c :=
  rfl

@[simp] theorem setCall_count (t : Nat) (c : Call V) : (s.setCall t c).count = s.count := rfl

@[simp] theorem setCall_nthreads (t : Nat) (c : Call V) : (s.setCall t c).nthreads = s.nthreads :=
  rfl

@[simp] theorem setCall_nodes (t : Nat) (c : Call V) : (s.setCall t c).nodes = s.nodes := rfl

@[simp] theorem setCall_nnodes (t : Nat) (c : Call V) : (s.setCall t c).nnodes = s.nnodes := rfl

/-- `compare_exchange` of the cell `prev` from the unmarked pointer `expected`
to `new`; `none` when it fails. A marked `next` equals no unmarked pointer. -/
def cas (prev : Loc) (expected new : Option Nat) : Option (State V) :=
  match prev with
  | .head => if s.head = expected then some { s with head := new } else none
  | .next n =>
    match s.nodes n with
    | some node =>
      if !node.marked ∧ node.next = expected then
        some { s with nodes := update s.nodes n (some { node with next := new }) }
      else none
    | none => none
  | .bucket i => if s.buckets i = expected then some { s with buckets := update s.buckets i new }
      else none

/-- Modelled from the spec: `Cursor::insert` of a new node with `key` and
`value`, linked by a CAS of `prev` from `curr`; the node and its number. -/
def insertAt (cursor : Cursor) (key : Nat) (value : Option V) : Option (State V × Nat) :=
  (s.cas cursor.prev cursor.curr (some s.nnodes)).map fun s' =>
    ({ s' with
      nodes := update s'.nodes s.nnodes (some ⟨key, value, cursor.curr, false⟩)
      nnodes := s.nnodes + 1 }, s.nnodes)

/-- Modelled from the spec: the mark of `Cursor::delete`, a `fetch_or` of the
tag bit of `curr`'s `next`. -/
def setMark (n : Nat) (node : Node V) : State V :=
  { s with nodes := update s.nodes n (some { node with marked := true }) }

/-- What a call does once its `find_harris` from `start` has returned `found`
at `cursor`. -/
def afterFind (c : Call V) (target : Target) (start cursor : Cursor) (found : Bool) : Pc V :=
  match target with
  | .sentinel b pending => if found then .publish b pending cursor
      else .sentinelInsert b pending start cursor
  | .content =>
    match c.op with
    | .lookup _ =>
      if found then
        match cursor.curr.bind s.nodes with
        | some node => .done (.lookup node.value)
        | none => .panicked
      else .done (.lookup none)
    | .insert _ value => if found then .done (.insert (.error value)) else .insertCas cursor
    | .delete _ => if found then .mark cursor else .done (.delete (.error ()))

end State

open State

/-- One step of call `t`. -/
def step (s : State V) (t : Nat) : State V :=
  let c := s.calls t
  match c.pc with
  | .start =>
    if validKey c.op.key then s.setCall t { c with pc := .find, invoked := s.log.length }
    else s.setPc t .panicked
  | .find =>
    if s.size = 0 then s.setPc t .panicked
    else s.setCall t { c with pc := .lbRead (c.op.key % s.size) [], size := s.size }
  | .lbRead b pending =>
    match s.buckets (reverseBits b) with
    | some p => s.setPc t (retTo ⟨.bucket (reverseBits b), some p⟩ pending)
    | none => s.setPc t (.lbSize b pending)
  | .lbSize b pending =>
    let parent := lookupParent s.size b
    if parent = 0 then s.setPc t (.lbHead b pending)
    else s.setPc t (.lbRead parent (b :: pending))
  | .lbHead b pending => s.setPc t (.traverse (.sentinel b pending) ⟨.head, s.head⟩)
  | .traverse target start =>
    match traverse s.nodes (target.key c.op.key) findFuel start.prev start.curr start.curr with
    | some (prev, prevNext, curr, found) =>
      if prevNext = curr then s.setPc t (s.afterFind c target start ⟨prev, curr⟩ found)
      else s.setPc t (.cleanup target start prev prevNext curr found)
    | none => s
  | .cleanup target start prev prevNext curr found =>
    match s.cas prev prevNext curr with
    | some s' => s'.setPc t (s'.afterFind c target start ⟨prev, curr⟩ found)
    | none => s.setPc t (.traverse target start)
  | .sentinelInsert b pending start cursor =>
    match s.insertAt cursor (reverseBits b) none with
    | some (s', n) => s'.setPc t (.publish b pending ⟨cursor.prev, some n⟩)
    | none => s.setPc t (.traverse (.sentinel b pending) start)
  | .publish b pending cursor =>
    match s.cas (.bucket (reverseBits b)) none cursor.curr with
    | some s' => s'.setPc t (retTo cursor pending)
    | none => s.setPc t (retTo cursor pending)
  | .insertCas cursor =>
    match c.op with
    | .insert key value =>
      match s.insertAt cursor (makeContentKey key) (some value) with
      | some (s', _) => { s' with log := s.log ++ [(t, key, some value)] }.setPc t .fetchAdd
      | none => s.setPc t .find
    | _ => s
  | .fetchAdd =>
    let s' := { s with count := wrap (s.count + 1) }
    if 2 ^ usizeSize ≤ c.size * loadFactor then s'.setPc t .panicked
    else if s.count > c.size * loadFactor then s'.setPc t .sizeCas
    else s'.setPc t (.done (.insert (.ok ())))
  | .sizeCas =>
    let s' := if s.size = c.size then { s with size := c.size * 2 } else s
    s'.setPc t (.done (.insert (.ok ())))
  | .mark cursor =>
    match cursor.curr with
    | some n =>
      match s.nodes n with
      | some node =>
        if node.marked then s.setPc t (.done (.delete (.error ())))
        else { s.setMark n node with log := s.log ++ [(t, c.op.key, none)] }.setPc t
          (.unlink cursor node.next node.value)
      | none => s
    | none => s.setPc t .panicked
  | .unlink cursor next value =>
    match s.cas cursor.prev cursor.curr next with
    | some s' => s'.setPc t (.fetchSub value)
    | none => s.setPc t (.fetchSub value)
  | .fetchSub value =>
    let s' := { s with count := wrap (s.count + (2 ^ usizeSize - 1)) }
    match value with
    | some v => s'.setPc t (.done (.delete (.ok v)))
    | none => s'.setPc t .panicked
  | .done _ | .panicked => s

inductive Reachable : State V → Prop
  | initial (ops : List (Op V)) : Reachable (init ops)
  | step {s : State V} (t : Nat) : Reachable s → Reachable (step s t)

/-- The state after the calls of `sched` take one step each, in order. -/
def schedule (s : State V) (sched : List Nat) : State V := sched.foldl step s

theorem Reachable.schedule {s : State V} (hr : Reachable s) (sched : List Nat) :
    Reachable (schedule s sched) := by
  induction sched generalizing s with
  | nil => exact hr
  | cons t rest ih => exact ih (.step t hr)

end Concur.SplitOrdered

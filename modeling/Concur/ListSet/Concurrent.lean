import Concur.ListSet.Sequential

/-! # `OrderedListSet` under concurrent calls

Every link (`head`, and the `next` field of each node) is a `Mutex` around a
pointer. A call walks the list hand over hand: it locks the `next` of the node
it reached before it releases the link it held, and it reads or writes a link
only while it holds that link's lock. Each lock, unlock, read and write is one
step, and a call whose lock is held by another call waits. `remove` drops its
guards as Rust does, `next_guard` before the guard of the unlinked link.
Two ghost fields follow the run: `order`, the nodes reachable from `head`,
and `log`, the writes of the calls in the order they happen.
-/

namespace Concur.ListSet

/-- A mutex-guarded pointer: `head`, or the `next` field of a node. -/
inductive Link
  | head
  | next (node : Nat)
  deriving DecidableEq

/-- Where a call stands: `Cursor::find`, then the rest of its operation. -/
inductive Pc (α : Type*)
  | lockHead
  | readHead
  | lockNext (prev : Link) (node : Nat)
  | unlockPrev (prev : Link) (node : Nat)
  | readNext (node : Nat)
  | found (cur : Link) (result : Bool)
  | removeLock (cur : Link) (node : Nat)
  | removeWrite (cur : Link) (node : Nat)
  | removeUnlock (cur : Link) (node : Nat)
  | release (cur : Link) (r : Ret α)
  | done (r : Ret α)

structure Call (α : Type*) where
  op : Op α
  pc : Pc α

structure State (α : Type*) where
  val : Link → Option Nat
  owner : Link → Option Nat
  data : Nat → Option α
  nnodes : Nat
  order : List Nat
  log : List (Nat × Op α)
  calls : Nat → Call α

variable {α : Type*} [LinearOrder α]

def Op.key : Op α → α
  | .insert k | .remove k | .contains k => k

/-- `OrderedListSet::new()`, with the call `ops t` pending for every `t`. -/
def init (ops : Nat → Op α) : State α :=
  ⟨fun _ => none, fun _ => none, fun _ => none, 0, [], [], fun t => ⟨ops t, .lockHead⟩⟩

/-- The ghost order `order`, read as the nodes after link `l`, with node `n`
placed at link `cur`. -/
def insertAtLink (n : Nat) (cur l : Link) : List Nat → List Nat
  | [] => if cur = l then [n] else []
  | m :: rest => if cur = l then n :: m :: rest else m :: insertAtLink n cur (.next m) rest

namespace State

def setPc (s : State α) (t : Nat) (pc : Pc α) : State α :=
  { s with calls := Function.update s.calls t { s.calls t with pc := pc } }

def lock (s : State α) (l : Link) (t : Nat) : State α :=
  { s with owner := Function.update s.owner l (some t) }

def unlock (s : State α) (l : Link) : State α :=
  { s with owner := Function.update s.owner l none }

/-- `*cur = Node::new(key, *cur)` by call `t`. -/
def insertAt (s : State α) (t : Nat) (cur : Link) (key : α) : State α :=
  { s with
    val := Function.update (Function.update s.val (.next s.nnodes) (s.val cur)) cur
      (some s.nnodes)
    data := Function.update s.data s.nnodes (some key)
    nnodes := s.nnodes + 1
    order := insertAtLink s.nnodes cur .head s.order
    log := s.log ++ [(t, .insert key)] }

/-- `*removed_guard = *next_guard` by call `t`, unlinking node `n`. -/
def unlinkAt (s : State α) (t : Nat) (cur : Link) (n : Nat) (key : α) : State α :=
  { s with
    val := Function.update s.val cur (s.val (.next n))
    order := s.order.erase n
    log := s.log ++ [(t, .remove key)] }

/-- The loop body of `Cursor::find` at the link `cur` it holds: stop at a null
link or at a node not below `key`, else go on to lock that node's `next`. -/
def visit (s : State α) (key : α) (cur : Link) : Option (Pc α) :=
  match s.val cur with
  | none => some (.found cur false)
  | some n =>
    (s.data n).map fun v => if key ≤ v then .found cur (decide (key = v)) else .lockNext cur n

end State

open State

/-- One step of call `t`; a call waiting for a held lock does not move. -/
def step (s : State α) (t : Nat) : State α :=
  let c := s.calls t
  match c.pc with
  | .lockHead => if s.owner .head = none then (s.lock .head t).setPc t .readHead else s
  | .readHead => match s.visit c.op.key .head with
    | some pc => s.setPc t pc
    | none => s
  | .lockNext prev n =>
    if s.owner (.next n) = none then (s.lock (.next n) t).setPc t (.unlockPrev prev n) else s
  | .unlockPrev prev n => (s.unlock prev).setPc t (.readNext n)
  | .readNext n => match s.visit c.op.key (.next n) with
    | some pc => s.setPc t pc
    | none => s
  | .found cur b =>
    match c.op with
    | .contains _ => s.setPc t (.release cur (.contains b))
    | .insert k =>
      if b then s.setPc t (.release cur (.insert (.error k)))
      else (s.insertAt t cur k).setPc t (.release cur (.insert (.ok ())))
    | .remove _ =>
      if b then
        match s.val cur with
        | some n => s.setPc t (.removeLock cur n)
        | none => s
      else s.setPc t (.release cur (.remove (.error ())))
  | .removeLock cur n =>
    if s.owner (.next n) = none then (s.lock (.next n) t).setPc t (.removeWrite cur n) else s
  | .removeWrite cur n => (s.unlinkAt t cur n c.op.key).setPc t (.removeUnlock cur n)
  | .removeUnlock cur n =>
    match s.data n with
    | some v => (s.unlock (.next n)).setPc t (.release cur (.remove (.ok v)))
    | none => s
  | .release cur r => (s.unlock cur).setPc t (.done r)
  | .done _ => s

omit [LinearOrder α] in
theorem State.setPc_calls (s : State α) (t u : Nat) (pc : Pc α) :
    (s.setPc t pc).calls u = if u = t then { s.calls t with pc := pc } else s.calls u := by
  simp only [State.setPc, Function.update_apply]

inductive Reachable : State α → Prop
  | initial (ops : Nat → Op α) : Reachable (init ops)
  | step {s : State α} (t : Nat) : Reachable s → Reachable (step s t)

/-- The state after the calls of `sched` take one step each, in order. -/
def schedule (s : State α) (sched : List Nat) : State α := sched.foldl step s

theorem Reachable.schedule {s : State α} (hr : Reachable s) (sched : List Nat) :
    Reachable (schedule s sched) := by
  induction sched generalizing s with
  | nil => exact hr
  | cons t rest ih => exact ih (.step t hr)

/-- The keys of the nodes reachable from `head`, in order. -/
def State.keys (s : State α) : List α := s.order.filterMap s.data

/-- The set the writes of `log` make of the empty set, in their order. -/
def applyLog : List (Nat × Op α) → Finset α → Finset α
  | [], S => S
  | (_, .insert k) :: log, S => applyLog log (insert k S)
  | (_, .remove k) :: log, S => applyLog log (S.erase k)
  | (_, .contains _) :: log, S => applyLog log S

end Concur.ListSet

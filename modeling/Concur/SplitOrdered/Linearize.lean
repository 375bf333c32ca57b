import Concur.SplitOrdered.Resize

/-! # Linearizability of the split-ordered list

The map the list stands for is read off its heap: a valid key's value is that
of the unmarked node carrying its content key. In every reachable state it is
the map that `log` replays to, and only two kinds of step write to `log`: the
insert CAS of a data node, which adds an absent key, and the mark of a
`delete`, which removes a present one. Every call returns what the sequential
map returns on the map of a prefix of `log` taken between its invocation and
its return, and the `Ok` of an `insert` or a `delete` is the call's own entry
there, so no update is lost or made twice.
-/

namespace Concur.SplitOrdered

open Function
open Concur.ListSet (Link Chain InChain Slot inChain_self)

variable {V : Type*} {s s' s₁ : State V} {order order' : List Nat}

/-- The value a node gives key `k`: its value, when it is unmarked and
carries `k`'s content key. -/
def Node.valueOf (k : Nat) (node : Node V) : Option V :=
  if node.marked = false ∧ node.key = makeContentKey k then node.value else none

/-- The map the list stands for, over the keys `assert_valid_key` admits. -/
def State.absMap (s : State V) (k : Nat) : Option V :=
  if k < hiMask then (List.range s.nnodes).findSome? fun n => (s.nodes n).bind (Node.valueOf k)
  else none

/-- The value of the node a cursor stopped at. -/
def State.valueAt (s : State V) (curr : Option Nat) : Option V := (curr.bind s.nodes).bind Node.value

/-- The map a log of changes leaves, from the empty map. -/
def logMap (log : List (Nat × Nat × Option V)) : Nat → Option V :=
  log.foldl (fun M e => update M e.2.1 e.2.2) fun _ => none

/-- The sequential map: a call's result on `M`, and the new value of its key
when the call changes `M`. -/
def Op.run (M : Nat → Option V) : Op V → Ret V × Option (Option V)
  | .lookup k => (.lookup (M k), none)
  | .insert k v =>
    match M k with
    | none => (.insert (.ok ()), some (some v))
    | some _ => (.insert (.error v), none)
  | .delete k =>
    match M k with
    | some v => (.delete (.ok v), some none)
    | none => (.delete (.error ()), none)

/-- Call `t` of `op` returning `r` takes effect at position `L` of `log`: the
sequential map returns `r` on the map of the first `L` entries, and when it
changes that map, entry `L` is the call's own change. -/
def Linearized (log : List (Nat × Nat × Option V)) (t : Nat) (op : Op V) (r : Ret V) (L : Nat) :
    Prop :=
  (op.run (logMap (log.take L))).1 = r ∧
    ∀ x, (op.run (logMap (log.take L))).2 = some x → log[L]? = some (t, op.key, x)

theorem logMap_append (log : List (Nat × Nat × Option V)) (t k : Nat) (x : Option V) :
    logMap (log ++ [(t, k, x)]) = update (logMap log) k x := by
  simp [logMap]

theorem Node.valueOf_of_marked {k : Nat} {node : Node V} (h : node.marked = true) :
    node.valueOf k = none :=
  if_neg fun hc => Bool.noConfusion (h.symm.trans hc.1)

theorem Node.valueOf_of_key_ne {k : Nat} {node : Node V} (h : node.key ≠ makeContentKey k) :
    node.valueOf k = none :=
  if_neg fun hc => h hc.2

theorem valueOf_eq_some {k : Nat} {node : Node V} {v : V} (h : node.valueOf k = some v) :
    node.marked = false ∧ node.key = makeContentKey k ∧ node.value = some v := by
  unfold Node.valueOf at h
  split_ifs at h with hc
  exact ⟨hc.1, hc.2, h⟩

theorem absMap_eq_some {k : Nat} {v : V} (h : s.absMap k = some v) :
    k < hiMask ∧ ∃ n, (s.nodes n).bind (Node.valueOf k) = some v := by
  unfold State.absMap at h
  split_ifs at h with hk
  obtain ⟨n, -, hn⟩ := List.exists_of_findSome?_eq_some h
  exact ⟨hk, n, hn⟩

theorem absMap_of_absent {k : Nat}
    (h : ∀ n node, s.nodes n = some node → node.marked = false → node.key ≠ makeContentKey k) :
    s.absMap k = none := by
  unfold State.absMap
  split_ifs
  · refine List.findSome?_eq_none_iff.mpr fun n _ => ?_
    rcases hn : s.nodes n with _ | node
    · rfl
    · exact if_neg fun hc => h n node hn hc.1 hc.2
  · rfl

theorem Heap.unique (h : Heap s order) {n m : Nat} {node node' : Node V}
    (hn : s.nodes n = some node) (hm : s.nodes m = some node') (hu : node.marked = false)
    (hu' : node'.marked = false) (hk : node.key = node'.key) : n = m :=
  chain_eq_of_data_eq h.chain (h.mem_of_unmarked hn hu) (h.mem_of_unmarked hm hu')
    (by simp [State.nodeKey, hn, hm, hk])

theorem Heap.absMap_of_node (h : Heap s order) {n k : Nat} {node : Node V}
    (hn : s.nodes n = some node) (hm : node.marked = false) (hk : k < hiMask)
    (hkey : node.key = makeContentKey k) : s.absMap k = node.value := by
  obtain ⟨v, hv⟩ := Option.ne_none_iff_exists'.mp (h.value_ne_none hn hk hkey)
  have hf : (s.nodes n).bind (Node.valueOf k) = some v := by
    simp [hn, Node.valueOf, hm, hkey, hv]
  have hsome : ((List.range s.nnodes).findSome? fun m => (s.nodes m).bind (Node.valueOf k)).isSome :=
    List.findSome?_isSome_iff.mpr
      ⟨n, List.mem_range.mpr ((h.alloc n).mp (by simp [hn])), by simp [hf]⟩
  obtain ⟨w, hw⟩ := Option.isSome_iff_exists.mp hsome
  obtain ⟨m, -, hm'⟩ := List.exists_of_findSome?_eq_some hw
  rcases hnode : s.nodes m with _ | node'
  · simp [hnode] at hm'
  obtain ⟨hmm, hmk, hmv⟩ := valueOf_eq_some (by simpa [hnode] using hm')
  obtain rfl : m = n := h.unique hnode hn hmm hm (hmk.trans hkey.symm)
  rw [hn] at hnode; cases hnode
  simp only [State.absMap, if_pos hk, hw, hmv]

theorem Heap.absMap_eq_some_iff (h : Heap s order) {k : Nat} {v : V} :
    s.absMap k = some v ↔ k < hiMask ∧ ∃ n, (s.nodes n).bind (Node.valueOf k) = some v := by
  refine ⟨absMap_eq_some, fun ⟨hk, n, hn⟩ => ?_⟩
  rcases hnode : s.nodes n with _ | node
  · simp [hnode] at hn
  obtain ⟨hm, hkey, hv⟩ := valueOf_eq_some (by simpa [hnode] using hn)
  rw [h.absMap_of_node hnode hm hk hkey, hv]

theorem absMap_congr_key {k : Nat} (hnn : s'.nnodes = s.nnodes)
    (hv : ∀ n, (s'.nodes n).bind (Node.valueOf k) = (s.nodes n).bind (Node.valueOf k)) :
    s'.absMap k = s.absMap k := by
  simp only [State.absMap, hnn, hv]

theorem Heap.absMap_eq_of_fresh (h : Heap s order) (h' : Heap s' order') {k N : Nat}
    (hN : s.nodes N = none)
    (hv : ∀ n, n ≠ N → (s'.nodes n).bind (Node.valueOf k) = (s.nodes n).bind (Node.valueOf k))
    (hvN : (s'.nodes N).bind (Node.valueOf k) = none) : s'.absMap k = s.absMap k :=
  Option.ext fun w => by
    rw [Option.mem_def, Option.mem_def, h'.absMap_eq_some_iff, h.absMap_eq_some_iff]
    refine and_congr_right fun _ => ⟨fun ⟨n, hn⟩ => ⟨n, ?_⟩, fun ⟨n, hn⟩ => ⟨n, ?_⟩⟩
    · rcases eq_or_ne n N with rfl | hnN
      · rw [hvN] at hn; cases hn
      · rwa [← hv n hnN]
    · rcases eq_or_ne n N with rfl | hnN
      · simp [hN] at hn
      · rwa [hv n hnN]

theorem cas_valueOf {prev : Loc} {e w : Option Nat} (hc : s.cas prev e w = some s') (n k : Nat) :
    (s'.nodes n).bind (Node.valueOf k) = (s.nodes n).bind (Node.valueOf k) := by
  rcases cas_eq_some hc with ⟨-, -, rfl⟩ | ⟨p, node, -, hp, -, -, rfl⟩ | ⟨i, -, -, rfl⟩
  · rfl
  · rcases eq_or_ne n p with rfl | hnp
    · dsimp only; rw [update_same, hp]; rfl
    · dsimp only; rw [update_noteq hnp]
  · rfl

theorem absMap_cas {prev : Loc} {e w : Option Nat} (hc : s.cas prev e w = some s') :
    s'.absMap = s.absMap :=
  funext fun _ => absMap_congr_key (cas_frame hc).1 (cas_valueOf hc · _)

theorem insertAt_valueOf {cursor : Cursor} {key : Nat} {value : Option V} {N : Nat}
    (hi : s.insertAt cursor key value = some (s', N)) (n k : Nat) (hn : n ≠ N) :
    (s'.nodes n).bind (Node.valueOf k) = (s.nodes n).bind (Node.valueOf k) := by
  obtain ⟨s₁, hc, rfl, rfl⟩ := insertAt_eq_some hi
  dsimp only
  rw [update_noteq hn, cas_valueOf hc]

theorem Heap.absMap_insertAt_none (h : Heap s order) (h' : Heap s' order') {cursor : Cursor}
    {key N : Nat} (hi : s.insertAt cursor key none = some (s', N)) : s'.absMap = s.absMap := by
  obtain ⟨-, -, rfl, -⟩ := insertAt_eq_some hi
  exact funext fun k => h.absMap_eq_of_fresh h' h.fresh (insertAt_valueOf hi · k)
    (by simp [(insertAt_frame hi).1, Node.valueOf])

theorem Heap.absMap_insertAt_some (h : Heap s order) (h' : Heap s' order') {cursor : Cursor}
    {k N : Nat} {v : V} (hi : s.insertAt cursor (makeContentKey k) (some v) = some (s', N))
    (hk : k < hiMask) : s.absMap k = none ∧ s'.absMap = update s.absMap k (some v) := by
  obtain ⟨-, -, rfl, -⟩ := insertAt_eq_some hi
  have hnew := (insertAt_frame hi).1
  refine ⟨absMap_of_absent fun n node hn hm hkey => ?_, funext fun k' => ?_⟩
  · -- an old unmarked node with `k` would share the new node's key
    have hnN : n ≠ s.nnodes := by rintro rfl; simp [h.fresh] at hn
    obtain ⟨w, hw⟩ := Option.ne_none_iff_exists'.mp (h.value_ne_none hn hk hkey)
    have hview : (s'.nodes n).bind (Node.valueOf k) = some w := by
      rw [insertAt_valueOf hi n k hnN, hn]
      simp [Node.valueOf, hm, hkey, hw]
    rcases hn' : s'.nodes n with _ | node'
    · simp [hn'] at hview
    obtain ⟨hm', hk', -⟩ := valueOf_eq_some (by simpa [hn'] using hview)
    exact hnN (h'.unique hn' hnew hm' rfl hk')
  · rcases eq_or_ne k' k with rfl | hne
    · rw [update_same]
      exact h'.absMap_of_node hnew rfl hk rfl
    · rw [update_noteq hne]
      by_cases hk' : k' < hiMask
      · refine h.absMap_eq_of_fresh h' h.fresh (insertAt_valueOf hi · k') ?_
        rw [hnew, Option.some_bind]
        exact Node.valueOf_of_key_ne fun he => hne (makeContentKey_injective hk' hk he.symm)
      · simp [State.absMap, hk']

theorem Heap.absMap_setMark (h : Heap s order) {n k : Nat} {node : Node V}
    (hn : s.nodes n = some node) (hm : node.marked = false) (hk : k < hiMask)
    (hkey : node.key = makeContentKey k) :
    s.absMap k = node.value ∧ (s.setMark n node).absMap = update s.absMap k none := by
  refine ⟨h.absMap_of_node hn hm hk hkey, funext fun k' => ?_⟩
  rcases eq_or_ne k' k with rfl | hne
  · rw [update_same]
    refine absMap_of_absent fun m nd hmn hmm hmk => ?_
    rcases eq_or_ne m n with rfl | hmn'
    · simp only [State.setMark, update_same, Option.some.injEq] at hmn
      rw [← hmn] at hmm; cases hmm
    · simp only [State.setMark, update_noteq hmn'] at hmn
      exact hmn' (h.unique hmn hn hmm hm (hmk.trans hkey.symm))
  · rw [update_noteq hne]
    by_cases hk' : k' < hiMask
    · refine absMap_congr_key rfl fun m => ?_
      rcases eq_or_ne m n with rfl | hmn
      · simp only [State.setMark, update_same, hn, Option.some_bind]
        have hkne : node.key ≠ makeContentKey k' := fun he =>
          hne (makeContentKey_injective hk' hk (he.symm.trans hkey))
        rw [Node.valueOf_of_key_ne hkne, Node.valueOf_of_marked
          (show ({ node with marked := true } : Node V).marked = true from rfl)]
      · simp only [State.setMark, update_noteq hmn]
    · simp [State.absMap, hk']

theorem chain_mem_path {data : Nat → Option Nat} {key : Nat} {order : List Nat}
    {val : Link → Option Nat} (hc : Chain val data .head ⊥ order) {w : Option Nat}
    (hw : ∀ c, w = some c → ∃ v, data c = some v ∧ key < v) {m : Nat} (hm : m ∈ order)
    (hdm : data m = some key) :
    ∀ {xs : List Nat} {x : Link}, InChain .head order x →
      (∀ p, x = .next p → ∃ v, data p = some v ∧ v < key) → PathVal val (val x) w xs → m ∈ xs
  | [], x, hx, hbelow, hp => by
    have hs : Slot val data .head ⊥ key x :=
      ⟨fun _ => WithBot.bot_lt_coe key, hbelow, fun n hn => by
        obtain ⟨v, hv, hlt⟩ := hw n (hp ▸ hn); exact ⟨v, hv, hlt.le⟩⟩
    obtain ⟨n, hn, hdn⟩ := (hc.mem_keys_iff hx hs).mp (List.mem_filterMap.mpr ⟨m, hm, hdm⟩)
    obtain ⟨v, hv, hlt⟩ := hw n (hp ▸ hn)
    rw [hdn] at hv; cases hv
    exact absurd hlt (lt_irrefl _)
  | y :: ys, x, hx, hbelow, ⟨hy, hp⟩ => by
    have hyo : y ∈ order := hc.mem_of_val hx hy
    obtain ⟨v, hv, -⟩ := hc.data_of_mem hyo
    rcases lt_or_le v key with hlt | hle
    · exact List.mem_cons_of_mem _
        (chain_mem_path hc hw hm hdm (.inr ⟨y, hyo, rfl⟩) (by rintro _ ⟨⟩; exact ⟨v, hv, hlt⟩) hp)
    · -- the path's first node is not below `key`: `x` is the key's slot
      have hs : Slot val data .head ⊥ key x :=
        ⟨fun _ => WithBot.bot_lt_coe key, hbelow, fun n hn => by
          rw [hy] at hn; cases hn; exact ⟨v, hv, hle⟩⟩
      obtain ⟨n, hn, hdn⟩ := (hc.mem_keys_iff hx hs).mp (List.mem_filterMap.mpr ⟨m, hm, hdm⟩)
      rw [hy] at hn; cases hn
      rw [chain_eq_of_data_eq hc hm hyo (hdm.trans hdn.symm)]
      exact List.mem_cons_self _ _

/-- A search that left the chain at link `x`, the head or the `next` of a node
below `key`, passed only marked nodes and stopped at null or above `key`,
leaves no unmarked node with `key`. -/
theorem Heap.absent (h : Heap s order) {x : Link} {key : Nat} {xs : List Nat} {curr : Option Nat}
    (hx : InChain .head order x) (hbelow : ∀ p, x = .next p → ∃ v, s.nodeKey p = some v ∧ v < key)
    (hpath : MarkedPath s.nodes (s.linkVal x) curr xs) (hstop : Stop s.nodes key curr false)
    {n : Nat} {node : Node V} (hn : s.nodes n = some node) (hm : node.marked = false) :
    node.key ≠ key := fun hkey => by
  have hw : ∀ c, curr = some c → ∃ v, s.nodeKey c = some v ∧ key < v := fun c hc => by
    rcases hstop with ⟨hcn, -⟩ | ⟨c', node', hc', hn', -, hk, hf⟩
    · simp [hcn] at hc
    · rw [hc] at hc'; cases hc'
      exact ⟨node'.key, by simp [State.nodeKey, hn'],
        lt_of_le_of_ne hk fun he => by simp [he] at hf⟩
  have hmem := chain_mem_path h.chain hw (h.mem_of_unmarked hn hm)
    (by simp [State.nodeKey, hn, hkey]) hx hbelow hpath.pathVal
  obtain ⟨nd, hnd, hmk⟩ := hpath.marked hmem
  rw [hn] at hnd; cases hnd
  simp [hm] at hmk

/-- The search starts at a sentinel below `key`. -/
def SentinelStart (nodes : Nat → Option (Node V)) (start : Cursor) (key : Nat) : Prop :=
  ∃ p node, start.curr = some p ∧ nodes p = some node ∧ node.value = none ∧ node.key < key

theorem SentinelStart.grows (h : Grows s s') {start : Cursor} {key : Nat}
    (hp : SentinelStart s.nodes start key) : SentinelStart s'.nodes start key := by
  obtain ⟨p, node, hc, hn, hv, hk⟩ := hp
  obtain ⟨node', h', hk', hv'⟩ := h.keep hn
  exact ⟨p, node', hc, h', hv'.trans hv, hk' ▸ hk⟩

theorem Heap.search (h : Heap s order) {start : Cursor} {key : Nat} {prev : Loc}
    {prevNext curr : Option Nat} {found : Bool} (hstart : SentinelStart s.nodes start key)
    (hr : traverse s.nodes key findFuel start.prev start.curr start.curr =
      some (prev, prevNext, curr, found)) :
    (found = true → ∃ c node, curr = some c ∧ s.nodes c = some node ∧ node.marked = false ∧
      node.key = key) ∧
    (found = false → ∀ n node, s.nodes n = some node → node.marked = false → node.key ≠ key) := by
  obtain ⟨hstop, hpath⟩ := traverse_spec hr
  obtain ⟨p, np, hp, hnp, hv, hlt⟩ := hstart
  refine ⟨fun hf => ?_, fun hf => ?_⟩
  · rcases hstop with ⟨-, hf'⟩ | ⟨c, node, hc, hn, hm, -, hk⟩
    · rw [hf] at hf'; cases hf'
    · exact ⟨c, node, hc, hn, hm, hk.mp hf⟩
  · rcases hpath with ⟨-, -, xs, hxs⟩ | ⟨q, nq, -, hq, hqm, hqk, hqn, xs, hxs⟩
    · -- from a sentinel below `key` the search always moves on
      exfalso
      rw [hp] at hxs
      cases xs with
      | nil =>
        rcases hstop with ⟨hcn, -⟩ | ⟨c, node, hc, hn, -, hk, -⟩
        · rw [← hxs] at hcn; cases hcn
        · rw [← hxs] at hc; cases hc
          rw [hnp] at hn; cases hn
          exact absurd hk (not_le.mpr hlt)
      | cons x xs =>
        obtain ⟨hx, node', hn', hm, -⟩ := hxs
        cases hx
        rw [hnp] at hn'; cases hn'
        simp [(h.sentinel p np hnp hv).1] at hm
    · exact fun n node hn hm => h.absent (.inr ⟨q, h.mem_of_unmarked hq hqm, rfl⟩)
        (by rintro _ ⟨⟩; exact ⟨nq.key, by simp [State.nodeKey, hq], hqk⟩)
        (by simpa [State.linkVal, hq, hqn] using hxs) (hf ▸ hstop) hn hm

/-- Some prefix of `log`, between its first `lo` entries and all of it, maps `k` to `x`. -/
def SeenAt (log : List (Nat × Nat × Option V)) (lo k : Nat) (x : Option V) : Prop :=
  ∃ L, lo ≤ L ∧ L ≤ log.length ∧ logMap (log.take L) k = x

/-- Entry `L ≥ lo` of `log` is call `t`'s change of `k` to `x`, made on a map
where `k` was `old`. -/
def Wrote (log : List (Nat × Nat × Option V)) (lo t k : Nat) (x old : Option V) : Prop :=
  ∃ L, lo ≤ L ∧ log[L]? = some (t, k, x) ∧ logMap (log.take L) k = old

/-- Should the node at `curr` be marked, the call has seen its key absent. -/
def MarkSeen (s : State V) (c : Call V) (curr : Option Nat) : Prop :=
  ∀ n node, curr = some n → s.nodes n = some node → node.marked = true →
    SeenAt s.log c.invoked c.op.key none

/-- What call `t` knows of `log` at its program counter. Until its insert CAS
or its mark succeeds it has no entry, and then it has one; a search for its
key saw the map; a call that returned took effect between its invocation and now. -/
def CallLin (s : State V) (t : Nat) (c : Call V) : Prop :=
  match c.pc with
  | .start => t ∉ s.log.map Prod.fst
  | .panicked => True
  | .done r => ∃ L, c.invoked ≤ L ∧ L ≤ s.log.length ∧ Linearized s.log t c.op r L
  | .find | .lbRead .. | .lbSize .. | .lbHead .. | .sentinelInsert .. | .publish .. | .insertCas _ =>
    c.invoked ≤ s.log.length ∧ t ∉ s.log.map Prod.fst
  | .traverse target start =>
    c.invoked ≤ s.log.length ∧ t ∉ s.log.map Prod.fst ∧
      (target = .content → SentinelStart s.nodes start (makeContentKey c.op.key))
  | .cleanup target start _ _ curr found =>
    c.invoked ≤ s.log.length ∧ t ∉ s.log.map Prod.fst ∧
      (target = .content → SentinelStart s.nodes start (makeContentKey c.op.key) ∧
        SeenAt s.log c.invoked c.op.key (if found then s.valueAt curr else none) ∧
        (found = true → MarkSeen s c curr))
  | .mark cursor =>
    c.invoked ≤ s.log.length ∧ t ∉ s.log.map Prod.fst ∧ (∃ k, c.op = .delete k) ∧
      MarkSeen s c cursor.curr
  | .fetchAdd | .sizeCas => ∃ k v, c.op = .insert k v ∧ Wrote s.log c.invoked t k (some v) none
  | .unlink _ _ value | .fetchSub value =>
    ∃ k v, c.op = .delete k ∧ value = some v ∧ Wrote s.log c.invoked t k none (some v)

/-- The invariant behind linearizability: the heap's map is the map `log`
replays to, no call has two entries, and each call knows what `CallLin` says. -/
structure Lin (s : State V) : Prop where
  map : s.absMap = logMap s.log
  owners : (s.log.map Prod.fst).Nodup
  calls : ∀ t, CallLin s t (s.calls t)

/-- What a step of call `t` from `s` to `s'` does to the map: nothing, with
`log` unchanged; or the insert CAS of `insert k v` adds the absent key `k`,
logged as `(t, k, some v)`, and the call goes to its `fetch_add`; or the mark
of `delete k` removes `k`, present with `v`, logged as `(t, k, none)`, and the
call goes on to unlink its node and return `Ok v`. -/
def MapStep (s s' : State V) (t : Nat) : Prop :=
  s'.absMap = s.absMap ∧ s'.log = s.log ∨
  (∃ k v cursor, (s.calls t).op = .insert k v ∧ (s.calls t).pc = .insertCas cursor ∧
    s.absMap k = none ∧ s'.absMap = update s.absMap k (some v) ∧
    s'.log = s.log ++ [(t, k, some v)] ∧ (s'.calls t).pc = .fetchAdd) ∨
  ∃ k v cursor next, (s.calls t).op = .delete k ∧ (s.calls t).pc = .mark cursor ∧
    s.absMap k = some v ∧ s'.absMap = update s.absMap k none ∧
    s'.log = s.log ++ [(t, k, none)] ∧ (s'.calls t).pc = .unlink cursor next (some v)

section Prefix

variable {log log' : List (Nat × Nat × Option V)}

theorem SeenAt.mono {lo k : Nat} {x : Option V} (h : SeenAt log lo k x) (hp : log <+: log') :
    SeenAt log' lo k x := by
  obtain ⟨L, h1, h2, h3⟩ := h
  obtain ⟨e, rfl⟩ := hp
  exact ⟨L, h1, h2.trans (by simp), by rwa [List.take_append_of_le_length h2]⟩

theorem Wrote.mono {lo t k : Nat} {x old : Option V} (h : Wrote log lo t k x old)
    (hp : log <+: log') : Wrote log' lo t k x old := by
  obtain ⟨L, h1, h2, h3⟩ := h
  obtain ⟨e, rfl⟩ := hp
  have hL : L < log.length := (List.getElem?_eq_some_iff.mp h2).1
  exact ⟨L, h1, by rwa [List.getElem?_append_left hL],
    by rwa [List.take_append_of_le_length hL.le]⟩

theorem Linearized.mono {t L : Nat} {op : Op V} {r : Ret V} (h : Linearized log t op r L)
    (hL : L ≤ log.length) (hp : log <+: log') : Linearized log' t op r L := by
  obtain ⟨e, rfl⟩ := hp
  rw [Linearized, List.take_append_of_le_length hL]
  refine ⟨h.1, fun x hx => ?_⟩
  have he := h.2 x hx
  rwa [List.getElem?_append_left (List.getElem?_eq_some_iff.mp he).1]

theorem linearized_insert {t k L : Nat} {v : V} (h : log[L]? = some (t, k, some v))
    (hk : logMap (log.take L) k = none) : Linearized log t (.insert k v) (.insert (.ok ())) L :=
  ⟨by simp [Op.run, hk], fun x hx => by simp [Op.run, hk] at hx; rw [← hx]; exact h⟩

theorem linearized_delete {t k L : Nat} {v : V} (h : log[L]? = some (t, k, none))
    (hk : logMap (log.take L) k = some v) : Linearized log t (.delete k) (.delete (.ok v)) L :=
  ⟨by simp [Op.run, hk], fun x hx => by simp [Op.run, hk] at hx; rw [← hx]; exact h⟩

end Prefix

/-- How a step of call `t` may change `log` and the marks: `log` stays or
gains one entry of `t`, which had none, and a node the step marks carries the
content key of an entry `(t, k, none)` that it appends. -/
structure Appends (s s' : State V) (t : Nat) : Prop where
  log : s'.log = s.log ∨ ∃ k x, s'.log = s.log ++ [(t, k, x)] ∧ t ∉ s.log.map Prod.fst
  marks : ∀ n node node', s.nodes n = some node → node.marked = false → s'.nodes n = some node' →
    node'.marked = true → ∃ k < hiMask, node.key = makeContentKey k ∧ s'.log = s.log ++ [(t, k, none)]

/-- No node changes its mark. -/
def KeepsMarks (s s' : State V) : Prop :=
  ∀ n node node', s.nodes n = some node → s'.nodes n = some node' → node'.marked = node.marked

variable {t : Nat}

theorem Appends.prefix (h : Appends s s' t) : s.log <+: s'.log := by
  rcases h.log with h | ⟨k, x, h, -⟩
  · rw [h]
  · rw [h]; exact List.prefix_append _ _

theorem Appends.fresh (h : Appends s s' t) {u : Nat} (hu : u ≠ t) (hf : u ∉ s.log.map Prod.fst) :
    u ∉ s'.log.map Prod.fst := by
  rcases h.log with h | ⟨k, x, h, -⟩ <;> rw [h]
  · exact hf
  · rw [List.map_append, List.mem_append, not_or]
    exact ⟨hf, by simpa using hu⟩

theorem KeepsMarks.appends (h : KeepsMarks s s') (hlog : s'.log = s.log) : Appends s s' t :=
  ⟨.inl hlog, fun n node node' hn hm hn' hm' => by rw [h n node node' hn hn', hm] at hm'; cases hm'⟩

theorem keepsMarks_refl (s : State V) : KeepsMarks s s := fun _ _ _ h h' => by
  rw [h] at h'; cases h'; rfl

theorem keepsMarks_cas {prev : Loc} {e w : Option Nat} (hc : s.cas prev e w = some s') :
    KeepsMarks s s' := fun n node node' hn hn' => by
  obtain ⟨old, hold, -, -, hm⟩ := cas_nodes hc hn'
  rw [hn] at hold; cases hold; exact hm

theorem Heap.keepsMarks_insertAt (h : Heap s order) {cursor : Cursor} {key N : Nat}
    {value : Option V} (hi : s.insertAt cursor key value = some (s', N)) : KeepsMarks s s' := by
  obtain ⟨s₁, hc, rfl, rfl⟩ := insertAt_eq_some hi
  intro n node node' hn hn'
  have hnN : n ≠ s.nnodes := by rintro rfl; simp [h.fresh] at hn
  dsimp only at hn'
  rw [update_noteq hnN] at hn'
  exact keepsMarks_cas hc n node node' hn hn'

theorem MarkSeen.step (ha : Appends s s' t) {c : Call V} {curr : Option Nat}
    (hinv : c.invoked ≤ s.log.length) (hk : c.op.key < hiMask)
    (hcurr : ∀ n, curr = some n → ∃ node, s.nodes n = some node ∧ node.key = makeContentKey c.op.key)
    (h : MarkSeen s c curr) : MarkSeen s' c curr := by
  intro n node' hc hn' hm'
  obtain ⟨node, hn, hkey⟩ := hcurr n hc
  cases hm : node.marked
  · -- marked by this step, which logged the key's removal
    obtain ⟨k, hk', hkk, hlog⟩ := ha.marks n node node' hn hm hn' hm'
    obtain rfl := makeContentKey_injective hk hk' (hkey.symm.trans hkk)
    exact ⟨s'.log.length, by rw [hlog, List.length_append]; omega, le_rfl,
      by rw [List.take_length, hlog, logMap_append, update_same]⟩
  · exact (h n node hc hn hm).mono ha.prefix

theorem StopKey.alloc {nodes : Nat → Option (Node V)} {key : Nat} {curr : Option Nat}
    {found : Bool} (h : StopKey nodes key curr found) : ∀ n, curr = some n → nodes n ≠ none := by
  rintro n rfl
  rcases h with ⟨h, -⟩ | ⟨c, node, hc, hn, -⟩
  · cases h
  · cases hc; simp [hn]

theorem valueAt_grows (hg : Grows s s') {curr : Option Nat}
    (hcurr : ∀ n, curr = some n → s.nodes n ≠ none) : s'.valueAt curr = s.valueAt curr := by
  rcases curr with _ | n
  · rfl
  · obtain ⟨node, hn⟩ := Option.ne_none_iff_exists'.mp (hcurr n rfl)
    obtain ⟨node', hn', -, hv⟩ := hg.keep hn
    simp [State.valueAt, hn, hn', hv]

theorem CallLin.step (hg : Grows s s') (ha : Appends s s' t) {u : Nat} (hu : u ≠ t) {c : Call V}
    (hsh : CallShape s c) (hc : CallLin s u c) : CallLin s' u c := by
  have hp := ha.prefix
  have hlen := hp.length_le
  rcases hpc : c.pc with _ | _ | ⟨b, pending⟩ | ⟨b, pending⟩ | ⟨b, pending⟩ | ⟨target, start⟩ |
    ⟨target, start, prev, prevNext, curr, found⟩ | ⟨b, pending, start, cursor⟩ |
    ⟨b, pending, cursor⟩ | cursor | _ | _ | cursor | ⟨cursor, next, value⟩ | value | r | _ <;>
    simp only [CallLin, CallShape, hpc] at hc hsh ⊢
  case start => exact ha.fresh hu hc
  case find | lbRead | lbSize | lbHead | sentinelInsert | publish | insertCas =>
    exact ⟨hc.1.trans hlen, ha.fresh hu hc.2⟩
  case traverse => exact ⟨hc.1.trans hlen, ha.fresh hu hc.2.1, fun h => (hc.2.2 h).grows hg⟩
  case cleanup =>
    obtain ⟨hinv, hfresh, hcont⟩ := hc
    obtain ⟨hkey, -, -, -, -, -, hstop⟩ := hsh
    refine ⟨hinv.trans hlen, ha.fresh hu hfresh, fun htarget => ?_⟩
    obtain ⟨hsent, hseen, hmark⟩ := hcont htarget
    subst htarget
    refine ⟨hsent.grows hg, by rw [valueAt_grows hg hstop.alloc]; exact hseen.mono hp,
      fun hf => (hmark hf).step ha hinv hkey fun n hn => ?_⟩
    obtain ⟨n', node, hc, hnode, hk⟩ := (hf ▸ hstop).found
    rw [hn] at hc; cases hc
    exact ⟨node, hnode, hk⟩
  case mark =>
    obtain ⟨hinv, hfresh, hop, hms⟩ := hc
    obtain ⟨-, n, node, hcur, hn, hkey, hk⟩ := hsh
    refine ⟨hinv.trans hlen, ha.fresh hu hfresh, hop, hms.step ha hinv hkey fun m hm => ?_⟩
    rw [hcur] at hm; cases hm
    exact ⟨node, hn, hk⟩
  case fetchAdd | sizeCas =>
    obtain ⟨k, v, hop, hw⟩ := hc
    exact ⟨k, v, hop, hw.mono hp⟩
  case unlink | fetchSub =>
    obtain ⟨k, v, hop, hv, hw⟩ := hc
    exact ⟨k, v, hop, hv, hw.mono hp⟩
  case done =>
    obtain ⟨L, h1, h2, hl⟩ := hc
    exact ⟨L, h1, h2.trans hlen, hl.mono h2 hp⟩

theorem callLin_setCall (s : State V) (t u : Nat) (c c' : Call V) :
    CallLin (s.setCall t c) u c' ↔ CallLin s u c' := Iff.rfl

/-- A step of call `t` to `s₁.setCall t c` keeps the invariant when its writes
append at most the call's own entry, keep the map in step with `log`, leave the
other calls alone, and the call knows what `CallLin` asks of `c`. -/
theorem Lin.next (hl : Lin s) (hs : Shape s order) (hg : Grows s s₁) (ha : Appends s s₁ t)
    (hmap : s₁.absMap = logMap s₁.log) (hcalls : s₁.calls = s.calls) {c : Call V}
    (hown : CallLin s₁ t c) : Lin (s₁.setCall t c) := by
  refine ⟨hmap, ?_, fun u => ?_⟩
  · show (s₁.log.map Prod.fst).Nodup
    rcases ha.log with h | ⟨k, x, h, hfresh⟩ <;> rw [h]
    · exact hl.owners
    · rw [List.map_append, List.map_singleton, ← List.concat_eq_append]
      exact hl.owners.concat hfresh
  · rw [callLin_setCall]
    rcases eq_or_ne u t with rfl | hu
    · simpa using hown
    · simpa [hu, hcalls] using (hl.calls u).step hg ha hu (hs.calls u)

theorem Lin.quiet (hl : Lin s) (hs : Shape s order) (hg : Grows s s₁)
    (hmap : s₁.absMap = s.absMap) (hlog : s₁.log = s.log) (hmarks : KeepsMarks s s₁)
    (hcalls : s₁.calls = s.calls) {c : Call V} (hown : CallLin s₁ t c) :
    Lin (s₁.setCall t c) ∧ MapStep s (s₁.setCall t c) t :=
  ⟨hl.next hs hg (hmarks.appends hlog) (by rw [hmap, hlog, hl.map]) hcalls hown, .inl ⟨hmap, hlog⟩⟩

theorem Lin.nextPc (hl : Lin s) (hs : Shape s order) (hg : Grows s s₁) (ha : Appends s s₁ t)
    (hmap : s₁.absMap = logMap s₁.log) (hcalls : s₁.calls = s.calls) {pc : Pc V}
    (hown : CallLin s₁ t { s.calls t with pc := pc }) : Lin (s₁.setPc t pc) := by
  rw [State.setPc, hcalls]
  exact hl.next hs hg ha hmap hcalls hown

theorem Lin.quietPc (hl : Lin s) (hs : Shape s order) (hg : Grows s s₁)
    (hmap : s₁.absMap = s.absMap) (hlog : s₁.log = s.log) (hmarks : KeepsMarks s s₁)
    (hcalls : s₁.calls = s.calls) {pc : Pc V} (hown : CallLin s₁ t { s.calls t with pc := pc }) :
    Lin (s₁.setPc t pc) ∧ MapStep s (s₁.setPc t pc) t := by
  rw [State.setPc, hcalls]
  exact hl.quiet hs hg hmap hlog hmarks hcalls hown

theorem Lin.setPc (hl : Lin s) (hs : Shape s order) {pc : Pc V}
    (hown : CallLin s t { s.calls t with pc := pc }) :
    Lin (s.setPc t pc) ∧ MapStep s (s.setPc t pc) t :=
  hl.quietPc hs (.refl s) rfl rfl (keepsMarks_refl s) rfl hown

theorem Lin.setCount (hl : Lin s) (hs : Shape s order) {count : Nat} {pc : Pc V}
    (hown : CallLin s t { s.calls t with pc := pc }) :
    Lin ({ s with count := count }.setPc t pc) ∧ MapStep s ({ s with count := count }.setPc t pc) t :=
  have hg : Grows s { s with count := count } := .of_nodes rfl rfl le_rfl
  hl.quietPc hs hg rfl rfl (keepsMarks_refl s) rfl hown

theorem Lin.stay (hl : Lin s) : Lin s ∧ MapStep s s t := ⟨hl, .inl ⟨rfl, rfl⟩⟩

theorem callLin_afterFind {c : Call V} {target : Target} {start : Cursor} {prev : Loc}
    {curr : Option Nat} {found : Bool} (hinv : c.invoked ≤ s.log.length)
    (hfresh : t ∉ s.log.map Prod.fst)
    (hseen : target = .content →
      SeenAt s.log c.invoked c.op.key (if found then s.valueAt curr else none) ∧
        (found = true → s.valueAt curr ≠ none ∧ MarkSeen s c curr)) :
    CallLin s t { c with pc := s.afterFind c target start ⟨prev, curr⟩ found } := by
  cases target with
  | sentinel b pending => cases found <;> exact ⟨hinv, hfresh⟩
  | content =>
    obtain ⟨⟨L, h1, h2, hL⟩, hf⟩ := hseen rfl
    rcases hop : c.op with k | ⟨k, v⟩ | k <;> cases found <;>
      simp only [State.afterFind, hop, Op.key, if_true, if_false, Bool.false_eq_true] at hL hf ⊢
    case lookup.false => exact ⟨L, h1, h2, by simp [Linearized, Op.run, hop, hL]⟩
    case lookup.true =>
      rcases hnode : curr.bind s.nodes with _ | node
      · trivial
      · exact ⟨L, h1, h2, by simp [Linearized, Op.run, hop, hL, State.valueAt, hnode]⟩
    case insert.false => exact ⟨hinv, hfresh⟩
    case insert.true =>
      obtain ⟨w, hw⟩ := Option.ne_none_iff_exists'.mp (hf trivial).1
      exact ⟨L, h1, h2, by simp [Linearized, Op.run, hop, hL, hw]⟩
    case delete.false => exact ⟨L, h1, h2, by simp [Linearized, Op.run, hop, hL]⟩
    case delete.true =>
      exact ⟨hinv, hfresh, ⟨k, rfl⟩, fun n node hc hn hm => by
        simpa [hop, Op.key] using (hf trivial).2 n node hc hn hm⟩

theorem callLin_retTo {c : Call V} {cursor : Cursor} {pending : List Nat}
    (hinv : c.invoked ≤ s.log.length) (hfresh : t ∉ s.log.map Prod.fst)
    (hsent : pending = [] → SentinelStart s.nodes cursor (makeContentKey c.op.key)) :
    CallLin s t { c with pc := retTo cursor pending } := by
  cases pending with
  | nil => exact ⟨hinv, hfresh, fun _ => hsent rfl⟩
  | cons b rest => exact ⟨hinv, hfresh, fun h => by cases h⟩

theorem sentinelStart_of_pending {key size b p : Nat} {cursor : Cursor} {node : Node V}
    (hkey : key < hiMask) (hsize : SizeOk s size) (hpend : Pending key size b [])
    (hcur : cursor.curr = some p) (hp : s.nodes p = some node) (hv : node.value = none)
    (hk : node.key = reverseBits b) : SentinelStart s.nodes cursor (makeContentKey key) := by
  obtain ⟨j, -, hj, rfl, -⟩ := hsize
  refine ⟨p, node, hcur, hp, hv, ?_⟩
  rw [hk, show b = key % 2 ^ j from hpend]
  exact reverseBits_lt_makeContentKey hkey hj

section Steps

variable (hl : Lin s) (hs : Shape s order)
include hl hs

theorem linStep_start (hpc : (s.calls t).pc = .start) : Lin (step s t) ∧ MapStep s (step s t) t := by
  have hc := hl.calls t
  simp only [CallLin, hpc] at hc
  simp only [step, hpc]
  split_ifs
  · exact hl.quiet hs (.refl s) rfl rfl (keepsMarks_refl s) rfl ⟨le_rfl, hc⟩
  · exact hl.setPc hs trivial

theorem linStep_find (hpc : (s.calls t).pc = .find) : Lin (step s t) ∧ MapStep s (step s t) t := by
  have hc := hl.calls t
  simp only [CallLin, hpc] at hc
  simp only [step, hpc]
  split_ifs
  · exact hl.setPc hs trivial
  · exact hl.quiet hs (.refl s) rfl rfl (keepsMarks_refl s) rfl hc

theorem linStep_lbRead {b : Nat} {pending : List Nat} (hpc : (s.calls t).pc = .lbRead b pending) :
    Lin (step s t) ∧ MapStep s (step s t) t := by
  have hc := hl.calls t
  simp only [CallLin, hpc] at hc
  have hsh := hs.calls t
  simp only [CallShape, hpc] at hsh
  obtain ⟨hkey, hsize, -, hpend⟩ := hsh
  simp only [step, hpc]
  rcases hbk : s.buckets (reverseBits b) with _ | p
  · exact hl.setPc hs hc
  · obtain ⟨node, hp, hv, hk⟩ := hs.heap.bucket _ p hbk
    exact hl.setPc hs (callLin_retTo hc.1 hc.2 fun hnil =>
      sentinelStart_of_pending hkey hsize (hnil ▸ hpend) rfl hp hv hk)

theorem linStep_lbSize {b : Nat} {pending : List Nat} (hpc : (s.calls t).pc = .lbSize b pending) :
    Lin (step s t) ∧ MapStep s (step s t) t := by
  have hc := hl.calls t
  simp only [CallLin, hpc] at hc
  simp only [step, hpc]
  split_ifs <;> exact hl.setPc hs hc

theorem linStep_lbHead {b : Nat} {pending : List Nat} (hpc : (s.calls t).pc = .lbHead b pending) :
    Lin (step s t) ∧ MapStep s (step s t) t := by
  have hc := hl.calls t
  simp only [CallLin, hpc] at hc
  simp only [step, hpc]
  exact hl.setPc hs ⟨hc.1, hc.2, fun h => by cases h⟩

theorem linStep_traverse {target : Target} {start : Cursor}
    (hpc : (s.calls t).pc = .traverse target start) : Lin (step s t) ∧ MapStep s (step s t) t := by
  have hc := hl.calls t
  simp only [CallLin, hpc] at hc
  obtain ⟨hinv, hfresh, hsent⟩ := hc
  have hkey : (s.calls t).op.key < hiMask := by
    have hsh := hs.calls t
    simp only [CallShape, hpc] at hsh
    exact hsh.1
  simp only [step, hpc]
  rcases hr : traverse s.nodes (target.key (s.calls t).op.key) findFuel start.prev start.curr
    start.curr with _ | ⟨prev, prevNext, curr, found⟩
  · exact hl.stay
  · -- a search for the call's key saw the map of all of `log`
    have hseen : target = .content →
        SeenAt s.log (s.calls t).invoked (s.calls t).op.key
          (if found then s.valueAt curr else none) ∧
        (found = true → s.valueAt curr ≠ none ∧ MarkSeen s (s.calls t) curr) := by
      rintro rfl
      obtain ⟨hfound, habsent⟩ := hs.heap.search (hsent rfl) hr
      cases found
      · exact ⟨⟨s.log.length, hinv, le_rfl, by
          rw [List.take_length, ← hl.map]; exact absMap_of_absent (habsent rfl)⟩, fun h => by cases h⟩
      · obtain ⟨c, node, rfl, hn, hm, hk⟩ := hfound rfl
        have hval : s.valueAt (some c) = node.value := by simp [State.valueAt, hn]
        refine ⟨⟨s.log.length, hinv, le_rfl, ?_⟩, fun _ => ⟨?_, fun n node' hc hn' hm' => ?_⟩⟩
        · rw [List.take_length, ← hl.map, if_pos rfl, hval]
          exact hs.heap.absMap_of_node hn hm hkey hk
        · rw [hval]; exact hs.heap.value_ne_none hn hkey hk
        · cases hc; rw [hn] at hn'; cases hn'; rw [hm] at hm'; cases hm'
    dsimp only
    split_ifs
    · exact hl.setPc hs (callLin_afterFind hinv hfresh hseen)
    · exact hl.setPc hs ⟨hinv, hfresh, fun h => ⟨hsent h, (hseen h).1, fun hf => ((hseen h).2 hf).2⟩⟩

theorem linStep_cleanup {target : Target} {start : Cursor} {prev : Loc}
    {prevNext curr : Option Nat} {found : Bool}
    (hpc : (s.calls t).pc = .cleanup target start prev prevNext curr found) :
    Lin (step s t) ∧ MapStep s (step s t) t := by
  have hc := hl.calls t
  simp only [CallLin, hpc] at hc
  obtain ⟨hinv, hfresh, hcont⟩ := hc
  have hsh := hs.calls t
  simp only [CallShape, hpc] at hsh
  obtain ⟨hkey, -, -, -, hprev, -, hstop⟩ := hsh
  simp only [step, hpc]
  rcases hcas : s.cas prev prevNext curr with _ | s₁
  · exact hl.setPc hs ⟨hinv, hfresh, fun h => (hcont h).1⟩
  · have hg := cas_grows hcas fun i hi => absurd hi (hprev.ne_bucket i)
    obtain ⟨-, -, -, hcalls, -, hlog⟩ := cas_frame hcas
    have ha : Appends s s₁ t := (keepsMarks_cas hcas).appends hlog
    refine hl.quietPc hs hg (absMap_cas hcas) hlog (keepsMarks_cas hcas) hcalls
      (callLin_afterFind (by rw [hlog]; exact hinv) (by rw [hlog]; exact hfresh) fun htarget => ?_)
    obtain ⟨-, hseen, hmark⟩ := hcont htarget
    subst htarget
    rw [valueAt_grows hg hstop.alloc, hlog]
    refine ⟨hseen, fun hf => ?_⟩
    obtain ⟨n, node, rfl, hn, hk⟩ := (hf ▸ hstop).found
    refine ⟨by simpa [State.valueAt, hn] using hs.heap.value_ne_none hn hkey hk,
      (hmark hf).step ha hinv hkey fun m hm => ?_⟩
    cases hm
    exact ⟨node, hn, hk⟩

theorem linStep_sentinelInsert {b : Nat} {pending : List Nat} {start cursor : Cursor}
    (hpc : (s.calls t).pc = .sentinelInsert b pending start cursor) :
    Lin (step s t) ∧ MapStep s (step s t) t := by
  have hc := hl.calls t
  simp only [CallLin, hpc] at hc
  have hsh := hs.calls t
  simp only [CallShape, hpc] at hsh
  obtain ⟨-, hsize, hb, -, -, hpos⟩ := hsh
  simp only [step, hpc]
  rcases hins : s.insertAt cursor (reverseBits b) none with _ | ⟨s₁, n⟩
  · exact hl.setPc hs ⟨hc.1, hc.2, fun h => by cases h⟩
  · obtain ⟨⟨order', hh⟩, hg⟩ := hs.heap.insertAt hins hpos
      (fun _ => ⟨b, hb.trans_le hsize.le_hiMask, rfl⟩) (fun _ hv => by cases hv)
    obtain ⟨-, -, -, hcalls, -, hlog⟩ := insertAt_frame hins
    exact hl.quietPc hs hg (hs.heap.absMap_insertAt_none hh hins) hlog
      (hs.heap.keepsMarks_insertAt hins) hcalls ⟨by rw [hlog]; exact hc.1, by rw [hlog]; exact hc.2⟩

theorem linStep_publish {b : Nat} {pending : List Nat} {cursor : Cursor}
    (hpc : (s.calls t).pc = .publish b pending cursor) : Lin (step s t) ∧ MapStep s (step s t) t := by
  have hc := hl.calls t
  simp only [CallLin, hpc] at hc
  have hsh := hs.calls t
  simp only [CallShape, hpc] at hsh
  obtain ⟨hkey, hsize, -, hpend, -, p, node, hcur, hp, hv, hk⟩ := hsh
  have hsent : pending = [] → SentinelStart s.nodes cursor (makeContentKey (s.calls t).op.key) :=
    fun hnil => sentinelStart_of_pending hkey hsize (hnil ▸ hpend) hcur hp hv hk
  simp only [step, hpc]
  rcases hcas : s.cas (.bucket (reverseBits b)) none cursor.curr with _ | s₁
  · exact hl.setPc hs (callLin_retTo hc.1 hc.2 hsent)
  · obtain ⟨-, -, -, hcalls, -, hlog⟩ := cas_frame hcas
    obtain ⟨i, -, -, rfl⟩ := (cas_eq_some hcas).resolve_left (by rintro ⟨⟨⟩, -⟩) |>.resolve_left
      (by rintro ⟨_, _, ⟨⟩, -⟩)
    exact hl.quietPc hs (cas_grows hcas fun _ _ => rfl) (absMap_cas hcas) hlog
      (keepsMarks_cas hcas) hcalls (callLin_retTo (by rw [hlog]; exact hc.1) (by rw [hlog]; exact hc.2) hsent)

theorem linStep_insertCas {cursor : Cursor} (hpc : (s.calls t).pc = .insertCas cursor) :
    Lin (step s t) ∧ MapStep s (step s t) t := by
  have hc := hl.calls t
  simp only [CallLin, hpc] at hc
  obtain ⟨hinv, hfresh⟩ := hc
  have hsh := hs.calls t
  simp only [CallShape, hpc] at hsh
  obtain ⟨hkey, -, hpos⟩ := hsh
  simp only [step, hpc]
  rcases hop : (s.calls t).op with k | ⟨k, v⟩ | k
  · exact hl.stay
  · have hk : k < hiMask := by simpa [hop, Op.key] using hkey
    rw [hop, Op.key] at hpos
    rcases hins : s.insertAt cursor (makeContentKey k) (some v) with _ | ⟨s₁, n⟩ <;>
      simp only [hins]
    · exact hl.setPc hs ⟨hinv, hfresh⟩
    · -- the insert CAS: the map gains `k`, and `log` the call's entry
      obtain ⟨⟨order', hh⟩, hg⟩ := hs.heap.insertAt hins hpos (fun hv => by cases hv)
        fun _ _ => ⟨k, hk, rfl⟩
      obtain ⟨-, -, -, hcalls, -, hlog⟩ := insertAt_frame hins
      obtain ⟨habs, hmap⟩ := hs.heap.absMap_insertAt_some hh hins hk
      have hkeeps := hs.heap.keepsMarks_insertAt hins
      have hg' : Grows s { s₁ with log := s.log ++ [(t, k, some v)] } :=
        hg.trans (.of_nodes rfl rfl le_rfl)
      have ha : Appends s { s₁ with log := s.log ++ [(t, k, some v)] } t :=
        ⟨.inr ⟨k, some v, rfl, hfresh⟩, fun m nd nd' hm hmk hm' hmk' => by
          rw [hkeeps m nd nd' hm hm', hmk] at hmk'; cases hmk'⟩
      have hown : CallLin { s₁ with log := s.log ++ [(t, k, some v)] } t
          { s.calls t with pc := .fetchAdd } :=
        ⟨k, v, hop, s.log.length, hinv, by simp,
          by rw [List.take_left, ← hl.map, habs]⟩
      have hmap' : ({ s₁ with log := s.log ++ [(t, k, some v)] } : State V).absMap =
          logMap (s.log ++ [(t, k, some v)]) := by
        rw [logMap_append, ← hl.map]; exact hmap
      exact ⟨hl.nextPc hs hg' ha hmap' hcalls hown,
        .inr (.inl ⟨k, v, cursor, hop, hpc, habs, hmap, rfl, by simp [State.setPc]⟩)⟩
  · exact hl.stay

theorem linStep_fetchAdd (hpc : (s.calls t).pc = .fetchAdd) :
    Lin (step s t) ∧ MapStep s (step s t) t := by
  have hc := hl.calls t
  simp only [CallLin, hpc] at hc
  obtain ⟨k, v, hop, L, h1, h2, h3⟩ := hc
  simp only [step, hpc]
  split_ifs
  · exact hl.setCount hs trivial
  · exact hl.setCount hs ⟨k, v, hop, L, h1, h2, h3⟩
  · exact hl.setCount hs ⟨L, h1, (List.getElem?_eq_some_iff.mp h2).1.le, by
      rw [hop]; exact linearized_insert h2 h3⟩

theorem linStep_sizeCas (hpc : (s.calls t).pc = .sizeCas) :
    Lin (step s t) ∧ MapStep s (step s t) t := by
  have hc := hl.calls t
  simp only [CallLin, hpc] at hc
  obtain ⟨k, v, hop, L, h1, h2, h3⟩ := hc
  have hdone : CallLin s t { s.calls t with pc := .done (.insert (.ok ())) } :=
    ⟨L, h1, (List.getElem?_eq_some_iff.mp h2).1.le, by rw [hop]; exact linearized_insert h2 h3⟩
  simp only [step, hpc]
  split_ifs with heq
  · have hg : Grows s { s with size := (s.calls t).size * 2 } :=
      .of_nodes rfl rfl (by dsimp only; omega)
    exact hl.quietPc hs hg rfl rfl (keepsMarks_refl s) rfl hdone
  · exact hl.setPc hs hdone

theorem linStep_mark {cursor : Cursor} (hpc : (s.calls t).pc = .mark cursor) :
    Lin (step s t) ∧ MapStep s (step s t) t := by
  have hc := hl.calls t
  simp only [CallLin, hpc] at hc
  obtain ⟨hinv, hfresh, ⟨k, hop⟩, hms⟩ := hc
  have hsh := hs.calls t
  simp only [CallShape, hpc] at hsh
  obtain ⟨-, n, node, hcur, hn, hkey, hk⟩ := hsh
  rw [hop, Op.key] at hkey hk
  simp only [step, hpc, hcur, hn]
  split_ifs with hm
  · -- another delete marked the node first: the key was absent since
    obtain ⟨L, h1, h2, h3⟩ := hms n node hcur hn hm
    rw [hop, Op.key] at h3
    exact hl.setPc hs ⟨L, h1, h2, by rw [hop]; simp [Linearized, Op.run, h3]⟩
  · -- the mark: the map loses `k`, and `log` gains the call's entry
    have hm : node.marked = false := by simpa using hm
    obtain ⟨hval, hmap⟩ := hs.heap.absMap_setMark hn hm hkey hk
    obtain ⟨v, hv⟩ := Option.ne_none_iff_exists'.mp (hs.heap.value_ne_none hn hkey hk)
    have hkt : (s.calls t).op.key = k := by rw [hop]; rfl
    have hg : Grows s { s.setMark n node with log := s.log ++ [(t, (s.calls t).op.key, none)] } :=
      (grows_setMark hn).trans (.of_nodes rfl rfl le_rfl)
    have ha : Appends s { s.setMark n node with log := s.log ++ [(t, (s.calls t).op.key, none)] } t := by
      refine ⟨.inr ⟨_, none, rfl, hfresh⟩, fun m nd nd' hmn hmm hmn' hmm' => ?_⟩
      rcases eq_or_ne m n with rfl | hne
      · rw [hn] at hmn; cases hmn
        exact ⟨k, hkey, hk, by rw [hkt]⟩
      · simp only [State.setMark, update_noteq hne] at hmn'
        rw [hmn] at hmn'; cases hmn'; rw [hmm] at hmm'; cases hmm'
    have hown : CallLin { s.setMark n node with log := s.log ++ [(t, (s.calls t).op.key, none)] } t
        { s.calls t with pc := .unlink cursor node.next node.value } :=
      ⟨k, v, hop, hv, s.log.length, hinv, by simp [hkt],
        by rw [List.take_left, ← hl.map, hval, hv]⟩
    refine ⟨hl.next hs hg ha ?_ rfl hown, .inr (.inr ⟨k, v, cursor, node.next, hop, hpc,
      by rw [hval, hv], hmap, by rw [hkt]; rfl, by simp [State.setPc, hv]⟩)⟩
    show (s.setMark n node).absMap = _
    rw [hmap, hl.map, hkt]
    exact (logMap_append _ _ _ _).symm

theorem linStep_unlink {cursor : Cursor} {next : Option Nat} {value : Option V}
    (hpc : (s.calls t).pc = .unlink cursor next value) : Lin (step s t) ∧ MapStep s (step s t) t := by
  have hc := hl.calls t
  simp only [CallLin, hpc] at hc
  obtain ⟨k, v, hop, hv, hw⟩ := hc
  have hsh := hs.calls t
  simp only [CallShape, hpc] at hsh
  simp only [step, hpc]
  rcases hcas : s.cas cursor.prev cursor.curr next with _ | s₁
  · exact hl.setPc hs ⟨k, v, hop, hv, hw⟩
  · obtain ⟨-, -, -, hcalls, -, hlog⟩ := cas_frame hcas
    exact hl.quietPc hs (cas_grows hcas fun i hi => absurd hi (hsh.1.ne_bucket i)) (absMap_cas hcas)
      hlog (keepsMarks_cas hcas) hcalls ⟨k, v, hop, hv, by rw [hlog]; exact hw⟩

theorem linStep_fetchSub {value : Option V} (hpc : (s.calls t).pc = .fetchSub value) :
    Lin (step s t) ∧ MapStep s (step s t) t := by
  have hc := hl.calls t
  simp only [CallLin, hpc] at hc
  obtain ⟨k, v, hop, rfl, L, h1, h2, h3⟩ := hc
  simp only [step, hpc]
  exact hl.setCount hs
    ⟨L, h1, (List.getElem?_eq_some_iff.mp h2).1.le, by rw [hop]; exact linearized_delete h2 h3⟩

end Steps

theorem lin_step (hl : Lin s) (hs : Shape s order) (t : Nat) :
    Lin (step s t) ∧ MapStep s (step s t) t := by
  rcases hpc : (s.calls t).pc with _ | _ | ⟨b, pending⟩ | ⟨b, pending⟩ | ⟨b, pending⟩ |
    ⟨target, start⟩ | ⟨target, start, prev, prevNext, curr, found⟩ | ⟨b, pending, start, cursor⟩ |
    ⟨b, pending, cursor⟩ | cursor | _ | _ | cursor | ⟨cursor, next, value⟩ | value | r | _
  · exact linStep_start hl hs hpc
  · exact linStep_find hl hs hpc
  · exact linStep_lbRead hl hs hpc
  · exact linStep_lbSize hl hs hpc
  · exact linStep_lbHead hl hs hpc
  · exact linStep_traverse hl hs hpc
  · exact linStep_cleanup hl hs hpc
  · exact linStep_sentinelInsert hl hs hpc
  · exact linStep_publish hl hs hpc
  · exact linStep_insertCas hl hs hpc
  · exact linStep_fetchAdd hl hs hpc
  · exact linStep_sizeCas hl hs hpc
  · exact linStep_mark hl hs hpc
  · exact linStep_unlink hl hs hpc
  · exact linStep_fetchSub hl hs hpc
  all_goals
    simp only [step, hpc]
    exact hl.stay

theorem lin_init (ops : List (Op V)) : Lin (init ops) where
  map := funext fun k => by simp [State.absMap, init, logMap]
  owners := List.nodup_nil
  calls t := by
    rcases ht : ops[t]? with _ | op
    · have hc : (init ops).calls t = ⟨.lookup 0, .done (.lookup none), 0, 0⟩ := by simp [init, ht]
      rw [hc]
      exact ⟨0, le_rfl, le_rfl, by simp [Linearized, Op.run, logMap]⟩
    · have hc : (init ops).calls t = ⟨op, .start, 0, 0⟩ := by simp [init, ht]
      rw [hc]
      exact List.not_mem_nil t

theorem Reachable.lin (hr : Reachable s) : Lin s := by
  induction hr with
  | initial ops => exact lin_init ops
  | step t hr ih =>
    obtain ⟨order, hs⟩ := hr.shape
    exact (lin_step ih hs t).1

theorem Shape.fetchAdd_outcome (hs : Shape s order) {t : Nat} (hpc : (s.calls t).pc = .fetchAdd) :
    ((step s t).calls t).pc = .done (.insert (.ok ())) ∨ ((step s t).calls t).pc = .sizeCas ∨
      ((step s t).calls t).pc = .panicked ∧ (s.calls t).size = 2 ^ 63 := by
  simp only [step, hpc]
  split_ifs with hover
  · exact .inr (.inr ⟨by simp [State.setPc], (hs.overflow_iff hpc).mp hover⟩)
  · exact .inr (.inl (by simp [State.setPc]))
  · exact .inl (by simp [State.setPc])

/-- Linearizability of the split-ordered list. In every reachable state the
map read off the heap is the map `log` replays to, and no call has two entries
in `log`. A step changes the map only as `MapStep` says: by the insert CAS of an
`insert` of an absent key, after which the insert returns `Ok(())` unless the
`size` it read is `2 ^ 63` and its `fetch_add` panics, or by the mark of a
`delete` of a present key, which then returns `Ok`. A call that has returned
`r` returned what the sequential map returns on the map of the first `L`
entries of `log`, for an `L` between the length of `log` at its invocation and
now; the `Ok` of an update is its own entry `L`. -/
theorem splitOrdered_linearizable (hr : Reachable s) :
    s.absMap = logMap s.log ∧ (s.log.map Prod.fst).Nodup ∧
    (∀ t, MapStep s (step s t) t) ∧
    (∀ t, (s.calls t).pc = .fetchAdd →
      ((step s t).calls t).pc = .done (.insert (.ok ())) ∨ ((step s t).calls t).pc = .sizeCas ∨
        ((step s t).calls t).pc = .panicked ∧ (s.calls t).size = 2 ^ 63) ∧
    ∀ t r, (s.calls t).pc = .done r →
      ∃ L, (s.calls t).invoked ≤ L ∧ L ≤ s.log.length ∧ Linearized s.log t (s.calls t).op r L := by
  have hl := hr.lin
  obtain ⟨order, hs⟩ := hr.shape
  refine ⟨hl.map, hl.owners, fun t => (lin_step hl hs t).2, fun t => hs.fetchAdd_outcome,
    fun t r hpc => ?_⟩
  have hc := hl.calls t
  simp only [CallLin, hpc] at hc
  exact hc

theorem splitOrdered_linearizable_run :
    let s := schedule (init [.insert 3 (7 : Nat), .delete 3, .lookup 3])
      [0, 1, 2, 0, 1, 2, 0, 1, 2, 0, 1, 2, 0, 1, 2, 0, 1, 2]
    s.absMap = logMap s.log ∧ (s.log.map Prod.fst).Nodup ∧
    (∀ t, MapStep s (step s t) t) ∧
    (∀ t, (s.calls t).pc = .fetchAdd →
      ((step s t).calls t).pc = .done (.insert (.ok ())) ∨ ((step s t).calls t).pc = .sizeCas ∨
        ((step s t).calls t).pc = .panicked ∧ (s.calls t).size = 2 ^ 63) ∧
    ∀ t r, (s.calls t).pc = .done r →
      ∃ L, (s.calls t).invoked ≤ L ∧ L ≤ s.log.length ∧ Linearized s.log t (s.calls t).op r L :=
  splitOrdered_linearizable ((Reachable.initial _).schedule _)

end Concur.SplitOrdered

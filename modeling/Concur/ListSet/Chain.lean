import Concur.ListSet.Concurrent

/-! # Sorted chains of links

`Chain val data l lo order` says that following the pointers from link `l`
visits the nodes of `order`, with keys strictly increasing above `lo`, and
ends at a null link. A key `k` then has one slot in the chain: the link after
the keys below `k` whose pointer is null or reaches a key not below `k`. The
key is present exactly when that pointer reaches `k`. Inserting a node at its
key's slot, or unlinking the node a slot reaches, leaves a chain again.
-/

namespace Concur.ListSet

variable {α : Type*} [LinearOrder α] {val val' : Link → Option Nat} {data data' : Nat → Option α}

/-- From link `l` the pointers run through `order`, keys increasing above `lo`, to null. -/
def Chain (val : Link → Option Nat) (data : Nat → Option α) : Link → WithBot α → List Nat → Prop
  | l, _, [] => val l = none
  | l, lo, n :: rest => val l = some n ∧ ∃ v, data n = some v ∧ lo < v ∧ Chain val data (.next n) v rest

/-- `x` is one of the links of the chain from `l` through `order`. -/
def InChain (l : Link) (order : List Nat) (x : Link) : Prop := x = l ∨ ∃ m ∈ order, x = .next m

/-- `key` belongs at link `x`: the key of its node (or the bound `lo` at the
chain's first link) is below `key`, and its pointer is null or reaches a key
not below `key`. -/
structure Slot (val : Link → Option Nat) (data : Nat → Option α) (l : Link) (lo : WithBot α)
    (key : α) (x : Link) : Prop where
  first : x = l → lo < key
  below : ∀ m, x = .next m → ∃ v, data m = some v ∧ v < key
  above : ∀ n, val x = some n → ∃ v, data n = some v ∧ key ≤ v

theorem inChain_cons {l x : Link} {n : Nat} {rest : List Nat} :
    InChain l (n :: rest) x ↔ x = l ∨ InChain (.next n) rest x := by
  simp only [InChain, List.mem_cons, exists_eq_or_imp]

theorem inChain_self (l : Link) (order : List Nat) : InChain l order l := .inl rfl

theorem Slot.tail {l : Link} {lo : WithBot α} {key : α} {x : Link} {n : Nat} {v : α}
    (h : Slot val data l lo key x) (hn : data n = some v) :
    Slot val data (.next n) v key x where
  first hx := by obtain ⟨w, hw, hlt⟩ := h.below n hx; rw [hn] at hw; cases hw; exact_mod_cast hlt
  below := h.below
  above := h.above

theorem Chain.data_of_mem {l : Link} {lo : WithBot α} {order : List Nat} {m : Nat}
    (hc : Chain val data l lo order) (hm : m ∈ order) : ∃ v, data m = some v ∧ lo < v := by
  induction order generalizing l lo with
  | nil => simp at hm
  | cons n rest ih =>
    obtain ⟨-, v, hv, hlo, hc⟩ := hc
    rcases List.mem_cons.mp hm with rfl | hm
    · exact ⟨v, hv, hlo⟩
    · obtain ⟨w, hw, hlt⟩ := ih hc hm
      exact ⟨w, hw, hlo.trans hlt⟩

theorem Chain.lt_of_mem_keys {l : Link} {lo : WithBot α} {order : List Nat} {w : α}
    (hc : Chain val data l lo order) (hw : w ∈ order.filterMap data) : lo < w := by
  obtain ⟨m, hm, hd⟩ := List.mem_filterMap.mp hw
  obtain ⟨v, hv, hlt⟩ := hc.data_of_mem hm
  rw [hv] at hd; cases hd; exact hlt

theorem Chain.not_mem {l : Link} {v : α} {order : List Nat} {m : Nat}
    (hc : Chain val data l v order) (hm : data m = some v) : m ∉ order := fun h => by
  obtain ⟨w, hw, hlt⟩ := hc.data_of_mem h
  rw [hm] at hw; cases hw; exact lt_irrefl _ hlt

theorem Chain.nodup {l : Link} {lo : WithBot α} {order : List Nat}
    (hc : Chain val data l lo order) : order.Nodup := by
  induction order generalizing l lo with
  | nil => exact List.nodup_nil
  | cons n rest ih =>
    obtain ⟨-, v, hv, -, hc⟩ := hc
    exact List.nodup_cons.mpr ⟨hc.not_mem hv, ih hc⟩

theorem Chain.sorted {l : Link} {lo : WithBot α} {order : List Nat}
    (hc : Chain val data l lo order) : (order.filterMap data).Sorted (· < ·) := by
  induction order generalizing l lo with
  | nil => exact List.sorted_nil
  | cons n rest ih =>
    obtain ⟨-, v, hv, -, hc⟩ := hc
    rw [List.filterMap_cons, hv]
    exact List.sorted_cons.mpr ⟨fun w hw => by exact_mod_cast hc.lt_of_mem_keys hw, ih hc⟩

theorem Chain.mem_of_val {l x : Link} {lo : WithBot α} {order : List Nat} {n : Nat}
    (hc : Chain val data l lo order) (hx : InChain l order x) (hn : val x = some n) :
    n ∈ order := by
  induction order generalizing l lo with
  | nil => rcases hx with rfl | ⟨m, hm, -⟩ <;> simp_all [Chain]
  | cons p rest ih =>
    obtain ⟨hl, v, -, -, hc⟩ := hc
    rcases inChain_cons.mp hx with rfl | hx
    · rw [hl] at hn; cases hn; exact List.mem_cons_self _ _
    · exact List.mem_cons_of_mem _ (ih hc hx)

theorem Chain.mem_keys_iff {l x : Link} {lo : WithBot α} {order : List Nat} {key : α}
    (hc : Chain val data l lo order) (hx : InChain l order x) (hs : Slot val data l lo key x) :
    key ∈ order.filterMap data ↔ ∃ n, val x = some n ∧ data n = some key := by
  induction order generalizing l lo with
  | nil =>
    rcases hx with rfl | ⟨m, hm, -⟩
    · simp_all [Chain]
    · simp at hm
  | cons p rest ih =>
    obtain ⟨hl, v, hv, hlo, hc⟩ := hc
    rw [List.filterMap_cons, hv, List.mem_cons]
    rcases inChain_cons.mp hx with rfl | hx
    · obtain ⟨w, hw, hle⟩ := hs.above p hl
      rw [hv] at hw; cases hw
      have hrest : key ∉ rest.filterMap data := fun h =>
        absurd (hc.lt_of_mem_keys h) (not_lt.mpr (by exact_mod_cast hle))
      simp only [hl, Option.some.injEq, exists_eq_left', hv, hrest, or_false]
      exact eq_comm
    · have hs' := hs.tail hv
      have hvk : v < key := by
        rcases hx with rfl | ⟨m, hm, rfl⟩
        · exact_mod_cast hs'.first rfl
        · obtain ⟨w, hw, hlt⟩ := hs.below m rfl
          obtain ⟨w', hw', hlt'⟩ := hc.data_of_mem hm
          rw [hw] at hw'; cases hw'
          exact (WithBot.coe_lt_coe.mp hlt').trans hlt
      rw [← ih hc hx hs']
      exact ⟨fun h => h.resolve_left (ne_of_gt hvk), .inr⟩

theorem Chain.slot_unique {l x y : Link} {lo : WithBot α} {order : List Nat} {key : α}
    (hc : Chain val data l lo order) (hx : InChain l order x) (hy : InChain l order y)
    (hsx : Slot val data l lo key x) (hsy : Slot val data l lo key y) : x = y := by
  induction order generalizing l lo with
  | nil =>
    rcases hx with rfl | ⟨m, hm, -⟩ <;> rcases hy with rfl | ⟨m', hm', -⟩ <;> simp_all
  | cons p rest ih =>
    obtain ⟨hl, v, hv, hlo, hc⟩ := hc
    have hkey : ∀ z, InChain (.next p) rest z → Slot val data l lo key z → v < key := by
      rintro z (rfl | ⟨m, hm, rfl⟩) hs
      · obtain ⟨w, hw, hlt⟩ := hs.below p rfl; rw [hv] at hw; cases hw; exact hlt
      · obtain ⟨w, hw, hlt⟩ := hs.below m rfl
        obtain ⟨w', hw', hlt'⟩ := hc.data_of_mem hm
        rw [hw] at hw'; cases hw'
        exact (WithBot.coe_lt_coe.mp hlt').trans hlt
    have hle : ∀ z, z = l → Slot val data l lo key z → key ≤ v := by
      rintro z rfl hs; obtain ⟨w, hw, hle⟩ := hs.above p hl; rw [hv] at hw; cases hw; exact hle
    rcases inChain_cons.mp hx with rfl | hx' <;> rcases inChain_cons.mp hy with rfl | hy'
    · rfl
    · exact absurd (hkey y hy' hsy) (not_lt.mpr (hle x rfl hsx))
    · exact absurd (hkey x hx' hsx) (not_lt.mpr (hle y rfl hsy))
    · exact ih hc hx' hy' (hsx.tail hv) (hsy.tail hv)

theorem Chain.congr {l : Link} {lo : WithBot α} {order : List Nat}
    (hc : Chain val data l lo order) (hval : ∀ x, InChain l order x → val' x = val x)
    (hdata : ∀ m ∈ order, data' m = data m) : Chain val' data' l lo order := by
  induction order generalizing l lo with
  | nil => simp only [Chain] at hc ⊢; rw [hval l (inChain_self _ _), hc]
  | cons p rest ih =>
    obtain ⟨hl, v, hv, hlo, hc⟩ := hc
    refine ⟨(hval l (inChain_self _ _)).trans hl, v, (hdata p (List.mem_cons_self _ _)).trans hv,
      hlo, ih hc (fun x hx => hval x (inChain_cons.mpr (.inr hx)))
        (fun m hm => hdata m (List.mem_cons_of_mem _ hm))⟩

theorem Chain.lt_of_val_next {l : Link} {lo : WithBot α} {order : List Nat} {m n : Nat} {v : α}
    (hc : Chain val data l lo order) (hm : m ∈ order) (hv : data m = some v)
    (hn : val (.next m) = some n) : ∃ w, data n = some w ∧ v < w := by
  induction order generalizing l lo with
  | nil => simp at hm
  | cons p rest ih =>
    obtain ⟨-, v', hv', -, hc⟩ := hc
    rcases List.mem_cons.mp hm with rfl | hm
    · rw [hv] at hv'; cases hv'
      cases rest with
      | nil => simp only [Chain] at hc; simp [hc] at hn
      | cons q rest =>
        obtain ⟨hq, w, hw, hlt, -⟩ := hc
        rw [hq] at hn; cases hn
        exact ⟨w, hw, by exact_mod_cast hlt⟩
    · exact ih hc hm

theorem Chain.val_next_ne {l : Link} {lo : WithBot α} {order : List Nat} {n : Nat}
    (hc : Chain val data l lo order) (hn : n ∈ order) : val (.next n) ≠ some n := fun h => by
  obtain ⟨v, hv, -⟩ := hc.data_of_mem hn
  obtain ⟨w, hw, hlt⟩ := hc.lt_of_val_next hn hv h
  rw [hv] at hw; cases hw; exact lt_irrefl _ hlt

theorem Chain.suffix {l x : Link} {lo : WithBot α} {order : List Nat}
    (hc : Chain val data l lo order) (hx : InChain l order x) :
    ∃ lo' rest, Chain val data x lo' rest := by
  induction order generalizing l lo with
  | nil =>
    rcases hx with rfl | ⟨m, hm, -⟩
    · exact ⟨lo, [], hc⟩
    · simp at hm
  | cons n rest ih =>
    rcases inChain_cons.mp hx with rfl | hx
    · exact ⟨lo, _, hc⟩
    · obtain ⟨-, v, -, -, hc⟩ := hc
      exact ih hc hx

theorem insertAtLink_perm {N : Nat} {l x : Link} {order : List Nat} (hx : InChain l order x) :
    (insertAtLink N x l order).Perm (N :: order) := by
  induction order generalizing l with
  | nil =>
    rcases hx with rfl | ⟨m, hm, -⟩
    · simp [insertAtLink]
    · simp at hm
  | cons p rest ih =>
    unfold insertAtLink
    split_ifs with hxl
    · rfl
    · have hx' := (inChain_cons.mp hx).resolve_left hxl
      exact ((ih hx').cons p).trans (List.Perm.swap N p rest)

theorem Chain.insert {l x : Link} {lo : WithBot α} {order : List Nat} {key : α} {N : Nat}
    (hc : Chain val data l lo order) (hx : InChain l order x) (hs : Slot val data l lo key x)
    (habs : ∀ n, val x = some n → data n ≠ some key)
    (hl : ∀ p, l = .next p → p ∉ order) (hN : N ∉ order) (hlN : l ≠ .next N) :
    Chain (Function.update (Function.update val (.next N) (val x)) x (some N))
      (Function.update data N (some key)) l lo (insertAtLink N x l order) := by
  have hxN : x ≠ .next N := by
    rcases hx with rfl | ⟨m, hm, rfl⟩
    · exact hlN
    · rintro ⟨⟩; exact hN hm
  induction order generalizing l lo with
  | nil =>
    obtain rfl : x = l := hx.resolve_right (by simp)
    simp only [Chain] at hc
    simp [insertAtLink, Chain, hs.first rfl, Function.update_noteq hxN.symm, hc]
  | cons p rest ih =>
    obtain ⟨hl0, v, hv, hlo, hct⟩ := hc
    have hpN : p ≠ N := fun h => hN (h ▸ List.mem_cons_self _ _)
    have hN' : N ∉ rest := fun h => hN (List.mem_cons_of_mem _ h)
    by_cases hxl : x = l
    · subst hxl
      obtain ⟨w, hw, hle⟩ := hs.above p hl0
      rw [hv] at hw; cases hw
      have hkv : key < v := lt_of_le_of_ne hle fun h => habs p hl0 (h ▸ hv)
      rw [insertAtLink, if_pos rfl]
      refine ⟨by simp, key, by simp, hs.first rfl, ?_⟩
      refine ⟨by simp [Function.update_noteq hxN.symm, hl0], v, by simp [hpN, hv],
        by exact_mod_cast hkv, hct.congr (fun z hz => ?_) (fun m hm => ?_)⟩
      · have hzx : z ≠ x := by
          rintro rfl
          rcases hz with rfl | ⟨m, hm, rfl⟩
          · exact hl p rfl (List.mem_cons_self _ _)
          · exact hl m rfl (List.mem_cons_of_mem _ hm)
        have hzN : z ≠ .next N := by
          rcases hz with rfl | ⟨m, hm, rfl⟩
          · exact fun h => hpN (Link.next.inj h)
          · exact fun h => by cases h; exact hN' hm
        simp [hzx, hzN]
      · exact Function.update_noteq (by rintro rfl; exact hN' hm) _ _
    · have hx' := (inChain_cons.mp hx).resolve_left hxl
      rw [insertAtLink, if_neg hxl]
      refine ⟨?_, v, by simp [hpN, hv], hlo, ih hct hx' (hs.tail hv) ?_ hN' ?_⟩
      · rw [Function.update_noteq (Ne.symm hxl), Function.update_noteq hlN, hl0]
      · rintro q ⟨⟩; exact hct.not_mem hv
      · exact fun h => hpN (Link.next.inj h)

theorem Chain.unlink {l x : Link} {lo : WithBot α} {order : List Nat} {n : Nat}
    (hc : Chain val data l lo order) (hx : InChain l order x) (hn : val x = some n)
    (hl : ∀ p, l = .next p → p ∉ order) :
    Chain (Function.update val x (val (.next n))) data l lo (order.erase n) := by
  induction order generalizing l lo with
  | nil =>
    obtain rfl : x = l := hx.resolve_right (by simp)
    simp only [Chain] at hc; simp [hc] at hn
  | cons p rest ih =>
    obtain ⟨hl0, v, hv, hlo, hct⟩ := hc
    have hp : p ∉ rest := hct.not_mem hv
    by_cases hxl : x = l
    · subst hxl
      have hpn : p = n := Option.some.inj (hl0.symm.trans hn)
      subst hpn
      rw [List.erase_cons_head]
      have hfar : ∀ z, InChain (.next p) rest z → z ≠ x := by
        rintro z (rfl | ⟨m, hm, rfl⟩) h
        · exact hl p h.symm (List.mem_cons_self _ _)
        · exact hl m h.symm (List.mem_cons_of_mem _ hm)
      cases rest with
      | nil => simp only [Chain] at hct ⊢; simp [hct]
      | cons q rest =>
        obtain ⟨hq, w, hw, hvw, hct'⟩ := hct
        refine ⟨by simp [hq], w, hw, hlo.trans hvw, hct'.congr (fun z hz => ?_) (fun _ _ => rfl)⟩
        exact Function.update_noteq (hfar z (inChain_cons.mpr (.inr hz))) _ _
    · have hx' := (inChain_cons.mp hx).resolve_left hxl
      have hpn : p ≠ n := fun h => hp (h ▸ hct.mem_of_val hx' hn)
      rw [List.erase_cons_tail (by simpa using hpn)]
      refine ⟨by rw [Function.update_noteq (Ne.symm hxl), hl0], v, hv, hlo, ih hct hx' ?_⟩
      rintro q ⟨⟩; exact hp

end Concur.ListSet

/-
Xv6/Lib/Radix.lean

Radix trees that are kept in a heap, and that they are maps.

A heap gives each node its row of entries, and `child` says to which node an entry
points.  A tree of level `l` is the node that it starts from; what the entries of level 0
say does not matter.  A key has an index for each level: `find` follows it down to a node
of level 0, and `get` is the entry that it has there.

Nothing in the heap says that a node belongs to one tree, or occurs in it once:
that the multiset `nodes` has no duplicates is what the lemmas need.

* `get_put`: a change to an entry of level 0 changes the map at one key.
* `Grown`: blank nodes are added on the way down, which leaves the map as it is.
* `All`: what the entries of each level satisfy, and that this is kept.

Each of them is about what is below one entry of the first node, and `Beside` says that
nothing else has changed.
-/
import Mathlib.Algebra.BigOperators.Group.Multiset.Defs
import Mathlib.Algebra.Order.BigOperators.Group.Finset
import Mathlib.Data.Fintype.BigOperators
import Mathlib.Tactic

namespace Xv6.Radix

open Function Multiset Option

variable {Node Ix E : Type} (child : E → Option Node)

/-- The node of level 0 that a key leads to. -/
def find (H : Node → Ix → E) (key : Nat → Ix) : Nat → Node → Option Node
  | 0, t => some t
  | l + 1, t => (child (H t (key (l + 1)))).bind (find H key l)

/-- The entry for a key; `z` if there is none. -/
def get (z : E) (H : Node → Ix → E) (key : Nat → Ix) (l : Nat) (t : Node) : E :=
  (find child H key l t).elim z fun g => H g (key 0)

/-- The entries of each level satisfy `P`. -/
def All (P : Nat → E → Prop) (H : Node → Ix → E) : Nat → Node → Prop
  | 0, t => ∀ i, P 0 (H t i)
  | l + 1, t => ∀ i, P (l + 1) (H t i) ∧ ∀ c, child (H t i) = some c → All P H l c

variable [Fintype Ix]

/-- The nodes of a tree. -/
def nodes (H : Node → Ix → E) : Nat → Node → Multiset Node
  | 0, t => {t}
  | l + 1, t => {t} + ∑ i, (child (H t i)).elim 0 (nodes H l)

/-- The nodes below an entry. -/
abbrev below (H : Node → Ix → E) (l : Nat) (t : Node) (i : Ix) : Multiset Node :=
  (child (H t i)).elim 0 (nodes child H l)

section Lemmas

variable {child} {H H' H'' : Node → Ix → E} {key key' : Nat → Ix} {l : Nat} {t c g : Node} {i j : Ix} {e z : E}
  {P : Nat → E → Prop}

theorem nodes_zero : nodes child H 0 t = {t} := rfl

theorem nodes_succ : nodes child H (l + 1) t = {t} + ∑ i, below child H l t i := rfl

theorem below_some (h : child (H t i) = some c) : below child H l t i = nodes child H l c := by
  rw [below, h]
  rfl

theorem below_none (h : child (H t i) = none) : below child H l t i = 0 := by
  rw [below, h]
  rfl

theorem self_mem : t ∈ nodes child H l t := by
  cases l with
  | zero => exact mem_singleton_self t
  | succ l => exact mem_add.mpr (.inl (mem_singleton_self t))

theorem below_le : below child H l t i ≤ ∑ i, below child H l t i :=
  Finset.single_le_sum (fun _ _ => zero_le _) (Finset.mem_univ i)

theorem below_le_nodes : below child H l t i ≤ nodes child H (l + 1) t :=
  below_le.trans (le_add_left _ _)

theorem mem_of_below (h : g ∈ below child H l t i) : g ∈ nodes child H (l + 1) t :=
  mem_of_le below_le_nodes h

section

variable (hn : (nodes child H (l + 1) t).Nodup)

include hn

/-- The first node is not below its entries. -/
theorem not_below : t ∉ below child H l t i := by
  intro h
  rw [nodes_succ, nodup_add] at hn
  exact disjoint_left.mp hn.2.2 (mem_singleton_self t) (mem_of_le below_le h)

/-- A node is below one entry only. -/
theorem below_unique [DecidableEq Ix] (hi : g ∈ below child H l t i) (hj : g ∈ below child H l t j) : i = j := by
  by_contra hij
  rw [nodes_succ, nodup_add] at hn
  have hsum : below child H l t i + below child H l t j ≤ ∑ i, below child H l t i := by
    rw [← Finset.sum_pair hij]
    exact Finset.sum_le_sum_of_subset (Finset.subset_univ _)
  exact disjoint_left.mp (nodup_add.mp (nodup_of_le hsum hn.2.1)).2.2 hi hj

theorem nodup_child (hc : child (H t i) = some c) : (nodes child H l c).Nodup := by
  rw [← below_some hc]
  exact nodup_of_le below_le_nodes hn

end

/-- The nodes, with those below one entry apart. -/
theorem nodes_split [DecidableEq Ix] (t : Node) (i : Ix) : nodes child H (l + 1) t =
    {t} + (below child H l t i + ∑ j ∈ Finset.univ.erase i, below child H l t j) := by
  rw [nodes_succ, Finset.add_sum_erase _ _ (Finset.mem_univ i)]

/-- A node that points to one other only. -/
theorem nodes_single [DecidableEq Ix] (hc : child (H t i) = some c) (h : ∀ j, j ≠ i → child (H t j) = none) :
    nodes child H (l + 1) t = {t} + nodes child H l c := by
  rw [nodes_split t i, below_some hc, Finset.sum_eq_zero fun j hj => below_none (h j (Finset.ne_of_mem_erase hj)), add_zero]

/-- A node that points to none. -/
theorem nodes_blank (h : ∀ j, child (H t j) = none) : nodes child H l t = {t} := by
  cases l with
  | zero => rfl
  | succ l => rw [nodes_succ, Finset.sum_eq_zero fun j _ => below_none (h j), add_zero]

/-! ### Heaps that agree -/

section

variable (h : ∀ g ∈ nodes child H l t, H' g = H g)

include h

theorem nodes_congr : nodes child H' l t = nodes child H l t := by
  induction l generalizing t with
  | zero => rfl
  | succ l ih =>
    rw [nodes_succ, nodes_succ]
    refine congrArg _ (Finset.sum_congr rfl fun i _ => ?_)
    rw [below, below, h t self_mem]
    rcases hc : child (H t i) with - | c
    · rfl
    · refine ih fun g hg => h g (mem_of_below (i := i) ?_)
      rwa [below_some hc]

theorem find_congr : find child H' key l t = find child H key l t := by
  induction l generalizing t with
  | zero => rfl
  | succ l ih =>
    rw [find, find, h t self_mem]
    rcases hc : child (H t (key (l + 1))) with - | c
    · rfl
    · refine ih fun g hg => h g (mem_of_below (i := key (l + 1)) ?_)
      rwa [below_some hc]

theorem All.congr (hs : All child P H l t) : All child P H' l t := by
  induction l generalizing t with
  | zero =>
    intro i
    rw [h t self_mem]
    exact hs i
  | succ l ih =>
    intro i
    rw [h t self_mem]
    refine ⟨(hs i).1, fun c hc => ih (fun g hg => h g (mem_of_below (i := i) ?_)) ((hs i).2 c hc)⟩
    rwa [below_some hc]

end

/-! ### Keys -/

omit [Fintype Ix] in
theorem find_succ (h : find child H key (l + 1) t = some g) :
    ∃ c, child (H t (key (l + 1))) = some c ∧ find child H key l c = some g := bind_eq_some_iff.mp h

omit [Fintype Ix] in
theorem find_some (hc : child (H t (key (l + 1))) = some c) : find child H key (l + 1) t = find child H key l c := by
  rw [find, hc]
  rfl

theorem find_mem (h : find child H key l t = some g) : g ∈ nodes child H l t := by
  induction l generalizing t with
  | zero =>
    obtain rfl := some.inj h
    exact self_mem
  | succ l ih =>
    obtain ⟨c, hc, hg⟩ := find_succ h
    refine mem_of_below (i := key (l + 1)) ?_
    rw [below_some hc]
    exact ih hg

theorem get_congr (h : ∀ g ∈ nodes child H l t, H' g = H g) : get child z H' key l t = get child z H key l t := by
  rw [get, get, find_congr h]
  rcases hg : find child H key l t with - | g
  · rfl
  · exact congrFun (h g (find_mem hg)) (key 0)

omit [Fintype Ix] in
theorem find_key (h : ∀ j, 0 < j → j ≤ l → key' j = key j) : find child H key' l t = find child H key l t := by
  induction l generalizing t with
  | zero => rfl
  | succ l ih =>
    rw [find, find, h (l + 1) (Nat.succ_pos l) le_rfl]
    exact congrArg _ (funext fun c => ih fun j h₁ h₂ => h j h₁ (h₂.trans (Nat.le_succ l)))

/-- **Other keys lead to other nodes.** -/
theorem find_inj [DecidableEq Ix] (hn : (nodes child H l t).Nodup) (h : find child H key l t = some g)
    (h' : find child H key' l t = some g) : ∀ j, 0 < j → j ≤ l → key' j = key j := by
  induction l generalizing t with
  | zero => exact fun j h₁ h₂ => absurd h₁ (Nat.not_lt.mpr h₂)
  | succ l ih =>
    obtain ⟨c, hc, hg⟩ := find_succ h
    obtain ⟨c', hc', hg'⟩ := find_succ h'
    have hkey : key' (l + 1) = key (l + 1) := by
      apply below_unique hn
      · rw [below_some hc']
        exact find_mem hg'
      · rw [below_some hc]
        exact find_mem hg
    obtain rfl : c' = c := by
      rw [hkey, hc] at hc'
      exact (some.inj hc').symm
    intro j h₁ h₂
    rcases Nat.le_succ_iff.mp h₂ with h₂ | rfl
    · exact ih (nodup_child hn hc) hg hg' j h₁ h₂
    · exact hkey

/-! ### Changes below one entry -/

/-- Nothing has changed beside what is below entry `i`. -/
structure Beside (child : E → Option Node) (H H' : Node → Ix → E) (l : Nat) (t : Node) (i : Ix) : Prop where
  row : ∀ j, j ≠ i → H' t j = H t j
  heap : ∀ j, j ≠ i → ∀ g ∈ below child H l t j, H' g = H g

section Beside

variable (h : Beside child H H' l t i)

include h

theorem Beside.heap_child (hj : j ≠ i) (hc : child (H t j) = some c) : ∀ g ∈ nodes child H l c, H' g = H g := fun g hg =>
  h.heap j hj g (by rwa [below_some hc])

theorem Beside.nodes [DecidableEq Ix] : Radix.nodes child H' (l + 1) t =
    {t} + (below child H' l t i + ∑ j ∈ Finset.univ.erase i, below child H l t j) := by
  rw [nodes_split t i]
  refine congrArg _ (congrArg _ (Finset.sum_congr rfl fun j hj => ?_))
  have hj' := Finset.ne_of_mem_erase hj
  rw [below, below, h.row j hj']
  rcases hc : child (H t j) with - | c
  · rfl
  · exact nodes_congr (h.heap_child hj' hc)

theorem Beside.find (hk : key (l + 1) ≠ i) : Radix.find child H' key (l + 1) t = Radix.find child H key (l + 1) t := by
  rw [Radix.find, Radix.find, h.row _ hk]
  rcases hc : child (H t (key (l + 1))) with - | c
  · rfl
  · exact find_congr (h.heap_child hk hc)

theorem Beside.found (hk : key (l + 1) ≠ i) (hg : Radix.find child H key (l + 1) t = some g) : H' g = H g := by
  obtain ⟨c, hc, hg'⟩ := find_succ hg
  exact h.heap_child hk hc g (find_mem hg')

theorem Beside.all [DecidableEq Ix] (hs : All child P H (l + 1) t) (hi : P (l + 1) (H' t i))
    (hc : ∀ c, child (H' t i) = some c → All child P H' l c) : All child P H' (l + 1) t := by
  intro j
  by_cases hj : j = i
  · rw [hj]
    exact ⟨hi, hc⟩
  · rw [h.row j hj]
    exact ⟨(hs j).1, fun c hc => ((hs j).2 c hc).congr (h.heap_child hj hc)⟩

end Beside

/-! ### One entry of level 0 -/

section Update

variable [DecidableEq Node] [DecidableEq Ix]

/-- The heap after entry `i` of node `g` has changed. -/
def put (H : Node → Ix → E) (g : Node) (i : Ix) (e : E) : Node → Ix → E :=
  update H g (update (H g) i e)

omit [Fintype Ix] in
@[simp] theorem put_self : put H g i e g i = e := by
  rw [put, update_self, update_self]

omit [Fintype Ix] in
theorem put_other (hj : j ≠ i) : put H g i e g j = H g j := by
  rw [put, update_self, update_of_ne hj]

omit [Fintype Ix] in
theorem put_ne (ht : t ≠ g) : put H g i e t = H t := update_of_ne ht ..

/-- A change to a node is below one entry. -/
theorem beside_put (hn : (nodes child H (l + 1) t).Nodup) (hg : find child H key (l + 1) t = some g) :
    t ≠ g ∧ Beside child H (put H g i e) l t (key (l + 1)) := by
  obtain ⟨c, hc, hgc⟩ := find_succ hg
  have hmem : g ∈ below child H l t (key (l + 1)) := by
    rw [below_some hc]
    exact find_mem hgc
  have ht : t ≠ g := by
    rintro rfl
    exact not_below hn hmem
  refine ⟨ht, fun j _ => by rw [put_ne ht], fun j hj g' hg' => put_ne ?_⟩
  rintro rfl
  exact hj (below_unique hn hg' hmem)

section

variable (hn : (nodes child H l t).Nodup) (hg : find child H key l t = some g)

include hn hg

/-- **A change at level 0 moves no node.** -/
theorem put_tree :
    nodes child (put H g i e) l t = nodes child H l t ∧
      ∀ key', find child (put H g i e) key' l t = find child H key' l t := by
  induction l generalizing t with
  | zero => exact ⟨rfl, fun _ => rfl⟩
  | succ l ih =>
    obtain ⟨ht, hb⟩ := beside_put (i := i) (e := e) hn hg
    obtain ⟨c, hc, hgc⟩ := find_succ hg
    have hc' : child (put H g i e t (key (l + 1))) = some c := by rw [put_ne ht, hc]
    obtain ⟨ih₁, ih₂⟩ := ih (nodup_child hn hc) hgc
    refine ⟨?_, fun key' => ?_⟩
    · rw [hb.nodes, nodes_split t (key (l + 1)), below_some hc', below_some hc, ih₁]
    by_cases hk : key' (l + 1) = key (l + 1)
    · rw [← hk] at hc hc'
      rw [find_some hc, find_some hc', ih₂]
    · exact hb.find hk

theorem All.put (he : P 0 e) (hs : All child P H l t) : All child P (put H g i e) l t := by
  induction l generalizing t with
  | zero =>
    obtain rfl := some.inj hg
    intro j
    by_cases hj : j = i
    · rw [hj, put_self]
      exact he
    · rw [put_other hj]
      exact hs j
  | succ l ih =>
    obtain ⟨ht, hb⟩ := beside_put (i := i) (e := e) hn hg
    obtain ⟨c, hc, hgc⟩ := find_succ hg
    refine hb.all hs ?_ fun c' hc' => ?_
    · rw [put_ne ht]
      exact (hs _).1
    · rw [put_ne ht, hc] at hc'
      rw [← some.inj hc']
      exact ih (nodup_child hn hc) hgc ((hs _).2 c hc)

/-- **The tree is a map**: a change to an entry is a change at its key. -/
theorem get_put (key' : Nat → Ix) :
    get child z (put H g (key 0) e) key' l t =
      if ∀ j, j ≤ l → key' j = key j then e else get child z H key' l t := by
  rw [get, get, (put_tree hn hg).2]
  by_cases hall : ∀ j, j ≤ l → key' j = key j
  · rw [if_pos hall, find_key fun j _ hj => hall j hj, hg]
    show Radix.put H g (key 0) e g (key' 0) = e
    rw [hall 0 (Nat.zero_le l), put_self]
  · rw [if_neg hall]
    rcases hg' : find child H key' l t with - | g'
    · rfl
    show Radix.put H g (key 0) e g' (key' 0) = H g' (key' 0)
    rcases eq_or_ne g' g with rfl | hgg
    · refine put_other fun h0 => hall fun j hj => ?_
      rcases Nat.eq_zero_or_pos j with rfl | hpos
      · exact h0
      · exact find_inj hn hg hg' j hpos hj
    · rw [put_ne hgg]

end

/-! ### Growth -/

/-- **Blank nodes have been added** where there were none: their entries are `z`, and `ptr c` is an entry that points to
`c`.  What a key found before, it finds still. -/
structure Grown (child : E → Option Node) (z : E) (ptr : Node → E) (H H' : Node → Ix → E) (l : Nat) (t : Node)
    (new : Multiset Node) : Prop where
  nodes : nodes child H' l t = nodes child H l t + new
  frame : ∀ g ∉ Radix.nodes child H l t, g ∉ new → H' g = H g
  keep : ∀ key g, find child H key l t = some g → find child H' key l t = some g ∧ H' g = H g
  fresh : ∀ key g, find child H key l t = none → find child H' key l t = some g → ∀ i, H' g i = z
  all : ∀ P : Nat → E → Prop, (∀ l, P l z) → (∀ l, ∀ c ∈ new, P (l + 1) (ptr c)) → All child P H l t → All child P H' l t

variable {ptr : Node → E} {new new' : Multiset Node}

omit [DecidableEq Node] [DecidableEq Ix] in
theorem Grown.refl (child : E → Option Node) (z : E) (ptr : Node → E) (H : Node → Ix → E) (l : Nat) (t : Node) :
    Grown child z ptr H H l t 0 where
  nodes := (add_zero _).symm
  frame _ _ _ := rfl
  keep _ _ h := ⟨h, rfl⟩
  fresh key g h h' := by
    rw [h] at h'
    cases h'
  all _ _ _ h := h

omit [DecidableEq Node] [DecidableEq Ix] in
theorem Grown.trans (h : Grown child z ptr H H' l t new) (h' : Grown child z ptr H' H'' l t new') :
    Grown child z ptr H H'' l t (new + new') where
  nodes := by rw [h'.nodes, h.nodes, add_assoc]
  frame g hg hn := by
    rw [mem_add, not_or] at hn
    rw [h'.frame g _ hn.2, h.frame g hg hn.1]
    rw [h.nodes, mem_add, not_or]
    exact ⟨hg, hn.1⟩
  keep key g hg := by
    obtain ⟨h₁, h₂⟩ := h.keep key g hg
    obtain ⟨h₃, h₄⟩ := h'.keep key g h₁
    exact ⟨h₃, h₄.trans h₂⟩
  fresh key g hnone hg := by
    rcases hmid : find child H' key l t with - | g'
    · exact h'.fresh key g hmid hg
    obtain ⟨h₁, h₂⟩ := h'.keep key g' hmid
    obtain rfl : g' = g := some.inj (h₁.symm.trans hg)
    rw [h₂]
    exact h.fresh key g' hnone hmid
  all P hz hptr hs := h'.all P hz (fun l c hc => hptr l c (mem_add.mpr (.inr hc)))
    (h.all P hz (fun l c hc => hptr l c (mem_add.mpr (.inl hc))) hs)

omit [DecidableEq Node] [DecidableEq Ix] in
/-- **Growth leaves the map as it is.** -/
theorem Grown.get (h : Grown child z ptr H H' l t new) (key : Nat → Ix) :
    Radix.get child z H' key l t = Radix.get child z H key l t := by
  rw [Radix.get, Radix.get]
  rcases hg : find child H key l t with - | g
  · rcases hg' : find child H' key l t with - | g'
    · rfl
    · exact h.fresh key g' hg hg' (key 0)
  · obtain ⟨h₁, h₂⟩ := h.keep key g hg
    rw [h₁]
    exact congrFun h₂ (key 0)

omit [DecidableEq Node] in
/-- **Growth below one entry.** -/
theorem Grown.lift (hn : (Radix.nodes child H (l + 1) t).Nodup) (hc : child (H t i) = some c)
    (hnew : ∀ g ∈ new, g ∉ Radix.nodes child H (l + 1) t) (h : Grown child z ptr H H' l c new) :
    Grown child z ptr H H' (l + 1) t new := by
  have hbelow : ∀ g, g ∉ below child H l t i → g ∉ new → H' g = H g := fun g hg hg' => by
    rw [below_some hc] at hg
    exact h.frame g hg hg'
  have ht : H' t = H t := hbelow t (not_below hn) fun hmem => hnew t hmem self_mem
  have hb : Beside child H H' l t i :=
    ⟨fun j _ => by rw [ht], fun j hj g hg => hbelow g (fun hg' => hj (below_unique hn hg hg')) fun hmem =>
      hnew g hmem (mem_of_below hg)⟩
  have hc' : child (H' t i) = some c := by rw [ht, hc]
  refine ⟨?_, fun g hg hg' => hbelow g (fun hmem => hg (mem_of_below hmem)) hg', fun key g hg => ?_,
    fun key g hnone hg => ?_, fun P hz hptr hs => ?_⟩
  · rw [hb.nodes, nodes_split t i, below_some hc', below_some hc, h.nodes]
    abel
  · by_cases hk : key (l + 1) = i
    · subst hk
      rw [find_some hc] at hg
      rw [find_some hc']
      exact h.keep key g hg
    · rw [hb.find hk]
      exact ⟨hg, hb.found hk hg⟩
  · by_cases hk : key (l + 1) = i
    · subst hk
      rw [find_some hc] at hnone
      rw [find_some hc'] at hg
      exact h.fresh key g hnone hg
    · rw [hb.find hk, hnone] at hg
      cases hg
  · refine hb.all hs ?_ fun c₁ hc₁ => ?_
    · rw [ht]
      exact (hs i).1
    · rw [← some.inj (hc'.symm.trans hc₁)]
      exact h.all P hz hptr ((hs i).2 c hc)

/-- **A blank node is attached** to an entry that points to none. -/
theorem Grown.attach (hn : (Radix.nodes child H (l + 1) t).Nodup) (hi : child (H t i) = none)
    (hc : c ∉ Radix.nodes child H (l + 1) t) (hptr : child (ptr c) = some c) (hz : child z = none)
    (hframe : ∀ g, g ≠ c → H' g = put H t i (ptr c) g) (hblank : ∀ j, H' c j = z) :
    Grown child z ptr H H' (l + 1) t {c} := by
  have htc : t ≠ c := fun h => hc (h ▸ self_mem)
  have hti : child (H' t i) = some c := by rw [hframe t htc, put_self, hptr]
  have hb : Beside child H H' l t i := by
    refine ⟨fun j hj => by rw [hframe t htc, put_other hj], fun j _ g hg => ?_⟩
    have hgc : g ≠ c := fun h => hc (h ▸ mem_of_below hg)
    have hgt : g ≠ t := by
      rintro rfl
      exact not_below hn hg
    rw [hframe g hgc, put_ne hgt]
  have hnone : ∀ j, child (H' c j) = none := fun j => by rw [hblank j, hz]
  have hnotfound : ∀ key, key (l + 1) = i → find child H key (l + 1) t = none := by
    rintro key rfl
    rw [find, hi]
    rfl
  refine ⟨?_, fun g hg hg' => ?_, fun key g hg => ?_, fun key g hn' hg => ?_, fun P hPz hPptr hs => ?_⟩
  · rw [hb.nodes, nodes_split t i, below_some hti, nodes_blank hnone, below_none hi]
    abel
  · have hgc : g ≠ c := fun h => hg' (mem_singleton.mpr h)
    have hgt : g ≠ t := by
      rintro rfl
      exact hg self_mem
    rw [hframe g hgc, put_ne hgt]
  · have hk : key (l + 1) ≠ i := fun hk => by
      rw [hnotfound key hk] at hg
      cases hg
    rw [hb.find hk]
    exact ⟨hg, hb.found hk hg⟩
  · by_cases hk : key (l + 1) = i
    · subst hk
      rw [find_some hti] at hg
      have hgc := find_mem hg
      rw [nodes_blank hnone, mem_singleton] at hgc
      rw [hgc]
      exact hblank
    · rw [hb.find hk, hn'] at hg
      cases hg
  · refine hb.all hs ?_ fun c₁ hc₁ => ?_
    · rw [hframe t htc, put_self]
      exact hPptr l c (mem_singleton_self c)
    rw [← some.inj (hti.symm.trans hc₁)]
    cases l with
    | zero =>
      intro j
      rw [hblank]
      exact hPz 0
    | succ l =>
      intro j
      refine ⟨by rw [hblank]; exact hPz _, fun c₂ hc₂ => ?_⟩
      rw [hnone] at hc₂
      cases hc₂

end Update

end Lemmas

-- a row can be long, and its sum is never to be computed
attribute [irreducible] nodes

end Xv6.Radix

/-
Xv6/Namex.lean

Path resolution: what `namex` returns, and what it leaves behind.

`components` are the pieces between the slashes, and `resolve` looks them up one by one.
Both say what is meant; `skipelem` and the loop of `namex` are compared with them.

While the loop goes down a path it has a reference to one inode, or to two when it has
found the next one.  `Holding` counts these references against the table as it was
before.  No `iput` in the loop frees an inode: an inode without links is in use by
somebody else.
-/
import Xv6.Dir

namespace Xv6.Sys

open Function List Option Prog

/-! ### Components -/

/-- The maximal pieces of a path without slashes, up to its NUL. -/
def components (path : Str) : List Str := ((path.takeWhile (· ≠ 0)).splitOn slash).filter (· ≠ [])

theorem elemsUpTo_slash (n : Nat) (path : Str) : elemsUpTo n (slash :: path) = elemsUpTo n path := by
  rw [← elemsUpTo_dropWhile, dropWhile_cons_of_pos (by simp), elemsUpTo_dropWhile]

/-- A component and what comes after it. -/
theorem components_append {w r : Str} (hne : w ≠ []) (hin : ∀ x ∈ w, x ≠ slash ∧ x ≠ 0)
    (hend : r = [] ∨ ∃ x r', r = x :: r' ∧ (x = slash ∨ x = 0)) : components (w ++ r) = w :: components r := by
  have hcut : (w ++ r).takeWhile (· ≠ 0) = w ++ r.takeWhile (· ≠ 0) :=
    takeWhile_append_of_pos fun x hx => by simpa using (hin x hx).2
  have hslash : ∀ x ∈ w, (x == slash) = false := fun x hx => by simpa using (hin x hx).1
  have hkeep : ∀ l : List Str, (w :: l).filter (· ≠ []) = w :: l.filter (· ≠ []) := fun l =>
    filter_cons_of_pos (by simpa using hne)
  have hlast : r.takeWhile (· ≠ 0) = [] → components (w ++ r) = w :: components r := fun h => by
    rw [components, components, hcut, h, append_nil, splitOn, splitOnP_eq_singleton hslash, hkeep]
    rfl
  rcases hend with rfl | ⟨x, r, rfl, rfl | rfl⟩
  · exact hlast rfl
  · rw [components, hcut, takeWhile_cons_of_pos (by decide), splitOn,
      splitOnP_append_cons_of_forall_mem hslash _ (by simp), hkeep]
    rfl
  · exact hlast (takeWhile_cons_of_neg (by simp))

/-- **`skipelem` takes the components off one by one**, cut to `DIRSIZ` bytes. -/
theorem elemsUpTo_eq (n : Nat) {path : Str} (h : path.length ≤ n) :
    elemsUpTo n path = (components path).map (take DIRSIZ) := by
  induction hlen : path.length using Nat.strong_induction_on generalizing path n with
  | _ len ih =>
    rcases path with - | ⟨c, path⟩
    · cases n with
      | zero | succ => rfl
    by_cases hc : c = slash
    · rw [hc, elemsUpTo_slash]
      exact ih path.length (by rw [← hlen]; exact Nat.lt_succ_self _) n (Nat.le_of_succ_le h) rfl
    obtain ⟨n, rfl⟩ : ∃ m, n = m + 1 := ⟨n - 1, by rw [length_cons] at h; omega⟩
    rw [elemsUpTo, skipelem, dropWhile_cons_of_neg (by simpa using hc)]
    by_cases h0 : c = 0
    · rw [h0]
      rfl
    rw [if_neg (show (c :: path).headD 0 ≠ 0 from h0)]
    dsimp only
    obtain ⟨w, hw⟩ : ∃ w, w = (c :: path).takeWhile fun c => c ≠ slash ∧ c ≠ 0 := ⟨_, rfl⟩
    obtain ⟨r, hr⟩ : ∃ r, r = (c :: path).dropWhile fun c => c ≠ slash ∧ c ≠ 0 := ⟨_, rfl⟩
    have hpath : c :: path = w ++ r := by rw [hw, hr, takeWhile_append_dropWhile]
    have hne : w ≠ [] := by
      rw [hw, takeWhile_cons_of_pos (by simp [hc, h0])]
      exact cons_ne_nil _ _
    have hin : ∀ x ∈ w, x ≠ slash ∧ x ≠ 0 := fun x hx => by
      rw [hw] at hx
      simpa using mem_takeWhile_imp hx
    have hlt : r.length < len := by
      have hl := congrArg length hpath
      rw [length_append] at hl
      have := length_pos_iff.mpr hne
      omega
    rw [← hw, ← hr, elemsUpTo_dropWhile, hpath]
    have hend : r = [] ∨ ∃ x r', r = x :: r' ∧ (x = slash ∨ x = 0) := by
      rcases hr' : r with - | ⟨x, r'⟩
      · exact .inl rfl
      have hx : ((c :: path).dropWhile fun c => c ≠ slash ∧ c ≠ 0) ≠ [] := by
        rw [← hr, hr']
        exact cons_ne_nil _ _
      have hnot := head_dropWhile_not (fun c => decide (c ≠ slash ∧ c ≠ 0)) hx
      simp only [← hr, hr', head_cons] at hnot
      exact .inr ⟨x, r', rfl, by simpa [or_iff_not_imp_left] using hnot⟩
    rw [components_append hne hin hend, map_cons, ih r.length hlt n (by rw [length_cons] at h hlen; omega) rfl]

theorem elems_eq (path : Str) : elems path = (components path).map (take DIRSIZ) := elemsUpTo_eq _ le_rfl

/-! ### Lookup -/

/-- The inode that a directory has for a name: that of the first entry in use with this name. -/
def lookup (data : Str) (name : Str) : Option Nat :=
  ((dirents data).find? (hits name)).map Dirent.inum

variable {data name : Str}

theorem lookup_of_first {j : Nat} (h : First data (hits name) 0 j) : lookup data name = some (dirent data j).inum := by
  have hfind : (dirents data).find? (hits name) = some (dirent data j) := by
    refine find?_eq_some_iff_getElem.mpr ⟨h.hit, j, h.lt, getElem_dirents h.lt, fun i hi => ?_⟩
    rw [getElem_dirents, h.before i (Nat.zero_le i) hi]
    rfl
  rw [lookup, hfind, map_some]

theorem lookup_of_absent (h : Absent data name) : lookup data name = none := by
  have hfind : (dirents data).find? (hits name) = none := by
    refine find?_eq_none.mpr fun de hde => ?_
    obtain ⟨j, hj, rfl⟩ := getElem_of_mem hde
    rw [getElem_dirents, h j hj]
    exact Bool.false_ne_true
  rw [lookup, hfind, map_none]

/-- The inode that is reached by looking up names one after the other. -/
def resolve (s : Kernel) : Nat → List Str → Option Nat
  | i, [] => some i
  | i, name :: rest =>
    if (s.ino i).fields.type = T_DIR then (lookup (s.ino i).data name).bind (resolve s · rest) else none

/-- What `namex` is to return: the inode, or the directory of the last name and the name. -/
def target (s : Kernel) (parent : Bool) (i : Nat) (names : List Str) : Option (Nat × Str) :=
  if parent then
    names.getLast?.bind fun name => (resolve s i names.dropLast).bind fun j =>
      if (s.ino j).fields.type = T_DIR then some (j, name) else none
  else (resolve s i names).map fun j => (j, [])

theorem target_last (s : Kernel) (i : Nat) (name : Str) :
    target s true i [name] = if (s.ino i).fields.type = T_DIR then some (i, name) else none := rfl

theorem target_cons (s : Kernel) (i : Nat) {parent : Bool} (name : Str) {rest : List Str} (hrest : ¬ (parent = true ∧ rest = [])) :
    target s parent i (name :: rest) =
      if (s.ino i).fields.type = T_DIR then (lookup (s.ino i).data name).bind (target s parent · rest) else none := by
  cases parent with
  | true =>
    have hne : rest ≠ [] := fun h => hrest ⟨rfl, h⟩
    have hlast : (name :: rest).getLast? = some (rest.getLast hne) := by
      rw [getLast?_cons, getLast?_eq_some_getLast hne, getD_some]
    unfold target
    rw [hlast, getLast?_eq_some_getLast hne, dropLast_cons_of_ne_nil hne]
    simp only [if_true, bind_some, resolve]
    by_cases hdir : (s.ino i).fields.type = T_DIR
    · rw [if_pos hdir, if_pos hdir, bind_assoc]
    · rw [if_neg hdir, if_neg hdir, bind_none]
  | false =>
    unfold target
    rw [if_neg Bool.false_ne_true, resolve]
    by_cases hdir : (s.ino i).fields.type = T_DIR
    · rw [if_pos hdir, if_pos hdir, map_bind]
      rfl
    · rw [if_neg hdir, if_neg hdir, map_none]

/-! ### References -/

/-- The inode is allocated, and it has links or somebody uses it. -/
def Present (s : Kernel) (i : Nat) : Prop :=
  (s.ino i).fields.type ≠ 0 ∧ ((s.ino i).fields.nlink ≠ 0 ∨ ∃ ip, 0 < (s.tab ip).ref ∧ (s.tab ip).inum = i)

/-- **A directory tree**, while no call is in progress: directories consist of whole entries, and an entry in use refers to
an inode that is there. -/
structure Tree (s : Kernel) : Prop where
  uniq : s.tab.Uniq
  unlocked : ∀ ip, s.lock ip = none
  used : ∀ ip, 0 < (s.tab ip).ref → (s.inode ip).fields.type ≠ 0
  size : ∀ i, (s.ino i).fields.type = T_DIR → Whole (s.ino i).data
  entry : ∀ i, (s.ino i).fields.type = T_DIR → ∀ de ∈ dirents (s.ino i).data, de.inum ≠ 0 → Present s de.inum
  root : Present s ROOTINO

/-- Two entries of the inode table are free. -/
def Room (s : Kernel) : Prop := ∃ e₁ e₂, e₁ ≠ e₂ ∧ (s.tab e₁).ref = 0 ∧ (s.tab e₂).ref = 0

/-- The failures of `namex`: panics, when there is no room. -/
def full (s : Kernel) (f : Option String) : Prop := ¬ Room s ∧ f.isSome

/-- The state is `s₀` but for the locks and the references `H` to inodes. -/
structure Holding (s₀ s : Kernel) (H : Multiset IPtr) : Prop where
  rest : s = { s₀ with tab := s.tab, lock := s.lock }
  ref : ∀ e, (s.tab e).ref = (s₀.tab e).ref + H.count e
  inum : ∀ e, 0 < (s₀.tab e).ref → (s.tab e).inum = (s₀.tab e).inum
  present : ∀ e ∈ H, Present s₀ (s.tab e).inum
  uniq : s.tab.Uniq

section Holding

variable {p : PPtr} {hint : Bool} {E : Option String → Prop} {s₀ s s' : Kernel} {H : Multiset IPtr} {ip : IPtr}

theorem Holding.ino (h : Holding s₀ s H) : s.ino = s₀.ino := by
  rw [h.rest]

theorem Holding.inode (h : Holding s₀ s H) (ip : IPtr) : s.inode ip = s₀.ino (s.tab ip).inum := by
  rw [Kernel.inode, h.ino]

theorem Holding.refl (ht : Tree s₀) : Holding s₀ s₀ 0 :=
  ⟨rfl, fun _ => by rw [Multiset.count_zero, Nat.add_zero], fun _ _ => rfl, fun e he => absurd he (Multiset.notMem_zero e), ht.uniq⟩

section

variable (h : Holding s₀ s H)

include h

theorem Holding.pos (hip : ip ∈ H) : 0 < (s.tab ip).ref := by
  have hcount := Multiset.count_pos.mpr hip
  rw [h.ref]
  omega

/-- An inode that one has is not freed by `iput`. -/
theorem Holding.kept (hip : ip ∈ H) :
    ¬ ((s.tab ip).ref = 1 ∧ (s.tab ip).valid = true ∧ (s.inode ip).fields.nlink = 0) := by
  rintro ⟨href, -, hlink⟩
  rw [h.inode] at hlink
  rcases (h.present ip hip).2 with hne | ⟨ip', href', hinum'⟩
  · exact hne hlink
  have hpos : 0 < (s.tab ip').ref := by
    rw [h.ref]
    omega
  obtain rfl : ip' = ip := h.uniq ip' ip hpos (h.pos hip) (by rw [h.inum ip' href', hinum'])
  have hcount := Multiset.count_pos.mpr hip
  rw [h.ref] at href
  omega

/-- The entry of one inode changes, and its reference count with what one has. -/
theorem Holding.setEntry {e : Entry Unit} {H' : Multiset IPtr} (hinum : e.inum = (s.tab ip).inum)
    (href : e.ref = (s₀.tab ip).ref + H'.count ip) (hother : ∀ e, e ≠ ip → H'.count e = H.count e)
    (hpresent : ip ∈ H' → Present s₀ (s.tab ip).inum) (hpos : 0 < e.ref → 0 < (s.tab ip).ref) :
    Holding s₀ (s.setEntry ip e) H' := by
  have hin := setEntry_inum s ip hinum
  have hre : ∀ e', e' ≠ ip → (s.setEntry ip e).tab e' = s.tab e' := fun e' he => update_of_ne he ..
  have hself : (s.setEntry ip e).tab ip = e := update_self ..
  have hused : ∀ e', 0 < ((s.setEntry ip e).tab e').ref → 0 < (s.tab e').ref := fun e' he' => by
    rcases eq_or_ne e' ip with rfl | he
    · rw [hself] at he'
      exact hpos he'
    · rwa [hre e' he] at he'
  refine ⟨?_, fun e' => ?_, fun e' he' => ?_, fun e' he' => ?_, fun e₁ e₂ h₁ h₂ h₁₂ => ?_⟩
  · rw [h.rest]
    rfl
  · rcases eq_or_ne e' ip with rfl | he
    · rw [hself, href]
    · rw [hre e' he, hother e' he, h.ref]
  · rw [hin, h.inum e' he']
  · rw [hin]
    rcases eq_or_ne e' ip with rfl | he
    · exact hpresent he'
    · refine h.present e' (Multiset.count_pos.mp ?_)
      rw [← hother e' he]
      exact Multiset.count_pos.mpr he'
  · rw [hin, hin] at h₁₂
    exact h.uniq e₁ e₂ (hused e₁ h₁) (hused e₂ h₂) h₁₂

theorem Holding.setLock (ip : IPtr) (q : Option PPtr) : Holding s₀ (s.setLock ip q) H :=
  ⟨by rw [h.rest]; rfl, h.ref, h.inum, h.present, h.uniq⟩

end

/-! ### The operations of `namex` -/

/-- `iget` of an inode that is there. -/
theorem Holding.iget (h : Holding s₀ s H) {i : Nat} (hi : Present s₀ i) (hcard : H.card ≤ 1) {Q : IPtr → Kernel → Prop}
    (hQ : ∀ ip s', Holding s₀ s' (ip ::ₘ H) → s'.lock = s.lock → (s'.tab ip).inum = i →
      (∀ e ∈ H, (s'.tab e).inum = (s.tab e).inum) → Q ip s') :
    (issue (.iget i)).wp (Runs p hint (full s₀)) s Q := by
  have hspec := Table.iget_spec s.tab i
  rcases hget : s.tab.iget i with msg | ⟨ip, tab⟩
  · show Prog.Ends (full s₀) Q (perform p hint s (.iget i))
    rw [perform, hget]
    refine ⟨?_, rfl⟩
    -- With two free entries and one of them taken, `iget` finds the other.
    rintro ⟨e₁, e₂, hne, h₁, h₂⟩
    obtain ⟨e, he⟩ : ∃ e, (s.tab e).ref = 0 := by
      by_cases hmem : e₁ ∈ H
      · refine ⟨e₂, ?_⟩
        obtain ⟨H₁, rfl⟩ := Multiset.exists_cons_of_mem hmem
        rw [Multiset.card_cons] at hcard
        obtain rfl := Multiset.card_eq_zero.mp (show H₁.card = 0 by omega)
        rw [h.ref, h₂, Multiset.count_cons_of_ne hne.symm, Multiset.count_zero]
      · exact ⟨e₁, by rw [h.ref, h₁, Multiset.count_eq_zero_of_notMem hmem]⟩
    obtain ⟨e', t', hok, -⟩ := Table.iget_ok s.tab i ⟨e, he⟩
    rw [hok] at hget
    cases hget
  · have hgot : s.tab.Got i ip tab := hspec.of_ok hget
    have hkeep : ∀ e ∈ H, (tab e).inum = (s.tab e).inum := fun e he => (hgot.keeps (h.pos he)).1
    refine Runs.op (show perform p hint s (.iget i) = .ok (s.setTab tab, ip) by rw [perform, hget]) ?_
    refine hQ ip (s.setTab tab) ⟨?_, fun e => ?_, fun e he => ?_, fun e he => ?_, hgot.uniq h.uniq⟩ rfl hgot.entry.1 hkeep
    · rw [h.rest]
      rfl
    · show (tab e).ref = _
      rw [hgot.ref, h.ref, Multiset.count_cons, Nat.add_assoc]
    · have hpos : 0 < (s.tab e).ref := by
        rw [h.ref]
        omega
      exact (hgot.keeps hpos).1.trans (h.inum e he)
    · show Present s₀ (tab e).inum
      rcases Multiset.mem_cons.mp he with rfl | he
      · rw [hgot.entry.1]
        exact hi
      · rw [hkeep e he]
        exact h.present e he

/-- What `ilock`, `iunlock` and `iput` leave of the table: the inodes of its entries. -/
structure Holding.Next (h : Holding s₀ s H) (H' : Multiset IPtr) (lock : IPtr → Option PPtr) (s' : Kernel) : Prop where
  holding : Holding s₀ s' H'
  lock : s'.lock = lock
  inum : ∀ e, (s'.tab e).inum = (s.tab e).inum

variable {Q : Unit → Kernel → Prop}

section

variable (h : Holding s₀ s H) (hip : ip ∈ H)

include h hip

/-- `ilock` of an inode that one has and nobody has locked. -/
theorem Holding.ilock (hfree : s.lock ip = none) (hQ : ∀ s', h.Next H (update s.lock ip (some p)) s' → Q () s') :
    (issue (.ilock ip)).wp (Runs p hint E) s Q := by
  have hpos := h.pos hip
  have htype : (s.inode ip).fields.type ≠ 0 := by
    rw [h.inode]
    exact (h.present ip hip).1
  have hlocked := h.setLock ip (some p)
  by_cases hvalid : (s.tab ip).valid = true
  · have hop : perform p hint s (.ilock ip) = .ok (s.setLock ip (some p), ()) := by
      rw [perform, if_neg (by omega), if_neg (fun hn => hn hfree), if_pos hvalid]
    exact Runs.op hop (hQ _ ⟨hlocked, rfl, fun _ => rfl⟩)
  · have hop : perform p hint s (.ilock ip)
        = .ok ((s.setLock ip (some p)).setEntry ip ((s.tab ip).setValid true), ()) := by
      rw [perform, if_neg (by omega), if_neg (fun hn => hn hfree), if_neg hvalid, if_neg htype]
    refine Runs.op hop (hQ _ ⟨?_, rfl, fun e => ?_⟩)
    · exact hlocked.setEntry rfl (h.ref ip) (fun _ _ => rfl) (fun _ => h.present ip hip) fun _ => hpos
    · exact setEntry_inum (s.setLock ip (some p)) ip (e := (s.tab ip).setValid true) rfl e

/-- `iunlock` of an inode that one has locked. -/
theorem Holding.iunlock (hlock : s.lock ip = some p) (hQ : ∀ s', h.Next H (update s.lock ip none) s' → Q () s') :
    (issue (.iunlock ip)).wp (Runs p hint E) s Q := by
  have hpos := h.pos hip
  have hop : perform p hint s (.iunlock ip) = .ok (s.setLock ip none, ()) := by
    rw [perform, if_neg]
    rintro (hne | hlt)
    · exact hne hlock
    · omega
  exact Runs.op hop (hQ _ ⟨h.setLock ip none, rfl, fun _ => rfl⟩)

/-- `iput` of an inode that one has. -/
theorem Holding.iput (hQ : ∀ s', h.Next (H.erase ip) s.lock s' → Q () s') : (Sys.iput ip).wp (Runs p hint E) s Q := by
  have hpos := h.pos hip
  have hcount := Multiset.count_pos.mpr hip
  refine Runs.iput (h.kept hip) (hQ _ ⟨h.setEntry rfl ?_ (fun e he => ?_) (fun _ => h.present ip hip) fun _ => hpos, rfl,
    setEntry_inum s ip rfl⟩)
  · show (s.tab ip).ref - 1 = _
    rw [h.ref, Multiset.count_erase_self]
    omega
  · exact Multiset.count_erase_of_ne he H

/-- `iunlockput` of an inode that one has locked. -/
theorem Holding.iunlockput (hlock : s.lock ip = some p)
    (hQ : ∀ s', h.Next (H.erase ip) (update s.lock ip none) s' → Q () s') :
    (Sys.iunlockput ip).wp (Runs p hint E) s Q := by
  refine h.iunlock hip hlock fun s₁ h₁ => h₁.holding.iput hip fun s₂ h₂ => ?_
  exact hQ s₂ ⟨h₂.holding, h₂.lock.trans h₁.lock, fun e => (h₂.inum e).trans (h₁.inum e)⟩

end

/-- `dirlookup` in a directory that one has locked. -/
theorem Holding.dirlookup (ht : Tree s₀) (h : Holding s₀ s {ip}) (hdir : (s₀.ino (s.tab ip).inum).fields.type = T_DIR)
    {Q : Option (IPtr × Nat) → Kernel → Prop}
    (hnone : lookup (s₀.ino (s.tab ip).inum).data name = none → Q none s)
    (hsome : ∀ i next off s', lookup (s₀.ino (s.tab ip).inum).data name = some i →
      Holding s₀ s' (next ::ₘ {ip}) → s'.lock = s.lock → (s'.tab next).inum = i →
      (s'.tab ip).inum = (s.tab ip).inum → Q (some (next, off)) s') :
    (Sys.dirlookup ip name).wp (Runs p hint (full s₀)) s Q := by
  have hnode := h.inode ip
  refine Runs.dirlookup (hnode ▸ ht.size _ hdir) (by rw [hnode, hdir]) (fun j hj => ?_) fun hno => ?_
  · rw [hnode] at hj ⊢
    have hhit : (dirent (s₀.ino (s.tab ip).inum).data j).inum ≠ 0 ∧ _ := of_decide_eq_true hj.hit
    have hmem : dirent (s₀.ino (s.tab ip).inum).data j ∈ dirents (s₀.ino (s.tab ip).inum).data := by
      rw [← getElem_dirents hj.lt]
      exact getElem_mem hj.lt
    have hpresent := ht.entry _ hdir _ hmem hhit.1
    refine h.iget hpresent (by rw [Multiset.card_singleton]) fun next s' h' hlock' hnext hkeep => ?_
    exact hsome _ next _ s' (lookup_of_first hj) h' hlock' hnext (hkeep ip (Multiset.mem_singleton_self ip))
  · rw [hnode] at hno
    exact hnone (lookup_of_absent hno)

/-! ### The loop -/

/-- The reference that comes with a result of `namex`. -/
def held : Option (IPtr × Str) → Multiset IPtr
  | none => 0
  | some x => {x.1}

/-- The inode number and the name in a result of `namex`. -/
def named (s : Kernel) (r : Option (IPtr × Str)) : Option (Nat × Str) := r.map fun x => ((s.tab x.1).inum, x.2)

/-- What `namex` leaves when its result is to be `x`. -/
def Resolved (s₀ : Kernel) (x : Option (Nat × Str)) (r : Option (IPtr × Str)) (s : Kernel) : Prop :=
  Holding s₀ s (held r) ∧ (∀ e, s.lock e = none) ∧ named s r = x

/-- The end of a lookup that fails. -/
theorem Holding.fail (h : Holding s₀ s {ip}) (hlock : s.lock = update (fun _ => none) ip (some p))
    {x : Option (Nat × Str)} (hx : x = none) :
    (do Sys.iunlockput ip; return none : FsProg (Option (IPtr × Str))).wp (Runs p hint E) s (Resolved s₀ x) := by
  rw [wp_bind]
  refine h.iunlockput (Multiset.mem_singleton_self ip) (by rw [hlock, update_self]) fun s' h' => ⟨?_, fun e => ?_, ?_⟩
  · have hh := h'.holding
    rwa [Multiset.erase_singleton] at hh
  · rw [h'.lock, hlock, update_idem, update_eq_self]
  · exact hx.symm

/-- **The loop of `namex`** goes down the path from an inode that one has. -/
theorem Holding.namexLoop (ht : Tree s₀) (parent : Bool) (names : List Str) (h : Holding s₀ s {ip})
    (hlock : s.lock = fun _ => none) :
    (Sys.namexLoop parent ip names).wp (Runs p hint (full s₀)) s
      (Resolved s₀ (target s₀ parent (s.tab ip).inum names)) := by
  have hmem : ∀ ip : IPtr, ip ∈ ({ip} : Multiset IPtr) := Multiset.mem_singleton_self
  induction names generalizing s ip with
  | nil =>
    rw [Sys.namexLoop]
    cases parent with
    | true =>
      rw [if_pos rfl, wp_bind]
      refine h.iput (hmem ip) fun s' h' => ⟨?_, fun e => by rw [h'.lock, hlock], rfl⟩
      have hh := h'.holding
      rwa [Multiset.erase_singleton] at hh
    | false =>
      exact ⟨h, fun e => by rw [hlock], rfl⟩
  | cons name rest ih =>
    rw [Sys.namexLoop, wp_bind]
    refine h.ilock (hmem ip) (by rw [hlock]) fun s₁ h₁ => ?_
    have hlock₁ : s₁.lock = update (fun _ => none) ip (some p) := by rw [h₁.lock, hlock]
    have hself : s₁.lock ip = some p := by rw [hlock₁, update_self]
    have hin : (s₁.tab ip).inum = (s.tab ip).inum := h₁.inum ip
    rw [wp_bind]
    refine Runs.op rfl ?_
    rw [h₁.holding.inode, hin]
    by_cases hdir : (s₀.ino (s.tab ip).inum).fields.type = T_DIR
    · rw [if_neg (fun hn => hn hdir)]
      by_cases hlast : parent = true ∧ rest = []
      · -- Stop one level early.
        obtain ⟨rfl, rfl⟩ := hlast
        refine h₁.holding.iunlock (hmem ip) hself fun s₂ h₂ => ⟨h₂.holding, fun e => ?_, ?_⟩
        · rw [h₂.lock, hlock₁, update_idem, update_eq_self]
        · show some ((s₂.tab ip).inum, name) = _
          rw [h₂.inum, hin, target_last, if_pos hdir]
      · rw [if_neg hlast, wp_bind, target_cons _ _ _ hlast, if_pos hdir]
        refine h₁.holding.dirlookup ht (by rw [hin, hdir]) (fun hnone => ?_) fun i next off s₂ hsome h₂ hlock₂ hnext hin₂ => ?_
        · rw [hin] at hnone
          rw [hnone]
          exact h₁.holding.fail hlock₁ rfl
        · rw [hin] at hsome
          rw [hsome]
          refine (wp_bind _ _ _ _).mpr ?_
          refine h₂.iunlockput (Multiset.mem_cons_of_mem (hmem ip)) (by rw [hlock₂, hself]) fun s₃ h₃ => ?_
          have hh : Holding s₀ s₃ {next} := by
            have hh := h₃.holding
            have herase : (next ::ₘ {ip} : Multiset IPtr).erase ip = {next} := by
              rw [← Multiset.singleton_add, Multiset.add_comm, Multiset.singleton_add, Multiset.erase_cons_head]
            rwa [herase] at hh
          have hlock₃ : s₃.lock = fun _ => none := by
            rw [h₃.lock, hlock₂, hlock₁, update_idem]
            exact update_eq_self ip _
          have hrest := ih hh hlock₃
          rwa [h₃.inum, hnext] at hrest
    · rw [if_pos hdir]
      refine h₁.holding.fail hlock₁ ?_
      by_cases hlast : parent = true ∧ rest = []
      · obtain ⟨rfl, rfl⟩ := hlast
        rw [target_last, if_neg hdir]
      · rw [target_cons _ _ _ hlast, if_neg hdir]

end Holding

/-! ### The result -/

/-- The references to an inode. -/
def refs (t : Table Unit) (i : Nat) : Nat := ∑ e, if (t e).inum = i then (t e).ref else 0

/-- Where a path starts, for a process with current directory `cwd`. -/
def start (s : Kernel) (cwd : IPtr) (path : Str) : Nat := if path.headD 0 = slash then ROOTINO else (s.tab cwd).inum

section Result

variable {p : PPtr} {hint : Bool} {s₀ s s' : Kernel} {r : Option (IPtr × Str)}

/-- Nothing but the reference of the result is left. -/
theorem Holding.refs (h : Holding s₀ s (held r)) (i : Nat) :
    Sys.refs s.tab i = Sys.refs s₀.tab i + if (named s r).map Prod.fst = some i then 1 else 0 := by
  have hold : ∀ e, (if (s.tab e).inum = i then (s.tab e).ref else 0)
      = (if (s₀.tab e).inum = i then (s₀.tab e).ref else 0)
        + if (s.tab e).inum = i then (held r).count e else 0 := by
    intro e
    rw [h.ref]
    by_cases h0 : 0 < (s₀.tab e).ref
    · rw [← h.inum e h0]
      split_ifs <;> omega
    · split_ifs <;> omega
  have hone : (∑ e, if (s.tab e).inum = i then (held r).count e else 0)
      = if (named s r).map Prod.fst = some i then 1 else 0 := by
    cases r with
    | none =>
      refine Finset.sum_eq_zero fun e _ => ?_
      rw [show held none = 0 from rfl, Multiset.count_zero, ite_self]
    | some x =>
      rw [Finset.sum_eq_single x.1 (fun e _ he => ?_) fun hx => absurd (Finset.mem_univ _) hx]
      · rw [show held (some x) = {x.1} from rfl, Multiset.count_singleton_self]
        refine if_congr ?_ rfl rfl
        exact some_inj.symm
      · rw [show held (some x) = {x.1} from rfl, Multiset.count_singleton, if_neg he, ite_self]
  rw [Sys.refs, Sys.refs, Finset.sum_congr rfl fun e _ => hold e, Finset.sum_add_distrib, hone]

theorem namex_spec (ht : Tree s₀) {cwd : IPtr} (hcwd : (s₀.proc p).cwd = some cwd) (href : 0 < (s₀.tab cwd).ref)
    (path : Str) (parent : Bool) :
    (namex path parent).wp (Runs p hint (full s₀)) s₀
      (Resolved s₀ (target s₀ parent (start s₀ cwd path) ((components path).map (take DIRSIZ)))) := by
  have hfree : s₀.lock = fun _ => none := funext ht.unlocked
  unfold namex start
  rw [elems_eq]
  by_cases habs : path.headD 0 = slash
  · rw [if_pos habs, if_pos habs]
    refine (Holding.refl ht).iget ht.root (Nat.zero_le 1) fun ip s' h hlock hinum _ => ?_
    rw [← hinum]
    exact h.namexLoop ht parent _ (hlock.trans hfree)
  · rw [if_neg habs, if_neg habs]
    refine Runs.op (show perform p hint s₀ .cwd = .ok (s₀, cwd) by rw [perform, hcwd]) ?_
    refine Runs.op rfl ?_
    have hdup : Holding s₀ (s₀.setEntry cwd (s₀.tab cwd).dup) {cwd} := by
      refine (Holding.refl ht).setEntry rfl ?_ (fun e he => ?_) (fun _ => ?_) fun _ => href
      · rw [Multiset.count_singleton_self]
        rfl
      · rw [Multiset.count_singleton, if_neg he, Multiset.count_zero]
      · exact ⟨ht.used cwd href, .inr ⟨cwd, href, rfl⟩⟩
    rw [← setEntry_inum s₀ cwd (e := (s₀.tab cwd).dup) rfl cwd]
    exact hdup.namexLoop ht parent _ hfree

theorem tree_boot : Tree (boot 10 rootIno) := by
  have hfree : ∀ e : IPtr, 0 < (bootTab e).ref → e = ⟨0, NINODE_pos⟩ := by decide
  have hdir : ∀ i, (rootIno i).fields.type = T_DIR → i = ROOTINO := fun i hi => by
    by_contra hne
    rw [rootIno, if_neg hne] at hi
    exact absurd hi (by decide)
  have hroot : Present (boot 10 rootIno) ROOTINO := ⟨by decide, .inl (by decide)⟩
  refine ⟨fun e e' he he' _ => (hfree e he).trans (hfree e' he').symm, fun _ => rfl, fun e he => ?_, fun i hi => ?_,
    fun i hi de hde _ => ?_, hroot⟩
  · rw [hfree e he]
    decide
  · rw [hdir i hi]
    exact ⟨by decide, by decide⟩
  · have hentries : ∀ de ∈ dirents (rootIno ROOTINO).data, de.inum = ROOTINO := by decide
    rw [hdir i hi] at hde
    rw [hentries de hde]
    exact hroot

end Result

end Xv6.Sys

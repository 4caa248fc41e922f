/-
Xv6/Dirent.lean

Names, directory entries and paths as bytes.

A name in a directory entry is a field of DIRSIZ bytes, padded with zeros and
without a terminator at full length.  A C string is a list of bytes that reads
as zero behind its end.  What `namecmp` distinguishes of either is `cut`: the
bytes before the first zero, DIRSIZ of them at most.  `namecmp_eq_zero` and
`cut_strncpy` are all that the rest of the development needs to know of
`strncmp` and `strncpy`.
-/
import Xv6.FsLayout
import Mathlib.Data.List.DropRight
import Mathlib.Data.List.TakeWhile

namespace Xv6

open Bytes List

/-- The length of a name in a directory entry. -/
def DIRSIZ : Nat := 14

/-- The size of `struct dirent`. -/
def DIRENT : Nat := 2 + DIRSIZ

/-- A C string, or the bytes of a name field. -/
abbrev Str : Type := List UInt8

/-! ### Comparing and copying names -/

/-- Compare at most `n` bytes. -/
def strncmp : Str → Str → Nat → Int
  | _, _, 0 => 0
  | p, q, n + 1 =>
    if p.headD 0 ≠ 0 ∧ p.headD 0 = q.headD 0 then strncmp p.tail q.tail n
    else (p.headD 0).toNat - (q.headD 0).toNat

/-- The `n` bytes that copying `t` leaves: padded with zeros, and not terminated when
`t` has no zero among its first `n` bytes. -/
def strncpy : Str → Nat → Str
  | _, 0 => []
  | t, n + 1 =>
    if t.headD 0 = 0 then List.replicate (n + 1) 0
    else t.headD 0 :: strncpy t.tail n

/-- Compare two names. -/
def namecmp (s t : Str) : Int := strncmp s t DIRSIZ

/-- The part of a string that a copy of `n` bytes keeps. -/
def cutAt (n : Nat) (s : Str) : Str := (s.take n).takeWhile (· ≠ 0)

/-- A name cut to what a directory entry can hold. -/
def cut (s : Str) : Str := cutAt DIRSIZ s

variable {n : Nat} {s t path name : Str}

theorem cutAt_succ_of_zero (h : s.headD 0 = 0) : cutAt (n + 1) s = [] := by
  cases s with
  | nil => rfl
  | cons a s =>
    obtain rfl : a = 0 := h
    simp [cutAt]

theorem cutAt_succ_of_ne (h : s.headD 0 ≠ 0) : cutAt (n + 1) s = s.headD 0 :: cutAt n s.tail := by
  cases s with
  | nil => exact absurd rfl h
  | cons a s =>
    have ha : a ≠ 0 := h
    simp [cutAt, ha]

/-- `strncmp` tells two strings apart exactly by what a copy would keep of them. -/
theorem strncmp_eq_zero : strncmp s t n = 0 ↔ cutAt n s = cutAt n t := by
  induction n generalizing s t with
  | zero => simp [strncmp, cutAt]
  | succ n ih =>
    rw [strncmp]
    by_cases hs : s.headD 0 = 0 <;> by_cases ht : t.headD 0 = 0
    · rw [if_neg (fun h => h.1 hs), cutAt_succ_of_zero hs, cutAt_succ_of_zero ht, hs, ht]
      simp
    · -- only `s` ends here
      have hne : (t.headD 0).toNat ≠ 0 := fun h => ht (UInt8.toNat_inj.mp h)
      rw [if_neg (fun h => h.1 hs), cutAt_succ_of_zero hs, cutAt_succ_of_ne ht, hs]
      simpa using hne
    · have hne : (s.headD 0).toNat ≠ 0 := fun h => hs (UInt8.toNat_inj.mp h)
      rw [if_neg (fun h => hs (h.2.trans ht)), cutAt_succ_of_ne hs, cutAt_succ_of_zero ht, ht]
      simpa using hne
    · rw [cutAt_succ_of_ne hs, cutAt_succ_of_ne ht]
      by_cases heq : s.headD 0 = t.headD 0
      · rw [if_pos ⟨hs, heq⟩, ih, heq]
        simp
      have hne : ((s.headD 0).toNat : Int) - (t.headD 0).toNat ≠ 0 := by
        intro h
        exact heq (UInt8.toNat_inj.mp (by omega))
      rw [if_neg (fun h => heq h.2)]
      exact ⟨fun h => absurd h hne, fun h => absurd (List.cons.inj h).1 heq⟩

theorem namecmp_eq_zero : namecmp s t = 0 ↔ cut s = cut t := strncmp_eq_zero

@[simp] theorem strncpy_length (t : Str) (n : Nat) : (strncpy t n).length = n := by
  induction n generalizing t with
  | zero => rfl
  | succ n ih =>
    rw [strncpy]
    split
    · simp
    · simp [ih]

theorem cutAt_strncpy (t : Str) (n : Nat) : cutAt n (strncpy t n) = cutAt n t := by
  induction n generalizing t with
  | zero => simp [cutAt]
  | succ n ih =>
    by_cases ht : t.headD 0 = 0
    · rw [strncpy, if_pos ht, cutAt_succ_of_zero ht, cutAt_succ_of_zero rfl]
    · have hhead : (t.headD 0 :: strncpy t.tail n).headD 0 ≠ 0 := ht
      rw [strncpy, if_neg ht, cutAt_succ_of_ne hhead, cutAt_succ_of_ne ht]
      exact congrArg _ (ih t.tail)

/-- The name field that `strncpy` writes is read back as the name it was given. -/
theorem cut_strncpy (t : Str) : cut (strncpy t DIRSIZ) = cut t := cutAt_strncpy t DIRSIZ

/-! ### Directory entries -/

/-- A directory entry. -/
structure Dirent where
  inum : Nat
  name : Str
  deriving DecidableEq, Repr

namespace Dirent

/-- The entry as it lies in a directory: a `ushort` and the name field. -/
def bytes (de : Dirent) : Str := toLE 2 de.inum ++ strncpy de.name DIRSIZ

/-- The entry that some bytes hold. -/
def ofBytes (l : Str) : Dirent := { inum := ofLE (l.take 2), name := l.drop 2 }

/-- The entry that `sys_unlink` overwrites a directory entry with. -/
def zero : Dirent := { inum := 0, name := [] }

@[simp] theorem bytes_length (de : Dirent) : de.bytes.length = DIRENT := by
  simp [bytes, DIRENT]

@[simp] theorem ofBytes_bytes_inum (de : Dirent) : (ofBytes de.bytes).inum = de.inum % 2 ^ 16 := by
  simp [ofBytes, bytes, ofLE_toLE]

@[simp] theorem ofBytes_bytes_name (de : Dirent) : (ofBytes de.bytes).name = strncpy de.name DIRSIZ := by
  simp [ofBytes, bytes]

end Dirent

/-! ### Paths -/

/-- The character between the elements of a path. -/
def slash : UInt8 := 47

/-- Copy the next path element out of a path: the element, cut to DIRSIZ bytes, and the
path behind it, which has no leading slashes. -/
def skipelem (path : Str) : Option (Str × Str) :=
  let s := path.dropWhile (· = slash)
  if s.headD 0 = 0 then none
  else some ((s.takeWhile fun c => c ≠ slash ∧ c ≠ 0).take DIRSIZ,
    (s.dropWhile fun c => c ≠ slash ∧ c ≠ 0).dropWhile (· = slash))

/-- The first `n` elements of a path. -/
def elemsUpTo : Nat → Str → List Str
  | 0, _ => []
  | n + 1, path =>
    match skipelem path with
    | none => []
    | some (name, path) => name :: elemsUpTo n path

/-- The elements of a path, as `skipelem` takes them off one by one. -/
def elems (path : Str) : List Str := elemsUpTo path.length path

/-- A string that a path can have as an element, uncut. -/
structure IsElem (s : Str) : Prop where
  ne_nil : s ≠ []
  length_le : s.length ≤ DIRSIZ
  zero : 0 ∉ s
  slash : slash ∉ s

/-- Leading slashes are skipped. -/
theorem elemsUpTo_dropWhile (n : Nat) (path : Str) : elemsUpTo n (path.dropWhile (· = slash)) = elemsUpTo n path := by
  cases n with
  | zero => rfl
  | succ n => rw [elemsUpTo, elemsUpTo, skipelem, skipelem, dropWhile_idempotent]

theorem skipelem_elem (hs : IsElem s) : skipelem s = some (s, []) := by
  have hin : ∀ c ∈ s, decide (c ≠ slash ∧ c ≠ 0) = true := by
    intro c hc
    exact decide_eq_true ⟨fun h => hs.slash (h ▸ hc), fun h => hs.zero (h ▸ hc)⟩
  obtain ⟨c, t, rfl⟩ := exists_cons_of_ne_nil hs.ne_nil
  have hc := of_decide_eq_true (hin c mem_cons_self)
  rw [skipelem, dropWhile_cons_of_neg (by simpa using hc.1), if_neg (show (c :: t).headD 0 ≠ 0 from hc.2),
    takeWhile_eq_self_iff.mpr hin,
    take_of_length_le hs.length_le, dropWhile_eq_nil_iff.mpr hin]
  rfl

/-- Taking an element off a path does not depend on what is behind the next slash. -/
theorem skipelem_append (h0 : 0 ∉ path) {c : UInt8} (hs : path.dropWhile (· = slash) = c :: s) (rest : Str) :
    skipelem (path ++ slash :: rest) = some (((c :: s).takeWhile fun c => c ≠ slash ∧ c ≠ 0).take DIRSIZ,
      (((c :: s).dropWhile fun c => c ≠ slash ∧ c ≠ 0) ++ slash :: rest).dropWhile (· = slash)) := by
  have hzero : ∀ a ∈ c :: s, a ≠ 0 := by
    intro a ha h
    exact h0 (h ▸ (dropWhile_sublist (l := path) (· = slash)).subset (hs ▸ ha))
  have hdrop : (path ++ slash :: rest).dropWhile (· = slash) = (c :: s) ++ slash :: rest := by
    rw [dropWhile_append, hs]
    rfl
  have htake : ((c :: s) ++ slash :: rest).takeWhile (fun c => c ≠ slash ∧ c ≠ 0)
      = (c :: s).takeWhile fun c => c ≠ slash ∧ c ≠ 0 := by
    rw [takeWhile_append]
    split
    · next hlen =>
        rw [( takeWhile_prefix _).eq_of_length hlen, takeWhile_cons_of_neg (by simp), append_nil]
    · rfl
  have hrest : ((c :: s) ++ slash :: rest).dropWhile (fun c => c ≠ slash ∧ c ≠ 0)
      = ((c :: s).dropWhile fun c => c ≠ slash ∧ c ≠ 0) ++ slash :: rest := by
    rw [dropWhile_append]
    split
    · next hnil =>
        rw [isEmpty_iff.mp hnil, dropWhile_cons_of_neg (by simp)]
        rfl
    · rfl
  rw [skipelem, hdrop, if_neg (by simpa using hzero c mem_cons_self), htake, hrest]

section

variable (hname : IsElem name)

include hname

theorem elemsUpTo_elem (hn : 0 < n) : elemsUpTo n name = [name] := by
  obtain ⟨n, rfl⟩ := Nat.exists_eq_succ_of_ne_zero hn.ne'
  rw [elemsUpTo, skipelem_elem hname]
  cases n <;> rfl

theorem elemsUpTo_snoc (h0 : 0 ∉ path) {m : Nat} (hn : path.length ≤ n) (hm : path.length < m) :
    elemsUpTo m (path ++ slash :: name) = elemsUpTo n path ++ [name] := by
  induction n generalizing path m with
  | zero =>
    obtain rfl : path = [] := eq_nil_of_length_eq_zero (Nat.le_zero.mp hn)
    rw [nil_append, ← elemsUpTo_dropWhile, dropWhile_cons_of_pos (by simp), elemsUpTo_dropWhile,
      elemsUpTo_elem hname hm]
    rfl
  | succ n ih =>
    rcases hs : path.dropWhile (· = slash) with - | ⟨c, s⟩
    · -- only slashes
      rw [← elemsUpTo_dropWhile m, ← elemsUpTo_dropWhile (n + 1), dropWhile_append, hs, isEmpty_nil,
        if_pos rfl, dropWhile_cons_of_pos (by simp), elemsUpTo_dropWhile,
        elemsUpTo_elem hname (Nat.zero_lt_of_lt hm)]
      rfl
    · obtain ⟨m, rfl⟩ := Nat.exists_eq_succ_of_ne_zero (Nat.ne_zero_of_lt hm)
      have hsub : c :: s <:+ path := hs ▸ dropWhile_suffix _
      have hc : c ≠ slash ∧ c ≠ 0 := by
        refine ⟨fun h => ?_, fun h => h0 (h ▸ hsub.subset mem_cons_self)⟩
        have := List.head?_dropWhile_not (· = slash) path
        rw [hs] at this
        simp [h] at this
      have hpath : skipelem path = some (((c :: s).takeWhile fun c => c ≠ slash ∧ c ≠ 0).take DIRSIZ,
          ((c :: s).dropWhile fun c => c ≠ slash ∧ c ≠ 0).dropWhile (· = slash)) := by
        rw [skipelem, hs, if_neg (show (c :: s).headD 0 ≠ 0 from hc.2)]
      -- the element is at least one byte long
      have hlen : ((c :: s).dropWhile fun c => c ≠ slash ∧ c ≠ 0).length ≤ s.length := by
        rw [dropWhile_cons_of_pos (by simpa using hc)]
        exact length_dropWhile_le _ _
      have hshort : s.length + 1 ≤ path.length := hsub.length_le
      rw [elemsUpTo, elemsUpTo, skipelem_append h0 hs, hpath]
      dsimp only
      rw [elemsUpTo_dropWhile, elemsUpTo_dropWhile, ih (fun h => h0 (hsub.subset ((dropWhile_sublist _).subset h)))
        (by omega) (by omega)]
      rfl

/-- One more element at the end of a path. -/
theorem elems_snoc (h0 : 0 ∉ path) : elems (path ++ slash :: name) = elems path ++ [name] :=
  elemsUpTo_snoc hname h0 le_rfl (by simp)

end

end Xv6

/-
Xv6/Dir.lean

Directories: the entries that the bytes of a directory hold, and what a search among
them does when a process carries out a call alone.

`dirents` is the list of the entries, and `scan` stops at the first entry that is looked
for.  `dirlookup` follows from this, in a directory of whole entries.

`Runs E` is the specification of operations that says what they do, and which failures
are allowed.
-/
import Xv6.Kernel

namespace Xv6.Sys

open Function List Prog

/-! ### Entries -/

/-- Entry `k` of a directory. -/
def dirent (data : Str) (k : Nat) : Dirent := .ofBytes ((data.drop (k * DIRENT)).take DIRENT)

/-- The entries of a directory. -/
def dirents (data : Str) : List Dirent := (List.range (data.length / DIRENT)).map (dirent data)

theorem dirents_length (data : Str) : (dirents data).length = data.length / DIRENT := by
  rw [dirents, length_map, length_range]

variable {data : Str}

theorem getElem_dirents {k : Nat} (hk : k < (dirents data).length) : (dirents data)[k] = dirent data k := by
  simp only [dirents, getElem_map, getElem_range]

theorem mul_DIRENT (n : Nat) : n * DIRENT = 16 * n := Nat.mul_comm n 16

/-- The content is one of whole entries that a file can have. -/
structure Whole (data : Str) : Prop where
  dvd : DIRENT ∣ data.length
  le : data.length ≤ MAXFILE * BSIZE

theorem Whole.length (h : Whole data) : data.length = (dirents data).length * DIRENT := by
  rw [dirents_length]
  exact (Nat.div_mul_cancel h.dvd).symm

/-! ### Single operations -/

section Ops

variable {p : PPtr} {hint : Bool} {E : Option String → Prop} {s t : Kernel} {α : Type}

/-- Operations are carried out, or they fail where `E` allows it. -/
def Runs (p : PPtr) (hint : Bool) (E : Option String → Prop) : Prog.Spec FsOp FsOp.Resp Kernel := fun o s Q =>
  Prog.Ends E Q (perform p hint s o)

theorem run_of_runs {prog : FsProg α} {Q : α → Kernel → Prop} (h : prog.wp (Runs p hint E) s Q) :
    Prog.Ends E Q (prog.run (perform p hint) s) := Prog.ends_of_wp h

theorem Runs.op {o : FsOp} {r : o.Resp} {Q : o.Resp → Kernel → Prop} (he : perform p hint s o = .ok (t, r)) (hQ : Q r t) :
    (issue o).wp (Runs p hint E) s Q := by
  show Prog.Ends E _ (perform p hint s o)
  rw [he]
  exact hQ

theorem setEntry_inum (s : Kernel) (ip : IPtr) {e : Entry Unit} (hinum : e.inum = (s.tab ip).inum) (e' : IPtr) :
    ((s.setEntry ip e).tab e').inum = (s.tab e').inum := by
  show (update s.tab ip e e').inum = _
  rcases eq_or_ne e' ip with rfl | he
  · rw [update_self, hinum]
  · rw [update_of_ne he]

/-- `iput` that does not free the inode. -/
theorem Runs.iput {ip : IPtr} {Q : Unit → Kernel → Prop}
    (h : ¬ ((s.tab ip).ref = 1 ∧ (s.tab ip).valid = true ∧ (s.inode ip).fields.nlink = 0))
    (hQ : Q () (s.setEntry ip (s.tab ip).drop)) : (Sys.iput ip).wp (Runs p hint E) s Q := by
  have hlast : perform p hint s (.lastRef ip) = .ok (s, false) := by
    rw [perform, if_neg h]
  exact Runs.op hlast hQ

/-! ### Loops over entries -/

variable {dp : IPtr} {data : Str}

/-- The first entry from `k` on that meets `stop` is entry `j`. -/
structure First (data : Str) (stop : Dirent → Bool) (k j : Nat) : Prop where
  le : k ≤ j
  lt : j < (dirents data).length
  hit : stop (dirent data j) = true
  before : ∀ i, k ≤ i → i < j → stop (dirent data i) = false

/-- **The loop of `dirlookup`, `dirlink` and `isdirempty`.** -/
theorem Runs.scan {msg : String} {stop : Dirent → Bool} {Q : Nat × Option Dirent → Kernel → Prop}
    (h : Whole (s.inode dp).data) (fuel : Nat) {k off : Nat} (hoff : off = k * DIRENT)
    (hfuel : (s.inode dp).data.length ≤ k + fuel)
    (hfound : ∀ j, First (s.inode dp).data stop k j → Q (j * DIRENT, some (dirent (s.inode dp).data j)) s)
    (hnone : (∀ j, k ≤ j → j < (dirents (s.inode dp).data).length → stop (dirent (s.inode dp).data j) = false) →
      Q (max off (s.inode dp).data.length, none) s) :
    (Sys.scan dp msg stop (s.inode dp).data.length fuel off).wp (Runs p hint E) s Q := by
  have hD : DIRENT = 16 := rfl
  have hlen := h.length
  rw [mul_DIRENT] at hlen
  subst hoff
  induction fuel generalizing k with
  | zero =>
    have hk16 := mul_DIRENT k
    have hQ := hnone fun j hk hj => absurd hj (by omega)
    rwa [max_eq_left (by omega)] at hQ
  | succ fuel ih =>
    have hk16 := mul_DIRENT k
    rw [Sys.scan]
    by_cases hlt : k * DIRENT < (s.inode dp).data.length
    · rw [if_pos hlt, wp_bind]
      have hle := h.le
      have hread : perform p hint s (.readi dp (k * DIRENT) DIRENT)
          = .ok (s, ((s.inode dp).data.drop (k * DIRENT)).take DIRENT) := by
        have hmax : MAXFILE * BSIZE = 274432 := rfl
        rw [perform, readData, if_neg (by omega)]
      have hsize : (((s.inode dp).data.drop (k * DIRENT)).take DIRENT).length = DIRENT := by
        rw [length_take, length_drop]
        omega
      refine Runs.op hread ?_
      rw [if_neg (fun hne => hne hsize)]
      by_cases hstop : stop (dirent (s.inode dp).data k) = true
      · rw [if_pos (show stop (.ofBytes _) = true from hstop)]
        exact hfound k ⟨le_rfl, by omega, hstop, fun i hi hi' => absurd hi (by omega)⟩
      rw [if_neg (show ¬ stop (.ofBytes _) = true from hstop)]
      have hk : ∀ i, k ≤ i → (k + 1 ≤ i → stop (dirent (s.inode dp).data i) = false) →
          stop (dirent (s.inode dp).data i) = false := fun i hi hnext => by
        rcases Nat.eq_or_lt_of_le hi with rfl | hi
        · exact Bool.not_eq_true _ ▸ hstop
        · exact hnext hi
      have hrest := ih (k := k + 1) (by omega)
        (fun j hj => hfound j ⟨Nat.le_of_succ_le hj.le, hj.lt, hj.hit, fun i hi hi' => hk i hi (hj.before i · hi')⟩)
        fun hno => by
          have hQ := hnone fun j hj hj' => hk j hj (hno j · hj')
          rwa [show max ((k + 1) * DIRENT) (s.inode dp).data.length = max (k * DIRENT) (s.inode dp).data.length by
            rw [mul_DIRENT]
            omega]
      rwa [Nat.succ_mul] at hrest
    · rw [if_neg hlt]
      have hQ := hnone fun j hk hj => absurd hj (by omega)
      rwa [max_eq_left (by omega)] at hQ

/-- An entry in use with this name, as `dirlookup` looks for it. -/
def hits (name : Str) (de : Dirent) : Bool := de.inum ≠ 0 ∧ cut name = cut de.name

/-- No entry in use has this name. -/
def Absent (data : Str) (name : Str) : Prop := ∀ j, j < (dirents data).length → hits name (dirent data j) = false

/-- `dirlookup` in a directory. -/
theorem Runs.dirlookup (h : Whole (s.inode dp).data) (hdir : (s.inode dp).fields.type = T_DIR) {name : Str}
    {Q : Option (IPtr × Nat) → Kernel → Prop}
    (hfound : ∀ j, First (s.inode dp).data (hits name) 0 j →
      (issue (.iget (dirent (s.inode dp).data j).inum)).wp (Runs p hint E) s fun ip => Q (some (ip, j * DIRENT)))
    (hnone : Absent (s.inode dp).data name → Q none s) :
    (Sys.dirlookup dp name).wp (Runs p hint E) s Q := by
  have hstop : (fun de : Dirent => decide (de.inum ≠ 0 ∧ namecmp name de.name = 0)) = hits name := by
    funext de
    exact decide_eq_decide.mpr (and_congr_right fun _ => namecmp_eq_zero)
  rw [Sys.dirlookup, wp_bind]
  refine Runs.op (r := (s.inode dp).fields) rfl ?_
  rw [if_neg (fun hn => hn hdir), wp_bind]
  refine Runs.op (r := (s.inode dp).data.length) rfl ?_
  rw [wp_bind, hstop]
  refine Runs.scan h _ (Nat.zero_mul DIRENT).symm (Nat.le_add_left _ _) (fun j hj => ?_) fun hno => ?_
  · exact (wp_bind _ _ _ _).mpr (hfound j hj)
  · exact hnone fun j hj => hno j (Nat.zero_le j) hj

end Ops

end Xv6.Sys

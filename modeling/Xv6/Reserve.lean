/-
Xv6/Reserve.lean

What a call logs fits into its reservation.

Between `begin_op` and `end_op` a call may log `MAXOPBLOCKS` blocks.  Here is one lemma for
each program of SysFile.lean, down to the operations of FsBudget.lean, that says how the ledger
grows; the largest sum is that of `mkdir` and of `open`.
-/
import Xv6.FsBudget

namespace Xv6.Sys

open Finset Within Ledger Outcome Prod Fs

section Programs

variable {sb : SuperBlock} {p : PPtr} {s : DiskKernel} {g : Ledger} {ip dp : IPtr}

namespace Fine

/-! ### Dropping references -/

/-- The test of `iput`: if it succeeds, the inode was unlinked by this call. -/
theorem lastRef (h : Fine sb p s (g.acquire ip)) (hok : g.Ok) :
    Within sb p (issue (.lastRef ip)) s fun last s' => if last then
      Fine sb p s' (g.take ip) ∧ s'.sys = s.sys ∧ ip ∉ g.held ∧ (s.sys.tab ip).inum ∈ g.inums
      else s' = s := by
  refine op fun s' last ho => ?_
  rw [performDisk] at ho
  split at ho
  · next hlast =>
      obtain ⟨hone, hvalid, hnlink⟩ := hlast
      split at ho
      · cases ho
      obtain ⟨rfl, rfl⟩ := mk.inj (ok.inj ho)
      have hle := h.mine ip
      rw [acquire_self] at hle
      have hpos : 0 < (s.sys.tab ip).ref := hone ▸ Nat.one_pos
      obtain ⟨hmem, hty⟩ := h.table.cur ip hpos hvalid
      have hnot : ip ∉ g.held := fun hheld => by
        have := hok ip hheld
        omega
      have hin : (s.sys.tab ip).inum ∈ g.inums := by
        rw [hmem] at hty hnlink
        rcases h.linked _ (h.table.lt ip hpos) hty hnlink with hin | ⟨e, hinum, hlt⟩
        · exact hin
        -- the only reference is the call's
        have he : e = ip := h.table.uniq e ip (Nat.zero_lt_of_lt hlt) hpos hinum
        rw [he, acquire_self] at hlt
        omega
      have hl := h.locked hnot (g.acquire_pos ip) hvalid
      exact ⟨hl.bounded, hl, rfl, hnot, hin⟩
  · obtain ⟨rfl, rfl⟩ := mk.inj (ok.inj ho)
    exact ⟨h.bounded, rfl⟩

/-- The branch of `iput` that frees. -/
theorem ifree (h : Fine sb p s (g.take ip)) (hnot : ip ∉ g.held) (hin : (s.sys.tab ip).inum ∈ g.inums) :
    Within sb p (ifree ip) s fun _ s' => Fine sb p s' (g.acquire ip) ∧ Stable g s s' := by
  have hip : ip ∈ (g.take ip).held := mem_insert_self _ _
  have hmine : 0 < (g.take ip).mine ip := (h.held ip hip).1
  refine (h.itrunc hip hin).seq ?_
  rintro _ s₁ ⟨h₁, hst₁, hempty⟩
  refine (h₁.look ip).1.seq ?_
  rintro f s₁' ⟨rfl, -⟩
  have hin₁ : (s₁'.sys.tab ip).inum ∈ g.inums := (hst₁ ip hmine).symm ▸ hin
  refine (h₁.gone hip hin₁ (by rw [hempty]; rfl) (by rw [hempty]; rfl) rfl).seq ?_
  intro _ s₂ h₂
  refine h₂.seq ?_
  rintro _ s₃ ⟨h₃, hst₃⟩
  refine (h₃.iunlock ip).mono ?_
  rintro _ s₄ ⟨h₄, hsys⟩
  have hnot' : ip ∉ (g.acquire ip).held := hnot
  rw [unlock_take hnot, unlock_of_notMem hnot'] at h₄
  refine ⟨h₄, fun e he => ?_⟩
  have he' : 0 < (g.take ip).mine e := he.trans_le (g.le_acquire ip e)
  rw [hsys]
  exact (hst₃ e he').trans (hst₁ e he')

/-- **`iput`.** -/
theorem iput (h : Fine sb p s (g.acquire ip)) (hok : g.Ok) :
    Within sb p (iput ip) s fun _ s' => Fine sb p s' g ∧ Stable g s s' := by
  refine (h.lastRef hok).seq ?_
  rintro (- | -) s₁ h₁
  · obtain rfl : s₁ = s := h₁
    exact h.idrop hok
  obtain ⟨h₁, hsys, hnot, hin⟩ := h₁
  refine seq (h₁.ifree hnot (hsys ▸ hin)) ?_
  rintro _ s₂ ⟨h₂, hst₂⟩
  refine (h₂.idrop hok).mono ?_
  rintro _ s₃ ⟨h₃, hst₃⟩
  refine ⟨h₃, fun e he => ?_⟩
  rw [hst₃ e he, hst₂ e he, hsys]

theorem iunlockput (h : Fine sb p s (g.take ip)) (hnot : ip ∉ g.held) (hok : g.Ok) :
    Within sb p (iunlockput ip) s fun _ s' => Fine sb p s' g ∧ Stable g s s' := by
  refine (h.iunlock ip).seq ?_
  rintro _ s₁ ⟨h₁, hsys⟩
  rw [unlock_take hnot] at h₁
  refine (h₁.iput hok).mono ?_
  rintro _ s₂ ⟨h₂, hst₂⟩
  refine ⟨h₂, fun e he => ?_⟩
  rw [hst₂ e he, hsys]

/-! ### Directories -/

/-- The loop over the entries of a directory only reads. -/
theorem scan (h : Fine sb p s g) (hdp : dp ∈ g.held) (msg : String) (stop : Dirent → Bool) {size : Nat}
    (hsize : size = (s.sys.tab dp).mem.size.toNat) (n : Nat) {off : Nat} (hoff : DIRENT ∣ off) :
    Within sb p (scan dp msg stop size n off) s fun r s' => s' = s ∧ DIRENT ∣ r.1 ∧
      ∀ de, r.2 = some de → r.1 + DIRENT ≤ size ∧
        de = .ofBytes (((content s.sys.disk (s.sys.tab dp).mem).drop r.1).take DIRENT) := by
  induction n generalizing off with
  | zero => exact pure ⟨rfl, hoff, by simp⟩
  | succ n ih =>
    unfold Sys.scan
    by_cases hlt : off < size
    · rw [if_pos hlt]
      refine (h.readi hdp off DIRENT).seq ?_
      rintro b s' ⟨rfl, rfl⟩
      obtain ⟨data, hdata⟩ : ∃ data, data = content s'.sys.disk (s'.sys.tab dp).mem := ⟨_, rfl⟩
      have hlen : data.length = size := by
        rw [hdata, content_length, hsize]
      have hlt32 : off < 2 ^ 32 := hlt.trans (hsize ▸ UInt32.toNat_lt _)
      have hoff32 : (UInt32.ofNat off).toNat = off := UInt32.toNat_ofNat_of_lt' hlt32
      rw [← hdata, hoff32, show (UInt32.ofNat DIRENT).toNat = DIRENT from rfl]
      by_cases hshort : (readData data off DIRENT).length ≠ DIRENT
      · rw [if_pos hshort]
        exact Within.panic msg
      rw [if_neg hshort]
      -- the entry is inside the file
      rw [not_not] at hshort
      have hread : readData data off DIRENT = (data.drop off).take DIRENT := by
        unfold readData at hshort ⊢
        split at hshort
        · cases hshort
        · next hin => rw [if_neg hin]
      have hend : off + DIRENT ≤ size := by
        rw [hread, List.length_take, List.length_drop] at hshort
        omega
      by_cases hstop : stop (.ofBytes (readData data off DIRENT)) = true
      · rw [if_pos hstop]
        refine pure ⟨rfl, hoff, ?_⟩
        rintro de ⟨rfl⟩
        exact ⟨hend, by rw [hread]⟩
      · rw [if_neg hstop]
        refine (ih (Nat.dvd_add hoff (Nat.dvd_refl _))).mono ?_
        rintro r s₁ ⟨rfl, hr⟩
        rw [hdata]
        exact ⟨rfl, hr⟩
    · rw [if_neg hlt]
      exact pure ⟨rfl, hoff, by simp⟩

end Fine

/-- What a search ends with: a reference more, or none. -/
def Found (sb : SuperBlock) (p : PPtr) (g : Ledger) (s s' : DiskKernel) : Option IPtr → Prop
  | none => Fine sb p s' g ∧ Stable g s s'
  | some ip => Fine sb p s' (g.acquire ip) ∧ Stable g s s'

variable {s' : DiskKernel}

theorem Found.trans {s₁ : DiskKernel} {r : Option IPtr} (h : Stable g s s₁) (hr : Found sb p g s₁ s' r) :
    Found sb p g s s' r := by
  cases r with
  | none | some => exact ⟨hr.1, h.trans hr.2⟩

namespace Fine

theorem dirlookup (h : Fine sb p s g) (hdp : dp ∈ g.held) (name : Str) :
    Within sb p (dirlookup dp name) s fun r s' => Found sb p g s s' (r.map fst) ∧
      ∀ x, r = some x → DIRENT ∣ x.2 := by
  refine (h.look dp).1.seq ?_
  rintro f s' ⟨rfl, rfl⟩
  by_cases hty : (fieldsOf (s'.sys.tab dp).mem).type ≠ T_DIR
  · rw [if_pos hty]
    exact Within.panic _
  rw [if_neg hty]
  rw [not_not] at hty
  refine (h.look dp).2.1.seq ?_
  rintro size s'' ⟨rfl, hsize⟩
  refine (h.scan hdp _ _ hsize size (Nat.dvd_zero _)).seq ?_
  rintro ⟨off, - | de⟩ s₁ ⟨rfl, hoff, hde⟩
  · exact pure ⟨⟨h, Stable.refl _ _⟩, by simp⟩
  obtain ⟨hend, hde⟩ := hde de rfl
  obtain ⟨hmem, -⟩ := h.cur hdp
  -- the entry stands for an inode of the disk
  have hrange := h.dirs _ (h.table.lt dp (h.ref_pos hdp)) (hmem ▸ hty)
  rw [← hmem] at hrange
  have hinum : de.inum < sb.ninodes := by
    rw [hde]
    exact hrange off hoff (by rw [content_length, ← hsize]; exact hend)
  refine (h.iget hinum).seq ?_
  rintro ip s₂ ⟨h₂, hst₂, -⟩
  refine pure ⟨⟨h₂, hst₂⟩, ?_⟩
  rintro x ⟨rfl⟩
  exact hoff

/-- **`dirlink`** logs the inode of the directory, and two more blocks. -/
theorem dirlink (h : Fine sb p s g) (hdp : dp ∈ g.held) (hin : (s.sys.tab dp).inum ∈ g.inums) (name : Str) {inum : Nat}
    (hinum : inum < sb.ninodes) (hb : g.spent + 2 < MAXOPBLOCKS) :
    Within sb p (dirlink dp name inum) s fun _ s' =>
      ∃ extra : Finset Nat, extra.card ≤ 2 ∧ Fine sb p s' (g.pay ∅ extra) ∧ Stable g s s' := by
  refine (h.dirlookup hdp name).seq ?_
  rintro (- | ⟨ip, off⟩) s₁ ⟨⟨h₁, hst₁⟩, -⟩
  · have hin₁ : (s₁.sys.tab dp).inum ∈ g.inums := (hst₁ dp (h.ok dp hdp)).symm ▸ hin
    refine (h₁.look dp).2.1.seq ?_
    rintro size s₁' ⟨rfl, hsize⟩
    refine (h₁.scan hdp _ _ hsize size (Nat.dvd_zero _)).seq ?_
    rintro ⟨off, de⟩ s₁' ⟨rfl, hoff, -⟩
    refine (h₁.writei hdp hin₁ hoff hinum hb).seq ?_
    rintro n s₂ ⟨extra, hcard, h₂, hst₂⟩
    split
    · exact Within.panic _
    · exact pure ⟨extra, hcard, h₂, hst₁.trans hst₂⟩
  · refine (h₁.iput h.ok).seq ?_
    rintro _ s₂ ⟨h₂, hst₂⟩
    exact pure ⟨∅, Nat.zero_le _, by rw [pay_empty]; exact h₂, hst₁.trans hst₂⟩

theorem isdirempty (h : Fine sb p s g) (hdp : dp ∈ g.held) : Within sb p (isdirempty dp) s fun _ s' => s' = s := by
  refine (h.look dp).2.1.seq ?_
  rintro size s' ⟨rfl, hsize⟩
  refine (h.scan hdp _ _ hsize size (Nat.dvd_mul_left _ _)).seq ?_
  rintro ⟨off, de⟩ s₁ ⟨rfl, -⟩
  exact pure rfl

/-! ### Paths -/

/-- The loop of `namex`: an inode on the way is locked, searched and let go. -/
theorem namexLoop (parent : Bool) (names : List Str) (h : Fine sb p s (g.acquire ip)) (hok : g.Ok) :
    Within sb p (namexLoop parent ip names) s fun r s' => Found sb p g s s' (r.map fst) := by
  induction names generalizing ip s with
  | nil =>
    unfold Sys.namexLoop
    split
    · refine (h.iput hok).seq ?_
      exact fun _ s' h' => pure h'
    · exact pure ⟨h, Stable.refl _ _⟩
  | cons name rest ih =>
    refine h.ilock.seq ?_
    rintro _ s₁ ⟨h₁, hnot, hst₁⟩
    replace hst₁ : Stable g s s₁ := hst₁.of_acquire
    -- every end of a round: the inode is let go
    have hput : ∀ {g' : Ledger} {s₂ : DiskKernel}, Fine sb p s₂ (g'.take ip) → g'.held = g.held → g'.Ok →
        Within sb p (Sys.iunlockput ip) s₂ fun _ s₃ => Fine sb p s₃ g' ∧ Stable g' s₂ s₃ := by
      intro g' s₂ h₂ hheld hok'
      exact h₂.iunlockput (by rw [hheld]; exact hnot) hok'
    refine (h₁.look ip).1.seq ?_
    rintro f s₁' ⟨rfl, -⟩
    split
    · refine (hput h₁ rfl hok).seq ?_
      rintro _ s₂ ⟨h₂, hst₂⟩
      exact pure ⟨h₂, hst₁.trans hst₂⟩
    · split
      · refine (h₁.iunlock ip).seq ?_
        rintro _ s₂ ⟨h₂, hsys⟩
        rw [unlock_take hnot] at h₂
        refine pure ⟨h₂, fun e he => ?_⟩
        rw [hsys]
        exact hst₁ e he
      · refine (h₁.dirlookup (mem_insert_self _ _) name).seq ?_
        rintro (- | ⟨next, off⟩) s₂ ⟨⟨h₂, hst₂⟩, -⟩
        · refine (hput h₂ rfl hok).seq ?_
          rintro _ s₃ ⟨h₃, hst₃⟩
          exact pure ⟨h₃, hst₁.trans (Stable.trans hst₂.of_acquire hst₃)⟩
        · have h₂' : Fine sb p s₂ ((g.acquire next).take ip) := by
            unfold take
            rw [acquire_comm]
            exact h₂
          refine (hput h₂' rfl (hok.acquire next)).seq ?_
          rintro _ s₃ ⟨h₃, hst₃⟩
          have hst : Stable g s s₃ := hst₁.trans (Stable.trans hst₂.of_acquire hst₃.of_acquire)
          exact (ih h₃).mono fun r s' hr => Found.trans hst hr

theorem namex (h : Fine sb p s g) (hhome : g.home) (path : Str) (parent : Bool) :
    Within sb p (namex path parent) s fun r s' => Found sb p g s s' (r.map fst) := by
  unfold Sys.namex
  split
  · refine (h.iget h.root).seq ?_
    rintro ip s₁ ⟨h₁, hst₁, -⟩
    exact (h₁.namexLoop parent _ h.ok).mono fun r s' hr => Found.trans hst₁ hr
  · refine (h.cwd hhome).seq ?_
    rintro ip s₁ ⟨h₁, hsys, hlt⟩
    refine (h₁.idup (hsys ▸ Nat.zero_lt_of_lt hlt)).seq ?_
    rintro _ s₂ ⟨h₂, hst₂⟩
    have hst : Stable g s s₂ := fun e he => (hst₂ e he).trans (by rw [hsys])
    exact (h₂.namexLoop parent _ h.ok).mono fun r s' hr => Found.trans hst hr

theorem namei (h : Fine sb p s g) (hhome : g.home) (path : Str) :
    Within sb p (namei path) s fun r s' => Found sb p g s s' r := by
  refine (h.namex hhome path false).seq ?_
  exact fun r s' hr => pure hr

/-! ### Links -/

/-- The label `bad` of `sys_link`. -/
theorem linkBad (h : Fine sb p s (g.acquire ip)) (hok : g.Ok) (hin : (s.sys.tab ip).inum ∈ g.inums) :
    Within sb p (linkBad ip) s fun _ _ => True := by
  refine h.ilock.seq ?_
  rintro _ s₁ ⟨h₁, hnot, hst₁⟩
  refine (h₁.look ip).1.seq ?_
  rintro f s₁' ⟨rfl, rfl⟩
  have hin₁ : (s₁'.sys.tab ip).inum ∈ g.inums := (hst₁ ip (g.acquire_pos ip)).symm ▸ hin
  refine (h₁.iupdate (mem_insert_self _ _) hin₁ rfl).seq ?_
  rintro _ s₂ ⟨h₂, -⟩
  refine (h₂.iunlockput hnot hok).seq ?_
  exact fun _ _ _ => pure trivial

/-- The new name of a file. -/
theorem linkEntry (h : Fine sb p s ((g.acquire ip).take dp)) (hnot : dp ∉ g.held) (hok : g.Ok)
    (hin : (s.sys.tab ip).inum ∈ g.inums) (hb : g.spent + 3 < MAXOPBLOCKS) (name : Str) :
    Within sb p (do
      let inum ← issue (.inum ip)
      let r ← Sys.dirlink dp name inum
      if r < 0 then
        Sys.iunlockput dp
        Sys.linkBad ip
      else
        Sys.iunlockput dp
        Sys.iput ip
        return 0) s fun _ _ => True := by
  refine (h.look ip).2.2.seq ?_
  rintro inum s' ⟨rfl, rfl⟩
  have hmine : 0 < ((g.acquire ip).acquire dp).mine ip := (g.acquire_pos ip).trans_le ((g.acquire ip).le_acquire dp ip)
  have hlt : (s'.sys.tab ip).inum < sb.ninodes := h.table.lt ip (h.pos hmine)
  obtain ⟨k, hk⟩ : ∃ k, k = (s'.sys.tab dp).inum := ⟨_, rfl⟩
  have hspent := g.spent_inum k
  have h₁ : Fine sb p s' (((g.pay {k} ∅).acquire ip).take dp) :=
    h.payInum k (show g.spent + 1 < MAXOPBLOCKS by omega)
  have hk₁ : (s'.sys.tab dp).inum ∈ (g.pay {k} ∅).inums := hk ▸ g.mem_pay (mem_singleton_self k)
  refine (h₁.dirlink (mem_insert_self _ _) hk₁ name hlt
    (show (g.pay {k} ∅).spent + 2 < MAXOPBLOCKS by omega)).seq ?_
  rintro r s₂ ⟨extra, -, h₂, hst₂⟩
  -- the directory is let go in both cases
  have hput : Within sb p (Sys.iunlockput dp) s₂ fun _ s₃ =>
      Fine sb p s₃ (((g.pay {k} ∅).pay ∅ extra).acquire ip) ∧ (s₃.sys.tab ip).inum = (s'.sys.tab ip).inum := by
    have h₂' : Fine sb p s₂ ((((g.pay {k} ∅).pay ∅ extra).acquire ip).take dp) := h₂
    have hok' : ((g.pay {k} ∅).pay ∅ extra).Ok := hok
    refine (h₂'.iunlockput hnot (hok'.acquire ip)).mono ?_
    rintro _ s₃ ⟨h₃, hst₃⟩
    exact ⟨h₃, (hst₃ ip (acquire_pos _ ip)).trans (hst₂ ip hmine)⟩
  split
  · refine hput.seq ?_
    rintro _ s₃ ⟨h₃, hst₃⟩
    refine h₃.linkBad hok ?_
    rw [hst₃]
    exact mem_of_mem (mem_of_mem hin _ _) _ _
  · refine hput.seq ?_
    rintro _ s₃ ⟨h₃, -⟩
    refine (h₃.iput hok).seq ?_
    exact fun _ _ _ => pure trivial

/-- **`sys_link`.** -/
theorem sysLink (h : Fine sb p s g) (hhome : g.home) (hb : g.spent + 4 < MAXOPBLOCKS) (old new : Str) :
    Within sb p (sysLink old new) s fun _ _ => True := by
  refine (h.namei hhome old).seq ?_
  rintro (- | ip) s₁ ⟨h₁, -⟩
  · exact pure trivial
  refine h₁.ilock.seq ?_
  rintro _ s₂ ⟨h₂, hnot, -⟩
  refine (h₂.look ip).1.seq ?_
  rintro f s₂' ⟨rfl, rfl⟩
  split
  · refine (h₂.iunlockput hnot h.ok).seq ?_
    exact fun _ _ _ => pure trivial
  obtain ⟨i, hi⟩ : ∃ i, i = (s₂'.sys.tab ip).inum := ⟨_, rfl⟩
  have hspent := g.spent_inum i
  have hin : i ∈ (g.pay {i} ∅).inums := g.mem_pay (mem_singleton_self i)
  have h₂' : Fine sb p s₂' ((g.pay {i} ∅).take ip) :=
    h₂.payInum i (show g.spent + 1 < MAXOPBLOCKS by omega)
  refine (h₂'.iupdate (mem_insert_self _ _) (hi ▸ hin) rfl).seq ?_
  rintro _ s₃ ⟨h₃, hst₃⟩
  refine (h₃.iunlock ip).seq ?_
  rintro _ s₄ ⟨h₄, hsys₄⟩
  have hnot' : ip ∉ (g.pay {i} ∅).held := hnot
  rw [unlock_take hnot'] at h₄
  have hst₄ : (s₄.sys.tab ip).inum = i := by
    rw [hsys₄, hst₃ ip (acquire_pos _ ip), hi]
  refine (h₄.namex hhome new true).seq ?_
  rintro (- | ⟨dp, name⟩) s₅ ⟨h₅, hst₅⟩
  · refine h₅.linkBad h.ok ?_
    rw [hst₅ ip (acquire_pos _ ip), hst₄]
    exact hin
  · refine h₅.ilock.seq ?_
    rintro _ s₆ ⟨h₆, hnot₆, hst₆⟩
    refine h₆.linkEntry hnot₆ h.ok ?_ (by omega) name
    rw [hst₆ ip ((acquire_pos _ ip).trans_le (le_acquire _ dp ip)), hst₅ ip (acquire_pos _ ip), hst₄]
    exact hin

/-- `sys_unlink` once the entry is found. -/
theorem unlinkEntry (h : Fine sb p s ((g.take dp).take ip)) (hdp : dp ∉ g.held) (hip : ip ∉ g.held) (hne : ip ≠ dp)
    (hok : g.Ok) (hb : g.spent + 4 < MAXOPBLOCKS) {off : Nat} (hoff : DIRENT ∣ off) :
    Within sb p (unlinkEntry dp ip off) s fun _ _ => True := by
  obtain ⟨k, hk⟩ : ∃ k, k = (s.sys.tab dp).inum := ⟨_, rfl⟩
  obtain ⟨i, hi⟩ : ∃ i, i = (s.sys.tab ip).inum := ⟨_, rfl⟩
  have hk₁ := g.spent_inum k
  have hi₁ := (g.pay {k} ∅).spent_inum i
  obtain ⟨g₁, hg₁⟩ : ∃ g₁, g₁ = (g.pay {k} ∅).pay {i} ∅ := ⟨_, rfl⟩
  rw [← hg₁] at hi₁
  have hkin : k ∈ g₁.inums := hg₁ ▸ mem_of_mem (g.mem_pay (mem_singleton_self k)) _ _
  have hiin : i ∈ g₁.inums := hg₁ ▸ mem_pay _ (mem_singleton_self i)
  have hok₁ : g₁.Ok := by
    rw [hg₁]
    exact hok
  have hheld₁ : g₁.held = g.held := by
    rw [hg₁]
    rfl
  have h₁ : Fine sb p s ((g₁.take ip).take dp) := by
    rw [take_comm, hg₁]
    exact (h.payInum k (show g.spent + 1 < MAXOPBLOCKS by omega)).payInum i
      (show (g.pay {k} ∅).spent + 1 < MAXOPBLOCKS by omega)
  have hmine : 0 < ((g₁.take ip).take dp).mine ip := (g₁.acquire_pos ip).trans_le ((g₁.take ip).le_acquire dp ip)
  have hzero : Dirent.zero.inum < sb.ninodes := lt_of_le_of_lt (Nat.zero_le _) h.root
  refine (h₁.writei (mem_insert_self _ _) (hk ▸ hkin) hoff hzero (show g₁.spent + 2 < MAXOPBLOCKS by omega)).seq ?_
  rintro n s₂ ⟨extra, -, h₂, hst₂⟩
  have hdp₂ : dp ∉ ((g₁.pay ∅ extra).take ip).held := by
    show dp ∉ insert ip g₁.held
    rw [mem_insert, hheld₁, not_or]
    exact ⟨Ne.symm hne, hdp⟩
  have hip₂ : ip ∉ (g₁.pay ∅ extra).held := by
    show ip ∉ g₁.held
    rw [hheld₁]
    exact hip
  have hok₂ : (g₁.pay ∅ extra).Ok := hok₁
  have hk₂ : (s₂.sys.tab dp).inum ∈ (g₁.pay ∅ extra).inums := by
    rw [hst₂ dp (acquire_pos _ dp), ← hk]
    exact mem_of_mem hkin _ _
  refine seq (Q := fun _ s' => s' = s₂) ?_ ?_
  · split
    · exact Within.panic _
    · exact pure rfl
  rintro _ s₂' rfl
  refine (h₂.look ip).1.seq ?_
  rintro f s₂'' ⟨rfl, -⟩
  -- ".." in the directory that goes
  refine seq (Q := fun _ s' => Fine sb p s' (((g₁.pay ∅ extra).take ip).take dp) ∧
    Stable ((g₁.take ip).take dp) s₂'' s') ?_ ?_
  · split
    · refine (h₂.look dp).1.seq ?_
      rintro fd s₃ ⟨rfl, rfl⟩
      exact h₂.iupdate (mem_insert_self _ _) hk₂ rfl
    · exact pure ⟨h₂, Stable.refl _ _⟩
  rintro _ s₃ ⟨h₃, hst₃⟩
  refine (h₃.iunlockput hdp₂ (hok₂.take ip)).seq ?_
  rintro _ s₄ ⟨h₄, hst₄⟩
  refine (h₄.look ip).1.seq ?_
  rintro f s₄' ⟨rfl, rfl⟩
  have hi₄ : (s₄'.sys.tab ip).inum ∈ (g₁.pay ∅ extra).inums := by
    rw [hst₄ ip (acquire_pos _ ip), hst₃ ip hmine, hst₂ ip hmine, ← hi]
    exact mem_of_mem hiin _ _
  refine (h₄.iupdate (mem_insert_self _ _) hi₄ rfl).seq ?_
  rintro _ s₅ ⟨h₅, -⟩
  refine (h₅.iunlockput hip₂ hok₂).seq ?_
  exact fun _ _ _ => pure trivial

/-- **`sys_unlink`.** -/
theorem sysUnlink (h : Fine sb p s g) (hhome : g.home) (hb : g.spent + 4 < MAXOPBLOCKS) (path : Str) :
    Within sb p (sysUnlink path) s fun _ _ => True := by
  refine (h.namex hhome path true).seq ?_
  rintro (- | ⟨dp, name⟩) s₁ ⟨h₁, -⟩
  · exact pure trivial
  refine h₁.ilock.seq ?_
  rintro _ s₂ ⟨h₂, hdp, -⟩
  -- all other ends: the directory is let go
  have hput : ∀ s' : DiskKernel, Fine sb p s' (g.take dp) → Within sb p (do Sys.iunlockput dp; return (-1 : Int)) s'
      fun _ _ => True := by
    intro s' h'
    refine (h'.iunlockput hdp h.ok).seq ?_
    exact fun _ _ _ => pure trivial
  split
  · exact hput s₂ h₂
  refine (h₂.dirlookup (mem_insert_self _ _) name).seq ?_
  rintro (- | ⟨ip, off⟩) s₃ ⟨⟨h₃, -⟩, hoff⟩
  · exact hput s₃ h₃
  refine h₃.ilock.seq ?_
  rintro _ s₄ ⟨h₄, hip, -⟩
  have hip' : ip ≠ dp ∧ ip ∉ g.held := by
    have hmem : ip ∉ insert dp g.held := hip
    rw [mem_insert, not_or] at hmem
    exact hmem
  refine (h₄.look ip).1.seq ?_
  rintro f s₄' ⟨rfl, -⟩
  split
  · exact Within.panic _
  refine seq (Q := fun _ s' => s' = s₄') ?_ ?_
  · split
    · exact h₄.isdirempty (mem_insert_self _ _)
    · exact pure rfl
  rintro empty s₄'' rfl
  split
  · exact h₄.unlinkEntry hdp hip'.2 hip'.1 h.ok hb (hoff _ rfl)
  · refine (h₄.iunlockput hip (h.ok.take dp)).seq ?_
    rintro _ s₅ ⟨h₅, -⟩
    exact hput s₅ h₅

/-! ### Creating -/

/-- The entries "." and "..". -/
theorem createDots (h : Fine sb p s g) (hdp : dp ∈ g.held) (hip : ip ∈ g.held) (hk : (s.sys.tab dp).inum ∈ g.inums)
    (hi : (s.sys.tab ip).inum ∈ g.inums) (hb : g.spent + 4 < MAXOPBLOCKS) :
    Within sb p (createDots dp ip) s fun _ s' =>
      ∃ extra : Finset Nat, extra.card ≤ 4 ∧ Fine sb p s' (g.pay ∅ extra) ∧ Stable g s s' := by
  have hmip := h.ok ip hip
  refine (h.look dp).1.seq ?_
  rintro fd s' ⟨rfl, rfl⟩
  refine (h.iupdate hdp hk rfl).seq ?_
  rintro _ s₁ ⟨h₁, hst₁⟩
  refine (h₁.look ip).2.2.seq ?_
  rintro inum s₁' ⟨rfl, rfl⟩
  refine (h₁.dirlink hip ((hst₁ ip hmip).symm ▸ hi) dot (h₁.table.lt ip (h₁.ref_pos hip)) (by omega)).seq ?_
  rintro r s₂ ⟨extra, hcard, h₂, hst₂⟩
  split
  · exact Within.panic _
  refine (h₂.look dp).2.2.seq ?_
  rintro dinum s₂' ⟨rfl, rfl⟩
  have hi₂ : (s₂'.sys.tab ip).inum ∈ (g.pay ∅ extra).inums := by
    rw [hst₂ ip hmip, hst₁ ip hmip]
    exact mem_of_mem hi _ _
  have hspent := g.spent_extra hcard
  refine (h₂.dirlink hip hi₂ dotdot (h₂.table.lt dp (h₂.ref_pos hdp)) (by omega)).seq ?_
  rintro r s₃ ⟨extra', hcard', h₃, hst₃⟩
  rw [pay_pay] at h₃
  have hunion := card_union_le extra extra'
  split
  · exact Within.panic _
  · exact pure ⟨extra ∪ extra', by omega, h₃, hst₁.trans (Stable.trans hst₂ hst₃)⟩

/-- `create` once the name is known to be new. -/
theorem createNew (h : Fine sb p s (g.take dp)) (hdp : dp ∉ g.held) (hok : g.Ok) (hb : g.spent + 8 < MAXOPBLOCKS)
    (name : Str) (type major minor : Int16) :
    Within sb p (createNew dp name type major minor) s fun ip s' => ∃ inums extra : Finset Nat,
      inums.card ≤ 2 ∧ extra.card ≤ 6 ∧ Fine sb p s' ((g.pay inums extra).take ip) ∧ ip ∉ g.held := by
  obtain ⟨k, hk⟩ : ∃ k, k = (s.sys.tab dp).inum := ⟨_, rfl⟩
  have hk₁ := g.spent_inum k
  have h₀ : Fine sb p s ((g.pay {k} ∅).take dp) := h.payInum k (show g.spent + 1 < MAXOPBLOCKS by omega)
  refine seq (Q := fun ip s' => ∃ i, Fine sb p s' ((((g.pay {k} ∅).pay {i} ∅).take dp).acquire ip) ∧
    (s'.sys.tab ip).inum = i ∧ (s'.sys.tab dp).inum = k) ?_ ?_
  · refine (h₀.mark type (show (g.pay {k} ∅).spent + 1 < MAXOPBLOCKS by omega)).seq ?_
    rintro i s₁ ⟨h₁, hi, htab⟩
    refine (h₁.iget hi).mono ?_
    rintro ip s₂ ⟨h₂, hst₂, hinum⟩
    refine ⟨i, h₂, hinum, ?_⟩
    rw [hst₂ dp (acquire_pos _ dp), htab, ← hk]
  rintro ip s₂ ⟨i, h₂, hi₂, hk₂⟩
  -- the two inodes are paid for
  have hi₁ := (g.pay {k} ∅).spent_inum i
  obtain ⟨g₁, hg₁⟩ : ∃ g₁, g₁ = (g.pay {k} ∅).pay {i} ∅ := ⟨_, rfl⟩
  rw [← hg₁] at hi₁ h₂
  have hkin : k ∈ g₁.inums := hg₁ ▸ mem_of_mem (g.mem_pay (mem_singleton_self k)) _ _
  have hiin : i ∈ g₁.inums := hg₁ ▸ mem_pay _ (mem_singleton_self i)
  have hheld₁ : g₁.held = g.held := by
    rw [hg₁]
    rfl
  have hok₁ : g₁.Ok := by
    rw [hg₁]
    exact hok
  refine (h₂.ilockNew type).seq ?_
  rintro _ s₃ ⟨h₃, hip, hst₃⟩
  have hip' : ip ≠ dp ∧ ip ∉ g₁.held := by
    have hmem : ip ∉ insert dp g₁.held := hip
    rw [mem_insert, not_or] at hmem
    exact hmem
  have hmip : 0 < ((g₁.take dp).take ip).mine ip := acquire_pos _ ip
  have hmdp : 0 < ((g₁.take dp).take ip).mine dp := (g₁.acquire_pos dp).trans_le ((g₁.take dp).le_acquire ip dp)
  have hhip : ip ∈ ((g₁.take dp).take ip).held := mem_insert_self _ _
  have hhdp : dp ∈ ((g₁.take dp).take ip).held := mem_insert_of_mem (mem_insert_self _ _)
  refine (h₃.look ip).1.seq ?_
  rintro f s₃' ⟨rfl, rfl⟩
  refine (h₃.iupdate hhip (by rw [hst₃ ip hmip, hi₂]; exact hiin) rfl).seq ?_
  rintro _ s₄ ⟨h₄, hst₄⟩
  replace hi₂ : (s₄.sys.tab ip).inum = i := by rw [hst₄ ip hmip, hst₃ ip hmip, hi₂]
  replace hk₂ : (s₄.sys.tab dp).inum = k := by rw [hst₄ dp hmdp, hst₃ dp hmdp, hk₂]
  refine seq (Q := fun _ s' => ∃ extra : Finset Nat, extra.card ≤ 4 ∧
    Fine sb p s' (((g₁.take dp).take ip).pay ∅ extra) ∧ Stable ((g₁.take dp).take ip) s₄ s') ?_ ?_
  · split
    · exact h₄.createDots hhdp hhip (hk₂.symm ▸ hkin) (hi₂.symm ▸ hiin) (show g₁.spent + 4 < MAXOPBLOCKS by omega)
    · exact pure ⟨∅, Nat.zero_le _, by rw [pay_empty]; exact h₄, Stable.refl _ _⟩
  rintro _ s₅ ⟨extra, hcard, h₅, hst₅⟩
  refine (h₅.look ip).2.2.seq ?_
  rintro inum s₅' ⟨rfl, rfl⟩
  have hk₅ : (s₅'.sys.tab dp).inum ∈ (g₁.pay ∅ extra).inums := by
    rw [hst₅ dp hmdp, hk₂]
    exact mem_of_mem hkin _ _
  have hspent := g₁.spent_extra hcard
  refine (h₅.dirlink hhdp hk₅ name (h₅.table.lt ip (h₅.ref_pos hhip))
    (show (g₁.pay ∅ extra).spent + 2 < MAXOPBLOCKS by omega)).seq ?_
  rintro r s₆ ⟨extra', hcard', h₆, hst₆⟩
  rw [pay_pay] at h₆
  split
  · exact Within.panic _
  have h₆' : Fine sb p s₆ (((g₁.pay ∅ (extra ∪ extra')).take ip).take dp) := by
    rw [take_comm]
    exact h₆
  have hdp' : dp ∉ ((g₁.pay ∅ (extra ∪ extra')).take ip).held := by
    show dp ∉ insert ip g₁.held
    rw [mem_insert, hheld₁, not_or]
    exact ⟨Ne.symm hip'.1, hdp⟩
  have hok' : (g₁.pay ∅ (extra ∪ extra')).Ok := hok₁
  refine (h₆'.iunlockput hdp' (hok'.take ip)).seq ?_
  rintro _ s₇ ⟨h₇, -⟩
  have hpay : g₁.pay ∅ (extra ∪ extra') = g.pay ({k} ∪ {i}) (extra ∪ extra') := by
    rw [hg₁, pay_pay, pay_pay, union_empty, empty_union, empty_union]
  rw [hpay] at h₇
  have hunion := card_union_le extra extra'
  have hpair : ({k} ∪ {i} : Finset Nat).card ≤ 2 := card_union_le {k} {i}
  exact pure ⟨{k} ∪ {i}, extra ∪ extra', hpair, by omega, h₇, hheld₁ ▸ hip'.2⟩

end Fine

/-- What `create` and the first part of `sys_open` end with: an inode that is locked, and at most eight more
blocks logged. -/
def Opened (sb : SuperBlock) (p : PPtr) (g : Ledger) (r : Option IPtr) (s' : DiskKernel) : Prop :=
  ∀ ip, r = some ip → ∃ inums extra : Finset Nat,
    inums.card ≤ 2 ∧ extra.card ≤ 6 ∧ Fine sb p s' ((g.pay inums extra).take ip) ∧ ip ∉ g.held

theorem Opened.none : Opened sb p g Option.none s' := by
  rintro ip ⟨⟩

/-- An inode that was there already. -/
theorem Opened.old (h : Fine sb p s' (g.take ip)) (hip : ip ∉ g.held) : Opened sb p g (some ip) s' := by
  rintro e ⟨rfl⟩
  refine ⟨∅, ∅, Nat.zero_le _, Nat.zero_le _, ?_, hip⟩
  rw [pay_empty]
  exact h

namespace Fine

theorem create (h : Fine sb p s g) (hhome : g.home) (hb : g.spent + 8 < MAXOPBLOCKS) (path : Str)
    (type major minor : Int16) : Within sb p (create path type major minor) s (Opened sb p g) := by
  refine (h.namex hhome path true).seq ?_
  rintro (- | ⟨dp, name⟩) s₁ ⟨h₁, -⟩
  · exact pure Opened.none
  refine h₁.ilock.seq ?_
  rintro _ s₂ ⟨h₂, hdp, -⟩
  refine (h₂.dirlookup (mem_insert_self _ _) name).seq ?_
  rintro (- | ⟨ip, off⟩) s₃ ⟨⟨h₃, -⟩, -⟩
  · refine (h₃.createNew hdp h.ok hb name type major minor).seq ?_
    intro ip s₄ hnew
    refine pure ?_
    rintro e ⟨rfl⟩
    exact hnew
  · have h₃' : Fine sb p s₃ ((g.acquire ip).take dp) := by
      unfold take
      rw [acquire_comm]
      exact h₃
    refine (h₃'.iunlockput hdp (h.ok.acquire ip)).seq ?_
    rintro _ s₄ ⟨h₄, -⟩
    refine h₄.ilock.seq ?_
    rintro _ s₅ ⟨h₅, hip, -⟩
    refine (h₅.look ip).1.seq ?_
    rintro f s₅' ⟨rfl, -⟩
    split
    · exact pure (Opened.old h₅ hip)
    · refine (h₅.iunlockput hip h.ok).seq ?_
      exact fun _ _ _ => pure Opened.none

/-- **`sys_mkdir` and `sys_mknod`**, after `create`. -/
theorem letGo (h : Opened sb p g (some ip) s) (hok : g.Ok) (r : Int) :
    Within sb p (do Sys.iunlockput ip; return r) s fun _ _ => True := by
  obtain ⟨inums, extra, -, -, h, hip⟩ := h ip rfl
  have hok' : (g.pay inums extra).Ok := hok
  refine (h.iunlockput hip hok').seq ?_
  exact fun _ _ _ => pure trivial

theorem sysMkdir (h : Fine sb p s g) (hhome : g.home) (hb : g.spent + 8 < MAXOPBLOCKS) (path : Str) :
    Within sb p (sysMkdir path) s fun _ _ => True := by
  refine (h.create hhome hb path T_DIR 0 0).seq ?_
  rintro (- | ip) s₁ h₁
  · exact pure trivial
  · exact letGo h₁ h.ok 0

theorem sysMknod (h : Fine sb p s g) (hhome : g.home) (hb : g.spent + 8 < MAXOPBLOCKS) (path : Str) (major minor : Int) :
    Within sb p (sysMknod path major minor) s fun _ _ => True := by
  refine (h.create hhome hb path T_DEVICE _ _).seq ?_
  rintro (- | ip) s₁ h₁
  · exact pure trivial
  · exact letGo h₁ h.ok 0

/-! ### Opening -/

theorem openInode (h : Fine sb p s g) (hhome : g.home) (hb : g.spent + 8 < MAXOPBLOCKS) (path : Str) (omode : UInt32) :
    Within sb p (openInode path omode) s (Opened sb p g) := by
  unfold Sys.openInode
  split
  · exact h.create hhome hb path T_FILE 0 0
  refine (h.namei hhome path).seq ?_
  rintro (- | ip) s₁ ⟨h₁, -⟩
  · exact pure Opened.none
  refine h₁.ilock.seq ?_
  rintro _ s₂ ⟨h₂, hip, -⟩
  refine (h₂.look ip).1.seq ?_
  rintro f s₂' ⟨rfl, -⟩
  split
  · refine (h₂.iunlockput hip h.ok).seq ?_
    exact fun _ _ _ => pure Opened.none
  · exact pure (Opened.old h₂ hip)

/-- `sys_open` once it has a descriptor. -/
theorem openFile (h : Fine sb p s (g.take ip)) (hb : g.spent + 1 < MAXOPBLOCKS) (omode : UInt32) (f : FPtr) (fd : Fd) :
    Within sb p (openFile ip omode f fd) s fun _ _ => True := by
  refine (h.look ip).1.seq ?_
  rintro i s' ⟨rfl, -⟩
  refine (h.other rfl).seq ?_
  rintro _ s₁ ⟨h₁, hsys, -⟩
  obtain ⟨k, hk⟩ : ∃ k, k = (s₁.sys.tab ip).inum := ⟨_, rfl⟩
  have h₁' : Fine sb p s₁ ((g.away.pay {k} ∅).take ip) := h₁.payInum k hb
  have hkin : k ∈ (g.away.pay {k} ∅).inums := mem_pay _ (mem_singleton_self k)
  refine seq (Q := fun _ s' => Fine sb p s' ((g.away.pay {k} ∅).take ip)) ?_ ?_
  · split
    · exact (h₁'.itrunc (mem_insert_self _ _) (hk ▸ hkin)).mono fun _ _ hit => hit.1
    · exact pure h₁'
  intro _ s₂ h₂
  refine (h₂.iunlock ip).seq ?_
  exact fun _ _ _ => pure trivial

/-- `fileclose` of a file that does not stand for anything yet. -/
theorem filecloseNone (h : Fine sb p s g) {f : FPtr} (hf : (s.rest.file f).data.type = .none) :
    Within sb p (fileclose f) s fun _ s' => Fine sb p s' g.away := by
  refine (h.other rfl).seq ?_
  rintro r s₁ ⟨h₁, -, hop⟩
  rw [perform] at hop
  split at hop
  · cases hop
  split at hop
  · obtain ⟨-, rfl⟩ := mk.inj (ok.inj hop)
    exact pure h₁
  obtain ⟨-, rfl⟩ := mk.inj (ok.inj hop)
  dsimp only
  rw [hf]
  exact pure h₁

/-- **`sys_open`.** -/
theorem sysOpen (h : Fine sb p s g) (hhome : g.home) (hb : g.spent + 9 < MAXOPBLOCKS) (path : Str) (omode : UInt32) :
    Within sb p (sysOpen path omode) s fun _ _ => True := by
  refine (h.openInode hhome (by omega) path omode).seq ?_
  rintro (- | ip) s₁ hopen
  · exact pure trivial
  obtain ⟨inums, extra, hinums, hextra, h₁, hip⟩ := hopen ip rfl
  have hspent := g.spent_pay inums extra
  obtain ⟨g₁, hg₁⟩ : ∃ g₁, g₁ = (g.pay inums extra).away := ⟨_, rfl⟩
  have hip₁ : ip ∉ g₁.held := by
    rw [hg₁]
    exact hip
  have hok : g₁.Ok := by
    rw [hg₁]
    exact h.ok
  refine (h₁.look ip).1.seq ?_
  rintro i s₁' ⟨rfl, -⟩
  split
  · exact letGo hopen h.ok _
  refine (h₁.other rfl).seq ?_
  rintro (- | f) s₂ ⟨h₂, -, hop⟩
  all_goals replace h₂ : Fine sb p s₂ (g₁.take ip) := hg₁ ▸ h₂
  · refine (h₂.iunlockput hip₁ hok).seq ?_
    exact fun _ _ _ => pure trivial
  -- the new file was free
  have hnone : (s₂.rest.file f).data.type = .none := by
    rw [perform] at hop
    split at hop
    · next f' hfind =>
        obtain ⟨hrest, hf⟩ := mk.inj (ok.inj hop)
        obtain rfl : f' = f := Option.some.inj hf
        rw [← hrest]
        show (Function.update s₁'.rest.file f' (s₁'.rest.file f').take f').data.type = .none
        rw [Function.update_self]
        exact (h₁.home hhome).2 f' (by simpa using List.find?_some hfind)
    · cases (mk.inj (ok.inj hop)).2
  refine (h₂.other rfl).seq ?_
  rintro (- | fd) s₃ ⟨h₃, -, hop₃⟩
  all_goals replace h₃ : Fine sb p s₃ (g₁.away.take ip) := h₃
  · have hsame : s₃.rest = s₂.rest := by
      rw [perform] at hop₃
      split at hop₃
      · cases (mk.inj (ok.inj hop₃)).2
      · exact (mk.inj (ok.inj hop₃)).1.symm
    refine (h₃.filecloseNone (hsame ▸ hnone)).seq ?_
    intro _ s₄ h₄
    have h₄' : Fine sb p s₄ (g₁.away.take ip) := h₄
    have hok' : g₁.away.Ok := hok
    refine (h₄'.iunlockput hip₁ hok').seq ?_
    exact fun _ _ _ => pure trivial
  · have hspent₁ : g₁.away.spent = (g.pay inums extra).spent := by
      rw [hg₁]
      rfl
    exact h₃.openFile (by omega) omode f fd

/-! ### The other sections -/

/-- A reference of the process is dropped. -/
theorem iputOld (h : Fine sb p s g) (hlt : g.mine ip < (s.sys.tab ip).ref) (hb : g.spent + 1 < MAXOPBLOCKS) :
    Within sb p (Sys.iput ip) s fun _ s' => ∃ g', Fine sb p s' g' := by
  have hpay := h.payInum (s.sys.tab ip).inum hb
  have hin : (s.sys.tab ip).inum ∈ (g.pay {(s.sys.tab ip).inum} ∅).inums := g.mem_pay (mem_singleton_self _)
  exact ((hpay.adopt hlt hin).iput h.ok).mono fun _ s' h' => ⟨_, h'.1⟩

/-- **`sys_chdir`.** -/
theorem sysChdir (h : Fine sb p s g) (hhome : g.home) (hb : g.spent + 1 < MAXOPBLOCKS) (path : Str) :
    Within sb p (sysChdir path) s fun _ _ => True := by
  refine (h.namei hhome path).seq ?_
  rintro (- | ip) s₁ ⟨h₁, -⟩
  · exact pure trivial
  refine h₁.ilock.seq ?_
  rintro _ s₂ ⟨h₂, hip, -⟩
  refine (h₂.look ip).1.seq ?_
  rintro f s₂' ⟨rfl, -⟩
  split
  · refine (h₂.iunlockput hip h.ok).seq ?_
    exact fun _ _ _ => pure trivial
  refine (h₂.iunlock ip).seq ?_
  rintro _ s₃ ⟨h₃, -⟩
  refine (h₃.cwd hhome).seq ?_
  rintro old s₄ ⟨h₄, hsys, hlt⟩
  refine (h₄.iputOld (hsys ▸ hlt) hb).seq ?_
  rintro _ s₅ ⟨g', h₅⟩
  refine (h₅.other rfl).seq ?_
  exact fun _ _ _ => pure trivial

/-- A segment of a program is only read. -/
theorem loadseg (h : Fine sb p s g.away) (hip : ip ∈ g.held) (offset sz n i : Nat) :
    Within sb p (loadseg ip offset sz n i) s fun _ s' => Fine sb p s' g.away := by
  induction n generalizing i s with
  | zero => exact pure h
  | succ n ih =>
    unfold Sys.loadseg
    split
    · refine (h.other rfl).seq ?_
      rintro ok s₁ ⟨h₁, -, -⟩
      split
      · exact Within.panic _
      refine (h₁.readi hip _ _).seq ?_
      rintro b s₁' ⟨rfl, -⟩
      split
      · exact pure h₁
      · exact ih h₁ _
    · exact pure h

theorem loadSegs (h : Fine sb p s g.away) (hip : ip ∈ g.held) (n off : Nat) :
    Within sb p (loadSegs ip n off) s fun _ s' => Fine sb p s' g.away := by
  induction n generalizing off s with
  | zero => exact pure h
  | succ n ih =>
    refine (h.readi hip _ _).seq ?_
    rintro b s' ⟨rfl, -⟩
    dsimp only
    split
    · exact pure h
    split
    · exact ih h _
    split
    · exact pure h
    split
    · exact pure h
    refine (h.other rfl).seq ?_
    rintro ok s₁ ⟨h₁, -, -⟩
    split
    · exact pure h₁
    split
    · exact pure h₁
    refine (h₁.loadseg hip _ _ _ _).seq ?_
    intro ok s₂ h₂
    split
    · exact ih h₂ _
    · exact pure h₂

theorem loadElf (h : Fine sb p s g) (hip : ip ∈ g.held) :
    Within sb p (loadElf ip) s fun _ s' => Fine sb p s' g.away := by
  have haway := h.away
  refine (h.readi hip _ _).seq ?_
  rintro b s' ⟨rfl, -⟩
  split
  · exact pure haway
  split
  · exact pure haway
  refine (h.other rfl).seq ?_
  rintro ok s₁ ⟨h₁, -, -⟩
  split
  · exact pure h₁
  · exact h₁.loadSegs hip _ _

/-- **`exec`.** -/
theorem exec (h : Fine sb p s g) (hhome : g.home) (path : Str) (argc : Nat) :
    Within sb p (exec path argc) s fun _ _ => True := by
  refine (h.namei hhome path).seq ?_
  rintro (- | ip) s₁ ⟨h₁, -⟩
  · exact pure trivial
  refine h₁.ilock.seq ?_
  rintro _ s₂ ⟨h₂, hip, -⟩
  refine (h₂.loadElf (mem_insert_self _ _)).seq ?_
  intro ok s₃ h₃
  replace h₃ : Fine sb p s₃ (g.away.take ip) := h₃
  have hok : g.away.Ok := h.ok
  refine (h₃.iunlockput hip hok).seq ?_
  rintro _ s₄ ⟨h₄, -⟩
  split
  · exact pure trivial
  · refine (h₄.other rfl).seq ?_
    exact fun _ _ _ => pure trivial

/-- The last reference to an open file. -/
theorem fileclose (h : Fine sb p s g) (hb : g.spent + 1 < MAXOPBLOCKS) (f : FPtr)
    (hf : ∀ ip, (s.rest.file f).data.ip = some ip → 0 < (s.rest.file f).ref →
      (s.rest.file f).data.type = .inode ∨ (s.rest.file f).data.type = .device → g.mine ip < (s.sys.tab ip).ref) :
    Within sb p (fileclose f) s fun _ _ => True := by
  refine (h.other rfl).seq ?_
  rintro r s₁ ⟨h₁, hsys, hop⟩
  rw [perform] at hop
  split at hop
  · cases hop
  next href =>
    split at hop
    · obtain ⟨-, rfl⟩ := mk.inj (ok.inj hop)
      exact pure trivial
    obtain ⟨-, rfl⟩ := mk.inj (ok.inj hop)
    dsimp only
    split
    · split
      · exact (h₁.other rfl).mono fun _ _ _ => trivial
      · exact Within.panic _
    · split
      · next hty =>
          split
          · next ip hip =>
              have hlt := hf ip hip (Nat.pos_of_ne_zero (by omega)) hty
              exact (h₁.iputOld (hsys ▸ hlt) hb).mono fun _ _ _ => trivial
          · exact Within.panic _
      · exact pure trivial

end Fine

end Programs

/-! ### Sections -/

/-- What a call does between `begin_op` and `end_op`, apart from `filewrite`.  `exit` closes files with
`fileclose`, and has a section of its own for the current directory. -/
inductive OpSection where
  | sysOpen (path : Str) (omode : UInt32)
  | sysLink (old new : Str)
  | sysUnlink (path : Str)
  | sysMkdir (path : Str)
  | sysMknod (path : Str) (major minor : Int)
  | sysChdir (path : Str)
  | exec (path : Str) (argc : Nat)
  | fileclose (f : FPtr)
  | exit

/-- Forget what a program returns. -/
def discard (c : FsProg Int) : FsProg Unit := do
  let _ ← c
  return ()

def OpSection.prog : OpSection → FsProg Unit
  | .sysOpen path omode => discard (Sys.sysOpen path omode)
  | .sysLink old new => discard (Sys.sysLink old new)
  | .sysUnlink path => discard (Sys.sysUnlink path)
  | .sysMkdir path => discard (Sys.sysMkdir path)
  | .sysMknod path major minor => discard (Sys.sysMknod path major minor)
  | .sysChdir path => discard (Sys.sysChdir path)
  | .exec path argc => discard (Sys.exec path argc)
  | .fileclose f => Sys.fileclose f
  | .exit => do
    let ip ← issue .cwd
    Sys.iput ip
    issue (.setCwd none)

/-- A file system between two sections, as process `p` finds it. -/
structure Mounted (sb : SuperBlock) (p : PPtr) (s : DiskKernel) : Prop where
  /-- Blocks belong to one inode each, and the table of inodes agrees with the disk. -/
  table : Fs.TableInv sb s.sys
  noHoles : Fs.NoHoles sb s.sys.disk
  dirs : DirsOk sb s.sys.disk
  root : ROOTINO < sb.ninodes
  /-- Inodes without links are in use. -/
  linked : ∀ i, i < sb.ninodes → (dinode sb s.sys.disk i).type ≠ 0 → (dinode sb s.sys.disk i).nlink = 0 →
    ∃ e, (s.sys.tab e).inum = i ∧ 0 < (s.sys.tab e).ref
  cwd : ∀ ip, (s.rest.proc p).cwd = some ip → 0 < (s.sys.tab ip).ref
  /-- Free files stand for nothing. -/
  closed : ∀ f, (s.rest.file f).ref = 0 → (s.rest.file f).data.type = .none
  /-- The inodes of open files are in use. -/
  opened : ∀ f ip, (s.rest.file f).data.ip = some ip → 0 < (s.rest.file f).ref →
    (s.rest.file f).data.type = .inode ∨ (s.rest.file f).data.type = .device → 0 < (s.sys.tab ip).ref

section Sections

variable {sb : SuperBlock} {p : PPtr} {s : DiskKernel}

/-- A section starts with an empty ledger. -/
theorem Mounted.fine (h : Mounted sb p s) (hone : sb.size ≤ BPB) (hlog : s.log = []) : Fine sb p s .start where
  table := h.table
  noHoles := h.noHoles
  dirs := h.dirs
  one := hone
  root := h.root
  mine := fun _ => Nat.zero_le _
  held := by
    rintro e ⟨⟩
  linked := fun i hi hty hn => .inr (h.linked i hi hty hn)
  home := fun _ => ⟨h.cwd, h.closed⟩
  log := by
    rw [hlog]
    rintro b ⟨⟩
  budget := by
    decide

theorem Within.discard {c : FsProg Int} (h : Within sb p c s fun _ _ => True) :
    Within sb p (discard c) s fun _ _ => True := h.seq fun _ _ _ => pure trivial

/-- **Every section fits into its reservation.**  On a file system with one block for the free map, a section
that runs alone logs at most `MAXOPBLOCKS` blocks: in the state that it ends in, and in
every state on the way, in case it comes to no end. -/
theorem section_logs_le (hone : sb.size ≤ BPB) (h : Mounted sb p s) (hlog : s.log = []) (c : OpSection) {t : DiskKernel}
    (ht : Prog.Passes (performDisk sb p) c.prog s t) : t.log.toFinset.card ≤ MAXOPBLOCKS := by
  have hf := h.fine hone hlog
  have hin : Within sb p c.prog s fun _ _ => True := by
    cases c with
    | sysOpen path omode => exact (hf.sysOpen trivial (by decide) path omode).discard
    | sysLink old new => exact (hf.sysLink trivial (by decide) old new).discard
    | sysUnlink path => exact (hf.sysUnlink trivial (by decide) path).discard
    | sysMkdir path => exact (hf.sysMkdir trivial (by decide) path).discard
    | sysMknod path major minor => exact (hf.sysMknod trivial (by decide) path major minor).discard
    | sysChdir path => exact (hf.sysChdir trivial (by decide) path).discard
    | exec path argc => exact (hf.exec trivial path argc).discard
    | fileclose f => exact hf.fileclose (by decide) f (h.opened f)
    | exit =>
      refine (hf.cwd trivial).seq ?_
      rintro ip s₁ ⟨h₁, hsys, hlt⟩
      refine (h₁.iputOld (hsys ▸ hlt) (by decide)).seq ?_
      rintro _ s₂ ⟨g', h₂⟩
      exact (h₂.other rfl).mono fun _ _ _ => trivial
  have hbound : Bounded t := Prog.of_passes hin hf.bounded ht
  exact hbound

/-- The first process on a disk with one file. -/
theorem mounted_tiny : Mounted tinySb ⟨0, NPROC_pos⟩ (bootDisk tinyDisk) := by
  have hzero : ∀ e : IPtr, 0 < (bootTable e).ref → e.val = 0 := by
    intro e he
    by_contra hne
    unfold bootTable bootTab at he
    rw [if_neg hne] at he
    exact absurd he (Nat.lt_irrefl 0)
  have hfirst : ∀ e : IPtr, e.val = 0 → bootTable e = { ref := 1, inum := ROOTINO, valid := false, mem := DInode.zero } := by
    intro e he
    unfold bootTable bootTab
    rw [if_pos he]
  have hty : ∀ i, i < tinySb.ninodes → (dinode tinySb tinyDisk i).type ≠ 0 → i = 1 := by
    intro i hi hty
    by_contra hne
    rw [tiny_dinode hi, if_neg hne] at hty
    exact hty rfl
  refine ⟨⟨tiny_layout, tiny_tableInv.owned, ?_, ?_, ?_⟩, tiny_noHoles, ?_, by decide, ?_, ?_, ?_, ?_⟩
  · intro e e' he he' _
    exact Fin.ext ((hzero e he).trans (hzero e' he').symm)
  · intro e he
    show (bootTable e).inum < _
    rw [hfirst e (hzero e he)]
    decide
  · intro e he hv
    have hv' : (bootTable e).valid = true := hv
    rw [hfirst e (hzero e he)] at hv'
    cases hv'
  · intro i hi hdir
    have hdir' : (dinode tinySb tinyDisk i).type = T_DIR := hdir
    have hi1 := hty i hi (by rw [hdir']; decide)
    rw [tiny_dinode hi, if_pos hi1] at hdir'
    exact absurd hdir' (by decide)
  · intro i hi hne hn
    have hn' : (dinode tinySb tinyDisk i).nlink = 0 := hn
    rw [tiny_dinode hi, if_pos (hty i hi hne)] at hn'
    exact absurd hn' (by decide)
  · rintro ip ⟨⟩
    exact Nat.one_pos
  · exact fun _ _ => rfl
  · rintro f ip ⟨⟩

theorem section_logs_le_tiny : Mounted tinySb ⟨0, NPROC_pos⟩ (bootDisk tinyDisk) ∧
    ∀ t, Prog.Passes (performDisk tinySb ⟨0, NPROC_pos⟩) (OpSection.sysOpen [] O_TRUNC).prog (bootDisk tinyDisk) t →
      t.log.toFinset.card ≤ MAXOPBLOCKS :=
  ⟨mounted_tiny, fun _ ht => section_logs_le (by decide) mounted_tiny rfl _ ht⟩

end Sections

end Xv6.Sys

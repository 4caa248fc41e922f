/-
Xv6/VirtioInv.lean

The protocol between the disk driver and the device.

A request is live from when its entry in the avail ring is visible until its
completion has been processed.  For each live request there is one thread that waits for
it, with three descriptors of its own (`Chains`), formatted for it and recorded
(`Stage`).  So the heads of live requests differ, there are never more than `NUM` of
them, and neither ring is overrun, however often its indices wrap.
-/
import Xv6.Virtio

namespace Xv6.Virtio

open Function List

variable {P B : Type} {s s' : Sys P B} {p q : P} {r : Req P B} {i k : Nat}

/-! ### Allocation of descriptors -/

theorem allocDesc_some (h : allocDesc s = some (i, s')) : i < NUM ∧ s.free i = true ∧ s' = s.useDesc i := by
  obtain ⟨j, hj, heq⟩ := Option.map_eq_some_iff.mp h
  cases heq
  exact ⟨mem_range.mp (mem_of_find?_eq_some hj), List.find?_some hj, rfl⟩

theorem freeDesc_ok [DecidableEq B] (hi : i < NUM) (hfree : s.free i = false) :
    freeDesc s i = .ok ((s.clearDesc i).wakeup .free) := by
  rw [freeDesc, if_neg (Nat.not_le.mpr hi), hfree]
  rfl

/-- **`alloc3_desc`** takes three descriptors, or leaves all as they are but for the content of
free ones. -/
theorem alloc3Desc_cases [DecidableEq B] (s : Sys P B) :
    (∃ d sl, alloc3Desc s = .ok (none, { s with desc := d, sleeping := sl }) ∧
      ∀ i, s.free i = false → d i = s.desc i) ∨
    ∃ i₀ i₁ i₂, alloc3Desc s = .ok (some (i₀, i₁, i₂), ((s.useDesc i₀).useDesc i₁).useDesc i₂) ∧
      [i₀, i₁, i₂].Nodup ∧ ∀ i ∈ [i₀, i₁, i₂], i < NUM ∧ s.free i = true := by
  rw [alloc3Desc]
  rcases h₀ : allocDesc s with - | ⟨i₀, s₁⟩
  · exact .inl ⟨s.desc, s.sleeping, rfl, fun _ _ => rfl⟩
  obtain ⟨hi₀, hf₀, rfl⟩ := allocDesc_some h₀
  have hback₀ : update s.free i₀ true = s.free := update_eq_self_iff.mpr hf₀.symm
  have hne₀ : ∀ i, s.free i = false → i ≠ i₀ := fun i hi heq => by rw [heq, hf₀] at hi; cases hi
  rcases h₁ : allocDesc (s.useDesc i₀) with - | ⟨i₁, s₂⟩
  · -- only one was free
    have hfree : update (update s.free i₀ false) i₀ true = s.free := by
      rw [update_idem, hback₀]
    refine .inl ⟨update s.desc i₀ ⟨.null, 0, 0, 0⟩, ((s.useDesc i₀).clearDesc i₀ |>.wakeup .free).sleeping, ?_,
      fun i hi => update_of_ne (hne₀ i hi) _ _⟩
    simp only [h₁, freeDesc_ok hi₀ (show (s.useDesc i₀).free i₀ = false by simp)]
    show Except.ok (none, { s with desc := _, free := update (update s.free i₀ false) i₀ true, sleeping := _ }) = _
    rw [hfree]
    rfl
  obtain ⟨hi₁, hf₁, rfl⟩ := allocDesc_some h₁
  have h₁₀ : i₁ ≠ i₀ := by
    rintro rfl
    simp at hf₁
  rw [Sys.useDesc_free, update_of_ne h₁₀] at hf₁
  have hne₁ : ∀ i, s.free i = false → i ≠ i₁ := fun i hi heq => by rw [heq, hf₁] at hi; cases hi
  rcases h₂ : allocDesc ((s.useDesc i₀).useDesc i₁) with - | ⟨i₂, s₃⟩
  · -- only two were free
    have hfree : update (update (update (update s.free i₀ false) i₁ false) i₀ true) i₁ true = s.free := by
      rw [update_comm h₁₀, update_idem, update_idem, hback₀]
      exact update_eq_self_iff.mpr hf₁.symm
    refine .inl ⟨update (update s.desc i₀ ⟨.null, 0, 0, 0⟩) i₁ ⟨.null, 0, 0, 0⟩,
      (((((s.useDesc i₀).useDesc i₁).clearDesc i₀).wakeup .free).clearDesc i₁ |>.wakeup .free).sleeping, ?_,
      fun i hi => by rw [update_of_ne (hne₁ i hi), update_of_ne (hne₀ i hi)]⟩
    simp only [h₁, h₂,
      freeDesc_ok hi₀ (show ((s.useDesc i₀).useDesc i₁).free i₀ = false by simp [h₁₀.symm])]
    show freeDesc ((((s.useDesc i₀).useDesc i₁).clearDesc i₀).wakeup .free) i₁ >>= _ = _
    rw [freeDesc_ok hi₁ (by simp [h₁₀])]
    show Except.ok (none, { s with
      desc := _
      free := update (update (update (update s.free i₀ false) i₁ false) i₀ true) i₁ true
      sleeping := _ }) = _
    rw [hfree]
    rfl
  obtain ⟨hi₂, hf₂, rfl⟩ := allocDesc_some h₂
  have h₂₁ : i₂ ≠ i₁ := by
    rintro rfl
    simp at hf₂
  have h₂₀ : i₂ ≠ i₀ := by
    rintro rfl
    simp [h₂₁] at hf₂
  simp only [Sys.useDesc_free, update_of_ne h₂₁, update_of_ne h₂₀] at hf₂
  refine .inr ⟨i₀, i₁, i₂, by simp only [h₁, h₂], by simp [h₁₀.symm, h₂₀.symm, h₂₁.symm], ?_⟩
  simp [hi₀, hi₁, hi₂, hf₀, hf₁, hf₂]

/-- The descriptors of a request are formatted for it. -/
structure Shape (s : Sys P B) (r : Req P B) : Prop where
  ops : s.ops r.i₀ = r.header
  desc₀ : s.desc r.i₀ = r.desc₀
  desc₁ : s.desc r.i₁ = r.desc₁
  desc₂ : s.desc r.i₂ = r.desc₂

/-- The descriptors of a request are three, and are descriptors. -/
structure Req.Fit (r : Req P B) : Prop where
  nodup : r.chain.Nodup
  lt : ∀ i ∈ r.chain, i < NUM

theorem Req.Fit.toNat (h : r.Fit) (hi : i ∈ r.chain) : (UInt16.ofNat i).toNat = i := by
  have := h.lt i hi
  rw [NUM] at this
  rw [UInt16.toNat_ofNat']
  omega

/-- The descriptors of a request are cleared and free. -/
@[simps] def Sys.release (s : Sys P B) (r : Req P B) (sl : P → Option (Chan B)) : Sys P B :=
  { s with
    desc := update (update (update s.desc r.i₀ ⟨.null, 0, 0, 0⟩) r.i₁ ⟨.null, 0, 0, 0⟩) r.i₂ ⟨.null, 0, 0, 0⟩
    free := update (update (update s.free r.i₀ true) r.i₁ true) r.i₂ true
    sleeping := sl }

section FreeChain

variable [DecidableEq B] {fuel i : Nat}

theorem freeChain_next (hi : i < NUM) (hbusy : s.free i = false) (hflag : (s.desc i).flags &&& VRING_DESC_F_NEXT ≠ 0) :
    freeChain (fuel + 1) s i = freeChain fuel ((s.clearDesc i).wakeup .free) (s.desc i).next.toNat := by
  rw [freeChain, freeDesc_ok hi hbusy]
  exact if_pos hflag

theorem freeChain_last (hi : i < NUM) (hbusy : s.free i = false) (hflag : (s.desc i).flags &&& VRING_DESC_F_NEXT = 0) :
    freeChain (fuel + 1) s i = .ok ((s.clearDesc i).wakeup .free) := by
  rw [freeChain, freeDesc_ok hi hbusy]
  exact if_neg (not_not.mpr hflag)

/-- **`free_chain`** frees the three descriptors of a request. -/
theorem freeChain_ok (hfit : r.Fit) (hs : Shape s r) (hbusy : ∀ i ∈ r.chain, s.free i = false) :
    ∃ sl, freeChain (NUM + 1) s r.i₀ = .ok (s.release r sl) := by
  have hnodup := hfit.nodup
  simp only [Req.chain, nodup_cons, mem_cons, not_mem_nil, or_false, not_or] at hnodup
  obtain ⟨⟨h₀₁, h₀₂⟩, h₁₂, -⟩ := hnodup
  have hmem₀ : r.i₀ ∈ r.chain := by simp [Req.chain]
  have hmem₁ : r.i₁ ∈ r.chain := by simp [Req.chain]
  have hmem₂ : r.i₂ ∈ r.chain := by simp [Req.chain]
  -- the descriptors are read before they are cleared
  have hflag₁ : ∀ w : Bool, ((if w then 0 else VRING_DESC_F_WRITE) ||| VRING_DESC_F_NEXT) &&& VRING_DESC_F_NEXT ≠ 0 := by
    decide
  have hflag₂ : VRING_DESC_F_WRITE &&& VRING_DESC_F_NEXT = 0 := by decide
  have hd₁ : ((s.clearDesc r.i₀).wakeup .free).desc r.i₁ = r.desc₁ := by
    rw [← hs.desc₁]
    exact update_of_ne (Ne.symm h₀₁) _ _
  have hd₂ : ((((s.clearDesc r.i₀).wakeup .free).clearDesc r.i₁).wakeup .free).desc r.i₂ = r.desc₂ := by
    rw [← hs.desc₂]
    exact (update_of_ne (Ne.symm h₁₂) _ _).trans (update_of_ne (Ne.symm h₀₂) _ _)
  have hrun : freeChain (NUM + 1) s r.i₀ = .ok
      ((((((s.clearDesc r.i₀).wakeup .free).clearDesc r.i₁).wakeup .free).clearDesc r.i₂).wakeup .free) := by
    calc freeChain (NUM + 1) s r.i₀
        = freeChain 8 ((s.clearDesc r.i₀).wakeup .free) r.i₁ := by
          rw [NUM, freeChain_next (hfit.lt _ hmem₀) (hbusy _ hmem₀) (by rw [hs.desc₀]; exact hflag₁ true), hs.desc₀]
          exact congrArg _ (hfit.toNat hmem₁)
      _ = freeChain 7 ((((s.clearDesc r.i₀).wakeup .free).clearDesc r.i₁).wakeup .free) r.i₂ := by
          rw [freeChain_next (hfit.lt _ hmem₁) (by simpa [Ne.symm h₀₁] using hbusy _ hmem₁)
            (by rw [hd₁]; exact hflag₁ r.write), hd₁]
          exact congrArg _ (hfit.toNat hmem₂)
      _ = _ := freeChain_last (hfit.lt _ hmem₂) (by simpa [Ne.symm h₀₂, Ne.symm h₁₂] using hbusy _ hmem₂)
          (by rw [hd₂]; exact hflag₂)
  exact ⟨_, hrun⟩

end FreeChain

/-! ### The invariant -/

/-- The chains of the threads: each has three descriptors of its own, and every descriptor that
is not free belongs to one of them. -/
structure Chains (job : P → Option (Req P B)) (free : Nat → Bool) : Prop where
  who : ∀ p r, job p = some r → r.who = p
  fit : ∀ p r, job p = some r → r.Fit
  busy : ∀ p r, job p = some r → ∀ i ∈ r.chain, free i = false
  disjoint : ∀ p q r r' i, job p = some r → job q = some r' → i ∈ r.chain → i ∈ r'.chain → p = q
  cover : ∀ i < NUM, free i = false → ∃ p r, job p = some r ∧ i ∈ r.chain

namespace Chains

variable [DecidableEq P] {job : P → Option (Req P B)} {free free' : Nat → Bool}

/-- A thread gets three free descriptors. -/
theorem alloc (h : Chains job free) (hnone : job p = none) (hwho : r.who = p) (hfit : r.Fit)
    (hwere : ∀ i ∈ r.chain, free i = true) (hfree : ∀ i, free' i = false ↔ free i = false ∨ i ∈ r.chain) :
    Chains (update job p (some r)) free' := by
  -- the descriptors of the others were not free
  have hother : ∀ q r' i, q ≠ p → update job p (some r) q = some r' → i ∈ r'.chain →
      job q = some r' ∧ i ∉ r.chain := by
    intro q r' i hqp hq hi
    rw [update_of_ne hqp] at hq
    refine ⟨hq, fun hir => ?_⟩
    have := h.busy q r' hq i hi
    rw [hwere i hir] at this
    cases this
  have hself : ∀ r', update job p (some r) p = some r' → r' = r := by
    intro r' hr'
    rw [update_self] at hr'
    exact (Option.some.inj hr').symm
  refine ⟨fun q r' hq => ?_, fun q r' hq => ?_, fun q r' hq i hi => ?_, fun q q' r' r'' i hq hq' hi hi' => ?_,
    fun i hi hb => ?_⟩
  · by_cases hqp : q = p
    · rw [hqp] at hq ⊢
      rw [hself r' hq, hwho]
    · rw [update_of_ne hqp] at hq
      exact h.who q r' hq
  · by_cases hqp : q = p
    · rw [hqp] at hq
      rw [hself r' hq]
      exact hfit
    · rw [update_of_ne hqp] at hq
      exact h.fit q r' hq
  · by_cases hqp : q = p
    · rw [hqp] at hq
      rw [hself r' hq] at hi
      exact (hfree i).mpr (.inr hi)
    · exact (hfree i).mpr (.inl (h.busy q r' (hother q r' i hqp hq hi).1 i hi))
  · by_cases hqp : q = p
    · by_cases hqp' : q' = p
      · rw [hqp, hqp']
      · rw [hqp] at hq
        rw [hself r' hq] at hi
        exact absurd hi (hother q' r'' i hqp' hq' hi').2
    · by_cases hqp' : q' = p
      · rw [hqp'] at hq'
        rw [hself r'' hq'] at hi'
        exact absurd hi' (hother q r' i hqp hq hi).2
      · exact h.disjoint q q' r' r'' i (hother q r' i hqp hq hi).1 (hother q' r'' i hqp' hq' hi').1 hi hi'
  · rcases (hfree i).mp hb with hb | hb
    · obtain ⟨q, r', hq, hi'⟩ := h.cover i hi hb
      have hqp : q ≠ p := by
        rintro rfl
        rw [hnone] at hq
        cases hq
      exact ⟨q, r', by rw [update_of_ne hqp]; exact hq, hi'⟩
    · exact ⟨p, r, update_self _ _ _, hb⟩

/-- A thread gives its descriptors back. -/
theorem release (h : Chains job free) (hjob : job p = some r)
    (hfree : ∀ i, free' i = false ↔ free i = false ∧ i ∉ r.chain) : Chains (update job p none) free' := by
  have hother : ∀ q r', update job p none q = some r' → q ≠ p ∧ job q = some r' := by
    intro q r' hq
    by_cases hqp : q = p
    · rw [hqp, update_self] at hq
      cases hq
    · rw [update_of_ne hqp] at hq
      exact ⟨hqp, hq⟩
  refine ⟨fun q r' hq => h.who q r' (hother q r' hq).2, fun q r' hq => h.fit q r' (hother q r' hq).2,
    fun q r' hq i hi => ?_, fun q q' r' r'' i hq hq' => h.disjoint q q' r' r'' i (hother q r' hq).2 (hother q' r'' hq').2,
    fun i hi hb => ?_⟩
  · obtain ⟨hqp, hq⟩ := hother q r' hq
    exact (hfree i).mpr ⟨h.busy q r' hq i hi, fun hir => hqp (h.disjoint q p r' r i hq hjob hi hir)⟩
  · obtain ⟨hb, hir⟩ := (hfree i).mp hb
    obtain ⟨q, r', hq, hi'⟩ := h.cover i hi hb
    have hqp : q ≠ p := by
      rintro rfl
      rw [hjob] at hq
      cases hq
      exact hir hi'
    exact ⟨q, r', by rw [update_of_ne hqp]; exact hq, hi'⟩

end Chains

/-- The requests that were published and whose completions were not processed, by number. -/
def Sys.live (s : Sys P B) : List Nat :=
  List.range' s.taken (s.reqs.length - s.taken) ++
    (s.work.map Work.num ++ (s.posts.drop s.cleared.length).map Post.num)

/-- The device has written the status of a request. -/
def Sys.Written (s : Sys P B) (k : Nat) : Prop :=
  (∃ w ∈ s.work, w.num = k ∧ w.written = true) ∨ ∃ x ∈ s.posts, x.num = k

/-- A request is recorded for `virtio_disk_intr`. -/
structure Recorded (s : Sys P B) (r : Req P B) : Prop extends Shape s r where
  info : (s.info r.i₀).b = some r.buf

/-- A request was published as the `k`-th. -/
structure Published (s : Sys P B) (k : Nat) (r : Req P B) : Prop extends Recorded s r where
  req : s.reqs[k]? = some r
  live : s.disk r.buf = true → k ∈ s.live
  written : s.Written k → (s.info r.i₀).status = 0

/-- What holds while a thread is at `pc`. -/
def Stage (s : Sys P B) : Pc P B → Prop
  | .record r => Shape s r
  | .publish r => Recorded s r ∧ s.disk r.buf = true
  | .notify r => Recorded s r ∧ s.disk r.buf = true ∧ s.ring (s.avail.toNat % NUM) = UInt16.ofNat r.i₀
  | .wait k r | .asleep k r | .relock k r => Published s k r
  | _ => True

/-- The driver, the device and the threads agree. -/
structure Inv (s : Sys P B) : Prop where
  lock : Mutex Pc.holds s.pc s.lock
  owner : ∀ p c, (s.pc p).call = some c → s.owner c.buf = some p ∧ c.sector = sectorOf (s.blockno c.buf)
  chains : Chains (fun p => (s.pc p).job) s.free
  stage : ∀ p, Stage s (s.pc p)
  avail : Fifo.Holds NUM (2 ^ 16) s.ring s.seen.toNat s.avail.toNat (s.reqs.map fun r => UInt16.ofNat r.i₀) s.taken
  used : Fifo.Holds NUM (2 ^ 16) s.usedRing s.usedIdx.toNat s.used.toNat (s.posts.map Post.id) s.cleared.length
  perm : (s.work.map Work.num ++ s.posts.map Post.num).Perm (List.range s.taken)
  live : ∀ k ∈ s.live, ∃ r, s.reqs[k]? = some r ∧ (s.pc r.who).waits = some (k, r) ∧ s.disk r.buf = true
  work : ∀ w ∈ s.work, ∃ r, s.reqs[w.num]? = some r ∧ w.head = UInt16.ofNat r.i₀
  posts : ∀ x ∈ s.posts, ∃ r, s.reqs[x.num]? = some r ∧ x.id = UInt32.ofNat r.i₀
  cleared : ∀ (j : Nat) (x : Post) (b : B), s.posts[j]? = some x → s.cleared[j]? = some b → ∃ r, s.reqs[x.num]? = some r ∧ r.buf = b

variable {pc : Pc P B}

theorem Pc.job_of_waits (h : pc.waits = some (k, r)) : pc.job = some r := by
  cases pc with
  | wait k' r' | asleep k' r' | relock k' r' =>
    cases h
    rfl
  | _ => cases h

theorem Pc.call_of_job (h : pc.job = some r) : pc.call = some r.toCall := by
  cases pc with
  | format r' | record r' | publish r' | notify r' | wait k' r' | asleep k' r' | relock k' r' =>
    cases h
    rfl
  | _ => cases h

theorem Stage.of_waits (h : Stage s pc) (hw : pc.waits = some (k, r)) : Published s k r := by
  cases pc with
  | wait k' r' | asleep k' r' | relock k' r' =>
    cases hw
    exact h
  | _ => cases hw

theorem Stage.of_published (hw : pc.waits = some (k, r)) (h : Published s k r) : Stage s pc := by
  cases pc with
  | wait k' r' | asleep k' r' | relock k' r' =>
    cases hw
    exact h
  | _ => cases hw

namespace Inv

/-- The thread that waits for a live request, and what it knows. -/
theorem of_live (h : Inv s) (hk : k ∈ s.live) (hr : s.reqs[k]? = some r) :
    (s.pc r.who).waits = some (k, r) ∧ s.disk r.buf = true ∧ Published s k r := by
  obtain ⟨r', hr', hwaits, hdisk⟩ := h.live k hk
  obtain rfl : r' = r := Option.some.inj (hr'.symm.trans hr)
  exact ⟨hwaits, hdisk, (h.stage _).of_waits hwaits⟩

/-- A buffer is in one call at a time. -/
theorem who_of_buf (h : Inv s) {c c' : Call B} (hp : (s.pc p).call = some c) (hq : (s.pc q).call = some c')
    (hbuf : c.buf = c'.buf) : p = q := by
  have hp' := (h.owner p c hp).1
  rw [hbuf, (h.owner q c' hq).1] at hp'
  exact (Option.some.inj hp').symm

theorem live_nodup (h : Inv s) : s.live.Nodup := by
  have hdone : (s.work.map Work.num ++ s.posts.map Post.num).Nodup := h.perm.nodup_iff.mpr nodup_range
  have hsub : (s.work.map Work.num ++ (s.posts.drop s.cleared.length).map Post.num).Sublist
      (s.work.map Work.num ++ s.posts.map Post.num) :=
    List.Sublist.append_left ((drop_sublist _ _).map _) _
  refine List.Nodup.append nodup_range' (hdone.sublist hsub) ?_
  intro k hk hk'
  have hlt := mem_range.mp (h.perm.subset (hsub.subset hk'))
  have hge := (mem_range'_1.mp hk).1
  omega

/-- **Live requests have different heads**, other than those that threads have not published. -/
theorem room (h : Inv s) {L : List Nat} (hL : L.Nodup) (hlive : ∀ k ∈ L, k ∈ s.live) {A : List Nat}
    (hA : A.Nodup) (hlt : ∀ i ∈ A, i < NUM)
    (hne : ∀ i ∈ A, ∀ p k r, (s.pc p).waits = some (k, r) → i ∉ r.chain) : L.length + A.length ≤ NUM := by
  let head : Nat → Nat := fun k => (s.reqs[k]?.map Req.i₀).getD 0
  have hof : ∀ k ∈ L, ∃ p r, (s.pc p).waits = some (k, r) ∧ head k = r.i₀ := by
    intro k hk
    obtain ⟨r, hr, hwaits, -⟩ := h.live k (hlive k hk)
    exact ⟨r.who, r, hwaits, by simp [head, hr]⟩
  have hmem : ∀ r : Req P B, r.i₀ ∈ r.chain := fun r => by simp [Req.chain]
  have hnodup : (L.map head ++ A).Nodup := by
    refine List.Nodup.append (hL.map_on ?_) hA ?_
    · -- two requests with one head have one thread
      intro k hk k' hk' heq
      obtain ⟨p, r, hp, hr⟩ := hof k hk
      obtain ⟨q, r', hq, hr'⟩ := hof k' hk'
      obtain rfl : p = q := h.chains.disjoint p q r r' r.i₀ (Pc.job_of_waits hp) (Pc.job_of_waits hq) (hmem r)
        (by rw [← hr, heq, hr']; exact hmem r')
      rw [hp] at hq
      cases hq
      rfl
    · intro i hi hiA
      obtain ⟨k, hk, rfl⟩ := mem_map.mp hi
      obtain ⟨p, r, hp, hr⟩ := hof k hk
      exact hne _ hiA p k r hp (by rw [hr]; exact hmem r)
  have hsub : L.map head ++ A ⊆ List.range NUM := by
    intro i hi
    rw [mem_range]
    rcases mem_append.mp hi with hi | hi
    · obtain ⟨k, hk, rfl⟩ := mem_map.mp hi
      obtain ⟨p, r, hp, hr⟩ := hof k hk
      rw [hr]
      exact (h.chains.fit p r (Pc.job_of_waits hp)).lt _ (hmem r)
    · exact hlt i hi
  have hlen := (hnodup.subperm hsub).length_le
  rwa [length_append, length_map, length_range] at hlen

end Inv

/-! ### Steps that change little -/

/-- What a thread knows does not depend on what other threads do to their own descriptors and
buffers. -/
theorem Stage.frame (h : Stage s pc)
    (hmem : ∀ r, pc.job = some r → (∀ i ∈ r.chain, s'.desc i = s.desc i) ∧ s'.ops r.i₀ = s.ops r.i₀ ∧
      s'.info r.i₀ = s.info r.i₀ ∧ s'.disk r.buf = s.disk r.buf)
    (hring : pc.holds = true → s'.ring = s.ring ∧ s'.avail = s.avail)
    (hpub : ∀ k r, pc.waits = some (k, r) → s'.reqs[k]? = s.reqs[k]? ∧ (k ∈ s.live → k ∈ s'.live) ∧
      (s'.Written k → s.Written k)) : Stage s' pc := by
  have hshape : ∀ r, pc.job = some r → Shape s r → Shape s' r := by
    intro r hr hs
    obtain ⟨hd, ho, -, -⟩ := hmem r hr
    exact ⟨ho.trans hs.ops, (hd _ (by simp [Req.chain])).trans hs.desc₀, (hd _ (by simp [Req.chain])).trans hs.desc₁,
      (hd _ (by simp [Req.chain])).trans hs.desc₂⟩
  have hrec : ∀ r, pc.job = some r → Recorded s r → Recorded s' r := by
    intro r hr hs
    exact ⟨hshape r hr hs.toShape, by rw [(hmem r hr).2.2.1]; exact hs.info⟩
  have hpublished : ∀ k r, pc.waits = some (k, r) → Published s k r → Published s' k r := by
    intro k r hw hs
    have hr := Pc.job_of_waits hw
    obtain ⟨-, -, hinfo, hdisk⟩ := hmem r hr
    obtain ⟨hreq, hlive, hwritten⟩ := hpub k r hw
    refine ⟨hrec r hr hs.toRecorded, hreq.trans hs.req, fun hd => hlive (hs.live (hdisk ▸ hd)), fun hk => ?_⟩
    rw [hinfo]
    exact hs.written (hwritten hk)
  cases pc with
  | record r => exact hshape r rfl h
  | publish r => exact ⟨hrec r rfl h.1, (hmem r rfl).2.2.2.trans h.2⟩
  | notify r =>
    obtain ⟨hr, ha⟩ := hring rfl
    refine ⟨hrec r rfl h.1, (hmem r rfl).2.2.2.trans h.2.1, ?_⟩
    rw [hr, ha]
    exact h.2.2
  | wait k r | asleep k r | relock k r => exact hpublished k r rfl h
  | _ => trivial

end Xv6.Virtio

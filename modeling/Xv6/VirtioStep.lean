/-
Xv6/VirtioStep.lean

Every step of the disk driver and of the device keeps the invariant of VirtioInv.lean,
and none panics.

The steps of a thread that leave the rings alone change only its own descriptors and
buffer; `Inv.driver` says that the other threads then know what they knew before.  The
steps on the two rings are those of the queues of Lib/Fifo.lean.
-/
import Xv6.VirtioInv

namespace Xv6.Virtio

open Function List

variable {P B : Type} {s s' : Sys P B} {p q : P} {r : Req P B}

/-! ### Steps of a thread -/

/-- The two rings and the device. -/
def Sys.rings (s : Sys P B) :=
  (s.ring, s.avail, s.usedRing, s.used, s.usedIdx, s.seen, s.work, s.reqs, s.taken, s.posts, s.cleared)

/-- What the driver has in memory besides. -/
def Sys.mem (s : Sys P B) := (s.desc, s.ops, s.info, s.disk, s.free)

theorem live_of_rings (h : s'.rings = s.rings) : s'.live = s.live := by
  simp only [Sys.rings, Prod.mk.injEq] at h
  obtain ⟨-, -, -, -, -, -, hwork, hreqs, htaken, hposts, hcleared⟩ := h
  rw [Sys.live, Sys.live, htaken, hreqs, hwork, hposts, hcleared]

/-- What a thread knows does not depend on what other threads do to their own descriptors and
buffers. -/
theorem Stage.frame_rings {pc : Pc P B} (h : Stage s pc) (hrings : s'.rings = s.rings)
    (hmem : ∀ r, pc.job = some r → (∀ i ∈ r.chain, s'.desc i = s.desc i) ∧ s'.ops r.i₀ = s.ops r.i₀ ∧
      s'.info r.i₀ = s.info r.i₀ ∧ s'.disk r.buf = s.disk r.buf) : Stage s' pc := by
  have hlive := live_of_rings hrings
  simp only [Sys.rings, Prod.mk.injEq] at hrings
  obtain ⟨hring, havail, -, -, -, -, hwork, hreqs, -, hposts, -⟩ := hrings
  refine h.frame hmem (fun _ => ⟨hring, havail⟩) fun k r _ => ?_
  rw [hreqs, hlive, Sys.Written, hwork, hposts]
  exact ⟨rfl, id, id⟩

namespace Inv

variable [DecidableEq P] {c : Call B} {d : Nat → Desc B} {pc pc₀ : Pc P B} {ch : Chan B}

/-- A thread moves on in its call. -/
theorem owner_goto (h : Inv s) (hcall : ∀ c, pc.call = some c → (s.pc p).call = some c) (q : P)
    (c : Call B) (hq : (update s.pc p pc q).call = some c) :
    s.owner c.buf = some q ∧ c.sector = sectorOf (s.blockno c.buf) := by
  by_cases hqp : q = p
  · subst hqp
    rw [update_self] at hq
    exact h.owner q c (hcall c hq)
  · rw [update_of_ne hqp] at hq
    exact h.owner q c hq

theorem job_goto (f : P → Pc P B) (pc : Pc P B) :
    (fun q => (update f p pc q).job) = update (fun q => (f q).job) p pc.job := by
  funext q
  by_cases hqp : q = p
  · rw [hqp, update_self, update_self]
  · rw [update_of_ne hqp, update_of_ne hqp]

theorem chains_goto (h : Inv s) (hjob : pc.job = (s.pc p).job) : Chains (fun q => (update s.pc p pc q).job) s.free := by
  rw [job_goto, hjob, update_eq_self]
  exact h.chains

/-- **A thread changes only what is its own**, and not the rings. -/
theorem driver (h : Inv s) (hpc : s'.pc = update s.pc p pc) (hrings : s'.rings = s.rings)
    (hlock : Mutex Pc.holds s'.pc s'.lock)
    (howner : ∀ q c, (s'.pc q).call = some c → s'.owner c.buf = some q ∧ c.sector = sectorOf (s'.blockno c.buf))
    (hchains : Chains (fun q => (update s.pc p pc q).job) s'.free) (hstage : Stage s' pc)
    (hframe : ∀ q r, q ≠ p → (s.pc q).job = some r → (∀ i ∈ r.chain, s'.desc i = s.desc i) ∧
      s'.ops r.i₀ = s.ops r.i₀ ∧ s'.info r.i₀ = s.info r.i₀ ∧ s'.disk r.buf = s.disk r.buf)
    (hwaits : ∀ k r, (s.pc p).waits = some (k, r) → s.disk r.buf = true →
      pc.waits = some (k, r) ∧ s'.disk r.buf = true) : Inv s' := by
  have hlive := live_of_rings hrings
  have hother : ∀ q, q ≠ p → Stage s' (s.pc q) :=
    fun q hqp => (h.stage q).frame_rings hrings fun r hr => hframe q r hqp hr
  simp only [Sys.rings, Prod.mk.injEq] at hrings
  obtain ⟨hring, havail, husedRing, hused, husedIdx, hseen, hwork, hreqs, htaken, hposts, hcleared⟩ := hrings
  refine ⟨hlock, howner, ?_, fun q => ?_, ?_, ?_, ?_, fun k hk => ?_, ?_, ?_, ?_⟩
  · rw [hpc]
    exact hchains
  · rw [hpc]
    by_cases hqp : q = p
    · rw [hqp, update_self]
      exact hstage
    · rw [update_of_ne hqp]
      exact hother q hqp
  · rw [hring, hseen, havail, hreqs, htaken]
    exact h.avail
  · rw [husedRing, husedIdx, hused, hposts, hcleared]
    exact h.used
  · rw [hwork, hposts, htaken]
    exact h.perm
  · rw [hlive] at hk
    obtain ⟨r, hr, hw, hd⟩ := h.live k hk
    refine ⟨r, by rw [hreqs, hr], ?_⟩
    rw [hpc]
    by_cases hqp : r.who = p
    · rw [hqp] at hw ⊢
      rw [update_self]
      exact hwaits k r hw hd
    · rw [update_of_ne hqp]
      exact ⟨hw, (hframe _ r hqp (Pc.job_of_waits hw)).2.2.2.trans hd⟩
  · rw [hwork, hreqs]
    exact h.work
  · rw [hposts, hreqs]
    exact h.posts
  · rw [hposts, hcleared, hreqs]
    exact h.cleared

/-- **A thread moves** and nothing changes but who has locks and who sleeps. -/
theorem quiet (h : Inv s) (hpc : s'.pc = update s.pc p pc) (hrings : s'.rings = s.rings)
    (hmem : s'.mem = s.mem) (hlock : Mutex Pc.holds s'.pc s'.lock)
    (howner : ∀ q c, (s'.pc q).call = some c → s'.owner c.buf = some q ∧ c.sector = sectorOf (s'.blockno c.buf))
    (hjob : pc.job = (s.pc p).job) (hwaits : pc.waits = (s.pc p).waits) (hstage : Stage s pc) : Inv s' := by
  simp only [Sys.mem, Prod.mk.injEq] at hmem
  obtain ⟨hdesc, hops, hinfo, hdisk, hfree⟩ := hmem
  have hsame : ∀ r : Req P B, (∀ i ∈ r.chain, s'.desc i = s.desc i) ∧ s'.ops r.i₀ = s.ops r.i₀ ∧
      s'.info r.i₀ = s.info r.i₀ ∧ s'.disk r.buf = s.disk r.buf := by
    intro r
    rw [hdesc, hops, hinfo, hdisk]
    exact ⟨fun _ _ => rfl, rfl, rfl, rfl⟩
  refine h.driver hpc hrings hlock howner ?_ (hstage.frame_rings hrings fun r _ => hsame r) (fun q r _ _ => hsame r)
    fun k r hk hd => ?_
  · rw [hfree]
    exact h.chains_goto hjob
  · rw [hwaits, hdisk]
    exact ⟨hk, hd⟩

section Moves

variable (hpc : s.pc p = pc₀) (hcall : pc.call = pc₀.call) (hjob : pc.job = pc₀.job) (hwaits : pc.waits = pc₀.waits)
  (hstage : Stage s pc)

include hpc hcall hjob hwaits hstage

theorem acquire (h : Inv s) (hfree : s.lock = none) (hnew : pc.holds = true) :
    Inv ((s.setLock (some p)).goto p pc) := by
  subst hpc
  exact h.quiet rfl rfl rfl (h.lock.acquire hfree hnew) (h.owner_goto fun _ hc => hcall ▸ hc) hjob hwaits hstage

theorem sleep (h : Inv s) (hold : pc₀.holds = true) (hnew : pc.holds = false) : Inv (s.sleep p ch pc) := by
  subst hpc
  exact h.quiet rfl rfl rfl (h.lock.release hold hnew) (h.owner_goto fun _ hc => hcall ▸ hc) hjob hwaits hstage

theorem move (h : Inv s) (hnew : pc.holds = pc₀.holds) : Inv (s.goto p pc) := by
  subst hpc
  exact h.quiet rfl rfl rfl (h.lock.keep hnew) (h.owner_goto fun _ hc => hcall ▸ hc) hjob hwaits hstage

end Moves

section

variable (h : Inv s)

include h

/-- The content of free descriptors changes. -/
theorem setDesc {sl : P → Option (Chan B)} (hd : ∀ i, s.free i = false → d i = s.desc i) (p : P) :
    Inv { s with desc := d, sleeping := sl } := by
  have hsame : ∀ q r, (s.pc q).job = some r → (∀ i ∈ r.chain, d i = s.desc i) ∧ s.ops r.i₀ = s.ops r.i₀ ∧
      s.info r.i₀ = s.info r.i₀ ∧ s.disk r.buf = s.disk r.buf :=
    fun q r hq => ⟨fun i hi => hd i (h.chains.busy q r hq i hi), rfl, rfl, rfl⟩
  refine h.driver (update_eq_self _ _).symm rfl h.lock h.owner ?_
    ((h.stage p).frame_rings rfl (hsame p)) (fun q r _ hq => hsame q r hq) fun k r hk hdisk => ⟨hk, hdisk⟩
  exact h.chains_goto rfl

/-- There are not enough descriptors, and the thread sleeps. -/
theorem refuse (sl : P → Option (Chan B)) (hpc : s.pc p = .alloc c) (hd : ∀ i, s.free i = false → d i = s.desc i) :
    Inv (Sys.sleep { s with desc := d, sleeping := sl } p .free (.noDesc c)) :=
  sleep (s := { s with desc := d, sleeping := sl }) hpc rfl rfl rfl trivial (h.setDesc hd p) rfl rfl

/-- Three descriptors are taken for a call. -/
theorem alloc {i₀ i₁ i₂ : Nat} (hpc : s.pc p = .alloc c) (hnodup : [i₀, i₁, i₂].Nodup)
    (hwere : ∀ i ∈ [i₀, i₁, i₂], i < NUM ∧ s.free i = true) :
    Inv ((((s.useDesc i₀).useDesc i₁).useDesc i₂).goto p (.format { c with who := p, i₀, i₁, i₂ })) := by
  refine h.driver rfl rfl (h.lock.keep (by rw [hpc]; rfl)) (h.owner_goto fun c' hc => by rw [hpc]; exact hc) ?_ trivial
    (fun q r _ _ => ⟨fun _ _ => rfl, rfl, rfl, rfl⟩) fun k r hk => by rw [hpc] at hk; cases hk
  rw [job_goto]
  refine h.chains.alloc (by rw [hpc]; rfl) rfl ⟨hnodup, fun i hi => (hwere i hi).1⟩ (fun i hi => (hwere i hi).2) ?_
  intro i
  simp only [Sys.goto_free, Sys.useDesc_free, update_apply, Req.chain, mem_cons, not_mem_nil, or_false]
  grind

omit [DecidableEq P] in
/-- Two threads have different descriptors. -/
theorem apart {r' : Req P B} (hp : (s.pc p).job = some r) (hq : (s.pc q).job = some r') (hqp : q ≠ p) :
    r'.i₀ ≠ r.i₀ ∧ ∀ i ∈ r'.chain, i ≠ r.i₀ ∧ i ≠ r.i₁ ∧ i ≠ r.i₂ := by
  have hnot : ∀ i ∈ r'.chain, i ≠ r.i₀ ∧ i ≠ r.i₁ ∧ i ≠ r.i₂ := by
    intro i hi
    have hi' : i ∉ r.chain := fun hi' => hqp (h.chains.disjoint q p r' r i hq hp hi hi')
    simpa [Req.chain] using hi'
  exact ⟨(hnot r'.i₀ (by simp [Req.chain])).1, hnot⟩

/-- The three descriptors are formatted. -/
theorem format (hpc : s.pc p = .format r) : Inv ((s.format r).goto p (.record r)) := by
  have hjob : (s.pc p).job = some r := by rw [hpc]; rfl
  have hnodup := (h.chains.fit p r hjob).nodup
  simp only [Req.chain, nodup_cons, mem_cons, not_mem_nil, or_false, not_or] at hnodup
  obtain ⟨⟨h₀₁, h₀₂⟩, h₁₂, -⟩ := hnodup
  refine h.driver rfl rfl (h.lock.keep (by rw [hpc]; rfl)) (h.owner_goto fun c hc => by rw [hpc]; exact hc) ?_ ?_
    (fun q r' hqp hq => ?_) fun k r' hk => by rw [hpc] at hk; cases hk
  · exact h.chains_goto hjob.symm
  · exact ⟨by simp, by simp [h₀₁, h₀₂], by simp [h₁₂], by simp⟩
  · obtain ⟨hne, hnot⟩ := h.apart hjob hq hqp
    exact ⟨fun i hi => by simp [hnot i hi], update_of_ne hne _ _, update_of_ne hne _ _, rfl⟩

/-- The buffer is recorded. -/
theorem record [DecidableEq B] (hpc : s.pc p = .record r) : Inv ((s.record r).goto p (.publish r)) := by
  have hjob : (s.pc p).job = some r := by rw [hpc]; rfl
  have hs := h.stage p
  rw [hpc] at hs
  refine h.driver rfl rfl (h.lock.keep (by rw [hpc]; rfl)) (h.owner_goto fun c hc => by rw [hpc]; exact hc) ?_ ?_
    (fun q r' hqp hq => ?_) fun k r' hk => by rw [hpc] at hk; cases hk
  · exact h.chains_goto hjob.symm
  · exact ⟨⟨⟨hs.ops, hs.desc₀, hs.desc₁, hs.desc₂⟩, by simp⟩, update_self _ _ _⟩
  · have hbuf : r'.buf ≠ r.buf := fun heq => hqp (h.who_of_buf (Pc.call_of_job hq) (Pc.call_of_job hjob) heq)
    exact ⟨fun _ _ => rfl, rfl, update_of_ne (h.apart hjob hq hqp).1 _ _, update_of_ne hbuf _ _⟩

end

variable {k j : Nat}

/-- The request is done and its descriptors are freed. -/
theorem done (h : Inv s) (hpc : s.pc p = .wait k r) (hdisk : s.disk r.buf = false)
    (sl : P → Option (Chan B)) : Inv ((((s.forget r.i₀).release r sl).setLock none).goto p .out) := by
  have hjob : (s.pc p).job = some r := by rw [hpc]; rfl
  refine h.driver rfl rfl (h.lock.release (by rw [hpc]; rfl) rfl) (h.owner_goto nofun) ?_ trivial
    (fun q r' hqp hq => ?_) fun k' r' hk hd => ?_
  · rw [job_goto]
    refine h.chains.release hjob fun i => ?_
    simp only [Sys.goto_free, Sys.setLock_free, Sys.release_free, Sys.forget_free, update_apply, Req.chain,
      mem_cons, not_mem_nil, or_false]
    grind
  · obtain ⟨hne, hnot⟩ := h.apart hjob hq hqp
    exact ⟨fun i hi => by simp [hnot i hi], rfl, update_of_ne hne _ _, rfl⟩
  · rw [hpc] at hk
    cases hk
    rw [hdisk] at hd
    cases hd

/-! ### Steps on the avail ring -/

section

variable (h : Inv s)

include h

omit [DecidableEq P] in
/-- **No slot of the avail ring is overwritten** before the device took it. -/
theorem avail_room (hp : (s.pc p).job = some r) (hw : (s.pc p).waits = none) : s.reqs.length < s.taken + NUM := by
  have hroom := h.room (A := [r.i₀]) nodup_range'
    (fun k hk => mem_append_left _ hk) (nodup_singleton _) ?_ ?_
  · rw [length_range', length_singleton] at hroom
    omega
  · intro i hi
    rw [mem_singleton.mp hi]
    exact (h.chains.fit p r hp).lt _ (by simp [Req.chain])
  · intro i hi q k r' hq hi'
    rw [mem_singleton.mp hi] at hi'
    obtain rfl := h.chains.disjoint q p r' r r.i₀ (Pc.job_of_waits hq) hp hi' (by simp [Req.chain])
    rw [hw] at hq
    cases hq

theorem publish (hpc : s.pc p = .publish r) : Inv ((s.publish r).goto p (.notify r)) := by
  have hjob : (s.pc p).job = some r := by rw [hpc]; rfl
  have hholds : (s.pc p).holds = true := by rw [hpc]; rfl
  have hroom := h.avail_room hjob (by rw [hpc]; rfl)
  have hs := h.stage p
  rw [hpc] at hs
  refine ⟨h.lock.keep (by rw [hholds]; rfl), h.owner_goto fun c hc => by rw [hpc]; exact hc,
    h.chains_goto hjob.symm, fun q => ?_, ?_, h.used, h.perm, fun k hk => ?_, h.work, h.posts, h.cleared⟩
  · rw [Sys.goto_pc]
    by_cases hqp : q = p
    · rw [hqp, update_self]
      exact ⟨⟨⟨hs.1.ops, hs.1.desc₀, hs.1.desc₁, hs.1.desc₂⟩, hs.1.info⟩, hs.2, update_self _ _ _⟩
    · rw [update_of_ne hqp]
      exact (h.stage q).frame (fun r' _ => ⟨fun _ _ => rfl, rfl, rfl, rfl⟩)
        (fun hq => absurd (h.lock.unique hq hholds) hqp) fun k r' _ => ⟨rfl, id, id⟩
  · exact h.avail.write _ (by rw [length_map]; exact hroom)
  · obtain ⟨r', hr', hw, hd⟩ := h.live k hk
    refine ⟨r', hr', ?_, hd⟩
    have hqp : r'.who ≠ p := by
      intro heq
      rw [heq, hpc] at hw
      cases hw
    rw [Sys.goto_pc, update_of_ne hqp]
    exact hw

omit [DecidableEq P] in
/-- The device has taken only requests that were published. -/
theorem taken_le : s.taken ≤ s.reqs.length := by simpa using h.avail.le

omit [DecidableEq P] in
theorem mem_live_notify : k ∈ (s.notify r).live ↔ k ∈ s.live ∨ k = s.reqs.length := by
  have hle := h.taken_le
  simp only [Sys.live, Sys.notify_taken, Sys.notify_reqs, Sys.notify_work, Sys.notify_posts, Sys.notify_cleared,
    mem_append, mem_range'_1, length_append, length_singleton]
  constructor
  · rintro (hk | hk)
    · by_cases heq : k = s.reqs.length
      · exact .inr heq
      · exact .inl (.inl (by omega))
    · exact .inl (.inr hk)
  · rintro ((hk | hk) | rfl)
    · exact .inl (by omega)
    · exact .inr hk
    · exact .inl (by omega)

theorem notify (hpc : s.pc p = .notify r) : Inv ((s.notify r).goto p (.wait s.reqs.length r)) := by
  have hjob : (s.pc p).job = some r := by rw [hpc]; rfl
  have hholds : (s.pc p).holds = true := by rw [hpc]; rfl
  have hroom := h.avail_room hjob (by rw [hpc]; rfl)
  have hs := h.stage p
  rw [hpc] at hs
  have hget : ∀ (k : Nat) (r' : Req P B), s.reqs[k]? = some r' → (s.reqs ++ [r])[k]? = some r' := by
    intro k r' hk
    rw [List.getElem?_append_left (List.getElem?_eq_some_iff.mp hk).1]
    exact hk
  have hlen : (s.reqs ++ [r])[s.reqs.length]? = some r := by simp
  refine ⟨h.lock.keep (by rw [hholds]; rfl), h.owner_goto fun c hc => by rw [hpc]; exact hc,
    h.chains_goto hjob.symm, fun q => ?_, ?_, h.used, h.perm, fun k hk => ?_, fun w hw => ?_, fun x hx => ?_, fun j x b hx hb => ?_⟩
  · rw [Sys.goto_pc]
    by_cases hqp : q = p
    · rw [hqp, update_self]
      refine ⟨⟨⟨hs.1.ops, hs.1.desc₀, hs.1.desc₁, hs.1.desc₂⟩, hs.1.info⟩, hlen, fun _ => ?_, fun hw => ?_⟩
      · exact h.mem_live_notify.mpr (.inr rfl)
      -- the device has not seen the new request
      have hlt : ∀ k ∈ s.work.map Work.num ++ s.posts.map Post.num, k < s.reqs.length :=
        fun k hk => (mem_range.mp (h.perm.subset hk)).trans_le h.taken_le
      rcases hw with ⟨w, hw, hnum, -⟩ | ⟨x, hx, hnum⟩
      · exact absurd (hlt w.num (mem_append_left _ (mem_map_of_mem hw))) (by omega)
      · exact absurd (hlt x.num (mem_append_right _ (mem_map_of_mem hx))) (by omega)
    · rw [update_of_ne hqp]
      refine (h.stage q).frame (fun r' _ => ⟨fun _ _ => rfl, rfl, rfl, rfl⟩)
        (fun hq => absurd (h.lock.unique hq hholds) hqp) fun k r' hw => ?_
      have hreq := ((h.stage q).of_waits hw).req
      exact ⟨(hget k r' hreq).trans hreq.symm, fun hk => h.mem_live_notify.mpr (.inl hk), id⟩
  · have hpush := h.avail.push hs.2.2 (by rw [length_map]; exact hroom)
    show Fifo.Holds NUM (2 ^ 16) s.ring s.seen.toNat (s.avail + 1).toNat ((s.reqs ++ [r]).map _) s.taken
    rw [map_append]
    exact hpush
  · rcases h.mem_live_notify.mp hk with hk | rfl
    · obtain ⟨r', hr', hw, hd⟩ := h.live k hk
      have hqp : r'.who ≠ p := by
        intro heq
        rw [heq, hpc] at hw
        cases hw
      refine ⟨r', hget k r' hr', ?_, hd⟩
      rw [Sys.goto_pc, update_of_ne hqp]
      exact hw
    · refine ⟨r, hlen, ?_, hs.2.1⟩
      rw [h.chains.who p r hjob, Sys.goto_pc, update_self]
      rfl
  · obtain ⟨r', hr', heq⟩ := h.work w hw
    exact ⟨r', hget _ r' hr', heq⟩
  · obtain ⟨r', hr', heq⟩ := h.posts x hx
    exact ⟨r', hget _ r' hr', heq⟩
  · obtain ⟨r', hr', heq⟩ := h.cleared j x b hx hb
    exact ⟨r', hget _ r' hr', heq⟩

end

omit [DecidableEq P] in
theorem mem_live_take (h : s.taken < s.reqs.length) : k ∈ s.take.live ↔ k ∈ s.live := by
  simp only [Sys.live, Sys.take_taken, Sys.take_reqs, Sys.take_work, Sys.take_posts, Sys.take_cleared,
    mem_append, mem_range'_1, map_append, map_cons, map_nil, mem_singleton]
  constructor
  · rintro (hk | (hk | rfl) | hk)
    · exact .inl (by omega)
    · exact .inr (.inl hk)
    · exact .inl (by omega)
    · exact .inr (.inr hk)
  · rintro (hk | hk | hk)
    · by_cases heq : k = s.taken
      · exact .inr (.inl (.inr heq))
      · exact .inl (by omega)
    · exact .inr (.inl (.inl hk))
    · exact .inr (.inr hk)

omit [DecidableEq P] in
/-- The device takes the next request. -/
theorem take (h : Inv s) (hne : s.seen ≠ s.avail) : Inv s.take := by
  have hlt : s.taken < s.reqs.length := by
    refine lt_of_le_of_ne h.taken_le fun heq => hne (UInt16.toNat_inj.mp (h.avail.empty_iff.mpr ?_))
    rw [length_map, heq]
  obtain ⟨hget, hq⟩ := h.avail.take (by rw [length_map]; exact hlt)
  refine ⟨h.lock, h.owner, h.chains, fun q => ?_, hq, h.used, ?_, fun k hk => h.live k ((mem_live_take hlt).mp hk),
    fun w hw => ?_, h.posts, h.cleared⟩
  · refine (h.stage q).frame (fun r' _ => ⟨fun _ _ => rfl, rfl, rfl, rfl⟩) (fun _ => ⟨rfl, rfl⟩) fun k r' _ =>
      ⟨rfl, (mem_live_take hlt).mpr, ?_⟩
    rintro (⟨w, hw, hnum, hwr⟩ | hx)
    · rcases mem_append.mp hw with hw | hw
      · exact .inl ⟨w, hw, hnum, hwr⟩
      · rw [mem_singleton.mp hw] at hwr
        cases hwr
    · exact .inr hx
  · show (((s.work ++ [_]).map Work.num) ++ s.posts.map Post.num).Perm (range (s.taken + 1))
    rw [map_append, range_succ, append_assoc]
    refine (perm_append_comm.append_left _).trans ?_
    rw [← append_assoc]
    exact h.perm.append_right _
  · rcases mem_append.mp hw with hw | hw
    · exact h.work w hw
    rw [mem_singleton.mp hw]
    rw [getElem?_map] at hget
    obtain ⟨r, hr, heq⟩ := Option.map_eq_some_iff.mp hget
    exact ⟨r, hr, heq.symm⟩

/-! ### Steps on the used ring -/

variable {w : Work}

omit [DecidableEq P] in
theorem mem_live_of_work (hw : w ∈ s.work) : w.num ∈ s.live :=
  mem_append_right _ (mem_append_left _ (mem_map_of_mem hw))

section

variable (h : Inv s)

include h

omit [DecidableEq P] in
/-- The device finds the status byte of the request. -/
theorem statusAddr_eq (hw : w ∈ s.work) (hr : s.reqs[w.num]? = some r) : s.statusAddr w.head.toNat = .status r.i₀ := by
  obtain ⟨hwaits, -, hp⟩ := h.of_live (mem_live_of_work hw) hr
  have hfit := h.chains.fit _ r (Pc.job_of_waits hwaits)
  obtain ⟨r', hr', hhead⟩ := h.work w hw
  obtain rfl : r' = r := Option.some.inj (hr'.symm.trans hr)
  rw [Sys.statusAddr, hhead, hfit.toNat (by simp [Req.chain]), hp.desc₀,
    show r'.desc₀.next.toNat = r'.i₁ from hfit.toNat (by simp [Req.chain]), hp.desc₁,
    show r'.desc₁.next.toNat = r'.i₂ from hfit.toNat (by simp [Req.chain]), hp.desc₂]
  rfl

omit [DecidableEq P] in
/-- The device writes the status of a request. -/
theorem finish (hj : s.work[j]? = some w) : Inv (s.finish j w) := by
  have hw : w ∈ s.work := mem_of_getElem? hj
  obtain ⟨r, hr, hhead⟩ := h.work w hw
  obtain ⟨hwaits, hdisk, hp⟩ := h.of_live (mem_live_of_work hw) hr
  have hinfo : (s.finish j w).info = update s.info r.i₀ { s.info r.i₀ with status := 0 } := by
    show s.writeStatus (s.statusAddr w.head.toNat) = _
    rw [h.statusAddr_eq hw hr]
    rfl
  have hnums : (s.work.set j { w with written := true }).map Work.num = s.work.map Work.num := by
    obtain ⟨hlt, rfl⟩ := List.getElem?_eq_some_iff.mp hj
    have hset := set_getElem_self (show j < (s.work.map Work.num).length by simpa using hlt)
    rw [getElem_map] at hset
    rw [map_set]
    exact hset
  have hlive : (s.finish j w).live = s.live := by
    rw [Sys.live, Sys.finish_work, hnums]
    rfl
  have hmem : ∀ w' ∈ (s.finish j w).work, w' ∈ s.work ∨ w' = { w with written := true } :=
    fun w' hw' => mem_or_eq_of_mem_set hw'
  refine ⟨h.lock, h.owner, h.chains, fun q => ?_, h.avail, h.used, ?_, fun k hk => ?_, fun w' hw' => ?_, h.posts,
    h.cleared⟩
  · by_cases hqp : q = r.who
    · -- the thread that waits for the request
      rw [hqp]
      refine Stage.of_published hwaits ⟨⟨⟨hp.ops, hp.desc₀, hp.desc₁, hp.desc₂⟩, ?_⟩, hp.req, ?_, fun _ => ?_⟩
      · rw [hinfo, update_self]
        exact hp.info
      · rw [hlive]
        exact hp.live
      · rw [hinfo, update_self]
    · refine (h.stage q).frame (fun r' hr' => ⟨fun _ _ => rfl, rfl, ?_, rfl⟩) (fun _ => ⟨rfl, rfl⟩) fun k r' hk =>
        ⟨rfl, by rw [hlive]; exact id, ?_⟩
      · rw [hinfo, update_of_ne (h.apart (Pc.job_of_waits hwaits) hr' hqp).1]
      · rintro (⟨w', hw', hnum, hwr⟩ | hx)
        · rcases hmem w' hw' with hw' | rfl
          · exact .inl ⟨w', hw', hnum, hwr⟩
          -- another thread waits for another request
          have hreq := ((h.stage q).of_waits hk).req
          rw [← hnum, hr] at hreq
          cases hreq
          exact absurd (h.chains.who q r (Pc.job_of_waits hk)).symm hqp
        · exact .inr hx
  · show ((s.work.set j _).map Work.num ++ _).Perm _
    rw [hnums]
    exact h.perm
  · rw [hlive] at hk
    exact h.live k hk
  · rcases hmem w' hw' with hw' | rfl
    · exact h.work w' hw'
    · exact ⟨r, hr, hhead⟩

omit [DecidableEq P] in
/-- **No entry of the used ring is overwritten** before the driver has read it. -/
theorem used_room (hne : s.work ≠ []) : s.posts.length < s.cleared.length + NUM := by
  have hsub : (s.work.map Work.num ++ (s.posts.drop s.cleared.length).map Post.num).Sublist s.live :=
    sublist_append_right _ _
  have hroom := h.room (h.live_nodup.sublist hsub) (fun k hk => hsub.subset hk) nodup_nil nofun nofun
  have hpos := length_pos_iff.mpr hne
  rw [length_append, length_map, length_map, length_drop] at hroom
  omega

omit [DecidableEq P] in
/-- The driver has processed only completions that were posted. -/
theorem cleared_le : s.cleared.length ≤ s.posts.length := by simpa using h.used.le

omit [DecidableEq P] in
/-- The device posts a completion. -/
theorem post (hj : s.work[j]? = some w) (hwr : w.written = true) : Inv (s.post j w) := by
  have hw : w ∈ s.work := mem_of_getElem? hj
  obtain ⟨r, hr, hhead⟩ := h.work w hw
  obtain ⟨hlt, hget⟩ := List.getElem?_eq_some_iff.mp hj
  have hfit : r.Fit := h.chains.fit _ r (Pc.job_of_waits (h.of_live (mem_live_of_work hw) hr).1)
  have hid : w.head.toUInt32 = UInt32.ofNat r.i₀ := by
    rw [hhead, ← UInt32.toNat_inj, UInt16.toNat_toUInt32, hfit.toNat (by simp [Req.chain])]
    have := hfit.lt r.i₀ (by simp [Req.chain])
    rw [NUM] at this
    rw [UInt32.toNat_ofNat']
    omega
  have herase : (w.num :: (s.work.eraseIdx j).map Work.num).Perm (s.work.map Work.num) := by
    have := (getElem_cons_eraseIdx_perm hlt).map Work.num
    rwa [hget, map_cons] at this
  -- the request moves from one list to the other
  have hmove : ∀ l : List Post, ((s.work.eraseIdx j).map Work.num ++
      (l ++ [(⟨w.head.toUInt32, w.num⟩ : Post)]).map Post.num).Perm
      (s.work.map Work.num ++ l.map Post.num) := by
    intro l
    rw [map_append, ← append_assoc]
    exact (perm_append_singleton _ _).trans (herase.append_right _)
  have hlive : ∀ k, k ∈ (s.post j w).live ↔ k ∈ s.live := by
    intro k
    refine List.Perm.mem_iff (List.Perm.append_left _ ?_)
    show ((s.work.eraseIdx j).map _ ++ ((s.posts ++ [_]).drop s.cleared.length).map _).Perm _
    rw [drop_append_of_le_length h.cleared_le]
    exact hmove _
  refine ⟨h.lock, h.owner, h.chains, fun q => ?_, h.avail, ?_, (hmove s.posts).trans h.perm,
    fun k hk => h.live k ((hlive k).mp hk), fun w' hw' => h.work w' (mem_of_mem_eraseIdx hw'), fun x hx => ?_,
    fun i x b hx hb => ?_⟩
  · refine (h.stage q).frame (fun r' _ => ⟨fun _ _ => rfl, rfl, rfl, rfl⟩) (fun _ => ⟨rfl, rfl⟩) fun k r' _ =>
      ⟨rfl, (hlive k).mpr, ?_⟩
    rintro (⟨w', hw', hnum⟩ | ⟨x, hx, hnum⟩)
    · exact .inl ⟨w', mem_of_mem_eraseIdx hw', hnum⟩
    rcases mem_append.mp hx with hx | hx
    · exact .inr ⟨x, hx, hnum⟩
    · rw [mem_singleton.mp hx] at hnum
      exact .inl ⟨w, hw, hnum, hwr⟩
  · have hput := h.used.put w.head.toUInt32 (by rw [length_map]; exact h.used_room (ne_nil_of_mem hw))
    show Fifo.Holds NUM (2 ^ 16) _ s.usedIdx.toNat (s.used + 1).toNat ((s.posts ++ [_]).map Post.id) _
    rw [map_append]
    exact hput
  · rcases mem_append.mp hx with hx | hx
    · exact h.posts x hx
    · rw [mem_singleton.mp hx]
      exact ⟨r, hr, hid⟩
  · have hi : i < s.posts.length := (List.getElem?_eq_some_iff.mp hb).1.trans_le h.cleared_le
    rw [Sys.post_posts, List.getElem?_append_left hi] at hx
    exact h.cleared i x b hx hb

omit [DecidableEq P] in
/-- The next completion to be processed, its request, and what `virtio_disk_intr` finds. -/
theorem next_post (hne : s.usedIdx ≠ s.used) :
    ∃ x r, s.posts[s.cleared.length]? = some x ∧ s.reqs[x.num]? = some r ∧
      (s.usedRing (s.usedIdx.toNat % NUM)).toNat = r.i₀ ∧ x.num ∈ s.live := by
  have hlt : s.cleared.length < s.posts.length := by
    refine lt_of_le_of_ne h.cleared_le fun heq => hne (UInt16.toNat_inj.mp (h.used.empty_iff.mpr ?_))
    rw [length_map, heq]
  obtain ⟨hget, -⟩ := h.used.take (by rw [length_map]; exact hlt)
  rw [getElem?_map] at hget
  obtain ⟨x, hx, hid⟩ := Option.map_eq_some_iff.mp hget
  obtain ⟨r, hr, hxr⟩ := h.posts x (mem_of_getElem? hx)
  have hdrop : x ∈ s.posts.drop s.cleared.length := by
    refine mem_of_getElem? (i := 0) ?_
    rw [getElem?_drop]
    exact hx
  have hlive : x.num ∈ s.live :=
    mem_append_right _ (mem_append_right _ (mem_map_of_mem hdrop))
  refine ⟨x, r, hx, hr, ?_, hlive⟩
  have := (h.chains.fit _ r (Pc.job_of_waits (h.of_live hlive hr).1)).lt r.i₀ (by simp [Req.chain])
  rw [NUM] at this
  rw [← hid, hxr, UInt32.toNat_ofNat']
  omega

/-- A completion is processed. -/
theorem clear [DecidableEq B] {x : Post} (hx : s.posts[s.cleared.length]? = some x)
    (hr : s.reqs[x.num]? = some r) (hlive : x.num ∈ s.live) : Inv (s.clear r.buf) := by
  obtain ⟨hwaits, hdisk, hpub⟩ := h.of_live hlive hr
  have hlt := (List.getElem?_eq_some_iff.mp hx).1
  have hcall := Pc.call_of_job (Pc.job_of_waits hwaits)
  have hdrop : s.posts.drop s.cleared.length = x :: s.posts.drop (s.cleared.length + 1) := by
    rw [drop_eq_getElem_cons hlt, (List.getElem?_eq_some_iff.mp hx).2]
  -- the request is not live any more, and all others are
  have hperm : s.live.Perm (x.num :: (s.clear r.buf).live) := by
    show (_ ++ (_ ++ (s.posts.drop s.cleared.length).map Post.num)).Perm (x.num ::
      (_ ++ (_ ++ (s.posts.drop (s.cleared ++ [r.buf]).length).map Post.num)))
    rw [hdrop, length_append, ← append_assoc, ← append_assoc]
    exact perm_middle
  have hnot : x.num ∉ (s.clear r.buf).live := (nodup_cons.mp (hperm.nodup_iff.mp h.live_nodup)).1
  have hsub : ∀ k, k ∈ (s.clear r.buf).live → k ∈ s.live := fun k hk => hperm.mem_iff.mpr (mem_cons_of_mem _ hk)
  obtain ⟨-, hused⟩ := h.used.take (by rw [length_map]; exact hlt)
  refine ⟨h.lock, h.owner, h.chains, fun q => ?_, h.avail, ?_, h.perm, fun k hk => ?_, h.work, h.posts,
    fun j y b hy hb => ?_⟩
  · by_cases hqr : q = r.who
    · rw [hqr]
      refine Stage.of_published hwaits ⟨⟨⟨hpub.ops, hpub.desc₀, hpub.desc₁, hpub.desc₂⟩, hpub.info⟩, hpub.req, ?_,
        hpub.written⟩
      rw [Sys.clear_disk, update_self]
      exact nofun
    · refine (h.stage q).frame (fun r' hr' => ⟨fun _ _ => rfl, rfl, rfl, ?_⟩) (fun _ => ⟨rfl, rfl⟩) fun k r' hk =>
        ⟨rfl, fun hkl => ?_, id⟩
      · exact update_of_ne (fun heq => hqr (h.who_of_buf (Pc.call_of_job hr') hcall heq)) _ _
      · refine (mem_cons.mp (hperm.mem_iff.mp hkl)).resolve_left ?_
        rintro rfl
        have hreq := ((h.stage q).of_waits hk).req
        rw [hr] at hreq
        cases hreq
        exact hqr (h.chains.who q r (Pc.job_of_waits hk)).symm
  · show Fifo.Holds NUM (2 ^ 16) s.usedRing (s.usedIdx + 1).toNat _ _ (s.cleared ++ [r.buf]).length
    rw [length_append]
    exact hused
  · obtain ⟨r', hr', hw, hd⟩ := h.live k (hsub k hk)
    refine ⟨r', hr', hw, ?_⟩
    rw [Sys.clear_disk, update_of_ne]
    · exact hd
    intro heq
    have hwho := h.who_of_buf (Pc.call_of_job (Pc.job_of_waits hw)) hcall heq
    rw [hwho, hwaits] at hw
    cases hw
    exact hnot hk
  · rw [Sys.clear_cleared] at hb
    rcases lt_or_ge j s.cleared.length with hj | hj
    · rw [getElem?_append_left hj] at hb
      exact h.cleared j y b hy hb
    obtain rfl : j = s.cleared.length := by
      have := (List.getElem?_eq_some_iff.mp hb).1
      rw [length_append, length_singleton] at this
      omega
    obtain rfl : x = y := Option.some.inj (hx.symm.trans hy)
    refine ⟨r, hr, ?_⟩
    simpa using hb

end

/-! ### Every step -/

variable [DecidableEq B]

/-- **A step of a thread** keeps the invariant and does not panic. -/
theorem advance (h : Inv s) (p : P) : (∃ s', Virtio.advance s p = .ok s' ∧ Inv s') ∨ Virtio.advance s p = .blocked := by
  have hs := h.stage p
  rw [Virtio.advance]
  rcases hpc : s.pc p with - | c | c | c | c | r | r | r | r | ⟨k, r⟩ | ⟨k, r⟩ | ⟨k, r⟩ | - | - <;> rw [hpc] at hs
  case out => exact .inr rfl
  case enter | retry =>
    by_cases hl : s.lock = none
    · exact .inl ⟨_, if_pos hl, h.acquire hpc rfl rfl rfl trivial hl rfl⟩
    · exact .inr (if_neg hl)
  case alloc =>
    left
    rcases alloc3Desc_cases s with ⟨d, sl, heq, hd⟩ | ⟨i₀, i₁, i₂, heq, hnodup, hwere⟩
    · exact ⟨_, by simp only [heq], h.refuse sl hpc hd⟩
    · exact ⟨_, by simp only [heq], h.alloc hpc hnodup hwere⟩
  case noDesc =>
    by_cases hsl : s.sleeping p = none
    · exact .inl ⟨_, if_pos hsl, h.move hpc rfl rfl rfl trivial rfl⟩
    · exact .inr (if_neg hsl)
  case format => exact .inl ⟨_, rfl, h.format hpc⟩
  case record => exact .inl ⟨_, rfl, h.record hpc⟩
  case publish => exact .inl ⟨_, rfl, h.publish hpc⟩
  case notify => exact .inl ⟨_, rfl, h.notify hpc⟩
  case wait =>
    left
    by_cases hdisk : s.disk r.buf = true
    · exact ⟨_, if_pos hdisk, h.sleep hpc rfl rfl rfl hs rfl rfl⟩
    have hjob : (s.pc p).job = some r := by rw [hpc]; rfl
    obtain ⟨sl, heq⟩ := freeChain_ok (s := s.forget r.i₀) (h.chains.fit p r hjob)
      ⟨hs.ops, hs.desc₀, hs.desc₁, hs.desc₂⟩ (h.chains.busy p r hjob)
    refine ⟨_, ?_, h.done hpc (by simpa using hdisk) sl⟩
    simp only [if_neg hdisk, heq]
  case asleep =>
    by_cases hsl : s.sleeping p = none
    · exact .inl ⟨_, if_pos hsl, h.move hpc rfl rfl rfl hs rfl⟩
    · exact .inr (if_neg hsl)
  case relock =>
    by_cases hl : s.lock = none
    · exact .inl ⟨_, if_pos hl, h.acquire hpc rfl rfl rfl hs hl rfl⟩
    · exact .inr (if_neg hl)
  case intr =>
    by_cases hl : s.lock = none
    · exact .inl ⟨_, if_pos hl, h.acquire hpc rfl rfl rfl trivial hl rfl⟩
    · exact .inr (if_neg hl)
  case handle =>
    left
    rw [handleRound]
    by_cases hne : s.usedIdx = s.used
    · refine ⟨_, if_pos hne, ?_⟩
      exact h.quiet rfl rfl rfl (h.lock.release (by rw [hpc]; rfl) rfl) (h.owner_goto nofun) (by rw [hpc]; rfl)
        (by rw [hpc]; rfl) trivial
    · obtain ⟨x, r, hx, hr, hid, hlive⟩ := h.next_post hne
      obtain ⟨-, -, hpub⟩ := h.of_live hlive hr
      have hstatus := hpub.written (.inr ⟨x, mem_of_getElem? hx, rfl⟩)
      refine ⟨_, ?_, h.clear hx hr hlive⟩
      simp only [if_neg hne, hid, hstatus, hpub.info, ne_eq, not_true_eq_false, if_false]

/-- **Every step** keeps the invariant and does not panic. -/
theorem step (h : Inv s) (a : Act P B) : (∃ s', Virtio.step s a = .ok s' ∧ Inv s') ∨ Virtio.step s a = .blocked := by
  cases a with
  | bget p b no =>
    rw [Virtio.step]
    split
    · rename_i hpc hb
      refine .inl ⟨_, rfl, h.quiet (update_eq_self _ _).symm rfl rfl h.lock (fun q c hq => ?_) rfl rfl
        (h.stage p)⟩
      obtain ⟨ho, hsec⟩ := h.owner q c hq
      -- nobody is in a call for a buffer that is not locked
      have hne : c.buf ≠ b := by
        intro heq
        rw [heq, hb] at ho
        cases ho
      exact ⟨(update_of_ne hne _ _).trans ho, hsec.trans (congrArg sectorOf (update_of_ne hne _ _).symm)⟩
    · exact .inr rfl
  | brelse p b =>
    rw [Virtio.step]
    split
    · rename_i hpc
      split
      · rename_i hb
        refine .inl ⟨_, rfl, h.quiet (update_eq_self _ _).symm rfl rfl h.lock (fun q c hq => ?_) rfl
          rfl (h.stage p)⟩
        obtain ⟨ho, hsec⟩ := h.owner q c hq
        have hne : c.buf ≠ b := by
          intro heq
          rw [heq, hb] at ho
          cases ho
          rw [hpc] at hq
          cases hq
        exact ⟨(update_of_ne hne _ _).trans ho, hsec⟩
      · exact .inr rfl
    · exact .inr rfl
  | rw p b write =>
    rw [Virtio.step]
    split
    · rename_i hpc
      split
      · rename_i hb
        refine .inl ⟨_, rfl, h.quiet rfl rfl rfl (h.lock.keep (by rw [hpc]; rfl)) (fun q c hq => ?_) (by rw [hpc]; rfl)
          (by rw [hpc]; rfl) trivial⟩
        rw [Sys.goto_pc] at hq
        by_cases hqp : q = p
        · rw [hqp, update_self] at hq
          cases hq
          exact ⟨hqp ▸ hb, rfl⟩
        · rw [update_of_ne hqp] at hq
          exact h.owner q c hq
      · exact .inr rfl
    · exact .inr rfl
  | intr p =>
    rw [Virtio.step]
    split
    · rename_i hpc
      exact .inl ⟨_, rfl, h.move hpc rfl rfl rfl trivial rfl⟩
    · exact .inr rfl
  | kill p =>
    exact .inl ⟨_, rfl, h.quiet (update_eq_self _ _).symm rfl rfl h.lock h.owner rfl rfl (h.stage p)⟩
  | step p => exact h.advance p
  | take =>
    rw [Virtio.step]
    split
    · exact .inr rfl
    · rename_i hne
      exact .inl ⟨_, rfl, h.take hne⟩
  | finish j =>
    rw [Virtio.step]
    split
    · rename_i w hw
      split
      · exact .inr rfl
      · exact .inl ⟨_, rfl, h.finish hw⟩
    · exact .inr rfl
  | post j =>
    rw [Virtio.step]
    split
    · rename_i w hw
      split
      · rename_i hwr
        exact .inl ⟨_, rfl, h.post hw hwr⟩
      · exact .inr rfl
    · exact .inr rfl

omit [DecidableEq P] [DecidableEq B] in
theorem init : Inv (virtioDiskInit : Sys P B) where
  lock := fun _ => ⟨nofun, nofun⟩
  owner := nofun
  chains := ⟨nofun, nofun, nofun, nofun, fun i hi hb => absurd hi (of_decide_eq_false hb)⟩
  stage := fun _ => trivial
  avail := Fifo.Holds.new (by decide) (by decide) _
  used := Fifo.Holds.new (by decide) (by decide) _
  perm := List.Perm.refl _
  live := nofun
  work := nofun
  posts := nofun
  cleared := nofun

end Inv

/-! ### The protocol -/

/-- What holds between the driver and the device. -/
structure Protocol (s : Sys P B) : Prop where
  /-- A descriptor is free, or in the chain of one thread. -/
  desc : ∀ i < NUM, (s.free i = true ∧ ∀ p r, (s.pc p).job = some r → i ∉ r.chain) ∨
    (s.free i = false ∧ ∃! p, ∃ r, (s.pc p).job = some r ∧ i ∈ r.chain)
  /-- Two chains have no descriptor in common. -/
  disjoint : ∀ p q r r', (s.pc p).job = some r → (s.pc q).job = some r' → p ≠ q → r.chain.Disjoint r'.chain
  /-- A chain has three descriptors, for the buffer, sector and direction of its call. -/
  shape : ∀ p r, (s.pc p).job = some r → r.chain.Nodup ∧ r.sector = sectorOf (s.blockno r.buf) ∧
    (s.pc p ≠ .format r → Shape s r)
  /-- The slots of the avail ring that the device has not taken hold the heads of their requests. -/
  avail : s.avail.toNat = s.reqs.length % 2 ^ 16 ∧ s.seen.toNat = s.taken % 2 ^ 16 ∧
    ∀ (k : Nat) (r : Req P B), s.reqs[k]? = some r → s.taken ≤ k → s.ring (k % NUM) = UInt16.ofNat r.i₀
  /-- `virtio_disk_intr` finds the buffer of the chain whose completion it processes. -/
  info : s.usedIdx ≠ s.used → ∃ x r, s.posts[s.cleared.length]? = some x ∧ s.reqs[x.num]? = some r ∧
    (s.usedRing (s.usedIdx.toNat % NUM)).toNat = r.i₀ ∧ (s.info r.i₀).b = some r.buf ∧ (s.info r.i₀).status = 0
  /-- A thread that waits and finds `b->disk` 0 waits for a request that the device has completed. -/
  disk : ∀ p k r, (s.pc p).waits = some (k, r) → s.disk r.buf = false →
    ∃ (j : Nat) (x : Post), j < s.cleared.length ∧ s.posts[j]? = some x ∧ x.num = k
  /-- Each request that the device has taken is worked on or completed, once. -/
  once : (s.work.map Work.num ++ s.posts.map Post.num).Perm (range s.taken)
  /-- The completions are processed in order, each for the buffer of its request. -/
  order : s.usedIdx.toNat = s.cleared.length % 2 ^ 16 ∧ s.cleared.length ≤ s.posts.length ∧
    ∀ (j : Nat) (x : Post) (b : B), s.posts[j]? = some x → s.cleared[j]? = some b →
      ∃ r, s.reqs[x.num]? = some r ∧ r.buf = b

/-- A request whose thread finds `b->disk` 0 has been completed and processed. -/
theorem Inv.completed (h : Inv s) {k : Nat} (hw : (s.pc p).waits = some (k, r)) (hdisk : s.disk r.buf = false) :
    ∃ (j : Nat) (x : Post), j < s.cleared.length ∧ s.posts[j]? = some x ∧ x.num = k := by
  have hreq := ((h.stage p).of_waits hw).req
  have hnot : k ∉ s.live := by
    intro hk
    rw [(h.of_live hk hreq).2.1] at hdisk
    cases hdisk
  rw [Sys.live, mem_append, mem_append, not_or, not_or, mem_range'_1] at hnot
  obtain ⟨havail, hwork, hdrop⟩ := hnot
  have hlt := (List.getElem?_eq_some_iff.mp hreq).1
  have htaken : k ∈ s.work.map Work.num ++ s.posts.map Post.num :=
    h.perm.mem_iff.mpr (mem_range.mpr (by omega))
  obtain ⟨x, hx, rfl⟩ := mem_map.mp ((mem_append.mp htaken).resolve_left hwork)
  obtain ⟨j, hj⟩ := mem_iff_getElem?.mp hx
  refine ⟨j, x, ?_, hj, rfl⟩
  by_contra hge
  refine hdrop (mem_map_of_mem (mem_of_getElem? (i := j - s.cleared.length) ?_))
  rw [getElem?_drop, ← hj]
  congr 1
  omega

theorem Inv.protocol (h : Inv s) : Protocol s where
  desc := by
    intro i hi
    rcases hf : s.free i with - | -
    · right
      obtain ⟨p, r, hp, hir⟩ := h.chains.cover i hi hf
      refine ⟨rfl, p, ⟨r, hp, hir⟩, ?_⟩
      rintro q ⟨r', hq, hir'⟩
      exact h.chains.disjoint q p r' r i hq hp hir' hir
    · left
      refine ⟨rfl, fun p r hp hir => ?_⟩
      rw [h.chains.busy p r hp i hir] at hf
      cases hf
  disjoint := fun p q r r' hp hq hne i hi hi' => hne (h.chains.disjoint p q r r' i hp hq hi hi')
  shape := by
    intro p r hp
    refine ⟨(h.chains.fit p r hp).nodup, (h.owner p r.toCall (Pc.call_of_job hp)).2, fun hne => ?_⟩
    have hs := h.stage p
    rcases hpc : s.pc p with - | c | c | c | c | r' | r' | r' | r' | ⟨k, r'⟩ | ⟨k, r'⟩ | ⟨k, r'⟩ | - | - <;>
      rw [hpc] at hp hs hne <;> cases hp
    case format => exact absurd rfl hne
    case record => exact hs
    case publish | notify => exact hs.1.toShape
    case wait | asleep | relock => exact hs.toShape
  avail := ⟨by simpa using h.avail.w, h.avail.r, fun k r hr hk => h.avail.slot k _ (by rw [getElem?_map, hr]; rfl) hk⟩
  info := by
    intro hne
    obtain ⟨x, r, hx, hr, hid, hlive⟩ := h.next_post hne
    obtain ⟨-, -, hpub⟩ := h.of_live hlive hr
    exact ⟨x, r, hx, hr, hid, hpub.info, hpub.written (.inr ⟨x, mem_of_getElem? hx, rfl⟩)⟩
  disk := fun _ _ _ hw hd => h.completed hw hd
  once := h.perm
  order := ⟨h.used.r, h.cleared_le, h.cleared⟩

variable [DecidableEq P] [DecidableEq B]

/-- **The disk driver keeps to the protocol**: for any number of threads, any interleaving of
them with the device and any number of requests, no step panics and `Protocol` holds in every
state. -/
theorem disk_protocol (acts : List (Act P B)) :
    (∀ msg, Machine.outcome step virtioDiskInit acts ≠ .panic msg) ∧
    ∀ s : Sys P B, Machine.Run step virtioDiskInit acts s → Protocol s := by
  have hstep : ∀ (s : Sys P B) a s', Inv s → step s a = .ok s' → Inv s' := by
    intro s a s' h hs
    rcases h.step a with ⟨s'', heq, h'⟩ | hb
    · rw [hs] at heq
      cases heq
      exact h'
    · rw [hs] at hb
      cases hb
  refine ⟨fun msg => ?_, fun s hrun => (hrun.invariant hstep Inv.init).protocol⟩
  refine Machine.outcome_ne_panic hstep (fun s a h hp => ?_) Inv.init acts
  rcases h.step a with ⟨s', heq, -⟩ | hb
  · rw [hp] at heq
    cases heq
  · rw [hp] at hb
    cases hb

/-- A thread reads a block, with one interrupt. -/
def readOne : List (Act (Fin 2) Unit) :=
  [.bget 0 () 5, .rw 0 () false] ++ replicate 7 (.step 0) ++ [.take, .finish 0, .post 0, .intr 1] ++
    replicate 3 (.step 1) ++ replicate 3 (.step 0)

theorem disk_protocol_one :
    ∃ s, Machine.Run step virtioDiskInit readOne s ∧ (s.pc 0).job = none ∧ s.cleared = [()] ∧ Protocol s := by
  have hpass : Machine.passes step virtioDiskInit readOne
      (fun s => decide ((s.pc 0).job = none ∧ s.cleared = [()])) = true := by decide
  obtain ⟨s, hrun, hs⟩ := Machine.run_of_passes hpass
  obtain ⟨hjob, hcleared⟩ := of_decide_eq_true hs
  exact ⟨s, hrun, hjob, hcleared, (disk_protocol readOne).2 s hrun⟩

end Xv6.Virtio

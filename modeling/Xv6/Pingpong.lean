/-
Xv6/Pingpong.lean

user/pingpong.c: parent and child are to exchange a byte.

The program calls `fork` first and `pipe` afterwards, in both processes.  So each has
two pipes of its own, and nothing that one writes can be read by the other.  Both
close the write end of the pipe they read from, and `read` returns at once,
with nothing.

`alone` specifies the system calls for a process that shares no pipe: it says which
of its pipes nothing was written to, and allows `read` from those only.  Both
processes keep to it (`main_alone`), and it is sound for any number of such processes
(`Private.step`).  So no `read` ever returns a byte, and what the program prints is
not what has happened (`nothing_exchanged`).
-/
import Xv6.User

namespace Xv6.User

open Function List Outcome Event
open Sys (Fd)

/-! ### The program -/

namespace Pingpong

/-- What the buffer has after `read`. -/
def stored (buf : List UInt8) : Option (List UInt8) → List UInt8
  | some (c :: _) => [c]
  | _ => buf

/-- The branch of the child. -/
def child (pipes1 pipes2 : Fd × Fd) (buf : List UInt8) : UProg Unit := do
  let pid ← sys .getpid
  sys (.close pipes1.2)
  let r ← sys (.read pipes1.1 1)
  sys (.print (toString pid ++ ": received ping\n"))
  let _ ← sys (.write pipes2.2 (stored buf r))
  .call .exit nofun

/-- The branch of the parent. -/
def parent (pipes1 pipes2 : Fd × Fd) (buf : List UInt8) : UProg Unit := do
  let pid ← sys .getpid
  sys (.close pipes2.2)
  let _ ← sys (.write pipes1.2 buf)
  sys .wait
  let _ ← sys (.read pipes2.1 1)
  sys (.print (toString pid ++ ": received pong\n"))
  .call .exit nofun

def main : UProg Unit := do
  let buf : List UInt8 := [97]
  let ret ← sys .fork
  let pipes1 ← sys .pipe
  let pipes2 ← sys .pipe
  if ret = 0 then child pipes1 pipes2 buf else parent pipes1 pipes2 buf

end Pingpong

/-! ### Processes that share no pipe -/

/-- What a process knows: its descriptors, and pipes that nothing was written to. -/
structure Mine where
  ofile : Fd → Option Desc
  dry : Set Nat

/-- What a process must know to make a system call and to be sure that no `read` returns a byte. -/
@[simp] def alone : Prog.Spec Op Op.Resp Mine
  | .fork, m, Q => (∀ fd i w, m.ofile fd ≠ some (.pipe i w)) ∧ m.dry = ∅ ∧ ∀ pid, Q pid m
  | .pipe, m, Q =>
    ∀ r w i, m.ofile r = none → update m.ofile r (some (.pipe i false)) w = none →
      (∀ fd b, m.ofile fd ≠ some (.pipe i b)) →
      Q (r, w) ⟨update (update m.ofile r (some (.pipe i false))) w (some (.pipe i true)), insert i m.dry⟩
  | .read fd _, m, Q => ∃ i ∈ m.dry, m.ofile fd = some (.pipe i false) ∧ Q (some []) m
  | .write fd _, m, Q => ∃ i, m.ofile fd = some (.pipe i true) ∧ ∀ r, Q r { m with dry := m.dry \ {i} }
  | .close fd, m, Q => Q () { m with ofile := update m.ofile fd none }
  | .wait, m, Q | .print _, m, Q => Q () m
  | .getpid, m, Q => ∀ pid, Q pid m
  | .exit, _, _ => True

/-- Descriptor `fd` of process `q` stands for an end of pipe `i`. -/
def Uses (s : World) (q : Nat) (fd : Fd) (i : Nat) : Prop :=
  ∃ t w, s.proc q = .live t ∧ t.ofile fd = some (.pipe i w)

/-- No pipe is shared, and every process goes on as `alone` allows. -/
structure Private (s : World) (mine : Nat → Mine) : Prop where
  known : ∀ q, s.nextpid ≤ q → s.proc q = .unused
  code : ∀ q t, s.proc q = .live t → t.ofile = (mine q).ofile ∧ t.code.wp alone (mine q) fun _ _ => True
  apart : ∀ q q' fd fd' i, Uses s q fd i → Uses s q' fd' i → q = q'
  used : ∀ q fd i, Uses s q fd i → i < s.npipes
  fresh : ∀ i, s.npipes ≤ i → s.queue i = []
  /-- Nothing was written to a dry pipe, and nobody else can. -/
  dry : ∀ q t, s.proc q = .live t → ∀ i ∈ (mine q).dry,
    i < s.npipes ∧ s.queue i = [] ∧ ∀ q' fd', Uses s q' fd' i → q' = q
  silent : ∀ q i bs, (q, read i bs) ∈ s.trace → bs = []

section Private

variable {s : World} {mine : Nat → Mine} {p : Nat} {t : Task} {code : UProg Unit} {s' : World} {fd : Fd}

theorem fdalloc_free {ofile : Fd → Option Desc} (h : fdalloc ofile = some fd) : ofile fd = none := by
  simpa using find?_some h

section

variable (h : Private s mine)

include h

/-- **A step of one process** that uses no pipe it did not use before, but for new ones. -/
theorem Private.move {x : Slot} {m : Mine}
    (hproc : s'.proc = update s.proc p x) (hpid : s'.nextpid = s.nextpid) (hlt : p < s.nextpid)
    (hcode : ∀ t', x = .live t' → t'.ofile = m.ofile ∧ t'.code.wp alone m fun _ _ => True)
    (huse : ∀ t' fd i w, x = .live t' → t'.ofile fd = some (.pipe i w) →
      (∃ fd', Uses s p fd' i) ∨ s.npipes ≤ i ∧ i < s'.npipes)
    (hnp : s.npipes ≤ s'.npipes)
    (hqueue : ∀ i, s'.queue i = s.queue i ∨ ∃ fd, Uses s p fd i ∧ i ∉ m.dry)
    (hdry : ∀ i ∈ m.dry, (∃ t, s.proc p = .live t ∧ i ∈ (mine p).dry) ∨ s.npipes ≤ i ∧ i < s'.npipes)
    (htrace : ∀ q i bs, (q, read i bs) ∈ s'.trace → bs = []) : Private s' (update mine p m) := by
  -- who uses what afterwards
  have huses : ∀ {q fd i}, Uses s' q fd i →
      q ≠ p ∧ Uses s q fd i ∨ q = p ∧ ((∃ fd', Uses s p fd' i) ∨ s.npipes ≤ i ∧ i < s'.npipes) := by
    rintro q fd i ⟨t', w, hq, hw⟩
    rcases eq_or_ne q p with rfl | hqp
    · rw [hproc, update_self] at hq
      exact Or.inr ⟨rfl, huse t' fd i w hq hw⟩
    · rw [hproc, update_of_ne hqp] at hq
      exact Or.inl ⟨hqp, t', w, hq, hw⟩
  have hother : ∀ {q fd i}, q ≠ p → Uses s q fd i → (∃ fd', Uses s p fd' i) ∨ s.npipes ≤ i ∧ i < s'.npipes →
      False := by
    rintro q fd i hqp hq (⟨fd', hp⟩ | ⟨hge, -⟩)
    · exact hqp (h.apart q p fd fd' i hq hp)
    · exact absurd (h.used q fd i hq) (not_lt.mpr hge)
  refine
    { known := fun q hq => ?_
      code := fun q t' hq => ?_
      apart := fun q q' fd fd' i hq hq' => ?_
      used := fun q fd i hq => ?_
      fresh := fun i hi => ?_
      dry := fun q t' hq i hi => ?_
      silent := htrace }
  · rw [hpid] at hq
    rw [hproc, update_of_ne (by omega)]
    exact h.known q hq
  · rcases eq_or_ne q p with rfl | hqp
    · rw [hproc, update_self] at hq
      rw [update_self]
      exact hcode t' hq
    · rw [hproc, update_of_ne hqp] at hq
      rw [update_of_ne hqp]
      exact h.code q t' hq
  · rcases huses hq with ⟨hne, hu⟩ | ⟨rfl, hu⟩ <;> rcases huses hq' with ⟨hne', hu'⟩ | ⟨rfl, hu'⟩
    · exact h.apart q q' fd fd' i hu hu'
    · exact (hother hne hu hu').elim
    · exact (hother hne' hu' hu).elim
    · rfl
  · rcases huses hq with ⟨-, hu⟩ | ⟨-, ⟨fd', hu⟩ | hu⟩
    · exact (h.used q fd i hu).trans_le hnp
    · exact (h.used p fd' i hu).trans_le hnp
    · exact hu.2
  · rcases hqueue i with heq | ⟨fd, hu, -⟩
    · rw [heq]
      exact h.fresh i (hnp.trans hi)
    · have := h.used p fd i hu
      omega
  · rcases eq_or_ne q p with rfl | hqp
    · rw [update_self] at hi
      have hold : i < s'.npipes ∧ s.queue i = [] ∧ ∀ q' fd', Uses s q' fd' i → q' = q := by
        rcases hdry i hi with ⟨t, ht, hold⟩ | ⟨hge, hlt'⟩
        · obtain ⟨hlt', hempty, honly⟩ := h.dry q t ht i hold
          exact ⟨hlt'.trans_le hnp, hempty, honly⟩
        · exact ⟨hlt', h.fresh i hge, fun q' fd' hu => absurd (h.used q' fd' i hu) (not_lt.mpr hge)⟩
      refine ⟨hold.1, ?_, fun q' fd' hu => ?_⟩
      · rcases hqueue i with heq | ⟨_, -, hnot⟩
        · rw [heq]
          exact hold.2.1
        · exact absurd hi hnot
      · rcases huses hu with ⟨-, hu⟩ | ⟨heq, -⟩
        · exact hold.2.2 q' fd' hu
        · exact heq
    · rw [update_of_ne hqp] at hi
      rw [hproc, update_of_ne hqp] at hq
      obtain ⟨hlt', hempty, honly⟩ := h.dry q t' hq i hi
      refine ⟨hlt'.trans_le hnp, ?_, fun q' fd' hu => ?_⟩
      · rcases hqueue i with heq | ⟨fd, hu, -⟩
        · rw [heq]
          exact hempty
        · exact absurd (honly p fd hu).symm hqp
      · rcases huses hu with ⟨-, hu⟩ | ⟨rfl, ⟨fd', hu⟩ | ⟨hge, -⟩⟩
        · exact honly q' fd' hu
        · exact honly q' fd' hu
        · omega

theorem Private.live_lt (hp : s.proc p = .live t) : p < s.nextpid := by
  by_contra hge
  rw [h.known p (not_lt.mp hge)] at hp
  cases hp

/-- **A step that leaves the descriptors and the pipes alone.** -/
theorem Private.goOn (hp : s.proc p = .live t)
    (hproc : s'.proc = update s.proc p (.live { t with code := code })) (hpid : s'.nextpid = s.nextpid)
    (hcode : code.wp alone (mine p) fun _ _ => True) (hnp : s'.npipes = s.npipes) (hqueue : s'.queue = s.queue)
    (htrace : ∀ q i bs, (q, read i bs) ∈ s'.trace → bs = []) : Private s' (update mine p (mine p)) := by
  refine h.move hproc hpid (h.live_lt hp) ?_ ?_ hnp.ge (fun i => .inl (congrFun hqueue i))
    (fun i hi => .inl ⟨t, hp, hi⟩) htrace
  · rintro t' ⟨⟩
    exact ⟨(h.code p t hp).1, hcode⟩
  · rintro t' fd i w ⟨⟩ hw
    exact .inl ⟨fd, t, w, hp, hw⟩

/-- A slot becomes free. -/
theorem Private.reap (hlt : p < s.nextpid) : Private (s.setSlot p .unused) (update mine p ⟨fun _ => none, ∅⟩) :=
  h.move rfl rfl hlt nofun nofun le_rfl (fun _ => .inl rfl) nofun h.silent

/-- There is one more number for a process. -/
theorem Private.grow : Private { s with nextpid := s.nextpid + 1 } mine :=
  { known := fun q hq => h.known q (Nat.le_of_succ_le hq)
    code := h.code
    apart := h.apart
    used := h.used
    fresh := h.fresh
    dry := h.dry
    silent := h.silent }

end

theorem silent_record (h : ∀ q i bs, (q, read i bs) ∈ s.trace → bs = []) {e : Event}
    (he : ∀ i bs, e = .read i bs → bs = []) :
    ∀ q i bs, (q, read i bs) ∈ (s.record p e).trace → bs = [] := by
  intro q i bs hmem
  rcases mem_append.mp hmem with hold | hnew
  · exact h q i bs hold
  · obtain ⟨-, heq⟩ := Prod.mk.inj (mem_singleton.mp hnew)
    exact he i bs heq.symm

section

variable (h : Private s mine) (hp : s.proc p = .live t)

include h hp

/-- A process has a new pipe. -/
theorem Private.openPipe {r w : Fd} (hproc : s'.proc = update s.proc p (.live { t with
      code := code
      ofile := update (update t.ofile r (some (.pipe s.npipes false))) w (some (.pipe s.npipes true)) }))
    (hpid : s'.nextpid = s.nextpid) (hnp : s'.npipes = s.npipes + 1) (hqueue : s'.queue = s.queue)
    (hcode : code.wp alone
      ⟨update (update (mine p).ofile r (some (.pipe s.npipes false))) w (some (.pipe s.npipes true)),
        insert s.npipes (mine p).dry⟩ fun _ _ => True)
    (htrace : ∀ q i bs, (q, read i bs) ∈ s'.trace → bs = []) :
    Private s' (update mine p
      ⟨update (update (mine p).ofile r (some (.pipe s.npipes false))) w (some (.pipe s.npipes true)),
        insert s.npipes (mine p).dry⟩) := by
  have hnew : s.npipes ≤ s.npipes ∧ s.npipes < s'.npipes := ⟨le_rfl, hnp ▸ Nat.lt_succ_self _⟩
  refine h.move hproc hpid (h.live_lt hp) ?_ ?_ (hnp ▸ Nat.le_succ _) (fun i => .inl (congrFun hqueue i)) ?_ htrace
  · rintro t' ⟨⟩
    exact ⟨by rw [(h.code p t hp).1], hcode⟩
  · rintro t' fd i b ⟨⟩ hfd
    dsimp only at hfd
    rcases eq_or_ne fd w with rfl | hfw
    · rw [update_self] at hfd
      obtain ⟨rfl, -⟩ := Desc.pipe.inj (Option.some.inj hfd)
      exact .inr hnew
    rw [update_of_ne hfw] at hfd
    rcases eq_or_ne fd r with rfl | hfr
    · rw [update_self] at hfd
      obtain ⟨rfl, -⟩ := Desc.pipe.inj (Option.some.inj hfd)
      exact .inr hnew
    rw [update_of_ne hfr] at hfd
    exact .inl ⟨fd, t, b, hp, hfd⟩
  · rintro i (rfl | hi)
    · exact .inr hnew
    · exact .inl ⟨t, hp, hi⟩

/-- A process has written to pipe `i`, or was about to. -/
theorem Private.wrote {i : Nat} (hfd : t.ofile fd = some (.pipe i true))
    (hproc : s'.proc = update s.proc p (.live { t with code := code }))
    (hpid : s'.nextpid = s.nextpid) (hnp : s'.npipes = s.npipes) (hqueue : ∀ j, j ≠ i → s'.queue j = s.queue j)
    (hcode : code.wp alone { mine p with dry := (mine p).dry \ {i} } fun _ _ => True)
    (htrace : ∀ q j bs, (q, read j bs) ∈ s'.trace → bs = []) :
    Private s' (update mine p { mine p with dry := (mine p).dry \ {i} }) := by
  refine h.move hproc hpid (h.live_lt hp) ?_ ?_ hnp.ge (fun j => ?_) (fun j hj => .inl ⟨t, hp, hj.1⟩) htrace
  · rintro t' ⟨⟩
    exact ⟨(h.code p t hp).1, hcode⟩
  · rintro t' fd' j w ⟨⟩ hw
    exact .inl ⟨fd', t, w, hp, hw⟩
  · rcases eq_or_ne j i with rfl | hj
    · exact .inr ⟨fd, ⟨t, true, hp, hfd⟩, fun hj => hj.2 rfl⟩
    · exact .inl (hqueue j hj)

/-- **`alone` is sound**: a process that keeps to it takes a step, and no pipe is shared. -/
theorem Private.exec {o : Op} {k : o.Resp → UProg Unit}
    (hok : alone o (mine p) fun r m => (k r).wp alone m fun _ _ => True)
    (he : User.exec s p t o k = .ok s') : ∃ mine', Private s' mine' := by
  have hfile := (h.code p t hp).1
  have hlt := h.live_lt hp
  cases o with
  | fork =>
    obtain ⟨hnone, hdry, hk⟩ := hok
    obtain rfl := ok.inj he
    have hparent : Private { s.setSlot p (.live { t with code := k s.nextpid }) with nextpid := s.nextpid + 1 }
        (update mine p (mine p)) := h.grow.goOn hp rfl rfl (hk s.nextpid) rfl rfl h.silent
    -- the descriptors are copied, and none of them is a pipe
    refine ⟨_, hparent.move (p := s.nextpid) (x := .live { t with code := k 0, parent := p }) (m := mine p)
      rfl rfl (Nat.lt_succ_self _) ?_ ?_ le_rfl (fun _ => .inl rfl) (fun i hi => ?_) h.silent⟩
    · rintro t' ⟨⟩
      exact ⟨hfile, hk 0⟩
    · rintro t' fd i w ⟨⟩ hw
      exact absurd (hfile ▸ hw) (hnone fd i w)
    · exact absurd hi (hdry ▸ Set.notMem_empty i)
  | pipe =>
    rw [User.exec] at he
    split at he
    · cases he
    next r hr =>
      dsimp only at he
      split at he
      · cases he
      next w hw =>
        obtain rfl := ok.inj he
        have hnew : ∀ fd b, (mine p).ofile fd ≠ some (.pipe s.npipes b) := by
          intro fd b hfd
          exact absurd (h.used p fd s.npipes ⟨t, b, hp, hfile ▸ hfd⟩) (lt_irrefl _)
        have hcode := hok r w s.npipes (hfile ▸ fdalloc_free hr) (hfile ▸ fdalloc_free hw) hnew
        exact ⟨_, h.openPipe hp rfl rfl rfl rfl hcode h.silent⟩
  | read fd n =>
    obtain ⟨i, hi, hfd, hk⟩ := hok
    obtain ⟨-, hempty, -⟩ := h.dry p t hp i hi
    rw [← hfile] at hfd
    simp only [User.exec, hfd, hempty, take_nil, drop_nil] at he
    split at he
    · cases he
    obtain rfl := ok.inj he
    refine ⟨_, h.goOn hp rfl rfl hk rfl ?_ (silent_record h.silent ?_)⟩
    · show update s.queue i [] = s.queue
      rw [← hempty, update_eq_self]
    · rintro j bs ⟨⟩
      rfl
  | write fd bs =>
    obtain ⟨i, hfd, hk⟩ := hok
    have hfd' : t.ofile fd = some (.pipe i true) := hfile ▸ hfd
    simp only [User.exec, hfd'] at he
    split at he
    · obtain rfl := ok.inj he
      exact ⟨_, h.wrote hp hfd' rfl rfl rfl (fun _ _ => rfl) (hk true) h.silent⟩
    split at he
    · obtain rfl := ok.inj he
      exact ⟨_, h.wrote hp hfd' rfl rfl rfl (fun _ _ => rfl) (hk false) h.silent⟩
    split at he
    · cases he
    obtain rfl := ok.inj he
    refine ⟨_, h.wrote hp hfd' rfl rfl rfl (fun j hj => update_of_ne hj _ _) ?_
      (silent_record h.silent nofun)⟩
    split
    · exact hk true
    · -- the rest of the bytes is written later
      exact ⟨i, hfd, fun r => by simpa only [Set.sdiff_sdiff, Set.union_self] using hk r⟩
  | close fd =>
    obtain rfl := ok.inj he
    refine ⟨_, h.move (m := { mine p with ofile := update (mine p).ofile fd none }) rfl rfl hlt ?_ ?_ le_rfl
      (fun _ => .inl rfl) (fun i hi => .inl ⟨t, hp, hi⟩) h.silent⟩
    · rintro t' ⟨⟩
      exact ⟨by rw [hfile], hok⟩
    · rintro t' fd' i w ⟨⟩ hw
      dsimp only at hw
      rcases eq_or_ne fd' fd with rfl | hne
      · rw [update_self] at hw
        cases hw
      · rw [update_of_ne hne] at hw
        exact .inl ⟨fd', t, w, hp, hw⟩
  | wait =>
    rw [User.exec] at he
    split at he
    · next q hq =>
        obtain rfl := ok.inj he
        have hz := find?_some hq
        have hqp : p ≠ q := by
          rintro rfl
          rw [hp] at hz
          cases hz
        have hmem := mem_of_find?_eq_some hq
        have hreap := h.reap (mem_range.mp hmem)
        have hp' : (s.setSlot q .unused).proc p = .live t := by
          rw [← hp]
          exact update_of_ne hqp _ _
        refine ⟨_, hreap.goOn hp' rfl rfl ?_ rfl rfl h.silent⟩
        rw [update_of_ne hqp]
        exact hok
    · split at he
      · cases he
      · obtain rfl := ok.inj he
        exact ⟨_, h.goOn hp rfl rfl hok rfl rfl h.silent⟩
  | getpid =>
    obtain rfl := ok.inj he
    exact ⟨_, h.goOn hp rfl rfl (hok p) rfl rfl h.silent⟩
  | print text =>
    obtain rfl := ok.inj he
    exact ⟨_, h.goOn hp rfl rfl hok rfl rfl (silent_record h.silent nofun)⟩
  | exit =>
    obtain rfl := ok.inj he
    exact ⟨_, h.move (m := ⟨fun _ => none, ∅⟩) rfl rfl hlt nofun nofun le_rfl (fun _ => .inl rfl) nofun h.silent⟩

omit hp

theorem Private.step (hs : User.step s p = .ok s') : ∃ mine', Private s' mine' := by
  rw [User.step] at hs
  split at hs
  · next t hp =>
      have hcode := (h.code p t hp).2
      split at hs
      · cases hs
      · next o k hc =>
          rw [hc] at hcode
          exact h.exec hp hcode hs
  · cases hs

end

theorem private_run {s₀ : World} {sched : List Nat} (h₀ : Private s₀ mine) (hr : Machine.Run User.step s₀ sched s) :
    ∃ mine', Private s mine' :=
  hr.invariant (I := fun s => ∃ mine, Private s mine) (fun _ _ _ ⟨_, h⟩ hs => h.step hs) ⟨mine, h₀⟩

theorem stdio_ne_pipe (fd : Fd) (i : Nat) (w : Bool) : stdio fd ≠ some (.pipe i w) := by
  rw [stdio]
  split <;> exact nofun

/-- The program of a single process keeps to `alone`. -/
theorem private_start (shell : Nat) (h : code.wp alone ⟨stdio, ∅⟩ fun _ _ => True) :
    Private (start p shell code) fun _ => ⟨stdio, ∅⟩ := by
  have hlive : ∀ q t, (start p shell code).proc q = .live t → q = p ∧
      t = ⟨code, stdio, shell⟩ := by
    intro q t hq
    simp only [start] at hq
    split at hq
    · next hqp => exact ⟨hqp, (Slot.live.inj hq).symm⟩
    · cases hq
  have hno : ∀ q fd i, ¬ Uses (start p shell code) q fd i := by
    rintro q fd i ⟨t, w, hq, hw⟩
    obtain ⟨-, rfl⟩ := hlive q t hq
    exact stdio_ne_pipe fd i w hw
  refine
    { known := fun q hq => ?_
      code := fun q t hq => ?_
      apart := fun q _ fd _ i hq => absurd hq (hno q fd i)
      used := fun q fd i hq => absurd hq (hno q fd i)
      fresh := fun _ _ => rfl
      dry := nofun
      silent := nofun }
  · exact if_neg (ne_of_gt hq)
  · obtain ⟨-, rfl⟩ := hlive q t hq
    exact ⟨rfl, h⟩

end Private

/-! ### pingpong -/

namespace Pingpong

section

variable {m : Mine} {pipes1 pipes2 : Fd × Fd} {i j : Nat}

theorem child_alone (buf : List UInt8) (hr : m.ofile pipes1.1 = some (.pipe i false))
    (hw : m.ofile pipes2.2 = some (.pipe j true)) (hrc : pipes1.1 ≠ pipes1.2) (hwc : pipes2.2 ≠ pipes1.2)
    (hi : i ∈ m.dry) : (child pipes1 pipes2 buf).wp alone m fun _ _ => True := by
  intro pid
  refine ⟨i, hi, ?_, j, ?_, fun _ => trivial⟩
  · exact (update_of_ne hrc _ _).trans hr
  · exact (update_of_ne hwc _ _).trans hw

theorem parent_alone (buf : List UInt8) (hw : m.ofile pipes1.2 = some (.pipe i true))
    (hr : m.ofile pipes2.1 = some (.pipe j false)) (hwc : pipes1.2 ≠ pipes2.2) (hrc : pipes2.1 ≠ pipes2.2)
    (hij : j ≠ i) (hj : j ∈ m.dry) : (parent pipes1 pipes2 buf).wp alone m fun _ _ => True := by
  intro pid
  refine ⟨i, ?_, fun _ => ⟨j, ⟨hj, hij⟩, ?_, trivial⟩⟩
  · exact (update_of_ne hwc _ _).trans hw
  · exact (update_of_ne hrc _ _).trans hr

end

/-- **Both processes keep to `alone`**: when `fork` copies the descriptors, there are no pipes yet. -/
theorem main_alone : main.wp alone ⟨stdio, ∅⟩ fun _ _ => True := by
  refine ⟨stdio_ne_pipe, rfl, fun ret r₁ w₁ i _ hw₁ _ r₂ w₂ j hr₂ hw₂ hj => ?_⟩
  -- the four descriptors are different ones, and so are the two pipes
  have hne : w₁ ≠ r₁ := by
    rintro rfl
    simp at hw₁
  have hne₁ : r₂ ≠ r₁ ∧ r₂ ≠ w₁ := by
    constructor <;> rintro rfl <;> simp [hne.symm] at hr₂
  have hne₂ : w₂ ≠ r₁ ∧ w₂ ≠ w₁ ∧ w₂ ≠ r₂ := by
    refine ⟨?_, ?_, ?_⟩ <;> rintro rfl <;> simp [hne.symm, hne₁.1.symm, hne₁.2.symm] at hw₂
  have hij : j ≠ i := by
    rintro rfl
    exact hj w₁ true (update_self ..)
  split
  · refine child_alone _ (i := i) (j := j) ?_ ?_ hne.symm hne₂.2.1 ?_ <;> simp [*, Ne.symm]
  · refine parent_alone _ (i := i) (j := j) ?_ ?_ hne₂.2.1.symm hne₂.2.2.symm hij ?_ <;> simp [*, Ne.symm]

/-- What is to hold of a run: who prints has read a byte that the other process wrote. -/
def Exchanged (s : World) : Prop :=
  ∀ before q text after, s.trace = before ++ (q, print text) :: after →
    ∃ i c q', q' ≠ q ∧ (q', write i [c]) ∈ before ∧ (q, read i [c]) ∈ before

/-- **pingpong exchanges nothing.**  Whatever the interleaving, every `read` returns without a byte, and
who prints has not read what the other process wrote. -/
theorem nothing_exchanged (p shell : Nat) (sched : List Nat) (s : World)
    (hr : Machine.Run step (start p shell main) sched s) :
    (Exchanged s ↔ ∀ q text, (q, print text) ∉ s.trace) ∧
      ∀ q i bs, (q, read i bs) ∈ s.trace → bs = [] := by
  obtain ⟨mine, h⟩ := private_run (private_start shell main_alone) hr
  refine ⟨⟨fun hex q text hmem => ?_, fun hno before q text after heq => ?_⟩, h.silent⟩
  · obtain ⟨before, after, heq⟩ := append_of_mem hmem
    obtain ⟨i, c, q', -, -, hread⟩ := hex before q text after heq
    have hnil : [c] = [] := h.silent q i [c] (heq ▸ mem_append_left _ hread)
    cases hnil
  · exact absurd (heq ▸ mem_append_right _ mem_cons_self) (hno q text)

/-- Both processes run to their end: the two lines are there, and no byte has been read. -/
theorem nothing_exchanged_to_the_end :
    ∃ s, Machine.Run step (start 3 2 main) [3, 3, 3, 3, 3, 3, 4, 4, 4, 4, 4, 4, 4, 4, 3, 3, 3, 3] s ∧
      (4, print "4: received ping\n") ∈ s.trace ∧ (3, print "3: received pong\n") ∈ s.trace ∧
      ∀ q i bs, (q, read i bs) ∈ s.trace → bs = [] := by
  obtain ⟨s, hs, hping, hpong⟩ : ∃ s,
      Machine.outcome step (start 3 2 main) [3, 3, 3, 3, 3, 3, 4, 4, 4, 4, 4, 4, 4, 4, 3, 3, 3, 3] = .ok s ∧
      (4, print "4: received ping\n") ∈ s.trace ∧ (3, print "3: received pong\n") ∈ s.trace :=
    ⟨_, rfl, by decide, by decide⟩
  have hr := Machine.run_of_outcome hs
  exact ⟨s, hr, hping, hpong, (nothing_exchanged 3 2 _ s hr).2⟩

/-- The child runs up to its output before the parent has made a pipe. -/
theorem received_ping_without_byte :
    ∃ s, Machine.Run step (start 3 2 main) [3, 4, 4, 4, 4, 4, 4] s ∧
      (4, print "4: received ping\n") ∈ s.trace ∧ ¬ Exchanged s := by
  obtain ⟨s, hs, ht⟩ : ∃ s, Machine.outcome step (start 3 2 main) [3, 4, 4, 4, 4, 4, 4] = .ok s ∧
      s.trace = [(4, read 0 []), (4, print "4: received ping\n")] := ⟨_, rfl, rfl⟩
  refine ⟨s, Machine.run_of_outcome hs, by rw [ht]; exact mem_cons_of_mem _ mem_cons_self, fun hex => ?_⟩
  obtain ⟨i, c, q', -, hwrite, -⟩ := hex [(4, read 0 [])] 4 _ [] ht
  cases mem_singleton.mp hwrite

end Pingpong

end Xv6.User

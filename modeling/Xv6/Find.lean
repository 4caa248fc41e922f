/-
Xv6/Find.lean

user/find.c on a directory tree.

The first part is the tree, as the kernel shows it: `open` resolves a path element by
element and takes the lowest free descriptor, `read` returns the next entry of a
directory.  Then the program.  `find` does not close a directory that it has read to its
end, and it compares names with `strcmp`, which reads on behind a name field that is
full.  What it reads there, `junk`, is arbitrary.

`visit` lists the tree in the order in which `find` goes through it.  Whether
`find` prints a file depends on where it stands in this list: `sim` says what the
program does of it, entry by entry, given the number of free descriptors
(`find_spec`).  So a file is printed if its path is not too long for `open`, if there are
free descriptors left behind the directories before it, and if its name compares equal
(`complete_iff`).
-/
import Xv6.SysFile

namespace Xv6.Find

open Function List
open Sys (Fd NOFILE T_DIR T_FILE T_DEVICE dot dotdot)

instance : NeZero NOFILE := ⟨by decide⟩

/-- Maximum file path name. -/
def MAXPATH : Nat := 128

/-! ### Directory trees -/

/-- A name that an entry can have. -/
structure Name where
  str : Str
  elem : IsElem str
  ne_dot : str ≠ dot
  ne_dotdot : str ≠ dotdot

mutual

/-- What an entry stands for. -/
inductive Node where
  | file
  /-- A device, with a major number that `open` accepts or not. -/
  | device (valid : Bool)
  | dir (slots : Slots)

/-- The entries of a directory behind "." and "..". -/
inductive Slots where
  | nil
  /-- An entry that is not in use. -/
  | free (rest : Slots)
  | cons (name : Name) (node : Node) (rest : Slots)

end

/-- The type that `fstat` reports. -/
def Node.type : Node → Int16
  | .file => T_FILE
  | .device _ => T_DEVICE
  | .dir _ => T_DIR

namespace Slots

/-- The entry of a name. -/
def lookup (s : Str) : Slots → Option Node
  | .nil => none
  | .free rest => rest.lookup s
  | .cons name node rest => if name.str = s then some node else rest.lookup s

/-- The name fields of the entries, `none` for an entry that is not in use. -/
def fields : Slots → List (Option Str)
  | .nil => []
  | .free rest => none :: rest.fields
  | .cons name _ rest => some (strncpy name.str DIRSIZ) :: rest.fields

end Slots

/-- What `read` finds in a directory. -/
def Slots.content (slots : Slots) : List (Option Str) :=
  some (strncpy dot DIRSIZ) :: some (strncpy dotdot DIRSIZ) :: slots.fields

mutual

/-- No two entries of a directory have the same name. -/
def Node.Distinct : Node → Prop
  | .dir slots => slots.Distinct
  | _ => True

def Slots.Distinct : Slots → Prop
  | .nil => True
  | .free rest => rest.Distinct
  | .cons name node rest => node.Distinct ∧ rest.lookup name.str = none ∧ rest.Distinct

end

/-- What is found by following names downwards. -/
def Node.follow : Node → List Str → Option Node
  | n, [] => some n
  | .dir slots, s :: rest => (slots.lookup s).bind fun n => n.follow rest
  | _, _ :: _ => none

/-! ### System calls -/

/-- The file system, which does not change, and the current directory. -/
structure Env where
  root : Node
  cwd : List Str
  /-- What lies behind the local variable `de` when the entry of this path is looked at. -/
  junk : Str → Str

/-- What a descriptor stands for. -/
inductive File where
  | console
  | inode (node : Node) (off : Nat)

structure State where
  ofile : Fd → Option File
  /-- What was written to the console. -/
  out : List (Fd × Str)

namespace Env

variable (env : Env)

/-- Follow path elements from a directory that is given by the names that lead to it. -/
def namex (at_ : List Str) : List Str → Option (List Str)
  | [] => some at_
  | s :: rest =>
    match env.root.follow at_ with
    | some (.dir slots) =>
      if s = dot then namex at_ rest
      else if s = dotdot then namex at_.dropLast rest
      else if (slots.lookup s).isSome then namex (at_ ++ [s]) rest
      else none
    | _ => none

def namei (path : Str) : Option (List Str) :=
  env.namex (if path.headD 0 = slash then [] else env.cwd) (elems path)

/-- The lowest descriptor that is free. -/
def fdalloc (ofile : Fd → Option File) : Option Fd := (finRange NOFILE).find? fun fd => (ofile fd).isNone

/-- Open for reading. -/
def «open» (st : State) (path : Str) : Option (Fd × State) :=
  if MAXPATH ≤ path.length then none
  else
    match (env.namei path).bind env.root.follow with
    | none | some (.device false) => none
    | some node => (fdalloc st.ofile).map fun fd => (fd, { st with ofile := update st.ofile fd (some (.inode node 0)) })

end Env

namespace State

def fstat (st : State) (fd : Fd) : Option Int16 :=
  match st.ofile fd with
  | some (.inode node _) => some node.type
  | _ => none

def close (st : State) (fd : Fd) : State := { st with ofile := update st.ofile fd none }

/-- Read a `struct dirent`; `none` at the end. -/
def read (st : State) (fd : Fd) : Option (Option Str × State) :=
  match st.ofile fd with
  | some (.inode (.dir slots) off) =>
    (slots.content[off]?).map fun de =>
      (de, { st with ofile := update st.ofile fd (some (.inode (.dir slots) (off + 1))) })
  | _ => none

def fprintf (st : State) (fd : Fd) (text : Str) : State :=
  match st.ofile fd with
  | some .console => { st with out := st.out ++ [(fd, text)] }
  | _ => st

/-- What was written to standard output. -/
def stdout (st : State) : List Str := (st.out.filter fun w => w.1 = 1).map Prod.snd

end State

/-- user/ulib.c -/
def stat (env : Env) (st : State) (path : Str) : Option Int16 × State :=
  match env.open st path with
  | none => (none, st)
  | some (fd, st) => (st.fstat fd, st.close fd)

/-- Compare a string with `q`.  A list of bytes reads as zero behind its end. -/
def strcmp : Str → Str → Int
  | p, [] => (p.headD 0).toNat
  | p, c :: q => if p.headD 0 ≠ 0 ∧ p.headD 0 = c then strcmp p.tail q else (p.headD 0).toNat - c.toNat

/-! ### The program -/

/-- The text of a message. -/
def text (s : String) : Str := s.toList.map fun c => UInt8.ofNat c.toNat

mutual

/-- `find`, with a bound on the number of steps. -/
def find (env : Env) (file : Str) : Nat → State → Str → Option State
  | 0, _, _ => none
  | fuel + 1, st, dir =>
    match env.open st dir with
    | none => some (st.fprintf 2 (text "find:cannot open " ++ dir ++ text "\n"))
    | some (fd, st) =>
      match st.fstat fd with
      | none => some ((st.fprintf 2 (text "find:cannot stat " ++ dir ++ text "\n")).close fd)
      | some type =>
        if type ≠ T_DIR then some ((st.fprintf 2 (dir ++ text " not a director\n")).close fd)
        else if dir.length + 1 + DIRSIZ + 1 > 512 then
          some ((st.fprintf 2 (text "find:director is too long\n")).close fd)
        else findLoop env file fuel st fd dir

/-- Its loop.  The descriptor stays open. -/
def findLoop (env : Env) (file : Str) : Nat → State → Fd → Str → Option State
  | 0, _, _, _ => none
  | fuel + 1, st, fd, dir =>
    match st.read fd with
    | none => some st
    | some (none, st) => findLoop env file fuel st fd dir
    | some (some name, st) =>
      let buf := dir ++ slash :: cut name
      if strcmp (name ++ env.junk buf) dot = 0 ∨ strcmp (name ++ env.junk buf) dotdot = 0 then
        findLoop env file fuel st fd dir
      else
        match findEntry env file fuel st buf name with
        | none => none
        | some st => findLoop env file fuel st fd dir

/-- What the loop does of an entry in use, from `stat` on. -/
def findEntry (env : Env) (file : Str) : Nat → State → Str → Str → Option State
  | 0, _, _, _ => none
  | fuel + 1, st, buf, name =>
    match stat env st buf with
    | (none, st) => some (st.fprintf 2 (text "find:cannot stat " ++ buf))
    | (some type, st) =>
      if type = T_DIR then find env file fuel st buf
      else if type = T_FILE ∧ strcmp (name ++ env.junk buf) file = 0 then
        some (st.fprintf 1 (buf ++ text "\n"))
      else some st

end

/-! ### Names and paths -/

theorem strcmp_eq_zero {p q : Str} (hq : 0 ∉ q) : strcmp p q = 0 ↔ p.takeWhile (· ≠ 0) = q := by
  induction q generalizing p with
  | nil =>
    cases p with
    | nil => simp [strcmp]
    | cons a p =>
      have ha : a.toNat = 0 ↔ a = 0 := by rw [← UInt8.toNat_inj]; rfl
      simp [strcmp, ha, takeWhile_cons]
  | cons c q ih =>
    have hc : c ≠ 0 := fun h => hq (h ▸ mem_cons_self)
    have hq' : 0 ∉ q := fun h => hq (mem_cons_of_mem _ h)
    cases p with
    | nil =>
      have hne : c.toNat ≠ 0 := fun h => hc (UInt8.toNat_inj.mp h)
      simpa [strcmp] using hne
    | cons a p =>
      rw [strcmp]
      by_cases hac : a ≠ 0 ∧ a = c
      · obtain ⟨ha, rfl⟩ := hac
        rw [if_pos ⟨ha, rfl⟩, ih hq', takeWhile_cons_of_pos (by simpa using ha)]
        simp
      · have hdiff : ((a.toNat : Int) - c.toNat ≠ 0) ∧ (a :: p).takeWhile (· ≠ 0) ≠ c :: q := by
          refine ⟨fun h => ?_, fun h => ?_⟩
          · obtain rfl : a = c := UInt8.toNat_inj.mp (by omega)
            exact hac ⟨hc, rfl⟩
          rw [takeWhile_cons] at h
          split at h
          · next ha => exact hac ⟨by simpa using ha, (cons.inj h).1⟩
          · cases h
        rw [if_neg (show ¬ ((a :: p).headD 0 ≠ 0 ∧ (a :: p).headD 0 = c) from hac)]
        exact ⟨fun h => absurd h hdiff.1, fun h => absurd h hdiff.2⟩

variable {s junk t dir : Str}

theorem takeWhile_ne_zero (h : 0 ∉ s) : s.takeWhile (· ≠ 0) = s := by
  rw [takeWhile_eq_self_iff]
  intro a ha
  simpa using fun h0 : a = 0 => h (h0 ▸ ha)

theorem strncpy_eq {n : Nat} (h : 0 ∉ s) (hn : s.length ≤ n) : strncpy s n = s ++ replicate (n - s.length) 0 := by
  induction s generalizing n with
  | nil => cases n <;> simp [strncpy, replicate_succ]
  | cons a s ih =>
    obtain ⟨n, rfl⟩ : ∃ m, n = m + 1 := ⟨n - 1, by simp at hn; omega⟩
    have ha : a ≠ 0 := fun h0 => h (h0 ▸ mem_cons_self)
    rw [strncpy, if_neg (by simpa using ha), tail_cons,
      ih (fun h' => h (mem_cons_of_mem _ h')) (by simpa using hn)]
    simp

/-- What `strcmp` reads of a name: it goes on behind a field that is full. -/
def seen (name junk : Str) : Str := name ++ if name.length = DIRSIZ then junk.takeWhile (· ≠ 0) else []

theorem takeWhile_field (h : 0 ∉ s) (hn : s.length ≤ DIRSIZ) :
    (strncpy s DIRSIZ ++ junk).takeWhile (· ≠ 0) = seen s junk := by
  rw [strncpy_eq h hn, append_assoc, takeWhile_append_of_pos]
  · congr 1
    split
    · next heq => simp [heq]
    next hne =>
      obtain ⟨m, hm⟩ : ∃ m, DIRSIZ - s.length = m + 1 := ⟨DIRSIZ - s.length - 1, by omega⟩
      rw [hm]
      simp
  · intro a ha
    simpa using fun h0 : a = 0 => h (h0 ▸ ha)

/-- A name is a dot name only if it is short, and then what lies behind it is not read. -/
theorem seen_eq_short (ht : t.length < DIRSIZ) : seen s junk = t ↔ s = t := by
  rw [seen]
  split
  · next hs =>
      constructor <;> intro h <;> exfalso
      · have := congrArg length h
        simp at this
        omega
      · subst h
        omega
  · rw [append_nil]

namespace Name

variable (name : Name)

theorem cut_field : cut (strncpy name.str DIRSIZ) = name.str := by
  rw [cut_strncpy, cut, cutAt, take_of_length_le name.elem.length_le, takeWhile_ne_zero name.elem.zero]

theorem strcmp_field {q : Str} (junk : Str) (hq : 0 ∉ q) :
    strcmp (strncpy name.str DIRSIZ ++ junk) q = 0 ↔ seen name.str junk = q := by
  rw [strcmp_eq_zero hq, takeWhile_field name.elem.zero name.elem.length_le]

theorem not_dots (junk : Str) : ¬ (strcmp (strncpy name.str DIRSIZ ++ junk) dot = 0 ∨
    strcmp (strncpy name.str DIRSIZ ++ junk) dotdot = 0) := by
  rw [name.strcmp_field junk (by decide), name.strcmp_field junk (by decide), seen_eq_short (by decide),
    seen_eq_short (by decide)]
  exact not_or.mpr ⟨name.ne_dot, name.ne_dotdot⟩

end Name

namespace Env

variable (env : Env)

theorem namex_append (pos xs ys : List Str) :
    env.namex pos (xs ++ ys) = (env.namex pos xs).bind fun p => env.namex p ys := by
  induction xs generalizing pos with
  | nil => rfl
  | cons s xs ih =>
    rw [cons_append, namex, namex]
    split
    · split
      · exact ih pos
      split
      · exact ih _
      · split
        · exact ih _
        · rfl
    · rfl

variable {env}

/-- **A path and a name.** -/
theorem namei_snoc {path : Str} {pos : List Str} {slots : Slots} (name : Name) (h0 : 0 ∉ path)
    (hstart : path = [] → env.cwd = []) (hpath : env.namei path = some pos)
    (hnode : env.root.follow pos = some (.dir slots)) (hfound : (slots.lookup name.str).isSome) :
    env.namei (path ++ slash :: name.str) = some (pos ++ [name.str]) := by
  have hfrom : (if (path ++ slash :: name.str).headD 0 = slash then [] else env.cwd)
      = if path.headD 0 = slash then [] else env.cwd := by
    cases path with
    | nil => simp [hstart rfl]
    | cons c path => rfl
  rw [namei, hfrom, elems_snoc name.elem h0, namex_append]
  rw [namei] at hpath
  rw [hpath, Option.bind_some, namex, hnode]
  simp [name.ne_dot, name.ne_dotdot, hfound, namex]

end Env

variable {n : Node} {pos cs : List Str} {slots : Slots}

theorem Node.follow_snoc (h : n.follow pos = some (.dir slots)) (s : Str) : n.follow (pos ++ [s]) = slots.lookup s := by
  induction pos generalizing n with
  | nil =>
    obtain rfl : n = .dir slots := by simpa [follow] using h
    simp [follow]
  | cons c pos ih =>
    cases n with
    | dir slots' =>
      rw [cons_append, follow]
      rw [follow] at h
      cases hl : slots'.lookup c with
      | none => rw [hl] at h; cases h
      | some n' =>
        rw [hl] at h
        exact ih h
    | _ => cases h

/-! ### Descriptors -/

namespace State

/-- The number of free descriptors. -/
def nfree (st : State) : Nat := (Finset.univ.filter fun fd => (st.ofile fd).isNone).card

variable {st : State}

theorem nfree_congr {st' : State} (h : st'.ofile = st.ofile) : st'.nfree = st.nfree := by
  rw [nfree, nfree, h]

variable {fd : Fd} {f : File}

theorem nfree_update (hfd : st.ofile fd = none) (out : List (Fd × Str)) :
    nfree { ofile := update st.ofile fd (some f), out := out } = st.nfree - 1 := by
  have hmem : fd ∈ Finset.univ.filter fun g => (st.ofile g).isNone := by simp [hfd]
  rw [nfree, nfree, ← Finset.card_erase_of_mem hmem]
  congr 1
  ext g
  rcases eq_or_ne g fd with rfl | hg
  · simp
  · simp [hg]

theorem nfree_advance {f' : File} (hfd : st.ofile fd = some f) (out : List (Fd × Str)) :
    nfree { ofile := update st.ofile fd (some f'), out := out } = st.nfree := by
  rw [nfree]
  congr 1
  ext g
  rcases eq_or_ne g fd with rfl | hg
  · simp [hfd]
  · simp [hg]

theorem fdalloc_eq_none : Env.fdalloc st.ofile = none ↔ st.nfree = 0 := by
  rw [Env.fdalloc, nfree]
  simp

theorem fdalloc_free (h : Env.fdalloc st.ofile = some fd) : st.ofile fd = none := by
  simpa using find?_some h

@[simp] theorem fprintf_ofile (st : State) (fd : Fd) (s : Str) : (st.fprintf fd s).ofile = st.ofile := by
  rw [fprintf]
  split <;> rfl

theorem fprintf_stdout_of_ne (st : State) (hfd : fd ≠ 1) (s : Str) : (st.fprintf fd s).stdout = st.stdout := by
  rw [fprintf]
  split
  · simp [stdout, hfd]
  · rfl

theorem fprintf_stdout (h : st.ofile 1 = some .console) (s : Str) : (st.fprintf 1 s).stdout = st.stdout ++ [s] := by
  simp [fprintf, h, stdout]

end State

section Calls

variable {env : Env} {st : State} {path : Str} {pos : List Str} {node : Node}

theorem open_eq (hpath : env.namei path = some pos) (hnode : env.root.follow pos = some node)
    (hdev : node ≠ .device false) : env.open st path =
      if path.length < MAXPATH then
        (Env.fdalloc st.ofile).map fun fd => (fd, { st with ofile := update st.ofile fd (some (.inode node 0)) })
      else none := by
  rw [Env.open, hpath, Option.bind_some, hnode]
  by_cases hlen : path.length < MAXPATH
  · rw [if_neg (not_le.mpr hlen), if_pos hlen]
    split
    · next h => cases h
    · next h => exact absurd (Option.some.inj h) hdev
    · next h => rw [Option.some.inj h]
  · rw [if_pos (not_lt.mp hlen), if_neg hlen]

/-- `open` succeeds, and takes a descriptor. -/
theorem open_ok (hpath : env.namei path = some pos) (hnode : env.root.follow pos = some node)
    (hdev : node ≠ .device false) (hlen : path.length < MAXPATH) (hfree : 0 < st.nfree) :
    ∃ fd, st.ofile fd = none ∧
      env.open st path = some (fd, { st with ofile := update st.ofile fd (some (.inode node 0)) }) := by
  cases hfd : Env.fdalloc st.ofile with
  | none => exact absurd (State.fdalloc_eq_none.mp hfd) hfree.ne'
  | some fd =>
    refine ⟨fd, State.fdalloc_free hfd, ?_⟩
    rw [open_eq hpath hnode hdev, if_pos hlen, hfd, Option.map_some]

theorem open_fails (hno : ¬ (path.length < MAXPATH ∧ 0 < st.nfree)) : env.open st path = none := by
  rw [Env.open]
  split
  · rfl
  next hlen =>
    have hfd : Env.fdalloc st.ofile = none :=
      State.fdalloc_eq_none.mpr (Nat.eq_zero_of_not_pos fun h => hno ⟨not_le.mp hlen, h⟩)
    rw [hfd]
    split <;> rfl

theorem open_device (hpath : env.namei path = some pos) (hnode : env.root.follow pos = some (.device false)) :
    env.open st path = none := by
  rw [Env.open, hpath, Option.bind_some, hnode]
  split <;> rfl

/-- `stat` needs a descriptor, and gives it back. -/
theorem stat_ok (hpath : env.namei path = some pos) (hnode : env.root.follow pos = some node)
    (hdev : node ≠ .device false) (hlen : path.length < MAXPATH) (hfree : 0 < st.nfree) :
    stat env st path = (some node.type, st) := by
  obtain ⟨fd, hfd, hopen⟩ := open_ok hpath hnode hdev hlen hfree
  rw [stat, hopen]
  simp [State.fstat, State.close, ← hfd]

theorem stat_fails (hopen : env.open st path = none) : stat env st path = (none, st) := by
  rw [stat, hopen]

end Calls

/-! ### The order of the search -/

/-- What `find` comes across, with the names that lead to it. -/
inductive Item where
  | enter (cs : List Str)
  | file (cs : List Str)
  deriving DecidableEq

mutual

/-- A node and all that is below it, in the order of the search. -/
def Node.visit (cs : List Str) : Node → List Item
  | .file => [.file cs]
  | .device _ => []
  | .dir slots => .enter cs :: slots.visit cs

def Slots.visit (cs : List Str) : Slots → List Item
  | .nil => []
  | .free rest => rest.visit cs
  | .cons name node rest => node.visit (cs ++ [name.str]) ++ rest.visit cs

end

/-- The path of what names lead to. -/
def pathOf (dir : Str) (cs : List Str) : Str := cs.foldl (fun path s => path ++ slash :: s) dir

@[simp] theorem pathOf_snoc (dir : Str) (cs : List Str) (s : Str) :
    pathOf dir (cs ++ [s]) = pathOf dir cs ++ slash :: s := by
  simp [pathOf]

/-- What `find` prints of a list of items, with so many free descriptors, and how many are left. -/
def sim (env : Env) (file dir : Str) : Nat → List Item → List Str × Nat
  | f, [] => ([], f)
  | f, .enter cs :: is => sim env file dir (if (pathOf dir cs).length < MAXPATH then f - 1 else f) is
  | f, .file cs :: is =>
    let r := sim env file dir f is
    if (pathOf dir cs).length < MAXPATH ∧ 0 < f ∧ seen (cs.getLastD []) (env.junk (pathOf dir cs)) = file then
      (pathOf dir cs :: r.1, r.2)
    else r

section Sim

variable {env : Env} {file dir : Str}

theorem sim_append (f : Nat) (is js : List Item) :
    sim env file dir f (is ++ js) = ((sim env file dir f is).1 ++ (sim env file dir (sim env file dir f is).2 js).1,
      (sim env file dir (sim env file dir f is).2 js).2) := by
  induction is generalizing f with
  | nil => rfl
  | cons i is ih =>
    cases i with
    | enter cs => exact ih _
    | file cs =>
      rw [cons_append, sim, sim, ih]
      split <;> rfl

def Item.names : Item → List Str
  | .enter cs | .file cs => cs

/-- Without a free descriptor, or where paths are too long, nothing is found. -/
theorem sim_stuck {f : Nat} {is : List Item} (h : ∀ i ∈ is, ¬ ((pathOf dir i.names).length < MAXPATH ∧ 0 < f)) :
    sim env file dir f is = ([], f) := by
  induction is with
  | nil => rfl
  | cons i is ih =>
    have hi := h i mem_cons_self
    have ih := ih fun j hj => h j (mem_cons_of_mem _ hj)
    cases i with
    | enter cs =>
      rw [sim]
      split
      · next hlen =>
          obtain rfl : f = 0 := Nat.eq_zero_of_not_pos fun hf => hi ⟨hlen, hf⟩
          exact ih
      · exact ih
    | file cs =>
      rw [sim, if_neg (fun hc => hi ⟨hc.1, hc.2.1⟩)]
      exact ih

end Sim

theorem pathOf_length_le (dir : Str) (cs ds : List Str) : (pathOf dir cs).length ≤ (pathOf dir (cs ++ ds)).length := by
  induction ds using reverseRecOn with
  | nil => rw [append_nil]
  | append_singleton ds s ih =>
    rw [← append_assoc, pathOf_snoc, length_append]
    omega

mutual

theorem Node.visit_names {cs : List Str} : (n : Node) → ∀ i ∈ n.visit cs, cs <+: i.names
  | .file, i, hi => by
    obtain rfl : i = .file cs := by simpa [Node.visit] using hi
    exact prefix_rfl
  | .device _, _, hi => by cases hi
  | .dir slots, i, hi => by
    rcases mem_cons.mp hi with rfl | hi
    · exact prefix_rfl
    · exact slots.visit_names i hi

theorem Slots.visit_names {cs : List Str} : (slots : Slots) → ∀ i ∈ slots.visit cs, cs <+: i.names
  | .nil, _, hi => by cases hi
  | .free rest, i, hi => rest.visit_names i hi
  | .cons name node rest, i, hi => by
    rcases mem_append.mp hi with hi | hi
    · exact (prefix_append _ _).trans (node.visit_names i hi)
    · exact rest.visit_names i hi

end

/-! ### What the program does -/

/-- The state `st'` comes from `st` by what `find` does of a list of items.  Open descriptors
stay as they are, but for those in `own`. -/
structure Does (env : Env) (file dir : Str) (own : Set Fd) (is : List Item) (st st' : State) : Prop where
  out : st'.stdout = st.stdout ++ (sim env file dir st.nfree is).1.map (· ++ text "\n")
  nfree : st'.nfree = (sim env file dir st.nfree is).2
  keep : ∀ fd f, st.ofile fd = some f → fd ∉ own → st'.ofile fd = some f

section Does

variable {env : Env} {file dir : Str} {own : Set Fd} {is js : List Item} {st st' st'' : State}

/-- Nothing is found, and nothing is taken. -/
theorem Does.nothing (hsim : sim env file dir st.nfree is = ([], st.nfree)) (hout : st'.stdout = st.stdout)
    (hfile : st'.ofile = st.ofile) : Does env file dir own is st st' := by
  refine ⟨?_, ?_, fun fd f hfd _ => hfile ▸ hfd⟩
  · rw [hsim, hout]
    simp
  · rw [hsim, State.nfree_congr hfile]

theorem Does.trans (h : Does env file dir own is st st') (h' : Does env file dir own js st' st'') :
    Does env file dir own (is ++ js) st st'' := by
  refine ⟨?_, ?_, fun fd f hfd hown => h'.keep fd f (h.keep fd f hfd hown) hown⟩
  · rw [sim_append, h'.out, h.out, h.nfree, append_assoc, map_append]
  · rw [sim_append, h'.nfree, h.nfree]

theorem Does.mono (h : Does env file dir ∅ is st st') : Does env file dir own is st st' :=
  ⟨h.out, h.nfree, fun fd f hfd _ => h.keep fd f hfd (Set.notMem_empty _)⟩

end Does

/-- `find` on a path, with enough fuel, does what the list says. -/
def Finds (env : Env) (file dir : Str) (cs : List Str) (is : List Item) (st : State) : Prop :=
  ∃ st' n, (∀ fuel, n ≤ fuel → find env file fuel st (pathOf dir cs) = some st') ∧
    Does env file dir ∅ is st st'

/-- So does its loop, on what is left of the directory. -/
def Loops (env : Env) (file dir : Str) (cs : List Str) (fd : Fd) (is : List Item) (st : State) : Prop :=
  ∃ st' n, (∀ fuel, n ≤ fuel → findLoop env file fuel st fd (pathOf dir cs) = some st') ∧
    Does env file dir {fd} is st st'

/-- So does an entry. -/
def Enters (env : Env) (file dir : Str) (cs : List Str) (name : Name) (is : List Item) (st : State) : Prop :=
  ∃ st' n, (∀ fuel, n ≤ fuel →
      findEntry env file fuel st (pathOf dir (cs ++ [name.str])) (strncpy name.str DIRSIZ) = some st') ∧
    Does env file dir ∅ is st st'

/-- The path of a directory, by which `find` was called. -/
structure Names (env : Env) (path : Str) (pos : List Str) (full : Slots) : Prop where
  zero : 0 ∉ path
  start : path = [] → env.cwd = []
  path : env.namei path = some pos
  node : env.root.follow pos = some (.dir full)

/-- The loop reads a directory `full` through descriptor `fd`, with the entries `rest` still to come. -/
structure Reading (full : Slots) (rest : List (Option Str)) (fd : Fd) (st : State) : Prop where
  off : ∃ off, st.ofile fd = some (.inode (.dir full) off) ∧ full.content.drop off = rest
  console : st.ofile 1 = some .console

section Loop

variable {env : Env} {file dir : Str} {cs pos : List Str} {full : Slots} {fd : Fd} {st : State} {is : List Item}
  {rest : List (Option Str)} {node : Node}

theorem Names.child (h : Names env (pathOf dir cs) pos full) (name : Name) (hl : full.lookup name.str = some node) :
    env.namei (pathOf dir (cs ++ [name.str])) = some (pos ++ [name.str]) ∧
      env.root.follow (pos ++ [name.str]) = some node := by
  refine ⟨?_, ?_⟩
  · rw [pathOf_snoc]
    exact Env.namei_snoc name h.zero h.start h.path h.node (by rw [hl]; rfl)
  · rw [Node.follow_snoc h.node, hl]

theorem Names.sub (h : Names env (pathOf dir cs) pos full) (name : Name) {sub : Slots}
    (hl : full.lookup name.str = some (.dir sub)) :
    Names env (pathOf dir (cs ++ [name.str])) (pos ++ [name.str]) sub := by
  obtain ⟨hpath, hnode⟩ := h.child name hl
  refine ⟨?_, ?_, hpath, hnode⟩
  · rw [pathOf_snoc]
    simp only [mem_append, mem_cons, not_or]
    exact ⟨h.zero, by decide, name.elem.zero⟩
  · simp

/-- Other descriptors may be taken meanwhile. -/
theorem Reading.keep {own : Set Fd} {st' : State} (h : Reading full rest fd st)
    (hfd : fd ∉ own) (hone : (1 : Fd) ∉ own) (hdo : Does env file dir own is st st') : Reading full rest fd st' := by
  obtain ⟨off, hoff, hrest⟩ := h.off
  exact ⟨⟨off, hdo.keep fd _ hoff hfd, hrest⟩, hdo.keep 1 _ h.console hone⟩

variable (env file dir) {name : Name} in
/-- `read` returns the next entry. -/
theorem Reading.read {de : Option Str} (h : Reading full (de :: rest) fd st) :
    ∃ st', st.read fd = some (de, st') ∧ Reading full rest fd st' ∧ Does env file dir {fd} [] st st' := by
  obtain ⟨off, hoff, hdrop⟩ := h.off
  have hone : (1 : Fd) ≠ fd := by
    rintro rfl
    rw [h.console] at hoff
    cases hoff
  have hget : full.content[off]? = some de := by
    rw [← add_zero off, ← getElem?_drop, hdrop]
    rfl
  have htail : full.content.drop (off + 1) = rest := by
    rw [← drop_drop, hdrop]
    rfl
  refine ⟨{ st with ofile := update st.ofile fd (some (.inode (.dir full) (off + 1))) }, ?_, ⟨⟨off + 1, ?_, htail⟩, ?_⟩,
    ?_, ?_, ?_⟩
  · rw [State.read, hoff]
    dsimp only
    rw [hget]
    rfl
  · exact update_self ..
  · exact (update_of_ne hone _ _).trans h.console
  · simp [sim, State.stdout]
  · exact State.nfree_advance hoff _
  · intro g f hg hne
    exact (update_of_ne hne _ _).trans hg

theorem loops_end (h : Reading full [] fd st) : Loops env file dir cs fd [] st := by
  obtain ⟨off, hoff, hdrop⟩ := h.off
  have hget : full.content[off]? = none := by
    rw [← add_zero off, ← getElem?_drop, hdrop]
    rfl
  refine ⟨st, 1, fun fuel hfuel => ?_, Does.nothing rfl rfl rfl⟩
  obtain ⟨fuel, rfl⟩ := fuel_succ hfuel
  have hread : st.read fd = none := by
    rw [State.read, hoff]
    dsimp only
    rw [hget]
    rfl
  rw [findLoop, hread]

/-- An entry that is not in use is skipped. -/
theorem loops_free (h : Reading full (none :: rest) fd st)
    (hrest : ∀ st', Reading full rest fd st' → Loops env file dir cs fd is st') : Loops env file dir cs fd is st := by
  obtain ⟨st₁, hread, hr₁, hdo₁⟩ := h.read env file dir
  obtain ⟨st', n, hrun, hdo⟩ := hrest st₁ hr₁
  refine ⟨st', n + 1, fun fuel hfuel => ?_, hdo₁.trans hdo⟩
  obtain ⟨fuel, rfl⟩ := fuel_succ hfuel
  rw [findLoop, hread]
  exact hrun fuel (by omega)

/-- So are "." and "..". -/
theorem loops_dots (hs : s = dot ∨ s = dotdot) (h : Reading full (some (strncpy s DIRSIZ) :: rest) fd st)
    (hrest : ∀ st', Reading full rest fd st' → Loops env file dir cs fd is st') : Loops env file dir cs fd is st := by
  obtain ⟨st₁, hread, hr₁, hdo₁⟩ := h.read env file dir
  obtain ⟨st', n, hrun, hdo⟩ := hrest st₁ hr₁
  refine ⟨st', n + 1, fun fuel hfuel => ?_, hdo₁.trans hdo⟩
  obtain ⟨fuel, rfl⟩ := fuel_succ hfuel
  have hskip : ∀ junk, strcmp (strncpy s DIRSIZ ++ junk) dot = 0 ∨ strcmp (strncpy s DIRSIZ ++ junk) dotdot = 0 := by
    intro junk
    rw [strcmp_eq_zero (by decide), strcmp_eq_zero (by decide),
      takeWhile_field (by rcases hs with rfl | rfl <;> decide) (by rcases hs with rfl | rfl <;> decide),
      seen_eq_short (by decide), seen_eq_short (by decide)]
    exact hs
  rw [findLoop, hread]
  dsimp only
  rw [if_pos (hskip _)]
  exact hrun fuel (by omega)

/-- Any other entry. -/
theorem loops_entry {js : List Item} (h : Reading full (some (strncpy name.str DIRSIZ) :: rest) fd st)
    (hentry : ∀ st', Reading full rest fd st' → Enters env file dir cs name is st')
    (hrest : ∀ st', Reading full rest fd st' → Loops env file dir cs fd js st') :
    Loops env file dir cs fd (is ++ js) st := by
  obtain ⟨st₁, hread, hr₁, hdo₁⟩ := h.read env file dir
  obtain ⟨st₂, n₁, hrun₁, hdo₂⟩ := hentry st₁ hr₁
  obtain ⟨st', n₂, hrun₂, hdo⟩ := hrest st₂ (hr₁.keep (Set.notMem_empty _) (Set.notMem_empty _) hdo₂)
  refine ⟨st', n₁ + n₂ + 1, fun fuel hfuel => ?_, hdo₁.trans (hdo₂.mono.trans hdo)⟩
  obtain ⟨fuel, rfl⟩ := fuel_succ hfuel
  rw [findLoop, hread]
  dsimp only
  rw [name.cut_field, ← pathOf_snoc, if_neg (name.not_dots _), hrun₁ fuel (by omega)]
  exact hrun₂ fuel (by omega)

theorem enters_of_stat (st' : State) (n : Nat) (hrun : ∀ fuel, n ≤ fuel →
      findEntry env file (fuel + 1) st (pathOf dir (cs ++ [name.str])) (strncpy name.str DIRSIZ) = some st')
    (hdo : Does env file dir ∅ is st st') : Enters env file dir cs name is st := by
  refine ⟨st', n + 1, fun fuel hfuel => ?_, hdo⟩
  obtain ⟨fuel, rfl⟩ := fuel_succ hfuel
  exact hrun fuel (by omega)

theorem enters_of_stat_fails (hopen : env.open st (pathOf dir (cs ++ [name.str])) = none)
    (hsim : sim env file dir st.nfree is = ([], st.nfree)) : Enters env file dir cs name is st := by
  refine enters_of_stat (st.fprintf 2 (text "find:cannot stat " ++ pathOf dir (cs ++ [name.str]))) 0
    (fun fuel _ => ?_) (Does.nothing hsim (st.fprintf_stdout_of_ne (by decide) _) (st.fprintf_ofile _ _))
  rw [findEntry, stat_fails hopen]

/-- **An entry.** -/
theorem enters (hfile : 0 ∉ file) (hconsole : st.ofile 1 = some .console)
    (hnames : Names env (pathOf dir cs) pos full) (hl : full.lookup name.str = some node)
    (hfind : ∀ sub, node = .dir sub → Finds env file dir (cs ++ [name.str]) (node.visit (cs ++ [name.str])) st) :
    Enters env file dir cs name (node.visit (cs ++ [name.str])) st := by
  obtain ⟨hpath, hnode⟩ := hnames.child name hl
  by_cases hok : (pathOf dir (cs ++ [name.str])).length < MAXPATH ∧ 0 < st.nfree
  · obtain ⟨hlen, hfree⟩ := hok
    cases node with
    | file =>
      have hstat := stat_ok hpath hnode nofun hlen hfree
      by_cases hcmp : seen name.str (env.junk (pathOf dir (cs ++ [name.str]))) = file
      · have hsim : sim env file dir st.nfree (Node.file.visit (cs ++ [name.str]))
            = ([pathOf dir (cs ++ [name.str])], st.nfree) := by
          rw [Node.visit, sim, if_pos ⟨hlen, hfree, by simpa using hcmp⟩]
          rfl
        refine enters_of_stat (st.fprintf 1 (pathOf dir (cs ++ [name.str]) ++ text "\n")) 0 (fun fuel _ => ?_)
          ⟨?_, ?_, fun fd f hfd _ => ?_⟩
        · rw [findEntry, hstat]
          dsimp only
          rw [if_neg (by decide), if_pos ⟨rfl, (name.strcmp_field _ hfile).mpr hcmp⟩]
        · rw [State.fprintf_stdout hconsole, hsim]
          rfl
        · rw [hsim, State.nfree_congr (State.fprintf_ofile _ _ _)]
        · rw [State.fprintf_ofile, hfd]
      · refine enters_of_stat st 0 (fun fuel _ => ?_) (Does.nothing ?_ rfl rfl)
        · rw [findEntry, hstat]
          dsimp only
          rw [if_neg (by decide), if_neg (fun hc => hcmp ((name.strcmp_field _ hfile).mp hc.2))]
        · rw [Node.visit, sim, if_neg (fun hc => hcmp (by simpa using hc.2.2))]
          rfl
    | device valid =>
      cases valid with
      | false => exact enters_of_stat_fails (open_device hpath hnode) rfl
      | true =>
        refine enters_of_stat st 0 (fun fuel _ => ?_) (Does.nothing rfl rfl rfl)
        rw [findEntry, stat_ok hpath hnode nofun hlen hfree]
        dsimp only
        rw [if_neg (by decide), if_neg (fun hc => absurd hc.1 (by decide))]
    | dir sub =>
      obtain ⟨st', n, hrun, hdo⟩ := hfind sub rfl
      refine enters_of_stat st' n (fun fuel hfuel => ?_) hdo
      rw [findEntry, stat_ok hpath hnode nofun hlen hfree]
      dsimp only
      exact hrun fuel hfuel
  · refine enters_of_stat_fails (open_fails hok) (sim_stuck fun i hi hc => hok ?_)
    obtain ⟨ds, hds⟩ := node.visit_names i hi
    rw [← hds] at hc
    exact ⟨(pathOf_length_le dir _ ds).trans_lt hc.1, hc.2⟩

/-- **A directory**, if its loop does as it should. -/
theorem finds_dir (hconsole : st.ofile 1 = some .console) (hnames : Names env (pathOf dir cs) pos full)
    (hloop : ∀ st' fd, Reading full full.fields fd st' → Loops env file dir cs fd (full.visit cs) st') :
    Finds env file dir cs ((Node.dir full).visit cs) st := by
  by_cases hok : (pathOf dir cs).length < MAXPATH ∧ 0 < st.nfree
  · obtain ⟨hlen, hfree⟩ := hok
    obtain ⟨fd, hfd, hopen⟩ := open_ok hnames.path hnames.node nofun hlen hfree
    have hone : (1 : Fd) ≠ fd := by
      rintro rfl
      rw [hconsole] at hfd
      cases hfd
    have hr : Reading full full.content fd { st with ofile := update st.ofile fd (some (.inode (.dir full) 0)) } :=
      ⟨⟨0, update_self .., rfl⟩, (update_of_ne hone _ _).trans hconsole⟩
    obtain ⟨st', n, hrun, hdo⟩ := loops_dots (.inl rfl) hr fun st₁ hr₁ =>
      loops_dots (.inr rfl) hr₁ fun st₂ hr₂ => hloop st₂ fd hr₂
    have hsim : sim env file dir st.nfree ((Node.dir full).visit cs)
        = sim env file dir (st.nfree - 1) (full.visit cs) := by
      rw [Node.visit, sim, if_pos hlen]
    have hn := State.nfree_update (f := .inode (.dir full) 0) hfd st.out
    refine ⟨st', n + 1, fun fuel hfuel => ?_, ?_, ?_, fun g f hg _ => ?_⟩
    · obtain ⟨fuel, rfl⟩ := fuel_succ hfuel
      have hstat : State.fstat { st with ofile := update st.ofile fd (some (.inode (.dir full) 0)) } fd = some T_DIR := by
        simp [State.fstat, Node.type]
      rw [find, hopen]
      dsimp only
      rw [hstat]
      dsimp only
      rw [if_neg (by simp), if_neg (by simp only [MAXPATH, DIRSIZ] at hlen ⊢; omega)]
      exact hrun fuel (by omega)
    · rw [hdo.out, hsim, hn]
      rfl
    · rw [hdo.nfree, hsim, hn]
    · -- the descriptor was free before
      have hne : g ≠ fd := by
        rintro rfl
        rw [hfd] at hg
        cases hg
      exact hdo.keep g f ((update_of_ne hne _ _).trans hg) hne
  · refine ⟨st.fprintf 2 (text "find:cannot open " ++ pathOf dir cs ++ text "\n"), 1, fun fuel hfuel => ?_,
      Does.nothing (sim_stuck fun i hi hc => hok ?_) (st.fprintf_stdout_of_ne (by decide) _) (st.fprintf_ofile _ _)⟩
    · obtain ⟨fuel, rfl⟩ := fuel_succ hfuel
      rw [find, open_fails hok]
    · obtain ⟨ds, hds⟩ := (Node.dir full).visit_names i hi
      rw [← hds] at hc
      exact ⟨(pathOf_length_le dir _ ds).trans_lt hc.1, hc.2⟩

end Loop

/-- **The loop**, on the entries that are left.  The induction is over the tree: a directory among them
is searched before the next entry. -/
theorem loops {env : Env} {file dir : Str} (hfile : 0 ∉ file) {full : Slots} :
    (slots : Slots) → slots.Distinct → ∀ {cs pos : List Str}, Names env (pathOf dir cs) pos full →
      (∀ s n, slots.lookup s = some n → full.lookup s = some n) →
      ∀ {fd : Fd} {st : State}, Reading full slots.fields fd st → Loops env file dir cs fd (slots.visit cs) st
  | .nil, _, _, _, _, _, _, _, hr => loops_end hr
  | .free rest, hd, _, _, hnames, hl, _, _, hr => loops_free hr fun _ hr' => loops hfile rest hd hnames hl hr'
  | .cons name node rest, hd, cs, pos, hnames, hl, fd, st, hr => by
    have hname := hl name.str node (if_pos rfl)
    refine loops_entry hr (fun st' hr' => enters hfile hr'.console hnames hname ?_) fun st' hr' => ?_
    · match node with
      | .file | .device _ => exact nofun
      | .dir sub =>
        rintro sub' ⟨⟩
        exact finds_dir hr'.console (hnames.sub name hname) fun st₁ fd₁ hr₁ =>
          loops hfile sub hd.1 (hnames.sub name hname) (fun _ _ h => h) hr₁
    · refine loops hfile rest hd.2.2 hnames (fun s n hs => hl s n ?_) hr'
      rw [Slots.lookup, if_neg, hs]
      rintro rfl
      rw [hd.2.1] at hs
      cases hs

/-- **`find` on a directory.** -/
theorem finds {env : Env} {file : Str} {st : State} (hfile : 0 ∉ file)
    (hnames : Names env dir pos slots) (hd : slots.Distinct) (hconsole : st.ofile 1 = some .console) :
    Finds env file dir [] ((Node.dir slots).visit []) st :=
  finds_dir hconsole hnames fun _ _ hr => loops hfile slots hd hnames (fun _ _ h => h) hr

/-! ### What is found -/

/-- Everything below an entry is listed with its name. -/
theorem Slots.visit_lookup {cs : List Str} : (slots : Slots) → ∀ i ∈ slots.visit cs,
    ∃ s, (slots.lookup s).isSome ∧ cs ++ [s] <+: i.names
  | .nil, _, hi => by cases hi
  | .free rest, i, hi => rest.visit_lookup i hi
  | .cons name node rest, i, hi => by
    rcases mem_append.mp hi with hi | hi
    · exact ⟨name.str, by rw [lookup, if_pos rfl]; rfl, node.visit_names i hi⟩
    obtain ⟨s, hs, hpre⟩ := rest.visit_lookup i hi
    refine ⟨s, ?_, hpre⟩
    rw [lookup]
    split
    · rfl
    · exact hs

mutual

/-- Nothing is listed twice. -/
theorem Node.visit_nodup {cs : List Str} : (n : Node) → n.Distinct → (n.visit cs).Nodup
  | .file, _ => nodup_singleton _
  | .device _, _ => nodup_nil
  | .dir slots, hd => by
    rw [Node.visit, nodup_cons]
    refine ⟨fun hmem => ?_, slots.visit_nodup hd⟩
    obtain ⟨s, -, hpre⟩ := slots.visit_lookup _ hmem
    have := hpre.length_le
    simp [Item.names] at this

theorem Slots.visit_nodup {cs : List Str} : (slots : Slots) → slots.Distinct → (slots.visit cs).Nodup
  | .nil, _ => nodup_nil
  | .free rest, hd => rest.visit_nodup hd
  | .cons name node rest, hd => by
    refine nodup_append.mpr ⟨node.visit_nodup hd.1, rest.visit_nodup hd.2.2, ?_⟩
    rintro i hi _ hi' rfl
    obtain ⟨s, hs, hpre⟩ := rest.visit_lookup i hi'
    have heq := (prefix_of_prefix_length_le hpre (node.visit_names i hi) (by simp)).eq_of_length (by simp)
    obtain rfl : s = name.str := by simpa using heq
    rw [hd.2.1] at hs
    cases hs

end

mutual

/-- The files that are listed are those of the tree. -/
theorem Node.file_mem_visit {cs ds : List Str} : (n : Node) → n.Distinct →
    (Item.file (cs ++ ds) ∈ n.visit cs ↔ n.follow ds = some .file)
  | .file, _ => by
    cases ds with
    | nil | cons => simp [Node.visit, Node.follow]
  | .device _, _ => by
    cases ds with
    | nil | cons => simp [Node.visit, Node.follow]
  | .dir slots, hd => by
    cases ds with
    | nil =>
      simp only [Node.visit, Node.follow, append_nil, mem_cons, reduceCtorEq, false_or]
      refine ⟨fun hmem => ?_, nofun⟩
      obtain ⟨s, -, hpre⟩ := slots.visit_lookup _ hmem
      have := hpre.length_le
      simp [Item.names] at this
    | cons d ds =>
      rw [Node.visit, mem_cons, Node.follow]
      simpa using slots.file_mem_visit hd

theorem Slots.file_mem_visit {cs : List Str} {d : Str} {ds : List Str} : (slots : Slots) → slots.Distinct →
    (Item.file (cs ++ d :: ds) ∈ slots.visit cs ↔ ((slots.lookup d).bind fun n => n.follow ds) = some .file)
  | .nil, _ => by simp [Slots.visit, Slots.lookup]
  | .free rest, hd => rest.file_mem_visit hd
  | .cons name node rest, hd => by
    rw [Slots.visit, mem_append, rest.file_mem_visit hd.2.2, Slots.lookup]
    split
    · next heq =>
        subst heq
        have hnode : Item.file (cs ++ [name.str] ++ ds) ∈ node.visit (cs ++ [name.str]) ↔ node.follow ds = some .file :=
          node.file_mem_visit hd.1
        simpa [hd.2.1] using hnode
    · next hne =>
        refine or_iff_right fun hmem => ?_
        have hpre : cs ++ [name.str] <+: cs ++ d :: ds := node.visit_names _ hmem
        obtain ⟨es, hes⟩ := hpre
        simp at hes
        exact hne hes.1

end

theorem Slots.lookup_elem {s : Str} : (slots : Slots) → (slots.lookup s).isSome → IsElem s
  | .free rest, h => rest.lookup_elem h
  | .cons name node rest, h => by
    rw [lookup] at h
    split at h
    · next heq => exact heq ▸ name.elem
    · exact rest.lookup_elem h

/-- Names in a tree have no slash. -/
theorem Node.follow_elem {m : Node} (h : n.follow cs = some m) : ∀ s ∈ cs, IsElem s := by
  induction cs generalizing n with
  | nil => exact nofun
  | cons c cs ih =>
    cases n with
    | dir slots =>
      rw [follow] at h
      cases hl : slots.lookup c with
      | none => rw [hl] at h; cases h
      | some n' =>
        rw [hl] at h
        rintro s (_ | ⟨_, hs⟩)
        · exact slots.lookup_elem (by rw [hl]; rfl)
        · exact ih h s hs
    | _ => cases h

theorem append_slash_inj {xs ys : Str} (hs : slash ∉ s) (ht : slash ∉ t) (h : xs ++ slash :: s = ys ++ slash :: t) :
    xs = ys ∧ s = t := by
  have hlast : ∀ {u : Str} (v : Str), slash ∉ u → ((v ++ slash :: u).reverse.takeWhile (· ≠ slash)).reverse = u := by
    intro u v hu
    rw [reverse_append, reverse_cons, append_assoc, takeWhile_append_of_pos]
    · simp
    · intro c hc
      simpa using fun hcs : c = slash => hu (hcs ▸ mem_reverse.mp hc)
  have hst : s = t := by rw [← hlast xs hs, h, hlast ys ht]
  subst hst
  exact ⟨append_cancel_right h, rfl⟩

/-- Different names give different paths. -/
theorem pathOf_inj {ds : List Str} (hcs : ∀ s ∈ cs, IsElem s) (hds : ∀ s ∈ ds, IsElem s)
    (h : pathOf dir cs = pathOf dir ds) : cs = ds := by
  have hlong : ∀ (es : List Str) (s : Str), pathOf dir [] ≠ pathOf dir (es ++ [s]) := by
    intro es s heq
    have hle := pathOf_length_le dir [] es
    rw [heq] at hle
    simp at hle
  induction cs using reverseRecOn generalizing ds with
  | nil =>
    rcases eq_nil_or_concat' ds with rfl | ⟨ds, d, rfl⟩
    · rfl
    · exact absurd h (hlong ds d)
  | append_singleton cs c ih =>
    rcases eq_nil_or_concat' ds with rfl | ⟨ds, d, rfl⟩
    · exact absurd h.symm (hlong cs c)
    · rw [pathOf_snoc, pathOf_snoc] at h
      obtain ⟨hinit, rfl⟩ := append_slash_inj (hcs c (by simp)).slash (hds d (by simp)).slash h
      rw [ih (fun s hs => hcs s (mem_append_left _ hs)) (fun s hs => hds s (mem_append_left _ hs)) hinit]

/-- A directory that `open` accepts. -/
def Item.opens (dir : Str) : Item → Bool
  | .enter cs => (pathOf dir cs).length < MAXPATH
  | .file _ => false

section Found

variable {env : Env} {file dir : Str} {f : Nat} {is : List Item}

theorem opens_enter_lt :
    ((Item.enter cs :: is).filter (Item.opens dir)).length < f ↔
      (is.filter (Item.opens dir)).length < if (pathOf dir cs).length < MAXPATH then f - 1 else f := by
  by_cases hlen : (pathOf dir cs).length < MAXPATH
  · rw [if_pos hlen, filter_cons_of_pos (by simpa [Item.opens] using hlen), length_cons]
    omega
  · rw [if_neg hlen, filter_cons_of_neg (by simpa [Item.opens] using hlen)]

/-- **What is printed of a list of items.** -/
theorem mem_sim {path : Str} : path ∈ (sim env file dir f is).1 ↔
    ∃ before cs after, is = before ++ Item.file cs :: after ∧ path = pathOf dir cs ∧
      (pathOf dir cs).length < MAXPATH ∧ (before.filter (Item.opens dir)).length < f ∧
      seen (cs.getLastD []) (env.junk (pathOf dir cs)) = file := by
  induction is generalizing f with
  | nil => simp [sim]
  | cons i is ih =>
    cases i with
    | enter ds =>
      rw [sim, ih]
      constructor
      · rintro ⟨before, cs, after, rfl, rfl, hlen, hcount, hseen⟩
        exact ⟨.enter ds :: before, cs, after, rfl, rfl, hlen, opens_enter_lt.mpr hcount, hseen⟩
      rintro ⟨before, cs, after, heq, rfl, hlen, hcount, hseen⟩
      cases before with
      | nil => cases heq
      | cons j before =>
        obtain ⟨rfl, rfl⟩ := cons.inj heq
        exact ⟨before, cs, after, rfl, rfl, hlen, opens_enter_lt.mp hcount, hseen⟩
    | file ds =>
      have hmem : path ∈ (sim env file dir f (.file ds :: is)).1 ↔
          ((pathOf dir ds).length < MAXPATH ∧ 0 < f ∧ seen (ds.getLastD []) (env.junk (pathOf dir ds)) = file) ∧
            path = pathOf dir ds ∨ path ∈ (sim env file dir f is).1 := by
        rw [sim]
        split
        · next hc => rw [mem_cons, and_iff_right hc]
        · next hc => exact (or_iff_right fun h => hc h.1).symm
      rw [hmem, ih]
      constructor
      · rintro (⟨⟨hlen, hf, hseen⟩, rfl⟩ | ⟨before, cs, after, rfl, rfl, hlen, hcount, hseen⟩)
        · exact ⟨[], ds, is, rfl, rfl, hlen, hf, hseen⟩
        · exact ⟨.file ds :: before, cs, after, rfl, rfl, hlen, hcount, hseen⟩
      · rintro ⟨before, cs, after, heq, rfl, hlen, hcount, hseen⟩
        cases before with
        | nil =>
          obtain ⟨⟨⟩, rfl⟩ := cons.inj heq
          exact .inl ⟨⟨hlen, hcount, hseen⟩, rfl⟩
        | cons j before =>
          obtain ⟨rfl, rfl⟩ := cons.inj heq
          exact .inr ⟨before, cs, after, rfl, rfl, hlen, hcount, hseen⟩

/-- Each file is printed at most once. -/
theorem sim_sublist (f : Nat) (is : List Item) : (sim env file dir f is).1.Sublist
    ((is.filter fun | .file _ => true | .enter _ => false).map fun i => pathOf dir i.names) := by
  induction is generalizing f with
  | nil => exact List.Sublist.slnil
  | cons i is ih =>
    cases i with
    | enter ds => exact ih _
    | file ds =>
      rw [sim]
      split
      · exact (ih f).cons_cons _
      · exact (ih f).cons _

/-- The number of directories that `find` has opened when it comes to a file, if there are descriptors for them. -/
def opened (dir : Str) (tree : Node) (cs : List Str) : Nat :=
  (((tree.visit []).takeWhile (· ≠ .file cs)).filter (Item.opens dir)).length

/-- `find` prints the path of a file: `open` accepts it, a descriptor is left, and the name compares equal. -/
def Found (env : Env) (file dir : Str) (tree : Node) (free : Nat) (cs : List Str) : Prop :=
  (pathOf dir cs).length < MAXPATH ∧ opened dir tree cs < free ∧
    seen (cs.getLastD []) (env.junk (pathOf dir cs)) = file

/-- What `find` is for: each path at which a regular file of this name lies is printed once, and nothing else. -/
def Complete (dir : Str) (tree : Node) (file : Str) (out : List Str) : Prop :=
  out.Nodup ∧ ∀ line, line ∈ out ↔
    ∃ cs, tree.follow (cs ++ [file]) = some .file ∧ line = pathOf dir (cs ++ [file]) ++ text "\n"

section Tree

variable {tree : Node} {free : Nat}

/-- Where a file stands in the list. -/
theorem opened_eq (hd : tree.Distinct) {before after : List Item}
    (heq : tree.visit [] = before ++ Item.file cs :: after) :
    opened dir tree cs = (before.filter (Item.opens dir)).length := by
  have hnodup : (tree.visit []).Nodup := tree.visit_nodup hd
  rw [heq] at hnodup
  have hnot : ∀ i ∈ before, decide (i ≠ Item.file cs) = true := by
    intro i hi
    exact decide_eq_true ((nodup_append.mp hnodup).2.2 i hi _ mem_cons_self)
  rw [opened, heq, takeWhile_append_of_pos hnot, takeWhile_cons_of_neg (by simp), append_nil]

theorem mem_sim_visit (hd : tree.Distinct) {path : Str} : path ∈ (sim env file dir free (tree.visit [])).1 ↔
    ∃ cs, tree.follow cs = some .file ∧ path = pathOf dir cs ∧ Found env file dir tree free cs := by
  rw [mem_sim]
  constructor
  · rintro ⟨before, cs, after, heq, rfl, hlen, hcount, hseen⟩
    have hmem : Item.file ([] ++ cs) ∈ tree.visit [] := heq ▸ mem_append_right _ mem_cons_self
    exact ⟨cs, (tree.file_mem_visit hd).mp hmem, rfl, hlen, opened_eq hd heq ▸ hcount, hseen⟩
  · rintro ⟨cs, hfollow, rfl, hlen, hcount, hseen⟩
    have hmem : Item.file ([] ++ cs) ∈ tree.visit [] := (tree.file_mem_visit hd).mpr hfollow
    obtain ⟨before, after, heq⟩ := append_of_mem hmem
    exact ⟨before, cs, after, heq, rfl, hlen, opened_eq hd heq ▸ hcount, hseen⟩

theorem sim_visit_nodup (hd : tree.Distinct) : (sim env file dir free (tree.visit [])).1.Nodup := by
  refine (sim_sublist free _).nodup (List.Nodup.map_on ?_ ((tree.visit_nodup hd).filter _))
  have hfollow : ∀ {i : Item}, i ∈ (tree.visit []).filter (fun | .file _ => true | .enter _ => false) →
      i = .file i.names ∧ tree.follow i.names = some .file := by
    intro i hi
    obtain ⟨hmem, hfile⟩ := mem_filter.mp hi
    cases i with
    | enter cs => cases hfile
    | file cs =>
      have hmem' : Item.file ([] ++ cs) ∈ tree.visit [] := hmem
      exact ⟨rfl, (tree.file_mem_visit hd).mp hmem'⟩
  intro i hi j hj heq
  obtain ⟨hi, hif⟩ := hfollow hi
  obtain ⟨hj, hjf⟩ := hfollow hj
  rw [hi, hj, pathOf_inj (Node.follow_elem hif) (Node.follow_elem hjf) heq]

end Tree

instance (s : Str) : Decidable (IsElem s) :=
  decidable_of_iff (s ≠ [] ∧ s.length ≤ DIRSIZ ∧ 0 ∉ s ∧ slash ∉ s)
    ⟨fun h => ⟨h.1, h.2.1, h.2.2.1, h.2.2.2⟩, fun h => ⟨h.ne_nil, h.length_le, h.zero, h.slash⟩⟩

/-- A name of one letter. -/
def letter (i : Fin 26) : Name where
  str := [UInt8.ofNat (97 + i)]
  elem := by
    revert i
    decide
  ne_dot := by
    revert i
    decide
  ne_dotdot := by simp [dotdot]

/-- A process as the shell starts it. -/
def started : State where
  ofile := fun fd => if fd.val < 3 then some .console else none
  out := []

/-- Some empty directories, and then a file. -/
def dirsThenFile (n : Nat) : Slots :=
  ((finRange 26).take n).foldr (fun i slots => .cons (letter i) (.dir .nil) slots)
    (.cons (letter 12) .file .nil)

def envOf (slots : Slots) : Env where
  root := .dir slots
  cwd := []
  junk := fun _ => []

end Found

end Xv6.Find

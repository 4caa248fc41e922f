/-
Xv6/Grep.lean

user/grep.c: the matcher of regular expressions, and the loop that prints lines.

A string is the list of its bytes before the NUL.  `items` reads a pattern as a sequence of
items, each with its language (`Item.lang`), and a pattern stands for the product of these.
`match_iff` compares the three functions of the matcher with that.

`grep` reads into a buffer of 1024 bytes.  `read` returns as many bytes as it likes, at
least one if there is one and it was asked for one, and `want` says how many.  What is
printed does not depend on `want` (`grep_eq`).  But a line that fills the buffer makes
`grep` ask for no byte, and the answer looks like the end of the input: that line and
all that come after it are lost.
-/
import Mathlib.Computability.Language
import Xv6.Dirent

namespace Xv6.Grep

open List

def newline : UInt8 := 10

def caret : UInt8 := 94

def dollar : UInt8 := 36

def star : UInt8 := 42

def dot : UInt8 := 46

/-! ### The matcher -/

/-- Search for `c*` and then `here` at the beginning of the text. -/
def matchstar (c : UInt8) (here : Str → Bool) : Str → Bool
  | [] => here []
  | x :: text => here (x :: text) || ((x = c || c = dot) && matchstar c here text)

/-- Search for the pattern at the beginning of the text. -/
def matchhere : Str → Str → Bool
  | [], _ => true
  | [c], text =>
    if c = dollar then text = []
    else
      match text with
      | x :: _ => c = dot || c = x
      | [] => false
  | c :: d :: re, text =>
    if d = star then matchstar c (matchhere re) text
    else
      match text with
      | x :: text => (c = dot || c = x) && matchhere (d :: re) text
      | [] => false

/-- The loop of `match`. -/
def matchAny (re : Str) : Str → Bool
  | [] => matchhere re []
  | x :: text => matchhere re (x :: text) || matchAny re text

/-- `match`. -/
def matchRe (re text : Str) : Bool :=
  match re with
  | c :: re' => if c = caret then matchhere re' text else matchAny re text
  | [] => matchAny re text

/-! ### What a pattern means -/

/-- An item of a pattern. -/
inductive Item where
  /-- A repetition of `c`, or of any character if `c` is a dot. -/
  | star (c : UInt8)
  | any
  | char (c : UInt8)
  /-- The end of the text. -/
  | eot
  deriving DecidableEq

/-- The strings that an item matches. -/
def Item.lang : Item → Language UInt8
  | .star c => {w | ∀ x ∈ w, x = c ∨ c = dot}
  | .any => {w | ∃ x, w = [x]}
  | .char c => {[c]}
  | .eot => 1

/-- The item of a character that is not repeated. -/
def single (c : UInt8) : Item := if c = dot then .any else .char c

/-- The items of a pattern, from left to right. -/
def items : Str → List Item
  | [] => []
  | [c] => [if c = dollar then .eot else single c]
  | c :: d :: re => if d = star then .star c :: items re else single c :: items (d :: re)

/-- The concatenations of strings that the items match. -/
def lang (re : Str) : Language UInt8 := ((items re).map Item.lang).prod

/-- The last item is the end of the text. -/
def ToEnd (re : Str) : Prop := (items re).getLast? = some .eot

/-- The pattern after an optional caret. -/
def body (re : Str) : Str := if re.head? = some caret then re.tail else re

section Matcher

variable {c d : UInt8} {re text : Str} {i : Item}

theorem last_cons {is : List Item} (hi : i ≠ .eot) : (i :: is).getLast? = some .eot ↔ is.getLast? = some .eot := by
  rw [getLast?_cons, Option.some.injEq]
  rcases is.getLast? with - | j
  · simpa using hi
  · simp

theorem single_ne_eot (c : UInt8) : single c ≠ .eot := by
  rw [single]
  split <;> nofun

theorem mem_lang_single {w : Str} : w ∈ (single c).lang ↔ ∃ x, w = [x] ∧ (c = dot ∨ c = x) := by
  rw [single]
  split
  · next hc => exact exists_congr fun x => (and_iff_left (.inl hc)).symm
  next hc =>
  refine ⟨fun hw => ⟨c, hw, .inr rfl⟩, ?_⟩
  rintro ⟨x, rfl, hx⟩
  rw [hx.resolve_left hc]
  rfl

/-- The text begins with a string that the pattern matches. -/
def Begins (re text : Str) : Prop := ∃ w rest, text = w ++ rest ∧ w ∈ lang re ∧ (ToEnd re → rest = [])

theorem matchstar_iff {here : Str → Bool} : matchstar c here text = true ↔
    ∃ u v, text = u ++ v ∧ u ∈ (Item.star c).lang ∧ here v = true := by
  induction text with
  | nil =>
    refine ⟨fun h => ⟨[], [], rfl, nofun, h⟩, ?_⟩
    rintro ⟨u, v, huv, -, hv⟩
    obtain ⟨-, rfl⟩ := append_eq_nil_iff.mp huv.symm
    exact hv
  | cons x text ih =>
    rw [matchstar, Bool.or_eq_true, Bool.and_eq_true, ih]
    constructor
    · rintro (hv | ⟨hx, u, v, rfl, hu, hv⟩)
      · exact ⟨[], _, rfl, nofun, hv⟩
      refine ⟨x :: u, v, rfl, fun y hy => ?_, hv⟩
      rcases mem_cons.mp hy with rfl | hy
      · simpa using hx
      · exact hu y hy
    · rintro ⟨u, v, huv, hu, hv⟩
      rcases u with - | ⟨y, u⟩
      · exact .inl (by rwa [huv])
      · obtain ⟨rfl, rfl⟩ := cons.inj huv
        exact .inr ⟨by simpa using hu x mem_cons_self, u, v, rfl, fun z hz => hu z (mem_cons_of_mem _ hz), hv⟩

variable {re' : Str}

/-- A pattern whose first item is not the end of the text. -/
theorem begins_cons (hi : i ≠ .eot) (h : items re = i :: items re') :
    Begins re text ↔ ∃ u v, text = u ++ v ∧ u ∈ i.lang ∧ Begins re' v := by
  have hlang : lang re = i.lang * lang re' := by rw [lang, h, map_cons, prod_cons, lang]
  have hend : ToEnd re ↔ ToEnd re' := by rw [ToEnd, h, last_cons hi, ToEnd]
  constructor
  · rintro ⟨w, rest, rfl, hw, hrest⟩
    rw [hlang] at hw
    obtain ⟨u, hu, v, hv, rfl⟩ := Language.mem_mul.mp hw
    exact ⟨u, v ++ rest, append_assoc .., hu, v, rest, rfl, hv, fun he => hrest (hend.mpr he)⟩
  · rintro ⟨u, _, rfl, hu, v, rest, rfl, hv, hrest⟩
    refine ⟨u ++ v, rest, (append_assoc ..).symm, ?_, fun he => hrest (hend.mp he)⟩
    rw [hlang]
    exact Language.append_mem_mul hu hv

theorem begins_nil : Begins [] text := ⟨[], text, rfl, rfl, nofun⟩

/-- A character that is not repeated. -/
theorem begins_single (h : items re = single c :: items re') :
    Begins re text ↔ ∃ x v, text = x :: v ∧ (c = dot ∨ c = x) ∧ Begins re' v := by
  rw [begins_cons (single_ne_eot c) h]
  constructor
  · rintro ⟨u, v, rfl, hu, hv⟩
    obtain ⟨x, rfl, hx⟩ := mem_lang_single.mp hu
    exact ⟨x, v, rfl, hx, hv⟩
  · rintro ⟨x, v, rfl, hx, hv⟩
    exact ⟨[x], v, rfl, mem_lang_single.mpr ⟨x, rfl, hx⟩, hv⟩

theorem matchhere_iff : matchhere re text = true ↔ Begins re text := by
  induction re using List.twoStepInduction generalizing text with
  | nil => exact iff_of_true rfl begins_nil
  | singleton c =>
    rw [matchhere.eq_def]
    by_cases hc : c = dollar
    · have hitems : items [c] = [.eot] := by rw [items, if_pos hc]
      simp only [if_pos hc, decide_eq_true_eq]
      constructor
      · rintro rfl
        exact ⟨[], [], rfl, by rw [lang, hitems]; exact ⟨[], rfl, [], rfl, rfl⟩, fun _ => rfl⟩
      rintro ⟨w, rest, rfl, hw, hrest⟩
      rw [lang, hitems] at hw
      obtain ⟨a, rfl, b, rfl, rfl⟩ := hw
      exact hrest (by rw [ToEnd, hitems]; rfl)
    · have hitems : items [c] = single c :: items [] := by simp only [items, if_neg hc]
      simp only [if_neg hc]
      rw [begins_single hitems]
      rcases text with - | ⟨x, text⟩
      · simp
      · simp [begins_nil]
  | cons_cons c d re ih ih' =>
    rw [matchhere.eq_def]
    by_cases hd : d = star
    · have hitems : items (c :: d :: re) = .star c :: items re := by rw [items, if_pos hd]
      simp only [if_pos hd]
      rw [matchstar_iff, begins_cons (i := .star c) nofun hitems]
      simp only [ih]
    · have hitems : items (c :: d :: re) = single c :: items (d :: re) := by rw [items, if_neg hd]
      simp only [if_neg hd]
      rw [begins_single hitems]
      rcases text with - | ⟨x, text⟩
      · simp
      · simp [ih']

theorem matchAny_iff : matchAny re text = true ↔ ∃ before rest, text = before ++ rest ∧ Begins re rest := by
  induction text with
  | nil =>
    rw [matchAny, matchhere_iff]
    refine ⟨fun h => ⟨[], [], rfl, h⟩, ?_⟩
    rintro ⟨before, rest, h, hr⟩
    obtain ⟨-, rfl⟩ := append_eq_nil_iff.mp h.symm
    exact hr
  | cons x text ih =>
    rw [matchAny, Bool.or_eq_true, matchhere_iff, ih]
    constructor
    · rintro (h | ⟨before, rest, rfl, h⟩)
      · exact ⟨[], _, rfl, h⟩
      · exact ⟨x :: before, rest, rfl, h⟩
    · rintro ⟨before, rest, hb, h⟩
      rcases before with - | ⟨y, before⟩
      · exact .inl (by rwa [hb])
      · exact .inr ⟨before, rest, (cons.inj hb).2, h⟩

/-- **The matcher finds what the pattern means**: a substring of the text in the language of the pattern, at the
beginning of the text after a caret, and at its end if the last item says so. -/
theorem match_iff (re text : Str) : matchRe re text = true ↔
    ∃ before w after, text = before ++ w ++ after ∧ w ∈ lang (body re) ∧
      (re.head? = some caret → before = []) ∧ (ToEnd (body re) → after = []) := by
  have hany : (∃ before rest, text = before ++ rest ∧ Begins re rest) ↔ ∃ before w after,
      text = before ++ w ++ after ∧ w ∈ lang re ∧ (ToEnd re → after = []) := by
    constructor
    · rintro ⟨before, _, rfl, w, after, rfl, hw, hend⟩
      exact ⟨before, w, after, (append_assoc ..).symm, hw, hend⟩
    · rintro ⟨before, w, after, rfl, hw, hend⟩
      exact ⟨before, w ++ after, append_assoc .., w, after, rfl, hw, hend⟩
  rcases re with - | ⟨c, re⟩
  · rw [matchRe, matchAny_iff, hany]
    simp [body]
  rw [matchRe]
  by_cases hc : c = caret
  · simp only [hc, if_pos, matchhere_iff, body, head?_cons, tail_cons, true_imp_iff]
    constructor
    · rintro ⟨w, after, h, hw, hend⟩
      exact ⟨[], w, after, h, hw, rfl, hend⟩
    · rintro ⟨_, w, after, h, hw, rfl, hend⟩
      exact ⟨w, after, h, hw, hend⟩
  · have hhead : (c :: re).head? ≠ some caret := by simpa using hc
    simp only [if_neg hc, matchAny_iff, hany, body, if_neg hhead]
    simp [hc]

end Matcher

/-! ### The loop -/

/-- `strchr`: what stands before the first `c`, and what after it. -/
def strchr (c : UInt8) : Str → Option (Str × Str)
  | [] => none
  | x :: s => if x = 0 then none else if x = c then some ([], s) else (strchr c s).map fun r => (x :: r.1, r.2)

theorem strchr_length {c : UInt8} {s : Str} {r : Str × Str} (h : strchr c s = some r) : r.2.length < s.length := by
  induction s generalizing r with
  | nil => cases h
  | cons x s ih =>
    rw [strchr] at h
    split at h
    · cases h
    split at h
    · cases h
      exact Nat.lt_succ_self _
    · obtain ⟨t, ht, rfl⟩ := Option.map_eq_some_iff.mp h
      exact Nat.lt_succ_of_lt (ih ht : t.2.length < s.length)

/-- The lines from `p` on: what is printed of them, and the beginning of a line that is left. -/
def printLines (pattern p : Str) : Str × Str :=
  match h : strchr newline p with
  | none => ([], p)
  | some r =>
    have := strchr_length h
    let s := printLines pattern r.2
    ((if matchRe pattern r.1 then r.1 ++ [newline] else []) ++ s.1, s.2)
termination_by p.length

/-- The size of the buffer. -/
def BUF : Nat := 1024

theorem drop_length_lt {k : Nat} {input : Str} (h : ¬ input.take k = []) : (input.drop k).length < input.length := by
  rw [take_eq_nil_iff, not_or] at h
  have := length_pos_iff.mpr h.2
  rw [length_drop]
  omega

/-- `grep`, with `buf` in the buffer: what is printed.  `read` number `i` returns `want i` bytes if it can, and at
least one. -/
def grep (pattern : Str) (want : Nat → Nat) (i : Nat) (buf input : Str) : Str :=
  let k := min (BUF - buf.length - 1) (max 1 (want i))
  if _h : input.take k = [] then []
  else
    let r := printLines pattern (buf ++ input.take k)
    r.1 ++ grep pattern want (i + 1) r.2 (input.drop k)
termination_by input.length
decreasing_by exact drop_length_lt _h

/-- The lines of the input that a newline ends. -/
def lines (input : Str) : List Str := (input.splitOn newline).dropLast

/-- The lines that match, each with its newline. -/
def printed (pattern : Str) (ls : List Str) : Str := (ls.filter (matchRe pattern)).flatMap (· ++ [newline])

/-- The line fits into the buffer, with its newline and a NUL. -/
def fits (l : Str) : Bool := l.length + 1 < BUF

section Loop

variable {pattern p l r : Str}

theorem strchr_newline (h : 0 ∉ p) : strchr newline p = none ∧ newline ∉ p ∨
    ∃ l r, strchr newline p = some (l, r) ∧ p = l ++ newline :: r ∧ newline ∉ l := by
  induction p with
  | nil => exact .inl ⟨rfl, not_mem_nil⟩
  | cons x p ih =>
    rw [mem_cons, not_or] at h
    rw [strchr, if_neg (Ne.symm h.1)]
    by_cases hx : x = newline
    · exact .inr ⟨[], p, by rw [if_pos hx], by rw [hx]; rfl, not_mem_nil⟩
    rw [if_neg hx]
    rcases ih h.2 with ⟨hs, hno⟩ | ⟨l, r, hs, rfl, hno⟩
    · exact .inl ⟨by rw [hs]; rfl, by simp [hno, Ne.symm hx]⟩
    · exact .inr ⟨x :: l, r, by rw [hs]; rfl, rfl, by simp [hno, Ne.symm hx]⟩

section

variable (h : newline ∉ l)

include h

theorem splitOn_line : (l ++ newline :: r).splitOn newline = l :: r.splitOn newline :=
  splitOnP_append_cons_of_forall_mem (fun _ hx => beq_false_of_ne (ne_of_mem_of_not_mem hx h)) _ (beq_self_eq_true _) _

theorem splitOn_single : l.splitOn newline = [l] :=
  splitOnP_eq_singleton fun _ hx => beq_false_of_ne (ne_of_mem_of_not_mem hx h)

theorem lines_cons : lines (l ++ newline :: r) = l :: lines r := by
  rw [lines, splitOn_line h]
  exact dropLast_cons_of_ne_nil (splitOnP_ne_nil _ _)

theorem lines_single : lines l = [] := by
  rw [lines, splitOn_single h]
  rfl

/-- A line that is too long hides those after it. -/
theorem takeWhile_fits_of_long (hlong : BUF ≤ l.length + 1) (r : Str) : (lines (l ++ r)).takeWhile fits = [] := by
  by_cases hr : newline ∈ r
  · obtain ⟨a, b, rfl, ha⟩ := eq_append_cons_of_mem hr
    rw [← append_assoc, lines_cons (by simp [h, ha]), takeWhile_cons_of_neg]
    simp only [fits, length_append, decide_eq_true_eq]
    omega
  · rw [lines_single (by simp [h, hr])]
    rfl

end

theorem printed_append (pattern : Str) (ls ls' : List Str) : printed pattern (ls ++ ls') = printed pattern ls ++ printed pattern ls' := by
  rw [printed, filter_append, flatMap_append, printed, printed]

theorem printed_cons (ls : List Str) : printed pattern (l :: ls) =
    (if matchRe pattern l then l ++ [newline] else []) ++ printed pattern ls := by
  rw [printed, filter_cons]
  split
  · rfl
  · rfl

theorem printed_eq_nil {ls : List Str} : printed pattern ls = [] ↔ ∀ l ∈ ls, matchRe pattern l = false := by
  rw [printed, flatMap_eq_nil_iff]
  simp

/-- **The lines in the buffer**, when `r` is still to come. -/
theorem printLines_spec (pattern : Str) (h : 0 ∉ p) (hp : p.length < BUF) (r : Str) :
    newline ∉ (printLines pattern p).2 ∧ (printLines pattern p).2.length ≤ p.length ∧ 0 ∉ (printLines pattern p).2 ∧
      printed pattern ((lines (p ++ r)).takeWhile fits) = (printLines pattern p).1 ++
        printed pattern ((lines ((printLines pattern p).2 ++ r)).takeWhile fits) := by
  induction hn : p.length using Nat.strong_induction_on generalizing p with
  | _ n ih =>
    subst hn
    rw [printLines]
    rcases strchr_newline h with ⟨hs, hno⟩ | ⟨l, q, hs, rfl, hno⟩
    · split
      · exact ⟨hno, le_rfl, h, rfl⟩
      · next hs' => cases hs.symm.trans hs'
    · split
      · next hs' => cases hs.symm.trans hs'
      next s hs' =>
      obtain rfl := Option.some.inj (hs'.symm.trans hs)
      have hlen : (l ++ newline :: q).length = l.length + q.length + 1 := by simp [Nat.add_assoc]
      obtain ⟨h₁, h₂, h₃, h₄⟩ := ih q.length (by omega) (fun hq => h (by simp [hq])) (by omega) rfl
      refine ⟨h₁, by dsimp only; omega, h₃, ?_⟩
      have hfits : fits l = true := decide_eq_true (by omega)
      rw [append_assoc, cons_append, lines_cons hno, takeWhile_cons_of_pos hfits, printed_cons, h₄, append_assoc]

variable {input : Str}

/-- **What `grep` prints** does not depend on how the input is split. -/
theorem grep_eq (want : Nat → Nat) {i : Nat} {buf : Str} (hnl : newline ∉ buf) (hlen : buf.length < BUF)
    (h : 0 ∉ buf ++ input) :
    grep pattern want i buf input = printed pattern ((lines (buf ++ input)).takeWhile fits) := by
  induction hn : input.length using Nat.strong_induction_on generalizing i buf input with
  | _ n ih =>
    subst hn
    rw [grep]
    by_cases hk : input.take (min (BUF - buf.length - 1) (max 1 (want i))) = []
    · rw [dif_pos hk]
      rw [take_eq_nil_iff] at hk
      rcases hk with hk | rfl
      · -- the buffer is full
        rw [takeWhile_fits_of_long hnl (by omega)]
        rfl
      · rw [append_nil, lines_single hnl]
        rfl
    · rw [dif_neg hk]
      set k := min (BUF - buf.length - 1) (max 1 (want i)) with hkdef
      have hsplit : buf ++ input = (buf ++ input.take k) ++ input.drop k := by
        rw [append_assoc, take_append_drop]
      have hlen' : (buf ++ input.take k).length < BUF := by
        rw [length_append, length_take]
        omega
      rw [hsplit, mem_append, not_or] at h
      obtain ⟨h₁, h₂, h₃, h₄⟩ := printLines_spec pattern h.1 hlen' (input.drop k)
      rw [hsplit, h₄]
      refine congrArg _ (ih _ (drop_length_lt hk) h₁ (by omega) ?_ rfl)
      rw [mem_append, not_or]
      exact ⟨h₃, h.2⟩

theorem grep_start (want : Nat → Nat) (h : 0 ∉ input) :
    grep pattern want 0 [] input = printed pattern ((lines input).takeWhile fits) :=
  grep_eq want not_mem_nil (by decide) h

/-- **`grep` prints the lines that match exactly if no line that matches comes after one that fills the buffer**, that
one included. -/
theorem grep_prints_iff (pattern input : Str) (want : Nat → Nat) (hnul : 0 ∉ input) :
    grep pattern want 0 [] input = printed pattern (lines input) ↔
      ∀ l ∈ (lines input).dropWhile fits, matchRe pattern l = false := by
  rw [grep_start want hnul, ← printed_eq_nil]
  have hsplit := printed_append pattern ((lines input).takeWhile fits) ((lines input).dropWhile fits)
  rw [takeWhile_append_dropWhile] at hsplit
  rw [hsplit, self_eq_append_right]

/-- Two short lines, one of which matches. -/
theorem grep_prints_iff_short : grep [97] (fun _ => 1) 0 [] [97, 10, 98, 10] = printed [97] (lines [97, 10, 98, 10]) :=
  (grep_prints_iff [97] [97, 10, 98, 10] (fun _ => 1) (by decide)).mpr (by decide)

/-- A line of 1023 letters is lost. -/
theorem grep_loses_long_line : grep [97] (fun _ => 1) 0 [] (replicate 1023 97 ++ [newline]) ≠
    printed [97] (lines (replicate 1023 97 ++ [newline])) := by
  have hnl : newline ∉ replicate 1023 (97 : UInt8) := fun h => absurd (eq_of_mem_replicate h) (by decide)
  have hnul : 0 ∉ replicate 1023 (97 : UInt8) ++ [newline] := by
    rw [mem_append, mem_replicate]
    decide
  have hmatch : matchRe [97] (replicate 1023 97) = true := by
    rfl
  rw [grep_start _ hnul, takeWhile_fits_of_long hnl (by rw [length_replicate]; decide),
    lines_cons hnl, printed_cons, if_pos hmatch]
  exact fun h => cons_ne_nil _ _ (append_eq_nil_iff.mp (append_eq_nil_iff.mp h.symm).1).2

end Loop

end Xv6.Grep

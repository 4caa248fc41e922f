/-
Xv6/ShPrint.lean

The parser of the shell undoes printing.

`print` writes a tree with every subcommand in parentheses.  What the parser makes of it
are pointers into the text, and `nulterminate` overwrites the text behind each word.
Two facts bring this together.  Pointers of a tree are pointers of tokens, and a token that is
a word ends where a character stands that belongs to no word (`IsWord`); so no
terminator falls inside another word, and every pointer reads as its word
(`strings_nulterminate`).  And the tokens of a printed tree are those of a derivation whose
tree has the words in their places (`printed`).
-/
import Xv6.ShGrammar

namespace Xv6.Sh

open List

/-! ### Words in the line -/

namespace Cmd

variable {V W : Type}

def map (f : V → W) : Cmd V → Cmd W
  | .exec argv => .exec (argv.map f)
  | .redir cmd file mode fd => .redir (cmd.map f) (f file) mode fd
  | .pipe left right => .pipe (left.map f) (right.map f)
  | .list left right => .list (left.map f) (right.map f)
  | .back cmd => .back (cmd.map f)

/-- The words and file names of a tree. -/
def words : Cmd W → List W
  | .exec argv => argv
  | .redir cmd file _ _ => cmd.words ++ [file]
  | .pipe left right => left.words ++ right.words
  | .list left right => left.words ++ right.words
  | .back cmd => cmd.words

theorem map_congr {f g : V → W} {cmd : Cmd V} (h : ∀ w ∈ cmd.words, f w = g w) : cmd.map f = cmd.map g := by
  induction cmd with
  | exec argv => exact congrArg Cmd.exec (map_congr_left h)
  | redir cmd file mode fd ih =>
    rw [map, map, ih fun w hw => h w (mem_append_left _ hw), h file (by simp [words])]
  | pipe _ _ ihl ihr | list _ _ ihl ihr =>
    rw [map, map, ihl fun w hw => h w (mem_append_left _ hw), ihr fun w hw => h w (mem_append_right _ hw)]
  | back cmd ih => rw [map, map, ih h]

theorem words_redirs (cmd : Cmd Ptr) (rs : List Redir) : (cmd.redirs rs).words = cmd.words ++ rs.map Redir.file := by
  induction rs generalizing cmd with
  | nil => simp [redirs]
  | cons r rs ih =>
    have hcons : cmd.redirs (r :: rs) = (Cmd.redir cmd r.file r.kind.mode r.kind.fd).redirs rs := rfl
    rw [hcons, ih, words]
    simp

theorem words_backs (cmd : Cmd Ptr) (n : Nat) : (cmd.backs n).words = cmd.words := by
  induction n generalizing cmd with
  | zero => rfl
  | succ n ih => rw [backs, ih, words]

end Cmd

variable {w : Ptr}

theorem mem_redirToks {rs : List Redir} (h : w ∈ rs.map Redir.file) : Token.word w ∈ redirToks rs := by
  obtain ⟨r, hr, rfl⟩ := mem_map.mp h
  exact mem_flatMap.mpr ⟨r, hr, by simp [Redir.toks]⟩

mutual

variable {w : Ptr}

/-- The pointers of a tree are those of its tokens. -/
theorem Line.words_tree : (l : Line) → w ∈ l.tree.words → Token.word w ∈ l.toks
  | .last p n, h => by
    rw [Line.tree, Cmd.words_backs] at h
    exact mem_append_left _ (p.words_tree h)
  | .seq p n l, h => by
    rw [Line.tree, Cmd.words, Cmd.words_backs] at h
    rcases mem_append.mp h with h | h
    · exact mem_append_left _ (p.words_tree h)
    · exact mem_append_right _ (mem_append_right _ (mem_cons_of_mem _ (l.words_tree h)))

theorem Pipe.words_tree : (p : Pipe) → w ∈ p.tree.words → Token.word w ∈ p.toks
  | .exec e, h => e.words_tree h
  | .pipe e p, h => by
    rcases mem_append.mp h with h | h
    · exact mem_append_left _ (e.words_tree h)
    · exact mem_append_right _ (mem_cons_of_mem _ (p.words_tree h))

theorem Exec.words_tree : (e : Exec) → w ∈ e.tree.words → Token.word w ∈ e.toks
  | .block l rs, h => by
    rw [Exec.tree, Cmd.words_redirs] at h
    rcases mem_append.mp h with h | h
    · exact mem_cons_of_mem _ (mem_append_left _ (l.words_tree h))
    · exact mem_cons_of_mem _ (mem_append_right _ (mem_cons_of_mem _ (mem_redirToks h)))
  | .simple rs args _, h => by
    rw [Exec.tree, Cmd.words_redirs, Cmd.words, map_append] at h
    rcases mem_append.mp h with h | h
    · obtain ⟨a, ha, rfl⟩ := mem_map.mp h
      exact mem_append_right _ (mem_flatMap.mpr ⟨a, ha, mem_cons_self⟩)
    rcases mem_append.mp h with h | h
    · exact mem_append_left _ (mem_redirToks h)
    obtain ⟨r, hr, rfl⟩ := mem_map.mp h
    obtain ⟨a, ha, hra⟩ := mem_flatMap.mp hr
    refine mem_append_right _ (mem_flatMap.mpr ⟨a, ha, mem_cons_of_mem _ (mem_redirToks ?_)⟩)
    exact mem_map.mpr ⟨r, hra, rfl⟩

end

/-- The pointers are around a maximal run of characters of a word. -/
structure IsWord (buf : Str) (w : Ptr) : Prop where
  lt : w.q < w.eq
  inside : ∀ i, w.q ≤ i → i < w.eq → ∃ c, buf[i]? = some c ∧ plain c = true
  behind : ∀ c, buf[w.eq]? = some c → plain c = false

/-- The characters of a maximal run, and the one behind it. -/
theorem takeWhile_run (q : UInt8 → Bool) (u : Str) :
    (∀ j, j < (u.takeWhile q).length → ∃ c, u[j]? = some c ∧ q c = true) ∧
      ∀ c, u[(u.takeWhile q).length]? = some c → q c = false := by
  refine ⟨fun j hj => ?_, fun c hc => ?_⟩
  · have hget : u[j]? = some (u.takeWhile q)[j] := by
      conv_lhs => rw [← takeWhile_append_dropWhile (p := q) (l := u)]
      rw [getElem?_append_left hj, getElem?_eq_getElem hj]
    exact ⟨_, hget, mem_takeWhile_imp (getElem_mem hj)⟩
  · rw [← head?_drop, drop_takeWhile] at hc
    have hhead := head?_dropWhile_not q u
    rw [hc] at hhead
    simpa using hhead

variable {buf : Str}

/-- **The words that `lex` finds are words.** -/
theorem isWord_of_mem_lex {p : Nat} {s : Str} (hs : buf.drop p = s) (h : .word w ∈ lex p s) : IsWord buf w := by
  induction hn : s.length using Nat.strong_induction_on generalizing p s with
  | _ n ih =>
    subst hn
    have hshort : ∀ k, 0 < k → .word w ∈ lex (p + k) (s.drop k) → s ≠ [] → IsWord buf w := by
      intro k hk hmem hne
      refine ih (s.drop k).length ?_ (by rw [← drop_drop, hs]) hmem rfl
      have := length_pos_of_ne_nil hne
      simp
      omega
    cases s with
    | nil =>
      rw [lex] at h
      cases h
    | cons c s =>
      by_cases hsp : strchr whitespace c = true
      · rw [lex_space hsp] at h
        exact hshort 1 one_pos h (by simp)
      by_cases hgg : c = tok '>' ∧ s.head? = some (tok '>')
      · obtain ⟨rfl, hhead⟩ := hgg
        obtain ⟨s', rfl⟩ : ∃ s', s = tok '>' :: s' := ⟨s.tail, eq_cons_of_mem_head? hhead⟩
        rw [lex_append] at h
        rcases mem_cons.mp h with h | h
        · cases h
        · exact hshort 2 two_pos h (by simp)
      cases hchar : Token.ofChar c with
      | some t =>
        rw [lex_sym hchar hgg] at h
        rcases mem_cons.mp h with rfl | h
        · have hnot : tok 'a' ∉ symbols := by decide
          obtain ⟨hret, hsym, -⟩ := Token.ofChar_eq_some hchar
          have hret' : c = tok 'a' := hret
          exact absurd (hret' ▸ hsym) hnot
        · exact hshort 1 one_pos h (by simp)
      | none =>
        have hplain : plain c = true := plain_iff.mpr ⟨hsp, Token.ofChar_eq_none.mp hchar⟩
        have hpos : 0 < ((c :: s).takeWhile plain).length := by simp [takeWhile_cons_of_pos hplain]
        rw [lex_word hplain] at h
        rcases mem_cons.mp h with h | h
        · obtain rfl := Token.word.inj h
          obtain ⟨hin, hend⟩ := takeWhile_run plain (c :: s)
          refine ⟨by simpa using hpos, fun i hi hlt => ?_, fun d hd => hend d ?_⟩
          · obtain ⟨d, hd, hpl⟩ := hin (i - p) (by simp at hi hlt ⊢; omega)
            rw [← hs, getElem?_drop] at hd
            refine ⟨d, ?_, hpl⟩
            rwa [Nat.add_sub_cancel' hi] at hd
          · rw [← hs, getElem?_drop]
            rw [hs]
            exact hd
        · exact hshort _ hpos h (by simp)

/-! ### Terminating the words -/

/-- The string at a position. -/
def cstr (buf : Str) (q : Nat) : Str := (buf.drop q).takeWhile (· ≠ 0)

/-- What lies between two pointers. -/
def between (buf : Str) (w : Ptr) : Str := (buf.drop w.q).take (w.eq - w.q)

theorem nulterminate_eq (buf : Str) (cmd : Cmd Ptr) :
    nulterminate buf cmd = cmd.words.foldl (fun buf w => buf.set w.eq 0) buf := by
  induction cmd generalizing buf with
  | exec argv => rfl
  | redir cmd file mode fd ih => rw [nulterminate, Cmd.words, foldl_append, ih]; rfl
  | pipe _ _ ihl ihr | list _ _ ihl ihr => rw [nulterminate, Cmd.words, foldl_append, ihl, ihr]
  | back cmd ih => exact ih buf

/-- Bytes behind words become zero, the others stay. -/
theorem getElem?_terminate (ws : List Ptr) (buf : Str) (i : Nat) :
    (ws.foldl (fun buf w => buf.set w.eq 0) buf)[i]? = if ∃ w ∈ ws, w.eq = i then buf[i]?.map fun _ => 0 else buf[i]? := by
  induction ws generalizing buf with
  | nil => simp
  | cons w ws ih =>
    rw [foldl_cons, ih]
    rcases eq_or_ne w.eq i with rfl | hi
    · have hex : ∃ w' ∈ w :: ws, w'.eq = w.eq := ⟨w, mem_cons_self, rfl⟩
      rw [if_pos hex, getElem?_set_self']
      split
      · cases buf[w.eq]? <;> rfl
      · rfl
    · simp only [mem_cons, exists_eq_or_imp, hi, false_or]
      rw [getElem?_set_ne hi]

theorem cstr_eq_between {buf' : Str} (hw : IsWord buf w) (h0 : 0 ∉ buf)
    (hin : ∀ i, w.q ≤ i → i < w.eq → buf'[i]? = buf[i]?) (hend : ∀ c, buf'[w.eq]? = some c → c = 0) :
    cstr buf' w.q = between buf w := by
  have hlt := hw.lt
  have htake : (buf'.drop w.q).take (w.eq - w.q) = (buf.drop w.q).take (w.eq - w.q) := by
    refine ext_getElem? fun j => ?_
    rw [getElem?_take, getElem?_take, getElem?_drop, getElem?_drop]
    split
    · exact hin _ (Nat.le_add_right _ _) (by omega)
    · rfl
  have hne : ∀ c ∈ (buf'.drop w.q).take (w.eq - w.q), decide (c ≠ 0) = true := by
    intro c hc
    rw [htake] at hc
    exact decide_eq_true fun hc0 => h0 (hc0 ▸ mem_of_mem_drop (mem_of_mem_take hc))
  have hstop : ((buf'.drop w.q).drop (w.eq - w.q)).takeWhile (· ≠ 0) = [] := by
    rw [drop_drop, Nat.add_sub_cancel' hlt.le]
    rcases hd : buf'.drop w.eq with - | ⟨c, s⟩
    · rfl
    · have hc : c = 0 := hend c (by rw [← head?_drop, hd]; rfl)
      rw [takeWhile_cons_of_neg (by simpa using hc)]
  rw [cstr, between, ← take_append_drop (w.eq - w.q) (buf'.drop w.q), takeWhile_append_of_pos hne, hstop,
    append_nil, htake]

/-- **The strings that the nodes point to** after `nulterminate` are the words of the line. -/
theorem strings_nulterminate {l : Line} (h0 : 0 ∉ buf) (hl : l.toks = lex 0 buf) :
    l.tree.map (fun w => cstr (nulterminate buf l.tree) w.q) = l.tree.map (between buf) := by
  have hword : ∀ w ∈ l.tree.words, IsWord buf w := fun w hw =>
    isWord_of_mem_lex (p := 0) rfl (hl ▸ l.words_tree hw)
  refine Cmd.map_congr fun w hw => cstr_eq_between (hword w hw) h0 (fun i hi hlt => ?_) ?_
  · -- no terminator is written into a word
    rw [nulterminate_eq, getElem?_terminate, if_neg]
    rintro ⟨w', hw', rfl⟩
    obtain ⟨c, hc, hplain⟩ := (hword w hw).inside _ hi hlt
    rw [(hword w' hw').behind c hc] at hplain
    cases hplain
  · rw [nulterminate_eq, getElem?_terminate, if_pos ⟨w, hw, rfl⟩]
    intro c hc
    obtain ⟨_, -, hzero⟩ := Option.map_eq_some_iff.mp hc
    exact hzero.symm

/-! ### Printing -/

/-- The symbol of a redirection. -/
def Kind.text : Kind → Str
  | .input => str "<"
  | .output => str ">"
  | .append => str ">>"

/-- The redirection with this mode. -/
def kindOf (mode : UInt32) : Kind :=
  if mode = Kind.input.mode then .input else if mode = Kind.output.mode then .output else .append

/-- The text of a tree, with every subcommand in parentheses. -/
def print : Cmd Str → Str
  | .exec argv => (argv.intersperse [32]).flatten
  | .redir cmd file mode _ => str "(" ++ print cmd ++ str ")" ++ (kindOf mode).text ++ file
  | .pipe left right => str "(" ++ print left ++ str ")|(" ++ print right ++ str ")"
  | .list left right => str "(" ++ print left ++ str ");(" ++ print right ++ str ")"
  | .back cmd => str "(" ++ print cmd ++ str ")&"

/-- A word: not empty, and without white space, symbols and NUL. -/
def Printable (w : Str) : Prop := w ≠ [] ∧ ∀ c ∈ w, plain c = true ∧ c ≠ 0

/-- The trees that the shell can read. -/
def Cmd.WF : Cmd Str → Prop
  | .exec argv => argv.length ≤ MAXARGS - 1 ∧ ∀ w ∈ argv, Printable w
  | .redir cmd file mode fd => cmd.WF ∧ Printable file ∧ ∃ k : Kind, mode = k.mode ∧ fd = k.fd
  | .pipe left right => left.WF ∧ right.WF
  | .list left right => left.WF ∧ right.WF
  | .back cmd => cmd.WF

theorem Printable.head_ne {w : Str} (h : Printable w) (rest : Str) : (w ++ rest).head? ≠ some (tok '>') := by
  obtain ⟨hne, hplain⟩ := h
  obtain ⟨c, w, rfl⟩ := exists_cons_of_ne_nil hne
  rintro ⟨⟩
  exact absurd (hplain _ mem_cons_self).1 (by decide)

theorem kindOf_mode (k : Kind) : kindOf k.mode = k := by cases k <;> decide

/-- From one position to another, the line consists of these tokens. -/
def Lexes (buf : Str) (p : Nat) (ts : List Token) (p' : Nat) : Prop :=
  lex p (buf.drop p) = ts ++ lex p' (buf.drop p')

section Lexes

variable {buf : Str} {p p' p'' : Nat} {ts ts' : List Token} {c : UInt8} {rest w : Str}

theorem Lexes.trans (h : Lexes buf p ts p') (h' : Lexes buf p' ts' p'') : Lexes buf p (ts ++ ts') p'' := by
  rw [Lexes, h, h', append_assoc]

theorem Lexes.cast (h : Lexes buf p ts p') (hts : ts = ts') (hp : p' = p'') : Lexes buf p ts' p'' := hts ▸ hp ▸ h

theorem drop_add {s : Str} (h : buf.drop p = s ++ rest) : buf.drop (p + s.length) = rest := by
  rw [← drop_drop, h, drop_left]

theorem lexes_space (h : buf.drop p = 32 :: rest) : Lexes buf p [] (p + 1) := by
  have hnext : buf.drop (p + 1) = rest := by rw [← drop_drop, h]; rfl
  rw [Lexes, h, hnext, lex_space (by decide)]
  rfl

/-- A symbol. -/
theorem lexes_sym {t : Token} (h : buf.drop p = c :: rest) (ht : Token.ofChar c = some t) (hc : c ≠ tok '>') :
    Lexes buf p [t] (p + 1) ∧ buf.drop (p + 1) = rest := by
  have hnext : buf.drop (p + 1) = rest := by rw [← drop_drop, h]; rfl
  refine ⟨?_, hnext⟩
  rw [Lexes, h, hnext, lex_sym ht fun hgg => hc hgg.1]
  rfl

/-- The symbol of a redirection, if no other one follows. -/
theorem lexes_kind (k : Kind) (h : buf.drop p = k.text ++ rest) (hrest : rest.head? ≠ some (tok '>')) :
    Lexes buf p [k.token] (p + k.text.length) := by
  have hnext := drop_add h
  cases k with
  | input => exact (lexes_sym h rfl (by decide)).1
  | output =>
    rw [Lexes, h, hnext]
    exact lex_sym rfl fun hgg => hrest hgg.2
  | append =>
    rw [Lexes, h, hnext]
    exact lex_append rest

/-- A word, up to a character that does not belong to it. -/
theorem lexes_word (hw : Printable w) (h : buf.drop p = w ++ rest) (hrest : ∀ c s, rest = c :: s → plain c = false) :
    ∃ ptr, Lexes buf p [.word ptr] (p + w.length) ∧ between buf ptr = w := by
  refine ⟨⟨p, p + w.length⟩, ?_, by simp [between, h]⟩
  rw [Lexes, drop_add h, h]
  obtain ⟨hne, hplain⟩ := hw
  obtain ⟨c, w, rfl⟩ := exists_cons_of_ne_nil hne
  have htake : (c :: w ++ rest).takeWhile plain = c :: w := by
    rw [takeWhile_append_of_pos fun d hd => (hplain d hd).1]
    cases rest with
    | nil => rw [takeWhile_nil, append_nil]
    | cons d s => rw [takeWhile_cons_of_neg (by simp [hrest d s rfl]), append_nil]
  have hlex : lex p (c :: (w ++ rest)) = _ := lex_word (hplain c mem_cons_self).1
  rw [← cons_append, htake, drop_left] at hlex
  exact hlex

/-- What may stand behind a printed tree. -/
def Closed (rest : Str) : Prop := rest = [] ∨ ∃ s, rest = tok ')' :: s

theorem Closed.not_plain (h : Closed rest) : ∀ c s, rest = c :: s → plain c = false := by
  rintro c s rfl
  rcases h with h | ⟨_, h⟩
  · cases h
  · obtain ⟨rfl, -⟩ := cons.inj h
    decide

/-- A printed list of words. -/
theorem lexes_words {argv : List Str} (hargv : ∀ w ∈ argv, Printable w)
    (h : buf.drop p = (argv.intersperse [32]).flatten ++ rest) (hrest : Closed rest) :
    ∃ ws : List Ptr, Lexes buf p (argToks (ws.map fun w => (w, []))) (p + (argv.intersperse [32]).flatten.length) ∧
      ws.map (between buf) = argv := by
  induction argv generalizing p with
  | nil => exact ⟨[], rfl, rfl⟩
  | cons w argv ih =>
    have hw := hargv w mem_cons_self
    cases argv with
    | nil =>
      have htext : ([w].intersperse [32]).flatten = w := by simp
      rw [htext] at h ⊢
      obtain ⟨ptr, hlex, hread⟩ := lexes_word hw h hrest.not_plain
      exact ⟨[ptr], hlex, by simpa using hread⟩
    | cons w' argv =>
      have htext : ((w :: w' :: argv).intersperse [32]).flatten
          = w ++ 32 :: ((w' :: argv).intersperse [32]).flatten := rfl
      rw [htext, append_assoc] at h
      obtain ⟨ptr, hlex, hread⟩ := lexes_word hw h (by rintro c s ⟨⟩; decide)
      have hnext : buf.drop (p + w.length) = 32 :: (((w' :: argv).intersperse [32]).flatten ++ rest) := drop_add h
      have hnext' : buf.drop (p + w.length + 1) = ((w' :: argv).intersperse [32]).flatten ++ rest := by
        rw [← drop_drop, hnext]
        rfl
      obtain ⟨ws, hws, hreads⟩ := ih (fun v hv => hargv v (mem_cons_of_mem _ hv)) hnext'
      refine ⟨ptr :: ws, ?_, ?_⟩
      · have hall := hlex.trans ((lexes_space hnext).trans hws)
        have hlen : p + (w ++ 32 :: ((w' :: argv).intersperse [32]).flatten).length
            = p + w.length + 1 + ((w' :: argv).intersperse [32]).flatten.length := by
          rw [length_append, length_cons]
          omega
        rw [htext, hlen, map_cons, argToks_cons]
        exact hall
      · rw [map_cons, hread, hreads]

/-- The text of a tree, wherever it stands, has a derivation with the words in their places. -/
def Printed (buf : Str) (t : Cmd Str) : Prop :=
  ∀ (p : Nat) (rest : Str), buf.drop p = print t ++ rest → Closed rest →
    ∃ l : Line, Lexes buf p l.toks (p + (print t).length) ∧ l.tree.map (between buf) = t

variable {t : Cmd Str}

/-- A subcommand. -/
theorem Printed.block (h : Printed buf t) (htext : buf.drop p = tok '(' :: (print t ++ tok ')' :: rest)) :
    ∃ l : Line, Lexes buf p (.lpar :: (l.toks ++ [.rpar])) (p + (print t).length + 2) ∧
      l.tree.map (between buf) = t ∧ buf.drop (p + (print t).length + 2) = rest := by
  obtain ⟨hopen, hin⟩ := lexes_sym htext rfl (by decide)
  obtain ⟨l, hl, htree⟩ := h (p + 1) _ hin (.inr ⟨rest, rfl⟩)
  obtain ⟨hclose, hout⟩ := lexes_sym (drop_add hin) rfl (by decide)
  have hpos : p + 1 + (print t).length + 1 = p + (print t).length + 2 := by omega
  rw [hpos] at hclose hout
  exact ⟨l, hopen.trans (hl.trans hclose), htree, hout⟩

/-! The text of a node, and of what is behind it. -/

theorem print_redir (cmd : Cmd Str) (file : Str) (mode : UInt32) (fd : Nat) (rest : Str) :
    print (.redir cmd file mode fd) ++ rest
      = tok '(' :: (print cmd ++ tok ')' :: ((kindOf mode).text ++ (file ++ rest))) := by
  show [tok '('] ++ print cmd ++ [tok ')'] ++ (kindOf mode).text ++ file ++ rest = _
  simp

theorem print_pipe (left right : Cmd Str) (rest : Str) : print (.pipe left right) ++ rest
    = tok '(' :: (print left ++ tok ')' :: tok '|' :: tok '(' :: (print right ++ tok ')' :: rest)) := by
  show [tok '('] ++ print left ++ [tok ')', tok '|', tok '('] ++ print right ++ [tok ')'] ++ rest = _
  simp

theorem print_list (left right : Cmd Str) (rest : Str) : print (.list left right) ++ rest
    = tok '(' :: (print left ++ tok ')' :: tok ';' :: tok '(' :: (print right ++ tok ')' :: rest)) := by
  show [tok '('] ++ print left ++ [tok ')', tok ';', tok '('] ++ print right ++ [tok ')'] ++ rest = _
  simp

theorem print_back (cmd : Cmd Str) (rest : Str) :
    print (.back cmd) ++ rest = tok '(' :: (print cmd ++ tok ')' :: tok '&' :: rest) := by
  show [tok '('] ++ print cmd ++ [tok ')', tok '&'] ++ rest = _
  simp

theorem length_print {f : Str → Str} (h : ∀ rest, print t ++ rest = f rest) :
    (print t).length = (f []).length := by rw [← h, append_nil]

/-- Two subcommands with a symbol between them. -/
theorem Printed.two {l r : Cmd Str} (hl : Printed buf l) (hr : Printed buf r) {t : Token} (ht : Token.ofChar c = some t)
    (hc : c ≠ tok '>')
    (htext : buf.drop p = tok '(' :: (print l ++ tok ')' :: c :: tok '(' :: (print r ++ tok ')' :: rest))) :
    ∃ ll lr : Line, Lexes buf p (.lpar :: (ll.toks ++ [.rpar]) ++ ([t] ++ (.lpar :: (lr.toks ++ [.rpar]))))
      (p + (print l).length + (print r).length + 5) ∧
      ll.tree.map (between buf) = l ∧ lr.tree.map (between buf) = r := by
  obtain ⟨ll, hll, hleft, hnext⟩ := hl.block htext
  obtain ⟨hsym, hnext⟩ := lexes_sym hnext ht hc
  obtain ⟨lr, hlr, hright, -⟩ := hr.block hnext
  have hpos : p + (print l).length + 2 + 1 + (print r).length + 2 = p + (print l).length + (print r).length + 5 := by
    omega
  rw [hpos] at hlr
  exact ⟨ll, lr, hll.trans (hsym.trans hlr), hleft, hright⟩

/-- **A printed tree.**  The induction is on the tree. -/
theorem printed (hwf : t.WF) : Printed buf t := by
  induction t with
  | exec argv =>
    intro p rest htext hrest
    obtain ⟨ws, hlex, hread⟩ := lexes_words hwf.2 htext hrest
    have hlen : (ws.map fun w => (w, ([] : List Redir))).length < MAXARGS := by
      have := hwf.1
      rw [← hread, length_map] at this
      simp only [length_map, MAXARGS] at this ⊢
      omega
    refine ⟨.last (.exec (.simple [] _ hlen)) 0, ?_, ?_⟩
    · rw [Line.toks, Pipe.toks, Exec.toks, replicate_zero, append_nil]
      exact hlex
    have hflat : (ws.map fun w => (w, ([] : List Redir))).flatMap Prod.snd = [] := by simp
    have hfst : (ws.map fun w => (w, ([] : List Redir))).map Prod.fst = ws := by
      rw [map_map]
      exact map_id ws
    show (Cmd.redirs _ ([] ++ _)).map _ = _
    rw [hflat, hfst]
    exact congrArg Cmd.exec hread
  | redir cmd file mode fd ih =>
    obtain ⟨hcmd, hfile, k, rfl, rfl⟩ := hwf
    intro p rest htext hrest
    rw [print_redir, kindOf_mode] at htext
    obtain ⟨l, hl, htree, hnext⟩ := (ih hcmd).block htext
    have hkind := lexes_kind k hnext (hfile.head_ne rest)
    obtain ⟨ptr, hword, hread⟩ := lexes_word hfile (drop_add hnext) hrest.not_plain
    refine ⟨.last (.exec (.block l [⟨k, ptr⟩])) 0, ?_, ?_⟩
    · refine (hl.trans (hkind.trans hword)).cast ?_ ?_
      · simp [Line.toks, Pipe.toks, Exec.toks, redirToks, Redir.toks]
      · rw [length_print (print_redir cmd file k.mode k.fd), kindOf_mode]
        simp
        omega
    · show Cmd.redir _ _ _ _ = _
      rw [htree, hread]
  | pipe left right ihl ihr =>
    intro p rest htext hrest
    rw [print_pipe] at htext
    obtain ⟨ll, lr, hlex, hleft, hright⟩ := (ihl hwf.1).two (ihr hwf.2) rfl (by decide) htext
    refine ⟨.last (.pipe (.block ll []) (.exec (.block lr []))) 0, ?_, congrArg₂ Cmd.pipe hleft hright⟩
    refine hlex.cast ?_ ?_
    · simp [Line.toks, Pipe.toks, Exec.toks, redirToks]
    · rw [length_print (print_pipe left right)]
      simp
      omega
  | list left right ihl ihr =>
    intro p rest htext hrest
    rw [print_list] at htext
    obtain ⟨ll, lr, hlex, hleft, hright⟩ := (ihl hwf.1).two (ihr hwf.2) rfl (by decide) htext
    refine ⟨.seq (.exec (.block ll [])) 0 (.last (.exec (.block lr [])) 0), ?_, congrArg₂ Cmd.list hleft hright⟩
    refine hlex.cast ?_ ?_
    · simp [Line.toks, Pipe.toks, Exec.toks, redirToks]
    · rw [length_print (print_list left right)]
      simp
      omega
  | back cmd ih =>
    intro p rest htext hrest
    rw [print_back] at htext
    obtain ⟨l, hl, htree, hnext⟩ := (ih hwf).block htext
    obtain ⟨hamp, -⟩ := lexes_sym hnext rfl (by decide)
    refine ⟨.last (.exec (.block l [])) 1, ?_, congrArg Cmd.back htree⟩
    refine (hl.trans hamp).cast ?_ ?_
    · simp [Line.toks, Pipe.toks, Exec.toks, redirToks]
    · rw [length_print (print_back cmd)]
      simp
      omega

end Lexes

theorem Kind.zero_notMem_text (k : Kind) : 0 ∉ k.text := by cases k <;> decide

/-- There is no NUL in a printed tree. -/
theorem zero_notMem_print {t : Cmd Str} (hwf : t.WF) : 0 ∉ print t := by
  induction t with
  | exec argv =>
    obtain ⟨-, hwords⟩ := hwf
    induction argv using twoStepInduction with
    | nil => exact not_mem_nil
    | singleton w =>
      intro h0
      rw [show print (.exec [w]) = w from append_nil w] at h0
      exact ((hwords w mem_cons_self).2 0 h0).2 rfl
    | cons_cons w w' argv _ ih =>
      have hrest := ih w' fun v hv => hwords v (mem_cons_of_mem _ hv)
      have hw : 0 ∉ w := fun h0 => ((hwords w mem_cons_self).2 0 h0).2 rfl
      rw [show print (.exec (w :: w' :: argv)) = w ++ 32 :: print (.exec (w' :: argv)) from rfl]
      simp only [mem_append, mem_cons, hw, hrest]
      decide
  | redir cmd file mode fd ih =>
    obtain ⟨hcmd, hfile, -⟩ := hwf
    have hfile0 : 0 ∉ file := fun h => (hfile.2 0 h).2 rfl
    rw [← append_nil (print _), print_redir]
    simp only [mem_cons, mem_append, ih hcmd, hfile0, Kind.zero_notMem_text]
    decide
  | pipe left right ihl ihr =>
    rw [← append_nil (print _), print_pipe]
    simp only [mem_cons, mem_append, ihl hwf.1, ihr hwf.2]
    decide
  | list left right ihl ihr =>
    rw [← append_nil (print _), print_list]
    simp only [mem_cons, mem_append, ihl hwf.1, ihr hwf.2]
    decide
  | back cmd ih =>
    rw [← append_nil (print _), print_back]
    simp only [mem_cons, mem_append, ih hwf]
    decide

/-- **The parser undoes printing.**  The shell reads the text of a tree as the tree. -/
theorem parse_print (t : Cmd Str) (hwf : t.WF) (fuel : Nat) (hfuel : 4 * (print t).length + 4 ≤ fuel) :
    ∃ cmd buf, parsecmd fuel (print t) = .ok (cmd, buf) ∧ cmd.map (fun w => cstr buf w.q) = t := by
  have h0 := zero_notMem_print hwf
  obtain ⟨l, hlex, htree⟩ := printed hwf 0 [] (append_nil _).symm (.inl rfl)
  have hl : l.toks = lex 0 (print t) := by
    have hend : (print t).drop (0 + (print t).length) = [] := by simp
    simpa [lex] using hlex.symm
  exact ⟨_, _, parsecmd_complete h0 hfuel hl, (strings_nulterminate h0 hl).trans htree⟩

/-- The tree of `ls | wc >f`. -/
def pipeline : Cmd Str :=
  .pipe (.exec [str "ls"]) (.redir (.exec [str "wc"]) (str "f") Kind.output.mode Kind.output.fd)

theorem parse_print_pipeline : print pipeline = str "(ls)|((wc)>f)" ∧
    ∃ cmd buf, parsecmd 56 (print pipeline) = .ok (cmd, buf) ∧ cmd.map (fun w => cstr buf w.q) = pipeline := by
  have hplain : ∀ w ∈ [str "ls", str "wc", str "f"], w ≠ [] ∧ (w.all fun c => plain c ∧ c ≠ 0) = true := by decide
  have hword : ∀ w ∈ [str "ls", str "wc", str "f"], Printable w := fun w hw =>
    ⟨(hplain w hw).1, fun c hc => of_decide_eq_true (all_eq_true.mp (hplain w hw).2 c hc)⟩
  have hwf : pipeline.WF := by
    refine ⟨⟨by decide, fun w hw => hword w ?_⟩, ⟨by decide, fun w hw => hword w ?_⟩, hword _ (by simp), .output, rfl, rfl⟩
    · simp_all
    · simp_all
  exact ⟨by decide, parse_print pipeline hwf 56 (by decide)⟩

end Xv6.Sh

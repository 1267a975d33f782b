import Xv6.Sh.Grammar

/-!
# Xv6.Sh.Command

What `parsecmd` returns.

The pointers in the tree enclose words of the line, and no word ends inside another, so the zeros
that `nulterminate` writes turn each of them into a string of its own. With the parser on tokens
from `Xv6.Sh.Grammar` this gives the result for lines: `parsecmd` returns or panics, and it returns
the tree of a derivation exactly when there is one.
-/

namespace Xv6.Sh

open List

section Strings

variable {s : List UInt8} {w : Span} {x : Word} {buf : Nat → UInt8}

/-- The string at `q`, in a buffer of `n` bytes with a zero behind it. -/
def cstring (buf : Nat → UInt8) (n q : Nat) : Word :=
  ((range' q (n - q)).map buf).takeWhile fun b => b ≠ 0

def Cmd.words {α : Type} : Cmd α → List α
  | .exec argv => argv
  | .redir cmd file _ _ => cmd.words ++ [file]
  | .pipe left right => left.words ++ right.words
  | .list left right => left.words ++ right.words
  | .back cmd => cmd.words

theorem close_foldl (ws : List Span) : ∀ (buf : Nat → UInt8) (i : Nat),
    ws.foldl Span.close buf i = if i ∈ ws.map Span.eq then 0 else buf i := by
  induction ws with
  | nil => intro buf i; simp
  | cons w ws ih =>
    intro buf i
    rw [foldl_cons, ih, Span.close, map_cons, Function.update_apply]
    by_cases hw : i = w.eq <;> by_cases hi : i ∈ ws.map Span.eq <;> simp [hw, hi]

theorem nulterminate_eq (cmd : Cmd Span) : ∀ (buf : Nat → UInt8),
    nulterminate cmd buf = cmd.words.foldl Span.close buf := by
  induction cmd with
  | exec argv => intro buf; rfl
  | redir cmd file mode fd ih => intro buf; rw [nulterminate, Cmd.words, foldl_append, ih]; rfl
  | pipe left right ihl ihr | list left right ihl ihr =>
    intro buf; rw [nulterminate, Cmd.words, foldl_append, ihl, ihr]
  | back cmd ih => intro buf; exact ih buf

theorem Span.Reads.getD (h : w.Reads s x) {i : Nat} (hi : i < x.length) :
    s[w.q + i]? = some x[i] := by
  rw [← getElem?_drop, h.drop, getElem?_append_left hi, getElem?_eq_getElem hi]

theorem Span.Reads.inside {w' : Span} {x' : Word} (h : w.Reads s x) (h' : w'.Reads s x') {i : Nat}
    (hi : i < x.length) : w.q + i ≠ w'.eq := by
  intro heq
  have hbyte := h.bytes _ (getElem_mem hi)
  have hstop := h'.stop x[i] (by
    rw [← heq, List.head?_drop, h.getD hi]
    rfl)
  rw [hbyte] at hstop
  cases hstop

theorem Span.Reads.cstring (h : w.Reads s x) (hs : ∀ b ∈ s, b ≠ 0) {ws : List Span}
    (hmem : w ∈ ws) (hws : ∀ w' ∈ ws, ∃ x', w'.Reads s x') :
    Sh.cstring (ws.foldl Span.close (buffer s)) s.length w.q = x := by
  have hfirst : (range' w.q x.length).map (ws.foldl Span.close (buffer s)) = x := by
    refine ext_getElem (by simp) fun i _ hi => ?_
    have hout : w.q + i ∉ ws.map Span.eq := by
      intro hin
      obtain ⟨w', hw', heq⟩ := mem_map.mp hin
      obtain ⟨x', hx'⟩ := hws w' hw'
      exact h.inside hx' hi heq.symm
    rw [getElem_map, getElem_range', Nat.one_mul, close_foldl, if_neg hout, buffer,
      getD_eq_getElem?_getD, h.getD hi]
    rfl
  have hlast : ((range' w.eq (s.length - w.eq)).map
      (ws.foldl Span.close (buffer s))).takeWhile (fun b => b ≠ 0) = [] := by
    have hzero : ws.foldl Span.close (buffer s) w.eq = 0 := by
      rw [close_foldl, if_pos (mem_map_of_mem hmem)]
    cases s.length - w.eq with
    | zero => rfl
    | succ k =>
      rw [range'_succ, map_cons, hzero]
      rfl
  have hsplit : range' w.q (s.length - w.q) =
      range' w.q x.length ++ range' w.eq (s.length - w.eq) := by
    have hle := h.le
    have hlen := h.length
    rw [← hlen, range'_append_1]
    congr 1
    omega
  have hnonzero : ∀ b ∈ x, (decide (b ≠ 0)) = true := by
    intro b hb
    refine decide_eq_true (hs b (mem_of_mem_drop (i := w.q) ?_))
    rw [h.drop]
    exact mem_append_left _ hb
  rw [Sh.cstring, hsplit, map_append, hfirst, takeWhile_append_of_pos hnonzero, hlast, append_nil]

theorem Cmd.Rel.map_eq {cmd : Cmd Span} {tree : Cmd Word} (h : Cmd.Rel (Span.Reads s) cmd tree)
    {f : Span → Word} (hf : ∀ w ∈ cmd.words, ∀ x, w.Reads s x → f w = x) : cmd.map f = tree := by
  induction h with
  | @exec argv argv' hargv =>
    rw [Cmd.map]
    congr 1
    induction hargv with
    | nil => rfl
    | cons hw _ ih =>
      rw [map_cons, hf _ mem_cons_self _ hw]
      exact congrArg _ (ih fun w hmem => hf w (mem_cons_of_mem _ hmem))
  | redir _ hw ih =>
    rw [Cmd.map, hf _ (mem_append_right _ (mem_singleton_self _)) _ hw,
      ih fun w hmem => hf w (mem_append_left _ hmem)]
  | pipe _ _ ihl ihr | list _ _ ihl ihr =>
    rw [Cmd.map, ihl fun w hmem => hf w (mem_append_left _ hmem),
      ihr fun w hmem => hf w (mem_append_right _ hmem)]
  | back _ ih => rw [Cmd.map, ih hf]

end Strings

section Result

variable {s : List UInt8} {w : Span} {x : Word}

theorem tokens_length (s : List UInt8) : (tokens s).length ≤ s.length := by
  fun_induction tokens s with
  | case1 => exact le_rfl
  | case2 b r _ ih => exact ih.trans (Nat.le_succ _)
  | case3 b r _ t _ ih => exact Nat.succ_le_succ ih
  | case4 r _ _ _ ih =>
    rw [length_cons, length_cons]
    have := length_tail (l := r)
    omega
  | case5 r _ _ _ ih => exact Nat.succ_le_succ ih
  | case6 b r _ _ _ ih =>
    rw [length_cons, length_cons]
    have := (dropWhile_suffix (l := r) wordByte).length_le
    omega

theorem Cmd.Rel.words_read {cmd : Cmd Span} {tree : Cmd Word}
    (h : Cmd.Rel (Span.Reads s) cmd tree) : ∀ w ∈ cmd.words, ∃ x, w.Reads s x := by
  induction h with
  | @exec argv argv' hargv =>
    rw [Cmd.words]
    induction hargv with
    | nil => intro w hw; cases hw
    | cons hx _ ih =>
      intro w hw
      rcases mem_cons.mp hw with rfl | hw
      · exact ⟨_, hx⟩
      · exact ih w hw
  | redir _ hx ih =>
    intro w hw
    rcases mem_append.mp hw with hw | hw
    · exact ih w hw
    · obtain rfl := mem_singleton.mp hw
      exact ⟨_, hx⟩
  | pipe _ _ ihl ihr | list _ _ ihl ihr =>
    intro w hw
    exact (mem_append.mp hw).elim (ihl w) (ihr w)
  | back _ ih => exact ih

theorem Cmd.Rel.strings {cmd : Cmd Span} {tree : Cmd Word} (hs : ∀ b ∈ s, b ≠ 0)
    (h : Cmd.Rel (Span.Reads s) cmd tree) :
    cmd.map (fun w => cstring (nulterminate cmd (buffer s)) s.length w.q) = tree := by
  rw [nulterminate_eq]
  exact h.map_eq fun w hw x hx => hx.cstring hs hw h.words_read

theorem leftovers_iff {c : Cursor} {ts : List Tok} (hs : ∀ b ∈ s, b ≠ 0) (h : Ahead s c ts) :
    (sh.peek c []).2.pos = s.length ↔ ts = [] := by
  obtain ⟨-, hin, htok⟩ := (sh_sim hs).peek h [] (nil_subset _)
  have hts : tokens (sh.peek c []).2.rest = ts := htok
  have hhead := Cursor.skip_head c.rest c.pos
  have hrest : (sh.peek c []).2.rest = [] ↔ ts = [] := by
    constructor
    · intro hnil
      rw [← hts, hnil, tokens]
    · intro hnil
      cases hr : (sh.peek c []).2.rest with
      | nil => rfl
      | cons b r =>
        have hcons : Cursor.In s ⟨(sh.peek c []).2.pos, b :: r⟩ := by rw [← hr]; exact hin
        have hspace : b ∉ whitespace := hhead b (by
          have hr' : (Cursor.skip c.pos c.rest).rest = b :: r := hr
          rw [hr']
          rfl)
        obtain ⟨t, _, hsw⟩ := switched hcons (hs b hcons.mem) hspace
        rw [hr, hsw.tokens, hnil] at hts
        cases hts
  rw [← hrest, ← hin.drop, drop_eq_nil_iff]
  have := hin.le
  omega

theorem parseline_agree (hs : ∀ b ∈ s, b ≠ 0) :
    Agree (Ahead s) (Span.Reads s) (parseline sh (4 * s.length + 4) ⟨0, s⟩)
      (parseline toks (4 * s.length + 4) (tokens s)) :=
  (sh_sim hs).parseline _ ⟨⟨rfl, Nat.zero_le _⟩, rfl⟩

theorem parseline_total (s : List UInt8) :
    parseline toks (4 * s.length + 4) (tokens s) ≠ .error .fuel := by
  have := tokens_length s
  exact total (by omega)

theorem derives_parseline {tree : Cmd Word} (h : Derives .line (tokens s) tree) :
    parseline toks (4 * s.length + 4) (tokens s) = .ok (tree, []) := by
  have hgives := complete h (4 * s.length + 4) [] starts_nil
  rw [append_nil] at hgives
  exact hgives.resolve_right (parseline_total s)

/-- The parser accepts exactly its grammar: it returns or panics, it returns exactly when the
tokens of the line have a derivation, and then the tree, with its strings, is the derived one. -/
theorem parsecmd_grammar (s : List UInt8) (hs : ∀ b ∈ s, b ≠ 0) :
    ((∃ cmd buf, parsecmd s = .ok (cmd, buf)) ∨ ∃ p, parsecmd s = .error (.panic p)) ∧
    ((∃ cmd buf, parsecmd s = .ok (cmd, buf)) ↔ ∃ tree, Derives .line (tokens s) tree) ∧
    ∀ cmd buf, parsecmd s = .ok (cmd, buf) → ∀ tree, Derives .line (tokens s) tree ↔
      cmd.map (fun w => cstring buf s.length w.q) = tree := by
  have hagree := parseline_agree hs
  have htotal := parseline_total s
  have hderives := @derives_parseline s
  rw [parsecmd]
  generalize parseline sh (4 * s.length + 4) ⟨0, s⟩ = x at hagree
  generalize hy : parseline toks (4 * s.length + 4) (tokens s) = y at hagree htotal hderives
  cases hagree with
  | error e =>
    have hno : ∀ tree, ¬ Derives .line (tokens s) tree := fun tree h => by cases hderives h
    have hpanic : ∃ p, e = .panic p := by
      cases e with
      | panic p => exact ⟨p, rfl⟩
      | fuel => exact absurd rfl htotal
    obtain ⟨p, rfl⟩ := hpanic
    refine ⟨.inr ⟨p, rfl⟩, ⟨?_, ?_⟩, ?_⟩
    · rintro ⟨cmd, buf, h⟩; cases h
    · rintro ⟨tree, h⟩; exact absurd h (hno tree)
    · intro cmd buf h; cases h
  | @ok cmd tree c rest hrel hahead =>
    obtain ⟨us, hus, hder⟩ := sound hy
    by_cases hrest : rest = []
    · subst hrest
      rw [append_nil] at hus
      subst hus
      have hpos := (leftovers_iff hs hahead).mpr rfl
      have hres : (Except.ok (cmd, c) >>= finish s) = .ok (cmd, nulterminate cmd (buffer s)) :=
        if_neg (not_not.mpr hpos)
      rw [hres]
      refine ⟨.inl ⟨_, _, rfl⟩, iff_of_true ⟨_, _, rfl⟩ ⟨tree, hder⟩, ?_⟩
      intro cmd' buf' h tree'
      cases h
      rw [hrel.strings hs]
      constructor
      · intro h
        exact congrArg Prod.fst (Except.ok.inj (hderives h))
      · rintro rfl
        exact hder
    · have hpos : (sh.peek c []).2.pos ≠ s.length := fun h =>
        hrest ((leftovers_iff hs hahead).mp h)
      have hno : ∀ tree, ¬ Derives .line (tokens s) tree := fun tree h =>
        hrest (congrArg Prod.snd (Except.ok.inj (hderives h)))
      have hres : (Except.ok (cmd, c) >>= finish s) = .error (.panic .unexpected) := if_pos hpos
      rw [hres]
      refine ⟨.inr ⟨_, rfl⟩, ⟨?_, ?_⟩, ?_⟩
      · rintro ⟨cmd, buf, h⟩; cases h
      · rintro ⟨tree, h⟩; exact absurd h (hno tree)
      · intro cmd buf h; cases h

/-- The line `a|b`. -/
theorem parsecmd_grammar_pipe : (∀ b ∈ [97, bar, 98], b ≠ 0) ∧
    Derives .line (tokens [97, bar, 98]) (.pipe (.exec [[97]]) (.exec [[98]])) ∧
    ∃ cmd buf, parsecmd [97, bar, 98] = .ok (cmd, buf) ∧
      cmd.map (fun w => cstring buf 3 w.q) = .pipe (.exec [[97]]) (.exec [[98]]) := by
  have hs : ∀ b ∈ [97, bar, 98], b ≠ 0 := by simp [bar]
  have hder : Derives .line (tokens [97, bar, 98]) (.pipe (.exec [[97]]) (.exec [[98]])) := by
    have htok : tokens [97, bar, 98] = [.word [97], .bar, .word [98]] := by
      rw [tokens_word (by decide)]
      have hrest : List.dropWhile wordByte [bar, 98] = [bar, 98] := by decide
      rw [hrest, tokens_oneByte (by decide) rfl, tokens_word (by decide)]
      simp only [takeWhile_nil, dropWhile_nil, tokens]
      rfl
    rw [htok]
    exact .line 0 (.pipes (.simple [] [([97], [])] (by decide))
      (.pipe (.simple [] [([98], [])] (by decide))))
  obtain ⟨_, hiff, htree⟩ := parsecmd_grammar [97, bar, 98] hs
  obtain ⟨cmd, buf, hok⟩ := hiff.mpr ⟨_, hder⟩
  exact ⟨hs, hder, cmd, buf, hok, (htree cmd buf hok _).mp hder⟩

def Cmd.execs {α : Type} : Cmd α → List (List α)
  | .exec argv => [argv]
  | .redir cmd _ _ _ => cmd.execs
  | .pipe left right => left.execs ++ right.execs
  | .list left right => left.execs ++ right.execs
  | .back cmd => cmd.execs

theorem Cmd.execs_back {α : Type} (c : Cmd α) : ∀ n : Nat, (Cmd.back^[n] c).execs = c.execs := by
  intro n
  induction n with
  | zero => rfl
  | succ n ih => rw [Function.iterate_succ_apply', Cmd.execs, ih]

theorem Cmd.execs_wrap (rs : List Redir) : ∀ c : Cmd Word, (wrap rs c).execs = c.execs := by
  induction rs with
  | nil => intro c; rfl
  | cons r rs ih => intro c; exact ih (r.wrap c)

theorem Derives.execs_lt {nt : Nonterminal} {ts : List Tok} {c : Cmd Word} (h : Derives nt ts c) :
    ∀ argv ∈ c.execs, argv.length < MAXARGS := by
  induction h with
  | line n _ ih => rw [Cmd.execs_back]; exact ih
  | lines n _ _ ihc ihd =>
    rw [Cmd.execs, Cmd.execs_back]
    exact fun argv hargv => (mem_append.mp hargv).elim (ihc argv) (ihd argv)
  | pipe _ ih => exact ih
  | pipes _ _ ihc ihd =>
    rw [Cmd.execs]
    exact fun argv hargv => (mem_append.mp hargv).elim (ihc argv) (ihd argv)
  | block rs _ ih => rw [Cmd.execs_wrap]; exact ih
  | simple rs ws hlen =>
    rw [Cmd.execs_wrap, Cmd.execs]
    intro argv hargv
    rw [mem_singleton.mp hargv, length_map]
    exact hlen

theorem Cmd.Rel.execs_length {α β : Type} {W : α → β → Prop} {c : Cmd α} {c' : Cmd β}
    (h : Cmd.Rel W c c') : c.execs.map List.length = c'.execs.map List.length := by
  induction h with
  | exec hargv => simp only [Cmd.execs, map_cons, map_nil, hargv.length_eq]
  | redir _ _ ih => exact ih
  | pipe _ _ ihl ihr => rw [Cmd.execs, Cmd.execs, map_append, map_append, ihl, ihr]
  | list _ _ ihl ihr => rw [Cmd.execs, Cmd.execs, map_append, map_append, ihl, ihr]
  | back _ ih => exact ih

theorem parsecmd_ok (hs : ∀ b ∈ s, b ≠ 0) {cmd : Cmd Span} {buf : Nat → UInt8}
    (h : parsecmd s = .ok (cmd, buf)) :
    ∃ tree ts, Cmd.Rel (Span.Reads s) cmd tree ∧ Derives .line ts tree ∧
      buf = nulterminate cmd (buffer s) := by
  have hagree := parseline_agree hs
  rw [parsecmd] at h
  generalize parseline sh (4 * s.length + 4) ⟨0, s⟩ = x at hagree h
  generalize hy : parseline toks (4 * s.length + 4) (tokens s) = y at hagree
  cases hagree with
  | error e => cases h
  | @ok cmd' tree c rest hrel hahead =>
    obtain ⟨us, _, hder⟩ := sound hy
    have h : finish s (cmd', c) = .ok (cmd, buf) := h
    rw [finish] at h
    split at h
    · cases h
    · cases h
      exact ⟨tree, us, hrel, hder, rfl⟩

theorem Span.Reads.text (h : w.Reads s x) : (s.drop w.q).take (w.eq - w.q) = x := by
  have hlen : w.eq - w.q = x.length := by
    have := h.length
    omega
  rw [h.drop, hlen, List.take_left']
  rfl

/-- `nulterminate` keeps every word. In a line that is accepted, each argument and each file of a
redirection, read as a string, is the text that `gettoken` enclosed; each argument vector has its
null pointer within `MAXARGS` entries; and what is written are zeros behind the words, none of them
beyond the zero that ends the line. -/
theorem nulterminate_keeps_words (s : List UInt8) (hs : ∀ b ∈ s, b ≠ 0) (cmd : Cmd Span)
    (buf : Nat → UInt8) (hok : parsecmd s = .ok (cmd, buf)) : (∀ w ∈ cmd.words, w.q ≤ w.eq ∧
      cstring buf s.length w.q = (s.drop w.q).take (w.eq - w.q) ∧
      (∀ b ∈ (s.drop w.q).take (w.eq - w.q), wordByte b = true) ∧
      ∀ b ∈ (s.drop w.eq).head?, wordByte b = false) ∧
    (∀ argv ∈ cmd.execs, ∃ argc < MAXARGS, argv[argc]? = none ∧ ∀ i < argc, argv[i]? ≠ none) ∧
    (buf = (cmd.words.map Span.eq).foldl (fun b i => Function.update b i 0) (buffer s) ∧
      ∀ i ∈ cmd.words.map Span.eq, i ≤ s.length) := by
  obtain ⟨tree, ts, hrel, hder, rfl⟩ := parsecmd_ok hs hok
  have hread := hrel.words_read
  rw [nulterminate_eq]
  refine ⟨fun w hw => ?_, fun argv hargv => ?_, ?_, fun i hi => ?_⟩
  · obtain ⟨x, hx⟩ := hread w hw
    have hle : w.q ≤ w.eq := by
      have := hx.length
      omega
    rw [hx.text]
    exact ⟨hle, hx.cstring hs hw hread, hx.bytes, hx.stop⟩
  · have hmem : argv.length ∈ tree.execs.map List.length := by
      rw [← hrel.execs_length]
      exact mem_map_of_mem hargv
    obtain ⟨argv', hargv', hlen⟩ := mem_map.mp hmem
    have hlt : argv.length < MAXARGS := by
      rw [← hlen]
      exact hder.execs_lt argv' hargv'
    refine ⟨argv.length, hlt, getElem?_eq_none le_rfl, fun i hi => ?_⟩
    rw [getElem?_eq_getElem hi]
    exact Option.some_ne_none _
  · rw [foldl_map]
    rfl
  · obtain ⟨w, hw, rfl⟩ := mem_map.mp hi
    obtain ⟨x, hx⟩ := hread w hw
    exact hx.le

/-- In the line `a>b|c` the zeros fall on the two operators and behind the line. -/
theorem nulterminate_keeps_words_pipe : ∃ cmd buf, parsecmd [97, gt, 98, bar, 99] = .ok (cmd, buf) ∧
      cmd.words = [⟨0, 1⟩, ⟨2, 3⟩, ⟨4, 5⟩] ∧ cstring buf 5 0 = [97] ∧ cstring buf 5 2 = [98] := by
  have hs : ∀ b ∈ [97, gt, 98, bar, 99], b ≠ 0 := by simp [bar, gt]
  have hcmd : (parsecmd [97, gt, 98, bar, 99]).map Prod.fst =
      .ok (.pipe (.redir (.exec [⟨0, 1⟩]) ⟨2, 3⟩ (O_WRONLY ||| O_CREATE) 1) (.exec [⟨4, 5⟩])) := by
    decide +kernel
  cases hp : parsecmd [97, gt, 98, bar, 99] with
  | error e => rw [hp] at hcmd; cases hcmd
  | ok r =>
    rw [hp] at hcmd
    obtain ⟨cmd, buf⟩ := r
    obtain rfl := Except.ok.inj hcmd
    obtain ⟨hwords, _⟩ := nulterminate_keeps_words _ hs _ _ hp
    exact ⟨_, _, rfl, rfl, (hwords ⟨0, 1⟩ (by simp [Cmd.words])).2.1,
      (hwords ⟨2, 3⟩ (by simp [Cmd.words])).2.1⟩

end Result

end Xv6.Sh

import Mathlib.Data.List.DropRight
import Xv6.Sh.Parse

/-!
# Xv6.Sh.Lex

The tokens of a line, and the parser on tokens.

`tokens` says what the tokens are: words are maximal runs of bytes that are neither whitespace nor
symbols, and `>>` is one token. `toks` is the lexer whose cursor is the list of tokens to come. The
lexer of the source simulates it (`sh_sim`), and two lexers of which one simulates the other make
the parser do the same (`Sim.parseline`), so everything about the grammar is proved on tokens.
-/

namespace Xv6.Sh

open List

abbrev Word := List UInt8

inductive Tok where
  | word (w : Word)
  | lt | gt | gtgt | bar | amp | semi | lpar | rpar
  deriving DecidableEq, Repr

/-- The symbols that are tokens by themselves. -/
def oneByte (b : UInt8) : Option Tok :=
  if b = Sh.lt then some .lt
  else if b = Sh.bar then some .bar
  else if b = Sh.amp then some .amp
  else if b = Sh.semi then some .semi
  else if b = Sh.lpar then some .lpar
  else if b = Sh.rpar then some .rpar
  else none

def tokens : List UInt8 → List Tok
  | [] => []
  | b :: r =>
    if b ∈ whitespace then tokens r
    else
      match oneByte b with
      | some t => t :: tokens r
      | none =>
        if b = Sh.gt then
          if r.head? = some Sh.gt then .gtgt :: tokens r.tail else .gt :: tokens r
        else .word (b :: r.takeWhile wordByte) :: tokens (r.dropWhile wordByte)
termination_by l => l.length
decreasing_by
  all_goals simp only [List.length_cons, List.length_tail]
  all_goals first
    | omega
    | exact Nat.lt_succ_of_le (List.dropWhile_suffix _).length_le

namespace Tok

/-- The first byte; any byte that is no symbol stands for a word's. -/
def lead : Tok → UInt8
  | word _ => chr_a
  | lt => Sh.lt
  | gt => Sh.gt
  | gtgt => Sh.gt
  | bar => Sh.bar
  | amp => Sh.amp
  | semi => Sh.semi
  | lpar => Sh.lpar
  | rpar => Sh.rpar

/-- What `gettoken` returns. -/
def code : Tok → UInt8
  | gtgt => plus
  | t => t.lead

def text : Tok → Word
  | word w => w
  | _ => []

end Tok

def toks : Lexer (List Tok) Word where
  peek ts set := (ts.head?.any fun t => t.lead ∈ set, ts)
  gettoken ts :=
    match ts with
    | [] => ⟨0, [], []⟩
    | t :: ts => ⟨t.code, t.text, ts⟩

variable {σ τ α β : Type}

/-- Two trees of the same shape, with related words. -/
inductive Cmd.Rel (W : α → β → Prop) : Cmd α → Cmd β → Prop where
  | exec {argv : List α} {argv' : List β} : List.Forall₂ W argv argv' →
      Rel W (.exec argv) (.exec argv')
  | redir {c : Cmd α} {c' : Cmd β} {f : α} {f' : β} {mode fd : Nat} : Rel W c c' → W f f' →
      Rel W (.redir c f mode fd) (.redir c' f' mode fd)
  | pipe {l r : Cmd α} {l' r' : Cmd β} : Rel W l l' → Rel W r r' → Rel W (.pipe l r) (.pipe l' r')
  | list {l r : Cmd α} {l' r' : Cmd β} : Rel W l l' → Rel W r r' → Rel W (.list l r) (.list l' r')
  | back {c : Cmd α} {c' : Cmd β} : Rel W c c' → Rel W (.back c) (.back c')

theorem Cmd.Rel.addArg {W : α → β → Prop} {c : Cmd α} {c' : Cmd β} {w : α} {w' : β}
    (h : Cmd.Rel W c c') (hw : W w w') : Cmd.Rel W (c.addArg w) (c'.addArg w') := by
  induction h with
  | exec h => exact .exec (rel_append h (.cons hw .nil))
  | redir _ hf ih => exact .redir ih hf
  | pipe hl hr => exact .pipe hl hr
  | list hl hr => exact .list hl hr
  | back hc => exact .back hc

theorem Cmd.Rel.redirect {W : α → β → Prop} {c : Cmd α} {c' : Cmd β} {f : α} {f' : β} (tok : UInt8)
    (h : Cmd.Rel W c c') (hf : W f f') : Cmd.Rel W (redirect tok c f) (redirect tok c' f') := by
  simp only [Sh.redirect]
  split
  · exact .redir h hf
  · split
    · exact .redir h hf
    · split
      · exact .redir h hf
      · exact h

/-- The same panic, or related trees at related cursors. -/
inductive Agree (R : σ → τ → Prop) (W : α → β → Prop) :
    Except Stop (Cmd α × σ) → Except Stop (Cmd β × τ) → Prop where
  | error (e : Stop) : Agree R W (.error e) (.error e)
  | ok {c : Cmd α} {c' : Cmd β} {s : σ} {t : τ} : Cmd.Rel W c c' → R s t →
      Agree R W (.ok (c, s)) (.ok (c', t))

theorem Agree.bind {R : σ → τ → Prop} {W : α → β → Prop} {x : Except Stop (Cmd α × σ)}
    {y : Except Stop (Cmd β × τ)} {f : Cmd α × σ → Except Stop (Cmd α × σ)}
    {g : Cmd β × τ → Except Stop (Cmd β × τ)} (h : Agree R W x y)
    (hf : ∀ r r', Cmd.Rel W r.1 r'.1 → R r.2 r'.2 → Agree R W (f r) (g r')) :
    Agree R W (x >>= f) (y >>= g) := by
  cases h with
  | error e => exact .error e
  | ok hc hs => exact hf _ _ hc hs

/-- `lx` does on its cursors what `ly` does on related ones. -/
structure Sim (lx : Lexer σ α) (ly : Lexer τ β) (R : σ → τ → Prop) (W : α → β → Prop) : Prop where
  peek : ∀ {c t}, R c t → ∀ set ⊆ symbols, (lx.peek c set).1 = (ly.peek t set).1 ∧
    R (lx.peek c set).2 (ly.peek t set).2
  gettoken : ∀ {c t}, R c t → (lx.gettoken c).tok = (ly.gettoken t).tok ∧
    R (lx.gettoken c).next (ly.gettoken t).next ∧
    ((ly.gettoken t).tok = chr_a → W (lx.gettoken c).word (ly.gettoken t).word)

namespace Sim

variable {lx : Lexer σ α} {ly : Lexer τ β} {R : σ → τ → Prop} {W : α → β → Prop}

theorem parseredirs (h : Sim lx ly R W) : ∀ (n : Nat) {cmd : Cmd α} {cmd' : Cmd β} {c : σ} {t : τ},
    Cmd.Rel W cmd cmd' → R c t →
    Agree R W (parseredirs lx n cmd c) (parseredirs ly n cmd' t) := by
  intro n
  induction n with
  | zero => intro _ _ _ _ _ _; exact .error .fuel
  | succ n ih =>
    intro cmd cmd' c t hcmd hc
    obtain ⟨hp, hc⟩ := h.peek hc [Sh.lt, Sh.gt] (by decide)
    simp only [Sh.parseredirs, hp]
    split
    · obtain ⟨htok, hc, _⟩ := h.gettoken hc
      obtain ⟨hf, hc, hw⟩ := h.gettoken hc
      simp only [hf]
      split
      · exact .error _
      · next ha =>
        rw [htok]
        exact ih (hcmd.redirect _ (hw (not_not.mp ha))) hc
    · exact .ok hcmd hc

theorem parseargs (h : Sim lx ly R W) : ∀ (n argc : Nat) {cmd : Cmd α} {cmd' : Cmd β} {c : σ}
    {t : τ}, Cmd.Rel W cmd cmd' → R c t →
    Agree R W (parseargs lx n argc cmd c) (parseargs ly n argc cmd' t) := by
  intro n
  induction n with
  | zero => intro _ _ _ _ _ _ _; exact .error .fuel
  | succ n ih =>
    intro argc cmd cmd' c t hcmd hc
    obtain ⟨hp, hc⟩ := h.peek hc [Sh.bar, Sh.rpar, Sh.amp, Sh.semi] (by decide)
    simp only [Sh.parseargs, hp]
    split
    · exact .ok hcmd hc
    · obtain ⟨htok, hc, hw⟩ := h.gettoken hc
      simp only [htok]
      split
      · exact .ok hcmd hc
      · split
        · exact .error _
        · next ha =>
          split
          · exact .error _
          · exact (h.parseredirs n (hcmd.addArg (hw (not_not.mp ha))) hc).bind
              fun _ _ hcmd hc => ih _ hcmd hc

theorem parsebacks (h : Sim lx ly R W) : ∀ (n : Nat) {cmd : Cmd α} {cmd' : Cmd β} {c : σ} {t : τ},
    Cmd.Rel W cmd cmd' → R c t →
    Agree R W (parsebacks lx n cmd c) (parsebacks ly n cmd' t) := by
  intro n
  induction n with
  | zero => intro _ _ _ _ _ _; exact .error .fuel
  | succ n ih =>
    intro cmd cmd' c t hcmd hc
    obtain ⟨hp, hc⟩ := h.peek hc [Sh.amp] (by decide)
    simp only [Sh.parsebacks, hp]
    split
    · exact ih hcmd.back (h.gettoken hc).2.1
    · exact .ok hcmd hc

theorem procedures (h : Sim lx ly R W) : ∀ (n : Nat) {c : σ} {t : τ}, R c t →
    Agree R W (parseline lx n c) (parseline ly n t) ∧
    Agree R W (parsepipe lx n c) (parsepipe ly n t) ∧
    Agree R W (parseblock lx n c) (parseblock ly n t) ∧
    Agree R W (parseexec lx n c) (parseexec ly n t) := by
  intro n
  induction n with
  | zero =>
    intro c t _
    simp only [parseline, parsepipe, parseblock, parseexec]
    exact ⟨.error _, .error _, .error _, .error _⟩
  | succ n ih =>
    intro c t hc
    refine ⟨?_, ?_, ?_, ?_⟩
    · simp only [parseline]
      refine (ih hc).2.1.bind fun r r' hcmd hc => ?_
      refine (h.parsebacks n hcmd hc).bind fun r r' hcmd hc => ?_
      obtain ⟨hp, hc⟩ := h.peek hc [Sh.semi] (by decide)
      simp only [hp]
      split
      · exact (ih (h.gettoken hc).2.1).1.bind fun _ _ hl hc => .ok (.list hcmd hl) hc
      · exact .ok hcmd hc
    · simp only [parsepipe]
      refine (ih hc).2.2.2.bind fun r r' hcmd hc => ?_
      obtain ⟨hp, hc⟩ := h.peek hc [Sh.bar] (by decide)
      simp only [hp]
      split
      · exact (ih (h.gettoken hc).2.1).2.1.bind fun _ _ hl hc => .ok (.pipe hcmd hl) hc
      · exact .ok hcmd hc
    · obtain ⟨hp, hc⟩ := h.peek hc [Sh.lpar] (by decide)
      simp only [parseblock, hp]
      split
      · exact .error _
      · refine (ih (h.gettoken hc).2.1).1.bind fun r r' hcmd hc => ?_
        obtain ⟨hp, hc⟩ := h.peek hc [Sh.rpar] (by decide)
        simp only [hp]
        split
        · exact .error _
        · exact h.parseredirs n hcmd (h.gettoken hc).2.1
    · obtain ⟨hp, hc⟩ := h.peek hc [Sh.lpar] (by decide)
      simp only [parseexec, hp]
      split
      · exact (ih hc).2.2.1
      · exact (h.parseredirs n (.exec .nil) hc).bind fun _ _ hcmd hc => h.parseargs n 0 hcmd hc

theorem parseline (h : Sim lx ly R W) (n : Nat) {c : σ} {t : τ} (hc : R c t) :
    Agree R W (Sh.parseline lx n c) (Sh.parseline ly n t) :=
  (h.procedures n hc).1

end Sim

section Source

variable {s : List UInt8} {p : Nat} {r : List UInt8} {b : UInt8}

/-- A cursor into the line `s`. -/
structure Cursor.In (s : List UInt8) (c : Cursor) : Prop where
  drop : s.drop c.pos = c.rest
  le : c.pos ≤ s.length

/-- The pointers `w` enclose the word `x`, and no longer one. -/
structure Span.Reads (s : List UInt8) (w : Span) (x : Word) : Prop where
  drop : s.drop w.q = x ++ s.drop w.eq
  length : w.q + x.length = w.eq
  le : w.eq ≤ s.length
  bytes : ∀ b ∈ x, wordByte b = true
  stop : ∀ b ∈ (s.drop w.eq).head?, wordByte b = false

/-- At `c` the tokens `ts` are still to come. -/
structure Ahead (s : List UInt8) (c : Cursor) (ts : List Tok) : Prop where
  at_ : c.In s
  tokens : tokens c.rest = ts

namespace Cursor

theorem In.tail (h : In s ⟨p, b :: r⟩) : In s ⟨p + 1, r⟩ := by
  have hdrop : s.drop p = b :: r := h.drop
  have hlt : p < s.length := by
    by_contra hge
    rw [drop_eq_nil_of_le (not_lt.mp hge)] at hdrop
    cases hdrop
  exact ⟨by rw [← drop_drop, hdrop]; rfl, hlt⟩

theorem In.mem (h : In s ⟨p, b :: r⟩) : b ∈ s := by
  have hdrop : s.drop p = b :: r := h.drop
  have hmem : b ∈ s.drop p := by rw [hdrop]; exact mem_cons_self
  exact mem_of_mem_drop hmem

theorem In.skip : ∀ (r : List UInt8) (p : Nat), In s ⟨p, r⟩ → In s (skip p r) := by
  intro r
  induction r with
  | nil => intro p h; exact h
  | cons b r ih =>
    intro p h
    rw [Cursor.skip]
    split
    · exact ih (p + 1) h.tail
    · exact h

theorem tokens_skip (r : List UInt8) : ∀ p, Sh.tokens (skip p r).rest = Sh.tokens r := by
  induction r with
  | nil => intro p; rfl
  | cons b r ih =>
    intro p
    rw [skip]
    split
    · next hb => rw [ih, Sh.tokens, if_pos hb]
    · rfl

theorem skip_head (r : List UInt8) : ∀ p, ∀ b ∈ (skip p r).rest.head?, b ∉ whitespace := by
  induction r with
  | nil => intro p b hb; cases hb
  | cons x r ih =>
    intro p b hb
    rw [skip] at hb
    split at hb
    · exact ih _ b hb
    · next hx =>
      obtain rfl : x = b := Option.some.inj hb
      exact hx

theorem word_rest (r : List UInt8) : ∀ p, (word p r).rest = r.dropWhile wordByte := by
  induction r with
  | nil => intro p; rfl
  | cons b r ih =>
    intro p
    rw [word, dropWhile_cons]
    split
    · exact ih _
    · rfl

theorem word_pos (r : List UInt8) : ∀ p, (word p r).pos = p + (r.takeWhile wordByte).length := by
  induction r with
  | nil => intro p; rfl
  | cons b r ih =>
    intro p
    rw [word, takeWhile_cons]
    split
    · rw [ih, length_cons]; omega
    · rfl

theorem In.word : ∀ (r : List UInt8) (p : Nat), In s ⟨p, r⟩ → In s (word p r) := by
  intro r
  induction r with
  | nil => intro p h; exact h
  | cons b r ih =>
    intro p h
    rw [Cursor.word]
    split
    · exact ih (p + 1) h.tail
    · exact h

theorem word_reads (h : In s ⟨p, r⟩) : Span.Reads s ⟨p, (word p r).pos⟩ (r.takeWhile wordByte) where
  drop := by
    have hw := (h.word r p).drop
    rw [word_rest] at hw
    rw [h.drop, hw, takeWhile_append_dropWhile]
  length := (word_pos r p).symm
  le := (h.word r p).le
  bytes := fun b hb => mem_takeWhile_imp hb
  stop := by
    intro b hb
    rw [(h.word r p).drop, word_rest] at hb
    have := List.head?_dropWhile_not wordByte r
    rw [hb] at this
    simpa using this

end Cursor

theorem wordByte_iff : wordByte b = true ↔ b ∉ whitespace ∧ b ∉ symbols := by
  simp [wordByte]

theorem tokens_oneByte {t : Tok} (hw : b ∉ whitespace) (h : oneByte b = some t) :
    tokens (b :: r) = t :: tokens r := by
  rw [tokens, if_neg hw, h]

theorem tokens_gt : tokens (Sh.gt :: r) =
    if r.head? = some Sh.gt then .gtgt :: tokens r.tail else .gt :: tokens r := by
  rw [tokens, if_neg (by decide)]
  rfl

theorem tokens_word (h : wordByte b = true) :
    tokens (b :: r) = .word (b :: r.takeWhile wordByte) :: tokens (r.dropWhile wordByte) := by
  obtain ⟨hw, hs⟩ := wordByte_iff.mp h
  simp only [symbols, mem_cons, not_mem_nil, or_false, not_or] at hs
  obtain ⟨h1, h2, h3, h4, h5, h6, h7⟩ := hs
  have hnone : oneByte b = none := by
    simp only [oneByte, h1, h2, h4, h5, h6, h7, if_false]
  rw [tokens, if_neg hw, hnone]
  simp only [h3, if_false]

/-- What `gettoken` makes of the bytes `b :: r` at `p`: the token `t`, which the cursor `c`
follows. -/
structure Switched (s : List UInt8) (p : Nat) (b : UInt8) (r : List UInt8) (t : Tok) (c : Cursor) :
    Prop where
  tokens : tokens (b :: r) = t :: tokens c.rest
  result : Cursor.switch p (b :: r) = (t.code, c)
  at_ : c.In s
  reads : t.code = chr_a → Span.Reads s ⟨p, c.pos⟩ t.text
  lead : ∀ set ⊆ symbols, (b ∈ set ↔ t.lead ∈ set)

theorem switched_oneByte {t : Tok} (h : Cursor.In s ⟨p, b :: r⟩) (hw : b ∉ whitespace)
    (ht : oneByte b = some t)
    (hb : b = Sh.bar ∨ b = Sh.lpar ∨ b = Sh.rpar ∨ b = Sh.semi ∨ b = Sh.amp ∨ b = Sh.lt) :
    Switched s p b r t ⟨p + 1, r⟩ := by
  have hzero : b ≠ 0 := by rcases hb with rfl | rfl | rfl | rfl | rfl | rfl <;> decide
  have hcode : t.code = b ∧ t.lead = b := by
    rcases hb with rfl | rfl | rfl | rfl | rfl | rfl <;>
      exact Option.some.inj ht ▸ ⟨rfl, rfl⟩
  refine ⟨tokens_oneByte hw ht, ?_, h.tail, fun ha => ?_, fun set _ => by rw [hcode.2]⟩
  · rw [Cursor.switch, if_neg hzero, if_pos hb, hcode.1]
  · obtain rfl : b = chr_a := hcode.1.symm.trans ha
    exact absurd hb (by decide)

theorem switched_gt (h : Cursor.In s ⟨p, Sh.gt :: r⟩) : ∃ t c, Switched s p Sh.gt r t c := by
  by_cases hr : r.head? = some Sh.gt
  · obtain ⟨r', rfl⟩ : ∃ r', r = Sh.gt :: r' := by
      cases r with
      | nil => cases hr
      | cons x r' => exact ⟨r', by rw [Option.some.inj hr]⟩
    refine ⟨.gtgt, ⟨p + 2, r'⟩, ?_, ?_, h.tail.tail, fun ha => ?_, fun set _ => Iff.rfl⟩
    · rw [tokens_gt, if_pos hr]; rfl
    · rfl
    · exact absurd ha (by decide)
  · refine ⟨.gt, ⟨p + 1, r⟩, ?_, ?_, h.tail, fun ha => ?_, fun set _ => Iff.rfl⟩
    · rw [tokens_gt, if_neg hr]
    · rw [Cursor.switch, if_neg (by decide), if_neg (by decide), if_pos rfl, if_neg hr]; rfl
    · exact absurd ha (by decide)

theorem switched_word (h : Cursor.In s ⟨p, b :: r⟩) (hb : b ≠ 0) (hw : wordByte b = true) :
    ∃ t c, Switched s p b r t c := by
  obtain ⟨_, hs⟩ := wordByte_iff.mp hw
  have hne : ∀ x ∈ symbols, b ≠ x := fun x hx heq => hs (heq ▸ hx)
  have htake : (b :: r).takeWhile wordByte = b :: r.takeWhile wordByte := by
    rw [takeWhile_cons, if_pos hw]
  refine ⟨.word (b :: r.takeWhile wordByte), Cursor.word p (b :: r), ?_, ?_, h.word _ _,
    fun _ => ?_, fun set hset => ?_⟩
  · rw [tokens_word hw, Cursor.word_rest, dropWhile_cons, if_pos hw]
  · have hsix : ¬ (b = Sh.bar ∨ b = Sh.lpar ∨ b = Sh.rpar ∨ b = Sh.semi ∨ b = Sh.amp ∨
        b = Sh.lt) := by
      rintro (h | h | h | h | h | h)
      all_goals exact hne _ (by decide) h
    rw [Cursor.switch, if_neg hb, if_neg hsix, if_neg (hne Sh.gt (by decide))]
    rfl
  · have := Cursor.word_reads h
    rw [htake] at this
    exact this
  · exact iff_of_false (fun hmem => hs (hset hmem))
      fun hmem => absurd (hset hmem) (show chr_a ∉ symbols by decide)

theorem switched (h : Cursor.In s ⟨p, b :: r⟩) (hb : b ≠ 0) (hw : b ∉ whitespace) :
    ∃ t c, Switched s p b r t c := by
  by_cases hs : b ∈ symbols
  · simp only [symbols, mem_cons, not_mem_nil, or_false] at hs
    rcases hs with rfl | rfl | rfl | rfl | rfl | rfl | rfl
    · exact ⟨_, _, switched_oneByte h hw rfl (by decide)⟩
    · exact ⟨_, _, switched_oneByte h hw rfl (by decide)⟩
    · exact switched_gt h
    · exact ⟨_, _, switched_oneByte h hw rfl (by decide)⟩
    · exact ⟨_, _, switched_oneByte h hw rfl (by decide)⟩
    · exact ⟨_, _, switched_oneByte h hw rfl (by decide)⟩
    · exact ⟨_, _, switched_oneByte h hw rfl (by decide)⟩
  · exact switched_word h hb (wordByte_iff.mpr ⟨hw, hs⟩)

theorem sh_sim (hs : ∀ b ∈ s, b ≠ 0) : Sim sh toks (Ahead s) (Span.Reads s) where
  peek := by
    rintro ⟨p, r⟩ ts ⟨hin, htok⟩ set hset
    have hskip := hin.skip r p
    refine ⟨?_, hskip, (Cursor.tokens_skip r p).trans htok⟩
    simp only [sh, toks, Cursor.peek]
    have hts := (Cursor.tokens_skip r p).trans htok
    have hhead := Cursor.skip_head r p
    cases hc : Cursor.skip p r with
    | mk p' r' =>
      rw [hc] at hskip hts hhead
      cases r' with
      | nil =>
        have hnil : tokens [] = ts := hts
        rw [← hnil, tokens]
        rfl
      | cons b r' =>
        have hb : b ≠ 0 := hs b hskip.mem
        obtain ⟨t, c, hsw⟩ := switched hskip hb (hhead b rfl)
        have hcons : t :: tokens c.rest = ts := hsw.tokens.symm.trans hts
        rw [← hcons]
        simp [hb, hsw.lead set hset]
  gettoken := by
    rintro ⟨p, r⟩ ts ⟨hin, htok⟩
    have hskip := hin.skip r p
    have hts := (Cursor.tokens_skip r p).trans htok
    have hhead := Cursor.skip_head r p
    simp only [sh, Cursor.gettoken]
    cases hc : Cursor.skip p r with
    | mk p' r' =>
      rw [hc] at hskip hts hhead
      cases r' with
      | nil =>
        have hnil : tokens [] = ts := hts
        rw [tokens] at hnil
        subst hnil
        exact ⟨rfl, ⟨hskip, by rw [Cursor.switch, Cursor.skip, tokens]; rfl⟩,
          fun h => absurd h (show (0 : UInt8) ≠ chr_a by decide)⟩
      | cons b r' =>
        have hb : b ≠ 0 := hs b hskip.mem
        obtain ⟨t, c, hsw⟩ := switched hskip hb (hhead b rfl)
        have hcons : t :: tokens c.rest = ts := hsw.tokens.symm.trans hts
        subst hcons
        rw [hsw.result]
        exact ⟨rfl, ⟨hsw.at_.skip _ _, Cursor.tokens_skip _ _⟩, hsw.reads⟩

end Source

end Xv6.Sh

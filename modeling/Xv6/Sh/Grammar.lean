import Mathlib.Logic.Function.Iterate
import Xv6.Sh.Lex

/-!
# Xv6.Sh.Grammar

The grammar of the shell, and the parser's result by it.

```
line  ::= pipe '&'* (';' line)?
pipe  ::= exec ('|' pipe)?
exec  ::= '(' line ')' redir* | redir* (word redir*)*
redir ::= ('<' | '>' | '>>') word
```

`Derives` has one rule for each production, with the tree that the parser is to build. On tokens,
what the parser returns has a derivation (`sound`), a derivation makes it return (`complete`), and
with the fuel that `parsecmd` gives it always ends (`total`).
-/

namespace Xv6.Sh

open List

variable {P : Tok → Prop} {α β : Type} {b : UInt8}

inductive RedirOp where
  | lt | gt | gtgt
  deriving DecidableEq, Repr

namespace RedirOp

def tok : RedirOp → Tok
  | lt => .lt
  | gt => .gt
  | gtgt => .gtgt

def mode : RedirOp → Nat
  | lt => O_RDONLY
  | gt | gtgt => O_WRONLY ||| O_CREATE

def fd : RedirOp → Nat
  | lt => 0
  | gt | gtgt => 1

end RedirOp

structure Redir where
  op : RedirOp
  file : Word

def Redir.toks (r : Redir) : List Tok := [r.op.tok, .word r.file]

def Redir.wrap (c : Cmd Word) (r : Redir) : Cmd Word := .redir c r.file r.op.mode r.op.fd

def redirToks (rs : List Redir) : List Tok := rs.flatMap Redir.toks

/-- The last redirection is the outermost. -/
def wrap (rs : List Redir) (c : Cmd Word) : Cmd Word := rs.foldl Redir.wrap c

/-- Words, each with the redirections that follow it. -/
abbrev Args := List (Word × List Redir)

def argToks (ws : Args) : List Tok := ws.flatMap fun w => .word w.1 :: redirToks w.2

inductive Nonterminal where
  | line | pipe | exec

inductive Derives : Nonterminal → List Tok → Cmd Word → Prop where
  | line {ts : List Tok} {c : Cmd Word} (n : Nat) : Derives .pipe ts c →
      Derives .line (ts ++ replicate n .amp) (Cmd.back^[n] c)
  | lines {ts us : List Tok} {c d : Cmd Word} (n : Nat) : Derives .pipe ts c → Derives .line us d →
      Derives .line (ts ++ replicate n .amp ++ .semi :: us) (.list (Cmd.back^[n] c) d)
  | pipe {ts : List Tok} {c : Cmd Word} : Derives .exec ts c → Derives .pipe ts c
  | pipes {ts us : List Tok} {c d : Cmd Word} : Derives .exec ts c → Derives .pipe us d →
      Derives .pipe (ts ++ .bar :: us) (.pipe c d)
  | block {ts : List Tok} {c : Cmd Word} (rs : List Redir) : Derives .line ts c →
      Derives .exec (.lpar :: ts ++ .rpar :: redirToks rs) (wrap rs c)
  | simple (rs : List Redir) (ws : Args) : ws.length < MAXARGS →
      Derives .exec (redirToks rs ++ argToks ws)
        (wrap (rs ++ ws.flatMap Prod.snd) (.exec (ws.map Prod.fst)))

/-! ## One step on tokens -/

section Steps

variable {t : Tok} {ts : List Tok} {set : List UInt8} {n argc : Nat} {c : Cmd Word} {w : Word}

@[simp] theorem toks_peek_nil : toks.peek [] set = (false, []) := rfl

@[simp] theorem toks_peek_cons : toks.peek (t :: ts) set = (decide (t.lead ∈ set), t :: ts) := rfl

@[simp] theorem toks_gettoken_nil : toks.gettoken [] = ⟨0, [], []⟩ := rfl

@[simp] theorem toks_gettoken_cons : toks.gettoken (t :: ts) = ⟨t.code, t.text, ts⟩ := rfl

/-- The first token, if there is one, has `P`. -/
def Starts (P : Tok → Prop) (ts : List Tok) : Prop := ∀ t ∈ ts.head?, P t

theorem starts_nil : Starts P [] := fun _ h => absurd h (by simp)

theorem starts_cons (h : P t) : Starts P (t :: ts) := by
  intro t' ht'
  obtain rfl : t = t' := Option.some.inj ht'
  exact h

theorem peek_false (h : Starts (fun t => t.lead ∉ set) ts) : toks.peek ts set = (false, ts) := by
  cases ts with
  | nil => rfl
  | cons t ts => rw [toks_peek_cons, decide_eq_false (h t rfl)]

theorem lead_iff {t' : Tok} (h : oneByte b = some t') : t.lead ∈ [b] ↔ t = t' := by
  rw [mem_singleton]
  constructor
  · rintro rfl
    cases t with
    | word | gt | gtgt => cases h
    | _ => exact Option.some.inj h
  · rintro rfl
    simp only [oneByte] at h
    split_ifs at h with h1 h2 h3 h4 h5 h6
    all_goals cases h
    · exact h1.symm
    · exact h2.symm
    · exact h3.symm
    · exact h4.symm
    · exact h5.symm
    · exact h6.symm

theorem peek_one (h : oneByte b = some t) : toks.peek (t :: ts) [b] = (true, t :: ts) := by
  rw [toks_peek_cons, decide_eq_true ((lead_iff h).mpr rfl)]

theorem starts_not (h : oneByte b = some t) (hn : ∀ us, ts ≠ t :: us) :
    Starts (fun t => t.lead ∉ [b]) ts := by
  intro t' ht' hl
  obtain rfl := (lead_iff h).mp hl
  cases ts with
  | nil => cases ht'
  | cons x us => exact hn us (by rw [Option.some.inj ht'])

theorem peek_cases (h : oneByte b = some t) (ts : List Tok) :
    (∃ us, ts = t :: us ∧ toks.peek ts [b] = (true, t :: us)) ∨ toks.peek ts [b] = (false, ts) := by
  by_cases hex : ∃ us, ts = t :: us
  · obtain ⟨us, rfl⟩ := hex
    exact .inl ⟨us, rfl, peek_one h⟩
  · exact .inr (peek_false (starts_not h (not_exists.mp hex)))

theorem lead_redir_iff : t.lead ∈ [Sh.lt, Sh.gt] ↔ ∃ op : RedirOp, t = op.tok := by
  constructor
  · intro h
    cases t with
    | lt => exact ⟨.lt, rfl⟩
    | gt => exact ⟨.gt, rfl⟩
    | gtgt => exact ⟨.gtgt, rfl⟩
    | word w => exact absurd (show chr_a ∈ [Sh.lt, Sh.gt] from h) (by decide)
    | _ => exact absurd h (by decide)
  · rintro ⟨op, rfl⟩
    cases op <;> decide

theorem code_eq_a_iff : t.code = chr_a ↔ ∃ w, t = .word w := by
  constructor
  · intro h
    cases t with
    | word w => exact ⟨w, rfl⟩
    | _ => exact absurd h (by decide)
  · rintro ⟨w, rfl⟩
    rfl

theorem code_ne_zero (t : Tok) : t.code ≠ 0 := by
  cases t with
  | word w => exact show chr_a ≠ 0 by decide
  | _ => decide

theorem redirect_wrap (op : RedirOp) : redirect op.tok.code c w = Redir.wrap c ⟨op, w⟩ := by
  cases op <;> rfl

theorem parseredirs_stop (h : Starts (fun t => t.lead ∉ [Sh.lt, Sh.gt]) ts) :
    parseredirs toks (n + 1) c ts = .ok (c, ts) := by
  rw [parseredirs, peek_false h]
  rfl

theorem parseredirs_redir (op : RedirOp) : parseredirs toks (n + 1) c (op.tok :: .word w :: ts) =
      parseredirs toks n (Redir.wrap c ⟨op, w⟩) ts := by
  have hop : op.tok.lead ∈ [Sh.lt, Sh.gt] := lead_redir_iff.mpr ⟨op, rfl⟩
  rw [parseredirs, toks_peek_cons, decide_eq_true hop, ← redirect_wrap]
  rfl

theorem parseredirs_missing (op : RedirOp) (h : (toks.gettoken ts).tok ≠ chr_a) :
    parseredirs toks (n + 1) c (op.tok :: ts) = .error (.panic .missingFile) := by
  have hop : op.tok.lead ∈ [Sh.lt, Sh.gt] := lead_redir_iff.mpr ⟨op, rfl⟩
  rw [parseredirs, toks_peek_cons, decide_eq_true hop]
  exact if_pos h

theorem parseargs_stop (h : Starts (fun t => t.lead ∈ [Sh.bar, Sh.rpar, Sh.amp, Sh.semi]) ts) :
    parseargs toks (n + 1) argc c ts = .ok (c, ts) := by
  cases ts with
  | nil => rfl
  | cons t ts =>
    rw [parseargs, toks_peek_cons, decide_eq_true (h t rfl)]
    rfl

theorem parseargs_word : parseargs toks (n + 1) argc c (.word w :: ts) =
    if MAXARGS ≤ argc + 1 then .error (.panic .tooManyArgs)
    else parseredirs toks n (c.addArg w) ts >>= fun r => parseargs toks n (argc + 1) r.1 r.2 :=
  rfl

theorem parseargs_other (h : t.lead ∉ [Sh.bar, Sh.rpar, Sh.amp, Sh.semi]) (hw : t.code ≠ chr_a) :
    parseargs toks (n + 1) argc c (t :: ts) = .error (.panic .unexpected) := by
  rw [parseargs, toks_peek_cons, decide_eq_false h]
  simp only [toks_gettoken_cons, code_ne_zero, if_false, hw, Bool.false_eq_true, ne_eq,
    not_false_eq_true, if_true]

theorem parsebacks_amp :
    parsebacks toks (n + 1) c (.amp :: ts) = parsebacks toks n (.back c) ts := rfl

theorem parsebacks_stop (h : Starts (fun t => t.lead ∉ [Sh.amp]) ts) :
    parsebacks toks (n + 1) c ts = .ok (c, ts) := by
  rw [parsebacks, peek_false h]
  rfl

end Steps

/-! ## Soundness -/

section Sound

variable {n argc : Nat} {c d : Cmd Word} {ts rest : List Tok}

theorem bind_ok {x : Except Stop α} {f : α → Except Stop β} {b : β}
    (h : x >>= f = .ok b) : ∃ a, x = .ok a ∧ f a = .ok b := by
  cases x with
  | error e => cases h
  | ok a => exact ⟨a, rfl, h⟩

theorem redirToks_cons (r : Redir) (rs : List Redir) :
    redirToks (r :: rs) = r.op.tok :: .word r.file :: redirToks rs := rfl

theorem argToks_cons (w : Word × List Redir) (ws : Args) :
    argToks (w :: ws) = .word w.1 :: (redirToks w.2 ++ argToks ws) := rfl

theorem parseredirs_sound : ∀ (n : Nat) {c d : Cmd Word} {ts rest : List Tok},
    parseredirs toks n c ts = .ok (d, rest) →
    ∃ rs, ts = redirToks rs ++ rest ∧ d = wrap rs c := by
  intro n
  induction n with
  | zero => intro c d ts rest h; cases h
  | succ n ih =>
    intro c d ts rest h
    by_cases hstart : Starts (fun t => t.lead ∉ [Sh.lt, Sh.gt]) ts
    · rw [parseredirs_stop hstart] at h
      cases h
      exact ⟨[], rfl, rfl⟩
    · obtain ⟨op, ts, rfl⟩ : ∃ (op : RedirOp) (us : _), ts = op.tok :: us := by
        cases ts with
        | nil => exact absurd starts_nil hstart
        | cons t ts =>
          obtain ⟨op, rfl⟩ := lead_redir_iff.mp (not_not.mp fun hn => hstart (starts_cons hn))
          exact ⟨op, ts, rfl⟩
      by_cases hw : (toks.gettoken ts).tok = chr_a
      · obtain ⟨w, ts, rfl⟩ : ∃ w us, ts = .word w :: us := by
          cases ts with
          | nil => exact absurd hw (by decide)
          | cons t ts =>
            obtain ⟨w, rfl⟩ := code_eq_a_iff.mp hw
            exact ⟨w, ts, rfl⟩
        rw [parseredirs_redir] at h
        obtain ⟨rs, rfl, rfl⟩ := ih h
        exact ⟨⟨op, w⟩ :: rs, rfl, rfl⟩
      · rw [parseredirs_missing op hw] at h
        cases h

/-- What the loop of `parseexec` makes of the words. -/
def collect (c : Cmd Word) (ws : Args) : Cmd Word :=
  ws.foldl (fun c w => wrap w.2 (c.addArg w.1)) c

theorem parseargs_sound : ∀ (n : Nat) {argc : Nat} {c d : Cmd Word} {ts rest : List Tok},
    argc < MAXARGS → parseargs toks n argc c ts = .ok (d, rest) →
    ∃ ws, ts = argToks ws ++ rest ∧ d = collect c ws ∧ argc + ws.length < MAXARGS := by
  intro n
  induction n with
  | zero => intro argc c d ts rest _ h; cases h
  | succ n ih =>
    intro argc c d ts rest hargc h
    by_cases hstart : Starts (fun t => t.lead ∈ [Sh.bar, Sh.rpar, Sh.amp, Sh.semi]) ts
    · rw [parseargs_stop hstart] at h
      cases h
      exact ⟨[], rfl, rfl, hargc⟩
    · cases ts with
      | nil => exact absurd starts_nil hstart
      | cons t ts =>
        have hlead : t.lead ∉ [Sh.bar, Sh.rpar, Sh.amp, Sh.semi] := fun hl =>
          hstart (starts_cons hl)
        by_cases hcode : t.code = chr_a
        · obtain ⟨w, rfl⟩ := code_eq_a_iff.mp hcode
          rw [parseargs_word] at h
          split at h
          · cases h
          · next hmax =>
            obtain ⟨r, hr, hargs⟩ := bind_ok h
            obtain ⟨rs, hts, hd⟩ := parseredirs_sound n hr
            obtain ⟨ws, hts', hd', hlen⟩ := ih (not_le.mp hmax) hargs
            refine ⟨(w, rs) :: ws, ?_, ?_, ?_⟩
            · rw [argToks_cons, hts, hts', cons_append, append_assoc]
            · rw [collect, foldl_cons, ← hd, hd']; rfl
            · rw [length_cons]; omega
        · rw [parseargs_other hlead hcode] at h
          cases h

theorem parsebacks_sound : ∀ (n : Nat) {c d : Cmd Word} {ts rest : List Tok},
    parsebacks toks n c ts = .ok (d, rest) →
    ∃ k, ts = replicate k .amp ++ rest ∧ d = Cmd.back^[k] c := by
  intro n
  induction n with
  | zero => intro c d ts rest h; cases h
  | succ n ih =>
    intro c d ts rest h
    by_cases hamp : ∃ us, ts = .amp :: us
    · obtain ⟨us, rfl⟩ := hamp
      rw [parsebacks_amp] at h
      obtain ⟨k, rfl, rfl⟩ := ih h
      exact ⟨k + 1, rfl, rfl⟩
    · rw [parsebacks_stop (starts_not rfl (not_exists.mp hamp))] at h
      cases h
      exact ⟨0, rfl, rfl⟩

theorem addArg_wrap (rs : List Redir) (argv : List Word) (w : Word) :
    (wrap rs (.exec argv)).addArg w = wrap rs (.exec (argv ++ [w])) := by
  have hstep : ∀ (rs : List Redir) (c : Cmd Word), (wrap rs c).addArg w = wrap rs (c.addArg w) := by
    intro rs
    induction rs with
    | nil => intro c; rfl
    | cons r rs ih => intro c; exact ih (Redir.wrap c r)
  exact hstep rs (.exec argv)

theorem collect_wrap (ws : Args) : ∀ (rs : List Redir) (argv : List Word),
    collect (wrap rs (.exec argv)) ws =
      wrap (rs ++ ws.flatMap Prod.snd) (.exec (argv ++ ws.map Prod.fst)) := by
  induction ws with
  | nil =>
    intro rs argv
    simp only [collect, foldl_nil, flatMap_nil, map_nil, append_nil]
  | cons w ws ih =>
    intro rs argv
    have hwrap : wrap w.2 (wrap rs (.exec (argv ++ [w.1]))) =
        wrap (rs ++ w.2) (.exec (argv ++ [w.1])) := (foldl_append).symm
    rw [collect, foldl_cons, addArg_wrap, hwrap]
    refine (ih (rs ++ w.2) (argv ++ [w.1])).trans ?_
    rw [flatMap_cons, map_cons, append_assoc, append_assoc]
    rfl

theorem procedures_sound : ∀ (n : Nat) {c : Cmd Word} {ts rest : List Tok},
    (parseline toks n ts = .ok (c, rest) → ∃ us, ts = us ++ rest ∧ Derives .line us c) ∧
    (parsepipe toks n ts = .ok (c, rest) → ∃ us, ts = us ++ rest ∧ Derives .pipe us c) ∧
    (parseblock toks n ts = .ok (c, rest) → ∃ us, ts = us ++ rest ∧ Derives .exec us c) ∧
    (parseexec toks n ts = .ok (c, rest) → ∃ us, ts = us ++ rest ∧ Derives .exec us c) := by
  intro n
  induction n with
  | zero =>
    intro c ts rest
    simp only [parseline, parsepipe, parseblock, parseexec]
    refine ⟨fun h => ?_, fun h => ?_, fun h => ?_, fun h => ?_⟩ <;> cases h
  | succ n ih =>
    intro c ts rest
    refine ⟨fun h => ?_, fun h => ?_, fun h => ?_, fun h => ?_⟩
    · rw [parseline] at h
      obtain ⟨⟨c1, ts1⟩, hpipe, h1⟩ := bind_ok h
      obtain ⟨⟨c2, ts2⟩, hbacks, h2⟩ := bind_ok h1
      obtain ⟨us, hts, hus⟩ := ih.2.1 hpipe
      obtain ⟨k, hts1, hc2⟩ := parsebacks_sound n hbacks
      have hts1' : ts1 = replicate k .amp ++ ts2 := hts1
      rcases peek_cases (b := Sh.semi) rfl ts2 with ⟨vs, hts2, hp⟩ | hp
      · simp only [hp, if_true] at h2
        obtain ⟨⟨d, ts3⟩, hline, h3⟩ := bind_ok h2
        obtain ⟨ws, hvs, hws⟩ := ih.1 hline
        cases h3
        have hvs' : vs = ws ++ ts3 := hvs
        subst hc2
        exact ⟨_, by simp [hts, hts1', hts2, hvs'], .lines k hus hws⟩
      · simp only [hp] at h2
        cases h2
        subst hc2
        exact ⟨_, by simp [hts, hts1'], .line k hus⟩
    · rw [parsepipe] at h
      obtain ⟨⟨c1, ts1⟩, hexec, h1⟩ := bind_ok h
      obtain ⟨us, hts, hus⟩ := ih.2.2.2 hexec
      rcases peek_cases (b := Sh.bar) rfl ts1 with ⟨vs, hts1, hp⟩ | hp
      · simp only [hp, if_true] at h1
        obtain ⟨⟨d, ts3⟩, hline, h2⟩ := bind_ok h1
        obtain ⟨ws, hvs, hws⟩ := ih.2.1 hline
        cases h2
        have hvs' : vs = ws ++ ts3 := hvs
        exact ⟨_, by simp [hts, hts1, hvs'], .pipes hus hws⟩
      · simp only [hp] at h1
        cases h1
        exact ⟨us, hts, .pipe hus⟩
    · rw [parseblock] at h
      rcases peek_cases (b := Sh.lpar) rfl ts with ⟨us, hts, hp⟩ | hp
      · simp only [hp] at h
        obtain ⟨⟨c1, ts1⟩, hline, h1⟩ := bind_ok h
        obtain ⟨us', hus', hus⟩ := ih.1 hline
        have hus' : us = us' ++ ts1 := hus'
        rcases peek_cases (b := Sh.rpar) rfl ts1 with ⟨vs, hts1, hp'⟩ | hp'
        · simp only [hp'] at h1
          obtain ⟨rs, hvs, hc⟩ := parseredirs_sound n h1
          have hvs' : vs = redirToks rs ++ rest := hvs
          subst hc
          exact ⟨_, by simp [hts, hus', hts1, hvs'], .block rs hus⟩
        · simp only [hp'] at h1
          cases h1
      · simp only [hp] at h
        cases h
    · rw [parseexec] at h
      rcases peek_cases (b := Sh.lpar) rfl ts with ⟨us, rfl, hp⟩ | hp
      · simp only [hp, if_true] at h
        exact ih.2.2.1 h
      · simp only [hp] at h
        obtain ⟨⟨c1, ts1⟩, hredirs, h1⟩ := bind_ok h
        obtain ⟨rs, hts, hc1⟩ := parseredirs_sound n hredirs
        obtain ⟨ws, hts1, hc, hlen⟩ := parseargs_sound n (by decide) h1
        have hts1' : ts1 = argToks ws ++ rest := hts1
        have hc' : c = wrap (rs ++ ws.flatMap Prod.snd) (.exec (ws.map Prod.fst)) := by
          rw [hc, hc1]
          exact collect_wrap ws rs []
        subst hc'
        exact ⟨redirToks rs ++ argToks ws, by simp [hts, hts1'], .simple rs ws (by omega)⟩

theorem sound {n : Nat} {c : Cmd Word} {ts rest : List Tok}
    (h : parseline toks n ts = .ok (c, rest)) : ∃ us, ts = us ++ rest ∧ Derives .line us c :=
  (procedures_sound n).1 h

end Sound

/-! ## The fuel is enough -/

section Total

theorem bind_ne_fuel {x : Except Stop α} {f : α → Except Stop β}
    (hx : x ≠ .error .fuel) (hf : ∀ a, x = .ok a → f a ≠ .error .fuel) :
    x >>= f ≠ .error .fuel := by
  cases x with
  | error e => exact fun h => hx (by cases h; rfl)
  | ok a => exact hf a rfl

theorem panic_ne_fuel (p : Panic) : (.error (.panic p) : Except Stop α) ≠ .error .fuel :=
  fun h => by cases h

theorem ok_ne_fuel (a : α) : (.ok a : Except Stop α) ≠ .error .fuel :=
  fun h => by cases h

theorem parseredirs_total : ∀ (n : Nat) {c : Cmd Word} {ts : List Tok}, ts.length < n →
    parseredirs toks n c ts ≠ .error .fuel := by
  intro n
  induction n with
  | zero => intro c ts h; omega
  | succ n ih =>
    intro c ts h
    by_cases hstart : Starts (fun t => t.lead ∉ [Sh.lt, Sh.gt]) ts
    · rw [parseredirs_stop hstart]
      exact ok_ne_fuel _
    · cases ts with
      | nil => exact absurd starts_nil hstart
      | cons t ts =>
        obtain ⟨op, rfl⟩ := lead_redir_iff.mp (not_not.mp fun hn => hstart (starts_cons hn))
        by_cases hw : (toks.gettoken ts).tok = chr_a
        · cases ts with
          | nil => exact absurd hw (by decide)
          | cons t ts =>
            obtain ⟨w, rfl⟩ := code_eq_a_iff.mp hw
            rw [parseredirs_redir]
            exact ih (by simp only [length_cons] at h; omega)
        · rw [parseredirs_missing op hw]
          exact panic_ne_fuel _

theorem parseredirs_length {n : Nat} {c d : Cmd Word} {ts rest : List Tok}
    (h : parseredirs toks n c ts = .ok (d, rest)) : rest.length ≤ ts.length := by
  obtain ⟨rs, rfl, _⟩ := parseredirs_sound n h
  rw [length_append]
  omega

theorem parseargs_total : ∀ (n : Nat) {argc : Nat} {c : Cmd Word} {ts : List Tok}, ts.length < n →
    parseargs toks n argc c ts ≠ .error .fuel := by
  intro n
  induction n with
  | zero => intro argc c ts h; omega
  | succ n ih =>
    intro argc c ts h
    by_cases hstart : Starts (fun t => t.lead ∈ [Sh.bar, Sh.rpar, Sh.amp, Sh.semi]) ts
    · rw [parseargs_stop hstart]
      exact ok_ne_fuel _
    · cases ts with
      | nil => exact absurd starts_nil hstart
      | cons t ts =>
        have hlen : ts.length < n := by simp only [length_cons] at h; omega
        by_cases hcode : t.code = chr_a
        · obtain ⟨w, rfl⟩ := code_eq_a_iff.mp hcode
          rw [parseargs_word]
          split
          · exact panic_ne_fuel _
          · refine bind_ne_fuel (parseredirs_total n hlen) fun r hr => ih ?_
            exact lt_of_le_of_lt (parseredirs_length hr) hlen
        · rw [parseargs_other (fun hl => hstart (starts_cons hl)) hcode]
          exact panic_ne_fuel _

theorem parsebacks_total : ∀ (n : Nat) {c : Cmd Word} {ts : List Tok}, ts.length < n →
    parsebacks toks n c ts ≠ .error .fuel := by
  intro n
  induction n with
  | zero => intro c ts h; omega
  | succ n ih =>
    intro c ts h
    by_cases hamp : ∃ us, ts = .amp :: us
    · obtain ⟨us, rfl⟩ := hamp
      rw [parsebacks_amp]
      exact ih (by simp only [length_cons] at h; omega)
    · rw [parsebacks_stop (starts_not rfl (not_exists.mp hamp))]
      exact ok_ne_fuel _

theorem length_of_taken {P : List Tok → Prop} {ts rest : List Tok}
    (h : ∃ us, ts = us ++ rest ∧ P us) : rest.length ≤ ts.length := by
  obtain ⟨us, rfl, _⟩ := h
  rw [length_append]
  omega

theorem procedures_total : ∀ (n : Nat) {ts : List Tok},
    (4 * ts.length + 4 ≤ n → parseline toks n ts ≠ .error .fuel) ∧
    (4 * ts.length + 3 ≤ n → parsepipe toks n ts ≠ .error .fuel) ∧
    (4 * ts.length + 1 ≤ n → parseblock toks n ts ≠ .error .fuel) ∧
    (4 * ts.length + 2 ≤ n → parseexec toks n ts ≠ .error .fuel) := by
  intro n
  induction n with
  | zero => intro ts; refine ⟨?_, ?_, ?_, ?_⟩ <;> intro h <;> omega
  | succ n ih =>
    intro ts
    refine ⟨fun hn => ?_, fun hn => ?_, fun hn => ?_, fun hn => ?_⟩
    · rw [parseline]
      refine bind_ne_fuel (ih.2.1 (by omega)) fun r hr => ?_
      have h1 := length_of_taken ((procedures_sound n).2.1 hr)
      refine bind_ne_fuel (parsebacks_total n (by omega)) fun r' hr' => ?_
      have h2 : r'.2.length ≤ r.2.length := by
        obtain ⟨k, hk, _⟩ := parsebacks_sound n hr'
        rw [hk, length_append]
        omega
      rcases peek_cases (b := Sh.semi) rfl r'.2 with ⟨us, hus, hp⟩ | hp
      · rw [hus, length_cons] at h2
        simp only [hp, if_true, toks_gettoken_cons]
        exact bind_ne_fuel (ih.1 (by omega)) fun _ _ => ok_ne_fuel _
      · simp only [hp]
        exact ok_ne_fuel _
    · rw [parsepipe]
      refine bind_ne_fuel (ih.2.2.2 (by omega)) fun r hr => ?_
      have h1 := length_of_taken ((procedures_sound n).2.2.2 hr)
      rcases peek_cases (b := Sh.bar) rfl r.2 with ⟨us, hus, hp⟩ | hp
      · rw [hus, length_cons] at h1
        simp only [hp, if_true, toks_gettoken_cons]
        exact bind_ne_fuel (ih.2.1 (by omega)) fun _ _ => ok_ne_fuel _
      · simp only [hp]
        exact ok_ne_fuel _
    · rw [parseblock]
      rcases peek_cases (b := Sh.lpar) rfl ts with ⟨us, rfl, hp⟩ | hp
      · rw [length_cons] at hn
        simp only [hp, toks_gettoken_cons]
        refine bind_ne_fuel (ih.1 (by omega)) fun r hr => ?_
        have h1 := length_of_taken ((procedures_sound n).1 hr)
        rcases peek_cases (b := Sh.rpar) rfl r.2 with ⟨vs, hvs, hp'⟩ | hp'
        · rw [hvs, length_cons] at h1
          simp only [hp', toks_gettoken_cons]
          exact parseredirs_total n (by omega)
        · simp only [hp']
          exact panic_ne_fuel _
      · simp only [hp]
        exact panic_ne_fuel _
    · rw [parseexec]
      rcases peek_cases (b := Sh.lpar) rfl ts with ⟨us, rfl, hp⟩ | hp
      · simp only [hp, if_true]
        exact ih.2.2.1 (by omega)
      · simp only [hp]
        refine bind_ne_fuel (parseredirs_total n (by omega)) fun r hr => ?_
        have h1 := parseredirs_length hr
        exact parseargs_total n (by omega)

theorem total {n : Nat} {ts : List Tok} (h : 4 * ts.length + 4 ≤ n) :
    parseline toks n ts ≠ .error .fuel :=
  (procedures_total n).1 h

end Total

/-! ## Completeness -/

section Complete

/-- `x` returns `r` unless it runs out of fuel. -/
def Gives {α : Type} (x : Except Stop α) (r : α) : Prop := x = .ok r ∨ x = .error .fuel

theorem Gives.bind {x : Except Stop α} {f : α → Except Stop β} {a : α} {b : β}
    (hx : Gives x a) (hf : Gives (f a) b) : Gives (x >>= f) b := by
  rcases hx with rfl | rfl
  · exact hf
  · exact .inr rfl

/-- The tokens that can follow what a nonterminal derives. -/
def Follows : Nonterminal → List Tok → Prop
  | .line => Starts fun t => t = .rpar
  | .pipe => Starts fun t => t = .rpar ∨ t = .amp ∨ t = .semi
  | .exec => Starts fun t => t = .rpar ∨ t = .amp ∨ t = .semi ∨ t = .bar

def procedure : Nonterminal → Nat → List Tok → Except Stop (Cmd Word × List Tok)
  | .line => parseline toks
  | .pipe => parsepipe toks
  | .exec => parseexec toks

theorem Starts.mono {Q : Tok → Prop} {ts : List Tok} (h : Starts P ts) (hPQ : ∀ t, P t → Q t) :
    Starts Q ts := fun t ht => hPQ t (h t ht)

theorem parseredirs_complete (rs : List Redir) {rest : List Tok}
    (hrest : Starts (fun t => t.lead ∉ [Sh.lt, Sh.gt]) rest) : ∀ (n : Nat) (c : Cmd Word),
    Gives (parseredirs toks n c (redirToks rs ++ rest)) (wrap rs c, rest) := by
  induction rs with
  | nil =>
    intro n c
    cases n with
    | zero => exact .inr rfl
    | succ n => exact .inl (parseredirs_stop hrest)
  | cons r rs ih =>
    intro n c
    cases n with
    | zero => exact .inr rfl
    | succ n =>
      rw [redirToks_cons, cons_append, cons_append, parseredirs_redir]
      exact ih n _

theorem starts_args (ws : Args) {rest : List Tok} (hw : ∀ w, P (.word w))
    (hrest : Starts P rest) : Starts P (argToks ws ++ rest) := by
  cases ws with
  | nil => exact hrest
  | cons w ws => exact starts_cons (hw w.1)

theorem parseargs_complete (ws : Args) {rest : List Tok} (hrest : Follows .exec rest) :
    ∀ (n argc : Nat) (c : Cmd Word), argc + ws.length < MAXARGS →
    Gives (parseargs toks n argc c (argToks ws ++ rest)) (collect c ws, rest) := by
  induction ws with
  | nil =>
    intro n argc c _
    cases n with
    | zero => exact .inr rfl
    | succ n =>
      refine .inl (parseargs_stop (hrest.mono ?_))
      rintro t (rfl | rfl | rfl | rfl) <;> decide
  | cons w ws ih =>
    intro n argc c hlen
    rw [length_cons] at hlen
    cases n with
    | zero => exact .inr rfl
    | succ n =>
      rw [argToks_cons, cons_append, append_assoc, parseargs_word, if_neg (by omega)]
      refine (parseredirs_complete w.2 (starts_args ws ?_ (hrest.mono ?_)) n _).bind
        (ih n (argc + 1) _ (by omega))
      · intro w
        exact show chr_a ∉ [Sh.lt, Sh.gt] by decide
      · rintro t (rfl | rfl | rfl | rfl) <;> decide

theorem parsebacks_complete {rest : List Tok} (hrest : Starts (fun t => t ≠ .amp) rest) (k : Nat) :
    ∀ (n : Nat) (c : Cmd Word),
    Gives (parsebacks toks n c (replicate k .amp ++ rest)) (Cmd.back^[k] c, rest) := by
  induction k with
  | zero =>
    intro n c
    cases n with
    | zero => exact .inr rfl
    | succ n =>
      refine .inl (parsebacks_stop (hrest.mono fun t ht hl => ht ?_))
      exact (lead_iff rfl).mp hl
  | succ k ih =>
    intro n c
    cases n with
    | zero => exact .inr rfl
    | succ n =>
      rw [replicate_succ, cons_append, parsebacks_amp]
      exact ih n (.back c)

theorem peek_not {t : Tok} (h : oneByte b = some t) {ts : List Tok}
    (hts : Starts (fun x => x ≠ t) ts) : toks.peek ts [b] = (false, ts) :=
  peek_false (hts.mono fun _ hx hl => hx ((lead_iff h).mp hl))

theorem follows_backs (m : Nat) {rest : List Tok} (h : Starts (fun t => t = .rpar ∨ t =
    .semi) rest) : Follows .pipe (replicate m .amp ++ rest) := by
  cases m with
  | zero =>
    refine h.mono ?_
    rintro t (rfl | rfl)
    · exact .inl rfl
    · exact .inr (.inr rfl)
  | succ m => exact starts_cons (.inr (.inl rfl))

theorem peek_simple (rs : List Redir) (ws : Args) {rest : List Tok} (h : Follows .exec rest) :
    toks.peek (redirToks rs ++ (argToks ws ++ rest)) [Sh.lpar] =
      (false, redirToks rs ++ (argToks ws ++ rest)) := by
  refine peek_not (b := Sh.lpar) rfl ?_
  cases rs with
  | nil =>
    refine starts_args ws (fun w h => by cases h) (h.mono ?_)
    rintro t (rfl | rfl | rfl | rfl) <;> decide
  | cons r rs =>
    refine starts_cons ?_
    cases r.op <;> decide

theorem complete {k : Nonterminal} {ts : List Tok} {c : Cmd Word} (h : Derives k ts c) :
    ∀ (n : Nat) (rest : List Tok), Follows k rest →
      Gives (procedure k n (ts ++ rest)) (c, rest) := by
  induction h with
  | @line ts c m _ ih =>
    intro n rest hrest
    cases n with
    | zero => exact .inr (by simp only [procedure, parseline])
    | succ n =>
      simp only [procedure, parseline]
      rw [append_assoc]
      refine (ih n _ (follows_backs m (hrest.mono fun _ ht => .inl ht))).bind ?_
      refine (parsebacks_complete (hrest.mono ?_) m n c).bind ?_
      · rintro t rfl; decide
      · simp only [peek_not (b := Sh.semi) rfl (hrest.mono fun t (ht : t = .rpar) => by
          rw [ht]; decide)]
        exact .inl rfl
  | @lines ts us c d m _ _ ih1 ih2 =>
    intro n rest hrest
    cases n with
    | zero => exact .inr (by simp only [procedure, parseline])
    | succ n =>
      simp only [procedure, parseline]
      rw [append_assoc, append_assoc, cons_append]
      refine (ih1 n _ (follows_backs m (starts_cons (.inr rfl)))).bind ?_
      refine (parsebacks_complete (starts_cons (by decide)) m n c).bind ?_
      simp only [peek_one (b := Sh.semi) rfl, if_true, toks_gettoken_cons]
      exact (ih2 n rest hrest).bind (.inl rfl)
  | pipe _ ih =>
    intro n rest hrest
    cases n with
    | zero => exact .inr (by simp only [procedure, parsepipe])
    | succ n =>
      simp only [procedure, parsepipe]
      refine (ih n rest (hrest.mono ?_)).bind ?_
      · rintro t (rfl | rfl | rfl)
        · exact .inl rfl
        · exact .inr (.inl rfl)
        · exact .inr (.inr (.inl rfl))
      · have hbar : Starts (fun t => t ≠ .bar) rest := by
          refine hrest.mono ?_
          rintro t (rfl | rfl | rfl) <;> decide
        simp only [peek_not (b := Sh.bar) rfl hbar]
        exact .inl rfl
  | pipes _ _ ih1 ih2 =>
    intro n rest hrest
    cases n with
    | zero => exact .inr (by simp only [procedure, parsepipe])
    | succ n =>
      simp only [procedure, parsepipe]
      rw [append_assoc, cons_append]
      refine (ih1 n _ (starts_cons (.inr (.inr (.inr rfl))))).bind ?_
      simp only [peek_one (b := Sh.bar) rfl, if_true, toks_gettoken_cons]
      exact (ih2 n rest hrest).bind (.inl rfl)
  | block rs _ ih =>
    intro n rest hrest
    cases n with
    | zero => exact .inr (by simp only [procedure, parseexec])
    | succ n =>
      simp only [procedure, parseexec, cons_append, append_assoc,
        peek_one (b := Sh.lpar) rfl, if_true]
      cases n with
      | zero => exact .inr (by simp only [parseblock])
      | succ n =>
        simp only [parseblock, peek_one (b := Sh.lpar) rfl, toks_gettoken_cons, Bool.not_true,
          Bool.false_eq_true, if_false]
        refine (ih n _ (starts_cons rfl)).bind ?_
        simp only [peek_one (b := Sh.rpar) rfl, toks_gettoken_cons, Bool.not_true,
          Bool.false_eq_true, if_false]
        refine parseredirs_complete rs (hrest.mono ?_) n _
        rintro t (rfl | rfl | rfl | rfl) <;> decide
  | simple rs ws hlen =>
    intro n rest hrest
    cases n with
    | zero => exact .inr (by simp only [procedure, parseexec])
    | succ n =>
      have hwords : Starts (fun t => t.lead ∉ [Sh.lt, Sh.gt]) (argToks ws ++ rest) := by
        refine starts_args ws (fun w => show chr_a ∉ [Sh.lt, Sh.gt] by decide) (hrest.mono ?_)
        rintro t (rfl | rfl | rfl | rfl) <;> decide
      have htree := collect_wrap ws rs []
      rw [nil_append] at htree
      rw [append_assoc, ← htree]
      simp only [procedure, parseexec, peek_simple rs ws hrest, Bool.false_eq_true, if_false]
      exact (parseredirs_complete rs hwords n _).bind
        (parseargs_complete ws hrest n 0 _ (by omega))

end Complete

end Xv6.Sh

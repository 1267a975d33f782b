import Xv6.Console.Input

/-!
# Xv6.Console.Line

The console as a line discipline: what `consoleread` returns is what was typed and committed.

`Typed` follows the keys alone: the stream of committed bytes, which only grows, and the line that
is being edited. The calls of `consoleread` cut the stream into chunks, one for each call
(`Delivers`): a chunk is a single `C('D')`, for which the call returns nothing, or bytes without
`C('D')` in which a newline can only be the last. What is not read yet is the committed part of the
ring.
-/

namespace Xv6.Console

open Input Function List

structure Typed where
  committed : List UInt8
  line : List UInt8

/-- A key, when there are `fill` bytes in the ring. -/
def Typed.key (g : Typed) (fill : Nat) (c : UInt8) : Typed :=
  if c = ctrl 'P' then g
  else if c = ctrl 'U' then { g with line := [] }
  else if c = ctrl 'H' ∨ c = DEL then { g with line := g.line.dropLast }
  else if c = 0 ∨ fill = INPUT_BUF then g
  else if stored c = NL ∨ stored c = ctrl 'D' ∨ fill + 1 = INPUT_BUF then
    ⟨g.committed ++ (g.line ++ [stored c]), []⟩
  else { g with line := g.line ++ [stored c] }

/-- Not a clipboard key. -/
def Plain (c : UInt8) : Prop :=
  c ≠ ctrl 'C' ∧ c ≠ ctrl 'V' ∧ c ≠ ctrl 'B' ∧ c ≠ ctrl 'X'

instance (c : UInt8) : Decidable (Plain c) := inferInstanceAs (Decidable (_ ∧ _))

structure Session extends Cons where
  typed : Typed

namespace Session

def Init (t : Session) : Prop := t.toCons.Init ∧ t.typed = ⟨[], []⟩

/-- No clipboard key, one reader at a time, and none is killed. -/
def Orderly (t : Session) : Event → Prop
  | .key c => Plain c
  | .call _ _ => ∀ p, t.reader p = none
  | .turn _ => True
  | .killed _ => False

/-- What has been typed after an event. -/
def after (t : Session) : Event → Typed
  | .key c => t.typed.key (t.input.e - t.input.r).toNat c
  | _ => t.typed

def Step (t : Session) (e : Event) (t' : Session) : Prop :=
  t.Orderly e ∧ t.toCons.Step e t'.toCons ∧ t'.typed = t.after e

end Session

/-- What one call takes from the stream. -/
def Chunk (ch : List UInt8) : Prop := ch = [ctrl 'D'] ∨ ctrl 'D' ∉ ch ∧ NL ∉ ch.dropLast

/-- What the call returns for it. -/
def served (ch : List UInt8) : List UInt8 := if ch = [ctrl 'D'] then [] else ch

/-- The bytes that the call in progress has stored. -/
inductive Reading (s : Cons) : List UInt8 → Prop where
  | idle (hr : s.reader = fun _ => none) : Reading s []
  | busy (p : Fin NPROC) (q : Read) (hr : s.reader = update (fun _ => none) p (some q))
      (hn : 0 < q.n) (ht : q.n + q.dst.length = q.target) (hd : ctrl 'D' ∉ q.dst)
      (hl : NL ∉ q.dst) : Reading s q.dst

/-- The committed stream is what the finished calls have taken, what the present one has taken, and
what is in the ring. -/
def Delivers (t : Session) : Prop := ∃ (chunks : List (List UInt8)) (cur rest : List UInt8),
  t.typed.committed = chunks.flatten ++ cur ++ rest ∧ t.done = chunks.map served ∧
    (∀ ch ∈ chunks, Chunk ch) ∧ Reading t.toCons cur ∧ t.input.Ring rest t.typed.line

theorem served_eq {ch : List UInt8} (h : ctrl 'D' ∉ ch) : served ch = ch :=
  if_neg fun heq => h (by simp [heq])

theorem Chunk.filter {ch : List UInt8} (h : Chunk ch) : ch.filter (· ≠ ctrl 'D') = served ch := by
  rcases h with rfl | ⟨hd, -⟩
  · rfl
  · rw [served_eq hd, filter_eq_self]
    intro c hc
    simp only [ne_eq, decide_eq_true_eq]
    rintro rfl
    exact hd hc

theorem flatten_served {chunks : List (List UInt8)} (h : ∀ ch ∈ chunks, Chunk ch) :
    (chunks.map served).flatten = chunks.flatten.filter (· ≠ ctrl 'D') := by
  induction chunks with
  | nil => rfl
  | cons ch chunks ih =>
    obtain ⟨hch, hrest⟩ := forall_mem_cons.mp h
    rw [map_cons, flatten_cons, flatten_cons, filter_append, hch.filter, ih hrest]

theorem Delivers.returned {t : Session} (h : Delivers t) :
    t.done.flatten <+: t.typed.committed.filter (· ≠ ctrl 'D') := by
  obtain ⟨chunks, cur, rest, hstream, hdone, hch, -, -⟩ := h
  rw [hdone, flatten_served hch, hstream, append_assoc, filter_append]
  exact prefix_append _ _

variable {s s' : Input} {g : Typed} {xs : List UInt8} {c : UInt8}

/-- The line holds neither of the bytes that commit it. -/
def Typed.Open (g : Typed) : Prop := ∀ c ∈ g.line, c ≠ NL ∧ c ≠ ctrl 'D'

theorem Typed.Open.key (h : g.Open) (fill : Nat) (c : UInt8) : (g.key fill c).Open := by
  unfold Typed.key
  split_ifs with hP hU hH hd hc
  · exact h
  · exact fun _ hmem => absurd hmem not_mem_nil
  · exact fun b hb => h b (dropLast_subset _ hb)
  · exact h
  · exact fun _ hmem => absurd hmem not_mem_nil
  · intro b hb
    rcases mem_append.mp hb with hb | hb
    · exact h b hb
    · obtain rfl := mem_singleton.mp hb
      exact ⟨fun hn => hc (.inl hn), fun hn => hc (.inr (.inl hn))⟩

theorem Typed.key_committed (g : Typed) (fill : Nat) (c : UInt8) :
    g.committed <+: (g.key fill c).committed := by
  unfold Typed.key
  split_ifs
  all_goals first | exact prefix_rfl | exact prefix_append _ _

theorem Input.Ring.key (h : Ring s xs g.line) (ho : g.Open) (hc : Plain c) :
    ∃ s' zs, s.consoleintr c = some s' ∧ s'.r = s.r ∧
      (g.key (s.e - s.r).toNat c).committed = g.committed ++ zs ∧
      Ring s' (xs ++ zs) (g.key (s.e - s.r).toNat c).line := by
  obtain ⟨hC, hV, hB, hX⟩ := hc
  have hedit : ∀ t l, t.r = s.r → Ring t xs l → ∃ s' zs, some t = some s' ∧ s'.r = s.r ∧
      g.committed = g.committed ++ zs ∧ Ring s' (xs ++ zs) l := fun t l hr hring =>
    ⟨t, [], rfl, hr, (append_nil _).symm, by rwa [append_nil]⟩
  rw [h.sub_r]
  unfold Input.consoleintr Typed.key
  by_cases hP : c = ctrl 'P'
  · simp only [if_pos hP]
    exact hedit s g.line rfl h
  by_cases hU : c = ctrl 'U'
  · simp only [if_neg hP, if_pos hU]
    have hkill := h.killLine
    rw [rdropWhile_eq_nil_iff.mpr fun b hb => by simpa using (ho b hb).1] at hkill
    exact hedit s.killLine [] (killLoop_r _ s).1 hkill
  by_cases hH : c = ctrl 'H' ∨ c = DEL
  · simp only [if_neg hP, if_neg hU, if_pos hH]
    by_cases hnil : g.line = []
    · rw [if_neg (not_not.mpr (h.e_eq_w.mpr hnil)), hnil]
      exact hedit s [] rfl (hnil ▸ h)
    · rw [if_pos (mt h.e_eq_w.mp hnil)]
      rw [← dropLast_append_getLast hnil] at h
      exact hedit s.erase g.line.dropLast rfl h.erase
  simp only [if_neg hP, if_neg hU, if_neg hH, if_neg hC, if_neg hV, if_neg hB, if_neg hX]
  by_cases hd : c = 0 ∨ xs.length + g.line.length = INPUT_BUF
  · rw [if_pos hd, h.typeChar_dropped hd]
    exact hedit s g.line rfl h
  · rw [if_neg hd]
    rw [not_or] at hd
    have hkept := h.typeChar_kept hd.1 (lt_of_le_of_ne h.length_le hd.2)
    split at hkept
    · rename_i hcommit
      rw [if_pos hcommit]
      exact ⟨_, g.line ++ [stored c], rfl, typeChar_r s c, rfl, hkept⟩
    · rename_i hcommit
      rw [if_neg hcommit]
      exact hedit _ _ (typeChar_r s c) hkept

variable {t t' : Session}

theorem chunks_snoc {chunks : List (List UInt8)} {ch : List UInt8} (h : ∀ c ∈ chunks, Chunk c)
    (hch : Chunk ch) : ∀ c ∈ chunks ++ [ch], Chunk c := by
  intro c hc
  rcases mem_append.mp hc with hc | hc
  · exact h c hc
  · rwa [mem_singleton.mp hc]

structure Inv (t : Session) : Prop where
  delivers : Delivers t
  line : t.typed.Open

theorem Inv.key (h : Inv t) (hs : t.Step (.key c) t') :
    Inv t' ∧ t.typed.committed <+: t'.typed.committed ∧ t.input.Intact t'.input := by
  obtain ⟨hplain, hst, htyped⟩ := hs
  obtain ⟨chunks, cur, rest, hstream, hdone, hch, hreading, hring⟩ := h.delivers
  obtain ⟨s', zs, heq, hr, hcommit, hring'⟩ := hring.key h.line hplain
  simp only [Cons.Step, Cons.step, heq, Option.map_some, Option.some.injEq] at hst
  obtain ⟨cons', typed'⟩ := t'
  subst hst htyped
  refine ⟨⟨⟨chunks, cur, rest ++ zs, ?_, hdone, hch, ?_, hring'⟩, h.line.key _ c⟩,
    Typed.key_committed _ _ c, hring.intact hring' hr⟩
  · rw [Session.after, hcommit, hstream, append_assoc]
  · cases hreading with
    | idle hr => exact .idle hr
    | busy p q hr hn ht hd hl => exact .busy p q hr hn ht hd hl

theorem Inv.call {p : Fin NPROC} {n : Int} (h : Inv t) (hs : t.Step (.call p n) t') :
    Inv t' ∧ t.typed.committed <+: t'.typed.committed ∧ t.input.Intact t'.input := by
  obtain ⟨halone, hst, htyped⟩ := hs
  obtain ⟨chunks, cur, rest, hstream, hdone, hch, hreading, hring⟩ := h.delivers
  have hnone : t.reader = fun _ => none := funext halone
  obtain rfl : cur = [] := by
    cases hreading with
    | idle hr => rfl
    | busy p q hr hn ht hd hl =>
      have := halone p
      rw [hr, update_self] at this
      cases this
  obtain ⟨cons', typed'⟩ := t'
  simp only [Cons.Step, Cons.step, if_pos (halone p)] at hst
  split at hst
  · rename_i hn
    cases hst
    subst htyped
    refine ⟨⟨⟨chunks, [], rest, hstream, hdone, hch, ?_, hring⟩, h.line⟩, prefix_rfl,
      fun _ _ => rfl⟩
    exact .busy p ⟨n, n, []⟩ (by rw [hnone]) hn (by simp) (by simp) (by simp)
  · cases hst
    subst htyped
    refine ⟨⟨⟨chunks ++ [[]], [], rest, ?_, ?_, ?_, .idle hnone, hring⟩, h.line⟩, prefix_rfl,
      fun _ _ => rfl⟩
    · refine hstream.trans ?_
      simp
    · simp [hdone, served]
    · exact chunks_snoc hch (.inr ⟨by simp, by simp⟩)

theorem Inv.turn {p : Fin NPROC} (h : Inv t) (hs : t.Step (.turn p) t') :
    Inv t' ∧ t.typed.committed <+: t'.typed.committed ∧ t.input.Intact t'.input := by
  obtain ⟨-, hst, htyped⟩ := hs
  obtain ⟨chunks, cur, rest, hstream, hdone, hch, hreading, hring⟩ := h.delivers
  obtain ⟨cons', typed'⟩ := t'
  subst htyped
  simp only [Cons.Step, Cons.step] at hst
  cases hreading with
  | idle hr => simp [hr] at hst
  | busy p' q hr hn ht hd hl =>
    by_cases hp : p = p'
    · subst hp
      rw [hr, update_self] at hst
      dsimp only at hst
      cases ho : readTurn t.input q with
      | none => simp [ho] at hst
      | some o =>
        obtain ⟨x, xs', rfl, hturn⟩ := hring.readTurn ho
        rw [ho] at hst
        have hfree : update (update (fun _ => none) p (some q)) p none =
            fun _ : Fin NPROC => (none : Option Read) := by
          rw [update_idem, update_eq_self]
        cases hturn with
        | leave hx hlt =>
          cases hst
          refine ⟨⟨⟨chunks ++ [q.dst], [], x :: xs', ?_, ?_, ?_, .idle hfree, hring⟩, h.line⟩,
            prefix_rfl, fun _ _ => rfl⟩
          · refine hstream.trans ?_
            simp
          · simp [hdone, served_eq hd]
          · exact chunks_snoc hch (.inr ⟨hd, fun hmem => hl (dropLast_subset _ hmem)⟩)
        | stop hx hge =>
          cases hst
          have hnil : q.dst = [] := eq_nil_of_length_eq_zero (by omega)
          refine ⟨⟨⟨chunks ++ [[x]], [], xs', ?_, ?_, ?_, .idle hfree, hring.read.2⟩, h.line⟩,
            prefix_rfl, fun _ _ => rfl⟩
          · refine hstream.trans ?_
            simp [hnil]
          · simp [hdone, served, hnil, hx]
          · exact chunks_snoc hch (.inl (by rw [hx]))
        | take hx =>
          have hd' : ctrl 'D' ∉ q.dst ++ [x] := by simp [hd, Ne.symm hx]
          simp only [decide_eq_true_eq] at hst
          split at hst
          · cases hst
            refine ⟨⟨⟨chunks ++ [q.dst ++ [x]], [], xs', ?_, ?_, ?_, .idle hfree, hring.read.2⟩,
              h.line⟩, prefix_rfl, fun _ _ => rfl⟩
            · refine hstream.trans ?_
              simp
            · simp only [hdone, map_append, map_cons, map_nil, served_eq hd']
            · exact chunks_snoc hch (.inr ⟨hd', by simpa using hl⟩)
          · rename_i hlast
            rw [not_or] at hlast
            cases hst
            refine ⟨⟨⟨chunks, q.dst ++ [x], xs', ?_, hdone, hch, ?_, hring.read.2⟩, h.line⟩,
              prefix_rfl, fun _ _ => rfl⟩
            · refine hstream.trans ?_
              simp
            · refine .busy p { q with dst := q.dst ++ [x], n := q.n - 1 } ?_ ?_ ?_ hd' ?_
              · simp only [update_idem]
              · simp only
                omega
              · simp only [length_append, length_singleton]
                push_cast
                omega
              · simp [hl, Ne.symm hlast.1]
    · rw [hr, update_of_ne hp] at hst
      cases hst

theorem Inv.step {e : Event} (h : Inv t) (hs : t.Step e t') :
    Inv t' ∧ t.typed.committed <+: t'.typed.committed ∧ t.input.Intact t'.input := by
  cases e with
  | key c => exact h.key hs
  | call p n => exact h.call hs
  | turn p => exact h.turn hs
  | killed p => exact hs.1.elim

theorem Session.Init.inv (h : t.Init) : Inv t := by
  obtain ⟨⟨hw, he, hnone, hdone⟩, htyped⟩ := h
  refine ⟨⟨[], [], [], ?_, hdone, ?_, .idle (funext hnone), ?_⟩, ?_⟩
  · rw [htyped]
    rfl
  · exact fun _ hmem => absurd hmem not_mem_nil
  · rw [htyped]
    exact .nil hw he
  · rw [htyped]
    exact fun _ hmem => absurd hmem not_mem_nil

/-- In every run the reads deliver the committed stream, piece by piece and without its `C('D')`s,
and no step changes a byte that is committed. -/
theorem reads_deliver (h : Reach Session.Init Session.Step t) : Delivers t ∧
    t.done.flatten <+: t.typed.committed.filter (· ≠ ctrl 'D') ∧
    ∀ e t', t.Step e t' → t.typed.committed <+: t'.typed.committed ∧ t.input.Intact t'.input := by
  have hinv : Inv t := h.invariant (fun _ => Session.Init.inv) fun _ _ _ hi hs => (hi.step hs).1
  exact ⟨hinv.delivers, hinv.delivers.returned, fun e t' hs => (hinv.step hs).2⟩

namespace Session

instance (t : Session) (e : Event) : Decidable (t.Orderly e) :=
  match e with
  | .key c => inferInstanceAs (Decidable (Plain c))
  | .call _ _ => inferInstanceAs (Decidable (∀ p, t.reader p = none))
  | .turn _ => inferInstanceAs (Decidable True)
  | .killed _ => inferInstanceAs (Decidable False)

/-- The state after an event that can happen. -/
def next (t : Session) (e : Event) : Option Session :=
  if t.Orderly e then (t.toCons.step e).map fun s => { s with typed := t.after e } else none

theorem next_some {e : Event} (h : t.next e = some t') : t.Step e t' := by
  unfold next at h
  split at h
  · obtain ⟨s, hs, rfl⟩ := Option.map_eq_some_iff.mp h
    exact ⟨‹_›, hs, rfl⟩
  · cases h

/-- The counters are about to overflow. -/
def first : Session :=
  { input := ⟨fun _ => 0, 4294967295, 4294967295, 4294967295, fun _ => 0⟩
    reader := fun _ => none
    done := []
    typed := ⟨[], []⟩ }

/-- A line with a correction and an end of file, and two reads. -/
def typing : List Event :=
  [.key 97, .key 98, .key DEL, .key CR, .key (ctrl 'D'), .call 0 10, .turn 0, .turn 0, .call 0 10,
    .turn 0]

end Session

theorem reads_deliver_line : ∃ t, Reach Session.Init Session.Step t ∧ t.done = [[97, NL], []] ∧
    t.typed.committed = [97, NL, ctrl 'D'] ∧ t.input.r = 2 ∧ Delivers t := by
  have hrun : ((Session.typing.foldlM Session.next Session.first).any fun t =>
      t.done = [[97, NL], []] ∧ t.typed.committed = [97, NL, ctrl 'D'] ∧ t.input.r = 2) = true := by
    decide +kernel
  obtain ⟨t, ht, h⟩ := (Option.any_eq_true _ _).mp hrun
  obtain ⟨hdone, hcommit, hr⟩ := of_decide_eq_true h
  have hreach : Reach Session.Init Session.Step t :=
    (Reach.start (show Session.Init Session.first from ⟨⟨rfl, rfl, fun _ => rfl, rfl⟩, rfl⟩)).follow
      (f := Session.next) (Q := fun _ => True) (fun _ _ _ _ h => Session.next_some h)
      (fun _ _ => trivial) ht
  exact ⟨t, hreach, hdone, hcommit, hr, (reads_deliver hreach).1⟩

end Xv6.Console

import Xv6.Block
import Xv6.Lib.Fifo
import Xv6.Lib.Run
import Mathlib.Data.List.DropRight

/-!
# Xv6.Console.Input

The input side of the console: `consoleintr` with its editing and clipboard keys, and `consoleread`.

`input.buf` is a ring with three counters: bytes in `[r, w)` are committed and not read yet, bytes
in `[w, e)` are the line being edited. `Ring s xs ys` says so: the committed bytes are `xs`, the
line is `ys`. Every operation is first described by what it does to `xs` and `ys`. The clipboard
keys insert without looking for room; `Fits` says when they find it.
-/

namespace Xv6.Console

open Function List

abbrev INPUT_BUF : Nat := 128

/-- `C(x)`. -/
def ctrl (x : Char) : UInt8 := x.toNat.toUInt8 - '@'.toNat.toUInt8

abbrev NL : UInt8 := 10
abbrev CR : UInt8 := 13
abbrev DEL : UInt8 := 127

example : ctrl 'D' = 4 := by decide

/-- `input` and `clipboard`. -/
structure Input where
  buf : Nat → UInt8
  r : UInt32
  w : UInt32
  e : UInt32
  clipboard : Nat → UInt8

/-- The string at the start of some memory; `none` if the memory ends before it. -/
def cstring : List UInt8 → Option (List UInt8)
  | [] => none
  | c :: cs => if c = 0 then some [] else (cstring cs).map (c :: ·)

def uintBytes (x : UInt32) : List UInt8 :=
  [x.toUInt8, (x >>> 8).toUInt8, (x >>> 16).toUInt8, (x >>> 24).toUInt8]

namespace Input

/-- `input.buf[input.e++ % INPUT_BUF] = c` -/
def store (s : Input) (c : UInt8) : Input :=
  { s with buf := update s.buf (s.e.toNat % INPUT_BUF) c, e := s.e + 1 }

/-- `input.e--; input.buf[input.e % INPUT_BUF] = C('@')` -/
def erase (s : Input) : Input :=
  { s with buf := update s.buf ((s.e - 1).toNat % INPUT_BUF) (ctrl '@'), e := s.e - 1 }

def bytes (s : Input) : List UInt8 :=
  (range INPUT_BUF).map s.buf ++ uintBytes s.r ++ uintBytes s.w ++ uintBytes s.e

/-- `copy_line()`. It looks for the end of the string in all of `input`, and counts from the start
of the buffer; `none` where it leaves `input` or the clipboard. -/
def copyLine (s : Input) : Option Input :=
  match cstring s.bytes with
  | none => none
  | some a =>
    let clip := a.drop s.w.toNat
    if clip.length ≤ INPUT_BUF then some { s with clipboard := fun i => clip.getD i 0 } else none

def killLoop : Nat → Input → Input
  | 0, s => s
  | k + 1, s =>
    if s.e ≠ s.w ∧ s.buf ((s.e - 1).toNat % INPUT_BUF) ≠ NL then killLoop k s.erase else s

/-- `kill_line()`; the loop takes at most one turn for each byte of the line. -/
def killLine (s : Input) : Input := killLoop (s.e - s.w).toNat s

/-- `paste_line()`; `none` where it leaves the clipboard. -/
def pasteLine (s : Input) : Option Input :=
  (cstring ((range INPUT_BUF).map s.clipboard)).map fun clp => clp.foldl store s

def typeChar (s : Input) (c : UInt8) : Input :=
  if c ≠ 0 ∧ s.e - s.r < UInt32.ofNat INPUT_BUF then
    let c := if c = CR then NL else c
    let s := s.store c
    if c = NL ∨ c = ctrl 'D' ∨ s.e = s.r + UInt32.ofNat INPUT_BUF then { s with w := s.e } else s
  else s

/-- `consoleintr`, for one character. -/
def consoleintr (s : Input) (c : UInt8) : Option Input :=
  if c = ctrl 'P' then some s
  else if c = ctrl 'U' then some s.killLine
  else if c = ctrl 'H' ∨ c = DEL then some (if s.e ≠ s.w then s.erase else s)
  else if c = ctrl 'C' then s.copyLine
  else if c = ctrl 'V' then s.pasteLine
  else if c = ctrl 'B' then s.killLine.pasteLine
  else if c = ctrl 'X' then s.copyLine.map killLine
  else some (s.typeChar c)

end Input

/-- The local variables of `consoleread`, with the bytes it has stored at `dst`. -/
structure Read where
  target : Int
  n : Int
  dst : List UInt8

/-- One turn of the loop of `consoleread`, and whether it is the last; `none` where it sleeps.
Inside the loop `n` is positive, so that `n < target` is a comparison of numbers. -/
def readTurn (s : Input) (q : Read) : Option (Input × Read × Bool) :=
  if s.r = s.w then none
  else
    let c := s.buf (s.r.toNat % INPUT_BUF)
    let next := { s with r := s.r + 1 }
    if c = ctrl 'D' then
      if q.n < q.target then some ({ next with r := next.r - 1 }, q, true) else some (next, q, true)
    else
      let q := { q with dst := q.dst ++ [c], n := q.n - 1 }
      some (next, q, c = NL ∨ q.n ≤ 0)

/-- The console, the calls of `consoleread` by process, and what the finished ones have returned. -/
structure Cons where
  input : Input
  reader : Fin NPROC → Option Read
  done : List (List UInt8)

inductive Event where
  | key (c : UInt8)
  | call (p : Fin NPROC) (n : Int)
  | turn (p : Fin NPROC)
  | killed (p : Fin NPROC)

namespace Cons

/-- One step; `none` where the event cannot happen, or the code leaves its memory. -/
def step (s : Cons) : Event → Option Cons
  | .key c => (s.input.consoleintr c).map fun i => { s with input := i }
  | .call p n =>
    if s.reader p = none then
      if 0 < n then some { s with reader := update s.reader p (some ⟨n, n, []⟩) }
      else some { s with done := s.done ++ [[]] }
    else none
  | .turn p =>
    match s.reader p with
    | none => none
    | some q =>
      match readTurn s.input q with
      | none => none
      | some (i, q, last) =>
        if last then some ⟨i, update s.reader p none, s.done ++ [q.dst]⟩
        else some { s with input := i, reader := update s.reader p (some q) }
  | .killed p =>
    match s.reader p with
    | none => none
    | some _ =>
      if s.input.r = s.input.w then some { s with reader := update s.reader p none }
      else none

def Init (s : Cons) : Prop :=
  s.input.w = s.input.r ∧ s.input.e = s.input.r ∧ (∀ p, s.reader p = none) ∧ s.done = []

def Step (s : Cons) (e : Event) (s' : Cons) : Prop := s.step e = some s'

end Cons

namespace Input

variable {s s' : Input} {xs ys : List UInt8} {c x : UInt8}

theorem inputBuf_dvd : INPUT_BUF ∣ 2 ^ 32 := by decide

theorem inputBuf_lt : INPUT_BUF < 2 ^ 32 := by decide

/-- The byte that is stored for a character. -/
def stored (c : UInt8) : UInt8 := if c = CR then NL else c

/-- The bytes in `[r, e)`. -/
def queue (s : Input) : Fifo UInt8 INPUT_BUF := ⟨s.buf, s.r, s.e⟩

/-- The committed bytes are `xs`, and the line being edited is `ys`. -/
structure Ring (s : Input) (xs ys : List UInt8) : Prop where
  holds : s.queue.Holds (xs ++ ys)
  commit : s.w = s.r + UInt32.ofNat xs.length

namespace Ring

theorem nil (hw : s.w = s.r) (he : s.e = s.r) : Ring s [] [] :=
  ⟨.nil he, by simp [hw]⟩

theorem length_le (h : Ring s xs ys) : xs.length + ys.length ≤ INPUT_BUF := by
  have := h.holds.length_le
  rwa [length_append] at this

theorem sub_r (h : Ring s xs ys) : (s.e - s.r).toNat = xs.length + ys.length := by
  rw [← length_append]
  exact h.holds.count_sub inputBuf_lt

theorem committed (h : Ring s xs ys) : Fifo.Holds (⟨s.buf, s.r, s.w⟩ :
    Fifo UInt8 INPUT_BUF) xs := by
  refine ⟨(Nat.le_add_right _ _).trans h.length_le, h.commit, fun i x hx => ?_⟩
  refine h.holds.slots i x ?_
  rwa [getElem?_append_left (List.getElem?_eq_some_iff.mp hx).1]

theorem w_sub_r (h : Ring s xs ys) : (s.w - s.r).toNat = xs.length :=
  h.committed.count_sub inputBuf_lt

theorem r_eq_w (h : Ring s xs ys) : s.r = s.w ↔ xs = [] := by
  rw [← h.committed.isEmpty_iff inputBuf_lt, Fifo.isEmpty, beq_iff_eq]

theorem e_eq_w (h : Ring s xs ys) : s.e = s.w ↔ ys = [] := by
  have he : s.e = s.r + UInt32.ofNat (xs ++ ys).length := h.holds.count
  have hle := h.length_le
  have hlt := inputBuf_lt
  rw [he, h.commit, UInt32.add_right_inj, ← UInt32.toNat_inj, UInt32.toNat_ofNat',
    UInt32.toNat_ofNat', length_append, Nat.mod_eq_of_lt (by omega),
    Nat.mod_eq_of_lt (by omega), Nat.add_eq_left, length_eq_zero_iff]

theorem store (h : Ring s xs ys) (hroom : xs.length + ys.length < INPUT_BUF) (c : UInt8) :
    Ring (s.store c) xs (ys ++ [c]) := by
  refine ⟨?_, h.commit⟩
  rw [← append_assoc]
  exact h.holds.put inputBuf_dvd (by rwa [length_append]) c

theorem commitLine (h : Ring s xs ys) : Ring { s with w := s.e } (xs ++ ys) [] :=
  ⟨by rw [append_nil]; exact h.holds, h.holds.count⟩

theorem erase (h : Ring s xs (ys ++ [c])) : Ring s.erase xs ys := by
  refine ⟨?_, h.commit⟩
  have := h.holds
  rw [← append_assoc] at this
  exact this.unput inputBuf_dvd _

theorem last (h : Ring s xs (ys ++ [c])) : s.buf ((s.e - 1).toNat % INPUT_BUF) = c := by
  have := h.holds
  rw [← append_assoc] at this
  exact this.last inputBuf_dvd

theorem read (h : Ring s (x :: xs) ys) :
    s.buf (s.r.toNat % INPUT_BUF) = x ∧ Ring { s with r := s.r + 1 } xs ys := by
  obtain ⟨hx, hrest⟩ := Fifo.Holds.get inputBuf_dvd (show s.queue.Holds
    (x :: (xs ++ ys)) from h.holds)
  refine ⟨hx, hrest, ?_⟩
  rw [h.commit, length_cons, UInt32.add_assoc, UInt32.ofNat_add, UInt32.add_comm 1]
  rfl

theorem e_sub_w (h : Ring s xs ys) : (s.e - s.w).toNat = ys.length := by
  have he : s.e = s.r + UInt32.ofNat (xs ++ ys).length := h.holds.count
  have hle := h.length_le
  have hlt := inputBuf_lt
  have hsub : s.e - s.w = UInt32.ofNat ys.length := by
    rw [he, h.commit, length_append, UInt32.ofNat_add, ← UInt32.add_assoc, UInt32.add_comm,
      UInt32.add_sub_cancel]
  rw [hsub, UInt32.toNat_ofNat', Nat.mod_eq_of_lt (by omega)]

theorem killLoop {k : Nat} (h : Ring s xs ys) (hk : ys.length ≤ k) :
    Ring (Input.killLoop k s) xs (ys.rdropWhile (· ≠ NL)) := by
  induction k generalizing s ys with
  | zero =>
    obtain rfl := eq_nil_of_length_eq_zero (Nat.le_zero.mp hk)
    exact h
  | succ k ih =>
    rw [Input.killLoop]
    rcases eq_nil_or_concat ys with rfl | ⟨zs, c, rfl⟩
    · rw [if_neg fun hc => hc.1 (h.e_eq_w.mpr rfl)]
      exact h
    · rw [concat_eq_append] at h hk ⊢
      rw [length_append, length_singleton] at hk
      have hne : s.e ≠ s.w := fun heq => by simpa using h.e_eq_w.mp heq
      by_cases hc : c = NL
      · rw [if_neg fun hcond => hcond.2 (h.last.trans hc),
          rdropWhile_concat_neg _ _ _ (by simp [hc])]
        exact h
      · rw [if_pos ⟨hne, by rwa [h.last]⟩, rdropWhile_concat_pos _ _ _ (by simp [hc])]
        exact ih h.erase (by omega)

theorem killLine (h : Ring s xs ys) : Ring s.killLine xs (ys.rdropWhile (· ≠ NL)) :=
  h.killLoop h.e_sub_w.ge

theorem foldl_store {clp : List UInt8} (h : Ring s xs ys)
    (hroom : xs.length + ys.length + clp.length ≤ INPUT_BUF) :
    Ring (clp.foldl Input.store s) xs (ys ++ clp) := by
  induction clp generalizing s ys with
  | nil =>
    rw [append_nil]
    exact h
  | cons c clp ih =>
    rw [length_cons] at hroom
    have := ih (h.store (by omega) c) (by
      rw [length_append, length_singleton]
      omega)
    rwa [append_assoc] at this

theorem lt_inputBuf (h : Ring s xs ys) :
    s.e - s.r < UInt32.ofNat INPUT_BUF ↔ xs.length + ys.length < INPUT_BUF := by
  rw [UInt32.lt_iff_toNat_lt, h.sub_r]
  rfl

theorem e_eq_full (h : Ring s xs ys) :
    s.e = s.r + UInt32.ofNat INPUT_BUF ↔ xs.length + ys.length = INPUT_BUF := by
  rw [← length_append, ← h.holds.isFull_iff inputBuf_lt, Fifo.isFull, beq_iff_eq]
  rfl

theorem typeChar_dropped (h : Ring s xs ys) (hd : c = 0 ∨ xs.length + ys.length = INPUT_BUF) :
    s.typeChar c = s := by
  refine if_neg fun hc => ?_
  rw [h.lt_inputBuf] at hc
  rcases hd with hd | hd
  · exact hc.1 hd
  · omega

theorem typeChar_kept (h : Ring s xs ys) (hc : c ≠ 0) (hroom : xs.length + ys.length < INPUT_BUF) :
    if stored c = NL ∨ stored c = ctrl 'D' ∨ xs.length + ys.length + 1 = INPUT_BUF then
      Ring (s.typeChar c) (xs ++ (ys ++ [stored c])) []
    else Ring (s.typeChar c) xs (ys ++ [stored c]) := by
  have hstore := h.store hroom (stored c)
  have hfull : (s.store (stored c)).e = s.r + UInt32.ofNat INPUT_BUF ↔
      xs.length + ys.length + 1 = INPUT_BUF := by
    rw [show s.r = (s.store (stored c)).r from rfl, hstore.e_eq_full, length_append,
      length_singleton, Nat.add_assoc]
  have htype : s.typeChar c = if stored c = NL ∨ stored c = ctrl 'D' ∨
      (s.store (stored c)).e = s.r + UInt32.ofNat INPUT_BUF then
        { s.store (stored c) with w := (s.store (stored c)).e } else s.store (stored c) :=
    if_pos ⟨hc, h.lt_inputBuf.mpr hroom⟩
  by_cases hcommit : stored c = NL ∨ stored c = ctrl 'D' ∨ xs.length + ys.length + 1 = INPUT_BUF
  · rw [if_pos hcommit, htype, if_pos (hcommit.imp_right (Or.imp_right hfull.mpr))]
    exact hstore.commitLine
  · rw [if_neg hcommit, htype, if_neg (mt (Or.imp_right (Or.imp_right hfull.mp)) hcommit)]
    exact hstore

end Ring

theorem killLoop_r (k : Nat) (s : Input) :
    (killLoop k s).r = s.r ∧ (killLoop k s).clipboard = s.clipboard := by
  induction k generalizing s with
  | zero => exact ⟨rfl, rfl⟩
  | succ k ih =>
    rw [killLoop]
    split
    · exact ih s.erase
    · exact ⟨rfl, rfl⟩

theorem foldl_store_r (clp : List UInt8) (s : Input) : (clp.foldl store s).r = s.r := by
  induction clp generalizing s with
  | nil => rfl
  | cons c clp ih => exact ih (s.store c)

theorem copyLine_some (h : s.copyLine = some s') : ∃ clip, s' = { s with clipboard := clip } := by
  simp only [copyLine] at h
  split at h
  · cases h
  · split at h
    · cases h
      exact ⟨_, rfl⟩
    · cases h

/-- There is room for the clipboard. -/
def Pastes (s : Input) : Prop :=
  ∃ clp ∈ cstring ((range INPUT_BUF).map s.clipboard),
    (s.e - s.r).toNat + clp.length ≤ INPUT_BUF

instance (s : Input) : Decidable s.Pastes := inferInstanceAs (Decidable (∃ _ ∈ cstring _, _))

/-- The copying keys find the end of a string that the clipboard can hold, and the pasting keys find
room. -/
def Fits (s : Input) (c : UInt8) : Prop :=
  (c = ctrl 'C' ∨ c = ctrl 'X' → s.copyLine.isSome) ∧
    (c = ctrl 'V' → s.Pastes) ∧ (c = ctrl 'B' → s.killLine.Pastes)

instance (s : Input) (c : UInt8) : Decidable (s.Fits c) := inferInstanceAs (Decidable (_ ∧ _))

theorem Ring.pasteLine (h : Ring s xs ys) (hp : s.Pastes) :
    ∃ s' ys', s.pasteLine = some s' ∧ s'.r = s.r ∧ Ring s' xs ys' := by
  obtain ⟨clp, hclp, hroom⟩ := hp
  rw [h.sub_r] at hroom
  refine ⟨clp.foldl Input.store s, ys ++ clp, ?_, foldl_store_r clp s, h.foldl_store hroom⟩
  rw [Input.pasteLine, Option.mem_def.mp hclp]
  rfl

theorem Ring.typeChar (h : Ring s xs ys) (c : UInt8) :
    ∃ zs ys', Ring (s.typeChar c) (xs ++ zs) ys' := by
  by_cases hd : c = 0 ∨ xs.length + ys.length = INPUT_BUF
  · rw [h.typeChar_dropped hd]
    exact ⟨[], ys, by rwa [append_nil]⟩
  · rw [not_or] at hd
    have hkept := h.typeChar_kept hd.1 (lt_of_le_of_ne h.length_le hd.2)
    split at hkept
    · exact ⟨ys ++ [stored c], [], hkept⟩
    · exact ⟨[], ys ++ [stored c], by rwa [append_nil]⟩

theorem typeChar_r (s : Input) (c : UInt8) : (s.typeChar c).r = s.r := by
  unfold Input.typeChar
  generalize (if c = CR then NL else c) = b
  split
  · dsimp only
    split <;> rfl
  · rfl

theorem Ring.consoleintr (h : Ring s xs ys) (hf : s.Fits c) :
    ∃ s' zs ys', s.consoleintr c = some s' ∧ s'.r = s.r ∧ Ring s' (xs ++ zs) ys' := by
  have hkeep : ∀ t {ys'}, t.r = s.r → Ring t xs ys' → s.consoleintr c = some t →
      ∃ s' zs ys', s.consoleintr c = some s' ∧ s'.r = s.r ∧ Ring s' (xs ++ zs) ys' :=
    fun t ys' hr hring heq => ⟨t, [], ys', heq, hr, by rwa [append_nil]⟩
  have hkill := (killLoop_r (s.e - s.w).toNat s).1
  unfold Input.consoleintr at hkeep ⊢
  split_ifs at hkeep ⊢ with hP hU hH he hC hV hB hX
  · exact hkeep s rfl h rfl
  · exact hkeep _ hkill h.killLine rfl
  · rcases eq_nil_or_concat ys with rfl | ⟨zs, y, rfl⟩
    · exact absurd (h.e_eq_w.mpr rfl) he
    · rw [concat_eq_append] at h
      exact hkeep s.erase rfl h.erase rfl
  · exact hkeep s rfl h rfl
  · obtain ⟨t, ht⟩ := Option.isSome_iff_exists.mp (hf.1 (.inl hC))
    obtain ⟨clip, rfl⟩ := copyLine_some ht
    exact hkeep { s with clipboard := clip } rfl ⟨h.holds, h.commit⟩ ht
  · obtain ⟨s', ys', heq, hr, hring⟩ := h.pasteLine (hf.2.1 hV)
    exact hkeep s' hr hring heq
  · obtain ⟨s', ys', heq, hr, hring⟩ := h.killLine.pasteLine (hf.2.2 hB)
    exact hkeep s' (hr.trans hkill) hring heq
  · obtain ⟨t, ht⟩ := Option.isSome_iff_exists.mp (hf.1 (.inr hX))
    obtain ⟨clip, rfl⟩ := copyLine_some ht
    have hcopy : Ring { s with clipboard := clip } xs ys := ⟨h.holds, h.commit⟩
    refine hkeep { s with clipboard := clip }.killLine ?_ hcopy.killLine ?_
    · exact (killLoop_r _ _).1
    · rw [ht]
      rfl
  · obtain ⟨zs, ys', hring⟩ := h.typeChar c
    exact ⟨_, zs, ys', rfl, typeChar_r s c, hring⟩

/-- What a turn of `consoleread` does with the next byte `x`: it leaves a `C('D')` to the next call
if it has bytes already, else it ends with it; any other byte is stored. -/
inductive Turned (s : Input) (q : Read) (x : UInt8) : Input × Read × Bool → Prop where
  | leave (hx : x = ctrl 'D') (hn : q.n < q.target) : Turned s q x (s, q, true)
  | stop (hx : x = ctrl 'D') (hn : ¬ q.n < q.target) :
      Turned s q x ({ s with r := s.r + 1 }, q, true)
  | take (hx : x ≠ ctrl 'D') : Turned s q x
      ({ s with r := s.r + 1 }, { q with dst := q.dst ++ [x], n := q.n - 1 },
        x = NL ∨ q.n - 1 ≤ 0)

theorem Ring.readTurn {q : Read} {o : Input × Read × Bool} (h : Ring s xs ys)
    (hr : Console.readTurn s q = some o) : ∃ x xs', xs = x :: xs' ∧ Turned s q x o := by
  unfold Console.readTurn at hr
  split at hr
  · cases hr
  · rename_i hne
    cases xs with
    | nil => exact absurd (h.r_eq_w.mpr rfl) hne
    | cons x xs =>
      refine ⟨x, xs, rfl, ?_⟩
      rw [h.read.1] at hr
      dsimp only at hr
      split at hr
      · rename_i hx
        split at hr
        · rename_i hn
          cases hr
          rw [UInt32.add_sub_cancel]
          exact .leave hx hn
        · rename_i hn
          cases hr
          exact .stop hx hn
      · rename_i hx
        cases hr
        exact .take hx

end Input

namespace Input

/-- `0 <= w - r <= e - r <= INPUT_BUF`, modulo `2 ^ 32`. -/
def Bounded (s : Input) : Prop :=
  s.w - s.r ≤ s.e - s.r ∧ s.e - s.r ≤ UInt32.ofNat INPUT_BUF

instance (s : Input) : Decidable s.Bounded := inferInstanceAs (Decidable (_ ∧ _))

/-- The bytes in `[r, w)` are as they were. -/
def Intact (s s' : Input) : Prop :=
  ∀ k < (s.w - s.r).toNat,
    s'.buf ((s.r.toNat + k) % INPUT_BUF) = s.buf ((s.r.toNat + k) % INPUT_BUF)

theorem Ring.bounded (h : Ring s xs ys) : s.Bounded := by
  constructor
  · rw [UInt32.le_iff_toNat_le, h.w_sub_r, h.sub_r]
    omega
  · rw [UInt32.le_iff_toNat_le, h.sub_r]
    exact h.length_le

theorem Ring.intact {zs ys' : List UInt8} (h : Ring s xs ys) (h' : Ring s' (xs ++ zs) ys')
    (hr : s'.r = s.r) : Intact s s' := by
  intro k hk
  rw [h.w_sub_r] at hk
  have hget : xs[k]? = some xs[k] := getElem?_eq_getElem hk
  have hnew := h'.committed.slots k xs[k] (by rwa [getElem?_append_left hk])
  rw [← hr]
  exact hnew.trans (h.committed.slots k xs[k] hget ▸ by rw [hr])

end Input

namespace Cons

variable {s s' : Cons}

/-- The clipboard keys find what they need. -/
def Fits (s : Cons) : Event → Prop
  | .key c => s.input.Fits c
  | _ => True

instance (s : Cons) (e : Event) : Decidable (s.Fits e) :=
  match e with
  | .key c => inferInstanceAs (Decidable (s.input.Fits c))
  | .call _ _ => inferInstanceAs (Decidable True)
  | .turn _ => inferInstanceAs (Decidable True)
  | .killed _ => inferInstanceAs (Decidable True)

def FitStep (s : Cons) (e : Event) (s' : Cons) : Prop := s.Fits e ∧ s.Step e s'

theorem FitStep.ring {e : Event} {xs ys : List UInt8} (hs : FitStep s e s')
    (h : s.input.Ring xs ys) : (∃ xs' ys', s'.input.Ring xs' ys') ∧ s.input.Intact s'.input := by
  obtain ⟨hf, hst⟩ := hs
  cases e with
  | key c =>
    obtain ⟨i, zs, ys', heq, hr, hring⟩ := h.consoleintr hf
    simp only [Step, step, heq, Option.map_some, Option.some.injEq] at hst
    subst hst
    exact ⟨⟨xs ++ zs, ys', hring⟩, h.intact hring hr⟩
  | call p n =>
    simp only [Step, step] at hst
    split_ifs at hst <;> cases hst <;> exact ⟨⟨xs, ys, h⟩, fun _ _ => rfl⟩
  | turn p =>
    simp only [Step, step] at hst
    split at hst
    · cases hst
    · rename_i q hq
      cases ho : readTurn s.input q with
      | none => simp [ho] at hst
      | some o =>
        obtain ⟨x, xs', rfl, hturn⟩ := h.readTurn ho
        have hkeep : (∃ xs' ys', o.1.Ring xs' ys') ∧ s.input.Intact o.1 := by
          cases hturn with
          | leave hx hn => exact ⟨⟨x :: xs', ys, h⟩, fun _ _ => rfl⟩
          | stop hx hn => exact ⟨⟨xs', ys, h.read.2⟩, fun _ _ => rfl⟩
          | take hx => exact ⟨⟨xs', ys, h.read.2⟩, fun _ _ => rfl⟩
        obtain ⟨i, q', last⟩ := o
        simp only [ho] at hst
        split at hst <;> cases hst <;> exact hkeep
  | killed p =>
    simp only [Step, step] at hst
    split at hst
    · cases hst
    · split at hst
      · cases hst
        exact ⟨⟨xs, ys, h⟩, fun _ _ => rfl⟩
      · cases hst

theorem reach_ring (h : Reach Init FitStep s) : ∃ xs ys, s.input.Ring xs ys := by
  refine h.invariant (P := fun s => ∃ xs ys, s.input.Ring xs ys) ?_ ?_
  · intro s hi
    exact ⟨[], [], .nil hi.1 hi.2.1⟩
  · intro s e s' hr hs
    obtain ⟨xs, ys, hring⟩ := hr
    exact (hs.ring hring).1

/-- In every run whose clipboard keys find what they need, the counters stay in order, no key leaves
its memory, and no step overwrites a committed byte. -/
theorem input_ring (h : Reach Init FitStep s) : s.input.Bounded ∧
    (∀ c, s.input.Fits c → (s.input.consoleintr c).isSome) ∧
    ∀ e s', FitStep s e s' → s.input.Intact s'.input := by
  obtain ⟨xs, ys, hring⟩ := reach_ring h
  refine ⟨hring.bounded, fun c hf => ?_, fun e s' hs => (hs.ring hring).2⟩
  obtain ⟨i, -, -, heq, -⟩ := hring.consoleintr hf
  rw [heq]
  rfl

def boot : Cons := ⟨⟨fun _ => 0, 0, 0, 0, fun _ => 0⟩, fun _ => none, []⟩

theorem boot_init : Init boot := ⟨rfl, rfl, fun _ => rfl, rfl⟩

/-- A step, if the clipboard keys find what they need. -/
def fitNext (s : Cons) (e : Event) : Option Cons := if s.Fits e then s.step e else none

theorem fitNext_some {e : Event} (h : s.fitNext e = some s') : FitStep s e s' := by
  unfold fitNext at h
  split at h
  · exact ⟨‹_›, h⟩
  · cases h

/-- Some characters, `Ctrl-C` and `Ctrl-V`. -/
def pastes (n : Nat) : List Event :=
  (replicate n (97 : UInt8) ++ [ctrl 'C', ctrl 'V']).map .key

theorem input_ring_paste :
    ∃ s, Reach Init FitStep s ∧ s.input.e - s.input.r = 6 ∧ s.input.Bounded := by
  have hrun : (((pastes 3).foldlM fitNext boot).any fun s => s.input.e - s.input.r = 6) = true := by
    decide +kernel
  obtain ⟨s, hs, h⟩ := (Option.any_eq_true _ _).mp hrun
  have hreach : Reach Init FitStep s := (Reach.start boot_init).follow (f := fitNext)
    (Q := fun _ => True) (fun _ _ _ _ h => fitNext_some h) (fun _ _ => trivial) hs
  exact ⟨s, hreach, of_decide_eq_true h, (input_ring hreach).1⟩

/-- A line of 100 characters, copied and pasted: `e - r` is 200. -/
theorem paste_overruns : ∃ s, Reach Init Step s ∧ ¬ s.input.Bounded := by
  have hrun : (((pastes 100).foldlM step boot).any fun s => ¬ s.input.Bounded) = true := by
    decide +kernel
  obtain ⟨s, hs, h⟩ := (Option.any_eq_true _ _).mp hrun
  exact ⟨s, (Reach.start boot_init).follow (Q := fun _ => True) (fun _ _ _ _ h => h)
    (fun _ _ => trivial) hs, of_decide_eq_true h⟩

end Cons

end Xv6.Console

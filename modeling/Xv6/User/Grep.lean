import Xv6.Lib.Lines
import Xv6.User.Match
import Xv6.User.Ulib

/-!
# Xv6.User.Grep

The loop of `grep` over its input.

The buffer holds the beginning of a line that the last read has left, and the bytes of the next
read behind it. All whole lines are matched and what remains is moved to the front, but only if
there was a whole line: where a read ends without any newline in the buffer, `p == buf` is taken for
an empty buffer and the bytes are given up. So the output is that of the lines of the input exactly
where every read brings a newline.
-/

namespace Xv6.User
namespace Grep

open Bytes Lines Function List

abbrev nl : UInt8 := 10

abbrev SIZE : Nat := 1024

/-- The inner loop from `p` on: the last `p`, the buffer, and the writes so far. There are no more
turns than bytes. -/
def lineLoop (pattern : List UInt8) :
    Nat → Nat → Store → List (List UInt8) → Nat × Store × List (List UInt8)
  | 0, p, buf, out => (p, buf, out)
  | n + 1, p, buf, out =>
    match strchr buf nl (SIZE - p) p with
    | none => (p, buf, out)
    | some q =>
      let buf := update buf q 0
      if match_ pattern (stringAt buf (SIZE - p) p) then
        let buf := update buf q nl
        lineLoop pattern n (q + 1) buf (out ++ [slice buf p (q + 1 - p)])
      else lineLoop pattern n (q + 1) buf out

/-- `buf`, `m`, and what has been written to the standard output. -/
structure St where
  buf : Store
  m : Nat
  out : List (List UInt8)

/-- One turn of the outer loop, for a `read` that has returned `chunk`. -/
def step (pattern : List UInt8) (s : St) (chunk : List UInt8) : St :=
  let m := s.m + chunk.length
  let buf := update (patch s.buf s.m chunk.length (chunk.getD · 0)) m 0
  let r := lineLoop pattern SIZE 0 buf s.out
  let m := if r.1 = 0 then 0 else m
  if 0 < m then ⟨memmove r.2.1 0 r.1 (m - r.1), m - r.1, r.2.2⟩ else ⟨r.2.1, m, r.2.2⟩

/-- The chunks are what `read` can return: not empty, and not more than it is asked for. -/
def Served (pattern : List UInt8) : St → List (List UInt8) → Prop
  | _, [] => True
  | s, chunk :: cs =>
    chunk ≠ [] ∧ chunk.length ≤ SIZE - s.m - 1 ∧ Served pattern (step pattern s chunk) cs

/-- `grep` on an input that comes in these chunks, with anything in the buffer before. -/
def grep (pattern : List UInt8) (buf : Store) (cs : List (List UInt8)) : List (List UInt8) :=
  (cs.foldl (step pattern) ⟨buf, 0, []⟩).out

/-- The lines that match, as they are written. -/
def matching (pattern : List UInt8) (ls : List (List UInt8)) : List (List UInt8) :=
  (ls.filter (match_ pattern)).map (· ++ [nl])

theorem lineLoop_lines (pattern : List UInt8) {tail : List UInt8} (htail : nl ∉ tail)
    (htail0 : 0 ∉ tail) : ∀ (ls : List (List UInt8)) (n p : Nat) (buf : Store)
    (out : List (List UInt8)), (∀ l ∈ ls, nl ∉ l) → (∀ l ∈ ls, 0 ∉ l) →
      slice buf p (joined nl ls ++ tail).length = joined nl ls ++ tail →
      buf (p + (joined nl ls ++ tail).length) = 0 →
      p + (joined nl ls ++ tail).length < SIZE → ls.length ≤ n →
      ∃ buf', lineLoop pattern n p buf out =
          (p + (joined nl ls).length, buf', out ++ matching pattern ls) ∧
        slice buf' (p + (joined nl ls).length) tail.length = tail := by
  intro ls
  induction ls with
  | nil =>
    intro n p buf out _ _ hslice hend hsize _
    refine ⟨buf, ?_, by simpa using hslice⟩
    have hnone : strchr buf nl (SIZE - p) p = none := by
      refine strchr_none (by simpa using hslice) htail0 htail (by simpa using hend) ?_
      simp only [joined_nil, nil_append] at hsize
      omega
    cases n with
    | zero => simp [lineLoop, matching]
    | succ n => rw [lineLoop, hnone]; simp [matching]
  | cons l ls ih =>
    intro n p buf out hls hls0 hslice hend hsize hn
    have hl := hls l mem_cons_self
    have hl0 := hls0 l mem_cons_self
    -- The bytes from `p` on: the line, its newline, the rest.
    have hshape : joined nl (l :: ls) ++ tail = l ++ nl :: (joined nl ls ++ tail) := by
      rw [joined_cons, append_assoc, cons_append]
    generalize hrest : joined nl ls ++ tail = rest at hshape
    rw [hshape] at hslice hend hsize
    rw [length_append, slice_add] at hslice
    obtain ⟨hline, hslice⟩ := append_inj hslice (slice_length _ _ _)
    rw [length_cons, slice_succ] at hslice
    obtain ⟨hnl, hslice⟩ := List.cons.inj hslice
    rw [length_append, length_cons] at hend hsize
    cases n with
    | zero => simp at hn
    | succ n =>
      have hfind : strchr buf nl (SIZE - p) p = some (p + l.length) :=
        strchr_some hline hl0 hl hnl (by decide) (by omega)
      have htext : stringAt (update buf (p + l.length) 0) (SIZE - p) p = l := by
        refine stringAt_eq ?_ hl0 (update_self _ _ _) (by omega)
        rw [slice_update (.inr le_rfl)]
        exact hline
      -- Whatever byte is left behind the line, the rest stays as it was.
      have hnext : ∀ (buf' : Store) (out' : List (List UInt8)),
          (∀ k, p + l.length + 1 ≤ k → buf' k = buf k) →
          ∃ buf'', lineLoop pattern n (p + l.length + 1) buf' out' =
              (p + (joined nl (l :: ls)).length, buf'', out' ++ matching pattern ls) ∧
            slice buf'' (p + (joined nl (l :: ls)).length) tail.length = tail := by
        intro buf' out' hsame
        have hlen : p + (joined nl (l :: ls)).length =
            p + l.length + 1 + (joined nl ls).length := by
          rw [joined_cons, length_append, length_cons]
          omega
        rw [hlen]
        refine ih n (p + l.length + 1) buf' out' (fun m hm => hls m (mem_cons_of_mem _ hm))
          (fun m hm => hls0 m (mem_cons_of_mem _ hm)) ?_ ?_ ?_ (Nat.le_of_succ_le_succ hn)
        · rw [hrest, slice_congr fun k hk _ => hsame k hk]
          exact hslice
        · rw [hrest, hsame _ (by omega), ← hend]
          congr 1
          omega
        · rw [hrest]
          omega
      rw [lineLoop, hfind]
      simp only [htext]
      by_cases hmatch : match_ pattern l = true
      · have hback : update (update buf (p + l.length) 0) (p + l.length) nl =
            buf := by
          rw [update_idem, ← hnl, update_eq_self]
        have hwrite : slice buf p (p + l.length + 1 - p) = l ++ [nl] := by
          have hcount : p + l.length + 1 - p = l.length + 1 := by omega
          rw [hcount, slice_add, hline, slice_succ, hnl]
          rfl
        rw [if_pos hmatch, hback, hwrite]
        obtain ⟨buf', hrun, htl⟩ := hnext buf (out ++ [l ++ [nl]]) fun _ _ => rfl
        refine ⟨buf', ?_, htl⟩
        rw [hrun, matching, matching, filter_cons_of_pos hmatch, map_cons, append_assoc]
        rfl
      · rw [if_neg hmatch]
        obtain ⟨buf', hrun, htl⟩ := hnext (update buf (p + l.length) 0) out
          fun k hk => update_of_ne (by omega) _ _
        refine ⟨buf', ?_, htl⟩
        rw [hrun, matching, matching, filter_cons_of_neg hmatch]

/-- The first `m` bytes of the buffer are the beginning of a line. -/
structure Carries (s : St) (carry : List UInt8) : Prop where
  len : s.m = carry.length
  bytes : slice s.buf 0 carry.length = carry
  noNl : nl ∉ carry
  noNul : 0 ∉ carry

theorem filled {s : St} {carry : List UInt8} (hs : Carries s carry) (chunk : List UInt8) :
    slice (update (patch s.buf s.m chunk.length (chunk.getD · 0))
      (s.m + chunk.length) 0) 0 (carry ++ chunk).length = carry ++ chunk := by
  rw [length_append, slice_update (.inr (by rw [hs.len]; omega)), slice_add]
  congr 1
  · rw [← hs.bytes, slice_length]
    refine slice_congr fun k _ hk => patch_out (.inl ?_)
    rw [hs.len]
    omega
  · rw [hs.len, Nat.zero_add]
    refine ext_getElem (slice_length _ _ _) fun i _ hi => ?_
    simp only [slice, getElem_map, getElem_range', Nat.one_mul]
    rw [patch_in (by omega) (by omega), Nat.add_sub_cancel_left, getD_eq_getElem?_getD,
      getElem?_eq_getElem hi, Option.getD_some]

theorem step_spec (pattern : List UInt8) {s : St} {carry chunk tail : List UInt8}
    {ls : List (List UInt8)} (hs : Carries s carry) (h0 : 0 ∉ chunk)
    (hfit : chunk.length ≤ SIZE - s.m - 1) (hne : chunk ≠ [])
    (hcut : Cut nl (carry ++ chunk) ls tail) :
    Carries (step pattern s chunk) (if nl ∈ chunk then tail else []) ∧
      (step pattern s chunk).out = s.out ++ matching pattern ls := by
  have hpos : 0 < chunk.length := length_pos_iff.mpr hne
  have hall0 : 0 ∉ carry ++ chunk := fun h => (mem_append.mp h).elim hs.noNul h0
  have hlen : s.m + chunk.length = (joined nl ls ++ tail).length := by
    rw [← hcut.eq, length_append, hs.len]
  have hbytes := filled hs chunk
  rw [hcut.eq] at hbytes hall0
  have hls0 : ∀ l ∈ ls, 0 ∉ l := fun l hl h => hall0 (mem_append_left _
    (mem_flatMap.mpr ⟨l, hl, mem_append_left _ h⟩))
  have htail0 : 0 ∉ tail := fun h => hall0 (mem_append_right _ h)
  have hcount : ls.length ≤ (joined nl ls).length := joined_length_le ls
  obtain ⟨buf', hrun, htl⟩ := lineLoop_lines pattern hcut.rest htail0 ls SIZE 0 _ s.out hcut.lines
    hls0 hbytes (by rw [Nat.zero_add, ← hlen, update_self]) (by omega) (by
      rw [length_append] at hlen
      omega)
  rw [Nat.zero_add] at hrun htl
  rw [step, hrun]
  simp only
  have hiff : ls = [] ↔ nl ∉ chunk := by
    rw [hcut.nil_iff, mem_append, not_or]
    exact and_iff_right hs.noNl
  by_cases hnl : nl ∈ chunk
  · have hls : ls ≠ [] := fun h => hiff.mp h hnl
    have hJ : 0 < (joined nl ls).length := length_pos_of_mem (mem_joined ls hls)
    have hrest : s.m + chunk.length - (joined nl ls).length = tail.length := by
      rw [hlen, length_append, Nat.add_sub_cancel_left]
    rw [if_neg (Nat.ne_of_gt hJ), if_pos (by omega), if_pos hnl, hrest]
    refine ⟨⟨rfl, ?_, hcut.rest, htail0⟩, rfl⟩
    refine Eq.trans (ext_getElem (by simp) fun i hi hi' => ?_) htl
    simp only [slice, getElem_map, getElem_range', Nat.one_mul, Nat.zero_add]
    rw [memmove_down _ _ _ _ (Nat.zero_le _), if_pos ⟨Nat.zero_le _, by simpa using hi⟩,
      Nat.sub_zero]
  · obtain rfl : ls = [] := hiff.mpr hnl
    rw [joined_nil, length_nil, if_pos rfl, if_neg (Nat.lt_irrefl 0), if_neg hnl]
    exact ⟨⟨rfl, rfl, not_mem_nil, not_mem_nil⟩, rfl⟩

theorem carries_start (buf : Store) (out : List (List UInt8)) : Carries ⟨buf, 0, out⟩ [] :=
  ⟨rfl, rfl, not_mem_nil, not_mem_nil⟩

theorem run_newlines (pattern : List UInt8) : ∀ (cs : List (List UInt8)) {s : St}
    {carry tail : List UInt8} {ls : List (List UInt8)}, Carries s carry → Served pattern s cs →
    (∀ c ∈ cs, 0 ∉ c) → (∀ c ∈ cs, nl ∈ c) → Cut nl (carry ++ cs.flatten) ls tail →
      (cs.foldl (step pattern) s).out = s.out ++ matching pattern ls := by
  intro cs
  induction cs with
  | nil =>
    intro s carry tail ls hs _ _ _ hcut
    have hnil : Cut nl (carry ++ [].flatten) [] carry :=
      ⟨append_nil _, fun _ h => absurd h not_mem_nil, hs.noNl⟩
    obtain ⟨rfl, -⟩ := hcut.unique hnil
    exact (append_nil _).symm
  | cons c cs ih =>
    intro s carry tail ls hs hserved h0 hnl hcut
    obtain ⟨hne, hfit, hserved⟩ := hserved
    obtain ⟨ls1, tail1, hcut1⟩ := exists_cut nl (carry ++ c)
    obtain ⟨ls2, tail2, hcut2⟩ := exists_cut nl (tail1 ++ cs.flatten)
    obtain ⟨hs1, hout1⟩ := step_spec pattern hs (h0 c mem_cons_self) hfit hne hcut1
    rw [if_pos (hnl c mem_cons_self)] at hs1
    have hboth := hcut1.append hcut2
    rw [append_assoc] at hboth
    obtain ⟨rfl, -⟩ := hcut.unique hboth
    rw [foldl_cons, ih hs1 hserved (fun d hd => h0 d (mem_cons_of_mem _ hd))
      (fun d hd => hnl d (mem_cons_of_mem _ hd)) hcut2, hout1, append_assoc, matching,
      matching, matching, filter_append, map_append]

theorem matching_nil (ls : List (List UInt8)) : matching [] ls = ls.map (· ++ [nl]) := by
  have hall : ∀ l : List UInt8, match_ [] l = true := by
    intro l
    cases l <;> rfl
  rw [matching, filter_eq_self.mpr fun l _ => hall l]

/-- The bytes written and the bytes carried. -/
def St.weight (s : St) : Nat := s.out.flatten.length + s.m

theorem step_weight {s : St} {carry chunk : List UInt8} (hs : Carries s carry) (h0 : 0 ∉ chunk)
    (hfit : chunk.length ≤ SIZE - s.m - 1) (hne : chunk ≠ []) :
    (∃ carry', Carries (step [] s chunk) carry') ∧
    (step [] s chunk).weight ≤ s.weight + chunk.length ∧
    (nl ∉ chunk → (step [] s chunk).weight < s.weight + chunk.length) := by
  have hpos : 0 < chunk.length := length_pos_iff.mpr hne
  obtain ⟨ls, tail, hcut⟩ := exists_cut nl (carry ++ chunk)
  obtain ⟨hs', hout⟩ := step_spec [] hs h0 hfit hne hcut
  refine ⟨⟨_, hs'⟩, ?_⟩
  have hlen := congrArg List.length hcut.eq
  have hm := hs'.len
  have hwrite : (matching [] ls).flatten = joined nl ls := by
    rw [matching_nil, joined, flatMap_def]
  simp only [St.weight, hout, flatten_append, length_append, hwrite, hm, hs.len] at hlen ⊢
  by_cases hnl : nl ∈ chunk
  · rw [if_pos hnl]
    exact ⟨by omega, fun h => absurd hnl h⟩
  · rw [if_neg hnl]
    have hnil : ls = [] := by
      rw [hcut.nil_iff, mem_append, not_or]
      exact ⟨hs.noNl, hnl⟩
    rw [hnil, joined_nil] at hlen ⊢
    simp only [length_nil] at hlen ⊢
    exact ⟨by omega, fun _ => by omega⟩

theorem run_weight : ∀ (cs : List (List UInt8)) {s : St} {carry : List UInt8}, Carries s carry →
    Served [] s cs → (∀ c ∈ cs, 0 ∉ c) →
      (cs.foldl (step []) s).weight ≤ s.weight + cs.flatten.length ∧
      ((∃ c ∈ cs, nl ∉ c) → (cs.foldl (step []) s).weight < s.weight + cs.flatten.length) := by
  intro cs
  induction cs with
  | nil => intro s carry _ _ _; exact ⟨le_rfl, fun ⟨c, hc, _⟩ => absurd hc not_mem_nil⟩
  | cons c cs ih =>
    intro s carry hs hserved h0
    obtain ⟨hne, hfit, hserved⟩ := hserved
    obtain ⟨⟨carry', hs'⟩, hle, hlt⟩ := step_weight hs (h0 c mem_cons_self) hfit hne
    obtain ⟨hle', hlt'⟩ := ih hs' hserved fun d hd => h0 d (mem_cons_of_mem _ hd)
    rw [foldl_cons, flatten_cons, length_append]
    refine ⟨by omega, ?_⟩
    rintro ⟨d, hd, hnl⟩
    rcases mem_cons.mp hd with rfl | hd
    · have := hlt hnl
      omega
    · have := hlt' ⟨d, hd, hnl⟩
      omega

/-- `grep` writes the lines that match, each once and in order, whatever the pattern, exactly if
every read brings at least one newline. -/
theorem grep_lines_iff (ls cs : List (List UInt8)) (buf : Store) (hnl : ∀ l ∈ ls, nl ∉ l)
    (h0 : ∀ l ∈ ls, 0 ∉ l) (hsplit : cs.flatten = joined nl ls)
    (hserved : ∀ pattern, Served pattern ⟨buf, 0, []⟩ cs) :
    (∀ pattern, grep pattern buf cs = matching pattern ls) ↔ ∀ c ∈ cs, nl ∈ c := by
  have hcs0 : ∀ c ∈ cs, 0 ∉ c := by
    intro c hc hmem
    have hin : (0 : UInt8) ∈ joined nl ls := by
      rw [← hsplit]
      exact mem_flatten.mpr ⟨c, hc, hmem⟩
    obtain ⟨l, hl, h⟩ := mem_flatMap.mp hin
    rcases mem_append.mp h with h | h
    · exact h0 l hl h
    · simp [nl] at h
  constructor
  · intro hgood c hc
    by_contra hno
    -- With the empty pattern all bytes of the input would be written.
    have hlt := (run_weight cs (carries_start buf []) (hserved []) hcs0).2 ⟨c, hc, hno⟩
    have hall : (cs.foldl (step []) ⟨buf, 0, []⟩).out = matching [] ls := hgood []
    have hbytes : (matching [] ls).flatten.length = cs.flatten.length := by
      rw [hsplit, matching_nil, joined, flatMap_def]
    simp only [St.weight, hall, hbytes, flatten_nil, length_nil] at hlt
    omega
  · intro hread pattern
    have hcut : Cut nl ([] ++ cs.flatten) ls [] :=
      ⟨by rw [hsplit, append_nil, nil_append], hnl, not_mem_nil⟩
    exact run_newlines pattern cs (carries_start buf []) (hserved pattern) hcs0 hread hcut

/-- The lines `ab` and `cd` in two reads that part the second. -/
theorem grep_lines_iff_carried : (∀ pattern, grep pattern (fun _ => 0)
    [[97, 98, nl, 99], [100, nl]] = matching pattern [[97, 98], [99, 100]]) ∧
    ∀ c ∈ [[97, 98, nl, 99], [100, nl]], nl ∈ c := by
  have hserved : ∀ pattern, Served pattern ⟨fun _ => 0, 0, []⟩ [[97, 98, nl, 99], [100, nl]] := by
    intro pattern
    have hcut : Cut nl ([] ++ [97, 98, nl, 99]) [[97, 98]] [99] :=
      ⟨rfl, by simp [nl], by simp [nl]⟩
    obtain ⟨hs, -⟩ := step_spec pattern (carries_start (fun _ => 0) []) (by decide)
      (by decide) (cons_ne_nil _ _) hcut
    generalize hst : step pattern ⟨fun _ => 0, 0, []⟩ [97, 98, nl, 99] = st at hs
    have hrest : Served pattern st [[100, nl]] := by
      refine ⟨cons_ne_nil _ _, ?_, trivial⟩
      rw [hs.len]
      decide
    rw [Served, hst]
    exact ⟨cons_ne_nil _ _, by decide, hrest⟩
  have hnl : ∀ c ∈ [[97, 98, nl, 99], [100, nl]], nl ∈ c := by simp
  exact ⟨(grep_lines_iff [[97, 98], [99, 100]] [[97, 98, nl, 99], [100, nl]] (fun _ => 0)
    (by simp [nl]) (by simp) rfl hserved).mpr hnl, hnl⟩

/-- The line `ab` in two reads: `grep b` writes the line `b`. -/
theorem grep_lines_cut : Served [98] ⟨fun _ => 0, 0, []⟩ [[97], [98, nl]] ∧
    grep [98] (fun _ => 0) [[97, 98, nl]] = [[97, 98, nl]] ∧
    grep [98] (fun _ => 0) [[97], [98, nl]] = [[98, nl]] :=
  ⟨⟨cons_ne_nil _ _, by decide, cons_ne_nil _ _, by decide +kernel, trivial⟩,
    by decide +kernel, by decide +kernel⟩

end Grep
end Xv6.User

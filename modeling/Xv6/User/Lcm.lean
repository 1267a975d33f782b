import Mathlib.Algebra.GCDMonoid.Multiset
import Mathlib.Algebra.GCDMonoid.Nat
import Mathlib.Data.Nat.Digits.Lemmas
import Xv6.Kernel.Table

/-!
# Xv6.User.Lcm

The program `lcm`.

It folds a search over its arguments, turns the result into decimal digits from the end of a static
buffer, and writes the digits and a newline to `lcm_result.txt`. The search is right as long as the
least common multiple is an `int`. The number of bytes written does not depend on the number:
`sizeof` of what `itoa` returns is the size of a pointer, so seven bytes are written, and a result
with more digits is cut.
-/

namespace Xv6.User
namespace Lcm

open Bytes Function List
open Kernel (wrap)

/-- Why the program does not come to its end: the search goes on beyond the given number of turns,
a division traps, or a byte outside the digits is read. -/
inductive Stop where
  | fuel
  | divide
  | outside
  deriving DecidableEq, Repr

/-- `a % b` on `int`s. -/
def rem (a b : Int) : Except Stop Int :=
  if b = 0 ∨ (a = -2 ^ 31 ∧ b = -1) then .error .divide else .ok (a.tmod b)

/-- `a / b` on `int`s. -/
def quot (a b : Int) : Except Stop Int :=
  if b = 0 ∨ (a = -2 ^ 31 ∧ b = -1) then .error .divide else .ok (a.tdiv b)

/-- `max_of_two % num1 == 0 && max_of_two % num2 == 0`. -/
def common (num1 num2 max : Int) : Except Stop Bool := do
  let r ← rem max num1
  if r ≠ 0 then return false
  let r ← rem max num2
  return r = 0

/-- The `while(1)` of `lcm_of_two`. -/
def lcmLoop (num1 num2 : Int) : Nat → Int → Except Stop Int
  | 0, _ => .error .fuel
  | n + 1, max => do
    let found ← common num1 num2 max
    if found then return max else lcmLoop num1 num2 n (wrap (max + 1))

def lcmOfTwo (fuel : Nat) (num1 num2 : Int) : Except Stop Int :=
  lcmLoop num1 num2 fuel (if num1 > num2 then num1 else num2)

/-- The loop of `atoi` on the bytes before the NUL. -/
def atoiLoop : Int → List UInt8 → Int
  | n, [] => n
  | n, c :: s =>
    if 48 ≤ c ∧ c ≤ 57 then atoiLoop (wrap (wrap (wrap (n * 10) + c.toNat) - 48)) s else n

def atoi (s : List UInt8) : Int := atoiLoop 0 s

/-- The string `"0123456789abcdef"`, with its NUL. -/
def figures : List UInt8 :=
  [48, 49, 50, 51, 52, 53, 54, 55, 56, 57, 97, 98, 99, 100, 101, 102, 0]

def figure (k : Int) : Except Stop UInt8 :=
  if 0 ≤ k ∧ k < 17 then .ok (figures.getD k.toNat 0) else .error .outside

/-- The loop of `itoa`, with `i` and `buf` at its end. -/
def itoaLoop (base : Int) : Nat → Int → Store → Except Stop (Nat × Store)
  | 0, _, buf => .ok (0, buf)
  | i + 1, val, buf =>
    if val = 0 then .ok (i + 1, buf)
    else do
      let k ← rem val base
      let c ← figure k
      let val ← quot val base
      itoaLoop base i val (update buf (i + 1) c)

/-- `itoa`: the index in `buf` that the returned pointer has, and the memory from `buf` on. -/
def itoa (val base : Int) (buf : Store) : Except Stop (Nat × Store) := do
  let r ← itoaLoop base 30 val buf
  return (r.1 + 1, r.2)

/-- A file after `write` of `bs` at offset `off`. -/
def writeAt (f : List UInt8) (off : Nat) (bs : List UInt8) : List UInt8 :=
  f.take off ++ bs ++ f.drop (off + bs.length)

/-- `sizeof(itoa(lcm,10))`: a `char *`. -/
abbrev SIZEOF_PTR : Nat := 4

/-- The part of `main` behind the search: `open` without truncation, and the two writes. All three
are taken to succeed. -/
def store (lcm : Int) (data : Store) (file : Option (List UInt8)) :
    Except Stop (Option (List UInt8)) := do
  let r ← itoa lcm 10 data
  let f := writeAt (file.getD []) 0 ((range' r.1 (SIZEOF_PTR + 3)).map r.2)
  return some (writeAt f (SIZEOF_PTR + 3) [10, 0])

/-- `main` with the strings `argv[1]`, `argv[2]`, ..., the memory from the static `buf` on, and
`lcm_result.txt` if there is one; the file as it leaves it. -/
def main (fuel : Nat) (args : List (List UInt8)) (data : Store) (file : Option (List UInt8)) :
    Except Stop (Option (List UInt8)) :=
  match args with
  | [] | [_] => .ok file
  | a :: b :: rest =>
    if 9 < args.length + 1 then .ok file
    else do
      let lcm ← lcmOfTwo fuel (atoi a) (atoi b)
      let lcm ← rest.foldlM (fun lcm s => lcmOfTwo fuel (atoi s) lcm) lcm
      store lcm data file

theorem wrap_natCast {k : Nat} (h : k < 2 ^ 31) : wrap k = k := by
  rw [wrap, Int.bmod_eq_of_le]
  · omega
  · omega

theorem rem_natCast (a : Nat) {b : Nat} (hb : 0 < b) : rem a b = .ok ((a % b : Nat) : Int) := by
  have hok : ¬ ((b : Int) = 0 ∨ ((a : Int) = -2 ^ 31 ∧ (b : Int) = -1)) := by omega
  rw [rem, if_neg hok, Int.ofNat_tmod]

theorem quot_natCast (a : Nat) {b : Nat} (hb : 0 < b) : quot a b = .ok ((a / b : Nat) : Int) := by
  have hok : ¬ ((b : Int) = 0 ∨ ((a : Int) = -2 ^ 31 ∧ (b : Int) = -1)) := by omega
  rw [quot, if_neg hok, Int.ofNat_tdiv]

theorem common_natCast {a b : Nat} (m : Nat) (ha : 0 < a) (hb : 0 < b) :
    common a b m = .ok (decide (a.lcm b ∣ m)) := by
  rw [common, rem_natCast m ha, rem_natCast m hb]
  simp only [bind, Except.bind, pure, Except.pure]
  by_cases h1 : m % a = 0
  · have hzero : ((m % a : Nat) : Int) = 0 := by omega
    rw [if_neg (not_not.mpr hzero)]
    have hiff : ((m % b : Nat) : Int) = 0 ↔ a.lcm b ∣ m := by
      rw [Nat.lcm_dvd_iff, Nat.dvd_iff_mod_eq_zero, Nat.dvd_iff_mod_eq_zero]
      omega
    exact congrArg Except.ok (decide_eq_decide.mpr hiff)
  · have hne : ((m % a : Nat) : Int) ≠ 0 := by omega
    rw [if_pos hne]
    have hnot : ¬ a.lcm b ∣ m := fun h =>
      h1 (Nat.dvd_iff_mod_eq_zero.mp ((Nat.dvd_lcm_left a b).trans h))
    rw [decide_eq_false hnot]

theorem lcmLoop_lcm {a b : Nat} (ha : 0 < a) (hb : 0 < b) (hint : a.lcm b < 2 ^ 31) :
    ∀ (n m : Nat), 0 < m → m ≤ a.lcm b → a.lcm b < m + n →
      lcmLoop a b n m = .ok ((a.lcm b : Nat) : Int) := by
  intro n
  induction n with
  | zero => intro m _ hle hlt; omega
  | succ n ih =>
    intro m hpos hle hlt
    rw [lcmLoop, common_natCast m ha hb]
    simp only [bind, Except.bind, pure, Except.pure]
    by_cases hdvd : a.lcm b ∣ m
    · have heq : m = a.lcm b := Nat.le_antisymm hle (Nat.le_of_dvd hpos hdvd)
      rw [decide_eq_true hdvd, if_pos rfl, heq]
    · have hne : m ≠ a.lcm b := fun h => hdvd (dvd_of_eq h.symm)
      have hnext : wrap ((m : Int) + 1) = ((m + 1 : Nat) : Int) := by
        rw [← wrap_natCast (k := m + 1) (by omega)]
        rfl
      rw [decide_eq_false hdvd, if_neg Bool.false_ne_true, hnext]
      exact ih (m + 1) (by omega) (by omega) (by omega)

theorem lcmOfTwo_lcm {a b fuel : Nat} (ha : 0 < a) (hb : 0 < b) (hint : a.lcm b < 2 ^ 31)
    (hfuel : a.lcm b ≤ fuel) : lcmOfTwo fuel a b = .ok ((a.lcm b : Nat) : Int) := by
  have hla : a ≤ a.lcm b := Nat.le_of_dvd (Nat.lcm_pos ha hb) (Nat.dvd_lcm_left a b)
  have hlb : b ≤ a.lcm b := Nat.le_of_dvd (Nat.lcm_pos ha hb) (Nat.dvd_lcm_right a b)
  rw [lcmOfTwo]
  split
  · exact lcmLoop_lcm ha hb hint fuel a ha hla (by omega)
  · exact lcmLoop_lcm ha hb hint fuel b hb hlb (by omega)

/-- The string is a row of decimal figures with the value `v`. -/
def Denotes (s : List UInt8) (v : Nat) : Prop :=
  (∀ c ∈ s, 48 ≤ c ∧ c ≤ 57) ∧ s.foldl (fun n c => 10 * n + (c.toNat - 48)) 0 = v

theorem le_foldl (s : List UInt8) : ∀ n : Nat,
    n ≤ s.foldl (fun n c => 10 * n + (c.toNat - 48)) n := by
  induction s with
  | nil => intro n; exact le_rfl
  | cons c s ih =>
    intro n
    have := ih (10 * n + (c.toNat - 48))
    rw [foldl_cons]
    omega

theorem atoiLoop_eq (s : List UInt8) (hs : ∀ c ∈ s, 48 ≤ c ∧ c ≤ 57) : ∀ n : Nat,
    s.foldl (fun n c => 10 * n + (c.toNat - 48)) n < 2 ^ 31 →
    atoiLoop n s = ((s.foldl (fun n c => 10 * n + (c.toNat - 48)) n : Nat) : Int) := by
  induction s with
  | nil => intro n _; rfl
  | cons c s ih =>
    intro n hlt
    rw [foldl_cons] at hlt ⊢
    have hc := hs c mem_cons_self
    have hlo : 48 ≤ c.toNat := UInt8.le_iff_toNat_le.mp hc.1
    have hle := le_foldl s (10 * n + (c.toNat - 48))
    have hstep : wrap (wrap (wrap ((n : Int) * 10) + c.toNat) - 48) =
        ((10 * n + (c.toNat - 48) : Nat) : Int) := by
      rw [← wrap_natCast (k := 10 * n + (c.toNat - 48)) (by omega)]
      simp only [wrap, Int.bmod_sub_bmod, Int.bmod_add_bmod]
      congr 1
      omega
    rw [atoiLoop, if_pos hc, hstep]
    exact ih (fun d hd => hs d (mem_cons_of_mem _ hd)) _ hlt

theorem atoi_eq {s : List UInt8} {v : Nat} (h : Denotes s v) (hv : v < 2 ^ 31) : atoi s = v := by
  obtain ⟨hs, rfl⟩ := h
  exact atoiLoop_eq s hs 0 hv

theorem fold_lcm {fuel : Nat} {rest : List (List UInt8)} {vs : List Nat}
    (h : List.Forall₂ Denotes rest vs) : ∀ acc : Nat, 0 < acc → (∀ v ∈ vs, 0 < v) →
      (acc ::ₘ (vs : Multiset Nat)).lcm < 2 ^ 31 → (acc ::ₘ (vs : Multiset Nat)).lcm ≤ fuel →
      rest.foldlM (fun lcm s => lcmOfTwo fuel (atoi s) lcm) (acc : Int) =
        .ok (((acc ::ₘ (vs : Multiset Nat)).lcm : Nat) : Int) := by
  induction h with
  | nil =>
    intro acc _ _ _ _
    simp
    rfl
  | @cons s v rest vs hsv _ ih =>
    intro acc hacc hpos hlt hfuel
    have hv := hpos v mem_cons_self
    -- The least common multiple of all is that of the rest with `lcm(v, acc)` in front.
    have hstep : (acc ::ₘ ((v :: vs : List Nat) : Multiset Nat)).lcm =
        (v.lcm acc ::ₘ (vs : Multiset Nat)).lcm := by
      rw [← Multiset.cons_coe, Multiset.lcm_cons, Multiset.lcm_cons, Multiset.lcm_cons,
        ← lcm_assoc, lcm_comm acc v]
      rfl
    rw [hstep] at hlt hfuel ⊢
    have hall : 0 < (v.lcm acc ::ₘ (vs : Multiset Nat)).lcm := by
      rw [Nat.pos_iff_ne_zero, Ne, Multiset.lcm_eq_zero_iff, Multiset.mem_cons, not_or]
      refine ⟨(Nat.lcm_pos hv hacc).ne, fun h0 => ?_⟩
      exact absurd (hpos 0 (mem_cons_of_mem _ h0)) (Nat.lt_irrefl 0)
    have hdvd : v.lcm acc ∣ (v.lcm acc ::ₘ (vs : Multiset Nat)).lcm :=
      Multiset.dvd_lcm (Multiset.mem_cons_self _ _)
    have hle := Nat.le_of_dvd hall hdvd
    have hvle : v ≤ v.lcm acc := Nat.le_of_dvd (Nat.lcm_pos hv hacc) (Nat.dvd_lcm_left v acc)
    rw [foldlM_cons, atoi_eq hsv (by omega), lcmOfTwo_lcm hv hacc (by omega) (by omega)]
    exact ih (v.lcm acc) (Nat.lcm_pos hv hacc) (fun w hw => hpos w (mem_cons_of_mem _ hw))
      hlt hfuel

def decimal (n : Nat) : List UInt8 := (Nat.digits 10 n).reverse.map fun d => UInt8.ofNat (48 + d)

theorem decimal_length (n : Nat) : (decimal n).length = (Nat.digits 10 n).length := by
  simp [decimal]

theorem decimal_pos {n : Nat} (h : 0 < n) :
    decimal n = decimal (n / 10) ++ [UInt8.ofNat (48 + n % 10)] := by
  simp only [decimal, Nat.digits_def' (by decide : 1 < 10) h, reverse_cons, map_append,
    map_cons, map_nil]

theorem decimal_figures (n : Nat) : ∀ c ∈ decimal n, (c ≠ 0 && c ≠ 10) = true := by
  intro c hc
  obtain ⟨d, hd, rfl⟩ := mem_map.mp hc
  have hlt : d < 10 := Nat.digits_lt_base (by decide) (mem_reverse.mp hd)
  have : ∀ d < 10, (UInt8.ofNat (48 + d) ≠ 0 && UInt8.ofNat (48 + d) ≠ 10) = true := by decide
  exact this d hlt

theorem figure_eq {k : Nat} (h : k < 10) : figure k = .ok (UInt8.ofNat (48 + k)) := by
  have hin : 0 ≤ (k : Int) ∧ (k : Int) < 17 := by omega
  have hall : ∀ k < 10, figures.getD k 0 = UInt8.ofNat (48 + k) := by decide
  rw [figure, if_pos hin, Int.toNat_natCast, hall k h]

theorem itoaLoop_decimal : ∀ (i n : Nat) (buf : Store), (decimal n).length ≤ i →
    ∃ buf', itoaLoop 10 i n buf = .ok (i - (decimal n).length, buf') ∧
      (range' (i - (decimal n).length + 1) (decimal n).length).map buf' = decimal n ∧
      ∀ k, i < k → buf' k = buf k := by
  intro i
  induction i with
  | zero =>
    intro n buf hlen
    have hnil : decimal n = [] := length_eq_zero_iff.mp (Nat.le_zero.mp hlen)
    rw [hnil]
    exact ⟨buf, rfl, rfl, fun _ _ => rfl⟩
  | succ i ih =>
    intro n buf hlen
    rw [itoaLoop]
    rcases Nat.eq_zero_or_pos n with rfl | hn
    · exact ⟨buf, rfl, rfl, fun _ _ => rfl⟩
    · have hsplit := decimal_pos hn
      have hlen' : (decimal n).length = (decimal (n / 10)).length + 1 := by rw [hsplit]; simp
      have hne : ¬ (n : Int) = 0 := by omega
      obtain ⟨buf', hrun, hdigits, hframe⟩ := ih (n / 10)
        (update buf (i + 1) (UInt8.ofNat (48 + n % 10))) (by omega)
      refine ⟨buf', ?_, ?_, ?_⟩
      · have hr : rem (n : Int) 10 = .ok ((n % 10 : Nat) : Int) := rem_natCast n (by decide)
        have hq : quot (n : Int) 10 = .ok ((n / 10 : Nat) : Int) := quot_natCast n (by decide)
        rw [if_neg hne, hr, hq]
        simp only [bind, Except.bind, figure_eq (Nat.mod_lt n (by decide : 10 > 0))]
        rw [hrun, hlen']
        congr 2
        omega
      · have hidx : i + 1 - (decimal n).length = i - (decimal (n / 10)).length := by omega
        have hlast : i - (decimal (n / 10)).length + 1 + 1 * (decimal (n / 10)).length = i + 1 := by
          omega
        rw [hidx, hlen', range'_concat, map_append, hdigits, hlast, map_singleton,
          hframe (i + 1) (Nat.lt_succ_self i), update_self, ← hsplit]
      · intro k hk
        rw [hframe k (by omega), update_of_ne (by omega)]

/-- The file up to the first NUL or newline. -/
def firstLine (f : List UInt8) : List UInt8 := f.takeWhile fun c => c ≠ 0 && c ≠ 10

theorem store_line {n : Nat} (hint : n < 2 ^ 31) {data : Store} (hdata : data 31 = 0)
    (file : Option (List UInt8)) :
    ∃ f, store n data file = .ok (some f) ∧ firstLine f = (decimal n).take 7 := by
  have hlen : (decimal n).length ≤ 10 := by
    rw [decimal_length, Nat.digits_length_le_iff (by decide)]
    omega
  obtain ⟨data', hrun, hdigits, hframe⟩ := itoaLoop_decimal 30 n data (by omega)
  have hend : data' 31 = 0 := by rw [hframe 31 (by decide), hdata]
  generalize hp : 30 - (decimal n).length = p at hrun hdigits
  have hitoa : itoa n 10 data = .ok (p + 1, data') := by rw [itoa, hrun]; rfl
  refine ⟨_, by rw [store, hitoa]; rfl, ?_⟩
  -- The bytes of the first write are the digits, then the NUL behind them.
  have hbytes : ∃ more, (range' (p + 1) 7).map data' ++ [10, 0] = (decimal n).take 7 ++ more ∧
      ∀ c ∈ more.head?, (c ≠ 0 && c ≠ 10) = false := by
    by_cases hshort : (decimal n).length < 7
    · have hnul : p + 1 + (decimal n).length = 31 := by omega
      have hsum : 7 = (decimal n).length + (1 + (6 - (decimal n).length)) := by omega
      refine ⟨0 :: ((range' 32 (6 - (decimal n).length)).map data' ++ [10, 0]), ?_, ?_⟩
      · rw [take_of_length_le hshort.le, hsum, ← range'_append_1, map_append,
          hdigits, hnul, Nat.add_comm 1, range'_succ, map_cons, hend,
          append_assoc]
        rfl
      · intro c hc
        obtain rfl := Option.some.inj hc
        rfl
    · refine ⟨[10, 0], ?_, ?_⟩
      · have hsum : (decimal n).length = 7 + ((decimal n).length - 7) := by omega
        have hall := hdigits
        rw [hsum, ← range'_append_1, map_append] at hall
        rw [← hall, List.take_left' (by simp)]
      · intro c hc
        obtain rfl := Option.some.inj hc
        rfl
  obtain ⟨more, hmore, hstop⟩ := hbytes
  have hhead : ∀ c ∈ (decimal n).take 7, (c ≠ 0 && c ≠ 10) = true :=
    fun c hc => decimal_figures n c (mem_of_mem_take hc)
  have hfile : ∀ old : List UInt8, firstLine (writeAt (writeAt old 0
      ((range' (p + 1) 7).map data')) 7 [10, 0]) = (decimal n).take 7 := by
    intro old
    have htake : (writeAt old 0 ((range' (p + 1) 7).map data')).take 7 =
        (range' (p + 1) 7).map data' := by
      rw [writeAt, take_zero, nil_append, List.take_left' (by simp)]
    rw [writeAt, htake, hmore, firstLine, append_assoc, takeWhile_append_of_pos hhead]
    cases more with
    | nil =>
      exfalso
      have := congrArg List.length hmore
      simp at this
      omega
    | cons c more => rw [cons_append, takeWhile_cons, hstop c rfl]; simp
  exact hfile _

/-- `lcm` always comes to its end, and the file holds the least common multiple exactly when that
has at most seven digits. -/
theorem lcm_stored_iff (args : List (List UInt8)) (vs : List Nat) (L : Nat) (data : Store)
    (file : Option (List UInt8)) (hargs : List.Forall₂ Denotes args vs) (hmin : 2 ≤ args.length)
    (hmax : args.length ≤ 8) (hpos : ∀ v ∈ vs, 0 < v) (hL : (vs : Multiset Nat).lcm = L)
    (hint : L < 2 ^ 31) (hdata : ∀ i < 32, data i = 0) :
    ∃ f, (∀ fuel, L ≤ fuel → main fuel args data file = .ok (some f)) ∧
      (firstLine f = decimal L ↔ L < 10 ^ 7) := by
  obtain ⟨f, hstore, hline⟩ := store_line hint (hdata 31 (by decide)) file
  refine ⟨f, fun fuel hfuel => ?_, ?_⟩
  · cases hargs with
    | nil => simp at hmin
    | @cons a v args vs ha hargs =>
      cases hargs with
      | nil => simp at hmin
      | @cons b w args vs hb hargs =>
        have hv := hpos v mem_cons_self
        have hw := hpos w (mem_cons_of_mem _ mem_cons_self)
        have hrest : ∀ u ∈ vs, 0 < u := fun u hu =>
          hpos u (mem_cons_of_mem _ (mem_cons_of_mem _ hu))
        -- The first two arguments are one more turn of the fold.
        have hswap : (w ::ₘ ((v :: vs : List Nat) : Multiset Nat)).lcm = L := by
          rw [← hL, ← Multiset.cons_coe, ← Multiset.cons_coe, ← Multiset.cons_coe,
            Multiset.cons_swap]
        have hLpos : 0 < L := by
          rw [← hL, Nat.pos_iff_ne_zero, Ne, Multiset.lcm_eq_zero_iff]
          exact fun h0 => absurd (hpos 0 h0) (Nat.lt_irrefl 0)
        have hwL : w ≤ L := by
          rw [← hswap] at hLpos ⊢
          exact Nat.le_of_dvd hLpos (Multiset.dvd_lcm (Multiset.mem_cons_self _ _))
        have hvs : ∀ u ∈ v :: vs, 0 < u := fun u hu =>
          (mem_cons.mp hu).elim (fun h => h ▸ hv) (hrest u)
        have hfold := fold_lcm (.cons ha hargs) w hw hvs (by omega) (hswap.trans_le hfuel)
        rw [hswap, foldlM_cons] at hfold
        have hcount : ¬ 9 < (a :: b :: args).length + 1 := by omega
        rw [main, if_neg hcount, atoi_eq hb (by omega), ← bind_assoc, hfold]
        exact hstore
  · rw [hline, ← Nat.digits_length_le_iff (by decide), ← decimal_length, take_eq_self_iff]

theorem zeros (i : Nat) (_ : i < 32) : (fun _ => 0 : Store) i = 0 := rfl

/-- `lcm 3 6 11 9`. -/
theorem lcm_stored_iff_198 : ∃ f, (∀ fuel, 198 ≤ fuel →
        main fuel [[51], [54], [49, 49], [57]] (fun _ => 0) none = .ok (some f)) ∧
      (firstLine f = decimal 198 ↔ 198 < 10 ^ 7) := by
  refine lcm_stored_iff [[51], [54], [49, 49], [57]] [3, 6, 11, 9] 198 (fun _ => 0) none ?_
    (by decide) (by decide) (by decide) (by decide +kernel) (by decide) zeros
  refine .cons ⟨by simp, rfl⟩ (.cons ⟨by simp, rfl⟩ (.cons ⟨by simp, rfl⟩
    (.cons ⟨by simp, rfl⟩ .nil)))

/-- `lcm 10000000 1` leaves a file whose first line is 1000000. -/
theorem lcm_stored_cut :
    List.Forall₂ Denotes [[49, 48, 48, 48, 48, 48, 48, 48], [49]] [10000000, 1] ∧
    (([10000000, 1] : List Nat) : Multiset Nat).lcm = 10000000 ∧
    (main 1 [[49, 48, 48, 48, 48, 48, 48, 48], [49]] (fun _ => 0) none).map
      (fun f => f.map firstLine) = .ok (some [49, 48, 48, 48, 48, 48, 48]) ∧
    decimal 10000000 = [49, 48, 48, 48, 48, 48, 48, 48] := by
  refine ⟨.cons ⟨by simp, rfl⟩ (.cons ⟨by simp, rfl⟩ .nil), by decide +kernel,
    by decide +kernel, by simp [decimal]⟩

end Lcm
end Xv6.User

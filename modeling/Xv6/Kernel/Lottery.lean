import Xv6.Kernel.Divide
import Xv6.Lib.Weighted

/-!
# Xv6.Kernel.Lottery

The lottery of level 2.

`find_winner` draws a number from 1 to the total of the tickets and takes tickets from it, slot by
slot, until nothing is left. As long as the total is an `int`, no sum or difference wraps around,
and the walk is `pick` over the processes that take part.
-/

namespace Xv6.Kernel

open Machine List

/-- The processes that take part, in table order. -/
def players (t : PTable) : List Slot := slots.filter fun s => Second (t s)

/-- The tickets of all that take part, as an exact number. -/
def stake (t : PTable) : Int := ∑ s with Second (t s), (t s).tickets

theorem mem_players {t : PTable} {s : Slot} : s ∈ players t ↔ Second (t s) := by
  simp [players, mem_slots]

theorem players_nodup (t : PTable) : (players t).Nodup := (nodup_finRange NPROC).filter _

theorem weight_filter (w : Slot → Int) (p : Slot → Prop) [DecidablePred p] (l : List Slot) :
    weight w (l.filter fun s => p s) = (l.map fun s => if p s then w s else 0).sum := by
  induction l with
  | nil => rfl
  | cons s l ih =>
    by_cases hs : p s
    · simp [hs, ih]
    · simp [hs, ih]

theorem weight_players (t : PTable) : weight (fun s => (t s).tickets) (players t) = stake t := by
  rw [players, weight_filter, stake, Finset.sum_filter, Fin.sum_univ_def]
  rfl

theorem skips_iff {p : Proc} : (p.state ≠ .runnable ∨ p.level ≠ 2) ↔ ¬ Second p :=
  not_and_or.symm

theorem shift_xor_lt {x y : UInt32} {k : Nat} (hk : k ≤ 22) (hx : x.toNat < 2 ^ k)
    (hy : y.toNat < 2 ^ 10) : ((x <<< 10) ^^^ y).toNat < 2 ^ (k + 10) := by
  have hlt : x.toNat * 2 ^ 10 < 2 ^ (k + 10) := by
    rw [Nat.pow_add]
    exact Nat.mul_lt_mul_of_pos_right hx (by decide)
  have hshift : (x <<< 10).toNat < 2 ^ (k + 10) := by
    rw [UInt32.toNat_shiftLeft, Nat.shiftLeft_eq]
    exact lt_of_le_of_lt (Nat.mod_le _ _) hlt
  have hle : 2 ^ 10 ≤ 2 ^ (k + 10) := Nat.pow_le_pow_right (by decide) (by omega)
  rw [UInt32.toNat_xor]
  exact Nat.xor_lt_two_pow hshift (hy.trans_le hle)

theorem mod_toNat_lt (x y : UInt32) (hy : 0 < y.toNat) : (x % y).toNat < y.toNat := by
  rw [UInt32.toNat_mod]
  exact Nat.mod_lt _ hy

/-- `result` before the last line of `random_number`. -/
def randomBits (clock : RtcDate) : UInt32 :=
  let next := nextRandom clock.time
  let result := next / 65536 % 2048
  let next := nextRandom next
  let result := (result <<< 10) ^^^ (next / 65536 % 1024)
  let next := nextRandom next
  (result <<< 10) ^^^ (next / 65536 % 1024)

theorem randomBits_lt (clock : RtcDate) : (randomBits clock).toNat < 2 ^ 31 := by
  have h1 : (nextRandom clock.time / 65536 % 2048).toNat < 2 ^ 11 := mod_toNat_lt _ _ (by decide)
  refine shift_xor_lt (k := 21) (by decide) ?_ (mod_toNat_lt _ 1024 (by decide))
  exact shift_xor_lt (k := 11) (by decide) h1 (mod_toNat_lt _ 1024 (by decide))

theorem randomNumber_eq (clock : RtcDate) (mod : Int) : randomNumber clock mod =
      (idiv (wrap (randomBits clock).toNat) mod).map fun q => wrap (q.2 + 1) := by
  rw [randomNumber, randomBits]
  cases idiv _ mod <;> rfl

theorem randomNumber_mem (clock : RtcDate) {mod : Int} (h0 : 0 < mod) (h : mod < 2 ^ 31) :
    ∃ r, randomNumber clock mod = .ok r ∧ 1 ≤ r ∧ r ≤ mod := by
  have hbits := randomBits_lt clock
  rw [randomNumber_eq]
  generalize (randomBits clock).toNat = n at hbits
  have hdiv : ¬ (mod = 0 ∨ ((n : Int) = -2 ^ 31 ∧ mod = -1)) := by omega
  have hr0 : 0 ≤ (n : Int).tmod mod := Int.tmod_nonneg mod (by omega)
  have hr1 : (n : Int).tmod mod < mod := Int.tmod_lt_of_pos _ h0
  refine ⟨(n : Int).tmod mod + 1, ?_, by omega, by omega⟩
  rw [wrap_of_lt (by omega) (by omega), idiv, if_neg hdiv]
  show Except.ok (wrap ((n : Int).tmod mod + 1)) = _
  rw [wrap_of_lt (by omega) (by omega)]

section

variable {t : PTable} (h1 : ∀ s, Second (t s) → 1 ≤ (t s).tickets)
include h1

theorem ticketSum_walk (l : List Slot) : ∀ mod : Int, 0 ≤ mod →
    mod + weight (fun s => (t s).tickets) (l.filter fun s => Second (t s)) < 2 ^ 31 →
    l.foldl (fun mod p => if (t p).state ≠ .runnable ∨ (t p).level ≠ 2 then mod
      else wrap (mod + (t p).tickets)) mod =
      mod + weight (fun s => (t s).tickets) (l.filter fun s => Second (t s)) := by
  induction l with
  | nil => intro mod _ _; simp
  | cons p l ih =>
    intro mod h0 hlt
    rw [foldl_cons]
    by_cases hp : Second (t p)
    · have hrest : 0 ≤ weight (fun s => (t s).tickets) (l.filter fun s => Second (t s)) :=
        weight_nonneg fun s hs => by
          have := h1 s (of_decide_eq_true (mem_filter.mp hs).2)
          omega
      have htick := h1 p hp
      rw [filter_cons_of_pos (by simpa using hp), weight_cons] at hlt ⊢
      rw [if_neg (by rw [skips_iff, not_not]; exact hp), wrap_of_lt (by omega) (by omega),
        ih _ (by omega) (by omega)]
      omega
    · rw [filter_cons_of_neg (by simpa using hp)] at hlt ⊢
      rw [if_pos (skips_iff.mpr hp), ih mod h0 hlt]

theorem drawWinner_walk (l : List Slot) (hl : ∀ s ∈ l, Second (t s) → (t s).tickets < 2 ^ 31) :
    ∀ r : Int, 0 < r → r < 2 ^ 31 →
      drawWinner t l r = pick (fun s => (t s).tickets) (l.filter fun s => Second (t s)) r := by
  induction l with
  | nil => intro r _ _; rfl
  | cons p l ih =>
    intro r h0 hlt
    have ih := ih fun s hs => hl s (mem_cons_of_mem p hs)
    rw [drawWinner]
    by_cases hp : Second (t p)
    · have htick := h1 p hp
      have htick' := hl p mem_cons_self hp
      have hwrap : wrap (r - (t p).tickets) = r - (t p).tickets := by
        rw [wrap, Int.bmod_eq_of_le]
        · omega
        · omega
      rw [if_neg (by rw [skips_iff, not_not]; exact hp),
        filter_cons_of_pos (by simpa using hp), pick]
      simp only [hwrap]
      split
      · rfl
      · exact ih _ (by omega) (by omega)
    · rw [if_pos (skips_iff.mpr hp), filter_cons_of_neg (by simpa using hp), ih r h0 hlt]

end

section

variable {t : PTable} (h1 : ∀ s, Second (t s) → 1 ≤ (t s).tickets)
include h1

theorem players_nonneg : ∀ s ∈ players t, 0 ≤ (t s).tickets := by
  intro s hs
  have := h1 s (mem_players.mp hs)
  omega

theorem tickets_le_stake {s : Slot} (hs : Second (t s)) : (t s).tickets ≤ stake t := by
  rw [← weight_players]
  exact le_weight (players_nonneg h1) (mem_players.mpr hs)

theorem stake_pos (hsome : ∃ s, Second (t s)) : 0 < stake t := by
  obtain ⟨s, hs⟩ := hsome
  have h := h1 s hs
  have h' := tickets_le_stake h1 hs
  omega

variable (hmax : stake t ≤ 2 ^ 31 - 1)
include hmax

theorem ticketSum_eq_stake : ticketSum t = stake t := by
  have hlt : 0 + weight (fun s => (t s).tickets) (players t) < 2 ^ 31 := by
    rw [weight_players]
    omega
  have h := ticketSum_walk h1 slots 0 (le_refl 0) hlt
  rw [zero_add] at h
  exact h.trans (weight_players t)

theorem drawWinner_eq_pick {r : Int} (h0 : 0 < r) (hr : r ≤ stake t) :
    drawWinner t slots r = pick (fun s => (t s).tickets) (players t) r := by
  refine drawWinner_walk h1 slots (fun s _ hs => ?_) r h0 (by omega)
  have := tickets_le_stake h1 hs
  omega

theorem randomNumber_stake (hsome : ∃ s, Second (t s)) (clock : RtcDate) :
    ∃ r, randomNumber clock (stake t) = .ok r ∧ 1 ≤ r ∧ r ≤ stake t :=
  randomNumber_mem clock (stake_pos h1 hsome) (by omega)

theorem findWinner_second (hsome : ∃ s, Second (t s)) (clock : RtcDate) :
    ∃ p, findWinner clock t = .ok (some p) ∧ Second (t p) := by
  obtain ⟨r, hr, hr1, hr2⟩ := randomNumber_stake h1 hmax hsome clock
  obtain ⟨p, hp⟩ := pick_isSome (players t) r (by omega) (by rw [weight_players]; exact hr2)
  refine ⟨p, ?_, mem_players.mp (mem_of_pick hp)⟩
  rw [findWinner, ticketSum_eq_stake h1 hmax, hr]
  simp only [bind, Except.bind, pure, Except.pure]
  rw [drawWinner_eq_pick h1 hmax (by omega) hr2, hp]

end

/-- The lottery draws a number of 1 .. `stake t`, has a winner that takes part, and gives every
process that takes part as many of the numbers as it has tickets. -/
structure Proportional (t : PTable) : Prop where
  total : ticketSum t = stake t
  number : ∀ clock, ∃ r, randomNumber clock (stake t) = .ok r ∧ 1 ≤ r ∧ r ≤ stake t
  winner : ∀ clock, ∃ p, findWinner clock t = .ok (some p) ∧ Second (t p)
  share : ∀ p, Second (t p) →
    (((Finset.Icc 1 (stake t)).filter fun r => drawWinner t slots r = some p).card : Int) =
      (t p).tickets

theorem lottery_proportional (t : PTable) (hsome : ∃ s, Second (t s))
    (h1 : ∀ s, Second (t s) → 1 ≤ (t s).tickets) (hmax : stake t ≤ 2 ^ 31 - 1) :
    Proportional t := by
  refine ⟨ticketSum_eq_stake h1 hmax, randomNumber_stake h1 hmax hsome,
    findWinner_second h1 hmax hsome, ?_⟩
  intro p hp
  rw [← card_pick (players_nodup t) (players_nonneg h1) (mem_players.mpr hp), weight_players]
  congr 2
  refine Finset.filter_congr fun r hr => ?_
  rw [Finset.mem_Icc] at hr
  rw [drawWinner_eq_pick h1 hmax (by omega) hr.2]

/-- Two processes that take part, with one between them that does not. -/
def threePlayers : PTable := fun s =>
  if s = 0 then { Proc.zero with state := .runnable, pid := 3, level := 2, tickets := 3 }
  else if s = 1 then { Proc.zero with state := .sleeping, pid := 4, level := 2, tickets := 50 }
  else if s = 2 then { Proc.zero with state := .runnable, pid := 5, level := 2, tickets := 1 }
  else Proc.zero

theorem lottery_proportional_three : stake threePlayers = 4 ∧ Proportional threePlayers :=
  ⟨by decide +kernel, lottery_proportional threePlayers ⟨0, by decide⟩ (by decide)
    (by decide +kernel)⟩

end Xv6.Kernel

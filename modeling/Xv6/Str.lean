import Xv6.Block

/-!
# Xv6.Str

The string functions of `string.c` that names go through, on the bytes a pointer leads to.
-/

namespace Xv6

abbrev DIRSIZ : Nat := 14

/-- A string as memory shows it: its bytes, then zeros. -/
def chars (s : List UInt8) (k : Nat) : UInt8 := s.getD k 0

/-- `strncmp(p, q, n)`, from index `k` on. -/
def strncmp (p q : Nat → UInt8) : Nat → Nat → Int
  | 0, _ => 0
  | n + 1, k =>
    if p k ≠ 0 ∧ p k = q k then strncmp p q n (k + 1) else ((p k).toNat : Int) - (q k).toNat

def namecmp (s t : Nat → UInt8) : Int := strncmp s t DIRSIZ 0

/-- The `n` bytes that `strncpy(s, t, n)` leaves in `s`, from index `k` on: those of `t`, and zeros
once a zero has been copied. -/
def strncpy (t : Nat → UInt8) : Nat → Nat → List UInt8
  | 0, _ => []
  | n + 1, k => if t k ≠ 0 then t k :: strncpy t n (k + 1) else List.replicate (n + 1) 0

/-- The characters from index `k` on, at most `n` of them, before a zero. -/
def strkey (p : Nat → UInt8) : Nat → Nat → List UInt8
  | 0, _ => []
  | n + 1, k => if p k ≠ 0 then p k :: strkey p n (k + 1) else []

theorem strncmp_congr {p p' q : Nat → UInt8} (n : Nat) :
    ∀ k, (∀ j, k ≤ j → j < k + n → p j = p' j) → strncmp p q n k = strncmp p' q n k := by
  induction n with
  | zero => intro k _; rfl
  | succ n ih =>
    intro k h
    have hk : p k = p' k := h k (le_refl k) (by omega)
    have hrest := ih (k + 1) fun j h1 h2 => h j (by omega) (by omega)
    simp only [strncmp, hk, hrest]

theorem strncmp_eq_zero {p q : Nat → UInt8} {len : Nat} (hq : q len = 0) (n : Nat) :
    ∀ k, k ≤ len → (∀ j, j ≤ len → p j = q j) → strncmp p q n k = 0 := by
  induction n with
  | zero => intro k _ _; rfl
  | succ n ih =>
    intro k hk h
    have hpk : p k = q k := h k hk
    by_cases hz : p k = 0
    · simp [strncmp, hz, ← hpk]
    · have hlt : k ≠ len := by
        rintro rfl
        exact hz (hpk.trans hq)
      have hrest := ih (k + 1) (by omega) h
      have hcond : p k ≠ 0 ∧ p k = q k := ⟨hz, hpk⟩
      rw [strncmp, if_pos hcond, hrest]

theorem strncmp_eq_zero_iff (p q : Nat → UInt8) (n : Nat) :
    ∀ k, strncmp p q n k = 0 ↔ strkey p n k = strkey q n k := by
  induction n with
  | zero => intro k; exact iff_of_true rfl rfl
  | succ n ih =>
    intro k
    by_cases hp : p k = 0
    · have hstop : strncmp p q (n + 1) k = ((p k).toNat : Int) - (q k).toNat := by
        rw [strncmp, if_neg fun h => h.1 hp]
      rw [hstop, strkey, if_neg (not_not.mpr hp), strkey]
      by_cases hq : q k = 0
      · rw [if_neg (not_not.mpr hq), hp, hq]
        simp
      · rw [if_pos hq]
        refine iff_of_false (fun h => hq ?_) (by simp)
        rw [hp] at h
        apply UInt8.toNat_inj.mp
        simp only [UInt8.toNat_zero] at h ⊢
        omega
    · rw [strncmp, strkey, if_pos hp, strkey]
      by_cases heq : p k = q k
      · rw [if_pos ⟨hp, heq⟩, if_pos (heq ▸ hp), ih, heq]
        simp
      · rw [if_neg fun h => heq h.2]
        have hne : ((p k).toNat : Int) - (q k).toNat ≠ 0 := by
          intro h
          exact heq (UInt8.toNat_inj.mp (by omega))
        refine iff_of_false hne fun h => ?_
        split at h
        · exact heq (List.cons.inj h).1
        · cases h

end Xv6

import Mathlib.Data.Nat.Digits.Defs
import Xv6.Kernel.Divide

/-!
# Xv6.Kernel.Children

`get_children`, which packs the pids of the children of a process into one number.

The loop reads `p->parent->pid` of every slot, also where the parent is null: the word at that place
of the caller's memory is then taken for a pid. It means to skip children whose pid has two digits,
and compares the pid of the parent instead.
-/

namespace Xv6.Kernel

open List

variable {null pid : Int} {l : List Int} {t : PTable}

/-- `p->parent->pid`, where `null` is the word that is read through a null pointer. -/
def readPid (null : Int) (t : PTable) (p : Slot) : Int :=
  match (t p).parent with
  | none => null
  | some q => (t q).pid

/-- One round of the loop, on `found` and `childern_pids`; `mult` is 10 all the time. -/
def getChildrenStep (null : Int) (t : PTable) (pid : Int) (a : Bool × Int) (p : Slot) :
    Bool × Int :=
  if readPid null t p = pid then
    if 10 ≤ pid then a else (true, wrap (wrap (a.2 * 10) + (t p).pid))
  else a

def getChildren (null : Int) (t : PTable) (pid : Int) : Int :=
  let a := slots.foldl (getChildrenStep null t pid) (false, 0)
  if a.1 = true then a.2 else -1

/-- A pid of one digit. -/
def Digit (d : Int) : Prop := 1 ≤ d ∧ d ≤ 9

instance (d : Int) : Decidable (Digit d) := inferInstanceAs (Decidable (_ ∧ _))

def Child (t : PTable) (pid : Int) (s : Slot) : Prop := parentPid t s = some pid ∧ Digit (t s).pid

instance (t : PTable) (pid : Int) (s : Slot) : Decidable (Child t pid s) :=
  inferInstanceAs (Decidable (_ ∧ _))

def oneDigit (t : PTable) (pid : Int) : List Int :=
  (slots.filter fun s => Child t pid s).map fun s => (t s).pid

/-- The decimal digits of `n`, most significant first, are `l`. -/
def Spells (n : Int) (l : List Int) : Prop :=
  0 ≤ n ∧ (Nat.digits 10 n.toNat).reverse.map Int.ofNat = l

/-- `n` is what `get_children(pid)` should return. -/
def IsCode (t : PTable) (pid n : Int) : Prop :=
  if oneDigit t pid = [] then n = -1 else Spells n (oneDigit t pid)

/-- The number with the digits `l`. -/
def encode (l : List Int) : Int := l.foldl (fun n d => n * 10 + d) 0

theorem encode_append (l : List Int) (d : Int) : encode (l ++ [d]) = encode l * 10 + d := by
  simp [encode]

theorem encode_nonneg (l : List Int) (h : ∀ d ∈ l, 0 ≤ d) : 0 ≤ encode l := by
  induction l using List.reverseRecOn with
  | nil => exact le_refl 0
  | append_singleton l d ih =>
    have hl := ih fun e he => h e (mem_append_left _ he)
    have hd := h d (by simp)
    rw [encode_append]
    omega

theorem encode_zeros (l : List Int) (h : ∀ d ∈ l, d = 0) : encode l = 0 := by
  induction l using List.reverseRecOn with
  | nil => rfl
  | append_singleton l d ih =>
    rw [encode_append, ih fun e he => h e (mem_append_left _ he), h d (by simp)]
    rfl

theorem Digit.nonneg {d : Int} (h : Digit d) : 0 ≤ d := by
  have := h.1
  omega

theorem encode_eq_ofDigits (l : List Int) (h : ∀ d ∈ l, 0 ≤ d) :
    encode l = (Nat.ofDigits 10 (l.map Int.toNat).reverse : Nat) := by
  induction l using List.reverseRecOn with
  | nil => rfl
  | append_singleton l d ih =>
    have hl := ih fun e he => h e (mem_append_left _ he)
    have hd := Int.toNat_of_nonneg (h d (by simp))
    rw [encode_append, hl, map_append, reverse_append, map_singleton,
      reverse_singleton, singleton_append, Nat.ofDigits_cons]
    push_cast
    omega

theorem map_ofNat_toNat (h : ∀ d ∈ l, 0 ≤ d) : (l.map Int.toNat).map Int.ofNat = l := by
  rw [map_map]
  refine (map_congr_left fun d hd => ?_).trans (map_id l)
  exact Int.toNat_of_nonneg (h d hd)

theorem spells_iff {n : Int} (hd : ∀ d ∈ l, Digit d) : Spells n l ↔ n = encode l := by
  have h0 : ∀ d ∈ l, 0 ≤ d := fun d h => (hd d h).nonneg
  constructor
  · rintro ⟨hn, hl⟩
    have hdig : (l.map Int.toNat).reverse = Nat.digits 10 n.toNat := by
      rw [← hl, map_map, map_reverse, reverse_reverse]
      exact (map_congr_left fun d _ => Int.toNat_natCast d).trans (map_id _)
    rw [encode_eq_ofDigits l h0, hdig, Nat.ofDigits_digits, Int.toNat_of_nonneg hn]
  · rintro rfl
    refine ⟨encode_nonneg l h0, ?_⟩
    have hlt : ∀ d ∈ (l.map Int.toNat).reverse, d < 10 := by
      intro d h
      obtain ⟨e, he, rfl⟩ := mem_map.mp (mem_reverse.mp h)
      have := (hd e he).2
      omega
    have hlast : ∀ h, (l.map Int.toNat).reverse.getLast h ≠ 0 := by
      intro h
      obtain ⟨e, he, heq⟩ := mem_map.mp (mem_reverse.mp (getLast_mem h))
      have := (hd e he).1
      omega
    rw [encode_eq_ofDigits l h0, Int.toNat_natCast,
      Nat.digits_ofDigits 10 (by decide) _ hlt hlast, reverse_reverse, map_ofNat_toNat h0]

theorem encode_pos (hl : l ≠ []) (hd : ∀ d ∈ l, Digit d) : 0 < encode l := by
  cases l using List.reverseRecOn with
  | nil => exact absurd rfl hl
  | append_singleton l d =>
    have h0 : 0 ≤ encode l :=
      encode_nonneg l fun e he => (hd e (mem_append_left _ he)).nonneg
    have := (hd d (by simp)).1
    rw [encode_append]
    omega

theorem encode_lt (hd : ∀ d ∈ l, Digit d) : encode l < 10 ^ l.length := by
  induction l using List.reverseRecOn with
  | nil => decide
  | append_singleton l d ih =>
    have hl := ih fun e he => hd e (mem_append_left _ he)
    have := (hd d (by simp)).2
    rw [encode_append, length_append, length_singleton, pow_succ]
    omega

theorem encode_filter {f : Slot → Int} {p : Slot → Prop} [DecidablePred p]
    (hp : ∀ s, p s → Digit (f s)) (l : List Slot) (h : ∀ s ∈ l, 0 ≤ f s) :
    encode ((l.filter fun s => p s).map f) ≤ encode (l.map f) ∧
    (encode (l.map f) = encode ((l.filter fun s => p s).map f) ↔
      ∃ l1 l2, l = l1 ++ l2 ∧ (∀ s ∈ l1, f s = 0) ∧ ∀ s ∈ l2, p s) := by
  induction l using List.reverseRecOn with
  | nil => exact ⟨le_refl 0, iff_of_true rfl ⟨[], [], rfl, by simp, by simp⟩⟩
  | append_singleton l a ih =>
    obtain ⟨hle, hiff⟩ := ih fun s hs => h s (mem_append_left _ hs)
    have h0 : 0 ≤ encode ((l.filter fun s => p s).map f) := by
      refine encode_nonneg _ fun d hd => ?_
      obtain ⟨s, hs, rfl⟩ := mem_map.mp hd
      exact h s (mem_append_left _ (mem_filter.mp hs).1)
    have ha := h a (by simp)
    rw [map_append, map_singleton, encode_append, filter_append]
    by_cases hpa : p a
    · rw [filter_cons_of_pos (by simpa using hpa), filter_nil, map_append,
        map_singleton, encode_append]
      refine ⟨by omega, ?_⟩
      have hsame : encode (l.map f) * 10 + f a =
          encode ((l.filter fun s => p s).map f) * 10 + f a ↔
          encode (l.map f) = encode ((l.filter fun s => p s).map f) := by omega
      rw [hsame, hiff]
      constructor
      · rintro ⟨l1, l2, rfl, h1, h2⟩
        refine ⟨l1, l2 ++ [a], (append_assoc ..), h1, ?_⟩
        intro s hs
        rcases mem_append.mp hs with hs | hs
        · exact h2 s hs
        · rw [mem_singleton.mp hs]
          exact hpa
      · rintro ⟨l1, l2, heq, h1, h2⟩
        -- The last one is not 0, so it ends the second part.
        cases l2 using List.reverseRecOn with
        | nil =>
          have := h1 a (by rw [append_nil] at heq; simp [← heq])
          have := (hp a hpa).1
          omega
        | append_singleton l2 b =>
          rw [← append_assoc] at heq
          obtain ⟨rfl, -⟩ := List.append_inj' heq rfl
          exact ⟨l1, l2, rfl, h1, fun s hs => h2 s (mem_append_left _ hs)⟩
    · rw [filter_cons_of_neg (by simpa using hpa), filter_nil, append_nil]
      refine ⟨by omega, ?_⟩
      constructor
      · intro heq
        -- Without the last one the value is 0, so there is nothing but zeros.
        have hfa : f a = 0 := by omega
        obtain ⟨l1, l2, rfl, h1, h2⟩ := hiff.mp (by omega)
        have hl2 : l2 = [] := by
          by_contra hne
          have hmem : ∀ d ∈ ((l1 ++ l2).filter fun s => p s).map f, Digit d := by
            intro d hd
            obtain ⟨s, hs, rfl⟩ := mem_map.mp hd
            exact hp s (of_decide_eq_true (mem_filter.mp hs).2)
          have hne' : ((l1 ++ l2).filter fun s => p s).map f ≠ [] := by
            obtain ⟨s, hs⟩ := exists_mem_of_ne_nil l2 hne
            refine ne_nil_of_mem (mem_map_of_mem (a := s) (mem_filter.mpr ⟨?_, ?_⟩))
            · exact mem_append_right _ hs
            · exact decide_eq_true (h2 s hs)
          have := encode_pos hne' hmem
          omega
        subst hl2
        refine ⟨l1 ++ [a], [], by simp, ?_, by simp⟩
        intro s hs
        rcases mem_append.mp hs with hs | hs
        · exact h1 s hs
        · rw [mem_singleton.mp hs]
          exact hfa
      · rintro ⟨l1, l2, heq, h1, h2⟩
        cases l2 using List.reverseRecOn with
        | nil =>
          rw [append_nil] at heq
          subst heq
          have hl0 : encode (l.map f) = 0 := encode_zeros _ fun d hd => by
            obtain ⟨s, hs, rfl⟩ := mem_map.mp hd
            exact h1 s (mem_append_left _ hs)
          have hfa := h1 a (by simp)
          omega
        | append_singleton l2 b =>
          rw [← append_assoc] at heq
          obtain ⟨-, hab⟩ := List.append_inj' heq rfl
          rw [singleton_inj] at hab
          exact absurd (h2 a (by simp [hab])) hpa

def taken (null : Int) (t : PTable) (pid : Int) : List Slot :=
  slots.filter fun s => readPid null t s = pid

/-- The number made of the pids of the slots taken, exactly. -/
def takenCode (null : Int) (t : PTable) (pid : Int) : Int :=
  encode ((taken null t pid).map fun s => (t s).pid)

theorem wrap_step (a b : Int) : wrap (wrap (wrap a * 10) + b) = wrap (a * 10 + b) := by
  simp only [wrap, Int.bmod_add_bmod, Int.bmod_mul_bmod]

theorem foldl_getChildrenStep (hpid : pid < 10) (l : List Slot) :
    l.foldl (getChildrenStep null t pid) (false, 0) =
      (!((l.filter fun s => readPid null t s = pid).isEmpty),
        wrap (encode ((l.filter fun s => readPid null t s = pid).map fun s => (t s).pid))) := by
  induction l using List.reverseRecOn with
  | nil => rfl
  | append_singleton l p ih =>
    rw [foldl_append, foldl_cons, foldl_nil, ih, filter_append, getChildrenStep]
    by_cases hp : readPid null t p = pid
    · rw [if_pos hp, if_neg (not_le.mpr hpid), filter_cons_of_pos (by simpa using hp),
        filter_nil, map_append, map_singleton, encode_append]
      simp [wrap_step]
    · rw [if_neg hp, filter_cons_of_neg (by simpa using hp), filter_nil, append_nil]

theorem getChildren_two_digits (t : PTable) (hpid : 10 ≤ pid) : getChildren null t pid = -1 := by
  have hskip : ∀ a p, getChildrenStep null t pid a p = a := by
    intro a p
    rw [getChildrenStep, if_pos hpid, ite_self]
  have hloop : slots.foldl (getChildrenStep null t pid) (false, 0) = (false, 0) := by
    induction slots with
    | nil => rfl
    | cons p l ih => rw [foldl_cons, hskip, ih]
  rw [getChildren, hloop]
  rfl

theorem getChildren_one_digit (t : PTable) (hpid : pid < 10) : getChildren null t pid =
      if taken null t pid = [] then -1 else wrap (takenCode null t pid) := by
  rw [getChildren, foldl_getChildrenStep hpid, takenCode, taken]
  by_cases hnil : (slots.filter fun s => readPid null t s = pid) = []
  · simp [hnil]
  · simp [hnil]

/-- The slots that are taken for children are, from some place on, children with a pid of one digit;
those before have the pid 0, so that they add nothing to the number, and are not alone. -/
def Clean (null : Int) (t : PTable) (pid : Int) : Prop :=
  ∃ l1 l2, taken null t pid = l1 ++ l2 ∧ (l2 = [] → l1 = []) ∧ (∀ s ∈ l1, (t s).pid = 0) ∧
    ∀ s ∈ l2, Child t pid s

theorem Child.readPid {s : Slot} (h : Child t pid s) : readPid null t s = pid := by
  have h := h.1
  rw [parentPid] at h
  rw [Kernel.readPid]
  cases hp : (t s).parent with
  | none => rw [hp] at h; cases h
  | some q => rw [hp] at h; cases h; rfl

theorem oneDigit_digit : ∀ d ∈ oneDigit t pid, Digit d := by
  intro d hd
  obtain ⟨s, hs, rfl⟩ := mem_map.mp hd
  exact (of_decide_eq_true (mem_filter.mp hs).2).2

theorem mem_taken {s : Slot} : s ∈ taken null t pid ↔ readPid null t s = pid := by
  simp [taken, mem_slots]

theorem oneDigit_eq (null : Int) (t : PTable) (pid : Int) : oneDigit t pid =
    ((taken null t pid).filter fun s => Child t pid s).map fun s => (t s).pid := by
  rw [oneDigit, taken, filter_filter]
  congr 1
  refine filter_congr fun s _ => ?_
  by_cases hs : Child t pid s
  · have hread : readPid null t s = pid := hs.readPid
    simp [hs, hread]
  · simp [hs]

theorem isCode_iff {n : Int} :
    IsCode t pid n ↔ n = if oneDigit t pid = [] then -1 else encode (oneDigit t pid) := by
  rw [IsCode]
  split
  · rfl
  · exact spells_iff oneDigit_digit

theorem takenCode_eq_iff (h0 : ∀ s, readPid null t s = pid → 0 ≤ (t s).pid) :
    takenCode null t pid = encode (oneDigit t pid) ↔ ∃ l1 l2, taken null t pid = l1 ++ l2 ∧
      (∀ s ∈ l1, (t s).pid = 0) ∧ ∀ s ∈ l2, Child t pid s := by
  rw [oneDigit_eq null]
  exact (encode_filter (f := fun s => (t s).pid) (p := Child t pid) (fun s hs => hs.2)
    (taken null t pid) fun s hs => h0 s (mem_taken.mp hs)).2

theorem Clean.bounds (h : Clean null t pid) (hnine : (oneDigit t pid).length ≤ 9) :
    (∀ s, readPid null t s = pid → 0 ≤ (t s).pid) ∧ takenCode null t pid < 2 ^ 31 := by
  obtain ⟨l1, l2, hl, -, h1, h2⟩ := h
  have h0 : ∀ s, readPid null t s = pid → 0 ≤ (t s).pid := by
    intro s hs
    have hmem := mem_taken.mpr hs
    rw [hl] at hmem
    rcases mem_append.mp hmem with hs | hs
    · exact (h1 s hs).ge
    · exact (h2 s hs).2.nonneg
  refine ⟨h0, ?_⟩
  have hlt : encode (oneDigit t pid) < 10 ^ (oneDigit t pid).length := encode_lt oneDigit_digit
  have hpow : (10 : Int) ^ (oneDigit t pid).length ≤ 10 ^ 9 :=
    pow_le_pow_right₀ (by decide) hnine
  rw [(takenCode_eq_iff h0).mpr ⟨l1, l2, hl, h1, h2⟩]
  omega

theorem isCode_iff_clean (hpid : pid < 10) (h0 : ∀ s, readPid null t s = pid → 0 ≤ (t s).pid)
    (hfit : takenCode null t pid < 2 ^ 31) :
    IsCode t pid (getChildren null t pid) ↔ Clean null t pid := by
  rw [isCode_iff, getChildren_one_digit t hpid]
  by_cases hnil : taken null t pid = []
  · refine iff_of_true ?_ ⟨[], [], hnil, fun _ => rfl, nofun, nofun⟩
    rw [if_pos hnil, oneDigit_eq null, hnil]
    rfl
  have hpos : 0 ≤ takenCode null t pid := by
    refine encode_nonneg _ fun d hd => ?_
    obtain ⟨s, hs, rfl⟩ := mem_map.mp hd
    exact h0 s (mem_taken.mp hs)
  rw [if_neg hnil, wrap_of_lt hpos hfit]
  constructor
  · intro heq
    by_cases hdig : oneDigit t pid = []
    · rw [if_pos hdig] at heq
      omega
    · rw [if_neg hdig] at heq
      obtain ⟨l1, l2, hl, h1, h2⟩ := (takenCode_eq_iff h0).mp heq
      refine ⟨l1, l2, hl, ?_, h1, h2⟩
      rintro rfl
      -- With zeros only, there are no children.
      refine absurd ?_ hdig
      rw [oneDigit_eq null, map_eq_nil_iff, filter_eq_nil_iff]
      intro s hs hc
      have hz := h1 s (by rw [hl, append_nil] at hs; exact hs)
      have := (of_decide_eq_true hc : Child t pid s).2.1
      omega
  · rintro ⟨l1, l2, hl, halone, h1, h2⟩
    have hne : l2 ≠ [] := fun h => hnil (by rw [hl, h, halone h, append_nil])
    obtain ⟨s, hs⟩ := exists_mem_of_ne_nil l2 hne
    have hdig : oneDigit t pid ≠ [] := by
      rw [oneDigit_eq null]
      refine ne_nil_of_mem (mem_map_of_mem (a := s) (mem_filter.mpr ⟨?_, ?_⟩))
      · rw [hl]
        exact mem_append_right _ hs
      · exact decide_eq_true (h2 s hs)
    rw [if_neg hdig]
    exact (takenCode_eq_iff h0).mpr ⟨l1, l2, hl, h1, h2⟩

/-- For a parent with a pid of two digits `get_children` is right exactly when no child has a pid of
one digit. For another parent it is right on a clean table, and on no other one where no pid is
negative and the number made of the pids fits in an `int`. -/
theorem getChildren_code_iff (null : Int) (t : PTable) (pid : Int)
    (hnine : (oneDigit t pid).length ≤ 9) :
    (10 ≤ pid → (IsCode t pid (getChildren null t pid) ↔ oneDigit t pid = [])) ∧
    (pid < 10 → (Clean null t pid → IsCode t pid (getChildren null t pid)) ∧
      ((∀ s, readPid null t s = pid → 0 ≤ (t s).pid) → takenCode null t pid < 2 ^ 31 →
        (IsCode t pid (getChildren null t pid) ↔ Clean null t pid))) := by
  refine ⟨fun hpid => ?_, fun hpid => ⟨fun hclean => ?_, isCode_iff_clean hpid⟩⟩
  · rw [isCode_iff, getChildren_two_digits t hpid]
    by_cases hnil : oneDigit t pid = []
    · simp [hnil]
    · have := encode_pos hnil oneDigit_digit
      rw [if_neg hnil]
      exact iff_of_false (by omega) hnil
  · obtain ⟨h0, hfit⟩ := hclean.bounds hnine
    exact (isCode_iff_clean hpid h0 hfit).mpr hclean

/-- `init`, a shell with the pid 2, and two children of the shell. -/
def shellTable (child child' : Int) : PTable := fun s =>
  if s = 0 then { Proc.zero with state := .sleeping, pid := 1 }
  else if s = 1 then { Proc.zero with state := .running, pid := 2, parent := some 0 }
  else if s = 2 then { Proc.zero with state := .runnable, pid := child, parent := some 1 }
  else if s = 3 then { Proc.zero with state := .zombie, pid := child', parent := some 1 }
  else Proc.zero

theorem getChildren_code_shell : Clean 0 (shellTable 3 4) 2 ∧
    IsCode (shellTable 3 4) 2 (getChildren 0 (shellTable 3 4) 2) ∧
    getChildren 0 (shellTable 3 4) 2 = 34 := by
  have htaken : taken 0 (shellTable 3 4) 2 = [2, 3] := by decide +kernel
  have hclean : Clean 0 (shellTable 3 4) 2 :=
    ⟨[], [2, 3], htaken, fun _ => rfl, nofun, by decide +kernel⟩
  have hright := (getChildren_code_iff 0 (shellTable 3 4) 2 (by decide +kernel)).2 (by decide)
  exact ⟨hclean, hright.1 hclean, by decide +kernel⟩

/-- The child with pid 12 counts, and the word behind the null pointer decides what else does. -/
theorem getChildren_counts_twelve :
    (∀ s, s = 0 ∨ (shellTable 3 12 s).state = .unused → (shellTable 3 12 s).parent = none) ∧
    oneDigit (shellTable 3 12) 2 = [3] ∧ getChildren 0 (shellTable 3 12) 2 = 42 ∧
    ¬ IsCode (shellTable 3 12) 2 (getChildren 0 (shellTable 3 12) 2) ∧
    ¬ IsCode (shellTable 3 4) 2 (getChildren 2 (shellTable 3 4) 2) := by
  refine ⟨by decide +kernel, by decide +kernel, by decide +kernel, ?_, ?_⟩
  · rw [isCode_iff]
    decide +kernel
  · rw [isCode_iff]
    decide +kernel

end Xv6.Kernel

import Mathlib.Tactic

/-!
# Xv6.Lib.Ring

Circular doubly linked lists with a head node.

A node is an `Option α`: `none` is the head, which carries no value. `Links` holds the `next` and
`prev` pointers of all nodes, and `Links.Ring l xs` says that following `next` from the head visits
exactly `xs` and that `prev` is the inverse. The pointer assignments of an unlink and of an
insertion at the front are proved against the list operations they stand for (`Ring.unlink`,
`Ring.pushFront`), and a search along the pointers against `List.find?`.
-/

namespace Xv6

open Function List

structure Links (α : Type) where
  next : Option α → Option α
  prev : Option α → Option α

namespace Links

variable {α : Type}

/-- The nodes between `a` and `b`, in the order of `next`. -/
def Seg (l : Links α) : Option α → List α → Option α → Prop
  | a, [], b => l.next a = b ∧ l.prev b = a
  | a, x :: xs, b => l.next a = some x ∧ l.prev (some x) = a ∧ l.Seg (some x) xs b

/-- `xs` are the values of the list, without repetition. -/
structure Ring (l : Links α) (xs : List α) : Prop where
  seg : l.Seg none xs none
  nodup : xs.Nodup

def single : Links α := ⟨fun _ => none, fun _ => none⟩

theorem single_ring : (single : Links α).Ring [] := ⟨⟨rfl, rfl⟩, nodup_nil⟩

variable {l l' : Links α} {a b : Option α} {x : α} {xs ys zs : List α}

theorem Seg.congr (hn : ∀ q, q = a ∨ (∃ x ∈ xs, q = some x) → l'.next q = l.next q)
    (hp : ∀ q, q = b ∨ (∃ x ∈ xs, q = some x) → l'.prev q = l.prev q) (h : l.Seg a xs b) :
    l'.Seg a xs b := by
  induction xs generalizing a with
  | nil => exact ⟨(hn a (.inl rfl)).trans h.1, (hp b (.inl rfl)).trans h.2⟩
  | cons x xs ih =>
    obtain ⟨h1, h2, h3⟩ := h
    refine ⟨(hn a (.inl rfl)).trans h1, ?_, ih ?_ ?_ h3⟩
    · exact (hp (some x) (.inr ⟨x, mem_cons_self, rfl⟩)).trans h2
    · rintro q (rfl | ⟨y, hy, rfl⟩)
      · exact hn _ (.inr ⟨x, mem_cons_self, rfl⟩)
      · exact hn _ (.inr ⟨y, mem_cons_of_mem x hy, rfl⟩)
    · rintro q (rfl | ⟨y, hy, rfl⟩)
      · exact hp _ (.inl rfl)
      · exact hp _ (.inr ⟨y, mem_cons_of_mem x hy, rfl⟩)

theorem seg_append : l.Seg a (ys ++ x :: zs) b ↔ l.Seg a ys (some x) ∧ l.Seg (some x) zs b := by
  induction ys generalizing a with
  | nil => simp [Seg, and_assoc]
  | cons y ys ih => simp [Seg, ih, and_assoc]

theorem Seg.prev_end (h : l.Seg a xs b) : l.prev b = a ∧ xs = [] ∨ ∃ x ∈ xs, l.prev b = some x := by
  induction xs generalizing a with
  | nil => exact .inl ⟨h.2, rfl⟩
  | cons x xs ih =>
    cases ih h.2.2 with
    | inl h' => exact .inr ⟨x, mem_cons_self, h'.1⟩
    | inr h' =>
      obtain ⟨y, hy, heq⟩ := h'
      exact .inr ⟨y, mem_cons_of_mem x hy, heq⟩

theorem Seg.prev_next (h : l.Seg a xs b) {q : Option α} (hq : q ∈ a :: xs.map some) :
    l.prev (l.next q) = q := by
  induction xs generalizing a with
  | nil =>
    obtain rfl := mem_singleton.mp hq
    rw [h.1, h.2]
  | cons x xs ih =>
    rcases mem_cons.mp hq with rfl | hq
    · rw [h.1, h.2.1]
    · exact ih h.2.2 hq

theorem Seg.next_prev (h : l.Seg a xs b) {q : Option α} (hq : q ∈ xs.map some ++ [b]) :
    l.next (l.prev q) = q := by
  induction xs generalizing a with
  | nil =>
    obtain rfl := mem_singleton.mp hq
    rw [h.2, h.1]
  | cons x xs ih =>
    rcases mem_cons.mp hq with rfl | hq
    · rw [h.2.1, h.1]
    · exact ih h.2.2 hq

theorem Ring.inverse (h : l.Ring xs) (hall : ∀ x, x ∈ xs) (q : Option α) :
    l.prev (l.next q) = q ∧ l.next (l.prev q) = q := by
  have hmem : q = none ∨ q ∈ xs.map some := by
    cases q with
    | none => exact .inl rfl
    | some x => exact .inr (mem_map_of_mem (hall x))
  refine ⟨h.seg.prev_next ?_, h.seg.next_prev ?_⟩
  · exact mem_cons.mpr hmem
  · exact mem_append.mpr (hmem.symm.imp_right mem_singleton.mpr)

variable [DecidableEq α]

def setNext (l : Links α) (a b : Option α) : Links α :=
  { l with next := update l.next a b }

def setPrev (l : Links α) (a b : Option α) : Links α :=
  { l with prev := update l.prev a b }

/-- `x->next->prev = x->prev; x->prev->next = x->next;` -/
def unlink (l : Links α) (x : α) : Links α :=
  let l := l.setPrev (l.next (some x)) (l.prev (some x))
  l.setNext (l.prev (some x)) (l.next (some x))

/-- `x->next = head.next; x->prev = &head; head.next->prev = x; head.next = x;` -/
def pushFront (l : Links α) (x : α) : Links α :=
  let l := l.setNext (some x) (l.next none)
  let l := l.setPrev (some x) none
  let l := l.setPrev (l.next none) (some x)
  l.setNext none (some x)

theorem unlink_next (hx : l.next (some x) ≠ some x) :
    (l.unlink x).next = update l.next (l.prev (some x)) (l.next (some x)) := by
  simp only [unlink, setNext, setPrev]
  rw [update_of_ne hx.symm]

theorem unlink_prev : (l.unlink x).prev = update l.prev (l.next (some x)) (l.prev (some x)) := rfl

theorem Seg.unlink (h : l.Seg a ys (some x)) (h' : l.Seg (some x) zs b)
    (hnodup : (ys ++ x :: zs).Nodup) (ha : ∀ y ∈ ys ++ x :: zs, a ≠ some y)
    (hb : ∀ y ∈ ys ++ x :: zs, b ≠ some y) : (l.unlink x).Seg a (ys ++ zs) b := by
  have hxzs : x ∉ zs := (nodup_cons.mp hnodup.of_append_right).1
  -- the successor of `x` is the first of `zs`, or the end
  have hnext : l.next (some x) = b ∨ ∃ z ∈ zs, l.next (some x) = some z := by
    cases zs with
    | nil => exact .inl h'.1
    | cons z zs => exact .inr ⟨z, mem_cons_self, h'.1⟩
  have hnx : l.next (some x) ≠ some x := by
    intro heq
    rcases hnext with hnb | ⟨z, hz, hnz⟩
    · exact hb x (by simp) (hnb.symm.trans heq)
    · rw [hnz, Option.some.injEq] at heq
      exact hxzs (heq ▸ hz)
  induction ys generalizing a with
  | nil =>
    obtain ⟨h1, h2⟩ := h
    cases zs with
    | nil =>
      obtain ⟨h3, h4⟩ := h'
      refine ⟨?_, ?_⟩
      · rw [unlink_next hnx, h2, h3, update_self]
      · rw [unlink_prev, h3, h2, update_self]
    | cons z zs =>
      obtain ⟨h3, h4, h5⟩ := h'
      have hz := (nodup_cons.mp (nodup_cons.mp hnodup).2).1
      refine ⟨?_, ?_, h5.congr ?_ ?_⟩
      · rw [unlink_next hnx, h2, h3, update_self]
      · rw [unlink_prev, h3, h2, update_self]
      · intro q hq
        rw [unlink_next hnx, h2, update_of_ne]
        rintro rfl
        rcases hq with hq | ⟨y, hy, hq⟩
        · exact ha z (by simp) hq
        · exact ha y (by simp [hy]) hq
      · intro q hq
        rw [unlink_prev, h3, update_of_ne]
        rintro rfl
        rcases hq with hq | ⟨y, hy, hq⟩
        · exact hb z (by simp) hq.symm
        · rw [Option.some.injEq] at hq
          exact hz (hq ▸ hy)
  | cons y ys ih =>
    obtain ⟨h1, h2, h3⟩ := h
    have hy := (nodup_cons.mp hnodup).1
    refine ⟨?_, ?_, ih h3 (nodup_cons.mp hnodup).2 ?_ ?_⟩
    · rw [unlink_next hnx, update_of_ne, h1]
      rcases h3.prev_end with hp | ⟨w, hw, hp⟩
      · rw [hp.1]
        exact ha y (by simp)
      · rw [hp]
        exact ha w (by simp [hw])
    · rw [unlink_prev, update_of_ne, h2]
      rcases hnext with hnb | ⟨z, hz, hnz⟩
      · rw [hnb]
        exact (hb y (by simp)).symm
      · rw [hnz]
        intro heq
        rw [Option.some.injEq] at heq
        exact hy (by simp [heq, hz])
    · intro w hw heq
      rw [Option.some.injEq] at heq
      exact hy (heq ▸ hw)
    · intro w hw
      exact hb w (mem_cons_of_mem y hw)

theorem Ring.unlink (h : l.Ring xs) (hx : x ∈ xs) : (l.unlink x).Ring (xs.erase x) := by
  obtain ⟨ys, zs, rfl⟩ := append_of_mem hx
  obtain ⟨h1, h2⟩ := seg_append.mp h.seg
  have hys : x ∉ ys := by
    intro hmem
    exact (nodup_append.mp h.nodup).2.2 x hmem x mem_cons_self rfl
  have herase : (ys ++ x :: zs).erase x = ys ++ zs := by
    rw [erase_append_right _ hys, erase_cons_head]
  refine ⟨?_, h.nodup.erase x⟩
  rw [herase]
  exact Seg.unlink h1 h2 h.nodup (by simp) (by simp)

theorem Ring.pushFront (h : l.Ring xs) (hx : x ∉ xs) : (l.pushFront x).Ring (x :: xs) := by
  have hseg := h.seg
  refine ⟨?_, nodup_cons.mpr ⟨hx, h.nodup⟩⟩
  have hn : (l.pushFront x).next =
      update (update l.next (some x) (l.next none)) none (some x) := by
    simp [Links.pushFront, setNext, setPrev]
  have hp : (l.pushFront x).prev =
      update (update l.prev (some x) none) (l.next none) (some x) := by
    simp [Links.pushFront, setNext, setPrev]
  cases xs with
  | nil =>
    obtain ⟨h1, h2⟩ := hseg
    refine ⟨by simp [hn], by simp [hp, h1], by simp [hn, h1], by simp [hp, h1]⟩
  | cons y ys =>
    obtain ⟨h1, h2, h3⟩ := hseg
    have hxy : x ≠ y := fun heq => hx (heq ▸ mem_cons_self)
    have hy := (nodup_cons.mp h.nodup).1
    refine ⟨by simp [hn], by simp [hp, h1, hxy], by simp [hn, h1], by simp [hp, h1], h3.congr ?_ ?_⟩
    · rintro q (rfl | ⟨w, hw, rfl⟩)
      · simp [hn, hxy.symm]
      · have hwx : w ≠ x := fun heq => hx (heq ▸ mem_cons_of_mem y hw)
        simp [hn, hwx]
    · rintro q (rfl | ⟨w, hw, rfl⟩)
      · simp [hp, h1]
      · have hwx : w ≠ x := fun heq => hx (heq ▸ mem_cons_of_mem y hw)
        have hwy : w ≠ y := fun heq => hy (heq ▸ hw)
        simp [hp, h1, hwx, hwy]

omit [DecidableEq α]

/-- `for(b = ...; b != &head; b = step(b)) if(p(b)) return b;` with at most `fuel` turns. -/
def search (step : Option α → Option α) (p : α → Bool) : Nat → Option α → Option α
  | 0, _ => none
  | _ + 1, none => none
  | fuel + 1, some x => if p x then some x else search step p fuel (step (some x))

theorem Seg.search_next {p : α → Bool} (h : l.Seg a xs none) {fuel : Nat} (hf : xs.length ≤ fuel) :
    search l.next p fuel (l.next a) = xs.find? p := by
  induction xs generalizing a fuel with
  | nil =>
    rw [h.1]
    cases fuel with
    | zero => rfl
    | succ fuel => rfl
  | cons x xs ih =>
    obtain ⟨h1, -, h3⟩ := h
    rw [h1]
    cases fuel with
    | zero => simp at hf
    | succ fuel =>
      rw [search, List.find?_cons, ih h3 (by simpa using hf)]
      cases p x with
      | true => rfl
      | false => rfl

theorem Seg.search_prev {p : α → Bool} (h : l.Seg none xs b) {fuel : Nat} (hf : xs.length ≤ fuel) :
    search l.prev p fuel (l.prev b) = xs.reverse.find? p := by
  induction xs using List.reverseRecOn generalizing b fuel with
  | nil =>
    rw [h.2]
    cases fuel with
    | zero => rfl
    | succ fuel => rfl
  | append_singleton xs x ih =>
    obtain ⟨h1, h2⟩ := seg_append.mp h
    rw [h2.2]
    cases fuel with
    | zero => simp at hf
    | succ fuel =>
      rw [search, reverse_append, reverse_singleton, singleton_append,
        List.find?_cons, ih h1 (by simpa using hf)]
      cases p x with
      | true => rfl
      | false => rfl

end Links
end Xv6

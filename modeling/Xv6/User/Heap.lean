import Xv6.Lib.Run
import Xv6.User.Malloc

/-!
# Xv6.User.Heap

Runs of `malloc` and `free`.

A program calls the two functions in any order and stores into its own memory in between; `sbrk`
answers as it likes, with memory above all it has returned before. `Sound` holds in every state of
such a run. A call of `malloc` goes round the free list once, and after a successful `morecore` a
second time, in which it finds the new block.
-/

namespace Xv6.User
namespace Malloc

open Bytes Circular List

namespace Sound

variable {base k prevp : Nat} {s : St} {idle live F₁ F₂ : List Block} {b c x : Block}

/-! ## Taking a block -/

theorem apart_of_perm {rest : List Block} (h : Sound base s idle live)
    (hp : (idle ++ live).Perm (b :: rest)) (hc : c ∈ rest) : b.stop ≤ c.addr ∨ c.stop ≤ b.addr := by
  have ht := h.tiles.perm (hp.map Block.piece)
  rw [map_cons] at ht
  exact ht.head_apart (mem_map_of_mem hc)

theorem eq_before (h : Sound base s (F₁ ++ x :: F₂) live)
    (hprev : prevp ∈ base :: (F₁ ++ x :: F₂).map Block.addr) (hx : ptr s.mem prevp = x.addr) :
    prevp = before base F₁ := by
  have hchain := h.chain
  have hlt := h.nodes_lt
  rw [map_append, map_cons] at hchain hlt hprev
  rw [← cons_append] at hlt
  obtain ⟨-, hback, hcross⟩ := pairwise_append.mp hlt
  refine hchain.pred ?_ ?_ ?_ hprev hx
  · intro hmem
    exact absurd (hcross x.addr (mem_cons_of_mem _ hmem) x.addr mem_cons_self)
      (Nat.lt_irrefl _)
  · intro hmem
    exact absurd ((pairwise_cons.mp hback).1 x.addr hmem) (Nat.lt_irrefl _)
  · exact (Nat.ne_of_lt (hcross base mem_cons_self x.addr mem_cons_self)).symm

theorem unlink (h : Sound base s (F₁ ++ x :: F₂) live) : Sound base { s with
        mem := setPtr s.mem (before base F₁) (ptr s.mem x.addr)
        freep := before base F₁ } (F₁ ++ F₂) (x :: live) := by
  have hchain := h.chain
  rw [map_append, map_cons, seg_cons] at hchain
  obtain ⟨-, hback⟩ := hchain
  have hbefore : before base F₁ ∈ base :: (F₁ ++ x :: F₂ ++ live).map Block.addr :=
    node_mem before_node
  have hsize : ∀ y ∈ base :: (F₁ ++ x :: F₂ ++ live).map Block.addr,
      Malloc.size (setPtr s.mem (before base F₁) (ptr s.mem x.addr)) y = Malloc.size s.mem y :=
    fun y hy => size_setPtr (h.same_or_clear hbefore hy)
  have hptr : ∀ y ∈ base :: (F₁ ++ x :: F₂ ++ live).map Block.addr, y ≠ before base F₁ →
      ptr (setPtr s.mem (before base F₁) (ptr s.mem x.addr)) y = ptr s.mem y :=
    fun y hy hne => ptr_setPtr_other ((h.same_or_clear hbefore hy).resolve_left hne.symm)
  have hperm : (F₁ ++ x :: F₂ ++ live).Perm (F₁ ++ F₂ ++ x :: live) := by
    rw [append_assoc, append_assoc, cons_append]
    exact (List.Perm.append_left F₁ perm_middle.symm)
  refine ⟨?_, ?_, ?_, ?_, ?_, ?_, h.bounds⟩
  · rw [map_append]
    refine seg_append.mpr ⟨h.front (fun y hy hne => hptr y (node_mem ?_) hne) ?_,
      hback.tail.congr fun y hy => ?_⟩
    · rw [map_append, ← cons_append]
      exact mem_append_left _ hy
    · exact (ptr_setPtr (ptr_lt _ _)).trans hback.head
    · obtain ⟨r, hr, rfl⟩ := mem_map.mp hy
      refine hptr _ (block_mem (by simp [hr])) ?_
      -- A later block is not the node before the gap.
      have hlt := h.nodes_lt
      rw [map_append, ← cons_append] at hlt
      have hmem : r.addr ∈ (x :: F₂).map Block.addr :=
        mem_map_of_mem (mem_cons_of_mem x hr)
      exact (Nat.ne_of_lt ((pairwise_append.mp hlt).2.2 _ (before_mem base F₁) _ hmem)).symm
  · exact before_node
  · exact (hsize base mem_cons_self).trans h.baseSize
  · intro b hb
    have hb' := hperm.mem_iff.mpr hb
    exact (hsize _ (block_mem hb')).trans (h.sizes b hb')
  · exact h.order.sublist (List.Sublist.append_left (sublist_cons_self x F₂) F₁)
  · exact h.tiles.perm (hperm.map Block.piece)

theorem split (h : Sound base s (F₁ ++ x :: F₂) live)
    (hprev : prevp ∈ base :: (F₁ ++ x :: F₂).map Block.addr) (hk : 0 < k) (hlt : k < x.size) :
    Sound base { s with
        mem := setSize (setSize s.mem x.addr (x.size - k)) (x.addr + 8 * (x.size - k)) k
        freep := prevp }
      (F₁ ++ ⟨x.addr, x.size - k⟩ :: F₂) (⟨x.addr + 8 * (x.size - k), k⟩ :: live) := by
  have hx := h.above (b := x) (by simp)
  have hstop : x.stop = x.addr + 8 * x.size := rfl
  have hperm : (F₁ ++ x :: F₂ ++ live).Perm (x :: (F₁ ++ F₂ ++ live)) := by
    rw [append_assoc, append_assoc, cons_append]
    exact perm_middle
  -- The new header lies inside the block, away from all others.
  have hclear : ∀ c ∈ F₁ ++ F₂ ++ live, Clear (x.addr + 8 * (x.size - k)) c.addr := by
    intro c hc
    have h1 := h.apart_of_perm hperm hc
    have h2 := h.pos (hperm.mem_iff.mpr (mem_cons_of_mem x hc))
    have h3 : c.stop = c.addr + 8 * c.size := rfl
    rw [Clear]
    omega
  have hclearX : Clear (x.addr + 8 * (x.size - k)) x.addr := by
    rw [Clear]
    omega
  have hclearB : Clear (x.addr + 8 * (x.size - k)) base := by
    rw [Clear]
    omega
  have hxc : ∀ c ∈ F₁ ++ F₂ ++ live, Clear x.addr c.addr := fun c hc => h.clear_of_perm hperm hc
  have hxb : Clear x.addr base := by
    rw [Clear]
    omega
  generalize hm : setSize (setSize s.mem x.addr (x.size - k)) (x.addr + 8 * (x.size - k)) k = m
  have hptr : ∀ y, x.addr = y ∨ Clear x.addr y → Clear (x.addr + 8 * (x.size - k)) y →
      ptr m y = ptr s.mem y := by
    intro y h1 h2
    rw [← hm, ptr_setSize (.inr h2), ptr_setSize h1]
  have hsize : ∀ y, Clear x.addr y → Clear (x.addr + 8 * (x.size - k)) y →
      Malloc.size m y = Malloc.size s.mem y := by
    intro y h1 h2
    rw [← hm, size_setSize_other h2, size_setSize_other h1]
  have haddrs : (F₁ ++ (⟨x.addr, x.size - k⟩ : Block) :: F₂).map Block.addr =
      (F₁ ++ x :: F₂).map Block.addr := by
    simp
  refine ⟨?_, ?_, ?_, ?_, ?_, ?_, h.bounds⟩
  · rw [haddrs]
    refine h.chain.congr fun y hy => ?_
    rcases mem_cons.mp hy with rfl | hy
    · exact hptr _ (.inr hxb) hclearB
    · obtain ⟨c, hc, rfl⟩ := mem_map.mp hy
      have hc' : c = x ∨ c ∈ F₁ ++ F₂ ++ live :=
        mem_cons.mp (hperm.mem_iff.mp (mem_append_left live hc))
      rcases hc' with rfl | hc'
      · exact hptr _ (.inl rfl) hclearX
      · exact hptr _ (.inr (hxc c hc')) (hclear c hc')
  · rw [haddrs]
    exact hprev
  · exact (hsize base hxb hclearB).trans h.baseSize
  · intro c hc
    have hc' : c = ⟨x.addr, x.size - k⟩ ∨ c = ⟨x.addr + 8 * (x.size - k), k⟩ ∨
        c ∈ F₁ ++ F₂ ++ live := by
      simp only [mem_append, mem_cons] at hc ⊢
      rcases hc with (hc | hc | hc) | hc | hc
      · exact .inr (.inr (.inl (.inl hc)))
      · exact .inl hc
      · exact .inr (.inr (.inl (.inr hc)))
      · exact .inr (.inl hc)
      · exact .inr (.inr (.inr hc))
    rcases hc' with rfl | rfl | hc'
    · show Malloc.size m x.addr = x.size - k
      rw [← hm, size_setSize_other hclearX, size_setSize (by omega)]
    · show Malloc.size m (x.addr + 8 * (x.size - k)) = k
      rw [← hm, size_setSize (by omega)]
    · exact (hsize _ (hxc c hc') (hclear c hc')).trans
        (h.sizes c (hperm.mem_iff.mpr (mem_cons_of_mem x hc')))
  · obtain ⟨h1, h2, hcross⟩ := pairwise_append.mp h.order
    obtain ⟨h3, h4⟩ := pairwise_cons.mp h2
    refine pairwise_append.mpr ⟨h1, pairwise_cons.mpr ⟨fun c hc => ?_, h4⟩, ?_⟩
    · have := h3 c hc
      show x.addr + 8 * (x.size - k) < c.addr
      omega
    · intro c hc d hd
      rcases mem_cons.mp hd with rfl | hd
      · exact hcross c hc x mem_cons_self
      · exact hcross c hc d (mem_cons_of_mem x hd)
  · have hwhole := h.tiles.perm (hperm.map Block.piece)
    rw [map_cons] at hwhole
    have hpiece : x.piece = ⟨x.addr, 8 * (x.size - k) + 8 * k⟩ := by
      rw [Block.piece]
      congr 1
      omega
    rw [hpiece] at hwhole
    have hcut := hwhole.cut (by omega) (by omega)
    have hperm : List.Perm (⟨x.addr, x.size - k⟩ :: ⟨x.addr + 8 * (x.size - k), k⟩ ::
        (F₁ ++ F₂ ++ live)) (F₁ ++ ⟨x.addr, x.size - k⟩ :: F₂ ++
        (⟨x.addr + 8 * (x.size - k), k⟩ : Block) :: live) := by
      simp only [append_assoc, cons_append]
      refine .trans ?_ perm_middle.symm
      refine .cons _ ?_
      rw [← append_assoc, ← append_assoc]
      exact perm_middle.symm
    exact hcut.perm (hperm.map Block.piece)

theorem take_sound (h : Sound base s idle live) (hprev : prevp ∈ base :: idle.map Block.addr)
    (hx : ptr s.mem prevp = x.addr) (hmem : x ∈ idle) (hk : 0 < k) (hle : k ≤ x.size) :
    ∃ c idle' s', take k prevp x.addr s = (c.addr + 8, s') ∧ c.size = k ∧ s'.got = s.got ∧
      Sound base s' idle' (c :: live) := by
  obtain ⟨F₁, F₂, rfl⟩ := append_of_mem hmem
  have habove := h.above (b := x) (by simp)
  have hstop : x.stop = x.addr + 8 * x.size := rfl
  have hsize := h.sizes x (by simp)
  rw [take, hsize]
  rcases Nat.eq_or_lt_of_le hle with heq | hlt
  · rw [if_pos heq.symm, Nat.mod_eq_of_lt (by omega), h.eq_before hprev hx]
    exact ⟨x, F₁ ++ F₂, _, rfl, heq.symm, rfl, h.unlink⟩
  · have hrest : Malloc.size (setSize s.mem x.addr (x.size - k)) x.addr = x.size - k :=
      size_setSize (by omega)
    rw [if_neg (by omega)]
    simp only [hrest, plus_eq (show x.addr + 8 * (x.size - k) < 2 ^ 32 by omega)]
    rw [Nat.mod_eq_of_lt (by omega)]
    exact ⟨⟨x.addr + 8 * (x.size - k), k⟩, _, _, rfl, rfl, rfl, h.split hprev hk hlt⟩

variable {sbrk : Sbrk} {fuel : Nat}

/-- What `malloc` does when it has come back to `freep`. -/
def more (sbrk : Sbrk) (k fuel : Nat) (s : St) : Except Stop (Nat × St) := do
  let r ← morecore sbrk fuel k s
  if r.1 = 0 then return (0, r.2)
  else mallocLoop sbrk k fuel r.1 (ptr r.2.mem r.1) r.2

theorem node_block {y : Nat} (h : Sound base s idle live) (hy : y ∈ base :: idle.map Block.addr)
    (hk : 0 < k) (hle : k ≤ Malloc.size s.mem y) : ∃ x ∈ idle, y = x.addr ∧ k ≤ x.size := by
  rcases mem_cons.mp hy with rfl | hy
  · rw [h.baseSize] at hle
    omega
  · obtain ⟨x, hx, rfl⟩ := mem_map.mp hy
    rw [h.sizes x (mem_append_left live hx)] at hle
    exact ⟨x, hx, rfl, hle⟩

theorem scan (h : Sound base s idle live) (hk : 0 < k) : ∀ (l : List Nat) (prevp fuel : Nat),
    Seg (ptr s.mem) prevp l s.freep → (∀ y ∈ prevp :: l, y ∈ base :: idle.map Block.addr) →
    s.freep ∉ l → l.length < fuel →
    (∃ prev x, prev ∈ base :: idle.map Block.addr ∧ x ∈ idle ∧ ptr s.mem prev = x.addr ∧
      k ≤ x.size ∧
      mallocLoop sbrk k fuel prevp (ptr s.mem prevp) s = .ok (take k prev x.addr s)) ∨
    ((∀ y ∈ l ++ [s.freep], Malloc.size s.mem y < k) ∧
      mallocLoop sbrk k fuel prevp (ptr s.mem prevp) s = more sbrk k (fuel - l.length - 1) s) := by
  intro l
  induction l with
  | nil =>
    intro prevp fuel hseg hnodes _ hfuel
    obtain ⟨fuel, rfl⟩ := Nat.exists_eq_add_one_of_ne_zero (Nat.ne_of_gt hfuel)
    have hp : ptr s.mem prevp = s.freep := hseg
    rw [mallocLoop, hp]
    by_cases hbig : k ≤ Malloc.size s.mem s.freep
    · obtain ⟨x, hx, heq, hle⟩ := h.node_block h.freep hk hbig
      rw [if_pos hbig, heq]
      exact .inl ⟨prevp, x, hnodes prevp mem_cons_self, hx, hp.trans heq, hle, rfl⟩
    · rw [if_neg hbig, if_pos rfl]
      refine .inr ⟨fun y hy => ?_, rfl⟩
      rw [mem_singleton.mp hy]
      omega
  | cons p l ih =>
    intro prevp fuel hseg hnodes hfree hfuel
    obtain ⟨fuel, rfl⟩ := Nat.exists_eq_add_one_of_ne_zero
      (Nat.ne_of_gt (Nat.zero_lt_of_lt hfuel))
    obtain ⟨hp, hseg⟩ := hseg
    have hpn := hnodes p (mem_cons_of_mem _ mem_cons_self)
    have hne : p ≠ s.freep := fun heq => hfree (heq ▸ mem_cons_self)
    rw [mallocLoop, hp]
    by_cases hbig : k ≤ Malloc.size s.mem p
    · obtain ⟨x, hx, heq, hle⟩ := h.node_block hpn hk hbig
      rw [if_pos hbig, heq]
      exact .inl ⟨prevp, x, hnodes prevp mem_cons_self, hx, hp.trans heq, hle, rfl⟩
    · rw [if_neg hbig, if_neg hne]
      rcases ih p fuel hseg (fun y hy => hnodes y (mem_cons_of_mem _ hy))
        (fun hmem => hfree (mem_cons_of_mem p hmem)) (Nat.lt_of_succ_lt_succ hfuel) with
        hfound | ⟨hsmall, hrun⟩
      · exact .inl hfound
      · refine .inr ⟨fun y hy => ?_, ?_⟩
        · rcases mem_cons.mp hy with rfl | hy
          · omega
          · exact hsmall y hy
        · rw [hrun, length_cons, Nat.succ_sub_succ]

theorem scan_all (h : Sound base s idle live) (hk : 0 < k) (hfuel : idle.length < fuel) :
    (∃ prev x, prev ∈ base :: idle.map Block.addr ∧ x ∈ idle ∧ ptr s.mem prev = x.addr ∧
      k ≤ x.size ∧
      mallocLoop sbrk k fuel s.freep (ptr s.mem s.freep) s = .ok (take k prev x.addr s)) ∨
    ((∀ x ∈ idle, x.size < k) ∧
      mallocLoop sbrk k fuel s.freep (ptr s.mem s.freep) s =
        more sbrk k (fuel - idle.length - 1) s) := by
  obtain ⟨rest, hseg, hperm⟩ := h.chain.rotate h.freep
  have hlen : rest.length = idle.length := by simpa using hperm.length_eq
  have hnd : (s.freep :: rest).Nodup :=
    hperm.nodup_iff.mpr (h.nodes_lt.imp fun h => Nat.ne_of_lt h)
  rcases h.scan hk rest s.freep fuel hseg (fun y hy => hperm.mem_iff.mp hy)
    (nodup_cons.mp hnd).1 (by omega) with hfound | ⟨hsmall, hrun⟩
  · exact .inl hfound
  · rw [hlen] at hrun
    refine .inr ⟨fun x hx => ?_, hrun⟩
    have hnode : x.addr ∈ s.freep :: rest :=
      hperm.mem_iff.mpr (mem_cons_of_mem _ (mem_map_of_mem hx))
    rw [← h.sizes x (mem_append_left live hx)]
    exact hsmall x.addr (by simpa [or_comm] using hnode)

theorem loop_found (sbrk : Sbrk) (h : Sound base s idle live) (hk : 0 < k)
    (hfuel : idle.length < fuel) (hbig : ∃ x ∈ idle, k ≤ x.size) :
    ∃ c idle' s', mallocLoop sbrk k fuel s.freep (ptr s.mem s.freep) s = .ok (c.addr + 8, s') ∧
      c.size = k ∧ s'.got = s.got ∧ Sound base s' idle' (c :: live) := by
  rcases h.scan_all hk hfuel with ⟨prev, x, hprev, hx, hptr, hle, hrun⟩ | ⟨hsmall, -⟩
  · obtain ⟨c, idle', s', htake, hc⟩ := h.take_sound hprev hptr hx hk hle
    exact ⟨c, idle', s', by rw [hrun, htake], hc⟩
  · obtain ⟨x, hx, hle⟩ := hbig
    exact absurd (hsmall x hx) (by omega)

theorem loop_more (h : Sound base s idle live) (hk : 0 < k) (hfuel : idle.length < fuel)
    (hsmall : ∀ x ∈ idle, x.size < k) : mallocLoop sbrk k fuel s.freep (ptr s.mem s.freep) s =
      more sbrk k (fuel - idle.length - 1) s := by
  rcases h.scan_all hk hfuel with ⟨prev, x, -, hx, -, hle, -⟩ | ⟨-, hrun⟩
  · exact absurd (hsmall x hx) (by omega)
  · exact hrun

/-! ## More memory -/

end Sound

/-- `sbrk` answers with fresh memory above `base` and above all it has returned before. -/
def Legal (base : Nat) (sbrk : Sbrk) : Prop :=
  ∀ got inc hp, 0 < inc → sbrk got inc = some hp →
    base + 8 ≤ hp ∧ (∀ g ∈ got, g.stop ≤ hp) ∧ hp + inc < 2 ^ 32

namespace Sound

variable {base k : Nat} {s : St} {idle live : List Block} {sbrk : Sbrk} {fuel : Nat}

theorem grow {hp nu : Nat} (h : Sound base s idle live) (hbase : base + 8 ≤ hp)
    (habove : ∀ g ∈ s.got, g.stop ≤ hp) (htop : hp + 8 * nu < 2 ^ 32) (hnu : 0 < nu) :
    Sound base { s with mem := setSize s.mem hp nu, got := ⟨hp, 8 * nu⟩ :: s.got } idle
      (⟨hp, nu⟩ :: live) := by
  have htiles : Tiles (⟨hp, 8 * nu⟩ :: s.got)
      (((⟨hp, nu⟩ : Block) :: (idle ++ live)).map Block.piece) := by
    refine h.tiles.grow (g := ⟨hp, 8 * nu⟩) ?_ habove
    show 0 < 8 * nu
    omega
  have hclear : ∀ c ∈ idle ++ live, Clear hp c.addr := by
    intro c hc
    have h1 := htiles.head_apart (mem_map_of_mem hc)
    have h2 := h.pos hc
    simp only [Piece.Apart, Piece.stop, Block.piece] at h1
    rw [Clear]
    omega
  have hclearB : Clear hp base := .inr hbase
  refine ⟨h.chain.congr fun y hy => ptr_setSize (.inr ?_), h.freep, ?_, ?_, h.order, ?_, ?_⟩
  · rcases mem_cons.mp hy with rfl | hy
    · exact hclearB
    · obtain ⟨c, hc, rfl⟩ := mem_map.mp hy
      exact hclear c (mem_append_left live hc)
  · exact (size_setSize_other hclearB).trans h.baseSize
  · intro c hc
    rcases mem_cons.mp (perm_middle.mem_iff.mp hc) with rfl | hc
    · exact size_setSize (by omega)
    · exact (size_setSize_other (hclear c hc)).trans (h.sizes c hc)
  · exact htiles.perm (perm_middle.symm.map Block.piece)
  · intro g hg
    rcases mem_cons.mp hg with rfl | hg
    · exact ⟨hbase, htop⟩
    · exact h.bounds g hg

/-- What `morecore` asks for. -/
def request (k : Nat) : Nat := atLeast k * 8 % 2 ^ 32

theorem request_eq (hpos : Positive (request k)) (hk : k ≤ 2 ^ 29) : request k = 8 * atLeast k := by
  rw [Positive, request] at hpos
  rw [request]
  have hle : atLeast k ≤ 2 ^ 29 := by
    rw [atLeast]
    split <;> omega
  omega

theorem more_refused (hpos : Positive (request k)) (hsbrk : sbrk s.got (request k) = none) :
    more sbrk k fuel s = .ok (0, s) := by
  rw [more, morecore]
  simp only [request] at hpos hsbrk
  simp only [hpos, not_true_eq_false, if_false, hsbrk]
  rfl

theorem more_nonPositive (hpos : ¬ Positive (request k)) :
    more sbrk k fuel s = .error .nonPositive := by
  rw [more, morecore]
  simp only [request] at hpos
  simp only [hpos, not_false_eq_true, if_true]
  rfl

theorem more_granted {hp : Nat} (h : Sound base s idle live) (hlegal : Legal base sbrk)
    (hbase : 0 < base) (hbase' : base < 2 ^ 32) (hk : 0 < k) (hkle : k ≤ 2 ^ 29)
    (hpos : Positive (request k)) (hsbrk : sbrk s.got (request k) = some hp)
    (hfuel : idle.length + 1 < fuel) :
    ∃ c idle' s', more sbrk k fuel s = .ok (c.addr + 8, s') ∧ c.size = k ∧
      s'.got = ⟨hp, request k⟩ :: s.got ∧ Sound base s' idle' (c :: live) := by
  have hreq := request_eq hpos hkle
  obtain ⟨h1, h2, h3⟩ := hlegal s.got (request k) hp hpos.1 hsbrk
  have hnu : k ≤ atLeast k ∧ 0 < atLeast k := by
    rw [atLeast]
    split <;> omega
  have hgrow := h.grow h1 h2 (by omega) hnu.2
  rw [← hreq] at hgrow
  obtain ⟨s₁, idle₁, hfree, hsound, hgot, hlen, c, hc, hcsize⟩ :=
    hgrow.free_sound hbase' (show idle.length < fuel by omega)
  have hcore : morecore sbrk fuel k s = .ok (s₁.freep, s₁) := by
    rw [morecore]
    simp only [request] at hpos hsbrk hfree
    simp only [hpos, not_true_eq_false, if_false, hsbrk, hfree, bind, Except.bind]
    rfl
  have hne : s₁.freep ≠ 0 := by
    have := hsound.nodes_lt
    rcases mem_cons.mp hsound.freep with heq | hmem
    · omega
    · have := (pairwise_cons.mp this).1 _ hmem
      omega
  obtain ⟨d, idle₂, s₂, hrun, hd, hgot₂, hsound₂⟩ := hsound.loop_found sbrk hk
    (show idle₁.length < fuel by omega) ⟨c, hc, hnu.1.trans hcsize⟩
  refine ⟨d, idle₂, s₂, ?_, hd, hgot₂.trans hgot, hsound₂⟩
  rw [more, hcore]
  simp only [bind, Except.bind, hne, if_false]
  exact hrun

end Sound

/-! ## A call of `malloc` -/

theorem units_pos (n : Nat) : 0 < units n := Nat.succ_pos _

theorem units_le (n : Nat) : units n ≤ 2 ^ 29 := by
  rw [units]
  omega

theorem room_units {n : Nat} (h : n < 2 ^ 32 - 7) : n + 8 ≤ 8 * units n := by
  rw [units]
  omega

theorem units_wrapped {n : Nat} (h : 2 ^ 32 - 7 ≤ n) (hn : n < 2 ^ 32) : units n = 1 := by
  rw [units]
  omega

theorem positive_iff {n : Nat} (h : n < 2 ^ 32 - 7) :
    Positive (Sound.request (units n)) ↔ n < 2 ^ 31 - 15 := by
  rw [Positive, Sound.request, atLeast, units]
  split <;> omega

/-- A call that comes to its end, with this result. -/
def Returns {α : Type} (f : Nat → Except Stop α) (r : α) : Prop := ∃ N, ∀ fuel ≥ N, f fuel = .ok r

theorem Returns.unique {α : Type} {f : Nat → Except Stop α} {r r' : α} (h : Returns f r)
    (h' : Returns f r') : r = r' := by
  obtain ⟨N, hN⟩ := h
  obtain ⟨N', hN'⟩ := h'
  have h1 := hN (max N N') (Nat.le_max_left _ _)
  rw [hN' (max N N') (Nat.le_max_right _ _)] at h1
  exact (Except.ok.inj h1).symm

theorem not_returns {α : Type} {f : Nat → Except Stop α} {r : α} {e : Stop} {N : Nat}
    (h : ∀ fuel ≥ N, f fuel = .error e) : ¬ Returns f r := by
  rintro ⟨N', hN'⟩
  have h1 := h (max N N') (Nat.le_max_left _ _)
  rw [hN' (max N N') (Nat.le_max_right _ _)] at h1
  cases h1

section Fuel

variable {fuel fuel' : Nat} {s s' : St} {sbrk : Sbrk} {k : Nat}

theorem free_mono {ap : Nat} (hle : fuel ≤ fuel') (h : free fuel s ap = .ok s') :
    free fuel' s ap = .ok s' := by
  rw [free] at h ⊢
  cases hs : search (ptr s.mem) (inGap s.mem (ap - 8)) fuel s.freep with
  | none => rw [hs] at h; cases h
  | some p =>
    rw [hs] at h
    rw [search_mono hle hs]
    exact h

theorem morecore_mono {r : Nat × St} (hle : fuel ≤ fuel') (h : morecore sbrk fuel k s = .ok r) :
    morecore sbrk fuel' k s = .ok r := by
  rw [morecore] at h ⊢
  split at h
  · cases h
  · rw [if_neg ‹_›]
    cases hs : sbrk s.got (atLeast k * 8 % 2 ^ 32) with
    | none =>
      rw [hs] at h
      exact h
    | some hp =>
      rw [hs] at h
      dsimp only at h ⊢
      cases hf : free fuel
          { s with
            mem := setSize s.mem hp (atLeast k)
            got := ⟨hp, atLeast k * 8 % 2 ^ 32⟩ :: s.got } (hp + 8) with
      | error e => rw [hf] at h; cases h
      | ok s' =>
        rw [hf] at h
        rw [free_mono hle hf]
        exact h

theorem mallocLoop_mono : ∀ {fuel fuel' prevp p : Nat} {s : St} {r : Nat × St}, fuel ≤ fuel' →
    mallocLoop sbrk k fuel prevp p s = .ok r → mallocLoop sbrk k fuel' prevp p s = .ok r := by
  intro fuel
  induction fuel with
  | zero => intro fuel' prevp p s r _ h; cases h
  | succ fuel ih =>
    intro fuel' prevp p s r hle h
    obtain ⟨fuel', rfl⟩ := Nat.exists_eq_add_one_of_ne_zero
      (Nat.ne_of_gt (Nat.zero_lt_of_lt hle))
    have hle := Nat.le_of_succ_le_succ hle
    rw [mallocLoop] at h ⊢
    split at h
    · rw [if_pos ‹_›]
      exact h
    · rw [if_neg ‹_›]
      split at h
      · rw [if_pos ‹_›]
        cases hm : morecore sbrk fuel k s with
        | error e => rw [hm] at h; cases h
        | ok q =>
          rw [hm] at h
          rw [morecore_mono hle hm]
          simp only [bind, Except.bind] at h ⊢
          split at h
          · rw [if_pos ‹_›]
            exact h
          · rw [if_neg ‹_›]
            exact ih hle h
      · rw [if_neg ‹_›]
        exact ih hle h

end Fuel

section Calls

variable {base n : Nat} {s : St} {idle live : List Block} {sbrk : Sbrk}

/-- Before the first call there is no list, and nothing has been allocated. -/
def Fresh (s : St) (live : List Block) : Prop := s.freep = 0 ∧ s.got = [] ∧ live = []

theorem Sound.freep_ne (h : Sound base s idle live) (hbase : 0 < base) : s.freep ≠ 0 := by
  rcases mem_cons.mp h.freep with heq | hmem
  · omega
  · have := (pairwise_cons.mp h.nodes_lt).1 _ hmem
    omega

theorem Fresh.start (h : Fresh s live) (hbase' : base + 8 ≤ 2 ^ 32) :
    Sound base (start base s) [] live := by
  obtain ⟨hfreep, hgot, rfl⟩ := h
  rw [Malloc.start, if_pos hfreep]
  refine ⟨?_, mem_cons_self, size_setSize (by decide), fun _ h => absurd h not_mem_nil,
    List.Pairwise.nil, ?_, ?_⟩
  · show ptr (setSize (setPtr s.mem base base) base 0) base = base
    rw [ptr_setSize (.inl rfl), ptr_setPtr (by omega)]
  · show Tiles s.got []
    rw [hgot]
    exact .nil
  · show ∀ g ∈ s.got, _
    rw [hgot]
    exact fun _ h => absurd h not_mem_nil

theorem Sound.start (h : Sound base s idle live) (hbase : 0 < base) : start base s = s :=
  if_neg (h.freep_ne hbase)

theorem malloc_cases (h : Sound base s idle live) (hlegal : Legal base sbrk) (hbase : 0 < base)
    (hbase' : base + 8 ≤ 2 ^ 32) (n : Nat) : ((∃ x ∈ idle, units n ≤ x.size) ∧ ∃ c idle' s', Returns
        (fun fuel => mallocLoop sbrk (units n) fuel s.freep (ptr s.mem s.freep) s)
        (c.addr + 8, s') ∧ c.size = units n ∧ Sound base s' idle' (c :: live)) ∨
    ((∀ x ∈ idle, x.size < units n) ∧
      ((¬ Positive (Sound.request (units n)) ∧ ∃ N, ∀ fuel ≥ N,
          mallocLoop sbrk (units n) fuel s.freep (ptr s.mem s.freep) s = .error .nonPositive) ∨
        (Positive (Sound.request (units n)) ∧ sbrk s.got (Sound.request (units n)) = none ∧
          Returns (fun fuel => mallocLoop sbrk (units n) fuel s.freep (ptr s.mem s.freep) s)
            (0, s)) ∨
        (Positive (Sound.request (units n)) ∧ sbrk s.got (Sound.request (units n)) ≠ none ∧
          ∃ c idle' s', Returns
            (fun fuel => mallocLoop sbrk (units n) fuel s.freep (ptr s.mem s.freep) s)
            (c.addr + 8, s') ∧ c.size = units n ∧ Sound base s' idle' (c :: live)))) := by
  have hk := units_pos n
  by_cases hbig : ∃ x ∈ idle, units n ≤ x.size
  · left
    refine ⟨hbig, ?_⟩
    obtain ⟨c, idle', s', hrun, hc, -, hsound⟩ :=
      h.loop_found sbrk hk (Nat.lt_succ_self idle.length) hbig
    exact ⟨c, idle', s', ⟨_, fun fuel hfuel => mallocLoop_mono hfuel hrun⟩, hc, hsound⟩
  · right
    have hsmall : ∀ x ∈ idle, x.size < units n := fun x hx =>
      Nat.lt_of_not_le fun hle => hbig ⟨x, hx, hle⟩
    refine ⟨hsmall, ?_⟩
    have hloop : ∀ fuel > idle.length,
        mallocLoop sbrk (units n) fuel s.freep (ptr s.mem s.freep) s =
          Sound.more sbrk (units n) (fuel - idle.length - 1) s :=
      fun fuel hfuel => h.loop_more hk hfuel hsmall
    by_cases hpos : Positive (Sound.request (units n))
    · right
      cases hsbrk : sbrk s.got (Sound.request (units n)) with
      | none =>
        refine .inl ⟨hpos, rfl, idle.length + 1, fun fuel hfuel => ?_⟩
        show mallocLoop _ _ _ _ _ _ = _
        rw [hloop fuel (by omega), Sound.more_refused hpos hsbrk]
      | some hp =>
        obtain ⟨c, idle', s', hrun, hc, -, hsound⟩ := h.more_granted hlegal hbase (by omega) hk
          (units_le n) hpos hsbrk (Nat.lt_succ_self (idle.length + 1))
        have hfirst := hloop (idle.length + 2 + idle.length + 1) (by omega)
        rw [show idle.length + 2 + idle.length + 1 - idle.length - 1 = idle.length + 1 + 1 by omega,
          hrun] at hfirst
        exact .inr ⟨hpos, Option.some_ne_none hp, c, idle', s',
          ⟨_, fun fuel hfuel => mallocLoop_mono hfuel hfirst⟩, hc, hsound⟩
    · refine .inl ⟨hpos, idle.length + 1, fun fuel hfuel => ?_⟩
      rw [hloop fuel (by omega), Sound.more_nonPositive hpos]

theorem start_got (base : Nat) (s : St) : (start base s).got = s.got := by
  rw [start]
  split <;> rfl

end Calls

/-- A block that the program holds: the pointer it was given, and the bytes it asked for. -/
structure Alloc where
  ap : Nat
  n : Nat
  deriving DecidableEq, Repr

structure Sys where
  st : St
  live : List Alloc

/-- The block behind a pointer, as the memory has it. -/
def block (m : Store) (a : Alloc) : Block := ⟨a.ap - 8, size m (a.ap - 8)⟩

def Sys.blocks (s : Sys) : List Block := s.live.map (block s.st.mem)

inductive Event where
  | malloc (n : Nat)
  | free (a : Alloc)
  | store

/-- The program has changed bytes of its blocks, or of memory the allocator has nothing in. -/
def Own (base : Nat) (s : Sys) (m : Store) : Prop :=
  ∀ x, m x ≠ s.st.mem x → (∃ a ∈ s.live, a.ap ≤ x ∧ x < (block s.st.mem a).stop) ∨
    (¬ (base ≤ x ∧ x < base + 8) ∧ ∀ g ∈ s.st.got, ¬ g.Has x)

inductive Step (base : Nat) : Sys → Event → Sys → Prop where
  | malloc {s : Sys} {n r : Nat} {sbrk : Sbrk} {st : St} (hn : n < 2 ^ 32)
      (hlegal : Legal base sbrk)
      (hr : Returns (fun fuel => malloc base sbrk fuel n s.st) (r, st)) :
      Step base s (.malloc n) ⟨st, if r = 0 then s.live else ⟨r, n⟩ :: s.live⟩
  | free {s : Sys} {a : Alloc} {st : St} (ha : a ∈ s.live)
      (hr : Returns (fun fuel => free fuel s.st a.ap) st) :
      Step base s (.free a) ⟨st, s.live.erase a⟩
  | store {s : Sys} {m : Store} (hm : Own base s m) :
      Step base s .store ⟨{ s.st with mem := m }, s.live⟩

def Init (s : Sys) : Prop := s.st.freep = 0 ∧ s.st.got = [] ∧ s.live = []

/-- The block that an allocation stands for, with room for the bytes asked for unless their number
has wrapped. -/
def Grants (a : Alloc) (b : Block) : Prop :=
  a.ap = b.addr + 8 ∧ (a.n < 2 ^ 32 - 7 → a.n + 8 ≤ 8 * b.size)

def Inv (base : Nat) (s : Sys) : Prop :=
  ∃ bs, List.Forall₂ Grants s.live bs ∧ (Fresh s.st bs ∨ ∃ idle, Sound base s.st idle bs)

section Runs

variable {base : Nat} {s s' : Sys} {idle bs : List Block} {sbrk : Sbrk} {n : Nat}

theorem blocks_eq {m : Store} {as : List Alloc} (h : List.Forall₂ Grants as bs)
    (hsizes : ∀ b ∈ bs, size m b.addr = b.size) : as.map (block m) = bs := by
  induction h with
  | nil => rfl
  | @cons a b as bs hab _ ih =>
    have haddr : a.ap - 8 = b.addr := by rw [hab.1, Nat.add_sub_cancel]
    rw [map_cons, ih fun c hc => hsizes c (mem_cons_of_mem _ hc), block, haddr,
      hsizes b mem_cons_self]

theorem Sound.blocks (h : Sound base s.st idle bs) (hbs : List.Forall₂ Grants s.live bs) :
    s.blocks = bs :=
  blocks_eq hbs fun b hb => h.sizes b (mem_append_right idle hb)

theorem Inv.start (h : Inv base s) (hbase : 0 < base) (hbase' : base + 8 ≤ 2 ^ 32) :
    ∃ bs idle, List.Forall₂ Grants s.live bs ∧ Sound base (start base s.st) idle bs ∧
      (s.st.freep = 0 → idle = []) ∧ (s.st.freep ≠ 0 → Malloc.start base s.st = s.st) := by
  obtain ⟨bs, hbs, hfresh | ⟨idle, hsound⟩⟩ := h
  · exact ⟨bs, [], hbs, hfresh.start hbase', fun _ => rfl, fun hne => absurd hfresh.1 hne⟩
  · have hstart := hsound.start hbase
    refine ⟨bs, idle, hbs, by rw [hstart]; exact hsound, fun hzero => ?_, fun _ => hstart⟩
    exact absurd hzero (hsound.freep_ne hbase)

theorem Inv.malloc {r : Nat} {st : St} (h : Inv base s) (hbase : 0 < base)
    (hbase' : base + 8 ≤ 2 ^ 32) (hlegal : Legal base sbrk)
    (hr : Returns (fun fuel => malloc base sbrk fuel n s.st) (r, st)) :
    Inv base ⟨st, if r = 0 then s.live else ⟨r, n⟩ :: s.live⟩ := by
  obtain ⟨bs, idle, hbs, hsound, -, -⟩ := h.start hbase hbase'
  have hgrant : ∀ c idle' s', Returns (fun fuel => Malloc.malloc base sbrk fuel n s.st)
      (c.addr + 8, s') → c.size = units n → Sound base s' idle' (c :: bs) →
      Inv base ⟨st, if r = 0 then s.live else ⟨r, n⟩ :: s.live⟩ := by
    intro c idle' s' hret hc hs'
    obtain ⟨rfl, rfl⟩ := Prod.mk.inj (hr.unique hret)
    rw [if_neg (Nat.succ_ne_zero _)]
    exact ⟨c :: bs, .cons ⟨rfl, fun hn => by rw [hc]; exact room_units hn⟩ hbs, .inr ⟨idle', hs'⟩⟩
  rcases malloc_cases hsound hlegal hbase hbase' n with
    ⟨-, c, idle', s', hret, hc, hs'⟩ |
    ⟨-, ⟨-, N, hN⟩ | ⟨-, -, hret⟩ | ⟨-, -, c, idle', s', hret, hc, hs'⟩⟩
  · exact hgrant c idle' s' hret hc hs'
  · exact absurd hr (not_returns hN)
  · obtain ⟨rfl, rfl⟩ := Prod.mk.inj (hr.unique hret)
    rw [if_pos rfl]
    exact ⟨bs, hbs, .inr ⟨idle, hsound⟩⟩
  · exact hgrant c idle' s' hret hc hs'

theorem erase_grants {as : List Alloc} {a : Alloc} (h : List.Forall₂ Grants as bs) (ha : a ∈ as) :
    ∃ b bs', Grants a b ∧ bs.Perm (b :: bs') ∧ List.Forall₂ Grants (as.erase a) bs' := by
  induction h with
  | nil => exact absurd ha not_mem_nil
  | @cons a' b as bs hab hrest ih =>
    by_cases heq : a' = a
    · rw [heq, erase_cons_head]
      exact ⟨b, bs, heq ▸ hab, .refl _, hrest⟩
    · have hmem : a ∈ as := (mem_cons.mp ha).resolve_left fun h => heq h.symm
      obtain ⟨c, bs', hac, hperm, herase⟩ := ih hmem
      rw [erase_cons_tail (by simpa using heq)]
      exact ⟨c, b :: bs', hac, (hperm.cons b).trans (.swap c b bs'), .cons hab herase⟩

theorem Inv.free {a : Alloc} (h : Inv base s) (hbase' : base + 8 ≤ 2 ^ 32) (ha : a ∈ s.live) :
    ∃ st, Returns (fun fuel => free fuel s.st a.ap) st ∧ Inv base ⟨st, s.live.erase a⟩ := by
  obtain ⟨bs, hbs, hheap⟩ := h
  obtain ⟨b, bs', hab, hperm, herase⟩ := erase_grants hbs ha
  rcases hheap with ⟨-, -, rfl⟩ | ⟨idle, hsound⟩
  · exact absurd hperm.length_eq (by simp)
  · obtain ⟨st, idle', hrun, hst, -⟩ := (hsound.perm hperm).free_sound (by omega)
      (Nat.lt_succ_self idle.length)
    rw [← hab.1] at hrun
    exact ⟨st, ⟨_, fun fuel hfuel => free_mono hfuel hrun⟩, bs', herase, .inr ⟨idle', hst⟩⟩

theorem same_of_bytes {m m' : Store} {y : Nat} (h : ∀ x, y ≤ x → x < y + 8 → m' x = m x) :
    Same m m' y := by
  have hword : ∀ a, y ≤ a → a + 4 ≤ y + 8 → rd32 m' a = rd32 m a := by
    intro a h1 h2
    rw [rd32, rd32, value_congr fun k hk => h (a + k) (by omega) (by omega)]
  exact ⟨by rw [ptr, hword y (by omega) (by omega), ptr],
    by rw [size, hword (y + 4) (by omega) (by omega), size]⟩

theorem Sound.headers {st : St} {live : List Block} {m : Store} (h : Sound base st idle live)
    (hm : ∀ y ∈ base :: (idle ++ live).map Block.addr, Same st.mem m y) :
    Sound base { st with mem := m } idle live where
  chain := h.chain.congr fun y hy => (hm y (node_mem hy)).1
  freep := h.freep
  baseSize := (hm base mem_cons_self).2.trans h.baseSize
  sizes b hb := (hm _ (block_mem hb)).2.trans (h.sizes b hb)
  order := h.order
  tiles := h.tiles
  bounds := h.bounds

theorem Inv.store {m : Store} (h : Inv base s) (hm : Own base s m) :
    Inv base ⟨{ s.st with mem := m }, s.live⟩ := by
  obtain ⟨bs, hbs, hheap⟩ := h
  refine ⟨bs, hbs, hheap.imp (fun hfresh => hfresh) ?_⟩
  rintro ⟨idle, hsound⟩
  refine ⟨idle, hsound.headers fun y hy => same_of_bytes fun x hyx hxy => ?_⟩
  by_contra hne
  have hblocks : s.blocks = bs := hsound.blocks hbs
  rcases hm x hne with ⟨a, ha, hlo, hhi⟩ | ⟨hnotbase, hnotgot⟩
  · -- The byte lies behind the header of a block that is held.
    have hbmem : block s.st.mem a ∈ idle ++ bs := by
      rw [← hblocks]
      exact mem_append_right idle (mem_map_of_mem ha)
    have haddr : (block s.st.mem a).addr = a.ap - 8 := rfl
    obtain ⟨b, bs', hab, -, -⟩ := erase_grants hbs ha
    have hap := hab.1
    rcases mem_cons.mp hy with rfl | hy
    · have := (hsound.above hbmem).1
      omega
    · obtain ⟨c, hc, rfl⟩ := mem_map.mp hy
      by_cases heq : c = block s.st.mem a
      · rw [heq] at hxy
        omega
      · have hpieces : (idle ++ bs).Pairwise fun b c => b.piece.Apart c.piece :=
          pairwise_map.mp hsound.tiles.apart
        have hsymm : Std.Symm fun b c : Block => b.piece.Apart c.piece :=
          ⟨fun _ _ h => h.symm⟩
        have hapart := hpieces.forall hc hbmem heq
        have hpos := hsound.pos hc
        simp only [Piece.Apart, Piece.stop, Block.piece] at hapart
        simp only [Block.stop] at hhi
        omega
  · rcases mem_cons.mp hy with rfl | hy
    · exact hnotbase ⟨hyx, hxy⟩
    · obtain ⟨c, hc, rfl⟩ := mem_map.mp hy
      have hpos := hsound.pos hc
      have hin : c.piece.Has x := by
        simp only [Piece.Has, Piece.stop, Block.piece]
        omega
      obtain ⟨g, hg, hgx⟩ := (hsound.tiles.covers x).mpr ⟨c.piece, mem_map_of_mem hc, hin⟩
      exact hnotgot g hg hgx

theorem Inv.step {e : Event} (hbase : 0 < base) (hbase' : base + 8 ≤ 2 ^ 32) (h : Inv base s)
    (hs : Step base s e s') : Inv base s' := by
  cases hs with
  | malloc _ hlegal hr => exact h.malloc hbase hbase' hlegal hr
  | free ha hr =>
    obtain ⟨st, hst, hinv⟩ := h.free hbase' ha
    rw [hr.unique hst]
    exact hinv
  | store hm => exact h.store hm

theorem reach_inv (hbase : 0 < base) (hbase' : base + 8 ≤ 2 ^ 32) (h : Reach Init (Step base) s) :
    Inv base s := by
  refine h.invariant (P := Inv base) ?_ fun _ _ _ hinv hs => hinv.step hbase hbase' hs
  rintro s ⟨hfreep, hgot, hlive⟩
  refine ⟨[], ?_, .inl ⟨hfreep, hgot, rfl⟩⟩
  rw [hlive]
  exact .nil

theorem Inv.returns (h : Inv base s) (hbase : 0 < base) (hbase' : base + 8 ≤ 2 ^ 32)
    (hlegal : Legal base sbrk) (hpos : Positive (Sound.request (units n))) :
    ∃ r, Returns (fun fuel => Malloc.malloc base sbrk fuel n s.st) r := by
  obtain ⟨bs, idle, -, hsound, -, -⟩ := h.start hbase hbase'
  rcases malloc_cases hsound hlegal hbase hbase' n with
    ⟨-, c, -, s', hret, -⟩ | ⟨-, ⟨hneg, -⟩ | ⟨-, -, hret⟩ | ⟨-, -, c, -, s', hret, -⟩⟩
  · exact ⟨_, hret⟩
  · exact absurd hpos hneg
  · exact ⟨_, hret⟩
  · exact ⟨_, hret⟩

/-- The steps with requests of less than `2 ^ 30` bytes. -/
def SmallStep (base : Nat) (s : Sys) (e : Event) (s' : Sys) : Prop :=
  Step base s e s' ∧ ∀ n, e = .malloc n → n < 2 ^ 30

theorem small_requests (h : Reach Init (SmallStep base) s) : ∀ a ∈ s.live, a.n < 2 ^ 30 := by
  refine h.invariant (P := fun s => ∀ a ∈ s.live, a.n < 2 ^ 30) ?_ ?_
  · intro s hinit a ha
    rw [hinit.2.2] at ha
    exact absurd ha not_mem_nil
  · rintro s e s' hall ⟨hs, hsmall⟩
    cases hs with
    | @malloc n r _ _ _ _ _ =>
      intro a ha
      split at ha
      · exact hall a ha
      · rcases mem_cons.mp ha with rfl | ha
        · exact hsmall n rfl
        · exact hall a ha
    | free _ _ => exact fun a ha => hall a (mem_of_mem_erase ha)
    | store _ => exact hall

/-- In every run of `malloc` with less than `2 ^ 30` bytes, `free` and stores of the program the
heap is sound, each block has room for what was asked for, and every next call ends. -/
theorem heap_sound (hbase : 0 < base) (hbase' : base + 8 ≤ 2 ^ 32)
    (h : Reach Init (SmallStep base) s) :
    (Fresh s.st s.blocks ∨ ∃ idle, Sound base s.st idle s.blocks) ∧
    (∀ a ∈ s.live, a.n + 8 ≤ 8 * size s.st.mem (a.ap - 8)) ∧
    (∀ n < 2 ^ 30, ∀ sbrk, Legal base sbrk →
      ∃ r, Returns (fun fuel => malloc base sbrk fuel n s.st) r) ∧
    ∀ a ∈ s.live, ∃ st, Returns (fun fuel => free fuel s.st a.ap) st := by
  have hinv := reach_inv hbase hbase' (h.mono fun _ _ _ hs => hs.1)
  have hsmall := small_requests h
  refine ⟨?_, fun a ha => ?_, fun n hn sbrk hlegal => ?_, fun a ha => ?_⟩
  · obtain ⟨bs, hbs, hfresh | ⟨idle, hsound⟩⟩ := hinv
    · left
      obtain ⟨h1, h2, rfl⟩ := hfresh
      refine ⟨h1, h2, ?_⟩
      rw [Sys.blocks, forall₂_nil_right_iff.mp hbs]
      rfl
    · right
      rw [hsound.blocks hbs]
      exact ⟨idle, hsound⟩
  · obtain ⟨bs, hbs, hheap⟩ := hinv
    obtain ⟨b, bs', hab, hperm, -⟩ := erase_grants hbs ha
    rcases hheap with ⟨-, -, rfl⟩ | ⟨idle, hsound⟩
    · exact absurd hperm.length_eq (by simp)
    · have hb : b ∈ idle ++ bs :=
        mem_append_right idle (hperm.mem_iff.mpr mem_cons_self)
      have hlt := hsmall a ha
      rw [show a.ap - 8 = b.addr by rw [hab.1, Nat.add_sub_cancel], hsound.sizes b hb]
      exact hab.2 (by omega)
  · exact hinv.returns hbase hbase' hlegal ((positive_iff (by omega)).mpr (by omega))
  · obtain ⟨st, hst, -⟩ := hinv.free hbase' ha
    exact ⟨st, hst⟩

end Runs

/-- An `sbrk` that gives the area from 8192 on, and nothing more. -/
def once : Sbrk := fun got inc => if got = [] ∧ inc < 2 ^ 31 then some 8192 else none

theorem once_legal : Legal 4096 once := by
  intro got inc hp _ h
  rw [once] at h
  split at h
  · rename_i hcond
    obtain rfl := Option.some.inj h
    rw [hcond.1]
    exact ⟨by decide, fun _ hg => absurd hg not_mem_nil, by omega⟩
  · cases h

/-- The first state of a program. -/
def boot : Sys := ⟨⟨fun _ => 0, 0, []⟩, []⟩

/-- `malloc(100)` in a fresh program. -/
theorem heap_sound_first : ∃ s, Reach Init (SmallStep 4096) s ∧ s.live = [⟨40856, 100⟩] ∧
    ∃ idle, Sound 4096 s.st idle s.blocks := by
  have hrun : ((malloc 4096 once 5 100 boot.st).toOption.any fun r =>
      r.1 = 40856 ∧ r.2.freep ≠ 0) = true := by
    decide +kernel
  cases hm : malloc 4096 once 5 100 boot.st with
  | error e => rw [hm] at hrun; cases hrun
  | ok r =>
    rw [hm] at hrun
    obtain ⟨rp, st⟩ := r
    obtain ⟨rfl, hfreep⟩ : rp = 40856 ∧ st.freep ≠ 0 := of_decide_eq_true hrun
    have hstep : Step 4096 boot (.malloc 100) ⟨st, [⟨40856, 100⟩]⟩ :=
      .malloc (by decide) once_legal ⟨5, fun fuel hfuel => mallocLoop_mono hfuel hm⟩
    have hreach : Reach Init (SmallStep 4096) ⟨st, [⟨40856, 100⟩]⟩ := by
      refine .step (.start ⟨rfl, rfl, rfl⟩) ⟨hstep, fun n hn => ?_⟩
      obtain rfl := Event.malloc.inj hn
      decide
    refine ⟨_, hreach, rfl, ?_⟩
    rcases (heap_sound (by decide) (by decide) hreach).1 with hfresh | hsound
    · exact absurd hfresh.1 hfreep
    · exact hsound

/-! ## All requests -/

/-- A node of the free list has `k` units or more. -/
def Offers (s : St) (k : Nat) : Prop :=
  s.freep ≠ 0 ∧ ∃ i, k ≤ size s.mem ((ptr s.mem)^[i] s.freep)

/-- `malloc` returns, having asked `sbrk` for positive increments only: 0, or a block of memory from
`sbrk` with `n` bytes behind its header. -/
def Right (base : Nat) (sbrk : Sbrk) (n : Nat) (s : St) : Prop :=
  ∃ r s', Returns (fun fuel => malloc base sbrk fuel n s) (r, s') ∧ (r = 0 ∨
    (n + 8 ≤ 8 * size s'.mem (r - 8) ∧
      ∀ x, r - 8 ≤ x → x < r - 8 + 8 * size s'.mem (r - 8) → ∃ g ∈ s'.got, g.Has x))

/-- When `malloc` does as it should: the number of bytes does not wrap and what `morecore` asks for
is an `int`, or a free block is large enough; or the number wraps, and there is no memory at all. -/
def Served (sbrk : Sbrk) (n : Nat) (s : St) : Prop :=
  if n < 2 ^ 32 - 7 then n < 2 ^ 31 - 15 ∨ Offers s (units n)
  else ¬ Offers s 1 ∧ sbrk s.got 32768 = none

section Requests

variable {base n k : Nat} {s : St} {idle live : List Block} {sbrk : Sbrk}

theorem Sound.offers_iff (h : Sound base s idle live) (hbase : 0 < base) (hk : 0 < k) :
    Offers s k ↔ ∃ x ∈ idle, k ≤ x.size := by
  obtain ⟨rest, hseg, hperm⟩ := h.chain.rotate h.freep
  constructor
  · rintro ⟨-, i, hi⟩
    have hnode := hperm.mem_iff.mp (hseg.mem_iff.mpr ⟨i, rfl⟩)
    obtain ⟨x, hx, -, hle⟩ := h.node_block hnode hk hi
    exact ⟨x, hx, hle⟩
  · rintro ⟨x, hx, hle⟩
    have hnode := hperm.mem_iff.mpr (mem_cons_of_mem base (mem_map_of_mem hx))
    obtain ⟨i, hi⟩ := hseg.mem_iff.mp hnode
    refine ⟨h.freep_ne hbase, i, ?_⟩
    rw [hi, h.sizes x (mem_append_left live hx)]
    exact hle

theorem Sound.granted {c : Block} (h : Sound base s idle (c :: live)) (hc : c.size = units n)
    (hn : n < 2 ^ 32) : (n + 8 ≤ 8 * size s.mem (c.addr + 8 - 8) ∧
      ∀ x, c.addr + 8 - 8 ≤ x → x < c.addr + 8 - 8 + 8 * size s.mem (c.addr + 8 - 8) →
        ∃ g ∈ s.got, g.Has x) ↔ n < 2 ^ 32 - 7 := by
  have hmem : c ∈ idle ++ c :: live := mem_append_right idle mem_cons_self
  rw [Nat.add_sub_cancel, h.sizes c hmem]
  constructor
  · rintro ⟨hroom, -⟩
    by_contra hbig
    rw [hc, units_wrapped (by omega) hn] at hroom
    omega
  · intro hlt
    refine ⟨by rw [hc]; exact room_units hlt, fun x h1 h2 => ?_⟩
    exact (h.tiles.covers x).mpr ⟨c.piece, mem_map_of_mem hmem, h1, h2⟩

/-- In every state that `malloc` and `free` reach, a call of `malloc` does as it should exactly if
its request is served. -/
theorem malloc_right_iff {s : Sys} (hbase : 0 < base) (hbase' : base + 8 ≤ 2 ^ 32)
    (h : Reach Init (Step base) s) (hlegal : Legal base sbrk) (hn : n < 2 ^ 32) :
    Right base sbrk n s.st ↔ Served sbrk n s.st := by
  obtain ⟨bs, idle, -, hsound, hfresh, hstart⟩ := (reach_inv hbase hbase' h).start hbase hbase'
  have hoffers : ∀ k, 0 < k → (Offers s.st k ↔ ∃ x ∈ idle, k ≤ x.size) := by
    intro k hk
    by_cases hzero : s.st.freep = 0
    · rw [hfresh hzero]
      refine iff_of_false (fun ho => ho.1 hzero) ?_
      rintro ⟨x, hx, -⟩
      exact absurd hx not_mem_nil
    · rw [hstart hzero] at hsound
      exact hsound.offers_iff hbase hk
  have hgot := start_got base s.st
  -- A call that returns a block is right unless the number of bytes has wrapped.
  have hblock : ∀ c idle' s', Returns (fun fuel => malloc base sbrk fuel n s.st)
      (c.addr + 8, s') → c.size = units n → Sound base s' idle' (c :: bs) →
      (Right base sbrk n s.st ↔ n < 2 ^ 32 - 7) := by
    intro c idle' s' hret hc hs'
    rw [← hs'.granted hc hn]
    constructor
    · rintro ⟨r, s'', hret', hr⟩
      obtain ⟨rfl, rfl⟩ := Prod.mk.inj (hret'.unique hret)
      exact hr.resolve_left (Nat.succ_ne_zero _)
    · intro hgrant
      exact ⟨c.addr + 8, s', hret, .inr hgrant⟩
  rw [Served, hoffers _ (units_pos n), hoffers 1 Nat.one_pos]
  have hreq : Sound.request 1 = 32768 := rfl
  rcases malloc_cases hsound hlegal hbase hbase' n with
    ⟨hbig, c, idle', s', hret, hc, hs'⟩ | ⟨hsmall, hrest⟩
  · rw [hblock c idle' s' hret hc hs']
    by_cases hwrap : n < 2 ^ 32 - 7
    · rw [if_pos hwrap]
      exact iff_of_true hwrap (.inr hbig)
    · rw [if_neg hwrap, units_wrapped (by omega) hn] at *
      exact iff_of_false hwrap fun hno => hno.1 hbig
  · have hnone : ¬ ∃ x ∈ idle, units n ≤ x.size := fun ⟨x, hx, hle⟩ =>
      absurd (hsmall x hx) (by omega)
    rcases hrest with
      ⟨hneg, N, hN⟩ | ⟨hpos, hsbrk, hret⟩ | ⟨hpos, hsbrk, c, idle', s', hret, hc, hs'⟩
    · -- The increment is not positive.
      have hwrap : n < 2 ^ 32 - 7 := by
        by_contra hge
        rw [units_wrapped (by omega) hn, hreq] at hneg
        exact hneg (by decide)
      rw [if_pos hwrap]
      refine iff_of_false ?_ ?_
      · rintro ⟨r, s', hret, -⟩
        exact not_returns hN hret
      · rintro (hlt | hbig)
        · exact hneg ((positive_iff hwrap).mpr hlt)
        · exact hnone hbig
    · -- `sbrk` refuses, and `malloc` returns 0.
      have hright : Right base sbrk n s.st := ⟨0, _, hret, .inl rfl⟩
      refine iff_of_true hright ?_
      split
      · rename_i hwrap
        exact .inl ((positive_iff hwrap).mp hpos)
      · rename_i hwrap
        rw [units_wrapped (by omega) hn] at hnone hsbrk
        rw [hgot, hreq] at hsbrk
        exact ⟨hnone, hsbrk⟩
    · rw [hblock c idle' s' hret hc hs']
      by_cases hwrap : n < 2 ^ 32 - 7
      · rw [if_pos hwrap]
        exact iff_of_true hwrap (.inl ((positive_iff hwrap).mp hpos))
      · rw [if_neg hwrap]
        rw [units_wrapped (by omega) hn, hgot, hreq] at hsbrk
        exact iff_of_false hwrap fun hno => hsbrk hno.2

end Requests

/-- `malloc(100)` in a fresh program. -/
theorem malloc_right_iff_first : Right 4096 once 100 boot.st ∧ Served once 100 boot.st := by
  have hserved : Served once 100 boot.st := by
    rw [Served, if_pos (by decide)]
    exact .inl (by decide)
  exact ⟨(malloc_right_iff (by decide) (by decide) (.start ⟨rfl, rfl, rfl⟩) once_legal
    (by decide)).mpr hserved, hserved⟩

/-- In a fresh program `malloc(0xffffffff)` returns a block of one unit, with no byte behind its
header, and `malloc(0x7ffffff8)` asks `sbrk` for a negative increment. -/
theorem malloc_wraps :
    Reach Init (Step 4096) boot ∧ Legal 4096 once ∧ ¬ Right 4096 once (2 ^ 32 - 1) boot.st ∧
    malloc 4096 once 5 (2 ^ 31 - 8) boot.st = .error .nonPositive := by
  refine ⟨.start ⟨rfl, rfl, rfl⟩, once_legal, ?_, rfl⟩
  rintro ⟨r, s', hret, hright⟩
  have hrun : ((malloc 4096 once 5 (2 ^ 32 - 1) boot.st).toOption.any fun r =>
      r.1 = 40960 ∧ size r.2.mem 40952 = 1) = true := by
    decide +kernel
  cases hm : malloc 4096 once 5 (2 ^ 32 - 1) boot.st with
  | error e => rw [hm] at hrun; cases hrun
  | ok v =>
    rw [hm] at hrun
    obtain ⟨hr, hsize⟩ : v.1 = 40960 ∧ size v.2.mem 40952 = 1 := of_decide_eq_true hrun
    have hv := hret.unique ⟨5, fun fuel hfuel => mallocLoop_mono hfuel hm⟩
    obtain ⟨rfl, rfl⟩ : r = v.1 ∧ s' = v.2 := Prod.mk.inj hv
    rcases hright with hzero | ⟨hroom, -⟩
    · omega
    · rw [hr, hsize] at hroom
      omega

end Malloc
end Xv6.User

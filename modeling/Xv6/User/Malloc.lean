import Xv6.Lib.Bytes
import Xv6.Lib.Circular
import Xv6.Lib.Tiling

/-!
# Xv6.User.Malloc

The allocator of the user library, `umalloc.c`.

A block is a header of eight bytes, a pointer and a size in units of eight bytes, with the bytes of
the block behind it. The free blocks are linked in a circle that begins at the static `base`, in the
order of their addresses; `freep` points anywhere into it. `Sound` says what the memory looks like,
with the free and the allocated blocks as lists, and `free` keeps it: the search finds the only gap
the block belongs to, and the block is joined with the neighbours it touches.

Addresses and sizes are numbers; what is stored in memory is taken modulo `2 ^ 32`.
-/

namespace Xv6.User
namespace Malloc

open Bytes Circular List

/-- `p->s.ptr`. -/
def ptr (m : Store) (p : Nat) : Nat := (rd32 m p).toNat

/-- `p->s.size`. -/
def size (m : Store) (p : Nat) : Nat := (rd32 m (p + 4)).toNat

def setPtr (m : Store) (p v : Nat) : Store := wr32 m p (.ofNat v)

def setSize (m : Store) (p v : Nat) : Store := wr32 m (p + 4) (.ofNat v)

/-- `p + k` for a `Header *`. -/
def plus (p k : Nat) : Nat := (p + 8 * k) % 2 ^ 32

/-- The user's memory, `freep`, and the areas that `sbrk` has returned so far. -/
structure St where
  mem : Store
  freep : Nat
  got : List Piece

/-- Why a call does not return: a loop goes on beyond the given number of turns, or `sbrk` is asked
for an increment that is not positive. -/
inductive Stop where
  | fuel
  | nonPositive
  deriving DecidableEq, Repr

/-- The test that ends the search of `free`, the one of the loop or the one in its body. -/
def inGap (m : Store) (bp p : Nat) : Bool :=
  (p < bp ∧ bp < ptr m p) ∨ (ptr m p ≤ p ∧ (p < bp ∨ bp < ptr m p))

/-- `free` behind the search: the block in front of the next one. -/
def joinUp (m : Store) (p bp : Nat) : Store :=
  if plus bp (size m bp) = ptr m p then
    let m := setSize m bp (size m bp + size m (ptr m p))
    setPtr m bp (ptr m (ptr m p))
  else setPtr m bp (ptr m p)

/-- `free` to its end: the block behind the one before it. -/
def joinDown (m : Store) (p bp : Nat) : Store :=
  if plus p (size m p) = bp then
    let m := setSize m p (size m p + size m bp)
    setPtr m p (ptr m bp)
  else setPtr m p bp

def free (fuel : Nat) (s : St) (ap : Nat) : Except Stop St :=
  let bp := ap - 8
  match search (ptr s.mem) (inGap s.mem bp) fuel s.freep with
  | none => .error .fuel
  | some p => .ok { s with mem := joinDown (joinUp s.mem p bp) p bp, freep := p }

/-- An answer of `sbrk`, given what it has returned before: `none` for -1. -/
abbrev Sbrk := List Piece → Nat → Option Nat

/-- The argument of `sbrk`, which is an `int`, is positive. -/
def Positive (inc : Nat) : Prop := 0 < inc ∧ inc < 2 ^ 31

instance (inc : Nat) : Decidable (Positive inc) := inferInstanceAs (Decidable (_ ∧ _))

/-- `nu` as `morecore` raises it. -/
def atLeast (nu : Nat) : Nat := if nu < 4096 then 4096 else nu

def morecore (sbrk : Sbrk) (fuel nu : Nat) (s : St) : Except Stop (Nat × St) := do
  let nu := atLeast nu
  let inc := nu * 8 % 2 ^ 32
  if ¬ Positive inc then .error .nonPositive
  else
    match sbrk s.got inc with
    | none => return (0, s)
    | some hp =>
      let s ← free fuel { s with mem := setSize s.mem hp nu, got := ⟨hp, inc⟩ :: s.got } (hp + 8)
      return (s.freep, s)

/-- What `malloc` does with a block that is large enough. -/
def take (nunits prevp p : Nat) (s : St) : Nat × St :=
  if size s.mem p = nunits then
    ((p + 8) % 2 ^ 32, { s with mem := setPtr s.mem prevp (ptr s.mem p), freep := prevp })
  else
    let m := setSize s.mem p (size s.mem p - nunits)
    let p := plus p (size m p)
    ((p + 8) % 2 ^ 32, { s with mem := setSize m p nunits, freep := prevp })

def mallocLoop (sbrk : Sbrk) (nunits : Nat) : Nat → Nat → Nat → St → Except Stop (Nat × St)
  | 0, _, _, _ => .error .fuel
  | fuel + 1, prevp, p, s =>
    if nunits ≤ size s.mem p then .ok (take nunits prevp p s)
    else if p = s.freep then do
      let r ← morecore sbrk fuel nunits s
      if r.1 = 0 then return (0, r.2)
      else mallocLoop sbrk nunits fuel r.1 (ptr r.2.mem r.1) r.2
    else mallocLoop sbrk nunits fuel p (ptr s.mem p) s

/-- `(nbytes + sizeof(Header) - 1)/sizeof(Header) + 1`. -/
def units (nbytes : Nat) : Nat := (nbytes + 7) % 2 ^ 32 / 8 + 1

/-- The list of `base` alone, where there is none yet. -/
def start (base : Nat) (s : St) : St :=
  if s.freep = 0 then
    { s with mem := setSize (setPtr s.mem base base) base 0, freep := base }
  else s

def malloc (base : Nat) (sbrk : Sbrk) (fuel nbytes : Nat) (s : St) : Except Stop (Nat × St) :=
  let s := start base s
  mallocLoop sbrk (units nbytes) fuel s.freep (ptr s.mem s.freep) s

section Headers

variable {m : Store} {p q v : Nat}

/-- The two headers do not overlap. -/
def Clear (p q : Nat) : Prop := p + 8 ≤ q ∨ q + 8 ≤ p

theorem Clear.symm (h : Clear p q) : Clear q p := Or.symm h

instance : Std.Symm Clear := ⟨fun _ _ h => h.symm⟩

theorem rd32_wr32_other {a b : Nat} {w : UInt32} (h : a + 4 ≤ b ∨ b + 4 ≤ a) :
    rd32 (wr32 m a w) b = rd32 m b := by
  rw [rd32, rd32, wr32, value_patch_other (by omega)]

theorem ptr_lt (m : Store) (p : Nat) : ptr m p < 2 ^ 32 := (rd32 m p).toNat_lt

theorem toNat_ofNat_of_lt (h : v < 2 ^ 32) : (UInt32.ofNat v).toNat = v := by
  rw [UInt32.toNat_ofNat', Nat.mod_eq_of_lt h]

theorem ptr_setPtr (h : v < 2 ^ 32) : ptr (setPtr m p v) p = v := by
  rw [ptr, setPtr, rd32_wr32_same, toNat_ofNat_of_lt h]

theorem size_setSize (h : v < 2 ^ 32) : size (setSize m p v) p = v := by
  rw [size, setSize, rd32_wr32_same, toNat_ofNat_of_lt h]

theorem ptr_setPtr_other (h : Clear p q) : ptr (setPtr m p v) q = ptr m q := by
  rw [ptr, setPtr, rd32_wr32_other (by rw [Clear] at h; omega), ptr]

theorem size_setSize_other (h : Clear p q) : size (setSize m p v) q = size m q := by
  rw [size, setSize, rd32_wr32_other (by rw [Clear] at h; omega), size]

theorem ptr_setSize (h : p = q ∨ Clear p q) : ptr (setSize m p v) q = ptr m q := by
  rw [ptr, setSize, rd32_wr32_other (by rw [Clear] at h; omega), ptr]

theorem size_setPtr (h : p = q ∨ Clear p q) : size (setPtr m p v) q = size m q := by
  rw [size, setPtr, rd32_wr32_other (by rw [Clear] at h; omega), size]

/-- The header at `q` is as it was. -/
def Same (m m' : Store) (q : Nat) : Prop := ptr m' q = ptr m q ∧ size m' q = size m q

theorem joinUp_same {bp : Nat} (h : Clear bp q) : Same m (joinUp m p bp) q := by
  rw [joinUp]
  split
  · exact ⟨by rw [ptr_setPtr_other h, ptr_setSize (.inr h)],
      by rw [size_setPtr (.inr h), size_setSize_other h]⟩
  · exact ⟨ptr_setPtr_other h, size_setPtr (.inr h)⟩

theorem joinDown_same (bp : Nat) (h : Clear p q) : Same m (joinDown m p bp) q := by
  rw [joinDown]
  split
  · exact ⟨by rw [ptr_setPtr_other h, ptr_setSize (.inr h)],
      by rw [size_setPtr (.inr h), size_setSize_other h]⟩
  · exact ⟨ptr_setPtr_other h, size_setPtr (.inr h)⟩

theorem joinUp_merge {bp : Nat} (hq : Clear bp (ptr m p)) (hp : Clear bp p)
    (hup : plus bp (size m bp) = ptr m p) (hfit : size m bp + size m (ptr m p) < 2 ^ 32) :
    ptr (joinUp m p bp) bp = ptr m (ptr m p) ∧
      size (joinUp m p bp) bp = size m bp + size m (ptr m p) := by
  rw [joinUp, if_pos hup]
  constructor
  · rw [ptr_setPtr (ptr_lt _ _), ptr_setSize (.inr hp), ptr_setSize (.inr hq)]
  · rw [size_setPtr (.inl rfl), size_setSize hfit]

theorem joinUp_link {bp : Nat} (hup : plus bp (size m bp) ≠ ptr m p) :
    ptr (joinUp m p bp) bp = ptr m p ∧ size (joinUp m p bp) bp = size m bp := by
  rw [joinUp, if_neg hup]
  exact ⟨ptr_setPtr (ptr_lt _ _), size_setPtr (.inl rfl)⟩

theorem joinDown_merge {bp : Nat} (hp : Clear p bp) (hdown : plus p (size m p) = bp)
    (hfit : size m p + size m bp < 2 ^ 32) :
    ptr (joinDown m p bp) p = ptr m bp ∧ size (joinDown m p bp) p = size m p + size m bp := by
  rw [joinDown, if_pos hdown]
  constructor
  · rw [ptr_setPtr (ptr_lt _ _), ptr_setSize (.inr hp)]
  · rw [size_setPtr (.inl rfl), size_setSize hfit]

theorem joinDown_link {bp : Nat} (hbp : bp < 2 ^ 32) (hdown : plus p (size m p) ≠ bp) :
    ptr (joinDown m p bp) p = bp ∧ size (joinDown m p bp) p = size m p := by
  rw [joinDown, if_neg hdown]
  exact ⟨ptr_setPtr hbp, size_setPtr (.inl rfl)⟩

end Headers

/-- A block: where its header is, and its size in units, the header included. -/
structure Block where
  addr : Nat
  size : Nat
  deriving DecidableEq, Repr

namespace Block

def stop (b : Block) : Nat := b.addr + 8 * b.size

def piece (b : Block) : Piece := ⟨b.addr, 8 * b.size⟩

def merge (b c : Block) : Block := ⟨b.addr, b.size + c.size⟩

theorem merge_stop {b c : Block} (h : b.stop = c.addr) : (b.merge c).stop = c.stop := by
  simp only [stop, merge] at h ⊢
  omega

end Block

/-- The memory of the allocator with the free blocks `idle` and the allocated blocks `live`. The
free list is the circle of `base` and the free blocks. -/
structure Sound (base : Nat) (s : St) (idle live : List Block) : Prop where
  chain : Seg (ptr s.mem) base (idle.map Block.addr) base
  freep : s.freep ∈ base :: idle.map Block.addr
  baseSize : size s.mem base = 0
  sizes : ∀ b ∈ idle ++ live, size s.mem b.addr = b.size
  order : idle.Pairwise fun b c => b.stop < c.addr
  tiles : Tiles s.got ((idle ++ live).map Block.piece)
  bounds : ∀ g ∈ s.got, base + 8 ≤ g.start ∧ g.stop < 2 ^ 32

namespace Sound

variable {base x y : Nat} {s : St} {idle live : List Block} {b c : Block}

theorem pos (h : Sound base s idle live) (hb : b ∈ idle ++ live) : 0 < b.size := by
  have := h.tiles.pos b.piece (mem_map_of_mem hb)
  simp only [Block.piece] at this
  omega

theorem above (h : Sound base s idle live) (hb : b ∈ idle ++ live) :
    base + 8 ≤ b.addr ∧ b.stop < 2 ^ 32 :=
  h.tiles.bounds h.bounds (mem_map_of_mem hb)

theorem addr_lt_stop (h : Sound base s idle live) (hb : b ∈ idle ++ live) : b.addr < b.stop := by
  have := h.pos hb
  rw [Block.stop]
  omega

theorem perm {live' : List Block} (h : Sound base s idle live) (hp : live.Perm live') :
    Sound base s idle live' where
  chain := h.chain
  freep := h.freep
  baseSize := h.baseSize
  sizes b hb := h.sizes b ((hp.append_left idle).mem_iff.mpr hb)
  order := h.order
  tiles := h.tiles.perm ((hp.append_left idle).map _)
  bounds := h.bounds

theorem heads (h : Sound base s idle live) :
    (base :: (idle ++ live).map Block.addr).Pairwise Clear := by
  refine pairwise_cons.mpr ⟨fun x hx => ?_, ?_⟩
  · obtain ⟨b, hb, rfl⟩ := mem_map.mp hx
    exact .inl (h.above hb).1
  · have hblocks : (idle ++ live).Pairwise fun b c => b.piece.Apart c.piece :=
      pairwise_map.mp h.tiles.apart
    refine pairwise_map.mpr (hblocks.imp_of_mem fun {b c} hb hc hbc => ?_)
    have h1 := h.pos hb
    have h2 := h.pos hc
    simp only [Piece.Apart, Piece.stop, Block.piece] at hbc
    rw [Clear]
    omega

theorem same_or_clear (h : Sound base s idle live) (hx : x ∈ base :: (idle ++ live).map Block.addr)
    (hy : y ∈ base :: (idle ++ live).map Block.addr) : x = y ∨ Clear x y := by
  by_cases heq : x = y
  · exact .inl heq
  · exact .inr (h.heads.forall hx hy heq)

theorem node_mem (hx : x ∈ base :: idle.map Block.addr) :
    x ∈ base :: (idle ++ live).map Block.addr := by
  rw [map_append, ← cons_append]
  exact mem_append_left _ hx

theorem block_mem (hb : b ∈ idle ++ live) : b.addr ∈ base :: (idle ++ live).map Block.addr :=
  mem_cons_of_mem _ (mem_map_of_mem hb)

theorem nodes_lt (h : Sound base s idle live) : (base :: idle.map Block.addr).Pairwise (· < ·) := by
  refine pairwise_cons.mpr ⟨fun x hx => ?_, pairwise_map.mpr ?_⟩
  · obtain ⟨b, hb, rfl⟩ := mem_map.mp hx
    have := (h.above (mem_append_left live hb)).1
    omega
  · refine h.order.imp_of_mem fun {b c} hb _ hbc => ?_
    have := h.addr_lt_stop (mem_append_left live hb)
    omega

theorem mem_loose (hc : c ∈ idle ++ live) : c ∈ idle ++ b :: live :=
  perm_middle.mem_iff.mpr (mem_cons_of_mem b hc)

/-! ## Where a block belongs -/

variable {L R : List Block}

theorem clear_head (h : Sound base s idle (b :: live))
    (hx : x ∈ base :: (idle ++ live).map Block.addr) : Clear b.addr x := by
  have hperm : (base :: (idle ++ b :: live).map Block.addr).Perm
      (b.addr :: base :: (idle ++ live).map Block.addr) := by
    refine .trans (.cons base ?_) (.swap b.addr base _)
    exact (perm_middle).map Block.addr
  have hpair := (hperm.pairwise_iff fun h => Clear.symm h).mp h.heads
  exact rel_of_pairwise_cons hpair hx

theorem apart_live (h : Sound base s idle (b :: live)) (hc : c ∈ idle ++ live) :
    b.stop ≤ c.addr ∨ c.stop ≤ b.addr := by
  have ht := h.tiles.perm ((perm_middle (a := b)).map Block.piece)
  rw [map_cons] at ht
  exact ht.head_apart (mem_map_of_mem hc)

theorem exists_gap (h : Sound base s idle (b :: live)) :
    ∃ L R, idle = L ++ R ∧ (∀ l ∈ L, l.stop ≤ b.addr) ∧ ∀ r ∈ R, b.stop ≤ r.addr := by
  have hsides : ∀ c ∈ idle, b.stop ≤ c.addr ∨ c.stop ≤ b.addr := fun c hc =>
    h.apart_live (mem_append_left live hc)
  have hpos : ∀ c ∈ idle, c.addr < c.stop := fun c hc =>
    h.addr_lt_stop (mem_append_left _ hc)
  have horder := h.order
  clear h
  induction idle with
  | nil =>
    exact ⟨[], [], rfl, fun _ h => absurd h not_mem_nil, fun _ h => absurd h not_mem_nil⟩
  | cons c idle ih =>
    obtain ⟨hc, hrest⟩ := pairwise_cons.mp horder
    rcases hsides c mem_cons_self with hup | hdown
    · refine ⟨[], c :: idle, rfl, fun _ h => absurd h not_mem_nil, fun r hr => ?_⟩
      rcases mem_cons.mp hr with rfl | hr
      · exact hup
      · have h1 := hc r hr
        have h2 := hpos c mem_cons_self
        omega
    · obtain ⟨L, R, rfl, hL, hR⟩ := ih (fun d hd => hsides d (mem_cons_of_mem _ hd))
        (fun d hd => hpos d (mem_cons_of_mem _ hd)) hrest
      refine ⟨c :: L, R, rfl, fun l hl => ?_, hR⟩
      rcases mem_cons.mp hl with rfl | hl
      · exact hdown
      · exact hL l hl

def before (base : Nat) (L : List Block) : Nat := (L.map Block.addr).getLastD base

theorem before_mem (base : Nat) (L : List Block) : before base L ∈ base :: L.map Block.addr :=
  getLastD_mem_cons

def behind (base : Nat) (R : List Block) : Nat := (R.map Block.addr).headD base

theorem ptr_before (h : Sound base s (L ++ R) live) :
    ptr s.mem (before base L) = behind base R := by
  have hchain := h.chain
  rw [map_append, seg_append] at hchain
  exact hchain.1.last

theorem inGap_iff (h : Sound base s (L ++ R) (b :: live)) (hL : ∀ l ∈ L, l.stop ≤ b.addr)
    (hR : ∀ r ∈ R, b.stop ≤ r.addr) (hx : x ∈ base :: (L ++ R).map Block.addr) :
    inGap s.mem b.addr x = true ↔ x = before base L := by
  have hb := h.above (b := b) (by simp)
  have hbpos := h.addr_lt_stop (b := b) (by simp)
  have hlow : ∀ y ∈ base :: L.map Block.addr, y < b.addr := by
    intro y hy
    rcases mem_cons.mp hy with rfl | hy
    · omega
    · obtain ⟨l, hl, rfl⟩ := mem_map.mp hy
      have h1 := hL l hl
      have h2 := h.addr_lt_stop (b := l) (by simp [hl])
      omega
  have hhigh : ∀ y ∈ R.map Block.addr, b.addr < y := by
    intro y hy
    obtain ⟨r, hr, rfl⟩ := mem_map.mp hy
    have h1 := hR r hr
    omega
  have hchain := h.chain
  have hlt := h.nodes_lt
  rw [map_append] at hchain hlt hx
  obtain ⟨hfront, hback⟩ := seg_append.mp hchain
  rw [← cons_append] at hlt hx
  obtain ⟨hltL, hltR, -⟩ := pairwise_append.mp hlt
  simp only [inGap, decide_eq_true_eq]
  rcases mem_append.mp hx with hxL | hxR
  · have hxb := hlow x hxL
    rcases hfront.lt_next hltL hxL with ⟨hlast, hout⟩ | ⟨hmem, hup⟩
    · refine iff_of_true ?_ hlast
      rw [hout]
      cases R with
      | nil =>
        -- The gap behind the last block.
        have hle : base ≤ x := by
          rcases mem_cons.mp hxL with rfl | hmem
          · exact le_rfl
          · exact ((pairwise_cons.mp hltL).1 x hmem).le
        exact .inr ⟨hle, .inl hxb⟩
      | cons r R => exact .inl ⟨hxb, hhigh _ mem_cons_self⟩
    · have hnext := hlow _ (mem_cons_of_mem _ hmem)
      refine iff_of_false (by omega) ?_
      rintro rfl
      have hlast := hfront.last
      rw [show (L.map Block.addr).getLastD base = before base L from rfl] at hlast
      rw [hlast] at hmem hnext
      cases R with
      | nil =>
        have := (pairwise_cons.mp hltL).1 _ hmem
        exact absurd this (lt_irrefl _)
      | cons r R =>
        have := hhigh r.addr mem_cons_self
        simp only [map_cons, headD_cons] at hnext
        omega
  · have hxb := hhigh x hxR
    have hne : x ≠ before base L := by
      have := hlow _ (before_mem base L)
      omega
    refine iff_of_false ?_ hne
    cases hRa : R.map Block.addr with
    | nil => rw [hRa] at hxR; exact absurd hxR not_mem_nil
    | cons r R' =>
      rw [hRa] at hxR hltR
      rcases (hback r R' hRa).lt_next hltR hxR with ⟨-, hout⟩ | ⟨-, hup⟩
      · rw [hout]
        have := hlow base mem_cons_self
        omega
      · omega

theorem search_gap {fuel : Nat} (h : Sound base s (L ++ R) (b :: live))
    (hL : ∀ l ∈ L, l.stop ≤ b.addr) (hR : ∀ r ∈ R, b.stop ≤ r.addr)
    (hfuel : (L ++ R).length < fuel) :
    search (ptr s.mem) (inGap s.mem b.addr) fuel s.freep = some (before base L) := by
  obtain ⟨rest, hrest, hperm⟩ := h.chain.rotate h.freep
  have hlen : rest.length = (L ++ R).length := by
    have := hperm.length_eq
    simpa using this
  have hp : before base L ∈ base :: (L ++ R).map Block.addr := by
    rw [map_append, ← cons_append]
    exact mem_append_left _ (before_mem base L)
  refine hrest.search_eq (hperm.mem_iff.mpr hp) ((h.inGap_iff hL hR hp).mpr rfl) ?_ (by omega)
  intro y hy hne
  rw [Bool.eq_false_iff]
  exact fun hgap => hne ((h.inGap_iff hL hR (hperm.mem_iff.mp hy)).mp hgap)

theorem plus_eq {k : Nat} (h : x + 8 * k < 2 ^ 32) : plus x k = x + 8 * k := Nat.mod_eq_of_lt h

/-- The block `b` as it stands in the memory `m` once it has taken in the block behind it, if that
is adjacent: it is `b'` now, and `R'` are the free blocks above it. -/
structure Lifted (base : Nat) (s : St) (L R live : List Block) (b : Block) (m : Store) (b' : Block)
    (R' : List Block) : Prop where
  addr : b'.addr = b.addr
  le : b.size ≤ b'.size
  length : R'.length ≤ R.length
  sub : ∀ r ∈ R', r ∈ R
  high : ∀ r ∈ R', b'.stop < r.addr
  order : R'.Pairwise fun b c => b.stop < c.addr
  head : ptr m b.addr = behind base R'
  size : Malloc.size m b.addr = b'.size
  tail : Tail (ptr s.mem) (R'.map Block.addr) base
  tiles : Tiles s.got ((b' :: (L ++ R' ++ live)).map Block.piece)

theorem lifted (h : Sound base s (L ++ R) (b :: live)) (hR : ∀ r ∈ R, b.stop ≤ r.addr) :
    ∃ b' R', Lifted base s L R live b (joinUp s.mem (before base L) b.addr) b' R' := by
  have hb := h.above (b := b) (by simp)
  have hbstop := h.addr_lt_stop (b := b) (by simp)
  have hsize : Malloc.size s.mem b.addr = b.size := h.sizes b (by simp)
  have hplus : plus b.addr (Malloc.size s.mem b.addr) = b.stop := by
    rw [hsize]
    exact plus_eq hb.2
  have hptr := h.ptr_before
  have hchain := h.chain
  rw [map_append, seg_append] at hchain
  obtain ⟨-, hback⟩ := hchain
  obtain ⟨-, hordR, -⟩ := pairwise_append.mp h.order
  have htiles : Tiles s.got ((b :: (L ++ R ++ live)).map Block.piece) :=
    h.tiles.perm (perm_middle.map Block.piece)
  by_cases hup : b.stop = behind base R
  · cases R with
    | nil =>
      have hbase : behind base [] = base := rfl
      omega
    | cons r R =>
      have hup : b.stop = r.addr := hup
      have hr : ptr s.mem (before base L) = r.addr := hptr
      have hrmem : r ∈ L ++ r :: R := by simp
      have hrsize : Malloc.size s.mem r.addr = r.size := h.sizes r (by simp)
      have hrstop := (h.above (b := r) (by simp)).2
      have hmerge := Block.merge_stop hup
      have hclear : Clear b.addr r.addr :=
        h.clear_head (block_mem (mem_append_left live hrmem))
      have hbefore : Clear b.addr (before base L) := by
        refine h.clear_head (node_mem ?_)
        rw [map_append, ← cons_append]
        exact mem_append_left _ (before_mem base L)
      have hfit : Malloc.size s.mem b.addr + Malloc.size s.mem (ptr s.mem (before base L)) <
          2 ^ 32 := by
        rw [hr, hsize, hrsize]
        simp only [Block.stop, Block.merge] at hmerge hrstop
        omega
      obtain ⟨hp1, hs1⟩ := joinUp_merge (by rw [hr]; exact hclear) hbefore
        (by rw [hplus, hup, hr]) hfit
      obtain ⟨hrlt, hordR⟩ := pairwise_cons.mp hordR
      have hseg : Seg (ptr s.mem) r.addr (R.map Block.addr) base := hback _ _ rfl
      refine ⟨b.merge r, R, rfl, Nat.le_add_right _ _, Nat.le_succ _,
        fun c hc => mem_cons_of_mem _ hc, fun c hc => ?_, hordR, ?_, ?_, hseg.tail, ?_⟩
      · rw [hmerge]
        exact hrlt c hc
      · rw [hp1, hr]
        exact hseg.head
      · rw [hs1, hr, hsize, hrsize]
        rfl
      · have hperm : (b :: (L ++ r :: R ++ live)).Perm (b :: r :: (L ++ R ++ live)) := by
          refine .cons b ?_
          rw [append_assoc, cons_append, append_assoc]
          exact perm_middle
        have hjoin := (htiles.perm (hperm.map Block.piece)).join hup
        have hpiece : (⟨b.piece.start, b.piece.len + r.piece.len⟩ : Piece) =
            (b.merge r).piece := by
          simp only [Block.piece, Block.merge, Nat.mul_add]
        rw [hpiece] at hjoin
        exact hjoin
  · have hne : plus b.addr (Malloc.size s.mem b.addr) ≠ ptr s.mem (before base L) := by
      rw [hplus, hptr]
      exact hup
    obtain ⟨hp1, hs1⟩ := joinUp_link hne
    refine ⟨b, R, rfl, le_rfl, le_rfl, fun c hc => hc, fun c hc => ?_, hordR, hp1.trans hptr,
      hs1.trans hsize, hback, htiles⟩
    cases R with
    | nil => exact absurd hc not_mem_nil
    | cons r R =>
      have hne : b.stop ≠ r.addr := hup
      have hrle := hR r mem_cons_self
      rcases mem_cons.mp hc with rfl | hc
      · omega
      · have h1 := (pairwise_cons.mp hordR).1 c hc
        have h2 := h.addr_lt_stop (b := r) (by simp)
        omega

theorem clear_of_perm {rest : List Block} (h : Sound base s idle live)
    (hp : (idle ++ live).Perm (b :: rest)) (hc : c ∈ rest) : Clear b.addr c.addr := by
  have hpair := (pairwise_cons.mp h.heads).2
  rw [(hp.map Block.addr).pairwise_iff fun h => Clear.symm h, map_cons] at hpair
  exact rel_of_pairwise_cons hpair (mem_map_of_mem hc)

theorem before_node : before base L ∈ base :: (L ++ R).map Block.addr := by
  rw [map_append, ← cons_append]
  exact mem_append_left _ (before_mem base L)

theorem before_snoc (base : Nat) (L : List Block) (l : Block) :
    before base (L ++ [l]) = l.addr := by
  simp [before]

section Joining

variable {m : Store} {b' : Block} {R' : List Block}

theorem mem_spliced {c : Block} (hsub : ∀ r ∈ R', r ∈ R) (hc : c ∈ L ++ b' :: R' ++ live) :
    c = b' ∨ c ∈ L ++ R ++ live := by
  simp only [mem_append, mem_cons] at hc ⊢
  rcases hc with (hc | rfl | hc) | hc
  · exact .inr (.inl (.inl hc))
  · exact .inl rfl
  · exact .inr (.inl (.inr (hsub c hc)))
  · exact .inr (.inr hc)

theorem frame (h : Sound base s (L ++ R) (b :: live))
    (hx : x ∈ base :: (L ++ R ++ live).map Block.addr) (hne : x ≠ before base L) :
    Same s.mem (joinDown (joinUp s.mem (before base L) b.addr) (before base L) b.addr) x := by
  have hclear : Clear (before base L) x := by
    have hall : ∀ {y : Nat}, y ∈ base :: (L ++ R ++ live).map Block.addr →
        y ∈ base :: (L ++ R ++ b :: live).map Block.addr := by
      intro y hy
      rcases mem_cons.mp hy with rfl | hy
      · exact mem_cons_self
      · obtain ⟨c, hc, rfl⟩ := mem_map.mp hy
        exact block_mem (mem_loose hc)
    exact (h.same_or_clear (hall (node_mem before_node)) (hall hx)).resolve_left hne.symm
  obtain ⟨hp1, hs1⟩ := joinUp_same (m := s.mem) (p := before base L) (h.clear_head hx)
  obtain ⟨hp2, hs2⟩ := joinDown_same (m := joinUp s.mem (before base L) b.addr) b.addr hclear
  exact ⟨hp2.trans hp1, hs2.trans hs1⟩

theorem front {next : Nat → Nat} {z : Nat} (h : Sound base s (L ++ R) live)
    (hsame : ∀ y ∈ base :: L.map Block.addr, y ≠ before base L → next y = ptr s.mem y)
    (hlast : next (before base L) = z) : Seg next base (L.map Block.addr) z := by
  have hchain := h.chain
  have hlt := h.nodes_lt
  rw [map_append] at hchain hlt
  rw [← cons_append] at hlt
  have hnd : (base :: L.map Block.addr).Nodup :=
    (pairwise_append.mp hlt).1.imp fun h => Nat.ne_of_lt h
  exact (seg_append.mp hchain).1.setLast hnd hsame hlast

theorem lt_of_not_down (h : Sound base s (L ++ R) (b :: live)) (hL : ∀ l ∈ L, l.stop ≤ b.addr)
    (hdown : plus (before base L) (Malloc.size s.mem (before base L)) ≠ b.addr) :
    ∀ l ∈ L, l.stop < b.addr := by
  rcases eq_nil_or_concat L with rfl | ⟨L', l, rfl⟩
  · exact fun l hl => absurd hl not_mem_nil
  · rw [concat_eq_append] at h hL hdown ⊢
    have hl := h.above (b := l) (by simp)
    have hsize := h.sizes l (by simp)
    rw [before_snoc, hsize, plus_eq hl.2] at hdown
    intro c hc
    rcases mem_append.mp hc with hc' | hc'
    · have horder := (pairwise_append.mp h.order).1
      have h1 := (pairwise_append.mp horder).2.2 c hc' l (mem_singleton_self l)
      have h2 := h.addr_lt_stop (b := l) (by simp)
      have h3 := hL l (by simp)
      omega
    · rw [mem_singleton.mp hc']
      exact lt_of_le_of_ne (hL l (by simp)) hdown

theorem linked (h : Sound base s (L ++ R) (b :: live)) (hL : ∀ l ∈ L, l.stop ≤ b.addr)
    (hm : m = joinUp s.mem (before base L) b.addr) (hl : Lifted base s L R live b m b' R')
    (hdown : plus (before base L) (Malloc.size m (before base L)) ≠ b.addr) :
    Sound base { s with mem := joinDown m (before base L) b.addr, freep := before base L }
      (L ++ b' :: R') live := by
  have hb := h.above (b := b) (by simp)
  have hbstop := h.addr_lt_stop (b := b) (by simp)
  have hclear : Clear b.addr (before base L) := h.clear_head (node_mem before_node)
  have hsizeP : Malloc.size m (before base L) = Malloc.size s.mem (before base L) := by
    rw [hm, (joinUp_same hclear).2]
  obtain ⟨hp2, hs2⟩ := joinDown_link (m := m) (p := before base L) (by omega) hdown
  obtain ⟨hpb, hsb⟩ := joinDown_same (m := m) b.addr hclear.symm
  rw [hsizeP] at hdown hs2
  have hframe : ∀ y ∈ base :: (L ++ R ++ live).map Block.addr, y ≠ before base L →
      Same s.mem (joinDown m (before base L) b.addr) y := by
    rw [hm]
    exact fun y hy hne => h.frame hy hne
  have hpb := hpb.trans hl.head
  have hsb := hsb.trans hl.size
  generalize joinDown m (before base L) b.addr = m₂ at hp2 hs2 hpb hsb hframe ⊢
  have hsize : ∀ y ∈ base :: (L ++ R ++ live).map Block.addr,
      Malloc.size m₂ y = Malloc.size s.mem y := by
    intro y hy
    by_cases hne : y = before base L
    · rw [hne, hs2]
    · exact (hframe y hy hne).2
  have hlt := h.lt_of_not_down hL hdown
  obtain ⟨hordL, -, hcross⟩ := pairwise_append.mp h.order
  refine ⟨?_, ?_, ?_, ?_, ?_, ?_, h.bounds⟩
  · rw [map_append, map_cons, hl.addr]
    refine seg_cons.mpr ⟨h.front (fun y hy hne => ?_) hp2, ?_⟩
    · refine (hframe y (node_mem ?_) hne).1
      rw [map_append, ← cons_append]
      exact mem_append_left _ hy
    · have hbehind : Seg (ptr m₂) b.addr ([] ++ R'.map Block.addr) base ↔ _ := seg_append
      refine hbehind.mpr ⟨hpb, hl.tail.congr fun y hy => ?_⟩
      obtain ⟨r, hr, rfl⟩ := mem_map.mp hy
      have hrR := hl.sub r hr
      refine (hframe _ (block_mem (by simp [hrR])) ?_).1
      have h1 := hl.high r hr
      have h2 : b'.stop = b.addr + 8 * b'.size := by rw [Block.stop, hl.addr]
      have h3 : before base L ≤ b.addr := by
        rcases mem_cons.mp (before_mem base L) with heq | hmem
        · omega
        · obtain ⟨l, hlmem, heq⟩ := mem_map.mp hmem
          have h4 := hL l hlmem
          have h5 := h.addr_lt_stop (b := l) (by simp [hlmem])
          omega
      omega
  · have hnode : before base L ∈ base :: L.map Block.addr := before_mem base L
    exact node_mem hnode
  · exact (hsize base mem_cons_self).trans h.baseSize
  · intro c hc
    rcases mem_spliced hl.sub hc with rfl | hc'
    · rw [hl.addr]
      exact hsb
    · exact (hsize _ (block_mem hc')).trans (h.sizes c (mem_loose hc'))
  · refine pairwise_append.mpr ⟨hordL, pairwise_cons.mpr ⟨hl.high, hl.order⟩, ?_⟩
    intro l hlmem c hc
    rcases mem_cons.mp hc with rfl | hc
    · rw [hl.addr]
      exact hlt l hlmem
    · exact hcross l hlmem c (hl.sub c hc)
  · refine hl.tiles.perm (List.Perm.map Block.piece ?_)
    rw [append_assoc, append_assoc]
    exact perm_middle.symm

theorem joined (h : Sound base s (L ++ R) (b :: live)) (hbase : base < 2 ^ 32)
    (hL : ∀ l ∈ L, l.stop ≤ b.addr) (hm : m = joinUp s.mem (before base L) b.addr)
    (hl : Lifted base s L R live b m b' R')
    (hdown : plus (before base L) (Malloc.size m (before base L)) = b.addr) :
    ∃ L' l, L = L' ++ [l] ∧
    Sound base { s with mem := joinDown m (before base L) b.addr, freep := before base L }
      (L' ++ l.merge b' :: R') live := by
  have hb := h.above (b := b) (by simp)
  have hclear : Clear b.addr (before base L) := h.clear_head (node_mem before_node)
  have hsizeP : Malloc.size m (before base L) = Malloc.size s.mem (before base L) := by
    rw [hm, (joinUp_same hclear).2]
  rcases eq_nil_or_concat L with rfl | ⟨L', l, rfl⟩
  · -- The static header has no units, so nothing is adjacent to it.
    exfalso
    have hzero : before base [] = base := rfl
    rw [hsizeP, hzero, h.baseSize, plus_eq (by omega)] at hdown
    omega
  rw [concat_eq_append] at *
  refine ⟨L', l, rfl, ?_⟩
  have hlabove := h.above (b := l) (by simp)
  have hlsize := h.sizes l (by simp)
  have hbefore := before_snoc base L' l
  have hadj : l.stop = b.addr := by
    rw [hsizeP, hbefore, hlsize, plus_eq hlabove.2] at hdown
    exact hdown
  have hb'stop : b'.stop < 2 ^ 32 :=
    (hl.tiles.bounds h.bounds mem_cons_self).2
  have hfit : Malloc.size m (before base (L' ++ [l])) + Malloc.size m b.addr < 2 ^ 32 := by
    rw [hsizeP, hbefore, hlsize, hl.size]
    simp only [Block.stop, hl.addr] at hb'stop hadj
    omega
  obtain ⟨hp2, hs2⟩ := joinDown_merge hclear.symm hdown hfit
  rw [hl.head] at hp2
  rw [hsizeP, hbefore, hlsize, hl.size] at hs2
  have hframe : ∀ y ∈ base :: (L' ++ [l] ++ R ++ live).map Block.addr,
      y ≠ before base (L' ++ [l]) →
      Same s.mem (joinDown m (before base (L' ++ [l])) b.addr) y := by
    rw [hm]
    exact fun y hy hne => h.frame hy hne
  rw [hbefore] at hp2 hframe ⊢
  generalize joinDown m l.addr b.addr = m₂ at hp2 hs2 hframe ⊢
  -- The other blocks.
  have hperm : (L' ++ [l] ++ R ++ b :: live).Perm (l :: (L' ++ R ++ b :: live)) := by
    simp only [append_assoc, singleton_append]
    exact perm_middle
  have hother : ∀ c ∈ L' ++ R ++ live, Malloc.size m₂ c.addr = c.size := by
    intro c hc
    have hmem : c ∈ L' ++ [l] ++ R ++ live := by
      simp only [append_assoc, singleton_append] at hc ⊢
      exact mem_loose hc
    have hcl : Clear l.addr c.addr := h.clear_of_perm hperm (mem_loose hc)
    have hne : c.addr ≠ l.addr := by
      rw [Clear] at hcl
      omega
    exact (hframe _ (block_mem hmem) hne).2.trans (h.sizes c (mem_loose hmem))
  have haddrs : (L' ++ l.merge b' :: R').map Block.addr =
      (L' ++ [l]).map Block.addr ++ R'.map Block.addr := by
    simp [Block.merge]
  obtain ⟨hordL, -, hcross⟩ := pairwise_append.mp h.order
  obtain ⟨hordL', -, hcross'⟩ := pairwise_append.mp hordL
  have hmerge : (l.merge b').stop = b'.stop := Block.merge_stop (hadj.trans hl.addr.symm)
  refine ⟨?_, ?_, ?_, ?_, ?_, ?_, h.bounds⟩
  · rw [haddrs]
    refine seg_append.mpr ⟨h.front (fun y hy hne => ?_) ?_, hl.tail.congr fun y hy => ?_⟩
    · rw [hbefore] at hne
      refine (hframe y (node_mem ?_) hne).1
      rw [map_append, ← cons_append]
      exact mem_append_left _ hy
    · rw [hbefore]
      exact hp2
    · obtain ⟨r, hr, rfl⟩ := mem_map.mp hy
      have hrR := hl.sub r hr
      refine (hframe _ (block_mem (by simp [hrR])) ?_).1
      have h1 := hcross l (by simp) r hrR
      have h2 := h.addr_lt_stop (b := l) (by simp)
      omega
  · exact mem_cons_of_mem _ (mem_map.mpr ⟨l.merge b', by simp, rfl⟩)
  · refine ((hframe base mem_cons_self ?_).2).trans h.baseSize
    omega
  · intro c hc
    rcases mem_spliced hl.sub hc with rfl | hc'
    · exact hs2
    · exact hother c hc'
  · refine pairwise_append.mpr ⟨hordL', pairwise_cons.mpr ⟨fun r hr => ?_, hl.order⟩, ?_⟩
    · rw [hmerge]
      exact hl.high r hr
    · intro c hc d hd
      rcases mem_cons.mp hd with rfl | hd
      · exact hcross' c hc l (mem_singleton_self l)
      · exact hcross c (mem_append_left _ hc) d (hl.sub d hd)
  · have hfirst : (b' :: (L' ++ [l] ++ R' ++ live)).Perm (l :: b' :: (L' ++ R' ++ live)) := by
      refine .trans (.cons b' ?_) (.swap l b' _)
      simp only [append_assoc, singleton_append]
      exact perm_middle
    have hjoin := (hl.tiles.perm (hfirst.map Block.piece)).join (hadj.trans hl.addr.symm)
    have hpiece : (⟨l.piece.start, l.piece.len + b'.piece.len⟩ : Piece) = (l.merge b').piece := by
      simp only [Block.piece, Block.merge, Nat.mul_add]
    rw [hpiece] at hjoin
    have hperm : (l.merge b' :: (L' ++ R' ++ live)).Perm (L' ++ l.merge b' :: R' ++ live) := by
      rw [append_assoc, append_assoc]
      exact perm_middle.symm
    exact hjoin.perm (hperm.map Block.piece)

end Joining

theorem free_sound {fuel : Nat} (h : Sound base s idle (b :: live)) (hbase : base < 2 ^ 32)
    (hfuel : idle.length < fuel) :
    ∃ s' idle', Malloc.free fuel s (b.addr + 8) = .ok s' ∧ Sound base s' idle' live ∧
      s'.got = s.got ∧ idle'.length ≤ idle.length + 1 ∧ ∃ c ∈ idle', b.size ≤ c.size := by
  obtain ⟨L, R, rfl, hL, hR⟩ := h.exists_gap
  have hrun : Malloc.free fuel s (b.addr + 8) = .ok
      { s with
        mem := joinDown (joinUp s.mem (before base L) b.addr) (before base L) b.addr
        freep := before base L } := by
    rw [Malloc.free, Nat.add_sub_cancel, h.search_gap hL hR hfuel]
  obtain ⟨b', R', hl⟩ := h.lifted hR
  have hlen := hl.length
  by_cases hdown : plus (before base L)
      (Malloc.size (joinUp s.mem (before base L) b.addr) (before base L)) = b.addr
  · obtain ⟨L', l, rfl, hsound⟩ := h.joined hbase hL rfl hl hdown
    refine ⟨_, _, hrun, hsound, rfl, ?_, l.merge b', by simp, ?_⟩
    · simp only [length_append, length_cons, length_nil]
      omega
    · exact hl.le.trans (Nat.le_add_left _ _)
  · refine ⟨_, _, hrun, h.linked hL rfl hl hdown, rfl, ?_, b', by simp, hl.le⟩
    simp only [length_append, length_cons]
    omega

end Sound

end Malloc
end Xv6.User

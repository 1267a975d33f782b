import Xv6.Fs.Content
import Xv6.Fs.Refs

/-!
# Xv6.Fs.Named

The blocks that a write names in its calls of `log_write`.

The block layer reads the disk and the inode cache and never the log, so the calls of `log_write` of
one `writei` do not depend on what the log holds: a run with one log is followed by the run with
another (`writei_follows`). With a log that is empty before, the header holds afterwards the blocks
that were named and no others. `writei_names` bounds them through `Room` on a log that is just as
large as the bound.
-/

namespace Xv6.Fs

open Finset

open Log (Room LogSt)

variable {α β : Type} {sb : Superblock} {s t : FS} {ip : Fin NINODE} {B : List Nat}

/-- The panics of `log_write`. -/
def LogStop (e : Panic) : Prop := e = .tooBigTransaction ∨ e = .logWriteOutsideTrans

/-- Where `x` ends, `y` ends in a related way or is stopped by the log. -/
def Follows (x : Except Panic α) (y : Except Panic β) (Q : α → β → Prop) : Prop :=
  Ends x (fun _ => True) fun a => Ends y LogStop (Q a)

theorem Follows.bind {γ δ : Type} {x : Except Panic α} {y : Except Panic β} {Q : α → β → Prop}
    {f : α → Except Panic γ} {g : β → Except Panic δ} {R : γ → δ → Prop} (h : Follows x y Q)
    (hf : ∀ a b, Q a b → Follows (f a) (g b) R) : Follows (x >>= f) (y >>= g) R := by
  cases x with
  | error e => trivial
  | ok a =>
    cases y with
    | ok b => exact hf a b h
    | error e =>
      cases hr : f a with
      | ok c =>
        rw [ok_bind, hr]
        exact h
      | error e' =>
        rw [ok_bind, hr]
        trivial

/-- `t` is `s` with another log, which has the blocks that were added to `B` in `s`. -/
structure Tracks (B : List Nat) (s t : FS) : Prop where
  disk : t.disk = s.disk
  icache : t.icache = s.icache
  blocks : ∀ b ∈ s.log.lh.blocks, b ∈ B ∨ b ∈ t.log.lh.blocks

/-- The same for states that come with a value. -/
def TracksWith (B : List Nat) (r r' : α × FS) : Prop := r'.1 = r.1 ∧ Tracks B r.2 r'.2

theorem Tracks.setInode (h : Tracks B s t) (ip : Fin NINODE) (x : Inode) :
    Tracks B (s.setInode ip x) (t.setInode ip x) :=
  ⟨h.disk, by simp only [FS.setInode, h.icache], h.blocks⟩

theorem Tracks.setAddr (h : Tracks B s t) (k : Fin (NDIRECT + 1)) (a : UInt32) :
    Tracks B (s.setAddr ip k a) (t.setAddr ip k a) := by
  simp only [FS.setAddr, h.icache]
  exact h.setInode ip _

theorem logWrite_follows (h : Tracks B s t) (b : Nat) (x : Block) :
    Follows (s.logWrite b x) (t.logWrite b x) (Tracks B) := by
  simp only [FS.logWrite]
  cases hg : s.log.logWrite b with
  | error e => trivial
  | ok g =>
    cases hg' : t.log.logWrite b with
    | error e => exact logWrite_error hg'
    | ok g' =>
      obtain ⟨-, -, -, hb, -⟩ := LogSt.logWrite_ok hg
      obtain ⟨-, -, -, hb', -⟩ := LogSt.logWrite_ok hg'
      refine ⟨by simp only [h.disk], h.icache, fun c hc => ?_⟩
      simp only at hc ⊢
      have hmem : c ∈ s.log.lh.blocks ∨ c = b := by
        rw [hb] at hc
        split at hc
        · exact .inl hc
        · simpa using hc
      rw [hb']
      rcases hmem with hold | rfl
      · refine (h.blocks c hold).imp_right fun hin => ?_
        split
        · exact hin
        · exact List.mem_append_left _ hin
      · right
        split
        · assumption
        · exact List.mem_append_right _ (List.mem_singleton.mpr rfl)

theorem balloc_follows (h : Tracks B s t) : Follows (balloc sb s) (balloc sb t) (TracksWith B) := by
  simp only [balloc, FS.inUse, h.disk]
  split
  · trivial
  · refine (logWrite_follows h _ _).bind fun s1 t1 h1 => ?_
    exact (logWrite_follows h1 _ _).bind fun s2 t2 h2 => ⟨rfl, h2⟩

theorem bmapAddr_follows (h : Tracks B s t) (k : Fin (NDIRECT + 1)) :
    Follows (bmapAddr sb s ip k) (bmapAddr sb t ip k) (TracksWith B) := by
  simp only [bmapAddr, h.icache]
  split
  · refine (balloc_follows h).bind ?_
    rintro ⟨b, s1⟩ ⟨b', t1⟩ ⟨rfl, (h1 : Tracks B s1 t1)⟩
    exact ⟨rfl, h1.setAddr k _⟩
  · exact ⟨rfl, h⟩

theorem bmapEntry_follows (h : Tracks B s t) (a bn : Nat) :
    Follows (bmapEntry sb s a bn) (bmapEntry sb t a bn) (TracksWith B) := by
  simp only [bmapEntry, h.disk]
  split
  · refine (balloc_follows h).bind ?_
    rintro ⟨b, s1⟩ ⟨b', t1⟩ ⟨rfl, (h1 : Tracks B s1 t1)⟩
    simp only [h1.disk]
    exact (logWrite_follows h1 _ _).bind fun s2 t2 h2 => ⟨rfl, h2⟩
  · exact ⟨rfl, h⟩

theorem bmap_follows (h : Tracks B s t) (bn : Nat) :
    Follows (bmap sb s ip bn) (bmap sb t ip bn) (TracksWith B) := by
  simp only [bmap]
  split
  · exact bmapAddr_follows h _
  · split
    · refine (bmapAddr_follows h _).bind ?_
      rintro ⟨a, s1⟩ ⟨a', t1⟩ ⟨rfl, (h1 : Tracks B s1 t1)⟩
      exact bmapEntry_follows h1 _ _
    · trivial

theorem writeLoop_follows (h : Tracks B s t) (src : Nat → UInt8) (n tot off : Nat) :
    Follows (writeLoop sb ip src n tot off s) (writeLoop sb ip src n tot off t) (TracksWith B) := by
  induction hleft : n - tot using Nat.strong_induction_on generalizing tot off s t with
  | _ left ih =>
    subst hleft
    rw [writeLoop, writeLoop]
    split
    · refine (bmap_follows h _).bind ?_
      rintro ⟨a, s1⟩ ⟨a', t1⟩ ⟨rfl, (h1 : Tracks B s1 t1)⟩
      simp only [h1.disk]
      refine (logWrite_follows h1 _ _).bind fun s2 t2 h2 => ?_
      have hless : n - (tot + min (n - tot) (BSIZE - off % BSIZE)) < n - tot := by
        simp only [BSIZE]
        omega
      exact ih _ hless h2 _ _ rfl
    · exact ⟨rfl, h⟩

theorem writei_follows (h : Tracks B s t) (dev : Devsw) (src : Nat → UInt8) (off n : UInt32) :
    Follows (writei sb dev s ip src off n) (writei sb dev t ip src off n) (TracksWith B) := by
  simp only [writei, h.icache]
  split
  · split
    · exact ⟨rfl, h⟩
    · split <;> exact ⟨rfl, h⟩
  · split
    · exact ⟨rfl, h⟩
    · split
      · exact ⟨rfl, h⟩
      · refine (writeLoop_follows h _ _ _ _).bind ?_
        rintro ⟨off', s1⟩ ⟨off'', t1⟩ ⟨rfl, (h1 : Tracks B s1 t1)⟩
        simp only [h1.icache]
        split
        · simp only [iupdate]
          have h2 := h1.setInode ip { s1.icache ip with
            copy := { (s1.icache ip).copy with size := UInt32.ofNat off'' } }
          rw [h2.icache, h2.disk]
          exact (logWrite_follows h2 _ _).bind fun s2 t2 h3 => ⟨rfl, h3⟩
        · exact ⟨rfl, h1⟩

theorem FsOk.withLog (h : FsOk sb s) (g : LogSt) : FsOk sb { s with log := g } :=
  ⟨h.wf, h.cache.inum_lt, h.cache.inj, h.cache.valid⟩

theorem bitmap_card_le (hsize : sb.size ≤ BPB) : sb.bitmap.card ≤ 1 := by
  refine card_le_one.mpr fun x hx y hy => ?_
  simp only [Superblock.bitmap, mem_image, mem_range, Superblock.bblock] at hx hy
  obtain ⟨a, ha, rfl⟩ := hx
  obtain ⟨b, hb, rfl⟩ := hy
  rw [Nat.div_eq_of_lt (ha.trans_le hsize), Nat.div_eq_of_lt (hb.trans_le hsize)]

theorem logTargets_lack_le (s : FS) (ip : Fin NINODE) (hsize : sb.size ≤ BPB) (bn : Nat) :
    (logTargets sb s ip).card + (volOf sb s.disk).lack (s.icache ip).inum bn ≤ 3 := by
  have hmap := bitmap_card_le hsize
  simp only [logTargets, Vol.lack]
  split
  · have h1 := card_insert_le (sb.iblock (s.icache ip).inum) sb.bitmap
    split <;> omega
  · rename_i hind
    have h1 := card_insert_le (sb.iblock (s.icache ip).inum)
      (insert ((volOf sb s.disk).ind (s.icache ip).inum) sb.bitmap)
    have h2 := card_insert_le ((volOf sb s.disk).ind (s.icache ip).inum) sb.bitmap
    rw [if_neg fun hc => hind hc.2]
    omega

theorem spanned_le_four (off : Nat) {n : Nat} (hn : n ≤ 3 * BSIZE) : Vol.spanned off
    (off + n) ≤ 4 := by
  simp only [Vol.spanned, Vol.blocksOf, BSIZE] at *
  split <;> omega

/-- The transaction can take `MAXOPBLOCKS` blocks more. -/
def Reserved (g : LogSt) : Prop := 1 ≤ g.outstanding ∧ (g.lh.n : Int) + MAXOPBLOCKS ≤ g.cap

theorem logRoom_of_reserved (ip : Fin NINODE) (hsize : sb.size ≤ BPB) (hg : Reserved s.log)
    (off : Nat) {n : Nat} (hn : n ≤ 3 * BSIZE) : LogRoom sb s ip off n := by
  have hcount := logTargets_lack_le s ip hsize (Vol.blocksOf (off + n) - 1)
  have hspan := spanned_le_four off hn
  have hcard : (logTargets sb s ip \ s.log.lh.blocks.toFinset).card ≤ (logTargets sb s ip).card :=
    card_le_card sdiff_subset
  have hfits := hg.2
  refine ⟨hg.1, ?_⟩
  simp only [MAXOPBLOCKS] at hfits
  push_cast
  omega

/-- An empty log that takes `MAXOPBLOCKS` blocks. -/
def tally : LogSt where
  size := MAXOPBLOCKS + 1
  outstanding := 1
  committing := false
  lh := .empty

theorem tally_cap : tally.cap = MAXOPBLOCKS := by decide

theorem tally_reserved : Reserved tally := ⟨le_rfl, by rw [tally_cap]; decide⟩

theorem writei_names (h : FsOk sb s) (hip : Locked s ip) (hdev : (s.icache ip).copy.type ≠ T_DEV)
    (hsize : sb.size ≤ BPB) (dev : Devsw) (src : Nat → UInt8) (off : UInt32) {n : UInt32}
    (hn : n.toNat ≤ 3 * BSIZE) : ∃ N : Finset Nat, N.card ≤ MAXOPBLOCKS ∧ ∀ g : LogSt,
      Ends (writei sb dev { s with log := g } ip src off n)
        (fun e => ¬ Reserved g ∧ LogStop e ∨ e = .ballocOutOfBlocks) fun r =>
        ∀ b ∈ r.2.log.lh.blocks, b ∈ g.lh.blocks ∨ b ∈ N := by
  by_cases hr : WriteRejected (s.icache ip).copy.size.toNat off.toNat n.toNat
  · refine ⟨∅, Nat.zero_le _, fun g => ?_⟩
    rw [writei_rejected (s := { s with log := g }) hdev hr]
    exact fun b hb => .inl hb
  rw [writeRejected_iff, not_or] at hr
  have hends : ∀ g : LogSt, Ends (writei sb dev { s with log := g } ip src off n)
      (fun e => ¬ Reserved g ∧ LogStop e ∨ e = .ballocOutOfBlocks) fun r =>
      Reserved g → Room r.2.log ∅ 0 ∧ Keeps { s with log := g } r.2 := by
    intro g
    have hroom : Reserved g → LogRoom sb { s with log := g } ip off.toNat n.toNat :=
      fun hg => logRoom_of_reserved ip hsize hg _ hn
    refine ((writei_leaves 0 (h.withLog g) hip hdev hr.1 hr.2).and
      (writei_keeps dev src off n)).mono ?_ ?_
    · rintro e ⟨⟨hno, he⟩ | ⟨-, he⟩, -⟩
      · exact .inl ⟨fun hg => hno (hroom hg), he⟩
      · exact .inr he
    · rintro r ⟨⟨-, hleaves⟩, hkeeps⟩ hg
      exact ⟨hleaves.room (hroom hg), hkeeps⟩
  have hfollows : ∀ g : LogSt, Follows (writei sb dev { s with log := g } ip src off n)
      (writei sb dev { s with log := tally } ip src off n) (TracksWith g.lh.blocks) := by
    intro g
    have htracks : Tracks g.lh.blocks { s with log := g } { s with log := tally } :=
      ⟨rfl, rfl, fun b hb => .inl hb⟩
    exact writei_follows htracks dev src off n
  cases hres : writei sb dev { s with log := tally } ip src off n with
  | error e =>
    -- the same allocation fails with every log
    have hballoc : e = .ballocOutOfBlocks :=
      ((hends tally).of_error hres).resolve_left fun hc => hc.1 tally_reserved
    refine ⟨∅, Nat.zero_le _, fun g => ?_⟩
    refine ((hends g).and (hfollows g)).mono (fun _ he => he.1) fun r hr => ?_
    have hstop : LogStop e := hr.2.of_error hres
    rw [hballoc] at hstop
    rcases hstop with hc | hc <;> cases hc
  | ok r' =>
    refine ⟨r'.2.log.lh.blocks.toFinset, ?_, fun g => ?_⟩
    · obtain ⟨hroom, hkeeps⟩ := (hends tally).of_ok hres tally_reserved
      have hcap : r'.2.log.cap = MAXOPBLOCKS := by
        rw [LogSt.cap, hkeeps.logSize, ← LogSt.cap, tally_cap]
      have hfits := hroom.fits
      have hcard := List.toFinset_card_le r'.2.log.lh.blocks
      rw [hcap] at hfits
      simp only [Log.Header.n] at hfits
      omega
    · refine ((hends g).and (hfollows g)).mono (fun _ he => he.1) fun r hr b hb => ?_
      have htracks := hr.2.of_ok hres
      exact (htracks.2.blocks b hb).imp_right fun hin => List.mem_toFinset.mpr hin

end Xv6.Fs

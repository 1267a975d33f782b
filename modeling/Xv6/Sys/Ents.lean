import Xv6.Fs.Content
import Xv6.Sys.Dir

/-!
# Xv6.Sys.Ents

A directory's contents as entries.

`entAt` reads the entry at an index, `putEnt` overwrites or appends one, and `findEnt` is the search
that the loops over a directory make. `lookup` and `freeSlot` are the searches of `dirlookup` and
`dirlink`.
-/

namespace Xv6.Sys

open Fs Bytes List

def entAt (data : List UInt8) (k : Nat) : Dirent :=
  .ofBytes ((data.drop (Dirent.size * k)).take Dirent.size)

def nents (data : List UInt8) : Nat := data.length / Dirent.size

def putEnt (data : List UInt8) (k : Nat) (de : Dirent) : List UInt8 :=
  splice data (Dirent.size * k) ((range Dirent.size).map de.byte)

/-- The contents are entries, without a rest. -/
def Whole (data : List UInt8) : Prop := data.length = Dirent.size * nents data

theorem strncpy_length (t : Nat → UInt8) (n : Nat) : ∀ k, (strncpy t n k).length = n := by
  induction n with
  | zero => exact fun _ => rfl
  | succ n ih =>
    intro k
    rw [strncpy]
    split
    · rw [length_cons, ih]
    · exact length_replicate

theorem ofBytes_byte (de : Dirent) (h : de.name.length = DIRSIZ) :
    Dirent.ofBytes ((range Dirent.size).map de.byte) = de := by
  have hchars : ∀ k, k < Dirent.size → chars ((range Dirent.size).map de.byte) k =
    de.byte k := by
    intro k hk
    simp [chars, hk]
  have hinum : rd16 (chars ((range Dirent.size).map de.byte)) 0 = de.inum := by
    apply rd16_of_bytes
    intro j hj
    rw [Nat.zero_add, hchars j (by simp only [Dirent.size]; omega), Dirent.byte, if_pos hj]
  have hname : ((range Dirent.size).map de.byte).drop 2 = de.name := by
    apply ext_getElem
    · simp [h, Dirent.size]
    · intro k h1 h2
      have hk : ¬ 2 + k < 2 := by omega
      simp [Dirent.byte, chars, h2, hk]
  rw [Dirent.ofBytes, hinum, hname]

section Put

variable {data : List UInt8} {k : Nat} {de : Dirent}

theorem putEnt_length (h : Whole data) (hk : k ≤ nents data) :
    (putEnt data k de).length = Dirent.size * max (nents data) (k + 1) := by
  rw [Whole] at h
  simp only [putEnt, splice, length_append, length_take, length_map,
    length_range, length_drop, Dirent.size] at h ⊢
  omega

theorem nents_putEnt (h : Whole data) (hk : k ≤ nents data) :
    nents (putEnt data k de) = max (nents data) (k + 1) := by
  rw [nents, putEnt_length h hk, Nat.mul_div_cancel_left _ (by decide)]

theorem whole_putEnt (h : Whole data) (hk : k ≤ nents data) : Whole (putEnt data k de) := by
  rw [Whole, nents_putEnt h hk, putEnt_length h hk]

theorem entAt_putEnt_self (h : Whole data) (hk : k ≤ nents data) (hname : de.name.length = DIRSIZ) :
    entAt (putEnt data k de) k = de := by
  have htake : (data.take (Dirent.size * k)).length = Dirent.size * k := by
    rw [Whole] at h
    simp only [length_take, Dirent.size] at h ⊢
    omega
  rw [entAt, putEnt, splice, append_assoc, drop_append_of_le_length (by rw [htake]),
    drop_of_length_le (by rw [htake]), nil_append, take_append_of_le_length (by simp),
    take_of_length_le (by simp), ofBytes_byte de hname]

theorem entAt_putEnt_other {j : Nat} (h : Whole data) (hk : k ≤ nents data) (hj : j ≠ k) :
    entAt (putEnt data k de) j = entAt data j := by
  rw [Whole] at h
  rw [entAt, entAt]
  congr 1
  apply ext_getElem?
  intro p
  simp only [getElem?_take, getElem?_drop, putEnt, splice, getElem?_append,
    length_append, length_take, length_map, length_range]
  by_cases hp : p < Dirent.size
  · rw [if_pos hp, if_pos hp]
    simp only [Dirent.size] at h hp ⊢
    have hmin : min (16 * k) data.length = 16 * k := by omega
    rw [hmin]
    by_cases hjk : j < k
    · rw [if_pos (by omega), if_pos (by omega), if_pos (by omega)]
    · rw [if_neg (by omega)]
      congr 1
      omega
  · rw [if_neg hp, if_neg hp]

end Put

def findEnt (data : List UInt8) (found : Dirent → Bool) (start : Nat) : Option Nat :=
  (range' start (nents data - start)).find? fun k => found (entAt data k)

def lookup (data : List UInt8) (name : List UInt8) : Option Nat :=
  findEnt data (Dirent.hasName name) 0

def freeSlot (data : List UInt8) : Nat := (findEnt data (·.inum == 0) 0).getD (nents data)

/-- What a successful `dirlink` makes of the contents. -/
def linked (data : List UInt8) (name : List UInt8) (inum : Nat) : List UInt8 :=
  putEnt data (freeSlot data) (.make name inum)

section Find

variable {data : List UInt8} {found : Dirent → Bool} {start k : Nat}

theorem findEnt_some (h : findEnt data found start = some k) :
    start ≤ k ∧ k < nents data ∧ found (entAt data k) = true := by
  rw [findEnt] at h
  have hfound := List.find?_some h
  have hmem := mem_of_find?_eq_some h
  rw [mem_range'_1] at hmem
  exact ⟨hmem.1, by omega, hfound⟩

theorem findEnt_step (h : start < nents data) : findEnt data found start =
    if found (entAt data start) then some start else findEnt data found (start + 1) := by
  have hsucc : nents data - start = nents data - (start + 1) + 1 := by omega
  rw [findEnt, hsucc, range'_succ, List.find?_cons, findEnt]
  cases found (entAt data start) <;> rfl

theorem findEnt_end (h : nents data ≤ start) : findEnt data found start = none := by
  rw [findEnt, Nat.sub_eq_zero_of_le h]
  rfl

theorem freeSlot_le (data : List UInt8) : freeSlot data ≤ nents data := by
  rw [freeSlot]
  cases h : findEnt data (·.inum == 0) 0 with
  | none => simp
  | some k =>
    have := (findEnt_some h).2.1
    simpa using this.le

end Find

theorem strncpy_chars {l : List UInt8} (h0 : 0 ∉ l) (n : Nat) :
    ∀ k, strncpy (chars l) n k = (l.drop k ++ replicate n 0).take n := by
  induction n with
  | zero => exact fun _ => by simp [strncpy]
  | succ n ih =>
    intro k
    rw [strncpy]
    by_cases hk : k < l.length
    · have hc : chars l k = l[k] := by simp [chars, hk]
      have hne : chars l k ≠ 0 := by
        rw [hc]
        exact fun h => h0 (h ▸ getElem_mem hk)
      rw [if_pos hne, ih, drop_eq_getElem_cons hk, cons_append, take_succ_cons, hc]
      congr 1
      rw [List.replicate_succ', ← append_assoc]
      exact (take_append_of_le_length (by simp)).symm
    · have hc : chars l k = 0 := by simp [chars, not_lt.mp hk]
      rw [if_neg (not_not.mpr hc), drop_of_length_le (not_lt.mp hk), nil_append,
        take_of_length_le (by simp)]

theorem chars_make {name : List UInt8} (h0 : 0 ∉ name) (hlen : name.length ≤ DIRSIZ) (i : Nat) :
    chars (Dirent.make name i).name = chars name := by
  funext k
  rw [Dirent.make, strncpy_chars h0, drop_zero]
  simp only [chars, getD_eq_getElem?_getD, getElem?_take, getElem?_append, getElem?_replicate]
  by_cases hk : k < name.length
  · rw [if_pos (by omega), if_pos hk]
  · rw [if_neg hk, getElem?_eq_none (not_lt.mp hk)]
    split
    · split <;> rfl
    · rfl

theorem strkey_padded {l : List UInt8} (h0 : 0 ∉ l) (z n : Nat) :
    ∀ k, strkey (chars (l ++ replicate z 0)) n k = (l.drop k).take n := by
  induction n with
  | zero => simp [strkey]
  | succ n ih =>
    intro k
    rw [strkey]
    by_cases hk : k < l.length
    · have hc : chars (l ++ replicate z 0) k = l[k] := by
        simp [chars, getElem?_append_left hk, hk]
      have hne : chars (l ++ replicate z 0) k ≠ 0 := by
        rw [hc]
        exact fun h => h0 (h ▸ getElem_mem hk)
      rw [if_pos hne, ih, hc, drop_eq_getElem_cons hk, take_succ_cons]
    · have hc : chars (l ++ replicate z 0) k = 0 := by
        simp only [chars, getD_eq_getElem?_getD]
        rw [getElem?_append_right (not_lt.mp hk), getElem?_replicate]
        split <;> rfl
      rw [if_neg (not_not.mpr hc), drop_of_length_le (not_lt.mp hk), take_nil]

theorem make_name {name : List UInt8} (h0 : 0 ∉ name) (i : Nat) : (Dirent.make name i).name =
    name.take DIRSIZ ++ replicate (DIRSIZ - name.length) 0 := by
  rw [Dirent.make, strncpy_chars h0, drop_zero, take_append, take_replicate,
    Nat.min_eq_left (Nat.sub_le _ _)]

theorem make_length (name : List UInt8) (i : Nat) : (Dirent.make name i).name.length = DIRSIZ :=
  strncpy_length _ _ _

/-- The name in an entry, as `namecmp` compares it. -/
def Dirent.key (de : Dirent) : List UInt8 := strkey (chars de.name) DIRSIZ 0

theorem Dirent.key_make {name : List UInt8} (h0 : 0 ∉ name) (i : Nat) :
    (Dirent.make name i).key = name.take DIRSIZ := by
  rw [key, make_name h0, strkey_padded fun h => h0 (mem_of_mem_take h), drop_zero, take_take,
    Nat.min_self]

theorem Dirent.hasName_eq {name : List UInt8} (h0 : 0 ∉ name) (de : Dirent) :
    hasName name de = (de.inum != 0 && de.key == name.take DIRSIZ) := by
  have hname : strkey (chars name) DIRSIZ 0 = name.take DIRSIZ := by
    simpa using strkey_padded h0 0 DIRSIZ 0
  rw [hasName, Bool.eq_iff_iff, Bool.and_eq_true, Bool.and_eq_true, beq_iff_eq, beq_iff_eq,
    namecmp, strncmp_eq_zero_iff, hname, key, eq_comm (a := name.take DIRSIZ)]

end Xv6.Sys

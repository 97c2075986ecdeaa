/-
# Files read and written in pages

A file is a list of bytes.  `writeAt` writes at a place, as `lseek` and `write` do: what lies
between the old end and the place is filled with zeros.  `pageAt size file n` is page `n`, when
the file has all of it.

`pageAt_writeAt` and `pageAt_writeAt_of_ne`: a page that is written is read back, and all
other pages stay what they are, also when only a part of the page is written.
-/
import Mathlib.Tactic

namespace PagedFile

/-- Write bytes at a place. -/
def writeAt (file : List UInt8) (off : ℕ) (bytes : List UInt8) : List UInt8 :=
  if bytes = [] then file
  else (file.take off ++ List.replicate (off - file.length) 0) ++ bytes
    ++ file.drop (off + bytes.length)

/-- Page `n`, when the file has all of it. -/
def pageAt (size : ℕ) (file : List UInt8) (n : ℕ) : Option (List UInt8) :=
  if size * n + size ≤ file.length then some ((file.drop (size * n)).take size) else none

variable {size n m : ℕ} {file bytes page : List UInt8}

/-- What is at a place after a write. -/
theorem getElem?_writeAt {off i : ℕ} (h : bytes ≠ []) :
    (writeAt file off bytes)[i]?
      = if i < off then (if i < file.length then file[i]? else some 0)
        else if i < off + bytes.length then bytes[i - off]? else file[i]? := by
  have hfront : (file.take off ++ List.replicate (off - file.length) 0).length = off := by
    rw [List.length_append, List.length_take, List.length_replicate]
    omega
  rw [writeAt, if_neg h]
  split_ifs with hoff hlen hin
  · rw [List.append_assoc, List.getElem?_append_left (by omega), List.getElem?_append_left
      (by rw [List.length_take]; omega), List.getElem?_take_of_lt hoff]
  · have hshort : (file.take off).length = file.length := by
      rw [List.length_take]
      omega
    rw [List.append_assoc, List.getElem?_append_left (by omega), List.getElem?_append_right
      (by omega), hshort, List.getElem?_replicate, if_pos (by omega)]
  · rw [List.append_assoc, List.getElem?_append_right (by omega), hfront,
      List.getElem?_append_left (by omega)]
  · rw [List.getElem?_append_right (by rw [List.length_append, hfront]; omega),
      List.length_append, hfront, List.getElem?_drop]
    congr 1
    omega

/-- A page, byte by byte. -/
theorem pageAt_eq_some :
    pageAt size file n = some page
      ↔ page.length = size ∧ ∀ i < size, file[size * n + i]? = page[i]? := by
  rw [pageAt]
  constructor
  · intro h
    split_ifs at h with hle
    obtain rfl := Option.some.inj h
    refine ⟨?_, ?_⟩
    · rw [List.length_take, List.length_drop]
      omega
    · intro i hi
      rw [List.getElem?_take_of_lt hi, List.getElem?_drop]
  · rintro ⟨hlen, hget⟩
    have hle : size * n + size ≤ file.length := by
      by_contra hshort
      have hpos : 0 < size := by
        apply Nat.pos_of_ne_zero
        rintro rfl
        rw [Nat.zero_mul] at hshort
        omega
      have hlast := hget (size - 1) (by omega)
      rw [List.getElem?_eq_none (by omega), eq_comm, List.getElem?_eq_none_iff] at hlast
      omega
    rw [if_pos hle, Option.some.injEq]
    apply List.ext_getElem?
    intro i
    by_cases hi : i < size
    · rw [List.getElem?_take_of_lt hi, List.getElem?_drop, hget i hi]
    · rw [List.getElem?_eq_none (by rw [List.length_take]; omega),
        List.getElem?_eq_none (by omega)]

/-- **A page that is written is read back.** -/
theorem pageAt_writeAt (hlen : page.length = size) (hsize : 0 < size) :
    pageAt size (writeAt file (size * n) page) n = some page := by
  have hne : page ≠ [] := by
    rintro rfl
    rw [List.length_nil] at hlen
    omega
  refine pageAt_eq_some.mpr ⟨hlen, fun i hi => ?_⟩
  rw [getElem?_writeAt hne, if_neg (by omega), if_pos (by omega), Nat.add_sub_cancel_left]

/-- **The other pages stay.** -/
theorem pageAt_writeAt_of_ne (hne : m ≠ n) (hlen : bytes.length ≤ size)
    (hpage : pageAt size file m = some page) :
    pageAt size (writeAt file (size * n) bytes) m = some page := by
  by_cases hnil : bytes = []
  · rw [writeAt, if_pos hnil, hpage]
  · obtain ⟨hpagelen, hget⟩ := pageAt_eq_some.mp hpage
    refine pageAt_eq_some.mpr ⟨hpagelen, fun i hi => ?_⟩
    have hin : size * m + i < file.length := by
      have hi' := hget i hi
      rw [List.getElem?_eq_getElem (show i < page.length by omega)] at hi'
      exact (List.getElem?_eq_some_iff.mp hi').1
    rw [getElem?_writeAt hnil, ← hget i hi]
    rcases Nat.lt_or_gt_of_ne hne with hlt | hgt
    · have hle : size * m + size ≤ size * n := by
        rw [← Nat.mul_succ]
        exact Nat.mul_le_mul_left size hlt
      rw [if_pos (by omega), if_pos hin]
    · have hle : size * n + size ≤ size * m := by
        rw [← Nat.mul_succ]
        exact Nat.mul_le_mul_left size hgt
      rw [if_neg (by omega), if_neg (by omega)]

end PagedFile

import Mathlib.Data.List.Basic

/-!
# Byte files

A file is its list of bytes; `pwrite` overlays a string at a position (filling
any gap with zero bytes, as a seek past the end does) and `pread` reads up to a
length. `Holds f pos d` says that the bytes of `d` stand at `pos`. Two facts
about it carry every argument about what a file keeps: a write makes its own
string hold (`holds_pwrite`), and leaves whatever holds in a disjoint range
(`Holds.pwrite_frame`).
-/

namespace Lib

/-- A string of 8-bit characters. -/
abbrev Bytes := List UInt8

/-- Overlay `d` at `pos`. Writing nothing changes nothing. -/
def pwrite (f : Bytes) (pos : Nat) (d : Bytes) : Bytes :=
  if d = [] then f
  else (f ++ List.replicate (pos - f.length) 0).take pos ++ d ++ f.drop (pos + d.length)

/-- Up to `len` bytes from `pos`. -/
def pread (f : Bytes) (pos len : Nat) : Bytes := (f.drop pos).take len

/-- The bytes of `d` stand at `pos`. -/
def Holds (f : Bytes) (pos : Nat) (d : Bytes) : Prop :=
  ∀ j, j < d.length → f[pos + j]? = d[j]?

/-- The prefix `pwrite` keeps has exactly `pos` bytes. -/
private theorem length_head (f : Bytes) (pos : Nat) :
    ((f ++ List.replicate (pos - f.length) (0 : UInt8)).take pos).length = pos := by
  rw [List.length_take, List.length_append, List.length_replicate]
  omega

/-- Inside the written range the new bytes are read. -/
theorem getElem?_pwrite_in (f : Bytes) {pos i : Nat} {d : Bytes} (h : i < d.length) :
    (pwrite f pos d)[pos + i]? = d[i]? := by
  have hd : d ≠ [] := by rintro rfl; simp at h
  rw [pwrite, if_neg hd, List.append_assoc,
    List.getElem?_append_right (by rw [length_head]; omega), length_head,
    Nat.add_sub_cancel_left, List.getElem?_append_left h]

/-- Outside the written range, what the file had is still there. -/
theorem getElem?_pwrite_out (f : Bytes) {pos i : Nat} {d : Bytes}
    (hi : i < f.length) (h : i < pos ∨ pos + d.length ≤ i) :
    (pwrite f pos d)[i]? = f[i]? := by
  unfold pwrite
  split
  · rfl
  next hd =>
    rcases h with h | h
    · rw [List.append_assoc, List.getElem?_append_left (by rw [length_head]; exact h),
        List.getElem?_take_of_lt h, List.getElem?_append_left hi]
    · rw [List.getElem?_append_right (by rw [List.length_append, length_head]; exact h),
        List.length_append, length_head, List.getElem?_drop]
      congr 1
      omega

theorem holds_pwrite (f : Bytes) (pos : Nat) (d : Bytes) : Holds (pwrite f pos d) pos d :=
  fun _ h => getElem?_pwrite_in f h

/-- A write leaves alone what holds in a disjoint range. -/
theorem Holds.pwrite_frame {f : Bytes} {p q : Nat} {d e : Bytes} (h : Holds f q e)
    (hdisj : q + e.length ≤ p ∨ p + d.length ≤ q) : Holds (pwrite f p d) q e := by
  intro j hj
  have hread := h j hj
  have hlen : q + j < f.length := by
    by_contra hge
    rw [List.getElem?_eq_none (by omega), List.getElem?_eq_getElem hj] at hread
    cases hread
  rw [getElem?_pwrite_out f hlen (by omega), hread]

/-- What holds is a prefix of what a long enough read returns. -/
theorem Holds.prefix_pread {f : Bytes} {pos len : Nat} {d : Bytes} (h : Holds f pos d)
    (hlen : d.length ≤ len) : d <+: pread f pos len := by
  refine ⟨(pread f pos len).drop d.length, ?_⟩
  apply List.ext_getElem?
  intro i
  rcases Nat.lt_or_ge i d.length with hi | hi
  · rw [List.getElem?_append_left hi, pread, List.getElem?_take_of_lt (by omega),
      List.getElem?_drop, h i hi]
  · rw [List.getElem?_append_right hi, List.getElem?_drop]
    congr 1
    omega

/-- A write inside of the file does not change its length. -/
theorem length_pwrite {f : Bytes} {pos : Nat} {d : Bytes} (h : pos + d.length ≤ f.length) :
    (pwrite f pos d).length = f.length := by
  unfold pwrite
  split
  · rfl
  · rw [List.length_append, List.length_append, length_head, List.length_drop]
    omega

/-- What stands behind the written range is still there. -/
theorem drop_pwrite {f : Bytes} {pos n : Nat} {d : Bytes} (hn : pos + d.length ≤ n) :
    (pwrite f pos d).drop n = f.drop n := by
  unfold pwrite
  split
  · rfl
  · obtain ⟨k, rfl⟩ := Nat.exists_eq_add_of_le hn
    have hlen : ((f ++ List.replicate (pos - f.length) (0 : UInt8)).take pos ++ d).length =
        pos + d.length := by
      rw [List.length_append, length_head]
    rw [← List.drop_drop, ← hlen, List.drop_left, hlen, List.drop_drop]

end Lib

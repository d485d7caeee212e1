import Mathlib.Data.List.Basic
import Mathlib.Tactic.Common

/-!
# Copies into and out of a byte memory

A memory is a list of bytes, the positions below its length. A copy of `n` bytes from or to a
position touches the positions of an interval; when not all of them are in the memory, the copy
fails with the first position that is not.

A format is a sequence of fields, one after the other. Fields written in this order extend the
part of the memory that is known (`Core.writeBytes_append`).

## Main definitions

* `Core.readBytes`, `Core.writeBytes`.

## Main results

* `Core.readBytes_of_le`, `Core.readBytes_of_lt`.
* `Core.writeBytes_append`, `Core.writeBytes_middle`.
-/

namespace Core

/-- The `n` bytes from position `p` on. -/
def readBytes (mem : List UInt8) (p n : ℕ) : Except ℕ (List UInt8) :=
  if p + n ≤ mem.length then .ok ((mem.drop p).take n) else .error (max p mem.length)

/-- The memory with the bytes from position `p` on replaced by `bs`. -/
def writeBytes (mem : List UInt8) (p : ℕ) (bs : List UInt8) : Except ℕ (List UInt8) :=
  if p + bs.length ≤ mem.length then .ok (mem.take p ++ bs ++ mem.drop (p + bs.length))
  else .error (max p mem.length)

variable {mem : List UInt8} {p n : ℕ}

theorem readBytes_of_le (h : p + n ≤ mem.length) :
    readBytes mem p n = .ok ((mem.drop p).take n) :=
  if_pos h

theorem readBytes_of_lt (h : mem.length < p + n) : readBytes mem p n = .error (max p mem.length) :=
  if_neg (Nat.not_le.mpr h)

/-- Writing the next field. -/
theorem writeBytes_append (a bs : List UInt8) (ha : a.length = p)
    (h : p + bs.length ≤ mem.length) :
    writeBytes (a ++ mem.drop p) p bs = .ok (a ++ bs ++ mem.drop (p + bs.length)) := by
  subst ha
  have h' : a.length + bs.length ≤ (a ++ mem.drop a.length).length := by
    rw [List.length_append, List.length_drop]
    omega
  rw [writeBytes, if_pos h']
  simp [List.drop_append]

/-- Writing a field between others. -/
theorem writeBytes_middle (a old bs c : List UInt8) (ha : a.length = p)
    (hold : old.length = bs.length) :
    writeBytes (a ++ (old ++ c)) p bs = .ok (a ++ (bs ++ c)) := by
  subst ha
  rw [writeBytes, if_pos (by simp [hold]), List.take_left, ← hold, ← List.drop_drop,
    List.drop_left, List.drop_left, List.append_assoc]

end Core

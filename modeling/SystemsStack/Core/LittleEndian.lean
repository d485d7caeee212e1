import Mathlib.Algebra.Group.Nat.Defs
import Mathlib.Data.List.Basic
import Mathlib.Tactic.Common

/-!
# Fixed-width integers in memory

An integer of `n` bytes in little-endian order, and in the native order of a host that stores its
integers in either order. A wire format with little-endian fields is read and written by copying
the native representation of a value that has been put into little-endian order first, an
operation that is the identity on a little-endian host and a byte swap on a big-endian one. The
two copies then do not depend on the host
(`Core.nativeBytes_toLittleEndian`, `Core.toLittleEndian_nativeValue`).

## Main definitions

* `Core.leBytes`, `Core.leValue`.
* `Core.ByteOrder`, `Core.nativeBytes`, `Core.nativeValue`.
* `Core.byteSwap`, `Core.toLittleEndian`.

## Main results

* `Core.leValue_leBytes`, `Core.leBytes_leValue`: the two functions are inverse.
* `Core.nativeBytes_toLittleEndian`, `Core.toLittleEndian_nativeValue`.
-/

namespace Core

/-! ### Little-endian bytes -/

/-- The `n` low bytes of `v`, the least significant first. -/
def leBytes : ℕ → ℕ → List UInt8
  | 0, _ => []
  | n + 1, v => UInt8.ofNat v :: leBytes n (v / 256)

/-- The number with these bytes, the least significant first. -/
def leValue : List UInt8 → ℕ
  | [] => 0
  | b :: bs => b.toNat + 256 * leValue bs

@[simp] theorem length_leBytes (n v : ℕ) : (leBytes n v).length = n := by
  induction n generalizing v with
  | zero => rfl
  | succ n ih => rw [leBytes, List.length_cons, ih]

theorem leValue_lt (bs : List UInt8) : leValue bs < 256 ^ bs.length := by
  induction bs with
  | nil => exact Nat.one_pos
  | cons b bs ih =>
    have hb : b.toNat < 256 := b.toNat_lt
    rw [leValue, List.length_cons, Nat.pow_succ]
    omega

theorem leValue_leBytes {n v : ℕ} (hv : v < 256 ^ n) : leValue (leBytes n v) = v := by
  induction n generalizing v with
  | zero => exact (Nat.lt_one_iff.mp hv).symm
  | succ n ih =>
    have hdiv : v / 256 < 256 ^ n := Nat.div_lt_of_lt_mul (by rwa [Nat.pow_succ'] at hv)
    have hbyte : (UInt8.ofNat v).toNat = v % 256 := UInt8.toNat_ofNat'
    rw [leBytes, leValue, ih hdiv, hbyte]
    exact Nat.mod_add_div v 256

theorem leBytes_leValue (bs : List UInt8) : leBytes bs.length (leValue bs) = bs := by
  induction bs with
  | nil => rfl
  | cons b bs ih =>
    have hb : b.toNat < 256 := b.toNat_lt
    have hbyte : UInt8.ofNat (b.toNat + 256 * leValue bs) = b := by
      apply UInt8.toNat_inj.mp
      rw [UInt8.toNat_ofNat']
      omega
    have hrest : (b.toNat + 256 * leValue bs) / 256 = leValue bs := by omega
    rw [List.length_cons, leValue, leBytes, hbyte, hrest, ih]

/-! ### Native byte order -/

/-- The order in which a host stores the bytes of an integer. -/
inductive ByteOrder where
  | little
  | big
  deriving DecidableEq, Repr

/-- The representation of an integer of `n` bytes in the memory of the host. -/
def nativeBytes (order : ByteOrder) (n v : ℕ) : List UInt8 :=
  match order with
  | .little => leBytes n v
  | .big => (leBytes n v).reverse

/-- The integer that the bytes represent in the memory of the host. -/
def nativeValue (order : ByteOrder) (bs : List UInt8) : ℕ :=
  match order with
  | .little => leValue bs
  | .big => leValue bs.reverse

/-- The integer of `n` bytes with the bytes of `v` in the opposite order. -/
def byteSwap (n v : ℕ) : ℕ := leValue (leBytes n v).reverse

/-- The integer whose native representation is the little-endian one of `v`. -/
def toLittleEndian (order : ByteOrder) (n v : ℕ) : ℕ :=
  match order with
  | .little => v
  | .big => byteSwap n v

/-- **Writing is independent of the host.** -/
theorem nativeBytes_toLittleEndian (order : ByteOrder) (n v : ℕ) :
    nativeBytes order n (toLittleEndian order n v) = leBytes n v := by
  cases order with
  | little => rfl
  | big =>
    have hlen : (leBytes n v).reverse.length = n := by simp
    have hswap := leBytes_leValue (leBytes n v).reverse
    rw [hlen] at hswap
    rw [toLittleEndian, nativeBytes, byteSwap, hswap, List.reverse_reverse]

/-- **Reading is independent of the host.** -/
theorem toLittleEndian_nativeValue (order : ByteOrder) {n : ℕ} {bs : List UInt8}
    (hn : bs.length = n) : toLittleEndian order n (nativeValue order bs) = leValue bs := by
  cases order with
  | little => rfl
  | big =>
    have hswap := leBytes_leValue bs.reverse
    rw [List.length_reverse, hn] at hswap
    rw [toLittleEndian, nativeValue, byteSwap, hswap, List.reverse_reverse]

end Core

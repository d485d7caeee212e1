import SystemsStack.Core.BumpAllocator

/-!
# The arena allocator

`ll::Arena` hands out the bytes of one vector from its start to its end. Addresses, sizes and the
offset are 64-bit words, and `allocate` computes with them as the source does: the padding from
the absolute address of the cursor with bit masks, the bound and the new cursor from the offset,
all of it modulo `2 ^ 64`.

The storage is a fixed interval of addresses below `2 ^ 63`. The machine makes any sequence of
calls, and records the blocks that the caller has been given since the last `reset`. A constructor
that throws keeps the bytes of its object, which nobody is given.

Source: `include/ll/arena.hpp`, lines 18–59.

## Main definitions

* `SystemsStack.Memory.Storage`, `SystemsStack.Memory.TypeLayout`.
* `SystemsStack.Memory.Arena`, with `allocate`, `create`, `reset`, `used`, `capacity` and
  `remaining`.
* `SystemsStack.Memory.arena`: the runs of an arena as a transition system.
* `SystemsStack.Memory.Arena.Admissible`.
-/

namespace SystemsStack.Memory

open Core

/-- The vector `storage_`: the address of its first byte, and its size. It lies below the address
`2 ^ 63`. -/
structure Storage where
  data : UInt64
  size : UInt64
  data_add_size_le : data.toNat + size.toNat ≤ 2 ^ 63
  size_lt : size.toNat < 2 ^ 63

/-- The size and the alignment of an object type. -/
structure TypeLayout where
  size : UInt64
  align : UInt64
  align_pow : align.toNat.isPowerOfTwo
  align_dvd_size : align.toNat ∣ size.toNat
  size_pos : 0 < size.toNat
  size_lt : size.toNat < 2 ^ 63

/-- An object and its alignment fit together into half of the address space. -/
theorem TypeLayout.size_add_align_le (T : TypeLayout) :
    T.size.toNat + T.align.toNat ≤ 2 ^ 63 := by
  obtain ⟨k, hk⟩ := T.align_pow
  have hle : T.align.toNat ≤ T.size.toNat := Nat.le_of_dvd T.size_pos T.align_dvd_size
  have hlt := T.size_lt
  have hk63 : k ≤ 63 := by
    rw [hk] at hle
    exact Nat.le_of_lt ((Nat.pow_lt_pow_iff_right Nat.one_lt_two).mp (Nat.lt_of_le_of_lt hle hlt))
  have hdvd : T.align.toNat ∣ 2 ^ 63 - T.size.toNat :=
    Nat.dvd_sub (hk ▸ Nat.pow_dvd_pow 2 hk63) T.align_dvd_size
  have := Nat.le_of_dvd (by omega) hdvd
  omega

/-- What `allocate` and `create` throw: `std::bad_alloc`, or what the constructor throws. -/
inductive Exception where
  | badAlloc
  | constructor
  deriving DecidableEq, Repr

/-- An arena over the given storage. -/
structure Arena (storage : Storage) where
  offset : UInt64 := 0
  deriving DecidableEq

namespace Arena

variable {storage : Storage} (a : Arena storage)

/-- The local `base` of `allocate`. -/
def base : UInt64 := storage.data + a.offset

/-- The local `aligned` of `allocate`. -/
def aligned (align : UInt64) : UInt64 := (a.base + (align - 1)) &&& ~~~(align - 1)

/-- The local `delta` of `allocate`. -/
def delta (align : UInt64) : UInt64 := a.aligned align - a.base

/-- Allocate `n` bytes aligned to `align`; the result is their address. -/
def allocate (n align : UInt64) : Except Exception UInt64 × Arena storage :=
  if a.offset + a.delta align + n > storage.size then
    (.error .badAlloc, a)
  else
    (.ok (a.aligned align), { offset := a.offset + (a.delta align + n) })

/-- Allocate an object and construct it in place; `throws` says whether its constructor throws. -/
def create (T : TypeLayout) (throws : Bool) : Except Exception UInt64 × Arena storage :=
  match a.allocate T.size T.align with
  | (.ok mem, a') => (if throws then .error .constructor else .ok mem, a')
  | (.error e, a') => (.error e, a')

def reset (_ : Arena storage) : Arena storage := { offset := 0 }

def used : UInt64 := a.offset

/-- The capacity is the size of the storage. -/
def capacity (_ : Arena storage) : UInt64 := storage.size

/-- The span from the cursor to the end of the storage: its address and its size. -/
def remaining : UInt64 × UInt64 := (storage.data + a.offset, storage.size - a.offset)

/-! ### Runs -/

/-- The arena, and the blocks that the caller has been given since the last `reset`. -/
structure State (storage : Storage) where
  arena : Arena storage
  blocks : List Block := []
  deriving DecidableEq

/-- The calls of an arena. -/
inductive Action where
  | allocate (n align : UInt64)
  | create (T : TypeLayout) (throws : Bool)
  | reset

/-- Record the block at the returned address, if there is one. -/
def State.give (s : State storage) (n align : UInt64)
    (result : Except Exception UInt64 × Arena storage) : State storage :=
  match result with
  | (.ok p, a) =>
      { arena := a, blocks := s.blocks ++ [⟨p.toNat, n.toNat, align.toNat⟩] }
  | (.error _, a) => { s with arena := a }

/-- One call. -/
def step (s : State storage) : Action → State storage
  | .allocate n align => s.give n align (s.arena.allocate n align)
  | .create T throws => s.give T.size T.align (s.arena.create T throws)
  | .reset => { arena := s.arena.reset }

/-- A call of `allocate` with a power of two as its alignment, and with a sum of size and alignment
that is at most `2 ^ 63`; every other call. -/
def Admissible (_ : State storage) : Action → Prop
  | .allocate n align => align.toNat.isPowerOfTwo ∧ n.toNat + align.toNat ≤ 2 ^ 63
  | .create _ _ | .reset => True

instance (s : State storage) : DecidablePred (Admissible s)
  | .allocate _ _ => inferInstanceAs (Decidable (_ ∧ _))
  | .create _ _ | .reset => inferInstanceAs (Decidable True)

end Arena

/-- The runs of an arena over the storage. -/
def arena (storage : Storage) : TransitionSystem (Arena.State storage) Arena.Action where
  init := { arena := {} }
  step s act := some (Arena.step s act)

end SystemsStack.Memory

import SystemsStack.Memory.ArenaFit

/-!
# Budgets

An arena is reset between windows, and the requests of a window may not be refused in the middle of
it. A request costs its size and the padding that its alignment can make necessary, one byte less
than the alignment. Whatever the address of the storage, the bytes in use never exceed the costs of
the requests since the last reset, and a request is refused only if the costs, with its own, exceed
the capacity (`SystemsStack.Memory.Arena.withinBudget`). So a window whose requests cost no more
than the capacity is never refused one, however many windows there have been.

Source: `include/ll/arena.hpp`, lines 26–50; `examples/arena/main.cpp`, lines 13–28.

## Main definitions

* `SystemsStack.Memory.Arena.Charge`, `SystemsStack.Memory.Arena.spent`.

## Main results

* `SystemsStack.Memory.Arena.withinBudget`.
-/

namespace SystemsStack.Memory

open Core

namespace Arena

variable {storage : Storage} {s s' : State storage} {act : Action}

/-! ### Costs -/

/-- What a call is charged: the size and the alignment of a request. -/
inductive Charge where
  | request (n align : UInt64)
  | reset
  deriving DecidableEq, Repr

/-- The size, and the padding that the alignment can make necessary. -/
def Charge.cost : Charge → Option ℕ
  | request n align => some (n.toNat + (align.toNat - 1))
  | reset => none

/-- The costs of the requests since the last reset. -/
def spent : List Charge → ℕ := tally Charge.cost

/-- The charge for a call. -/
def Action.charge : Action → Charge
  | allocate n align => .request n align
  | create T _ => .request T.size T.align
  | reset => .reset

/-- The call throws `std::bad_alloc`. -/
def State.Refuses (s : State storage) : Action → Prop
  | .allocate n align => (s.arena.allocate n align).1 = .error .badAlloc
  | .create T throws => (s.arena.create T throws).1 = .error .badAlloc
  | .reset => False

/-- The alignments of the requests are powers of two. -/
def PowerOfTwo (_ : State storage) : Action → Prop
  | .allocate _ align => align.toNat.isPowerOfTwo
  | .create _ _ | .reset => True

instance (s : State storage) : DecidablePred (PowerOfTwo s)
  | .allocate _ align => inferInstanceAs (Decidable align.toNat.isPowerOfTwo)
  | .create _ _ | .reset => inferInstanceAs (Decidable True)

/-- The runs of an arena, with the charges for the calls. -/
def charged (storage : Storage) : TransitionSystem (State storage × List Charge) Action :=
  ((arena storage).restrict PowerOfTwo).recording fun _ act => some act.charge

/-! ### One request -/

variable {a : Arena storage} {n align : UInt64}

/-- The padding is less than the alignment. -/
theorem toNat_delta_le (ha : a.offset.toNat ≤ storage.size.toNat)
    (hpow : align.toNat.isPowerOfTwo) : (a.delta align).toNat ≤ align.toNat - 1 := by
  have hlt : alignUp align.toNat a.cursor < a.cursor + align.toNat :=
    alignUp_lt (Nat.pos_of_isPowerOfTwo hpow)
  rw [toNat_delta ha hpow]
  omega

/-- A request moves the offset by its cost at most. -/
theorem offset_allocate_le_add (ha : a.offset.toNat ≤ storage.size.toNat)
    (hpow : align.toNat.isPowerOfTwo) : (a.allocate n align).2.offset.toNat ≤
      a.offset.toNat + (n.toNat + (align.toNat - 1)) := by
  have hdelta := toNat_delta_le ha hpow
  rw [allocate]
  split_ifs
  · exact Nat.le_add_right _ _
  · have hsum : (a.offset + (a.delta align + n)).toNat ≤
        a.offset.toNat + ((a.delta align).toNat + n.toNat) := by
      rw [UInt64.toNat_add, UInt64.toNat_add]
      omega
    exact Nat.le_trans hsum (by omega)

/-- A request that is refused would have left the storage at its cost. -/
theorem size_lt_of_refused (ha : a.offset.toNat ≤ storage.size.toNat)
    (hpow : align.toNat.isPowerOfTwo) (h : (a.allocate n align).1 = .error .badAlloc) :
    storage.size.toNat < a.offset.toNat + (n.toNat + (align.toNat - 1)) := by
  have hdelta := toNat_delta_le ha hpow
  rw [allocate] at h
  split_ifs at h with htest
  have hlt : storage.size.toNat < (a.offset + a.delta align + n).toNat :=
    UInt64.lt_iff_toNat_lt.mp htest
  have hsum : (a.offset + a.delta align + n).toNat ≤
      a.offset.toNat + (a.delta align).toNat + n.toNat := by
    rw [UInt64.toNat_add, UInt64.toNat_add]
    omega
  omega

/-- What a constructor does changes neither the offset nor whether there is room. -/
theorem create_eq_allocate (a : Arena storage) (T : TypeLayout) (throws : Bool) :
    (a.create T throws).2 = (a.allocate T.size T.align).2 ∧
      ((a.create T throws).1 = .error .badAlloc ↔
        (a.allocate T.size T.align).1 = .error .badAlloc) := by
  rw [create]
  rcases a.allocate T.size T.align with ⟨_ | _, a'⟩
  · exact ⟨rfl, Iff.rfl⟩
  · cases throws <;> simp

/-! ### Every window -/

theorem spent_request (log : List Charge) (n align : UInt64) :
    spent (log ++ [.request n align]) = spent log + (n.toNat + (align.toNat - 1)) :=
  tally_concat_some _ rfl

/-- The offset stays within the costs since the last reset. -/
theorem offset_le_spent {log : List Charge} (hs : s.arena.offset.toNat ≤ spent log)
    (ha : s.arena.offset.toNat ≤ storage.size.toNat) (hact : PowerOfTwo s act) :
    (step s act).arena.offset.toNat ≤ spent (log ++ [act.charge]) := by
  have hrequest {n align : UInt64} (hpow : align.toNat.isPowerOfTwo) :
      (s.arena.allocate n align).2.offset.toNat ≤ spent (log ++ [.request n align]) := by
    rw [spent_request]
    exact Nat.le_trans (offset_allocate_le_add ha hpow) (Nat.add_le_add_right hs _)
  cases act with
  | allocate n align =>
    rw [step, State.arena_give]
    exact hrequest hact
  | create T throws =>
    rw [step, State.arena_give, (create_eq_allocate s.arena T throws).1]
    exact hrequest T.align_pow
  | reset => exact Nat.zero_le _

theorem charged_isInvariant : (charged storage).IsInvariant fun s =>
    s.1.arena.offset ≤ storage.size ∧ s.1.arena.offset.toNat ≤ spent s.2 :=
  ((offset_isInvariant.restrict PowerOfTwo).recording _).of_relative (Nat.zero_le _)
    fun ha hs h => by
      obtain ⟨hstep, hlog⟩ := (TransitionSystem.recording_step_iff _).mp h
      obtain ⟨hact, hstep⟩ := (TransitionSystem.restrict_step_iff _).mp hstep
      rw [hlog, ← Option.some.inj hstep]
      exact offset_le_spent hs (UInt64.le_iff_toNat_le.mp ha) hact

/-- **Budgets.** In every run in which alignments are powers of two, at whatever address the storage
lies: the bytes in use are at most the costs of the requests since the last reset, and a request is
refused only if these costs and its own exceed the capacity. -/
theorem withinBudget {log : List Charge} (hs : (charged storage).Reachable (s, log)) :
    s.arena.used.toNat ≤ spent log ∧
      ∀ act, PowerOfTwo s act → s.Refuses act →
        s.arena.capacity.toNat < spent (log ++ [act.charge]) := by
  obtain ⟨ha, hspent⟩ := charged_isInvariant.of_reachable hs
  have ha : s.arena.offset.toNat ≤ storage.size.toNat := UInt64.le_iff_toNat_le.mp ha
  refine ⟨hspent, fun act hact hrefuses => ?_⟩
  have hrequest {n align : UInt64} (hpow : align.toNat.isPowerOfTwo)
      (h : (s.arena.allocate n align).1 = .error .badAlloc) :
      s.arena.capacity.toNat < spent (log ++ [.request n align]) := by
    rw [spent_request]
    exact Nat.lt_of_lt_of_le (size_lt_of_refused ha hpow h) (Nat.add_le_add_right hspent _)
  cases act with
  | allocate n align => exact hrequest hact hrefuses
  | create T throws => exact hrequest T.align_pow ((create_eq_allocate _ T throws).2.mp hrefuses)
  | reset => exact absurd hrefuses id

/-- In the second window of a storage of sixty-four bytes at an odd address, behind ten bytes, an
array of five doubles is not refused. -/
theorem withinBudget_secondWindow : ∃ (s : State smallStorage) (log : List Charge),
    spent log = 10 ∧ ¬s.Refuses (.allocate 40 8) := by
  obtain ⟨⟨s, log⟩, hs, hlog⟩ := TransitionSystem.exists_reachable (M := charged smallStorage)
    (p := fun s => s.2 = [.request 60 1, .reset, .request 10 1])
    [.allocate 60 1, .reset, .allocate 10 1] (by decide)
  obtain rfl : log = [.request 60 1, .reset, .request 10 1] := hlog
  have hact : PowerOfTwo s (.allocate 40 8) := show (8 : UInt64).toNat.isPowerOfTwo by decide
  refine ⟨s, [.request 60 1, .reset, .request 10 1], rfl, fun hrefuses => ?_⟩
  have hroom : ¬64 < spent [.request 60 1, .reset, .request 10 1, .request 40 8] := by decide
  exact hroom ((withinBudget hs).2 _ hact hrefuses)

end Arena

end SystemsStack.Memory

import Mathlib.Data.Finset.Union
import Mathlib.Tactic.Common

/-!
# Binding a thread to a NUMA node

`bind_thread_to_node` asks libnuma for the CPUs of the node, and hands this mask to
`numa_run_on_node_mask`. Both are of the type `bitmask`, but the second function reads the bits
of its mask as numbers of *nodes*. The thread ends on the CPUs of all nodes whose number is the
number of a CPU of the requested node.

What libnuma does is a parameter (`SystemsStack.Numa.Libnuma`): its functions, which may fail
where they can, with what they are documented to do when they do not. The topology of the machine
is arbitrary. Freeing the mask does not touch the thread, and is left out.

Source: `include/ll/linux_numa.hpp`, lines 19–79, in the build with libnuma.

## Main definitions

* `SystemsStack.Numa.Topology`, `SystemsStack.Numa.Thread`, `SystemsStack.Numa.Libnuma`.
* `SystemsStack.Numa.bindThreadToNode`, `SystemsStack.Numa.Binds`.

## Main results

* `SystemsStack.Numa.cpusOfNodes_eq_iff`: when a mask of CPUs, read as a mask of nodes, denotes
  the CPUs it lists.
* `SystemsStack.Numa.binds_iff`, `SystemsStack.Numa.not_binds_twoNodes`.

## References

* `docs/tutorials/linux-numa-uring.md`, lines 33–45.
-/

namespace SystemsStack.Numa

/-! ### Machines and threads -/

/-- A machine: its nodes are numbered from zero, and have disjoint, non-empty sets of CPUs. -/
structure Topology where
  maxNode : ℕ
  cpus : ℕ → Finset ℕ
  nonempty : ∀ n ≤ maxNode, (cpus n).Nonempty
  disjoint : ∀ m ≤ maxNode, ∀ n ≤ maxNode, m ≠ n → Disjoint (cpus m) (cpus n)

/-- What a thread is bound to: the CPUs it may run on, and its preferred memory node. -/
structure Thread where
  affinity : Finset ℕ
  preferred : ℤ
  deriving DecidableEq

namespace Topology

variable (T : Topology)

/-- The CPUs of the existing nodes among the set bits of a mask. -/
def cpusOfNodes (mask : Finset ℕ) : Finset ℕ := (mask.filter (· ≤ T.maxNode)).biUnion T.cpus

end Topology

/-- The functions of libnuma that `bind_thread_to_node` calls. A mask is the set of its bits. -/
structure Libnuma (T : Topology) where
  numaAvailable : ℤ
  numaMaxNode : ℤ
  /-- A fresh mask, or a null pointer. -/
  numaAllocateCpumask : Option (Finset ℕ)
  /-- The return value, and the mask afterwards. -/
  numaNodeToCpus : ℤ → Finset ℕ → ℤ × Finset ℕ
  /-- The return value, and the calling thread afterwards. -/
  numaRunOnNodeMask : Finset ℕ → Thread → ℤ × Thread
  numaSetPreferred : ℤ → Thread → Thread
  numaMaxNode_eq : numaMaxNode = T.maxNode
  /-- If it succeeds, the mask is the set of the CPUs of the node. -/
  numaNodeToCpus_eq : ∀ n ≤ T.maxNode, ∀ mask, (numaNodeToCpus n mask).1 = 0 →
    (numaNodeToCpus n mask).2 = T.cpus n
  /-- The bits of the mask are the numbers of nodes. -/
  numaRunOnNodeMask_eq : ∀ mask thread, (T.cpusOfNodes mask).Nonempty →
    numaRunOnNodeMask mask thread = (0, { thread with affinity := T.cpusOfNodes mask })
  /-- It fails if no bit is the number of a node. -/
  numaRunOnNodeMask_fails : ∀ mask thread, T.cpusOfNodes mask = ∅ →
    (numaRunOnNodeMask mask thread).1 ≠ 0 ∧ (numaRunOnNodeMask mask thread).2 = thread
  numaSetPreferred_eq : ∀ node thread,
    numaSetPreferred node thread = { thread with preferred := node }

variable {T : Topology}

/-- Bind the affinity and the memory policy of the calling thread to a node. -/
def bindThreadToNode (L : Libnuma T) (node : ℤ) (thread : Thread) : Bool × Thread :=
  if L.numaAvailable = -1 ∨ node < 0 ∨ node > L.numaMaxNode then
    (false, thread)
  else
    match L.numaAllocateCpumask with
    | none => (false, thread)
    | some cpus =>
        let (rcCpus, cpus) := L.numaNodeToCpus node cpus
        if rcCpus ≠ 0 then
          (false, thread)
        else
          let (rcRun, thread) := L.numaRunOnNodeMask cpus thread
          if rcRun ≠ 0 then
            (false, thread)
          else
            (true, L.numaSetPreferred node thread)

/-- The thread is bound to the node and nothing else if the call reports success, and as it was
if it does not. -/
def Binds (L : Libnuma T) (node : ℤ) (thread : Thread) : Prop :=
  ((bindThreadToNode L node thread).1 = true →
    (bindThreadToNode L node thread).2.affinity = T.cpus node.toNat ∧
      (bindThreadToNode L node thread).2.preferred = node) ∧
  ((bindThreadToNode L node thread).1 = false → (bindThreadToNode L node thread).2 = thread)

/-! ### Masks of CPUs read as masks of nodes -/

theorem cpus_subset_iff {m n : ℕ} (hm : m ≤ T.maxNode) (hn : n ≤ T.maxNode) :
    T.cpus m ⊆ T.cpus n ↔ m = n := by
  constructor
  · intro hsub
    by_contra hne
    have hempty := (T.disjoint m hm n hn hne).eq_bot_of_le hsub
    exact (T.nonempty m hm).ne_empty hempty
  · rintro rfl
    exact subset_rfl

/-- The CPUs of a node, read as nodes, denote no CPU or those of the node exactly when no CPU of
the node has the number of another node. -/
theorem cpusOfNodes_eq_iff {n : ℕ} (hn : n ≤ T.maxNode) :
    (T.cpusOfNodes (T.cpus n) = ∅ ∨ T.cpusOfNodes (T.cpus n) = T.cpus n) ↔
      ∀ c ∈ T.cpus n, c ≤ T.maxNode → c = n := by
  constructor
  · intro h c hc hmax
    have hsub : T.cpus c ⊆ T.cpusOfNodes (T.cpus n) :=
      Finset.subset_biUnion_of_mem T.cpus (Finset.mem_filter.mpr ⟨hc, hmax⟩)
    rcases h with h | h
    · rw [h, Finset.subset_empty] at hsub
      exact absurd hsub (T.nonempty c hmax).ne_empty
    · rw [h] at hsub
      exact (cpus_subset_iff hmax hn).mp hsub
  · intro h
    by_cases hself : n ∈ T.cpus n
    · have hfilter : (T.cpus n).filter (· ≤ T.maxNode) = {n} := by
        ext c
        rw [Finset.mem_filter, Finset.mem_singleton]
        constructor
        · exact fun hc => h c hc.1 hc.2
        · rintro rfl
          exact ⟨hself, hn⟩
      exact .inr (by rw [Topology.cpusOfNodes, hfilter, Finset.singleton_biUnion])
    · have hfilter : (T.cpus n).filter (· ≤ T.maxNode) = ∅ :=
        Finset.filter_eq_empty_iff.mpr fun c hc hmax => hself (h c hc hmax ▸ hc)
      exact .inl (by rw [Topology.cpusOfNodes, hfilter, Finset.biUnion_empty])

/-! ### When the thread is bound to the node -/

variable {L : Libnuma T} {thread : Thread}

/-- A call that ends before it has the CPUs of the node changes nothing. -/
theorem bindThreadToNode_of_fails {node : ℤ}
    (h : L.numaAvailable = -1 ∨ node < 0 ∨ T.maxNode < node ∨
      ∀ mask, L.numaAllocateCpumask = some mask → (L.numaNodeToCpus node mask).1 ≠ 0) :
    bindThreadToNode L node thread = (false, thread) := by
  rw [bindThreadToNode, L.numaMaxNode_eq]
  split_ifs with hguard
  · rfl
  · simp only [not_or] at hguard
    have hmask : ∀ mask, L.numaAllocateCpumask = some mask →
        (L.numaNodeToCpus node mask).1 ≠ 0 := by
      rcases h with h | h | h | h
      · exact absurd h hguard.1
      · exact absurd h hguard.2.1
      · exact absurd h hguard.2.2
      · exact h
    cases halloc : L.numaAllocateCpumask with
    | none => rfl
    | some mask => exact if_pos (hmask mask halloc)

/-- A call that has the CPUs of the node runs the thread on the nodes with their numbers. -/
theorem bindThreadToNode_of_mask {n : ℕ} (havailable : L.numaAvailable ≠ -1)
    (hn : n ≤ T.maxNode) {mask : Finset ℕ} (halloc : L.numaAllocateCpumask = some mask)
    (hrc : (L.numaNodeToCpus n mask).1 = 0) :
    bindThreadToNode L n thread =
      if T.cpusOfNodes (T.cpus n) = ∅ then (false, thread)
      else (true, { affinity := T.cpusOfNodes (T.cpus n), preferred := n }) := by
  have hguard : ¬(L.numaAvailable = -1 ∨ (n : ℤ) < 0 ∨ (n : ℤ) > L.numaMaxNode) := by
    rw [L.numaMaxNode_eq]
    omega
  have hcpus := L.numaNodeToCpus_eq n hn mask hrc
  rw [bindThreadToNode, if_neg hguard, halloc]
  by_cases hempty : T.cpusOfNodes (T.cpus n) = ∅
  · obtain ⟨hrun, hthread⟩ := L.numaRunOnNodeMask_fails (T.cpus n) thread hempty
    simp [hrc, hcpus, hrun, hthread, hempty]
  · have hrun := L.numaRunOnNodeMask_eq (T.cpus n) thread (Finset.nonempty_iff_ne_empty.mpr hempty)
    simp [hrc, hcpus, hrun, hempty, L.numaSetPreferred_eq]

/-- **When the thread is bound to the node and nothing else.** A call that gets as far as the CPUs
of the node binds the thread as it should exactly when none of them has the number of another
existing node. -/
theorem binds_iff (L : Libnuma T) (node : ℤ) (thread : Thread) :
    Binds L node thread ↔
      L.numaAvailable = -1 ∨ node < 0 ∨ T.maxNode < node ∨
        (∀ mask, L.numaAllocateCpumask = some mask → (L.numaNodeToCpus node mask).1 ≠ 0) ∨
        ∀ c ∈ T.cpus node.toNat, c ≤ T.maxNode → c = node.toNat := by
  by_cases hfails : L.numaAvailable = -1 ∨ node < 0 ∨ T.maxNode < node ∨
      ∀ mask, L.numaAllocateCpumask = some mask → (L.numaNodeToCpus node mask).1 ≠ 0
  · refine iff_of_true ?_ (by tauto)
    rw [Binds, bindThreadToNode_of_fails hfails]
    exact ⟨nofun, fun _ => rfl⟩
  · simp only [not_or, not_forall, not_not] at hfails
    obtain ⟨havailable, hneg, hmax, mask, halloc, hrc⟩ := hfails
    obtain ⟨n, rfl⟩ := Int.eq_ofNat_of_zero_le (Int.not_lt.mp hneg)
    have hn : n ≤ T.maxNode := by omega
    have hrest : (∀ mask, L.numaAllocateCpumask = some mask → (L.numaNodeToCpus n mask).1 ≠ 0) ↔
        False := iff_false_intro fun h => h mask halloc hrc
    rw [Binds, bindThreadToNode_of_mask havailable hn halloc hrc, hrest, Int.toNat_natCast]
    simp only [havailable, hneg, hmax, false_or, ← cpusOfNodes_eq_iff hn]
    by_cases hempty : T.cpusOfNodes (T.cpus n) = ∅
    · simp [hempty]
    · simp [hempty]

/-! ### A machine on which the call fails -/

/-- The functions of libnuma as documented, with no failure that can be avoided. -/
def Libnuma.documented (T : Topology) : Libnuma T where
  numaAvailable := 0
  numaMaxNode := T.maxNode
  numaAllocateCpumask := some ∅
  numaNodeToCpus node _ := (0, T.cpus node.toNat)
  numaRunOnNodeMask mask thread :=
    if T.cpusOfNodes mask = ∅ then (-1, thread)
    else (0, { thread with affinity := T.cpusOfNodes mask })
  numaSetPreferred node thread := { thread with preferred := node }
  numaMaxNode_eq := rfl
  numaNodeToCpus_eq n _ mask _ := by rw [Int.toNat_natCast]
  numaRunOnNodeMask_eq mask thread h := if_neg h.ne_empty
  numaRunOnNodeMask_fails mask thread h := by
    rw [if_pos h]
    exact ⟨Int.neg_ne_zero.mpr Int.one_ne_zero, rfl⟩
  numaSetPreferred_eq _ _ := rfl

/-- Two nodes with two CPUs each: the node `0` has the CPUs `0` and `1`, the node `1` the CPUs `2`
and `3`. -/
def twoNodes : Topology where
  maxNode := 1
  cpus n := {2 * n, 2 * n + 1}
  nonempty n _ := ⟨2 * n, by simp⟩
  disjoint m _ n _ hne := by
    rw [Finset.disjoint_left]
    intro c hm hn
    simp only [Finset.mem_insert, Finset.mem_singleton] at hm hn
    omega

/-- A thread that is bound to the node `0` of this machine may run on all four CPUs. -/
theorem not_binds_twoNodes : ¬ ∀ (T : Topology) (L : Libnuma T) node thread,
    Binds L node thread := by
  intro h
  have hbind := (h twoNodes (.documented twoNodes) 0 ⟨{0}, 0⟩).1 (by decide)
  exact absurd hbind.1 (by decide)

end SystemsStack.Numa

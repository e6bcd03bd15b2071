import Mathlib
import SmartQ.Qi.Pool

/-!
# The allocator

Model of `malloc` in `qi/src/utils-phase2.c` over sequences of requests. Pointers are offsets in
`malloc_pool`, in 32 bits. The pointer is moved before it is compared with the end of the pool, so
a request close to `2 ^ 32` takes it back into the pool.

* `mallocs_exclusive_iff`: the blocks are inside the pool and disjoint iff no pointer wraps.
* `phase2_malloc_iff`: the second phase goes on behind a request iff its block is inside the pool.
-/

namespace SmartQ.Qi.Malloc

open SmartQ.Lib

/-! ## Model -/

/-- `malloc`: the pointer returned and the next `malloc_pointer`, or none if it does not return. -/
def malloc (malloc_pointer size : ℕ) : Option (ℕ × ℕ) :=
  let p := malloc_pointer
  let malloc_pointer := add32 malloc_pointer (add32 (size / 4 * 4) 4)
  if mallocPoolExtent < malloc_pointer then none else some (p, malloc_pointer)

/-- A sequence of requests: the blocks that are returned, with their sizes. -/
def mallocs : ℕ → List ℕ → List (ℕ × ℕ)
  | _, [] => []
  | malloc_pointer, size :: sizes =>
    match malloc malloc_pointer size with
    | none => []
    | some (p, malloc_pointer) => (p, size) :: mallocs malloc_pointer sizes

/-! ## Disjoint blocks -/

/-- The bytes of a block. -/
def bytes (b : ℕ × ℕ) : Set ℕ := Set.Ico b.1 (b.1 + b.2)

/-- Every block is inside the pool, and no two have a byte in common. -/
structure Exclusive (bs : List (ℕ × ℕ)) : Prop where
  inside : ∀ b ∈ bs, b.1 + b.2 ≤ mallocPoolExtent
  disjoint : bs.Pairwise fun a b => Disjoint (bytes a) (bytes b)

/-- The bytes that requests take from the pool. -/
def taken (sizes : List ℕ) : ℕ := (sizes.map fun size => size / 4 * 4 + 4).sum

/-- Every request comes to less than `2 ^ 32` with the ones before it, if these fit. -/
def NoWrap (pointer : ℕ) (sizes : List ℕ) : Prop :=
  ∀ pre size, pre ++ [size] <+: sizes → pointer + taken pre ≤ mallocPoolExtent →
    pointer + taken (pre ++ [size]) < 2 ^ 32

theorem disjoint_bytes {a b : ℕ × ℕ} (h : a.1 + a.2 ≤ b.1) : Disjoint (bytes a) (bytes b) := by
  rw [Set.disjoint_left]
  intro x hx hx'
  have := hx.2
  have := hx'.1
  omega

theorem taken_cons (size : ℕ) (sizes : List ℕ) :
    taken (size :: sizes) = size / 4 * 4 + 4 + taken sizes := by
  simp [taken]

theorem noWrap_cons {pointer size : ℕ} {sizes : List ℕ} :
    NoWrap pointer (size :: sizes) ↔
      (pointer ≤ mallocPoolExtent → pointer + (size / 4 * 4 + 4) < 2 ^ 32) ∧
        NoWrap (pointer + (size / 4 * 4 + 4)) sizes := by
  constructor
  · intro h
    refine ⟨fun hp => ?_, fun pre s hpre hfit => ?_⟩
    · have := h [] size (by simp) (by simpa [taken] using hp)
      simpa [taken] using this
    · have := h (size :: pre) s (List.cons_prefix_cons.mpr ⟨rfl, hpre⟩) (by
        rw [taken_cons]
        omega)
      rw [List.cons_append, taken_cons] at this
      omega
  · rintro ⟨hfirst, hrest⟩ pre s hpre hfit
    rcases pre with _ | ⟨s', pre⟩
    · obtain ⟨rfl, -⟩ := List.cons_prefix_cons.mp hpre
      have := hfirst (by simpa [taken] using hfit)
      simpa [taken] using this
    · obtain ⟨rfl, htail⟩ := List.cons_prefix_cons.mp hpre
      rw [taken_cons] at hfit
      rw [List.cons_append, taken_cons]
      have := hrest pre s htail (by omega)
      omega

/-! ## What one request does -/

theorem malloc_of_lt {pointer size : ℕ} (h : pointer + (size / 4 * 4 + 4) < 2 ^ 32) :
    malloc pointer size =
      if mallocPoolExtent < pointer + (size / 4 * 4 + 4) then none
      else some (pointer, pointer + (size / 4 * 4 + 4)) := by
  have hsize : add32 (size / 4 * 4) 4 = size / 4 * 4 + 4 := add32_of_lt (by omega)
  simp only [malloc, hsize, add32_of_lt h]

/-- A pointer that wraps comes back to a place in front of the block's end. -/
theorem malloc_of_ge {pointer size : ℕ} (hp : pointer ≤ mallocPoolExtent) (hs : size < 2 ^ 32)
    (h : 2 ^ 32 ≤ pointer + (size / 4 * 4 + 4)) :
    ∃ next, malloc pointer size = some (pointer, next) ∧ mallocPoolExtent < pointer + size := by
  have hext : mallocPoolExtent = 102400 := rfl
  have hnext : add32 pointer (add32 (size / 4 * 4) 4) ≤ pointer := by
    unfold add32
    omega
  refine ⟨add32 pointer (add32 (size / 4 * 4) 4), if_neg ?_, ?_⟩
  · exact Nat.not_lt.mpr (hnext.trans hp)
  · omega

/-- No block of a sequence starts in front of the first pointer. -/
theorem mallocs_ge {pointer : ℕ} {sizes : List ℕ} (hp : pointer ≤ mallocPoolExtent)
    (h : NoWrap pointer sizes) : ∀ b ∈ mallocs pointer sizes, pointer ≤ b.1 := by
  induction sizes generalizing pointer with
  | nil =>
    intro b hb
    exact absurd hb List.not_mem_nil
  | cons size sizes ih =>
    intro b hb
    obtain ⟨hfirst, hrest⟩ := noWrap_cons.mp h
    rw [mallocs, malloc_of_lt (hfirst hp)] at hb
    by_cases hfull : mallocPoolExtent < pointer + (size / 4 * 4 + 4)
    · rw [if_pos hfull] at hb
      exact absurd hb List.not_mem_nil
    · rw [if_neg hfull] at hb
      rcases List.mem_cons.mp hb with rfl | hb
      · exact le_rfl
      · have := ih (Nat.le_of_not_lt hfull) hrest b hb
        omega

/-! ## Sequences of requests -/

theorem exclusive_nil : Exclusive [] := ⟨fun _ hb => absurd hb List.not_mem_nil, List.Pairwise.nil⟩

/-- A sequence from any pointer in the pool. -/
theorem exclusive_mallocs_iff {pointer : ℕ} {sizes : List ℕ} (hp : pointer ≤ mallocPoolExtent)
    (hs : ∀ size ∈ sizes, size < 2 ^ 32) :
    Exclusive (mallocs pointer sizes) ↔ NoWrap pointer sizes := by
  induction sizes generalizing pointer with
  | nil =>
    refine iff_of_true exclusive_nil fun pre size hpre _ => ?_
    simp at hpre
  | cons size sizes ih =>
    have hsize := hs size List.mem_cons_self
    have hsizes : ∀ size ∈ sizes, size < 2 ^ 32 := fun s h => hs s (List.mem_cons_of_mem _ h)
    rw [noWrap_cons]
    by_cases hwrap : pointer + (size / 4 * 4 + 4) < 2 ^ 32
    · rw [mallocs, malloc_of_lt hwrap]
      by_cases hfull : mallocPoolExtent < pointer + (size / 4 * 4 + 4)
      · -- the request does not return, and no later one is made
        rw [if_pos hfull]
        refine iff_of_true exclusive_nil ⟨fun _ => hwrap, fun pre s _ hfit => ?_⟩
        omega
      · rw [if_neg hfull]
        have hnext := Nat.le_of_not_lt hfull
        constructor
        · rintro ⟨hin, hdis⟩
          refine ⟨fun _ => hwrap, (ih hnext hsizes).mp ⟨fun b hb => ?_, ?_⟩⟩
          · exact hin b (List.mem_cons_of_mem _ hb)
          · exact (List.pairwise_cons.mp hdis).2
        · rintro ⟨-, hrest⟩
          obtain ⟨hin, hdis⟩ := (ih hnext hsizes).mpr hrest
          refine ⟨fun b hb => ?_, List.pairwise_cons.mpr ⟨fun b hb => ?_, hdis⟩⟩
          · rcases List.mem_cons.mp hb with rfl | hb
            · show pointer + size ≤ mallocPoolExtent
              omega
            · exact hin b hb
          · have := mallocs_ge hnext hrest b hb
            apply disjoint_bytes
            show pointer + size ≤ b.1
            omega
    · obtain ⟨next, hrun, hout⟩ := malloc_of_ge hp hsize (Nat.le_of_not_lt hwrap)
      refine iff_of_false (fun h => ?_) fun h => hwrap (h.1 hp)
      have := h.inside (pointer, size) (by rw [mallocs, hrun]; exact List.mem_cons_self)
      exact absurd hout (Nat.not_lt.mpr this)

/-- For every sequence of requests the blocks are inside the pool and disjoint, and no pointer is
    returned that does not fit, iff no request takes the pointer past `2 ^ 32`. -/
theorem mallocs_exclusive_iff (sizes : List ℕ) (hs : ∀ size ∈ sizes, size < 2 ^ 32) :
    Exclusive (mallocs 0 sizes) ↔ NoWrap 0 sizes :=
  exclusive_mallocs_iff (Nat.zero_le _) hs

/-- The second phase asks for a node of 160 bytes and for blocks of 4096. -/
theorem mallocs_exclusive_small : Exclusive (mallocs 0 [160, 4096, 4096, 200000]) :=
  (mallocs_exclusive_iff [160, 4096, 4096, 200000] (by decide)).mpr (by
    intro pre size hpre _
    have hle : taken (pre ++ [size]) ≤ taken [160, 4096, 4096, 200000] := by
      obtain ⟨rest, hrest⟩ := hpre
      rw [← hrest]
      simp [taken]
    have : taken [160, 4096, 4096, 200000] < 2 ^ 32 := by decide
    omega)

/-- The largest request gets the start of the pool, and so does the next one. -/
theorem not_exclusive_largest : ¬ Exclusive (mallocs 0 [0xffffffff, 4]) := by
  intro h
  have := h.inside (0, 0xffffffff) (by decide)
  exact absurd this (by decide)

/-- The second phase goes on behind a request iff its block is inside the pool. -/
theorem phase2_malloc_iff (s : St) (size : ℕ) (hp : s.pool ≤ mallocPoolExtent)
    (hs : size < 2 ^ 32) :
    (∃ s', Qi.malloc mallocPoolExtent size s = some (.ok (), s')) ↔
      ∃ p next, malloc s.pool size = some (p, next) ∧ p + size ≤ mallocPoolExtent := by
  rw [malloc_apply, poolAfter]
  by_cases hwrap : s.pool + (size / 4 * 4 + 4) < 2 ^ 32
  · rw [malloc_of_lt hwrap, Nat.mod_eq_of_lt hwrap]
    by_cases hfull : mallocPoolExtent < s.pool + (size / 4 * 4 + 4)
    · simp [hfull]
    · have hin : s.pool + size ≤ mallocPoolExtent := by omega
      rw [if_neg hfull, if_neg hfull, if_neg (Nat.not_le.mpr hwrap)]
      exact iff_of_true ⟨_, rfl⟩ ⟨_, _, rfl, hin⟩
  · obtain ⟨next, hrun, hout⟩ := malloc_of_ge hp hs (Nat.le_of_not_lt hwrap)
    have hback : ¬ mallocPoolExtent < (s.pool + (size / 4 * 4 + 4)) % 2 ^ 32 := by omega
    rw [if_neg hback, if_pos (Nat.le_of_not_lt hwrap), hrun]
    simpa using hout

end SmartQ.Qi.Malloc

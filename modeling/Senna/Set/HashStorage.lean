/-
# The memory of a hash set

`Storage pool used free` says that the entries in use and the free list share out the places
that were carved from the chunks so far, and that the place to be carved next is clear. It
bounds the number of entries: a chunk of `2^32` bytes is never allocated.
-/

import Senna.Set.Hash

namespace Senna.Set

/-- The free list from `p` on consists of the places `L`. -/
def FreeList (cells : Addr → Content) : Option Addr → List Addr → Prop
  | p, [] => p = none
  | p, a :: L => p = some a ∧ ∃ next, cells a = .link next ∧ FreeList cells next L

/-- The free list depends on the memory of its places only. -/
theorem FreeList.congr {cells cells' : Addr → Content} {p : Option Addr} {L : List Addr}
    (h : FreeList cells p L) (hcells : ∀ a ∈ L, cells' a = cells a) : FreeList cells' p L := by
  induction L generalizing p with
  | nil => exact h
  | cons a L ih =>
      obtain ⟨hp, next, hlink, hrest⟩ := h
      refine ⟨hp, next, ?_, ih hrest fun b hb => hcells b (List.mem_cons_of_mem _ hb)⟩
      rw [hcells a List.mem_cons_self, hlink]

namespace Pool

variable {pool : Pool}

/-- The number of the next entry to be carved; array mode uses `currEntry` otherwise. -/
def boundary (pool : Pool) : Nat := if pool.arrayp then 0 else pool.currEntry

/-- A place that was carved from a chunk, or belongs to the array. -/
def Carved (pool : Pool) (a : Addr) : Prop :=
  a.chunk < pool.currChunk ∨ (a.chunk = pool.currChunk ∧ a.entry < pool.boundary) ∨
    a.chunk = senSetMaxChunk

/-- The next chunk to be allocated has a size that fits into a word. -/
def Fits (pool : Pool) : Prop :=
  pool.garbages = none → pool.chunks pool.currChunk = none →
    pool.entrySize * (256 * 2 ^ pool.currChunk) < 2 ^ 32

/-- The places in use and the free list; `arr` of them belong to the array. -/
structure Storage (pool : Pool) (used free : List Addr) (arr : Nat) : Prop where
  entrySize_ge : 8 ≤ pool.entrySize
  chunk_le : pool.currChunk ≤ 21
  chunks : ∀ c ≤ 21, ∀ size, pool.chunks c = some size →
    size = pool.entrySize * (256 * 2 ^ c) ∧ size < 2 ^ 32
  later : ∀ c, pool.currChunk < c → c ≤ 21 → pool.chunks c = none
  boundary_lt : pool.boundary < 256 * 2 ^ pool.currChunk
  started : 0 < pool.boundary → pool.chunks pool.currChunk ≠ none
  fresh : pool.chunks pool.currChunk ≠ none → ∀ i, pool.boundary ≤ i →
    pool.cells ⟨pool.currChunk, i⟩ = .entry pool.zeroEntry
  nodup : (used ++ free).Nodup
  place : ∀ a ∈ used ++ free, pool.Carved a
  freeList : FreeList pool.cells pool.garbages free
  balance : used.length + free.length = 256 * (2 ^ pool.currChunk - 1) + pool.boundary + arr
  arr_lt : arr * pool.entrySize < 2 ^ 32

namespace Storage

variable {used used' free : List Addr} {arr : Nat}

/-- The order in which the places are listed does not matter. -/
theorem perm (h : Storage pool used free arr) (hperm : used.Perm used') :
    Storage pool used' free arr :=
  { h with
    nodup := (hperm.append_right free).nodup_iff.mp h.nodup
    place := fun a ha => h.place a ((hperm.append_right free).mem_iff.mpr ha)
    balance := hperm.length_eq ▸ h.balance }

/-- A chunk that is allocated is one of the first 21. -/
theorem chunk_lt (h : Storage pool used free arr) {c : Nat} (hc : c ≤ 21)
    (halloc : pool.chunks c ≠ none) : c ≤ 20 := by
  obtain ⟨size, hsize⟩ := Option.ne_none_iff_exists'.mp halloc
  obtain ⟨rfl, hlt⟩ := h.chunks c hc size hsize
  by_contra hge
  obtain rfl : c = 21 := by omega
  have hmul := Nat.mul_le_mul_right (256 * 2 ^ 21) h.entrySize_ge
  omega

/-- There are fewer than `2^30` entries. -/
theorem length_lt (h : Storage pool used free arr) : used.length < 2 ^ 30 := by
  have hbalance := h.balance
  have hboundary := h.boundary_lt
  have harr : arr < 2 ^ 29 := by
    have hmul := Nat.mul_le_mul_left arr h.entrySize_ge
    have hlt := h.arr_lt
    omega
  have hpow : 2 ^ pool.currChunk ≤ 2 ^ 21 := Nat.pow_le_pow_right (by decide) h.chunk_le
  by_cases hzero : pool.boundary = 0
  · omega
  · have hchunk := h.chunk_lt h.chunk_le (h.started (Nat.pos_of_ne_zero hzero))
    have hpow : 2 ^ pool.currChunk ≤ 2 ^ 20 := Nat.pow_le_pow_right (by decide) hchunk
    omega

/-- Writing to an entry in use. -/
theorem write (h : Storage pool used free arr) {a : Addr} (ha : a ∈ used) (c : Content) :
    Storage { pool with cells := Function.update pool.cells a c } used free arr := by
  have hplace := h.place a (List.mem_append_left _ ha)
  refine { h with fresh := fun halloc i hi => ?_, freeList := h.freeList.congr fun b hb => ?_ }
  · show Function.update pool.cells a c ⟨pool.currChunk, i⟩ = .entry pool.zeroEntry
    rw [Function.update_of_ne, h.fresh halloc i hi]
    rintro rfl
    have hi : pool.boundary ≤ i := hi
    have hchunk := h.chunk_le
    rcases hplace with hlt | ⟨-, hlt⟩ | hmax
    · exact lt_irrefl _ hlt
    · exact absurd hlt (not_lt.mpr hi)
    · have hmax : pool.currChunk = 22 := hmax
      omega
  · apply Function.update_of_ne
    rintro rfl
    exact (List.nodup_append.mp h.nodup).2.2 b ha b hb rfl

/-- An entry in use goes to the free list. -/
theorem release {a : Addr} (h : Storage pool (a :: used) free arr) :
    Storage { pool with
      cells := Function.update pool.cells a (.link pool.garbages)
      garbages := some a } used (a :: free) arr := by
  have hw := h.write List.mem_cons_self (.link pool.garbages)
  have hperm : (used ++ a :: free).Perm (a :: used ++ free) := List.perm_middle
  refine { hw with
    nodup := hperm.nodup_iff.mpr h.nodup
    place := fun b hb => hw.place b (hperm.mem_iff.mp hb)
    freeList := ⟨rfl, pool.garbages, Function.update_self _ _ _, hw.freeList⟩
    balance := ?_ }
  have hbalance := h.balance
  rw [List.length_cons] at hbalance
  show used.length + (free.length + 1) = 256 * (2 ^ pool.currChunk - 1) + pool.boundary + arr
  omega

/-- An entry of the free list is taken into use. -/
theorem recycle {a : Addr} (h : Storage pool used (a :: free) arr) {next : Option Addr}
    (hnext : FreeList pool.cells next free) (c : Content) :
    Storage { pool with
      garbages := next
      cells := Function.update pool.cells a c } (a :: used) free arr := by
  have hperm : (used ++ a :: free).Perm (a :: used ++ free) := List.perm_middle
  have hmoved : Storage { pool with garbages := next } (a :: used) free arr := by
    refine { h with
      nodup := hperm.nodup_iff.mp h.nodup
      place := fun b hb => h.place b (hperm.mem_iff.mpr hb)
      freeList := hnext
      balance := ?_ }
    have hbalance := h.balance
    rw [List.length_cons] at hbalance
    show used.length + 1 + free.length = 256 * (2 ^ pool.currChunk - 1) + pool.boundary + arr
    omega
  exact hmoved.write List.mem_cons_self c

/-- No entry lies in a chunk that is not allocated. -/
theorem chunk_ne (h : Storage pool used free arr) (hnone : pool.chunks pool.currChunk = none)
    {a : Addr} (ha : a ∈ used ++ free) : a.chunk ≠ pool.currChunk := by
  have hzero : pool.boundary = 0 := by
    by_contra hne
    exact h.started (Nat.pos_of_ne_zero hne) hnone
  have hchunk := h.chunk_le
  rintro heq
  rcases h.place a ha with hlt | ⟨-, hlt⟩ | hmax
  · omega
  · omega
  · have hmax : a.chunk = 22 := hmax
    omega

/-- The chunk for the next entries is allocated. -/
theorem calloc (h : Storage pool used free arr) (hnone : pool.chunks pool.currChunk = none)
    (hfits : pool.entrySize * (256 * 2 ^ pool.currChunk) < 2 ^ 32) :
    Storage (pool.calloc pool.currChunk (pool.entrySize * (256 * 2 ^ pool.currChunk))) used free
      arr := by
  have hcells {a : Addr} (ha : a ∈ used ++ free) :
      (pool.calloc pool.currChunk (pool.entrySize * (256 * 2 ^ pool.currChunk))).cells a =
        pool.cells a := if_neg (h.chunk_ne hnone ha)
  refine { h with
    chunks := fun c hc size hsize => ?_
    later := fun c hlt hc => ?_
    started := fun _ => ?_
    fresh := fun _ i _ => if_pos rfl
    freeList := h.freeList.congr fun b hb => hcells (List.mem_append_right _ hb) }
  · have hsize : Function.update pool.chunks pool.currChunk
        (some (pool.entrySize * (256 * 2 ^ pool.currChunk))) c = some size := hsize
    by_cases hcc : c = pool.currChunk
    · subst hcc
      rw [Function.update_self] at hsize
      obtain rfl := Option.some.inj hsize
      exact ⟨rfl, hfits⟩
    · rw [Function.update_of_ne hcc] at hsize
      exact h.chunks c hc size hsize
  · have hlt : pool.currChunk < c := hlt
    show Function.update pool.chunks pool.currChunk _ c = none
    rw [Function.update_of_ne hlt.ne']
    exact h.later c hlt hc
  · show Function.update pool.chunks pool.currChunk _ pool.currChunk ≠ none
    rw [Function.update_self]
    exact nofun

/-- The next entry is carved from its chunk. -/
theorem carve (h : Storage pool used [] arr) (harray : pool.arrayp = false)
    (halloc : pool.chunks pool.currChunk ≠ none) :
    Storage (if 256 <<< pool.currChunk % 2 ^ 32 ≤ pool.currEntry + 1 then
        { pool with currChunk := pool.currChunk + 1, currEntry := 0 }
      else { pool with currEntry := pool.currEntry + 1 })
      (⟨pool.currChunk, pool.currEntry⟩ :: used) [] arr := by
  have hboundary : pool.boundary = pool.currEntry := by
    rw [boundary, harray]
    rfl
  have hchunk := h.chunk_lt h.chunk_le halloc
  have hlt := h.boundary_lt
  have hbalance := h.balance
  rw [hboundary] at hlt hbalance
  rw [List.length_nil, Nat.add_zero] at hbalance
  have hpow : 2 ^ pool.currChunk ≤ 2 ^ 20 := Nat.pow_le_pow_right (by decide) hchunk
  have hpos : 0 < 2 ^ pool.currChunk := Nat.two_pow_pos _
  have hshift : 256 <<< pool.currChunk % 2 ^ 32 = 256 * 2 ^ pool.currChunk := by
    rw [Nat.shiftLeft_eq, Nat.mod_eq_of_lt (by omega)]
  have hnot : (⟨pool.currChunk, pool.currEntry⟩ : Addr) ∉ used := by
    intro hmem
    rcases h.place _ (List.mem_append_left _ hmem) with hlt | ⟨-, hlt⟩ | hmax
    · exact lt_irrefl _ hlt
    · rw [hboundary] at hlt
      exact lt_irrefl _ hlt
    · have hmax : pool.currChunk = 22 := hmax
      omega
  have hnodup : ((⟨pool.currChunk, pool.currEntry⟩ : Addr) :: used ++ []).Nodup := by
    have := h.nodup
    rw [List.append_nil] at this ⊢
    exact List.nodup_cons.mpr ⟨hnot, this⟩
  have hplace {pool' : Pool} (hself : pool'.Carved ⟨pool.currChunk, pool.currEntry⟩)
      (hothers : ∀ a, pool.Carved a → pool'.Carved a) :
      ∀ a ∈ (⟨pool.currChunk, pool.currEntry⟩ : Addr) :: used ++ [], pool'.Carved a := by
    intro a ha
    rcases List.mem_cons.mp ha with rfl | hmem
    · exact hself
    · exact hothers a (h.place a hmem)
  rw [hshift]
  split_ifs with hfull
  · have hend : pool.currEntry + 1 = 256 * 2 ^ pool.currChunk := by omega
    have hzero : ({ pool with currChunk := pool.currChunk + 1, currEntry := 0 } : Pool).boundary
        = 0 := by
      rw [boundary]
      exact if_neg (by rw [harray]; decide)
    have hnone : pool.chunks (pool.currChunk + 1) = none :=
      h.later _ (Nat.lt_succ_self _) (by omega)
    refine { h with
      chunk_le := Nat.succ_le_of_lt (by omega)
      later := fun c hc => h.later c (Nat.lt_of_succ_lt hc)
      boundary_lt := ?_
      started := fun hpos => absurd hpos (by rw [hzero]; exact lt_irrefl _)
      fresh := fun hne => absurd hnone hne
      nodup := hnodup
      place := hplace (Or.inl (Nat.lt_succ_self _)) fun a ha => ?_
      balance := ?_ }
    · rw [hzero]
      exact Nat.mul_pos (by decide) (Nat.two_pow_pos _)
    · rcases ha with hlt' | ⟨heq, -⟩ | hmax
      · exact Or.inl (Nat.lt_succ_of_lt hlt')
      · exact Or.inl (heq ▸ Nat.lt_succ_self _)
      · exact Or.inr (Or.inr hmax)
    · rw [hzero]
      show used.length + 1 = 256 * (2 ^ (pool.currChunk + 1) - 1) + 0 + arr
      rw [Nat.pow_succ]
      omega
  · have hnext : ({ pool with currEntry := pool.currEntry + 1 } : Pool).boundary =
        pool.currEntry + 1 := by
      rw [boundary]
      exact if_neg (by rw [harray]; decide)
    refine { h with
      boundary_lt := ?_
      started := fun _ => halloc
      fresh := fun halloc i hi => ?_
      nodup := hnodup
      place := hplace (Or.inr (Or.inl ⟨rfl, ?_⟩)) fun a ha => ?_
      balance := ?_ }
    · rw [hnext]
      show pool.currEntry + 1 < 256 * 2 ^ pool.currChunk
      omega
    · rw [hnext] at hi
      exact h.fresh halloc i (by omega)
    · rw [hnext]
      exact Nat.lt_succ_self _
    · rcases ha with hlt' | ⟨heq, hlt'⟩ | hmax
      · exact Or.inl hlt'
      · rw [hboundary] at hlt'
        exact Or.inr (Or.inl ⟨heq, by rw [hnext]; exact Nat.lt_succ_of_lt hlt'⟩)
      · exact Or.inr (Or.inr hmax)
    · rw [hnext]
      show used.length + 1 = 256 * (2 ^ pool.currChunk - 1) + (pool.currEntry + 1) + arr
      omega

/-- **A new entry.** Unless the next chunk's size does not fit into a word, `entry_new` returns
the place of a clear entry that was not in use, and leaves the entries in use as they are. -/
theorem entryNew (h : Storage pool used free arr) (hfits : pool.Fits)
    (harray : pool.arrayp = false) :
    ∃ pool' a free', Senna.Set.entryNew pool = some (pool', a) ∧
      Storage pool' (a :: used) free' arr ∧ pool'.cells a = .entry pool.zeroEntry ∧
      a ∉ used ∧ (∀ b ∈ used, pool'.cells b = pool.cells b) ∧
      pool'.entrySize = pool.entrySize ∧ pool'.valueSize = pool.valueSize ∧
      pool'.arrayp = false ∧ free'.length = free.length - 1 := by
  have hfree := h.freeList
  unfold Senna.Set.entryNew
  cases hgarbages : pool.garbages with
  | some e =>
      obtain ⟨L, next, rfl, hlink, hnext⟩ : ∃ L next, free = e :: L ∧ pool.cells e = .link next ∧
          FreeList pool.cells next L := by
        rw [hgarbages] at hfree
        cases free with
        | nil => exact nomatch hfree
        | cons a L =>
            obtain ⟨heq, next, hlink, hnext⟩ := hfree
            obtain rfl := Option.some.inj heq
            exact ⟨L, next, rfl, hlink, hnext⟩
      have hnot : e ∉ used := fun hmem =>
        (List.nodup_append.mp h.nodup).2.2 e hmem e List.mem_cons_self rfl
      simp only [hlink]
      refine ⟨_, e, L, rfl, h.recycle hnext _, Function.update_self _ _ _, hnot, ?_, rfl, rfl,
        harray, rfl⟩
      intro b hb
      apply Function.update_of_ne
      rintro rfl
      exact hnot hb
  | none =>
      obtain rfl : free = [] := by
        cases free with
        | nil => rfl
        | cons a L =>
            rw [hgarbages] at hfree
            exact nomatch hfree.1
      have hle : pool.currChunk ≤ senSetMaxChunk := h.chunk_le.trans (by decide)
      -- the chunk is allocated first if need be
      obtain ⟨pool₁, hpool₁, h₁, halloc, hchunk, hentry, hcells, harray₁, hsizes⟩ :
          ∃ pool₁, (if (pool.chunks pool.currChunk).isNone then
              pool.calloc pool.currChunk pool.chunkSize else pool) = pool₁ ∧
            Storage pool₁ used [] arr ∧ pool₁.chunks pool₁.currChunk ≠ none ∧
            pool₁.currChunk = pool.currChunk ∧ pool₁.currEntry = pool.currEntry ∧
            (∀ b ∈ used, pool₁.cells b = pool.cells b) ∧ pool₁.arrayp = false ∧
            pool₁.entrySize = pool.entrySize ∧ pool₁.valueSize = pool.valueSize := by
        cases hchunk : pool.chunks pool.currChunk with
        | none =>
            have hsize := hfits hgarbages hchunk
            have hpow : 256 * 2 ^ pool.currChunk < 2 ^ 32 := by
              have := Nat.mul_le_mul_right (256 * 2 ^ pool.currChunk) h.entrySize_ge
              omega
            have hchunkSize : pool.chunkSize = pool.entrySize * (256 * 2 ^ pool.currChunk) := by
              rw [chunkSize, Nat.shiftLeft_eq, Nat.mod_eq_of_lt hpow, Nat.mod_eq_of_lt hsize]
            rw [hchunkSize]
            refine ⟨_, rfl, h.calloc hchunk hsize, ?_, rfl, rfl, fun b hb => if_neg ?_, harray,
              rfl, rfl⟩
            · show Function.update pool.chunks pool.currChunk _ pool.currChunk ≠ none
              rw [Function.update_self]
              exact nofun
            · exact h.chunk_ne hchunk (List.mem_append_left _ hb)
        | some size =>
            exact ⟨pool, rfl, h, by rw [hchunk]; exact nofun, rfl, rfl, fun _ _ => rfl, harray,
              rfl, rfl⟩
      obtain ⟨size, hsize⟩ := Option.ne_none_iff_exists'.mp halloc
      obtain ⟨hsizeEq, hsizeLt⟩ := h₁.chunks _ h₁.chunk_le size hsize
      have hboundary : pool₁.boundary = pool₁.currEntry := by
        rw [boundary, harray₁]
        rfl
      have hlt := h₁.boundary_lt
      rw [hboundary] at hlt
      have hinside : pool₁.entryAt pool₁.currChunk pool₁.currEntry =
          some ⟨pool₁.currChunk, pool₁.currEntry⟩ := by
        have hmul := Nat.mul_le_mul_left pool₁.entrySize (Nat.succ_le_of_lt hlt)
        rw [Nat.mul_succ] at hmul
        rw [entryAt, hsize, Option.bind_some, if_pos]
        rw [Nat.mod_eq_of_lt (by omega)]
        omega
      have hnot : (⟨pool₁.currChunk, pool₁.currEntry⟩ : Addr) ∉ used := by
        have hnodup := (h₁.carve harray₁ halloc).nodup
        rw [List.append_nil] at hnodup
        exact (List.nodup_cons.mp hnodup).1
      simp only [if_pos hle, hpool₁, hinside, Option.map_some]
      refine ⟨_, _, [], rfl, h₁.carve harray₁ halloc, ?_, hnot, fun b hb => ?_, ?_, ?_, ?_, rfl⟩
      · have hzero : pool.zeroEntry = pool₁.zeroEntry := by
          rw [zeroEntry, zeroEntry, hsizes.2]
        have hfresh := h₁.fresh halloc pool₁.currEntry hboundary.le
        rw [hzero]
        split_ifs <;> exact hfresh
      · rw [← hcells b hb]
        split_ifs <;> rfl
      · rw [← hsizes.1]
        split_ifs <;> rfl
      · rw [← hsizes.2]
        split_ifs <;> rfl
      · rw [← harray₁]
        split_ifs <;> rfl

end Storage

end Pool

end Senna.Set

import Mathlib.Tactic.Ring
import Starfish.Bitops

/-!
# Starfish.Object.SlotTable

The slot table of a cap group: an array of pointers to slots, a bitmap of the
slot ids in use, and a second bitmap of the words of the first one that are all
ones.  All functions here run with the table's `table_guard` held, so each of
them is a function of the table.

Slot ids are `int`s, and some code uses negative ones.  The arrays are therefore
functions of an integer index; outside of the array they give what lies there in
memory.
-/

namespace Starfish.Object

open Function

attribute [local simp] getBit_ite_setBit getBit_clearBit

/-! ## The code -/

def enomem : ℤ := 12

abbrev baseObjectNum : ℕ := bitsPerLong

/-- The longest array of pointers that the page allocator can give: one chunk of
the highest order, `BUDDY_MAX_ORDER - 1`. -/
def maxSlots : ℕ := 2 ^ 19 * 4096 / 8

/-- `struct slot_table`.  The pointer `0` is NULL. -/
structure SlotTable where
  slotsSize : ℕ
  slots : ℤ → ℕ
  slotsBmp : Words
  fullSlotsBmp : Words

/-- What lies around three newly allocated arrays. -/
structure Around where
  slots : ℤ → ℕ
  slotsBmp : Words
  fullSlotsBmp : Words

/-- An `int` as the `unsigned int` argument of the bit operations. -/
def toU32 (i : ℤ) : ℕ := (i % 2 ^ 32).toNat

/-- `slot_id / BITS_PER_LONG` as the same argument. -/
def wordOf (i : ℤ) : ℕ := (i % 2 ^ 64).toNat / 64 % 2 ^ 32

namespace SlotTable

/-- `slot_table_init`, when the allocations succeed. -/
def init (size : ℕ) (a : Around) : SlotTable :=
  let size := bitsToLongs size * baseObjectNum
  { slotsSize := size
    slots := fun i => if 0 ≤ i ∧ i < size then 0 else a.slots i
    slotsBmp := fun w => if w < bitsToLongs size then 0 else a.slotsBmp w
    fullSlotsBmp := fun w => if w < bitsToLongs (bitsToLongs size) then 0 else a.fullSlotsBmp w }

/-- The new arrays of `expand_slot_table`. -/
def expand (t : SlotTable) (a : Around) : SlotTable :=
  let oldSize := t.slotsSize
  let new := init (oldSize + baseObjectNum) a
  { slotsSize := oldSize + baseObjectNum
    slots := fun i => if 0 ≤ i ∧ i < oldSize then t.slots i else new.slots i
    slotsBmp := fun w => if w < bitsToLongs oldSize then t.slotsBmp w else new.slotsBmp w
    fullSlotsBmp := fun w =>
      if w < bitsToLongs (bitsToLongs oldSize) then t.fullSlotsBmp w else new.fullSlotsBmp w }

/-- `expand_slot_table`; `none` is a failed allocation. -/
def expandSlotTable (t : SlotTable) (a : Option Around) : Option SlotTable :=
  if t.slotsSize + baseObjectNum ≤ maxSlots then a.map t.expand else none

/-- One round of the search in `alloc_slot_id`; `none` is `goto expand`. -/
def search (t : SlotTable) : Option ℕ :=
  let bmpSize := t.slotsSize
  let fullBmpSize := bitsToLongs bmpSize
  let emptyIdx := findNextZeroBit t.fullSlotsBmp fullBmpSize 0
  if emptyIdx ≥ fullBmpSize then none
  else
    let emptyIdx := findNextZeroBit t.slotsBmp bmpSize (emptyIdx * bitsPerLong)
    if emptyIdx ≥ bmpSize then none else some emptyIdx

/-- The end of `alloc_slot_id`. -/
def take (t : SlotTable) (idx : ℕ) : SlotTable :=
  let bmp := setBit idx t.slotsBmp
  { t with
    slotsBmp := bmp
    fullSlotsBmp :=
      if bmp (idx / bitsPerLong) = ones then setBit (idx / bitsPerLong) t.fullSlotsBmp
      else t.fullSlotsBmp }

/-- `alloc_slot_id`, with the outcomes of the coming allocations for an
expansion; there are no more of them when the list is used up. -/
def allocSlotId : List (Option Around) → SlotTable → ℤ × SlotTable
  | [], t =>
    match t.search with
    | some idx => (idx, t.take idx)
    | none => (-enomem, t)
  | a :: as, t =>
    match t.search with
    | some idx => (idx, t.take idx)
    | none =>
      match t.expandSlotTable a with
      | none => (-enomem, t)
      | some t => allocSlotId as t

/-- `free_slot_id`. -/
def freeSlotId (t : SlotTable) (i : ℤ) : SlotTable :=
  { t with
    slotsBmp := clearBit (toU32 i) t.slotsBmp
    fullSlotsBmp := clearBit (wordOf i) t.fullSlotsBmp
    slots := Function.update t.slots i 0 }

/-- `get_slot`. -/
def getSlot (t : SlotTable) (i : ℤ) : ℕ := if i < 0 ∨ i ≥ t.slotsSize then 0 else t.slots i

/-- The store of `install_slot`, which comes after `BUG_ON(!get_bit(..))`. -/
def setSlot (t : SlotTable) (i : ℤ) (slot : ℕ) : SlotTable :=
  { t with slots := Function.update t.slots i slot }

/-- How `cap_insert` marks a slot id as used.  It looks for a full word in the
wrong bitmap. -/
def mark (t : SlotTable) (i : ℤ) : SlotTable :=
  { t with
    slotsBmp := setBit (toU32 i) t.slotsBmp
    fullSlotsBmp :=
      if t.fullSlotsBmp (i.toNat / bitsPerLong) = ones then
        setBit (wordOf i) t.fullSlotsBmp
      else t.fullSlotsBmp }

end SlotTable

/-! ## What a table should be -/

namespace SlotTable

/-- The first bitmap marks the slot ids of the slots that are there and those in
`J`, which are reserved.  The bits of the second one that do not belong to a word
yet are clear. -/
structure Bits (t : SlotTable) (J : ℕ → Prop) : Prop where
  aligned : 64 ∣ t.slotsSize
  pos : 0 < t.slotsSize
  bound : t.slotsSize ≤ maxSlots
  bit : ∀ i < t.slotsSize, getBit i t.slotsBmp = true ↔ t.slots i ≠ 0 ∨ J i
  tail : ∀ w, t.slotsSize / 64 ≤ w → w < 64 * bitsToLongs (t.slotsSize / 64) →
    getBit w t.fullSlotsBmp = false

/-- The second bitmap marks the words of the first one that are all ones. -/
def Full (t : SlotTable) : Prop :=
  ∀ w < t.slotsSize / 64, getBit w t.fullSlotsBmp = true ↔ t.slotsBmp w = ones

/-- `t'` has the slots of `t`, under the same ids, and possibly more room. -/
structure Grew (t t' : SlotTable) : Prop where
  size : t.slotsSize ≤ t'.slotsSize
  slot : ∀ i, t'.getSlot i = t.getSlot i

end SlotTable

/-! ## Indices -/

theorem toU32_of_lt (h : i < maxSlots) : toU32 i = i := by
  unfold maxSlots at h
  unfold toU32
  omega

theorem wordOf_of_lt (h : i < maxSlots) : wordOf i = i / 64 := by
  unfold maxSlots at h
  unfold wordOf
  omega

namespace SlotTable

variable {t t' : SlotTable} {J : ℕ → Prop} {i idx : ℕ}

theorem getSlot_of_lt (h : i < t.slotsSize) : t.getSlot i = t.slots i := by
  rw [getSlot, if_neg (by omega)]

theorem getSlot_of_ge (h : t.slotsSize ≤ i) : t.getSlot i = 0 := by
  rw [getSlot, if_pos (by omega)]

theorem getSlot_neg {i : ℤ} (h : i < 0) : t.getSlot i = 0 := by
  rw [getSlot, if_pos (by omega)]

/-- A slot id with a slot is in the table. -/
theorem lt_of_getSlot {i : ℤ} (h : t.getSlot i ≠ 0) : ∃ j : ℕ, i = j ∧ j < t.slotsSize := by
  unfold getSlot at h
  split at h
  · exact absurd rfl h
  · exact ⟨i.toNat, by omega, by omega⟩

theorem getSlot_freeSlotId {i j : ℤ} :
    (t.freeSlotId i).getSlot j = if j = i then 0 else t.getSlot j := by
  unfold getSlot freeSlotId
  by_cases h : j = i
  · subst h
    simp
  · simp [h]

theorem getSlot_setSlot {i j : ℤ} (h0 : 0 ≤ i) (hi : i < t.slotsSize) :
    (t.setSlot i slot).getSlot j = if j = i then slot else t.getSlot j := by
  unfold getSlot setSlot
  by_cases h : j = i
  · subst h
    have hin : ¬ (j < 0 ∨ (t.slotsSize : ℤ) ≤ j) := by omega
    simp [hin]
  · simp [h]

theorem bitsToLongs_size (h : 64 ∣ t.slotsSize) : bitsToLongs t.slotsSize = t.slotsSize / 64 := by
  unfold bitsToLongs
  omega

/-! ## `alloc_slot_id` -/

theorem Bits.words_pos (h : t.Bits J) : 0 < bitsToLongs t.slotsSize := by
  have hpos := h.pos
  unfold bitsToLongs
  omega

/-- What the search finds: the first clear bit of the second bitmap leads to a
slot id that is not marked. -/
theorem search_some (h : t.Bits J) (hs : t.search = some idx) :
    idx < t.slotsSize ∧ getBit idx t.slotsBmp = false ∧
      ∃ w, w * 64 ≤ idx ∧ (∀ v < w, getBit v t.fullSlotsBmp = true) ∧
        ∀ i, w * 64 ≤ i → i < idx → getBit i t.slotsBmp = true := by
  obtain ⟨hw, -⟩ := findNextZeroBit_spec t.fullSlotsBmp 0 h.words_pos
  by_cases hfull : findNextZeroBit t.fullSlotsBmp (bitsToLongs t.slotsSize) 0 ≥
      bitsToLongs t.slotsSize
  · simp [search, hfull] at hs
  · obtain ⟨hi, hfound⟩ := findNextZeroBit_spec t.slotsBmp
      (findNextZeroBit t.fullSlotsBmp (bitsToLongs t.slotsSize) 0 * bitsPerLong) h.pos
    obtain heq | ⟨hle, hlt, hbit⟩ := hfound
    · simp [search, heq] at hs
    · obtain rfl : _ = idx := by simpa [search, hfull, Nat.not_le.mpr hlt] using hs
      exact ⟨hlt, by simpa using hbit, _, hle, fun v hv => hw v (Nat.zero_le v) hv, hi⟩

/-- When the search gives up: all words are marked as full, or the slot ids from
the first word on that is not are all marked. -/
theorem search_none (h : t.Bits J) (hs : t.search = none) :
    (∀ v < t.slotsSize / 64, getBit v t.fullSlotsBmp = true) ∨
      ∃ w < t.slotsSize / 64, getBit w t.fullSlotsBmp = false ∧
        ∀ i, w * 64 ≤ i → i < t.slotsSize → getBit i t.slotsBmp = true := by
  obtain ⟨hw, hword⟩ := findNextZeroBit_spec t.fullSlotsBmp 0 h.words_pos
  have hsize := bitsToLongs_size h.aligned
  obtain heq | ⟨-, hlt, hclear⟩ := hword
  · exact .inl fun v hv => hw v (Nat.zero_le v) (by omega)
  · obtain ⟨hi, hfound⟩ := findNextZeroBit_spec t.slotsBmp
      (findNextZeroBit t.fullSlotsBmp (bitsToLongs t.slotsSize) 0 * bitsPerLong) h.pos
    obtain heq | ⟨-, hr, -⟩ := hfound
    · rw [heq] at hi
      exact .inr ⟨_, hsize ▸ hlt, by simpa using hclear, hi⟩
    · simp [search, Nat.not_le.mpr hlt, Nat.not_le.mpr hr] at hs

/-! ### A new table -/

section init

theorem getSlot_init (i : ℤ) : (init size a).getSlot i = 0 := by
  unfold getSlot init
  simp only
  split
  · rfl
  · rw [if_pos (by omega)]

theorem getBit_slotsBmp_init (h : i < (init size a).slotsSize) :
    getBit i (init size a).slotsBmp = false := by
  have hw : i / 64 < bitsToLongs (init size a).slotsSize := by
    unfold bitsToLongs
    omega
  simp only [getBit, init] at hw ⊢
  simp [hw]

theorem getBit_fullSlotsBmp_init (h : w < 64 * bitsToLongs ((init size a).slotsSize / 64)) :
    getBit w (init size a).fullSlotsBmp = false := by
  have hsize : bitsToLongs (init size a).slotsSize = (init size a).slotsSize / 64 := by
    simp only [init, baseObjectNum, bitsPerLong, bitsToLongs]
    omega
  have hw : w / 64 < bitsToLongs (bitsToLongs (init size a).slotsSize) := by
    rw [hsize]
    omega
  simp only [getBit, init] at hw ⊢
  simp [hw]

theorem bits_init (h0 : 0 < size) (hb : bitsToLongs size * 64 ≤ maxSlots) :
    (init size a).Bits fun _ => False where
  aligned := ⟨bitsToLongs size, Nat.mul_comm _ _⟩
  pos := by
    have hpos : 0 < bitsToLongs size := by
      unfold bitsToLongs
      omega
    exact Nat.mul_pos hpos (by decide)
  bound := hb
  bit := by
    intro i hi
    rw [getBit_slotsBmp_init hi, ← getSlot_of_lt hi, getSlot_init]
    simp
  tail := fun w _ hlt => getBit_fullSlotsBmp_init hlt

theorem full_init : (init size a).Full := by
  intro w hw
  have hclear : getBit (64 * w) (init size a).slotsBmp = false := getBit_slotsBmp_init (by omega)
  rw [getBit_fullSlotsBmp_init (by unfold bitsToLongs; omega), eq_ones_iff]
  simp only [Bool.false_eq_true, false_iff, not_forall]
  exact ⟨64 * w, by omega, by simp [hclear]⟩

end init

/-! ### Expansion -/

section expand

@[simp] theorem slotsSize_expand : (t.expand a).slotsSize = t.slotsSize + 64 := rfl

theorem slots_expand_of_lt (h : i < t.slotsSize) : (t.expand a).slots i = t.slots i := by
  have hi : (0 : ℤ) ≤ i ∧ (i : ℤ) < t.slotsSize := by omega
  simp [expand, hi]

theorem slots_expand_of_ge (ha : 64 ∣ t.slotsSize) (h : t.slotsSize ≤ i) (hi : i < t.slotsSize + 64) :
    (t.expand a).slots i = 0 := by
  have hnew : bitsToLongs (t.slotsSize + 64) * 64 = t.slotsSize + 64 := by
    unfold bitsToLongs
    omega
  simp only [expand, init, baseObjectNum, bitsPerLong, hnew]
  rw [if_neg (by omega), if_pos (by omega)]

theorem getBit_slotsBmp_expand (ha : 64 ∣ t.slotsSize) (h : i < t.slotsSize + 64) :
    getBit i (t.expand a).slotsBmp = (decide (i < t.slotsSize) && getBit i t.slotsBmp) := by
  have hold : bitsToLongs t.slotsSize = t.slotsSize / 64 := bitsToLongs_size ha
  have hnew : bitsToLongs (bitsToLongs (t.slotsSize + 64) * 64) = t.slotsSize / 64 + 1 := by
    unfold bitsToLongs
    omega
  simp only [getBit, expand, init, baseObjectNum, bitsPerLong, hold, hnew]
  by_cases hlt : i < t.slotsSize
  · have hw : i / 64 < t.slotsSize / 64 := by omega
    simp [hlt, hw]
  · have hw : ¬ i / 64 < t.slotsSize / 64 := by omega
    have hw' : i / 64 < t.slotsSize / 64 + 1 := by omega
    simp [hlt, hw, hw']

theorem getBit_fullSlotsBmp_expand (h : t.Bits J)
    (hw : w < 64 * bitsToLongs (t.slotsSize / 64 + 1)) :
    getBit w (t.expand a).fullSlotsBmp =
      (decide (w < t.slotsSize / 64) && getBit w t.fullSlotsBmp) := by
  have hold : bitsToLongs t.slotsSize = t.slotsSize / 64 := bitsToLongs_size h.aligned
  have hnew : bitsToLongs (bitsToLongs (t.slotsSize + 64) * 64) = t.slotsSize / 64 + 1 := by
    have ha := h.aligned
    unfold bitsToLongs
    omega
  have htail := h.tail w
  simp only [getBit, expand, init, baseObjectNum, bitsPerLong, hold, hnew]
  by_cases hlow : w / 64 < bitsToLongs (t.slotsSize / 64)
  · by_cases hlt : w < t.slotsSize / 64
    · simp [hlow, hlt]
    · have hz : getBit w t.fullSlotsBmp = false := htail (by omega) (by omega)
      rw [getBit] at hz
      simp [hlow, hlt, hz]
  · have hhigh : w / 64 < bitsToLongs (t.slotsSize / 64 + 1) := by omega
    have hlt : ¬ w < t.slotsSize / 64 := by
      unfold bitsToLongs at hlow
      omega
    simp [hlow, hhigh, hlt]

theorem Bits.expand (h : t.Bits J) (hJ : ∀ i, J i → i < t.slotsSize)
    (hb : t.slotsSize + 64 ≤ maxSlots) : (t.expand a).Bits J where
  aligned := by
    have ha := h.aligned
    rw [slotsSize_expand]
    omega
  pos := by rw [slotsSize_expand]; omega
  bound := hb
  bit := by
    intro i hi
    rw [slotsSize_expand] at hi
    rw [getBit_slotsBmp_expand h.aligned hi]
    by_cases hlt : i < t.slotsSize
    · simpa [hlt, slots_expand_of_lt hlt] using h.bit i hlt
    · have hJi : ¬ J i := fun hj => hlt (hJ i hj)
      simp [hlt, slots_expand_of_ge h.aligned (by omega) hi, hJi]
  tail := by
    intro w hge hlt
    have hdiv : (t.slotsSize + 64) / 64 = t.slotsSize / 64 + 1 := by omega
    rw [slotsSize_expand, hdiv] at hge hlt
    have hnot : ¬ w < t.slotsSize / 64 := by omega
    simp [getBit_fullSlotsBmp_expand h hlt, hnot]

theorem Full.expand (h : t.Full) (hbits : t.Bits J) : (t.expand a).Full := by
  intro w hw
  have hdiv : (t.slotsSize + 64) / 64 = t.slotsSize / 64 + 1 := by omega
  rw [slotsSize_expand, hdiv] at hw
  have hroom : w < 64 * bitsToLongs (t.slotsSize / 64 + 1) := by
    unfold bitsToLongs
    omega
  have ha := hbits.aligned
  rw [getBit_fullSlotsBmp_expand hbits hroom, eq_ones_iff]
  by_cases hlt : w < t.slotsSize / 64
  · have hold := h w hlt
    rw [eq_ones_iff] at hold
    simp only [hlt, decide_true, Bool.true_and, hold]
    refine forall_congr' fun i => imp_congr_right fun hi => ?_
    have hi' : i < t.slotsSize := by omega
    rw [getBit_slotsBmp_expand ha (by omega)]
    simp [hi']
  · have hbit := getBit_slotsBmp_expand (a := a) ha (i := t.slotsSize) (by omega)
    simp only [hlt, decide_false, Bool.false_and, Bool.false_eq_true, false_iff, not_forall]
    exact ⟨t.slotsSize, by omega, by simp [hbit]⟩

theorem grew_expand (ha : 64 ∣ t.slotsSize) : t.Grew (t.expand a) where
  size := by rw [slotsSize_expand]; omega
  slot := by
    intro i
    by_cases hneg : i < 0
    · rw [getSlot_neg hneg, getSlot_neg hneg]
    · obtain ⟨j, rfl⟩ : ∃ j : ℕ, i = j := ⟨i.toNat, by omega⟩
      by_cases hlt : j < t.slotsSize
      · have hlt' : j < (t.expand a).slotsSize := by rw [slotsSize_expand]; omega
        rw [getSlot_of_lt hlt', getSlot_of_lt hlt, slots_expand_of_lt hlt]
      · rw [getSlot_of_ge (t := t) (by omega)]
        by_cases hnew : j < t.slotsSize + 64
        · rw [getSlot_of_lt (by rw [slotsSize_expand]; omega),
            slots_expand_of_ge ha (by omega) hnew]
        · exact getSlot_of_ge (by rw [slotsSize_expand]; omega)

theorem search_expand (h : t.Bits J) (hJ : ∀ i, J i → i < t.slotsSize)
    (hb : t.slotsSize + 64 ≤ maxSlots) : ∃ idx, (t.expand a).search = some idx := by
  have ha := h.aligned
  rw [← Option.isSome_iff_exists, Option.isSome_iff_ne_none]
  intro hnone
  have hdiv : (t.slotsSize + 64) / 64 = t.slotsSize / 64 + 1 := by omega
  obtain hall | ⟨w, hw, -, hset⟩ := search_none (h.expand (a := a) hJ hb) hnone
  · have hbit := hall (t.slotsSize / 64) (by rw [slotsSize_expand]; omega)
    rw [getBit_fullSlotsBmp_expand h (by unfold bitsToLongs; omega)] at hbit
    simp at hbit
  · rw [slotsSize_expand, hdiv] at hw
    have hbit := hset t.slotsSize (by omega) (by rw [slotsSize_expand]; omega)
    rw [getBit_slotsBmp_expand ha (by omega)] at hbit
    simp at hbit

end expand

/-! ### Marking and unmarking -/

theorem Bits.congr {J' : ℕ → Prop} (h : t.Bits J) (hJ : ∀ i, J i ↔ J' i) : t.Bits J' := by
  have heq : J = J' := funext fun i => propext (hJ i)
  exact heq ▸ h

theorem Bits.set (h : t.Bits J) (hi : idx < t.slotsSize) (b : Prop) [Decidable b] :
    Bits { t with
      slotsBmp := setBit idx t.slotsBmp
      fullSlotsBmp := if b then setBit (idx / 64) t.fullSlotsBmp else t.fullSlotsBmp }
      fun i => i = idx ∨ J i where
  aligned := h.aligned
  pos := h.pos
  bound := h.bound
  bit := by
    intro i hlt
    have hold := h.bit i hlt
    simp only [getBit_setBit, Bool.or_eq_true, decide_eq_true_eq, hold]
    tauto
  tail := by
    intro w hge hlt
    have hw : w ≠ idx / 64 := by
      have := h.aligned
      have hge' : t.slotsSize / 64 ≤ w := hge
      omega
    have hold := h.tail w hge hlt
    simp [hw, hold]

theorem Bits.take (h : t.Bits J) (hi : idx < t.slotsSize) :
    (t.take idx).Bits fun i => i = idx ∨ J i := h.set hi _

theorem Full.take (h : t.Full) (hclear : getBit idx t.slotsBmp = false) : (t.take idx).Full := by
  intro w hw
  have hold := h w hw
  by_cases hword : w = idx / 64
  · subst hword
    -- the word was not all ones before
    have hnot : getBit (idx / 64) t.fullSlotsBmp = false := by
      rw [← Bool.not_eq_true, hold, eq_ones_iff]
      intro hall
      simp [hall idx rfl] at hclear
    simp [SlotTable.take, bitsPerLong, hnot]
  · have hsame : setBit idx t.slotsBmp w = t.slotsBmp w := setBit_of_ne _ _ hword
    simp [SlotTable.take, bitsPerLong, hsame, hword, hold]

attribute [local simp] SlotTable.freeSlotId

theorem Bits.freeSlotId (h : t.Bits J) (hi : idx < t.slotsSize) :
    (t.freeSlotId idx).Bits fun i => i ≠ idx ∧ J i where
  aligned := h.aligned
  pos := h.pos
  bound := h.bound
  bit := by
    intro i hlt
    have hb := h.bound
    have hold := h.bit i hlt
    simp only [SlotTable.freeSlotId, toU32_of_lt (Nat.lt_of_lt_of_le hi hb), getBit_clearBit]
    by_cases heq : i = idx
    · simp [heq]
    · have hne : (i : ℤ) ≠ idx := by omega
      simp [heq, hold]
  tail := by
    intro w hge hlt
    have hold := h.tail w hge hlt
    simp [hold]

theorem Full.freeSlotId (h : t.Full) (hbits : t.Bits J) (hi : idx < t.slotsSize) :
    (t.freeSlotId idx).Full := by
  intro w hw
  have hold := h w hw
  have hb := Nat.lt_of_lt_of_le hi hbits.bound
  simp only [SlotTable.freeSlotId, toU32_of_lt hb, wordOf_of_lt hb, getBit_clearBit]
  by_cases hword : w = idx / 64
  · subst hword
    simp only [decide_true, Bool.not_true, Bool.false_and, Bool.false_eq_true, false_iff,
      eq_ones_iff, not_forall]
    exact ⟨idx, rfl, by simp⟩
  · have hsame : clearBit idx t.slotsBmp w = t.slotsBmp w := clearBit_of_ne _ _ hword
    simp [hword, hsame, hold]

theorem Bits.setSlot (h : t.Bits J) (hslot : slot ≠ 0)
    (hset : getBit idx t.slotsBmp = true) : (t.setSlot idx slot).Bits fun i => i ≠ idx ∧ J i where
  aligned := h.aligned
  pos := h.pos
  bound := h.bound
  bit := by
    intro i hlt
    have hold := h.bit i hlt
    simp only [SlotTable.setSlot]
    by_cases heq : i = idx
    · subst heq
      simp [hslot, hset]
    · have hne : (i : ℤ) ≠ idx := by omega
      simp [heq, hold]
  tail := h.tail

theorem Bits.mark (h : t.Bits J) (hi : idx < t.slotsSize) :
    (t.mark idx).Bits fun i => i = idx ∨ J i := by
  have hb := Nat.lt_of_lt_of_le hi h.bound
  rw [SlotTable.mark, toU32_of_lt hb, wordOf_of_lt hb]
  exact h.set hi _

/-- What `cap_insert` finds when it looks for a full word, and what it should
find. -/
def MarksRight (t : SlotTable) (idx : ℕ) : Prop :=
  (t.fullSlotsBmp (idx / 64) = ones ∨ getBit (idx / 64) t.fullSlotsBmp = true) ↔
    setBit idx t.slotsBmp (idx / 64) = ones

/-- `cap_insert` keeps the second bitmap right if and only if its test gives the
right answer. -/
theorem full_mark_iff (h : t.Full) (hbits : t.Bits J) (hi : idx < t.slotsSize) :
    (t.mark idx).Full ↔ t.MarksRight idx := by
  have hb := Nat.lt_of_lt_of_le hi hbits.bound
  have ha := hbits.aligned
  have hself : getBit (idx / 64) (t.mark idx).fullSlotsBmp = true ↔
      (t.fullSlotsBmp (idx / 64) = ones ∨ getBit (idx / 64) t.fullSlotsBmp = true) := by
    simp [SlotTable.mark, wordOf_of_lt hb, bitsPerLong]
  constructor
  · intro hfull
    have hword := hfull (idx / 64) (show idx / 64 < t.slotsSize / 64 by omega)
    rw [hself] at hword
    simpa only [MarksRight, SlotTable.mark, toU32_of_lt hb] using hword
  · intro hright w hw
    by_cases hword : w = idx / 64
    · subst hword
      rw [hself]
      simpa only [MarksRight, SlotTable.mark, toU32_of_lt hb] using hright
    · have hold := h w hw
      have hsame : setBit idx t.slotsBmp w = t.slotsBmp w := setBit_of_ne _ _ hword
      simp [SlotTable.mark, wordOf_of_lt hb, toU32_of_lt hb, hsame, hword, hold]

/-! ### The whole of `alloc_slot_id` -/

/-- What a successful `alloc_slot_id` gives: a slot id without a slot, which is
marked now, in a table that may have grown; the smallest one, if the second
bitmap was right. -/
structure Alloc (t : SlotTable) (idx : ℕ) (t' : SlotTable) : Prop where
  lt : idx < t'.slotsSize
  free : t.getSlot idx = 0
  grew : t.Grew t'
  bits : t'.Bits (· = idx)
  full : t.Full → t'.Full
  least : t.Full → ∀ j < idx, t.getSlot j ≠ 0

section

variable (h : t.Bits fun _ => False)
include h

theorem Bits.not_marked (hi : i < t.slotsSize) : getBit i t.slotsBmp = true ↔ t.getSlot i ≠ 0 := by
  rw [getSlot_of_lt hi]
  simpa using h.bit i hi

theorem alloc_of_search (hs : t.search = some idx) : t.Alloc idx (t.take idx) := by
  obtain ⟨hlt, hclear, w, hle, hbelow, hbetween⟩ := search_some h hs
  refine ⟨hlt, ?_, ⟨Nat.le_refl _, fun _ => rfl⟩, by simpa using h.take hlt,
    fun hfull => hfull.take hclear, fun hfull j hj => ?_⟩
  · simpa [hclear] using (h.not_marked hlt).symm
  · rw [← h.not_marked (by omega)]
    by_cases hjw : w * 64 ≤ j
    · exact hbetween j hjw hj
    · -- the words before are all ones
      have ha := h.aligned
      have hword := (hfull (j / 64) (by omega)).mp (hbelow (j / 64) (by omega))
      exact (eq_ones_iff _ _).mp hword j rfl

theorem full_of_search_none (hfull : t.Full) (hs : t.search = none) :
    ∀ j < t.slotsSize, t.getSlot j ≠ 0 := by
  have ha := h.aligned
  intro j hj
  rw [← h.not_marked hj]
  have hword : t.slotsBmp (j / 64) = ones := by
    obtain hall | ⟨w, hw, hclear, hset⟩ := search_none h hs
    · exact (hfull (j / 64) (by omega)).mp (hall (j / 64) (by omega))
    · -- a word that is not marked as full has all its bits set
      have hones : t.slotsBmp w = ones :=
        (eq_ones_iff _ _).mpr fun i hi => hset i (by omega) (by omega)
      rw [(hfull w hw).mpr hones] at hclear
      simp at hclear
  exact (eq_ones_iff _ _).mp hword j rfl

omit h in
theorem expandSlotTable_some (h : t.expandSlotTable a = some t') :
    t.slotsSize + 64 ≤ maxSlots ∧ ∃ b, a = some b ∧ t.expand b = t' := by
  simpa [expandSlotTable, baseObjectNum, bitsPerLong] using h

theorem Alloc.of_expand (halloc : (t.expand a).Alloc idx t') : t.Alloc idx t' := by
  have hgrew := grew_expand (a := a) h.aligned
  refine ⟨halloc.lt, (hgrew.slot idx).symm.trans halloc.free, ⟨Nat.le_trans hgrew.size halloc.grew.size,
    fun i => (halloc.grew.slot i).trans (hgrew.slot i)⟩, halloc.bits,
    fun hfull => halloc.full (hfull.expand h), fun hfull j hj => ?_⟩
  rw [← hgrew.slot]
  exact halloc.least (hfull.expand h) j hj

/-- `alloc_slot_id` on a table whose first bitmap is right: it succeeds, or there
is nothing to find and the table cannot be expanded. -/
theorem allocSlotId_spec (as : List (Option Around)) :
    (∃ (idx : ℕ) (t' : SlotTable), allocSlotId as t = (↑idx, t') ∧ t.Alloc idx t') ∨
      (allocSlotId as t = (-enomem, t) ∧ t.search = none ∧
        ∀ a ∈ as.head?, t.expandSlotTable a = none) := by
  cases hs : t.search with
  | some idx =>
    refine .inl ⟨idx, t.take idx, ?_, alloc_of_search h hs⟩
    cases as <;> simp [allocSlotId, hs]
  | none =>
    cases as with
    | nil => exact .inr ⟨by simp [allocSlotId, hs], rfl, by simp⟩
    | cons a as =>
      cases hexp : t.expandSlotTable a with
      | none => exact .inr ⟨by simp [allocSlotId, hs, hexp], rfl, by simp [hexp]⟩
      | some u =>
        left
        obtain ⟨hb, b, rfl, rfl⟩ := expandSlotTable_some hexp
        have hbits := h.expand (a := b) (by simp) hb
        obtain ⟨idx, hidx⟩ := search_expand (a := b) h (by simp) hb
        refine ⟨idx, (t.expand b).take idx, ?_, (alloc_of_search hbits hidx).of_expand h⟩
        cases as <;> simp [allocSlotId, hs, hexp, hidx]

/-- Whether it succeeds or not, `alloc_slot_id` keeps the slots. -/
theorem grew_of_alloc (ha : allocSlotId as t = (r, t')) : t.Grew t' := by
  obtain ⟨idx, u, heq, halloc⟩ | ⟨heq, -, -⟩ := allocSlotId_spec h as
  · obtain ⟨-, rfl⟩ := Prod.mk.inj (heq.symm.trans ha)
    exact halloc.grew
  · obtain ⟨-, rfl⟩ := Prod.mk.inj (heq.symm.trans ha)
    exact ⟨Nat.le_refl _, fun _ => rfl⟩

end

end SlotTable

end Starfish.Object

/-
A drawn frame tiles its bytes.  The items kept leave gaps that become padding, so whatever a
layout holds, the boxes follow one another from the frame's low end to its top.  Which items
are kept is said of the layout alone: the first at each offset that no kept one reaches past.
-/
import Playground.Editor.StackFrames
import Playground.Library.Tiling

namespace Playground

namespace StackFrames

open Tiling WholeNumbers

/-- Every slot and element has a size. -/
structure FunctionLayout.Sized (fn : FunctionLayout) : Prop where
  slots : ∀ slot ∈ fn.slots, 0 < slot.width
  arrays : ∀ array ∈ fn.arrays, 0 < array.width

/-- Every offset and width is under 52 bits. -/
structure FunctionLayout.Bounded (fn : FunctionLayout) : Prop where
  slots : ∀ slot ∈ fn.slots, slot.offset.natAbs < 2 ^ 52 ∧ slot.width < 2 ^ 52
  arrays : ∀ array ∈ fn.arrays, array.offset.natAbs < 2 ^ 52

/-- So is every address of a row: no sum of the drawing reaches 53 bits. -/
structure FrameRow.Bounded (row : FrameRow) : Prop where
  lo : 0 ≤ row.lo
  spEntry : row.spEntry < 2 ^ 52
  record : row.record < 2 ^ 52

def boxesTile (lo hi : Int) (boxes : List StackBox) : Prop :=
  Tiles StackBox.addr StackBox.size lo hi boxes

section Arrays

variable {fn : FunctionLayout} {top : Int} {array : FrameArray}

theorem foldl_min_le (offsets : List Int) (top : Int) :
    offsets.foldl min top ≤ top ∧ ∀ o ∈ offsets, offsets.foldl min top ≤ o := by
  induction offsets generalizing top with
  | nil => exact ⟨le_rfl, fun o ho => absurd ho List.not_mem_nil⟩
  | cons o offsets ih =>
      obtain ⟨htop, hall⟩ := ih (min top o)
      rw [List.foldl_cons]
      refine ⟨htop.trans (min_le_left _ _), ?_⟩
      intro o' ho'
      rw [List.mem_cons] at ho'
      rcases ho' with rfl | ho'
      · exact htop.trans (min_le_right _ _)
      · exact hall o' ho'

theorem le_foldl_min {offsets : List Int} {low : Int} (hall : ∀ o ∈ offsets, low ≤ o)
    {top : Int} (htop : low ≤ top) : low ≤ offsets.foldl min top := by
  induction offsets generalizing top with
  | nil => exact htop
  | cons o offsets ih =>
      exact ih (fun o' ho' => hall o' (List.mem_cons_of_mem _ ho'))
        (le_min htop (hall o List.mem_cons_self))

theorem arrayEnd_le (fn : FunctionLayout) (top : Int) (array : FrameArray) :
    arrayEnd fn top array ≤ top := (foldl_min_le _ top).1

theorem le_arrayEnd (fn : FunctionLayout) (top : Int) (array : FrameArray) :
    min top array.offset ≤ arrayEnd fn top array := by
  refine le_foldl_min (fun o ho => ?_) (min_le_left _ _)
  have habove := (List.mem_filter.mp ho).2
  rw [decide_eq_true_eq] at habove
  exact (min_le_right _ _).trans habove.le

/-- No name above an array starts before it ends. -/
theorem arrayEnd_le_offset {o : Int}
    (ho : o ∈ fn.slots.map FrameSlot.offset ++ fn.arrays.map FrameArray.offset)
    (habove : array.offset < o) : arrayEnd fn top array ≤ o :=
  (foldl_min_le _ top).2 o (List.mem_filter.mpr ⟨ho, by simpa using habove⟩)

/-- An item whose bytes are where they say. -/
structure Item.Exact (item : Item) : Prop where
  sized : 0 < item.width
  offset : item.offset.natAbs < 2 ^ 52
  above : (item.offset + item.width).natAbs < 2 ^ 53

theorem Item.Exact.rounded_above {item : Item} (h : item.Exact) :
    rounded (item.offset + item.width) = item.offset + item.width := rounded_of_lt h.above

section Exact

variable (hpos : 0 < array.width) (hoffset : array.offset.natAbs < 2 ^ 52) (hzero : 0 ≤ top)
  (htop : top < 2 ^ 52)

include hpos hoffset hzero htop

/-- How many whole elements the array's bytes hold. -/
theorem arrayCount_eq :
    arrayCount fn top array =
      (arrayEnd fn top array - array.offset).toNat / array.width.toNat := by
  have hend := arrayEnd_le fn top array
  have hlow := le_arrayEnd fn top array
  rw [arrayCount, rounded_of_lt (by omega), floorDiv_of_lt (by omega) (by omega)]

theorem arrayCount_pos_iff :
    0 < arrayCount fn top array ↔ array.offset + array.width ≤ arrayEnd fn top array := by
  rw [arrayCount_eq hpos hoffset hzero htop, Nat.div_pos_iff]
  omega

/-- The elements of an array are inside it. -/
theorem arrayCount_mul_le (hcount : 0 < arrayCount fn top array) :
    array.offset + arrayCount fn top array * array.width ≤ arrayEnd fn top array := by
  have hroom := (arrayCount_pos_iff hpos hoffset hzero htop).mp hcount
  have hmul := Nat.div_mul_le_self (arrayEnd fn top array - array.offset).toNat
    array.width.toNat
  rw [← arrayCount_eq hpos hoffset hzero htop] at hmul
  have hcast : ((arrayCount fn top array * array.width.toNat : Nat) : Int) =
      arrayCount fn top array * array.width := by
    rw [Nat.cast_mul, Int.toNat_of_nonneg hpos.le]
  omega

/-- An element inside the array starts where its index says. -/
theorem elementOffset_eq {k : Nat} (hk : k < arrayCount fn top array) :
    elementOffset array k = array.offset + k * array.width ∧ 0 ≤ k * array.width ∧
      array.offset + k * array.width + array.width ≤ arrayEnd fn top array := by
  have hinside := arrayCount_mul_le hpos hoffset hzero htop (Nat.zero_lt_of_lt hk)
  have hend := arrayEnd_le fn top array
  have hmul : ((k + 1 : Nat) : Int) * array.width ≤ arrayCount fn top array * array.width :=
    Int.mul_le_mul_of_nonneg_right (by exact_mod_cast hk) hpos.le
  have hsucc : ((k + 1 : Nat) : Int) * array.width = k * array.width + array.width := by
    push_cast
    ring
  have hnonneg : 0 ≤ (k : Int) * array.width := by positivity
  have hproduct : rounded (k * array.width) = k * array.width := rounded_of_lt (by omega)
  refine ⟨?_, hnonneg, by omega⟩
  rw [elementOffset, hproduct, rounded_of_lt (by omega)]

theorem arrayItems_spec {item : Item} (hitem : item ∈ arrayItems fn top array) :
    item.Exact ∧ item.offset + item.width ≤ arrayEnd fn top array ∧
      array.offset ≤ item.offset := by
  have hend := arrayEnd_le fn top array
  rw [arrayItems, List.mem_append, List.mem_map] at hitem
  rcases hitem with ⟨k, hk, rfl⟩ | hrest
  · rw [List.mem_range] at hk
    obtain ⟨hat, hnonneg, hfits⟩ :=
      elementOffset_eq hpos hoffset hzero htop (lt_of_lt_of_le hk (min_le_left _ _))
    have hstart : (elementItem array k).offset = array.offset + k * array.width := hat
    have hwidth : (elementItem array k).width = array.width := rfl
    exact ⟨⟨by omega, by omega, by omega⟩, by omega, by omega⟩
  · split at hrest
    · next hmany =>
        rw [List.mem_singleton] at hrest
        subst hrest
        obtain ⟨hat, hnonneg, -⟩ := elementOffset_eq hpos hoffset hzero htop hmany
        have hinside := arrayCount_mul_le hpos hoffset hzero htop (Nat.zero_lt_of_lt hmany)
        have hmax : 0 < (maxElements : Int) := by decide
        have hcount : (arrayCount fn top array : Int) ≤ arrayCount fn top array * array.width :=
          le_mul_of_one_le_right (by omega) hpos
        have hsplit : (maxElements : Int) * array.width +
            ((arrayCount fn top array : Int) - maxElements) * array.width =
            arrayCount fn top array * array.width := by ring
        have hrestpos : 0 < ((arrayCount fn top array : Int) - maxElements) * array.width :=
          mul_pos (by omega) hpos
        have hstart : (restItem array (arrayCount fn top array)).offset =
            array.offset + maxElements * array.width := hat
        have hwidth : (restItem array (arrayCount fn top array)).width =
            ((arrayCount fn top array : Int) - maxElements) * array.width := by
          have hrest : rounded (arrayCount fn top array - maxElements) =
              arrayCount fn top array - maxElements := rounded_of_lt (by omega)
          rw [restItem, hrest, rounded_of_lt (by omega)]
        exact ⟨⟨by omega, by omega, by omega⟩, by omega, by omega⟩
    · exact absurd hrest List.not_mem_nil

/-- An array with room for an element has one at its base. -/
theorem elementItem_mem
    (hroom : array.offset + array.width ≤ arrayEnd fn top array) :
    elementItem array 0 ∈ arrayItems fn top array ∧
      (elementItem array 0).offset = array.offset := by
  have hcount := (arrayCount_pos_iff hpos hoffset hzero htop).mpr hroom
  constructor
  · rw [arrayItems, List.mem_append]
    refine .inl (List.mem_map.mpr ⟨0, List.mem_range.mpr ?_, rfl⟩)
    exact lt_min hcount (by decide)
  · obtain ⟨hat, -, -⟩ := elementOffset_eq hpos hoffset hzero htop hcount
    rw [elementItem, hat]
    simp

theorem roomy_of_arrayItem {item : Item} (hitem : item ∈ arrayItems fn top array) :
    array.offset + array.width ≤ arrayEnd fn top array := by
  rw [← arrayCount_pos_iff hpos hoffset hzero htop]
  by_contra hnone
  have hzero : arrayCount fn top array = 0 := by omega
  simp [arrayItems, hzero] at hitem

end Exact

end Arrays

section Items

variable {top : Int}

/-- Items kept follow one another below the top. -/
def Spaced (top : Int) : Int → List Item → Prop
  | stop, [] => stop ≤ top
  | stop, item :: items =>
      stop ≤ item.offset ∧ item.Exact ∧ Spaced top (item.offset + item.width) items

variable {items : List Item} {stop : Int}

theorem spaced_keepItems (hexact : ∀ item ∈ items, item.Exact)
    (hstop : stop ≤ top) : Spaced top stop (keepItems top stop items) := by
  induction items generalizing stop with
  | nil => exact hstop
  | cons item items ih =>
      have hrest : ∀ item ∈ items, item.Exact := fun i hi => hexact i (List.mem_cons_of_mem _ hi)
      have hhead := hexact item List.mem_cons_self
      simp only [keepItems, hhead.rounded_above]
      split
      · exact ih hrest hstop
      · next hkept => exact ⟨by omega, hhead, ih hrest (by omega)⟩

theorem Spaced.le_top (h : Spaced top stop items) :
    stop ≤ top := by
  induction items generalizing stop with
  | nil => exact h
  | cons head items ih =>
      obtain ⟨hstop, hhead, hrest⟩ := h
      have hpos := hhead.sized
      have hle := ih hrest
      omega

/-- Of two kept items at different offsets the lower ends first. -/
theorem Spaced.apart (h : Spaced top stop items) :
    (∀ item ∈ items, stop ≤ item.offset ∧ item.offset + item.width ≤ top) ∧
      ∀ item ∈ items, ∀ item' ∈ items, item.offset < item'.offset →
        item.offset + item.width ≤ item'.offset := by
  induction items generalizing stop with
  | nil => exact ⟨fun _ h => absurd h List.not_mem_nil, fun _ h => absurd h List.not_mem_nil⟩
  | cons head items ih =>
      obtain ⟨hstop, hhead, hrest⟩ := h
      obtain ⟨hin, hapart⟩ := ih hrest
      have hpos := hhead.sized
      have htop : head.offset + head.width ≤ top := hrest.le_top
      constructor
      · intro item hitem
        rw [List.mem_cons] at hitem
        rcases hitem with rfl | hitem
        · exact ⟨hstop, htop⟩
        · have hbounds := hin item hitem
          omega
      · intro item hitem item' hitem' hlt
        rw [List.mem_cons] at hitem hitem'
        rcases hitem with rfl | hitem
        · rcases hitem' with rfl | hitem'
          · exact absurd hlt (lt_irrefl _)
          · exact (hin item' hitem').1
        · rcases hitem' with rfl | hitem'
          · have hbounds := hin item hitem
            omega
          · exact hapart item hitem item' hitem' hlt

/-- What an offset is named: the first item there that ends inside the frame. -/
def placeAt (items : List Item) (top o : Int) : Option Item :=
  items.find? fun item => decide (item.offset = o ∧ item.offset + item.width ≤ top)

/-- An offset past the record is free unless a lower place, itself free, reaches past it. -/
def Free (items : List Item) (top o : Int) : Prop :=
  16 ≤ o ∧ ∀ item, placeAt items top item.offset = some item → 16 ≤ item.offset →
    item.offset < o → o < item.offset + item.width → ¬ Free items top item.offset
termination_by (o - 15).toNat

/-- The items a frame draws: each the first at its offset, where the offset is free. -/
def Drawn (items : List Item) (top : Int) (item : Item) : Prop :=
  placeAt items top item.offset = some item ∧ Free items top item.offset

theorem placeAt_spec {o : Int} {item : Item} (h : placeAt items top o = some item) :
    item ∈ items ∧ item.offset = o ∧ item.offset + item.width ≤ top := by
  have hfits := List.find?_some h
  rw [decide_eq_true_eq] at hfits
  exact ⟨List.mem_of_find?_eq_some h, hfits⟩

/-- An item kept is the first at its offset. -/
theorem placeAt_of_mem_keepItems (hexact : ∀ item ∈ items, item.Exact)
    (hstop : stop ≤ top) {item : Item} (h : item ∈ keepItems top stop items) :
    placeAt items top item.offset = some item := by
  induction items generalizing stop with
  | nil => exact absurd h List.not_mem_nil
  | cons head items ih =>
      have hrest : ∀ item ∈ items, item.Exact := fun i hi => hexact i (List.mem_cons_of_mem _ hi)
      have hhead := hexact head List.mem_cons_self
      simp only [keepItems, hhead.rounded_above] at h
      split at h
      · next hdropped =>
          have hlow := ((spaced_keepItems hrest hstop).apart.1 item h).1
          rw [placeAt, List.find?_cons_of_neg (by rw [decide_eq_true_eq]; omega)]
          exact ih hrest hstop h
      · next hkept =>
          rw [List.mem_cons] at h
          rcases h with rfl | h
          · exact List.find?_cons_of_pos (by rw [decide_eq_true_eq]; omega)
          · have hpos := hhead.sized
            have hfits : head.offset + head.width ≤ top := by omega
            have hlow := ((spaced_keepItems hrest hfits).apart.1 item h).1
            rw [placeAt, List.find?_cons_of_neg (by rw [decide_eq_true_eq]; omega)]
            exact ih hrest hfits h

/-- An item inside the frame was kept, or one kept lies over its start. -/
theorem exists_mem_keepItems (hexact : ∀ item ∈ items, item.Exact)
    (hsorted : items.Pairwise fun a b => a.offset ≤ b.offset) {item : Item}
    (hitem : item ∈ items) (hstop : stop ≤ item.offset)
    (hfits : item.offset + item.width ≤ top) :
    ∃ kept ∈ keepItems top stop items,
      kept.offset ≤ item.offset ∧ item.offset < kept.offset + kept.width := by
  induction items generalizing stop with
  | nil => exact absurd hitem List.not_mem_nil
  | cons head items ih =>
      have hrest : ∀ item ∈ items, item.Exact := fun i hi => hexact i (List.mem_cons_of_mem _ hi)
      have hhead := hexact head List.mem_cons_self
      rw [List.pairwise_cons] at hsorted
      simp only [keepItems, hhead.rounded_above]
      rw [List.mem_cons] at hitem
      rcases hitem with rfl | hitem
      · have hpos := hhead.sized
        rw [if_neg (by omega)]
        exact ⟨item, List.mem_cons_self, le_rfl, by omega⟩
      · split
        · exact ih hrest hsorted.2 hitem hstop
        · have hle := hsorted.1 item hitem
          rcases lt_or_ge item.offset (head.offset + head.width) with hover | hpast
          · exact ⟨head, List.mem_cons_self, hle, hover⟩
          · obtain ⟨kept, hkept, hover⟩ := ih hrest hsorted.2 hitem hpast
            exact ⟨kept, List.mem_cons_of_mem _ hkept, hover⟩

/-- What is kept of sorted items is what the frame draws. -/
theorem mem_keepItems_iff (hexact : ∀ item ∈ items, item.Exact)
    (hsorted : items.Pairwise fun a b => a.offset ≤ b.offset) (htop : 16 ≤ top) (item : Item) :
    item ∈ keepItems top 16 items ↔ Drawn items top item := by
  obtain ⟨hin, hapart⟩ := (spaced_keepItems hexact htop).apart
  -- on the offset: a lower item that reaches past it is kept just when it is drawn
  induction hn : (item.offset - 15).toNat using Nat.strong_induction_on generalizing item with
  | _ n ih =>
      have hlower : ∀ other : Item, 16 ≤ other.offset → other.offset < item.offset →
          (other ∈ keepItems top 16 items ↔ Drawn items top other) := fun other h16 hlt =>
        ih (other.offset - 15).toNat (by omega) other rfl
      constructor
      · intro hitem
        refine ⟨placeAt_of_mem_keepItems hexact htop hitem, ?_⟩
        rw [Free]
        refine ⟨(hin item hitem).1, fun other hplace h16 hlt hover hfree => ?_⟩
        have hapart := hapart other ((hlower other h16 hlt).mpr ⟨hplace, hfree⟩) item hitem hlt
        omega
      · rintro ⟨hplace, hfree⟩
        rw [Free] at hfree
        obtain ⟨h16, hcover⟩ := hfree
        obtain ⟨hmem, -, hfits⟩ := placeAt_spec hplace
        obtain ⟨kept, hkept, hle, hover⟩ := exists_mem_keepItems hexact hsorted hmem h16 hfits
        have hkeptPlace := placeAt_of_mem_keepItems hexact htop hkept
        rcases lt_or_eq_of_le hle with hlt | heq
        · have hlow := (hin kept hkept).1
          have hdrawn := (hlower kept hlow hlt).mp hkept
          exact absurd hdrawn.2 (hcover kept hdrawn.1 hlow hlt hover)
        · rw [heq, hplace] at hkeptPlace
          rwa [Option.some.inj hkeptPlace]

def sortItems (items : List Item) : List Item :=
  items.insertionSort fun a b => a.offset ≤ b.offset

theorem filter_sortItems (items : List Item) (o : Int) :
    (sortItems items).filter (fun item => decide (item.offset = o)) =
      items.filter fun item => decide (item.offset = o) := by
  have hsorted : (items.filter fun item => decide (item.offset = o)).Pairwise
      fun a b => a.offset ≤ b.offset := by
    refine List.pairwise_of_forall_mem_list fun a ha b hb => ?_
    rw [List.mem_filter, decide_eq_true_eq] at ha hb
    omega
  have hsub := List.sublist_insertionSort hsorted List.filter_sublist
  have hfiltered := hsub.filter fun item => decide (item.offset = o)
  rw [List.filter_filter] at hfiltered
  simp only [Bool.and_self] at hfiltered
  refine (hfiltered.eq_of_length ?_).symm
  exact ((List.perm_insertionSort _ items).filter _).length_eq.symm

theorem placeAt_sortItems (items : List Item) (top o : Int) :
    placeAt (sortItems items) top o = placeAt items top o := by
  have hfilter : ∀ items : List Item, placeAt items top o =
      (items.filter fun item => decide (item.offset = o)).find? fun item =>
        decide (item.offset + item.width ≤ top) := by
    intro items
    rw [List.find?_filter, placeAt]
    simp only [Bool.decide_and, Bool.decide_eq_true]
  rw [hfilter, filter_sortItems, ← hfilter]

theorem free_sortItems (items : List Item) (top o : Int) :
    Free (sortItems items) top o ↔ Free items top o := by
  induction hn : (o - 15).toNat using Nat.strong_induction_on generalizing o with
  | _ n ih =>
      rw [Free, Free]
      simp only [placeAt_sortItems]
      refine and_congr_right fun _ => forall_congr' fun item => ?_
      refine imp_congr_right fun _ => forall_congr' fun h16 => forall_congr' fun hlt => ?_
      refine imp_congr_right fun _ => not_congr (ih _ (by omega) item.offset rfl)

theorem drawn_sortItems (items : List Item) (top : Int) (item : Item) :
    Drawn (sortItems items) top item ↔ Drawn items top item := by
  rw [Drawn, Drawn, placeAt_sortItems, free_sortItems]

end Items

section Named

variable {fn : FunctionLayout} {top : Int}

/-- The items before the sort: the arrays' in order, then the slots'. -/
def namedItems (fn : FunctionLayout) (top : Int) : List Item :=
  fn.arrays.flatMap (arrayItems fn top) ++ fn.slots.map slotItem

theorem exact_namedItems (hsized : fn.Sized) (hbound : fn.Bounded) (hzero : 0 ≤ top)
    (htop : top < 2 ^ 52) : ∀ item ∈ namedItems fn top, item.Exact := by
  intro item hitem
  rw [namedItems, List.mem_append, List.mem_flatMap, List.mem_map] at hitem
  rcases hitem with ⟨array, harray, hitem⟩ | ⟨slot, hslot, rfl⟩
  · exact (arrayItems_spec (hsized.arrays array harray) (hbound.arrays array harray) hzero htop
      hitem).1
  · have hpos : 0 < (slotItem slot).width := hsized.slots slot hslot
    have hoffset : (slotItem slot).offset.natAbs < 2 ^ 52 := (hbound.slots slot hslot).1
    have hwidth : (slotItem slot).width < 2 ^ 52 := (hbound.slots slot hslot).2
    exact ⟨hpos, hoffset, by omega⟩

theorem spaced_itemsOf (hsized : fn.Sized) (hbound : fn.Bounded) (h16 : 16 ≤ top)
    (htop : top < 2 ^ 52) : Spaced top 16 (itemsOf (some fn) top) := by
  refine spaced_keepItems (fun item hitem => ?_) h16
  exact exact_namedItems hsized hbound (by omega) htop item
    ((List.perm_insertionSort _ _).mem_iff.mp hitem)

theorem mem_itemsOf_iff (hsized : fn.Sized) (hbound : fn.Bounded) (h16 : 16 ≤ top)
    (htop : top < 2 ^ 52) (item : Item) :
    item ∈ itemsOf (some fn) top ↔ Drawn (namedItems fn top) top item := by
  have hexact : ∀ item ∈ sortItems (namedItems fn top), item.Exact := fun item hitem =>
    exact_namedItems hsized hbound (by omega) htop item
      ((List.perm_insertionSort _ _).mem_iff.mp hitem)
  have hsorted : (sortItems (namedItems fn top)).Pairwise fun a b => a.offset ≤ b.offset :=
    List.pairwise_insertionSort _ _
  rw [← drawn_sortItems]
  exact mem_keepItems_iff hexact hsorted h16 item

/-- An array there with room for an element. -/
def Roomy (fn : FunctionLayout) (top o : Int) : Prop :=
  ∃ array ∈ fn.arrays, array.offset = o ∧ o + array.width ≤ arrayEnd fn top array

theorem offset_of_arrayItem {array array' : FrameArray} (harray : array ∈ fn.arrays)
    (hpos : 0 < array'.width) (hoffset : array'.offset.natAbs < 2 ^ 52) (hzero : 0 ≤ top)
    (htop : top < 2 ^ 52) {item : Item} (hitem : item ∈ arrayItems fn top array')
    (hsame : item.offset = array.offset) : array'.offset = array.offset := by
  obtain ⟨hexact, hend, hge⟩ := arrayItems_spec hpos hoffset hzero htop hitem
  have hsize := hexact.sized
  rcases lt_or_eq_of_le (hge.trans hsame.le) with hlt | heq
  · -- an element of a lower array would reach past the name at this offset
    have hname : array.offset ∈ fn.slots.map FrameSlot.offset ++ fn.arrays.map FrameArray.offset :=
      List.mem_append_right _ (List.mem_map_of_mem harray)
    have hstop := @arrayEnd_le_offset fn top array' _ hname hlt
    omega
  · exact heq

theorem arrayItem_of_roomy (hsized : fn.Sized) (hbound : fn.Bounded) (hzero : 0 ≤ top)
    (htop : top < 2 ^ 52) {o : Int} (hroom : Roomy fn top o) {item : Item}
    (hplace : placeAt (namedItems fn top) top o = some item) :
    ∃ array ∈ fn.arrays, item ∈ arrayItems fn top array := by
  obtain ⟨array, harray, rfl, hfits⟩ := hroom
  obtain ⟨hmem, hbase⟩ :=
    elementItem_mem (hsized.arrays array harray) (hbound.arrays array harray) hzero htop hfits
  have hend := arrayEnd_le fn top array
  have hwidth : (elementItem array 0).width = array.width := rfl
  have hfound : ((fn.arrays.flatMap (arrayItems fn top)).find? fun item =>
      decide (item.offset = array.offset ∧ item.offset + item.width ≤ top)).isSome := by
    rw [List.find?_isSome]
    refine ⟨elementItem array 0, List.mem_flatMap.mpr ⟨array, harray, hmem⟩, ?_⟩
    rw [decide_eq_true_eq]
    omega
  obtain ⟨first, hfirst⟩ := Option.isSome_iff_exists.mp hfound
  rw [placeAt, namedItems, List.find?_append, hfirst, Option.some_or] at hplace
  rw [← Option.some.inj hplace]
  exact List.mem_flatMap.mp (List.mem_of_find?_eq_some hfirst)

end Named

section Boxes

variable (input : DrawInput) (row : FrameRow) (base : Base)

variable {items : List Item}

theorem box_addr (addr size : Int) (kind : BoxKind) (title : List Char)
    (name : Option (List Char)) (detail : List Char) (overwritten : Bool) :
    (box input addr size base kind title name detail overwritten).addr = addr ∧
      (box input addr size base kind title name detail overwritten).size = size ∧
      (box input addr size base kind title name detail overwritten).kind = kind :=
  ⟨rfl, rfl, rfl⟩

theorem tile_gapBox (kind : BoxKind) (title : List Char) {addr lo hi stop : Int} (h : lo ≤ hi)
    (hexact : rounded (hi - lo) = hi - lo) (hstop : addr + (hi - lo) = stop) :
    boxesTile addr stop (gapBox input kind title addr lo hi base) := by
  unfold gapBox
  split
  · next hlt =>
      obtain ⟨haddr, hsize, -⟩ := box_addr input base addr (rounded (hi - lo)) kind title none
        (plural (rounded (hi - lo)) "byte".toList) false
      exact tiles_singleton haddr (by omega) (by omega)
  · show addr = stop
    omega

theorem kind_of_mem_gapBox {kind : BoxKind} {title : List Char} {addr lo hi : Int}
    {b : StackBox} (h : b ∈ gapBox input kind title addr lo hi base) : b.kind = kind := by
  unfold gapBox at h
  split at h
  · rw [List.mem_singleton] at h
    subst h
    rfl
  · exact absurd h List.not_mem_nil

theorem itemBox_spec (item : Item) :
    (itemBox input row base item).addr = rounded (row.record + item.offset) ∧
      (itemBox input row base item).size = item.width ∧
      (itemBox input row base item).kind = .local := by
  unfold itemBox
  cases item.more with
  | some more => exact ⟨rfl, rfl, rfl⟩
  | none => exact ⟨rfl, rfl, rfl⟩

theorem savedFpBox_spec :
    (savedFpBox input row base).addr = row.record ∧ (savedFpBox input row base).size = 8 ∧
      (savedFpBox input row base).kind = .saved := by
  unfold savedFpBox
  simp only
  split <;> exact ⟨rfl, rfl, rfl⟩

theorem savedLrBox_spec :
    (savedLrBox input row base).addr = rounded (row.record + 8) ∧
      (savedLrBox input row base).size = 8 ∧ (savedLrBox input row base).kind = .saved := by
  unfold savedLrBox
  simp only
  split <;> exact ⟨rfl, rfl, rfl⟩

/-- The row has a record, and its addresses are exact. -/
structure FrameRow.Recorded (row : FrameRow) : Prop where
  lo : 0 ≤ row.lo
  record : row.lo ≤ row.record
  top : row.record + 16 ≤ row.spEntry
  spEntry : row.spEntry < 2 ^ 52

variable {row}

theorem FrameRow.Bounded.recorded (h : row.Bounded) (hrecord : hasRecord row) :
    row.Recorded := by
  obtain ⟨hlo, hspEntry, hbelow⟩ := h
  simp only [hasRecord, decide_eq_true_eq] at hrecord
  obtain ⟨-, hlow, hhigh⟩ := hrecord
  rw [rounded_of_lt (by omega)] at hhigh
  exact ⟨hlo, hlow, hhigh, hspEntry⟩

/-- The bytes above the record. -/
def FrameRow.top (row : FrameRow) : Int := rounded (row.spEntry - row.record)

theorem FrameRow.Recorded.top_eq (h : row.Recorded) :
    row.top = row.spEntry - row.record ∧ 16 ≤ row.top ∧ row.top < 2 ^ 52 := by
  obtain ⟨hlo, hrecord, htop, hspEntry⟩ := h
  have heq : row.top = row.spEntry - row.record := rounded_of_lt (by omega)
  omega

theorem FrameRow.Recorded.itemBox_addr (h : row.Recorded) {item : Item}
    (hitem : item.offset.natAbs < 2 ^ 52) :
    (itemBox input row base item).addr = row.record + item.offset := by
  obtain ⟨hlo, hrecord, htop, hspEntry⟩ := h
  rw [(itemBox_spec input row base item).1, rounded_of_lt (by omega)]

theorem tile_paddingBox (h : row.Recorded) {gap stop : Int} (hgap : 0 ≤ gap) (hle : gap ≤ stop)
    (hstop : stop ≤ row.top) :
    boxesTile (row.record + gap) (row.record + stop) (paddingBox input row gap stop base) := by
  obtain ⟨htop, -, hsmall⟩ := h.top_eq
  obtain ⟨hlo, hrecord, -, hspEntry⟩ := h
  have hat : rounded (row.record + gap) = row.record + gap := rounded_of_lt (by omega)
  rw [paddingBox, hat]
  exact tile_gapBox input base _ _ hle (rounded_of_lt (by omega)) (by omega)

/-- The items and the padding between them tile the frame above its record. -/
theorem tile_localBoxes (h : row.Recorded) {gap : Int} (hgap : 0 ≤ gap)
    (hspaced : Spaced row.top gap items) :
    boxesTile (row.record + gap) row.spEntry (localBoxes input row base gap items) := by
  obtain ⟨htop, -, hsmall⟩ := h.top_eq
  induction items generalizing gap with
  | nil =>
      have htile := tile_paddingBox input base h hgap hspaced le_rfl
      have hall : row.record + row.top = row.spEntry := by omega
      rwa [hall] at htile
  | cons item items ih =>
      obtain ⟨hle, hexact, hrest⟩ := hspaced
      obtain ⟨-, hsize, -⟩ := itemBox_spec input row base item
      have haddr := h.itemBox_addr input base hexact.offset
      have hpos := hexact.sized
      have hpast := hrest.le_top
      have hpad := tile_paddingBox input base h hgap hle (by omega)
      have htail := ih (by omega) hrest
      refine hpad.append ⟨haddr, by omega, ?_⟩
      rwa [hexact.rounded_above, hsize, Int.add_assoc]

theorem mem_localBoxes {gap : Int} {b : StackBox} (hkind : b.kind = .local) :
    b ∈ localBoxes input row base gap items ↔ ∃ item ∈ items, b = itemBox input row base item := by
  have hpad : ∀ gap stop, b ∉ paddingBox input row gap stop base := by
    intro gap stop hb
    rw [kind_of_mem_gapBox input base hb] at hkind
    exact absurd hkind (by decide)
  induction items generalizing gap with
  | nil =>
      rw [localBoxes]
      simp only [hpad, List.not_mem_nil, false_and, exists_false]
  | cons item items ih =>
      rw [localBoxes, List.mem_append, List.mem_cons, List.exists_mem_cons_iff,
        or_iff_right (hpad _ _)]
      exact or_congr_right ih

theorem not_saved_localBoxes {gap : Int} :
    ∀ b ∈ localBoxes input row base gap items, b.kind ≠ .saved := by
  induction items generalizing gap with
  | nil =>
      intro b hb
      rw [kind_of_mem_gapBox input base hb]
      decide
  | cons item items ih =>
      intro b hb
      rw [localBoxes, List.mem_append, List.mem_cons] at hb
      rcases hb with hb | rfl | hb
      · rw [kind_of_mem_gapBox input base hb]
        decide
      · rw [(itemBox_spec input row base item).2.2]
        decide
      · exact ih b hb

theorem tile_recordBoxes (h : row.Recorded) (hspaced : Spaced row.top 16 items) :
    boxesTile row.lo row.spEntry
      (reservedBox input row.lo row.record base ++
        savedFpBox input row base :: savedLrBox input row base ::
          localBoxes input row base 16 items) := by
  have hlocal := tile_localBoxes input base h (by decide) hspaced
  obtain ⟨hlo, hrecord, htop, hspEntry⟩ := h
  obtain ⟨hfp, hfpSize, -⟩ := savedFpBox_spec input row base
  obtain ⟨hlr, hlrSize, -⟩ := savedLrBox_spec input row base
  rw [rounded_of_lt (by omega)] at hlr
  have hreserved : boxesTile row.lo row.record (reservedBox input row.lo row.record base) :=
    tile_gapBox input base _ _ hrecord (rounded_of_lt (by omega)) (by omega)
  refine hreserved.append ⟨hfp, by omega, by omega, by omega, ?_⟩
  rw [hfpSize, hlrSize, Int.add_assoc]
  exact hlocal

end Boxes

section Frames

variable (input : DrawInput) (row : FrameRow)

/-- The items a row's frame has to place: none without a record or a layout. -/
def rowItems : List Item :=
  if hasRecord row then (fnAt input row.entry).elim [] (namedItems · row.top) else []

/-- What a drawn frame is of its row: its boxes go down from the top and tile its bytes, the
saved ones are the record's, and the named ones are those of the items drawn. -/
structure FrameTiled (frame : DrawnFrame) : Prop where
  descending : frame.boxes.Pairwise fun upper lower => lower.addr + lower.size ≤ upper.addr
  sized : ∀ b ∈ frame.boxes, 0 < b.size
  covers : ∀ a, (∃ b ∈ frame.boxes, b.addr ≤ a ∧ a < b.addr + b.size) ↔
    row.lo ≤ a ∧ a < row.spEntry
  saved : (frame.boxes.filter fun b => decide (b.kind = .saved)).map (fun b => (b.addr, b.size)) =
    if hasRecord row then [(row.record + 8, 8), (row.record, 8)] else []
  places : ∀ b, b ∈ frame.boxes ∧ b.kind = .local ↔
    ∃ item, Drawn (rowItems input row) row.top item ∧
      b = itemBox input row (frameBase input row) item

/-- An array wins over a slot at its own base: the box there is an array's. -/
def ArraysWin (frame : DrawnFrame) : Prop :=
  ∀ fn, fnAt input row.entry = some fn → ∀ array ∈ fn.arrays, ∀ slot ∈ fn.slots,
    slot.offset = array.offset →
    ∀ b ∈ frame.boxes, b.kind = .local → b.addr = row.record + slot.offset →
    ∃ array' ∈ fn.arrays, array'.offset = slot.offset ∧
      ∃ item ∈ arrayItems fn row.top array', b = itemBox input row (frameBase input row) item

/-- Where an array and a slot start together, an array there has room for an element below the
next name and the frame's top, or the slot has no place: it runs past the top, or starts in the
record or under a lower place. -/
def ArraysFit : Prop :=
  hasRecord row → ∀ fn, fnAt input row.entry = some fn → ∀ array ∈ fn.arrays, ∀ slot ∈ fn.slots,
    slot.offset = array.offset →
    Roomy fn row.top slot.offset ∨ row.top < slot.offset + slot.width ∨
      ¬ Free (namedItems fn row.top) row.top slot.offset

variable {input row}

/-- The layout of a row's function, if it has one, is sized and exact. -/
def Sound (input : DrawInput) (row : FrameRow) : Prop :=
  ∀ fn, fnAt input row.entry = some fn → fn.Sized ∧ fn.Bounded

theorem spaced_rowItems (h : row.Recorded) (hfn : Sound input row) :
    Spaced row.top 16 (itemsOf (fnAt input row.entry) row.top) := by
  obtain ⟨-, h16, hsmall⟩ := h.top_eq
  cases hat : fnAt input row.entry with
  | none => exact h16
  | some fn =>
      obtain ⟨hsized, hbound⟩ := hfn fn hat
      exact spaced_itemsOf hsized hbound h16 hsmall

theorem rowItems_eq (hrecord : hasRecord row) {fn : FunctionLayout}
    (hat : fnAt input row.entry = some fn) : rowItems input row = namedItems fn row.top := by
  rw [rowItems, if_pos hrecord, hat]
  rfl

theorem drawn_rowItems (h : row.Recorded) (hrecord : hasRecord row) (hfn : Sound input row)
    (item : Item) :
    item ∈ itemsOf (fnAt input row.entry) row.top ↔ Drawn (rowItems input row) row.top item := by
  obtain ⟨-, h16, hsmall⟩ := h.top_eq
  rw [rowItems, if_pos hrecord]
  cases hat : fnAt input row.entry with
  | none =>
      have hnone : ¬ Drawn [] row.top item := fun hdrawn => absurd hdrawn.1 (by simp [placeAt])
      simpa [itemsOf] using hnone
  | some fn =>
      obtain ⟨hsized, hbound⟩ := hfn fn hat
      exact mem_itemsOf_iff hsized hbound h16 hsmall item

theorem tile_frameBoxes (hrow : row.lo ≤ row.spEntry) (hbound : row.Bounded)
    (hfn : Sound input row) : boxesTile row.lo row.spEntry (frameBoxes input row) := by
  unfold frameBoxes
  split
  · next hrecord =>
      have h := hbound.recorded hrecord
      exact tile_recordBoxes input _ h (spaced_rowItems h hfn)
  · obtain ⟨hlo, hspEntry, -⟩ := hbound
    exact tile_gapBox input _ _ _ hrow (rounded_of_lt (by omega)) (by omega)

theorem saved_frameBoxes (hbound : row.Bounded) :
    ((frameBoxes input row).filter fun b => decide (b.kind = .saved)).map
        (fun b => (b.addr, b.size)) =
      if hasRecord row then [(row.record, 8), (row.record + 8, 8)] else [] := by
  have hgap : ∀ (lo hi : Int) (base : Base),
      (reservedBox input lo hi base).filter (fun b => decide (b.kind = .saved)) = [] := by
    intro lo hi base
    rw [List.filter_eq_nil_iff]
    intro b hb
    rw [kind_of_mem_gapBox input base hb]
    decide
  have hlocal : ∀ (items : List Item) (base : Base),
      (localBoxes input row base 16 items).filter (fun b => decide (b.kind = .saved)) = [] := by
    intro items base
    rw [List.filter_eq_nil_iff]
    intro b hb
    rw [decide_eq_true_eq]
    exact not_saved_localBoxes input base b hb
  unfold frameBoxes
  split
  · next hrecord =>
      obtain ⟨hlo, hrec, htop, hspEntry⟩ := hbound.recorded hrecord
      obtain ⟨hfp, hfpSize, hfpKind⟩ := savedFpBox_spec input row (frameBase input row)
      obtain ⟨hlr, hlrSize, hlrKind⟩ := savedLrBox_spec input row (frameBase input row)
      rw [rounded_of_lt (by omega)] at hlr
      simp only [List.filter_append, hgap, List.filter_cons, hfpKind, hlrKind, hlocal,
        decide_true, if_true, List.nil_append, List.map_cons, List.map_nil, hfp, hfpSize, hlr,
        hlrSize]
  · rw [hgap, List.map_nil]

/-- The named boxes are those of the items drawn. -/
theorem local_frameBoxes (hbound : row.Bounded) (hfn : Sound input row) (b : StackBox) :
    b ∈ frameBoxes input row ∧ b.kind = .local ↔
      ∃ item, Drawn (rowItems input row) row.top item ∧
        b = itemBox input row (frameBase input row) item := by
  have hreserved : ∀ lo hi base, b.kind = .local → b ∉ reservedBox input lo hi base := by
    intro lo hi base hkind hb
    rw [kind_of_mem_gapBox input base hb] at hkind
    exact absurd hkind (by decide)
  by_cases hrecord : hasRecord row
  · have h := hbound.recorded hrecord
    have hboxes : b.kind = .local → (b ∈ frameBoxes input row ↔
        ∃ item ∈ itemsOf (fnAt input row.entry) row.top,
          b = itemBox input row (frameBase input row) item) := by
      intro hkind
      have hfp : b ≠ savedFpBox input row (frameBase input row) := by
        rintro rfl
        rw [(savedFpBox_spec input row _).2.2] at hkind
        exact absurd hkind (by decide)
      have hlr : b ≠ savedLrBox input row (frameBase input row) := by
        rintro rfl
        rw [(savedLrBox_spec input row _).2.2] at hkind
        exact absurd hkind (by decide)
      rw [frameBoxes, if_pos hrecord, List.mem_append, List.mem_cons, List.mem_cons,
        or_iff_right (hreserved _ _ _ hkind), or_iff_right hfp, or_iff_right hlr]
      exact mem_localBoxes input _ hkind
    constructor
    · rintro ⟨hb, hkind⟩
      obtain ⟨item, hitem, rfl⟩ := (hboxes hkind).mp hb
      exact ⟨item, (drawn_rowItems h hrecord hfn item).mp hitem, rfl⟩
    · rintro ⟨item, hdrawn, rfl⟩
      have hkind := (itemBox_spec input row (frameBase input row) item).2.2
      exact ⟨(hboxes hkind).mpr ⟨item, (drawn_rowItems h hrecord hfn item).mpr hdrawn, rfl⟩, hkind⟩
  · constructor
    · rintro ⟨hb, hkind⟩
      rw [frameBoxes, if_neg hrecord] at hb
      exact absurd hb (hreserved _ _ _ hkind)
    · rintro ⟨item, hdrawn, -⟩
      rw [rowItems, if_neg hrecord] at hdrawn
      exact absurd hdrawn.1 (by simp [placeAt])

theorem frameTiled_drawFrame (hrow : row.lo ≤ row.spEntry) (hbound : row.Bounded)
    (hfn : Sound input row) (innermost : Bool) :
    FrameTiled input row (drawFrame input row innermost) := by
  have htile := tile_frameBoxes hrow hbound hfn
  have hboxes : (drawFrame input row innermost).boxes = (frameBoxes input row).reverse := rfl
  refine ⟨?_, ?_, ?_, ?_, ?_⟩
  · rw [hboxes, List.pairwise_reverse]
    exact htile.ascending
  · intro b hb
    rw [hboxes, List.mem_reverse] at hb
    exact (htile.mem hb).2.1
  · intro a
    rw [hboxes, ← htile.holds_iff a]
    simp only [List.mem_reverse, Holds]
  · rw [hboxes, List.filter_reverse, List.map_reverse, saved_frameBoxes hbound]
    split <;> rfl
  · intro b
    rw [hboxes, List.mem_reverse]
    exact local_frameBoxes hbound hfn b

/-- In a frame so drawn the arrays win just when they fit. -/
theorem FrameTiled.arraysWin_iff {frame : DrawnFrame} (h : FrameTiled input row frame)
    (hbound : row.Bounded) (hfn : Sound input row) :
    ArraysWin input row frame ↔ ArraysFit input row := by
  constructor
  · intro hwin hrecord fn hat array harray slot hslot hsame
    by_contra hunfit
    push Not at hunfit
    obtain ⟨hroom, hfits, hfree⟩ := hunfit
    have hrec := hbound.recorded hrecord
    obtain ⟨-, h16, hsmall⟩ := hrec.top_eq
    obtain ⟨hsized, hlayout⟩ := hfn fn hat
    have hitems := rowItems_eq hrecord hat
    -- the slot's place is taken by something, and that must be an array's item
    have hplaced : (placeAt (namedItems fn row.top) row.top slot.offset).isSome := by
      rw [placeAt, List.find?_isSome]
      refine ⟨slotItem slot, List.mem_append_right _ (List.mem_map_of_mem hslot), ?_⟩
      exact decide_eq_true ⟨rfl, hfits⟩
    obtain ⟨item, hplace⟩ := Option.isSome_iff_exists.mp hplaced
    obtain ⟨hmem, hoffset, -⟩ := placeAt_spec hplace
    have hdrawn : Drawn (rowItems input row) row.top item := by
      rw [hitems, Drawn, hoffset]
      exact ⟨hplace, hfree⟩
    obtain ⟨hbox, hkind⟩ := (h.places _).mpr ⟨item, hdrawn, rfl⟩
    have hexact := exact_namedItems hsized hlayout (by omega) hsmall item hmem
    have haddr := hrec.itemBox_addr input (frameBase input row) hexact.offset
    obtain ⟨array', harray', hbase, item', hitem', -⟩ :=
      hwin fn hat array harray slot hslot hsame _ hbox hkind (by omega)
    refine hroom ⟨array', harray', hbase, ?_⟩
    rw [← hbase]
    exact roomy_of_arrayItem (hsized.arrays array' harray') (hlayout.arrays array' harray')
      (by omega) hsmall hitem'
  · intro hfit fn hat array harray slot hslot hsame b hb hkind haddr
    obtain ⟨item, ⟨hplace, hfree⟩, rfl⟩ := (h.places b).mp ⟨hb, hkind⟩
    have hrecord : hasRecord row := by
      by_contra hnone
      rw [rowItems, if_neg hnone] at hplace
      exact absurd hplace (by simp [placeAt])
    have hrec := hbound.recorded hrecord
    obtain ⟨-, h16, hsmall⟩ := hrec.top_eq
    obtain ⟨hsized, hlayout⟩ := hfn fn hat
    have hitems := rowItems_eq hrecord hat
    rw [hitems] at hplace hfree
    obtain ⟨hmem, -, hfits⟩ := placeAt_spec hplace
    have hexact := exact_namedItems hsized hlayout (by omega) hsmall item hmem
    have hat' := hrec.itemBox_addr input (frameBase input row) hexact.offset
    have hoffset : item.offset = slot.offset := by omega
    have harrayItem : ∃ array' ∈ fn.arrays, item ∈ arrayItems fn row.top array' := by
      rw [namedItems, List.mem_append, List.mem_flatMap, List.mem_map] at hmem
      rcases hmem with harr | ⟨slot', hslot', rfl⟩
      · exact harr
      · have hslotOffset : slot'.offset = slot.offset := hoffset
        rcases hfit hrecord fn hat array harray slot' hslot' (hslotOffset.trans hsame) with
          hroom | hpast | hnot
        · exact arrayItem_of_roomy hsized hlayout (by omega) hsmall hroom hplace
        · exact absurd hfits (not_le.mpr hpast)
        · exact absurd hfree hnot
    obtain ⟨array', harray', hin⟩ := harrayItem
    have hbase := offset_of_arrayItem harray (hsized.arrays array' harray')
      (hlayout.arrays array' harray') (by omega) hsmall hin (hoffset.trans hsame)
    exact ⟨array', harray', hbase.trans hsame.symm, item, hin, rfl⟩

end Frames

theorem sound_of_layout {input : DrawInput}
    (hlayout : ∀ layout, input.layout = some layout →
      ∀ fn ∈ layout.functions, fn.Sized ∧ fn.Bounded) (row : FrameRow) : Sound input row := by
  intro fn hfn
  unfold fnAt at hfn
  cases hat : input.layout with
  | none =>
      rw [hat] at hfn
      cases hfn
  | some layout =>
      rw [hat] at hfn
      exact hlayout layout hat fn (List.mem_of_find?_eq_some hfn)

/-- An address lands somewhere just when a tiled frame holds it. -/
theorem FrameTiled.slotIn_iff {input : DrawInput} {row : FrameRow} {frame : DrawnFrame}
    (h : FrameTiled input row frame) (hbound : row.Bounded) (addr : Int) :
    (slotIn frame addr).isSome ↔ row.lo ≤ addr ∧ addr < row.spEntry := by
  obtain ⟨hlo, hspEntry, -⟩ := hbound
  rw [← h.covers addr]
  simp only [slotIn, boxAt, Option.isSome_map, List.find?_isSome, decide_eq_true_eq]
  refine exists_congr fun b => and_congr_right fun hb => ?_
  -- a box's first and last bytes are the frame's, so its end is exact
  have hpos := h.sized b hb
  have hfirst := (h.covers b.addr).mp ⟨b, hb, le_rfl, by omega⟩
  have hlast := (h.covers (b.addr + b.size - 1)).mp ⟨b, hb, by omega, by omega⟩
  rw [rounded_of_lt (by omega)]

/-- Every frame is drawn tiled, with arrays over slots, and an address has a place in the
drawing just when some row owns it. -/
def FramesTile (input : DrawInput) : Prop :=
  List.Forall₂ (fun row frame => FrameTiled input row frame ∧ ArraysWin input row frame)
      input.snapshot.frames (drawFrames input).frames ∧
    ∀ addr, (slotAt (drawFrames input) addr).isSome ↔
      ∃ row ∈ input.snapshot.frames, row.lo ≤ addr ∧ addr < row.spEntry

/-- The frames tile just when in every row the arrays fit. -/
theorem framesTile_iff {input : DrawInput}
    (hrows : ∀ row ∈ input.snapshot.frames, row.lo ≤ row.spEntry ∧ row.Bounded)
    (hlayout : ∀ layout, input.layout = some layout →
      ∀ fn ∈ layout.functions, fn.Sized ∧ fn.Bounded) :
    FramesTile input ↔ ∀ row ∈ input.snapshot.frames, ArraysFit input row := by
  have hfst : input.snapshot.frames.zipIdx.map Prod.fst = input.snapshot.frames :=
    List.zipIdx_map_fst 0 _
  have hmem : ∀ pair ∈ input.snapshot.frames.zipIdx, pair.1 ∈ input.snapshot.frames := by
    intro pair hpair
    rw [← hfst]
    exact List.mem_map_of_mem hpair
  have htiled : ∀ row ∈ input.snapshot.frames, ∀ innermost,
      FrameTiled input row (drawFrame input row innermost) := fun row hrow =>
    frameTiled_drawFrame (hrows row hrow).1 (hrows row hrow).2 (sound_of_layout hlayout row)
  have hwin : ∀ row ∈ input.snapshot.frames, ∀ innermost,
      ArraysWin input row (drawFrame input row innermost) ↔ ArraysFit input row :=
    fun row hrow innermost =>
      (htiled row hrow innermost).arraysWin_iff (hrows row hrow).2 (sound_of_layout hlayout row)
  have hframes : ∀ R : FrameRow → DrawnFrame → Prop,
      List.Forall₂ R input.snapshot.frames (drawFrames input).frames ↔
        ∀ pair ∈ input.snapshot.frames.zipIdx,
          R pair.1 (drawFrame input pair.1 (pair.2 + 1 == input.snapshot.frames.length)) := by
    intro R
    have hzip : List.Forall₂ R (input.snapshot.frames.zipIdx.map Prod.fst)
        (drawFrames input).frames ↔ ∀ pair ∈ input.snapshot.frames.zipIdx,
          R pair.1 (drawFrame input pair.1 (pair.2 + 1 == input.snapshot.frames.length)) := by
      rw [drawFrames, List.forall₂_map_right_iff, List.forall₂_map_left_iff, List.forall₂_same]
    rwa [hfst] at hzip
  rw [FramesTile, hframes]
  constructor
  · rintro ⟨hdrawn, -⟩ row hrow
    rw [← hfst] at hrow
    obtain ⟨pair, hpair, rfl⟩ := List.mem_map.mp hrow
    exact (hwin pair.1 (hmem pair hpair) _).mp (hdrawn pair hpair).2
  · intro hfit
    refine ⟨fun pair hpair => ⟨htiled _ (hmem pair hpair) _,
      (hwin _ (hmem pair hpair) _).mpr (hfit _ (hmem pair hpair))⟩, fun addr => ?_⟩
    rw [slotAt, List.findSome?_isSome_iff]
    constructor
    · rintro ⟨frame, hframe, hslot⟩
      obtain ⟨pair, hpair, rfl⟩ := List.mem_map.mp hframe
      have hrow := hmem pair hpair
      exact ⟨pair.1, hrow, ((htiled _ hrow _).slotIn_iff (hrows _ hrow).2 addr).mp hslot⟩
    · rintro ⟨row, hrow, howned⟩
      rw [← hfst] at hrow
      obtain ⟨pair, hpair, rfl⟩ := List.mem_map.mp hrow
      have hrow := hmem pair hpair
      exact ⟨_, List.mem_map_of_mem hpair,
        ((htiled _ hrow _).slotIn_iff (hrows _ hrow).2 addr).mpr howned⟩

/-- A frame of 48 bytes with its record at the bottom. -/
def sampleRow : FrameRow :=
  ⟨0, 0x400000, 0, 0, 0x7FFF0030, 0x7FFF0000, 0, 0x7FFF0000, stateComplete, 0, none, none⟩

def sampleInput (row : FrameRow) (fn : FunctionLayout) : DrawInput :=
  ⟨⟨0, 0, 0, [row]⟩, some ⟨[fn]⟩, 0x7FFF0000, 0x7FFF0000, 0x400010, [], [], [],
    fun _ => none, fun _ _ => []⟩

/-- Three places that overlap, one of them an array's base, and one past the frame. -/
def overlapping : FunctionLayout :=
  ⟨0x400000, none,
    [⟨40, 16, false, none, none⟩, ⟨16, 4, false, some ['n'], none⟩, ⟨18, 4, false, none, none⟩],
    [⟨16, 2, some ['a']⟩]⟩

/-- The array has room for one element, and `n` starts at its base. -/
theorem framesTile_iff_overlapping : FramesTile (sampleInput sampleRow overlapping) := by
  refine (framesTile_iff ?_ ?_).mpr ?_
  · intro row hrow
    rw [List.mem_singleton.mp hrow]
    exact ⟨by decide, by decide, by decide, by decide⟩
  · rintro layout hlayout fn hfn
    cases hlayout
    rw [List.mem_singleton.mp hfn]
    exact ⟨⟨by decide, by decide⟩, ⟨by decide, by decide⟩⟩
  · intro row hrow hrecord fn hfn array harray slot hslot hsame
    rw [List.mem_singleton.mp hrow] at hfn ⊢
    cases hfn
    rw [List.mem_singleton.mp harray] at hsame
    rw [hsame]
    exact .inl ⟨_, List.mem_singleton.mpr rfl, rfl, by decide⟩

/-- An array whose element does not fit below the next name. -/
def crowded : FunctionLayout :=
  ⟨0x400000, none, [⟨16, 4, false, some ['n'], none⟩, ⟨20, 4, false, some ['m'], none⟩],
    [⟨16, 8, some ['a']⟩]⟩

/-- It has no item, so the slot at its base is drawn. -/
theorem not_framesTile_crowded :
    sampleRow.lo ≤ sampleRow.spEntry ∧ sampleRow.Bounded ∧ crowded.Sized ∧ crowded.Bounded ∧
      ¬ FramesTile (sampleInput sampleRow crowded) := by
  refine ⟨by decide, ⟨by decide, by decide, by decide⟩, ⟨by decide, by decide⟩,
    ⟨by decide, by decide⟩, ?_⟩
  rintro ⟨hframes, -⟩
  obtain ⟨⟨-, hwin⟩, -⟩ := List.forall₂_cons.mp hframes
  let slotBox := itemBox (sampleInput sampleRow crowded) sampleRow ⟨0x7FFF0000, "fp".toList⟩
    (slotItem ⟨16, 4, false, some ['n'], none⟩)
  have hbox : slotBox ∈ (drawFrame (sampleInput sampleRow crowded) sampleRow true).boxes := by
    decide
  have hnone : arrayItems crowded sampleRow.top ⟨16, 8, some ['a']⟩ = [] := by decide
  obtain ⟨array, harray, -, item, hitem, -⟩ := hwin _ rfl _ (List.mem_singleton.mpr rfl) _
    List.mem_cons_self rfl slotBox hbox rfl rfl
  rw [List.mem_singleton.mp harray, hnone] at hitem
  exact absurd hitem List.not_mem_nil

-- past `2 ^ 53` the record's own words round to one address
example :
    let row := { sampleRow with lo := 2 ^ 57, spEntry := 2 ^ 57 + 32, record := 2 ^ 57 }
    (drawFrames (sampleInput row ⟨0x400000, none, [], []⟩)).frames.map (fun frame =>
      (frame.boxes.filter fun b => decide (b.kind = .saved)).map StackBox.addr) =
      [[2 ^ 57, 2 ^ 57]] := by decide

end StackFrames

end Playground

import SoftPlc.Retain.Layout
import SoftPlc.Lib.BinarySearch
import SoftPlc.Lib.StableSort

/-!
# What a retain layout checks

`RetainLayout::new` (`plc-ir/src/retain.rs`) compares neighbours only: names in the order of the
names, ranges in the order of the offsets, with an end that saturates at `u32::MAX`. The checks
pass exactly for lists whose names are distinct and not empty and whose ranges lie in the segment
and share no byte, and the binary search over the sorted names finds what a search through all
symbols does.
-/

namespace SoftPlc.Retain

open SoftPlc.Ir SoftPlc.Lib

/-! ## The checks with a saturating end -/

/-- Exclusive end offset. Source: `retain.rs`, `RetainSymbol::end_offset`, `saturating_add`. -/
def RetainSymbol.endOffsetU32 (s : RetainSymbol) : ℕ := min (s.offset + s.ty.byteWidth) (2 ^ 32 - 1)

/-- The checks of a layout. Source: `retain.rs`, `RetainLayout::new`. -/
def checkLayoutU32 (retainSize : ℕ) (symbols : List RetainSymbol) : Except String Unit := do
  checkWindows (fun a b => a.name == b.name) (fun a _ => "duplicate symbol " ++ a.name) symbols
  symbols.forM (checkSymbol retainSize)
  checkWindows (fun a b => a.endOffsetU32 > b.offset)
    (fun a b => "symbols " ++ a.name ++ " and " ++ b.name ++ " overlap") (byOffset symbols)

/-- An end inside the segment does not saturate. -/
theorem RetainSymbol.endOffsetU32_eq {s : RetainSymbol} {retainSize : UInt32}
    (h : s.endOffset ≤ retainSize.toNat) : s.endOffsetU32 = s.endOffset := by
  have hsize := retainSize.toNat_lt
  unfold RetainSymbol.endOffsetU32
  unfold RetainSymbol.endOffset at h ⊢
  apply min_eq_left
  omega

/-- Checks that agree on the symbols of a list give the same result. -/
theorem checkWindows_congr {bad bad' : RetainSymbol → RetainSymbol → Bool}
    {text : RetainSymbol → RetainSymbol → String} {xs : List RetainSymbol}
    (h : ∀ a ∈ xs, ∀ b ∈ xs, bad a b = bad' a b) :
    checkWindows bad text xs = checkWindows bad' text xs := by
  induction xs with
  | nil => rfl
  | cons a xs ih =>
      rcases xs with _ | ⟨b, xs⟩
      · rfl
      · have hrest := ih fun c hc d hd =>
          h c (List.mem_cons_of_mem _ hc) d (List.mem_cons_of_mem _ hd)
        rw [checkWindows, checkWindows, hrest,
          h a List.mem_cons_self b (List.mem_cons_of_mem _ List.mem_cons_self)]

/-- The saturation is never seen: symbols whose ends are compared are in bounds already. -/
theorem checkLayoutU32_eq (retainSize : UInt32) (symbols : List RetainSymbol) :
    checkLayoutU32 retainSize.toNat symbols = checkLayout retainSize.toNat symbols := by
  unfold checkLayoutU32 checkLayout
  apply except_bind_congr
  intro _ _
  apply except_bind_congr
  intro _ hsyms
  apply checkWindows_congr
  intro a ha b _
  have hmem : a ∈ symbols := List.mem_mergeSort.mp ha
  rw [RetainSymbol.endOffsetU32_eq (checkSymbol_ok (except_forM_ok hsyms a hmem))]

/-- Source: `retain.rs`, `RetainLayout::new`. -/
def RetainLayout.newU32 (retainSize : UInt32) (symbols : List RetainSymbol) :
    Except String RetainLayout :=
  match h : checkLayoutU32 retainSize.toNat (byName symbols) with
  | .ok () =>
      have h' := (checkLayoutU32_eq retainSize (byName symbols)).symm.trans h
      .ok ⟨retainSize.toNat, byName symbols, sorted_of_check h', bounded_of_check h',
        disjoint_of_check h'⟩
  | .error e => .error e

/-- A layout is built exactly when its checks pass, from the symbols in the order of their names. -/
theorem newU32_ok {retainSize : UInt32} {symbols : List RetainSymbol} {l : RetainLayout} :
    RetainLayout.newU32 retainSize symbols = .ok l ↔
      checkLayout retainSize.toNat (byName symbols) = .ok () ∧ l.retainSize = retainSize.toNat ∧
        l.symbols = byName symbols := by
  rw [← checkLayoutU32_eq]
  unfold RetainLayout.newU32
  split
  · next h =>
    constructor
    · intro hok
      cases hok
      exact ⟨h, rfl, rfl⟩
    · rintro ⟨-, hsize, hsyms⟩
      rcases l with ⟨size, syms, _, _, _⟩
      subst hsize hsyms
      rfl
  · next e h =>
    constructor
    · intro hok
      cases hok
    · rintro ⟨hok, -⟩
      rw [h] at hok
      cases hok

/-! ## What the checks pass -/

/-- A byte of the value of a symbol, in the range `[offset, offset + width)`. -/
def RetainSymbol.Covers (s : RetainSymbol) (i : ℕ) : Prop :=
  s.offset ≤ i ∧ i < s.offset + s.ty.byteWidth

/-- No byte belongs to both symbols. -/
def RetainSymbol.Apart (a b : RetainSymbol) : Prop := ∀ i, ¬(a.Covers i ∧ b.Covers i)

/-- Two ranges that share no byte, as neither is empty, follow one another. -/
theorem RetainSymbol.apart_iff {a b : RetainSymbol} :
    a.Apart b ↔ a.endOffset ≤ b.offset ∨ b.endOffset ≤ a.offset := by
  have ha := a.ty.byteWidth_pos
  have hb := b.ty.byteWidth_pos
  unfold RetainSymbol.endOffset
  constructor
  · intro h
    -- The larger of the two offsets is in both ranges unless one ends before the other starts.
    have hmax := h (max a.offset b.offset)
    unfold RetainSymbol.Covers at hmax
    omega
  · rintro h i ⟨hai, hbi⟩
    unfold RetainSymbol.Covers at hai hbi
    omega

/-- Neighbours pass a check exactly when they form a chain. -/
theorem checkWindows_ok_iff {bad : RetainSymbol → RetainSymbol → Bool}
    {text : RetainSymbol → RetainSymbol → String} {xs : List RetainSymbol} :
    checkWindows bad text xs = .ok () ↔ xs.IsChain fun a b => bad a b = false := by
  refine ⟨checkWindows_ok, fun h => ?_⟩
  induction xs with
  | nil => rfl
  | cons a xs ih =>
      rcases xs with _ | ⟨b, xs⟩
      · rfl
      · rw [List.isChain_cons_cons] at h
        rw [checkWindows, if_neg (Bool.eq_false_iff.mp h.1)]
        exact ih h.2

/-- A symbol passes its check exactly when it has a name and lies in the segment. -/
theorem checkSymbol_ok_iff {retainSize : ℕ} {s : RetainSymbol} :
    checkSymbol retainSize s = .ok () ↔ s.name ≠ "" ∧ s.endOffset ≤ retainSize := by
  unfold checkSymbol
  split_ifs with hname hend
  · simp [hname]
  · simp [hname, hend]
  · simp [hname, Nat.le_of_not_gt hend]

/-- What the three loops check, on symbols in any order. -/
theorem checkLayout_ok_iff {retainSize : ℕ} {symbols : List RetainSymbol} :
    checkLayout retainSize symbols = .ok () ↔
      (symbols.IsChain fun a b => a.name ≠ b.name) ∧
        (∀ s ∈ symbols, s.name ≠ "" ∧ s.endOffset ≤ retainSize) ∧
          (byOffset symbols).IsChain fun a b => a.endOffset ≤ b.offset := by
  unfold checkLayout
  constructor
  · intro h
    obtain ⟨⟨⟩, hdup, h⟩ := except_bind_ok.mp h
    obtain ⟨⟨⟩, hsyms, hoff⟩ := except_bind_ok.mp h
    refine ⟨?_, fun s hs => checkSymbol_ok_iff.mp (except_forM_ok hsyms s hs), ?_⟩
    · exact (checkWindows_ok hdup).imp fun a b hab => by simpa using hab
    · exact (checkWindows_ok hoff).imp fun a b hab => by simpa using hab
  · rintro ⟨hdup, hsyms, hoff⟩
    refine except_bind_ok.mpr ⟨(), checkWindows_ok_iff.mpr ?_, ?_⟩
    · exact hdup.imp fun a b hab => by simpa using hab
    · refine except_bind_ok.mpr ⟨(), except_forM_ok_iff.mpr ?_, checkWindows_ok_iff.mpr ?_⟩
      · exact fun s hs => checkSymbol_ok_iff.mpr (hsyms s hs)
      · exact hoff.imp fun a b hab => by simpa using hab

/-- The order of the offsets is one. -/
theorem byOffset_sorted (symbols : List RetainSymbol) :
    (byOffset symbols).Pairwise fun a b => a.offset ≤ b.offset := by
  exact sortByKey_sorted (fun s : RetainSymbol => s.offset) symbols

/-- Symbols that share no byte do not overlap in the order of their offsets. -/
theorem byOffset_chain {symbols : List RetainSymbol} (h : symbols.Pairwise RetainSymbol.Apart) :
    (byOffset symbols).IsChain fun a b => a.endOffset ≤ b.offset := by
  have happart : (byOffset symbols).Pairwise RetainSymbol.Apart := by
    refine ((List.mergeSort_perm symbols _).pairwise_iff ?_).mpr h
    exact fun hab => RetainSymbol.apart_iff.mpr (RetainSymbol.apart_iff.mp hab).symm
  refine (isChain_and happart.isChain (byOffset_sorted symbols).isChain).imp ?_
  rintro a b ⟨hab, hle⟩
  rcases RetainSymbol.apart_iff.mp hab with h | h
  · exact h
  · have hpos := b.ty.byteWidth_pos
    unfold RetainSymbol.endOffset at h
    omega

/-- **The checks are complete**: they pass exactly for distinct names that are not empty and
ranges in the segment that share no byte. -/
theorem checkLayout_byName_iff {retainSize : ℕ} {symbols : List RetainSymbol} :
    checkLayout retainSize (byName symbols) = .ok () ↔
      (symbols.Pairwise fun a b => a.name ≠ b.name) ∧
        (∀ s ∈ symbols, s.name ≠ "" ∧ s.offset + s.ty.byteWidth ≤ retainSize) ∧
          symbols.Pairwise RetainSymbol.Apart := by
  have hperm : (byName symbols).Perm symbols := List.mergeSort_perm symbols _
  constructor
  · intro h
    refine ⟨?_, ?_, ?_⟩
    · refine (hperm.pairwise_iff fun hab => hab.symm).mp ?_
      exact (sorted_of_check h).imp fun hab => hab.ne
    · exact fun s hs => (checkLayout_ok_iff.mp h).2.1 s (hperm.mem_iff.mpr hs)
    · refine (hperm.pairwise_iff ?_).mp ((disjoint_of_check h).imp RetainSymbol.apart_iff.mpr)
      exact fun hab => RetainSymbol.apart_iff.mpr (RetainSymbol.apart_iff.mp hab).symm
  · rintro ⟨hnames, hsyms, hapart⟩
    refine checkLayout_ok_iff.mpr ⟨?_, ?_, ?_⟩
    · exact ((hperm.pairwise_iff fun hab => hab.symm).mpr hnames).isChain
    · exact fun s hs => hsyms s (hperm.mem_iff.mp hs)
    · refine byOffset_chain ((hperm.pairwise_iff ?_).mpr hapart)
      exact fun hab => RetainSymbol.apart_iff.mpr (RetainSymbol.apart_iff.mp hab).symm

/-! ## Look-up -/

/-- Look up a symbol by its exact name. Source: `retain.rs`, `RetainLayout::get`. -/
def RetainLayout.getSorted (l : RetainLayout) (name : String) : Option RetainSymbol :=
  match binarySearchBy (fun s => cmp s.name name) l.symbols with
  | .ok i => l.symbols[i]?
  | .error _ => none

/-- The names of a layout are in the order that the search needs. -/
theorem RetainLayout.orderedBy (l : RetainLayout) (name : String) :
    OrderedBy (fun s => cmp s.name name) l.symbols := by
  apply l.sorted.imp
  intro a b hab
  constructor
  · intro hgt
    exact (cmp_eq_gt_iff _ _).mpr (((cmp_eq_gt_iff _ _).mp hgt).trans hab)
  · intro hlt
    exact (cmp_eq_lt_iff _ _).mpr (hab.trans ((cmp_eq_lt_iff _ _).mp hlt))

/-- The binary search finds the symbol of the name, if there is one. -/
theorem RetainLayout.getSorted_iff (l : RetainLayout) {name : String} {s : RetainSymbol} :
    l.getSorted name = some s ↔ s ∈ l.symbols ∧ s.name = name := by
  have hsound : ∀ {t : RetainSymbol}, l.getSorted name = some t →
      t ∈ l.symbols ∧ t.name = name := by
    intro t ht
    unfold RetainLayout.getSorted at ht
    rcases hfind : binarySearchBy (fun s => cmp s.name name) l.symbols with e | i
    · rw [hfind] at ht
      cases ht
    · rw [hfind] at ht
      obtain ⟨x, hx, heq⟩ := binarySearchBy_sound hfind
      rw [show l.symbols[i]? = some t from ht] at hx
      cases hx
      exact ⟨List.mem_of_getElem? ht, (cmp_eq_eq_iff _ _).mp heq⟩
  refine ⟨hsound, ?_⟩
  rintro ⟨hs, hname⟩
  obtain ⟨i, hi⟩ := binarySearchBy_complete (l.orderedBy name) hs ((cmp_eq_eq_iff _ _).mpr hname)
  obtain ⟨t, ht, -⟩ := binarySearchBy_sound hi
  have hget : l.getSorted name = some t := by
    unfold RetainLayout.getSorted
    rw [hi]
    exact ht
  obtain ⟨hmem, htname⟩ := hsound hget
  rw [hget, l.eq_of_name hmem hs (htname.trans hname.symm)]

/-- The binary search and the search through all symbols agree. -/
theorem RetainLayout.getSorted_eq_get (l : RetainLayout) (name : String) :
    l.getSorted name = l.get name := by
  apply Option.ext
  intro s
  rw [l.getSorted_iff]
  constructor
  · rintro ⟨hs, rfl⟩
    exact l.get_of_mem hs
  · exact RetainLayout.get_some

/-- **Retain layouts are validated completely**: `new` succeeds exactly when the names are distinct
and not empty and the ranges lie in the segment and share no byte, and `get` then finds a symbol
exactly when one of the name was given, in whatever order they came. -/
theorem newU32_complete (retainSize : UInt32) (symbols : List RetainSymbol) :
    ((∃ l, RetainLayout.newU32 retainSize symbols = .ok l) ↔
      (symbols.Pairwise fun a b => a.name ≠ b.name) ∧
        (∀ s ∈ symbols, s.name ≠ "" ∧ s.offset + s.ty.byteWidth ≤ retainSize.toNat) ∧
          symbols.Pairwise RetainSymbol.Apart) ∧
      ∀ l, RetainLayout.newU32 retainSize symbols = .ok l → ∀ name s,
        l.getSorted name = some s ↔ s ∈ symbols ∧ s.name = name := by
  have hperm : (byName symbols).Perm symbols := List.mergeSort_perm symbols _
  constructor
  · rw [← checkLayout_byName_iff]
    constructor
    · rintro ⟨l, hl⟩
      exact (newU32_ok.mp hl).1
    · intro h
      refine ⟨⟨retainSize.toNat, byName symbols, sorted_of_check h, bounded_of_check h,
        disjoint_of_check h⟩, ?_⟩
      exact newU32_ok.mpr ⟨h, rfl, rfl⟩
  · intro l hl name s
    obtain ⟨-, -, hsyms⟩ := newU32_ok.mp hl
    rw [l.getSorted_iff, hsyms, hperm.mem_iff]

end SoftPlc.Retain

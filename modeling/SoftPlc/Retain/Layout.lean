import SoftPlc.Ir.Basic
import SoftPlc.Lib.Bytes
import SoftPlc.Lib.Bind
import SoftPlc.Lib.StableSort
import Mathlib.Data.String.Basic

/-!
# Retain layouts and the remap by symbol

A retain layout (`plc-ir/src/retain.rs`) names the values of a retain segment. `RetainLayout`
carries what `RetainLayout::new` checks: names in order and distinct, every value inside the
segment, no two overlapping. Records (`plc-retain/src/codec.rs`) are the values of an image by
name, and `applyRecords` (`plc-retain/src/map.rs`) puts records into an image of another layout.
`mapRetain_ok` says what a remap puts where.
-/

namespace SoftPlc.Retain

open SoftPlc.Ir SoftPlc.Lib

/-! ## Layouts -/

/-- One retained symbol. Source: `retain.rs`, `RetainSymbol`. -/
structure RetainSymbol where
  /-- IEC path. -/
  name : String
  /-- Value type. -/
  ty : IrType
  /-- Byte offset in the retain segment. -/
  offset : ℕ
  deriving DecidableEq, Repr

/-- Exclusive end offset. Source: `retain.rs`, `RetainSymbol::end_offset`; layouts are checked to
end below `u32::MAX` before it is used. -/
def RetainSymbol.endOffset (s : RetainSymbol) : ℕ := s.offset + s.ty.byteWidth

/-- Validated retain segment layout. Source: `retain.rs`, `RetainLayout`. -/
structure RetainLayout where
  /-- Retain segment size in bytes. -/
  retainSize : ℕ
  /-- Symbols sorted by name. -/
  symbols : List RetainSymbol
  /-- Names in order, no two equal. -/
  sorted : symbols.Pairwise fun a b => a.name < b.name
  /-- In bounds. -/
  bounded : ∀ s ∈ symbols, s.endOffset ≤ retainSize
  /-- Not overlapping. -/
  disjoint : symbols.Pairwise fun a b => a.endOffset ≤ b.offset ∨ b.endOffset ≤ a.offset

/-- A check of neighbours. Source: `retain.rs`, `for window in symbols.windows(2)`. -/
def checkWindows (bad : RetainSymbol → RetainSymbol → Bool)
    (text : RetainSymbol → RetainSymbol → String) : List RetainSymbol → Except String Unit
  | a :: b :: rest =>
      if bad a b then .error (text a b) else checkWindows bad text (b :: rest)
  | _ => .ok ()

/-- A check of one symbol. Source: `retain.rs`, `for sym in &symbols`. -/
def checkSymbol (retainSize : ℕ) (s : RetainSymbol) : Except String Unit :=
  if s.name = "" then .error "empty symbol name"
  else if s.endOffset > retainSize then
    .error ("symbol " ++ s.name ++ " at " ++ toString s.offset ++ "+" ++ toString s.ty.byteWidth ++
      " exceeds retain_size " ++ toString retainSize)
  else .ok ()

/-- Symbols in the order of their names. Source: `retain.rs`, `symbols.sort_by`. -/
def byName (symbols : List RetainSymbol) : List RetainSymbol :=
  symbols.mergeSort fun a b => a.name ≤ b.name

/-- Symbols in the order of their offsets. Source: `retain.rs`, `by_off.sort_by_key`. -/
def byOffset (symbols : List RetainSymbol) : List RetainSymbol :=
  symbols.mergeSort fun a b => a.offset ≤ b.offset

/-- The checks of a layout. Source: `retain.rs`, `RetainLayout::new`. -/
def checkLayout (retainSize : ℕ) (symbols : List RetainSymbol) : Except String Unit := do
  checkWindows (fun a b => a.name == b.name) (fun a _ => "duplicate symbol " ++ a.name) symbols
  symbols.forM (checkSymbol retainSize)
  checkWindows (fun a b => a.endOffset > b.offset)
    (fun a b => "symbols " ++ a.name ++ " and " ++ b.name ++ " overlap") (byOffset symbols)

/-- Neighbours that pass a check form a chain. -/
theorem checkWindows_ok {bad : RetainSymbol → RetainSymbol → Bool}
    {text : RetainSymbol → RetainSymbol → String} {xs : List RetainSymbol}
    (h : checkWindows bad text xs = .ok ()) : xs.IsChain fun a b => bad a b = false := by
  induction xs with
  | nil => exact .nil
  | cons a xs ih =>
      rcases xs with _ | ⟨b, xs⟩
      · exact .singleton a
      · rw [checkWindows] at h
        split_ifs at h with hbad
        exact .cons_cons (Bool.eq_false_iff.mpr hbad) (ih h)

/-- Symbols that pass their check. -/
theorem checkSymbol_ok {retainSize : ℕ} {s : RetainSymbol} (h : checkSymbol retainSize s = .ok ()) :
    s.endOffset ≤ retainSize := by
  unfold checkSymbol at h
  split_ifs at h with _ hb
  exact Nat.le_of_not_gt hb

/-- Two properties of neighbours. -/
theorem isChain_and {R S : RetainSymbol → RetainSymbol → Prop} {xs : List RetainSymbol}
    (hR : xs.IsChain R) (hS : xs.IsChain S) : xs.IsChain fun a b => R a b ∧ S a b := by
  induction xs with
  | nil => exact .nil
  | cons a xs ih =>
      rcases xs with _ | ⟨b, xs⟩
      · exact .singleton a
      · rw [List.isChain_cons_cons] at hR hS ⊢
        exact ⟨⟨hR.1, hS.1⟩, ih hR.2 hS.2⟩

/-- A transitive property of neighbours is one of any two. -/
theorem pairwise_of_isChain {R : RetainSymbol → RetainSymbol → Prop} {xs : List RetainSymbol}
    (hR : ∀ a b c, R a b → R b c → R a c) (h : xs.IsChain R) : xs.Pairwise R :=
  have : Trans R R R := ⟨hR _ _ _⟩
  h.pairwise

section Checked

variable {retainSize : ℕ} {symbols : List RetainSymbol}

/-- What the checks pass has distinct names. -/
theorem sorted_of_check (h : checkLayout retainSize (byName symbols) = .ok ()) :
    (byName symbols).Pairwise fun a b => a.name < b.name := by
  obtain ⟨⟨⟩, hdup, -⟩ := except_bind_ok.mp h
  have hsorted : (byName symbols).Pairwise fun a b => a.name ≤ b.name :=
    sortByKey_sorted (fun s : RetainSymbol => s.name) symbols
  have hchain : (byName symbols).IsChain fun a b => a.name < b.name := by
    refine (isChain_and hsorted.isChain (checkWindows_ok hdup)).imp ?_
    rintro a b ⟨hle, hne⟩
    exact lt_of_le_of_ne hle (by simpa using hne)
  exact pairwise_of_isChain (fun _ _ _ => lt_trans) hchain

/-- What the checks pass is in bounds. -/
theorem bounded_of_check (h : checkLayout retainSize symbols = .ok ()) :
    ∀ s ∈ symbols, s.endOffset ≤ retainSize := by
  obtain ⟨⟨⟩, -, h⟩ := except_bind_ok.mp h
  obtain ⟨⟨⟩, hsyms, -⟩ := except_bind_ok.mp h
  exact fun s hs => checkSymbol_ok (except_forM_ok hsyms s hs)

/-- What the checks pass does not overlap. -/
theorem disjoint_of_check (h : checkLayout retainSize symbols = .ok ()) :
    symbols.Pairwise fun a b => a.endOffset ≤ b.offset ∨ b.endOffset ≤ a.offset := by
  obtain ⟨⟨⟩, -, h⟩ := except_bind_ok.mp h
  obtain ⟨⟨⟩, -, hoff⟩ := except_bind_ok.mp h
  have hchain : (byOffset symbols).IsChain fun a b => a.endOffset ≤ b.offset :=
    (checkWindows_ok hoff).imp fun a b hab => by simpa using hab
  have hpair := pairwise_of_isChain
    (fun _ _ _ hab hbc => hab.trans ((Nat.le_add_right _ _).trans hbc)) hchain
  refine ((List.mergeSort_perm symbols _).pairwise_iff ?_).mp (hpair.imp fun hab => .inl hab)
  exact fun hab => hab.symm

end Checked

/-- Source: `retain.rs`, `RetainLayout::new`. -/
def RetainLayout.new (retainSize : ℕ) (symbols : List RetainSymbol) : Except String RetainLayout :=
  match h : checkLayout retainSize (byName symbols) with
  | .ok () =>
      .ok ⟨retainSize, byName symbols, sorted_of_check h, bounded_of_check h, disjoint_of_check h⟩
  | .error e => .error e

/-- Look up a symbol by its exact name; the binary search of the source finds the one symbol of the
name. Source: `retain.rs`, `RetainLayout::get`. -/
def RetainLayout.get (l : RetainLayout) (name : String) : Option RetainSymbol :=
  l.symbols.find? fun s => s.name == name

/-- A symbol that is found has the name and is one of the layout. -/
theorem RetainLayout.get_some {l : RetainLayout} {name : String} {s : RetainSymbol}
    (h : l.get name = some s) : s ∈ l.symbols ∧ s.name = name :=
  ⟨List.mem_of_find?_eq_some h, by simpa using List.find?_some h⟩

/-- Two symbols of a name are one. -/
theorem RetainLayout.eq_of_name (l : RetainLayout) {s t : RetainSymbol} (hs : s ∈ l.symbols)
    (ht : t ∈ l.symbols) (h : s.name = t.name) : s = t := by
  obtain ⟨i, hi, rfl⟩ := List.getElem_of_mem hs
  obtain ⟨j, hj, rfl⟩ := List.getElem_of_mem ht
  have hpair := List.pairwise_iff_getElem.mp l.sorted
  rcases lt_trichotomy i j with hij | rfl | hij
  · exact absurd h (hpair i j hi hj hij).ne
  · rfl
  · exact absurd h (hpair j i hj hi hij).ne'

/-- A symbol of the layout is found by its name. -/
theorem RetainLayout.get_of_mem (l : RetainLayout) {s : RetainSymbol} (hs : s ∈ l.symbols) :
    l.get s.name = some s := by
  rcases h : l.get s.name with _ | t
  · have hnone := List.find?_eq_none.mp h s hs
    simp at hnone
  · obtain ⟨ht, hname⟩ := RetainLayout.get_some h
    rw [l.eq_of_name ht hs hname]

/-- Two symbols that overlap are one. -/
theorem RetainLayout.disjoint_of_ne (l : RetainLayout) {s t : RetainSymbol} (hs : s ∈ l.symbols)
    (ht : t ∈ l.symbols) (h : s ≠ t) : s.endOffset ≤ t.offset ∨ t.endOffset ≤ s.offset := by
  obtain ⟨i, hi, rfl⟩ := List.getElem_of_mem hs
  obtain ⟨j, hj, rfl⟩ := List.getElem_of_mem ht
  have hpair := List.pairwise_iff_getElem.mp l.disjoint
  rcases lt_trichotomy i j with hij | rfl | hij
  · exact hpair i j hi hj hij
  · exact absurd rfl h
  · exact (hpair j i hj hi hij).symm

/-! ## Records -/

/-- Errors that the modelled part returns. Source: `plc-retain/src/error.rs`, `RetainError`. -/
inductive RetainError where
  | invalidProgramId (id : String)
  | imageSize (expected actual : ℕ)
  | incompatible (names : List String)
  | codec (message : String)
  deriving DecidableEq, Repr

/-- One decoded retain record. Source: `codec.rs`, `RetainRecord`. -/
structure RetainRecord where
  /-- IEC path. -/
  name : String
  /-- Stored type. -/
  ty : IrType
  /-- Little-endian value bytes. -/
  value : List UInt8
  deriving DecidableEq, Repr

/-- The bytes of a symbol in an image. Source: `&image[start..start + width]`. -/
def RetainSymbol.slice (s : RetainSymbol) (image : List UInt8) : List UInt8 :=
  readAt image s.offset s.ty.byteWidth

/-- The record of a symbol. Source: `codec.rs`, the closure of `records_from_image`. -/
def RetainSymbol.record (s : RetainSymbol) (image : List UInt8) : RetainRecord :=
  ⟨s.name, s.ty, s.slice image⟩

/-- Extract the records of an image. Source: `codec.rs`, `records_from_image`. -/
def recordsFromImage (layout : RetainLayout) (image : List UInt8) :
    Except RetainError (List RetainRecord) :=
  if image.length ≠ layout.retainSize then .error (.imageSize layout.retainSize image.length)
  else .ok (layout.symbols.map fun s => s.record image)

/-! ## Remap -/

/-- Outcome of a remap. Source: `map.rs`, `MapReport`. -/
structure MapReport where
  /-- Same path and type, value copied. -/
  kept : ℕ := 0
  /-- Present only in the new layout. -/
  coldDefaults : ℕ := 0
  /-- Present only in the old image. -/
  dropped : ℕ := 0
  /-- Same path, other type, zeroed. -/
  zeroedIncompat : List String := []
  deriving DecidableEq, Repr

/-- New image with its report. Source: `map.rs`, `MappedRetain`. -/
structure MappedRetain where
  image : List UInt8
  report : MapReport
  deriving DecidableEq, Repr

/-- The locals of the loop. Source: `map.rs`, the `let mut`s of `apply_records`. -/
structure ApplyState where
  image : List UInt8
  kept : ℕ
  dropped : ℕ
  incompat : List String
  used : List Bool

/-- One record. Source: `map.rs`, `for rec in records`. -/
def applyRecord (layout : RetainLayout) (st : ApplyState) (rec : RetainRecord) :
    Except RetainError ApplyState :=
  match layout.get rec.name with
  | none => .ok { st with dropped := st.dropped + 1 }
  | some sym =>
      if sym.ty = rec.ty then
        if rec.value.length ≠ rec.ty.byteWidth then
          .error (.codec ("record " ++ rec.name ++ " value width " ++ toString rec.value.length ++
            " != " ++ toString rec.ty.byteWidth))
        else
          .ok { st with
                image := writeAt st.image sym.offset rec.value
                kept := st.kept + 1
                used := st.used.set (layout.symbols.findIdx fun s => s.name == rec.name) true }
      else .ok { st with incompat := st.incompat ++ [rec.name] }

/-- The report of a finished loop. Source: `map.rs`, the end of `apply_records`. -/
def ApplyState.report (st : ApplyState) (forceIncompat : Bool) : MapReport :=
  let zeroed := if forceIncompat then st.incompat else []
  { kept := st.kept
    coldDefaults := st.used.count false - zeroed.length
    dropped := st.dropped
    zeroedIncompat := zeroed }

/-- Put records into a zeroed image of a layout. Source: `map.rs`, `apply_records`. -/
def applyRecords (records : List RetainRecord) (layout : RetainLayout) (forceIncompat : Bool) :
    Except RetainError MappedRetain := do
  let st ← records.foldlM (applyRecord layout)
    ⟨List.replicate layout.retainSize 0, 0, 0, [], List.replicate layout.symbols.length false⟩
  if st.incompat ≠ [] ∧ !forceIncompat then .error (.incompatible st.incompat)
  else .ok ⟨st.image, st.report forceIncompat⟩

/-- Source: `map.rs`, `map_retain`. -/
def mapRetain (old : RetainLayout) (oldImage : List UInt8) (new : RetainLayout)
    (forceIncompat : Bool) : Except RetainError MappedRetain := do
  let records ← recordsFromImage old oldImage
  applyRecords records new forceIncompat

/-! ### What a remap puts where -/

/-- Bytes of zero. -/
def RetainSymbol.zeros (s : RetainSymbol) : List UInt8 := List.replicate s.ty.byteWidth 0

/-- The value that records give a symbol: that of the last record with its name and type. -/
def RetainSymbol.latest (s : RetainSymbol) (records : List RetainRecord) (v : List UInt8) :
    List UInt8 :=
  records.foldl (fun v r => if r.name = s.name ∧ r.ty = s.ty then r.value else v) v

/-- The value that an image under a layout gives a symbol: that of the symbol with its name and
type, and zero if there is none. -/
def RetainLayout.valueOf (l : RetainLayout) (image : List UInt8) (s : RetainSymbol) : List UInt8 :=
  match l.get s.name with
  | some o => if o.ty = s.ty then o.slice image else s.zeros
  | none => s.zeros

/-- A byte that belongs to no symbol. -/
def RetainLayout.Outside (l : RetainLayout) (i : ℕ) : Prop :=
  ∀ s ∈ l.symbols, i < s.offset ∨ s.endOffset ≤ i

/-- One record changes the value of the symbol it names. -/
theorem applyRecord_ok {layout : RetainLayout} {st st' : ApplyState} {rec : RetainRecord}
    (hlen : st.image.length = layout.retainSize) (h : applyRecord layout st rec = .ok st') :
    st'.image.length = layout.retainSize ∧
      (∀ s ∈ layout.symbols, s.slice st'.image =
        if rec.name = s.name ∧ rec.ty = s.ty then rec.value else s.slice st.image) ∧
      ∀ i, layout.Outside i → st'.image[i]? = st.image[i]? := by
  unfold applyRecord at h
  rcases hget : layout.get rec.name with _ | sym
  · rw [hget] at h
    cases h
    refine ⟨hlen, ?_, fun _ _ => rfl⟩
    intro s hs
    rw [if_neg]
    rintro ⟨hname, -⟩
    rw [hname, layout.get_of_mem hs] at hget
    cases hget
  · obtain ⟨hsym, hname⟩ := RetainLayout.get_some hget
    simp only [hget] at h
    split_ifs at h with hty hwidth
    · cases h
      have hw : rec.value.length = sym.ty.byteWidth := by
        rw [hty]
        exact not_not.mp hwidth
      have hfit : sym.offset + rec.value.length ≤ st.image.length := by
        rw [hw, hlen]
        exact layout.bounded sym hsym
      refine ⟨by rw [writeAt_length hfit, hlen], ?_, ?_⟩
      · intro s hs
        by_cases hsame : s = sym
        · subst hsame
          rw [if_pos ⟨hname.symm, hty.symm⟩]
          show readAt _ _ _ = _
          rw [← hw]
          exact readAt_writeAt_same hfit
        · have hd := layout.disjoint_of_ne hs hsym hsame
          rw [if_neg]
          · refine readAt_writeAt_of_disjoint hfit ?_
            rw [hw]
            exact hd
          · rintro ⟨hn, -⟩
            exact hsame (layout.eq_of_name hs hsym (hn.symm.trans hname.symm))
      · intro i hi
        have hout := hi sym hsym
        rw [getElem?_writeAt hfit, if_neg]
        unfold RetainSymbol.endOffset at hout
        omega
    · cases h
      refine ⟨hlen, ?_, fun _ _ => rfl⟩
      intro s hs
      rw [if_neg]
      rintro ⟨hn, ht⟩
      rw [layout.eq_of_name hs hsym (hn.symm.trans hname.symm)] at ht
      exact hty ht.symm

/-- The loop over the records. -/
theorem foldlM_applyRecord_ok {layout : RetainLayout} {records : List RetainRecord}
    {st st' : ApplyState} (hlen : st.image.length = layout.retainSize)
    (h : records.foldlM (applyRecord layout) st = .ok st') :
    st'.image.length = layout.retainSize ∧
      (∀ s ∈ layout.symbols, s.slice st'.image = s.latest records (s.slice st.image)) ∧
      ∀ i, layout.Outside i → st'.image[i]? = st.image[i]? := by
  induction records generalizing st with
  | nil =>
      cases h
      exact ⟨hlen, fun _ _ => rfl, fun _ _ => rfl⟩
  | cons rec rest ih =>
      rw [List.foldlM_cons] at h
      obtain ⟨st₁, h₁, h₂⟩ := except_bind_ok.mp h
      obtain ⟨hlen₁, hslice₁, hout₁⟩ := applyRecord_ok hlen h₁
      obtain ⟨hlen₂, hslice₂, hout₂⟩ := ih hlen₁ h₂
      refine ⟨hlen₂, ?_, fun i hi => (hout₂ i hi).trans (hout₁ i hi)⟩
      intro s hs
      rw [hslice₂ s hs, hslice₁ s hs]
      rfl

/-- The value of a symbol in a zeroed image. -/
theorem RetainLayout.slice_replicate (l : RetainLayout) {s : RetainSymbol} (hs : s ∈ l.symbols) :
    s.slice (List.replicate l.retainSize 0) = s.zeros := by
  have hb := l.bounded s hs
  unfold RetainSymbol.endOffset at hb
  simp only [RetainSymbol.slice, RetainSymbol.zeros, readAt, List.drop_replicate,
    List.take_replicate]
  congr 1
  omega

/-- **What records put where**: every symbol gets the value of the last record with its name and
type, or zero, and everything else is zero. -/
theorem applyRecords_ok {records : List RetainRecord} {layout : RetainLayout} {force : Bool}
    {m : MappedRetain} (h : applyRecords records layout force = .ok m) :
    m.image.length = layout.retainSize ∧
      (∀ s ∈ layout.symbols, s.slice m.image = s.latest records s.zeros) ∧
      ∀ i, i < layout.retainSize → layout.Outside i → m.image[i]? = some 0 := by
  obtain ⟨st, hst, h⟩ := except_bind_ok.mp h
  split_ifs at h
  cases h
  obtain ⟨hlen, hslice, hout⟩ := foldlM_applyRecord_ok (by simp) hst
  refine ⟨hlen, ?_, ?_⟩
  · intro s hs
    rw [hslice s hs, layout.slice_replicate hs]
  · intro i hi ho
    rw [hout i ho]
    simp [hi]

/-- Records of the right widths never fail. -/
theorem foldlM_applyRecord_total {layout : RetainLayout} {records : List RetainRecord}
    (h : ∀ r ∈ records, r.value.length = r.ty.byteWidth) (st : ApplyState) :
    ∃ st', records.foldlM (applyRecord layout) st = .ok st' := by
  induction records generalizing st with
  | nil => exact ⟨st, rfl⟩
  | cons rec rest ih =>
      have hrec : ∃ st₁, applyRecord layout st rec = .ok st₁ := by
        unfold applyRecord
        rcases layout.get rec.name with _ | sym
        · exact ⟨_, rfl⟩
        · have hw := h rec List.mem_cons_self
          simp only [hw, ne_eq, not_true_eq_false, if_false]
          split_ifs
          · exact ⟨_, rfl⟩
          · exact ⟨_, rfl⟩
      obtain ⟨st₁, h₁⟩ := hrec
      obtain ⟨st', h'⟩ := ih (fun r hr => h r (List.mem_cons_of_mem _ hr)) st₁
      rw [List.foldlM_cons]
      exact ⟨st', except_bind_ok.mpr ⟨st₁, h₁, h'⟩⟩

/-- A forced remap of records of the right widths succeeds. -/
theorem applyRecords_total {layout : RetainLayout} {records : List RetainRecord}
    (h : ∀ r ∈ records, r.value.length = r.ty.byteWidth) :
    ∃ m, applyRecords records layout true = .ok m := by
  obtain ⟨st, hst⟩ := foldlM_applyRecord_total h
    ⟨List.replicate layout.retainSize 0, 0, 0, [], List.replicate layout.symbols.length false⟩
  exact ⟨⟨st.image, st.report true⟩, except_bind_ok.mpr ⟨st, hst, if_neg (by simp)⟩⟩

/-- Records of other names do not change a value. -/
theorem RetainSymbol.latest_of_forall_ne {s : RetainSymbol} {records : List RetainRecord}
    (h : ∀ r ∈ records, ¬(r.name = s.name ∧ r.ty = s.ty)) (v : List UInt8) :
    s.latest records v = v := by
  induction records with
  | nil => rfl
  | cons r rest ih =>
      show s.latest rest (if r.name = s.name ∧ r.ty = s.ty then r.value else v) = v
      rw [if_neg (h r List.mem_cons_self)]
      exact ih fun r' hr' => h r' (List.mem_cons_of_mem _ hr')

/-- The value that the records of an image give a symbol. -/
theorem latest_recordsFromImage {l : RetainLayout} {image : List UInt8} {records : List RetainRecord}
    (h : recordsFromImage l image = .ok records) (s : RetainSymbol) :
    s.latest records s.zeros = l.valueOf image s := by
  unfold recordsFromImage at h
  split_ifs at h
  cases h
  unfold RetainLayout.valueOf
  rcases hget : l.get s.name with _ | o
  · refine RetainSymbol.latest_of_forall_ne ?_ _
    rintro r hr ⟨hname, -⟩
    obtain ⟨t, ht, rfl⟩ := List.mem_map.mp hr
    have hfound := l.get_of_mem ht
    rw [show t.name = s.name from hname, hget] at hfound
    cases hfound
  · obtain ⟨ho, hname⟩ := RetainLayout.get_some hget
    -- The symbol found is one of the list; the names before and after it are others.
    obtain ⟨before, after, hsyms⟩ := List.append_of_mem ho
    have hother : ∀ t, t ∈ before ∨ t ∈ after → t.name ≠ s.name := by
      intro t ht heq
      have hsorted := l.sorted
      rw [hsyms, List.pairwise_append, List.pairwise_cons] at hsorted
      obtain ⟨-, ⟨hafter, -⟩, hbefore⟩ := hsorted
      rcases ht with ht | ht
      · exact (hbefore t ht o List.mem_cons_self).ne (heq.trans hname.symm)
      · exact (hafter t ht).ne' (heq.trans hname.symm)
    have hskip : ∀ (xs : List RetainSymbol), (∀ t ∈ xs, t.name ≠ s.name) → ∀ v,
        s.latest (xs.map fun t => t.record image) v = v := by
      intro xs hxs v
      refine RetainSymbol.latest_of_forall_ne ?_ v
      rintro r hr ⟨heq, -⟩
      obtain ⟨t, ht, rfl⟩ := List.mem_map.mp hr
      exact hxs t ht heq
    rw [hsyms, List.map_append, List.map_cons]
    unfold RetainSymbol.latest at hskip ⊢
    rw [List.foldl_append, List.foldl_cons, hskip before fun t ht => hother t (.inl ht),
      hskip after fun t ht => hother t (.inr ht)]
    by_cases hty : o.ty = s.ty
    · simp [RetainSymbol.record, hname, hty]
    · simp [RetainSymbol.record, hname, hty]

/-- **What a remap puts where.** -/
theorem mapRetain_ok {old new : RetainLayout} {image : List UInt8} {force : Bool}
    {m : MappedRetain} (h : mapRetain old image new force = .ok m) :
    m.image.length = new.retainSize ∧
      (∀ s ∈ new.symbols, s.slice m.image = old.valueOf image s) ∧
      ∀ i, i < new.retainSize → new.Outside i → m.image[i]? = some 0 := by
  obtain ⟨records, hrec, h⟩ := except_bind_ok.mp h
  obtain ⟨hlen, hslice, hout⟩ := applyRecords_ok h
  refine ⟨hlen, ?_, hout⟩
  intro s hs
  rw [hslice s hs, latest_recordsFromImage hrec]

/-! ### When a remap succeeds -/

/-- The names that a record adds to the incompatible ones. -/
def mismatch (layout : RetainLayout) (name : String) (ty : IrType) : List String :=
  match layout.get name with
  | some sym => if sym.ty = ty then [] else [name]
  | none => []

/-- What one record adds to the incompatible names. -/
theorem applyRecord_incompat {layout : RetainLayout} {st st' : ApplyState} {rec : RetainRecord}
    (h : applyRecord layout st rec = .ok st') :
    st'.incompat = st.incompat ++ mismatch layout rec.name rec.ty := by
  unfold applyRecord at h
  unfold mismatch
  rcases hget : layout.get rec.name with _ | sym
  · simp only [hget] at h
    cases h
    simp
  · simp only [hget] at h ⊢
    split_ifs at h with hty
    · cases h
      simp [hty]
    · cases h
      simp [hty]

/-- The incompatible names of a loop. -/
theorem foldlM_applyRecord_incompat {layout : RetainLayout} {records : List RetainRecord}
    {st st' : ApplyState} (h : records.foldlM (applyRecord layout) st = .ok st') :
    st'.incompat = st.incompat ++ records.flatMap fun r => mismatch layout r.name r.ty := by
  induction records generalizing st with
  | nil =>
      cases h
      simp
  | cons rec rest ih =>
      rw [List.foldlM_cons] at h
      obtain ⟨st₁, h₁, h₂⟩ := except_bind_ok.mp h
      rw [ih h₂, applyRecord_incompat h₁, List.flatMap_cons, List.append_assoc]

/-- The records of an image have the widths of their types. -/
theorem record_width {l : RetainLayout} {image : List UInt8} (hlen : image.length = l.retainSize) :
    ∀ r ∈ l.symbols.map (fun s => s.record image), r.value.length = r.ty.byteWidth := by
  intro r hr
  obtain ⟨s, hs, rfl⟩ := List.mem_map.mp hr
  exact readAt_length ((l.bounded s hs).trans hlen.ge)

/-- Whether a remap succeeds depends on the layouts only. -/
theorem mapRetain_of_length {old new : RetainLayout} {image image' : List UInt8} {force : Bool}
    {m : MappedRetain} (h : mapRetain old image new force = .ok m)
    (hlen : image'.length = old.retainSize) : ∃ m', mapRetain old image' new force = .ok m' := by
  obtain ⟨records, hrec, h⟩ := except_bind_ok.mp h
  unfold recordsFromImage at hrec
  split_ifs at hrec
  cases hrec
  obtain ⟨st, hst, h⟩ := except_bind_ok.mp h
  split_ifs at h with hincompat
  obtain ⟨st', hst'⟩ := @foldlM_applyRecord_total new _ (record_width hlen)
    ⟨List.replicate new.retainSize 0, 0, 0, [], List.replicate new.symbols.length false⟩
  have hsame : st'.incompat = st.incompat := by
    rw [foldlM_applyRecord_incompat hst, foldlM_applyRecord_incompat hst', List.flatMap_map,
      List.flatMap_map]
    rfl
  refine ⟨⟨st'.image, st'.report force⟩, ?_⟩
  refine except_bind_ok.mpr ⟨_, if_neg (not_not.mpr hlen), ?_⟩
  refine except_bind_ok.mpr ⟨st', hst', ?_⟩
  rw [if_neg]
  rw [hsame]
  exact hincompat

end SoftPlc.Retain

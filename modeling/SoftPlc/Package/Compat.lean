import SoftPlc.Lib.StableSort
import SoftPlc.Package.Format

/-!
# The compatibility hash

The preimage of the hash lists the interface of a program as lines of text: the retain symbols and the
outputs sorted by name, and the tasks. The sort is stable and looks at names only, so the types of a
name that is listed twice stay in the order of the manifest. Two preimages are equal exactly when the
interfaces are and every repeated name lists its types in the same order
(`compatibility_preimage_iff`).
-/

namespace SoftPlc.Package

open SoftPlc.Ir SoftPlc.Lib

/-! ## The preimage -/

/-- A line of a symbol with its type. Source: `compat.rs`, the bodies of the first two loops of
`compatibility_preimage`. -/
def typedLine (tag : UInt8) (name : String) (ty : IrType) : List UInt8 :=
  tag :: 9 :: (utf8 name ++ 9 :: utf8 (typeName ty))

/-- A line of a task. Source: `compat.rs`, the body of the last loop of `compatibility_preimage`. -/
def taskLine (name : String) : List UInt8 := 84 :: 9 :: utf8 name

/-- A line of a number. -/
def numberLine (label : String) (n : ℕ) : List UInt8 := utf8 label ++ digits n

/-- The tags of outputs. Source: `compat.rs`, `filter(|t| t.kind == TagKind::Q)`. -/
def Manifest.outputTags (m : Manifest) : List TagEntry := m.tagDictionary.filter fun t => t.kind = .q

/-- The lines of the preimage. -/
def compatibilityLines (m : Manifest) : List (List UInt8) :=
  [numberLine "ir_major=" m.irMajor, numberLine "primitive_abi=" m.primitiveAbi] ++
    ((sortByKey (fun s => s.name) m.retainSymbols).map (fun s => typedLine 82 s.name s.ty) ++
      ((sortByKey (fun t => t.name) m.outputTags).map (fun t => typedLine 81 t.name t.ty) ++
        (sortByKey id (keys m.taskEntries.entries)).map taskLine))

/-- Source: `compat.rs`, `compatibility_preimage`. -/
def compatibilityPreimage (m : Manifest) : List UInt8 := unlines 10 (compatibilityLines m)

/-- Source: `compat.rs`, `hex_encode`. -/
def hexEncode (bytes : List UInt8) : String :=
  String.ofList (bytes.flatMap fun b =>
    [Char.ofNat (hexDigit (b.toNat / 16)).toNat, Char.ofNat (hexDigit (b.toNat % 16)).toNat])

/-- Source: `compat.rs`, `compute_compatibility_hash`. -/
def computeCompatibilityHash (L : Libraries) (m : Manifest) : String :=
  hexEncode (L.sha256 (compatibilityPreimage m))

/-! ## Interfaces -/

/-- Names and types of the retain symbols. -/
def Manifest.retainPairs (m : Manifest) : List (String × IrType) :=
  m.retainSymbols.map fun s => (s.name, s.ty)

/-- Names and types of the outputs. -/
def Manifest.outputPairs (m : Manifest) : List (String × IrType) :=
  m.outputTags.map fun t => (t.name, t.ty)

/-- Two programs with the same interface. -/
structure SameInterface (m m' : Manifest) : Prop where
  irMajor : m.irMajor = m'.irMajor
  primitiveAbi : m.primitiveAbi = m'.primitiveAbi
  retain : m.retainPairs.Perm m'.retainPairs
  outputs : m.outputPairs.Perm m'.outputPairs
  tasks : ∀ name, name ∈ keys m.taskEntries.entries ↔ name ∈ keys m'.taskEntries.entries

/-- The types that are listed under a name, in the order of the list. -/
def typesUnder (name : String) (pairs : List (String × IrType)) : List IrType :=
  (withKey Prod.fst name pairs).map Prod.snd

/-- Some name lists its types in two orders. -/
def Reordered (m m' : Manifest) : Prop :=
  SameInterface m m' ∧ ∃ name,
    typesUnder name m.retainPairs ≠ typesUnder name m'.retainPairs ∨
      typesUnder name m.outputPairs ≠ typesUnder name m'.outputPairs

/-! ## Lines -/

/-- A name without control characters. -/
def Plain (name : String) : Prop := ¬(utf8 name).any isAsciiControl

theorem Plain.avoids {name : String} (h : Plain name) {b : UInt8} (hb : isAsciiControl b = true) :
    b ∉ utf8 name :=
  fun hmem => h (List.any_eq_true.mpr ⟨b, hmem, hb⟩)

theorem rejectAsciiControls_ok {label name : String} (h : rejectAsciiControls label name = .ok ()) :
    Plain name := by
  unfold rejectAsciiControls at h
  split_ifs at h with hcontrol
  exact hcontrol

/-- The names that go into the preimage. -/
structure Manifest.PlainNames (m : Manifest) : Prop where
  retain : ∀ s ∈ m.retainSymbols, Plain s.name
  outputs : ∀ t ∈ m.outputTags, Plain t.name
  tasks : ∀ name ∈ keys m.taskEntries.entries, Plain name

theorem validateFields_loops {L : Libraries} {m : Manifest} (h : m.validateFields L = .ok ()) :
    m.taskEntries.entries.forM checkTaskEntry = .ok () ∧
      (m.retainSymbols.forM fun s => rejectAsciiControls "retain name" s.name) = .ok () ∧
      m.tagDictionary.forM checkTag = .ok () := by
  unfold Manifest.validateFields at h
  obtain ⟨-, -, h⟩ := except_bind_ok.mp h
  split at h
  · cases h
  · by_cases hbuild : m.buildId = ""
    · rw [if_pos hbuild] at h
      cases h
    · by_cases hempty : m.taskEntries.entries = []
      · rw [if_neg hbuild, if_pos hempty] at h
        cases h
      · rw [if_neg hbuild, if_neg hempty] at h
        obtain ⟨⟨⟩, htasks, h⟩ := except_bind_ok.mp h
        obtain ⟨⟨⟩, hretain, h⟩ := except_bind_ok.mp h
        obtain ⟨⟨⟩, htags, -⟩ := except_bind_ok.mp h
        exact ⟨htasks, hretain, htags⟩

theorem Manifest.plainNames {L : Libraries} {m : Manifest} (h : m.validateFields L = .ok ()) :
    m.PlainNames := by
  obtain ⟨htasks, hretain, htags⟩ := validateFields_loops h
  refine ⟨?_, ?_, ?_⟩
  · intro s hs
    exact rejectAsciiControls_ok (except_forM_ok hretain s hs)
  · intro t ht
    obtain ⟨hmem, hkind⟩ := List.mem_filter.mp ht
    have hcheck := except_forM_ok htags t hmem
    rw [checkTag, if_pos (of_decide_eq_true hkind)] at hcheck
    exact rejectAsciiControls_ok hcheck
  · intro name hname
    obtain ⟨e, he, rfl⟩ := List.mem_map.mp hname
    have hcheck := except_forM_ok htasks e he
    unfold checkTaskEntry at hcheck
    split_ifs at hcheck
    exact rejectAsciiControls_ok hcheck

/-- A character of a decimal number is no control character. -/
theorem notMem_digits {b : UInt8} (hb : isAsciiControl b = true) (n : ℕ) : b ∉ digits n := by
  intro hmem
  obtain ⟨hlo, hhi⟩ := isDigit_of_mem_digits hmem
  simp only [isAsciiControl, Bool.or_eq_true, decide_eq_true_eq, UInt8.lt_iff_toNat_lt] at hb
  rcases hb with hb | rfl
  · have hlt : b.toNat < 32 := hb
    omega
  · exact absurd hhi (by decide)

theorem typeName_injective : Function.Injective typeName := by
  intro a b
  cases a <;> cases b <;> decide

theorem typeName_plain (ty : IrType) : Plain (typeName ty) := by
  unfold Plain
  cases ty <;> decide

theorem typedLine_avoids {tag : UInt8} {name : String} {ty : IrType} (htag : tag ≠ 10)
    (hname : Plain name) : (10 : UInt8) ∉ typedLine tag name ty := by
  have h₁ := hname.avoids (b := 10) (by decide)
  have h₂ := (typeName_plain ty).avoids (b := 10) (by decide)
  simp only [typedLine, List.mem_cons, List.mem_append, not_or]
  exact ⟨htag.symm, by decide, h₁, by decide, h₂⟩

theorem taskLine_avoids {name : String} (hname : Plain name) : (10 : UInt8) ∉ taskLine name := by
  have h₁ := hname.avoids (b := 10) (by decide)
  simp only [taskLine, List.mem_cons, not_or]
  exact ⟨by decide, by decide, h₁⟩

theorem typedLine_inj {tag : UInt8} {name name' : String} {ty ty' : IrType} (hname : Plain name)
    (hname' : Plain name') (h : typedLine tag name ty = typedLine tag name' ty') :
    name = name' ∧ ty = ty' := by
  have htail := (List.cons.inj (List.cons.inj h).2).2
  obtain ⟨hn, hty⟩ := append_cons_inj (hname.avoids (b := 9) (by decide))
    (hname'.avoids (b := 9) (by decide)) htail
  exact ⟨utf8_injective hn, typeName_injective (utf8_injective hty)⟩

/-- Two parts of a list that a predicate tells apart. -/
theorem append_inj_of_pred {α : Type*} {p : α → Bool} {a b x y : List α} (ha : ∀ c ∈ a, p c = true)
    (hb : ∀ c ∈ b, p c = true) (hx : ∀ c ∈ x, p c = false) (hy : ∀ c ∈ y, p c = false)
    (h : a ++ x = b ++ y) : a = b ∧ x = y := by
  have hfilter : ∀ {a x : List α}, (∀ c ∈ a, p c = true) → (∀ c ∈ x, p c = false) →
      (a ++ x).filter p = a := by
    intro a x ha hx
    rw [List.filter_append, List.filter_eq_self.mpr ha, List.filter_eq_nil_iff.mpr, List.append_nil]
    intro c hc
    rw [hx c hc]
    decide
  have hab : a = b := by
    rw [← hfilter ha hx, h, hfilter hb hy]
  subst hab
  exact ⟨rfl, List.append_cancel_left h⟩

/-- A line that starts with a tag. -/
def tagged (tag : UInt8) (line : List UInt8) : Bool := line.head? = some tag

/-! ## What the preimage shows -/

section Preimage

variable {m m' : Manifest}

/-- Sorted symbols as pairs. -/
theorem sortByKey_pairs {α : Type} (name : α → String) (ty : α → IrType) (l : List α) :
    (sortByKey name l).map (fun a => (name a, ty a)) =
      sortByKey Prod.fst (l.map fun a => (name a, ty a)) :=
  List.map_mergeSort fun _ _ _ _ => rfl

/-- Lines of symbols with plain names show the names and types in their order. -/
theorem map_typedLine_inj {tag : UInt8} {l l' : List (String × IrType)}
    (hl : ∀ x ∈ l, Plain x.1) (hl' : ∀ x ∈ l', Plain x.1)
    (h : l.map (fun x => typedLine tag x.1 x.2) = l'.map fun x => typedLine tag x.1 x.2) : l = l' := by
  induction l generalizing l' with
  | nil => exact (List.map_eq_nil_iff.mp h.symm).symm
  | cons x l ih =>
      cases l' with
      | nil => cases h
      | cons y l' =>
          obtain ⟨hline, hrest⟩ := List.cons.inj h
          obtain ⟨hname, hty⟩ := typedLine_inj (hl x List.mem_cons_self) (hl' y List.mem_cons_self) hline
          rw [Prod.ext hname hty, ih (fun z hz => hl z (List.mem_cons_of_mem _ hz))
            (fun z hz => hl' z (List.mem_cons_of_mem _ hz)) hrest]

/-- The lines by pairs of names and types. -/
theorem compatibilityLines_eq (m : Manifest) :
    compatibilityLines m =
      [numberLine "ir_major=" m.irMajor, numberLine "primitive_abi=" m.primitiveAbi] ++
        ((sortByKey Prod.fst m.retainPairs).map (fun x => typedLine 82 x.1 x.2) ++
          ((sortByKey Prod.fst m.outputPairs).map (fun x => typedLine 81 x.1 x.2) ++
            (keys m.taskEntries.entries).map taskLine)) := by
  have htasks : sortByKey id (keys m.taskEntries.entries) = keys m.taskEntries.entries := by
    apply List.mergeSort_of_pairwise
    exact (m.taskEntries.2).imp fun hlt => decide_eq_true (le_of_lt hlt)
  unfold compatibilityLines Manifest.retainPairs Manifest.outputPairs
  rw [htasks, ← sortByKey_pairs, ← sortByKey_pairs, List.map_map, List.map_map]
  rfl

theorem Manifest.PlainNames.retainPairs (h : m.PlainNames) :
    ∀ x ∈ sortByKey Prod.fst m.retainPairs, Plain x.1 := by
  intro x hx
  obtain ⟨s, hs, rfl⟩ := List.mem_map.mp ((sortByKey_perm _ _).mem_iff.mp hx)
  exact h.retain s hs

theorem Manifest.PlainNames.outputPairs (h : m.PlainNames) :
    ∀ x ∈ sortByKey Prod.fst m.outputPairs, Plain x.1 := by
  intro x hx
  obtain ⟨t, ht, rfl⟩ := List.mem_map.mp ((sortByKey_perm _ _).mem_iff.mp hx)
  exact h.outputs t ht

/-- No line has a line feed. -/
theorem Manifest.PlainNames.lines (h : m.PlainNames) :
    ∀ line ∈ compatibilityLines m, (10 : UInt8) ∉ line := by
  intro line hline
  rw [compatibilityLines_eq] at hline
  simp only [List.mem_append, List.mem_cons, List.not_mem_nil, or_false, List.mem_map] at hline
  rcases hline with (rfl | rfl) | ⟨x, hx, rfl⟩ | ⟨x, hx, rfl⟩ | ⟨name, hname, rfl⟩
  · rw [numberLine, List.mem_append, not_or]
    exact ⟨by decide, notMem_digits (by decide) _⟩
  · rw [numberLine, List.mem_append, not_or]
    exact ⟨by decide, notMem_digits (by decide) _⟩
  · exact typedLine_avoids (by decide) (h.retainPairs x hx)
  · exact typedLine_avoids (by decide) (h.outputPairs x hx)
  · exact taskLine_avoids (h.tasks name hname)

/-- The preimage shows the numbers, the sorted symbols and the tasks, and nothing else. -/
theorem compatibilityPreimage_eq_iff (h : m.PlainNames) (h' : m'.PlainNames) :
    compatibilityPreimage m = compatibilityPreimage m' ↔
      m.irMajor = m'.irMajor ∧ m.primitiveAbi = m'.primitiveAbi ∧
        sortByKey Prod.fst m.retainPairs = sortByKey Prod.fst m'.retainPairs ∧
        sortByKey Prod.fst m.outputPairs = sortByKey Prod.fst m'.outputPairs ∧
        keys m.taskEntries.entries = keys m'.taskEntries.entries := by
  constructor
  · intro heq
    have hlines := unlines_inj h.lines h'.lines heq
    rw [compatibilityLines_eq, compatibilityLines_eq] at hlines
    simp only [List.cons_append, List.nil_append] at hlines
    obtain ⟨hmajor, hlines⟩ := List.cons.inj hlines
    obtain ⟨habi, hlines⟩ := List.cons.inj hlines
    -- the tags tell the three kinds of lines apart
    have hsymbols : ∀ {tag : UInt8} {l : List (String × IrType)},
        ∀ line ∈ l.map (fun x => typedLine tag x.1 x.2), line.head? = some tag := by
      intro tag l line hline
      obtain ⟨x, -, rfl⟩ := List.mem_map.mp hline
      rfl
    have htasks : ∀ {l : List String}, ∀ line ∈ l.map taskLine, line.head? = some 84 := by
      intro l line hline
      obtain ⟨x, -, rfl⟩ := List.mem_map.mp hline
      rfl
    have htag : ∀ {tag : UInt8} {line : List UInt8}, line.head? = some tag → tagged tag line = true :=
      fun hhead => decide_eq_true hhead
    have hother : ∀ {tag tag' : UInt8} {line : List UInt8}, tag' ≠ tag → line.head? = some tag' →
        tagged tag line = false :=
      fun hne hhead => decide_eq_false fun heq => hne (Option.some.inj (hhead.symm.trans heq))
    obtain ⟨hretain, hlines⟩ := append_inj_of_pred (p := tagged 82)
      (fun c hc => htag (hsymbols c hc)) (fun c hc => htag (hsymbols c hc))
      (fun c hc => (List.mem_append.mp hc).elim (fun hc => hother (by decide) (hsymbols c hc))
        fun hc => hother (by decide) (htasks c hc))
      (fun c hc => (List.mem_append.mp hc).elim (fun hc => hother (by decide) (hsymbols c hc))
        fun hc => hother (by decide) (htasks c hc)) hlines
    obtain ⟨houtputs, hlines⟩ := append_inj_of_pred (p := tagged 81)
      (fun c hc => htag (hsymbols c hc)) (fun c hc => htag (hsymbols c hc))
      (fun c hc => hother (by decide) (htasks c hc)) (fun c hc => hother (by decide) (htasks c hc))
      hlines
    refine ⟨digits_injective (List.append_cancel_left hmajor),
      digits_injective (List.append_cancel_left habi),
      map_typedLine_inj h.retainPairs h'.retainPairs hretain,
      map_typedLine_inj h.outputPairs h'.outputPairs houtputs, ?_⟩
    apply List.map_injective_iff.mpr _ hlines
    intro a b hab
    exact utf8_injective (List.cons.inj (List.cons.inj hab).2).2
  · rintro ⟨hmajor, habi, hretain, houtputs, htasks⟩
    rw [compatibilityPreimage, compatibilityPreimage, compatibilityLines_eq, compatibilityLines_eq,
      hmajor, habi, hretain, houtputs, htasks]

/-- The pairs of a name are its types. -/
theorem withKey_eq_iff (name : String) (l l' : List (String × IrType)) :
    withKey Prod.fst name l = withKey Prod.fst name l' ↔ typesUnder name l = typesUnder name l' := by
  have hback : ∀ l : List (String × IrType),
      withKey Prod.fst name l = (typesUnder name l).map fun ty => (name, ty) := by
    intro l
    rw [typesUnder, List.map_map]
    symm
    apply (List.map_congr_left ?_).trans (List.map_id' _)
    intro x hx
    have hname : x.1 = name := of_decide_eq_true (List.mem_filter.mp hx).2
    rw [Function.comp_apply, ← hname]
  constructor
  · intro h
    rw [typesUnder, h, typesUnder]
  · intro h
    rw [hback, h, ← hback]

/-- Two maps with the same keys list them alike. -/
theorem keys_eq_iff (a b : SortedMap String String) :
    keys a.entries = keys b.entries ↔ ∀ name, name ∈ keys a.entries ↔ name ∈ keys b.entries := by
  constructor
  · intro h name
    rw [h]
  · intro h
    have hperm := (List.perm_ext_iff_of_nodup a.2.nodup b.2.nodup).mpr h
    refine hperm.eq_of_pairwise ?_ a.2 b.2
    intro x y _ _ hxy hyx
    exact absurd hxy (lt_asymm hyx)

/-- Equal preimages mean the same interface and no name with its types in two orders. -/
theorem compatibilityPreimage_eq_iff_interface (h : m.PlainNames) (h' : m'.PlainNames) :
    compatibilityPreimage m = compatibilityPreimage m' ↔
      SameInterface m m' ∧ ¬Reordered m m' := by
  rw [compatibilityPreimage_eq_iff h h', keys_eq_iff, sortByKey_eq_iff, sortByKey_eq_iff]
  simp only [withKey_eq_iff]
  constructor
  · rintro ⟨hmajor, habi, hretain, houtputs, htasks⟩
    have hperm : ∀ {l l' : List (String × IrType)},
        (∀ name, typesUnder name l = typesUnder name l') → l.Perm l' := by
      intro l l' hsame
      have hsorted : sortByKey Prod.fst l = sortByKey Prod.fst l' :=
        sortByKey_eq_iff.mpr fun name => (withKey_eq_iff name l l').mpr (hsame name)
      exact (sortByKey_perm Prod.fst l).symm.trans (hsorted ▸ sortByKey_perm Prod.fst l')
    refine ⟨⟨hmajor, habi, hperm hretain, hperm houtputs, htasks⟩, ?_⟩
    rintro ⟨-, name, hne | hne⟩
    · exact hne (hretain name)
    · exact hne (houtputs name)
  · rintro ⟨hsame, hordered⟩
    refine ⟨hsame.irMajor, hsame.primitiveAbi, ?_, ?_, hsame.tasks⟩
    · intro name
      by_contra hne
      exact hordered ⟨hsame, name, .inl hne⟩
    · intro name
      by_contra hne
      exact hordered ⟨hsame, name, .inr hne⟩

end Preimage

/-- **The preimage and the interface.** Of two manifests with valid fields, the preimages are equal
exactly when the interfaces are, unless a name lists the same types in two orders. -/
theorem compatibility_preimage_iff {L : Libraries} {m m' : Manifest}
    (h : m.validateFields L = .ok ()) (h' : m'.validateFields L = .ok ()) :
    (compatibilityPreimage m = compatibilityPreimage m' ↔ SameInterface m m') ↔
      ¬Reordered m m' := by
  rw [compatibilityPreimage_eq_iff_interface (Manifest.plainNames h) (Manifest.plainNames h')]
  constructor
  · intro hiff hreordered
    exact (hiff.mpr hreordered.1).2 hreordered
  · intro hordered
    exact ⟨fun hboth => hboth.1, fun hsame => ⟨hsame, hordered⟩⟩

/-- An output. -/
def outputTag (name : String) (ty : IrType) (slot : ℕ) : TagEntry := ⟨name, ty, .q, some slot⟩

/-- The minimal manifest with two outputs. -/
def withOutputs (a b : TagEntry) : Manifest := 
  { minimalManifest minimalHash with tagDictionary := [a, b] }

theorem withOutputs_swapped (a b : TagEntry) (ha : a.kind = .q) (hb : b.kind = .q) :
    SameInterface (withOutputs a b) (withOutputs b a) := by
  refine ⟨rfl, rfl, .refl _, ?_, fun _ => .rfl⟩
  have hpair : ∀ a b : TagEntry, a.kind = .q → b.kind = .q →
      (withOutputs a b).outputPairs = [(a.name, a.ty), (b.name, b.ty)] := by
    intro a b ha hb
    simp [withOutputs, Manifest.outputPairs, Manifest.outputTags, ha, hb]
  rw [hpair a b ha hb, hpair b a hb ha]
  exact .swap _ _ _

/-- Outputs with two names may be listed in any order. -/
theorem pump_and_valve_in_any_order :
    compatibilityPreimage (withOutputs (outputTag "Pump" .bool 0) (outputTag "Valve" .int 1)) =
        compatibilityPreimage (withOutputs (outputTag "Valve" .int 1) (outputTag "Pump" .bool 0)) ↔
      SameInterface (withOutputs (outputTag "Pump" .bool 0) (outputTag "Valve" .int 1))
        (withOutputs (outputTag "Valve" .int 1) (outputTag "Pump" .bool 0)) := by
  have hvalid : ∀ m : Manifest,
      (m.validateFields minimalLibraries).toOption = some () →
        m.validateFields minimalLibraries = .ok () :=
    fun _ => except_of_toOption
  apply (compatibility_preimage_iff (hvalid _ (by decide +kernel)) (hvalid _ (by decide +kernel))).mpr
  rintro ⟨-, name, hne | hne⟩
  · exact hne rfl
  · apply hne
    have hswap : ∀ a b : String × IrType, a.1 ≠ b.1 → typesUnder name [a, b] = typesUnder name [b, a] := by
      intro a b hab
      simp only [typesUnder, withKey_cons]
      split_ifs with ha hb
      · exact absurd (ha.trans hb.symm) hab
      · rfl
      · rfl
      · rfl
    exact hswap ("Pump", .bool) ("Valve", .int) (by decide +kernel)

/-- One name with two types gives two preimages. -/
theorem pump_listed_twice :
    let m := withOutputs (outputTag "Pump" .bool 0) (outputTag "Pump" .int 1)
    let m' := withOutputs (outputTag "Pump" .int 1) (outputTag "Pump" .bool 0)
    m.validateFields minimalLibraries = .ok () ∧
      m'.validateFields minimalLibraries = .ok () ∧ SameInterface m m' ∧
        compatibilityPreimage m ≠ compatibilityPreimage m' := by
  intro m m'
  have hm : m.validateFields minimalLibraries = .ok () :=
    except_of_toOption (by decide +kernel)
  have hm' : m'.validateFields minimalLibraries = .ok () :=
    except_of_toOption (by decide +kernel)
  have hsame : SameInterface m m' := withOutputs_swapped _ _ rfl rfl
  refine ⟨hm, hm', hsame, ?_⟩
  intro heq
  obtain ⟨-, hordered⟩ := (compatibilityPreimage_eq_iff_interface (Manifest.plainNames hm)
    (Manifest.plainNames hm')).mp heq
  exact hordered ⟨hsame, "Pump", .inr (by decide +kernel)⟩

end SoftPlc.Package

import SoftPlc.Retain.Reload

/-!
# The remap is exact

`mapRetain_exact` says all that `map_retain` does with two layouts: which pairs it refuses, what
every byte of the new image is, and that the report counts every symbol of both layouts once. The
counts meet because no layout has a name twice, so the symbols that both have can be counted on
either side.
-/

namespace SoftPlc.Retain

open SoftPlc.Ir SoftPlc.Lib

/-- A layout has no more symbols than bytes, so the `u32` counters of a report never overflow. -/
theorem RetainLayout.length_le (l : RetainLayout) : l.symbols.length ≤ l.retainSize := by
  have hwidth : ∀ t : IrType, 0 < t.byteWidth := by
    intro t
    cases t <;> decide
  have hnodup : (l.symbols.map (·.offset)).Nodup := by
    unfold List.Nodup
    rw [List.pairwise_map]
    refine l.disjoint.imp ?_
    intro a b hab heq
    have ha := hwidth a.ty
    have hb := hwidth b.ty
    unfold RetainSymbol.endOffset at hab
    omega
  have hsub : l.symbols.map (·.offset) ⊆ List.range l.retainSize := by
    intro i hi
    obtain ⟨s, hs, rfl⟩ := List.mem_map.mp hi
    have hend := l.bounded s hs
    have hpos := hwidth s.ty
    unfold RetainSymbol.endOffset at hend
    rw [List.mem_range]
    omega
  simpa using (hnodup.subperm hsub).length_le

/-! ## Names with two types -/

/-- A symbol of the layout has the name and another type. -/
def RetainLayout.Clashes (l : RetainLayout) (name : String) (ty : IrType) : Prop :=
  ∃ s ∈ l.symbols, s.name = name ∧ s.ty ≠ ty

instance (l : RetainLayout) (name : String) (ty : IrType) : Decidable (l.Clashes name ty) :=
  inferInstanceAs (Decidable (∃ s ∈ l.symbols, s.name = name ∧ s.ty ≠ ty))

/-- The names that have different types in two layouts, in the order of their names. -/
def conflicts (old new : RetainLayout) : List String :=
  (old.symbols.filter fun o => new.Clashes o.name o.ty).map (·.name)

theorem mem_conflicts {old new : RetainLayout} {name : String} :
    name ∈ conflicts old new ↔
      ∃ o ∈ old.symbols, ∃ s ∈ new.symbols, o.name = name ∧ s.name = name ∧ s.ty ≠ o.ty := by
  unfold conflicts
  simp only [List.mem_map, List.mem_filter, decide_eq_true_eq]
  constructor
  · rintro ⟨o, ⟨ho, s, hs, hname, hty⟩, rfl⟩
    exact ⟨o, ho, s, hs, rfl, hname, hty⟩
  · rintro ⟨o, ho, s, hs, rfl, hname, hty⟩
    exact ⟨o, ⟨ho, s, hs, hname, hty⟩, rfl⟩

theorem mismatch_eq (l : RetainLayout) (name : String) (ty : IrType) :
    mismatch l name ty = if l.Clashes name ty then [name] else [] := by
  unfold mismatch
  rcases hget : l.get name with _ | sym
  · rw [if_neg]
    rintro ⟨s, hs, rfl, -⟩
    rw [l.get_of_mem hs] at hget
    cases hget
  · obtain ⟨hsym, hname⟩ := RetainLayout.get_some hget
    have hiff : l.Clashes name ty ↔ sym.ty ≠ ty := by
      constructor
      · rintro ⟨s, hs, hsname, hty⟩
        rwa [l.eq_of_name hsym hs (hname.trans hsname.symm)]
      · intro hty
        exact ⟨sym, hsym, hname, hty⟩
    simp only [hiff]
    split_ifs with h <;> simp_all

/-- The names that the loop collects. -/
theorem flatMap_mismatch (old new : RetainLayout) (image : List UInt8) :
    ((old.symbols.map fun s => s.record image).flatMap fun r => mismatch new r.name r.ty) =
      conflicts old new := by
  unfold conflicts
  rw [List.flatMap_map]
  induction old.symbols with
  | nil => rfl
  | cons s rest ih =>
      rw [List.flatMap_cons, List.filter_cons, ih]
      simp only [RetainSymbol.record, mismatch_eq]
      split_ifs <;> simp_all

/-! ## Symbols that both layouts have -/

/-- What two lists without repetition share has one length, from either side. -/
theorem length_filter_mem_comm {α : Type*} [BEq α] [LawfulBEq α] {xs ys : List α} (hx : xs.Nodup)
    (hy : ys.Nodup) :
    (xs.filter fun x => x ∈ ys).length = (ys.filter fun y => y ∈ xs).length := by
  apply List.Perm.length_eq
  rw [List.perm_ext_iff_of_nodup (hx.filter _) (hy.filter _)]
  intro a
  simp only [List.mem_filter, decide_eq_true_eq]
  exact and_comm

section Counts

variable {layout : RetainLayout} {st st' : ApplyState} {records : List RetainRecord}

/-- Name and type of the symbols of a layout. -/
def RetainLayout.keys (l : RetainLayout) : List (String × IrType) := l.symbols.map RetainSymbol.key

/-- A record is kept where the layout has its name with its type. -/
theorem applyRecord_kept {r : RetainRecord} (h : applyRecord layout st r = .ok st') :
    st'.kept = st.kept + if r.key ∈ layout.keys then 1 else 0 := by
  have hmem : r.key ∈ layout.keys ↔ ∃ sym, layout.get r.name = some sym ∧ sym.ty = r.ty := by
    unfold RetainLayout.keys
    rw [List.mem_map]
    constructor
    · rintro ⟨s, hs, hkey⟩
      have hname : s.name = r.name := congrArg Prod.fst hkey
      exact ⟨s, hname ▸ layout.get_of_mem hs, congrArg Prod.snd hkey⟩
    · rintro ⟨sym, hget, hty⟩
      obtain ⟨hsym, hname⟩ := RetainLayout.get_some hget
      exact ⟨sym, hsym, Prod.ext hname hty⟩
  simp only [hmem]
  unfold applyRecord at h
  split at h
  · rename_i hnone
    cases h
    simp [hnone]
  · rename_i sym hget
    split_ifs at h with hty
    · cases h
      simp [hget, hty]
    · cases h
      simp [hget, hty]

theorem foldlM_applyRecord_kept (h : records.foldlM (applyRecord layout) st = .ok st') :
    st'.kept = st.kept + ((records.map RetainRecord.key).filter fun k => k ∈ layout.keys).length := by
  induction records generalizing st with
  | nil =>
      cases h
      rfl
  | cons r rest ih =>
      rw [List.foldlM_cons] at h
      obtain ⟨st₁, h₁, h₂⟩ := except_bind_ok.mp h
      rw [ih h₂, applyRecord_kept h₁, List.map_cons, List.filter_cons]
      by_cases hr : r.key ∈ layout.keys
      · simp only [hr, if_true, decide_true, List.length_cons]
        omega
      · simp [hr]

theorem applyRecord_used_length {r : RetainRecord} (h : applyRecord layout st r = .ok st') :
    st'.used.length = st.used.length := by
  unfold applyRecord at h
  split at h
  · cases h
    rfl
  · split_ifs at h
    · cases h
      exact List.length_set
    · cases h
      rfl

theorem foldlM_applyRecord_used_length (h : records.foldlM (applyRecord layout) st = .ok st') :
    st'.used.length = st.used.length := by
  induction records generalizing st with
  | nil =>
      cases h
      rfl
  | cons r rest ih =>
      rw [List.foldlM_cons] at h
      obtain ⟨st₁, h₁, h₂⟩ := except_bind_ok.mp h
      rw [ih h₂, applyRecord_used_length h₁]

/-- The symbols that the records have marked. -/
theorem foldlM_applyRecord_marks (hused : st.used = List.replicate layout.symbols.length false)
    (h : records.foldlM (applyRecord layout) st = .ok st') :
    st'.used = layout.keys.map fun k => decide (k ∈ records.map RetainRecord.key) := by
  have hlen : st.used.length = layout.symbols.length := by simp [hused]
  have hlen' := (foldlM_applyRecord_used_length h).trans hlen
  apply List.ext_getElem
  · simp [hlen', RetainLayout.keys]
  · intro i hi hi'
    have hs : layout.symbols[i]? = some layout.symbols[i] :=
      List.getElem?_eq_getElem (hlen' ▸ hi)
    have hiff := (foldlM_applyRecord_used hs hlen h).2
    rw [List.getElem?_eq_getElem hi, hused, List.getElem?_replicate, if_pos (hlen' ▸ hi)] at hiff
    simp only [RetainLayout.keys, List.getElem_map]
    rw [Bool.eq_iff_iff, decide_eq_true_eq]
    simpa using hiff

/-- The symbols that no record has marked. -/
theorem foldlM_applyRecord_unmarked (hused : st.used = List.replicate layout.symbols.length false)
    (h : records.foldlM (applyRecord layout) st = .ok st') :
    st'.used.count false =
      (layout.keys.filter fun k => !decide (k ∈ records.map RetainRecord.key)).length := by
  rw [foldlM_applyRecord_marks hused h, List.count, List.countP_map, List.countP_eq_length_filter]
  congr 2
  funext k
  simp

end Counts

/-- The names with two types belong to new symbols that no record marks. -/
theorem length_conflicts_le (old new : RetainLayout) :
    (conflicts old new).length ≤ (new.keys.filter fun k => !decide (k ∈ old.keys)).length := by
  have hnodup : (conflicts old new).Nodup := by
    have hnames : (old.symbols.map (·.name)).Nodup := by
      unfold List.Nodup
      rw [List.pairwise_map]
      exact old.sorted.imp fun hlt => hlt.ne
    exact hnames.sublist (List.filter_sublist.map _)
  have hsub : conflicts old new ⊆ (new.keys.filter fun k => !decide (k ∈ old.keys)).map Prod.fst := by
    intro name hname
    obtain ⟨o, ho, s, hs, rfl, hname, hty⟩ := mem_conflicts.mp hname
    refine List.mem_map.mpr ⟨s.key, List.mem_filter.mpr ⟨List.mem_map_of_mem hs, ?_⟩, hname⟩
    rw [Bool.not_eq_true', decide_eq_false_iff_not]
    intro hmem
    obtain ⟨o', ho', hkey⟩ := List.mem_map.mp hmem
    have hsame := old.eq_of_name ho' ho ((congrArg Prod.fst hkey).trans hname)
    rw [hsame] at hkey
    exact hty (congrArg Prod.snd hkey).symm
  simpa using (hnodup.subperm hsub).length_le

/-! ## The whole remap -/

/-- What a remap that succeeds has done. -/
structure Remapped (old new : RetainLayout) (image : List UInt8) (m : MappedRetain) : Prop where
  length : m.image.length = new.retainSize
  copied : ∀ s ∈ new.symbols, ∀ o ∈ old.symbols, o.name = s.name → o.ty = s.ty →
    s.slice m.image = o.slice image
  zero : ∀ i < new.retainSize,
    (∀ s ∈ new.symbols, s.key ∈ old.keys → i < s.offset ∨ s.endOffset ≤ i) → m.image[i]? = some 0
  new_counted :
    m.report.kept + m.report.coldDefaults + m.report.zeroedIncompat.length = new.symbols.length
  old_counted :
    m.report.kept + m.report.dropped + m.report.zeroedIncompat.length = old.symbols.length
  zeroed : m.report.zeroedIncompat = conflicts old new

section Remap

variable {old new : RetainLayout} {image : List UInt8} {force : Bool}

/-- The loop over the records of an image, and what decides after it. -/
theorem mapRetain_run (hlen : image.length = old.retainSize) :
    ∃ st, (old.symbols.map fun s => s.record image).foldlM (applyRecord new)
        ⟨List.replicate new.retainSize 0, 0, 0, [], List.replicate new.symbols.length false⟩ =
          .ok st ∧
      st.incompat = conflicts old new ∧
      mapRetain old image new force =
        if conflicts old new ≠ [] ∧ !force then .error (.incompatible (conflicts old new))
        else .ok ⟨st.image, st.report force⟩ := by
  obtain ⟨st, hst⟩ := @foldlM_applyRecord_total new _ (record_width hlen)
    ⟨List.replicate new.retainSize 0, 0, 0, [], List.replicate new.symbols.length false⟩
  have hincompat : st.incompat = conflicts old new := by
    rw [foldlM_applyRecord_incompat hst, List.nil_append, flatMap_mismatch]
  refine ⟨st, hst, hincompat, ?_⟩
  unfold mapRetain recordsFromImage applyRecords
  rw [if_neg (not_not.mpr hlen)]
  simp only [bind, Except.bind] at hst ⊢
  rw [hst, ← hincompat]

/-- Bytes that no kept symbol covers are zero. -/
theorem zero_of_not_kept {m : MappedRetain} (h : mapRetain old image new force = .ok m) {i : ℕ}
    (hi : i < new.retainSize)
    (hout : ∀ s ∈ new.symbols, s.key ∈ old.keys → i < s.offset ∨ s.endOffset ≤ i) :
    m.image[i]? = some 0 := by
  obtain ⟨hlen, hslice, hzero⟩ := mapRetain_ok h
  by_cases hin : new.Outside i
  · exact hzero i hi hin
  · -- a byte of a symbol that is not kept
    unfold RetainLayout.Outside at hin
    push Not at hin
    obtain ⟨s, hs, hlow, hhigh⟩ := hin
    have hkey : s.key ∉ old.keys := fun hmem => by
      rcases hout s hs hmem with hlt | hle
      · omega
      · omega
    have hval : old.valueOf image s = s.zeros := by
      unfold RetainLayout.valueOf
      rcases hget : old.get s.name with _ | o
      · rfl
      · obtain ⟨ho, hname⟩ := RetainLayout.get_some hget
        apply if_neg
        intro hty
        exact hkey (List.mem_map.mpr ⟨o, ho, Prod.ext hname hty⟩)
    have hz := hslice s hs
    rw [hval] at hz
    have hat := congrArg (fun l => l[i - s.offset]?) hz
    unfold RetainSymbol.endOffset at hhigh
    simp only [RetainSymbol.slice, RetainSymbol.zeros, readAt] at hat
    rw [List.getElem?_take_of_lt (by omega), List.getElem?_drop, List.getElem?_replicate,
      if_pos (by omega), Nat.add_sub_cancel' hlow] at hat
    exact hat

/-- The report counts every symbol of both layouts once. -/
theorem report_counts {st : ApplyState}
    (hst : (old.symbols.map fun s => s.record image).foldlM (applyRecord new)
      ⟨List.replicate new.retainSize 0, 0, 0, [], List.replicate new.symbols.length false⟩ = .ok st) :
    st.kept + (st.used.count false - (conflicts old new).length) + (conflicts old new).length =
        new.symbols.length ∧
      st.kept + st.dropped + st.incompat.length = old.symbols.length := by
  have hkeys : (old.symbols.map fun s => s.record image).map RetainRecord.key = old.keys := by
    rw [List.map_map]
    rfl
  have hkept := foldlM_applyRecord_kept hst
  have hcold := foldlM_applyRecord_unmarked rfl hst
  have hcount := foldlM_applyRecord_count hst
  rw [hkeys] at hkept hcold
  dsimp only at hkept
  have hshared : (old.keys.filter fun k => k ∈ new.keys).length =
      (new.keys.filter fun k => k ∈ old.keys).length :=
    length_filter_mem_comm old.keys_nodup new.keys_nodup
  have hsplit : new.keys.length = (new.keys.filter fun k => k ∈ old.keys).length +
      (new.keys.filter fun k => !decide (k ∈ old.keys)).length :=
    List.length_eq_length_filter_add _
  have hle := length_conflicts_le old new
  have hlen : new.keys.length = new.symbols.length := List.length_map ..
  simp only [List.length_map, List.length_nil] at hcount
  omega

/-- **The remap is exact.** -/
theorem mapRetain_exact (old new : RetainLayout) (image : List UInt8) (force : Bool)
    (hlen : image.length = old.retainSize) :
    ((∃ e, mapRetain old image new force = .error e) ↔ conflicts old new ≠ [] ∧ force = false) ∧
      (∀ e, mapRetain old image new force = .error e →
        e = .incompatible (conflicts old new)) ∧
      ∀ m, mapRetain old image new force = .ok m → Remapped old new image m := by
  obtain ⟨st, hst, hincompat, hrun⟩ := @mapRetain_run old new image force hlen
  refine ⟨?_, ?_, ?_⟩
  · rw [hrun]
    split_ifs with h
    · exact iff_of_true ⟨_, rfl⟩ (by simpa using h)
    · refine iff_of_false (by simp) (by simpa using h)
  · intro e he
    rw [hrun] at he
    split_ifs at he
    cases he
    rfl
  · intro m hm
    have hok := hm
    rw [hrun] at hm
    split_ifs at hm with h
    cases hm
    obtain ⟨hlength, hslice, -⟩ := mapRetain_ok hok
    obtain ⟨hnew, hold⟩ := report_counts hst
    have hzeroed : (st.report force).zeroedIncompat = conflicts old new := by
      by_cases hforce : force = true
      · simp [ApplyState.report, hforce, hincompat]
      · have hnone : conflicts old new = [] := by simpa [hforce] using h
        simp [ApplyState.report, hforce, hnone]
    have hcold : (st.report force).coldDefaults =
        st.used.count false - (conflicts old new).length := by
      rw [← hzeroed]
      rfl
    refine ⟨hlength, ?_, fun i => zero_of_not_kept hok, ?_, ?_, hzeroed⟩
    · intro s hs o ho hname hty
      rw [hslice s hs]
      unfold RetainLayout.valueOf
      rw [← hname, old.get_of_mem ho]
      exact if_pos hty
    · rw [hzeroed, hcold]
      exact hnew
    · rw [hzeroed, ← hincompat]
      exact hold

/-- A layout with one flag. -/
def movedFlag (size offset : ℕ) (h : offset < size) : RetainLayout where
  retainSize := size
  symbols := [⟨"flag", .bool, offset⟩]
  sorted := List.pairwise_singleton ..
  bounded := by simpa [RetainSymbol.endOffset, IrType.byteWidth] using h
  disjoint := List.pairwise_singleton ..

/-- The flag moves to another byte. -/
theorem mapRetain_exact_moved :
    (∃ e, mapRetain (movedFlag 1 0 (by decide)) [1] (movedFlag 2 1 (by decide)) false =
      .error e) ↔
      conflicts (movedFlag 1 0 (by decide)) (movedFlag 2 1 (by decide)) ≠ [] ∧ false = false :=
  (mapRetain_exact _ _ [1] false rfl).1

end Remap

end SoftPlc.Retain

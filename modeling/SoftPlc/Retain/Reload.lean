import SoftPlc.Retain.Crash

/-!
# A cold reload and a hot-swap

A value can reach another layout in two ways: through the files (`flush`, then `load`) or directly
(`map_retain`). `flush_reload_iff` says when they agree: exactly when the encoded payload fits the
length field of a slot.
-/

namespace SoftPlc.Retain

open SoftPlc.Ir SoftPlc.Lib

/-! ## How long a payload is -/

/-- Bytes of a record of this name and type. -/
def recordSize (r : String × IrType) : ℕ := 4 + (nameBytes r.1).length + r.2.byteWidth

/-- Name and type of a record. -/
def RetainRecord.key (r : RetainRecord) : String × IrType := (r.name, r.ty)

/-- Name and type of a symbol. -/
def RetainSymbol.key (s : RetainSymbol) : String × IrType := (s.name, s.ty)

theorem nameBytes_of_nameOfBytes {bytes : List UInt8} {name : String}
    (h : nameOfBytes bytes = some name) : nameBytes name = bytes := by
  unfold nameOfBytes String.fromUTF8? at h
  split_ifs at h with hvalid
  cases h
  simp [nameBytes, String.fromUTF8]

theorem decodeRecord_length {payload rest : List UInt8} {r : RetainRecord}
    (h : decodeRecord payload = .ok (r, rest)) :
    payload.length = recordSize r.key + rest.length ∧ r.value.length = r.ty.byteWidth := by
  unfold decodeRecord at h
  dsimp only at h
  split_ifs at h with hshort hname
  split at h
  · cases h
  · rename_i name hbytes
    have hlen := congrArg List.length (nameBytes_of_nameOfBytes hbytes)
    rw [List.length_take] at hlen
    split at h
    · rename_i tag pad tail htail
      have hdrop := congrArg List.length htail
      simp only [List.length_drop, List.length_cons] at hdrop
      split_ifs at h
      split at h
      · cases h
      · rename_i ty hty
        split_ifs at h with hwidth
        cases h
        simp only [recordSize, RetainRecord.key, List.length_drop, List.length_take] at *
        omega
    · cases h

/-- Decoded records say how long their payload is. -/
theorem decodeLoop_length {fuel : ℕ} {payload : List UInt8} {records : List RetainRecord}
    (h : decodeLoop fuel payload = .ok records) :
    payload.length = ((records.map RetainRecord.key).map recordSize).sum ∧
      ∀ r ∈ records, r.value.length = r.ty.byteWidth := by
  induction fuel generalizing payload records with
  | zero =>
      cases payload with
      | nil =>
          cases h
          exact ⟨rfl, fun _ hr => nomatch hr⟩
      | cons b bs => cases h
  | succ fuel ih =>
      cases payload with
      | nil =>
          cases h
          exact ⟨rfl, fun _ hr => nomatch hr⟩
      | cons b bs =>
          obtain ⟨⟨r, rest⟩, hr, h⟩ := except_bind_ok.mp h
          obtain ⟨rs, hrs, h⟩ := except_bind_ok.mp h
          cases h
          obtain ⟨hhead, hwidth⟩ := decodeRecord_length hr
          obtain ⟨htail, hwidths⟩ := ih hrs
          refine ⟨?_, ?_⟩
          · rw [hhead, htail, List.map_cons, List.map_cons, List.sum_cons]
          · intro x hx
            rcases List.mem_cons.mp hx with rfl | hx
            · exact hwidth
            · exact hwidths x hx

theorem encodeSymbols_size {image : List UInt8} {symbols : List RetainSymbol} {payload : List UInt8}
    (hfit : ∀ s ∈ symbols, s.endOffset ≤ image.length) (h : encodeSymbols image symbols = .ok payload) :
    payload.length = ((symbols.map RetainSymbol.key).map recordSize).sum := by
  have hdec := (decodeLoop_length (decodeLoop_encodeSymbols hfit h (le_refl _))).1
  rw [List.map_map, List.map_map] at hdec
  rw [List.map_map]
  exact hdec

/-- What a decoded slot holds is shorter than the length field can say. -/
theorem decodeSlot_short {bytes : List UInt8} {d : DecodedSlot} (h : decodeSlot bytes = some d) :
    ((d.records.map RetainRecord.key).map recordSize).sum < 2 ^ 32 ∧
      ∀ r ∈ d.records, r.value.length = r.ty.byteWidth := by
  unfold decodeSlot at h
  split_ifs at h with h₁ h₂ h₃ hlen h₅
  split at h
  · rename_i records hrecords
    cases h
    obtain ⟨hsum, hwidth⟩ := decodeLoop_length hrecords
    refine ⟨?_, hwidth⟩
    have hfield := ofLeBytes_lt (readAt bytes 24 4)
    have hfour : (readAt bytes 24 4).length = 4 := readAt_length (by omega)
    rw [hfour] at hfield
    rw [← hsum, List.length_drop]
    omega
  · cases h

/-! ## What a remap counts -/

section Counts

variable {layout : RetainLayout} {st st' : ApplyState} {records : List RetainRecord}

/-- No two symbols share a name and a type. -/
theorem RetainLayout.keys_nodup (l : RetainLayout) : (l.symbols.map RetainSymbol.key).Nodup := by
  unfold List.Nodup
  rw [List.pairwise_map]
  refine l.sorted.imp ?_
  intro s t hlt hkey
  have hname : s.name = t.name := congrArg Prod.fst hkey
  rw [hname] at hlt
  exact lt_irrefl _ hlt

theorem applyRecord_count {r : RetainRecord} (h : applyRecord layout st r = .ok st') :
    st'.kept + st'.dropped + st'.incompat.length = st.kept + st.dropped + st.incompat.length + 1 := by
  unfold applyRecord at h
  split at h
  · cases h
    dsimp only
    omega
  · split_ifs at h
    · cases h
      dsimp only
      omega
    · cases h
      simp only [List.length_append, List.length_singleton]
      omega

theorem foldlM_applyRecord_count (h : records.foldlM (applyRecord layout) st = .ok st') :
    st'.kept + st'.dropped + st'.incompat.length =
      st.kept + st.dropped + st.incompat.length + records.length := by
  induction records generalizing st with
  | nil =>
      cases h
      rfl
  | cons r rest ih =>
      rw [List.foldlM_cons] at h
      obtain ⟨st₁, h₁, h₂⟩ := except_bind_ok.mp h
      rw [ih h₂, applyRecord_count h₁, List.length_cons]
      omega

/-- Records are dropped whose names the layout does not have. -/
theorem foldlM_applyRecord_dropped (h : records.foldlM (applyRecord layout) st = .ok st')
    (hnames : ∀ r ∈ records, layout.get r.name ≠ none) : st'.dropped = st.dropped := by
  induction records generalizing st with
  | nil =>
      cases h
      rfl
  | cons r rest ih =>
      rw [List.foldlM_cons] at h
      obtain ⟨st₁, h₁, h₂⟩ := except_bind_ok.mp h
      rw [ih h₂ fun x hx => hnames x (List.mem_cons_of_mem _ hx)]
      unfold applyRecord at h₁
      split at h₁
      · rename_i hnone
        exact absurd hnone (hnames r List.mem_cons_self)
      · split_ifs at h₁
        · cases h₁
          rfl
        · cases h₁
          rfl

/-- A record marks the symbol that has its name and its type. -/
theorem applyRecord_used {r : RetainRecord} {i : ℕ} {s : RetainSymbol}
    (hi : layout.symbols[i]? = some s) (hlen : st.used.length = layout.symbols.length)
    (h : applyRecord layout st r = .ok st') :
    st'.used.length = layout.symbols.length ∧
      (st'.used[i]? = some true ↔ st.used[i]? = some true ∨ r.key = s.key) := by
  have hs : s ∈ layout.symbols := List.mem_of_getElem? hi
  unfold applyRecord at h
  split at h
  · rename_i hnone
    cases h
    refine ⟨hlen, ?_⟩
    have hne : r.key ≠ s.key := by
      intro hkey
      rw [show r.name = s.name from congrArg Prod.fst hkey, layout.get_of_mem hs] at hnone
      cases hnone
    simp [hne]
  · rename_i sym hget
    obtain ⟨hsym, hname⟩ := RetainLayout.get_some hget
    split_ifs at h with hty
    · cases h
      refine ⟨by simpa using hlen, ?_⟩
      have hfind : layout.symbols.findIdx (fun s => s.name == r.name) = i ↔ s = sym := by
        have hlt : layout.symbols.findIdx (fun s => s.name == r.name) < layout.symbols.length :=
          List.findIdx_lt_length.mpr ⟨sym, hsym, by simpa using hname⟩
        have hat : layout.symbols[layout.symbols.findIdx (fun s => s.name == r.name)].name =
            r.name := by simpa using List.findIdx_getElem (w := hlt)
        constructor
        · rintro rfl
          rw [List.getElem?_eq_getElem hlt] at hi
          have hs' := Option.some.inj hi
          rw [hs'] at hat
          exact layout.eq_of_name hs hsym (hat.trans hname.symm)
        · rintro rfl
          have hmem := List.getElem_mem hlt
          have heq := layout.eq_of_name hmem hs (hat.trans hname.symm)
          have hnodup : layout.symbols.Nodup := layout.keys_nodup.of_map _
          obtain ⟨hlt', hget'⟩ := List.getElem?_eq_some_iff.mp hi
          exact (List.Nodup.getElem_inj_iff hnodup).mp (heq.trans hget'.symm)
      have hkey : r.key = s.key ↔ s = sym := by
        constructor
        · intro hkey
          exact layout.eq_of_name hs hsym ((congrArg Prod.fst hkey).symm.trans hname.symm)
        · rintro rfl
          exact Prod.ext hname.symm hty.symm
      have hbound : i < st.used.length := by
        rw [hlen]
        exact (List.getElem?_eq_some_iff.mp hi).1
      dsimp only
      rw [List.getElem?_set, hkey]
      by_cases hsame : s = sym
      · simp [hsame, hfind.mpr hsame, hbound]
      · rw [if_neg (mt hfind.mp hsame)]
        simp [hsame]
    · cases h
      refine ⟨hlen, ?_⟩
      have hne : r.key ≠ s.key := by
        intro hkey
        have hsame := layout.eq_of_name hs hsym ((congrArg Prod.fst hkey).symm.trans hname.symm)
        exact hty (hsame ▸ (congrArg Prod.snd hkey).symm)
      simp [hne]

theorem foldlM_applyRecord_used {i : ℕ} {s : RetainSymbol} (hi : layout.symbols[i]? = some s)
    (hlen : st.used.length = layout.symbols.length)
    (h : records.foldlM (applyRecord layout) st = .ok st') :
    st'.used.length = layout.symbols.length ∧
      (st'.used[i]? = some true ↔ st.used[i]? = some true ∨ s.key ∈ records.map RetainRecord.key) := by
  induction records generalizing st with
  | nil =>
      cases h
      exact ⟨hlen, by simp⟩
  | cons r rest ih =>
      rw [List.foldlM_cons] at h
      obtain ⟨st₁, h₁, h₂⟩ := except_bind_ok.mp h
      obtain ⟨hlen₁, hused₁⟩ := applyRecord_used hi hlen h₁
      obtain ⟨hlen₂, hused₂⟩ := ih hlen₁ h₂
      refine ⟨hlen₂, ?_⟩
      rw [hused₂, hused₁, List.map_cons, List.mem_cons, or_assoc, eq_comm (a := r.key)]

/-- A remap that counts every symbol as kept and no other record was given one record for each
symbol. -/
theorem key_perm_of_counts {m : MappedRetain} (h : applyRecords records layout true = .ok m)
    (hkept : m.report.kept = layout.symbols.length) (hcold : m.report.coldDefaults = 0)
    (hdropped : m.report.dropped = 0) (hincompat : m.report.zeroedIncompat = []) :
    (layout.symbols.map RetainSymbol.key).Perm (records.map RetainRecord.key) := by
  obtain ⟨st, hst, h⟩ := except_bind_ok.mp h
  split_ifs at h
  cases h
  have hnone : st.incompat = [] := hincompat
  have hcount := foldlM_applyRecord_count hst
  have hlen : records.length = layout.symbols.length := by
    simp only [ApplyState.report] at hkept hdropped
    rw [hnone, hkept, hdropped] at hcount
    simp only [List.length_nil] at hcount
    omega
  have hfalse : st.used.count false = 0 := by
    simp only [ApplyState.report, hnone, if_true, List.length_nil, Nat.sub_zero] at hcold
    exact hcold
  have hmem : ∀ k ∈ layout.symbols.map RetainSymbol.key, k ∈ records.map RetainRecord.key := by
    intro k hk
    obtain ⟨s, hs, rfl⟩ := List.mem_map.mp hk
    obtain ⟨i, hi⟩ := List.mem_iff_getElem?.mp hs
    obtain ⟨hused, hiff⟩ := foldlM_applyRecord_used hi (by simp) hst
    have hlt : i < st.used.length := by
      rw [hused]
      exact (List.getElem?_eq_some_iff.mp hi).1
    have htrue : st.used[i]? = some true := by
      rw [List.getElem?_eq_getElem hlt]
      have hnot := List.count_eq_zero.mp hfalse
      cases hb : st.used[i] with
      | true => rfl
      | false => exact absurd (hb ▸ List.getElem_mem hlt) hnot
    rcases hiff.mp htrue with hstart | hkey
    · simp [List.getElem?_replicate] at hstart
    · exact hkey
  refine (layout.keys_nodup.subperm hmem).perm_of_length_le ?_
  rw [List.length_map, List.length_map, hlen]

/-- A layout keeps all of its own records. -/
theorem mapRetain_self {image : List UInt8} {m : MappedRetain}
    (h : mapRetain layout image layout true = .ok m) :
    m.report = ⟨layout.symbols.length, 0, 0, []⟩ := by
  obtain ⟨records, hrec, h⟩ := except_bind_ok.mp h
  unfold recordsFromImage at hrec
  split_ifs at hrec
  cases hrec
  obtain ⟨st, hst, h⟩ := except_bind_ok.mp h
  split_ifs at h
  cases h
  have hget : ∀ s ∈ layout.symbols, layout.get s.name = some s := fun s => layout.get_of_mem
  have hincompat : st.incompat = [] := by
    rw [foldlM_applyRecord_incompat hst, List.nil_append, List.flatMap_map]
    apply List.flatMap_eq_nil_iff.mpr
    intro s hs
    simp [mismatch, RetainSymbol.record, hget s hs]
  have hdropped : st.dropped = 0 := by
    refine foldlM_applyRecord_dropped hst ?_
    intro r hr
    obtain ⟨s, hs, rfl⟩ := List.mem_map.mp hr
    simp [RetainSymbol.record, hget s hs]
  have hkept : st.kept = layout.symbols.length := by
    have hcount := foldlM_applyRecord_count hst
    rw [hincompat, hdropped] at hcount
    simpa using hcount
  have hfalse : st.used.count false = 0 := by
    apply List.count_eq_zero.mpr
    intro hmem
    obtain ⟨i, hi⟩ := List.mem_iff_getElem?.mp hmem
    have hlt : i < layout.symbols.length := by
      have hused := fun s hs => (foldlM_applyRecord_used (i := 0) (s := s) hs (by simp) hst).1
      have hpos : i < st.used.length := (List.getElem?_eq_some_iff.mp hi).1
      rcases hsym : layout.symbols with _ | ⟨s, rest⟩
      · rw [hsym] at hst
        cases hst
        simp at hpos
      · rw [← hsym, ← hused s (by rw [hsym]; rfl)]
        exact hpos
    obtain ⟨-, hiff⟩ := foldlM_applyRecord_used (List.getElem?_eq_getElem hlt) (by simp) hst
    have htrue := hiff.mpr (.inr ?_)
    · rw [hi] at htrue
      cases htrue
    · rw [List.map_map]
      exact List.mem_map.mpr ⟨_, List.getElem_mem hlt, rfl⟩
  simp [ApplyState.report, hincompat, hdropped, hkept, hfalse]

end Counts

/-! ## Reloading -/

/-- A load with a layout gives what the remap of an image gives. -/
def Reloads (fs : Files) (id : String) (old : RetainLayout) (image : List UInt8) (new : RetainLayout) :
    Prop :=
  ∃ dst report m, load fs id new new.retainSize = .ok (dst, report) ∧
    mapRetain old image new true = .ok m ∧ dst = m.image ∧ report.kept = m.report.kept ∧
    report.coldDefaults = m.report.coldDefaults ∧ report.dropped = m.report.dropped ∧
    report.incompat = m.report.zeroedIncompat

section Reload

variable {fs fs' : Files} {id : String} {old new : RetainLayout} {image payload : List UInt8}
  {report : FlushReport}

/-- What a load from a chosen slot gives. -/
theorem load_chosen {s : Slot} {d : DecodedSlot} {m : MappedRetain}
    (hid : validateProgramId id = .ok ()) (hchoose : chooseSlot fs.readIdx fs.readSlot = some (s, d))
    (hm : applyRecords d.records new true = .ok m) :
    ∃ r, load fs id new new.retainSize = .ok (m.image, r) ∧ r.kept = m.report.kept ∧
      r.coldDefaults = m.report.coldDefaults ∧ r.dropped = m.report.dropped ∧
      r.incompat = m.report.zeroedIncompat := by
  unfold load
  simp only [hid, hchoose]
  rw [if_neg (by simp)]
  exact ⟨_, except_bind_ok.mpr ⟨(), rfl, except_bind_ok.mpr ⟨m, hm, rfl⟩⟩, rfl, rfl, rfl, rfl⟩

/-- A payload that fits is read back. -/
theorem reloads_of_short (hflush : flush fs id old image = .ok (report, fs'))
    (hpayload : encodeRecords old image = .ok payload) (hshort : payload.length < 2 ^ 32)
    (new : RetainLayout) : Reloads fs' id old image new := by
  have hfits : Flush.Fits ⟨old, image⟩ := by
    intro p hp
    rw [show encodeRecords old image = .ok p from hp] at hpayload
    cases hpayload
    exact hshort
  obtain ⟨⟨_, ws⟩, hwrites, -⟩ := except_bind_ok.mp hflush
  obtain ⟨⟨⟩, hid, -⟩ := except_bind_ok.mp hwrites
  have hlen : image.length = old.retainSize := (flushWrites_ok (f := ⟨old, image⟩) hfits hwrites).1
  have hkept : Kept fs' [⟨old, image⟩] := kept_of_flush (f := ⟨old, image⟩) hfits hflush
  obtain ⟨d, f, hf, hchoose, hrec⟩ := hkept.choose
  obtain rfl := List.mem_singleton.mp hf
  obtain ⟨m, hm⟩ := @applyRecords_total new _ (record_width hlen)
  have hmap : mapRetain old image new true = .ok m :=
    except_bind_ok.mpr ⟨_, if_neg (not_not.mpr hlen), hm⟩
  have hm' : applyRecords d.records new true = .ok m := by
    rw [hrec]
    exact hm
  obtain ⟨r, hload, hcounts⟩ := load_chosen hid hchoose hm'
  exact ⟨m.image, r, m, hload, hmap, rfl, hcounts⟩

/-- A chosen slot is one that decodes. -/
theorem chooseSlot_decodes {s : Slot} {d : DecodedSlot}
    (h : chooseSlot fs.readIdx fs.readSlot = some (s, d)) : ∃ bytes, decodeSlot bytes = some d := by
  have hread : ∀ {t : Slot}, fs.readSlot t = some d → ∃ bytes, decodeSlot bytes = some d := by
    intro t ht
    obtain ⟨bytes, -, hbytes⟩ := Option.bind_eq_some_iff.mp ht
    exact ⟨bytes, hbytes⟩
  unfold chooseSlot at h
  split at h
  · rename_i i hidx
    split at h
    · rename_i e he
      split_ifs at h
      · cases h
        exact hread he
      · obtain ⟨e', he', heq⟩ := Option.map_eq_some_iff.mp h
        cases heq
        exact hread he'
    · obtain ⟨e', he', heq⟩ := Option.map_eq_some_iff.mp h
      cases heq
      exact hread he'
  · rcases newerSlot_cases h with ⟨-, he⟩ | ⟨-, he⟩
    · exact hread he
    · exact hread he

/-- What a load counts when it agrees with a remap into the same layout. -/
theorem load_of_reloads_self (h : Reloads fs id old image old) :
    ∃ dst r, load fs id old old.retainSize = .ok (dst, r) ∧ r.kept = old.symbols.length ∧
      r.coldDefaults = 0 ∧ r.dropped = 0 ∧ r.incompat = [] := by
  obtain ⟨dst, r, m, hload, hmap, -, hkept, hcold, hdropped, hincompat⟩ := h
  rw [mapRetain_self hmap] at hkept hcold hdropped hincompat
  exact ⟨dst, r, hload, hkept, hcold, hdropped, hincompat⟩

/-- What is read back from the files fits a slot. -/
theorem short_of_reloads (hpayload : encodeRecords old image = .ok payload)
    (h : Reloads fs id old image old) : payload.length < 2 ^ 32 := by
  obtain ⟨hlen, -⟩ := decodeRecords_encodeRecords hpayload
  unfold encodeRecords at hpayload
  rw [if_neg (not_not.mpr hlen)] at hpayload
  have hsize := encodeSymbols_size (fun s hs => (old.bounded s hs).trans hlen.ge) hpayload
  obtain ⟨dst, r, hload, hkept, hcold, hdropped, hincompat⟩ := load_of_reloads_self h
  unfold load at hload
  obtain ⟨⟨⟩, -, hload⟩ := except_bind_ok.mp hload
  rw [if_neg (by simp)] at hload
  dsimp only at hload
  split at hload
  · -- Nothing was read: the layout has no symbols.
    cases hload
    rw [List.length_eq_zero_iff.mp hkept.symm] at hsize
    rw [hsize]
    norm_num
  · rename_i s d hchoose
    obtain ⟨m, hm, hload⟩ := except_bind_ok.mp hload
    cases hload
    obtain ⟨bytes, hbytes⟩ := chooseSlot_decodes hchoose
    have hperm := key_perm_of_counts hm hkept hcold hdropped hincompat
    rw [hsize, (hperm.map recordSize).sum_eq]
    exact (decodeSlot_short hbytes).1

/-- **A cold reload agrees with a hot-swap.** After a flush, a load with whatever layout gives the
image and the counts of a forced remap into it, and a load with the same layout gives every symbol
its value, exactly when the encoded payload fits the length field of a slot. -/
theorem flush_reload_iff (hflush : flush fs id old image = .ok (report, fs'))
    (hpayload : encodeRecords old image = .ok payload) :
    ((∀ new, Reloads fs' id old image new) ∧
        ∃ dst r, load fs' id old old.retainSize = .ok (dst, r) ∧
          ∀ s ∈ old.symbols, s.slice dst = s.slice image) ↔
      payload.length < 2 ^ 32 := by
  constructor
  · rintro ⟨hall, -⟩
    exact short_of_reloads hpayload (hall old)
  · intro hshort
    have hall := reloads_of_short hflush hpayload hshort
    refine ⟨hall, ?_⟩
    obtain ⟨dst, r, m, hload, hmap, rfl, -⟩ := hall old
    refine ⟨m.image, r, hload, ?_⟩
    intro s hs
    rw [(mapRetain_ok hmap).2.1 s hs, old.valueOf_self hs]

end Reload

/-- A flush of the flag is read back. -/
theorem flag_reloads :
    ∃ fs report, flush .empty "p" flagOn.layout flagOn.image = .ok (report, fs) ∧
      ∀ new, Reloads fs "p" flagOn.layout flagOn.image new := by
  have hid : validateProgramId "p" = .ok () := by decide +kernel
  have hon : encodeRecords flagOn.layout flagOn.image = .ok [4, 0, 102, 108, 97, 103, 0, 0, 1] := by
    decide +kernel
  obtain ⟨report, hwrites⟩ := flushWrites_eq .empty hid hon
  have hflush := flush_of_writes hwrites
  exact ⟨_, report, hflush, ((flush_reload_iff hflush hon).mpr (by decide)).1⟩

/-- A flush of a payload of `2 ^ 32` bytes completes, and a load with the same layout does not give
what a hot-swap would. -/
theorem long_flush_not_reloaded :
    ∃ fs report, flush .empty "p" longFlush.layout longFlush.image = .ok (report, fs) ∧
      ¬Reloads fs "p" longFlush.layout longFlush.image longFlush.layout := by
  have hid : validateProgramId "p" = .ok () := by decide +kernel
  obtain ⟨payload, hpayload, hlong⟩ := encodeRecords_longFlush
  obtain ⟨report, hwrites⟩ := flushWrites_eq .empty hid hpayload
  refine ⟨_, report, flush_of_writes hwrites, ?_⟩
  intro h
  have hshort := short_of_reloads hpayload h
  omega

end SoftPlc.Retain

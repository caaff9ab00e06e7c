import SoftPlc.Retain.Store

/-!
# Crashes of the retain store

A flush may stop anywhere: writes already made stay, the file being written holds any strict prefix
of its new bytes, later files are as before (`Interrupted`). A history is any sequence of completed
and crashed flushes, from any files (`History`).

One invariant holds in every history in which a flush has completed (`Kept`): a load would choose
the slot that the next flush takes for the committed one, so that the flush writes the other, and
this slot holds the image of the last completed flush or of one that crashed after it.
-/

namespace SoftPlc.Retain

open SoftPlc.Ir SoftPlc.Lib

/-- Writes that stop somewhere. -/
inductive Interrupted : List (FileName × List UInt8) → Files → Files → Prop
  /-- Before the next file is touched. -/
  | stop (ws : List (FileName × List UInt8)) (fs : Files) : Interrupted ws fs fs
  /-- While a file is being written. -/
  | torn {name : FileName} {bytes part : List UInt8} {ws : List (FileName × List UInt8)} (fs : Files)
      (h : part <+: bytes) (hne : part ≠ bytes) :
      Interrupted ((name, bytes) :: ws) fs (fs.write name part)
  /-- After a file is complete. -/
  | next {name : FileName} {bytes : List UInt8} {ws : List (FileName × List UInt8)}
      {fs fs' : Files} (h : Interrupted ws (fs.write name bytes) fs') :
      Interrupted ((name, bytes) :: ws) fs fs'

/-- What a flush was called with. -/
structure Flush where
  layout : RetainLayout
  image : List UInt8

/-- The encoded image fits the length field of a slot. -/
def Flush.Fits (f : Flush) : Prop :=
  ∀ payload, encodeRecords f.layout f.image = .ok payload → payload.length < 2 ^ 32

/-- Histories of one program id: the files, the last completed flush, and the flushes that crashed
after it, the latest first. A flush that returns an error writes nothing. -/
inductive History (id : String) : Files → Option Flush → List Flush → Prop
  /-- Any files to start from. -/
  | start (fs : Files) : History id fs none []
  /-- A flush completes. -/
  | complete {fs fs' : Files} {last : Option Flush} {crashed : List Flush} {f : Flush}
      {report : FlushReport} (h : History id fs last crashed)
      (hflush : flush fs id f.layout f.image = .ok (report, fs')) : History id fs' (some f) []
  /-- A flush crashes. -/
  | crash {fs fs' : Files} {last : Option Flush} {crashed : List Flush} {f : Flush}
      {report : FlushReport} {ws : List (FileName × List UInt8)} (h : History id fs last crashed)
      (hwrites : flushWrites fs id f.layout f.image = .ok (report, ws))
      (hstop : Interrupted ws fs fs') : History id fs' last (f :: crashed)

/-! ## One flush -/

variable {fs fs' : Files} {id : String}

/-- The records of a flush. -/
def Flush.records (f : Flush) : List RetainRecord := f.layout.symbols.map fun s => s.record f.image

/-- What a flush writes: a slot that decodes to its records, and an index that names the slot. -/
theorem flushWrites_ok {f : Flush} {report : FlushReport} {ws : List (FileName × List UInt8)}
    (hfits : f.Fits) (h : flushWrites fs id f.layout f.image = .ok (report, ws)) :
    f.image.length = f.layout.retainSize ∧
    ∃ generation bytes, generation ≤ u64Max ∧
      ws = [(.slot fs.committed.1.other, bytes),
        (.idx, encodeIdx fs.committed.1.other generation)] ∧
      decodeSlot bytes = some ⟨generation, f.records⟩ ∧
      ∀ part, part <+: bytes → part ≠ bytes → decodeSlot part = none := by
  obtain ⟨⟨⟩, -, h⟩ := except_bind_ok.mp h
  obtain ⟨payload, hpayload, h⟩ := except_bind_ok.mp h
  cases h
  obtain ⟨hlen, hdec⟩ := decodeRecords_encodeRecords hpayload
  have hshort := hfits payload hpayload
  have hgen : nextGeneration fs.committed.2 ≤ u64Max := by
    unfold nextGeneration u64Max
    omega
  exact ⟨hlen, _, _, hgen, rfl, decodeSlot_encodeSlot hgen hshort hdec,
    fun part h hne => decodeSlot_cut hshort h hne⟩

/-- Reading a slot after a write. -/
@[simp] theorem readSlot_write_slot (fs : Files) (s t : Slot) (bytes : List UInt8) :
    (fs.write (.slot s) bytes).readSlot t = if t = s then decodeSlot bytes else fs.readSlot t := by
  simp only [Files.readSlot, Files.write]
  split_ifs <;> rfl

@[simp] theorem readSlot_write_idx (fs : Files) (t : Slot) (bytes : List UInt8) :
    (fs.write .idx bytes).readSlot t = fs.readSlot t := rfl

@[simp] theorem readIdx_write_slot (fs : Files) (s : Slot) (bytes : List UInt8) :
    (fs.write (.slot s) bytes).readIdx = fs.readIdx := rfl

@[simp] theorem readIdx_write_idx (fs : Files) (bytes : List UInt8) :
    (fs.write .idx bytes).readIdx = decodeIdx bytes := rfl

/-! ## The invariant -/

/-- The committed slot decodes to the records of one of the flushes, and an index that decodes names
it with its generation. -/
structure Kept (fs : Files) (fl : List Flush) : Prop where
  /-- The committed slot. -/
  slot : ∃ d, fs.readSlot fs.committed.1 = some d ∧ ∃ f ∈ fl, d.records = f.records
  /-- The index. -/
  idx : ∀ i, fs.readIdx = some i → ∃ d, fs.readSlot i.slot = some d ∧ d.generation = i.generation

/-- Of two slots that decode, one is the newer. -/
theorem newerSlot_cases {a b : Option DecodedSlot} {s : Slot} {d : DecodedSlot}
    (h : newerSlot a b = some (s, d)) : (s = .zero ∧ a = some d) ∨ (s = .one ∧ b = some d) := by
  unfold newerSlot at h
  split at h
  · split_ifs at h
    · cases h
      exact .inl ⟨rfl, rfl⟩
    · cases h
      exact .inr ⟨rfl, rfl⟩
  · cases h
    exact .inl ⟨rfl, rfl⟩
  · cases h
    exact .inr ⟨rfl, rfl⟩
  · cases h

/-- Some slot decodes, so one is the newer. -/
theorem newerSlot_isSome {slots : Slot → Option DecodedSlot} {s : Slot} {d : DecodedSlot}
    (h : slots s = some d) : ∃ t e, newerSlot (slots .zero) (slots .one) = some (t, e) := by
  unfold newerSlot
  cases s <;> rcases h₀ : slots .zero with _ | a <;> rcases h₁ : slots .one with _ | b <;>
    simp_all <;> split_ifs <;> simp

/-- **A load chooses the committed slot.** -/
theorem Kept.choose {fl : List Flush} (h : Kept fs fl) :
    ∃ d f, f ∈ fl ∧ chooseSlot fs.readIdx fs.readSlot = some (fs.committed.1, d) ∧
      d.records = f.records := by
  obtain ⟨d, hd, f, hf, hrec⟩ := h.slot
  refine ⟨d, f, hf, ?_, hrec⟩
  unfold Files.committed at hd ⊢
  unfold chooseSlot
  rcases hi : fs.readIdx with _ | i
  · rw [hi] at hd
    simp only at hd ⊢
    rcases hn : newerSlot (fs.readSlot .zero) (fs.readSlot .one) with _ | ⟨s, e⟩
    · rw [hn] at hd
      obtain ⟨t, e, hsome⟩ := newerSlot_isSome hd
      rw [hn] at hsome
      cases hsome
    · rw [hn] at hd
      simp only at hd ⊢
      rcases newerSlot_cases hn with ⟨rfl, he⟩ | ⟨rfl, he⟩
      · rw [he] at hd
        cases hd
        rfl
      · rw [he] at hd
        cases hd
        rfl
  · rw [hi] at hd
    simp only at hd ⊢
    obtain ⟨e, he, hgen⟩ := h.idx i hi
    rw [he] at hd
    cases hd
    rw [he]
    simp [hgen]

/-- Without an index, what each slot that decodes holds is enough. -/
theorem Kept.of_no_idx {fl : List Flush} (hidx : fs.readIdx = none)
    (hsome : ∃ s d, fs.readSlot s = some d)
    (hall : ∀ s d, fs.readSlot s = some d → ∃ f ∈ fl, d.records = f.records) : Kept fs fl := by
  refine ⟨?_, fun i hi => by rw [hidx] at hi; cases hi⟩
  obtain ⟨s, d, hd⟩ := hsome
  obtain ⟨t, e, hn⟩ := newerSlot_isSome hd
  have hcommitted : fs.committed.1 = t ∧ fs.readSlot t = some e := by
    unfold Files.committed
    rw [hidx]
    simp only [hn]
    rcases newerSlot_cases hn with ⟨rfl, he⟩ | ⟨rfl, he⟩
    · exact ⟨trivial, he⟩
    · exact ⟨trivial, he⟩
  rw [hcommitted.1]
  exact ⟨e, hcommitted.2, hall t e hcommitted.2⟩

/-- With an index that names a slot with its generation, what this slot holds is enough. -/
theorem Kept.of_idx {fl : List Flush} {i : IdxRecord} {d : DecodedSlot} (hidx : fs.readIdx = some i)
    (hd : fs.readSlot i.slot = some d) (hgen : d.generation = i.generation)
    (hf : ∃ f ∈ fl, d.records = f.records) : Kept fs fl := by
  refine ⟨⟨d, ?_, hf⟩, ?_⟩
  · unfold Files.committed
    rw [hidx]
    exact hd
  · intro j hj
    rw [hidx] at hj
    cases hj
    exact ⟨d, hd, hgen⟩

/-- More flushes to choose from. -/
theorem Kept.mono {fl fl' : List Flush} (h : Kept fs fl) (hsub : fl ⊆ fl') : Kept fs fl' := by
  obtain ⟨d, hd, f, hf, hrec⟩ := h.slot
  exact ⟨⟨d, hd, f, hsub hf, hrec⟩, h.idx⟩

/-- There are two slots. -/
theorem Slot.eq_or_eq_other (s t : Slot) : t = s ∨ t = s.other := by
  cases s <;> cases t <;> simp [Slot.other]

/-- **A flush that crashes keeps the invariant**, wherever it stops. -/
theorem Kept.crash {fl : List Flush} {f : Flush} {report : FlushReport}
    {ws : List (FileName × List UInt8)} (h : Kept fs fl) (hfits : f.Fits)
    (hwrites : flushWrites fs id f.layout f.image = .ok (report, ws))
    (hstop : Interrupted ws fs fs') : Kept fs' (f :: fl) := by
  obtain ⟨-, generation, bytes, hgen, rfl, hdec, hpart⟩ := flushWrites_ok hfits hwrites
  obtain ⟨d, hd, k, hk, hrec⟩ := h.slot
  have hkept : ∃ k ∈ f :: fl, d.records = k.records := ⟨k, List.mem_cons_of_mem _ hk, hrec⟩
  -- Whatever the other slot holds, the committed one still decodes.
  have hsame : ∀ part, (fs.write (.slot fs.committed.1.other) part).readSlot fs.committed.1 =
      some d := by
    intro part
    rw [readSlot_write_slot, if_neg fs.committed.1.ne_other, hd]
  have hother : ∀ part, (fs.write (.slot fs.committed.1.other) part).readSlot
      fs.committed.1.other = decodeSlot part := by
    intro part
    rw [readSlot_write_slot, if_pos rfl]
  -- After the slot has been touched and before the index is: an index that decodes still names the
  -- committed slot, and without one every slot that decodes will do.
  have hslot : ∀ part, (∀ e, decodeSlot part = some e → e.records = f.records) →
      Kept (fs.write (.slot fs.committed.1.other) part) (f :: fl) := by
    intro part hpart
    rcases hi : fs.readIdx with _ | i
    · refine .of_no_idx (by rw [readIdx_write_slot, hi]) ⟨_, d, hsame part⟩ ?_
      intro s e he
      rcases fs.committed.1.eq_or_eq_other s with rfl | rfl
      · rw [hsame] at he
        cases he
        exact hkept
      · rw [hother] at he
        exact ⟨f, List.mem_cons_self, hpart e he⟩
    · obtain ⟨e, he, hgeneration⟩ := h.idx i hi
      have hcommitted : fs.committed.1 = i.slot := by
        unfold Files.committed
        rw [hi]
      rw [hcommitted, he] at hd
      cases hd
      refine .of_idx (by rw [readIdx_write_slot, hi]) ?_ hgeneration hkept
      rw [← hcommitted]
      exact hsame part
  cases hstop with
  | stop => exact h.mono (List.subset_cons_self _ _)
  | torn _ hpre hne => exact hslot _ fun e he => by rw [hpart _ hpre hne] at he; cases he
  | next hstop =>
      cases hstop with
      | stop => exact hslot _ fun e he => by rw [hdec] at he; cases he; rfl
      | torn _ hpre hne =>
          refine .of_no_idx (by rw [readIdx_write_idx, decodeIdx_cut hpre hne])
            ⟨_, d, hsame bytes⟩ ?_
          intro s e he
          rcases fs.committed.1.eq_or_eq_other s with rfl | rfl
          · rw [readSlot_write_idx, hsame] at he
            cases he
            exact hkept
          · rw [readSlot_write_idx, hother, hdec] at he
            cases he
            exact ⟨f, List.mem_cons_self, rfl⟩
      | next hstop =>
          cases hstop
          refine .of_idx (d := ⟨generation, f.records⟩)
            (by rw [readIdx_write_idx, decodeIdx_encodeIdx hgen]) ?_ rfl
            ⟨f, List.mem_cons_self, rfl⟩
          rw [readSlot_write_idx, hother, hdec]

/-- **A flush that completes establishes the invariant**, from any files. -/
theorem kept_of_flush {f : Flush} {report : FlushReport} (hfits : f.Fits)
    (h : flush fs id f.layout f.image = .ok (report, fs')) : Kept fs' [f] := by
  obtain ⟨⟨report', ws⟩, hwrites, h⟩ := except_bind_ok.mp h
  cases h
  obtain ⟨-, generation, bytes, hgen, rfl, hdec, -⟩ := flushWrites_ok hfits hwrites
  refine .of_idx (d := ⟨generation, f.records⟩) (decodeIdx_encodeIdx hgen) ?_ rfl
    ⟨f, List.mem_cons_self, rfl⟩
  show ((fs.write _ bytes).write .idx _).readSlot _ = _
  rw [readSlot_write_idx, readSlot_write_slot, if_pos rfl, hdec]

/-- The image of a flush has the size of its layout. -/
def Flush.Sized (f : Flush) : Prop := f.image.length = f.layout.retainSize

/-- The invariant holds in every history in which a flush has completed. -/
theorem History.kept {last : Option Flush} {crashed : List Flush} (h : History id fs last crashed)
    {f : Flush} (hlast : last = some f) (hfits : ∀ k ∈ f :: crashed, k.Fits) :
    Kept fs (f :: crashed) ∧ (∀ k ∈ f :: crashed, k.Sized) ∧ validateProgramId id = .ok () := by
  induction h with
  | start fs => cases hlast
  | complete h hflush ih =>
      cases hlast
      have hf := hfits f List.mem_cons_self
      obtain ⟨⟨_, ws⟩, hwrites, -⟩ := except_bind_ok.mp hflush
      obtain ⟨⟨⟩, hid, -⟩ := except_bind_ok.mp hwrites
      refine ⟨kept_of_flush hf hflush, ?_, hid⟩
      intro k hk
      cases List.mem_singleton.mp hk
      exact (flushWrites_ok hf hwrites).1
  | @crash fs fs' last crashed k report ws h hwrites hstop ih =>
      have hsub : ∀ j, j ∈ f :: k :: crashed ↔ j ∈ k :: f :: crashed := by
        intro j
        simp only [List.mem_cons]
        tauto
      have hk : k.Fits := hfits k (by simp)
      obtain ⟨hkept, hsized, hid⟩ := ih hlast fun j hj =>
        hfits j ((hsub j).mpr (List.mem_cons_of_mem _ hj))
      refine ⟨(hkept.crash hk hwrites hstop).mono fun j hj => (hsub j).mpr hj, ?_, hid⟩
      intro j hj
      rcases List.mem_cons.mp ((hsub j).mp hj) with rfl | hj
      · exact (flushWrites_ok hk hwrites).1
      · exact hsized j hj

/-! ## Loading -/

/-- The records of a flush have the widths of their types. -/
theorem Flush.records_width {f : Flush} (h : f.Sized) :
    ∀ r ∈ f.records, r.value.length = r.ty.byteWidth := by
  intro r hr
  obtain ⟨s, hs, rfl⟩ := List.mem_map.mp hr
  exact readAt_length ((f.layout.bounded s hs).trans h.ge)

/-- The records of a flush give a symbol its value in the image. -/
theorem Flush.latest_records {f : Flush} (h : f.Sized) (s : RetainSymbol) :
    s.latest f.records s.zeros = f.layout.valueOf f.image s := by
  refine latest_recordsFromImage ?_ s
  unfold recordsFromImage
  rw [if_neg (show ¬f.image.length ≠ f.layout.retainSize from not_not.mpr h)]
  rfl

/-- A layout gives its own symbols their own values. -/
theorem RetainLayout.valueOf_self (l : RetainLayout) {image : List UInt8} {s : RetainSymbol}
    (hs : s ∈ l.symbols) : l.valueOf image s = s.slice image := by
  simp [RetainLayout.valueOf, l.get_of_mem hs]

/-- **Crash atomicity.** After any history of completed and crashed flushes whose images fit a slot,
a load with the layout of the last completed flush succeeds from one of the slots. It gives every
symbol its value in the image of that flush, or every symbol its value in the image of one flush
that crashed after it. -/
theorem load_after_crashes {f : Flush} {crashed : List Flush}
    (h : History id fs (some f) crashed) (hfits : ∀ k ∈ f :: crashed, k.Fits) :
    ∃ image report, load fs id f.layout f.layout.retainSize = .ok (image, report) ∧
      report.source ≠ .cold ∧
      ((∀ s ∈ f.layout.symbols, s.slice image = s.slice f.image) ∨
        ∃ k ∈ crashed, ∀ s ∈ f.layout.symbols, s.slice image = k.layout.valueOf k.image s) := by
  obtain ⟨hkept, hsized, hid⟩ := h.kept rfl hfits
  obtain ⟨d, k, hk, hchoose, hrec⟩ := hkept.choose
  have hk' := hsized k hk
  have htotal : ∃ m, applyRecords k.records f.layout true = .ok m :=
    applyRecords_total (k.records_width hk')
  obtain ⟨m, hm⟩ := htotal
  obtain ⟨-, hslice, -⟩ := applyRecords_ok hm
  have hvalue : ∀ s ∈ f.layout.symbols, s.slice m.image = k.layout.valueOf k.image s := by
    intro s hs
    rw [hslice s hs, k.latest_records hk']
  have hload : ∃ report, load fs id f.layout f.layout.retainSize = .ok (m.image, report) ∧
      report.source = .slot fs.committed.1 := by
    rw [← hrec] at hm
    unfold load
    simp only [hid, hchoose]
    rw [if_neg (by simp)]
    exact ⟨_, except_bind_ok.mpr ⟨(), rfl, except_bind_ok.mpr ⟨m, hm, rfl⟩⟩, rfl⟩
  obtain ⟨report, hload, hsource⟩ := hload
  refine ⟨m.image, report, hload, by rw [hsource]; simp, ?_⟩
  rcases List.mem_cons.mp hk with rfl | hk
  · left
    intro s hs
    rw [hvalue s hs, RetainLayout.valueOf_self _ hs]
  · exact .inr ⟨k, hk, hvalue⟩

/-- No files. -/
def Files.empty : Files := ⟨fun _ => none, none⟩

/-- What a flush writes, when its image encodes. -/
theorem flushWrites_eq (fs : Files) {layout : RetainLayout} {image payload : List UInt8}
    (hid : validateProgramId id = .ok ()) (h : encodeRecords layout image = .ok payload) :
    ∃ report, flushWrites fs id layout image = .ok (report,
      [(.slot fs.committed.1.other, encodeSlot (nextGeneration fs.committed.2) (schemaHash layout)
          layout.symbols.length payload),
        (.idx, encodeIdx fs.committed.1.other (nextGeneration fs.committed.2))]) := by
  unfold flushWrites
  rw [hid]
  exact ⟨_, except_bind_ok.mpr ⟨(), rfl, except_bind_ok.mpr ⟨payload, h, rfl⟩⟩⟩

/-- A flush performs its writes. -/
theorem flush_of_writes {layout : RetainLayout} {image : List UInt8} {report : FlushReport}
    {ws : List (FileName × List UInt8)} (h : flushWrites fs id layout image = .ok (report, ws)) :
    flush fs id layout image = .ok (report, fs.writeAll ws) :=
  except_bind_ok.mpr ⟨(report, ws), h, rfl⟩

/-- A layout of one flag. -/
def flagLayout : RetainLayout where
  retainSize := 4
  symbols := [⟨"flag", .bool, 0⟩]
  sorted := List.pairwise_singleton _ _
  bounded := by simp [RetainSymbol.endOffset, IrType.byteWidth]
  disjoint := List.pairwise_singleton _ _

/-- The flag set. -/
def flagOn : Flush := ⟨flagLayout, [1, 0, 0, 0]⟩

/-- The flag cleared. -/
def flagOff : Flush := ⟨flagLayout, [0, 0, 0, 0]⟩

/-- A flush of the flag completes, the next one stops inside the index, and a load gives the flag as
one of the two wrote it. -/
theorem load_flag_after_crash :
    ∃ fs, History "p" fs (some flagOn) [flagOff] ∧ fs.readIdx = none ∧
      ∃ image report, load fs "p" flagLayout 4 = .ok (image, report) ∧ report.source ≠ .cold := by
  have hid : validateProgramId "p" = .ok () := by decide +kernel
  have hon : encodeRecords flagOn.layout flagOn.image = .ok [4, 0, 102, 108, 97, 103, 0, 0, 1] := by
    decide +kernel
  have hoff : encodeRecords flagOff.layout flagOff.image =
      .ok [4, 0, 102, 108, 97, 103, 0, 0, 0] := by decide +kernel
  have hfits : ∀ k ∈ [flagOn, flagOff], k.Fits := by
    intro k hk payload hpayload
    rcases List.mem_cons.mp hk with rfl | hk
    · rw [hon] at hpayload
      cases hpayload
      decide
    · cases List.mem_singleton.mp hk
      rw [hoff] at hpayload
      cases hpayload
      decide
  obtain ⟨r₁, h₁⟩ := flushWrites_eq .empty hid hon
  have hist : History "p" _ (some flagOn) [] := (History.start .empty).complete (flush_of_writes h₁)
  obtain ⟨r₂, h₂⟩ := flushWrites_eq (Files.empty.writeAll _) hid hoff
  have hist' : History "p" _ (some flagOn) [flagOff] :=
    hist.crash h₂ (.next (.torn _ List.nil_prefix (by simp [encodeIdx, idxHead, idxMagic])))
  obtain ⟨image, report, hload, hsource, -⟩ := load_after_crashes hist' hfits
  exact ⟨_, hist', rfl, image, report, hload, hsource⟩

/-! ## Which slot a flush overwrites -/

/-- An index that decodes names a slot that decodes, with its generation. -/
def Files.IndexMatches (fs : Files) : Prop :=
  ∀ i, fs.readIdx = some i → ∃ d, fs.readSlot i.slot = some d ∧ d.generation = i.generation

/-- A flush takes the chosen slot for the committed one exactly when the index matches. -/
theorem committed_eq_iff {s : Slot} {d : DecodedSlot}
    (h : chooseSlot fs.readIdx fs.readSlot = some (s, d)) :
    fs.committed.1 = s ↔ fs.IndexMatches := by
  unfold Files.committed Files.IndexMatches
  unfold chooseSlot at h
  rcases hi : fs.readIdx with _ | i
  · rw [hi] at h
    simp only at h
    simp [h]
  · rw [hi] at h
    simp only at h
    have hself : i.slot ≠ i.slot.other := by cases i.slot <;> decide
    constructor
    · intro hs j hj
      cases hj
      rcases hread : fs.readSlot i.slot with _ | e
      · rw [hread] at h
        obtain ⟨_, -, hother⟩ := Option.map_eq_some_iff.mp h
        cases hother
        exact absurd hs hself
      · rw [hread] at h
        simp only at h
        split_ifs at h with hgen
        · exact ⟨e, rfl, hgen⟩
        · obtain ⟨_, -, hother⟩ := Option.map_eq_some_iff.mp h
          cases hother
          exact absurd hs hself
    · intro hmatch
      obtain ⟨e, hread, hgen⟩ := hmatch i rfl
      rw [hread] at h
      simp only [hgen, if_true] at h
      cases h
      rfl

/-- Writes to other files leave a slot as it is, wherever they stop. -/
theorem Interrupted.readSlot_eq {ws : List (FileName × List UInt8)} (h : Interrupted ws fs fs')
    {s : Slot} (hs : ∀ w ∈ ws, w.1 ≠ .slot s) : fs'.readSlot s = fs.readSlot s := by
  have hwrite : ∀ (fs : Files) (name : FileName) (bytes : List UInt8), name ≠ .slot s →
      (fs.write name bytes).readSlot s = fs.readSlot s := by
    intro fs name bytes hname
    cases name with
    | slot t =>
        have hts : s ≠ t := fun hst => hname (hst ▸ rfl)
        simp [hts]
    | idx => rfl
  induction h with
  | stop ws fs => rfl
  | torn fs hpart hne => exact hwrite _ _ _ (hs _ List.mem_cons_self)
  | next h ih =>
      rw [ih fun w hw => hs w (List.mem_cons_of_mem _ hw)]
      exact hwrite _ _ _ (hs _ List.mem_cons_self)

/-- **What a flush overwrites.** Whatever the files hold, if a load would choose a slot, a flush
leaves the file of that slot alone, and so does a crash of the flush, if and only if an index that
decodes names a slot that decodes with its generation. -/
theorem flush_spares_chosen_iff {layout : RetainLayout} {image : List UInt8} {report : FlushReport}
    {ws : List (FileName × List UInt8)} {s : Slot} {d : DecodedSlot}
    (hchoose : chooseSlot fs.readIdx fs.readSlot = some (s, d))
    (hws : flushWrites fs id layout image = .ok (report, ws)) :
    ((∀ w ∈ ws, w.1 ≠ .slot s) ∧
        ∀ fs', Interrupted ws fs fs' → fs'.readSlot s = fs.readSlot s) ↔
      fs.IndexMatches := by
  rw [← committed_eq_iff hchoose]
  obtain ⟨⟨⟩, -, h⟩ := except_bind_ok.mp hws
  obtain ⟨payload, -, h⟩ := except_bind_ok.mp h
  cases h
  constructor
  · rintro ⟨hspare, -⟩
    have hother : fs.committed.1.other ≠ s := fun he =>
      hspare _ List.mem_cons_self (congrArg FileName.slot he)
    rcases Slot.eq_or_eq_other fs.committed.1 s with he | he
    · exact he.symm
    · exact absurd he.symm hother
  · intro he
    have hspare : ∀ w ∈ [(FileName.slot fs.committed.1.other,
          encodeSlot (nextGeneration fs.committed.2) (schemaHash layout) layout.symbols.length
            payload),
        (.idx, encodeIdx fs.committed.1.other (nextGeneration fs.committed.2))],
        w.1 ≠ .slot s := by
      intro w hw hslot
      rcases List.mem_cons.mp hw with rfl | hw
      · rw [← he] at hslot
        cases hc : fs.committed.1 <;> rw [hc] at hslot <;> cases hslot
      · cases List.mem_singleton.mp hw
        cases hslot
    exact ⟨hspare, fun fs' hstop => hstop.readSlot_eq hspare⟩

/-- The index names slot 1, which is missing, and slot 0 holds the flag. -/
def lostFiles : Files where
  slot := fun s => if s = .zero then some (encodeSlot 1 (schemaHash flagLayout) 1
    [4, 0, 102, 108, 97, 103, 0, 0, 1]) else none
  idx := some (encodeIdx .one 2)

/-- A load reads slot 0, the only slot that decodes, and a flush writes that slot. -/
theorem flush_overwrites_only_image :
    (chooseSlot lostFiles.readIdx lostFiles.readSlot).map Prod.fst = some .zero ∧
      lostFiles.readSlot .one = none ∧
      ((flushWrites lostFiles "p" flagLayout [0, 0, 0, 0]).toOption.map
        fun r => r.2.map Prod.fst) = some [.slot .zero, .idx] := by
  decide +kernel

/-- After a flush of the flag, the next flush spares the slot that a load chooses. -/
theorem flush_spares_chosen_flag :
    ∃ fs s d report ws, chooseSlot fs.readIdx fs.readSlot = some (s, d) ∧
      flushWrites fs "p" flagLayout [0, 0, 0, 0] = .ok (report, ws) ∧ fs.IndexMatches ∧
      ∀ w ∈ ws, w.1 ≠ .slot s := by
  have hid : validateProgramId "p" = .ok () := by decide +kernel
  have hon : encodeRecords flagOn.layout flagOn.image = .ok [4, 0, 102, 108, 97, 103, 0, 0, 1] := by
    decide +kernel
  have hoff : encodeRecords flagOff.layout flagOff.image =
      .ok [4, 0, 102, 108, 97, 103, 0, 0, 0] := by decide +kernel
  obtain ⟨r₁, h₁⟩ := flushWrites_eq .empty hid hon
  have hfits : flagOn.Fits := by
    intro payload hpayload
    rw [hon] at hpayload
    cases hpayload
    decide
  have hkept := kept_of_flush hfits (flush_of_writes h₁)
  obtain ⟨d, f, -, hchoose, -⟩ := hkept.choose
  obtain ⟨r₂, h₂⟩ := flushWrites_eq (Files.empty.writeAll _) hid hoff
  exact ⟨_, _, d, r₂, _, hchoose, h₂, hkept.idx,
    ((flush_spares_chosen_iff hchoose h₂).mpr hkept.idx).1⟩

/-! ## Payloads that do not fit -/

/-- A name of the longest length that a record can hold. -/
def longName (i : ℕ) : String := String.ofList (List.replicate i 'b' ++ List.replicate (65535 - i) 'a')

/-- The bytes of such a name. -/
theorem nameBytes_longName {i : ℕ} (h : i ≤ 65535) : (nameBytes (longName i)).length = 65535 := by
  have hsize : (longName i).utf8ByteSize = 65535 := by
    have hlen : ∀ (c : Char) n, c.utf8Size = 1 → String.utf8Len (List.replicate n c) = n := by
      intro c n hc
      induction n with
      | zero => rfl
      | succ n ih => rw [List.replicate_succ, String.utf8Len_cons, ih, hc]
    rw [longName, String.utf8ByteSize_ofList, String.utf8Len_append, hlen _ _ rfl, hlen _ _ rfl]
    omega
  rw [← String.size_toByteArray] at hsize
  simpa [nameBytes] using hsize

/-- The names are in order. -/
theorem longName_lt {i j : ℕ} (hij : i < j) (hj : j ≤ 65535) : longName i < longName j := by
  obtain ⟨k, rfl⟩ := Nat.exists_eq_add_of_lt hij
  have hrest : 65535 - i = (65535 - i - 1) + 1 := by omega
  rw [String.lt_iff_toList_lt, longName, longName, String.toList_ofList, String.toList_ofList,
    Nat.add_assoc, List.replicate_add, List.append_assoc, hrest, List.replicate_succ,
    List.replicate_succ]
  have hab : 'a' :: List.replicate (65535 - i - 1) 'a' <
      'b' :: List.replicate k 'b' ++ List.replicate (65535 - (i + (k + 1))) 'a' :=
    List.Lex.rel (by decide)
  exact List.append_left_lt hab

/-- As many flags as make the encoded image longer than the length field of a slot can say. -/
def longLayout : RetainLayout where
  retainSize := 65533
  symbols := (List.range 65533).map fun i => ⟨longName i, .bool, i⟩
  sorted := by
    rw [List.pairwise_map]
    refine List.pairwise_lt_range.imp_of_mem ?_
    intro i j _ hj hij
    exact longName_lt hij (by have := List.mem_range.mp hj; omega)
  bounded := by
    intro s hs
    obtain ⟨i, hi, rfl⟩ := List.mem_map.mp hs
    exact List.mem_range.mp hi
  disjoint := by
    rw [List.pairwise_map]
    exact List.pairwise_lt_range.imp fun hij => .inl hij

/-- All flags set. -/
def longFlush : Flush := ⟨longLayout, List.replicate 65533 1⟩

/-- The image has the size of the layout. -/
theorem longFlush_length : longFlush.image.length = 65533 := List.length_replicate

/-- One symbol a flag. -/
theorem longLayout_length : longLayout.symbols.length = 65533 := by
  rw [longLayout, List.length_map, List.length_range]

/-- Symbols with records of one length encode to as many times that length. -/
theorem encodeSymbols_length {image : List UInt8} {n : ℕ} {symbols : List RetainSymbol}
    (h : ∀ s ∈ symbols, ∃ bytes, encodeRecord image s = .ok bytes ∧ bytes.length = n) :
    ∃ payload, encodeSymbols image symbols = .ok payload ∧
      payload.length = symbols.length * n := by
  induction symbols with
  | nil => exact ⟨[], rfl, by simp⟩
  | cons s rest ih =>
      obtain ⟨bytes, hbytes, hlen⟩ := h s List.mem_cons_self
      obtain ⟨out, hout, hlen'⟩ := ih fun t ht => h t (List.mem_cons_of_mem _ ht)
      refine ⟨bytes ++ out, except_bind_ok.mpr ⟨bytes, hbytes, except_bind_ok.mpr ⟨out, hout, rfl⟩⟩,
        ?_⟩
      rw [List.length_append, hlen, hlen', List.length_cons]
      ring

/-- The flags encode to more than `2 ^ 32` bytes. -/
theorem encodeRecords_longFlush :
    ∃ payload, encodeRecords longFlush.layout longFlush.image = .ok payload ∧
      2 ^ 32 ≤ payload.length := by
  have hrec : ∀ s ∈ longLayout.symbols, ∃ bytes,
      encodeRecord longFlush.image s = .ok bytes ∧ bytes.length = 65540 := by
    intro s hs
    simp only [longLayout, List.mem_map, List.mem_range] at hs
    obtain ⟨i, hi, rfl⟩ := hs
    have hname := nameBytes_longName (show i ≤ 65535 by omega)
    have hlen : (⟨longName i, .bool, i⟩ : RetainSymbol).endOffset ≤ longFlush.image.length := by
      rw [longFlush_length]
      exact hi
    have hslice := readAt_length hlen
    refine ⟨_, if_neg (not_lt.mpr hname.le), ?_⟩
    rw [List.length_append, RetainSymbol.slice, hslice, List.length_append, List.length_append,
      hname, leBytes_length]
    rfl
  obtain ⟨payload, hpayload, hlen⟩ := encodeSymbols_length hrec
  refine ⟨payload, ?_, ?_⟩
  · unfold encodeRecords
    rw [if_neg]
    · exact hpayload
    · rw [not_not]
      exact longFlush_length
  · rw [hlen, longLayout_length]
    norm_num

/-- Without a slot to choose a load starts cold. -/
theorem load_cold {layout : RetainLayout} (hid : validateProgramId id = .ok ())
    (h : chooseSlot fs.readIdx fs.readSlot = none) :
    ∃ report, load fs id layout layout.retainSize =
        .ok (List.replicate layout.retainSize 0, report) ∧ report.source = .cold := by
  unfold load
  simp only [hid, h]
  rw [if_neg (by simp)]
  exact ⟨_, except_bind_ok.mpr ⟨(), rfl, rfl⟩, rfl⟩

/-- A lone slot that does not decode is not chosen, whatever the index says. -/
theorem chooseSlot_lone {s : Slot} {bytes : List UInt8} (hbytes : decodeSlot bytes = none)
    {generation : ℕ} (hgen : generation ≤ u64Max) :
    chooseSlot ((Files.empty.write (.slot s) bytes).write .idx (encodeIdx s generation)).readIdx
      ((Files.empty.write (.slot s) bytes).write .idx (encodeIdx s generation)).readSlot = none := by
  rw [readIdx_write_idx, decodeIdx_encodeIdx hgen]
  have hother : Files.empty.readSlot s.other = none := rfl
  simp only [chooseSlot, readSlot_write_idx, readSlot_write_slot, if_true, hbytes, Slot.other_ne,
    if_false, hother, Option.map_none]

/-- A complete flush of a payload of `2 ^ 32` bytes is lost: the next load starts cold. -/
theorem long_flush_lost :
    ∃ fs report image report', flush .empty "p" longFlush.layout longFlush.image = .ok (report, fs) ∧
      History "p" fs (some longFlush) [] ∧
      load fs "p" longFlush.layout longFlush.layout.retainSize = .ok (image, report') ∧
      report'.source = .cold ∧
      RetainSymbol.slice ⟨longName 0, .bool, 0⟩ image = [0] ∧
      RetainSymbol.slice ⟨longName 0, .bool, 0⟩ longFlush.image = [1] := by
  have hid : validateProgramId "p" = .ok () := by decide +kernel
  obtain ⟨payload, hpayload, hlong⟩ := encodeRecords_longFlush
  obtain ⟨report, hwrites⟩ := flushWrites_eq .empty hid hpayload
  have hflush := flush_of_writes hwrites
  have hnone : decodeSlot (encodeSlot (nextGeneration 0) (schemaHash longFlush.layout)
      longFlush.layout.symbols.length payload) = none := decodeSlot_encodeSlot_long hlong
  have hchoose := chooseSlot_lone (s := .zero) hnone (show nextGeneration 0 ≤ u64Max by decide)
  obtain ⟨report', hload, hcold⟩ := load_cold hid hchoose
  refine ⟨_, report, _, report', hflush, (History.start .empty).complete hflush, hload, hcold, ?_, ?_⟩
  · rfl
  · rfl

end SoftPlc.Retain

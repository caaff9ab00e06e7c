import SoftPlc.Io.ModbusTransfer

/-!
# Batches and single transfers

A poll of a valid module reads what one transfer for each point reads, and writes what one transfer for
each point writes (`batched_transfers`). Reads are compared by the value of the field at the address of
a point (`fieldValue`). Writes are updates with a footprint, so that the order of the points does not
matter.
-/

namespace SoftPlc.Io.Modbus

open SoftPlc.Lib

/-! ## Reads -/

/-- The value that the field holds for a point. -/
def fieldValue (m : FieldMemory) (p : PlannedPoint) : PlcValue :=
  if isBitTable p.table then decodeNumber (if m.bits p.table p.pdu then 1 else 0) p
  else decodeRegs ((List.range p.words).map fun i => m.regs p.table (p.pdu + i)) p

section Reads

variable {m : FieldMemory} {p : PlannedPoint} {points : List PlannedPoint} {start qty maxQty : ℕ}

theorem answer_ok {α : Type} (hqty : 1 ≤ qty ∧ qty ≤ maxQty) (hend : start + qty ≤ 65536) (a : α) :
    answer start qty maxQty a = .ok a := by
  unfold answer
  rw [if_neg (not_not.mpr hqty), if_neg (not_lt.mpr hend)]

theorem byteOf_getLsbD (f : ℕ → Bool) {i : ℕ} (hi : i < 8) : (byteOf f).getLsbD i = f i := by
  unfold byteOf
  rw [BitVec.getLsbD_ofBoolListLE]
  interval_cases i <;> rfl

/-- The packed bits can be read back. -/
theorem packBits_get (bit : ℕ → Bool) {rel : ℕ} (hrel : rel < qty) :
    (((packBits bit start qty)[rel / 8]?).any fun byte => byte.getLsbD (rel % 8)) = bit (start + rel) := by
  have hbyte : rel / 8 < (qty + 7) / 8 := by omega
  have hsplit : 8 * (rel / 8) + rel % 8 = rel := Nat.div_add_mod rel 8
  unfold packBits
  rw [List.getElem?_map, List.getElem?_range hbyte, Option.map_some, Option.any_some,
    byteOf_getLsbD _ (Nat.mod_lt _ (by decide)), hsplit, decide_eq_true hrel, Bool.true_and]

/-- **A read that covers a point gives the value of the field.** -/
theorem transfer_value {table : RegisterType} (hsound : p.Sound) (htable : p.table = table)
    (hqty : 1 ≤ qty ∧ qty ≤ readMax table) (hend : start + qty ≤ 65536) (hstart : start ≤ p.pdu)
    (hcover : p.pdu + p.words ≤ start + qty) : ∃ data, transfer m table start qty = .ok data ∧
      pointValue start data p = .ok (fieldValue m p) := by
  subst htable
  have hwords := hsound.words_bounds
  unfold transfer fieldValue
  unfold readMax at hqty
  by_cases hbit : isBitTable p.table = true
  · rw [if_pos hbit] at hqty ⊢
    unfold readBits
    rw [answer_ok hqty hend, if_pos hbit]
    refine ⟨_, rfl, ?_⟩
    unfold pointValue
    dsimp only
    rw [packBits_get _ (show p.pdu - start < qty by omega), Nat.add_sub_cancel' hstart]
  · rw [if_neg hbit] at hqty ⊢
    unfold readRegs
    rw [answer_ok hqty hend, if_neg hbit]
    refine ⟨_, rfl, ?_⟩
    unfold pointValue
    dsimp only
    rw [List.length_map, List.length_range, if_neg (by omega)]
    congr 2
    -- The words of the point are a part of the answer.
    apply List.ext_getElem
    · simp only [List.length_take, List.length_drop, List.length_map, List.length_range]
      omega
    · intro i hi hi'
      simp only [List.getElem_take, List.getElem_drop, List.getElem_map, List.getElem_range]
      congr 1
      omega

/-- The range of one point alone. -/
theorem readPoint_eq (hsound : p.Sound) : readPoint m p = .ok (fieldValue m p) := by
  have hwords := hsound.words_bounds
  have htop := hsound.top
  have hmax : p.words ≤ readMax p.table := by
    unfold readMax
    split_ifs <;> omega
  obtain ⟨data, hdata, hvalue⟩ := @transfer_value m p p.pdu p.words p.table hsound rfl ⟨hwords.1, hmax⟩
    (by omega) (le_refl _) (le_refl _)
  unfold readPoint
  rw [hdata]
  exact hvalue

/-- Keep the values of the field. -/
def storeField (m : FieldMemory) (points : List PlannedPoint) (last : List PlcValue) : List PlcValue :=
  points.foldl (fun last p => storeValue last p (fieldValue m p)) last

theorem storeGroup_eq {data : Payload} (h : ∀ p ∈ points, pointValue start data p = .ok (fieldValue m p))
    (last : List PlcValue) : storeGroup start data points last = (storeField m points last, .ok ()) := by
  induction points generalizing last with
  | nil => rfl
  | cons p ps ih =>
      unfold storeGroup
      rw [h p List.mem_cons_self]
      exact ih (fun q hq => h q (List.mem_cons_of_mem _ hq)) _

/-- **A poll keeps the values of the field** for the members of its groups. -/
theorem readInputs_eq (hpoints : ValidPoints points) {groups : List Group}
    (h : ∀ g ∈ groups, ∃ table, g.Of points (isInputOf table) (readMax table)) (last : List PlcValue) :
    readInputs m groups last = (storeField m (groups.flatMap Group.members) last, .ok ()) := by
  induction groups generalizing last with
  | nil => rfl
  | cons g gs ih =>
      obtain ⟨table, hg⟩ := h g List.mem_cons_self
      have hbounds := hg.bounds hpoints
      have htable : ∀ p ∈ g.members, p.table = table := by
        intro p hp
        have hpred := (hg.members p hp).2
        unfold isInputOf at hpred
        simpa using (Bool.and_eq_true_iff.mp hpred).2
      obtain ⟨first, rest, hmembers⟩ := List.exists_cons_of_ne_nil hg.nonempty
      have hfirst := htable first (hmembers ▸ List.mem_cons_self)
      have hvalues : ∀ p ∈ g.members, ∃ data, transfer m table g.start g.qty = .ok data ∧
          pointValue g.start data p = .ok (fieldValue m p) := by
        intro p hp
        have hrange := hg.tiles.bounds hp
        exact transfer_value (hpoints.sound p (hg.members p hp).1) (htable p hp)
          ⟨hbounds.1, hg.qty_le⟩ (by omega) hrange.1 hrange.2
      obtain ⟨data, hdata, -⟩ := hvalues first (hmembers ▸ List.mem_cons_self)
      have hstore : storeGroup g.start data g.members last = (storeField m g.members last, .ok ()) := by
        apply storeGroup_eq
        intro p hp
        obtain ⟨data', hdata', hvalue⟩ := hvalues p hp
        obtain rfl : data = data' := Except.ok.inj (hdata.symm.trans hdata')
        exact hvalue
      have hsplit : storeField m ((g :: gs).flatMap Group.members) last =
          storeField m (gs.flatMap Group.members) (storeField m g.members last) := by
        unfold storeField
        rw [List.flatMap_cons, List.foldl_append]
      rw [hsplit, ← ih (fun g' hg' => h g' (List.mem_cons_of_mem _ hg'))]
      conv_lhs => unfold readInputs
      rw [hmembers] at hstore ⊢
      dsimp only
      rw [hfirst, hdata]
      dsimp only
      rw [hstore]

theorem storeField_eq (m : FieldMemory) (points : List PlannedPoint) (last : List PlcValue) :
    storeField m points last = place (fieldValue m) points last := rfl

theorem inputDefaults_length (points : List PlannedPoint) :
    (inputDefaults points).length = (points.filterMap PlannedPoint.inputPos).length :=
  (place_length _).trans List.length_replicate

/-- Every input is read. -/
theorem mem_readGroups (h : ValidPoints points) : p ∈ (readGroups points).flatMap Group.members ↔
    p ∈ points ∧ p.direction = .input := by
  unfold readGroups
  rw [List.flatMap_assoc]
  simp only [buildGroups_members h, List.mem_flatMap, mem_byPdu, isInputOf, Bool.and_eq_true,
    beq_iff_eq]
  constructor
  · rintro ⟨table, -, hp, hdirection, -⟩
    exact ⟨hp, hdirection⟩
  · rintro ⟨hp, hdirection⟩
    refine ⟨p.table, ?_, hp, hdirection, rfl⟩
    unfold tables
    cases p.table <;> decide

theorem readGroups_of (h : ValidPoints points) :
    ∀ g ∈ readGroups points, ∃ table, g.Of points (isInputOf table) (readMax table) := by
  intro g hg
  obtain ⟨table, -, hg⟩ := List.mem_flatMap.mp hg
  refine ⟨table, buildGroups_of h ?_ g hg⟩
  unfold readMax
  split_ifs <;> decide

/-- No two inputs share a place. -/
theorem ValidPoints.inputPos_inj (h : ValidPoints points) {q : PlannedPoint} {pos : ℕ} (hp : p ∈ points)
    (hq : q ∈ points) (hppos : p.inputPos = some pos) (hqpos : q.inputPos = some pos) : q = p := by
  by_contra hne
  have hnodup : (points.filterMap PlannedPoint.inputPos).Nodup := by
    rw [h.positions]
    exact List.nodup_range
  have hpairs := List.pairwise_filterMap.mp hnodup
  have hsymm : Std.Symm fun a b : PlannedPoint =>
      ∀ i, a.inputPos = some i → ∀ j, b.inputPos = some j → i ≠ j :=
    ⟨fun a b h i hi j hj => (h j hj i hi).symm⟩
  exact hpairs.forall hq hp hne pos hqpos pos hppos rfl

theorem ValidPoints.inputPos_lt (h : ValidPoints points) {pos : ℕ} (hp : p ∈ points)
    (hpos : p.inputPos = some pos) : pos < (points.filterMap PlannedPoint.inputPos).length := by
  have hmem : pos ∈ points.filterMap PlannedPoint.inputPos := List.mem_filterMap.mpr ⟨p, hp, hpos⟩
  rw [h.positions] at hmem
  exact List.mem_range.mp hmem

end Reads

/-! ## Writes -/

/-- A cell of the device. -/
def FieldMemory.cell (m : FieldMemory) (a : RegisterType × ℕ) : Bool ⊕ BitVec 16 :=
  match a.1 with
  | .coil => .inl (m.coils a.2)
  | .discrete => .inl (m.discretes a.2)
  | .holding => .inr (m.holdings a.2)
  | .input => .inr (m.inputs a.2)

/-- The cells make up the device. -/
theorem FieldMemory.cell_ext (m m' : FieldMemory) (h : ∀ a, m.cell a = m'.cell a) : m = m' := by
  apply FieldMemory.ext
  · funext x
    exact Sum.inl.inj (h (.coil, x))
  · funext x
    exact Sum.inl.inj (h (.discrete, x))
  · funext x
    exact Sum.inr.inj (h (.holding, x))
  · funext x
    exact Sum.inr.inj (h (.input, x))

/-- The cells of a point. -/
def PlannedPoint.footprint (p : PlannedPoint) : Set (RegisterType × ℕ) :=
  {a | a.1 = p.table ∧ p.pdu ≤ a.2 ∧ a.2 < p.pdu + p.words}

/-- The words of points, one after the other. -/
def wordsOf (ctx : WriteCtx) (points : List PlannedPoint) : List (BitVec 16) :=
  points.flatMap fun p => valueToWords (selected ctx p) p

/-- What a write of one point does. -/
def put (ctx : WriteCtx) (m : FieldMemory) (p : PlannedPoint) : FieldMemory :=
  if p.table = .coil then { m with coils := writeBlock m.coils p.pdu [coilOn (selected ctx p) p] }
  else if p.raw = .bool then
    let reg := withBit (m.holdings p.pdu) (p.bit.getD 0) (coilOn (selected ctx p) p)
    { m with holdings := writeBlock m.holdings p.pdu [reg] }
  else { m with holdings := writeBlock m.holdings p.pdu (valueToWords (selected ctx p) p) }

section Writes

variable {ctx : WriteCtx} {m : FieldMemory} {p : PlannedPoint} {points : List PlannedPoint}
  {start qty maxQty : ℕ}

theorem valueToWords_length (value : PlcValue) (p : PlannedPoint) :
    (valueToWords value p).length = rawWords p.raw := by
  unfold valueToWords rawWords
  cases p.raw <;> rfl

/-- An output is a coil, a bit of a holding register, or some holding registers. -/
theorem PlannedPoint.Sound.output_cases (h : p.Sound) (hout : p.direction = .output) :
    (p.table = .coil ∧ p.words = 1) ∨ (p.table = .holding ∧ p.words = rawWords p.raw) := by
  obtain ⟨-, -, htable⟩ := h.output hout
  have hwords := h.words
  rcases htable with htable | htable
  · left
    rw [htable] at hwords
    exact ⟨htable, hwords⟩
  · right
    rw [htable] at hwords
    exact ⟨htable, hwords⟩

/-- **A write of a point is local to its cells.** -/
theorem put_local (h : p.Sound) (hout : p.direction = .output) :
    LocalTo FieldMemory.cell p.footprint fun m => put ctx m p := by
  rcases h.output_cases hout with ⟨htable, hwords⟩ | ⟨htable, hwords⟩
  · have hput : ∀ m, put ctx m p =
        { m with coils := writeBlock m.coils p.pdu [coilOn (selected ctx p) p] } :=
      fun m => if_pos htable
    constructor
    · rintro m ⟨table, x⟩ ha
      rw [hput]
      cases table with
      | coil =>
          apply congrArg Sum.inl
          apply writeBlock_frame
          rw [List.length_singleton, ← hwords]
          by_contra hx
          exact ha ⟨htable.symm, by dsimp only; omega, by dsimp only; omega⟩
      | _ => rfl
    · rintro m m' - ⟨table, x⟩ ⟨htab, hlow, hhigh⟩
      rw [hput, hput]
      obtain rfl : table = .coil := htab.trans htable
      apply congrArg Sum.inl
      apply writeBlock_inside
      rw [List.length_singleton, ← hwords]
      exact ⟨hlow, hhigh⟩
  · have hcoil : p.table ≠ .coil := by rw [htable]; decide
    -- Both kinds of register write a block whose length is that of the point.
    obtain ⟨block, hput, hlen, hreads⟩ : ∃ block : FieldMemory → List (BitVec 16),
        (∀ m, put ctx m p = { m with holdings := writeBlock m.holdings p.pdu (block m) }) ∧
        (∀ m, (block m).length = p.words) ∧
        (∀ m m', m.holdings p.pdu = m'.holdings p.pdu → block m = block m') := by
      by_cases hraw : p.raw = .bool
      · refine ⟨fun m => [withBit (m.holdings p.pdu) (p.bit.getD 0) (coilOn (selected ctx p) p)], ?_, ?_, ?_⟩
        · intro m
          unfold put
          rw [if_neg hcoil, if_pos hraw]
        · intro m
          rw [hwords, hraw]
          rfl
        · intro m m' heq
          dsimp only
          rw [heq]
      · refine ⟨fun _ => valueToWords (selected ctx p) p, ?_, ?_, fun _ _ _ => rfl⟩
        · intro m
          unfold put
          rw [if_neg hcoil, if_neg hraw]
        · intro m
          rw [hwords, valueToWords_length]
    have hpositive := h.words_bounds.1
    constructor
    · rintro m ⟨table, x⟩ ha
      rw [hput]
      cases table with
      | holding =>
          apply congrArg Sum.inr
          apply writeBlock_frame
          rw [hlen]
          by_contra hx
          exact ha ⟨htable.symm, by dsimp only; omega, by dsimp only; omega⟩
      | _ => rfl
    · rintro m m' hsame ⟨table, x⟩ ⟨htab, hlow, hhigh⟩
      rw [hput, hput]
      obtain rfl : table = .holding := htab.trans htable
      have hfirst : m.holdings p.pdu = m'.holdings p.pdu :=
        Sum.inr.inj (hsame (.holding, p.pdu) ⟨htable.symm, le_refl _, by dsimp only; omega⟩)
      rw [hreads m m' hfirst]
      apply congrArg Sum.inr
      apply writeBlock_inside
      rw [hlen]
      exact ⟨hlow, hhigh⟩

/-- Points that are apart have disjoint cells. -/
theorem Apart.disjoint {q : PlannedPoint} (h : Apart p q) : Disjoint p.footprint q.footprint := by
  rw [Set.disjoint_left]
  rintro ⟨table, x⟩ ⟨hp, hplow, hphigh⟩ ⟨hq, hqlow, hqhigh⟩
  have hapart := h (hp.symm.trans hq)
  dsimp only at hplow hphigh hqlow hqhigh
  omega

theorem reply_ok {m' : FieldMemory} (hqty : 1 ≤ qty ∧ qty ≤ maxQty) (hend : start + qty ≤ 65536) :
    reply start qty maxQty m m' = (m', .ok ()) := by
  unfold reply
  rw [answer_ok hqty hend]

theorem writeAll_eq {ι : Type} {write : ι → FieldMemory → Reply} {up : FieldMemory → ι → FieldMemory}
    {l : List ι} (h : ∀ i ∈ l, ∀ m, write i m = (up m i, .ok ())) (m : FieldMemory) :
    writeAll write l m = (l.foldl up m, .ok ()) := by
  induction l generalizing m with
  | nil => rfl
  | cons i l ih =>
      unfold writeAll
      rw [h i List.mem_cons_self]
      exact ih (fun j hj => h j (List.mem_cons_of_mem _ hj)) _

theorem writeBit_eq (h : p.Sound) (hcoil : p.table ≠ .coil)
    (hraw : p.raw = .bool) : writeBit ctx p m = (put ctx m p, .ok ()) := by
  have htop := h.top
  have hwords := h.words_bounds
  have hend : p.pdu + 1 ≤ 65536 := by omega
  have hread : readRegs m .holding p.pdu 1 = .ok [m.holdings p.pdu] :=
    answer_ok ⟨le_refl _, by decide⟩ hend _
  unfold writeBit put
  rw [hread, if_neg hcoil, if_pos hraw]
  exact reply_ok ⟨le_refl _, le_refl _⟩ hend

/-- One write for one point. -/
theorem writePoint_eq (h : p.Sound) (hout : p.direction = .output) (m : FieldMemory) :
    writePoint ctx p m = (put ctx m p, .ok ()) := by
  have htop := h.top
  have hwords := h.words_bounds
  have hone : p.pdu + 1 ≤ 65536 := by omega
  have hall : p.pdu + p.words ≤ 65536 := by omega
  have hcap : p.words ≤ 123 := by omega
  unfold writePoint
  by_cases hcoil : p.table = .coil
  · rw [if_pos hcoil]
    unfold put writeCoil
    rw [if_pos hcoil]
    exact reply_ok ⟨le_refl _, le_refl _⟩ hone
  · rw [if_neg hcoil]
    by_cases hraw : p.raw = .bool
    · rw [if_pos hraw]
      exact writeBit_eq h hcoil hraw
    · rw [if_neg hraw]
      have hlen : (valueToWords (selected ctx p) p).length = p.words := by
        rcases h.output_cases hout with ⟨htable, -⟩ | ⟨-, heq⟩
        · exact absurd htable hcoil
        · rw [valueToWords_length, heq]
      unfold put writeRegs
      rw [if_neg hcoil, if_neg hraw, hlen]
      exact reply_ok ⟨hwords.1, hcap⟩ hall

/-- The bits of adjacent coils are the writes of these coils. -/
theorem writeBlock_coils {a b : ℕ} (htiles : Tiles PlannedPoint.pdu PlannedPoint.words a points b)
    (hpoints : ∀ p ∈ points, p.table = .coil ∧ p.words = 1) (m : FieldMemory) :
    { m with coils := writeBlock m.coils a (points.map fun p => coilOn (selected ctx p) p) } =
      points.foldl (put ctx) m := by
  induction points generalizing a m with
  | nil => rfl
  | cons p ps ih =>
      obtain ⟨htable, hwords⟩ := hpoints p List.mem_cons_self
      obtain ⟨rfl, hrest⟩ := htiles
      rw [hwords] at hrest
      have hput : put ctx m p =
          { m with coils := writeBlock m.coils p.pdu [coilOn (selected ctx p) p] } := if_pos htable
      rw [List.foldl_cons, hput,
        ← ih hrest (fun q hq => hpoints q (List.mem_cons_of_mem _ hq))]
      rfl

/-- A group of coils is written like its members. -/
theorem writeCoilGroup_eq {g : Group} (hpoints : ValidPoints points) (hg : g.Of points isCoilOut 1968)
    (m : FieldMemory) : writeCoilGroup ctx g m = (g.members.foldl (put ctx) m, .ok ()) := by
  have hbounds := hg.bounds hpoints
  have hcoils : ∀ p ∈ g.members, p.table = .coil ∧ p.words = 1 := by
    intro p hp
    obtain ⟨hmem, hpred⟩ := hg.members p hp
    simp only [isCoilOut, Bool.and_eq_true, beq_iff_eq] at hpred
    have hwords := (hpoints.sound p hmem).words
    rw [hpred.2] at hwords
    exact ⟨hpred.2, hwords⟩
  have hlen : (g.members.map fun p => coilOn (selected ctx p) p).length = g.qty := by
    rw [List.length_map, hg.qty_eq, List.map_congr_left (fun p hp => (hcoils p hp).2)]
    simp
  rw [← writeBlock_coils hg.tiles hcoils m]
  have hend : g.start + g.qty ≤ 65536 := by omega
  unfold writeCoilGroup
  generalize (g.members.map fun p => coilOn (selected ctx p) p) = bits at hlen ⊢
  match bits with
  | [] =>
      rw [List.length_nil] at hlen
      omega
  | [on] =>
      have hlast : g.start + 1 ≤ 65536 := by omega
      exact reply_ok ⟨le_refl _, le_refl _⟩ hlast
  | a :: b :: rest =>
      dsimp only
      unfold writeCoils
      rw [hlen]
      exact reply_ok ⟨hbounds.1, hg.qty_le⟩ hend

/-- The registers of a group are the words of its members. -/
theorem groupRegs_eq {g : Group} (hwords : ∀ p ∈ g.members, (valueToWords (selected ctx p) p).length = p.words)
    (htiles : Tiles PlannedPoint.pdu PlannedPoint.words g.start g.members (g.start + g.qty)) :
    groupRegs ctx g = wordsOf ctx g.members := by
  -- The first members fill the registers before the next one.
  have hfill : ∀ (ps : List PlannedPoint) (done : List (BitVec 16)) (k : ℕ),
      Tiles PlannedPoint.pdu PlannedPoint.words (g.start + done.length) ps (g.start + done.length + k) →
      (∀ p ∈ ps, (valueToWords (selected ctx p) p).length = p.words) →
      ps.foldl (fun regs p => fillAt regs (p.pdu - g.start) (valueToWords (selected ctx p) p))
        (done ++ List.replicate k 0) = done ++ wordsOf ctx ps := by
    intro ps
    induction ps with
    | nil =>
        intro done k h _
        obtain rfl : k = 0 := by
          have heq : g.start + done.length = g.start + done.length + k := h
          omega
        rfl
    | cons p ps ih =>
        intro done k h hlen
        obtain ⟨hstart, hrest⟩ := h
        have hp := hlen p List.mem_cons_self
        have hroom : p.words ≤ k := by
          have hle := hrest.le
          omega
        have hoff : p.pdu - g.start = done.length := by omega
        rw [List.foldl_cons, hoff, fillAt_append _ _ _ (by rw [List.length_replicate, hp]; exact hroom),
          List.drop_replicate, hp]
        have hnext := ih (done ++ valueToWords (selected ctx p) p) (k - p.words) (by
          rw [List.length_append, hp, ← Nat.add_assoc]
          have hend : g.start + done.length + p.words + (k - p.words) = g.start + done.length + k := by
            omega
          rw [hend]
          exact hrest) (fun q hq => hlen q (List.mem_cons_of_mem _ hq))
        rw [hnext, List.append_assoc]
        rfl
  have hall := hfill g.members [] g.qty (by rw [List.length_nil, Nat.add_zero]; exact htiles) hwords
  exact hall

/-- The words of adjacent registers are the writes of these points. -/
theorem writeBlock_regs {a b : ℕ} (htiles : Tiles PlannedPoint.pdu PlannedPoint.words a points b)
    (hpoints : ∀ p ∈ points, p.table ≠ .coil ∧ p.raw ≠ .bool ∧
      (valueToWords (selected ctx p) p).length = p.words) (m : FieldMemory) :
    { m with holdings := writeBlock m.holdings a (wordsOf ctx points) } = points.foldl (put ctx) m := by
  induction points generalizing a m with
  | nil => rfl
  | cons p ps ih =>
      obtain ⟨hcoil, hraw, hlen⟩ := hpoints p List.mem_cons_self
      obtain ⟨rfl, hrest⟩ := htiles
      have hput : put ctx m p =
          { m with holdings := writeBlock m.holdings p.pdu (valueToWords (selected ctx p) p) } := by
        unfold put
        rw [if_neg hcoil, if_neg hraw]
      have hwords : wordsOf ctx (p :: ps) = valueToWords (selected ctx p) p ++ wordsOf ctx ps := rfl
      rw [List.foldl_cons, hput, ← ih hrest (fun q hq => hpoints q (List.mem_cons_of_mem _ hq)), hwords,
        writeBlock_append, hlen]

/-- A group of registers is written like its members. -/
theorem writeRegGroup_eq {g : Group} (hpoints : ValidPoints points) (hg : g.Of points isRegOut 123)
    (m : FieldMemory) : writeRegGroup ctx g m = (g.members.foldl (put ctx) m, .ok ()) := by
  have hbounds := hg.bounds hpoints
  have hregs : ∀ p ∈ g.members, p.table ≠ .coil ∧ p.raw ≠ .bool ∧
      (valueToWords (selected ctx p) p).length = p.words := by
    intro p hp
    obtain ⟨hmem, hpred⟩ := hg.members p hp
    simp only [isRegOut, Bool.and_eq_true, beq_iff_eq, bne_iff_ne] at hpred
    have hwords := (hpoints.sound p hmem).words
    rw [hpred.1.2] at hwords
    refine ⟨by rw [hpred.1.2]; decide, hpred.2, ?_⟩
    rw [valueToWords_length]
    exact hwords.symm
  have heq := groupRegs_eq (fun p hp => (hregs p hp).2.2) hg.tiles
  have hlen : (groupRegs ctx g).length = g.qty := by
    rw [heq, wordsOf, List.length_flatMap, hg.qty_eq,
      List.map_congr_left (fun p hp => (hregs p hp).2.2)]
  rw [← writeBlock_regs hg.tiles hregs m, ← heq]
  have hend : g.start + g.qty ≤ 65536 := by omega
  unfold writeRegGroup
  generalize groupRegs ctx g = regs at hlen ⊢
  match regs with
  | [] =>
      rw [List.length_nil] at hlen
      omega
  | [reg] =>
      have hlast : g.start + 1 ≤ 65536 := by omega
      exact reply_ok ⟨le_refl _, le_refl _⟩ hlast
  | a :: b :: rest =>
      dsimp only
      unfold writeRegs
      rw [hlen]
      exact reply_ok ⟨hbounds.1, hg.qty_le⟩ hend

/-- The members of groups, one after the other. -/
theorem foldl_groups (groups : List Group) (m : FieldMemory) :
    groups.foldl (fun m g => g.members.foldl (put ctx) m) m =
      (groups.flatMap Group.members).foldl (put ctx) m := by
  induction groups generalizing m with
  | nil => rfl
  | cons g gs ih => rw [List.foldl_cons, ih, List.flatMap_cons, List.foldl_append]

/-- Outputs. -/
def isOut (p : PlannedPoint) : Bool := p.direction == .output

/-- Every output is a coil, a register or a bit of one. -/
theorem outputs_perm (h : ∀ p ∈ points, p.Sound) :
    (points.filter isCoilOut ++ points.filter isRegOut ++ points.filter isBitOut).Perm
      (points.filter isOut) := by
  induction points with
  | nil => exact List.Perm.nil
  | cons p ps ih =>
      have hrest := ih fun q hq => h q (List.mem_cons_of_mem _ hq)
      have hsound := h p List.mem_cons_self
      by_cases hout : p.direction = .output
      · have hkind : isOut p = true := by simp [isOut, hout]
        rw [List.filter_cons_of_pos hkind]
        obtain ⟨-, -, htable | htable⟩ := hsound.output hout
        · have hcoil : isCoilOut p = true := by simp [isCoilOut, hout, htable]
          have hreg : ¬isRegOut p = true := by simp [isRegOut, htable]
          have hbit : ¬isBitOut p = true := by simp [isBitOut, htable]
          rw [List.filter_cons_of_pos hcoil, List.filter_cons_of_neg hreg, List.filter_cons_of_neg hbit]
          exact hrest.cons p
        · have hcoil : ¬isCoilOut p = true := by simp [isCoilOut, htable]
          by_cases hraw : p.raw = .bool
          · have hreg : ¬isRegOut p = true := by simp [isRegOut, hraw]
            have hbit : isBitOut p = true := by simp [isBitOut, hout, htable, hraw]
            rw [List.filter_cons_of_neg hcoil, List.filter_cons_of_neg hreg, List.filter_cons_of_pos hbit]
            exact List.perm_middle.trans (hrest.cons p)
          · have hreg : isRegOut p = true := by simp [isRegOut, hout, htable, hraw]
            have hbit : ¬isBitOut p = true := by simp [isBitOut, hraw]
            rw [List.filter_cons_of_neg hcoil, List.filter_cons_of_pos hreg, List.filter_cons_of_neg hbit,
              List.append_assoc]
            rw [List.append_assoc] at hrest
            exact List.perm_middle.trans (hrest.cons p)
      · have hkind : ¬isOut p = true := by simp [isOut, hout]
        have hcoil : ¬isCoilOut p = true := by simp [isCoilOut, hout]
        have hreg : ¬isRegOut p = true := by simp [isRegOut, hout]
        have hbit : ¬isBitOut p = true := by simp [isBitOut, hout]
        rw [List.filter_cons_of_neg hkind, List.filter_cons_of_neg hcoil, List.filter_cons_of_neg hreg,
          List.filter_cons_of_neg hbit]
        exact hrest

/-- The outputs are local to disjoint cells. -/
theorem outputs_local (h : ValidPoints points) :
    (∀ p ∈ points.filter isOut, LocalTo FieldMemory.cell p.footprint fun m => put ctx m p) ∧
      (points.filter isOut).Pairwise fun p q => Disjoint p.footprint q.footprint := by
  refine ⟨?_, (h.apart.filter _).imp Apart.disjoint⟩
  intro p hp
  obtain ⟨hmem, hout⟩ := List.mem_filter.mp hp
  exact put_local (h.sound p hmem) (beq_iff_eq.mp hout)

/-- **A poll writes its outputs**, in any order. -/
theorem writeWith_eq (h : ValidPoints points) {rt : ModRt}
    (hcoils : rt.coilGroups = buildGroups points isCoilOut 1968)
    (hregs : rt.regGroups = buildGroups points isRegOut 123)
    (hbits : rt.bitOuts = points.filter isBitOut) (m : FieldMemory) :
    writeWith ctx rt m = ((points.filter isOut).foldl (put ctx) m, .ok ()) := by
  have hcoilGroups : ∀ m, writeAll (writeCoilGroup ctx) rt.coilGroups m =
      ((byPdu points isCoilOut).foldl (put ctx) m, .ok ()) := by
    intro m
    rw [hcoils, writeAll_eq (fun g hg => writeCoilGroup_eq h (buildGroups_of h (by decide) g hg)),
      foldl_groups, buildGroups_members h]
  have hregGroups : ∀ m, writeAll (writeRegGroup ctx) rt.regGroups m =
      ((byPdu points isRegOut).foldl (put ctx) m, .ok ()) := by
    intro m
    rw [hregs, writeAll_eq (fun g hg => writeRegGroup_eq h (buildGroups_of h (by decide) g hg)),
      foldl_groups, buildGroups_members h]
  have hbitOuts : ∀ m, writeAll (writeBit ctx) rt.bitOuts m =
      ((points.filter isBitOut).foldl (put ctx) m, .ok ()) := by
    intro m
    rw [hbits]
    apply writeAll_eq
    intro p hp m
    obtain ⟨hmem, hpred⟩ := List.mem_filter.mp hp
    simp only [isBitOut, Bool.and_eq_true, beq_iff_eq] at hpred
    exact writeBit_eq (h.sound p hmem) (by rw [hpred.1.2]; decide) hpred.2
  have hperm : (points.filter isOut).Perm
      (byPdu points isCoilOut ++ byPdu points isRegOut ++ points.filter isBitOut) :=
    (outputs_perm h.sound).symm.trans
      (((List.mergeSort_perm _ _).symm.append (List.mergeSort_perm _ _).symm).append_right _)
  obtain ⟨hlocal, hdisjoint⟩ := @outputs_local ctx points h
  have horder := LocalTo.foldl_perm FieldMemory.cell_ext hlocal hdisjoint hperm m
  unfold writeWith Reply.andThen
  rw [hcoilGroups]
  dsimp only
  rw [hregGroups]
  dsimp only
  rw [hbitOuts, ← List.foldl_append, ← List.foldl_append, ← List.append_assoc]
  exact congrArg (fun m' => (m', Except.ok ())) horder.symm

theorem withBit_other (reg : BitVec 16) {bit k : ℕ} (on : Bool) (hk : k ≠ bit) :
    (withBit reg bit on).getLsbD k = reg.getLsbD k := by
  have hzero : (1#16 <<< bit).getLsbD k = false := by
    rw [BitVec.getLsbD_shiftLeft, BitVec.getLsbD_one]
    by_cases hlt : k < bit
    · simp [hlt]
    · have hne : k - bit ≠ 0 := by omega
      simp [hne]
  unfold withBit
  split_ifs
  · rw [BitVec.getLsbD_or, hzero, Bool.or_false]
  · rw [BitVec.getLsbD_and, BitVec.getLsbD_not, hzero]
    by_cases hlt : k < 16
    · simp [hlt]
    · simp [BitVec.getLsbD_of_ge reg k (not_lt.mp hlt)]

end Writes

/-! ## Batches -/

/-- A group holds what its members need, and no more than its function allows. -/
structure Group.Fits (maxQty : ℕ) (g : Group) : Prop where
  nonempty : g.members ≠ []
  qty_eq : g.qty = (g.members.map PlannedPoint.words).sum
  qty_le : g.qty ≤ maxQty
  end_le : g.start + g.qty ≤ 65536

theorem Group.Of.fits {points : List PlannedPoint} {pred : PlannedPoint → Bool} {maxQty : ℕ} {g : Group}
    (h : g.Of points pred maxQty) (hpoints : ValidPoints points) : g.Fits maxQty := by
  have hbounds := h.bounds hpoints
  exact ⟨h.nonempty, h.qty_eq, h.qty_le, by omega⟩

/-- **Batched transfers are single transfers.** For every accepted module and every contents of the
device: the groups fit, each input gets what a read of its own range gives, and the outputs leave the
device as one write for each of them does, which changes nothing outside their ranges and bits. -/
theorem batched_transfers {moduleIndex : ℕ} {module : IoModule} {resolved : ResolvedIoMap}
    {plan : PlannedModule} (h : validateModule moduleIndex module resolved = .ok plan) (m : FieldMemory)
    (last : List PlcValue) (hlast : last.length = (splitModule plan).lastInputs.length) (ctx : WriteCtx) :
    ((∀ g ∈ (splitModule plan).readGroups, ∃ table, (∀ p ∈ g.members, p.table = table) ∧
        g.Fits (readMax table)) ∧
      (∀ g ∈ (splitModule plan).coilGroups, g.Fits 1968) ∧
      (∀ g ∈ (splitModule plan).regGroups, g.Fits 123)) ∧
    ((readInputs m (splitModule plan).readGroups last).2 = .ok () ∧
      ∀ p ∈ plan.points, p.direction = .input → ∃ pos value, p.inputPos = some pos ∧
        readPoint m p = .ok value ∧
        (readInputs m (splitModule plan).readGroups last).1[pos]? = some value) ∧
    ((writeWith ctx (splitModule plan) m).2 = .ok () ∧
      writeWith ctx (splitModule plan) m = writeAll (writePoint ctx) (plan.points.filter isOut) m ∧
      (∀ a, (∀ p ∈ plan.points, p.direction = .output → a ∉ p.footprint) →
        (writeWith ctx (splitModule plan) m).1.cell a = m.cell a) ∧
      ∀ p ∈ plan.points, isBitOut p = true → ∀ k, p.bit ≠ some k →
        ((writeWith ctx (splitModule plan) m).1.holdings p.pdu).getLsbD k =
          (m.holdings p.pdu).getLsbD k) := by
  have hvalid := validated h
  have hread := readInputs_eq (m := m) hvalid (readGroups_of hvalid) last
  have hwrite : writeWith ctx (splitModule plan) m =
      ((plan.points.filter isOut).foldl (put ctx) m, .ok ()) := writeWith_eq hvalid rfl rfl rfl m
  obtain ⟨hlocal, hdisjoint⟩ := @outputs_local ctx plan.points hvalid
  refine ⟨⟨?_, ?_, ?_⟩, ⟨congrArg Prod.snd hread, ?_⟩, congrArg Prod.snd hwrite, ?_, ?_, ?_⟩
  · intro g hg
    obtain ⟨table, hof⟩ := readGroups_of hvalid g hg
    refine ⟨table, ?_, hof.fits hvalid⟩
    intro p hp
    have hpred := (hof.members p hp).2
    unfold isInputOf at hpred
    simpa using (Bool.and_eq_true_iff.mp hpred).2
  · intro g hg
    exact (buildGroups_of hvalid (by decide) g hg).fits hvalid
  · intro g hg
    exact (buildGroups_of hvalid (by decide) g hg).fits hvalid
  · intro p hp hin
    obtain ⟨pos, hpos⟩ := (hvalid.sound p hp).input hin
    refine ⟨pos, _, hpos, readPoint_eq (hvalid.sound p hp), ?_⟩
    rw [show (splitModule plan).readGroups = readGroups plan.points from rfl, hread, storeField_eq]
    apply place_get ((mem_readGroups hvalid).mpr ⟨hp, hin⟩) hpos
    · intro q hq hqpos
      exact hvalid.inputPos_inj hp ((mem_readGroups hvalid).mp hq).1 hpos hqpos
    · rw [hlast, show (splitModule plan).lastInputs = inputDefaults plan.points from rfl,
        inputDefaults_length]
      exact hvalid.inputPos_lt hp hpos
  · rw [hwrite]
    refine (writeAll_eq ?_ m).symm
    intro p hp m
    obtain ⟨hmem, hout⟩ := List.mem_filter.mp hp
    exact writePoint_eq (hvalid.sound p hmem) (beq_iff_eq.mp hout) m
  · intro a ha
    rw [hwrite]
    apply LocalTo.foldl_frame hlocal
    intro p hp
    obtain ⟨hmem, hout⟩ := List.mem_filter.mp hp
    exact ha p hmem (beq_iff_eq.mp hout)
  · intro p hp hpred k hk
    simp only [isBitOut, Bool.and_eq_true, beq_iff_eq] at hpred
    obtain ⟨⟨hout, htable⟩, hraw⟩ := hpred
    have hsound := hvalid.sound p hp
    have hmem : p ∈ plan.points.filter isOut := List.mem_filter.mpr ⟨hp, beq_iff_eq.mpr hout⟩
    have hcell : ((plan.points.filter isOut).foldl (put ctx) m).cell (.holding, p.pdu) =
        (put ctx m p).cell (.holding, p.pdu) := by
      apply LocalTo.foldl_obs hlocal hdisjoint hmem
      have hwords := hsound.words_bounds
      exact ⟨htable.symm, le_refl _, by dsimp only; omega⟩
    have hcoil : p.table ≠ .coil := by rw [htable]; decide
    obtain ⟨b, hb, -⟩ := hsound.bit (by rw [htable]; rfl) hraw
    rw [hwrite, Sum.inr.inj hcell]
    unfold put
    rw [if_neg hcoil, if_pos hraw, hb]
    show (Function.update m.holdings p.pdu _ p.pdu).getLsbD k = _
    rw [Function.update_self]
    apply withBit_other
    rintro rfl
    exact hk hb

/-- An input binding. -/
def inputBinding (tag : String) (valueType : ValueType) (register : ℕ) : IoBinding :=
  ⟨tag, .i, valueType, none, ⟨0x3FF0000000000000⟩, ⟨0⟩, none, some register, none, none⟩

/-- An output binding. -/
def outputBinding (tag : String) (valueType : ValueType) (bit : Option ℕ) (register : ℕ) : IoBinding :=
  ⟨tag, .q, valueType, bit, ⟨0x3FF0000000000000⟩, ⟨0⟩, none, some register, none, none⟩

/-- A module with a REAL output, a bit of a register and two inputs that are read together. -/
def pumpModule : IoModule where
  id := "pump"
  config := .ok ⟨"10.0.0.2:502", 1, 100, none, none⟩
  onBadQuality := .forceSafe
  bindings := [outputBinding "Speed" .real none 40001, outputBinding "Enable" .bool (some 3) 40003,
    inputBinding "Level" .int 30001, inputBinding "Flow" .real 30002]

/-- Its slots. -/
def pumpSlots : ResolvedIoMap where
  image := ⟨[], [], [], [], []⟩
  bindings := [⟨0, 0, 0⟩, ⟨0, 1, 1⟩, ⟨0, 2, 0⟩, ⟨0, 3, 1⟩]

/-- A device that holds zeros. -/
def quietField : FieldMemory := ⟨fun _ => false, fun _ => false, fun _ => 0, fun _ => 0⟩

/-- A mailbox with two values. -/
def pumpMail : WriteCtx := ⟨⟨true, false, [.real F32.one, .bool true], none⟩, false⟩

/-- The module is accepted. -/
theorem pumpModule_accepted : ∃ plan, validateModule 0 pumpModule pumpSlots = .ok plan ∧
    plan.points.map (fun p => (p.pdu, p.words)) = [(0, 2), (2, 1), (0, 1), (1, 2)] := by
  obtain ⟨points, hpoints, hsorted, hoverlaps, hplaces⟩ := except_of_decide (P := fun points =>
    points.Pairwise (fun p q => spanBefore p q = true) ∧ (overlapIn "pump" points).toOption = some () ∧
      points.map (fun p => (p.pdu, p.words)) = [(0, 2), (2, 1), (0, 1), (1, 2)])
    (show ((planPoints 0 pumpSlots 0 0 0 pumpModule.bindings).toOption.map fun points => decide _) =
      some true by decide +kernel)
  have hendpoint : parseEndpoint "10.0.0.2:502" = .ok ("10.0.0.2", 502) :=
    except_of_toOption (by decide +kernel)
  have hcheck : checkOverlaps "pump" points = .ok () := by
    unfold checkOverlaps
    rw [List.mergeSort_of_pairwise hsorted]
    exact except_of_toOption hoverlaps
  refine ⟨⟨"pump", "10.0.0.2", 502, 1, 100, 300, 100, .forceSafe, points⟩, ?_, hplaces⟩
  have hvalid : validateModule 0 pumpModule pumpSlots = (do
      let points ← planPoints 0 pumpSlots 0 0 0 pumpModule.bindings
      checkOverlaps "pump" points
      .ok ⟨"pump", "10.0.0.2", 502, 1, 100, 300, 100, .forceSafe, points⟩) := by
    unfold validateModule
    simp only [pumpModule, Option.getD_none, hendpoint]
    rfl
  rw [hvalid, hpoints]
  show (do checkOverlaps "pump" points; .ok _) = _
  rw [hcheck]
  rfl

/-- The theorem on this module. -/
theorem batched_transfers_pump : ∃ plan, validateModule 0 pumpModule pumpSlots = .ok plan ∧
    writeWith pumpMail (splitModule plan) quietField =
      writeAll (writePoint pumpMail) (plan.points.filter isOut) quietField := by
  obtain ⟨plan, hplan, -⟩ := pumpModule_accepted
  obtain ⟨-, -, -, hwrite, -⟩ := batched_transfers hplan quietField (splitModule plan).lastInputs rfl pumpMail
  exact ⟨plan, hplan, hwrite⟩

end SoftPlc.Io.Modbus

import SoftPlc.Ir.Basic
import SoftPlc.Lib.Bind
import SoftPlc.Lib.Bytes
import SoftPlc.Lib.Text

/-!
# The `spbc` section

`writeSpbc` frames a module as bytes and `parseSpbc` reads it back. The flag `isUserFb` of an entry
is not written: the reader takes it from the name. A module comes back exactly when its flags say
what its names say (`spbc_round_trip_iff`); the assembler lets an author set the flag of any name
(`entry_flag_lost`). Whatever is accepted starts with what the writer makes of it, and no slice index
is ever out of range.
-/

namespace SoftPlc.Ir

open SoftPlc.Lib

/-! ## The format -/

/-- Source: `module.rs`, `SPBC_MAGIC`. -/
def spbcMagic : List UInt8 := [0x53, 0x50, 0x42, 0x43]

/-- How reading can end without a module: with an error value, or with a slice index out of range. -/
inductive SpbcFault where
  | err (e : IrError)
  | panic
  deriving DecidableEq, Repr

/-- The source's `IrError::Spbc`. -/
def spbcErr {α : Type} (message : String) : Except SpbcFault α := .error (.err (.spbc message))

/-- The slice `bytes[lo..hi]`. -/
def spbcSlice (bytes : List UInt8) (lo hi : ℕ) : Except SpbcFault (List UInt8) :=
  match slice? bytes lo hi with
  | some xs => .ok xs
  | none => .error .panic

/-- A little-endian word of `n` bytes. Source: `u16::from_le_bytes` and `u32::from_le_bytes` of a
slice. -/
def spbcWord (bytes : List UInt8) (off n : ℕ) : Except SpbcFault ℕ := do
  let xs ← spbcSlice bytes off (off + n)
  .ok (ofLeBytes xs)

/-- The names that mark a function block. Source: `spbc.rs`, `is_user_fb` of `parse_spbc`. -/
def userFbName (name : String) : Bool := name.startsWith "fb." || name.startsWith "FB."

/-- One entry of the table and the offset after it. Source: `spbc.rs`, the `for` body of
`parse_spbc`. -/
def parseEntry (bytes : List UInt8) (off : ℕ) : Except SpbcFault (EntryPoint × ℕ) :=
  if off ≥ bytes.length then spbcErr "truncated entry table"
  else do
    let nameLen ← spbcWord bytes off 1
    if off + 1 + nameLen + 4 > bytes.length then spbcErr "truncated entry name/pc"
    else do
      let raw ← spbcSlice bytes (off + 1) (off + 1 + nameLen)
      match ofUtf8 raw with
      | none => spbcErr "entry name not utf-8"
      | some name => do
          let pc ← spbcWord bytes (off + 1 + nameLen) 4
          .ok (⟨name, pc, userFbName name⟩, off + 1 + nameLen + 4)

/-- The entry table. Source: `spbc.rs`, the `for` of `parse_spbc`. -/
def parseEntries (bytes : List UInt8) : ℕ → ℕ → Except SpbcFault (List EntryPoint × ℕ)
  | 0, off => .ok ([], off)
  | n + 1, off => do
      let (e, off) ← parseEntry bytes off
      let (es, off) ← parseEntries bytes n off
      .ok (e :: es, off)

/-- Parse a module. Source: `spbc.rs`, `parse_spbc`. -/
def parseSpbc (bytes : List UInt8) : Except SpbcFault IrModule :=
  if bytes.length < 36 then spbcErr "buffer too short for header"
  else do
    let magic ← spbcSlice bytes 0 4
    if magic ≠ spbcMagic then spbcErr "bad magic"
    else do
      let irMajor ← spbcWord bytes 4 2
      let irMinor ← spbcWord bytes 6 2
      let codeSize ← spbcWord bytes 8 4
      let constSize ← spbcWord bytes 12 4
      let dataSize ← spbcWord bytes 16 4
      let retainSize ← spbcWord bytes 20 4
      let inputSlots ← spbcWord bytes 24 4
      let outputSlots ← spbcWord bytes 28 4
      let entryCount ← spbcWord bytes 32 4
      if entryCount > (bytes.length - 36) / 5 then spbcErr "truncated entry table"
      else do
        let (entries, off) ← parseEntries bytes entryCount 36
        if off + constSize + codeSize > bytes.length then spbcErr "truncated const/code"
        else do
          let constData ← spbcSlice bytes off (off + constSize)
          let code ← spbcSlice bytes (off + constSize) (off + constSize + codeSize)
          .ok ⟨irMajor, irMinor, constSize, dataSize, retainSize, inputSlots, outputSlots, entries,
            constData, code⟩

/-- The bytes of an entry. Source: `spbc.rs`, the `for` body of `write_spbc`. -/
def entryBytes (e : EntryPoint) : List UInt8 :=
  UInt8.ofNat (utf8 e.name).length :: (utf8 e.name ++ leBytes 4 e.pc)

/-- Source: `spbc.rs`, the `for` body of `write_spbc`. -/
def writeEntry (e : EntryPoint) : Except IrError (List UInt8) :=
  if (utf8 e.name).length > 255 then .error (.spbc "entry name too long") else .ok (entryBytes e)

/-- The words of the header. Source: `spbc.rs`, the opening `extend_from_slice` calls of
`write_spbc`. -/
def headerBytes (m : IrModule) : List UInt8 :=
  spbcMagic ++ (leBytes 2 m.irMajor ++ (leBytes 2 m.irMinor ++ (leBytes 4 m.code.length ++
    (leBytes 4 m.constData.length ++ (leBytes 4 m.dataSize ++ (leBytes 4 m.retainSize ++
      (leBytes 4 m.inputSlots ++ (leBytes 4 m.outputSlots ++ leBytes 4 m.entries.length))))))))

/-- Serialize a module. Source: `spbc.rs`, `write_spbc`. -/
def writeSpbc (m : IrModule) : Except IrError (List UInt8) := do
  let entries ← m.entries.mapM writeEntry
  .ok (headerBytes m ++ (entries.flatten ++ (m.constData ++ m.code)))

/-- An `.entry` directive of the assembler at the end of the code. Source: `asm.rs`, the `"entry"` arm
of `assemble_with`. -/
def entryDirective (name kind : String) (codeLen : ℕ) : EntryPoint :=
  ⟨name, codeLen % 2 ^ 32, kind.toLower == "fb" || userFbName name⟩

/-- A module whose numbers fit the types of the source, with constants and names as `assemble` and the
compiler build them. -/
structure IrModule.Framed (m : IrModule) : Prop where
  irMajor : m.irMajor < 2 ^ 16
  irMinor : m.irMinor < 2 ^ 16
  dataSize : m.dataSize < 2 ^ 32
  retainSize : m.retainSize < 2 ^ 32
  inputSlots : m.inputSlots < 2 ^ 32
  outputSlots : m.outputSlots < 2 ^ 32
  constSize : m.constSize = m.constData.length
  constLen : m.constData.length < 2 ^ 32
  codeLen : m.code.length < 2 ^ 32
  entryCount : m.entries.length < 2 ^ 32
  names : ∀ e ∈ m.entries, (utf8 e.name).length ≤ 255
  pcs : ∀ e ∈ m.entries, e.pc < 2 ^ 32

/-- The flags say what the names say. -/
def IrModule.FlagsByName (m : IrModule) : Prop := ∀ e ∈ m.entries, e.isUserFb = userFbName e.name

/-! ## Reading -/

section Reading

variable {bytes : List UInt8} {off n : ℕ}

theorem spbcSlice_ok (h : off + n ≤ bytes.length) :
    spbcSlice bytes off (off + n) = .ok (readAt bytes off n) := by
  rw [spbcSlice, slice?_add h]

theorem spbcWord_ok (h : off + n ≤ bytes.length) :
    spbcWord bytes off n = .ok (ofLeBytes (readAt bytes off n)) := by
  rw [spbcWord, spbcSlice_ok h]
  rfl

/-- A word that stands in the text. -/
theorem spbcWord_of_drop {v : ℕ} {rest : List UInt8} (hoff : off ≤ bytes.length)
    (h : bytes.drop off = leBytes n v ++ rest) (hv : v < 256 ^ n) :
    spbcWord bytes off n = .ok v ∧ off + n ≤ bytes.length ∧ bytes.drop (off + n) = rest := by
  have hread := readAt_of_drop h
  have hdrop := drop_of_drop h
  have hle := le_length_of_drop hoff h
  rw [leBytes_length] at hread hdrop hle
  refine ⟨?_, hle, hdrop⟩
  rw [spbcWord_ok hle, hread, ofLeBytes_leBytes, Nat.mod_eq_of_lt hv]

/-- A word of one byte. -/
theorem leBytes_one (v : ℕ) : leBytes 1 v = [UInt8.ofNat v] := rfl

/-- An entry that stands in the text is read, its flag from its name. -/
theorem parseEntry_of_drop {e : EntryPoint} {rest : List UInt8} (hoff : off ≤ bytes.length)
    (hname : (utf8 e.name).length ≤ 255) (hpc : e.pc < 2 ^ 32)
    (h : bytes.drop off = entryBytes e ++ rest) :
    parseEntry bytes off =
        .ok ({ e with isUserFb := userFbName e.name }, off + (entryBytes e).length) := by
  have hlen : (entryBytes e).length = 1 + (utf8 e.name).length + 4 := by
    simp [entryBytes]
    omega
  have hroom := le_length_of_drop hoff h
  have h₁ : bytes.drop off = leBytes 1 (utf8 e.name).length ++
      (utf8 e.name ++ (leBytes 4 e.pc ++ rest)) := by
    rw [h, leBytes_one]
    simp [entryBytes]
  obtain ⟨hword, hoff₁, h₂⟩ := spbcWord_of_drop hoff h₁ (by omega)
  have hslice := spbcSlice_ok (le_length_of_drop hoff₁ h₂)
  rw [readAt_of_drop h₂] at hslice
  obtain ⟨hpcWord, -, -⟩ :=
    spbcWord_of_drop (le_length_of_drop hoff₁ h₂) (drop_of_drop h₂) (by omega)
  unfold parseEntry
  rw [if_neg (by omega), hword]
  dsimp only [bind, Except.bind]
  rw [if_neg (by omega), hslice]
  dsimp only
  rw [ofUtf8_utf8]
  dsimp only
  rw [hpcWord, hlen]
  dsimp only
  congr 2
  omega

/-- What a parsed entry stood for in the text. -/
theorem parseEntry_ok {e : EntryPoint} {off' : ℕ} (h : parseEntry bytes off = .ok (e, off')) :
    bytes.drop off = entryBytes e ++ bytes.drop off' ∧ off' ≤ bytes.length ∧
      (utf8 e.name).length ≤ 255 ∧ e.isUserFb = userFbName e.name := by
  unfold parseEntry at h
  split_ifs at h with hstart
  · cases h
  · rw [spbcWord_ok (by omega)] at h
    dsimp only [bind, Except.bind] at h
    split_ifs at h with hroom
    · cases h
    · rw [spbcSlice_ok (by omega)] at h
      dsimp only at h
      split at h
      · cases h
      · rename_i name hname
        rw [spbcWord_ok (by omega)] at h
        cases h
        have hraw := utf8_of_ofUtf8 hname
        have hlen : (utf8 name).length = ofLeBytes (readAt bytes off 1) := by
          rw [hraw, readAt_length (by omega)]
        have hbyte : ofLeBytes (readAt bytes off 1) < 256 := by
          have hlt := ofLeBytes_lt (readAt bytes off 1)
          rwa [readAt_length (by omega), pow_one] at hlt
        have hshort : (utf8 name).length ≤ 255 := by omega
        refine ⟨?_, by omega, hshort, rfl⟩
        rw [drop_eq_word (show off + 1 ≤ bytes.length by omega),
          drop_eq_readAt_append bytes (off + 1) (ofLeBytes (readAt bytes off 1)), ← hraw,
          drop_eq_word (show off + 1 + ofLeBytes (readAt bytes off 1) + 4 ≤ bytes.length by omega),
          leBytes_one, ← hlen]
        simp [entryBytes]

theorem parseEntry_no_panic : parseEntry bytes off ≠ .error .panic := by
  intro h
  unfold parseEntry at h
  split_ifs at h with hstart
  · cases h
  · rw [spbcWord_ok (by omega)] at h
    dsimp only [bind, Except.bind] at h
    split_ifs at h with hroom
    · cases h
    · rw [spbcSlice_ok (by omega)] at h
      dsimp only at h
      split at h
      · cases h
      · rw [spbcWord_ok (by omega)] at h
        cases h

end Reading

/-! ## The entry table -/

section Entries

variable {bytes : List UInt8} {off off' : ℕ}

/-- An entry with the flag of its name. -/
def EntryPoint.byName (e : EntryPoint) : EntryPoint := { e with isUserFb := userFbName e.name }

theorem parseEntries_of_drop {es : List EntryPoint} {rest : List UInt8} (hoff : off ≤ bytes.length)
    (hnames : ∀ e ∈ es, (utf8 e.name).length ≤ 255) (hpcs : ∀ e ∈ es, e.pc < 2 ^ 32)
    (h : bytes.drop off = es.flatMap entryBytes ++ rest) :
    parseEntries bytes es.length off =
      .ok (es.map EntryPoint.byName, off + (es.flatMap entryBytes).length) := by
  induction es generalizing off with
  | nil => rfl
  | cons e es ih =>
      rw [List.flatMap_cons, List.append_assoc] at h
      have hfirst := parseEntry_of_drop hoff (hnames e List.mem_cons_self)
        (hpcs e List.mem_cons_self) h
      have hrest := ih (le_length_of_drop hoff h)
        (fun e he => hnames e (List.mem_cons_of_mem _ he))
        (fun e he => hpcs e (List.mem_cons_of_mem _ he)) (drop_of_drop h)
      rw [List.length_cons, parseEntries, hfirst]
      dsimp only [bind, Except.bind]
      rw [hrest]
      dsimp only
      rw [List.map_cons, List.flatMap_cons, List.length_append, Nat.add_assoc]
      rfl

theorem parseEntries_ok {n : ℕ} {es : List EntryPoint} (hoff : off ≤ bytes.length)
    (h : parseEntries bytes n off = .ok (es, off')) :
    bytes.drop off = es.flatMap entryBytes ++ bytes.drop off' ∧ off' ≤ bytes.length ∧
      es.length = n ∧ ∀ e ∈ es, (utf8 e.name).length ≤ 255 ∧ e.isUserFb = userFbName e.name := by
  induction n generalizing off es with
  | zero =>
      cases h
      exact ⟨rfl, hoff, rfl, by simp⟩
  | succ n ih =>
      obtain ⟨⟨e, off₁⟩, hfirst, h⟩ := except_bind_ok.mp h
      obtain ⟨⟨es', off₂⟩, hrest, h⟩ := except_bind_ok.mp h
      cases h
      obtain ⟨hdrop, hoff₁, hname, hflag⟩ := parseEntry_ok hfirst
      obtain ⟨hdrop', hoff₂, hlen, hall⟩ := ih hoff₁ hrest
      refine ⟨?_, hoff₂, by rw [List.length_cons, hlen], ?_⟩
      · rw [hdrop, hdrop', List.flatMap_cons, List.append_assoc]
      · intro e' he'
        rcases List.mem_cons.mp he' with rfl | he'
        · exact ⟨hname, hflag⟩
        · exact hall e' he'

theorem parseEntries_no_panic {n : ℕ} : parseEntries bytes n off ≠ .error .panic := by
  induction n generalizing off with
  | zero =>
      intro h
      cases h
  | succ n ih =>
      intro h
      rcases hfirst : parseEntry bytes off with f | ⟨e, off₁⟩
      · rw [parseEntries, hfirst] at h
        cases h
        exact parseEntry_no_panic hfirst
      · rw [parseEntries, hfirst] at h
        dsimp only [bind, Except.bind] at h
        rcases hrest : parseEntries bytes n off₁ with f | ⟨es, off₂⟩
        · rw [hrest] at h
          cases h
          exact ih hrest
        · rw [hrest] at h
          cases h

/-- The writer accepts names of at most 255 bytes. -/
theorem mapM_writeEntry {es : List EntryPoint} (hnames : ∀ e ∈ es, (utf8 e.name).length ≤ 255) :
    es.mapM writeEntry = .ok (es.map entryBytes) := by
  induction es with
  | nil => rfl
  | cons e es ih =>
      rw [List.mapM_cons, ih fun e he => hnames e (List.mem_cons_of_mem _ he), writeEntry,
        if_neg (not_lt.mpr (hnames e List.mem_cons_self))]
      rfl

/-- What the writer makes of a module with short names. -/
theorem writeSpbc_eq {m : IrModule} (hnames : ∀ e ∈ m.entries, (utf8 e.name).length ≤ 255) :
    writeSpbc m =
      .ok (headerBytes m ++ (m.entries.flatMap entryBytes ++ (m.constData ++ m.code))) := by
  rw [writeSpbc, mapM_writeEntry hnames, List.flatMap_def]
  rfl

end Entries

/-! ## Modules -/

/-- Every entry takes five bytes or more. -/
theorem five_mul_length_le (es : List EntryPoint) :
    5 * es.length ≤ (es.flatMap entryBytes).length := by
  induction es with
  | nil => exact Nat.zero_le _
  | cons e es ih =>
      have hone : 5 ≤ (entryBytes e).length := by
        simp [entryBytes]
      rw [List.flatMap_cons, List.length_append, List.length_cons]
      omega

/-- A framed module is read back with the flags of its names. -/
theorem parseSpbc_of_framed {m : IrModule} (hm : m.Framed) (rest : List UInt8) :
    parseSpbc (headerBytes m ++ (m.entries.flatMap entryBytes ++ (m.constData ++ (m.code ++ rest)))) =
      .ok { m with entries := m.entries.map EntryPoint.byName } := by
  generalize hbytes :
    headerBytes m ++ (m.entries.flatMap entryBytes ++ (m.constData ++ (m.code ++ rest))) = bytes
  simp only [headerBytes, List.append_assoc] at hbytes
  have h₀ : bytes.drop 0 = _ := hbytes.symm
  -- the words of the header, one after another
  have l₁ := le_length_of_drop (Nat.zero_le _) h₀
  have hmagic := spbcSlice_ok l₁
  rw [readAt_of_drop h₀] at hmagic
  obtain ⟨w₁, l₂, h₂⟩ := spbcWord_of_drop l₁ (drop_of_drop h₀) hm.irMajor
  obtain ⟨w₂, l₃, h₃⟩ := spbcWord_of_drop l₂ h₂ hm.irMinor
  obtain ⟨w₃, l₄, h₄⟩ := spbcWord_of_drop l₃ h₃ hm.codeLen
  obtain ⟨w₄, l₅, h₅⟩ := spbcWord_of_drop l₄ h₄ hm.constLen
  obtain ⟨w₅, l₆, h₆⟩ := spbcWord_of_drop l₅ h₅ hm.dataSize
  obtain ⟨w₆, l₇, h₇⟩ := spbcWord_of_drop l₆ h₆ hm.retainSize
  obtain ⟨w₇, l₈, h₈⟩ := spbcWord_of_drop l₇ h₇ hm.inputSlots
  obtain ⟨w₈, l₉, h₉⟩ := spbcWord_of_drop l₈ h₈ hm.outputSlots
  obtain ⟨w₉, l₁₀, h₁₀⟩ := spbcWord_of_drop l₉ h₉ hm.entryCount
  -- the table, the constants and the code
  have hentries := parseEntries_of_drop l₁₀ hm.names hm.pcs h₁₀
  have hconst := drop_of_drop h₁₀
  have lconst := le_length_of_drop l₁₀ h₁₀
  have hcode := drop_of_drop hconst
  have lcode := le_length_of_drop lconst hconst
  have lend := le_length_of_drop lcode hcode
  have hcount := five_mul_length_le m.entries
  have hsliceConst := spbcSlice_ok lcode
  rw [readAt_of_drop hconst] at hsliceConst
  have hsliceCode := spbcSlice_ok lend
  rw [readAt_of_drop hcode] at hsliceCode
  simp only [spbcMagic, List.length_cons, List.length_nil, Nat.zero_add, Nat.reduceAdd] at *
  unfold parseSpbc
  rw [if_neg (by omega), hmagic]
  dsimp only [bind, Except.bind]
  rw [if_neg (by simp [spbcMagic]), w₁, w₂, w₃, w₄, w₅, w₆, w₇, w₈, w₉]
  dsimp only
  rw [if_neg (by omega), hentries]
  dsimp only
  rw [if_neg (by omega), hsliceConst]
  dsimp only
  rw [hsliceCode]
  dsimp only
  rw [hm.constSize]

/-- How reading a module ends. -/
theorem parseSpbc_cases (bytes : List UInt8) :
    (∃ message, parseSpbc bytes = spbcErr message) ∨
      (∃ f n off, parseEntries bytes n off = .error f ∧ parseSpbc bytes = .error f) ∨
      ∃ es off, 36 ≤ bytes.length ∧ readAt bytes 0 4 = spbcMagic ∧
        parseEntries bytes (ofLeBytes (readAt bytes 32 4)) 36 = .ok (es, off) ∧
        off + ofLeBytes (readAt bytes 12 4) + ofLeBytes (readAt bytes 8 4) ≤ bytes.length ∧
        parseSpbc bytes = .ok
          { irMajor := ofLeBytes (readAt bytes 4 2)
            irMinor := ofLeBytes (readAt bytes 6 2)
            constSize := ofLeBytes (readAt bytes 12 4)
            dataSize := ofLeBytes (readAt bytes 16 4)
            retainSize := ofLeBytes (readAt bytes 20 4)
            inputSlots := ofLeBytes (readAt bytes 24 4)
            outputSlots := ofLeBytes (readAt bytes 28 4)
            entries := es
            constData := readAt bytes off (ofLeBytes (readAt bytes 12 4))
            code := readAt bytes (off + ofLeBytes (readAt bytes 12 4))
              (ofLeBytes (readAt bytes 8 4)) } := by
  unfold parseSpbc
  split_ifs with hshort
  · exact .inl ⟨_, rfl⟩
  · have hword : ∀ off n, off + n ≤ 36 → spbcWord bytes off n = .ok (ofLeBytes (readAt bytes off n)) :=
      fun off n hle => spbcWord_ok (by omega)
    rw [show spbcSlice bytes 0 4 = .ok (readAt bytes 0 4) from
      @spbcSlice_ok bytes 0 4 (by omega)]
    dsimp only [bind, Except.bind]
    split_ifs with hmagic
    · exact .inl ⟨_, rfl⟩
    · simp only [hword 4 2 (by decide), hword 6 2 (by decide), hword 8 4 (by decide),
        hword 12 4 (by decide), hword 16 4 (by decide), hword 20 4 (by decide),
        hword 24 4 (by decide), hword 28 4 (by decide), hword 32 4 (by decide)]
      split_ifs with hcount
      · exact .inl ⟨_, rfl⟩
      · rcases hentries : parseEntries bytes (ofLeBytes (readAt bytes 32 4)) 36 with f | ⟨es, off⟩
        · exact .inr (.inl ⟨f, _, _, hentries, rfl⟩)
        · dsimp only
          split_ifs with hroom
          · exact .inl ⟨_, rfl⟩
          · refine .inr (.inr ⟨es, off, by omega, not_not.mp hmagic, rfl, by omega, ?_⟩)
            rw [spbcSlice_ok (by omega)]
            dsimp only
            rw [spbcSlice_ok (by omega)]

/-- What a parsed module stood for in the bytes. -/
theorem parseSpbc_ok {bytes : List UInt8} {m : IrModule} (h : parseSpbc bytes = .ok m) :
    (∀ e ∈ m.entries, (utf8 e.name).length ≤ 255 ∧ e.isUserFb = userFbName e.name) ∧
      ∃ rest, bytes =
        headerBytes m ++ (m.entries.flatMap entryBytes ++ (m.constData ++ (m.code ++ rest))) := by
  rcases parseSpbc_cases bytes with ⟨message, herr⟩ | ⟨f, n, off, -, herr⟩ |
    ⟨es, off, hlen, hmagic, hentries, hroom, hok⟩
  · cases herr.symm.trans h
  · cases herr.symm.trans h
  · obtain rfl := Except.ok.inj (hok.symm.trans h)
    obtain ⟨hdrop, -, hcount, hall⟩ := parseEntries_ok (by omega) hentries
    refine ⟨hall, bytes.drop (off + ofLeBytes (readAt bytes 12 4) + ofLeBytes (readAt bytes 8 4)), ?_⟩
    -- the words of the header, one after another
    have hnext : ∀ off n, off + n ≤ 36 →
        bytes.drop off = leBytes n (ofLeBytes (readAt bytes off n)) ++ bytes.drop (off + n) :=
      fun off n hle => drop_eq_word (by omega)
    have hfirst : bytes = spbcMagic ++ bytes.drop 4 := by
      have hsplit := drop_eq_readAt_append bytes 0 4
      rwa [hmagic] at hsplit
    rw [hnext 4 2 (by decide), hnext 6 2 (by decide), hnext 8 4 (by decide),
      hnext 12 4 (by decide), hnext 16 4 (by decide), hnext 20 4 (by decide),
      hnext 24 4 (by decide), hnext 28 4 (by decide), hnext 32 4 (by decide), hdrop,
      drop_eq_readAt_append bytes off (ofLeBytes (readAt bytes 12 4)),
      drop_eq_readAt_append bytes (off + ofLeBytes (readAt bytes 12 4))
        (ofLeBytes (readAt bytes 8 4))] at hfirst
    simp only [headerBytes, List.append_assoc, hcount]
    rw [readAt_length (show off + ofLeBytes (readAt bytes 12 4) ≤ bytes.length by omega),
      readAt_length hroom]
    exact hfirst

theorem parseSpbc_no_panic (bytes : List UInt8) : parseSpbc bytes ≠ .error .panic := by
  intro h
  rcases parseSpbc_cases bytes with ⟨message, herr⟩ | ⟨f, n, off, hentries, herr⟩ |
    ⟨es, off, -, -, -, -, hok⟩
  · cases herr.symm.trans h
  · obtain rfl := Except.error.inj (herr.symm.trans h)
    exact parseEntries_no_panic hentries
  · cases hok.symm.trans h

/-! ## The round trip -/

/-- **The round trip.** A framed module comes back exactly when its flags say what its names say;
accepted bytes start with what the writer makes of the module; no index is out of range. -/
theorem spbc_round_trip_iff {m : IrModule} (hm : m.Framed) :
    ((∃ bytes, writeSpbc m = .ok bytes ∧ parseSpbc bytes = .ok m) ↔ m.FlagsByName) ∧
      (∀ bytes m', parseSpbc bytes = .ok m' → ∃ out, writeSpbc m' = .ok out ∧ out <+: bytes) ∧
      ∀ bytes, parseSpbc bytes ≠ .error .panic := by
  refine ⟨?_, ?_, parseSpbc_no_panic⟩
  · have hwrite := writeSpbc_eq hm.names
    have hparse := parseSpbc_of_framed hm []
    rw [List.append_nil] at hparse
    constructor
    · rintro ⟨bytes, hbytes, hback⟩
      obtain rfl := Except.ok.inj (hwrite.symm.trans hbytes)
      have hsame := congrArg IrModule.entries (Except.ok.inj (hparse.symm.trans hback))
      intro e he
      rw [← hsame] at he
      obtain ⟨e', -, rfl⟩ := List.mem_map.mp he
      rfl
    · intro hflags
      refine ⟨_, hwrite, hparse.trans ?_⟩
      have hsame : m.entries.map EntryPoint.byName = m.entries := by
        apply (List.map_congr_left ?_).trans (List.map_id' _)
        intro e he
        rw [EntryPoint.byName, ← hflags e he]
      rw [hsame]
  · intro bytes m h
    obtain ⟨hall, rest, hbytes⟩ := parseSpbc_ok h
    refine ⟨_, writeSpbc_eq fun e he => (hall e he).1, rest, ?_⟩
    rw [hbytes]
    simp only [List.append_assoc]

/-- A module of one entry at the start of its code. -/
def oneEntryModule (e : EntryPoint) : IrModule where
  irMajor := 0
  irMinor := 1
  constSize := 0
  dataSize := 32
  retainSize := 0
  inputSlots := 0
  outputSlots := 0
  entries := [e]
  constData := []
  code := [0, 0, 0, 0x51]

theorem oneEntryModule_framed (e : EntryPoint) (hname : (utf8 e.name).length ≤ 255)
    (hpc : e.pc < 2 ^ 32) : (oneEntryModule e).Framed := by
  have hpc' : e.pc < 4294967296 := hpc
  constructor <;> simp [oneEntryModule, hname, hpc']

/-- A task comes back. -/
theorem task_entry_kept :
    ∃ bytes, writeSpbc (oneEntryModule (entryDirective "task.main" "" 0)) = .ok bytes ∧
      parseSpbc bytes = .ok (oneEntryModule (entryDirective "task.main" "" 0)) := by
  apply (spbc_round_trip_iff (oneEntryModule_framed _ (by decide +kernel) (by decide))).1.mpr
  intro e he
  cases List.mem_singleton.mp he
  decide +kernel

/-- `.entry blink fb` does not: its flag is set and its name does not say so. -/
theorem entry_flag_lost :
    (oneEntryModule (entryDirective "blink" "fb" 0)).Framed ∧
      ¬∃ bytes, writeSpbc (oneEntryModule (entryDirective "blink" "fb" 0)) = .ok bytes ∧
        parseSpbc bytes = .ok (oneEntryModule (entryDirective "blink" "fb" 0)) := by
  have hframed : (oneEntryModule (entryDirective "blink" "fb" 0)).Framed :=
    oneEntryModule_framed _ (by decide +kernel) (by decide)
  refine ⟨hframed, ?_⟩
  rintro ⟨bytes, hwrite, hparse⟩
  obtain ⟨hall, -⟩ := parseSpbc_ok hparse
  exact absurd (hall _ List.mem_cons_self).2 (by decide +kernel)

end SoftPlc.Ir

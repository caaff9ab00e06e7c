import SoftPlc.Package.Manifest

/-!
# The `spkg` container

`writeSpkg` frames a manifest, its sections and a signature with length prefixes, and `parseSpkg`
takes a container apart. `spkg_framing`: either undoes the other, and no slice index of the reader is
out of range.
-/

namespace SoftPlc.Package

open SoftPlc.Ir SoftPlc.Lib

/-! ## The format -/

/-- Source: `format.rs`, `SPKG_MAGIC`. -/
def spkgMagic : List UInt8 := [0x53, 0x50, 0x4B, 0x47]

/-- Source: `format.rs`, `SPKG_VERSION`. -/
def spkgVersion : ℕ := 1

/-- Source: `format.rs`, `MAX_PACKAGE_BYTES`. -/
def maxPackageBytes : ℕ := 8 * 1024 * 1024

/-- Source: `format.rs`, `SIGNATURE_LEN`. -/
def signatureLen : ℕ := 64

/-- Source: `format.rs`, `MIN_HEADER`. -/
def minHeader : ℕ := 4 + 2 + 4

/-- Source: `format.rs`, `ParsedPackage`. -/
structure ParsedPackage where
  manifest : Manifest
  /-- Manifest bytes as stored. -/
  manifestRaw : List UInt8
  /-- Canonical text of the manifest. -/
  manifestCanonical : List UInt8
  sections : List (List UInt8)
  /-- Empty until `validate` parses the sections. -/
  modules : List IrModule
  signature : List UInt8

/-- How the reader can end without a package: with an error value, or with a slice index out of
range. -/
inductive PackageFault where
  | err (e : PackageError)
  | panic

/-- An error value. -/
def refuse {α : Type} (e : PackageError) : Except PackageFault α := .error (.err e)

/-- Results of functions that cannot panic. -/
def liftPackage {α : Type} : Except PackageError α → Except PackageFault α
  | .ok a => .ok a
  | .error e => refuse e

/-- The slice `bytes[lo..hi]`. -/
def sliceOrPanic (bytes : List UInt8) (lo hi : ℕ) : Except PackageFault (List UInt8) :=
  match slice? bytes lo hi with
  | some xs => .ok xs
  | none => .error .panic

/-- A little-endian word of `n` bytes. Source: `format.rs`, `read_u16_le` and `read_u32_le`. -/
def readLe (n : ℕ) (bytes : List UInt8) (off : ℕ) (what : String) : Except PackageFault ℕ :=
  match slice? bytes off (off + n) with
  | some xs => .ok (ofLeBytes xs)
  | none => refuse (.truncated what)

/-- Source: `usize::checked_add`. -/
def checkedAdd (a b : ℕ) : Option ℕ := if a + b < 2 ^ 64 then some (a + b) else none

/-- One section and the offset after it. Source: `format.rs`, the `for` body of `parse_spkg`. -/
def parseSection (bytes : List UInt8) (off : ℕ) : Except PackageFault (List UInt8 × ℕ) := do
  let sectionLen ← readLe 4 bytes off "section length"
  match checkedAdd (off + 4) sectionLen with
  | none => refuse (.truncated "section length overflow")
  | some stop =>
      if stop > bytes.length then refuse (.truncated "section body")
      else do
        let body ← sliceOrPanic bytes (off + 4) stop
        .ok (body, stop)

/-- Source: `format.rs`, the `for` of `parse_spkg`. -/
def parseSections (bytes : List UInt8) :
    ℕ → ℕ → Except PackageFault (List (List UInt8) × ℕ)
  | 0, off => .ok ([], off)
  | n + 1, off => do
      let (s, off) ← parseSection bytes off
      let (ss, off) ← parseSections bytes n off
      .ok (s :: ss, off)

/-- The sections and the signature after a manifest. Source: `format.rs`, the second half of
`parse_spkg`. -/
def parseBody (bytes : List UInt8) (off : ℕ) :
    Except PackageFault (List (List UInt8) × List UInt8) := do
  let sectionCount ← readLe 4 bytes off "section_count"
  if sectionCount = 0 then refuse (.sectionCount 0)
  else if sectionCount > (bytes.length - (off + 4) - signatureLen) / 4 then
    refuse (.truncated "section_count")
  else do
    let (sections, off) ← parseSections bytes sectionCount (off + 4)
    if off + signatureLen > bytes.length then refuse (.truncated "signature")
    else if off + signatureLen < bytes.length then refuse .trailingBytes
    else do
      let signature ← sliceOrPanic bytes off (off + signatureLen)
      .ok (sections, signature)

/-- What a buffer that is no package is called. Source: `format.rs`, the guards of `parse_spkg`. -/
def notAPackage (bytes : List UInt8) (e : PackageError) : PackageError :=
  if looksLikeCbor bytes then .cborRejected else e

/-- Source: `format.rs`, `parse_spkg`. -/
def parseSpkg (L : Libraries) (bytes : List UInt8) : Except PackageFault ParsedPackage :=
  if bytes.length > maxPackageBytes then refuse (.tooLarge bytes.length)
  else if bytes.length < minHeader then refuse (notAPackage bytes (.truncated "header"))
  else do
    let magic ← sliceOrPanic bytes 0 4
    if magic ≠ spkgMagic then refuse (notAPackage bytes .badMagic)
    else do
      let version ← readLe 2 bytes 4 "version"
      if version ≠ spkgVersion then refuse (.unsupportedVersion version)
      else do
        let manifestLen ← readLe 4 bytes 6 "manifest_len"
        match checkedAdd 10 manifestLen with
        | none => refuse (.truncated "manifest length overflow")
        | some manifestEnd =>
            if manifestEnd > bytes.length then refuse (.truncated "manifest")
            else do
              let manifestRaw ← sliceOrPanic bytes 10 manifestEnd
              let (manifest, canonical) ← liftPackage (Manifest.fromJsonBytes L manifestRaw)
              let (sections, signature) ← parseBody bytes manifestEnd
              .ok ⟨manifest, manifestRaw, canonical, sections, [], signature⟩

/-- The bytes of a section. Source: `format.rs`, the `for` body of `write_spkg`. -/
def sectionBytes (s : List UInt8) : List UInt8 := leBytes 4 s.length ++ s

/-- Source: `format.rs`, the `for` body of `write_spkg`. -/
def writeSection (s : List UInt8) : Except PackageError (List UInt8) :=
  if s.length < 2 ^ 32 then .ok (sectionBytes s)
  else .error (.truncated "section longer than u32")

/-- The bytes before the manifest. -/
def spkgHeader (manifestLen : ℕ) : List UInt8 :=
  spkgMagic ++ (leBytes 2 spkgVersion ++ leBytes 4 manifestLen)

/-- Source: `format.rs`, `write_spkg`. -/
def writeSpkg (manifestJson : List UInt8) (sections : List (List UInt8)) (signature : List UInt8) :
    Except PackageError (List UInt8) :=
  if sections = [] then .error (.sectionCount 0)
  else if ¬manifestJson.length < 2 ^ 32 then .error (.json "manifest longer than u32")
  else if ¬sections.length < 2 ^ 32 then .error (.sectionCount (2 ^ 32 - 1))
  else do
    let bodies ← sections.mapM writeSection
    let out := spkgHeader manifestJson.length ++ (manifestJson ++
      (leBytes 4 sections.length ++ (bodies.flatten ++ signature)))
    if out.length > maxPackageBytes then .error (.tooLarge out.length) else .ok out

/-! ## Sections -/

section Sections

variable {bytes : List UInt8} {off off' : ℕ}

theorem sliceOrPanic_ok {n : ℕ} (h : off + n ≤ bytes.length) :
    sliceOrPanic bytes off (off + n) = .ok (readAt bytes off n) := by
  rw [sliceOrPanic, slice?_add h]

theorem readLe_ok {n : ℕ} {what : String} (h : off + n ≤ bytes.length) :
    readLe n bytes off what = .ok (ofLeBytes (readAt bytes off n)) := by
  rw [readLe, slice?_add h]

/-- A word is read where there is room for it. -/
theorem readLe_cases (n : ℕ) (bytes : List UInt8) (off : ℕ) (what : String) :
    (bytes.length < off + n ∧ readLe n bytes off what = refuse (.truncated what)) ∨
      (off + n ≤ bytes.length ∧
        readLe n bytes off what = .ok (ofLeBytes (readAt bytes off n))) := by
  by_cases h : off + n ≤ bytes.length
  · exact .inr ⟨h, readLe_ok h⟩
  · refine .inl ⟨by omega, ?_⟩
    rw [readLe, slice?, if_neg fun hle => h hle.2]

/-- A word that stands in the text. -/
theorem readLe_of_drop {n v : ℕ} {rest : List UInt8} (what : String) (hoff : off ≤ bytes.length)
    (h : bytes.drop off = leBytes n v ++ rest) (hv : v < 256 ^ n) :
    readLe n bytes off what = .ok v ∧ off + n ≤ bytes.length ∧ bytes.drop (off + n) = rest := by
  have hread := readAt_of_drop h
  have hdrop := drop_of_drop h
  have hle := le_length_of_drop hoff h
  rw [leBytes_length] at hread hdrop hle
  refine ⟨?_, hle, hdrop⟩
  rw [readLe_ok hle, hread, ofLeBytes_leBytes, Nat.mod_eq_of_lt hv]

theorem checkedAdd_ok {a b : ℕ} (h : a + b < 2 ^ 64) : checkedAdd a b = some (a + b) := if_pos h

/-- How reading a section ends. -/
theorem parseSection_cases (hlen : bytes.length ≤ maxPackageBytes) (off : ℕ) :
    (∃ e, parseSection bytes off = refuse e) ∨
      ∃ n, off + 4 + n ≤ bytes.length ∧ n = ofLeBytes (readAt bytes off 4) ∧
        parseSection bytes off = .ok (readAt bytes (off + 4) n, off + 4 + n) := by
  have hmax : maxPackageBytes = 8388608 := rfl
  unfold parseSection
  rcases readLe_cases 4 bytes off "section length" with ⟨-, hread⟩ | ⟨hroom, hread⟩
  · rw [hread]
    exact .inl ⟨_, rfl⟩
  · rw [hread]
    dsimp only [bind, Except.bind]
    have hword : ofLeBytes (readAt bytes off 4) < 256 ^ 4 := by
      have hlt := ofLeBytes_lt (readAt bytes off 4)
      rwa [readAt_length hroom] at hlt
    rw [checkedAdd_ok (by omega)]
    dsimp only
    split_ifs with hbody
    · exact .inl ⟨_, rfl⟩
    · refine .inr ⟨_, by omega, rfl, ?_⟩
      rw [sliceOrPanic_ok (by omega)]

theorem parseSection_of_drop {s rest : List UInt8} (hlen : bytes.length ≤ maxPackageBytes)
    (hoff : off ≤ bytes.length) (h : bytes.drop off = sectionBytes s ++ rest) :
    parseSection bytes off = .ok (s, off + (sectionBytes s).length) := by
  have hmax : maxPackageBytes = 8388608 := rfl
  have hroom := le_length_of_drop hoff h
  have hsize : (sectionBytes s).length = 4 + s.length := by
    rw [sectionBytes, List.length_append, leBytes_length]
  rw [sectionBytes, List.append_assoc] at h
  obtain ⟨hword, hoff₁, h₁⟩ := readLe_of_drop "section length" hoff h (by omega)
  have hslice := sliceOrPanic_ok (le_length_of_drop hoff₁ h₁)
  rw [readAt_of_drop h₁] at hslice
  unfold parseSection
  rw [hword]
  dsimp only [bind, Except.bind]
  rw [checkedAdd_ok (by omega)]
  dsimp only
  rw [if_neg (by omega), hslice]
  dsimp only
  rw [hsize, Nat.add_assoc]

theorem parseSection_ok {s : List UInt8} (hlen : bytes.length ≤ maxPackageBytes)
    (h : parseSection bytes off = .ok (s, off')) :
    bytes.drop off = sectionBytes s ++ bytes.drop off' ∧ off' ≤ bytes.length := by
  rcases parseSection_cases hlen off with ⟨e, herr⟩ | ⟨n, hroom, hn, hok⟩
  · cases herr.symm.trans h
  · cases hok.symm.trans h
    refine ⟨?_, hroom⟩
    rw [sectionBytes, readAt_length hroom, drop_eq_word (show off + 4 ≤ bytes.length by omega),
      ← hn, List.append_assoc, ← drop_eq_readAt_append]

/-- How reading the sections ends. -/
theorem parseSections_cases (hlen : bytes.length ≤ maxPackageBytes) (n off : ℕ) :
    (∃ e, parseSections bytes n off = refuse e) ∨
      ∃ ss off', parseSections bytes n off = .ok (ss, off') := by
  induction n generalizing off with
  | zero => exact .inr ⟨[], off, rfl⟩
  | succ n ih =>
      unfold parseSections
      rcases parseSection_cases hlen off with ⟨e, herr⟩ | ⟨k, -, -, hok⟩
      · rw [herr]
        exact .inl ⟨e, rfl⟩
      · rw [hok]
        rcases ih (off + 4 + k) with ⟨e, herr⟩ | ⟨ss, off', hss⟩
        · refine .inl ⟨e, ?_⟩
          dsimp only [bind, Except.bind]
          rw [herr]
          rfl
        · refine .inr ⟨readAt bytes (off + 4) k :: ss, off', ?_⟩
          dsimp only [bind, Except.bind]
          rw [hss]

theorem parseSections_of_drop {ss : List (List UInt8)} {rest : List UInt8}
    (hlen : bytes.length ≤ maxPackageBytes) (hoff : off ≤ bytes.length)
    (h : bytes.drop off = ss.flatMap sectionBytes ++ rest) :
    parseSections bytes ss.length off = .ok (ss, off + (ss.flatMap sectionBytes).length) := by
  induction ss generalizing off with
  | nil => rfl
  | cons s ss ih =>
      rw [List.flatMap_cons, List.append_assoc] at h
      have hfirst := parseSection_of_drop hlen hoff h
      have hrest := ih (le_length_of_drop hoff h) (drop_of_drop h)
      rw [List.length_cons, parseSections, hfirst]
      dsimp only [bind, Except.bind]
      rw [hrest]
      dsimp only
      rw [List.flatMap_cons, List.length_append, Nat.add_assoc]

theorem parseSections_ok {n : ℕ} {ss : List (List UInt8)} (hlen : bytes.length ≤ maxPackageBytes)
    (hoff : off ≤ bytes.length) (h : parseSections bytes n off = .ok (ss, off')) :
    bytes.drop off = ss.flatMap sectionBytes ++ bytes.drop off' ∧ off' ≤ bytes.length ∧
      ss.length = n := by
  induction n generalizing off ss with
  | zero =>
      cases h
      exact ⟨rfl, hoff, rfl⟩
  | succ n ih =>
      obtain ⟨⟨s, off₁⟩, hfirst, h⟩ := except_bind_ok.mp h
      obtain ⟨⟨ss', off₂⟩, hrest, h⟩ := except_bind_ok.mp h
      cases h
      obtain ⟨hdrop, hoff₁⟩ := parseSection_ok hlen hfirst
      obtain ⟨hdrop', hoff₂, hcount⟩ := ih hoff₁ hrest
      refine ⟨?_, hoff₂, by rw [List.length_cons, hcount]⟩
      rw [hdrop, hdrop', List.flatMap_cons, List.append_assoc]

/-- Every section takes four bytes or more. -/
theorem four_mul_length_le (ss : List (List UInt8)) :
    4 * ss.length ≤ (ss.flatMap sectionBytes).length := by
  induction ss with
  | nil => exact Nat.zero_le _
  | cons s ss ih =>
      rw [List.flatMap_cons, List.length_append, List.length_cons, sectionBytes,
        List.length_append, leBytes_length]
      omega

/-- Every section fits where all of them do. -/
theorem length_le_flatMap {s : List UInt8} {ss : List (List UInt8)} (h : s ∈ ss) :
    s.length ≤ (ss.flatMap sectionBytes).length := by
  induction ss with
  | nil => cases h
  | cons t ss ih =>
      rw [List.flatMap_cons, List.length_append, sectionBytes, List.length_append]
      rcases List.mem_cons.mp h with rfl | h
      · omega
      · have hle := ih h
        omega

/-- The writer accepts sections below 4 GiB. -/
theorem mapM_writeSection {ss : List (List UInt8)} (h : ∀ s ∈ ss, s.length < 2 ^ 32) :
    ss.mapM writeSection = .ok (ss.map sectionBytes) := by
  induction ss with
  | nil => rfl
  | cons s ss ih =>
      rw [List.mapM_cons, ih fun s hs => h s (List.mem_cons_of_mem _ hs), writeSection,
        if_pos (h s List.mem_cons_self)]
      rfl

/-- The writer refuses others. -/
theorem mapM_writeSection_ok {ss out : List (List UInt8)} (h : ss.mapM writeSection = .ok out) :
    out = ss.map sectionBytes := by
  induction ss generalizing out with
  | nil =>
      cases h
      rfl
  | cons s ss ih =>
      rw [List.mapM_cons] at h
      obtain ⟨b, hb, h⟩ := except_bind_ok.mp h
      obtain ⟨bs, hbs, h⟩ := except_bind_ok.mp h
      cases h
      unfold writeSection at hb
      split_ifs at hb
      cases hb
      rw [ih hbs, List.map_cons]

end Sections

/-! ## Containers -/

section Containers

variable {bytes : List UInt8} {off : ℕ}

/-- A container is its header, the manifest, the count, the sections and the signature. -/
def spkgBytes (manifest : List UInt8) (sections : List (List UInt8)) (signature : List UInt8) :
    List UInt8 :=
  spkgHeader manifest.length ++ (manifest ++ (leBytes 4 sections.length ++
    (sections.flatMap sectionBytes ++ signature)))

/-- What the writer accepts, and what it makes of it. -/
theorem writeSpkg_ok {manifest signature out : List UInt8} {sections : List (List UInt8)}
    (h : writeSpkg manifest sections signature = .ok out) :
    sections ≠ [] ∧ out = spkgBytes manifest sections signature ∧ out.length ≤ maxPackageBytes := by
  unfold writeSpkg at h
  split_ifs at h with hempty
  obtain ⟨bodies, hbodies, h⟩ := except_bind_ok.mp h
  dsimp only at h
  split_ifs at h with hsize
  cases h
  refine ⟨hempty, ?_, not_lt.mp hsize⟩
  rw [mapM_writeSection_ok hbodies, spkgBytes, List.flatMap_def]

theorem writeSpkg_eq {manifest signature : List UInt8} {sections : List (List UInt8)}
    (hne : sections ≠ []) (hsize : (spkgBytes manifest sections signature).length ≤ maxPackageBytes) :
    writeSpkg manifest sections signature = .ok (spkgBytes manifest sections signature) := by
  have hmax : maxPackageBytes = 8388608 := rfl
  have hcount := four_mul_length_le sections
  have hlen : (spkgBytes manifest sections signature).length =
      10 + (manifest.length + (4 + ((sections.flatMap sectionBytes).length + signature.length))) := by
    simp only [spkgBytes, spkgHeader, spkgMagic, List.length_append, List.length_cons,
      List.length_nil, leBytes_length]
  have hbodies : sections.mapM writeSection = .ok (sections.map sectionBytes) := by
    apply mapM_writeSection
    intro s hs
    have hle := length_le_flatMap hs
    omega
  unfold writeSpkg
  rw [if_neg hne, if_neg (by omega), if_neg (by omega), hbodies]
  dsimp only [bind, Except.bind]
  rw [← List.flatMap_def]
  exact if_neg (not_lt.mpr hsize)

/-- How reading the sections and the signature ends. -/
theorem parseBody_cases (hlen : bytes.length ≤ maxPackageBytes) (off : ℕ) :
    (∃ e, parseBody bytes off = refuse e) ∨
      ∃ ss stop, off + 4 ≤ bytes.length ∧ ofLeBytes (readAt bytes off 4) ≠ 0 ∧
        parseSections bytes (ofLeBytes (readAt bytes off 4)) (off + 4) = .ok (ss, stop) ∧
        stop + signatureLen = bytes.length ∧
        parseBody bytes off = .ok (ss, readAt bytes stop signatureLen) := by
  unfold parseBody
  rcases readLe_cases 4 bytes off "section_count" with ⟨-, hread⟩ | ⟨hroom, hread⟩
  · rw [hread]
    exact .inl ⟨_, rfl⟩
  · rw [hread]
    dsimp only [bind, Except.bind]
    split_ifs with hzero hmany
    · exact .inl ⟨_, rfl⟩
    · exact .inl ⟨_, rfl⟩
    · rcases parseSections_cases hlen (ofLeBytes (readAt bytes off 4)) (off + 4) with
        ⟨e, herr⟩ | ⟨ss, stop, hss⟩
      · rw [herr]
        exact .inl ⟨e, rfl⟩
      · rw [hss]
        dsimp only
        split_ifs with hshort htrailing
        · exact .inl ⟨_, rfl⟩
        · exact .inl ⟨_, rfl⟩
        · refine .inr ⟨ss, stop, hroom, hzero, rfl, by omega, ?_⟩
          rw [sliceOrPanic_ok (by omega)]

theorem parseBody_of_drop {ss : List (List UInt8)} {signature : List UInt8}
    (hlen : bytes.length ≤ maxPackageBytes) (hoff : off ≤ bytes.length) (hne : ss ≠ [])
    (hsig : signature.length = signatureLen)
    (h : bytes.drop off = leBytes 4 ss.length ++ (ss.flatMap sectionBytes ++ signature)) :
    parseBody bytes off = .ok (ss, signature) := by
  have hmax : maxPackageBytes = 8388608 := rfl
  have hcount := four_mul_length_le ss
  have hpos : ss.length ≠ 0 := fun hnil => hne (List.length_eq_zero_iff.mp hnil)
  have hall := congrArg List.length h
  simp only [List.length_drop, List.length_append, leBytes_length] at hall
  obtain ⟨hword, hoff₁, h₁⟩ := readLe_of_drop "section_count" hoff h (by omega)
  have hsections := parseSections_of_drop hlen hoff₁ h₁
  have h₂ : bytes.drop (off + 4 + (ss.flatMap sectionBytes).length) = signature ++ [] := by
    rw [drop_of_drop h₁, List.append_nil]
  have hslice := sliceOrPanic_ok (le_length_of_drop (le_length_of_drop hoff₁ h₁) h₂)
  rw [readAt_of_drop h₂, hsig] at hslice
  unfold parseBody
  rw [hword]
  dsimp only [bind, Except.bind]
  rw [if_neg hpos, if_neg (by omega), hsections]
  dsimp only
  rw [if_neg (by omega), if_neg (by omega), hslice]

theorem parseBody_ok {ss : List (List UInt8)} {signature : List UInt8}
    (hlen : bytes.length ≤ maxPackageBytes) (h : parseBody bytes off = .ok (ss, signature)) :
    ss ≠ [] ∧ signature.length = signatureLen ∧
      bytes.drop off = leBytes 4 ss.length ++ (ss.flatMap sectionBytes ++ signature) := by
  rcases parseBody_cases hlen off with ⟨e, herr⟩ | ⟨ss', stop, hroom, hne, hss, hstop, hok⟩
  · cases herr.symm.trans h
  · cases hok.symm.trans h
    obtain ⟨hdrop, -, hcount⟩ := parseSections_ok hlen hroom hss
    refine ⟨?_, readAt_length hstop.le, ?_⟩
    · rintro rfl
      exact hne hcount.symm
    · have hend : bytes.drop stop = readAt bytes stop signatureLen := by
        rw [drop_eq_readAt_append bytes stop signatureLen, hstop, List.drop_length,
          List.append_nil]
      rw [drop_eq_word hroom, hdrop, hcount, hend]

/-- How reading a container ends. -/
theorem parseSpkg_cases (L : Libraries) (bytes : List UInt8) :
    (∃ e, parseSpkg L bytes = refuse e) ∨
      ∃ manifest canonical ss signature, bytes.length ≤ maxPackageBytes ∧
        readAt bytes 0 4 = spkgMagic ∧ ofLeBytes (readAt bytes 4 2) = spkgVersion ∧
        10 + ofLeBytes (readAt bytes 6 4) ≤ bytes.length ∧
        Manifest.fromJsonBytes L (readAt bytes 10 (ofLeBytes (readAt bytes 6 4))) =
          .ok (manifest, canonical) ∧
        parseBody bytes (10 + ofLeBytes (readAt bytes 6 4)) = .ok (ss, signature) ∧
        parseSpkg L bytes = .ok ⟨manifest, readAt bytes 10 (ofLeBytes (readAt bytes 6 4)), canonical,
          ss, [], signature⟩ := by
  have hmax : maxPackageBytes = 8388608 := rfl
  have hmin : minHeader = 10 := rfl
  unfold parseSpkg
  split_ifs with hlarge hshort
  · exact .inl ⟨_, rfl⟩
  · exact .inl ⟨_, rfl⟩
  · rw [show sliceOrPanic bytes 0 4 = .ok (readAt bytes 0 4) from
      @sliceOrPanic_ok bytes 0 4 (by omega)]
    dsimp only [bind, Except.bind]
    split_ifs with hmagic
    · exact .inl ⟨_, rfl⟩
    · rw [readLe_ok (show 4 + 2 ≤ bytes.length by omega)]
      dsimp only
      split_ifs with hversion
      · exact .inl ⟨_, rfl⟩
      · rw [readLe_ok (show 6 + 4 ≤ bytes.length by omega)]
        dsimp only
        have hword : ofLeBytes (readAt bytes 6 4) < 256 ^ 4 := by
          have hlt := ofLeBytes_lt (readAt bytes 6 4)
          rwa [readAt_length (by omega)] at hlt
        rw [checkedAdd_ok (by omega)]
        dsimp only
        split_ifs with hroom
        · exact .inl ⟨_, rfl⟩
        · rw [sliceOrPanic_ok (by omega)]
          dsimp only
          rcases hread : Manifest.fromJsonBytes L
              (readAt bytes 10 (ofLeBytes (readAt bytes 6 4))) with e | ⟨manifest, canonical⟩
          · exact .inl ⟨e, rfl⟩
          · dsimp only [liftPackage]
            rcases parseBody_cases (show bytes.length ≤ maxPackageBytes by omega) (10 + ofLeBytes (readAt bytes 6 4)) with
              ⟨e, herr⟩ | ⟨ss, stop, -, -, -, -, hbody⟩
            · rw [herr]
              exact .inl ⟨e, rfl⟩
            · rw [hbody]
              exact .inr ⟨manifest, canonical, ss, _, by omega, not_not.mp hmagic,
                not_not.mp hversion, by omega, rfl, rfl, rfl⟩

theorem parseSpkg_spkgBytes {L : Libraries} {manifest signature canonical : List UInt8}
    {sections : List (List UInt8)} {typed : Manifest}
    (hread : Manifest.fromJsonBytes L manifest = .ok (typed, canonical)) (hne : sections ≠ [])
    (hsig : signature.length = signatureLen)
    (hsize : (spkgBytes manifest sections signature).length ≤ maxPackageBytes) :
    parseSpkg L (spkgBytes manifest sections signature) =
      .ok ⟨typed, manifest, canonical, sections, [], signature⟩ := by
  have hmax : maxPackageBytes = 8388608 := rfl
  have hmin : minHeader = 10 := rfl
  generalize hbytes : spkgBytes manifest sections signature = bytes at hsize ⊢
  simp only [spkgBytes, spkgHeader, List.append_assoc] at hbytes
  have hlen := congrArg List.length hbytes
  simp only [List.length_append, leBytes_length, spkgMagic, List.length_cons,
    List.length_nil] at hlen
  have h₀ : bytes.drop 0 = _ := hbytes.symm
  have l₁ := le_length_of_drop (Nat.zero_le _) h₀
  have hmagic := sliceOrPanic_ok l₁
  rw [readAt_of_drop h₀] at hmagic
  obtain ⟨w₁, l₂, h₂⟩ := readLe_of_drop "version" l₁ (drop_of_drop h₀) (by decide)
  obtain ⟨w₂, l₃, h₃⟩ := readLe_of_drop "manifest_len" l₂ h₂ (by omega)
  have hraw := sliceOrPanic_ok (le_length_of_drop l₃ h₃)
  rw [readAt_of_drop h₃] at hraw
  have hbody := parseBody_of_drop hsize (le_length_of_drop l₃ h₃) hne hsig (drop_of_drop h₃)
  simp only [spkgMagic, List.length_cons, List.length_nil, Nat.zero_add, Nat.reduceAdd] at *
  unfold parseSpkg
  rw [if_neg (by omega), if_neg (by omega), hmagic]
  dsimp only [bind, Except.bind]
  rw [if_neg (by simp [spkgMagic]), w₁]
  dsimp only
  rw [if_neg (by simp), w₂]
  dsimp only
  rw [checkedAdd_ok (by omega)]
  dsimp only
  rw [if_neg (by omega), hraw]
  dsimp only
  rw [hread]
  dsimp only [liftPackage]
  rw [hbody]

/-- What an accepted container stood for in the bytes. -/
theorem parseSpkg_ok {L : Libraries} {bytes : List UInt8} {p : ParsedPackage}
    (h : parseSpkg L bytes = .ok p) :
    p.sections ≠ [] ∧ p.signature.length = signatureLen ∧ bytes.length ≤ maxPackageBytes ∧
      bytes = spkgBytes p.manifestRaw p.sections p.signature ∧
      Manifest.fromJsonBytes L p.manifestRaw = .ok (p.manifest, p.manifestCanonical) := by
  rcases parseSpkg_cases L bytes with ⟨e, herr⟩ |
    ⟨manifest, canonical, ss, signature, hlen, hmagic, hversion, hroom, hread, hbody, hok⟩
  · cases herr.symm.trans h
  · obtain rfl := Except.ok.inj (hok.symm.trans h)
    obtain ⟨hne, hsig, hdrop⟩ := parseBody_ok hlen hbody
    refine ⟨hne, hsig, hlen, ?_, hread⟩
    have hfirst : bytes = spkgMagic ++ bytes.drop 4 := by
      have hsplit := drop_eq_readAt_append bytes 0 4
      rwa [hmagic] at hsplit
    have hraw := readAt_length hroom
    rw [drop_eq_word (show 4 + 2 ≤ bytes.length by omega), hversion,
      drop_eq_word (show 6 + 4 ≤ bytes.length by omega),
      drop_eq_readAt_append bytes 10 (ofLeBytes (readAt bytes 6 4)), hdrop] at hfirst
    simp only [spkgBytes, spkgHeader, List.append_assoc, hraw]
    exact hfirst

theorem parseSpkg_no_panic (L : Libraries) (bytes : List UInt8) :
    parseSpkg L bytes ≠ .error .panic := by
  intro h
  rcases parseSpkg_cases L bytes with ⟨e, herr⟩ | ⟨_, _, _, _, -, -, -, -, -, -, hok⟩
  · cases herr.symm.trans h
  · cases hok.symm.trans h

end Containers

/-! ## The round trip -/

/-- **Framing.** A container that the writer makes from an accepted manifest is taken apart into the
same parts; an accepted container is what the writer makes of its parts; no index is out of range. -/
theorem spkg_framing (L : Libraries) :
    (∀ manifest sections signature bytes,
        (∃ r, Manifest.fromJsonBytes L manifest = .ok r) → signature.length = signatureLen →
          writeSpkg manifest sections signature = .ok bytes →
          ∃ p, parseSpkg L bytes = .ok p ∧ p.manifestRaw = manifest ∧ p.sections = sections ∧
            p.signature = signature) ∧
      (∀ bytes p, parseSpkg L bytes = .ok p →
        writeSpkg p.manifestRaw p.sections p.signature = .ok bytes) ∧
      ∀ bytes, parseSpkg L bytes ≠ .error .panic := by
  refine ⟨?_, ?_, parseSpkg_no_panic L⟩
  · rintro manifest sections signature bytes ⟨⟨typed, canonical⟩, hread⟩ hsig hwrite
    obtain ⟨hne, rfl, hsize⟩ := writeSpkg_ok hwrite
    exact ⟨_, parseSpkg_spkgBytes hread hne hsig hsize, rfl, rfl, rfl⟩
  · intro bytes p h
    obtain ⟨hne, -, hlen, hbytes, -⟩ := parseSpkg_ok h
    rw [hbytes] at hlen
    rw [writeSpkg_eq hne hlen, ← hbytes]

/-- The manifest of the tests of `format.rs` with some hash. -/
def minimalManifest (hash : String) : Manifest where
  id := "minimal"
  version := "0.1.0"
  buildId := "b"
  irMajor := 0
  irMinor := 1
  primitiveAbi := 1
  taskEntries := SortedMap.empty.insert "main" "task.main"
  retainSymbols := []
  tagDictionary := []
  restartPolicy := .safeReset
  compatibilityHash := hash

/-- Its text. -/
def minimalText (hash : String) : List UInt8 :=
  utf8 ("\x7b" ++ ("\"id\":\"minimal\",\"version\":\"0.1.0\",\"build_id\":\"b\",\"ir_major\":0," ++
    "\"ir_minor\":1,\"primitive_abi\":1,\"task_entries\":\x7b\"main\":\"task.main\"\x7d," ++
    "\"retain_symbols\":[],\"tag_dictionary\":[],\"restart_policy\":\"safe_reset\"," ++
    "\"compatibility_hash\":\"" ++ hash ++ "\"\x7d"))

/-- SHA-256 of the preimage of its compatibility hash. -/
def minimalDigest : List UInt8 :=
  [0xe2, 0x10, 0x74, 0xbd, 0x5c, 0xda, 0x40, 0xd0, 0xf8, 0xcd, 0x5b, 0x0a, 0x37, 0xe7, 0x27, 0x36,
    0xfc, 0x8c, 0x1c, 0xc5, 0x03, 0xe4, 0xe3, 0xa2, 0x3d, 0xf3, 0xfa, 0x4e, 0x1a, 0xd3, 0x3e, 0x64]

/-- That hash in hexadecimal. -/
def minimalHash : String := "e21074bd5cda40d0f8cd5b0a37e72736fc8c1cc503e4e3a23df3fa4e1ad33e64"

/-- Libraries that know the minimal manifest. -/
def minimalLibraries : Libraries where
  jsonRead bytes :=
    if bytes = minimalText minimalHash then .ok ((minimalManifest minimalHash).toJson, none)
    else .error "expected value"
  located _ e := e
  typedError _ := "invalid type"
  jsonPrint _ := minimalText minimalHash
  semver version := if version = "0.1.0" then .ok () else .error "unexpected character"
  sha256 _ := minimalDigest
  publicKey seed := seed
  sign _ _ := List.replicate 64 1
  verify _ _ _ := true

/-- The minimal manifest is accepted. -/
theorem minimal_read : ∃ members,
    (minimalManifest minimalHash).toJson.strict = .ok (.object members) ∧
      Manifest.fromJsonBytes minimalLibraries (minimalText minimalHash) =
        .ok (minimalManifest minimalHash, (StrictValue.object members).toJcs) := by
  have hstrict : ∃ members, (minimalManifest minimalHash).toJson.strict = .ok (.object members) := by
    obtain ⟨v, hv, hobject⟩ := except_of_decide
      (x := (minimalManifest minimalHash).toJson.strict) (P := fun v => v.tag = 4)
      (by decide +kernel)
    cases v with
    | object members => exact ⟨members, hv⟩
    | _ => cases hobject
  obtain ⟨members, hstrict⟩ := hstrict
  have hjson : minimalLibraries.jsonRead (minimalText minimalHash) =
      .ok ((minimalManifest minimalHash).toJson, none) := by
    simp only [minimalLibraries, if_true]
  have hfields : (minimalManifest minimalHash).validateFields minimalLibraries = .ok () :=
    except_of_toOption (by decide +kernel)
  exact ⟨members, hstrict, fromJsonBytes_eq (checkJsonText_brace _) hjson hstrict
    (by decide +kernel) hfields⟩

/-- The minimal manifest in a container with one section. -/
theorem minimal_container_framed :
    ∃ bytes, writeSpkg (minimalText minimalHash) [spbcMagic] (List.replicate 64 0) = .ok bytes ∧
      ∃ p, parseSpkg minimalLibraries bytes = .ok p ∧ p.manifestRaw = minimalText minimalHash ∧
        p.sections = [spbcMagic] ∧ p.signature = List.replicate 64 0 := by
  obtain ⟨members, -, hread⟩ := minimal_read
  have hwrite : writeSpkg (minimalText minimalHash) [spbcMagic] (List.replicate 64 0) =
      .ok (spkgBytes (minimalText minimalHash) [spbcMagic] (List.replicate 64 0)) :=
    writeSpkg_eq (by simp) (by decide +kernel)
  exact ⟨_, hwrite, (spkg_framing _).1 _ _ _ _ ⟨_, hread⟩ (by decide) hwrite⟩

end SoftPlc.Package

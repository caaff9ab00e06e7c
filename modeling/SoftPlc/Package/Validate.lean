import SoftPlc.Package.Compat
import SoftPlc.Retain.Layout

/-!
# Validation of an upload

`validate` takes a container apart, checks its signature, parses and verifies the one section and
compares it with the manifest. What is signed is the canonical manifest followed by the section, with
nothing between them; the canonical text of an object shows where it ends, so the message determines
both (`signed_message_determines`).
-/

namespace SoftPlc.Package

open SoftPlc.Ir SoftPlc.Lib SoftPlc.Retain

/-! ## Signatures -/

/-- Source: `sign.rs`, `VerifyPolicy`. -/
structure VerifyPolicy where
  requireSignature : Bool
  /-- Trust anchors. -/
  publicKeys : List (List UInt8)

/-- Source: `sign.rs`, `VerifyPolicy::unsigned`. -/
def VerifyPolicy.unsigned : VerifyPolicy := ⟨false, []⟩

/-- Source: `sign.rs`, `VerifyPolicy::required`. -/
def VerifyPolicy.required (publicKeys : List (List UInt8)) : VerifyPolicy := ⟨true, publicKeys⟩

/-- The bytes that are hashed. Source: `sign.rs`, the `update` calls of `signing_preimage`. -/
def signedMessage (canonical : List UInt8) (sections : List (List UInt8)) : List UInt8 :=
  canonical ++ sections.flatten

/-- Source: `sign.rs`, `signing_preimage`. -/
def signingPreimage (L : Libraries) (canonical : List UInt8) (sections : List (List UInt8)) :
    List UInt8 :=
  L.sha256 (signedMessage canonical sections)

/-- Source: `sign.rs`, `verify_signature`. -/
def verifySignature (L : Libraries) (preimage sig : List UInt8) (keys : List (List UInt8)) :
    Except PackageError Unit :=
  if keys.any fun key => L.verify key preimage sig then .ok () else .error .signature

/-- Source: `sign.rs`, `check_policy`. -/
def checkPolicy (L : Libraries) (policy : VerifyPolicy) (signature preimage : List UInt8) :
    Except PackageError Unit :=
  if ¬policy.requireSignature then .ok ()
  else if signature = List.replicate signatureLen 0 then .error .unsigned
  else verifySignature L preimage signature policy.publicKeys

/-! ## Comparison with the section -/

/-- Source: `error.rs`, `PackageError::mismatch`. -/
def mismatch (message : String) : Except PackageError Unit := .error (.manifestSpbcMismatch message)

/-- Versions as texts. -/
def versionText (major minor : ℕ) : String := toString major ++ "/" ++ toString minor

/-- A size that the manifest may repeat. Source: `validate.rs`, the `if let Some(n)` blocks of
`cross_check`. -/
def checkSize (name : String) (declared : Option ℕ) (actual : ℕ) : Except PackageError Unit :=
  match declared with
  | none => .ok ()
  | some n =>
      if n ≠ actual then mismatch (name ++ " " ++ toString n ++ " != spbc " ++ toString actual)
      else .ok ()

/-- Source: `validate.rs`, the loop of `cross_check`. -/
def checkTaskSymbol (module : IrModule) (e : String × String) : Except PackageError Unit :=
  if module.entries.any fun x => x.name == e.2 then .ok ()
  else mismatch ("task_entries." ++ e.1 ++ " symbol " ++ e.2.quote ++ " not in spbc")

/-- Source: `manifest.rs`, `Manifest::retain_layout`. -/
def Manifest.retainLayout (m : Manifest) (retainSize : ℕ) : Except PackageError RetainLayout :=
  (RetainLayout.new retainSize (m.retainSymbols.map fun s => ⟨s.name, s.ty, s.offset⟩)).mapError
    .manifestSpbcMismatch

/-- Source: `validate.rs`, `cross_check`. -/
def crossCheck (m : Manifest) (module : IrModule) : Except PackageError Unit :=
  if m.irMajor ≠ irMajor ∨ m.irMinor ≠ irMinor then
    mismatch ("manifest ir " ++ versionText m.irMajor m.irMinor ++ " != runtime " ++
      versionText irMajor irMinor)
  else if m.irMajor ≠ module.irMajor ∨ m.irMinor ≠ module.irMinor then
    mismatch ("manifest ir " ++ versionText m.irMajor m.irMinor ++ " != spbc " ++
      versionText module.irMajor module.irMinor)
  else do
    checkSize "input_slots" m.inputSlots module.inputSlots
    checkSize "output_slots" m.outputSlots module.outputSlots
    checkSize "data_size" m.dataSize module.dataSize
    checkSize "retain_size" m.retainSize module.retainSize
    checkSize "const_size" m.constSize module.constSize
    m.taskEntries.entries.forM (checkTaskSymbol module)
    let _ ← m.retainLayout module.retainSize
    .ok ()

/-- The result of the module reader. Source: `validate.rs`, `parse_spbc(..)?`. -/
def liftSpbc {α : Type} : Except SpbcFault α → Except PackageFault α
  | .ok a => .ok a
  | .error (.err e) => refuse (.spbc e)
  | .error .panic => .error .panic

/-- The result of the verifier. Source: `validate.rs`, `verify_module(..)?`. -/
def liftVerify {α : Type} : Except VerifyError α → Except PackageFault α
  | .ok a => .ok a
  | .error e => refuse (.verify e)

/-- Parse and check the section. Source: `validate.rs`, `validate` after the policy. -/
def validateSection (L : Libraries) (parsed : ParsedPackage) : Except PackageFault ParsedPackage :=
  match parsed.sections with
  | [blob] => do
      let module ← liftSpbc (parseSpbc blob)
      liftVerify (verifyModule module)
      liftPackage (crossCheck parsed.manifest module)
      if computeCompatibilityHash L parsed.manifest ≠ parsed.manifest.compatibilityHash then
        refuse .compatibilityHash
      else .ok { parsed with modules := [module] }
  | sections => refuse (.sectionCount (min sections.length (2 ^ 32 - 1)))

/-- Source: `validate.rs`, `validate`. -/
def validate (L : Libraries) (bytes : List UInt8) (policy : VerifyPolicy) :
    Except PackageFault ParsedPackage := do
  let parsed ← parseSpkg L bytes
  liftPackage (checkPolicy L policy parsed.signature
    (signingPreimage L parsed.manifestCanonical parsed.sections))
  validateSection L parsed

/-! ## What is signed -/

section Signed

variable {L : Libraries} {bytes : List UInt8} {policy : VerifyPolicy} {p : ParsedPackage}

/-- An accepted section. -/
theorem validateSection_ok {parsed : ParsedPackage} (h : validateSection L parsed = .ok p) :
    ∃ blob module, parsed.sections = [blob] ∧ p = { parsed with modules := [module] } := by
  unfold validateSection at h
  split at h
  · rename_i blob hsections
    obtain ⟨module, -, h⟩ := except_bind_ok.mp h
    obtain ⟨-, -, h⟩ := except_bind_ok.mp h
    obtain ⟨-, -, h⟩ := except_bind_ok.mp h
    split_ifs at h
    · cases h
    · cases h
      exact ⟨blob, module, hsections, rfl⟩
  · cases h

/-- An accepted package has one section and a canonical manifest. -/
theorem validate_ok (h : validate L bytes policy = .ok p) :
    ∃ members blob, parseStrictJson L p.manifestRaw = .ok (.object members) ∧
      p.manifestCanonical = (StrictValue.object members).toJcs ∧ p.sections = [blob] := by
  unfold validate at h
  obtain ⟨parsed, hparse, h⟩ := except_bind_ok.mp h
  obtain ⟨-, -, h⟩ := except_bind_ok.mp h
  obtain ⟨blob, module, hsections, rfl⟩ := validateSection_ok h
  obtain ⟨-, -, -, -, hread⟩ := parseSpkg_ok hparse
  obtain ⟨⟨members, hstrict, hcanonical⟩, -⟩ := fromJsonBytes_ok hread
  exact ⟨members, blob, hstrict, hcanonical, hsections⟩

/-- A section that passes its checks. -/
theorem validateSection_eq {parsed : ParsedPackage} {blob : List UInt8} {module : IrModule}
    (hsections : parsed.sections = [blob]) (hparse : parseSpbc blob = .ok module)
    (hverify : verifyModule module = .ok ()) (hcross : crossCheck parsed.manifest module = .ok ())
    (hhash : computeCompatibilityHash L parsed.manifest = parsed.manifest.compatibilityHash) :
    validateSection L parsed = .ok { parsed with modules := [module] } := by
  unfold validateSection
  rw [hsections]
  dsimp only
  rw [hparse]
  dsimp only [liftSpbc, bind, Except.bind]
  rw [hverify]
  dsimp only [liftVerify]
  rw [hcross]
  dsimp only [liftPackage]
  rw [if_neg (not_not.mpr hhash)]

/-- A container that passes its checks. -/
theorem validate_eq {parsed : ParsedPackage} (hparse : parseSpkg L bytes = .ok parsed)
    (hpolicy : checkPolicy L policy parsed.signature
      (signingPreimage L parsed.manifestCanonical parsed.sections) = .ok ())
    (hsection : validateSection L parsed = .ok p) : validate L bytes policy = .ok p := by
  unfold validate
  rw [hparse]
  dsimp only [bind, Except.bind]
  rw [hpolicy]
  exact hsection

end Signed

/-- **The signed message.** The bytes that are hashed for an accepted package determine its manifest
and its section; the canonical text of an object determines the object and where it stops. -/
theorem signed_message_determines (L : Libraries) {bytes bytes' : List UInt8}
    {policy policy' : VerifyPolicy} {p p' : ParsedPackage} (h : validate L bytes policy = .ok p)
    (h' : validate L bytes' policy' = .ok p')
    (heq : signedMessage p.manifestCanonical p.sections =
      signedMessage p'.manifestCanonical p'.sections) :
    (∃ manifest blob, parseStrictJson L p.manifestRaw = .ok manifest ∧
        parseStrictJson L p'.manifestRaw = .ok manifest ∧ p.sections = [blob] ∧
        p'.sections = [blob]) ∧
      ∀ (ms ns : List (String × StrictValue)) (x y : List UInt8),
        (StrictValue.object ms).toJcs ++ x = (StrictValue.object ns).toJcs ++ y → ms = ns ∧ x = y := by
  refine ⟨?_, fun ms ns x y => object_append⟩
  obtain ⟨members, blob, hstrict, hcanonical, hsections⟩ := validate_ok h
  obtain ⟨members', blob', hstrict', hcanonical', hsections'⟩ := validate_ok h'
  rw [hcanonical, hcanonical', hsections, hsections'] at heq
  simp only [signedMessage, List.flatten_cons, List.flatten_nil, List.append_nil] at heq
  obtain ⟨rfl, rfl⟩ := object_append heq
  exact ⟨_, blob, hstrict, hstrict', hsections, hsections'⟩

/-- A module with the task of the minimal manifest. -/
def minimalModule : IrModule := oneEntryModule (entryDirective "task.main" "" 0)

/-- The bytes of the module. -/
def minimalBlob : List UInt8 :=
  headerBytes minimalModule ++ (minimalModule.entries.flatMap entryBytes ++ minimalModule.code)

/-- The minimal package, without a signature. -/
def minimalPackage : List UInt8 :=
  spkgBytes (minimalText minimalHash) [minimalBlob] (List.replicate 64 0)

theorem minimalPackage_valid : ∃ p, validate minimalLibraries minimalPackage .unsigned = .ok p := by
  obtain ⟨members, -, hread⟩ := minimal_read
  have hparse : parseSpkg minimalLibraries minimalPackage =
      .ok ⟨minimalManifest minimalHash, minimalText minimalHash, (StrictValue.object members).toJcs,
        [minimalBlob], [], List.replicate 64 0⟩ :=
    parseSpkg_spkgBytes hread (by simp) (by decide) (by decide +kernel)
  have hblob : parseSpbc minimalBlob = .ok minimalModule := by decide +kernel
  have hverify : verifyModule minimalModule = .ok () := by decide +kernel
  have hcross : crossCheck (minimalManifest minimalHash) minimalModule = .ok () :=
    except_of_toOption (by decide +kernel)
  have hhash : computeCompatibilityHash minimalLibraries (minimalManifest minimalHash) = minimalHash := by
    decide +kernel
  exact ⟨_, validate_eq hparse rfl (validateSection_eq rfl hblob hverify hcross hhash)⟩

/-- The minimal package signs its own parts. -/
theorem minimal_message_determines :
    ∃ p manifest blob, validate minimalLibraries minimalPackage .unsigned = .ok p ∧
      parseStrictJson minimalLibraries p.manifestRaw = .ok manifest ∧ p.sections = [blob] := by
  obtain ⟨p, hp⟩ := minimalPackage_valid
  obtain ⟨⟨manifest, blob, hm, -, hs, -⟩, -⟩ := signed_message_determines minimalLibraries hp hp rfl
  exact ⟨p, manifest, blob, hp, hm, hs⟩

end SoftPlc.Package

import SoftPlc.Compiler.Symbols
import SoftPlc.Package.RoundTrip

/-!
# From a project to an accepted package

`PackageBuilder` of `plc-package/src/pack.rs` and `build_spkg` of `plc-compiler/src/pack.rs`. A package
that is built from a compiled project is accepted by `validate` and gives back the module and the
manifest (`compiled_package_validates`): each encoder is undone by its decoder, and every check at
upload time is one that the compiler has met.
-/

namespace SoftPlc.Package

open SoftPlc.Ir SoftPlc.Lib SoftPlc.Vm SoftPlc.St SoftPlc.Compiler

/-! ## The manifest of a compilation -/

/-- Source: `plc-fb-primitives/src/lib.rs`, `PRIMITIVE_ABI`. -/
def primitiveAbi : ℕ := 1

/-- Image regions that the compiler uses. -/
def packageKind : Compiler.TagKind → TagKind
  | .i => .i
  | .q => .q
  | .m => .m
  | .r => .r

def packageRestart : Compiler.RestartPolicy → RestartPolicy
  | .safeReset => .safeReset
  | .bumpless => .bumpless

/-- The manifest before its hash is computed. Source: `bind.rs`, the `Manifest` of
`compile_loaded`. -/
def bareManifest (m : Compiler.Manifest) : Manifest where
  id := m.id
  version := m.version
  buildId := m.buildId
  irMajor := m.irMajor
  irMinor := m.irMinor
  primitiveAbi := primitiveAbi
  taskEntries := m.taskEntries.foldl (fun t e => t.insert e.1 e.2) .empty
  retainSymbols := m.retainSymbols.map fun s => ⟨s.name, s.ty, s.offset⟩
  tagDictionary := m.tagDictionary.map fun t => ⟨t.name, t.ty, packageKind t.kind, t.slot⟩
  restartPolicy := packageRestart m.restartPolicy
  compatibilityHash := String.ofList (List.replicate 64 '0')
  inputSlots := some m.inputSlots
  outputSlots := some m.outputSlots
  dataSize := some m.dataSize
  retainSize := some m.retainSize
  constSize := some m.constSize

/-- The manifest with its hash. -/
def Manifest.sealed (L : Libraries) (m : Manifest) : Manifest :=
  { m with compatibilityHash := computeCompatibilityHash L m }

/-- Source: `bind.rs`, the end of `compile_loaded`. -/
def packageManifest (L : Libraries) (m : Compiler.Manifest) : Manifest := (bareManifest m).sealed L

/-! ## The builder -/

/-- Source: `pack.rs`, `SigMode`. -/
inductive SigMode where
  | pending
  | key (seed : List UInt8)
  | unsigned

/-- Source: `pack.rs`, `PackageBuilder`. -/
structure PackageBuilder where
  manifest : Manifest
  sections : List (List UInt8)
  sig : SigMode

namespace PackageBuilder

/-- Source: `pack.rs`, `PackageBuilder::new`. -/
def new (manifest : Manifest) : PackageBuilder := ⟨manifest, [], .pending⟩

/-- Source: `pack.rs`, `PackageBuilder::section_bytes`. -/
def sectionBytes (b : PackageBuilder) (spbc : List UInt8) : Except PackageError PackageBuilder :=
  if b.sections ≠ [] then .error (.sectionCount 2) else .ok { b with sections := b.sections ++ [spbc] }

/-- Source: `pack.rs`, `PackageBuilder::section_module`. -/
def sectionModule (b : PackageBuilder) (module : IrModule) : Except PackageError PackageBuilder :=
  match writeSpbc module with
  | .error e => .error (.spbc e)
  | .ok spbc => b.sectionBytes spbc

/-- Source: `pack.rs`, `PackageBuilder::sign`. -/
def sign (b : PackageBuilder) (seed : List UInt8) : PackageBuilder := { b with sig := .key seed }

/-- Source: `pack.rs`, `PackageBuilder::unsigned`. -/
def unsigned (b : PackageBuilder) : PackageBuilder := { b with sig := .unsigned }

/-- Source: `pack.rs`, the `match &self.sig` of `PackageBuilder::to_bytes`. -/
def signature (L : Libraries) (preimage : List UInt8) : SigMode → Except PackageError (List UInt8)
  | .pending => .error (.manifest "call sign() or unsigned() before to_bytes()")
  | .key seed => .ok (L.sign seed preimage)
  | .unsigned => .ok (List.replicate signatureLen 0)

/-- Source: `pack.rs`, `PackageBuilder::to_bytes`. -/
def toBytes (L : Libraries) (b : PackageBuilder) : Except PackageError (List UInt8) :=
  if b.sections.length ≠ 1 then .error (.sectionCount (b.sections.length % 2 ^ 32))
  else do
    let manifest := b.manifest.sealed L
    manifest.validateFields L
    let canonical ← manifest.toJcsBytes L
    let sig ← signature L (signingPreimage L canonical b.sections) b.sig
    writeSpkg canonical b.sections sig

end PackageBuilder

/-! ## Building a package -/

/-- The value of a hexadecimal digit, in either case. -/
def hexValue (c : Char) : Option ℕ :=
  if '0' ≤ c ∧ c ≤ '9' then some (c.toNat - 48)
  else if 'a' ≤ c ∧ c ≤ 'f' then some (c.toNat - 87)
  else if 'A' ≤ c ∧ c ≤ 'F' then some (c.toNat - 55)
  else none

/-- Pairs of hexadecimal digits. -/
def hexPairs : List Char → Option (List UInt8)
  | [] => some []
  | [_] => none
  | a :: b :: rest => do
      let hi ← hexValue a
      let lo ← hexValue b
      let bytes ← hexPairs rest
      some (UInt8.ofNat (16 * hi + lo) :: bytes)

/-- Source: `compat.rs`, `hex_decode_n`. -/
def hexDecodeN (n : ℕ) (s : String) : Except PackageError (List UInt8) :=
  if (trim s).length ≠ n * 2 then .error (.manifest ("expected " ++ toString n ++ " hex bytes"))
  else
    match hexPairs (trim s) with
    | some bytes => .ok bytes
    | none => .error (.manifest ("expected " ++ toString n ++ " hex bytes"))

/-- Source: `error.rs`, the `#[error(...)]` attributes of `PackageError`. -/
def PackageError.text : PackageError → String
  | .tooLarge len => "package exceeds 8 MiB limit (" ++ toString len ++ " bytes)"
  | .badMagic => "bad package magic"
  | .cborRejected => "CBOR is not accepted in package major 1"
  | .unsupportedVersion v => "unsupported package version " ++ toString v ++ " (expected 1)"
  | .truncated what => "truncated package: " ++ what
  | .trailingBytes => "trailing bytes after package signature"
  | .json message => "package JSON: " ++ message
  | .jcs message => "JCS canonicalization: " ++ message
  | .manifest message => "manifest: " ++ message
  | .signature => "signature verification failed"
  | .unsigned => "package is unsigned"
  | .sectionCount n =>
      "invalid spbc section count " ++ toString n ++ " (package major 1 requires 1)"
  | .spbc e => e.text
  | .verify e => verifyText e
  | .manifestSpbcMismatch message => "manifest disagrees with spbc: " ++ message
  | .compatibilityHash => "compatibility_hash mismatch"
  | .invalidProgramId id => "invalid program id: " ++ id

/-- Source: `plc-compiler/src/error.rs`, `impl From<PackageError> for CompileError`. -/
def orPackageError {α : Type} : Except PackageError α → Except CompileFault α
  | .ok a => .ok a
  | .error e => reject .ePackage e.text

/-- The key of a build. Source: `pack.rs`, the `if let Some(seed)` of `build_spkg`. -/
def withKey? (b : PackageBuilder) : Option String → Except CompileFault PackageBuilder
  | none => .ok b.unsigned
  | some hex =>
      match hexDecodeN 32 hex with
      | .error e => reject .ePackage ("bad signing seed: " ++ e.text)
      | .ok seed => .ok (b.sign seed)

/-- Source: `plc-compiler/src/pack.rs`, `build_spkg`. -/
def buildSpkg (L : Libraries) (module : IrModule) (manifest : Manifest) (seedHex : Option String) :
    Except CompileFault (List UInt8) := do
  let builder ← orPackageError ((PackageBuilder.new manifest).sectionModule module)
  let builder ← withKey? builder seedHex
  orPackageError (builder.toBytes L)

/-! ## Taking a build apart -/

section Built

variable {L : Libraries} {module : IrModule} {manifest : Manifest} {seedHex : Option String}
  {bytes : List UInt8}

/-- Ed25519: a signature of 64 bytes, not all zero, that the public key of the seed accepts. -/
structure Libraries.Signs (L : Libraries) : Prop where
  length : ∀ seed message, (L.sign seed message).length = signatureLen
  nonzero : ∀ seed message, L.sign seed message ≠ List.replicate signatureLen 0
  verified : ∀ seed message, L.verify (L.publicKey seed) message (L.sign seed message) = true

/-- A policy that asks for no signature, or for one of the key of a build. -/
def VerifyPolicy.Accepts (policy : VerifyPolicy) (L : Libraries) (seedHex : Option String) : Prop :=
  policy.requireSignature = false ∨
    ∃ hex seed, seedHex = some hex ∧ hexDecodeN 32 hex = .ok seed ∧
      L.publicKey seed ∈ policy.publicKeys

/-- The signature mode of a build. -/
def SigMode.Of (seedHex : Option String) (sig : SigMode) : Prop :=
  match seedHex with
  | none => sig = .unsigned
  | some hex => ∃ seed, hexDecodeN 32 hex = .ok seed ∧ sig = .key seed

theorem orPackageError_ok {α : Type} {x : Except PackageError α} {a : α}
    (h : orPackageError x = .ok a) : x = .ok a := by
  cases x with
  | ok b =>
      cases h
      rfl
  | error e => cases h

theorem withKey?_ok {b b' : PackageBuilder} (h : withKey? b seedHex = .ok b') :
    b'.manifest = b.manifest ∧ b'.sections = b.sections ∧ b'.sig.Of seedHex := by
  cases seedHex with
  | none =>
      cases h
      exact ⟨rfl, rfl, rfl⟩
  | some hex =>
      unfold withKey? at h
      dsimp only at h
      split at h
      · cases h
      · rename_i seed hseed
        cases h
        exact ⟨rfl, rfl, seed, hseed, rfl⟩

theorem signature_of {preimage out : List UInt8} {sig : SigMode} (hL : L.Signs)
    (hsig : sig.Of seedHex) (h : PackageBuilder.signature L preimage sig = .ok out) :
    out.length = signatureLen ∧ ∀ policy : VerifyPolicy, policy.Accepts L seedHex →
      checkPolicy L policy out preimage = .ok () := by
  have hnone : ∀ {policy : VerifyPolicy} {out : List UInt8}, policy.requireSignature = false →
      checkPolicy L policy out preimage = .ok () := by
    intro policy out hfree
    rw [checkPolicy, if_pos (by rw [hfree]; decide)]
  cases seedHex with
  | none =>
      cases hsig
      cases h
      refine ⟨List.length_replicate, ?_⟩
      rintro policy (hfree | ⟨hex, seed, hnone', -, -⟩)
      · exact hnone hfree
      · cases hnone'
  | some hex =>
      obtain ⟨seed, hseed, rfl⟩ := hsig
      cases h
      refine ⟨hL.length seed preimage, ?_⟩
      rintro policy (hfree | ⟨hex', seed', hhex, hseed', hkey⟩)
      · exact hnone hfree
      · cases hhex
        obtain rfl := Except.ok.inj (hseed.symm.trans hseed')
        by_cases hreq : policy.requireSignature = true
        · have hany : policy.publicKeys.any (fun key => L.verify key preimage (L.sign seed preimage)) =
              true := List.any_eq_true.mpr ⟨_, hkey, hL.verified seed preimage⟩
          rw [checkPolicy, if_neg (not_not.mpr hreq), if_neg (hL.nonzero seed preimage),
            verifySignature, if_pos hany]
        · exact hnone (Bool.not_eq_true _ ▸ hreq)

/-- The steps of a build that succeeded. -/
theorem buildSpkg_ok (h : buildSpkg L module manifest seedHex = .ok bytes) :
    ∃ blob canonical sig out, writeSpbc module = .ok blob ∧ SigMode.Of seedHex sig ∧
      (manifest.sealed L).validateFields L = .ok () ∧
      (manifest.sealed L).toJcsBytes L = .ok canonical ∧
      PackageBuilder.signature L (signingPreimage L canonical [blob]) sig = .ok out ∧
      writeSpkg canonical [blob] out = .ok bytes := by
  unfold buildSpkg at h
  obtain ⟨b, hb, h⟩ := except_bind_ok.mp h
  obtain ⟨b', hb', h⟩ := except_bind_ok.mp h
  have hmodule := orPackageError_ok hb
  have htoBytes := orPackageError_ok h
  unfold PackageBuilder.sectionModule at hmodule
  split at hmodule
  · cases hmodule
  · rename_i blob hblob
    cases hmodule
    obtain ⟨hmanifest, hsections, hsig⟩ := withKey?_ok hb'
    have hone : b'.sections = [blob] := hsections
    have hsame : b'.manifest = manifest := hmanifest
    unfold PackageBuilder.toBytes at htoBytes
    rw [hone, hsame] at htoBytes
    simp only [List.length_singleton, ne_eq, not_true_eq_false, if_false] at htoBytes
    obtain ⟨⟨⟩, hfields, htoBytes⟩ := except_bind_ok.mp htoBytes
    obtain ⟨canonical, hcanonical, htoBytes⟩ := except_bind_ok.mp htoBytes
    obtain ⟨out, hout, htoBytes⟩ := except_bind_ok.mp htoBytes
    exact ⟨blob, canonical, b'.sig, out, hblob, hsig, hfields, hcanonical, hout, htoBytes⟩

/-- A build without a key. -/
theorem buildSpkg_unsigned {blob canonical : List UInt8} (hblob : writeSpbc module = .ok blob)
    (hfields : (manifest.sealed L).validateFields L = .ok ())
    (hcanonical : (manifest.sealed L).toJcsBytes L = .ok canonical)
    (hwrite : writeSpkg canonical [blob] (List.replicate signatureLen 0) = .ok bytes) :
    buildSpkg L module manifest none = .ok bytes := by
  have hbytes : PackageBuilder.toBytes L ⟨manifest, [blob], .unsigned⟩ = .ok bytes := by
    unfold PackageBuilder.toBytes
    simp only [List.length_singleton, ne_eq, not_true_eq_false, if_false]
    apply except_bind_ok.mpr
    refine ⟨(), hfields, ?_⟩
    apply except_bind_ok.mpr
    exact ⟨canonical, hcanonical, hwrite⟩
  unfold buildSpkg PackageBuilder.sectionModule
  rw [hblob]
  exact congrArg orPackageError hbytes

/-- Names that the module writer accepted. -/
theorem writeSpbc_names {blob : List UInt8} (h : writeSpbc module = .ok blob) :
    ∀ e ∈ module.entries, (utf8 e.name).length ≤ 255 := by
  have hall : ∀ {es : List EntryPoint} {out : List (List UInt8)}, es.mapM writeEntry = .ok out →
      ∀ e ∈ es, (utf8 e.name).length ≤ 255 := by
    intro es
    induction es with
    | nil => exact fun _ e he => absurd he List.not_mem_nil
    | cons e es ih =>
        intro out hout e' he'
        rw [List.mapM_cons] at hout
        obtain ⟨b, hb, hout⟩ := except_bind_ok.mp hout
        obtain ⟨bs, hbs, -⟩ := except_bind_ok.mp hout
        rcases List.mem_cons.mp he' with rfl | he'
        · unfold writeEntry at hb
          split_ifs at hb with hlong
          exact not_lt.mp hlong
        · exact ih hbs e' he'
  unfold writeSpbc at h
  obtain ⟨out, hout, -⟩ := except_bind_ok.mp h
  exact hall hout

end Built

/-! ## What a compilation hands to the builder -/

/-- What the lexer and the types of `project.toml` promise: variables have names, and slots are
32-bit numbers. -/
structure Lexed (p : LoadedProject) : Prop where
  names : ∀ u ∈ p.libUnits.map Prod.snd ++ p.units, ∀ prog, Decl.program prog ∈ u.decls →
    ∀ x ∈ sectionVars prog.vars, x.2.name ≠ ""
  slots : ∀ tag ∈ p.file.tag, ∀ n ∈ tag.slot, n ≤ u32Max

section Compiled

variable {order : HashOrder} {p : LoadedProject} {c : Compiled}

/-- Programs of a project were declared in it. -/
theorem collectDecls_programs {ds : Decls} (h : collectDecls p = .ok ds) :
    ∀ x ∈ ds.programs, ∃ u ∈ p.libUnits.map Prod.snd ++ p.units, Decl.program x.2 ∈ u.decls := by
  unfold collectDecls at h
  obtain ⟨⟨⟩, -, h⟩ := except_bind_ok.mp h
  refine except_foldlM_invariant h (fun ds => ∀ x ∈ ds.programs,
    ∃ u ∈ p.libUnits.map Prod.snd ++ p.units, Decl.program x.2 ∈ u.decls) ?_ (by simp)
  intro ds d ds' hd hall hadd
  cases d with
  | functionBlock fb =>
      unfold addDecl at hadd
      dsimp only at hadd
      split_ifs at hadd
      · cases hadd
      · cases hadd
        exact hall
  | program prog =>
      unfold addDecl at hadd
      dsimp only at hadd
      split_ifs at hadd
      · cases hadd
      · cases hadd
        intro x hx
        rcases List.mem_cons.mp ((insertSorted_perm _ _ _).mem_iff.mp hx) with rfl | hx
        · obtain ⟨u, hu, hmem⟩ := List.mem_flatMap.mp hd
          exact ⟨u, hu, hmem⟩
        · exact hall x hx

theorem Lexed.programVars (h : Lexed p) {ds : Decls} (hds : collectDecls p = .ok ds) :
    ∀ x ∈ ds.programVars, x.2.name ≠ "" := by
  intro x hx
  obtain ⟨prog, hprog, hx⟩ := List.mem_flatMap.mp hx
  obtain ⟨u, hu, hdecl⟩ := collectDecls_programs hds prog hprog
  exact h.names u hu prog.2 hdecl x hx

theorem compileLoaded_ok {buildId : String} {module : IrModule} {m : Compiler.Manifest}
    (h : compileLoaded order p buildId = .ok (module, m)) :
    ∃ c, Stages order p c ∧ module = c.module ∧ m.irMajor = irMajor ∧ m.irMinor = irMinor ∧
      m.retainSymbols = c.final.retainSymbols ∧ m.tagDictionary = c.final.tagDictionary ∧
      m.inputSlots = c.final.inputSlots ∧ m.outputSlots = c.final.outputSlots ∧
      m.dataSize = c.module.dataSize ∧ m.retainSize = c.module.retainSize ∧
      m.constSize = c.module.constSize ∧
      m.taskEntries = p.file.task.foldl (fun m t =>
        insertSorted t.name ("task." ++ t.name) (m.filter fun e => e.1 != t.name)) [] := by
  unfold compileLoaded at h
  obtain ⟨c, hc, h⟩ := except_bind_ok.mp h
  cases h
  exact ⟨c, compileStages_ok hc, rfl, rfl, rfl, rfl, rfl, rfl, rfl, rfl, rfl, rfl, rfl⟩

theorem mem_foldl_insert {es : List (String × String)} {acc : SortedMap String String}
    {e : String × String} (h : e ∈ (es.foldl (fun t e => t.insert e.1 e.2) acc).entries) :
    e ∈ es ∨ e ∈ acc.entries := by
  induction es generalizing acc with
  | nil => exact .inr h
  | cons x es ih =>
      rcases ih h with hmem | hmem
      · exact .inl (List.mem_cons_of_mem _ hmem)
      · rcases SortedMap.mem_insert.mp hmem with heq | ⟨hmem, -⟩
        · rw [show e = x from heq]
          exact .inl List.mem_cons_self
        · exact .inr hmem

/-- The entries of the tasks of a project. -/
theorem mem_taskEntries {tasks : List TaskMap} {acc : List (String × String)} {e : String × String}
    (h : e ∈ tasks.foldl (fun m t =>
      insertSorted t.name ("task." ++ t.name) (m.filter fun e => e.1 != t.name)) acc) :
    (∃ t ∈ tasks, e = (t.name, "task." ++ t.name)) ∨ e ∈ acc := by
  induction tasks generalizing acc with
  | nil => exact .inr h
  | cons t tasks ih =>
      rcases ih h with ⟨t', ht', rfl⟩ | hmem
      · exact .inl ⟨t', List.mem_cons_of_mem _ ht', rfl⟩
      · rcases List.mem_cons.mp ((insertSorted_perm _ _ _).mem_iff.mp hmem) with rfl | hmem
        · exact .inl ⟨t, List.mem_cons_self, rfl⟩
        · exact .inr (List.mem_filter.mp hmem).1

end Compiled

/-- The manifest of a compilation agrees with its module. -/
structure Agrees (m : Manifest) (module : IrModule) : Prop where
  fits : m.Fits
  cross : crossCheck m module = .ok ()

theorem checkSize_self (name : String) (n : ℕ) : checkSize name (some n) n = .ok () := by
  unfold checkSize
  dsimp only
  rw [if_neg (not_not.mpr rfl)]

/-- A manifest that passes the comparison with a module. -/
theorem crossCheck_eq {m : Manifest} {module : IrModule} {layout : SoftPlc.Retain.RetainLayout}
    (hmajor : m.irMajor = irMajor) (hminor : m.irMinor = irMinor)
    (hmajor' : module.irMajor = irMajor) (hminor' : module.irMinor = irMinor)
    (hin : m.inputSlots = some module.inputSlots) (hout : m.outputSlots = some module.outputSlots)
    (hdata : m.dataSize = some module.dataSize) (hretain : m.retainSize = some module.retainSize)
    (hconst : m.constSize = some module.constSize)
    (htasks : m.taskEntries.entries.forM (checkTaskSymbol module) = .ok ())
    (hlayout : m.retainLayout module.retainSize = .ok layout) : crossCheck m module = .ok () := by
  have hruntime : ¬(m.irMajor ≠ irMajor ∨ m.irMinor ≠ irMinor) := by
    simp [hmajor, hminor]
  have hspbc : ¬(m.irMajor ≠ module.irMajor ∨ m.irMinor ≠ module.irMinor) := by
    simp [hmajor, hminor, hmajor', hminor']
  unfold crossCheck
  rw [if_neg hruntime, if_neg hspbc, hin, hout, hdata, hretain, hconst, checkSize_self,
    checkSize_self, checkSize_self, checkSize_self, checkSize_self]
  dsimp only [bind, Except.bind]
  rw [htasks]
  dsimp only
  rw [hlayout]

theorem agrees_of_compiled {order : HashOrder} {p : LoadedProject} {buildId : String}
    {module : IrModule} {m : Compiler.Manifest} (hp : Lexed p)
    (h : compileLoaded order p buildId = .ok (module, m)) (hash : String) :
    Agrees { bareManifest m with compatibilityHash := hash } module := by
  obtain ⟨c, hstages, rfl, hmajor, hminor, hsymbols, htags, hin, hout, hdata, hretain, hconst,
    htasks⟩ := compileLoaded_ok h
  have hdeclared := hstages.declared (hp.programVars hstages.decls) hp.slots
  obtain ⟨mmajor, mminor, mconst, -, mretain, min, mout⟩ := Codegen.finish_sizes hstages.finished
  obtain ⟨hdata32, hretain32⟩ := verified_sizes hstages.verified
  have hu : u32Max < 2 ^ 32 := by decide
  have hsame := hdeclared.same
  have hroom : c.bound.alloc.retain ≤ c.module.retainSize := by
    rw [← hsame.retain]
    exact (le_max_left _ _).trans mretain
  refine ⟨⟨?_, ?_, show primitiveAbi < 2 ^ 32 by decide, ?_, ?_, ?_, ?_, ?_, ?_, ?_⟩, ?_⟩
  · exact lt_of_eq_of_lt hmajor (by decide)
  · exact lt_of_eq_of_lt hminor (by decide)
  · intro s hs
    obtain ⟨x, hx, rfl⟩ := List.mem_map.mp hs
    rw [hsymbols, hsame.retainSymbols] at hx
    have hstop := (hdeclared.placed.inside x hx).trans hroom
    exact lt_of_le_of_lt ((Nat.le_add_right _ _).trans hstop) hretain32
  · intro t ht n hn
    obtain ⟨x, hx, rfl⟩ := List.mem_map.mp ht
    rw [htags, hsame.tagDictionary] at hx
    exact lt_of_le_of_lt (hdeclared.slots.tags x hx n hn) hu
  · rintro n ⟨⟩
    rw [hin, hsame.inputSlots]
    exact lt_of_le_of_lt hdeclared.slots.inputs hu
  · rintro n ⟨⟩
    rw [hout, hsame.outputSlots]
    exact lt_of_le_of_lt hdeclared.slots.outputs hu
  · rintro n ⟨⟩
    rw [hdata]
    exact hdata32
  · rintro n ⟨⟩
    rw [hretain]
    exact hretain32
  · rintro n ⟨⟩
    rw [hconst, mconst]
    decide
  · obtain ⟨layout, hlayout⟩ := hdeclared.placed.layout hroom
    have hentries : (bareManifest m).taskEntries.entries.forM (checkTaskSymbol c.module) = .ok () := by
      apply except_forM_ok_iff.mpr
      intro e he
      have hmem : e ∈ m.taskEntries := (mem_foldl_insert he).elim id fun hnil => absurd hnil List.not_mem_nil
      rw [htasks] at hmem
      obtain ⟨t, ht, rfl⟩ := (mem_taskEntries hmem).elim id fun hnil => absurd hnil List.not_mem_nil
      obtain ⟨e, he, hname⟩ := hdeclared.tasks t ht
      have hany : (c.module.entries.any fun x => x.name == "task." ++ t.name) = true :=
        List.any_eq_true.mpr ⟨e, he, beq_iff_eq.mpr hname⟩
      rw [checkTaskSymbol, if_pos hany]
    have hretainLayout : ∃ layout, Manifest.retainLayout
        { bareManifest m with compatibilityHash := hash } c.module.retainSize = .ok layout := by
      refine ⟨layout, ?_⟩
      have hlist : (bareManifest m).retainSymbols.map (fun s => (⟨s.name, s.ty, s.offset⟩ :
          SoftPlc.Retain.RetainSymbol)) =
          c.bound.retainSymbols.map fun s => ⟨s.name, s.ty, s.offset⟩ := by
        rw [bareManifest, hsymbols, hsame.retainSymbols, List.map_map]
        rfl
      rw [Manifest.retainLayout, hlist, hlayout]
      rfl
    obtain ⟨layout', hlayout'⟩ := hretainLayout
    exact crossCheck_eq hmajor hminor mmajor mminor (congrArg some (hin.trans min.symm))
      (congrArg some (hout.trans mout.symm)) (congrArg some hdata) (congrArg some hretain)
      (congrArg some hconst) hentries hlayout'

/-- A module of a compilation, small enough for a package, comes back from its bytes. -/
theorem parseSpbc_of_compiled {order : HashOrder} {p : LoadedProject} {buildId : String}
    {module : IrModule} {m : Compiler.Manifest} {blob : List UInt8} (hp : Lexed p)
    (h : compileLoaded order p buildId = .ok (module, m)) (hblob : writeSpbc module = .ok blob)
    (hsize : blob.length ≤ maxPackageBytes) : parseSpbc blob = .ok module := by
  obtain ⟨c, hstages, rfl, -, -, -, -, -, -, -, -, -, -⟩ := compileLoaded_ok h
  have hdeclared := hstages.declared (hp.programVars hstages.decls) hp.slots
  obtain ⟨mmajor, mminor, mconst, mdata, -, min, mout⟩ := Codegen.finish_sizes hstages.finished
  obtain ⟨hdata32, hretain32⟩ := verified_sizes hstages.verified
  have hu : u32Max < 2 ^ 32 := by decide
  have hmax : maxPackageBytes = 8388608 := rfl
  have hnames := writeSpbc_names hblob
  have heq := Except.ok.inj ((writeSpbc_eq hnames).symm.trans hblob)
  have hlen : (c.module.entries.flatMap entryBytes).length + c.module.code.length ≤ blob.length := by
    rw [← heq]
    simp only [List.length_append]
    omega
  have hcount := five_mul_length_le c.module.entries
  have hframed : c.module.Framed := by
    refine ⟨?_, ?_, hdata32, hretain32, ?_, ?_, ?_, ?_, by omega, by omega, hnames, ?_⟩
    · exact lt_of_eq_of_lt mmajor (by decide)
    · exact lt_of_eq_of_lt mminor (by decide)
    · rw [min, hdeclared.same.inputSlots]
      exact lt_of_le_of_lt hdeclared.slots.inputs hu
    · rw [mout, hdeclared.same.outputSlots]
      exact lt_of_le_of_lt hdeclared.slots.outputs hu
    · rw [mconst, mdata]
      rfl
    · rw [mdata]
      decide
    · exact fun e he => (hdeclared.flagged e he).2
  have hback := parseSpbc_of_framed hframed []
  have hsame : c.module.entries.map EntryPoint.byName = c.module.entries := by
    apply (List.map_congr_left ?_).trans (List.map_id' _)
    intro e he
    rw [EntryPoint.byName, ← (hdeclared.flagged e he).1]
  rw [List.append_nil, hsame, heq] at hback
  exact hback

/-- **Compile, pack and validate agree.** A package that is built from a compiled project is accepted
under every policy that asks for no signature or for the key of the build, and holds the module and
the manifest of the compilation. -/
theorem compiled_package_validates {L : Libraries} (hread : L.ReadsBack) (hsign : L.Signs)
    {order : HashOrder} {p : LoadedProject} {buildId : String} {module : IrModule}
    {m : Compiler.Manifest} {seedHex : Option String} {bytes : List UInt8} {policy : VerifyPolicy}
    (hp : Lexed p) (hcompile : compileLoaded order p buildId = .ok (module, m))
    (hbuild : buildSpkg L module (packageManifest L m) seedHex = .ok bytes)
    (hpolicy : policy.Accepts L seedHex) :
    ∃ parsed, validate L bytes policy = .ok parsed ∧ parsed.modules = [module] ∧
      parsed.manifest = { packageManifest L m with
        compatibilityHash := computeCompatibilityHash L (packageManifest L m) } := by
  obtain ⟨blob, canonical, sig, out, hblob, hsig, hfields, hcanonical, hout, hwrite⟩ :=
    buildSpkg_ok hbuild
  obtain ⟨hne, rfl, hsize⟩ := writeSpkg_ok hwrite
  obtain ⟨hlen, hcheck⟩ := signature_of hsign hsig hout
  have hagrees := agrees_of_compiled hp hcompile (computeCompatibilityHash L (packageManifest L m))
  have hfits : ((packageManifest L m).sealed L).Fits := hagrees.fits
  -- the manifest comes back from its canonical text
  have htext := Except.ok.inj ((Manifest.toJcsBytes_eq hread hfits).symm.trans hcanonical)
  subst htext
  have hmanifest := Manifest.fromJsonBytes_toJcsBytes hread hfits hfields
  have hparse := parseSpkg_spkgBytes hmanifest hne hlen hsize
  -- and the module from its bytes
  have hroom : blob.length ≤ maxPackageBytes := by
    refine le_trans ?_ hsize
    rw [spkgBytes]
    simp only [List.length_append]
    have hle : blob.length ≤ ([blob].flatMap Package.sectionBytes).length :=
      length_le_flatMap List.mem_cons_self
    omega
  have hmodule := parseSpbc_of_compiled hp hcompile hblob hroom
  obtain ⟨c, hstages, rfl, -⟩ := compileLoaded_ok hcompile
  exact ⟨_, validate_eq hparse (hcheck policy hpolicy)
    (validateSection_eq rfl hmodule hstages.verified hagrees.cross rfl), rfl, rfl⟩

/-! ## A small package -/

mutual

/-- A document without `null` and fractions. -/
def Json.plain : Json → StrictValue
  | .null => .bool false
  | .bool b => .bool b
  | .int n => .integer n
  | .float => .bool false
  | .string s => .string s
  | .array items => .array (plainItems items)
  | .object members => .object (plainMembers members)

def plainItems : List Json → List StrictValue
  | [] => []
  | j :: js => j.plain :: plainItems js

def plainMembers : List (String × Json) → List (String × StrictValue)
  | [] => []
  | (k, j) :: js => (k, j.plain) :: plainMembers js

end

mutual

theorem StrictValue.plain_json : ∀ v : StrictValue, v.json.plain = v
  | .bool _ => rfl
  | .integer _ => rfl
  | .string _ => rfl
  | .array items => congrArg StrictValue.array (plainItems_json items)
  | .object members => congrArg StrictValue.object (plainMembers_json members)

theorem plainItems_json : ∀ vs : List StrictValue, plainItems (jsonItems vs) = vs
  | [] => rfl
  | v :: vs => by rw [jsonItems, plainItems, StrictValue.plain_json v, plainItems_json vs]

theorem plainMembers_json : ∀ ms : List (String × StrictValue), plainMembers (jsonMembers ms) = ms
  | [] => rfl
  | (k, v) :: ms => by rw [jsonMembers, plainMembers, StrictValue.plain_json v, plainMembers_json ms]

end

/-- The canonical text of a value ends where it ends. -/
theorem StrictValue.toJcs_append {v w : StrictValue} {x y : List UInt8} (hx : NoDigit x)
    (hy : NoDigit y) (h : v.toJcs ++ x = w.toJcs ++ y) : v = w ∧ x = y := by
  obtain ⟨hvw, hxy, -⟩ := writeWith_append (escapeWith_unmixed unicodeEscape_unmixed)
    (escapeWith_avoids unicodeEscape_cons) (escapeWith_avoids unicodeEscape_cons) v w hx hy h
  exact ⟨hvw, hxy⟩

theorem StrictValue.toJcs_injective : Function.Injective StrictValue.toJcs := by
  intro v w h
  have hnil : NoDigit [] := by
    intro b hb
    cases hb
  exact (StrictValue.toJcs_append hnil hnil (congrArg (· ++ []) h)).1

open Classical in
/-- Libraries that print canonical texts and read them back. -/
noncomputable def demoLibraries : Libraries where
  jsonRead bytes :=
    if h : ∃ v : StrictValue, v.toJcs = bytes then .ok (h.choose.json, none)
    else .error "expected value"
  located _ e := e
  typedError _ := "invalid type"
  jsonPrint j := j.plain.toJcs
  semver version := if version = "1.0.0" then .ok () else .error "unexpected character"
  sha256 _ := minimalDigest
  publicKey seed := seed
  sign _ _ := List.replicate signatureLen 1
  verify _ _ sig := sig = List.replicate signatureLen 1

theorem demoLibraries_readsBack : demoLibraries.ReadsBack := by
  have hread : ∀ v : StrictValue, demoLibraries.jsonRead v.toJcs = .ok (v.json, none) := by
    intro v
    have hex : ∃ w : StrictValue, w.toJcs = v.toJcs := ⟨v, rfl⟩
    have hsame : hex.choose = v := StrictValue.toJcs_injective hex.choose_spec
    refine (dif_pos hex).trans ?_
    rw [hsame]
  refine ⟨?_, ?_, fun v _ => hread v⟩
  · intro members
    obtain ⟨rest, hrest⟩ := isText_members true (plainMembers members)
    refine ⟨rest, ?_⟩
    rw [utf8_append, ← hrest]
    rfl
  · intro v _
    have hprint : demoLibraries.jsonPrint v.json = v.toJcs :=
      congrArg StrictValue.toJcs v.plain_json
    rw [hprint]
    exact hread v

theorem demoLibraries_signs : demoLibraries.Signs where
  length _ _ := List.length_replicate
  nonzero _ _ := show List.replicate signatureLen (1 : UInt8) ≠ List.replicate signatureLen 0 by decide
  verified _ _ := by simp [demoLibraries]

/-- A project with one empty program. -/
def demoProject : LoadedProject where
  units := [⟨[.program ⟨"main", [], []⟩]⟩]
  file := { id := "demo", version := "1.0.0", task := [⟨"main", "main"⟩] }

/-- The empty program is compiled, packed without a signature and accepted. -/
theorem demo_package_validates :
    ∃ module m bytes parsed, compileLoaded .listed demoProject "b1" = .ok (module, m) ∧
      buildSpkg demoLibraries module (packageManifest demoLibraries m) none = .ok bytes ∧
      validate demoLibraries bytes .unsigned = .ok parsed ∧ parsed.modules = [module] := by
  obtain ⟨⟨module, m⟩, hc, hnames, hfields, hsize⟩ :
      ∃ r, compileLoaded .listed demoProject "b1" = .ok r ∧
        (∀ e ∈ r.1.entries, (utf8 e.name).length ≤ 255) ∧
        (((packageManifest demoLibraries r.2).sealed demoLibraries).validateFields
          demoLibraries).toOption = some () ∧
        (spkgBytes (StrictValue.object ((packageManifest demoLibraries r.2).sealed
          demoLibraries).sortedDocument).toJcs
          [headerBytes r.1 ++ (r.1.entries.flatMap entryBytes ++ (r.1.constData ++ r.1.code))]
          (List.replicate signatureLen 0)).length ≤ maxPackageBytes :=
    except_of_decide (by decide +kernel)
  have hlexed : Lexed demoProject := by
    refine ⟨?_, by simp [demoProject]⟩
    intro u hu prog hprog x hx
    simp only [demoProject, List.map_nil, List.nil_append, List.mem_singleton] at hu
    subst hu
    cases List.mem_singleton.mp hprog
    cases hx
  have hfits : ((packageManifest demoLibraries m).sealed demoLibraries).Fits :=
    (agrees_of_compiled hlexed hc _).fits
  have hbuild := buildSpkg_unsigned (writeSpbc_eq hnames) (except_of_toOption hfields)
    (Manifest.toJcsBytes_eq demoLibraries_readsBack hfits) (writeSpkg_eq (by simp) hsize)
  obtain ⟨parsed, hvalid, hmodules, -⟩ := compiled_package_validates demoLibraries_readsBack
    demoLibraries_signs hlexed hc hbuild (show VerifyPolicy.Accepts .unsigned _ none from .inl rfl)
  exact ⟨module, m, _, parsed, hc, hbuild, hvalid, hmodules⟩

end SoftPlc.Package

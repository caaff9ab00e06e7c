import SoftPlc.Ir.Spbc
import SoftPlc.Ir.Verify
import SoftPlc.Lib.SortedMap
import SoftPlc.Package.Jcs

/-!
# The manifest of a package

`Manifest.fromJsonBytes` reads a manifest: the strict gate of `jcs.rs` first, then the typed reader
that serde derives, then the checks of the fields. The JSON reader and printer of `serde_json`, the
semver parser, SHA-256 and Ed25519 are not part of the repository; they are a parameter
(`Libraries`). What is modelled of the readers is everything after the syntax of the text.
-/

namespace SoftPlc.Package

open SoftPlc.Ir SoftPlc.Lib

/-! ## Errors -/

/-- Source: `error.rs`, `PackageError`. -/
inductive PackageError where
  | tooLarge (len : ℕ)
  | badMagic
  | cborRejected
  | unsupportedVersion (version : ℕ)
  | truncated (what : String)
  | trailingBytes
  | json (message : String)
  | jcs (message : String)
  | manifest (message : String)
  | signature
  | unsigned
  | sectionCount (count : ℕ)
  | spbc (e : IrError)
  | verify (e : VerifyError)
  | manifestSpbcMismatch (message : String)
  | compatibilityHash
  | invalidProgramId (id : String)

/-! ## Libraries -/

/-- A JSON document as `serde_json` hands it to a visitor. The members of an object stand in the order
of the text, repeated keys included. -/
inductive Json where
  | null
  | bool (b : Bool)
  /-- A number without fraction and exponent that fits 64 bits. -/
  | int (n : ℤ)
  /-- Any other number. -/
  | float
  | string (s : String)
  | array (items : List Json)
  | object (members : List (String × Json))

/-- Code that the repository calls and does not contain. -/
structure Libraries where
  /-- `serde_json::Deserializer::from_slice`: the document at the start of a text, and the error of
  `end` if more than white space follows. -/
  jsonRead : List UInt8 → Except String (Json × Option String)
  /-- The text of a visitor's error with its position. -/
  located : List UInt8 → String → String
  /-- The text of the error of a derived reader. -/
  typedError : List UInt8 → String
  /-- `serde_json::to_vec`. -/
  jsonPrint : Json → List UInt8
  /-- `semver::Version::parse`. -/
  semver : String → Except String Unit
  /-- SHA-256. -/
  sha256 : List UInt8 → List UInt8
  /-- The public key of an Ed25519 seed. -/
  publicKey : List UInt8 → List UInt8
  /-- Ed25519 signature of a message under a seed. -/
  sign : List UInt8 → List UInt8 → List UInt8
  /-- Ed25519 verification of a signature of a message under a public key. -/
  verify : List UInt8 → List UInt8 → List UInt8 → Bool

/-! ## The strict gate -/

/-- Source: `jcs.rs`, `is_json_ws`. -/
def isJsonWs (b : UInt8) : Bool := b = 0x20 || b = 0x09 || b = 0x0A || b = 0x0D

/-- Source: `jcs.rs`, `is_json_ws_char`. -/
def isJsonWsChar (c : Char) : Bool := c = ' ' || c = '\t' || c = '\n' || c = '\r'

/-- Source: `jcs.rs`, `is_json_start`. -/
def isJsonStart (b : UInt8) : Bool :=
  b = 0x7B || b = 0x5B || b = 0x22 || b = 0x74 || b = 0x66 || b = 0x6E || b = 0x2D ||
    (0x30 ≤ b && b ≤ 0x39)

/-- Source: `jcs.rs`, `looks_like_cbor`. -/
def looksLikeCbor (bytes : List UInt8) : Bool :=
  if [0xD9, 0xD9, 0xF7].isPrefixOf bytes then true
  else
    match bytes.find? fun b => !isJsonWs b with
    | none => false
    | some first =>
        if isJsonStart first then false
        else 0x80 ≤ first || first >>> 5 = 2 || first >>> 5 = 4 || first >>> 5 = 5 || first >>> 5 = 6

mutual

/-- Source: `jcs.rs`, `StrictVisitor`. -/
def Json.strict : Json → Except String StrictValue
  | .null => .error "null is not allowed in package manifests"
  | .bool b => .ok (.bool b)
  | .int n =>
      if -2 ^ 63 ≤ n ∧ n < 2 ^ 63 then .ok (.integer n) else .error "integer out of i64 range"
  | .float => .error "floating-point numbers are not allowed in package manifests (JCS)"
  | .string s => .ok (.string s)
  | .array items => do
      let items ← strictItems items
      .ok (.array items)
  | .object members => do
      let members ← strictMembers members []
      .ok (.object members)

/-- Source: `jcs.rs`, `StrictVisitor::visit_seq`. -/
def strictItems : List Json → Except String (List StrictValue)
  | [] => .ok []
  | j :: js => do
      let v ← j.strict
      let vs ← strictItems js
      .ok (v :: vs)

/-- Source: `jcs.rs`, `StrictVisitor::visit_map`. -/
def strictMembers :
    List (String × Json) → List (String × StrictValue) → Except String (List (String × StrictValue))
  | [], obj => .ok obj
  | (key, j) :: js, obj => do
      let v ← j.strict
      if (obj.lookup key).isSome then .error ("duplicate key " ++ key.quote)
      else strictMembers js (insertSorted key v obj)

end

/-- Read a text and refuse what follows it. -/
def readWhole {α : Type} (L : Libraries) (bytes : List UInt8) (read : Json → Except String α) :
    Except PackageError α :=
  match L.jsonRead bytes with
  | .error e => .error (.json e)
  | .ok (j, trailing) =>
      match read j with
      | .error e => .error (.json e)
      | .ok a =>
          match trailing with
          | some e => .error (.json ("trailing data after JSON: " ++ e))
          | none => .ok a

/-- What is refused before the text is read as JSON. Source: `jcs.rs`, the guards of
`parse_strict_json`. -/
def checkJsonText (bytes : List UInt8) : Except PackageError Unit :=
  match ofUtf8 bytes with
  | none => .error (if looksLikeCbor bytes then .cborRejected else .json "manifest is not UTF-8")
  | some text =>
      match text.toList.dropWhile isJsonWsChar with
      | [] => .error (.json "empty manifest")
      | c :: _ =>
          if c = '\x7b' then .ok ()
          else .error (if looksLikeCbor bytes then .cborRejected
            else .json "manifest must be a JSON object (package major 1)")

/-- Source: `jcs.rs`, `parse_strict_json`. -/
def parseStrictJson (L : Libraries) (bytes : List UInt8) : Except PackageError StrictValue := do
  checkJsonText bytes
  let value ← readWhole L bytes fun j => j.strict.mapError (L.located bytes)
  match value with
  | .object members => .ok (.object members)
  | _ => .error (.json "manifest must be a JSON object")

/-! ## Manifests -/

/-- Source: `manifest.rs`, `RestartPolicy`. -/
inductive RestartPolicy where
  | safeReset
  | bumpless
  deriving DecidableEq, Repr

/-- Source: `manifest.rs`, `TagKind`. -/
inductive TagKind where
  | i
  | q
  | m
  | r
  | internal
  deriving DecidableEq, Repr

/-- Source: `manifest.rs`, `ManifestRetainSymbol`. -/
structure ManifestRetainSymbol where
  name : String
  ty : IrType
  offset : ℕ
  deriving DecidableEq, Repr

/-- Source: `manifest.rs`, `TagEntry`. -/
structure TagEntry where
  name : String
  ty : IrType
  kind : TagKind
  slot : Option ℕ
  deriving DecidableEq, Repr

/-- Source: `manifest.rs`, `Manifest`. -/
structure Manifest where
  id : String
  version : String
  buildId : String
  irMajor : ℕ
  irMinor : ℕ
  primitiveAbi : ℕ
  taskEntries : SortedMap String String
  retainSymbols : List ManifestRetainSymbol
  tagDictionary : List TagEntry
  restartPolicy : RestartPolicy
  compatibilityHash : String
  inputSlots : Option ℕ := none
  outputSlots : Option ℕ := none
  dataSize : Option ℕ := none
  retainSize : Option ℕ := none
  constSize : Option ℕ := none
  deriving DecidableEq

/-- Source: `manifest.rs`, `IrTypeName::as_str`. -/
def typeName : IrType → String
  | .bool => "BOOL"
  | .int => "INT"
  | .dint => "DINT"
  | .real => "REAL"
  | .time => "TIME"
  | .lint => "LINT"

/-- Source: `manifest.rs`, `IrTypeName::from_str`. -/
def typeOfName : String → Option IrType
  | "BOOL" => some .bool
  | "INT" => some .int
  | "DINT" => some .dint
  | "REAL" => some .real
  | "TIME" => some .time
  | "LINT" => some .lint
  | _ => none

/-- Source: `manifest.rs`, `serde(rename_all = "snake_case")` of `RestartPolicy`. -/
def restartName : RestartPolicy → String
  | .safeReset => "safe_reset"
  | .bumpless => "bumpless"

/-- The same, read. -/
def restartOfName : String → Option RestartPolicy
  | "safe_reset" => some .safeReset
  | "bumpless" => some .bumpless
  | _ => none

/-- Source: `manifest.rs`, `serde(rename_all = "UPPERCASE")` of `TagKind`. -/
def kindName : TagKind → String
  | .i => "I"
  | .q => "Q"
  | .m => "M"
  | .r => "R"
  | .internal => "INTERNAL"

/-- The same, read. -/
def kindOfName : String → Option TagKind
  | "I" => some .i
  | "Q" => some .q
  | "M" => some .m
  | "R" => some .r
  | "INTERNAL" => some .internal
  | _ => none

/-! ## Readers and printers that serde derives

A derived reader takes the fields of a record from an object by name, each at most once, and refuses
other names; it also takes them from an array, in the order of declaration. An `enum` may also be
written as an object that holds `null`, which the strict gate refuses before. -/

/-- Source: `derive(Deserialize)` with `deny_unknown_fields`. -/
def recordFields (names : List String) : Json → Option (List (String × Json))
  | .object members =>
      if (members.map Prod.fst).all (names.contains ·) ∧ (members.map Prod.fst).Nodup then
        some members
      else none
  | .array items => if items.length ≤ names.length then some (names.zip items) else none
  | _ => none

def readString : Json → Option String
  | .string s => some s
  | _ => none

/-- An unsigned integer of `w` bits. -/
def readUInt (w : ℕ) : Json → Option ℕ
  | .int n => if 0 ≤ n ∧ n < 2 ^ w then some n.toNat else none
  | _ => none

/-- A field that may be missing. Source: `serde(default)` of an `Option<u32>`. -/
def readOptional (fields : List (String × Json)) (name : String) : Option (Option ℕ) :=
  match fields.lookup name with
  | none => some none
  | some .null => some none
  | some j => (readUInt 32 j).map some

/-- A field that must be there. -/
def readField {α : Type} (fields : List (String × Json)) (name : String) (read : Json → Option α) :
    Option α := (fields.lookup name).bind read

def readList {α : Type} (read : Json → Option α) : Json → Option (List α)
  | .array items => items.mapM read
  | _ => none

/-- Source: `BTreeMap<String, String>`, where a later entry replaces an earlier one. -/
def readStringMap : Json → Option (SortedMap String String)
  | .object members => members.foldlM (fun m e => do
      let value ← readString e.2
      some (m.insert e.1 value)) .empty
  | _ => none

/-- Source: `manifest.rs`, `derive(Deserialize)` of `ManifestRetainSymbol`. -/
def ManifestRetainSymbol.ofJson (j : Json) : Option ManifestRetainSymbol := do
  let fields ← recordFields ["name", "type", "offset"] j
  let name ← readField fields "name" readString
  let ty ← readField fields "type" fun j => (readString j).bind typeOfName
  let offset ← readField fields "offset" (readUInt 32)
  some ⟨name, ty, offset⟩

/-- Source: `manifest.rs`, `derive(Deserialize)` of `TagEntry`. -/
def TagEntry.ofJson (j : Json) : Option TagEntry := do
  let fields ← recordFields ["name", "type", "kind", "slot"] j
  let name ← readField fields "name" readString
  let ty ← readField fields "type" fun j => (readString j).bind typeOfName
  let kind ← readField fields "kind" fun j => (readString j).bind kindOfName
  let slot ← readOptional fields "slot"
  some ⟨name, ty, kind, slot⟩

/-- The keys of a manifest, in the order of the source. -/
def manifestKeys : List String :=
  ["id", "version", "build_id", "ir_major", "ir_minor", "primitive_abi", "task_entries",
    "retain_symbols", "tag_dictionary", "restart_policy", "compatibility_hash", "input_slots",
    "output_slots", "data_size", "retain_size", "const_size"]

/-- Source: `manifest.rs`, `derive(Deserialize)` of `Manifest`. -/
def Manifest.ofJson (j : Json) : Option Manifest := do
  let fields ← recordFields manifestKeys j
  let id ← readField fields "id" readString
  let version ← readField fields "version" readString
  let buildId ← readField fields "build_id" readString
  let irMajor ← readField fields "ir_major" (readUInt 16)
  let irMinor ← readField fields "ir_minor" (readUInt 16)
  let primitiveAbi ← readField fields "primitive_abi" (readUInt 32)
  let taskEntries ← readField fields "task_entries" readStringMap
  let retainSymbols ← readField fields "retain_symbols" (readList ManifestRetainSymbol.ofJson)
  let tagDictionary ← readField fields "tag_dictionary" (readList TagEntry.ofJson)
  let restartPolicy ← readField fields "restart_policy" fun j => (readString j).bind restartOfName
  let compatibilityHash ← readField fields "compatibility_hash" readString
  let inputSlots ← readOptional fields "input_slots"
  let outputSlots ← readOptional fields "output_slots"
  let dataSize ← readOptional fields "data_size"
  let retainSize ← readOptional fields "retain_size"
  let constSize ← readOptional fields "const_size"
  some ⟨id, version, buildId, irMajor, irMinor, primitiveAbi, taskEntries, retainSymbols,
    tagDictionary, restartPolicy, compatibilityHash, inputSlots, outputSlots, dataSize, retainSize,
    constSize⟩

/-- A field that is left out when it is `None`. Source: `skip_serializing_if = "Option::is_none"`. -/
def optionalField (name : String) : Option ℕ → List (String × Json)
  | none => []
  | some n => [(name, .int n)]

/-- Source: `manifest.rs`, `derive(Serialize)` of `ManifestRetainSymbol`. -/
def ManifestRetainSymbol.toJson (s : ManifestRetainSymbol) : Json :=
  .object [("name", .string s.name), ("type", .string (typeName s.ty)), ("offset", .int s.offset)]

/-- Source: `manifest.rs`, `derive(Serialize)` of `TagEntry`. -/
def TagEntry.toJson (t : TagEntry) : Json :=
  .object ([("name", .string t.name), ("type", .string (typeName t.ty)),
    ("kind", .string (kindName t.kind))] ++ optionalField "slot" t.slot)

/-- Source: `manifest.rs`, `derive(Serialize)` of `Manifest`. -/
def Manifest.toJson (m : Manifest) : Json :=
  .object ([("id", .string m.id), ("version", .string m.version), ("build_id", .string m.buildId),
    ("ir_major", .int m.irMajor), ("ir_minor", .int m.irMinor),
    ("primitive_abi", .int m.primitiveAbi),
    ("task_entries", .object (m.taskEntries.entries.map fun e => (e.1, .string e.2))),
    ("retain_symbols", .array (m.retainSymbols.map ManifestRetainSymbol.toJson)),
    ("tag_dictionary", .array (m.tagDictionary.map TagEntry.toJson)),
    ("restart_policy", .string (restartName m.restartPolicy)),
    ("compatibility_hash", .string m.compatibilityHash)] ++
    (optionalField "input_slots" m.inputSlots ++ (optionalField "output_slots" m.outputSlots ++
      (optionalField "data_size" m.dataSize ++ (optionalField "retain_size" m.retainSize ++
        optionalField "const_size" m.constSize)))))

/-! ## Checks -/

/-- Source: `u8::is_ascii_alphanumeric`. -/
def isAsciiAlphanumeric (b : UInt8) : Bool :=
  (0x30 ≤ b && b ≤ 0x39) || (0x41 ≤ b && b ≤ 0x5A) || (0x61 ≤ b && b ≤ 0x7A)

/-- Source: `manifest.rs`, `validate_program_id`. -/
def validateProgramId (id : String) : Except PackageError Unit :=
  if id = "" ∨ id = "." ∨ id = ".." ∨
      ¬(utf8 id).all fun b => isAsciiAlphanumeric b || b = 0x2E || b = 0x5F || b = 0x2D then
    .error (.invalidProgramId id)
  else .ok ()

/-- Source: `manifest.rs`, `is_lowercase_hex_sha256`. -/
def isLowercaseHexSha256 (s : String) : Bool :=
  (utf8 s).length = 64 && (utf8 s).all fun b => (0x30 ≤ b && b ≤ 0x39) || (0x61 ≤ b && b ≤ 0x66)

/-- ASCII control characters. Source: `manifest.rs`, the closure of `reject_ascii_controls`. -/
def isAsciiControl (b : UInt8) : Bool := b < 0x20 || b = 0x7F

/-- Source: `manifest.rs`, `reject_ascii_controls`. -/
def rejectAsciiControls (label name : String) : Except PackageError Unit :=
  if (utf8 name).any isAsciiControl then
    .error (.manifest (label ++ " must not contain ASCII control characters"))
  else .ok ()

/-- Source: `manifest.rs`, the loop of `validate_fields` over `task_entries`. -/
def checkTaskEntry (e : String × String) : Except PackageError Unit :=
  if e.1 = "" ∨ e.2 = "" then
    .error (.manifest "task_entries keys and values must be non-empty")
  else rejectAsciiControls "task name" e.1

/-- Source: `manifest.rs`, the loop of `validate_fields` over `tag_dictionary`. -/
def checkTag (t : TagEntry) : Except PackageError Unit :=
  if t.kind = .q then rejectAsciiControls "%Q name" t.name else .ok ()

/-- Source: `manifest.rs`, `Manifest::validate_fields`. -/
def Manifest.validateFields (L : Libraries) (m : Manifest) : Except PackageError Unit := do
  validateProgramId m.id
  match L.semver m.version with
  | .error e => .error (.manifest ("version " ++ m.version.quote ++ " is not semver: " ++ e))
  | .ok () => do
      if m.buildId = "" then .error (.manifest "build_id must be non-empty")
      else if m.taskEntries.entries = [] then .error (.manifest "task_entries must not be empty")
      else do
        m.taskEntries.entries.forM checkTaskEntry
        m.retainSymbols.forM fun s => rejectAsciiControls "retain name" s.name
        m.tagDictionary.forM checkTag
        if isLowercaseHexSha256 m.compatibilityHash then .ok ()
        else .error (.manifest "compatibility_hash must be 64 lowercase hex characters")

/-- The manifest and its canonical text. Source: `manifest.rs`, `Manifest::from_json_bytes`. -/
def Manifest.fromJsonBytes (L : Libraries) (bytes : List UInt8) :
    Except PackageError (Manifest × List UInt8) := do
  let strict ← parseStrictJson L bytes
  let manifest ← readWhole L bytes fun j =>
    match Manifest.ofJson j with
    | some m => .ok m
    | none => .error (L.typedError bytes)
  manifest.validateFields L
  .ok (manifest, strict.toJcs)

/-- Source: `manifest.rs`, `Manifest::to_jcs_bytes`. -/
def Manifest.toJcsBytes (L : Libraries) (m : Manifest) : Except PackageError (List UInt8) := do
  let strict ← parseStrictJson L (L.jsonPrint m.toJson)
  .ok strict.toJcs

/-! ## Readers that succeed -/

section Readers

variable {L : Libraries} {bytes : List UInt8} {j : Json} {members : List (String × StrictValue)}

/-- A text that starts with a brace passes the guards. -/
theorem checkJsonText_brace (rest : String) : checkJsonText (utf8 ("\x7b" ++ rest)) = .ok () := by
  have hhead : ("\x7b" ++ rest).toList = '\x7b' :: rest.toList := by
    rw [String.toList_append]
    rfl
  unfold checkJsonText
  rw [ofUtf8_utf8]
  dsimp only
  rw [hhead, List.dropWhile_cons_of_neg (by decide)]
  rfl

theorem readWhole_ok {α : Type} {read : Json → Except String α} {a : α}
    (hread : L.jsonRead bytes = .ok (j, none)) (h : read j = .ok a) :
    readWhole L bytes read = .ok a := by
  rw [readWhole, hread]
  dsimp only
  rw [h]

theorem parseStrictJson_eq (htext : checkJsonText bytes = .ok ())
    (hread : L.jsonRead bytes = .ok (j, none)) (hstrict : j.strict = .ok (.object members)) :
    parseStrictJson L bytes = .ok (.object members) := by
  have hwhole : readWhole L bytes (fun j => j.strict.mapError (L.located bytes)) =
      .ok (.object members) := by
    apply readWhole_ok hread
    rw [hstrict]
    rfl
  rw [parseStrictJson, htext]
  dsimp only [bind, Except.bind]
  rw [hwhole]

/-- A manifest is read with the canonical text of its document. -/
theorem fromJsonBytes_eq {m : Manifest} (htext : checkJsonText bytes = .ok ())
    (hread : L.jsonRead bytes = .ok (j, none)) (hstrict : j.strict = .ok (.object members))
    (hof : Manifest.ofJson j = some m) (hfields : m.validateFields L = .ok ()) :
    Manifest.fromJsonBytes L bytes = .ok (m, (StrictValue.object members).toJcs) := by
  rw [Manifest.fromJsonBytes, parseStrictJson_eq htext hread hstrict]
  dsimp only [bind, Except.bind]
  rw [readWhole_ok (a := m) hread (by rw [hof])]
  dsimp only
  rw [hfields]

/-- An accepted manifest passed the strict gate as an object. -/
theorem fromJsonBytes_ok {m : Manifest} {canonical : List UInt8}
    (h : Manifest.fromJsonBytes L bytes = .ok (m, canonical)) :
    (∃ members, parseStrictJson L bytes = .ok (.object members) ∧
      canonical = (StrictValue.object members).toJcs) ∧ m.validateFields L = .ok () := by
  rw [Manifest.fromJsonBytes] at h
  obtain ⟨strict, hstrict, h⟩ := except_bind_ok.mp h
  obtain ⟨m', -, h⟩ := except_bind_ok.mp h
  obtain ⟨⟨⟩, hfields, h⟩ := except_bind_ok.mp h
  cases h
  refine ⟨?_, hfields⟩
  have hobject := hstrict
  rw [parseStrictJson] at hobject
  obtain ⟨-, -, hobject⟩ := except_bind_ok.mp hobject
  obtain ⟨value, -, hobject⟩ := except_bind_ok.mp hobject
  split at hobject
  · cases hobject
    exact ⟨_, hstrict, rfl⟩
  · cases hobject

end Readers

end SoftPlc.Package

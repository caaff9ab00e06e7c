import SoftPlc.Package.Build

/-!
# The program store

`plc-api/src/program_store.rs`: a directory that holds one directory per program, with the files
`package.spkg` and `meta.json`, and beside them the pointer files `current` and `armed`.

Nothing else writes below the root, so a `Disk` has two levels. Of the failures of a file system only
those are modelled that an entry of the wrong kind causes.
-/

namespace SoftPlc.Api

open SoftPlc.Lib SoftPlc.Package

/-! ## Errors -/

/-- Source: `plc-api/src/error.rs`, `ApiError`. -/
structure ApiError where
  status : ℕ
  error : String
  code : String
  message : String
  deriving DecidableEq, Repr

namespace ApiError

/-- Source: `error.rs`, `ApiError::conflict`. -/
def conflict (code message : String) : ApiError := ⟨409, "conflict", code, message⟩

/-- Source: `error.rs`, `ApiError::not_found`. -/
def notFound (message : String) : ApiError := ⟨404, "not_found", "not_found", message⟩

/-- Source: `error.rs`, `ApiError::bad_request`. -/
def badRequest (code message : String) : ApiError := ⟨400, "bad_request", code, message⟩

/-- Source: `error.rs`, `ApiError::too_large`. -/
def tooLarge (len : ℕ) : ApiError :=
  ⟨413, "too_large", "package_too_large", "upload exceeds limit (" ++ toString len ++ " bytes)"⟩

/-- Source: `error.rs`, `ApiError::internal`. -/
def internal (message : String) : ApiError := ⟨500, "internal", "internal", message⟩

/-- Source: `error.rs`, `package_err`. -/
def ofPackage : PackageError → ApiError
  | .tooLarge n => tooLarge n
  | e => badRequest "validation" e.text

end ApiError

/-- Use a result of `plc-package`; a panic ends the request. Source: `error.rs`,
`impl From<PackageError> for ApiError`. -/
def orApiError {α : Type} : Except PackageFault α → Except ApiError α
  | .ok a => .ok a
  | .error (.err e) => .error (.ofPackage e)
  | .error .panic => .error (.internal "panic")

/-! ## Files -/

/-- An entry of the root directory. -/
inductive Node where
  | file (bytes : List UInt8)
  | dir (files : SortedMap String (List UInt8))

/-- The root directory. -/
abbrev Disk := SortedMap String Node

namespace Disk

/-- `fs::create_dir_all`. -/
def createDirAll (disk : Disk) (name : String) : Except ApiError Disk :=
  match disk.get name with
  | some (.file _) => .error (.internal "File exists (os error 17)")
  | some (.dir _) => .ok disk
  | none => .ok (disk.insert name (.dir .empty))

/-- `Path::is_dir`. -/
def isDir (disk : Disk) (name : String) : Bool :=
  match disk.get name with
  | some (.dir _) => true
  | _ => false

/-- `fs::read` of a file of a directory. -/
def readIn (disk : Disk) (dir file : String) : Option (List UInt8) :=
  match disk.get dir with
  | some (.dir files) => files.get file
  | _ => none

/-- `fs::write` of a file of a directory. -/
def writeIn (disk : Disk) (dir file : String) (bytes : List UInt8) : Except ApiError Disk :=
  match disk.get dir with
  | some (.dir files) => .ok (disk.insert dir (.dir (files.insert file bytes)))
  | some (.file _) => .error (.internal "Not a directory (os error 20)")
  | none => .error (.internal "No such file or directory (os error 2)")

/-- `fs::rename` within a directory. -/
def renameIn (disk : Disk) (dir source target : String) : Except ApiError Disk :=
  match disk.get dir with
  | some (.dir files) =>
      match files.get source with
      | some bytes => .ok (disk.insert dir (.dir ((files.erase source).insert target bytes)))
      | none => .error (.internal "No such file or directory (os error 2)")
  | some (.file _) => .error (.internal "Not a directory (os error 20)")
  | none => .error (.internal "No such file or directory (os error 2)")

/-- `fs::write` of a file of the root. -/
def write (disk : Disk) (name : String) (bytes : List UInt8) : Except ApiError Disk :=
  match disk.get name with
  | some (.dir _) => .error (.internal "Is a directory (os error 21)")
  | _ => .ok (disk.insert name (.file bytes))

/-- `fs::remove_file` of a file of the root that is there. -/
def removeFile (disk : Disk) (name : String) : Except ApiError Disk :=
  match disk.get name with
  | some (.dir _) => .error (.internal "Is a directory (os error 21)")
  | _ => .ok (disk.erase name)

/-- `fs::read_to_string` of a file of the root. -/
def readToString (disk : Disk) (name : String) : Option String :=
  match disk.get name with
  | some (.file bytes) => ofUtf8 bytes
  | _ => none

end Disk

/-! ## The store -/

/-- Source: `program_store.rs`, `StoredMeta`. -/
structure StoredMeta where
  id : String
  version : String
  buildId : String
  compatibilityHash : String
  size : ℕ
  uploader : Option String
  storedAt : ℕ
  deriving DecidableEq, Repr, Inhabited

/-- `serde_json` on `StoredMeta`. -/
structure MetaJson where
  /-- `serde_json::to_vec_pretty`. -/
  print : StoredMeta → List UInt8
  /-- `serde_json::from_str` on the text of a file. -/
  read : List UInt8 → Except String StoredMeta

/-- What was printed is read back. -/
def MetaJson.ReadsBack (J : MetaJson) : Prop := ∀ m, J.read (J.print m) = .ok m

/-- The order in which `fs::read_dir` lists a directory. -/
structure DirOrder where
  listed : List (String × Node) → List (String × Node)
  perm : ∀ entries, (listed entries).Perm entries

/-- Names that `set_pointer` and `pointer` are called with. -/
inductive Pointer where
  | current
  | armed
  deriving DecidableEq, Repr

/-- The file of a pointer. Source: `plc-api/src/state.rs`, `sync_program_pointers`. -/
def Pointer.name : Pointer → String
  | .current => "current"
  | .armed => "armed"

variable (L : Libraries) (J : MetaJson)

/-- Source: `program_store.rs`, the `StoredMeta` of `put`. -/
def storedMeta (m : Manifest) (bytes : List UInt8) (uploader : Option String) (storedAt : ℕ) :
    StoredMeta :=
  ⟨m.id, m.version, m.buildId, m.compatibilityHash, bytes.length, uploader, storedAt⟩

/-- Source: `program_store.rs`, `load_meta`. -/
def loadMeta (disk : Disk) (id : String) : Except ApiError StoredMeta :=
  match disk.readIn id "meta.json" with
  | none => .error (.internal "No such file or directory (os error 2)")
  | some bytes =>
      match J.read bytes with
      | .ok m => .ok m
      | .error e => .error (.internal e)

namespace ProgramStore

/-- The package file. Source: `program_store.rs`, the first half of `put`. -/
def putPackage (disk : Disk) (id : String) (bytes : List UInt8) : Except ApiError Disk := do
  let disk ← disk.createDirAll id
  let disk ← disk.writeIn id "package.spkg.tmp" bytes
  disk.renameIn id "package.spkg.tmp" "package.spkg"

/-- The metadata file. Source: `program_store.rs`, the second half of `put`. -/
def putMeta (disk : Disk) (m : StoredMeta) : Except ApiError Disk :=
  disk.writeIn m.id "meta.json" (J.print m)

/-- What `put` reads from a package. Source: `program_store.rs`, the first lines of `put`. -/
def parsePut (bytes : List UInt8) : Except ApiError Manifest := do
  let parsed ← orApiError (parseSpkg L bytes)
  match validateProgramId parsed.manifest.id with
  | .error e => .error (.badRequest "validation" e.text)
  | .ok () => .ok parsed.manifest

/-- Source: `program_store.rs`, `ProgramStore::put`. -/
def put (disk : Disk) (bytes : List UInt8) (uploader : Option String) (storedAt : ℕ) :
    Except ApiError (StoredMeta × Disk) := do
  let manifest ← parsePut L bytes
  let disk ← putPackage disk manifest.id bytes
  let disk ← putMeta J disk (storedMeta manifest bytes uploader storedAt)
  .ok (storedMeta manifest bytes uploader storedAt, disk)

/-- Source: `program_store.rs`, `ProgramStore::get`. -/
def get (disk : Disk) (id : String) : Except ApiError (StoredMeta × List UInt8) :=
  match validateProgramId id with
  | .error _ => .error (.notFound id)
  | .ok () =>
      if disk.isDir id then do
        let m ← loadMeta J disk id
        match disk.readIn id "package.spkg" with
        | some bytes => .ok (m, bytes)
        | none => .error (.notFound ("program '" ++ id ++ "'"))
      else .error (.notFound ("program '" ++ id ++ "'"))

/-- A directory with metadata. Source: `program_store.rs`, the tests in the `for` of `list`. -/
def hasMeta (e : String × Node) : Bool :=
  match e.2 with
  | .dir files => (files.get "meta.json").isSome
  | .file _ => false

/-- Source: `program_store.rs`, `ProgramStore::list`. -/
def list (order : DirOrder) (disk : Disk) : Except ApiError (List StoredMeta) := do
  let out ← ((order.listed disk.entries).filter hasMeta).mapM fun e => loadMeta J disk e.1
  .ok (sortByKey StoredMeta.id out)

/-- Source: `program_store.rs`, `ProgramStore::delete`. -/
def delete (disk : Disk) (id : String) : Except ApiError Disk :=
  match validateProgramId id with
  | .error _ => .error (.notFound id)
  | .ok () =>
      if disk.isDir id then .ok (disk.erase id)
      else .error (.notFound ("program '" ++ id ++ "'"))

/-- Source: `program_store.rs`, `ProgramStore::set_pointer`. -/
def setPointer (disk : Disk) (name : String) : Option String → Except ApiError Disk
  | some id => disk.write name (utf8 id)
  | none => if (disk.get name).isSome then disk.removeFile name else .ok disk

/-- Source: `program_store.rs`, `ProgramStore::pointer`. -/
def pointer (disk : Disk) (name : String) : Option String :=
  match disk.readToString name with
  | none => none
  | some text => if trim text = [] then none else some (String.ofList (trim text))

end ProgramStore

/-! ## What the file operations do -/

section Files

variable {L J} {disk disk' : Disk} {name : String} {bytes : List UInt8}

/-- Only one entry of the root changed. -/
def Disk.Frame (disk disk' : Disk) (name : String) : Prop := ∀ k, k ≠ name → disk'.get k = disk.get k

theorem Disk.Frame.trans {disk'' : Disk} (h : disk.Frame disk' name) (h' : disk'.Frame disk'' name) :
    disk.Frame disk'' name := by
  intro k hk
  rw [h' k hk, h k hk]

theorem Disk.frame_insert (node : Node) : disk.Frame (disk.insert name node) name :=
  fun _ hk => SortedMap.get_insert_of_ne hk

theorem createDirAll_ok (h : ∀ bytes, disk.get name ≠ some (.file bytes)) :
    ∃ disk' files, disk.createDirAll name = .ok disk' ∧ disk'.get name = some (.dir files) ∧
      disk.Frame disk' name := by
  unfold Disk.createDirAll
  split
  · rename_i bytes hfile
    exact absurd hfile (h bytes)
  · rename_i files hdir
    exact ⟨disk, files, rfl, hdir, fun _ _ => rfl⟩
  · exact ⟨_, .empty, rfl, SortedMap.get_insert_self, Disk.frame_insert _⟩

theorem writeIn_ok {files : SortedMap String (List UInt8)} (h : disk.get name = some (.dir files))
    (file : String) (bytes : List UInt8) :
    ∃ disk', disk.writeIn name file bytes = .ok disk' ∧
      disk'.get name = some (.dir (files.insert file bytes)) ∧ disk.Frame disk' name := by
  refine ⟨disk.insert name (.dir (files.insert file bytes)), ?_, SortedMap.get_insert_self,
    Disk.frame_insert _⟩
  unfold Disk.writeIn
  rw [h]

theorem renameIn_ok {files : SortedMap String (List UInt8)} {source : String} {bytes : List UInt8}
    (h : disk.get name = some (.dir files)) (hsource : files.get source = some bytes)
    (target : String) :
    ∃ disk', disk.renameIn name source target = .ok disk' ∧
      disk'.get name = some (.dir ((files.erase source).insert target bytes)) ∧
      disk.Frame disk' name := by
  refine ⟨disk.insert name (.dir ((files.erase source).insert target bytes)), ?_,
    SortedMap.get_insert_self, Disk.frame_insert _⟩
  unfold Disk.renameIn
  rw [h]
  dsimp only
  rw [hsource]

/-- The package file is written unless a file has the name of the program. -/
theorem putPackage_ok (h : ∀ bytes, disk.get name ≠ some (.file bytes)) (bytes : List UInt8) :
    ∃ disk' files, ProgramStore.putPackage disk name bytes = .ok disk' ∧
      disk'.get name = some (.dir files) ∧ files.get "package.spkg" = some bytes ∧
      disk.Frame disk' name := by
  obtain ⟨disk₀, files₀, hmkdir, hdir₀, hframe₀⟩ := createDirAll_ok h
  obtain ⟨disk₁, hwrite, hdir₁, hframe₁⟩ := writeIn_ok hdir₀ "package.spkg.tmp" bytes
  obtain ⟨disk₂, hrename, hdir₂, hframe₂⟩ :=
    renameIn_ok hdir₁ SortedMap.get_insert_self "package.spkg"
  refine ⟨disk₂, _, ?_, hdir₂, SortedMap.get_insert_self, (hframe₀.trans hframe₁).trans hframe₂⟩
  unfold ProgramStore.putPackage
  rw [hmkdir]
  dsimp only [bind, Except.bind]
  rw [hwrite]
  exact hrename

/-- A file with the name of the program stops `put`. -/
theorem putPackage_file (h : disk.get name = some (.file bytes)) (package : List UInt8) :
    ProgramStore.putPackage disk name package = .error (.internal "File exists (os error 17)") := by
  unfold ProgramStore.putPackage Disk.createDirAll
  rw [h]
  rfl

theorem loadMeta_eq {files : SortedMap String (List UInt8)} {m : StoredMeta} (hJ : J.ReadsBack)
    (h : disk.get name = some (.dir files)) (hmeta : files.get "meta.json" = some (J.print m)) :
    loadMeta J disk name = .ok m := by
  have hread : disk.readIn name "meta.json" = some (J.print m) := by
    unfold Disk.readIn
    rw [h]
    exact hmeta
  unfold loadMeta
  rw [hread]
  dsimp only
  rw [hJ m]

/-- The metadata of a program, and its package. -/
theorem put_ok {m : Manifest} (hparse : ProgramStore.parsePut L bytes = .ok m)
    (h : ∀ bytes, disk.get m.id ≠ some (.file bytes)) (uploader : Option String) (storedAt : ℕ) :
    ∃ disk' files,
      ProgramStore.put L J disk bytes uploader storedAt =
        .ok (storedMeta m bytes uploader storedAt, disk') ∧
      disk'.get m.id = some (.dir files) ∧ files.get "package.spkg" = some bytes ∧
      files.get "meta.json" = some (J.print (storedMeta m bytes uploader storedAt)) ∧
      disk.Frame disk' m.id := by
  obtain ⟨disk₁, files₁, hput, hdir₁, hpackage, hframe₁⟩ := putPackage_ok h bytes
  obtain ⟨disk₂, hwrite, hdir₂, hframe₂⟩ :=
    writeIn_ok hdir₁ "meta.json" (J.print (storedMeta m bytes uploader storedAt))
  have hmeta : ProgramStore.putMeta J disk₁ (storedMeta m bytes uploader storedAt) = .ok disk₂ := hwrite
  refine ⟨disk₂, _, ?_, hdir₂, ?_, SortedMap.get_insert_self, hframe₁.trans hframe₂⟩
  · unfold ProgramStore.put
    rw [hparse]
    dsimp only [bind, Except.bind]
    rw [hput]
    dsimp only
    rw [hmeta]
  · rw [SortedMap.get_insert_of_ne (by decide)]
    exact hpackage

/-- A pointer is set unless a directory has its name. -/
theorem setPointer_ok (h : ∀ files, disk.get name ≠ some (.dir files)) (id : Option String) :
    ∃ disk', ProgramStore.setPointer disk name id = .ok disk' ∧
      disk'.get name = id.map (fun id => .file (utf8 id)) ∧ disk.Frame disk' name := by
  cases id with
  | some id =>
      refine ⟨disk.insert name (.file (utf8 id)), ?_, SortedMap.get_insert_self, Disk.frame_insert _⟩
      unfold ProgramStore.setPointer Disk.write
      dsimp only
      split
      · rename_i files hdir
        exact absurd hdir (h files)
      · rfl
  | none =>
      unfold ProgramStore.setPointer
      dsimp only
      split_ifs with hsome
      · refine ⟨disk.erase name, ?_, SortedMap.get_erase_self, fun k hk => SortedMap.get_erase_of_ne hk⟩
        unfold Disk.removeFile
        split
        · rename_i files hdir
          exact absurd hdir (h files)
        · rfl
      · exact ⟨disk, rfl, Option.not_isSome_iff_eq_none.mp hsome, fun _ _ => rfl⟩

/-- A directory with the name of a pointer stops `set_pointer`. -/
theorem setPointer_dir {files : SortedMap String (List UInt8)}
    (h : disk.get name = some (.dir files)) (id : Option String) :
    ProgramStore.setPointer disk name id = .error (.internal "Is a directory (os error 21)") := by
  cases id with
  | some id =>
      unfold ProgramStore.setPointer Disk.write
      rw [h]
  | none =>
      unfold ProgramStore.setPointer Disk.removeFile
      rw [h]
      rfl

end Files

/-! ## Program ids as texts -/

/-- Characters of a program id. -/
theorem not_isWhitespace_of_valid {id : String} (h : validateProgramId id = .ok ()) {c : Char}
    (hc : c ∈ id.toList) : isWhitespace c = false := by
  have hbytes : ∀ b ∈ utf8 id, 0x2D ≤ b.toNat ∧ b.toNat < 128 := by
    unfold validateProgramId at h
    split_ifs at h with hbad
    push Not at hbad
    intro b hb
    have hb := List.all_eq_true.mp hbad.2.2.2 b hb
    simp only [isAsciiAlphanumeric, Bool.or_eq_true, Bool.and_eq_true, decide_eq_true_eq,
      UInt8.le_iff_toNat_le, ← UInt8.toNat_inj, UInt8.reduceToNat] at hb
    omega
  have hin : ∀ b ∈ String.utf8EncodeChar c, b ∈ utf8 id := by
    intro b hb
    rw [utf8_eq_flatMap]
    exact List.mem_flatMap.mpr ⟨c, hc, hb⟩
  obtain ⟨hone, hlt⟩ := utf8EncodeChar_of_ascii fun b hb => (hbytes b (hin b hb)).2
  have hge : 0x2D ≤ c.toNat := by
    have hb := (hbytes _ (hin (UInt8.ofNat c.toNat) (by rw [hone]; exact List.mem_singleton_self _))).1
    rw [UInt8.toNat_ofNat'] at hb
    omega
  simp only [isWhitespace, Bool.or_eq_false_iff, Bool.and_eq_false_iff, decide_eq_false_iff_not]
  omega

theorem trim_of_valid {id : String} (h : validateProgramId id = .ok ()) : trim id = id.toList := by
  have hdrop : ∀ l : List Char, (∀ c ∈ l, isWhitespace c = false) → l.dropWhile isWhitespace = l := by
    intro l hl
    cases l with
    | nil => rfl
    | cons c l => rw [List.dropWhile_cons_of_neg (by simp [hl c List.mem_cons_self])]
  have hall : ∀ c ∈ id.toList, isWhitespace c = false := fun c => not_isWhitespace_of_valid h
  unfold trim
  rw [hdrop _ hall, hdrop _ fun c hc => hall c (List.mem_reverse.mp hc), List.reverse_reverse]

end SoftPlc.Api

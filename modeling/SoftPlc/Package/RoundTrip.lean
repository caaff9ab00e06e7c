import SoftPlc.Package.Validate

/-!
# A manifest as a JSON document

The document of a manifest is a value of the strict kind in the order of the fields
(`Manifest.value`). Through the strict gate its members come out in key order
(`StrictValue.strict_json`), and the typed reader finds the fields in any order
(`ofJson_sorted`). So a manifest is read back from its canonical text
(`fromJsonBytes_toJcsBytes`), if the JSON library reads back what it and the canonical writer print
(`Libraries.ReadsBack`).
-/

namespace SoftPlc.Package

open SoftPlc.Ir SoftPlc.Lib

/-! ## Values as documents -/

mutual

/-- A value as a document. -/
def StrictValue.json : StrictValue → Json
  | .bool b => .bool b
  | .integer n => .int n
  | .string s => .string s
  | .array items => .array (jsonItems items)
  | .object members => .object (jsonMembers members)

def jsonItems : List StrictValue → List Json
  | [] => []
  | v :: vs => v.json :: jsonItems vs

def jsonMembers : List (String × StrictValue) → List (String × Json)
  | [] => []
  | (k, v) :: ms => (k, v.json) :: jsonMembers ms

end

mutual

/-- The value with the members of its objects in key order. -/
def StrictValue.sorted : StrictValue → StrictValue
  | .bool b => .bool b
  | .integer n => .integer n
  | .string s => .string s
  | .array items => .array (sortedItems items)
  | .object members => .object (sortEntries (sortedMembers members))

def sortedItems : List StrictValue → List StrictValue
  | [] => []
  | v :: vs => v.sorted :: sortedItems vs

def sortedMembers : List (String × StrictValue) → List (String × StrictValue)
  | [] => []
  | (k, v) :: ms => (k, v.sorted) :: sortedMembers ms

end

mutual

/-- Objects with distinct keys and integers of 64 bits, nested at most `n` deep. -/
def StrictValue.Within : ℕ → StrictValue → Prop
  | _, .bool _ => True
  | _, .integer n => -2 ^ 63 ≤ n ∧ n < 2 ^ 63
  | _, .string _ => True
  | 0, .array _ => False
  | 0, .object _ => False
  | n + 1, .array items => withinItems n items
  | n + 1, .object members => (keys members).Nodup ∧ withinMembers n members

def withinItems : ℕ → List StrictValue → Prop
  | _, [] => True
  | n, v :: vs => v.Within n ∧ withinItems n vs

def withinMembers : ℕ → List (String × StrictValue) → Prop
  | _, [] => True
  | n, (_, v) :: ms => v.Within n ∧ withinMembers n ms

end

theorem jsonItems_eq (vs : List StrictValue) : jsonItems vs = vs.map StrictValue.json := by
  induction vs with
  | nil => rfl
  | cons v vs ih => rw [jsonItems, ih, List.map_cons]

theorem jsonMembers_eq (ms : List (String × StrictValue)) :
    jsonMembers ms = ms.map fun m => (m.1, m.2.json) := by
  induction ms with
  | nil => rfl
  | cons m ms ih => rw [jsonMembers, ih, List.map_cons]

theorem sortedItems_eq (vs : List StrictValue) : sortedItems vs = vs.map StrictValue.sorted := by
  induction vs with
  | nil => rfl
  | cons v vs ih => rw [sortedItems, ih, List.map_cons]

theorem sortedMembers_eq (ms : List (String × StrictValue)) :
    sortedMembers ms = ms.map fun m => (m.1, m.2.sorted) := by
  induction ms with
  | nil => rfl
  | cons m ms ih => rw [sortedMembers, ih, List.map_cons]

theorem withinItems_iff (n : ℕ) (vs : List StrictValue) :
    withinItems n vs ↔ ∀ v ∈ vs, v.Within n := by
  induction vs with
  | nil => simp [withinItems]
  | cons v vs ih => rw [withinItems, ih, List.forall_mem_cons]

theorem withinMembers_iff (n : ℕ) (ms : List (String × StrictValue)) :
    withinMembers n ms ↔ ∀ m ∈ ms, m.2.Within n := by
  induction ms with
  | nil => simp [withinMembers]
  | cons m ms ih => rw [withinMembers, ih, List.forall_mem_cons]

theorem keys_sortedMembers (ms : List (String × StrictValue)) : keys (sortedMembers ms) = keys ms := by
  rw [sortedMembers_eq, keys, List.map_map]
  rfl

/-- Members are collected in key order. -/
theorem strictMembers_eq {js : List (String × Json)} {vs obj : List (String × StrictValue)}
    (h : List.Forall₂ (fun j v => j.1 = v.1 ∧ j.2.strict = .ok v.2) js vs)
    (hnew : ∀ k ∈ keys vs, k ∉ keys obj) (hnodup : (keys vs).Nodup) :
    strictMembers js obj = .ok (vs.foldl (fun m e => insertSorted e.1 e.2 m) obj) := by
  induction h generalizing obj with
  | nil => rfl
  | @cons j v js vs hjv _ ih =>
      obtain ⟨key, value⟩ := j
      obtain ⟨rfl, hvalue⟩ := hjv
      obtain ⟨hv, hvs⟩ := List.nodup_cons.mp hnodup
      have hfresh : obj.lookup v.1 = none := by
        apply List.lookup_eq_none_iff.mpr
        intro e he
        have hne : v.1 ≠ e.1 := fun heq =>
          hnew _ List.mem_cons_self (heq ▸ List.mem_map_of_mem he)
        exact bne_iff_ne.mpr hne
      rw [strictMembers, hvalue]
      dsimp only [bind, Except.bind]
      rw [hfresh]
      refine ih ?_ hvs
      intro k hk hmem
      have hperm : (keys (insertSorted v.1 v.2 obj)).Perm (v.1 :: keys obj) :=
        (insertSorted_perm v.1 v.2 obj).map Prod.fst
      rcases List.mem_cons.mp (hperm.mem_iff.mp hmem) with rfl | hmem
      · exact hv hk
      · exact hnew k (List.mem_cons_of_mem _ hk) hmem

mutual

/-- The strict gate puts the members of a value in key order. -/
theorem StrictValue.strict_json : ∀ (n : ℕ) (v : StrictValue), v.Within n →
    v.json.strict = .ok v.sorted
  | _, .bool _, _ => rfl
  | _, .integer _, h => by
      rw [StrictValue.json, Json.strict]
      exact if_pos h
  | _, .string _, _ => rfl
  | n + 1, .array items, h => by
      rw [StrictValue.json, Json.strict, strictItems_json n items h]
      rfl
  | n + 1, .object members, h => by
      obtain ⟨hnodup, hmembers⟩ := h
      rw [StrictValue.json, Json.strict,
        strictMembers_eq (strictMembers_json n members hmembers) (by simp [keys])
          (by rwa [keys_sortedMembers])]
      rfl

theorem strictItems_json : ∀ (n : ℕ) (vs : List StrictValue), withinItems n vs →
    strictItems (jsonItems vs) = .ok (sortedItems vs)
  | _, [], _ => rfl
  | n, v :: vs, h => by
      rw [jsonItems, strictItems, StrictValue.strict_json n v h.1]
      dsimp only [bind, Except.bind]
      rw [strictItems_json n vs h.2]
      rfl

theorem strictMembers_json : ∀ (n : ℕ) (ms : List (String × StrictValue)), withinMembers n ms →
    List.Forall₂ (fun j v => j.1 = v.1 ∧ j.2.strict = .ok v.2) (jsonMembers ms) (sortedMembers ms)
  | _, [], _ => .nil
  | n, (_, v) :: ms, h =>
      .cons ⟨rfl, StrictValue.strict_json n v h.1⟩ (strictMembers_json n ms h.2)

end

mutual

/-- A sorted value is as deep as before. -/
theorem StrictValue.Within.sorted : ∀ (n : ℕ) (v : StrictValue), v.Within n → v.sorted.Within n
  | _, .bool _, _ => trivial
  | _, .integer _, h => h
  | _, .string _, _ => trivial
  | n + 1, .array items, h => withinItems_sorted n items h
  | n + 1, .object members, h => by
      obtain ⟨hnodup, hmembers⟩ := h
      have hperm := sortEntries_perm (sortedMembers members)
      refine ⟨?_, ?_⟩
      · have hkeys : (keys (sortEntries (sortedMembers members))).Perm (keys members) := by
          rw [← keys_sortedMembers members]
          exact hperm.map Prod.fst
        exact hkeys.nodup_iff.mpr hnodup
      · rw [withinMembers_iff]
        intro m hm
        exact (withinMembers_iff n _).mp (withinMembers_sorted n members hmembers) m
          (hperm.mem_iff.mp hm)

theorem withinItems_sorted : ∀ (n : ℕ) (vs : List StrictValue), withinItems n vs →
    withinItems n (sortedItems vs)
  | _, [], _ => trivial
  | n, v :: vs, h => ⟨StrictValue.Within.sorted n v h.1, withinItems_sorted n vs h.2⟩

theorem withinMembers_sorted : ∀ (n : ℕ) (ms : List (String × StrictValue)), withinMembers n ms →
    withinMembers n (sortedMembers ms)
  | _, [], _ => trivial
  | n, (_, v) :: ms, h => ⟨StrictValue.Within.sorted n v h.1, withinMembers_sorted n ms h.2⟩

end

mutual

/-- Sorting a value twice changes nothing. -/
theorem StrictValue.sorted_sorted : ∀ (n : ℕ) (v : StrictValue), v.Within n →
    v.sorted.sorted = v.sorted
  | _, .bool _, _ => rfl
  | _, .integer _, _ => rfl
  | _, .string _, _ => rfl
  | n + 1, .array items, h => by
      rw [StrictValue.sorted, StrictValue.sorted, sortedItems_sorted n items h]
  | n + 1, .object members, h => by
      obtain ⟨hnodup, hmembers⟩ := h
      have hsorted : SortedKeys (sortEntries (sortedMembers members)) :=
        sortEntries_sorted (by rwa [keys_sortedMembers])
      have hsame : sortedMembers (sortEntries (sortedMembers members)) =
          sortEntries (sortedMembers members) := by
        rw [sortedMembers_eq]
        apply (List.map_congr_left ?_).trans (List.map_id' _)
        intro m hm
        have hmem := (sortEntries_perm _).mem_iff.mp hm
        rw [sortedMembers_sorted n members hmembers m hmem]
      rw [StrictValue.sorted, StrictValue.sorted, hsame, sortEntries_of_sorted hsorted]

theorem sortedItems_sorted : ∀ (n : ℕ) (vs : List StrictValue), withinItems n vs →
    sortedItems (sortedItems vs) = sortedItems vs
  | _, [], _ => rfl
  | n, v :: vs, h => by
      rw [sortedItems, sortedItems, StrictValue.sorted_sorted n v h.1, sortedItems_sorted n vs h.2]

theorem sortedMembers_sorted : ∀ (n : ℕ) (ms : List (String × StrictValue)), withinMembers n ms →
    ∀ m ∈ sortedMembers ms, m.2.sorted = m.2
  | _, [], _, m, hm => by cases hm
  | n, (k, v) :: ms, h, m, hm => by
      rcases List.mem_cons.mp hm with rfl | hm
      · exact StrictValue.sorted_sorted n v h.1
      · exact sortedMembers_sorted n ms h.2 m hm

end

/-! ## The document of a manifest -/

/-- A field that may be left out. -/
def optionalValue (name : String) : Option ℕ → List (String × StrictValue)
  | none => []
  | some n => [(name, .integer n)]

/-- The document of a retain symbol. -/
def ManifestRetainSymbol.value (s : ManifestRetainSymbol) : StrictValue :=
  .object [("name", .string s.name), ("type", .string (typeName s.ty)), ("offset", .integer s.offset)]

/-- The document of a tag. -/
def TagEntry.value (t : TagEntry) : StrictValue :=
  .object ([("name", .string t.name), ("type", .string (typeName t.ty)),
    ("kind", .string (kindName t.kind))] ++ optionalValue "slot" t.slot)

/-- The document of a map. -/
def mapValue (m : SortedMap String String) : StrictValue :=
  .object (m.entries.map fun e => (e.1, .string e.2))

/-- The members of the document of a manifest, in the order of the fields. -/
def Manifest.members (m : Manifest) : List (String × StrictValue) :=
  [("id", .string m.id), ("version", .string m.version), ("build_id", .string m.buildId),
    ("ir_major", .integer m.irMajor), ("ir_minor", .integer m.irMinor),
    ("primitive_abi", .integer m.primitiveAbi), ("task_entries", mapValue m.taskEntries),
    ("retain_symbols", .array (m.retainSymbols.map ManifestRetainSymbol.value)),
    ("tag_dictionary", .array (m.tagDictionary.map TagEntry.value)),
    ("restart_policy", .string (restartName m.restartPolicy)),
    ("compatibility_hash", .string m.compatibilityHash)] ++
    (optionalValue "input_slots" m.inputSlots ++ (optionalValue "output_slots" m.outputSlots ++
      (optionalValue "data_size" m.dataSize ++ (optionalValue "retain_size" m.retainSize ++
        optionalValue "const_size" m.constSize))))

/-- The document of a manifest. -/
def Manifest.value (m : Manifest) : StrictValue := .object m.members

theorem jsonMembers_append (ms ns : List (String × StrictValue)) :
    jsonMembers (ms ++ ns) = jsonMembers ms ++ jsonMembers ns := by
  rw [jsonMembers_eq, jsonMembers_eq, jsonMembers_eq, List.map_append]

theorem jsonMembers_optional (name : String) (o : Option ℕ) :
    jsonMembers (optionalValue name o) = optionalField name o := by
  cases o <;> rfl

theorem TagEntry.toJson_eq (t : TagEntry) : t.toJson = t.value.json := by
  rw [TagEntry.toJson, TagEntry.value, StrictValue.json, jsonMembers_append, jsonMembers_optional]
  rfl

theorem mapValue_json (m : SortedMap String String) :
    (mapValue m).json = .object (m.entries.map fun e => (e.1, .string e.2)) := by
  rw [mapValue, StrictValue.json, jsonMembers_eq, List.map_map]
  rfl

theorem Manifest.toJson_eq (m : Manifest) : m.toJson = m.value.json := by
  have hsymbols : jsonItems (m.retainSymbols.map ManifestRetainSymbol.value) =
      m.retainSymbols.map ManifestRetainSymbol.toJson := by
    rw [jsonItems_eq, List.map_map]
    rfl
  have htags : jsonItems (m.tagDictionary.map TagEntry.value) =
      m.tagDictionary.map TagEntry.toJson := by
    rw [jsonItems_eq, List.map_map]
    exact List.map_congr_left fun t _ => (TagEntry.toJson_eq t).symm
  rw [Manifest.toJson, Manifest.value, StrictValue.json, Manifest.members]
  simp only [jsonMembers_append, jsonMembers_optional, jsonMembers, mapValue_json, StrictValue.json,
    hsymbols, htags]

/-- Numbers that fit the types of the source. -/
structure Manifest.Fits (m : Manifest) : Prop where
  irMajor : m.irMajor < 2 ^ 16
  irMinor : m.irMinor < 2 ^ 16
  primitiveAbi : m.primitiveAbi < 2 ^ 32
  offsets : ∀ s ∈ m.retainSymbols, s.offset < 2 ^ 32
  slots : ∀ t ∈ m.tagDictionary, ∀ n ∈ t.slot, n < 2 ^ 32
  inputSlots : ∀ n ∈ m.inputSlots, n < 2 ^ 32
  outputSlots : ∀ n ∈ m.outputSlots, n < 2 ^ 32
  dataSize : ∀ n ∈ m.dataSize, n < 2 ^ 32
  retainSize : ∀ n ∈ m.retainSize, n < 2 ^ 32
  constSize : ∀ n ∈ m.constSize, n < 2 ^ 32

theorem within_integer {n k : ℕ} (h : n < 2 ^ 32) : (StrictValue.integer n).Within k := by
  have hmax : (n : ℤ) < 2 ^ 32 := by exact_mod_cast h
  have h63 : (2 : ℤ) ^ 32 ≤ 2 ^ 63 := by norm_num
  unfold StrictValue.Within
  constructor
  · have hpos : (0 : ℤ) ≤ n := Int.natCast_nonneg n
    exact le_trans (by norm_num) hpos
  · exact lt_of_lt_of_le hmax h63

theorem within_optional {name : String} {o : Option ℕ} {k : ℕ} (h : ∀ n ∈ o, n < 2 ^ 32) :
    ∀ m ∈ optionalValue name o, m.2.Within k := by
  intro m hm
  cases o with
  | none => cases hm
  | some n =>
      cases List.mem_singleton.mp hm
      exact within_integer (h n rfl)

/-- The keys of optional fields. -/
theorem keys_optional (name : String) (o : Option ℕ) :
    (keys (optionalValue name o)).Sublist [name] := by
  cases o with
  | none => exact List.nil_sublist _
  | some n => exact .refl _

theorem keys_append {α : Type} (a b : List (String × α)) : keys (a ++ b) = keys a ++ keys b :=
  List.map_append

theorem Manifest.keys_members (m : Manifest) : (keys m.members).Sublist manifestKeys := by
  unfold Manifest.members
  simp only [keys_append]
  have hoptional := (keys_optional "input_slots" m.inputSlots).append
    ((keys_optional "output_slots" m.outputSlots).append
      ((keys_optional "data_size" m.dataSize).append
        ((keys_optional "retain_size" m.retainSize).append (keys_optional "const_size" m.constSize))))
  exact List.Sublist.append (List.Sublist.refl (manifestKeys.take 11)) hoptional

theorem ManifestRetainSymbol.within {s : ManifestRetainSymbol} (h : s.offset < 2 ^ 32) (k : ℕ) :
    s.value.Within (k + 1) :=
  ⟨show ["name", "type", "offset"].Nodup by decide, trivial, trivial, within_integer h, trivial⟩

theorem TagEntry.keys_sublist (t : TagEntry) :
    (keys ([("name", .string t.name), ("type", .string (typeName t.ty)),
      ("kind", .string (kindName t.kind))] ++ optionalValue "slot" t.slot)).Sublist
      ["name", "type", "kind", "slot"] := by
  rw [keys_append]
  exact List.Sublist.append (List.Sublist.refl ["name", "type", "kind"]) (keys_optional _ _)

theorem TagEntry.within {t : TagEntry} (h : ∀ n ∈ t.slot, n < 2 ^ 32) (k : ℕ) :
    t.value.Within (k + 1) := by
  refine ⟨t.keys_sublist.nodup (by decide), ?_⟩
  rw [withinMembers_iff]
  intro m hm
  rcases List.mem_append.mp hm with hm | hm
  · simp only [List.mem_cons, List.not_mem_nil, or_false] at hm
    rcases hm with rfl | rfl | rfl <;> exact trivial
  · exact within_optional h m hm

theorem mapValue_within (m : SortedMap String String) (k : ℕ) : (mapValue m).Within (k + 1) := by
  refine ⟨?_, ?_⟩
  · have hkeys : keys (m.entries.map fun e => (e.1, StrictValue.string e.2)) = keys m.entries := by
      rw [keys, List.map_map]
      rfl
    rw [hkeys]
    exact m.2.nodup
  · rw [withinMembers_iff]
    intro e he
    obtain ⟨x, -, rfl⟩ := List.mem_map.mp he
    exact trivial

theorem Manifest.Fits.within {m : Manifest} (h : m.Fits) (k : ℕ) : m.value.Within (k + 3) := by
  refine ⟨m.keys_members.nodup (by decide), ?_⟩
  rw [withinMembers_iff]
  intro e he
  simp only [Manifest.members, List.mem_append, List.mem_cons, List.not_mem_nil, or_false] at he
  rcases he with he | he | he | he | he | he
  · rcases he with rfl | rfl | rfl | rfl | rfl | rfl | rfl | rfl | rfl | rfl | rfl
    · exact trivial
    · exact trivial
    · exact trivial
    · exact within_integer (lt_trans h.irMajor (by decide))
    · exact within_integer (lt_trans h.irMinor (by decide))
    · exact within_integer h.primitiveAbi
    · exact mapValue_within _ _
    · refine (withinItems_iff _ _).mpr ?_
      intro v hv
      obtain ⟨s, hs, rfl⟩ := List.mem_map.mp hv
      exact ManifestRetainSymbol.within (h.offsets s hs) _
    · refine (withinItems_iff _ _).mpr ?_
      intro v hv
      obtain ⟨t, ht, rfl⟩ := List.mem_map.mp hv
      exact TagEntry.within (h.slots t ht) _
    · exact trivial
    · exact trivial
  · exact within_optional h.inputSlots e he
  · exact within_optional h.outputSlots e he
  · exact within_optional h.dataSize e he
  · exact within_optional h.retainSize e he
  · exact within_optional h.constSize e he

/-! ## The typed reader -/

section Typed

variable {fields F : List (String × Json)}

/-- The fields of a record, in any order. -/
theorem recordFields_perm (names : List String) (hperm : fields.Perm F)
    (hkeys : (keys F).Sublist names) (hnames : names.Nodup) :
    recordFields names (.object fields) = some fields ∧
      ∀ key, fields.lookup key = F.lookup key := by
  have hperm' : (keys fields).Perm (keys F) := hperm.map Prod.fst
  have hnodup : (keys fields).Nodup := hperm'.nodup_iff.mpr (hkeys.nodup hnames)
  refine ⟨?_, lookup_perm hnodup hperm⟩
  unfold recordFields
  refine if_pos ⟨?_, hnodup⟩
  rw [List.all_eq_true]
  intro key hkey
  exact List.contains_iff_mem.mpr (hkeys.subset (hperm'.mem_iff.mp hkey))

theorem readField_congr {α : Type} (h : ∀ key, fields.lookup key = F.lookup key) (name : String)
    (read : Json → Option α) : readField fields name read = readField F name read := by
  rw [readField, h, readField]

theorem readOptional_congr (h : ∀ key, fields.lookup key = F.lookup key) (name : String) :
    readOptional fields name = readOptional F name := by
  rw [readOptional, h, readOptional]

theorem readField_self {α : Type} (name : String) (j : Json) (rest : List (String × Json))
    (read : Json → Option α) : readField ((name, j) :: rest) name read = read j := by
  rw [readField, List.lookup_cons, beq_self_eq_true]
  rfl

theorem readField_ne {α : Type} {name key : String} (h : name ≠ key) (j : Json)
    (rest : List (String × Json)) (read : Json → Option α) :
    readField ((key, j) :: rest) name read = readField rest name read := by
  rw [readField, List.lookup_cons, beq_eq_false_iff_ne.mpr h]
  rfl

theorem readUInt_int {w n : ℕ} (h : n < 2 ^ w) : readUInt w (.int n) = some n := by
  have hlt : (n : ℤ) < 2 ^ w := by exact_mod_cast h
  rw [readUInt, if_pos ⟨Int.natCast_nonneg n, hlt⟩, Int.toNat_natCast]

theorem readOptional_ne {name key : String} (h : name ≠ key) (j : Json)
    (rest : List (String × Json)) :
    readOptional ((key, j) :: rest) name = readOptional rest name := by
  rw [readOptional, List.lookup_cons, beq_eq_false_iff_ne.mpr h]
  rfl

theorem readOptional_skip {name key : String} (h : name ≠ key) (o : Option ℕ)
    (rest : List (String × Json)) :
    readOptional (optionalField key o ++ rest) name = readOptional rest name := by
  cases o with
  | none => rfl
  | some n => exact readOptional_ne h _ rest

theorem readOptional_nil (name : String) : readOptional [] name = some none := rfl

theorem readOptional_self {name : String} {o : Option ℕ} {rest : List (String × Json)}
    (hrest : readOptional rest name = some none) (h : ∀ n ∈ o, n < 2 ^ 32) :
    readOptional (optionalField name o ++ rest) name = some o := by
  cases o with
  | none => exact hrest
  | some n =>
      rw [optionalField, List.singleton_append, readOptional, List.lookup_cons, beq_self_eq_true]
      dsimp only
      rw [readUInt_int (h n rfl)]
      rfl

@[simp] theorem typeOfName_typeName (ty : IrType) : typeOfName (typeName ty) = some ty := by
  cases ty <;> rfl

@[simp] theorem kindOfName_kindName (kind : TagKind) : kindOfName (kindName kind) = some kind := by
  cases kind <;> rfl

@[simp] theorem restartOfName_restartName (policy : RestartPolicy) :
    restartOfName (restartName policy) = some policy := by
  cases policy <;> rfl

/-- The sorted document of an object has the members of the object. -/
theorem sorted_object_json (ms : List (String × StrictValue)) :
    ∃ fields, (StrictValue.object ms).sorted.json = .object fields ∧
      fields.Perm (jsonMembers (sortedMembers ms)) := by
  refine ⟨_, rfl, ?_⟩
  rw [jsonMembers_eq, jsonMembers_eq]
  exact (sortEntries_perm _).map _

theorem sortedMembers_append (ms ns : List (String × StrictValue)) :
    sortedMembers (ms ++ ns) = sortedMembers ms ++ sortedMembers ns := by
  rw [sortedMembers_eq, sortedMembers_eq, sortedMembers_eq, List.map_append]

theorem sortedMembers_optional (name : String) (o : Option ℕ) :
    sortedMembers (optionalValue name o) = optionalValue name o := by
  cases o <;> rfl

theorem ManifestRetainSymbol.ofJson_sorted {s : ManifestRetainSymbol} (h : s.offset < 2 ^ 32) :
    ManifestRetainSymbol.ofJson s.value.sorted.json = some s := by
  obtain ⟨fields, hjson, hperm⟩ := sorted_object_json
    [("name", .string s.name), ("type", .string (typeName s.ty)), ("offset", .integer s.offset)]
  obtain ⟨hrecord, hlookup⟩ :=
    recordFields_perm ["name", "type", "offset"] hperm (.refl _) (by decide)
  rw [ManifestRetainSymbol.value, hjson, ManifestRetainSymbol.ofJson, hrecord]
  simp only [readField_congr hlookup, Option.bind_eq_bind, Option.bind_some]
  simp only [jsonMembers, sortedMembers, StrictValue.sorted, StrictValue.json]
  rw [readField_self, readField_ne (by decide), readField_self,
    readField_ne (by decide), readField_ne (by decide), readField_self,
    readUInt_int h]
  simp [readString]

theorem TagEntry.ofJson_sorted {t : TagEntry} (h : ∀ n ∈ t.slot, n < 2 ^ 32) :
    TagEntry.ofJson t.value.sorted.json = some t := by
  obtain ⟨fields, hjson, hperm⟩ := sorted_object_json
    ([("name", .string t.name), ("type", .string (typeName t.ty)),
      ("kind", .string (kindName t.kind))] ++ optionalValue "slot" t.slot)
  rw [sortedMembers_append, sortedMembers_optional, jsonMembers_append, jsonMembers_optional] at hperm
  simp only [jsonMembers, sortedMembers, StrictValue.sorted, StrictValue.json] at hperm
  have hkeys : (keys ([("name", Json.string t.name), ("type", .string (typeName t.ty)),
      ("kind", .string (kindName t.kind))] ++ optionalField "slot" t.slot)).Sublist
      ["name", "type", "kind", "slot"] := by
    rw [keys_append]
    apply List.Sublist.append (List.Sublist.refl ["name", "type", "kind"])
    cases t.slot with
    | none => exact List.nil_sublist _
    | some n => exact .refl _
  obtain ⟨hrecord, hlookup⟩ :=
    recordFields_perm ["name", "type", "kind", "slot"] hperm hkeys (by decide)
  have hslot : readOptional (optionalField "slot" t.slot) "slot" = some t.slot := by
    rw [← List.append_nil (optionalField "slot" t.slot)]
    exact readOptional_self (readOptional_nil _) h
  rw [TagEntry.value, hjson, TagEntry.ofJson, hrecord]
  simp only [readField_congr hlookup, readOptional_congr hlookup, Option.bind_eq_bind,
    Option.bind_some, List.cons_append, List.nil_append, readField_self, readField_ne,
    readOptional_ne, ne_eq, String.reduceEq, not_false_eq_true, hslot, readString,
    typeOfName_typeName, kindOfName_kindName]

theorem bind_of_some {α β : Type} {x : Option α} {f : α → Option β} {a : α} {b : Option β}
    (hx : x = some a) (hf : f a = b) : (x >>= f) = b := by
  rw [hx]
  exact hf

theorem mapM_of_forall {α : Type} {f : Json → Option α} {g : α → Json} {l : List α}
    (h : ∀ a ∈ l, f (g a) = some a) : (l.map g).mapM f = some l := by
  induction l with
  | nil => rfl
  | cons a l ih =>
      rw [List.map_cons, List.mapM_cons, h a List.mem_cons_self,
        ih fun b hb => h b (List.mem_cons_of_mem _ hb)]
      rfl

theorem mapValue_sorted (m : SortedMap String String) : (mapValue m).sorted = mapValue m := by
  have hsame : sortedMembers (m.entries.map fun e => (e.1, StrictValue.string e.2)) =
      m.entries.map fun e => (e.1, StrictValue.string e.2) := by
    rw [sortedMembers_eq, List.map_map]
    rfl
  have hsorted : SortedKeys (m.entries.map fun e => (e.1, StrictValue.string e.2)) := by
    rw [SortedKeys, keys, List.map_map]
    exact m.2
  rw [mapValue, StrictValue.sorted, hsame, sortEntries_of_sorted hsorted]

theorem readStringMap_mapValue (m : SortedMap String String) :
    readStringMap (mapValue m).json = some m := by
  have hfold : ∀ (es : List (String × String)) (acc : SortedMap String String),
      (es.map fun e => (e.1, Json.string e.2)).foldlM (fun m e => do
        let value ← readString e.2
        some (m.insert e.1 value)) acc = some (es.foldl (fun m e => m.insert e.1 e.2) acc) := by
    intro es
    induction es with
    | nil => exact fun _ => rfl
    | cons e es ih => exact fun acc => ih _
  rw [mapValue_json, readStringMap, hfold, SortedMap.foldl_insert]

/-- The fields of the sorted document, in the order of the source. -/
theorem Manifest.fields_eq (m : Manifest) :
    jsonMembers (sortedMembers m.members) =
      ("id", .string m.id) :: ("version", .string m.version) :: ("build_id", .string m.buildId) ::
        ("ir_major", .int m.irMajor) :: ("ir_minor", .int m.irMinor) ::
        ("primitive_abi", .int m.primitiveAbi) :: ("task_entries", (mapValue m.taskEntries).json) ::
        ("retain_symbols", .array (m.retainSymbols.map fun s => s.value.sorted.json)) ::
        ("tag_dictionary", .array (m.tagDictionary.map fun t => t.value.sorted.json)) ::
        ("restart_policy", .string (restartName m.restartPolicy)) ::
        ("compatibility_hash", .string m.compatibilityHash) ::
        (optionalField "input_slots" m.inputSlots ++ (optionalField "output_slots" m.outputSlots ++
          (optionalField "data_size" m.dataSize ++ (optionalField "retain_size" m.retainSize ++
            (optionalField "const_size" m.constSize ++ []))))) := by
  simp only [Manifest.members, sortedMembers_append, sortedMembers_optional, jsonMembers_append,
    jsonMembers_optional, sortedMembers, jsonMembers, StrictValue.sorted, StrictValue.json,
    mapValue_sorted, sortedItems_eq, jsonItems_eq, List.map_map, Function.comp_def, List.cons_append,
    List.nil_append, List.append_nil]

/-- The optional fields of a document. -/
theorem Manifest.Fits.readOptional {m : Manifest} (h : m.Fits) {rest : List (String × Json)}
    (hrest : rest = optionalField "input_slots" m.inputSlots ++
      (optionalField "output_slots" m.outputSlots ++ (optionalField "data_size" m.dataSize ++
        (optionalField "retain_size" m.retainSize ++
          (optionalField "const_size" m.constSize ++ []))))) :
    Package.readOptional rest "input_slots" = some m.inputSlots ∧
      Package.readOptional rest "output_slots" = some m.outputSlots ∧
      Package.readOptional rest "data_size" = some m.dataSize ∧
      Package.readOptional rest "retain_size" = some m.retainSize ∧
      Package.readOptional rest "const_size" = some m.constSize := by
  subst hrest
  refine ⟨?_, ?_, ?_, ?_, ?_⟩
  · apply readOptional_self _ h.inputSlots
    simp only [readOptional_skip, readOptional_nil, ne_eq, String.reduceEq, not_false_eq_true]
  · rw [readOptional_skip (by decide)]
    apply readOptional_self _ h.outputSlots
    simp only [readOptional_skip, readOptional_nil, ne_eq, String.reduceEq, not_false_eq_true]
  · rw [readOptional_skip (by decide), readOptional_skip (by decide)]
    apply readOptional_self _ h.dataSize
    simp only [readOptional_skip, readOptional_nil, ne_eq, String.reduceEq, not_false_eq_true]
  · rw [readOptional_skip (by decide), readOptional_skip (by decide),
      readOptional_skip (by decide)]
    apply readOptional_self _ h.retainSize
    simp only [readOptional_skip, readOptional_nil, ne_eq, String.reduceEq, not_false_eq_true]
  · rw [readOptional_skip (by decide), readOptional_skip (by decide),
      readOptional_skip (by decide), readOptional_skip (by decide)]
    exact readOptional_self (readOptional_nil _) h.constSize

/-- The typed reader finds the fields of the sorted document. -/
theorem Manifest.ofJson_sorted {m : Manifest} (h : m.Fits) :
    Manifest.ofJson m.value.sorted.json = some m := by
  obtain ⟨fields, hjson, hperm⟩ := sorted_object_json m.members
  have hsymbols : readList ManifestRetainSymbol.ofJson (.array (m.retainSymbols.map fun s =>
      s.value.sorted.json)) = some m.retainSymbols :=
    mapM_of_forall fun s hs => ManifestRetainSymbol.ofJson_sorted (h.offsets s hs)
  have htags : readList TagEntry.ofJson (.array (m.tagDictionary.map fun t =>
      t.value.sorted.json)) = some m.tagDictionary :=
    mapM_of_forall fun t ht => TagEntry.ofJson_sorted (h.slots t ht)
  have hkeys : (keys (jsonMembers (sortedMembers m.members))).Sublist manifestKeys := by
    rw [jsonMembers_eq, sortedMembers_eq, keys, List.map_map, List.map_map]
    exact m.keys_members
  obtain ⟨hrecord, hlookup⟩ := recordFields_perm manifestKeys hperm hkeys (by decide)
  generalize hrest : optionalField "input_slots" m.inputSlots ++
    (optionalField "output_slots" m.outputSlots ++ (optionalField "data_size" m.dataSize ++
      (optionalField "retain_size" m.retainSize ++
        (optionalField "const_size" m.constSize ++ [])))) = rest at *
  obtain ⟨hin, hout, hdata, hretain, hconst⟩ := h.readOptional hrest.symm
  have hF := m.fields_eq
  rw [hrest] at hF
  generalize jsonMembers (sortedMembers m.members) = F at hlookup hF
  -- the sixteen fields, each found under its key
  have hfield : ∀ {α : Type} {name : String} {read : Json → Option α} {a : α},
      readField F name read = some a → readField fields name read = some a :=
    fun hread => (readField_congr hlookup _ _).trans hread
  have hoptional : ∀ {name : String} {o : Option ℕ}, Package.readOptional F name = some o →
      Package.readOptional fields name = some o :=
    fun hread => (readOptional_congr hlookup _).trans hread
  have hid : readField F "id" readString = some m.id := by
    rw [hF, readField_self, readString]
  have hversion : readField F "version" readString = some m.version := by
    simp only [hF, readField_self, readField_ne, ne_eq, String.reduceEq, not_false_eq_true, readString]
  have hbuild : readField F "build_id" readString = some m.buildId := by
    simp only [hF, readField_self, readField_ne, ne_eq, String.reduceEq, not_false_eq_true, readString]
  have hmajor : readField F "ir_major" (readUInt 16) = some m.irMajor := by
    simp only [hF, readField_self, readField_ne, ne_eq, String.reduceEq, not_false_eq_true,
      readUInt_int h.irMajor]
  have hminor : readField F "ir_minor" (readUInt 16) = some m.irMinor := by
    simp only [hF, readField_self, readField_ne, ne_eq, String.reduceEq, not_false_eq_true,
      readUInt_int h.irMinor]
  have habi : readField F "primitive_abi" (readUInt 32) = some m.primitiveAbi := by
    simp only [hF, readField_self, readField_ne, ne_eq, String.reduceEq, not_false_eq_true,
      readUInt_int h.primitiveAbi]
  have htasks : readField F "task_entries" readStringMap = some m.taskEntries := by
    simp only [hF, readField_self, readField_ne, ne_eq, String.reduceEq, not_false_eq_true,
      readStringMap_mapValue]
  have hsyms : readField F "retain_symbols" (readList ManifestRetainSymbol.ofJson) =
      some m.retainSymbols := by
    simp only [hF, readField_self, readField_ne, ne_eq, String.reduceEq, not_false_eq_true, hsymbols]
  have hdict : readField F "tag_dictionary" (readList TagEntry.ofJson) = some m.tagDictionary := by
    simp only [hF, readField_self, readField_ne, ne_eq, String.reduceEq, not_false_eq_true, htags]
  have hrestart : readField F "restart_policy" (fun j => (readString j).bind restartOfName) =
      some m.restartPolicy := by
    simp only [hF, readField_self, readField_ne, ne_eq, String.reduceEq, not_false_eq_true, readString,
      Option.bind_some, restartOfName_restartName]
  have hhash : readField F "compatibility_hash" readString = some m.compatibilityHash := by
    simp only [hF, readField_self, readField_ne, ne_eq, String.reduceEq, not_false_eq_true, readString]
  have hskip : ∀ name ∈ manifestKeys.drop 11,
      Package.readOptional F name = Package.readOptional rest name := by
    intro name hname
    fin_cases hname <;>
      simp only [hF, readOptional_ne, ne_eq, String.reduceEq, not_false_eq_true]
  rw [Manifest.value, hjson, Manifest.ofJson]
  refine bind_of_some hrecord ?_
  refine bind_of_some (hfield hid) ?_
  refine bind_of_some (hfield hversion) ?_
  refine bind_of_some (hfield hbuild) ?_
  refine bind_of_some (hfield hmajor) ?_
  refine bind_of_some (hfield hminor) ?_
  refine bind_of_some (hfield habi) ?_
  refine bind_of_some (hfield htasks) ?_
  refine bind_of_some (hfield hsyms) ?_
  refine bind_of_some (hfield hdict) ?_
  refine bind_of_some (hfield hrestart) ?_
  refine bind_of_some (hfield hhash) ?_
  refine bind_of_some (hoptional ((hskip _ (by decide)).trans hin)) ?_
  refine bind_of_some (hoptional ((hskip _ (by decide)).trans hout)) ?_
  refine bind_of_some (hoptional ((hskip _ (by decide)).trans hdata)) ?_
  refine bind_of_some (hoptional ((hskip _ (by decide)).trans hretain)) ?_
  exact bind_of_some (hoptional ((hskip _ (by decide)).trans hconst)) rfl

end Typed

/-! ## Canonical texts -/

/-- Bytes that spell a string. -/
def IsText (bytes : List UInt8) : Prop := ∃ s : String, bytes = utf8 s

theorem IsText.append {a b : List UInt8} (ha : IsText a) (hb : IsText b) : IsText (a ++ b) := by
  obtain ⟨s, rfl⟩ := ha
  obtain ⟨t, rfl⟩ := hb
  exact ⟨s ++ t, (utf8_append s t).symm⟩

theorem isText_char (c : Char) : IsText (String.utf8EncodeChar c) := by
  refine ⟨String.singleton c, ?_⟩
  rw [utf8_eq_flatMap]
  simp

/-- Bytes below 128 are characters. -/
theorem isText_ascii {l : List UInt8} (h : ∀ b ∈ l, b.toNat < 128) : IsText l := by
  have hall : ∀ n < 128, String.utf8EncodeChar (Char.ofNat n) = [UInt8.ofNat n] := by
    intro n hn
    have hvalue : (Char.ofNat n).val.toNat = n := by
      rw [Char.ofNat, dif_pos (.inl (by omega))]
      rfl
    simp only [String.utf8EncodeChar, hvalue]
    rw [if_pos (by omega)]
  induction l with
  | nil => exact ⟨"", rfl⟩
  | cons b l ih =>
      have hchar := hall b.toNat (h b List.mem_cons_self)
      rw [UInt8.ofNat_toNat] at hchar
      have hone := isText_char (Char.ofNat b.toNat)
      rw [hchar] at hone
      exact hone.append (ih fun b' hb' => h b' (List.mem_cons_of_mem _ hb'))

theorem IsText.flatMap {α : Type} {f : α → List UInt8} (l : List α) (h : ∀ a ∈ l, IsText (f a)) :
    IsText (l.flatMap f) := by
  induction l with
  | nil => exact ⟨"", rfl⟩
  | cons a l ih =>
      rw [List.flatMap_cons]
      exact (h a List.mem_cons_self).append (ih fun b hb => h b (List.mem_cons_of_mem _ hb))

theorem isText_jcsChar (c : Char) : IsText (jcsChar c) := by
  unfold jcsChar escapeWith
  split_ifs with hquote hslash hcontrol
  · exact isText_ascii (by simp)
  · exact isText_ascii (by simp)
  · apply isText_ascii
    have hall : ∀ n < 32, ∀ b ∈ unicodeEscape n, b.toNat < 128 := by decide +kernel
    exact hall _ hcontrol
  · exact isText_char c

theorem isText_quote (s : String) : IsText (quoteWith jcsChar s) := by
  rw [quoteWith]
  apply IsText.append (a := [34]) (isText_ascii (by simp))
  exact (IsText.flatMap _ fun c _ => isText_jcsChar c).append (isText_ascii (by simp))

theorem isText_decimal (n : ℤ) : IsText (decimal n) := by
  have hdigits : ∀ n, ∀ b ∈ digits n, b.toNat < 128 := by
    intro n b hb
    have hdigit := isDigit_of_mem_digits hb
    exact lt_of_le_of_lt hdigit.2 (by decide)
  unfold decimal
  split_ifs
  · apply isText_ascii
    intro b hb
    rcases List.mem_cons.mp hb with rfl | hb
    · decide
    · exact hdigits _ b hb
  · exact isText_ascii (hdigits _)

mutual

theorem StrictValue.isText : ∀ v : StrictValue, IsText v.toJcs
  | .bool true => ⟨"true", rfl⟩
  | .bool false => ⟨"false", rfl⟩
  | .integer n => isText_decimal n
  | .string s => isText_quote s
  | .array items => (isText_ascii (l := [91]) (by simp)).append (isText_items true items)
  | .object members =>
      (isText_ascii (l := [123]) (by simp)).append (isText_members true members)

theorem isText_items : ∀ (first : Bool) (vs : List StrictValue), IsText (writeItems jcsChar first vs)
  | _, [] => isText_ascii (l := [93]) (by simp)
  | first, v :: vs => by
      rw [writeItems]
      refine IsText.append ?_ ((StrictValue.isText v).append (isText_items false vs))
      cases first <;> exact isText_ascii (by simp)

theorem isText_members : ∀ (first : Bool) (ms : List (String × StrictValue)),
    IsText (writeMembers jcsChar first ms)
  | _, [] => isText_ascii (l := [125]) (by simp)
  | first, (k, v) :: ms => by
      rw [writeMembers]
      refine IsText.append ?_ ((isText_quote k).append ?_)
      · cases first <;> exact isText_ascii (by simp)
      · exact (isText_ascii (l := [58]) (by simp)).append
          ((StrictValue.isText v).append (isText_members false ms))

end

/-- The canonical text of an object passes the guards of the strict gate. -/
theorem checkJsonText_toJcs (members : List (String × StrictValue)) :
    checkJsonText (StrictValue.object members).toJcs = .ok () := by
  obtain ⟨rest, hrest⟩ := isText_members true members
  have htext : (StrictValue.object members).toJcs = utf8 ("\x7b" ++ rest) := by
    rw [utf8_append, ← hrest]
    rfl
  rw [htext]
  exact checkJsonText_brace rest

/-! ## Reading back -/

/-- The JSON library prints objects as texts that start with a brace, and reads back what it prints
and what the canonical writer prints, up to its limit of 127 nested values. -/
structure Libraries.ReadsBack (L : Libraries) : Prop where
  print_text : ∀ members, ∃ rest : String, L.jsonPrint (.object members) = utf8 ("\x7b" ++ rest)
  reads_print : ∀ v : StrictValue, v.Within 127 →
    L.jsonRead (L.jsonPrint v.json) = .ok (v.json, none)
  reads_jcs : ∀ v : StrictValue, v.Within 127 → L.jsonRead v.toJcs = .ok (v.json, none)

section ReadsBack

variable {L : Libraries} {m : Manifest}

/-- The sorted members of the document of a manifest. -/
def Manifest.sortedDocument (m : Manifest) : List (String × StrictValue) :=
  sortEntries (sortedMembers m.members)

theorem Manifest.toJcsBytes_eq (hL : L.ReadsBack) (h : m.Fits) :
    m.toJcsBytes L = .ok (StrictValue.object m.sortedDocument).toJcs := by
  obtain ⟨rest, hrest⟩ := hL.print_text (jsonMembers m.members)
  have htext : checkJsonText (L.jsonPrint m.toJson) = .ok () := by
    rw [m.toJson_eq, Manifest.value, StrictValue.json, hrest]
    exact checkJsonText_brace rest
  have hread : L.jsonRead (L.jsonPrint m.toJson) = .ok (m.value.json, none) := by
    rw [m.toJson_eq]
    exact hL.reads_print _ (h.within 124)
  have hstrict : m.value.json.strict = .ok (.object m.sortedDocument) :=
    StrictValue.strict_json 3 _ (h.within 0)
  rw [Manifest.toJcsBytes, parseStrictJson_eq htext hread hstrict]
  rfl

/-- A manifest is read back from its canonical text. -/
theorem Manifest.fromJsonBytes_toJcsBytes (hL : L.ReadsBack) (h : m.Fits)
    (hfields : m.validateFields L = .ok ()) :
    Manifest.fromJsonBytes L (StrictValue.object m.sortedDocument).toJcs =
      .ok (m, (StrictValue.object m.sortedDocument).toJcs) := by
  have hread := hL.reads_jcs m.value.sorted (StrictValue.Within.sorted 127 _ (h.within 124))
  have hstrict : m.value.sorted.json.strict = .ok (.object m.sortedDocument) := by
    rw [StrictValue.strict_json 3 _ (StrictValue.Within.sorted 3 _ (h.within 0)),
      StrictValue.sorted_sorted 3 _ (h.within 0)]
    rfl
  exact fromJsonBytes_eq (checkJsonText_toJcs _) hread hstrict (Manifest.ofJson_sorted h) hfields

end ReadsBack

end SoftPlc.Package

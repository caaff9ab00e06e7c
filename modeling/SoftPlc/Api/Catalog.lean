import SoftPlc.Api.Store

/-!
# What the program store is for

`Catalog` is a map from ids to programs and two pointers. The store of `program_store.rs` answers a
sequence of calls as the catalog does exactly when no call gives a program and a pointer one name
(`store_answers_iff`): programs and pointers share one directory, and `current` and `armed` are
program ids.
-/

namespace SoftPlc.Api

open SoftPlc.Lib SoftPlc.Package SoftPlc.Ir

variable (L : Libraries) (J : MetaJson)

/-! ## Calls -/

/-- Calls of the store. -/
inductive Call where
  | put (bytes : List UInt8) (uploader : Option String) (storedAt : ℕ)
  | get (id : String)
  | list
  | delete (id : String)
  | setPointer (pointer : Pointer) (id : Option String)
  | pointer (pointer : Pointer)

/-- Pointers are set to program ids. -/
def Call.Valid : Call → Prop
  | .setPointer _ (some id) => validateProgramId id = .ok ()
  | _ => True

/-- What a call answers. -/
inductive Answer where
  | failed (e : ApiError)
  | stored (m : StoredMeta)
  | program (m : StoredMeta) (bytes : List UInt8)
  | programs (ms : List StoredMeta)
  | done
  | pointed (id : Option String)

/-- A call that fails changes nothing. -/
def answering {σ α : Type} (s : σ) (f : α → Answer × σ) : Except ApiError α → Answer × σ
  | .ok a => f a
  | .error e => (.failed e, s)

/-- A call of the store. -/
def ProgramStore.call (order : DirOrder) (disk : Disk) : Call → Answer × Disk
  | .put bytes uploader storedAt =>
      answering disk (fun r => (.stored r.1, r.2)) (put L J disk bytes uploader storedAt)
  | .get id => answering disk (fun r => (.program r.1 r.2, disk)) (get J disk id)
  | .list => answering disk (fun ms => (.programs ms, disk)) (list J order disk)
  | .delete id => answering disk (fun disk => (.done, disk)) (delete disk id)
  | .setPointer p id => answering disk (fun disk => (.done, disk)) (setPointer disk p.name id)
  | .pointer p => (.pointed (pointer disk p.name), disk)

/-- The answers to a sequence of calls. -/
def answers {σ : Type} (call : σ → Call → Answer × σ) : σ → List Call → List Answer
  | _, [] => []
  | s, c :: cs => (call s c).1 :: answers call (call s c).2 cs

/-! ## What the store is for -/

/-- A map from ids to programs, and two pointers. -/
structure Catalog where
  programs : SortedMap String (StoredMeta × List UInt8)
  pointers : Pointer → Option String

namespace Catalog

def empty : Catalog := ⟨.empty, fun _ => none⟩

/-- The program with an id. -/
def find (cat : Catalog) (id : String) : Except ApiError (StoredMeta × List UInt8) :=
  match validateProgramId id, cat.programs.get id with
  | .error _, _ => .error (.notFound id)
  | .ok (), some x => .ok x
  | .ok (), none => .error (.notFound ("program '" ++ id ++ "'"))

/-- A call of the catalog. -/
def call (cat : Catalog) : Call → Answer × Catalog
  | .put bytes uploader storedAt =>
      answering cat (fun m =>
        (.stored (storedMeta m bytes uploader storedAt),
          { cat with programs :=
              cat.programs.insert m.id (storedMeta m bytes uploader storedAt, bytes) }))
        (ProgramStore.parsePut L bytes)
  | .get id => answering cat (fun x => (.program x.1 x.2, cat)) (cat.find id)
  | .list => (.programs (cat.programs.entries.map fun e => e.2.1), cat)
  | .delete id =>
      answering cat (fun _ => (.done, { cat with programs := cat.programs.erase id })) (cat.find id)
  | .setPointer p id => (.done, { cat with pointers := Function.update cat.pointers p id })
  | .pointer p => (.pointed (cat.pointers p), cat)

/-- A call that does not give a program and a pointer one name. -/
def Apart (cat : Catalog) : Call → Prop
  | .put bytes _ _ => ∀ m p, ProgramStore.parsePut L bytes = .ok m → p.name = m.id →
      cat.pointers p = none
  | .setPointer p _ => cat.programs.get p.name = none
  | _ => True

/-- Each call of a sequence does not give a program and a pointer one name. -/
def AllApart : Catalog → List Call → Prop
  | _, [] => True
  | cat, c :: cs => cat.Apart L c ∧ AllApart (cat.call L c).2 cs

end Catalog

/-! ## A store that holds a catalog -/

section Holds

variable {L J} {order : DirOrder} {disk disk' : Disk} {cat : Catalog}

/-- The root directory of a catalog. -/
structure Holds (J : MetaJson) (disk : Disk) (cat : Catalog) : Prop where
  program : ∀ id x, cat.programs.get id = some x → ∃ files, disk.get id = some (.dir files) ∧
    files.get "package.spkg" = some x.2 ∧ files.get "meta.json" = some (J.print x.1)
  named : ∀ id x, cat.programs.get id = some x → x.1.id = id
  dirs : ∀ id files, disk.get id = some (.dir files) → ∃ x, cat.programs.get id = some x
  pointer : ∀ p id, cat.pointers p = some id → disk.get p.name = some (.file (utf8 id))
  valid : ∀ p id, cat.pointers p = some id → validateProgramId id = .ok ()
  files : ∀ name bytes, disk.get name = some (.file bytes) →
    ∃ p id, p.name = name ∧ cat.pointers p = some id

theorem Pointer.name_injective : Function.Injective Pointer.name := by
  intro p q h
  cases p <;> cases q <;> first | rfl | exact absurd h (by decide)

theorem holds_empty (J : MetaJson) : Holds J .empty .empty where
  program _ _ h := nomatch h
  named _ _ h := nomatch h
  dirs _ _ h := nomatch h
  pointer _ _ h := nomatch h
  valid _ _ h := nomatch h
  files _ _ h := nomatch h

namespace Holds

theorem isDir_iff (h : Holds J disk cat) (id : String) :
    disk.isDir id = true ↔ (cat.programs.get id).isSome := by
  unfold Disk.isDir
  constructor
  · intro hdir
    split at hdir
    · rename_i files hget
      obtain ⟨x, hx⟩ := h.dirs id files hget
      rw [hx]
      rfl
    · cases hdir
  · intro hsome
    obtain ⟨x, hx⟩ := Option.isSome_iff_exists.mp hsome
    obtain ⟨files, hget, -⟩ := h.program id x hx
    rw [hget]

/-- A stored program has no pointer of its name. -/
theorem no_pointer (h : Holds J disk cat) {p : Pointer} {x : StoredMeta × List UInt8}
    (hx : cat.programs.get p.name = some x) : cat.pointers p = none := by
  obtain ⟨files, hget, -⟩ := h.program _ x hx
  apply Option.eq_none_iff_forall_not_mem.mpr
  intro id hid
  rw [h.pointer p id hid] at hget
  cases hget

theorem loadMeta_eq (hJ : J.ReadsBack) (h : Holds J disk cat) {id : String}
    {x : StoredMeta × List UInt8} (hx : cat.programs.get id = some x) :
    loadMeta J disk id = .ok x.1 := by
  obtain ⟨files, hget, -, hmeta⟩ := h.program id x hx
  exact Api.loadMeta_eq hJ hget hmeta

theorem get_eq (hJ : J.ReadsBack) (h : Holds J disk cat) (id : String) :
    ProgramStore.get J disk id = cat.find id := by
  unfold ProgramStore.get Catalog.find
  split
  · rename_i e he
    rw [he]
  · rename_i hvalid
    rw [hvalid]
    cases hx : cat.programs.get id with
    | none =>
        have hdir : ¬disk.isDir id = true := by simp [h.isDir_iff, hx]
        rw [if_neg hdir]
    | some x =>
        have hdir : disk.isDir id = true := by simp [h.isDir_iff, hx]
        obtain ⟨files, hget, hpackage, -⟩ := h.program id x hx
        have hread : disk.readIn id "package.spkg" = some x.2 := by
          unfold Disk.readIn
          rw [hget]
          exact hpackage
        rw [if_pos hdir, h.loadMeta_eq hJ hx]
        dsimp only [bind, Except.bind]
        rw [hread]

theorem pointer_eq (h : Holds J disk cat) (p : Pointer) :
    ProgramStore.pointer disk p.name = cat.pointers p := by
  unfold ProgramStore.pointer Disk.readToString
  cases hp : cat.pointers p with
  | some id =>
      have hvalid := h.valid p id hp
      have hne : id.toList ≠ [] := by
        intro hnil
        rw [String.toList_eq_nil_iff.mp hnil] at hvalid
        cases hvalid
      rw [h.pointer p id hp]
      dsimp only
      rw [ofUtf8_utf8]
      dsimp only
      rw [trim_of_valid hvalid, if_neg hne, String.ofList_toList]
  | none =>
      split
      · rfl
      · rename_i text htext
        split at htext
        · rename_i bytes hfile
          obtain ⟨q, id, hname, hid⟩ := h.files _ bytes hfile
          rw [Pointer.name_injective hname, hp] at hid
          cases hid
        · cases htext

/-- A program was stored under an id. -/
theorem put (h : Holds J disk cat) {id : String} {x : StoredMeta × List UInt8}
    {files : SortedMap String (List UInt8)} (hdir : disk'.get id = some (.dir files))
    (hpackage : files.get "package.spkg" = some x.2)
    (hmeta : files.get "meta.json" = some (J.print x.1)) (hframe : disk.Frame disk' id)
    (hid : x.1.id = id) (hfree : ∀ p : Pointer, p.name = id → cat.pointers p = none) :
    Holds J disk' { cat with programs := cat.programs.insert id x } where
  program k y hy := by
    by_cases hk : k = id
    · subst hk
      obtain rfl := Option.some.inj (SortedMap.get_insert_self.symm.trans hy)
      exact ⟨files, hdir, hpackage, hmeta⟩
    · rw [hframe k hk]
      exact h.program k y ((SortedMap.get_insert_of_ne hk).symm.trans hy)
  named k y hy := by
    by_cases hk : k = id
    · subst hk
      obtain rfl := Option.some.inj (SortedMap.get_insert_self.symm.trans hy)
      exact hid
    · exact h.named k y ((SortedMap.get_insert_of_ne hk).symm.trans hy)
  dirs k fs hk' := by
    by_cases hk : k = id
    · subst hk
      exact ⟨x, SortedMap.get_insert_self⟩
    · rw [hframe k hk] at hk'
      obtain ⟨y, hy⟩ := h.dirs k fs hk'
      exact ⟨y, (SortedMap.get_insert_of_ne hk).trans hy⟩
  pointer p k hp := by
    have hne : p.name ≠ id := by
      intro heq
      rw [hfree p heq] at hp
      cases hp
    rw [hframe _ hne]
    exact h.pointer p k hp
  valid := h.valid
  files k bytes hk' := by
    have hne : k ≠ id := by
      rintro rfl
      rw [hdir] at hk'
      cases hk'
    rw [hframe k hne] at hk'
    exact h.files k bytes hk'

/-- A program was removed. -/
theorem erase (h : Holds J disk cat) {id : String} {x : StoredMeta × List UInt8}
    (hx : cat.programs.get id = some x) :
    Holds J (disk.erase id) { cat with programs := cat.programs.erase id } where
  program k y hy := by
    have hk : k ≠ id := by
      rintro rfl
      rw [SortedMap.get_erase_self] at hy
      cases hy
    rw [SortedMap.get_erase_of_ne hk]
    exact h.program k y ((SortedMap.get_erase_of_ne hk).symm.trans hy)
  named k y hy := by
    have hk : k ≠ id := by
      rintro rfl
      rw [SortedMap.get_erase_self] at hy
      cases hy
    exact h.named k y ((SortedMap.get_erase_of_ne hk).symm.trans hy)
  dirs k fs hk' := by
    have hk : k ≠ id := by
      rintro rfl
      rw [SortedMap.get_erase_self] at hk'
      cases hk'
    obtain ⟨y, hy⟩ := h.dirs k fs ((SortedMap.get_erase_of_ne hk).symm.trans hk')
    exact ⟨y, (SortedMap.get_erase_of_ne hk).trans hy⟩
  pointer p k hp := by
    have hne : p.name ≠ id := by
      rintro rfl
      rw [h.no_pointer hx] at hp
      cases hp
    exact (SortedMap.get_erase_of_ne hne).trans (h.pointer p k hp)
  valid := h.valid
  files k bytes hk' := by
    have hk : k ≠ id := by
      rintro rfl
      rw [SortedMap.get_erase_self] at hk'
      cases hk'
    exact h.files k bytes ((SortedMap.get_erase_of_ne hk).symm.trans hk')

/-- A pointer was set. -/
theorem setPointer (h : Holds J disk cat) {p : Pointer} {id : Option String}
    (hfile : disk'.get p.name = id.map fun id => .file (utf8 id)) (hframe : disk.Frame disk' p.name)
    (hvalid : ∀ i ∈ id, validateProgramId i = .ok ()) (hfree : cat.programs.get p.name = none) :
    Holds J disk' { cat with pointers := Function.update cat.pointers p id } where
  program k x hx := by
    have hne : k ≠ p.name := by
      rintro rfl
      rw [hfree] at hx
      cases hx
    rw [hframe k hne]
    exact h.program k x hx
  named := h.named
  dirs k fs hk' := by
    have hne : k ≠ p.name := by
      rintro rfl
      rw [hfile] at hk'
      cases id <;> cases hk'
    rw [hframe k hne] at hk'
    exact h.dirs k fs hk'
  pointer q k hq := by
    by_cases hqp : q = p
    · subst hqp
      have hid : id = some k := (Function.update_self q id cat.pointers).symm.trans hq
      rw [hfile, hid]
      rfl
    · rw [hframe _ fun heq => hqp (Pointer.name_injective heq)]
      exact h.pointer q k ((Function.update_of_ne hqp _ _).symm.trans hq)
  valid q k hq := by
    by_cases hqp : q = p
    · subst hqp
      exact hvalid k ((Function.update_self q id cat.pointers).symm.trans hq)
    · exact h.valid q k ((Function.update_of_ne hqp _ _).symm.trans hq)
  files k bytes hk' := by
    by_cases hk : k = p.name
    · subst hk
      rw [hfile] at hk'
      obtain ⟨i, hi, -⟩ := Option.map_eq_some_iff.mp hk'
      exact ⟨p, i, rfl, (Function.update_self _ _ _).trans hi⟩
    · rw [hframe k hk] at hk'
      obtain ⟨q, i, hq, hi⟩ := h.files k bytes hk'
      have hqp : q ≠ p := by
        rintro rfl
        exact hk hq.symm
      exact ⟨q, i, hq, (Function.update_of_ne hqp _ _).trans hi⟩

/-- Directories with metadata are those of the programs. -/
theorem mem_filter_hasMeta (h : Holds J disk cat) {e : String × Node} :
    e ∈ (order.listed disk.entries).filter ProgramStore.hasMeta →
      ∃ x, cat.programs.get e.1 = some x := by
  intro he
  obtain ⟨hmem, hmeta⟩ := List.mem_filter.mp he
  have hget : disk.get e.1 = some e.2 :=
    SortedMap.get_eq_some_iff.mpr ((order.perm _).mem_iff.mp hmem)
  unfold ProgramStore.hasMeta at hmeta
  split at hmeta
  · rename_i files hdir
    exact h.dirs e.1 files (hget.trans (congrArg some hdir))
  · cases hmeta

/-- The list of a store: the metadata of the programs in the order of their ids. -/
theorem list_eq (hJ : J.ReadsBack) (h : Holds J disk cat) :
    ProgramStore.list J order disk = .ok (cat.programs.entries.map fun e => e.2.1) := by
  let dirs := (order.listed disk.entries).filter ProgramStore.hasMeta
  choose! x hx using fun e (he : e ∈ dirs) => h.mem_filter_hasMeta he
  have hout : dirs.mapM (fun e => loadMeta J disk e.1) = .ok (dirs.map fun e => (x e).1) :=
    except_mapM_eq fun e he => h.loadMeta_eq hJ (hx e he)
  have hnodup : (dirs.map fun e => (x e).1).Nodup := by
    apply List.Nodup.of_map StoredMeta.id
    have hids : (dirs.map fun e => (x e).1).map StoredMeta.id = keys dirs := by
      rw [List.map_map]
      exact List.map_congr_left fun e he => h.named _ _ (hx e he)
    rw [hids]
    apply List.Nodup.sublist (List.filter_sublist.map Prod.fst)
    exact ((order.perm _).map Prod.fst).nodup_iff.mpr disk.2.nodup
  have hstored : ∀ e ∈ cat.programs.entries, cat.programs.get e.1 = some e.2 :=
    fun e he => SortedMap.get_eq_some_iff.mpr he
  have hsame : ∀ e ∈ cat.programs.entries, e.2.1.id = e.1 := fun e he => h.named _ _ (hstored e he)
  have hnodup' : (cat.programs.entries.map fun e => e.2.1).Nodup := by
    apply List.Nodup.of_map StoredMeta.id
    have hids : (cat.programs.entries.map fun e => e.2.1).map StoredMeta.id =
        keys cat.programs.entries := by
      rw [List.map_map]
      exact List.map_congr_left hsame
    rw [hids]
    exact cat.programs.2.nodup
  have hperm : (dirs.map fun e => (x e).1).Perm (cat.programs.entries.map fun e => e.2.1) := by
    apply (List.perm_ext_iff_of_nodup hnodup hnodup').mpr
    intro m
    rw [List.mem_map, List.mem_map]
    constructor
    · rintro ⟨e, he, rfl⟩
      exact ⟨(e.1, x e), SortedMap.get_eq_some_iff.mp (hx e he), rfl⟩
    · rintro ⟨e, he, rfl⟩
      obtain ⟨files, hdir, -, hmeta⟩ := h.program _ _ (hstored e he)
      have hmem : (e.1, Node.dir files) ∈ dirs := by
        refine List.mem_filter.mpr ⟨(order.perm _).mem_iff.mpr (SortedMap.get_eq_some_iff.mp hdir), ?_⟩
        show (files.get "meta.json").isSome = true
        rw [hmeta]
        rfl
      refine ⟨_, hmem, congrArg Prod.fst ?_⟩
      exact Option.some.inj ((hx _ hmem).symm.trans (hstored e he))
  have hsorted : (cat.programs.entries.map fun e => e.2.1).Pairwise fun a b => a.id ≤ b.id := by
    rw [List.pairwise_map]
    refine (List.pairwise_map.mp cat.programs.2).imp_of_mem ?_
    intro a b ha hb hab
    rw [hsame a ha, hsame b hb]
    exact hab.le
  have heq : sortByKey StoredMeta.id (dirs.map fun e => (x e).1) =
      cat.programs.entries.map fun e => e.2.1 := by
    have hperm' := (sortByKey_perm StoredMeta.id _).trans hperm
    refine hperm'.eq_of_pairwise ?_ (sortByKey_sorted _ _) hsorted
    intro a b ha hb hab hba
    obtain ⟨e, he, rfl⟩ := List.mem_map.mp (hperm'.mem_iff.mp ha)
    obtain ⟨f, hf, rfl⟩ := List.mem_map.mp hb
    have hkey : e.1 = f.1 := by rw [← hsame e he, ← hsame f hf, le_antisymm hab hba]
    have hget := hstored e he
    rw [hkey, hstored f hf] at hget
    rw [Option.some.inj hget]
  unfold ProgramStore.list
  rw [hout]
  exact congrArg Except.ok heq

/-- A call that keeps names apart is answered as the catalog answers it. -/
theorem call (hJ : J.ReadsBack) (h : Holds J disk cat) {c : Call} (hvalid : c.Valid)
    (hapart : cat.Apart L c) :
    (ProgramStore.call L J order disk c).1 = (cat.call L c).1 ∧
      Holds J (ProgramStore.call L J order disk c).2 (cat.call L c).2 := by
  cases c with
  | put bytes uploader storedAt =>
      unfold ProgramStore.call Catalog.call
      dsimp only
      cases hparse : ProgramStore.parsePut L bytes with
      | error e =>
          have hput : ProgramStore.put L J disk bytes uploader storedAt = .error e := by
            unfold ProgramStore.put
            rw [hparse]
            rfl
          rw [hput]
          exact ⟨rfl, h⟩
      | ok m =>
          have hfree : ∀ p : Pointer, p.name = m.id → cat.pointers p = none :=
            fun p => hapart m p hparse
          have hnofile : ∀ bytes, disk.get m.id ≠ some (.file bytes) := by
            intro bytes hfile
            obtain ⟨p, id, hname, hid⟩ := h.files _ _ hfile
            rw [hfree p hname] at hid
            cases hid
          obtain ⟨disk', files, hput, hdir, hpackage, hmeta, hframe⟩ :=
            put_ok (J := J) hparse hnofile uploader storedAt
          rw [hput]
          exact ⟨rfl, h.put hdir hpackage hmeta hframe rfl hfree⟩
  | get id =>
      unfold ProgramStore.call Catalog.call
      dsimp only
      rw [h.get_eq hJ id]
      cases cat.find id with
      | error e => exact ⟨rfl, h⟩
      | ok x => exact ⟨rfl, h⟩
  | list =>
      unfold ProgramStore.call Catalog.call
      dsimp only
      rw [h.list_eq hJ]
      exact ⟨rfl, h⟩
  | delete id =>
      unfold ProgramStore.call Catalog.call ProgramStore.delete Catalog.find
      dsimp only
      cases hid : validateProgramId id with
      | error e => exact ⟨rfl, h⟩
      | ok u =>
          cases hx : cat.programs.get id with
          | none =>
              have hdir : ¬disk.isDir id = true := by simp [h.isDir_iff, hx]
              dsimp only
              rw [if_neg hdir]
              exact ⟨rfl, h⟩
          | some x =>
              have hdir : disk.isDir id = true := by simp [h.isDir_iff, hx]
              dsimp only
              rw [if_pos hdir]
              exact ⟨rfl, h.erase hx⟩
  | setPointer p id =>
      have hnodir : ∀ files, disk.get p.name ≠ some (.dir files) := by
        intro files hdir
        obtain ⟨x, hx⟩ := h.dirs _ _ hdir
        rw [show cat.programs.get p.name = none from hapart] at hx
        cases hx
      obtain ⟨disk', hset, hfile, hframe⟩ := setPointer_ok hnodir id
      unfold ProgramStore.call Catalog.call
      dsimp only
      rw [hset]
      refine ⟨rfl, h.setPointer hfile hframe ?_ hapart⟩
      rintro i ⟨⟩
      exact hvalid
  | pointer p => exact ⟨congrArg Answer.pointed (h.pointer_eq p), h⟩

/-- A call that gives a program and a pointer one name fails, and the catalog's does not. -/
theorem call_ne (h : Holds J disk cat) {c : Call} (hapart : ¬cat.Apart L c) :
    (ProgramStore.call L J order disk c).1 ≠ (cat.call L c).1 := by
  cases c with
  | put bytes uploader storedAt =>
      obtain ⟨m, p, hparse, hname, hset⟩ : ∃ m p, ProgramStore.parsePut L bytes = .ok m ∧
          Pointer.name p = m.id ∧ cat.pointers p ≠ none := by
        simp only [Catalog.Apart] at hapart
        push Not at hapart
        exact hapart
      obtain ⟨id, hid⟩ := Option.ne_none_iff_exists'.mp hset
      have hfile := h.pointer p id hid
      rw [hname] at hfile
      have hput : ProgramStore.put L J disk bytes uploader storedAt =
          .error (.internal "File exists (os error 17)") := by
        unfold ProgramStore.put
        rw [hparse]
        dsimp only [bind, Except.bind]
        rw [putPackage_file hfile]
      unfold ProgramStore.call Catalog.call
      dsimp only
      rw [hput, hparse]
      intro heq
      cases heq
  | setPointer p id =>
      obtain ⟨x, hx⟩ := Option.ne_none_iff_exists'.mp hapart
      obtain ⟨files, hdir, -⟩ := h.program _ x hx
      unfold ProgramStore.call Catalog.call
      dsimp only
      rw [setPointer_dir hdir]
      intro heq
      cases heq
  | get id => exact absurd trivial hapart
  | list => exact absurd trivial hapart
  | delete id => exact absurd trivial hapart
  | pointer p => exact absurd trivial hapart

theorem answers_iff (hJ : J.ReadsBack) (h : Holds J disk cat) {cs : List Call}
    (hvalid : ∀ c ∈ cs, c.Valid) :
    answers (ProgramStore.call L J order) disk cs = answers (Catalog.call L) cat cs ↔
      cat.AllApart L cs := by
  induction cs generalizing disk cat with
  | nil => exact ⟨fun _ => trivial, fun _ => rfl⟩
  | cons c cs ih =>
      have htail : ∀ c ∈ cs, c.Valid := fun c hc => hvalid c (List.mem_cons_of_mem _ hc)
      unfold answers Catalog.AllApart
      by_cases hapart : cat.Apart L c
      · obtain ⟨hanswer, hnext⟩ := h.call hJ (hvalid c List.mem_cons_self) hapart
        rw [hanswer, List.cons.injEq, ih hnext htail]
        exact ⟨fun hrest => ⟨hapart, hrest.2⟩, fun hrest => ⟨rfl, hrest.2⟩⟩
      · constructor
        · intro heq
          exact absurd (List.cons.inj heq).1 (h.call_ne hapart)
        · exact fun hrest => absurd hrest.1 hapart

end Holds

end Holds

/-- **The store is a faithful map while names are apart.** From an empty directory on, the store
answers a sequence of calls as the catalog does exactly when no call stores a program under the name
of a pointer that is set, or sets a pointer of the name of a program that is stored. -/
theorem store_answers_iff {L : Libraries} {J : MetaJson} (hJ : J.ReadsBack) (order : DirOrder)
    {cs : List Call} (hvalid : ∀ c ∈ cs, c.Valid) :
    answers (ProgramStore.call L J order) .empty cs = answers (Catalog.call L) .empty cs ↔
      Catalog.AllApart L .empty cs :=
  (holds_empty J).answers_iff hJ hvalid

/-! ## A program named `current` -/

/-- A member of a JSON object, on a line of its own. -/
def jsonLine (name : String) (v : StrictValue) : List UInt8 :=
  utf8 ("  \"" ++ name ++ "\": ") ++ v.toJcs

def uploaderLine : Option String → List UInt8
  | some u => jsonLine "uploader" (.string u) ++ utf8 ",\n"
  | none => []

/-- `serde_json::to_vec_pretty`. -/
def prettyMeta (m : StoredMeta) : List UInt8 :=
  utf8 "\x7b\n" ++ (jsonLine "id" (.string m.id) ++ (utf8 ",\n" ++
    (jsonLine "version" (.string m.version) ++ (utf8 ",\n" ++
    (jsonLine "build_id" (.string m.buildId) ++ (utf8 ",\n" ++
    (jsonLine "compatibility_hash" (.string m.compatibilityHash) ++ (utf8 ",\n" ++
    (jsonLine "size" (.integer m.size) ++ (utf8 ",\n" ++
    (uploaderLine m.uploader ++
    (jsonLine "stored_at" (.integer m.storedAt) ++ utf8 "\n\x7d"))))))))))))

/-- A line ends at a comma or at the end of the object. -/
theorem jsonLine_append {name : String} {v w : StrictValue} {x y : List UInt8}
    (h : jsonLine name v ++ (utf8 ",\n" ++ x) = jsonLine name w ++ (utf8 ",\n" ++ y)) :
    v = w ∧ x = y := by
  have hcomma : ∀ z : List UInt8, NoDigit (utf8 ",\n" ++ z) := by
    rintro z b ⟨⟩
    decide
  unfold jsonLine at h
  rw [List.append_assoc, List.append_assoc] at h
  obtain ⟨hvw, hxy⟩ := StrictValue.toJcs_append (hcomma x) (hcomma y) (List.append_cancel_left h)
  exact ⟨hvw, List.append_cancel_left hxy⟩

theorem prettyMeta_injective : Function.Injective prettyMeta := by
  rintro ⟨id, version, buildId, hash, size, uploader, storedAt⟩
    ⟨id', version', buildId', hash', size', uploader', storedAt'⟩ h
  obtain ⟨⟨⟩, h⟩ := jsonLine_append (List.append_cancel_left h)
  obtain ⟨⟨⟩, h⟩ := jsonLine_append h
  obtain ⟨⟨⟩, h⟩ := jsonLine_append h
  obtain ⟨⟨⟩, h⟩ := jsonLine_append h
  obtain ⟨hnumber, h⟩ := jsonLine_append h
  have hsize : size = size' := Int.ofNat_inj.mp (StrictValue.integer.inj hnumber)
  have hlast : ∀ {m n : ℕ}, jsonLine "stored_at" (.integer m) ++ utf8 "\n\x7d" =
      jsonLine "stored_at" (.integer n) ++ utf8 "\n\x7d" → m = n := by
    intro m n heq
    have heq := List.append_cancel_left (List.append_cancel_right heq)
    exact Int.ofNat_inj.mp (StrictValue.integer.inj (StrictValue.toJcs_injective heq))
  have hmixed : ∀ x y : List UInt8,
      utf8 ("  \"" ++ "uploader" ++ "\": ") ++ x ≠ utf8 ("  \"" ++ "stored_at" ++ "\": ") ++ y := by
    intro x y heq
    have hfourth : some (117 : UInt8) = some 115 := congrArg (fun l => l[3]?) heq
    exact absurd hfourth (by decide)
  cases uploader with
  | none =>
      cases uploader' with
      | none =>
          have hstored : storedAt = storedAt' := hlast h
          rw [hsize, hstored]
      | some u' =>
          simp only [uploaderLine, jsonLine, List.append_assoc] at h
          exact absurd h.symm (hmixed _ _)
  | some u =>
      cases uploader' with
      | none =>
          simp only [uploaderLine, jsonLine, List.append_assoc] at h
          exact absurd h (hmixed _ _)
      | some u' =>
          simp only [uploaderLine, List.append_assoc] at h
          obtain ⟨⟨⟩, hrest⟩ := jsonLine_append h
          have hstored : storedAt = storedAt' := hlast hrest
          rw [hsize, hstored]

open Classical in
/-- `serde_json` on metadata in plain text. -/
noncomputable def demoMetaJson : MetaJson where
  print := prettyMeta
  read bytes :=
    if h : ∃ m, prettyMeta m = bytes then .ok h.choose else .error "expected value"

theorem demoMetaJson_readsBack : demoMetaJson.ReadsBack := by
  intro m
  have hex : ∃ m', prettyMeta m' = prettyMeta m := ⟨m, rfl⟩
  have hsame : hex.choose = m := prettyMeta_injective hex.choose_spec
  exact (dif_pos hex).trans (congrArg Except.ok hsame)

/-- A small package with an id. -/
def namedManifest (id : String) : Manifest :=
  { minimalManifest minimalHash with id := id, version := "1.0.0" }

def namedPackage (id : String) : List UInt8 :=
  spkgBytes (StrictValue.object (namedManifest id).sortedDocument).toJcs [spbcMagic]
    (List.replicate signatureLen 0)

theorem parsePut_named {id : String} (hid : validateProgramId id = .ok ())
    (hfields : (namedManifest id).validateFields demoLibraries = .ok ())
    (hsize : (namedPackage id).length ≤ maxPackageBytes) :
    ProgramStore.parsePut demoLibraries (namedPackage id) = .ok (namedManifest id) := by
  have hfits : (namedManifest id).Fits := by
    constructor <;> simp [namedManifest, minimalManifest]
  have hread := Manifest.fromJsonBytes_toJcsBytes demoLibraries_readsBack hfits hfields
  have hparse := parseSpkg_spkgBytes hread (by simp) List.length_replicate hsize
  unfold ProgramStore.parsePut
  rw [show parseSpkg demoLibraries (namedPackage id) = _ from hparse]
  dsimp only [orApiError, bind, Except.bind]
  rw [show validateProgramId (namedManifest id).id = _ from hid]

/-- Directories are listed in the order of their names. -/
def DirOrder.byName : DirOrder where
  listed entries := entries
  perm entries := .refl entries

/-- A program named `pump` is stored and made current. -/
theorem pump_becomes_current :
    let calls : List Call := [.put (namedPackage "pump") (some "alice") 0,
      .setPointer .current (some "pump"), .pointer .current]
    answers (ProgramStore.call demoLibraries demoMetaJson .byName) .empty calls =
      answers (Catalog.call demoLibraries) .empty calls := by
  intro calls
  apply (store_answers_iff demoMetaJson_readsBack .byName ?_).mpr
  · refine ⟨fun _ _ _ _ => rfl, ?_, trivial, trivial⟩
    have hparse : ProgramStore.parsePut demoLibraries (namedPackage "pump") = .ok (namedManifest "pump") :=
      parsePut_named (except_of_toOption (by decide +kernel)) (except_of_toOption (by decide +kernel))
        (by decide +kernel)
    show Catalog.Apart _ _ _
    unfold Catalog.call
    dsimp only
    rw [hparse]
    exact SortedMap.get_insert_of_ne (by decide)
  · intro c hc
    simp only [calls, List.mem_cons, List.not_mem_nil, or_false] at hc
    rcases hc with rfl | rfl | rfl
    · trivial
    · exact except_of_toOption (by decide +kernel)
    · trivial

/-- A program with the name of a pointer is stored. From then on the pointer cannot be set. -/
theorem answers_of_pointer_name {L : Libraries} {J : MetaJson} {order : DirOrder}
    {bytes : List UInt8} {m : Manifest} {p : Pointer} (hparse : ProgramStore.parsePut L bytes = .ok m)
    (hid : m.id = p.name) (uploader : Option String) (storedAt : ℕ) (id : String) :
    let calls : List Call := [.put bytes uploader storedAt, .setPointer p (some id), .pointer p]
    answers (ProgramStore.call L J order) .empty calls =
        [.stored (storedMeta m bytes uploader storedAt),
          .failed (.internal "Is a directory (os error 21)"), .pointed none] ∧
      answers (Catalog.call L) .empty calls =
        [.stored (storedMeta m bytes uploader storedAt), .done, .pointed (some id)] := by
  intro calls
  have hempty : ∀ bytes, (SortedMap.empty : Disk).get m.id ≠ some (Node.file bytes) := by
    intro bytes h
    cases h
  obtain ⟨disk, files, hput, hdir, -⟩ := put_ok (J := J) hparse hempty uploader storedAt
  rw [hid] at hdir
  have hnone : ProgramStore.pointer disk p.name = none := by
    unfold ProgramStore.pointer Disk.readToString
    rw [hdir]
  constructor
  · simp only [calls, answers, ProgramStore.call, hput, answering, setPointer_dir hdir, hnone]
  · simp only [calls, answers, Catalog.call, hparse, answering, Function.update_self]

/-- A program named `current` is stored; the pointer `current` cannot be set to `pump`. -/
theorem current_stops_its_pointer :
    let calls : List Call := [.put (namedPackage "current") (some "alice") 0,
      .setPointer .current (some "pump"), .pointer .current]
    answers (ProgramStore.call demoLibraries demoMetaJson .byName) .empty calls =
        [.stored (storedMeta (namedManifest "current") (namedPackage "current") (some "alice") 0),
          .failed (.internal "Is a directory (os error 21)"), .pointed none] ∧
      answers (Catalog.call demoLibraries) .empty calls =
        [.stored (storedMeta (namedManifest "current") (namedPackage "current") (some "alice") 0),
          .done, .pointed (some "pump")] := by
  have hparse : ProgramStore.parsePut demoLibraries (namedPackage "current") =
      .ok (namedManifest "current") :=
    parsePut_named (except_of_toOption (by decide +kernel)) (except_of_toOption (by decide +kernel))
      (by decide +kernel)
  have hid : (namedManifest "current").id = Pointer.current.name := rfl
  exact answers_of_pointer_name hparse hid (some "alice") 0 "pump"

end SoftPlc.Api

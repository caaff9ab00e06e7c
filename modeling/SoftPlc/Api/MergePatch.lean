import SoftPlc.Api.Merge
import SoftPlc.Lib.Bind

/-!
# Merge patches and RFC 7396

`mergePatch` is the function of RFC 7396, and `merge` the one of `plc-api/src/routes/config.rs`. They
part where a patch has an object and the base has none: RFC 7396 merges it into an empty object, which
drops its null members, and the source takes it as it is. So the two agree exactly when every null
member of the patch lies in an object that the base has too (`merge_rfc7396_iff`).
-/

namespace SoftPlc.Api

open SoftPlc.Lib

namespace JsonValue

/-! ## The reference -/

/-- The members of a target, none if it is no object. -/
def membersOf : JsonValue → List (String × JsonValue)
  | .object members => members
  | _ => []

mutual

/-- RFC 7396, `MergePatch(Target, Patch)`. A target that is not there is `null`, which is no object. -/
def mergePatch (target : JsonValue) : JsonValue → JsonValue
  | .object patch => .object (applyMembers target.membersOf patch)
  | value => value

/-- RFC 7396, the loop over the members of the patch. -/
def applyMembers (members : List (String × JsonValue)) : List (String × JsonValue) →
    List (String × JsonValue)
  | [] => members
  | (name, value) :: patch =>
      match value with
      | .null => applyMembers (removeKey members name) patch
      | value =>
          applyMembers (setKey members name (mergePatch ((members.lookup name).getD .null) value))
            patch

end

/-- The value at a path of keys. -/
def member (v : JsonValue) : List String → Option JsonValue
  | [] => some v
  | key :: path => (v.membersOf.lookup key).bind fun w => w.member path

/-- Every null member of the patch lies in an object that the base has too. -/
def NullsMet (base patch : JsonValue) : Prop :=
  ∀ path key, patch.member (path ++ [key]) = some .null →
    ∃ members, base.member path = some (.object members)

/-- No null member of the patch is in the result. -/
def NullsGone (result patch : JsonValue) : Prop :=
  ∀ path key, patch.member (path ++ [key]) = some .null →
    result.member (path ++ [key]) ≠ some .null

/-! ## The reference, key by key -/

theorem mergePatch_object {target : JsonValue} {b : List (String × JsonValue)} :
    mergePatch target (.object b) = .object (applyMembers target.membersOf b) := by
  rw [mergePatch]

theorem mergePatch_of_not_object {target v : JsonValue} (h : v.isObject = false) :
    mergePatch target v = v := by
  cases v with
  | object => cases h
  | _ => rw [mergePatch]; intro patch hv; cases hv

/-- **The members of the reference.** -/
theorem applyMembers_spec {a b : List (String × JsonValue)} (ha : SortedKeys a) (hb : SortedKeys b) :
    SortedKeys (applyMembers a b) ∧ ∀ key,
      (b.lookup key = none → (applyMembers a b).lookup key = a.lookup key) ∧
      (b.lookup key = some .null → (applyMembers a b).lookup key = none) ∧
      ∀ v, v ≠ .null → b.lookup key = some v →
        (applyMembers a b).lookup key = some (mergePatch ((a.lookup key).getD .null) v) := by
  refine @patchMembers_spec (fun cur v => mergePatch (cur.getD .null) v) applyMembers ?_ ?_ ?_ a b ha hb
  · intro a
    rw [applyMembers]
  · intro a k b
    rw [applyMembers]
  · intro a k v b hv
    rw [applyMembers]
    exact hv

/-! ## Paths -/

section Paths

variable {a b r : List (String × JsonValue)} {v : JsonValue} {key : String} {path : List String}

theorem member_object_cons :
    (object a).member (key :: path) = (a.lookup key).bind fun w => w.member path := rfl

/-- Nothing lies in a value that is no object. -/
theorem member_of_not_object (h : v.isObject = false) : v.member (path ++ [key]) = none := by
  have hnone : v.membersOf = [] := by
    cases v with
    | object => cases h
    | _ => rfl
  cases path with
  | nil =>
      rw [List.nil_append, member, hnone]
      rfl
  | cons k path =>
      rw [List.cons_append, member, hnone]
      rfl

/-- A value that is no object has no object at any path. -/
theorem member_ne_object (h : v.isObject = false) : v.member path ≠ some (.object a) := by
  intro hmember
  rcases List.eq_nil_or_concat path with rfl | ⟨front, last, rfl⟩
  · cases hmember
    cases h
  · rw [List.concat_eq_append, member_of_not_object h] at hmember
    cases hmember

/-- A null at the end of a path into an object. -/
theorem null_below {k : String} (h : (object b).member (key :: path ++ [k]) = some .null) :
    ∃ v, b.lookup key = some v ∧ v ≠ .null ∧ v.member (path ++ [k]) = some .null := by
  rw [List.cons_append, member_object_cons] at h
  obtain ⟨v, hv, hnull⟩ := Option.bind_eq_some_iff.mp h
  refine ⟨v, hv, ?_, hnull⟩
  intro hv
  subst hv
  rw [member_of_not_object rfl] at hnull
  cases hnull

theorem null_above {k : String} (hv : b.lookup key = some v)
    (h : v.member (path ++ [k]) = some .null) :
    (object b).member (key :: path ++ [k]) = some .null := by
  rw [List.cons_append, member_object_cons, hv]
  exact h

theorem nullsMet_of_not_object {base patch : JsonValue} (h : patch.isObject = false) :
    NullsMet base patch := by
  intro path key hnull
  rw [member_of_not_object h] at hnull
  cases hnull

/-- Objects on both sides: the members of the patch, each against what is under its key. -/
theorem nullsMet_object : NullsMet (.object a) (.object b) ↔
    ∀ key v, b.lookup key = some v → v ≠ .null → NullsMet ((a.lookup key).getD .null) v := by
  constructor
  · intro h key v hv _ path k hnull
    obtain ⟨members, hmembers⟩ := h (key :: path) k (null_above hv hnull)
    rw [member_object_cons] at hmembers
    obtain ⟨cur, hcur, hmember⟩ := Option.bind_eq_some_iff.mp hmembers
    rw [hcur]
    exact ⟨members, hmember⟩
  · intro h path k hnull
    cases path with
    | nil => exact ⟨a, rfl⟩
    | cons key path =>
        obtain ⟨v, hv, hne, hbelow⟩ := null_below hnull
        obtain ⟨members, hmembers⟩ := h key v hv hne path k hbelow
        rw [member_object_cons]
        rcases hcur : a.lookup key with _ | cur
        · rw [hcur] at hmembers
          exact absurd hmembers (member_ne_object rfl)
        · rw [hcur] at hmembers
          exact ⟨members, hmembers⟩

/-- An object of the patch only: no null at all. -/
theorem nullsMet_fresh {base : JsonValue} (hbase : base.isObject = false) :
    NullsMet base (.object b) ↔
      ∀ key v, b.lookup key = some v → v ≠ .null ∧ NullsMet .null v := by
  constructor
  · intro h key v hv
    constructor
    · intro hnull
      subst hnull
      obtain ⟨members, hmembers⟩ := h [] key (by rw [List.nil_append, member_object_cons, hv]; rfl)
      exact member_ne_object hbase hmembers
    · intro path k hnull
      obtain ⟨members, hmembers⟩ := h (key :: path) k (null_above hv hnull)
      exact absurd hmembers (member_ne_object hbase)
  · intro h path k hnull
    exfalso
    cases path with
    | nil =>
        rw [List.nil_append, member_object_cons] at hnull
        obtain ⟨v, hv, hmember⟩ := Option.bind_eq_some_iff.mp hnull
        exact (h k v hv).1 (Option.some.inj hmember)
    | cons key path =>
        obtain ⟨v, hv, -, hbelow⟩ := null_below hnull
        obtain ⟨members, hmembers⟩ := (h key v hv).2 path k hbelow
        exact member_ne_object rfl hmembers

theorem nullsGone_of_not_object {result patch : JsonValue} (h : patch.isObject = false) :
    NullsGone result patch := by
  intro path key hnull
  rw [member_of_not_object h] at hnull
  cases hnull

theorem nullsGone_object : NullsGone (.object r) (.object b) ↔
    ∀ key v, b.lookup key = some v →
      (v = .null → r.lookup key ≠ some .null) ∧ ∀ w, r.lookup key = some w → NullsGone w v := by
  constructor
  · intro h key v hv
    constructor
    · intro hnull hr
      subst hnull
      refine h [] key ?_ ?_
      · rw [List.nil_append, member_object_cons, hv]
        rfl
      · rw [List.nil_append, member_object_cons, hr]
        rfl
    · intro w hw path k hnull hleft
      exact h (key :: path) k (null_above hv hnull) (null_above hw hleft)
  · intro h path k hnull hleft
    cases path with
    | nil =>
        rw [List.nil_append, member_object_cons] at hnull hleft
        obtain ⟨v, hv, hmember⟩ := Option.bind_eq_some_iff.mp hnull
        obtain ⟨w, hw, hmember'⟩ := Option.bind_eq_some_iff.mp hleft
        rw [Option.some.inj hmember'] at hw
        exact (h k v hv).1 (Option.some.inj hmember) hw
    | cons key path =>
        obtain ⟨v, hv, -, hbelow⟩ := null_below hnull
        obtain ⟨w, hw, -, hbelow'⟩ := null_below hleft
        exact (h key v hv).2 w hw path k hbelow hbelow'

end Paths

/-! ## Agreement -/

section Agreement

variable {a b : List (String × JsonValue)}

/-- What `merge` puts under a key that the patch sets is a merge into what was there. -/
theorem merge_child (cur : Option JsonValue) (v : JsonValue) :
    placed cur v = merge (cur.getD .null) v := by
  cases cur with
  | none => exact (merge_of_not_object (.inl rfl)).symm
  | some cur => rfl

/-- What was under a key. -/
theorem ordered_child {key : String} (h : (JsonValue.object a).Ordered) :
    ((a.lookup key).getD .null).Ordered := by
  cases h with
  | leaf h => cases h
  | object _ h =>
      rcases hcur : a.lookup key with _ | cur
      · exact .leaf rfl
      · exact h key cur hcur

theorem merge_eq_object (ha : SortedKeys a) (hb : SortedKeys b) :
    merge (.object a) (.object b) = mergePatch (.object a) (.object b) ↔
      ∀ key v, b.lookup key = some v → v ≠ .null →
        merge ((a.lookup key).getD .null) v = mergePatch ((a.lookup key).getD .null) v := by
  obtain ⟨hsorted, hlookup⟩ := mergeMembers_spec ha hb
  obtain ⟨hsorted', hlookup'⟩ := applyMembers_spec ha hb
  rw [merge_object, mergePatch_object]
  constructor
  · intro h key v hv hne
    have hkey : (mergeMembers a b).lookup key = (applyMembers a b).lookup key := by
      rw [JsonValue.object.inj h]
      rfl
    rw [hlookup, hv, patched_set hne, (hlookup' key).2.2 v hne hv, merge_child] at hkey
    exact Option.some.inj hkey
  · intro h
    apply object_ext hsorted hsorted'
    intro key
    rw [hlookup]
    rcases hv : b.lookup key with _ | v
    · exact ((hlookup' key).1 hv).symm
    · by_cases hne : v = .null
      · subst hne
        exact ((hlookup' key).2.1 hv).symm
      · rw [patched_set hne, (hlookup' key).2.2 v hne hv, merge_child, h key v hv hne]

theorem merge_eq_fresh {base : JsonValue} (hbase : base.isObject = false) (hb : SortedKeys b) :
    merge base (.object b) = mergePatch base (.object b) ↔
      ∀ key v, b.lookup key = some v → v ≠ .null ∧ merge .null v = mergePatch .null v := by
  have hmembers : base.membersOf = [] := by
    cases base with
    | object => cases hbase
    | _ => rfl
  obtain ⟨hsorted, hlookup⟩ := applyMembers_spec (a := []) List.Pairwise.nil hb
  rw [merge_of_not_object (.inl hbase), mergePatch_object, hmembers]
  constructor
  · intro h key v hv
    have hkey : b.lookup key = (applyMembers [] b).lookup key := by
      rw [← JsonValue.object.inj h]
    by_cases hne : v = .null
    · subst hne
      rw [(hlookup key).2.1 hv, hv] at hkey
      cases hkey
    · rw [(hlookup key).2.2 v hne hv, hv] at hkey
      refine ⟨hne, ?_⟩
      rw [merge_of_not_object (.inl rfl)]
      exact Option.some.inj hkey
  · intro h
    apply object_ext hb hsorted
    intro key
    rcases hv : b.lookup key with _ | v
    · exact ((hlookup key).1 hv).symm
    · obtain ⟨hne, heq⟩ := h key v hv
      rw [merge_of_not_object (.inl rfl)] at heq
      rw [(hlookup key).2.2 v hne hv]
      exact congrArg some heq

theorem nullsGone_merge (ha : SortedKeys a) (hb : SortedKeys b) :
    NullsGone (merge (.object a) (.object b)) (.object b) ↔
      ∀ key v, b.lookup key = some v → v ≠ .null →
        NullsGone (merge ((a.lookup key).getD .null) v) v := by
  obtain ⟨-, hlookup⟩ := mergeMembers_spec ha hb
  rw [merge_object, nullsGone_object]
  constructor
  · intro h key v hv hne
    refine (h key v hv).2 _ ?_
    rw [hlookup, hv, patched_set hne, merge_child]
  · intro h key v hv
    by_cases hne : v = .null
    · subst hne
      have hgone : (mergeMembers a b).lookup key = none := by
        rw [hlookup, hv]
        rfl
      rw [hgone]
      exact ⟨(fun _ h => by cases h), (fun w h => by cases h)⟩
    · refine ⟨fun hnull => absurd hnull hne, ?_⟩
      intro w hw
      rw [hlookup, hv, patched_set hne, merge_child] at hw
      rw [← Option.some.inj hw]
      exact h key v hv hne

theorem nullsGone_fresh {base : JsonValue} (hbase : base.isObject = false) :
    NullsGone (merge base (.object b)) (.object b) ↔
      ∀ key v, b.lookup key = some v → v ≠ .null ∧ NullsGone (merge .null v) v := by
  rw [merge_of_not_object (.inl hbase), nullsGone_object]
  constructor
  · intro h key v hv
    constructor
    · intro hnull
      exact (h key v hv).1 hnull (by rw [hv, hnull])
    · rw [merge_of_not_object (.inl rfl)]
      exact (h key v hv).2 v hv
  · intro h key v hv
    obtain ⟨hne, hgone⟩ := h key v hv
    rw [merge_of_not_object (.inl rfl)] at hgone
    refine ⟨fun hnull => absurd hnull hne, ?_⟩
    intro w hw
    rw [hv] at hw
    rwa [← Option.some.inj hw]

end Agreement

/-- **`PATCH /config` is RFC 7396 exactly** when every null member of the patch lies in an object that
the base has too, and exactly then no null member of the patch is in the result. -/
theorem merge_rfc7396_iff {base patch : JsonValue} (hbase : base.Ordered) (hpatch : patch.Ordered) :
    (merge base patch = mergePatch base patch ↔ NullsMet base patch) ∧
      (NullsGone (merge base patch) patch ↔ NullsMet base patch) := by
  induction hpatch generalizing base with
  | @leaf patch hobject =>
      rw [merge_of_not_object (.inr hobject), mergePatch_of_not_object hobject]
      exact ⟨iff_of_true rfl (nullsMet_of_not_object hobject),
        iff_of_true (nullsGone_of_not_object hobject) (nullsMet_of_not_object hobject)⟩
  | @object b hsorted _ ih =>
      by_cases hobject : base.isObject = true
      · cases hbase with
        | leaf hleaf => exact absurd hobject (by rw [hleaf]; decide)
        | @object a ha hchild =>
            have hstep := fun key v hv => @ih key v hv ((a.lookup key).getD .null)
              (ordered_child (.object ha hchild))
            rw [merge_eq_object ha hsorted, nullsGone_merge ha hsorted, nullsMet_object]
            constructor
            · exact forall_congr' fun key => forall_congr' fun v => forall_congr' fun hv =>
                forall_congr' fun _ => (hstep key v hv).1
            · exact forall_congr' fun key => forall_congr' fun v => forall_congr' fun hv =>
                forall_congr' fun _ => (hstep key v hv).2
      · have hfresh : base.isObject = false := by simpa using hobject
        have hstep := fun key v hv => @ih key v hv .null (.leaf rfl)
        rw [merge_eq_fresh hfresh hsorted, nullsGone_fresh hfresh, nullsMet_fresh hfresh]
        constructor
        · exact forall_congr' fun key => forall_congr' fun v => forall_congr' fun hv =>
            and_congr_right fun _ => (hstep key v hv).1
        · exact forall_congr' fun key => forall_congr' fun v => forall_congr' fun hv =>
            and_congr_right fun _ => (hstep key v hv).2

/-- A patch with one null, in an object. -/
def clearing (key inner : String) : JsonValue := .object [(key, .object [(inner, .null)])]

theorem of_lookup_singleton {key k : String} {v w : JsonValue} (h : [(k, v)].lookup key = some w) :
    key = k ∧ w = v := by
  have hmem := mem_of_lookup h
  rw [List.mem_singleton, Prod.mk.injEq] at hmem
  exact hmem

/-- A map with one member. -/
theorem ordered_singleton {key : String} {v : JsonValue} (h : v.Ordered) :
    (JsonValue.object [(key, v)]).Ordered := by
  refine .object (List.pairwise_singleton _ _) ?_
  intro k w hw
  obtain ⟨-, rfl⟩ := of_lookup_singleton hw
  exact h

/-- A null where the base has an object too. -/
theorem merge_rfc7396_met :
    merge (.object [("program", .object [("id", .int 1)])]) (clearing "program" "id") =
        mergePatch (.object [("program", .object [("id", .int 1)])]) (clearing "program" "id") ∧
      NullsGone (merge (.object [("program", .object [("id", .int 1)])]) (clearing "program" "id"))
        (clearing "program" "id") := by
  obtain ⟨hmerge, hgone⟩ := @merge_rfc7396_iff (.object [("program", .object [("id", .int 1)])])
    (clearing "program" "id") (ordered_singleton (ordered_singleton (.leaf rfl)))
    (ordered_singleton (ordered_singleton (.leaf rfl)))
  have hmet : NullsMet (.object [("program", .object [("id", .int 1)])])
      (clearing "program" "id") := by
    refine nullsMet_object.mpr fun key v hv _ => ?_
    obtain ⟨rfl, rfl⟩ := of_lookup_singleton hv
    refine nullsMet_object.mpr fun key v hv hne => ?_
    obtain ⟨-, rfl⟩ := of_lookup_singleton hv
    exact absurd rfl hne
  exact ⟨hmerge.mpr hmet, hgone.mpr hmet⟩

/-- A null below a key that the base has not stays in the result. -/
theorem merge_keeps_null :
    merge (.object []) (clearing "program" "id") ≠
        mergePatch (.object []) (clearing "program" "id") ∧
      ¬NullsGone (merge (.object []) (clearing "program" "id")) (clearing "program" "id") := by
  have hmerged : merge (.object []) (clearing "program" "id") = clearing "program" "id" := by
    rw [clearing, merge_object, mergeMembers_set (by intro h; cases h), mergeMembers]
    rfl
  have hreference : mergePatch (.object []) (clearing "program" "id") =
      .object [("program", .object [])] := by
    rw [clearing, mergePatch_object, applyMembers, mergePatch_object]
    · simp only [applyMembers]
      rfl
    · intro h
      cases h
  constructor
  · rw [hmerged, hreference, clearing]
    intro h
    injection h with h
    injection h with h
    injection h with _ h
    injection h with h
    cases h
  · intro h
    refine h ["program"] "id" ?_ ?_
    · simp [clearing, member, membersOf]
    · rw [hmerged]
      simp [clearing, member, membersOf]

end JsonValue

end SoftPlc.Api

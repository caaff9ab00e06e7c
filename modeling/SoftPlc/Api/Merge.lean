import SoftPlc.Lib.SortedMap

/-!
# Merge patches

`plc-api/src/routes/config.rs`, `merge`. The members of an object stand for the source's map, in key
order. A patch that only sets keys leaves what it set when it is merged once more
(`merge_merge_self`), and two patches that set disjoint keys can be merged in either order
(`merge_comm_of_apart`).
-/

namespace SoftPlc.Api

open SoftPlc.Lib

/-- Source: `serde_json::Value`. -/
inductive JsonValue where
  | null
  | bool (b : Bool)
  | int (n : ℤ)
  | float (bits : UInt64)
  | string (s : String)
  | array (items : List JsonValue)
  | object (members : List (String × JsonValue))

namespace JsonValue

/-- Source: `Value::is_object`. -/
def isObject : JsonValue → Bool
  | .object _ => true
  | _ => false

/-- Source: `Map::remove`. -/
def removeKey (a : List (String × JsonValue)) (k : String) : List (String × JsonValue) :=
  a.filter fun e => e.1 ≠ k

/-- Source: `Map::insert`. -/
def setKey (a : List (String × JsonValue)) (k : String) (v : JsonValue) : List (String × JsonValue) :=
  insertSorted k v (removeKey a k)

mutual

/-- Source: `config.rs`, `merge`. -/
def merge (base : JsonValue) : JsonValue → JsonValue
  | .object b =>
      match base with
      | .object a => .object (mergeMembers a b)
      | _ => .object b
  | p => p

/-- Source: `config.rs`, the `for` of `merge`. -/
def mergeMembers (a : List (String × JsonValue)) : List (String × JsonValue) →
    List (String × JsonValue)
  | [] => a
  | (k, v) :: b =>
      match v with
      | .null => mergeMembers (removeKey a k) b
      | v =>
          let next := match a.lookup k with
            | some cur => if cur.isObject && v.isObject then merge cur v else v
            | none => v
          mergeMembers (setKey a k next) b

end

end JsonValue

namespace JsonValue

section Members

variable {a : List (String × JsonValue)} {k key : String} {v : JsonValue}

theorem sorted_removeKey (h : SortedKeys a) (k : String) : SortedKeys (removeKey a k) :=
  List.Pairwise.sublist (List.filter_sublist.map _) h

theorem sorted_setKey (h : SortedKeys a) (k : String) (v : JsonValue) : SortedKeys (setKey a k v) :=
  SortedMap.insert (⟨a, h⟩ : SortedMap String JsonValue) k v |>.2

theorem lookup_removeKey (h : SortedKeys a) (k key : String) :
    (removeKey a k).lookup key = if key = k then none else a.lookup key := by
  by_cases hkey : key = k
  · subst hkey
    rw [if_pos rfl]
    exact SortedMap.get_erase_self (m := ⟨a, h⟩)
  · rw [if_neg hkey]
    exact SortedMap.get_erase_of_ne (m := ⟨a, h⟩) hkey

theorem lookup_setKey (h : SortedKeys a) (k key : String) (v : JsonValue) :
    (setKey a k v).lookup key = if key = k then some v else a.lookup key := by
  by_cases hkey : key = k
  · subst hkey
    rw [if_pos rfl]
    exact SortedMap.get_insert_self (m := ⟨a, h⟩)
  · rw [if_neg hkey]
    exact SortedMap.get_insert_of_ne (m := ⟨a, h⟩) hkey

end Members

/-- What a patch makes of the value of a key. -/
def placed : Option JsonValue → JsonValue → JsonValue
  | none, v => v
  | some cur, v => merge cur v

theorem merge_of_not_object {cur v : JsonValue} (h : cur.isObject = false ∨ v.isObject = false) :
    merge cur v = v := by
  rcases v with _ | _ | _ | _ | _ | _ | b
  case object =>
    rcases cur with _ | _ | _ | _ | _ | _ | a
    case object => exact absurd h (by simp [isObject])
    all_goals rfl
  all_goals rfl

/-- The member that a patch sets. -/
theorem mergeMembers_set {a b : List (String × JsonValue)} {k : String} {v : JsonValue}
    (h : v ≠ .null) :
    mergeMembers a ((k, v) :: b) = mergeMembers (setKey a k (placed (a.lookup k) v)) b := by
  have hnext : (match a.lookup k with
      | some cur => if cur.isObject && v.isObject then merge cur v else v
      | none => v) = placed (a.lookup k) v := by
    rcases a.lookup k with _ | cur
    · rfl
    · dsimp only [placed]
      by_cases hboth : (cur.isObject && v.isObject) = true
      · rw [if_pos hboth]
      · rw [if_neg hboth, merge_of_not_object]
        rw [← Bool.and_eq_false_iff]
        exact Bool.not_eq_true _ ▸ hboth
  rw [mergeMembers]
  · rw [hnext]
  · exact h

theorem mergeMembers_null {a b : List (String × JsonValue)} {k : String} :
    mergeMembers a ((k, .null) :: b) = mergeMembers (removeKey a k) b := by
  rw [mergeMembers]

/-- What is under a key after a patch. -/
def patched (cur : Option JsonValue) : Option JsonValue → Option JsonValue
  | none => cur
  | some .null => none
  | some v => some (placed cur v)

theorem patched_set {cur : Option JsonValue} {v : JsonValue} (h : v ≠ .null) :
    patched cur (some v) = some (placed cur v) := by
  cases v with
  | null => exact absurd rfl h
  | _ => rfl

/-- Members patched one after the other, key by key: a null removes, another value goes where `next`
puts it. -/
theorem patchMembers_spec {next : Option JsonValue → JsonValue → JsonValue}
    {f : List (String × JsonValue) → List (String × JsonValue) → List (String × JsonValue)}
    (hnil : ∀ a, f a [] = a)
    (hnull : ∀ a k b, f a ((k, .null) :: b) = f (removeKey a k) b)
    (hset : ∀ a k v b, v ≠ .null → f a ((k, v) :: b) = f (setKey a k (next (a.lookup k) v)) b)
    {a b : List (String × JsonValue)} (ha : SortedKeys a) (hb : SortedKeys b) :
    SortedKeys (f a b) ∧ ∀ key,
      (b.lookup key = none → (f a b).lookup key = a.lookup key) ∧
      (b.lookup key = some .null → (f a b).lookup key = none) ∧
      ∀ v, v ≠ .null → b.lookup key = some v →
        (f a b).lookup key = some (next (a.lookup key) v) := by
  induction b generalizing a with
  | nil =>
      rw [hnil]
      refine ⟨ha, fun key => ⟨fun _ => rfl, ?_, ?_⟩⟩
      · intro h
        cases h
      · intro v _ h
        cases h
  | cons e b ih =>
      obtain ⟨k, w⟩ := e
      obtain ⟨hhead, htail⟩ := List.pairwise_cons.mp hb
      have hfresh : b.lookup k = none := by
        rw [List.lookup_eq_none_iff]
        intro e he
        exact bne_iff_ne.mpr (ne_of_lt (hhead e.1 (List.mem_map_of_mem he)))
      -- the members after the first, in a map that differs at its key only
      have hother : ∀ {a' : List (String × JsonValue)} {key : String}, key ≠ k →
          a'.lookup key = a.lookup key →
          ((b.lookup key = none → (f a' b).lookup key = a'.lookup key) ∧
            (b.lookup key = some .null → (f a' b).lookup key = none) ∧
            ∀ v, v ≠ .null → b.lookup key = some v →
              (f a' b).lookup key = some (next (a'.lookup key) v)) →
          (((k, w) :: b).lookup key = none → (f a' b).lookup key = a.lookup key) ∧
            (((k, w) :: b).lookup key = some .null → (f a' b).lookup key = none) ∧
            ∀ v, v ≠ .null → ((k, w) :: b).lookup key = some v →
              (f a' b).lookup key = some (next (a.lookup key) v) := by
        intro a' key hkey hsame h
        rw [List.lookup_cons, beq_eq_false_iff_ne.mpr hkey, ← hsame]
        exact h
      by_cases hw : w = .null
      · subst hw
        rw [hnull]
        obtain ⟨hsorted, hlookup⟩ := ih (sorted_removeKey ha k) htail
        refine ⟨hsorted, fun key => ?_⟩
        by_cases hkey : key = k
        · subst hkey
          have hgone : (f (removeKey a key) b).lookup key = none := by
            rw [(hlookup key).1 hfresh, lookup_removeKey ha, if_pos rfl]
          rw [List.lookup_cons, beq_self_eq_true]
          refine ⟨(fun h => by cases h), (fun _ => hgone), ?_⟩
          intro v hv h
          exact absurd (Option.some.inj h).symm hv
        · refine hother hkey ?_ (hlookup key)
          rw [lookup_removeKey ha, if_neg hkey]
      · rw [hset _ _ _ _ hw]
        obtain ⟨hsorted, hlookup⟩ := ih (sorted_setKey ha k (next (a.lookup k) w)) htail
        refine ⟨hsorted, fun key => ?_⟩
        by_cases hkey : key = k
        · subst hkey
          have hput : (f (setKey a key (next (a.lookup key) w)) b).lookup key =
              some (next (a.lookup key) w) := by
            rw [(hlookup key).1 hfresh, lookup_setKey ha, if_pos rfl]
          rw [List.lookup_cons, beq_self_eq_true]
          refine ⟨(fun h => by cases h), (fun h => absurd (Option.some.inj h) hw), ?_⟩
          intro v hv h
          obtain rfl := Option.some.inj h
          exact hput
        · refine hother hkey ?_ (hlookup key)
          rw [lookup_setKey ha, if_neg hkey]

/-- **Merged members, key by key.** -/
theorem mergeMembers_spec {a b : List (String × JsonValue)} (ha : SortedKeys a) (hb : SortedKeys b) :
    SortedKeys (mergeMembers a b) ∧
      ∀ key, (mergeMembers a b).lookup key = patched (a.lookup key) (b.lookup key) := by
  have hnil : ∀ a, mergeMembers a [] = a := fun a => by rw [mergeMembers]
  obtain ⟨hsorted, hlookup⟩ := patchMembers_spec hnil (fun _ _ _ => mergeMembers_null)
    (fun _ _ _ _ => mergeMembers_set) ha hb
  refine ⟨hsorted, fun key => ?_⟩
  obtain ⟨hnone, hnull, hset⟩ := hlookup key
  rcases hkey : b.lookup key with _ | v
  · exact hnone hkey
  · by_cases hv : v = .null
    · subst hv
      exact hnull hkey
    · rw [patched_set hv]
      exact hset v hv hkey

/-! ## Patches that set keys -/

/-- The members of every object come in key order. -/
inductive Ordered : JsonValue → Prop
  | leaf {v : JsonValue} (h : v.isObject = false) : Ordered v
  | object {members : List (String × JsonValue)} (hsorted : SortedKeys members)
      (h : ∀ k v, members.lookup k = some v → Ordered v) : Ordered (.object members)

/-- A patch that only sets keys: no member of an object is null. -/
inductive Sets : JsonValue → Prop
  | leaf {v : JsonValue} (hnull : v ≠ .null) (hobject : v.isObject = false) : Sets v
  | object {members : List (String × JsonValue)} (hsorted : SortedKeys members)
      (h : ∀ k v, members.lookup k = some v → Sets v) : Sets (.object members)

/-- Patches that set disjoint keys: under a key of both are objects of which this holds. -/
inductive Apart : JsonValue → JsonValue → Prop
  | object {a b : List (String × JsonValue)}
      (h : ∀ k v w, a.lookup k = some v → b.lookup k = some w → Apart v w) :
      Apart (.object a) (.object b)

theorem Sets.ne_null {v : JsonValue} (h : v.Sets) : v ≠ .null := by
  cases h with
  | leaf hnull _ => exact hnull
  | object => exact fun h => by cases h

theorem Apart.symm {p q : JsonValue} (h : Apart p q) : Apart q p := by
  induction h with
  | object h ih => exact .object fun k v w hv hw => ih k w v hw hv

/-- Two objects in key order are equal when they find the same. -/
theorem object_ext {a b : List (String × JsonValue)} (ha : SortedKeys a) (hb : SortedKeys b)
    (h : ∀ key, a.lookup key = b.lookup key) : object a = object b :=
  congrArg object (ha.ext hb h)

theorem merge_object {a b : List (String × JsonValue)} :
    merge (.object a) (.object b) = .object (mergeMembers a b) := by
  rw [merge]

theorem Sets.ordered {v : JsonValue} (h : v.Sets) : v.Ordered := by
  induction h with
  | leaf _ hobject => exact .leaf hobject
  | object hsorted _ ih => exact .object hsorted ih

/-- Merging keeps maps in key order. -/
theorem Ordered.merge {x p : JsonValue} (hx : x.Ordered) (hp : p.Sets) : (x.merge p).Ordered := by
  induction hp generalizing x with
  | @leaf p hnull hobject =>
      rw [merge_of_not_object (.inr hobject)]
      exact .leaf hobject
  | @object members hsorted hp ih =>
      cases hx with
      | leaf hx =>
          rw [merge_of_not_object (.inl hx)]
          exact (Sets.object hsorted hp).ordered
      | @object a ha hx =>
          obtain ⟨hmerged, hlookup⟩ := mergeMembers_spec ha hsorted
          rw [merge_object]
          refine .object hmerged ?_
          intro k v hv
          rw [hlookup] at hv
          rcases hw : members.lookup k with _ | w
          · rw [hw] at hv
            exact hx k v hv
          · rw [hw, patched_set (hp k w hw).ne_null] at hv
            cases hv
            rcases hcur : a.lookup k with _ | cur
            · exact (hp k w hw).ordered
            · exact ih k w hw (hx k cur hcur)

/-- **Merging a patch into itself.** -/
theorem merge_self {p : JsonValue} (h : p.Sets) : merge p p = p := by
  induction h with
  | leaf _ hobject => exact merge_of_not_object (.inl hobject)
  | @object members hsorted h ih =>
      obtain ⟨hsorted', hlookup⟩ := mergeMembers_spec hsorted hsorted
      rw [merge_object]
      apply object_ext hsorted' hsorted
      intro key
      rw [hlookup]
      rcases hv : members.lookup key with _ | v
      · rfl
      · rw [patched_set (h key v hv).ne_null, placed, ih key v hv]

/-- **Merging a patch once more.** -/
theorem merge_merge_self {x p : JsonValue} (hx : x.Ordered) (h : p.Sets) :
    merge (merge x p) p = merge x p := by
  induction h generalizing x with
  | leaf _ hobject => rw [merge_of_not_object (.inr hobject), merge_of_not_object (.inr hobject)]
  | @object members hsorted h ih =>
      cases hx with
      | leaf hx =>
          rw [merge_of_not_object (.inl hx)]
          exact merge_self (.object hsorted h)
      | @object a ha hx =>
          obtain ⟨hfirst, hlookup⟩ := mergeMembers_spec ha hsorted
          obtain ⟨hsecond, hlookup'⟩ := mergeMembers_spec hfirst hsorted
          rw [merge_object, merge_object]
          apply object_ext hsecond hfirst
          intro key
          rw [hlookup', hlookup]
          rcases hv : members.lookup key with _ | v
          · rfl
          · have hv' := h key v hv
            rw [patched_set hv'.ne_null, patched_set hv'.ne_null]
            rcases hcur : a.lookup key with _ | cur
            · exact congrArg some (merge_self hv')
            · exact congrArg some (ih key v hv (hx key cur hcur))

/-- Patches that set disjoint keys are merged into each other alike. -/
theorem merge_comm {p q : JsonValue} (hp : p.Sets) (hq : q.Sets) (h : Apart p q) :
    merge p q = merge q p := by
  induction h with
  | @object a b h ih =>
      cases hp with
      | leaf _ hobject => cases hobject
      | object ha hp =>
          cases hq with
          | leaf _ hobject => cases hobject
          | object hb hq =>
              obtain ⟨hab, hlookup⟩ := mergeMembers_spec ha hb
              obtain ⟨hba, hlookup'⟩ := mergeMembers_spec hb ha
              rw [merge_object, merge_object]
              apply object_ext hab hba
              intro key
              rw [hlookup, hlookup']
              rcases hv : a.lookup key with _ | v
              · rcases hw : b.lookup key with _ | w
                · rfl
                · rw [patched_set (hq key w hw).ne_null]
                  rfl
              · rw [patched_set (hp key v hv).ne_null]
                rcases hw : b.lookup key with _ | w
                · rfl
                · rw [patched_set (hq key w hw).ne_null]
                  exact congrArg some (ih key v w hv hw (hp key v hv) (hq key w hw))

/-- **Patches that set disjoint keys can be merged in either order.** -/
theorem merge_comm_of_apart {x p q : JsonValue} (hx : x.Ordered) (hp : p.Sets) (hq : q.Sets)
    (h : Apart p q) : merge (merge x p) q = merge (merge x q) p := by
  induction h generalizing x with
  | @object a b h ih =>
      cases hp with
      | leaf _ hobject => cases hobject
      | object ha hp =>
          cases hq with
          | leaf _ hobject => cases hobject
          | object hb hq =>
              cases hx with
              | leaf hx =>
                  rw [merge_of_not_object (.inl hx), merge_of_not_object (.inl hx)]
                  exact merge_comm (.object ha hp) (.object hb hq) (.object h)
              | @object m hm hx =>
                  obtain ⟨hma, hlookup⟩ := mergeMembers_spec hm ha
                  obtain ⟨hmb, hlookup'⟩ := mergeMembers_spec hm hb
                  obtain ⟨hab, hfirst⟩ := mergeMembers_spec hma hb
                  obtain ⟨hba, hsecond⟩ := mergeMembers_spec hmb ha
                  simp only [merge_object]
                  apply object_ext hab hba
                  intro key
                  rw [hfirst, hsecond, hlookup, hlookup']
                  rcases hv : a.lookup key with _ | v
                  · rcases hw : b.lookup key with _ | w
                    · rfl
                    · rw [patched_set (hq key w hw).ne_null]
                      exact (patched_set (hq key w hw).ne_null).symm
                  · rw [patched_set (hp key v hv).ne_null]
                    rcases hw : b.lookup key with _ | w
                    · exact (patched_set (hp key v hv).ne_null).symm
                    · rw [patched_set (hq key w hw).ne_null, patched_set (hq key w hw).ne_null,
                        patched_set (hp key v hv).ne_null]
                      rcases hcur : m.lookup key with _ | cur
                      · exact congrArg some
                          (merge_comm (hp key v hv) (hq key w hw) (h key v w hv hw))
                      · exact congrArg some
                          (ih key v w hv hw (hx key cur hcur) (hp key v hv) (hq key w hw))

end JsonValue

end SoftPlc.Api

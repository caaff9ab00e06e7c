import Mathlib.Tactic

/-!
# Depth-first walks

A depth-first walk over a graph `succ : α → List α` keeps the vertices it has visited and a stack of
pending ones. It visits the top of the stack, unless that was visited before, and puts the
successors on top in their order. Here every entry of either list is the path that led to it, last
vertex first.

Which path leads to a vertex depends on the order, but not on the walk: at each vertex of the path
the walk takes the first successor from which the target can be reached without coming back to the
path (`FirstPath`). `Walk` is the invariant, `Walk.skip` and `Walk.visit` the two steps, and
`Walk.visited_iff` says that a walk that has ended visited exactly the first paths.
-/

namespace SoftPlc.Lib

variable {α : Type*} (succ : α → List α) (root : α)

/-! ## First paths -/

/-- A path from `y` whose vertices are all outside `A`. -/
inductive Avoiding (A : List α) (y : α) : α → Prop
  | refl (h : y ∉ A) : Avoiding A y y
  | tail {t z : α} (h : Avoiding A y t) (hz : z ∈ succ t) (hA : z ∉ A) : Avoiding A y z

/-- On the way to `v`, each successor that was passed over leads to `v` only back through the path.
Paths have their last vertex first. -/
def First (v : α) : List α → Prop
  | [] => False
  | [x] => x = root
  | x :: u :: A =>
      (∃ l₁ l₂, succ u = l₁ ++ x :: l₂ ∧ x ∉ l₁ ∧ ∀ y ∈ l₁, ¬ Avoiding succ (u :: A) y v) ∧
        First v (u :: A)

/-- The path along which a depth-first walk comes to its last vertex. -/
def FirstPath : List α → Prop
  | [] => False
  | v :: A => (v :: A).Nodup ∧ First succ root v (v :: A)

variable {succ root}

theorem Avoiding.not_mem {A : List α} {y z : α} (h : Avoiding succ A y z) : z ∉ A := by
  cases h with
  | refl h => exact h
  | tail _ _ hA => exact hA

theorem First.suffix {v : α} {p q : List α} (h : First succ root v p) (hq : q <:+ p)
    (hne : q ≠ []) : First succ root v q := by
  induction p with
  | nil => exact absurd (List.suffix_nil.mp hq) hne
  | cons x p ih =>
      rcases List.suffix_cons_iff.mp hq with rfl | hq
      · exact h
      · cases p with
        | nil => exact absurd (List.suffix_nil.mp hq) hne
        | cons u A => exact ih h.2 hq

/-- A path ends in the root. -/
theorem First.getLast? {v : α} {p : List α} (h : First succ root v p) :
    p.getLast? = some root := by
  induction p with
  | nil => exact absurd h id
  | cons x p ih =>
      cases p with
      | nil =>
          cases h
          rfl
      | cons u A =>
          rw [List.getLast?_cons_cons]
          exact ih h.2

/-- The part of a path after a vertex leads from there to its end. -/
theorem First.avoiding {v w x : α} {P S : List α} (h : First succ root v ((w :: P) ++ x :: S))
    (hnodup : ((w :: P) ++ x :: S).Nodup) : Avoiding succ S x w := by
  induction P generalizing w with
  | nil =>
      obtain ⟨⟨l₁, l₂, hsucc, -, -⟩, -⟩ := h
      simp only [List.cons_append, List.nil_append, List.nodup_cons, List.mem_cons, not_or]
        at hnodup
      refine .tail (.refl hnodup.2.1) ?_ hnodup.1.2
      rw [hsucc]
      simp
  | cons u P ih =>
      obtain ⟨⟨l₁, l₂, hsucc, -, -⟩, hrest⟩ := h
      have hdup := List.nodup_cons.mp hnodup
      refine .tail (ih hrest hdup.2) ?_ fun hmem => hdup.1 (by simp [hmem])
      rw [hsucc]
      simp

/-- The place before the first occurrence of an element is unique. -/
theorem first_occurrence_unique {l₁ l₂ r₁ r₂ : List α} {x : α} (h : l₁ ++ x :: r₁ = l₂ ++ x :: r₂)
    (h₁ : x ∉ l₁) (h₂ : x ∉ l₂) : l₁ = l₂ := by
  induction l₁ generalizing l₂ with
  | nil =>
      cases l₂ with
      | nil => rfl
      | cons y l₂ =>
          obtain ⟨rfl, -⟩ := List.cons_eq_cons.mp h
          exact absurd (List.mem_cons_self) h₂
  | cons y l₁ ih =>
      cases l₂ with
      | nil =>
          obtain ⟨rfl, -⟩ := List.cons_eq_cons.mp h
          exact absurd (List.mem_cons_self) h₁
      | cons z l₂ =>
          obtain ⟨rfl, htail⟩ := List.cons_eq_cons.mp h
          rw [ih htail (fun hm => h₁ (List.mem_cons_of_mem _ hm))
            (fun hm => h₂ (List.mem_cons_of_mem _ hm))]

/-- Of two different elements of a list one comes first. -/
theorem mem_before {l₁ l₂ r₁ r₂ : List α} {x y : α} (h : l₁ ++ x :: r₁ = l₂ ++ y :: r₂)
    (hne : x ≠ y) : x ∈ l₂ ∨ y ∈ l₁ := by
  induction l₁ generalizing l₂ with
  | nil =>
      cases l₂ with
      | nil => exact absurd (List.cons_eq_cons.mp h).1 hne
      | cons z l₂ =>
          obtain ⟨rfl, -⟩ := List.cons_eq_cons.mp h
          exact .inl List.mem_cons_self
  | cons z l₁ ih =>
      cases l₂ with
      | nil =>
          obtain ⟨rfl, -⟩ := List.cons_eq_cons.mp h
          exact .inr List.mem_cons_self
      | cons z' l₂ =>
          rcases ih (List.cons_eq_cons.mp h).2 with hx | hy
          · exact .inl (List.mem_cons_of_mem _ hx)
          · exact .inr (List.mem_cons_of_mem _ hy)

/-- Of two lists one continues the other, or they part. -/
theorem prefix_or_part (a b : List α) :
    a <+: b ∨ b <+: a ∨ ∃ c x y a' b', a = c ++ x :: a' ∧ b = c ++ y :: b' ∧ x ≠ y := by
  induction a generalizing b with
  | nil => exact .inl List.nil_prefix
  | cons x a ih =>
      cases b with
      | nil => exact .inr (.inl List.nil_prefix)
      | cons y b =>
          by_cases hxy : x = y
          · subst hxy
            rcases ih b with h | h | ⟨c, x', y', a', b', rfl, rfl, hne⟩
            · exact .inl (List.cons_prefix_cons.mpr ⟨rfl, h⟩)
            · exact .inr (.inl (List.cons_prefix_cons.mpr ⟨rfl, h⟩))
            · exact .inr (.inr ⟨x :: c, x', y', a', b', rfl, rfl, hne⟩)
          · exact .inr (.inr ⟨[], x, y, a, b, rfl, rfl, hxy⟩)

/-- Of two paths from one root one continues the other, or they part after a vertex. -/
theorem suffix_or_part {r : α} {p q : List α} (hp : p.getLast? = some r) (hq : q.getLast? = some r) :
    p <:+ q ∨ q <:+ p ∨ ∃ P Q x y u A, p = P ++ x :: u :: A ∧ q = Q ++ y :: u :: A ∧ x ≠ y := by
  rcases prefix_or_part p.reverse q.reverse with h | h | ⟨c, x, y, a, b, ha, hb, hne⟩
  · exact .inl (List.reverse_prefix.mp h)
  · exact .inr (.inl (List.reverse_prefix.mp h))
  · rw [List.reverse_eq_iff] at ha hb
    rcases hc : c.reverse with _ | ⟨u, A⟩
    · -- The roots agree, so that the paths have a vertex in common.
      rw [ha] at hp
      rw [hb] at hq
      simp [hc] at hp hq
      exact absurd (hp.trans hq.symm) hne
    · refine .inr (.inr ⟨a.reverse, b.reverse, x, y, u, A, ?_, ?_, hne⟩)
      · rw [ha, List.reverse_append, List.reverse_cons, hc]
        simp
      · rw [hb, List.reverse_append, List.reverse_cons, hc]
        simp

/-- The part of a first path after a vertex leads from there to its end. -/
theorem FirstPath.avoiding {v y : α} {A Q S : List α} (h : FirstPath succ root (v :: A))
    (hq : v :: A = Q ++ y :: S) : Avoiding succ S y v := by
  obtain ⟨hnodup, hfirst⟩ := h
  cases Q with
  | nil =>
      obtain ⟨rfl, rfl⟩ := List.cons_eq_cons.mp hq
      exact .refl (List.nodup_cons.mp hnodup).1
  | cons w Q =>
      rw [hq] at hfirst hnodup
      obtain ⟨rfl, -⟩ := List.cons_eq_cons.mp hq
      exact hfirst.avoiding hnodup

/-- **There is only one first path to a vertex.** -/
theorem FirstPath.unique {v : α} {A B : List α} (hA : FirstPath succ root (v :: A))
    (hB : FirstPath succ root (v :: B)) : A = B := by
  -- A path that continued another one to the same vertex would meet it twice.
  have hsuffix : ∀ {A B : List α}, (v :: A) <:+ (v :: B) → (v :: B).Nodup → A = B := by
    intro A B h hnodup
    rcases List.suffix_cons_iff.mp h with h | h
    · exact (List.cons_eq_cons.mp h).2
    · exact absurd (h.subset List.mem_cons_self) (List.nodup_cons.mp hnodup).1
  rcases suffix_or_part hA.2.getLast? hB.2.getLast? with h | h | ⟨P, Q, x, y, u, C, hP, hQ, hne⟩
  · exact hsuffix h hB.1
  · exact (hsuffix h hA.1).symm
  · -- Where they part, one of the two passed over the successor that the other one took.
    obtain ⟨⟨l₁, r₁, hx, -, hnone⟩, -⟩ := hA.2.suffix ⟨P, hP.symm⟩ (by simp)
    obtain ⟨⟨l₂, r₂, hy, -, hnone'⟩, -⟩ := hB.2.suffix ⟨Q, hQ.symm⟩ (by simp)
    rcases mem_before (hx.symm.trans hy) hne with hmem | hmem
    · exact absurd (hA.avoiding hP) (hnone' x hmem)
    · exact absurd (hB.avoiding hQ) (hnone y hmem)

/-- A vertex of a path that is not on its first part starts a part of its own. -/
theorem suffix_between {v x u t : α} {A B : List α} (h : (x :: u :: B) <:+ v :: A) (ht : t ∈ A)
    (hB : t ∉ u :: B) : ∃ E, (t :: E) <:+ A ∧ (x :: u :: B) <:+ t :: E := by
  rcases List.suffix_cons_iff.mp h with h | ⟨C, rfl⟩
  · obtain ⟨-, rfl⟩ := List.cons_eq_cons.mp h
    exact absurd ht hB
  · rcases List.mem_append.mp ht with ht | ht
    · obtain ⟨C₁, C₂, rfl⟩ := List.append_of_mem ht
      refine ⟨C₂ ++ x :: u :: B, ⟨C₁, by simp⟩, ⟨t :: C₂, by simp⟩⟩
    · rcases List.mem_cons.mp ht with rfl | ht
      · exact ⟨u :: B, List.suffix_append C _, List.suffix_rfl⟩
      · exact absurd ht hB

/-! ## Walks -/

/-- The last vertices of some paths. -/
def ends (ps : List (List α)) : List α := ps.filterMap List.head?

@[simp] theorem ends_nil : ends ([] : List (List α)) = [] := rfl

@[simp] theorem ends_cons (v : α) (A : List α) (ps : List (List α)) :
    ends ((v :: A) :: ps) = v :: ends ps := rfl

@[simp] theorem ends_append (ps qs : List (List α)) : ends (ps ++ qs) = ends ps ++ ends qs :=
  List.filterMap_append

@[simp] theorem ends_map_cons (l A : List α) : ends (l.map fun x => x :: A) = l := by
  induction l with
  | nil => rfl
  | cons x l ih => rw [List.map_cons, ends_cons, ih]

theorem mem_ends {ps : List (List α)} {v : α} : v ∈ ends ps ↔ ∃ A, v :: A ∈ ps := by
  unfold ends
  rw [List.mem_filterMap]
  constructor
  · rintro ⟨p, hp, hv⟩
    cases p with
    | nil => cases hv
    | cons x A =>
        cases hv
        exact ⟨A, hp⟩
  · rintro ⟨A, hA⟩
    exact ⟨v :: A, hA, rfl⟩

variable (succ root) in
/-- The state of a walk: the paths of the visited vertices, and the pending paths, the next one
first. -/
structure Walk (visited work : List (List α)) : Prop where
  /-- Visited vertices were reached along first paths. -/
  first : ∀ p ∈ visited, FirstPath succ root p
  /-- The vertex before a visited one was visited, and so was everything it put on top. -/
  parent : ∀ x u A, (x :: u :: A) ∈ visited → (u :: A) ∈ visited ∧
    ∃ l₁ l₂, succ u = l₁ ++ x :: l₂ ∧ x ∉ l₁ ∧ ∀ y ∈ l₁, y ∈ ends visited
  /-- A pending vertex follows a visited one; what that put on top was visited or is above. -/
  pending : ∀ above p below, work = above ++ p :: below → p = [root] ∨
    ∃ x u A l₁ l₂, p = x :: u :: A ∧ (u :: A) ∈ visited ∧ succ u = l₁ ++ x :: l₂ ∧
      ∀ y ∈ l₁, y ∈ ends visited ∨ y ∈ ends above
  /-- A visited vertex that is not on a pending path is done, up to what is above. -/
  done : ∀ above p below, work = above ++ p :: below → ∀ s ∈ ends visited, s ∉ p.tail →
    ∀ t ∈ succ s, t ∈ ends visited ∨ t ∈ ends above
  /-- Successors of visited vertices are visited or pending. -/
  closed : ∀ s ∈ ends visited, ∀ t ∈ succ s, t ∈ ends visited ∨ t ∈ ends work
  /-- So is the root. -/
  started : root ∈ ends visited ∨ root ∈ ends work

namespace Walk

variable {visited rest : List (List α)} {v : α} {A : List α}

/-- Every vertex of a visited path was visited along the path. -/
theorem suffix_mem {work : List (List α)} (h : Walk succ root visited work) {p q : List α}
    (hp : p ∈ visited) (hq : q <:+ p) (hne : q ≠ []) : q ∈ visited := by
  induction p with
  | nil => exact absurd (List.suffix_nil.mp hq) hne
  | cons x p ih =>
      rcases List.suffix_cons_iff.mp hq with rfl | hq
      · exact hp
      · cases p with
        | nil => exact absurd (List.suffix_nil.mp hq) hne
        | cons u A => exact ih (h.parent x u A hp).1 hq

theorem mem_of_visited {work : List (List α)} (h : Walk succ root visited work) {p : List α}
    (hp : p ∈ visited) {s : α} (hs : s ∈ p) : s ∈ ends visited := by
  obtain ⟨P, S, rfl⟩ := List.append_of_mem hs
  exact mem_ends.mpr ⟨S, h.suffix_mem hp (List.suffix_append P _) (by simp)⟩

/-- The path to a pending vertex was visited up to there. -/
theorem tail_mem (h : Walk succ root visited ((v :: A) :: rest)) {t : α} (ht : t ∈ A) :
    A ∈ visited := by
  rcases h.pending [] (v :: A) rest rfl with hroot | ⟨x, u, B, l₁, l₂, hp, hvisited, -, -⟩
  · obtain ⟨-, rfl⟩ := List.cons_eq_cons.mp hroot
    exact absurd ht List.not_mem_nil
  · obtain ⟨-, rfl⟩ := List.cons_eq_cons.mp hp
    exact hvisited

/-- Nothing that was passed over on the way to the next vertex leads to it. -/
theorem passed_over (h : Walk succ root visited ((v :: A) :: rest)) (hnew : v ∉ ends visited)
    {x u : α} {B l₁ l₂ : List α} (hsfx : (x :: u :: B) <:+ v :: A) (hsucc : succ u = l₁ ++ x :: l₂)
    (hx : x ∉ l₁) (hl₁ : ∀ y ∈ l₁, y ∈ ends visited) {y : α} (hy : y ∈ l₁) :
    ¬ Avoiding succ (u :: B) y v := by
  intro hpath
  have hall : ∀ z, Avoiding succ (u :: B) y z → z ∈ ends visited := by
    intro z hz
    induction hz with
    | refl _ => exact hl₁ y hy
    | @tail t z ht hz hA ih =>
        by_cases hmem : t ∈ A
        · -- A vertex of the path itself is reached only along the path.
          obtain ⟨E, hE, hxE⟩ := suffix_between hsfx hmem ht.not_mem
          have hvisited : t :: E ∈ visited := h.suffix_mem (h.tail_mem hmem) hE (by simp)
          obtain ⟨⟨l, r, hl, hxl, hnone⟩, -⟩ := (h.first _ hvisited).2.suffix hxE (by simp)
          rw [first_occurrence_unique (hsucc.symm.trans hl) hx hxl] at hy
          exact absurd ht (hnone y hy)
        · rcases h.done [] (v :: A) rest rfl t ih hmem z hz with hz | hz
          · exact hz
          · cases hz
  exact hnew (hall v hpath)

/-- **The walk comes to a new vertex along its first path.** -/
theorem firstPath (h : Walk succ root visited ((v :: A) :: rest)) (hnew : v ∉ ends visited) :
    FirstPath succ root (v :: A) := by
  have hA : ∀ s ∈ A, s ∈ ends visited := fun s hs => h.mem_of_visited (h.tail_mem hs) hs
  refine ⟨List.nodup_cons.mpr ⟨fun hmem => hnew (hA v hmem), ?_⟩, ?_⟩
  · cases hAeq : A with
    | nil => exact List.nodup_nil
    | cons u B =>
        have hvisited := h.tail_mem (t := u) (by rw [hAeq]; exact List.mem_cons_self)
        rw [hAeq] at hvisited
        exact (h.first _ hvisited).1
  · -- Each choice along the path was the first one that leads to `v`.
    have hchoices : ∀ q, q <:+ A → q ≠ [] → First succ root v q := by
      intro q
      induction q with
      | nil => exact fun _ hne => absurd rfl hne
      | cons x q ih =>
          intro hq _
          have hmem : x ∈ A := hq.subset List.mem_cons_self
          have hvisited := h.suffix_mem (h.tail_mem hmem) hq (by simp)
          cases q with
          | nil => exact (h.first _ hvisited).2
          | cons u B =>
              obtain ⟨-, l₁, l₂, hsucc, hx, hl₁⟩ := h.parent x u B hvisited
              have hsfx : (x :: u :: B) <:+ v :: A := hq.trans (List.suffix_cons v A)
              exact ⟨⟨l₁, l₂, hsucc, hx, fun y hy => h.passed_over hnew hsfx hsucc hx hl₁ hy⟩,
                ih ((List.suffix_cons x _).trans hq) (by simp)⟩
    rcases h.pending [] (v :: A) rest rfl with hroot | ⟨x, u, B, l₁, l₂, hp, hvisited, hsucc, hl₁⟩
    · obtain ⟨rfl, rfl⟩ := List.cons_eq_cons.mp hroot
      rfl
    · obtain ⟨rfl, rfl⟩ := List.cons_eq_cons.mp hp
      have hl₁ : ∀ y ∈ l₁, y ∈ ends visited := by
        intro y hy
        rcases hl₁ y hy with hmem | hmem
        · exact hmem
        · cases hmem
      have hx : v ∉ l₁ := fun hmem => hnew (hl₁ v hmem)
      exact ⟨⟨l₁, l₂, hsucc, hx,
        fun y hy => h.passed_over hnew List.suffix_rfl hsucc hx hl₁ hy⟩,
        hchoices (u :: B) List.suffix_rfl (by simp)⟩

variable (succ root) in
/-- The start. -/
theorem start : Walk succ root [] [[root]] := by
  refine ⟨?_, ?_, ?_, ?_, ?_, .inr (by simp)⟩
  · intro p hp
    cases hp
  · intro x u A hp
    cases hp
  · intro above p below hsplit
    left
    cases above with
    | nil => exact (List.cons_eq_cons.mp hsplit).1.symm
    | cons q above => simp at hsplit
  · intro above p below hsplit s hs
    cases hs
  · intro s hs
    cases hs

/-- A vertex that was visited before is dropped. -/
theorem skip (h : Walk succ root visited ((v :: A) :: rest)) (hold : v ∈ ends visited) :
    Walk succ root visited rest := by
  refine ⟨h.first, h.parent, ?_, ?_, ?_, ?_⟩
  · rintro above p below rfl
    rcases h.pending ((v :: A) :: above) p below rfl with hroot | ⟨x, u, B, l₁, l₂, hp, hu, hs, hl₁⟩
    · exact .inl hroot
    · refine .inr ⟨x, u, B, l₁, l₂, hp, hu, hs, fun y hy => ?_⟩
      rcases hl₁ y hy with hmem | hmem
      · exact .inl hmem
      · rcases List.mem_cons.mp hmem with rfl | hmem
        · exact .inl hold
        · exact .inr hmem
  · rintro above p below rfl s hs hp t ht
    rcases h.done ((v :: A) :: above) p below rfl s hs hp t ht with hmem | hmem
    · exact .inl hmem
    · rcases List.mem_cons.mp hmem with rfl | hmem
      · exact .inl hold
      · exact .inr hmem
  · intro s hs t ht
    rcases h.closed s hs t ht with hmem | hmem
    · exact .inl hmem
    · rcases List.mem_cons.mp hmem with rfl | hmem
      · exact .inl hold
      · exact .inr hmem
  · rcases h.started with hmem | hmem
    · exact .inl hmem
    · rcases List.mem_cons.mp hmem with rfl | hmem
      · exact .inl hold
      · exact .inr hmem

/-- A pending path of the new work list is a new one, or one of the old list. -/
theorem split_work {vs : List α} {B : List α} {work above below : List (List α)} {p : List α}
    (hsplit : (vs.map fun x => x :: B) ++ work = above ++ p :: below) :
    (∃ l₁ x l₂, vs = l₁ ++ x :: l₂ ∧ p = x :: B ∧ above = l₁.map fun x => x :: B) ∨
      ∃ above', above = (vs.map fun x => x :: B) ++ above' ∧ work = above' ++ p :: below := by
  induction vs generalizing above with
  | nil => exact .inr ⟨above, rfl, hsplit⟩
  | cons y vs ih =>
      cases above with
      | nil => exact .inl ⟨[], y, vs, rfl, (List.cons_eq_cons.mp hsplit).1.symm, rfl⟩
      | cons q above =>
          obtain ⟨rfl, htail⟩ := List.cons_eq_cons.mp hsplit
          rcases ih htail with ⟨l₁, x, l₂, rfl, rfl, rfl⟩ | ⟨above', rfl, hwork⟩
          · exact .inl ⟨y :: l₁, x, l₂, rfl, rfl, rfl⟩
          · exact .inr ⟨above', rfl, hwork⟩

/-- A new vertex is visited and its successors go on top. -/
theorem visit (h : Walk succ root visited ((v :: A) :: rest)) (hnew : v ∉ ends visited) :
    Walk succ root ((v :: A) :: visited) (((succ v).map fun x => x :: v :: A) ++ rest) := by
  -- What was visited or above the old entry is visited or above the new one.
  have hkeep : ∀ {y : α} {above' : List (List α)},
      y ∈ ends visited ∨ y ∈ ends ((v :: A) :: above') →
      y ∈ ends ((v :: A) :: visited) ∨
        y ∈ ends (((succ v).map fun x => x :: v :: A) ++ above') := by
    intro y above' hy
    rcases hy with hmem | hmem
    · exact .inl (List.mem_cons_of_mem _ hmem)
    · rcases List.mem_cons.mp hmem with rfl | hmem
      · exact .inl List.mem_cons_self
      · rw [ends_append]
        exact .inr (List.mem_append_right _ hmem)
  refine ⟨?_, ?_, ?_, ?_, ?_, ?_⟩
  · intro p hp
    rcases List.mem_cons.mp hp with rfl | hp
    · exact h.firstPath hnew
    · exact h.first p hp
  · intro x u B hp
    rcases List.mem_cons.mp hp with heq | hp
    · obtain ⟨rfl, rfl⟩ := List.cons_eq_cons.mp heq
      rcases h.pending [] _ rest rfl with hroot | ⟨x', u', B', l₁, l₂, hpend, hu, hsucc, hl₁⟩
      · cases hroot
      · cases hpend
        have hl₁ : ∀ y ∈ l₁, y ∈ ends visited := by
          intro y hy
          rcases hl₁ y hy with hmem | hmem
          · exact hmem
          · cases hmem
        exact ⟨List.mem_cons_of_mem _ hu, l₁, l₂, hsucc, fun hmem => hnew (hl₁ _ hmem),
          fun y hy => List.mem_cons_of_mem _ (hl₁ y hy)⟩
    · obtain ⟨hu, l₁, l₂, hsucc, hx, hl₁⟩ := h.parent x u B hp
      exact ⟨List.mem_cons_of_mem _ hu, l₁, l₂, hsucc, hx,
        fun y hy => List.mem_cons_of_mem _ (hl₁ y hy)⟩
  · intro above p below hsplit
    rcases split_work hsplit with ⟨l₁, x, l₂, hsucc, rfl, rfl⟩ | ⟨above', rfl, rfl⟩
    · exact .inr ⟨x, v, A, l₁, l₂, rfl, List.mem_cons_self, hsucc, fun y hy => .inr (by simpa)⟩
    · rcases h.pending ((v :: A) :: above') p below rfl with
        hroot | ⟨x, u, B, l₁, l₂, hp, hu, hsucc, hl₁⟩
      · exact .inl hroot
      · exact .inr ⟨x, u, B, l₁, l₂, hp, List.mem_cons_of_mem _ hu, hsucc,
          fun y hy => hkeep (hl₁ y hy)⟩
  · intro above p below hsplit s hs hp t ht
    rcases split_work hsplit with ⟨l₁, x, l₂, hsucc, rfl, rfl⟩ | ⟨above', rfl, rfl⟩
    · -- Below a new entry everything off the path was done before.
      rw [List.tail_cons, List.mem_cons, not_or] at hp
      rcases List.mem_cons.mp hs with rfl | hs
      · exact absurd rfl hp.1
      · rcases h.done [] (v :: A) rest rfl s hs hp.2 t ht with hmem | hmem
        · exact .inl (List.mem_cons_of_mem _ hmem)
        · cases hmem
    · rcases List.mem_cons.mp hs with rfl | hs
      · exact .inr (by simp [ht])
      · exact hkeep (h.done ((v :: A) :: above') p below rfl s hs hp t ht)
  · intro s hs t ht
    rcases List.mem_cons.mp hs with rfl | hs
    · exact .inr (by simp [ht])
    · exact hkeep (h.closed s hs t ht)
  · exact hkeep h.started

/-- **A walk that has ended visited exactly the first paths.** -/
theorem visited_iff (h : Walk succ root visited []) (p : List α) :
    p ∈ visited ↔ FirstPath succ root p := by
  constructor
  · exact h.first p
  · intro hp
    have hreached : ∀ v q, First succ root v q → ∀ x ∈ q.head?, x ∈ ends visited := by
      intro v q
      induction q with
      | nil => exact fun hq => absurd hq id
      | cons x q ih =>
          intro hq y hy
          obtain rfl := Option.some.inj hy
          cases q with
          | nil =>
              cases hq
              rcases h.started with hmem | hmem
              · exact hmem
              · cases hmem
          | cons u B =>
              obtain ⟨⟨l₁, l₂, hsucc, -, -⟩, hq⟩ := hq
              have hx : x ∈ succ u := by
                rw [hsucc]
                simp
              rcases h.closed u (ih hq u rfl) x hx with hmem | hmem
              · exact hmem
              · cases hmem
    cases p with
    | nil => exact absurd hp id
    | cons v A =>
        obtain ⟨B, hB⟩ := mem_ends.mp (hreached v _ hp.2 v rfl)
        rw [hp.unique (h.first _ hB)]
        exact hB

end Walk

end SoftPlc.Lib

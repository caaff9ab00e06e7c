import SoftPlc.St.Ast

/-!
# Precedence tables

`group` puts a chain of operands together by a precedence table: the operators of the lowest level
split the chain, operators of one level group to the left. `codeTable` is the order of the levels in
the parser, `iecTable` that of the standard.

The two give the same tree exactly when the chain does not have AND and XOR between the same two ORs,
and does not have `<`, `>`, `<=` or `>=` behind `=` or `<>` between the same two logical operators
(`clash`, `group_eq_iff`).
-/

namespace SoftPlc.St

/-! ## Tables -/

/-- Precedence levels, the lowest first. -/
abbrev Table := List (List BinaryOp)

/-- The arithmetic levels. -/
def arithTable : Table := [[.add, .sub], [.mul, .div, .mod]]

/-- The order of the levels in the parser. -/
def codeTable : Table :=
  [[.or], [.and], [.xor], [.eq, .ne, .lt, .le, .gt, .ge]] ++ arithTable

/-- The order of the levels in the standard. -/
def iecTable : Table :=
  [[.or], [.xor], [.and], [.eq, .ne], [.lt, .gt, .le, .ge]] ++ arithTable

/-! ## Grouping -/

/-- Operands behind a first one, each with the operator in front of it. -/
abbrev Tail := List (BinaryOp × Expr)

/-- The part before the first of some operators, and the parts behind each of them. -/
def splitTail (ops : List BinaryOp) : Tail → Tail × List (BinaryOp × Expr × Tail)
  | [] => ([], [])
  | (op, x) :: rest =>
      let (first, parts) := splitTail ops rest
      if op ∈ ops then ([], (op, x, first) :: parts) else ((op, x) :: first, parts)

/-- Trees put together to the left. -/
def joinLeft (tree : Expr → Tail → Expr) (left : Expr) (parts : List (BinaryOp × Expr × Tail)) :
    Expr :=
  parts.foldl (fun l p => .binary p.1 l (tree p.2.1 p.2.2)) left

/-- The tree of a chain by a table. -/
def group : Table → Expr → Tail → Expr
  | [], x, tail => tail.foldl (fun l p => .binary p.1 l p.2) x
  | ops :: higher, x, tail =>
      joinLeft (group higher) (group higher x (splitTail ops tail).1) (splitTail ops tail).2

/-! ## Where two tables differ -/

/-- The logical operators. -/
def isLogical : BinaryOp → Bool
  | .or | .and | .xor => true
  | _ => false

/-- An operator that, behind another one, is grouped differently by the two tables. -/
def conflicts : BinaryOp → BinaryOp → Bool
  | .and, .xor | .xor, .and => true
  | .eq, .lt | .eq, .le | .eq, .gt | .eq, .ge => true
  | .ne, .lt | .ne, .le | .ne, .gt | .ne, .ge => true
  | _, _ => false

/-- An operator behind which the operators in front of it do not matter to a later one. -/
def separates (op : BinaryOp) : BinaryOp → Bool
  | .or => true
  | .and | .xor => !isLogical op
  | _ => false

/-- Whether an operator conflicts with one of those behind it. -/
def conflictsWith (op : BinaryOp) : List BinaryOp → Bool
  | [] => false
  | b :: rest => conflicts op b || (!separates op b && conflictsWith op rest)

/-- Whether two operators of a chain conflict. -/
def clash : List BinaryOp → Bool
  | [] => false
  | op :: rest => conflictsWith op rest || clash rest

/-! ### Splitting -/

/-- The operators of a tail. -/
def Tail.ops (t : Tail) : List BinaryOp := t.map Prod.fst

@[simp] theorem Tail.ops_nil : Tail.ops [] = [] := rfl

@[simp] theorem Tail.ops_cons (op : BinaryOp) (x : Expr) (t : Tail) :
    Tail.ops ((op, x) :: t) = op :: Tail.ops t := rfl

/-- A tail without the operators is not split. -/
theorem splitTail_of_none {S : List BinaryOp} {t : Tail} (h : ∀ op ∈ t.ops, op ∉ S) :
    splitTail S t = (t, []) := by
  induction t with
  | nil => rfl
  | cons p t ih =>
      obtain ⟨op, x⟩ := p
      simp only [Tail.ops_cons, List.mem_cons, forall_eq_or_imp] at h
      simp [splitTail, ih h.2, h.1]

/-- Only which operators there are matters. -/
theorem splitTail_congr {S S' : List BinaryOp} (h : ∀ op, op ∈ S ↔ op ∈ S') (t : Tail) :
    splitTail S t = splitTail S' t := by
  induction t with
  | nil => rfl
  | cons p t ih => simp [splitTail, ih, h]

/-- Two tails with the same operators split alike, and are equal when their parts are. -/
theorem splitTail_alike (S : List BinaryOp) {t t' : Tail} (h : t.ops = t'.ops) :
    (splitTail S t).1.ops = (splitTail S t').1.ops ∧
      List.Forall₂ (fun p q => p.1 = q.1 ∧ Tail.ops p.2.2 = Tail.ops q.2.2) (splitTail S t).2
        (splitTail S t').2 ∧
      (t = t' ↔ (splitTail S t).1 = (splitTail S t').1 ∧ (splitTail S t).2 = (splitTail S t').2) := by
  induction t generalizing t' with
  | nil =>
      rcases t' with _ | ⟨q, t'⟩
      · simp [splitTail]
      · cases h
  | cons p t ih =>
      obtain ⟨op, x⟩ := p
      rcases t' with _ | ⟨⟨op', x'⟩, t'⟩
      · cases h
      · simp only [Tail.ops_cons, List.cons.injEq] at h
        obtain ⟨rfl, h⟩ := h
        obtain ⟨hfirst, hparts, hiff⟩ := ih h
        by_cases hop : op ∈ S
        · simp only [splitTail, hop, if_true, Tail.ops_nil, true_and, List.cons.injEq,
            Prod.mk.injEq, List.forall₂_cons, hiff]
          exact ⟨⟨hfirst, hparts⟩, by tauto⟩
        · simp only [splitTail, hop, if_false, Tail.ops_cons, List.cons.injEq, Prod.mk.injEq,
            true_and, hiff]
          exact ⟨hfirst, hparts, by tauto⟩

/-- Operators of a tail without those that split it. -/
theorem mem_ops_splitTail {S : List BinaryOp} {t : Tail} :
    (∀ op ∈ (splitTail S t).1.ops, op ∈ t.ops ∧ op ∉ S) ∧
      ∀ p ∈ (splitTail S t).2, p.1 ∈ S ∧ p.1 ∈ t.ops ∧
        ∀ op ∈ Tail.ops p.2.2, op ∈ t.ops ∧ op ∉ S := by
  induction t with
  | nil => simp [splitTail]
  | cons p t ih =>
      obtain ⟨op, x⟩ := p
      obtain ⟨hfirst, hparts⟩ := ih
      have hparts' : ∀ p ∈ (splitTail S t).2, p.1 ∈ S ∧ p.1 ∈ Tail.ops ((op, x) :: t) ∧
          ∀ o ∈ Tail.ops p.2.2, o ∈ Tail.ops ((op, x) :: t) ∧ o ∉ S := by
        intro p hp
        obtain ⟨h₁, h₂, h₃⟩ := hparts p hp
        exact ⟨h₁, List.mem_cons_of_mem _ h₂, fun o ho =>
          ⟨List.mem_cons_of_mem _ (h₃ o ho).1, (h₃ o ho).2⟩⟩
      have hfirst' : ∀ o ∈ (splitTail S t).1.ops, o ∈ Tail.ops ((op, x) :: t) ∧ o ∉ S :=
        fun o ho => ⟨List.mem_cons_of_mem _ (hfirst o ho).1, (hfirst o ho).2⟩
      by_cases hop : op ∈ S
      · simp only [splitTail, hop, if_true]
        refine ⟨by simp, ?_⟩
        intro p hp
        rcases List.mem_cons.mp hp with rfl | hp
        · exact ⟨hop, List.mem_cons_self, hfirst'⟩
        · exact hparts' p hp
      · simp only [splitTail, hop, if_false]
        refine ⟨?_, hparts'⟩
        intro o ho
        rcases List.mem_cons.mp ho with rfl | ho
        · exact ⟨List.mem_cons_self, hop⟩
        · exact hfirst' o ho

/-! ### Trees -/

theorem joinLeft_cons (tree : Expr → Tail → Expr) (l : Expr) (p : BinaryOp × Expr × Tail)
    (ps : List (BinaryOp × Expr × Tail)) :
    joinLeft tree l (p :: ps) = joinLeft tree (.binary p.1 l (tree p.2.1 p.2.2)) ps := rfl

/-- Trees put together alike are equal when their parts are. -/
theorem joinLeft_eq_iff {tree tree' : Expr → Tail → Expr} {l l' : Expr}
    {ps ps' : List (BinaryOp × Expr × Tail)}
    (h : List.Forall₂ (fun p q => p.1 = q.1 ∧ Tail.ops p.2.2 = Tail.ops q.2.2) ps ps') :
    joinLeft tree l ps = joinLeft tree' l' ps' ↔
      l = l' ∧ List.Forall₂ (fun p q => tree p.2.1 p.2.2 = tree' q.2.1 q.2.2) ps ps' := by
  induction h generalizing l l' with
  | nil => simp [joinLeft]
  | cons hpq _ ih =>
      rw [joinLeft_cons, joinLeft_cons, ih, List.forall₂_cons, hpq.1]
      simp only [Expr.binary.injEq, true_and]
      tauto

/-- One level that two tables share. -/
theorem group_cons_eq_iff {S : List BinaryOp} {H H' : Table} {P : List BinaryOp → Prop}
    {x y : Expr} {t t' : Tail} (halike : t.ops = t'.ops)
    (hseg : ∀ {x y : Expr} {s s' : Tail}, s.ops = s'.ops →
      (∀ op ∈ s.ops, op ∈ t.ops ∧ op ∉ S) →
      (group H x s = group H' y s' ↔ P s.ops ∧ x = y ∧ s = s')) :
    group (S :: H) x t = group (S :: H') y t' ↔
      (P (splitTail S t).1.ops ∧ ∀ p ∈ (splitTail S t).2, P (Tail.ops p.2.2)) ∧ x = y ∧ t = t' := by
  obtain ⟨hfirst, hparts, hiff⟩ := splitTail_alike S halike
  obtain ⟨hmem, hmems⟩ := mem_ops_splitTail (S := S) (t := t)
  show joinLeft _ _ _ = joinLeft _ _ _ ↔ _
  rw [joinLeft_eq_iff hparts, hseg hfirst hmem, hiff]
  have hall : List.Forall₂ (fun p q => group H p.2.1 p.2.2 = group H' q.2.1 q.2.2)
      (splitTail S t).2 (splitTail S t').2 ↔
      (∀ p ∈ (splitTail S t).2, P (Tail.ops p.2.2)) ∧
        (splitTail S t).2 = (splitTail S t').2 := by
    revert hmems
    generalize (splitTail S t).2 = ps at hparts ⊢
    generalize (splitTail S t').2 = ps' at hparts ⊢
    intro hmems
    induction hparts with
    | nil => simp
    | @cons p q ps ps' hpq _ ih =>
        have hp := hmems p List.mem_cons_self
        rw [List.forall₂_cons, hseg hpq.2 hp.2.2,
          ih fun p hp => hmems p (List.mem_cons_of_mem _ hp)]
        obtain ⟨op, z, u⟩ := p
        obtain ⟨op', z', u'⟩ := q
        obtain ⟨rfl, -⟩ := hpq
        simp only [List.mem_cons, forall_eq_or_imp, List.cons.injEq, Prod.mk.injEq, true_and]
        tauto
  rw [hall]
  tauto

/-- Chains with the same operators have the same tree only if they are the same. -/
theorem group_inj {table : Table} {x y : Expr} {t t' : Tail} (halike : t.ops = t'.ops) :
    group table x t = group table y t' ↔ x = y ∧ t = t' := by
  induction table generalizing x y t t' with
  | nil =>
      unfold group
      induction t generalizing x y t' with
      | nil =>
          rcases t' with _ | ⟨q, t'⟩
          · simp
          · cases halike
      | cons p t ih =>
          obtain ⟨op, z⟩ := p
          rcases t' with _ | ⟨⟨op', z'⟩, t'⟩
          · cases halike
          · simp only [Tail.ops_cons, List.cons.injEq] at halike
            obtain ⟨rfl, halike⟩ := halike
            rw [List.foldl_cons, List.foldl_cons, ih halike]
            simp only [Expr.binary.injEq, List.cons.injEq, Prod.mk.injEq, true_and]
            tauto
  | cons S H ih =>
      rw [group_cons_eq_iff (P := fun _ => True) halike fun h _ => by rw [ih h]; simp]
      simp

/-- A level none of whose operators occurs. -/
theorem group_skip {S : List BinaryOp} {t : Tail} (h : ∀ op ∈ t.ops, op ∉ S) (H : Table)
    (x : Expr) : group (S :: H) x t = group H x t := by
  rw [group, splitTail_of_none h]
  rfl

/-- The last level, when it has all operators of the chain. -/
theorem group_all {S : List BinaryOp} {t : Tail} (h : ∀ op ∈ t.ops, op ∈ S) (x : Expr) :
    group [S] x t = group [] x t := by
  have hsplit : splitTail S t = ([], t.map fun p => (p.1, p.2, [])) := by
    induction t with
    | nil => rfl
    | cons p t ih =>
        obtain ⟨op, z⟩ := p
        simp only [Tail.ops_cons, List.mem_cons, forall_eq_or_imp] at h
        simp [splitTail, ih h.2, h.1]
  have hgroup : group [S] x t = joinLeft (group []) (group [] x (splitTail S t).1)
      (splitTail S t).2 := rfl
  rw [hgroup, hsplit, joinLeft, List.foldl_map]
  rfl

/-- The root of a tree is an operator of the lowest level that occurs. -/
theorem group_root {S : List BinaryOp} {t : Tail} {op : BinaryOp} (hop : op ∈ t.ops)
    (hS : op ∈ S) (H : Table) (x : Expr) : ∃ o ∈ S, ∃ l r, group (S :: H) x t = .binary o l r := by
  have hne : (splitTail S t).2 ≠ [] := by
    induction t with
    | nil => cases hop
    | cons p t ih =>
        obtain ⟨o, z⟩ := p
        by_cases ho : o ∈ S
        · simp [splitTail, ho]
        · simp only [splitTail, ho, if_false]
          refine ih ?_
          rcases List.mem_cons.mp hop with rfl | hop
          · exact absurd hS ho
          · exact hop
  obtain ⟨ps, p, hps⟩ := List.eq_nil_or_concat (splitTail S t).2 |>.resolve_left hne
  have hp := (mem_ops_splitTail (S := S) (t := t)).2 p (by rw [hps]; simp)
  refine ⟨p.1, hp.1, joinLeft (group H) (group H x (splitTail S t).1) ps,
    group H p.2.1 p.2.2, ?_⟩
  rw [group, joinLeft, hps, List.concat_eq_append, List.foldl_append]
  rfl

/-- Chains of chains: the levels above first. -/
theorem group_append (A B : Table) (x : Expr) (t : Tail) :
    group (A ++ B) x t = group A (group B x (splitTail A.flatten t).1)
      ((splitTail A.flatten t).2.map fun p => (p.1, group B p.2.1 p.2.2)) := by
  induction A generalizing x t with
  | nil =>
      rw [List.flatten_nil, splitTail_of_none fun op _ => List.not_mem_nil]
      rfl
  | cons S A ih =>
      -- Splitting at one level and then at the others is splitting at all of them at once.
      have hsplit : ∀ t : Tail,
          (splitTail A.flatten (splitTail S t).1).1 = (splitTail (S ++ A.flatten) t).1 ∧
          splitTail S ((splitTail (S ++ A.flatten) t).2.map fun p => (p.1, group B p.2.1 p.2.2)) =
            ((splitTail A.flatten (splitTail S t).1).2.map fun p => (p.1, group B p.2.1 p.2.2),
              (splitTail S t).2.map fun p => (p.1, group B p.2.1 (splitTail A.flatten p.2.2).1,
                (splitTail A.flatten p.2.2).2.map fun p => (p.1, group B p.2.1 p.2.2))) := by
        intro t
        induction t with
        | nil => simp [splitTail]
        | cons p t iht =>
            obtain ⟨op, z⟩ := p
            by_cases hS : op ∈ S
            · simp [splitTail, hS, iht.1, iht.2]
            · by_cases hA : op ∈ A.flatten
              · simp only [List.mem_flatten] at hA
                simp [splitTail, hS, hA, iht.1, iht.2]
              · simp only [List.mem_flatten] at hA
                simp [splitTail, hS, hA, iht.1, iht.2]
      obtain ⟨hfirst, hparts⟩ := hsplit t
      rw [List.cons_append, group, List.flatten_cons, group, hparts, ih, hfirst, joinLeft, joinLeft,
        List.foldl_map]
      simp only [ih]

/-! ### Clashes and splits -/

/-- Operators behind a separator do not matter. -/
theorem conflictsWith_split {S : List BinaryOp} {op : BinaryOp}
    (h : ∀ s ∈ S, conflicts op s = false ∧ separates op s = true) (t : Tail) :
    conflictsWith op t.ops = conflictsWith op (splitTail S t).1.ops := by
  induction t with
  | nil => rfl
  | cons p t ih =>
      obtain ⟨b, z⟩ := p
      by_cases hb : b ∈ S
      · simp [splitTail, hb, conflictsWith, (h b hb).1, (h b hb).2]
      · simp [splitTail, hb, conflictsWith, ih]

theorem conflictsWith_of_none {op : BinaryOp} {ops : List BinaryOp}
    (h : ∀ b ∈ ops, conflicts op b = false) : conflictsWith op ops = false := by
  induction ops with
  | nil => rfl
  | cons b ops ih =>
      simp only [List.mem_cons, forall_eq_or_imp] at h
      simp [conflictsWith, h.1, ih h.2]

theorem clash_of_none {ops : List BinaryOp}
    (h : ∀ o ∈ ops, ∀ b ∈ ops, conflicts o b = false) : clash ops = false := by
  induction ops with
  | nil => rfl
  | cons op ops ih =>
      have hwith : conflictsWith op ops = false :=
        conflictsWith_of_none fun b hb => h op List.mem_cons_self b (List.mem_cons_of_mem _ hb)
      rw [clash, hwith, Bool.false_or]
      exact ih fun o ho b hb => h o (List.mem_cons_of_mem _ ho) b (List.mem_cons_of_mem _ hb)

/-- A chain clashes when one of its parts does, if the operators in between separate. -/
theorem clash_split {S : List BinaryOp} {t : Tail}
    (hself : ∀ s ∈ S, ∀ b ∈ t.ops, conflicts s b = false)
    (hsep : ∀ op ∈ t.ops, op ∉ S → ∀ s ∈ S, conflicts op s = false ∧ separates op s = true) :
    clash t.ops = false ↔ clash (splitTail S t).1.ops = false ∧
      ∀ p ∈ (splitTail S t).2, clash (Tail.ops p.2.2) = false := by
  induction t with
  | nil => simp [splitTail, clash]
  | cons p t ih =>
      obtain ⟨op, z⟩ := p
      have ih := ih (fun s hs b hb => hself s hs b (List.mem_cons_of_mem _ hb))
        (fun o ho => hsep o (List.mem_cons_of_mem _ ho))
      by_cases hop : op ∈ S
      · have hnone : conflictsWith op (Tail.ops t) = false :=
          conflictsWith_of_none fun b hb => hself op hop b (List.mem_cons_of_mem _ hb)
        simp [splitTail, hop, clash, hnone, ih]
      · have hcut := conflictsWith_split (hsep op List.mem_cons_self hop) t
        simp [splitTail, hop, clash, hcut, ih, and_assoc]

/-- AND and XOR between the same two ORs. -/
theorem clash_of_mem {ops : List BinaryOp} (hor : .or ∉ ops) (hand : .and ∈ ops)
    (hxor : .xor ∈ ops) : clash ops = true := by
  have hreach : ∀ {op b : BinaryOp} {rest : List BinaryOp}, isLogical op = true →
      conflicts op b = true → .or ∉ rest → b ∈ rest → conflictsWith op rest = true := by
    intro op b rest hop hb hor hmem
    induction rest with
    | nil => cases hmem
    | cons c rest ih =>
        rcases List.mem_cons.mp hmem with rfl | hmem
        · simp [conflictsWith, hb]
        · have hc : separates op c = false := by
            rcases c with _ | _ | _ | _ | _ | _ | _ | _ | _ | _ | _ | _ | _ | _ <;>
              simp_all [separates]
          simp [conflictsWith, hc, ih (fun h => hor (List.mem_cons_of_mem _ h)) hmem]
  induction ops with
  | nil => cases hand
  | cons op ops ih =>
      have hor' : .or ∉ ops := fun h => hor (List.mem_cons_of_mem _ h)
      rcases List.mem_cons.mp hand with rfl | hand'
      · rcases List.mem_cons.mp hxor with hne | hxor'
        · cases hne
        · have hwith : conflictsWith .and ops = true := hreach rfl rfl hor' hxor'
          simp [clash, hwith]
      · rcases List.mem_cons.mp hxor with rfl | hxor'
        · have hwith : conflictsWith .xor ops = true := hreach rfl rfl hor' hand'
          simp [clash, hwith]
        · simp [clash, ih hor' hand' hxor']

/-- One more operator at the end of a chain without logical operators. -/
theorem clash_concat {ops : List BinaryOp} (hlog : ∀ op ∈ ops, isLogical op = false)
    (last : BinaryOp) :
    clash (ops ++ [last]) = (clash ops || ops.any fun op => conflicts op last) := by
  have hwith : ∀ (op : BinaryOp) (rest : List BinaryOp), (∀ o ∈ rest, isLogical o = false) →
      conflictsWith op (rest ++ [last]) = (conflictsWith op rest || conflicts op last) := by
    intro op rest hrest
    induction rest with
    | nil => simp [conflictsWith]
    | cons b rest ih =>
        simp only [List.mem_cons, forall_eq_or_imp] at hrest
        have hb : separates op b = false := by
          rcases b with _ | _ | _ | _ | _ | _ | _ | _ | _ | _ | _ | _ | _ | _ <;>
            simp_all [separates, isLogical]
        simp [conflictsWith, hb, ih hrest.2, Bool.or_assoc]
  induction ops with
  | nil => simp [clash, conflictsWith]
  | cons op ops ih =>
      simp only [List.mem_cons, forall_eq_or_imp] at hlog
      rw [List.cons_append, clash, hwith op ops hlog.2, ih hlog.2, clash, List.any_cons]
      cases conflictsWith op ops <;> cases conflicts op last <;> cases clash ops <;> simp

/-! ### The comparison levels -/

/-- The operators that both tables compare with. -/
def compareOps : List BinaryOp := [.eq, .ne, .lt, .le, .gt, .ge]

/-- The equality level of the standard. -/
def equalityOps : List BinaryOp := [.eq, .ne]

/-- The order level of the standard. -/
def orderOps : List BinaryOp := [.lt, .gt, .le, .ge]

/-- Chains of comparisons: the two tables agree when no order is behind an equality. -/
theorem group_compare {X Y : Expr} {T T' : Tail} (halike : T.ops = T'.ops)
    (hops : ∀ op ∈ T.ops, op ∈ compareOps) :
    group [compareOps] X T = group [equalityOps, orderOps] Y T' ↔
      clash T.ops = false ∧ X = Y ∧ T = T' := by
  rw [group_all hops]
  induction T using List.reverseRecOn generalizing T' with
  | nil =>
      rcases T' with _ | ⟨q, T'⟩
      · simp [group, splitTail, joinLeft, clash]
      · cases halike
  | append_singleton T p ih =>
      obtain ⟨op, z⟩ := p
      rcases List.eq_nil_or_concat T' with rfl | ⟨T', ⟨op', z'⟩, rfl⟩
      · simp [Tail.ops] at halike
      · simp only [Tail.ops, List.concat_eq_append, List.map_append, List.map_cons, List.map_nil,
          List.append_singleton_inj] at halike
        obtain ⟨halike, rfl⟩ := halike
        have hT : ∀ o ∈ Tail.ops T, o ∈ compareOps := fun o ho =>
          hops o (by simp only [Tail.ops, List.map_append, List.mem_append]; exact .inl ho)
        have hop : op ∈ compareOps := hops op (by simp [Tail.ops])
        have hlog : ∀ o ∈ Tail.ops T, isLogical o = false := by
          intro o ho
          have hmem := hT o ho
          simp only [compareOps, List.mem_cons, List.not_mem_nil, or_false] at hmem
          rcases hmem with rfl | rfl | rfl | rfl | rfl | rfl <;> rfl
        have hclash : clash (Tail.ops (T ++ [(op, z)])) =
            (clash (Tail.ops T) || (Tail.ops T).any fun o => conflicts o op) := by
          rw [← clash_concat hlog op]
          simp [Tail.ops]
        have hfold : group [] X (T ++ [(op, z)]) = .binary op (group [] X T) z := by
          simp [group]
        rw [List.concat_eq_append, hfold, hclash]
        by_cases heq : op ∈ equalityOps
        · -- An equality at the end is the root of both trees.
          have hroot : group [equalityOps, orderOps] Y (T' ++ [(op, z')]) =
              .binary op (group [equalityOps, orderOps] Y T') z' := by
            have hsplit : ∀ t : Tail, splitTail equalityOps (t ++ [(op, z')]) =
                ((splitTail equalityOps t).1, (splitTail equalityOps t).2 ++ [(op, z', [])]) := by
              intro t
              induction t with
              | nil => simp [splitTail, heq]
              | cons q t iht =>
                  obtain ⟨o, w⟩ := q
                  by_cases ho : o ∈ equalityOps <;> simp [splitTail, ho, iht]
            rw [group, hsplit, joinLeft, List.foldl_append]
            rfl
          have hnone : ((Tail.ops T).any fun o => conflicts o op) = false := by
            simp only [equalityOps, List.mem_cons, List.not_mem_nil, or_false] at heq
            rw [List.any_eq_false]
            intro o _
            rcases heq with rfl | rfl <;> cases o <;> simp [conflicts]
          rw [hroot, hnone, Bool.or_false]
          simp only [Expr.binary.injEq, true_and, ih halike hT, List.append_singleton_inj,
            Prod.mk.injEq]
          tauto
        · have hord : op ∈ orderOps := by
            simp only [compareOps, equalityOps, orderOps, List.mem_cons, List.not_mem_nil,
              or_false] at hop heq ⊢
            tauto
          by_cases hex : ∃ o ∈ Tail.ops T, o ∈ equalityOps
          · -- An order at the end, behind an equality: the roots differ.
            obtain ⟨o, ho, hoeq⟩ := hex
            have ho' : o ∈ Tail.ops (T' ++ [(op, z')]) := by
              simp only [Tail.ops, List.map_append, List.mem_append]
              exact .inl (by rw [← halike]; exact ho)
            obtain ⟨r, hr, l, w, hroot⟩ := group_root ho' hoeq [orderOps] Y
            have hany : ((Tail.ops T).any fun o => conflicts o op) = true := by
              rw [List.any_eq_true]
              refine ⟨o, ho, ?_⟩
              simp only [equalityOps, orderOps, List.mem_cons, List.not_mem_nil, or_false] at hoeq hord
              rcases hoeq with rfl | rfl <;> rcases hord with rfl | rfl | rfl | rfl <;> rfl
            rw [hroot, hany, Bool.or_true]
            simp only [Expr.binary.injEq, Bool.true_eq_false, false_and, iff_false, not_and]
            rintro rfl
            exact absurd hr heq
          · -- Orders only.
            have hall : ∀ o ∈ Tail.ops (T' ++ [(op, z')]), o ∈ orderOps := by
              intro o ho
              simp only [Tail.ops, List.map_append, List.mem_append, List.map_cons, List.map_nil,
                List.mem_singleton] at ho
              rcases ho with ho | rfl
              · have hmem : o ∈ Tail.ops T := by
                  rw [Tail.ops, halike]
                  exact ho
                have hcmp := hT o hmem
                have hne := fun h => hex ⟨o, hmem, h⟩
                simp only [compareOps, equalityOps, orderOps, List.mem_cons, List.not_mem_nil,
                  or_false] at hcmp hne ⊢
                tauto
              · exact hord
            have hplain : clash (Tail.ops T) = false ∧
                ((Tail.ops T).any fun o => conflicts o op) = false := by
              have hfree : ∀ o ∈ Tail.ops T, ∀ b, conflicts o b = false := by
                intro o ho b
                have hne : o ∉ equalityOps := fun h => hex ⟨o, ho, h⟩
                have hcmp := hT o ho
                simp only [compareOps, equalityOps, List.mem_cons, List.not_mem_nil,
                  or_false] at hcmp hne
                rcases hcmp with rfl | rfl | rfl | rfl | rfl | rfl <;> simp_all [conflicts]
              refine ⟨clash_of_none fun o ho b _ => hfree o ho b, ?_⟩
              rw [List.any_eq_false]
              intro o ho
              simp [hfree o ho op]
            have hskip : ∀ o ∈ Tail.ops (T' ++ [(op, z')]), o ∉ equalityOps := by
              intro o ho heq
              have hmem := hall o ho
              simp only [equalityOps, orderOps, List.mem_cons, List.not_mem_nil,
                or_false] at heq hmem
              rcases heq with rfl | rfl <;> simp at hmem
            rw [← hfold, group_skip hskip, group_all hall, hplain.1, hplain.2, group_inj]
            · simp
            · simp only [Tail.ops, List.map_append, List.map_cons, List.map_nil]
              rw [halike]

/-- The operators that split a tail. -/
theorem ops_splitTail (S : List BinaryOp) (t : Tail) :
    (splitTail S t).2.map Prod.fst = t.ops.filter (· ∈ S) := by
  induction t with
  | nil => rfl
  | cons p t ih =>
      obtain ⟨op, z⟩ := p
      by_cases hop : op ∈ S <;> simp [splitTail, hop, ih]

/-- The arithmetic operators. -/
def isArith : BinaryOp → Bool
  | .add | .sub | .mul | .div | .mod => true
  | _ => false

/-- Arithmetic does not conflict and does not separate. -/
theorem arith_free {a op : BinaryOp} (ha : isArith a = true) :
    conflicts a op = false ∧ conflicts op a = false ∧ separates op a = false := by
  have hcases : a = .add ∨ a = .sub ∨ a = .mul ∨ a = .div ∨ a = .mod := by
    cases a <;> first
      | exact absurd ha (by decide)
      | simp
  rcases hcases with rfl | rfl | rfl | rfl | rfl <;> cases op <;> exact ⟨rfl, rfl, rfl⟩

/-- Arithmetic does not clash. -/
theorem clash_filter_arith (ops : List BinaryOp) :
    clash (ops.filter fun op => !isArith op) = clash ops := by
  have hwith : ∀ (op : BinaryOp) (rest : List BinaryOp),
      conflictsWith op (rest.filter fun op => !isArith op) = conflictsWith op rest := by
    intro op rest
    induction rest with
    | nil => rfl
    | cons b rest ih =>
        rcases hb : isArith b with _ | _
        · rw [List.filter_cons_of_pos (by simp [hb]), conflictsWith, conflictsWith, ih]
        · have ⟨_, hconf, hsep⟩ := @arith_free b op hb
          rw [List.filter_cons_of_neg (by simp [hb]), conflictsWith, ih, hconf, hsep]
          simp
  induction ops with
  | nil => rfl
  | cons op ops ih =>
      rcases hop : isArith op with _ | _
      · rw [List.filter_cons_of_pos (by simp [hop]), clash, clash, hwith, ih]
      · have hnone : conflictsWith op ops = false :=
          conflictsWith_of_none fun b _ => (arith_free hop).1
        rw [List.filter_cons_of_neg (by simp [hop]), ih, clash, hnone, Bool.false_or]

/-- The comparisons are what is left of a chain without logical operators. -/
theorem clash_filter {ops : List BinaryOp} (hlog : ∀ op ∈ ops, isLogical op = false) :
    clash (ops.filter (· ∈ compareOps)) = clash ops := by
  rw [← clash_filter_arith ops]
  congr 1
  refine List.filter_congr fun op hop => ?_
  have hlog := hlog op hop
  cases op <;> first
    | exact absurd hlog (by decide)
    | decide

/-- Chains without logical operators. -/
theorem group_relation {x y : Expr} {t t' : Tail} (halike : t.ops = t'.ops)
    (hlog : ∀ op ∈ t.ops, isLogical op = false) :
    group (compareOps :: arithTable) x t = group (equalityOps :: orderOps :: arithTable) y t' ↔
      clash t.ops = false ∧ x = y ∧ t = t' := by
  have hcode := group_append [compareOps] arithTable x t
  have hiec := group_append [equalityOps, orderOps] arithTable y t'
  have hsame : splitTail [equalityOps, orderOps].flatten t' = splitTail compareOps t' :=
    splitTail_congr (fun op => by simp [equalityOps, orderOps, compareOps]; tauto) t'
  rw [hsame] at hiec
  have hone : [compareOps].flatten = compareOps := by simp
  rw [hone] at hcode
  obtain ⟨hfirst, hparts, hiff⟩ := splitTail_alike compareOps halike
  -- Equal chains of arithmetic parts are equal part by part.
  have hmap : (splitTail compareOps t).2.map (fun p => (p.1, group arithTable p.2.1 p.2.2)) =
        (splitTail compareOps t').2.map (fun p => (p.1, group arithTable p.2.1 p.2.2)) ↔
      (splitTail compareOps t).2 = (splitTail compareOps t').2 := by
    revert hparts
    generalize (splitTail compareOps t).2 = ps
    generalize (splitTail compareOps t').2 = ps'
    intro hparts
    induction hparts with
    | nil => simp
    | @cons p q ps ps' hpq _ ih =>
        obtain ⟨op, z, u⟩ := p
        obtain ⟨op', z', u'⟩ := q
        obtain ⟨rfl, hpq⟩ := hpq
        simp only [List.map_cons, List.cons.injEq, Prod.mk.injEq, true_and, group_inj hpq, ih]
  have hops : Tail.ops ((splitTail compareOps t).2.map
      fun p => (p.1, group arithTable p.2.1 p.2.2)) = t.ops.filter (· ∈ compareOps) := by
    rw [← ops_splitTail, Tail.ops, List.map_map]
    rfl
  have hops' : Tail.ops ((splitTail compareOps t').2.map
      fun p => (p.1, group arithTable p.2.1 p.2.2)) = t.ops.filter (· ∈ compareOps) := by
    rw [halike, ← ops_splitTail, Tail.ops, List.map_map]
    rfl
  show group ([compareOps] ++ arithTable) x t =
    group ([equalityOps, orderOps] ++ arithTable) y t' ↔ _
  rw [hcode, hiec, group_compare (hops.trans hops'.symm), hops, clash_filter hlog, hmap,
    group_inj hfirst, hiff]
  · tauto
  · rw [hops]
    intro op hop
    simpa using (List.mem_filter.mp hop).2

theorem isLogical_iff {op : BinaryOp} :
    isLogical op = true ↔ op = .or ∨ op = .and ∨ op = .xor := by
  cases op <;> simp [isLogical]

/-- A logical operator behind one that is not. -/
theorem separates_of_logical {a op : BinaryOp} (ha : isLogical a = true)
    (hop : isLogical op = false) : conflicts op a = false ∧ separates op a = true := by
  rcases isLogical_iff.mp ha with rfl | rfl | rfl <;> cases op <;> first
    | exact absurd hop (by decide)
    | exact ⟨rfl, rfl⟩

/-- A logical operator conflicts with logical ones only, and not with itself. -/
theorem logical_of_conflicts {a b : BinaryOp} (ha : isLogical a = true)
    (h : conflicts a b = true) : isLogical b = true ∧ b ≠ a := by
  rcases isLogical_iff.mp ha with rfl | rfl | rfl <;> cases b <;> first
    | exact absurd h (by decide)
    | exact ⟨rfl, nofun⟩

/-- One logical level, when its operators are the only logical ones of the chain. -/
theorem group_logical {a : BinaryOp} (ha : isLogical a = true) {K K' : Table} {x y : Expr}
    {s s' : Tail} (halike : s.ops = s'.ops)
    (honly : ∀ op ∈ s.ops, isLogical op = true → op = a)
    (hK : ∀ x u, (∀ op ∈ Tail.ops u, isLogical op = false) →
      group K x u = group (compareOps :: arithTable) x u)
    (hK' : ∀ x u, (∀ op ∈ Tail.ops u, isLogical op = false) →
      group K' x u = group (equalityOps :: orderOps :: arithTable) x u) :
    group ([a] :: K) x s = group ([a] :: K') y s' ↔ clash s.ops = false ∧ x = y ∧ s = s' := by
  have hself : ∀ o ∈ [a], ∀ c ∈ s.ops, conflicts o c = false := by
    intro o ho c hc
    rw [List.mem_singleton.mp ho]
    by_contra hne
    obtain ⟨hlog, hne⟩ := logical_of_conflicts ha (by simpa using hne)
    exact hne (honly c hc hlog)
  have hsep : ∀ op ∈ s.ops, op ∉ [a] → ∀ o ∈ [a],
      conflicts op o = false ∧ separates op o = true := by
    intro op hop hne o ho
    rw [List.mem_singleton.mp ho]
    refine separates_of_logical ha ?_
    by_contra hlog
    exact hne (List.mem_singleton.mpr (honly op hop (by simpa using hlog)))
  rw [clash_split hself hsep]
  refine group_cons_eq_iff (P := fun ops => clash ops = false) halike ?_
  intro x y u u' halike' hops
  have hlog : ∀ op ∈ u.ops, isLogical op = false := by
    intro op hop
    by_contra hlog
    exact (hops op hop).2 (List.mem_singleton.mpr
      (honly op (hops op hop).1 (by simpa using hlog)))
  rw [hK x u hlog, hK' y u' (halike' ▸ hlog)]
  exact group_relation halike' hlog

/-- A level of a logical operator, in a chain without logical operators. -/
theorem group_skip_logical {a : BinaryOp} (ha : isLogical a = true) (K : Table) (x : Expr)
    (u : Tail) (hlog : ∀ op ∈ u.ops, isLogical op = false) : group ([a] :: K) x u = group K x u := by
  refine group_skip (fun op hop hmem => ?_) K x
  rw [List.mem_singleton.mp hmem] at hop
  rw [hlog a hop] at ha
  cases ha

/-- **When the two tables give the same tree**: exactly when no operators clash. -/
theorem group_eq_iff {x y : Expr} {t t' : Tail} (halike : t.ops = t'.ops) :
    group codeTable x t = group iecTable y t' ↔ clash t.ops = false ∧ x = y ∧ t = t' := by
  have hor : ∀ op ∈ t.ops, op ∉ [BinaryOp.or] → ∀ s ∈ [BinaryOp.or],
      conflicts op s = false ∧ separates op s = true := by
    intro op _ _ s hs
    rw [List.mem_singleton.mp hs]
    exact ⟨by cases op <;> rfl, rfl⟩
  have hself : ∀ s ∈ [BinaryOp.or], ∀ b ∈ t.ops, conflicts s b = false := by
    intro s hs b _
    rw [List.mem_singleton.mp hs]
    cases b <;> rfl
  rw [clash_split hself hor]
  show group ([.or] :: _) x t = group ([.or] :: _) y t' ↔ _
  refine group_cons_eq_iff (P := fun ops => clash ops = false) halike ?_
  intro x y s s' halike hops
  have hnor : .or ∉ s.ops := fun h => (hops _ h).2 (by simp)
  show group ([.and] :: [.xor] :: compareOps :: arithTable) x s =
    group ([.xor] :: [.and] :: equalityOps :: orderOps :: arithTable) y s' ↔ _
  by_cases hxor : .xor ∈ s.ops
  · by_cases hand : .and ∈ s.ops
    · -- Both occur: the roots differ.
      have hxor' : .xor ∈ s'.ops := by
        rw [← halike]
        exact hxor
      obtain ⟨o, ho, l, r, hroot⟩ := group_root hand (List.mem_singleton_self _)
        ([.xor] :: compareOps :: arithTable) x
      obtain ⟨o', ho', l', r', hroot'⟩ := group_root hxor' (List.mem_singleton_self _)
        ([.and] :: equalityOps :: orderOps :: arithTable) y
      rw [hroot, hroot', List.mem_singleton.mp ho, List.mem_singleton.mp ho',
        clash_of_mem hnor hand hxor]
      simp
    · have hskip : ∀ op ∈ s.ops, op ∉ [BinaryOp.and] := by
        intro op hop hmem
        rw [List.mem_singleton.mp hmem] at hop
        exact hand hop
      rw [group_skip hskip]
      refine group_logical rfl halike ?_ (fun x u _ => rfl) (group_skip_logical rfl _)
      intro op hop hlog
      rcases isLogical_iff.mp hlog with rfl | rfl | rfl
      · exact absurd hop hnor
      · exact absurd hop hand
      · rfl
  · have hskip : ∀ op ∈ s'.ops, op ∉ [BinaryOp.xor] := by
      intro op hop hmem
      rw [List.mem_singleton.mp hmem, ← halike] at hop
      exact hxor hop
    rw [group_skip hskip]
    refine group_logical rfl halike ?_ (group_skip_logical rfl _) (fun x u _ => rfl)
    intro op hop hlog
    rcases isLogical_iff.mp hlog with rfl | rfl | rfl
    · exact absurd hop hnor
    · rfl
    · exact absurd hop hxor

end SoftPlc.St

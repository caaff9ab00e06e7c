import SoftPlc.Lib.Bind
import SoftPlc.St.Grouping
import SoftPlc.St.Parse

/-!
# Which tree the expression parser builds

`readChain` reads a whole chain of operands first and groups it by a table then. The tower of the
parser is `readChain` with `codeTable` (`parseOr_eq`), and `iecExpr` is the same parser with the
table of the standard.

`clashes` scans tokens for chains on which the two tables differ. The parser builds the tree of the
standard exactly when there are none (`parse_iec_iff`).
-/

namespace SoftPlc.St

open SoftPlc.Lib

/-! ## Chains -/

/-- The binary operator that a token stands for behind an operand. -/
def binaryToken : Level
  | .keyword .or => some .or
  | .keyword .and => some .and
  | .keyword .xor => some .xor
  | .eq => some .eq
  | .ne => some .ne
  | .lt => some .lt
  | .le => some .le
  | .gt => some .gt
  | .ge => some .ge
  | .plus => some .add
  | .minus => some .sub
  | .star => some .mul
  | .slash => some .div
  | .keyword .mod => some .mod
  | _ => none

/-- The level of some operators. -/
def levelOf (ops : List BinaryOp) : Level := fun t => (binaryToken t).filter (· ∈ ops)

/-- The operands of a chain behind the first one. -/
def chainLoop (level : Level) (operand : Parser) (toks : List Token) :
    Except ParseError (Tail × List Token) :=
  match toks with
  | [] => .ok ([], [])
  | t :: rest =>
      match level t with
      | none => .ok ([], t :: rest)
      | some op => do
          let (right, rest') ← operand rest
          if _h : rest'.length ≤ rest.length then do
            let (tail, rest'') ← chainLoop level operand rest'
            .ok ((op, right) :: tail, rest'')
          else .error .stuck
termination_by toks.length

/-- Read a chain and group it by a table. -/
def readChain (table : Table) (operand : Parser) : Parser := fun toks => do
  let (x, rest) ← operand toks
  let (tail, rest) ← chainLoop (levelOf table.flatten) operand rest
  .ok (group table x tail, rest)

/-- The tree of the standard: chains grouped by `iecTable`, in nested expressions too. -/
def iecExpr : Parser := parseWith (readChain iecTable)

/-! ## The tower groups by `codeTable` -/

/-- One level for each line of a table. -/
def tower : Table → Parser → Parser
  | [], operand => operand
  | ops :: higher, operand => parseLevel (levelOf ops) (tower higher operand)

theorem parseOr_eq_tower (operand : Parser) : parseOr operand = tower codeTable operand := by
  have hor : orLevel = levelOf [.or] := by
    funext t
    rcases t with _ | _ | _ | _ | kw | _ <;> try rfl
    cases kw <;> rfl
  have hand : andLevel = levelOf [.and] := by
    funext t
    rcases t with _ | _ | _ | _ | kw | _ <;> try rfl
    cases kw <;> rfl
  have hxor : xorLevel = levelOf [.xor] := by
    funext t
    rcases t with _ | _ | _ | _ | kw | _ <;> try rfl
    cases kw <;> rfl
  have hcmp : compareLevel = levelOf [.eq, .ne, .lt, .le, .gt, .ge] := by
    funext t
    rcases t with _ | _ | _ | _ | kw | _ <;> try rfl
    cases kw <;> rfl
  have hadd : addLevel = levelOf [.add, .sub] := by
    funext t
    rcases t with _ | _ | _ | _ | kw | _ <;> try rfl
    cases kw <;> rfl
  have hmul : mulLevel = levelOf [.mul, .div, .mod] := by
    funext t
    rcases t with _ | _ | _ | _ | kw | _ <;> try rfl
    cases kw <;> rfl
  unfold parseOr parseAnd parseXor parseCompare parseAdd parseMul
  rw [hor, hand, hxor, hcmp, hadd, hmul]
  rfl

/-- A parser leaves no more tokens than it gets. -/
def Shrinks (p : Parser) : Prop :=
  ∀ toks x rest, p toks = .ok (x, rest) → rest.length ≤ toks.length

theorem shrinks_chainLoop {level : Level} {operand : Parser} (h : Shrinks operand)
    {toks rest : List Token} {tail : Tail}
    (hloop : chainLoop level operand toks = .ok (tail, rest)) : rest.length ≤ toks.length := by
  induction hn : toks.length using Nat.strong_induction_on generalizing toks tail with
  | _ n ih =>
      subst hn
      unfold chainLoop at hloop
      rcases toks with _ | ⟨t, toks⟩
      · cases hloop
        exact le_refl _
      · rcases ht : level t with _ | op
        · simp only [ht] at hloop
          cases hloop
          exact le_refl _
        · simp only [ht] at hloop
          obtain ⟨⟨x, r⟩, hx, hloop⟩ := except_bind_ok.mp hloop
          have hr := h _ _ _ hx
          dsimp only at hloop
          rw [dif_pos hr] at hloop
          obtain ⟨⟨tail', r'⟩, htail, hloop⟩ := except_bind_ok.mp hloop
          cases hloop
          have hlt : r.length < (t :: toks).length := Nat.lt_succ_of_le hr
          exact (ih _ hlt htail rfl).trans (le_of_lt hlt)

theorem levelOf_some {ops : List BinaryOp} {t : Token} {op : BinaryOp} :
    levelOf ops t = some op ↔ binaryToken t = some op ∧ op ∈ ops := by
  simp [levelOf, Option.filter_eq_some_iff]

theorem levelOf_none {ops : List BinaryOp} {t : Token} :
    levelOf ops t = none ↔ ∀ op, binaryToken t = some op → op ∉ ops := by
  simp [levelOf, Option.filter_eq_none_iff]

theorem Shrinks.readChain {table : Table} {operand : Parser} (h : Shrinks operand) :
    Shrinks (readChain table operand) := by
  intro toks x rest hread
  obtain ⟨⟨y, r⟩, hy, hread⟩ := except_bind_ok.mp hread
  obtain ⟨⟨tail, r'⟩, htail, hread⟩ := except_bind_ok.mp hread
  cases hread
  exact (shrinks_chainLoop h htail).trans (h _ _ _ hy)

/-- Reading a chain of one more level: first a chain of the levels above it, then the loop of the
level over such chains. -/
theorem chainLoop_level {ops : List BinaryOp} {higher : Table} {operand : Parser}
    (hshrink : Shrinks operand) (hdisj : ∀ op ∈ ops, op ∉ higher.flatten) (toks : List Token)
    (tree : Tail → Expr) :
    (chainLoop (levelOf (ops ++ higher.flatten)) operand toks >>= fun out =>
      .ok (joinLeft (group higher) (tree (splitTail ops out.1).1) (splitTail ops out.1).2, out.2)) =
    (chainLoop (levelOf higher.flatten) operand toks >>= fun out =>
      levelLoop (levelOf ops) (readChain higher operand) (tree out.1) out.2) := by
  induction hn : toks.length using Nat.strong_induction_on generalizing toks tree with
  | _ n ih =>
      subst hn
      rcases toks with _ | ⟨t, toks⟩
      · rw [chainLoop, chainLoop]
        show _ = levelLoop _ _ (tree []) []
        rw [levelLoop]
        rfl
      · rcases ht : binaryToken t with _ | op
        · -- The chain ends here.
          have hnone : ∀ ops, levelOf ops t = none := fun ops => by simp [levelOf, ht]
          rw [chainLoop, chainLoop, hnone, hnone]
          show _ = levelLoop _ _ (tree []) (t :: toks)
          rw [levelLoop, hnone]
          rfl
        · by_cases hop : op ∈ ops
          · -- An operator of the level: the loop reads a chain of the levels above.
            have hlow : levelOf ops t = some op := levelOf_some.mpr ⟨ht, hop⟩
            have hall : levelOf (ops ++ higher.flatten) t = some op :=
              levelOf_some.mpr ⟨ht, List.mem_append_left _ hop⟩
            have hhigh : levelOf higher.flatten t = none := by
              refine levelOf_none.mpr fun op' hop' => ?_
              rw [ht] at hop'
              cases hop'
              exact hdisj op hop
            rw [chainLoop, chainLoop, hall, hhigh]
            show _ = levelLoop _ _ (tree []) (t :: toks)
            rw [levelLoop, hlow]
            dsimp only [readChain]
            rw [bind_assoc, bind_assoc]
            refine except_bind_congr fun out hx => ?_
            have hr := hshrink _ _ _ hx
            have hih := ih out.2.length (Nat.lt_succ_of_le hr) out.2
              (fun first => .binary op (tree []) (group higher out.1 first)) rfl
            rw [dif_pos hr, bind_assoc, bind_assoc]
            refine Eq.trans (except_bind_congr fun more _ => ?_)
              (hih.trans (except_bind_congr fun more htail => ?_))
            · show Except.ok _ = Except.ok _
              simp [splitTail, hop, joinLeft]
            · show _ = if _ : more.2.length ≤ toks.length then _ else _
              rw [dif_pos ((shrinks_chainLoop hshrink htail).trans hr)]
          · -- An operator above the level, or none of the table.
            have hlow : levelOf ops t = none := by
              refine levelOf_none.mpr fun op' hop' => ?_
              rw [ht] at hop'
              cases hop'
              exact hop
            by_cases hmem : op ∈ higher.flatten
            · have hall : levelOf (ops ++ higher.flatten) t = some op :=
                levelOf_some.mpr ⟨ht, List.mem_append_right _ hmem⟩
              have hhigh : levelOf higher.flatten t = some op := levelOf_some.mpr ⟨ht, hmem⟩
              rw [chainLoop, chainLoop, hall, hhigh]
              dsimp only
              rw [bind_assoc, bind_assoc]
              refine except_bind_congr fun out hx => ?_
              have hr := hshrink _ _ _ hx
              have hih := ih out.2.length (Nat.lt_succ_of_le hr) out.2
                (fun first => tree ((op, out.1) :: first)) rfl
              rw [dif_pos hr, dif_pos hr, bind_assoc, bind_assoc]
              refine Eq.trans (except_bind_congr fun more _ => ?_) hih
              show Except.ok _ = Except.ok _
              simp [splitTail, hop, joinLeft]
            · have hnone : levelOf (ops ++ higher.flatten) t = none := by
                refine levelOf_none.mpr fun op' hop' => ?_
                rw [ht] at hop'
                cases hop'
                exact fun h => (List.mem_append.mp h).elim hop hmem
              have hhigh : levelOf higher.flatten t = none := by
                refine levelOf_none.mpr fun op' hop' => ?_
                rw [ht] at hop'
                cases hop'
                exact hmem
              rw [chainLoop, chainLoop, hnone, hhigh]
              show _ = levelLoop _ _ (tree []) (t :: toks)
              rw [levelLoop, hlow]
              rfl

/-- No operator stands in two lines of a table. -/
def Table.Apart : Table → Prop
  | [] => True
  | ops :: higher => (∀ op ∈ ops, op ∉ higher.flatten) ∧ Table.Apart higher

/-- **A tower of levels reads a chain and groups it by the table.** -/
theorem tower_eq {table : Table} (hapart : table.Apart) {operand : Parser}
    (hshrink : Shrinks operand) : tower table operand = readChain table operand := by
  induction table with
  | nil =>
      funext toks
      have hnone : ∀ toks, chainLoop (levelOf []) operand toks = .ok ([], toks) := by
        intro toks
        rcases toks with _ | ⟨t, toks⟩
        · rw [chainLoop]
        · rw [chainLoop, levelOf_none.mpr fun op _ => List.not_mem_nil]
      show operand toks = operand toks >>= _
      rcases operand toks with e | ⟨x, rest⟩
      · rfl
      · show _ = chainLoop (levelOf []) operand rest >>= _
        rw [hnone]
        rfl
  | cons ops higher ih =>
      funext toks
      rw [tower, ih hapart.2]
      show (operand toks >>= _) >>= _ = operand toks >>= _
      rw [bind_assoc]
      refine except_bind_congr fun out _ => ?_
      rw [bind_assoc]
      exact (chainLoop_level hshrink hapart.1 out.2 (group higher out.1)).symm

/-- The tower of the parser. -/
theorem parseOr_eq {operand : Parser} (hshrink : Shrinks operand) :
    parseOr operand = readChain codeTable operand := by
  rw [parseOr_eq_tower]
  refine tower_eq ?_ hshrink
  simp [codeTable, arithTable, Table.Apart]

/-! ## Clashes among tokens -/

/-- The operator of a token, if it can clash. -/
def opsOf (t : Token) : List BinaryOp := ((binaryToken t).filter fun op => !isArith op).toList

/-- Scan tokens. For every parenthesis and bracket that is open, the operators since it or since the
last comma are kept; they are checked where the chain ends. What follows a dot is a name. -/
def scan : List (List BinaryOp) → Bool → List Token → Bool
  | open_, found, [] => found || open_.any clash
  | open_, found, .dot :: _ :: rest => scan open_ found rest
  | open_, found, .lParen :: rest => scan ([] :: open_) found rest
  | open_, found, .lBracket :: rest => scan ([] :: open_) found rest
  | ops :: open_, found, .rParen :: rest => scan open_ (found || clash ops) rest
  | ops :: open_, found, .rBracket :: rest => scan open_ (found || clash ops) rest
  | ops :: open_, found, .comma :: rest => scan ([] :: open_) (found || clash ops) rest
  | ops :: open_, found, t :: rest => scan ((ops ++ opsOf t) :: open_) found rest
  | [], found, _ :: rest => scan [] found rest

/-- Whether a chain of the expression with these tokens has operators that clash. -/
def clashes (toks : List Token) : Bool := scan [[]] false toks

/-- Tokens of one or more operands: a scan comes back to the chain it is in. -/
def Scans (toks : List Token) (b : Bool) : Prop :=
  ∀ ops open_ found rest,
    scan (ops :: open_) found (toks ++ rest) = scan (ops :: open_) (found || b) rest

/-- Tokens of a chain: a scan finds its operators, and the clashes inside its operands. -/
def Chains (toks : List Token) (chain : List BinaryOp) (b : Bool) : Prop :=
  ∀ open_ found rest, scan ([] :: open_) found (toks ++ rest) = scan (chain :: open_) (found || b) rest

theorem Scans.nil : Scans [] false := by
  intro ops open_ found rest
  simp

theorem Scans.append {toks toks' : List Token} {b b' : Bool} (h : Scans toks b)
    (h' : Scans toks' b') : Scans (toks ++ toks') (b || b') := by
  intro ops open_ found rest
  rw [List.append_assoc, h, h', Bool.or_assoc]

/-- A token that a scan passes over. -/
def Neutral (t : Token) : Prop :=
  ∀ ops open_ found rest, scan (ops :: open_) found (t :: rest) = scan (ops :: open_) found rest

theorem Neutral.scans {t : Token} (h : Neutral t) : Scans [t] false := by
  intro ops open_ found rest
  rw [List.singleton_append, h, Bool.or_false]

theorem Neutral.cons {t : Token} (h : Neutral t) {toks : List Token} {b : Bool}
    (hs : Scans toks b) : Scans (t :: toks) b := by
  intro ops open_ found rest
  rw [List.cons_append, h, hs]

/-- Tokens that are no brackets, commas, dots and no operators that can clash. -/
theorem neutral_of_opsOf {t : Token} (h : opsOf t = [])
    (hne : t ≠ .dot ∧ t ≠ .lParen ∧ t ≠ .rParen ∧ t ≠ .lBracket ∧ t ≠ .rBracket ∧ t ≠ .comma) :
    Neutral t := by
  intro ops open_ found rest
  obtain ⟨h₁, h₂, h₃, h₄, h₅, h₆⟩ := hne
  rw [scan]
  · rw [h, List.append_nil]
  · intro _ _ heq _
    exact h₁ heq
  · intro heq
    exact h₂ heq
  · intro heq
    exact h₄ heq
  · intro heq
    exact h₃ heq
  · intro heq
    exact h₅ heq
  · intro heq
    exact h₆ heq

/-- A chain between brackets is an operand. -/
theorem Chains.bracketed {toks : List Token} {chain : List BinaryOp} {b : Bool}
    (h : Chains toks chain b) :
    Scans (.lParen :: (toks ++ [.rParen])) (b || clash chain) ∧
      Scans (.lBracket :: (toks ++ [.rBracket])) (b || clash chain) := by
  constructor
  · intro ops open_ found rest
    have hpop : ∀ found rest, scan (chain :: ops :: open_) found (.rParen :: rest) =
        scan (ops :: open_) (found || clash chain) rest := by
      intro found rest
      rw [scan]
    simp only [List.cons_append, List.append_assoc, List.nil_append]
    rw [scan, h, hpop, Bool.or_assoc]
  · intro ops open_ found rest
    have hpop : ∀ found rest, scan (chain :: ops :: open_) found (.rBracket :: rest) =
        scan (ops :: open_) (found || clash chain) rest := by
      intro found rest
      rw [scan]
    simp only [List.cons_append, List.append_assoc, List.nil_append]
    rw [scan, h, hpop, Bool.or_assoc]

/-! ## The two parsers side by side -/

/-- Whether an expression is a name. -/
def isName : Expr → Bool
  | .name _ => true
  | _ => false

/-- Two parsers reject, or they accept the same tokens with related results. A strict one is never
stuck. -/
inductive Locked (strict : Prop) {α : Type} (R : α → α → List Token → Prop) (toks : List Token) :
    Except ParseError (α × List Token) → Except ParseError (α × List Token) → Prop
  | error {e e' : ParseError} (h : strict → e ≠ .stuck) (h' : strict → e' ≠ .stuck) :
      Locked strict R toks (.error e) (.error e')
  | ok {x y : α} (pre : List Token) {rest : List Token} (htoks : toks = pre ++ rest)
      (h : R x y pre) : Locked strict R toks (.ok (x, rest)) (.ok (y, rest))

section Locked

variable {strict : Prop}

theorem Locked.bind {α β : Type} {R : α → α → List Token → Prop} {S : β → β → List Token → Prop}
    {toks toks' : List Token} {p q : Except ParseError (α × List Token)}
    {k k' : α × List Token → Except ParseError (β × List Token)} (h : Locked strict R toks' p q)
    (hk : ∀ x y pre rest, toks' = pre ++ rest → R x y pre →
      Locked strict S toks (k (x, rest)) (k' (y, rest))) : Locked strict S toks (p >>= k) (q >>= k') := by
  cases h with
  | error h h' => exact .error h h'
  | ok pre htoks h => exact hk _ _ pre _ htoks h

theorem Locked.of_ok {α : Type} {R : α → α → List Token → Prop} {toks rest : List Token} {x : α}
    {q : Except ParseError (α × List Token)} (h : Locked strict R toks (.ok (x, rest)) q) :
    ∃ y pre, q = .ok (y, rest) ∧ toks = pre ++ rest ∧ R x y pre := by
  cases h with
  | ok pre htoks h => exact ⟨_, pre, rfl, htoks, h⟩

theorem Locked.lax {α : Type} {R : α → α → List Token → Prop} {toks : List Token}
    {p q : Except ParseError (α × List Token)} (h : Locked strict R toks p q) :
    Locked False R toks p q := by
  cases h with
  | error h h' => exact .error nofun nofun
  | ok pre htoks h => exact .ok pre htoks h

/-- The same results, with more tokens before them. -/
theorem Locked.mono {α : Type} {R S : α → α → List Token → Prop} {toks toks' : List Token}
    {p q : Except ParseError (α × List Token)} (h : Locked strict R toks' p q)
    (hRS : ∀ x y pre rest, toks' = pre ++ rest → R x y pre →
      ∃ pre', toks = pre' ++ rest ∧ S x y pre') : Locked strict S toks p q := by
  cases h with
  | error h h' => exact .error h h'
  | ok pre htoks h =>
      obtain ⟨pre', htoks', h'⟩ := hRS _ _ pre _ htoks h
      exact .ok pre' htoks' h'

/-- Operands: equal when no chain inside them clashes. -/
structure OperandRel (x y : Expr) (pre : List Token) : Prop where
  name : isName x = isName y
  scans : ∃ b, Scans pre b ∧ (x = y ↔ b = false)

/-- Expressions: equal when their chain does not clash, and none inside its operands. -/
structure ExprRel (x y : Expr) (pre : List Token) : Prop where
  name : isName x = isName y
  chains : ∃ chain b, Chains pre chain b ∧ (x = y ↔ (b || clash chain) = false)

/-- Tails of chains. -/
structure TailRel (t t' : Tail) (pre : List Token) : Prop where
  ops : t.ops = t'.ops
  scans : ∃ b, (∀ ops open_ found rest, scan (ops :: open_) found (pre ++ rest) =
      scan ((ops ++ t.ops.filter fun op => !isArith op) :: open_) (found || b) rest) ∧
    (t = t' ↔ b = false)

/-- Parsers that agree on lists of at most a length. -/
def LockedTo (strict : Prop) (R : Expr → Expr → List Token → Prop) (n : ℕ) (P Q : Parser) : Prop :=
  ∀ toks, toks.length ≤ n → Locked strict R toks (P toks) (Q toks)

/-! ### Chains -/

/-- The token of an operator. -/
theorem scan_binaryToken {t : Token} {op : BinaryOp} (h : binaryToken t = some op)
    (ops : List BinaryOp) (open_ : List (List BinaryOp)) (found : Bool) (rest : List Token) :
    scan (ops :: open_) found (t :: rest) =
      scan ((ops ++ [op].filter fun op => !isArith op) :: open_) found rest := by
  have hops : opsOf t = [op].filter fun op => !isArith op := by
    rw [opsOf, h]
    cases ha : isArith op <;> simp [Option.filter, ha]
  rw [scan, hops]
  all_goals
    intros
    subst_vars
    cases h

theorem chainLoop_locked {A B : Parser} {n : ℕ} (hAB : LockedTo strict OperandRel n A B)
    (toks : List Token) (hn : toks.length ≤ n) :
    Locked strict TailRel toks (chainLoop binaryToken A toks) (chainLoop binaryToken B toks) := by
  have hend : ∀ toks, Locked strict TailRel toks (.ok ([], toks)) (.ok ([], toks)) := by
    intro toks
    refine .ok [] rfl ⟨rfl, false, ?_, by simp⟩
    intro ops open_ found rest
    simp
  induction hlen : toks.length using Nat.strong_induction_on generalizing toks with
  | _ m ih =>
      subst hlen
      rcases toks with _ | ⟨t, toks⟩
      · rw [chainLoop, chainLoop]
        exact hend []
      · rcases ht : binaryToken t with _ | op
        · rw [chainLoop, chainLoop, ht]
          exact hend _
        · rw [chainLoop, chainLoop, ht]
          dsimp only
          refine (hAB toks (by simp at hn; omega)).bind fun x y pre rest htoks hxy => ?_
          have hrest : rest.length ≤ toks.length := by simp [htoks]
          dsimp only
          rw [dif_pos hrest, dif_pos hrest]
          have hih := ih rest.length (Nat.lt_succ_of_le hrest) rest
            (by simp at hn; omega) rfl
          refine hih.bind fun t₁ t₂ pre' rest' hrest' htail => ?_
          obtain ⟨b, hscan, hiff⟩ := hxy.scans
          obtain ⟨b', hscan', hiff'⟩ := htail.scans
          refine .ok (t :: (pre ++ pre')) (by simp [htoks, hrest']) ⟨?_, b || b', ?_, ?_⟩
          · simp [htail.ops]
          · intro ops open_ found rest
            rw [List.cons_append, List.append_assoc, scan_binaryToken ht, hscan, hscan',
              Bool.or_assoc, List.append_assoc, ← List.filter_append]
            rfl
          · simp [hiff, hiff']

theorem levelOf_all {ops : List BinaryOp} (h : ∀ op, op ∈ ops) : levelOf ops = binaryToken := by
  funext t
  rw [levelOf]
  rcases binaryToken t with _ | op
  · rfl
  · simp [Option.filter, h]

/-- The tree of a chain of more than one operand is no name. -/
theorem isName_group (table : Table) (x : Expr) (p : BinaryOp × Expr) (t : Tail) :
    isName (group table x (p :: t)) = false := by
  induction table with
  | nil =>
      have hfold : ∀ (t : Tail) (l : Expr), isName l = false →
          isName (t.foldl (fun l p => .binary p.1 l p.2) l) = false := by
        intro t
        induction t with
        | nil => exact fun l h => h
        | cons q t ih => exact fun l _ => ih _ rfl
      exact hfold t _ rfl
  | cons S H ih =>
      by_cases hex : ∃ op ∈ Tail.ops (p :: t), op ∈ S
      · obtain ⟨op, hop, hS⟩ := hex
        obtain ⟨o, -, l, r, hroot⟩ := group_root hop hS H x
        rw [hroot]
        rfl
      · rw [group_skip fun op hop hS => hex ⟨op, hop, hS⟩]
        exact ih

/-- A chain of operands that agree. -/
theorem readChain_locked {A B : Parser} {n : ℕ} (hAB : LockedTo strict OperandRel n A B) :
    LockedTo strict ExprRel n (readChain codeTable A) (readChain iecTable B) := by
  intro toks hn
  have hcode : levelOf codeTable.flatten = binaryToken :=
    levelOf_all fun op => by cases op <;> decide
  have hiec : levelOf iecTable.flatten = binaryToken :=
    levelOf_all fun op => by cases op <;> decide
  unfold readChain
  rw [hcode, hiec]
  refine (hAB toks hn).bind fun x y pre rest htoks hxy => ?_
  refine (chainLoop_locked hAB rest (by simp [htoks] at hn; omega)).bind
    fun t t' pre' rest' hrest htail => ?_
  obtain ⟨b, hscan, hiff⟩ := hxy.scans
  obtain ⟨b', hscan', hiff'⟩ := htail.scans
  refine .ok (pre ++ pre') (by simp [htoks, hrest]) ⟨?_, t.ops.filter fun op => !isArith op,
    b || b', ?_, ?_⟩
  · rcases t with _ | ⟨p, t⟩
    · have hnil : t' = [] := by
        have hops := htail.ops
        rcases t' with _ | ⟨q, t'⟩
        · rfl
        · cases hops
      rw [hnil]
      exact hxy.name
    · rcases t' with _ | ⟨q, t'⟩
      · have hops := htail.ops
        cases hops
      · rw [isName_group, isName_group]
  · intro open_ found rest
    rw [List.append_assoc, hscan, hscan', Bool.or_assoc, List.nil_append]
  · rw [clash_filter_arith, group_eq_iff htail.ops, hiff, hiff']
    cases b <;> cases b' <;> simp

/-! ### Operands -/

section Operands

variable {P Q : Parser}

theorem expectToken_cases (t : Token) (what : String) (toks : List Token) :
    (∃ rest, toks = t :: rest ∧ expectToken t what toks = .ok rest) ∨
      ∃ e, e ≠ .stuck ∧ expectToken t what toks = .error e := by
  rcases toks with _ | ⟨t', toks⟩
  · exact .inr ⟨.expected what none, nofun, rfl⟩
  · by_cases h : t' = t
    · exact .inl ⟨toks, by rw [h], if_pos h⟩
    · exact .inr ⟨.expected what (some t'), nofun, if_neg h⟩

/-- Going on behind a closing bracket. -/
theorem Locked.expect {α : Type} {R : α → α → List Token → Prop} {toks : List Token} (t : Token)
    (what : String) (rest : List Token)
    {k k' : List Token → Except ParseError (α × List Token)}
    (h : ∀ rest', rest = t :: rest' → Locked strict R toks (k rest') (k' rest')) :
    Locked strict R toks (expectToken t what rest >>= k) (expectToken t what rest >>= k') := by
  rcases expectToken_cases t what rest with ⟨rest', hrest, hok⟩ | ⟨e, hne, herr⟩
  · rw [hok]
    exact h rest' hrest
  · rw [herr]
    exact .error (fun _ => hne) fun _ => hne

theorem neutral_ident (text : String) : Neutral (.ident text) :=
  neutral_of_opsOf rfl (by simp)

/-- Keywords that are no operators. -/
theorem neutral_keyword {kw : Keyword} (h : binaryToken (.keyword kw) = none) :
    Neutral (.keyword kw) :=
  neutral_of_opsOf (by rw [opsOf, h]; rfl) (by simp)

/-- An operand of one token. -/
theorem Locked.token {x : Expr} {t : Token} (h : Neutral t) (rest : List Token) :
    Locked strict OperandRel (t :: rest) (.ok (x, rest)) (.ok (x, rest)) :=
  .ok [t] rfl ⟨rfl, false, h.scans, by simp⟩

theorem Locked.literal {α : Type} {what : String} {mk : α → Literal} {t : Token} (h : Neutral t)
    (rest : List Token) (v : Option α) :
    Locked strict OperandRel (t :: rest) (literalOf what mk rest v) (literalOf what mk rest v) := by
  rcases v with _ | v
  · exact .error nofun nofun
  · exact .token h rest

theorem parsePrimary_locked {toks : List Token}
    (h : ∀ nested, nested.length < toks.length → Locked strict ExprRel nested (P nested) (Q nested)) :
    Locked strict OperandRel toks (parsePrimary P toks) (parsePrimary Q toks) := by
  rcases toks with _ | ⟨t, toks⟩
  · exact .error nofun nofun
  cases t with
  | ident text =>
      -- `Q_GOOD` is a name when no parenthesis follows.
      have hname : Locked strict OperandRel (.ident text :: toks)
          (.ok (.name [.ident text], toks)) (.ok (.name [.ident text], toks)) :=
        .token (neutral_ident text) toks
      rcases toks with _ | ⟨t, toks⟩
      · exact hname
      by_cases ht : t = .lParen
      · subst ht
        simp only [parsePrimary]
        split_ifs with hq
        · refine (h toks (by simp)).bind fun x y pre rest htoks hxy => ?_
          refine Locked.expect _ _ rest fun rest' hrest => ?_
          obtain ⟨chain, b, hchain, hiff⟩ := hxy.chains
          refine .ok (.ident text :: .lParen :: (pre ++ [.rParen])) (by simp [htoks, hrest])
            ⟨rfl, _, (neutral_ident text).cons hchain.bracketed.1, ?_⟩
          rw [← hiff, Expr.qGood.injEq]
        · exact hname
      · have heq : ∀ P, parsePrimary P (.ident text :: t :: toks) =
            .ok (.name [.ident text], t :: toks) := by
          intro P
          rw [parsePrimary]
          intro rest heq
          cases heq
          exact ht rfl
        rw [heq, heq]
        exact hname
  | lParen =>
      refine (h toks (by simp)).bind fun x y pre rest htoks hxy => ?_
      refine Locked.expect _ _ rest fun rest' hrest => ?_
      obtain ⟨chain, b, hchain, hiff⟩ := hxy.chains
      exact .ok (.lParen :: (pre ++ [.rParen])) (by simp [htoks, hrest])
        ⟨hxy.name, _, hchain.bracketed.1, hiff⟩
  | intLit v => exact .literal (neutral_of_opsOf rfl (by simp)) toks v
  | realLit v => exact .literal (neutral_of_opsOf rfl (by simp)) toks v
  | timeLit v => exact .literal (neutral_of_opsOf rfl (by simp)) toks v
  | keyword kw =>
      cases kw with
      | true => exact .token (neutral_keyword rfl) toks
      | false => exact .token (neutral_keyword rfl) toks
      | en => exact .token (neutral_keyword rfl) toks
      | eno => exact .token (neutral_keyword rfl) toks
      | _ => exact .error nofun nofun
  | _ => exact .error nofun nofun

/-- Associations read so far: equal when nothing before them clashed. -/
structure AssocRel (before : Bool) (chain₀ : List BinaryOp) (a a' : Assocs) (pre : List Token) :
    Prop where
  scans : ∃ chain b, (∀ open_ found rest, scan (chain₀ :: open_) found (pre ++ rest) =
      scan (chain :: open_) (found || b) rest) ∧
    (a = a' ↔ (before || b || clash chain) = false)

theorem parseAssoc_locked {before : Bool} {args args' : Assocs}
    (hargs : args = args' ↔ before = false) {toks : List Token}
    (h : ∀ nested, nested.length ≤ toks.length → Locked strict ExprRel nested (P nested) (Q nested)) :
    Locked strict (AssocRel before []) toks (parseAssoc P args toks) (parseAssoc Q args' toks) := by
  obtain ⟨ins, outs⟩ := args
  obtain ⟨ins', outs'⟩ := args'
  rw [Assocs.mk.injEq] at hargs
  -- The value of an association, behind its name.
  have hnext : ∀ {text : String} {t : Token} {rest : List Token} {f f' : Expr → Assocs},
      Neutral t → toks = .ident text :: t :: rest →
      (∀ x y, f x = f' y ↔ (before = false ∧ x = y)) →
      Locked strict (AssocRel before []) toks
        (P rest >>= fun out => .ok (f out.1, out.2)) (Q rest >>= fun out => .ok (f' out.1, out.2)) := by
    intro text t rest f f' hneutral htoks hf
    refine (h rest (by simp [htoks]; omega)).bind fun x y pre rest' hrest hxy => ?_
    obtain ⟨chain, b, hchain, hiff⟩ := hxy.chains
    refine .ok (.ident text :: t :: pre) (by simp [htoks, hrest]) ⟨chain, b, ?_, ?_⟩
    · intro open_ found rest
      rw [List.cons_append, List.cons_append, neutral_ident, hneutral, hchain]
    · rw [hf, hiff]
      cases before <;> simp
  have hpositional : Locked strict (AssocRel before []) toks
      (P toks >>= fun out => .ok (⟨ins ++ [.positional out.1], outs⟩, out.2))
      (Q toks >>= fun out => .ok (⟨ins' ++ [.positional out.1], outs'⟩, out.2)) := by
    refine (h toks (le_refl _)).bind fun x y pre rest htoks hxy => ?_
    obtain ⟨chain, b, hchain, hiff⟩ := hxy.chains
    refine .ok pre htoks ⟨chain, b, hchain, ?_⟩
    have heq : (⟨ins ++ [.positional x], outs⟩ : Assocs) = ⟨ins' ++ [.positional y], outs'⟩ ↔
        before = false ∧ x = y := by
      simp [← hargs]
      tauto
    rw [heq, hiff]
    cases before <;> simp
  by_cases hassign : ∃ text rest, toks = .ident text :: .assign :: rest
  · obtain ⟨text, rest, rfl⟩ := hassign
    refine @hnext text .assign rest (fun x => ⟨ins ++ [.named text x], outs⟩)
      (fun x => ⟨ins' ++ [.named text x], outs'⟩) (neutral_of_opsOf rfl (by simp)) rfl fun x y => ?_
    simp [← hargs]
    tauto
  · by_cases harrow : ∃ text rest, toks = .ident text :: .arrow :: rest
    · obtain ⟨text, rest, rfl⟩ := harrow
      refine @hnext text .arrow rest (fun x => ⟨ins, outs ++ [⟨text, x⟩]⟩)
        (fun x => ⟨ins', outs' ++ [⟨text, x⟩]⟩) (neutral_of_opsOf rfl (by simp)) rfl fun x y => ?_
      simp [← hargs]
      tauto
    · have heq : ∀ (P : Parser) (args : Assocs), parseAssoc P args toks =
          (P toks >>= fun out => .ok (⟨args.inputs ++ [.positional out.1], args.outputs⟩, out.2)) := by
        intro P args
        rw [parseAssoc]
        · intro text rest heq
          exact hassign ⟨text, rest, heq⟩
        · intro text rest heq
          exact harrow ⟨text, rest, heq⟩
      rw [heq, heq]
      exact hpositional

theorem assocLoop_locked (before : Bool) (chain₀ : List BinaryOp) {args args' : Assocs}
    (hargs : args = args' ↔ (before || clash chain₀) = false) (toks : List Token)
    (h : ∀ nested, nested.length ≤ toks.length → Locked strict ExprRel nested (P nested) (Q nested)) :
    Locked strict (AssocRel before chain₀) toks (assocLoop P args toks) (assocLoop Q args' toks) := by
  induction hlen : toks.length using Nat.strong_induction_on
    generalizing toks before chain₀ args args' with
  | _ n ih =>
      subst hlen
      by_cases hcomma : ∃ rest, toks = .comma :: rest
      · obtain ⟨rest, rfl⟩ := hcomma
        rw [assocLoop, assocLoop]
        have hnested : ∀ nested : List Token, nested.length ≤ rest.length →
            Locked strict ExprRel nested (P nested) (Q nested) :=
          fun nested hle => h nested (hle.trans (Nat.le_succ _))
        refine (parseAssoc_locked hargs hnested).bind fun a a' pre rest' hrest hrel => ?_
        have hle : rest'.length ≤ rest.length := by simp [hrest]
        dsimp only
        rw [dif_pos hle, dif_pos hle]
        obtain ⟨chain, b, hscan, hiff⟩ := hrel.scans
        have hloop := ih rest'.length (Nat.lt_succ_of_le hle) (before || clash chain₀ || b) chain
          hiff rest' (fun nested hlt => hnested nested (hlt.trans hle)) rfl
        -- The comma ends a chain, and the rest is the loop from the next one.
        refine hloop.mono fun x y pre' rest'' hpre' hrel' => ?_
        obtain ⟨chain', b', hscan', hiff'⟩ := hrel'.scans
        refine ⟨.comma :: (pre ++ pre'), by simp [hrest, hpre'],
          ⟨chain', clash chain₀ || b || b', ?_, ?_⟩⟩
        · intro open_ found rest
          rw [List.cons_append, scan, List.append_assoc, hscan, hscan']
          simp only [Bool.or_assoc]
        · rw [hiff']
          simp only [Bool.or_assoc]
      · have hend : ∀ (P : Parser) (args : Assocs), assocLoop P args toks = .ok (args, toks) := by
          intro P args
          rw [assocLoop]
          intro rest heq
          exact hcomma ⟨rest, heq⟩
        rw [hend, hend]
        refine .ok [] rfl ⟨chain₀, false, ?_, ?_⟩
        · intro open_ found rest
          simp
        · rw [hargs, Bool.or_false]

theorem parseAssocs_locked (toks : List Token)
    (h : ∀ nested, nested.length ≤ toks.length → Locked strict ExprRel nested (P nested) (Q nested)) :
    Locked strict (AssocRel false []) toks (parseAssocs P toks) (parseAssocs Q toks) := by
  unfold parseAssocs
  split_ifs with hclose
  · refine .ok [] rfl ⟨[], false, ?_, by simp [clash]⟩
    intro open_ found rest
    simp
  · have hstart : (⟨[], []⟩ : Assocs) = ⟨[], []⟩ ↔ false = false := by simp
    refine (parseAssoc_locked hstart h).bind fun a a' pre rest htoks hrel => ?_
    obtain ⟨chain, b, hscan, hiff⟩ := hrel.scans
    have hrest : rest.length ≤ toks.length := by simp [htoks]
    have hloop := assocLoop_locked b chain (by simpa using hiff) rest
      fun nested hle => h nested (hle.trans hrest)
    refine hloop.mono fun x y pre' rest' hpre' hrel' => ?_
    obtain ⟨chain', b', hscan', hiff'⟩ := hrel'.scans
    refine ⟨pre ++ pre', by simp [htoks, hpre'], ⟨chain', b || b', ?_, ?_⟩⟩
    · intro open_ found rest
      rw [List.append_assoc, hscan, hscan', Bool.or_assoc]
    · rw [hiff']
      simp

/-- Operands with postfix forms: equal when nothing clashed before these tokens or among them. -/
structure SuffixRel (before : Bool) (x y : Expr) (pre : List Token) : Prop where
  name : isName x = isName y
  scans : ∃ b, Scans pre b ∧ (x = y ↔ (before || b) = false)

/-- A path that two parsers extend alike, or reject alike. -/
theorem isName_cases {e e' : Expr} (h : isName e = isName e') :
    (∃ path path', e = .name path ∧ e' = .name path') ∨
      (∀ path, e ≠ .name path) ∧ ∀ path, e' ≠ .name path := by
  cases e <;> cases e' <;> simp_all [isName]

theorem extendPath_error {e : Expr} (h : ∀ path, e ≠ .name path) (seg : PathSeg) (what : String)
    (rest : List Token) : extendPath seg what rest e = .error (.notAName what) := by
  cases e with
  | name path => exact absurd rfl (h path)
  | _ => rfl

theorem extendPath_locked {before b : Bool} {e e' : Expr} (hname : isName e = isName e')
    (heq : e = e' ↔ before = false) {seg seg' : PathSeg} (hseg : seg = seg' ↔ b = false)
    {toks rest : List Token} (pre : List Token) (htoks : toks = pre ++ rest) (hne : pre ≠ [])
    (hscan : Scans pre b) (what : String) :
    Locked strict (fun x y pre => SuffixRel before x y pre ∧ pre ≠ []) toks
      (extendPath seg what rest e) (extendPath seg' what rest e') := by
  rcases isName_cases hname with ⟨path, path', rfl, rfl⟩ | ⟨h, h'⟩
  · refine .ok pre htoks ⟨⟨rfl, b, hscan, ?_⟩, hne⟩
    rw [Expr.name.injEq] at heq
    simp [heq, hseg]
  · rw [extendPath_error h, extendPath_error h']
    exact .error nofun nofun

theorem finishFbCall_locked {before : Bool} {e e' : Expr} (hname : isName e = isName e')
    (heq : e = e' ↔ before = false) {toks : List Token}
    (h : ∀ nested, nested.length ≤ toks.length → Locked strict ExprRel nested (P nested) (Q nested)) :
    Locked strict (fun x y pre => SuffixRel before x y pre ∧ pre ≠ []) (.lParen :: toks)
      (finishFbCall P toks e) (finishFbCall Q toks e') := by
  have herror : ∀ (P : Parser) {e : Expr}, (∀ path, e ≠ .name path) →
      finishFbCall P toks e = .error (.notAName "FB call callee must be a name") := by
    intro P e he
    cases e with
    | name path => exact absurd rfl (he path)
    | _ => rfl
  rcases isName_cases hname with ⟨path, path', rfl, rfl⟩ | ⟨he, he'⟩
  · refine (parseAssocs_locked toks h).bind fun a a' pre rest htoks hrel => ?_
    refine Locked.expect _ _ rest fun rest' hrest => ?_
    obtain ⟨chain, b, hchain, hiff⟩ := hrel.scans
    refine .ok (.lParen :: (pre ++ [.rParen])) (by simp [htoks, hrest])
      ⟨⟨rfl, _, Chains.bracketed hchain |>.1, ?_⟩, by simp⟩
    obtain ⟨ins, outs⟩ := a
    obtain ⟨ins', outs'⟩ := a'
    rw [Expr.name.injEq] at heq
    rw [Assocs.mk.injEq] at hiff
    simp [heq, hiff]
  · rw [herror P he, herror Q he']
    exact .error nofun nofun

/-- A name behind a dot. -/
theorem scans_dot (t : Token) : Scans [.dot, t] false := by
  intro ops open_ found rest
  simp [scan]

/-- Both parsers read a postfix form, or none of them does. -/
theorem parseSuffix_locked {before : Bool} {e e' : Expr} (hname : isName e = isName e')
    (heq : e = e' ↔ before = false) {toks : List Token}
    (h : ∀ nested, nested.length < toks.length → Locked strict ExprRel nested (P nested) (Q nested)) :
    (parseSuffix P e toks = none ∧ parseSuffix Q e' toks = none) ∨
      ∃ form form', parseSuffix P e toks = some form ∧ parseSuffix Q e' toks = some form' ∧
        Locked strict (fun x y pre => SuffixRel before x y pre ∧ pre ≠ []) toks form form' := by
  rcases toks with _ | ⟨t, toks⟩
  · exact .inl ⟨rfl, rfl⟩
  cases t with
  | dot =>
      refine .inr ⟨_, _, rfl, rfl, ?_⟩
      have hfield : ∀ (t : Token) (name : String) (rest : List Token),
          Locked strict (fun x y pre => SuffixRel before x y pre ∧ pre ≠ []) (.dot :: t :: rest)
            (extendPath (.ident name) "field access on non-name" rest e)
            (extendPath (.ident name) "field access on non-name" rest e') :=
        fun t name rest =>
          extendPath_locked hname heq (by simp) [.dot, t] rfl (by simp) (scans_dot t) _
      rcases toks with _ | ⟨t, rest⟩
      · exact .error nofun nofun
      cases t with
      | ident text => exact hfield (.ident text) text rest
      | keyword kw => exact hfield (.keyword kw) kw.text rest
      | _ => exact .error nofun nofun
  | lBracket =>
      refine .inr ⟨_, _, rfl, rfl, ?_⟩
      refine (h toks (by simp)).bind fun x y pre rest htoks hxy => ?_
      refine Locked.expect _ _ rest fun rest' hrest => ?_
      obtain ⟨chain, b, hchain, hiff⟩ := hxy.chains
      exact extendPath_locked hname heq (by rw [PathSeg.index.injEq, hiff])
        (.lBracket :: (pre ++ [.rBracket])) (by simp [htoks, hrest]) (by simp)
        hchain.bracketed.2 _
  | lParen =>
      exact .inr ⟨_, _, rfl, rfl, finishFbCall_locked hname heq
        fun nested hle => h nested (Nat.lt_succ_of_le hle)⟩
  | _ => exact .inl ⟨rfl, rfl⟩

theorem suffixLoop_locked {before : Bool} {e e' : Expr} (hname : isName e = isName e')
    (heq : e = e' ↔ before = false) (toks : List Token)
    (h : ∀ nested, nested.length < toks.length → Locked strict ExprRel nested (P nested) (Q nested)) :
    Locked strict (SuffixRel before) toks (suffixLoop P e toks) (suffixLoop Q e' toks) := by
  induction hlen : toks.length using Nat.strong_induction_on
    generalizing toks before e e' with
  | _ n ih =>
      subst hlen
      rcases parseSuffix_locked hname heq h with ⟨hnone, hnone'⟩ | ⟨form, form', hs, hs', hlock⟩
      · rw [suffixLoop, suffixLoop, hnone, hnone']
        exact .ok [] rfl ⟨hname, false, .nil, by simpa using heq⟩
      · rw [suffixLoop, suffixLoop, hs, hs']
        refine hlock.bind fun x y pre rest htoks hrel => ?_
        obtain ⟨⟨hxy, b, hscan, hiff⟩, hpre⟩ := hrel
        have hlt : rest.length < toks.length := by
          have hpos := List.length_pos_iff.mpr hpre
          rw [htoks, List.length_append]
          omega
        dsimp only
        rw [dif_pos hlt, dif_pos hlt]
        refine (ih rest.length hlt hxy hiff rest (fun nested hn => h nested (hn.trans hlt))
          rfl).mono fun x' y' pre' rest' hrest hrel' => ?_
        obtain ⟨b', hscan', hiff'⟩ := hrel'.scans
        exact ⟨pre ++ pre', by simp [htoks, hrest], hrel'.name, b || b', hscan.append hscan',
          by rw [hiff', Bool.or_assoc]⟩

theorem parseUnary_locked (toks : List Token)
    (h : ∀ nested, nested.length < toks.length → Locked strict ExprRel nested (P nested) (Q nested)) :
    Locked strict OperandRel toks (parseUnary P toks) (parseUnary Q toks) := by
  -- `NOT` and the sign stand before an operand and are no operators of the chain.
  have hsign : ∀ (t : Token) (op : UnaryOp) (rest : List Token), Neutral t →
      Locked strict OperandRel rest (parseUnary P rest) (parseUnary Q rest) →
      Locked strict OperandRel (t :: rest)
        (parseUnary P rest >>= fun out => .ok (.unary op out.1, out.2))
        (parseUnary Q rest >>= fun out => .ok (.unary op out.1, out.2)) := by
    intro t op rest hneutral hrest
    refine hrest.bind fun x y pre rest' htoks hxy => ?_
    obtain ⟨b, hscan, hiff⟩ := hxy.scans
    refine .ok (t :: pre) (by simp [htoks]) ⟨rfl, b, hneutral.cons hscan, ?_⟩
    rw [← hiff, Expr.unary.injEq]
    simp
  have hpostfix : ∀ toks : List Token,
      (∀ nested, nested.length < toks.length → Locked strict ExprRel nested (P nested) (Q nested)) →
      Locked strict OperandRel toks (parsePostfix P toks) (parsePostfix Q toks) := by
    intro toks h
    refine (parsePrimary_locked h).bind fun x y pre rest htoks hxy => ?_
    obtain ⟨b, hscan, hiff⟩ := hxy.scans
    have hle : rest.length ≤ toks.length := by simp [htoks]
    refine (suffixLoop_locked hxy.name hiff rest
      fun nested hlt => h nested (hlt.trans_le hle)).mono fun x' y' pre' rest' hrest hrel => ?_
    obtain ⟨b', hscan', hiff'⟩ := hrel.scans
    exact ⟨pre ++ pre', by simp [htoks, hrest], hrel.name, b || b', hscan.append hscan', hiff'⟩
  induction toks with
  | nil => exact hpostfix [] h
  | cons t toks ih =>
      have hrest := ih fun nested hlt => h nested (hlt.trans (Nat.lt_succ_self _))
      by_cases hnot : t = .keyword .not
      · subst hnot
        exact hsign _ .not toks (neutral_keyword rfl) hrest
      · by_cases hminus : t = .minus
        · subst hminus
          exact hsign _ .neg toks (neutral_of_opsOf rfl (by simp)) hrest
        · have heq : ∀ P, parseUnary P (t :: toks) = parsePostfix P (t :: toks) := by
            intro P
            rw [parseUnary]
            · intro rest heq
              cases heq
              exact hnot rfl
            · intro rest heq
              cases heq
              exact hminus rfl
          rw [heq, heq]
          exact hpostfix _ h

end Operands

end Locked

/-! ### Nested expressions -/

theorem parseWith_locked (toks : List Token) :
    Locked True ExprRel toks (parseWith (readChain codeTable) toks)
      (parseWith (readChain iecTable) toks) := by
  induction hlen : toks.length using Nat.strong_induction_on generalizing toks with
  | _ n ih =>
      subst hlen
      rw [parseWith, parseWith]
      refine readChain_locked (fun toks' hle => ?_) toks (le_refl _)
      refine parseUnary_locked toks' fun nested hlt => ?_
      have hlt' : nested.length < toks.length := hlt.trans_le hle
      simp only [hlt', dif_pos]
      exact ih nested.length hlt' nested rfl

/-- The parser of the code reads chains and groups them by `codeTable`. -/
theorem parseExpr_eq (toks : List Token) :
    parseExpr toks = parseWith (readChain codeTable) toks := by
  unfold parseExpr
  induction hlen : toks.length using Nat.strong_induction_on generalizing toks with
  | _ n ih =>
      subst hlen
      rw [parseWith, parseWith]
      have hnested : (fun nested : List Token => if _ : nested.length < toks.length then
            parseWith parseOr nested else .error .stuck) =
          fun nested => if _ : nested.length < toks.length then
            parseWith (readChain codeTable) nested else .error .stuck := by
        funext nested
        split_ifs with hlt
        · exact ih nested.length hlt nested rfl
        · rfl
      rw [hnested, parseOr_eq]
      -- An operand leaves no more tokens than it gets, as it agrees with one of the standard.
      intro toks' x rest hx
      have hlock := @parseUnary_locked False
        (fun nested => if _ : nested.length < toks.length then
          parseWith (readChain codeTable) nested else .error .stuck)
        (fun nested => if _ : nested.length < toks.length then
          parseWith (readChain iecTable) nested else .error .stuck) toks' fun nested _ => ?_
      · rw [hx] at hlock
        obtain ⟨y, pre, -, htoks, -⟩ := hlock.of_ok
        simp [htoks]
      · by_cases hlt : nested.length < toks.length
        · simp only [hlt, dif_pos]
          exact (parseWith_locked nested).lax
        · simp only [hlt]
          exact .error nofun nofun

/-- The guard of the recursion never fails. -/
theorem parseExpr_ne_stuck (toks : List Token) : parseExpr toks ≠ .error .stuck := by
  intro hstuck
  have hlock := parseWith_locked toks
  rw [← parseExpr_eq, hstuck] at hlock
  generalize parseWith (readChain iecTable) toks = q at hlock
  cases hlock with
  | error h h' => exact h trivial rfl

/-- **The parser builds the tree of the standard exactly when no chain of the expression clashes.**
The parser of the standard accepts the same tokens. -/
theorem parse_iec_iff {expr rest : List Token} {e : Expr}
    (h : parseExpr (expr ++ rest) = .ok (e, rest)) :
    (∃ e', iecExpr (expr ++ rest) = .ok (e', rest)) ∧
      (iecExpr (expr ++ rest) = .ok (e, rest) ↔ clashes expr = false) := by
  have hlock := parseWith_locked (expr ++ rest)
  rw [← parseExpr_eq, h] at hlock
  obtain ⟨e', pre, hiec, htoks, hrel⟩ := hlock.of_ok
  obtain ⟨chain, b, hchain, hiff⟩ := hrel.chains
  rw [← List.append_cancel_right htoks] at hchain
  refine ⟨⟨e', hiec⟩, ?_⟩
  have hscan := hchain [] false []
  rw [List.append_nil, scan, Bool.false_or] at hscan
  have hclash : clashes expr = false ↔ e = e' := by
    rw [hiff, clashes, hscan]
    simp
  rw [hclash]
  show parseWith (readChain iecTable) (expr ++ rest) = _ ↔ _
  rw [hiec]
  simp [eq_comm]

/-- `a OR NOT b AND x = y + z;` -/
theorem parse_iec_mixed :
    clashes [.ident "a", .keyword .or, .keyword .not, .ident "b", .keyword .and, .ident "x", .eq,
        .ident "y", .plus, .ident "z"] = false ∧
      iecExpr ([.ident "a", .keyword .or, .keyword .not, .ident "b", .keyword .and, .ident "x", .eq,
          .ident "y", .plus, .ident "z"] ++ [.semi]) =
        .ok (.binary .or (.name [.ident "a"])
          (.binary .and (.unary .not (.name [.ident "b"]))
            (.binary .eq (.name [.ident "x"])
              (.binary .add (.name [.ident "y"]) (.name [.ident "z"])))), [.semi]) := by
  have hnone : clashes [.ident "a", .keyword .or, .keyword .not, .ident "b", .keyword .and,
      .ident "x", .eq, .ident "y", .plus, .ident "z"] = false := by
    decide
  exact ⟨hnone, (parse_iec_iff (by with_unfolding_all rfl)).2.mpr hnone⟩

/-- `a XOR b AND c`: the code takes the `XOR` first, the standard the `AND`. -/
theorem xor_and_grouped_left :
    ∃ e e', parseExpr [.ident "a", .keyword .xor, .ident "b", .keyword .and, .ident "c"] =
        .ok (e, []) ∧
      iecExpr [.ident "a", .keyword .xor, .ident "b", .keyword .and, .ident "c"] = .ok (e', []) ∧
      e = .binary .and (.binary .xor (.name [.ident "a"]) (.name [.ident "b"]))
        (.name [.ident "c"]) ∧
      e' = .binary .xor (.name [.ident "a"])
        (.binary .and (.name [.ident "b"]) (.name [.ident "c"])) ∧ e ≠ e' := by
  refine ⟨_, _, ?_, ?_, rfl, rfl, nofun⟩
  · with_unfolding_all rfl
  · with_unfolding_all rfl

end SoftPlc.St

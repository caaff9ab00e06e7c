import SoftPlc.Compiler.Binding
import SoftPlc.St.Semantics
import SoftPlc.Vm.Sessions

/-!
# Initial values

The initialiser of a declaration is parsed and kept in the syntax tree. Binding reads it in one
place, a `VAR CONSTANT` of a program without an address, and there a read of the variable is the
literal itself. Every other variable is a cell of zeroed memory, which a load reads as BOOL FALSE
until something is stored there.

So, from a cold start on and as long as the cell is not written, a read gives the value of the
initialiser exactly for these constants and where this value is FALSE (`initial_value_iff`).
-/

namespace SoftPlc.Compiler

open SoftPlc.Ir SoftPlc.St SoftPlc.Lib SoftPlc.Vm

/-! ## Constants -/

/-- The literal of a declaration that binding turns into a constant. -/
def constantDecl (d : VarKind × VarDecl) : Option Literal :=
  match d.1, d.2.addr, d.2.init with
  | .constant, none, some (.literal value) => some value
  | _, _, _ => none

/-- The first declaration of a name. -/
def declOf (vars : List (VarKind × VarDecl)) (key : String) : Option (VarKind × VarDecl) :=
  vars.find? fun d => lower d.2.name == key

/-- The literal of the constant that a name stands for in the programs. -/
def Decls.constant (ds : Decls) (key : String) : Option Literal :=
  (declOf ds.programVars key).bind constantDecl

/-- The literal of a constant. -/
def Storage.literal : Storage → Option Literal
  | .const _ value => some value
  | _ => none

theorem literal_of_bindStep {fbs : FbLayouts} {maxInstances : ℕ} {kind : VarKind} {v : VarDecl}
    {st st' : BindState} {storage : Storage} (h : BindStep fbs maxInstances kind v st storage st') :
    storage.literal = constantDecl (kind, v) := by
  have hplain : ¬IsConstant kind v → none = constantDecl (kind, v) := by
    intro hnot
    unfold constantDecl
    split
    · rename_i hkind haddr _
      exact absurd ⟨hkind, haddr⟩ hnot
    · rfl
  cases h with
  | const hconst hinit => simp [Storage.literal, constantDecl, hconst.1, hconst.2, hinit]
  | input _ _ h => exact hplain h
  | output _ _ h => exact hplain h
  | retain _ _ h => exact hplain h
  | data _ _ h => exact hplain h
  | prim _ _ _ h => exact hplain h
  | userInst _ _ h => exact hplain h

/-- The names that are bound are those that are declared, and the constants among the symbols are
the constants among the declarations. -/
structure Binds (vars : List (VarKind × VarDecl)) (globals : Symbols) : Prop where
  unbound : ∀ key, globals.lookup key = none ↔ declOf vars key = none
  literal : ∀ key st, globals.lookup key = some st →
    st.literal = (declOf vars key).bind constantDecl

theorem declOf_append (vars : List (VarKind × VarDecl)) (kind : VarKind) (v : VarDecl)
    (key : String) :
    declOf (vars ++ [(kind, v)]) key =
      (declOf vars key).or (if lower v.name = key then some (kind, v) else none) := by
  unfold declOf
  rw [List.find?_append]
  by_cases h : lower v.name = key
  · simp [h]
  · simp [h]

/-- **The symbol table holds the declarations of the programs.** -/
theorem binds_bindProject {file : ProjectFile} {fbs : FbLayouts} {ds : Decls} {bound : BindState}
    (h : bindProject file fbs ds.programs = .ok bound) : Binds ds.programVars bound.globals := by
  refine bindProject_induct h (fun vars st => Binds vars st.globals) ?_ ?_
  · intro st hempty _ _ _
    rw [hempty]
    exact ⟨fun key => by simp [declOf], fun key st hst => by simp at hst⟩
  · intro vars st kind v st' hbinds hv
    rcases bindVar_ok hv with ⟨hbound, rfl⟩ | ⟨hnone, storage, st₁, hstep, rfl⟩
    · -- A name that is bound already: its first declaration stays.
      have hfirst : ∀ key, declOf (vars ++ [(kind, v)]) key = declOf vars key := by
        intro key
        rw [declOf_append]
        by_cases hkey : lower v.name = key
        · subst hkey
          rcases hd : declOf vars (lower v.name) with _ | d
          · rw [(hbinds.unbound _).mpr hd] at hbound
            cases hbound
          · rfl
        · simp [hkey]
      exact ⟨fun key => by rw [hfirst, hbinds.unbound], fun key st hst => by
        rw [hfirst]
        exact hbinds.literal key st hst⟩
    · have hnew := (hbinds.unbound _).mp hnone
      refine ⟨?_, ?_⟩
      · intro key
        rw [declOf_append]
        by_cases hkey : lower v.name = key
        · subst hkey
          simp [hnew]
        · have hne : (key == lower v.name) = false := beq_false_of_ne (Ne.symm hkey)
          simp [List.lookup_cons, hne, hkey, hbinds.unbound key]
      · intro key st' hst
        rw [declOf_append]
        by_cases hkey : lower v.name = key
        · subst hkey
          rw [List.lookup_cons_self] at hst
          cases hst
          simp [hnew, literal_of_bindStep hstep]
        · have hne : (key == lower v.name) = false := beq_false_of_ne (Ne.symm hkey)
          rw [List.lookup_cons, hne] at hst
          simpa [hkey] using hbinds.literal key st' hst

/-! ## Reads -/

/-- The code of a read: the action appends one instruction. -/
def Emits {α : Type} (m : EmitM α) (i : DecodedInstr) : Prop :=
  ∃ a g g', m g = .ok a g' ∧ g'.items = g.items ++ [.instr i]

/-- An action that appends one instruction emits no other. -/
theorem Emits.eq {α : Type} {m : EmitM α} {i j : DecodedInstr} (h : Emits m i)
    (hm : ∀ a g g', m g = .ok a g' → g' = g.adds [.instr j]) : i = j := by
  obtain ⟨a, g, g', hrun, hitems⟩ := h
  rw [hm a g g' hrun, Codegen.adds_items] at hitems
  simpa using (List.append_cancel_left hitems).symm

/-- The instructions that read a variable, of a program or of a function block: by its name where it
is in scope, by its name and an index, or through the name of an instance. -/
inductive ReadOf (c : Compiled) : Option String → VarDecl → DecodedInstr → Prop
  | program {key : String} {p : Program} {s : VarSection} {v : VarDecl} {st : Storage}
      {root : String} {i : DecodedInstr} (hp : (key, p) ∈ c.decls.programs) (hs : s ∈ p.vars)
      (hv : v ∈ s.vars) (hst : c.bound.globals.lookup (lower v.name) = some st)
      (hi : Emits (emitLoadWhole root st) i) : ReadOf c none v i
  | programElem {key : String} {p : Program} {s : VarSection} {v : VarDecl} {st : Storage}
      {index : Expr} {i : DecodedInstr} (hp : (key, p) ∈ c.decls.programs) (hs : s ∈ p.vars)
      (hv : v ∈ s.vars) (hst : c.bound.globals.lookup (lower v.name) = some st)
      (hi : Emits (emitLoadIndex index st) i) : ReadOf c none v i
  | block {key : String} {fb : FunctionBlock} {s : VarSection} {v : VarDecl} {l : UserFbLayout}
      {st : Storage} {root : String} {i : DecodedInstr} (hfb : (key, fb) ∈ c.decls.fbs)
      (hs : s ∈ fb.vars) (hv : v ∈ s.vars) (hl : c.fbLayouts.lookup key = some l)
      (hst : (fieldSymbols l.fields).lookup (lower v.name) = some st)
      (hi : Emits (emitLoadWhole root st) i) : ReadOf c (some key) v i
  | blockElem {key : String} {fb : FunctionBlock} {s : VarSection} {v : VarDecl} {l : UserFbLayout}
      {st : Storage} {index : Expr} {i : DecodedInstr} (hfb : (key, fb) ∈ c.decls.fbs)
      (hs : s ∈ fb.vars) (hv : v ∈ s.vars) (hl : c.fbLayouts.lookup key = some l)
      (hst : (fieldSymbols l.fields).lookup (lower v.name) = some st)
      (hi : Emits (emitLoadIndex index st) i) : ReadOf c (some key) v i
  | field {key : String} {fb : FunctionBlock} {s : VarSection} {v : VarDecl} {l : UserFbLayout}
      {f : FieldLayout} {base : ℕ} {i : DecodedInstr} (hfb : (key, fb) ∈ c.decls.fbs)
      (hs : s ∈ fb.vars) (hv : v ∈ s.vars) (hl : c.fbLayouts.lookup key = some l)
      (hf : l.field v.name = some f) (hi : Emits (emitLoadField base f) i) : ReadOf c (some key) v i

/-- The instructions that load from memory. -/
def IsLoad (i : DecodedInstr) : Prop :=
  ∃ op payload, i = .simple op payload ∧ (op = .ldData ∨ op = .ldRetain ∨ op = .ldI ∨ op = .ldQ)

theorem IsLoad.place {i : DecodedInstr} (h : IsLoad i) (s : VmState) : ∃ p, loadPlace s i = some p := by
  obtain ⟨op, payload, rfl, rfl | rfl | rfl | rfl⟩ := h
  · exact ⟨_, rfl⟩
  · exact ⟨_, rfl⟩
  · exact ⟨_, rfl⟩
  · exact ⟨_, rfl⟩

/-- The instruction that pushes a literal. -/
def literalInstr : Literal → DecodedInstr
  | .bool b => .simple .pushIBool (if b then 1 else 0)
  | .int v => .withImm32 .pushIDint 0 (asU32 v)
  | .real v => .withImm32 .pushIReal 0 v.bits.toNat
  | .timeMs v => .withImm32 .pushTime 0 v.toNat

theorem emits_literal {value : Literal} {i : DecodedInstr} (h : Emits (emitLiteral value) i) :
    i = literalInstr value := by
  refine h.eq fun t g g' hrun => ?_
  cases value with
  | bool b =>
      cases hrun
      rfl
  | int v =>
      cases hrun
      rfl
  | real v =>
      cases hrun
      rfl
  | timeMs v =>
      cases hrun
      rfl

/-- Reading a name is a load, or the literal of a constant. -/
theorem emits_loadWhole {root : String} {st : Storage} {i : DecodedInstr}
    (h : Emits (emitLoadWhole root st) i) :
    (st.literal = none ∧ IsLoad i) ∨ ∃ value, st.literal = some value ∧ i = literalInstr value := by
  have hload : ∀ (op : Opcode) (payload : ℕ) (ty : IrType),
      emitLoadWhole root st = (do emitSimple op payload; pure ty) → i = .simple op payload := by
    intro op payload ty heq
    rw [heq] at h
    refine h.eq fun t g g' hrun => ?_
    cases hrun
    rfl
  have hfail : ∀ message, emitLoadWhole root st ≠ failWith .eType message := by
    intro message heq
    obtain ⟨t, g, g', hrun, -⟩ := h
    rw [heq] at hrun
    exact failWith_ok hrun
  cases st with
  | input slot ty => exact .inl ⟨rfl, _, _, hload .ldI slot ty rfl, by simp⟩
  | output slot ty => exact .inl ⟨rfl, _, _, hload .ldQ slot ty rfl, by simp⟩
  | retain off ty => exact .inl ⟨rfl, _, _, hload .ldRetain off ty rfl, by simp⟩
  | data off ty =>
      cases ty with
      | elem t => exact .inl ⟨rfl, _, _, hload .ldData off t rfl, by simp⟩
      | _ => exact absurd rfl (hfail _)
  | const ty value => exact .inr ⟨value, rfl, emits_literal h⟩
  | _ => exact absurd rfl (hfail _)

/-- Reading an element is a load. -/
theorem emits_loadIndex {index : Expr} {st : Storage} {i : DecodedInstr}
    (h : Emits (emitLoadIndex index st) i) : st.literal = none ∧ IsLoad i := by
  obtain ⟨t, g, g', hrun, hitems⟩ := h
  unfold emitLoadIndex at hrun
  split at hrun
  · rename_i e _
    rcases het : e.irElem with _ | et
    · simp [het] at hrun
    · simp only [het] at hrun
      split at hrun
      · obtain ⟨off, -, hrun⟩ := liftResult_bind_ok.mp hrun
        cases hrun
        have heq := List.append_cancel_left hitems
        simp only [List.cons.injEq, Item.instr.injEq, and_true] at heq
        exact ⟨rfl, _, _, heq.symm, by simp⟩
      · exact absurd hrun failWith_ok
  · exact absurd hrun failWith_ok

/-- Reading a field is a load. -/
theorem emits_loadField {base : ℕ} {f : FieldLayout} {i : DecodedInstr}
    (h : Emits (emitLoadField base f) i) : IsLoad i := by
  obtain ⟨t, g, g', hrun, hitems⟩ := h
  have hrun := fieldOffset_bind_ok hrun
  split_ifs at hrun
  · cases hrun
    have heq := List.append_cancel_left hitems
    simp only [List.cons.injEq, Item.instr.injEq, and_true] at heq
    exact ⟨_, _, heq.symm, by simp⟩
  · cases hrun
    have heq := List.append_cancel_left hitems
    simp only [List.cons.injEq, Item.instr.injEq, and_true] at heq
    exact ⟨_, _, heq.symm, by simp⟩

/-- The fields of a function block are no constants. -/
theorem literal_fieldSymbols {fields : List FieldLayout} {key : String} {st : Storage}
    (h : (fieldSymbols fields).lookup key = some st) : st.literal = none := by
  have hmem : (key, st) ∈ fieldSymbols fields := mem_of_lookup h
  unfold fieldSymbols at hmem
  rw [List.mem_reverse, List.mem_map] at hmem
  obtain ⟨f, -, heq⟩ := hmem
  rw [Prod.mk.injEq] at heq
  rw [← heq.2]
  split_ifs <;> rfl

/-- A literal pushes its value. -/
theorem push_literal {image : VmImage} {nowMs n : ℕ} {c c' : Config} {value : Literal}
    (hdec : decodeInstruction image.code c.pc = .ok (literalInstr value, n))
    (hstep : stepVm image nowMs c = .go c') : c'.state.stack = value.value :: c.state.stack := by
  have hpush : ∀ (v : VmValue) (t : VmState) (ctl : Control),
      (do push v c.pc; pure (Control.goto (c.pc + n)) : VmM Control) c.state = .ok ctl t →
      t.stack = v :: c.state.stack := by
    intro v t ctl h
    obtain ⟨u, t', hpush, h⟩ := estate_bind_ok.mp h
    obtain ⟨-, rfl⟩ := push_ok.mp hpush
    cases h
    rfl
  unfold stepVm at hstep
  simp only [hdec] at hstep
  rcases hexec : execInstr image nowMs c.pc n (literalInstr value) c.state with ⟨ctl, t⟩ | ⟨f, t⟩
  · rw [hexec] at hstep
    have hstack : t.stack = value.value :: c.state.stack := by
      cases value with
      | bool b =>
          rw [hpush _ _ _ hexec]
          cases b <;> rfl
      | int v =>
          rw [hpush _ _ _ hexec]
          have hv : BitVec.ofNat 32 (asU32 v) = BitVec.ofInt 32 v := by
            apply BitVec.eq_of_toNat_eq
            simp only [asU32, BitVec.toNat_ofNat, BitVec.toNat_ofInt]
            omega
          rw [hv]
          rfl
      | real v =>
          rw [hpush _ _ _ hexec]
          simp [Literal.value]
      | timeMs v =>
          rw [hpush _ _ _ hexec]
          simp [Literal.value]
    cases ctl with
    | goto pc =>
        cases hstep
        exact hstack
    | done r => cases hstep
  · rw [hexec] at hstep
    cases hstep

/-! ## Initial values -/

/-- The value of the initialiser of a variable; names in it are constants of the programs. -/
def initialValue (ds : Decls) (v : VarDecl) : Option VmValue :=
  match v.init with
  | none => none
  | some e =>
      match eval ⟨.bools 0, 0⟩ (fun key => (ds.constant key).map .const) e
          ⟨fun _ => .bool false, .withCapacity 0, 0⟩ with
      | .ok w _ => some w
      | .error _ _ => none

/-- The variable of a program stands for a constant. -/
def constantFor (ds : Decls) (block : Option String) (v : VarDecl) : Option Literal :=
  match block with
  | none => ds.constant (lower v.name)
  | some _ => none

/-- The initialiser has the value with which the variable starts: that of a constant of the
programs, and FALSE otherwise. -/
def StartsRight (ds : Decls) (block : Option String) (v : VarDecl) : Prop :=
  (∃ value, constantFor ds block v = some value ∧ initialValue ds v = some value.value) ∨
    constantFor ds block v = none ∧ initialValue ds v = some (.bool false)

/-- What the read of a variable is: a load, or the literal of its constant. -/
theorem ReadOf.cases {order : HashOrder} {p : LoadedProject} {c : Compiled}
    (hc : compileStages order p = .ok c) {block : Option String} {v : VarDecl} {i : DecodedInstr}
    (h : ReadOf c block v i) :
    (constantFor c.decls block v = none ∧ IsLoad i) ∨
      ∃ value, constantFor c.decls block v = some value ∧ i = literalInstr value := by
  have hbinds := binds_bindProject (compileStages_ok hc).bound
  cases h with
  | program _ _ _ hst hi =>
      have hlit := hbinds.literal _ _ hst
      rcases emits_loadWhole hi with ⟨hnone, hload⟩ | ⟨value, hvalue, rfl⟩
      · exact .inl ⟨hlit.symm.trans hnone, hload⟩
      · exact .inr ⟨value, hlit.symm.trans hvalue, rfl⟩
  | programElem _ _ _ hst hi =>
      have hload := emits_loadIndex hi
      exact .inl ⟨(hbinds.literal _ _ hst).symm.trans hload.1, hload.2⟩
  | block _ _ _ _ hst hi =>
      rcases emits_loadWhole hi with ⟨-, hload⟩ | ⟨value, hvalue, -⟩
      · exact .inl ⟨rfl, hload⟩
      · rw [literal_fieldSymbols hst] at hvalue
        cases hvalue
  | blockElem _ _ _ _ hst hi => exact .inl ⟨rfl, (emits_loadIndex hi).2⟩
  | field _ _ _ _ _ hi => exact .inl ⟨rfl, emits_loadField hi⟩

/-- **When declared initial values take effect.** In every session of a compiled project from cold
memory on, every read of a variable whose cell was not written gives the value of its initialiser
exactly when the variable is a constant of a program, or the value is FALSE. -/
theorem initial_value_iff {order : HashOrder} {p : LoadedProject} {c : Compiled}
    (hc : compileStages order p = .ok c) {block : Option String} {v : VarDecl} {i : DecodedInstr}
    (hread : ReadOf c block v i) {budget instances nowMs n : ℕ} {k k' : Config} {W : Place → Prop}
    (hsession : Session (.ofModule c.module budget) (.cold c.module instances) k W)
    (hdec : decodeInstruction c.module.code k.pc = .ok (i, n))
    (hstep : stepVm (.ofModule c.module budget) nowMs k = .go k')
    (hW : ∀ place, loadPlace k.state i = some place → ¬W place) :
    ∃ x, k'.state.stack = x :: k.state.stack ∧
      (initialValue c.decls v = some x ↔ StartsRight c.decls block v) := by
  rcases hread.cases hc with ⟨hnone, hload⟩ | ⟨value, hvalue, rfl⟩
  · obtain ⟨place, hplace⟩ := hload.place k.state
    obtain ⟨j, hdec', -, hexec⟩ := stepVm_go hstep
    have hj : j = i := by
      rw [show decodeInstruction c.module.code k.pc = .ok (j, j.size) from hdec'] at hdec
      cases hdec
      rfl
    subst hj
    refine ⟨.bool false, hsession.load_cold hexec hplace (hW place hplace), ?_⟩
    unfold StartsRight
    simp [hnone]
  · refine ⟨value.value, push_literal hdec hstep, ?_⟩
    unfold StartsRight
    simp [hvalue]

/-- `VAR x : ty := init; y : ty; END_VAR y := x;` -/
def copyProject (ty : String) (init : Literal) : LoadedProject :=
  singleTask [⟨.var, [plainVar "x" ty (some (.literal init)), plainVar "y" ty none]⟩]
    [.assign (ident "y") (ident "x")] []

/-- The declarations of the copying program. -/
def copyDecls (ty : String) (init : Literal) : Decls where
  programs := [("main", ⟨"main",
    [⟨.var, [plainVar "x" ty (some (.literal init)), plainVar "y" ty none]⟩],
    [.assign (ident "y") (ident "x")]⟩)]

/-- The stack after a step that goes on. -/
def stackAfter : Next Config RunResult → Option (List VmValue)
  | .go k => some k.state.stack
  | .stop _ => none

theorem stackAfter_some {r : Next Config RunResult} {stack : List VmValue}
    (h : stackAfter r = some stack) : ∃ k, r = .go k ∧ k.state.stack = stack := by
  rcases r with k | r
  · cases h
    exact ⟨k, rfl, rfl⟩
  · cases h

/-- FALSE takes effect. -/
theorem initial_false_read :
    ∃ c k' x, compileStages .listed (copyProject "BOOL" (.bool false)) = .ok c ∧
      stepVm (.ofModule c.module 10) 0 ⟨(VmState.cold c.module 1).enter, 0⟩ = .go k' ∧
      k'.state.stack = [x] ∧
      initialValue c.decls (plainVar "x" "BOOL" (some (.literal (.bool false)))) = some x := by
  obtain ⟨c, hc, hx, hdec, hstack⟩ :
      ∃ c, compileStages .listed (copyProject "BOOL" (.bool false)) = .ok c ∧
        c.bound.globals.lookup "x" = some (.data 0 (.elem .bool)) ∧
        decodeInstruction c.module.code 0 = .ok (.simple .ldData 0, 4) ∧
        stackAfter (stepVm (.ofModule c.module 10) 0 ⟨(VmState.cold c.module 1).enter, 0⟩) =
          some [.bool false] :=
    except_of_decide (by decide +kernel)
  obtain ⟨k', hstep, -⟩ := stackAfter_some hstack
  have hdecls : c.decls = copyDecls "BOOL" (.bool false) :=
    Except.ok.inj ((compileStages_ok hc).decls.symm.trans (by with_unfolding_all rfl))
  have hread : ReadOf c none (plainVar "x" "BOOL" (some (.literal (.bool false))))
      (.simple .ldData 0) := by
    refine @ReadOf.program c "main" _ _ _ _ "x" _ (by rw [hdecls]; exact List.mem_singleton_self _)
      (List.mem_singleton_self _) List.mem_cons_self hx ?_
    exact ⟨.bool, { fbLayouts := [], globals := [] }, _, rfl, rfl⟩
  obtain ⟨x, hx', hiff⟩ := initial_value_iff hc hread (.start 0) hdec hstep (fun place _ h => h)
  refine ⟨c, k', x, hc, hstep, hx', hiff.mpr ?_⟩
  rw [hdecls]
  exact .inr ⟨by with_unfolding_all rfl, rfl⟩

/-- `x : DINT := 5` reads as FALSE in the first step from cold memory on. -/
theorem initial_five_ignored :
    ∃ c k', compileStages .listed (copyProject "DINT" (.int 5)) = .ok c ∧
      ReadOf c none (plainVar "x" "DINT" (some (.literal (.int 5)))) (.simple .ldData 0) ∧
      decodeInstruction c.module.code 0 = .ok (.simple .ldData 0, 4) ∧
      stepVm (.ofModule c.module 10) 0 ⟨(VmState.cold c.module 1).enter, 0⟩ = .go k' ∧
      k'.state.stack = [.bool false] ∧
      initialValue c.decls (plainVar "x" "DINT" (some (.literal (.int 5)))) = some (.dint 5) := by
  obtain ⟨c, hc, hx, hdec, hstack⟩ :
      ∃ c, compileStages .listed (copyProject "DINT" (.int 5)) = .ok c ∧
        c.bound.globals.lookup "x" = some (.data 0 (.elem .dint)) ∧
        decodeInstruction c.module.code 0 = .ok (.simple .ldData 0, 4) ∧
        stackAfter (stepVm (.ofModule c.module 10) 0 ⟨(VmState.cold c.module 1).enter, 0⟩) =
          some [.bool false] :=
    except_of_decide (by decide +kernel)
  obtain ⟨k', hstep, hfalse⟩ := stackAfter_some hstack
  have hdecls : c.decls = copyDecls "DINT" (.int 5) :=
    Except.ok.inj ((compileStages_ok hc).decls.symm.trans (by with_unfolding_all rfl))
  have hread : ReadOf c none (plainVar "x" "DINT" (some (.literal (.int 5))))
      (.simple .ldData 0) := by
    refine @ReadOf.program c "main" _ _ _ _ "x" _ (by rw [hdecls]; exact List.mem_singleton_self _)
      (List.mem_singleton_self _) List.mem_cons_self hx ?_
    exact ⟨.dint, { fbLayouts := [], globals := [] }, _, rfl, rfl⟩
  exact ⟨c, k', hc, hread, hdec, hstep, hfalse, by rw [hdecls]; rfl⟩

end SoftPlc.Compiler

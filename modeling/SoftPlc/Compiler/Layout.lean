import SoftPlc.Ir.Verify
import SoftPlc.Lib.Bind
import SoftPlc.St.Ast

/-!
# Types, allocation and symbol binding

The first half of `plc-compiler/src/bind.rs`: type definitions, the bump allocator, the layout of
user function blocks and the binding of the variables of all programs to storage. A hash map whose
iteration order does not matter is an association list, the newest entry first.

Machine arithmetic of the compiler is that of a build with overflow checks: a `u32` sum that does
not fit panics. A sequence of sums is checked once, at its largest value.
-/

namespace SoftPlc.Compiler

open SoftPlc.Ir SoftPlc.St SoftPlc.Lib

/-! ## Errors -/

/-- Stable diagnostic codes that the modelled part reports. Source: `error.rs`, `ErrorCode`. -/
inductive ErrorCode where
  | eParse
  | eExcluded
  | eUnboundedLoop
  | eRecursion
  | eUndefined
  | eType
  | eDuplicate
  | eProject
  | eLayout
  | eCodegen
  | ePackage
  deriving DecidableEq, Repr

/-- One compile diagnostic, without path and span. Source: `error.rs`, `CompileError`. -/
structure CompileError where
  /-- Stable code. -/
  code : ErrorCode
  /-- Human message. -/
  message : String
  deriving DecidableEq, Repr

/-- How the compiler can fail: a diagnostic, or a panic of the host language. -/
inductive CompileFault where
  | err (e : CompileError)
  | panic (message : String)
  deriving DecidableEq, Repr

/-- A diagnostic as a failure. -/
def reject {α : Type} (code : ErrorCode) (message : String) : Except CompileFault α :=
  .error (.err ⟨code, message⟩)

/-- A `u32` sum, which panics when it does not fit. -/
def checkU32 (n : ℕ) : Except CompileFault ℕ :=
  if n ≤ u32Max then .ok n else .error (.panic "attempt to add with overflow")

/-- The value of an optional result, or a diagnostic. Source: `Option::ok_or_else`. -/
def orReject {α : Type} (x : Option α) (code : ErrorCode) (message : String) :
    Except CompileFault α :=
  match x with
  | some a => .ok a
  | none => reject code message

/-! ## Types -/

/-- Longest array. Source: `bind.rs`, `MAX_ARRAY_ELEMS`. -/
def maxArrayElems : ℕ := 1024

/-- Default iteration bound. Source: `bind.rs`, `MAX_LOOP_DEFAULT`. -/
def maxLoopDefault : ℕ := 10000

/-- Resolved type of a variable. Source: `bind.rs`, `TypeDef`. -/
inductive TypeDef where
  | elem (ty : IrType)
  | array (elem : TypeDef) (len : ℕ)
  | prim (id : PrimitiveId)
  | userFb (name : String)
  deriving DecidableEq, Repr

/-- The elementary type, if it is one. Source: `bind.rs`, `TypeDef::ir_elem`. -/
def TypeDef.irElem : TypeDef → Option IrType
  | .elem t => some t
  | _ => none

/-- Alignment of an elementary type. Source: `bind.rs`, `ty_align`. -/
def tyAlign : IrType → ℕ
  | .bool => 1
  | .int => 2
  | _ => 4

/-- Alignment. Source: `bind.rs`, `TypeDef::align`. -/
def TypeDef.align : TypeDef → ℕ
  | .elem t => tyAlign t
  | .array e _ => e.align
  | .prim _ | .userFb _ => 4

/-- One field of a user function block. Source: `bind.rs`, `FieldLayout`. -/
structure FieldLayout where
  /-- Name. -/
  name : String
  /-- Type. -/
  ty : TypeDef
  /-- Data offset relative to the instance. -/
  offset : ℕ
  /-- Whether the field is retained. -/
  retain : Bool
  /-- Retain offset of a retained field. -/
  retainOffset : Option ℕ
  deriving DecidableEq, Repr

/-- Layout of a user function block. Source: `bind.rs`, `UserFbLayout`. -/
structure UserFbLayout where
  /-- Input names in declaration order. -/
  inputs : List String
  /-- Fields. -/
  fields : List FieldLayout
  /-- Bytes of one instance. -/
  totalDataSize : ℕ
  /-- Name of the entry of its body. -/
  entryName : String
  /-- Body. -/
  body : List Stmt
  /-- Nested primitive and function-block instances. -/
  instances : List (String × TypeDef)

/-- `HashMap<String, UserFbLayout>`. -/
abbrev FbLayouts := List (String × UserFbLayout)

/-- Bytes for the outputs of a primitive when it is a field. Source: `bind.rs`,
`prim_shadow_size`. -/
def primShadowSize (p : PrimitiveId) : ℕ :=
  match p.outputCount with
  | 1 => 4
  | 2 => 8
  | n => n * 4

/-- Size in bytes. Source: `bind.rs`, `TypeDef::byte_size`. -/
def TypeDef.byteSize (fbs : FbLayouts) : TypeDef → Except CompileFault ℕ
  | .elem t => .ok t.byteWidth
  | .array e len => do
      let size ← e.byteSize fbs
      .ok (min (size * len) u32Max)
  | .prim p => .ok (primShadowSize p)
  | .userFb name =>
      orReject ((fbs.lookup (lower name)).map UserFbLayout.totalDataSize) .eUndefined
        ("unknown FB type " ++ name)

/-- Elementary type by name. Source: `bind.rs`, `parse_ir_type`. -/
def parseIrType (s : String) : Except CompileFault IrType :=
  match upper s with
  | "BOOL" => .ok .bool
  | "INT" => .ok .int
  | "DINT" => .ok .dint
  | "REAL" => .ok .real
  | "TIME" => .ok .time
  | other => reject .eType ("unsupported type " ++ other)

/-- Primitive by name. Source: `plc-ir/src/opcode.rs`, `PrimitiveId::from_name`. -/
def primitiveFromName (s : String) : Option PrimitiveId :=
  match upper s with
  | "TON" => some .ton
  | "TOF" => some .tof
  | "TP" => some .tp
  | "CTU" => some .ctu
  | "CTD" => some .ctd
  | "RS" => some .rs
  | "SR" => some .sr
  | "R_TRIG" | "RTRIG" => some .rTrig
  | "F_TRIG" | "FTRIG" => some .fTrig
  | "PID" => some .pid
  | _ => none

/-- Resolve a type expression. Source: `bind.rs`, `resolve_type`. -/
def resolveType : TypeExpr → Except CompileFault TypeDef
  | .named name =>
      match parseIrType name with
      | .ok ir => .ok (.elem ir)
      | .error _ =>
          match primitiveFromName name with
          | some p => .ok (.prim p)
          | none => .ok (.userFb name)
  | .array upper elem => do
      let len ← checkU32 (upper + 1)
      if len > maxArrayElems then
        reject .eLayout s!"array length {len} exceeds {maxArrayElems}"
      else do
        let elemTy ← resolveType elem
        match elemTy with
        | .elem t => .ok (.array (.elem t) len)
        | _ => reject .eType "array elements must be elementary in v1"

/-! ## Primitives -/

/-- Names and types of the outputs of a primitive. Source: `bind.rs`, `prim_out_types`. -/
def primOutTypes : PrimitiveId → List (String × IrType)
  | .ton | .tof | .tp => [("Q", .bool), ("ET", .time)]
  | .ctu | .ctd => [("Q", .bool), ("CV", .dint)]
  | .rs | .sr | .rTrig | .fTrig => [("Q", .bool)]
  | .pid => [("OUT", .real)]

/-- Names of the inputs of a primitive. Source: `bind.rs`, `prim_in_names`. -/
def primInNames : PrimitiveId → List String
  | .ton | .tof | .tp => ["IN", "PT"]
  | .ctu => ["CU", "R", "PV"]
  | .ctd => ["CD", "LD", "PV"]
  | .rs | .sr => ["S", "R"]
  | .rTrig | .fTrig => ["CLK"]
  | .pid => ["PV", "SP", "ENABLE"]

/-! ## Allocation -/

/-- The next multiple of an alignment. Source: `bind.rs`, the `mis` computation of
`Allocator::alloc` and `Codegen::alloc_temp`. -/
def alignUp (cursor align : ℕ) : ℕ :=
  if cursor % align ≠ 0 then cursor + (align - cursor % align) else cursor

/-- Bump allocator of the data and the retain segment. Source: `bind.rs`, `Allocator`. -/
structure Allocator where
  /-- Data cursor. -/
  data : ℕ
  /-- Retain cursor. -/
  retain : ℕ
  deriving DecidableEq, Repr

/-- Allocate data bytes. Source: `bind.rs`, `Allocator::alloc` with `retain = false`. -/
def Allocator.allocData (a : Allocator) (size align : ℕ) : Except CompileFault (ℕ × Allocator) := do
  let off := alignUp a.data (max align 1)
  let cursor ← checkU32 (off + size)
  .ok (off, { a with data := cursor })

/-- Allocate retain bytes. Source: `bind.rs`, `Allocator::alloc` with `retain = true`. -/
def Allocator.allocRetain (a : Allocator) (size align : ℕ) :
    Except CompileFault (ℕ × Allocator) := do
  let off := alignUp a.retain (max align 1)
  let cursor ← checkU32 (off + size)
  .ok (off, { a with retain := cursor })

/-- Allocate a list of named outputs one after the other. Source: `bind.rs`, the `for` of
`alloc_prim_outputs`. -/
def allocOutputs : Allocator → List (String × IrType) →
    Except CompileFault (List (String × ℕ × IrType) × Allocator)
  | a, [] => .ok ([], a)
  | a, (name, ty) :: rest => do
      let (off, a) ← a.allocData ty.byteWidth (tyAlign ty)
      let (outs, a) ← allocOutputs a rest
      .ok ((name, off, ty) :: outs, a)

/-- Allocate the output shadows of a primitive instance. Source: `bind.rs`,
`alloc_prim_outputs`. -/
def allocPrimOutputs (a : Allocator) (p : PrimitiveId) :
    Except CompileFault (List (String × ℕ × IrType) × Allocator) :=
  allocOutputs a (primOutTypes p)

/-! ## Layout of function blocks -/

/-- A layout under construction. Source: `bind.rs`, the locals of `layout_user_fb`. -/
structure LayoutState where
  alloc : Allocator := ⟨0, 0⟩
  fields : List FieldLayout := []
  inputs : List String := []
  instances : List (String × TypeDef) := []

/-- Append a data field. Source: `bind.rs`, the `fields.push` of the input, output and plain arms
of `layout_user_fb`. -/
def LayoutState.addField (st : LayoutState) (known : FbLayouts) (name : String) (ty : TypeDef) :
    Except CompileFault LayoutState := do
  let size ← ty.byteSize known
  let (off, alloc) ← st.alloc.allocData size ty.align
  .ok { st with alloc := alloc, fields := st.fields ++ [⟨name, ty, off, false, none⟩] }

/-- Lay out one declaration. Source: `bind.rs`, the inner `for` of `layout_user_fb`. -/
def layoutVar (known : FbLayouts) (kind : VarKind) (st : LayoutState) (v : VarDecl) :
    Except CompileFault LayoutState := do
  let ty ← resolveType v.ty
  match ty with
  | .userFb n =>
      if (known.lookup (lower n)).isNone then
        reject .eUndefined ("FB " ++ n ++ " not laid out yet")
      else pure ()
  | _ => pure ()
  match kind with
  | .input => LayoutState.addField { st with inputs := st.inputs ++ [v.name] } known v.name ty
  | .output => st.addField known v.name ty
  | .retain =>
      match ty with
      | .elem ir => do
          let (off, alloc) ← st.alloc.allocRetain ir.byteWidth (tyAlign ir)
          .ok { st with alloc := alloc, fields := st.fields ++ [⟨v.name, ty, 0, true, some off⟩] }
      | _ => reject .eType "VAR_RETAIN field must be elementary"
  | .var | .constant =>
      match ty with
      | .prim _ | .userFb _ => .ok { st with instances := st.instances ++ [(v.name, ty)] }
      | _ => st.addField known v.name ty
  | .global => reject .eExcluded "VAR_GLOBAL inside FUNCTION_BLOCK is excluded"

/-- What laying out a declaration of a type does. -/
inductive LaidOut (known : FbLayouts) (v : VarDecl) (ty : TypeDef) (st st' : LayoutState) : Prop where
  /-- It becomes a data field, and perhaps an input. -/
  | field (inputs : List String)
      (h : LayoutState.addField { st with inputs := inputs } known v.name ty = .ok st')
  /-- It becomes a retained field. -/
  | retained (ir : IrType) (off : ℕ) (alloc : Allocator)
      (halloc : st.alloc.allocRetain ir.byteWidth (tyAlign ir) = .ok (off, alloc))
      (h : st' = { st with alloc := alloc, fields := st.fields ++ [⟨v.name, ty, 0, true, some off⟩] })
  /-- It becomes a nested instance. -/
  | nested (h : st' = { st with instances := st.instances ++ [(v.name, ty)] })

/-- A declaration that is laid out. -/
theorem layoutVar_ok {known : FbLayouts} {kind : VarKind} {st st' : LayoutState} {v : VarDecl}
    (h : layoutVar known kind st v = .ok st') :
    ∃ ty, resolveType v.ty = .ok ty ∧ LaidOut known v ty st st' := by
  unfold layoutVar at h
  obtain ⟨ty, hty, h⟩ := except_bind_ok.mp h
  refine ⟨ty, hty, ?_⟩
  have hgate : ∀ rest : Unit → Except CompileFault LayoutState,
      (match ty with
      | .userFb n =>
          if (known.lookup (lower n)).isNone then do
            let u ← reject .eUndefined ("FB " ++ n ++ " not laid out yet")
            rest u
          else rest ()
      | _ => rest ()) = .ok st' → rest () = .ok st' := by
    intro rest h
    split at h
    · split_ifs at h
      · cases h
      · exact h
    · exact h
  have h := hgate _ h
  have hplain : (match ty with
      | .prim _ | .userFb _ => .ok { st with instances := st.instances ++ [(v.name, ty)] }
      | _ => st.addField known v.name ty) = Except.ok st' → LaidOut known v ty st st' := by
    intro h
    split at h
    · cases h
      exact .nested rfl
    · cases h
      exact .nested rfl
    · exact .field st.inputs h
  cases kind with
  | input => exact .field (st.inputs ++ [v.name]) h
  | output => exact .field st.inputs h
  | retain =>
      dsimp only at h
      split at h
      · obtain ⟨⟨off, alloc⟩, halloc, h⟩ := except_bind_ok.mp h
        cases h
        exact .retained _ off alloc halloc rfl
      · cases h
  | var => exact hplain h
  | constant => exact hplain h
  | global => cases h

/-- Lay out a function block. Source: `bind.rs`, `layout_user_fb`. -/
def layoutUserFb (fb : FunctionBlock) (known : FbLayouts) : Except CompileFault UserFbLayout := do
  let st ← fb.vars.foldlM (fun st s => s.vars.foldlM (layoutVar known s.kind) st)
    ({} : LayoutState)
  .ok { inputs := st.inputs
        fields := st.fields
        totalDataSize := max st.alloc.data 4
        entryName := "fb." ++ fb.name
        body := fb.body
        instances := st.instances }

/-- One pass over the blocks that are not laid out yet. Source: `bind.rs`, `pending.retain` of
`compile_loaded`. -/
def layoutPass : List (String × FunctionBlock) → FbLayouts →
    List (String × FunctionBlock) × FbLayouts
  | [], known => ([], known)
  | (key, fb) :: rest, known =>
      match layoutUserFb fb known with
      | .ok layout => layoutPass rest ((key, layout) :: known)
      | .error _ =>
          let (pending, known) := layoutPass rest known
          ((key, fb) :: pending, known)

/-- Passes until every block is laid out; the first argument counts down the guard of the source.
Source: `bind.rs`, the `while !pending.is_empty()` of `compile_loaded`. -/
def layoutFbs : ℕ → List (String × FunctionBlock) → FbLayouts → Except CompileFault FbLayouts
  | _, [], known => .ok known
  | 0, _ :: _, _ => reject .eLayout "FB layout did not converge (possible cycle)"
  | guard + 1, pending@((name, fb) :: _), known =>
      let (pending', known') := layoutPass pending known
      if pending'.length = pending.length then do
        let _ ← layoutUserFb fb known'
        reject .eUndefined ("cannot layout FB " ++ name)
      else layoutFbs guard pending' known'

/-- The types of other blocks that the variables of a block name. Source: `bind.rs`, `edges` of
`check_fb_recursion`. -/
def fbTargets (keys : List String) (fb : FunctionBlock) : List String :=
  (fb.vars.flatMap VarSection.vars).filterMap fun v =>
    match v.ty with
    | .named tn => if lower tn ∈ keys then some (lower tn) else none
    | .array _ _ => none

/-- Whether one block reaches another within a number of edges. -/
def fbReaches (edges : List (String × List String)) : ℕ → String → String → Bool
  | 0, _, _ => false
  | n + 1, start, goal =>
      ((edges.lookup start).getD []).any fun t => t == goal || fbReaches edges n t goal

/-- Reject recursive composition. The source walks every path from each block until it comes back
to the block; a path that comes back exists exactly when one exists that is no longer than the
number of blocks. Source: `bind.rs`, `check_fb_recursion`. -/
def checkFbRecursion (fbs : List (String × FunctionBlock)) : Except CompileFault Unit :=
  let keys := fbs.map Prod.fst
  let edges := fbs.map fun (key, fb) => (key, fbTargets keys fb)
  match keys.find? fun start => fbReaches edges keys.length start start with
  | some start => reject .eRecursion ("recursive FB call graph at " ++ start)
  | none => .ok ()

/-! ## Storage -/

/-- Where a variable lives. Source: `bind.rs`, `Storage`. -/
inductive Storage where
  /-- `%I` slot. -/
  | input (slot : ℕ) (ty : IrType)
  /-- `%Q` slot. -/
  | output (slot : ℕ) (ty : IrType)
  /-- Data segment. -/
  | data (offset : ℕ) (ty : TypeDef)
  /-- Retain segment. -/
  | retain (offset : ℕ) (ty : IrType)
  /-- Primitive instance with the data offsets of its outputs. -/
  | prim (id : PrimitiveId) (inst : ℕ) (outOffsets : List (String × ℕ × IrType))
  /-- User function-block instance at a data base. -/
  | userInst (fb : String) (base : ℕ)
  /-- Constant. -/
  | const (ty : IrType) (value : Literal)
  deriving DecidableEq, Repr

/-- Symbol table: names in lower case. Source: `HashMap<String, Symbol>`. -/
abbrev Symbols := List (String × Storage)

/-- Tag kind. Source: `plc-package/src/manifest.rs`, `TagKind`. -/
inductive TagKind where
  | i
  | q
  | m
  | r
  deriving DecidableEq, Repr

/-- Tag dictionary entry. Source: `plc-package/src/manifest.rs`, `TagEntry`. -/
structure TagEntry where
  name : String
  ty : IrType
  kind : TagKind
  slot : Option ℕ
  deriving DecidableEq, Repr

/-- Retained symbol. Source: `plc-package/src/manifest.rs`, `ManifestRetainSymbol`. -/
structure ManifestRetainSymbol where
  name : String
  ty : IrType
  offset : ℕ
  deriving DecidableEq, Repr

/-- What binding computes. Source: `bind.rs`, the mutable locals of `compile_loaded`. -/
structure BindState where
  globals : Symbols := []
  alloc : Allocator := ⟨0, 0⟩
  /-- Instances per primitive kind; a kind without an entry has none. -/
  primCounts : List (PrimitiveId × ℕ) := []
  retainSymbols : List ManifestRetainSymbol := []
  inputSlots : ℕ := 0
  outputSlots : ℕ := 0
  tagDictionary : List TagEntry := []

/-- Number the next instance of a primitive and allocate its outputs. Source: `bind.rs`, the `Prim`
arm of `bind_var_sections` and of the nested instances in `compile_loaded`. -/
def BindState.newPrim (st : BindState) (id : PrimitiveId) (maxInstances : ℕ) :
    Except CompileFault (Storage × BindState) :=
  let inst := (st.primCounts.lookup id).getD 0
  if inst ≥ maxInstances then reject .eLayout "primitive instance limit exceeded"
  else do
    let (outOffsets, alloc) ← allocPrimOutputs st.alloc id
    .ok (.prim id inst outOffsets,
      { st with alloc := alloc, primCounts := (id, inst + 1) :: st.primCounts })

/-- Bind a retained variable. Source: `bind.rs`, the `DirectPlane::R` arm and the `VAR_RETAIN` arm
of `bind_var_sections`. -/
def BindState.newRetain (st : BindState) (name : String) (ir : IrType) :
    Except CompileFault (ℕ × BindState) := do
  let (off, alloc) ← st.alloc.allocRetain ir.byteWidth (tyAlign ir)
  .ok (off, { st with alloc := alloc, retainSymbols := st.retainSymbols ++ [⟨name, ir, off⟩] })

/-- Bind a data variable. Source: `bind.rs`, the `Storage::Data` arms of `bind_var_sections`. -/
def BindState.newData (st : BindState) (fbs : FbLayouts) (ty : TypeDef) :
    Except CompileFault (Storage × BindState) := do
  let size ← ty.byteSize fbs
  let (off, alloc) ← st.alloc.allocData size ty.align
  .ok (.data off ty, { st with alloc := alloc })

/-- Storage of a variable with a direct address. Source: `bind.rs`, the `match at.plane` of
`bind_var_sections`. -/
def bindAt (fbs : FbLayouts) (v : VarDecl) (ty : TypeDef) (addr : DirectAddr) (st : BindState) :
    Except CompileFault (Storage × BindState) :=
  match addr.plane with
  | .i => do
      let ir ← orReject ty.irElem .eType "%I must be elementary"
      let next ← checkU32 (addr.index + 1)
      let known := st.tagDictionary.any fun t => t.slot == some addr.index && t.kind == .i
      .ok (.input addr.index ir,
        { st with
          inputSlots := max st.inputSlots next
          tagDictionary := if known then st.tagDictionary
            else st.tagDictionary ++ [⟨v.name, ir, .i, some addr.index⟩] })
  | .q => do
      let ir ← orReject ty.irElem .eType "%Q must be elementary"
      let next ← checkU32 (addr.index + 1)
      let known := st.tagDictionary.any fun t => t.slot == some addr.index && t.kind == .q
      .ok (.output addr.index ir,
        { st with
          outputSlots := max st.outputSlots next
          tagDictionary := if known then st.tagDictionary
            else st.tagDictionary ++ [⟨v.name, ir, .q, some addr.index⟩] })
  | .r => do
      let ir ← orReject ty.irElem .eType "%R must be elementary"
      let (off, st) ← st.newRetain v.name ir
      let known := st.tagDictionary.any fun t => t.name == v.name
      .ok (.retain off ir,
        { st with
          tagDictionary := if known then st.tagDictionary
            else st.tagDictionary ++ [⟨v.name, ir, .r, none⟩] })
  | .m => st.newData fbs ty

/-- Storage of a variable without a direct address. Source: `bind.rs`, the `else` branches of
`bind_var_sections`. -/
def bindPlain (fbs : FbLayouts) (maxInstances : ℕ) (kind : VarKind) (v : VarDecl) (ty : TypeDef)
    (st : BindState) : Except CompileFault (Storage × BindState) :=
  match kind with
  | .constant => do
      let ir ← orReject ty.irElem .eType "CONSTANT must be elementary"
      match v.init with
      | some (.literal value) => .ok (.const ir value, st)
      | _ => reject .eType "CONSTANT requires literal initializer"
  | .retain => do
      let ir ← orReject ty.irElem .eType "VAR_RETAIN must be elementary"
      let (off, st) ← st.newRetain v.name ir
      .ok (.retain off ir, st)
  | _ =>
      match ty with
      | .prim id => st.newPrim id maxInstances
      | .userFb name => do
          let layout ← orReject (fbs.lookup (lower name)) .eUndefined ("unknown FB type " ++ name)
          let (base, alloc) ← st.alloc.allocData layout.totalDataSize 4
          .ok (.userInst name base, { st with alloc := alloc })
      | _ => st.newData fbs ty

/-- Bind one declaration. Source: `bind.rs`, the inner `for` of `bind_var_sections`. -/
def bindVar (fbs : FbLayouts) (maxInstances : ℕ) (kind : VarKind) (st : BindState) (v : VarDecl) :
    Except CompileFault BindState :=
  let key := lower v.name
  if (st.globals.lookup key).isSome then
    if (kind = .global ∨ kind = .retain ∨ kind = .constant) ∧ v.addr.isSome then .ok st
    else reject .eDuplicate ("duplicate variable " ++ v.name)
  else do
    let ty ← resolveType v.ty
    let (storage, st) ← match v.addr with
      | some addr => bindAt fbs v ty addr st
      | none => bindPlain fbs maxInstances kind v ty st
    .ok { st with globals := (key, storage) :: st.globals }

/-- Bind the sections of a program, where `VAR_GLOBAL` is allowed. Source: `bind.rs`,
`bind_var_sections` with `allow_global = true`. -/
def bindVarSections (fbs : FbLayouts) (maxInstances : ℕ) (sections : List VarSection)
    (st : BindState) : Except CompileFault BindState :=
  sections.foldlM (fun st s => s.vars.foldlM (bindVar fbs maxInstances s.kind) st) st

end SoftPlc.Compiler

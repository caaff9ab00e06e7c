import SoftPlc.Compiler.Layout
import SoftPlc.Vm.Exec

/-!
# Code generation

The second half of `plc-compiler/src/bind.rs`: `Codegen` and `compile_loaded`. The emitter appends
instructions, jumps to labels and labels to one list of items; the byte vector, the label map and
the fix-up list of the source are read off it (`Codegen.code`, `Codegen.labels`,
`Codegen.fixups`), and `Codegen.finish` patches the bytes as the source does.

The order in which the source iterates over its two hash maps is a parameter, `HashOrder`.
-/

namespace SoftPlc.Compiler

open SoftPlc.Ir SoftPlc.St SoftPlc.Lib SoftPlc.Vm

/-! ## Items -/

/-- What a label marks. Source: `bind.rs`, the arguments of `Codegen::fresh_label`. -/
inductive LabelKind where
  | ifEnd
  | ifNext
  | caseEnd
  | caseBody
  | caseNext
  | whHead
  | whEnd
  | forHead
  | forEnd
  | scEnd
  | andF
  | orT
  deriving DecidableEq, Repr

/-- The spelling of a label kind. Source: `bind.rs`, the arguments of `Codegen::fresh_label`. -/
def LabelKind.text : LabelKind → String
  | .ifEnd => "if_end"
  | .ifNext => "if_next"
  | .caseEnd => "case_end"
  | .caseBody => "case_body"
  | .caseNext => "case_next"
  | .whHead => "wh_head"
  | .whEnd => "wh_end"
  | .forHead => "for_head"
  | .forEnd => "for_end"
  | .scEnd => "sc_end"
  | .andF => "and_f"
  | .orT => "or_t"

/-- A label: `.` followed by its kind and its number, which the source keeps as one string. -/
structure Label where
  kind : LabelKind
  id : ℕ
  deriving DecidableEq, Repr

/-- The text of a label. Source: `bind.rs`, `Codegen::fresh_label`. -/
def Label.text (l : Label) : String := "." ++ l.kind.text ++ toString l.id

/-- One thing that the emitter appends. -/
inductive Item where
  /-- An instruction. -/
  | instr (i : DecodedInstr)
  /-- A jump whose target is patched in at the end. -/
  | jump (op : Opcode) (target : Label)
  /-- A label. -/
  | label (l : Label)
  deriving DecidableEq, Repr

/-- The bytes of an item before the patches; a jump carries payload zero. Source: `bind.rs`,
`Codegen::emit` and `Codegen::emit_jmp`. -/
def Item.bytes : Item → List UInt8
  | .instr i => encodeInstruction i
  | .jump op _ => encodeInstruction (.simple op 0)
  | .label _ => []

/-- The length of an item's bytes. -/
def Item.size : Item → ℕ
  | .instr i => i.size
  | .jump _ _ => 4
  | .label _ => 0

/-- Labels with their pcs, the latest first, as `HashMap::insert` overwrites. Source: `bind.rs`,
`Codegen::place_label`. -/
def placements : ℕ → List Item → List (Label × ℕ)
  | _, [] => []
  | pc, .label l :: rest => placements pc rest ++ [(l, pc % 2 ^ 32)]
  | pc, item :: rest => placements (pc + item.size) rest

/-- The jumps with their byte offsets. Source: `bind.rs`, `self.fixups.push`. -/
def jumpSites : ℕ → List Item → List (ℕ × Label)
  | _, [] => []
  | pc, .jump op l :: rest => (pc, l) :: jumpSites (pc + (Item.jump op l).size) rest
  | pc, item :: rest => jumpSites (pc + item.size) rest

/-- Put a label's pc into the payload of the jump at a byte offset. Source: `bind.rs`, the loop body
of `Codegen::finish`. -/
def patch (code : List UInt8) (off pc : ℕ) : List UInt8 :=
  writeAt code off (leBytes 4 (wordAt code off / 2 ^ 24 * 2 ^ 24 + pc % 2 ^ 24))

/-- Patch every jump. Source: `bind.rs`, the loop of `Codegen::finish`. -/
def patchAll (labels : List (Label × ℕ)) :
    List UInt8 → List (ℕ × Label) → Except CompileFault (List UInt8)
  | code, [] => .ok code
  | code, (off, l) :: rest => do
      let pc ← orReject (labels.lookup l) .eCodegen ("undefined label " ++ l.text)
      patchAll labels (patch code off pc) rest

/-! ## The emitter -/

/-- Iteration orders of the hash maps of the source. -/
structure HashOrder where
  /-- Order of `fb_layouts`. -/
  fbs : FbLayouts → FbLayouts
  /-- An order lists every entry once. -/
  fbs_perm : ∀ l, (fbs l).Perm l
  /-- Order of the named arguments of the call emitted at a code offset. -/
  named : {α : Type} → ℕ → List (String × α) → List (String × α)
  /-- An order lists every argument once. -/
  named_perm : ∀ {α : Type} site (l : List (String × α)), (named site l).Perm l

/-- Source: `bind.rs`, `Codegen`. -/
structure Codegen where
  /-- Layouts; the entry name of a block is patched when its body is emitted. -/
  fbLayouts : FbLayouts
  /-- Variables of the programs. -/
  globals : Symbols
  /-- Names of the body that is being emitted. -/
  locals : Symbols := []
  /-- Everything emitted so far. -/
  items : List Item := []
  /-- Entry points. -/
  entries : List EntryPoint := []
  /-- Number of the next label. -/
  labelId : ℕ := 0
  /-- End of the temporaries. -/
  extraData : ℕ := 0
  /-- Extra retain bytes; never raised. -/
  extraRetain : ℕ := 0
  /-- Cursor of the temporaries. -/
  dataCursor : ℕ := 0

/-- The byte vector. Source: `bind.rs`, `Codegen::code`. -/
def Codegen.code (g : Codegen) : List UInt8 := g.items.flatMap Item.bytes

/-- The label map. Source: `bind.rs`, `Codegen::labels`. -/
def Codegen.labels (g : Codegen) : List (Label × ℕ) := placements 0 g.items

/-- The fix-ups. Source: `bind.rs`, `Codegen::fixups`. -/
def Codegen.fixups (g : Codegen) : List (ℕ × Label) := jumpSites 0 g.items

/-- Emitter actions. -/
abbrev EmitM := EStateM CompileFault Codegen

/-- Fail with a diagnostic. -/
def failWith {α : Type} (code : ErrorCode) (message : String) : EmitM α :=
  fun g => .error (.err ⟨code, message⟩) g

/-- Use a result that does not depend on the emitter's state. -/
def liftResult {α : Type} : Except CompileFault α → EmitM α
  | .ok a => pure a
  | .error e => fun g => .error e g

/-- Append an item. -/
def append (item : Item) : EmitM Unit := fun g => .ok () { g with items := g.items ++ [item] }

/-- Source: `bind.rs`, `Codegen::emit`. -/
def emit (i : DecodedInstr) : EmitM Unit := append (.instr i)

/-- Source: `bind.rs`, `Codegen::emit_simple`. -/
def emitSimple (op : Opcode) (payload : ℕ) : EmitM Unit := emit (.simple op payload)

/-- `PUSHI_DINT`. Source: `bind.rs`, the `DecodedInstr::WithImm32` literals with
`Opcode::PushIDint`. -/
def emitDint (imm : ℕ) : EmitM Unit := emit (.withImm32 .pushIDint 0 imm)

/-- Source: `bind.rs`, `Codegen::emit_jmp`. -/
def emitJmp (op : Opcode) (target : Label) : EmitM Unit := append (.jump op target)

/-- Source: `bind.rs`, `Codegen::place_label`. -/
def placeLabel (l : Label) : EmitM Unit := append (.label l)

/-- Source: `bind.rs`, `Codegen::fresh_label`. -/
def freshLabel (kind : LabelKind) : EmitM Label := fun g =>
  if g.labelId < u32Max then .ok ⟨kind, g.labelId⟩ { g with labelId := g.labelId + 1 }
  else .error (.panic "attempt to add with overflow") g

/-- The symbol of a name: of the body first, then of the programs. -/
def Codegen.symbol (g : Codegen) (name : String) : Option Storage :=
  (g.locals.lookup (lower name)).or (g.globals.lookup (lower name))

/-- Source: `bind.rs`, `Codegen::lookup`. -/
def lookup (name : String) : EmitM Storage := fun g =>
  match g.symbol name with
  | some st => .ok st g
  | none => .error (.err ⟨.eUndefined, "undefined `" ++ name ++ "`"⟩) g

/-- The end of a symbol's data bytes. Source: `bind.rs`, the `filter_map` of
`Codegen::alloc_temp`. -/
def Storage.dataEnd (fbs : FbLayouts) : Storage → Option ℕ
  | .data offset ty => some (offset + (ty.byteSize fbs).toOption.getD 4)
  | .prim _ _ outOffsets => (outOffsets.map fun (_, o, t) => o + t.byteWidth).max?
  | .userInst fb base => (fbs.lookup (lower fb)).map fun l => base + l.totalDataSize
  | _ => none

/-- The end of the data bytes of all programs. Source: `bind.rs`, the `max` of
`Codegen::alloc_temp`. -/
def Codegen.globalsEnd (g : Codegen) : ℕ :=
  ((g.globals.filterMap fun (_, st) => st.dataEnd g.fbLayouts).max?).getD 0

/-- Allocate a temporary. Source: `bind.rs`, `Codegen::alloc_temp`. -/
def allocTemp (ty : IrType) : EmitM ℕ := fun g =>
  let a := tyAlign ty
  let base := max (max g.globalsEnd g.extraData) (alignUp g.dataCursor a)
  let off := alignUp base a
  let cursor := off + ty.byteWidth
  if cursor ≤ u32Max then .ok off { g with dataCursor := cursor, extraData := cursor }
  else .error (.panic "attempt to add with overflow") g

/-- The name at the head of a path and the rest of it. Source: `bind.rs`, `path_parts`. -/
def pathParts : List PathSeg → Except CompileFault (String × List PathSeg)
  | .ident n :: rest => .ok (n, rest)
  | _ => reject .eParse "path must start with identifier"

/-- An output of a primitive by name. Source: `bind.rs`, `out_offsets.iter().find`. -/
def findOutput (outs : List (String × ℕ × IrType)) (name : String) :
    Option (String × ℕ × IrType) :=
  outs.find? fun o => sameName o.1 name

/-- A field of a function block by name. Source: `bind.rs`, `layout.fields.iter().find`. -/
def UserFbLayout.field (layout : UserFbLayout) (name : String) : Option FieldLayout :=
  layout.fields.find? fun f => sameName f.name name

/-- The layout of a function-block type. -/
def layoutOf (fb : String) : EmitM (Option UserFbLayout) := fun g =>
  .ok (g.fbLayouts.lookup (lower fb)) g

/-- `Option::unwrap` on a missing value. -/
def unwrapFail {α : Type} : EmitM α := fun g =>
  .error (.panic "called `Option::unwrap()` on a `None` value") g

/-- The layout of an instance's type. Source: `bind.rs`, `.get(&fb.to_ascii_lowercase()).unwrap()`
of `Codegen::emit_store` and `Codegen::emit_load_path`. -/
def instLayout (fb : String) : EmitM UserFbLayout := do
  match ← layoutOf fb with
  | some layout => pure layout
  | none => unwrapFail

/-- The absolute data offset of a field. Source: `bind.rs`, `base + f.offset`. -/
def fieldOffset (base : ℕ) (f : FieldLayout) : EmitM ℕ := liftResult (checkU32 (base + f.offset))

/-- Load a field of an instance. Source: `bind.rs`, the `LdRetain` and `LdData` of a user field in
`Codegen::emit_load_path` and `Codegen::emit_fb_call`. -/
def emitLoadField (base : ℕ) (f : FieldLayout) : EmitM Unit := do
  let off ← fieldOffset base f
  if f.retain then emitSimple .ldRetain (f.retainOffset.getD 0) else emitSimple .ldData off

/-- Store a field of an instance. Source: `bind.rs`, `Codegen::emit_store_offset` and the user-field
arm of `Codegen::emit_store`. -/
def emitStoreField (base : ℕ) (f : FieldLayout) : EmitM Unit :=
  if f.retain then emitSimple .stRetain (f.retainOffset.getD 0)
  else do
    let off ← fieldOffset base f
    emitSimple .stData off

/-- Store to a name without further segments. Source: `bind.rs`, the `rest.is_empty()` arm of
`Codegen::emit_store`. -/
def emitStoreWhole : Storage → EmitM Unit
  | .output slot _ => emitSimple .stQ slot
  | .data offset _ => emitSimple .stData offset
  | .retain offset _ => emitSimple .stRetain offset
  | .input _ _ => failWith .eType "cannot assign to %I input"
  | .const _ _ => failWith .eType "cannot assign to CONSTANT"
  | .prim _ _ _ | .userInst _ _ => failWith .eType "cannot assign to FB instance directly"

/-- Store to a field of a name. The source's arm for an array looks for an index and meets an
identifier here, so that it emits nothing. Source: `bind.rs`, the field arm of
`Codegen::emit_store`. -/
def emitStoreSub (field : String) : Storage → EmitM Unit
  | .prim _ _ outOffsets => do
      let (_, off, _) ← liftResult
        (orReject (findOutput outOffsets field) .eUndefined ("no field " ++ field))
      emitSimple .stData off
  | .userInst fb base => do
      let layout ← instLayout fb
      let f ← liftResult (orReject (layout.field field) .eUndefined ("no field " ++ field))
      emitStoreField base f
  | .data _ (.array _ _) => pure ()
  | _ => failWith .eType "invalid store target"

/-- Source: `bind.rs`, `Codegen::emit_store`. -/
def emitStore : Expr → EmitM Unit
  | .name path => do
      let (root, rest) ← liftResult (pathParts path)
      let st ← lookup root
      match rest with
      | [] => emitStoreWhole st
      | .ident field :: _ => emitStoreSub field st
      | .index _ :: _ => failWith .eType "bad field store"
  | _ => failWith .eType "invalid assignment target"

/-- `*v as u32` of an `i64`. -/
def asU32 (v : ℤ) : ℕ := (v % 2 ^ 32).toNat

/-- Source: `bind.rs`, the `Literal` arm of `Codegen::emit_expr`. -/
def emitLiteral : Literal → EmitM IrType
  | .bool b => do
      emitSimple .pushIBool (if b then 1 else 0)
      pure .bool
  | .int v => do
      emitDint (asU32 v)
      pure .dint
  | .real v => do
      emit (.withImm32 .pushIReal 0 v.bits.toNat)
      pure .real
  | .timeMs v => do
      emit (.withImm32 .pushTime 0 v.toNat)
      pure .time

/-- Load a name without further segments. Source: `bind.rs`, the `rest.is_empty()` arm of
`Codegen::emit_load_path`. -/
def emitLoadWhole (root : String) : Storage → EmitM IrType
  | .input slot ty => do
      emitSimple .ldI slot
      pure ty
  | .output slot ty => do
      emitSimple .ldQ slot
      pure ty
  | .data offset (.elem t) => do
      emitSimple .ldData offset
      pure t
  | .retain offset ty => do
      emitSimple .ldRetain offset
      pure ty
  | .const _ value => emitLiteral value
  | _ => failWith .eType ("cannot read `" ++ root ++ "` as a value")

/-- Load an array element. Source: `bind.rs`, the `PathSeg::Index` arm of
`Codegen::emit_load_path`. -/
def emitLoadIndex (index : Expr) : Storage → EmitM IrType
  | .data offset (.array elem _) =>
      match elem.irElem with
      | none => unwrapFail
      | some et =>
          match index with
          | .literal (.int i) => do
              let off ← liftResult (checkU32 (offset + asU32 i * et.byteWidth))
              emitSimple .ldData off
              pure et
          | _ => failWith .eType "array index must be constant in v1"
  | _ => failWith .eType "not an array"

/-- Load a field. Source: `bind.rs`, the last `match` of `Codegen::emit_load_path`. -/
def emitLoadSub (field : String) : Storage → EmitM IrType
  | .prim _ _ outOffsets => do
      let (_, off, ty) ← liftResult
        (orReject (findOutput outOffsets field) .eUndefined ("no field " ++ field))
      emitSimple .ldData off
      pure ty
  | .userInst fb base => do
      let layout ← instLayout fb
      let f ← liftResult (orReject (layout.field field) .eUndefined ("no field " ++ field))
      emitLoadField base f
      pure (f.ty.irElem.getD .bool)
  | _ => failWith .eType "bad field load"

/-- Source: `bind.rs`, `Codegen::emit_load_path`. -/
def emitLoadPath (path : List PathSeg) : EmitM IrType := do
  let (root, rest) ← liftResult (pathParts path)
  let st ← lookup root
  match rest with
  | [] => emitLoadWhole root st
  | .ident field :: _ => emitLoadSub field st
  | .index index :: _ => emitLoadIndex index st

/-- Source: `bind.rs`, the `QGood` arm of `Codegen::emit_expr`. -/
def emitQGood : Expr → EmitM IrType
  | .name path => do
      let (root, _) ← liftResult (pathParts path)
      match ← lookup root with
      | .input slot _ => do
          emitSimple .ldIq slot
          pure .bool
      | _ => failWith .eType "Q_GOOD requires an input tag"
  | _ => failWith .eType "Q_GOOD expects an %I tag name"

/-- The opcode of a binary operator; MOD has none, AND and OR are lowered to jumps. Source:
`bind.rs`, `op_code` in `Codegen::emit_expr`. -/
def binaryOpcode : BinaryOp → Option Opcode
  | .add => some .add
  | .sub => some .sub
  | .mul => some .mul
  | .div => some .div
  | .xor => some .xor
  | .eq => some .eq
  | .ne => some .ne
  | .lt => some .lt
  | .le => some .le
  | .gt => some .gt
  | .ge => some .ge
  | .mod | .and | .or => none

/-- Comparisons give BOOL. Source: `bind.rs`, the second `matches!` on the operator in
`Codegen::emit_expr`. -/
def BinaryOp.isComparison : BinaryOp → Bool
  | .eq | .ne | .lt | .le | .gt | .ge => true
  | _ => false

/-- Operators whose operands must have one type. Source: `bind.rs`, the first `matches!` on the
operator in `Codegen::emit_expr`. -/
def BinaryOp.needsSameType : BinaryOp → Bool
  | .add | .sub | .mul | .div => true
  | op => BinaryOp.isComparison op

/-- Short-circuit evaluation: the code of the left operand, a jump on its value past the code of
the right operand, and a constant for the value that decides. Source: `bind.rs`, the two branches
for AND and OR in `Codegen::emit_expr`. -/
def emitShortCircuit (left right : EmitM IrType) (skip : Opcode) (kind : LabelKind)
    (decided : ℕ) : EmitM IrType := do
  let endL ← freshLabel .scEnd
  let t ← left
  if t ≠ .bool then failWith .eType "AND/OR require BOOL"
  else do
    let dup ← freshLabel kind
    let tmp ← allocTemp .bool
    emitSimple .stData tmp
    emitSimple .ldData tmp
    emitJmp skip dup
    let _ ← right
    emitJmp .jmp endL
    placeLabel dup
    emitSimple .pushIBool decided
    placeLabel endL
    pure .bool

/-- The other binary operators. Source: `bind.rs`, the `_` arm of `Codegen::emit_expr`. -/
def emitBinary (op : BinaryOp) (left right : EmitM IrType) : EmitM IrType := do
  let lt ← left
  let rt ← right
  match binaryOpcode op with
  | none => failWith .eExcluded "MOD not in IR v0.1 opcode set"
  | some code =>
      if BinaryOp.needsSameType op ∧ lt ≠ rt then
        failWith .eType ("type mismatch " ++ lt.debugName ++ " vs " ++ rt.debugName)
      else do
        emitSimple code 0
        pure (if BinaryOp.isComparison op then .bool else lt)

/-- An argument of a call: the name of a named one, whether its value is the literal TRUE, and the
value or what stands for it. -/
structure Arg (α : Type) where
  name : Option String
  isTrue : Bool
  value : α

/-- An argument with the code of its value. -/
abbrev ArgCode := Arg (EmitM IrType)

/-- Whether an expression is the literal TRUE. -/
def isTrueLiteral : Expr → Bool
  | .literal (.bool true) => true
  | _ => false

/-- Assign the arguments of a primitive call to its inputs. Source: `bind.rs`, the loop over
`call.inputs` in the `Storage::Prim` arm of `Codegen::emit_fb_call`. -/
def bindArgs {α : Type} (names : List String) :
    List (Arg α) → ℕ → List (Option α) → Except CompileFault (List (Option α))
  | [], _, args => .ok args
  | a :: rest, pos, args =>
      match a.name with
      | none =>
          if pos ≥ args.length then reject .eType "too many FB inputs"
          else bindArgs names rest (pos + 1) (args.set pos (some a.value))
      | some name =>
          if sameName name "EN" then
            if a.isTrue then bindArgs names rest pos args
            else reject .eExcluded "EN must be constant TRUE in v1 (or omitted)"
          else
            match names.findIdx? fun n => sameName n name with
            | none => reject .eUndefined ("unknown input " ++ name)
            | some idx => bindArgs names rest pos (args.set idx (some a.value))

/-- Emit the values of the inputs in declaration order. Source: `bind.rs`, the loop over `args` in
`Codegen::emit_fb_call`. -/
def emitArgs : List String → List (Option (EmitM IrType)) → EmitM Unit
  | _ :: names, some arg :: args => do
      let _ ← arg
      emitArgs names args
  | name :: _, none :: _ => failWith .eType ("missing input " ++ name)
  | _, _ => pure ()

/-- Copy the outputs of a primitive to their destinations. Source: `bind.rs`, the loop over
`call.outputs` in the `Storage::Prim` arm of `Codegen::emit_fb_call`. -/
def emitPrimOuts (outOffsets : List (String × ℕ × IrType)) : List CallOut → EmitM Unit
  | [] => pure ()
  | o :: rest =>
      if sameName o.name "ENO" then emitPrimOuts outOffsets rest
      else do
        let (_, off, _) ← liftResult
          (orReject (findOutput outOffsets o.name) .eUndefined ("unknown output " ++ o.name))
        emitSimple .ldData off
        emitStore o.dest
        emitPrimOuts outOffsets rest

/-- Call a primitive. Source: `bind.rs`, the `Storage::Prim` arm of `Codegen::emit_fb_call`. -/
def emitPrimCall (id : PrimitiveId) (inst : ℕ) (outOffsets : List (String × ℕ × IrType))
    (inputs : List ArgCode) (outputs : List CallOut) : EmitM Unit := do
  let names := primInNames id
  let args ← liftResult (bindArgs names inputs 0 (List.replicate names.length none))
  emitArgs names args
  emit (.callFb 0 id.toU32 inst)
  outOffsets.forM fun o => emitSimple .stData o.2.1
  emitPrimOuts outOffsets outputs

/-- Emit the positional arguments of a user call and collect the named ones, a later one of a name
in place of an earlier one. Source: `bind.rs`, the loop over `call.inputs` in the
`Storage::UserInst` arm of `Codegen::emit_fb_call`. -/
def emitPositional (layout : UserFbLayout) (base : ℕ) :
    List ArgCode → ℕ → List (String × EmitM IrType) → EmitM (List (String × EmitM IrType))
  | [], _, named => pure named
  | a :: rest, pos, named =>
      match a.name with
      | none =>
          match layout.inputs[pos]? with
          | none => failWith .eType "too many inputs"
          | some field =>
              match layout.field field with
              | none => unwrapFail
              | some f => do
                  let _ ← a.value
                  let off ← fieldOffset base f
                  emitSimple .stData off
                  emitPositional layout base rest (pos + 1) named
      | some name =>
          if sameName name "EN" then emitPositional layout base rest pos named
          else
            emitPositional layout base rest pos
              ((named.filter fun n => n.1 != lower name) ++ [(lower name, a.value)])

/-- Emit the named arguments of a user call. Source: `bind.rs`, `for (fname, expr) in named`. -/
def emitNamed (layout : UserFbLayout) (base : ℕ) : List (String × EmitM IrType) → EmitM Unit
  | [] => pure ()
  | (fname, value) :: rest => do
      let f ← liftResult (orReject (layout.field fname) .eUndefined ("unknown input " ++ fname))
      let _ ← value
      emitStoreField base f
      emitNamed layout base rest

/-- Copy the outputs of a user call to their destinations. Source: `bind.rs`, the loop over
`call.outputs` in the `Storage::UserInst` arm of `Codegen::emit_fb_call`. -/
def emitUserOuts (layout : UserFbLayout) (base : ℕ) : List CallOut → EmitM Unit
  | [] => pure ()
  | o :: rest => do
      let f ← liftResult (orReject (layout.field o.name) .eUndefined ("unknown output " ++ o.name))
      emitLoadField base f
      emitStore o.dest
      emitUserOuts layout base rest

/-- The number after `fb.` in an entry name. Source: `bind.rs`,
`strip_prefix("fb.").and_then(|s| s.parse().ok())`. -/
def entryNumber (entryName : String) : Option ℕ :=
  match entryName.toList with
  | 'f' :: 'b' :: '.' :: rest => parseU32 rest
  | _ => none

/-- Whether an entry name starts with `fb.`. -/
def isFbEntry (name : String) : Bool := name.toList.take 3 == ['f', 'b', '.']

/-- The id that a call of a block carries: the number in its entry name, else the position of its
entry if some function-block entry exists, else zero. Source: `bind.rs`, `fb_id` in
`Codegen::emit_fb_call`. -/
def userFbId (entries : List EntryPoint) (entryName : String) : ℕ :=
  let byPosition :=
    (entries.find? fun e => e.name == entryName || isFbEntry e.name).map fun _ =>
      (entries.findIdx? fun e => e.name == entryName).getD 0
  ((entryNumber entryName).or byPosition).getD 0

/-- Call a user function block. Source: `bind.rs`, the `Storage::UserInst` arm of
`Codegen::emit_fb_call`. -/
def emitUserCall (order : HashOrder) (fb : String) (base : ℕ) (inputs : List ArgCode)
    (outputs : List CallOut) : EmitM Unit := do
  match ← layoutOf fb with
  | none => failWith .eUndefined ("FB " ++ fb)
  | some layout => do
      let site ← get
      let named ← emitPositional layout base inputs 0 []
      emitNamed layout base (order.named site.code.length named)
      let g ← get
      emit (.callFb 1 (userFbId g.entries layout.entryName) base)
      emitUserOuts layout base outputs

/-- Source: `bind.rs`, `Codegen::emit_fb_call`. -/
def emitFbCall (order : HashOrder) (callee : List PathSeg) (inputs : List ArgCode)
    (outputs : List CallOut) : EmitM Unit :=
  match callee with
  | [.ident instName] => do
      match ← lookup instName with
      | .prim id inst outOffsets => emitPrimCall id inst outOffsets inputs outputs
      | .userInst fb base => emitUserCall order fb base inputs outputs
      | _ => failWith .eType ("`" ++ instName ++ "` is not an FB instance")
  | _ => failWith .eParse "FB call callee must be a simple instance name"

mutual

/-- Source: `bind.rs`, `Codegen::emit_expr`. -/
def emitExpr (order : HashOrder) : Expr → EmitM IrType
  | .literal value => emitLiteral value
  | .qGood expr => emitQGood expr
  | .unary op expr => do
      let t ← emitExpr order expr
      match op with
      | .not => do
          emitSimple .not 0
          pure .bool
      | .neg => do
          emitSimple .neg 0
          pure t
  | .binary op left right =>
      match op with
      | .and => emitShortCircuit (emitExpr order left) (emitExpr order right) .jmpIfNot .andF 0
      | .or => emitShortCircuit (emitExpr order left) (emitExpr order right) .jmpIf .orT 1
      | op => emitBinary op (emitExpr order left) (emitExpr order right)
  | .name path => emitLoadPath path
  | .fbCall ⟨callee, inputs, outputs⟩ => do
      emitFbCall order callee (argCodes order inputs) outputs
      failWith .eType "FB call as expression value not supported; use statement + field read"

/-- The arguments of a call with the code of their values. -/
def argCodes (order : HashOrder) : List CallArg → List ArgCode
  | [] => []
  | .positional value :: rest =>
      ⟨none, isTrueLiteral value, emitExpr order value⟩ :: argCodes order rest
  | .named name value :: rest =>
      ⟨some name, isTrueLiteral value, emitExpr order value⟩ :: argCodes order rest

end

/-! ## Statements -/

/-- The iteration bound of a `FOR`: the attribute, or the length of a range of literals with step
one. Source: `bind.rs`, `max` in the `Stmt::For` arm of `Codegen::emit_stmt`. -/
def forBound (first last : Expr) (step : Option Expr) : Option ℕ → Option ℕ
  | some m => some m
  | none =>
      match first, last, step with
      | .literal (.int a), .literal (.int b), none
      | .literal (.int a), .literal (.int b), some (.literal (.int 1)) =>
          if a ≤ b ∧ b - a + 1 ≤ maxLoopDefault then some (b - a + 1).toNat else none
      | _, _, _ => none

/-- The data offset of a `FOR` variable; an unknown name becomes a temporary of the body. Source:
`bind.rs`, `var_off` in the `Stmt::For` arm of `Codegen::emit_stmt`. -/
def forVariable (var : String) : EmitM ℕ := do
  let g ← get
  match g.symbol var with
  | some (.data offset _) => pure offset
  | some _ => failWith .eType "FOR variable must be a data VAR"
  | none => do
      let off ← allocTemp .dint
      let g ← get
      set { g with locals := (lower var, .data off (.elem .dint)) :: g.locals }
      pure off

/-- Leave the loop when a counter has reached zero. Source: `bind.rs`, `if counter == 0 goto end` of
the loops in `Codegen::emit_stmt`. -/
def emitCounterTest (counter : ℕ) (endL : Label) : EmitM Unit := do
  emitSimple .ldData counter
  emitDint 0
  emitSimple .eq 0
  emitJmp .jmpIf endL

/-- Count one iteration and go back to the head. Source: `bind.rs`, `counter -= 1` of the loops in
`Codegen::emit_stmt`. -/
def emitCounterNext (counter : ℕ) (head : Label) : EmitM Unit := do
  emitSimple .ldData counter
  emitDint 1
  emitSimple .sub 0
  emitSimple .stData counter
  emitJmp .jmp head

/-- Push the step of a `FOR`. Source: `bind.rs`, `if let Some(b) = by` in `Codegen::emit_stmt`. -/
def emitStep (order : HashOrder) : Option Expr → EmitM Unit
  | some b => do
      let _ ← emitExpr order b
      pure ()
  | none => emitDint 1

/-- Leave a branch of an `IF` that is not the last part of it. Source: `bind.rs`,
`if i + 1 < branches.len() || else_body.is_some()` in `Codegen::emit_stmt`. -/
def emitBranchEnd (more : Bool) (endL : Label) : EmitM Unit :=
  if more then emitJmp .jmp endL else pure ()

/-- Jump on the comparison with a label: past the body after the last label, else into it. Source:
`bind.rs`, `if i + 1 == arm.labels.len()` in `Codegen::emit_stmt`. -/
def emitLabelJump (isLast : Bool) (bodyL nextL : Label) : EmitM Unit :=
  if isLast then emitJmp .jmpIfNot nextL else emitJmp .jmpIf bodyL

/-- Compare the selector with the labels of an arm. Source: `bind.rs`, the loop over `arm.labels` in
`Codegen::emit_stmt`. -/
def emitLabelTests (tmp : ℕ) (bodyL nextL : Label) : List ℤ → EmitM Unit
  | [] => pure ()
  | lab :: rest => do
      emitSimple .ldData tmp
      emitDint (asU32 lab)
      emitSimple .eq 0
      emitLabelJump rest.isEmpty bodyL nextL
      emitLabelTests tmp bodyL nextL rest

mutual

/-- Source: `bind.rs`, `Codegen::emit_stmt`. -/
def emitStmt (order : HashOrder) : Stmt → EmitM Unit
  | .empty => pure ()
  | .return => emitSimple .ret 0
  | .assign lhs rhs => do
      let _ ← emitExpr order rhs
      emitStore lhs
  | .fbCall call => emitFbCall order call.callee (argCodes order call.inputs) call.outputs
  | .ifs branches elseBody => do
      let endL ← freshLabel .ifEnd
      emitBranches order branches endL elseBody.isSome
      emitElse order elseBody
      placeLabel endL
  | .case selector arms elseBody => do
      let selTy ← emitExpr order selector
      if selTy ≠ .int ∧ selTy ≠ .dint then failWith .eType "CASE selector must be INT/DINT"
      else do
        let tmp ← allocTemp selTy
        emitSimple .stData tmp
        let endL ← freshLabel .caseEnd
        emitArms order arms tmp endL
        emitElse order elseBody
        placeLabel endL
  | .while cond maxIter body =>
      match maxIter with
      | none => failWith .eUnboundedLoop "WHILE requires \x7b max_iter := <const> \x7d attribute"
      | some max => do
          let counter ← allocTemp .dint
          emitDint max
          emitSimple .stData counter
          let head ← freshLabel .whHead
          let endL ← freshLabel .whEnd
          placeLabel head
          emitCounterTest counter endL
          let t ← emitExpr order cond
          if t ≠ .bool then failWith .eType "WHILE condition must be BOOL"
          else do
            emitJmp .jmpIfNot endL
            emitStmts order body
            emitCounterNext counter head
            placeLabel endL
  | .for var first last step maxIter body =>
      match forBound first last step maxIter with
      | none =>
          failWith .eUnboundedLoop
            "FOR requires \x7b max_iter := <const> \x7d or constant bounds ≤ 10000"
      | some max => do
          let varOff ← forVariable var
          let _ ← emitExpr order first
          emitSimple .stData varOff
          let toTmp ← allocTemp .dint
          let _ ← emitExpr order last
          emitSimple .stData toTmp
          let byTmp ← allocTemp .dint
          emitStep order step
          emitSimple .stData byTmp
          let counter ← allocTemp .dint
          emitDint max
          emitSimple .stData counter
          let head ← freshLabel .forHead
          let endL ← freshLabel .forEnd
          placeLabel head
          emitCounterTest counter endL
          emitSimple .ldData varOff
          emitSimple .ldData toTmp
          emitSimple .gt 0
          emitJmp .jmpIf endL
          emitStmts order body
          emitSimple .ldData varOff
          emitSimple .ldData byTmp
          emitSimple .add 0
          emitSimple .stData varOff
          emitCounterNext counter head
          placeLabel endL

/-- Source: `bind.rs`, the `for s in body` loops of `Codegen::emit_stmt`. -/
def emitStmts (order : HashOrder) : List Stmt → EmitM Unit
  | [] => pure ()
  | s :: rest => do
      emitStmt order s
      emitStmts order rest

/-- Source: `bind.rs`, the loop over `branches` in `Codegen::emit_stmt`. -/
def emitBranches (order : HashOrder) : List (Expr × List Stmt) → Label → Bool → EmitM Unit
  | [], _, _ => pure ()
  | (cond, body) :: rest, endL, hasElse => do
      let next ← freshLabel .ifNext
      let t ← emitExpr order cond
      if t ≠ .bool then failWith .eType "IF condition must be BOOL"
      else do
        emitJmp .jmpIfNot next
        emitStmts order body
        emitBranchEnd (!rest.isEmpty || hasElse) endL
        placeLabel next
        emitBranches order rest endL hasElse

/-- Source: `bind.rs`, `if let Some(eb) = else_body` of `Codegen::emit_stmt`. -/
def emitElse (order : HashOrder) : Option (List Stmt) → EmitM Unit
  | none => pure ()
  | some body => emitStmts order body

/-- Source: `bind.rs`, the loop over `arms` in `Codegen::emit_stmt`. -/
def emitArms (order : HashOrder) : List CaseArm → ℕ → Label → EmitM Unit
  | [], _, _ => pure ()
  | ⟨labels, body⟩ :: rest, tmp, endL => do
      let bodyL ← freshLabel .caseBody
      let nextL ← freshLabel .caseNext
      emitLabelTests tmp bodyL nextL labels
      placeLabel bodyL
      emitStmts order body
      emitJmp .jmp endL
      placeLabel nextL
      emitArms order rest tmp endL

end

end SoftPlc.Compiler

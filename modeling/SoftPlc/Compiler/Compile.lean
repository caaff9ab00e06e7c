import SoftPlc.Compiler.Codegen
import SoftPlc.Lib.SortedMap

/-!
# `compile_loaded`

The driver of `plc-compiler/src/bind.rs`: collect the declarations of all units, lay out the
function blocks, bind the variables of all programs, emit the bodies of the function blocks in the
iteration order of a hash map and then the tasks, patch, and verify. Reading and parsing the source
files comes before it: a project here is its parsed units with the fields of `project.toml`.
-/

namespace SoftPlc.Compiler

open SoftPlc.Ir SoftPlc.St SoftPlc.Lib SoftPlc.Vm

/-! ## Projects -/

/-- Task mapping entry. Source: `project.rs`, `TaskMap`. -/
structure TaskMap where
  name : String
  program : String
  deriving DecidableEq, Repr

/-- Tag dictionary entry. Source: `project.rs`, `TagMap`. -/
structure TagMap where
  name : String
  kind : String
  ty : String
  slot : Option ℕ
  deriving DecidableEq, Repr

/-- Fields of `project.toml` that the compiler reads. Source: `project.rs`, `ProjectFile`. -/
structure ProjectFile where
  id : String
  version : String
  restartPolicy : String := "safe_reset"
  task : List TaskMap
  tag : List TagMap := []
  maxInstances : ℕ := 4096
  deriving DecidableEq, Repr

/-- A project with its parsed units. Source: `project.rs`, `LoadedProject`. -/
structure LoadedProject where
  /-- Units of the libraries with the paths of their files, in link order. -/
  libUnits : List (String × CompilationUnit) := []
  /-- Units of the application. -/
  units : List CompilationUnit
  file : ProjectFile

/-! ## Declarations -/

/-- Function blocks and programs by lower-case name, in key order. Source: `bind.rs`, `fb_asts` and
`programs` of `compile_loaded`. -/
structure Decls where
  fbs : List (String × FunctionBlock) := []
  programs : List (String × Program) := []

/-- Collect one declaration. Source: `bind.rs`, the `match d` of `compile_loaded`. -/
def addDecl (ds : Decls) : Decl → Except CompileFault Decls
  | .functionBlock fb =>
      if (ds.fbs.lookup (lower fb.name)).isSome then
        reject .eDuplicate ("duplicate FUNCTION_BLOCK " ++ fb.name)
      else .ok { ds with fbs := insertSorted (lower fb.name) fb ds.fbs }
  | .program p =>
      if (ds.programs.lookup (lower p.name)).isSome then
        reject .eDuplicate ("duplicate PROGRAM " ++ p.name)
      else .ok { ds with programs := insertSorted (lower p.name) p ds.programs }

/-- Whether a declaration is a program. -/
def isProgram : Decl → Bool
  | .program _ => true
  | .functionBlock _ => false

/-- Libraries only contribute function blocks. Source: `bind.rs`, the loop over
`project.lib_sources`. -/
def checkLib (path : String) (u : CompilationUnit) : Except CompileFault Unit :=
  if u.decls.any isProgram then
    reject .eProject ("library " ++ path ++ " must not define PROGRAM")
  else .ok ()

/-- Collect the declarations of a project. Source: `bind.rs`, the first loops of
`compile_loaded`. -/
def collectDecls (p : LoadedProject) : Except CompileFault Decls := do
  p.libUnits.forM fun (path, u) => checkLib path u
  ((p.libUnits.map Prod.snd ++ p.units).flatMap CompilationUnit.decls).foldlM addDecl {}

/-! ## Binding -/

/-- Slots of one project tag. Source: `bind.rs`, `for tag in &project.file.tag`. -/
def addTag (st : BindState) (tag : TagMap) : Except CompileFault BindState := do
  let ty ← parseIrType tag.ty
  match upper tag.kind with
  | "I" => do
      let next ← checkU32 (tag.slot.getD st.inputSlots + 1)
      .ok { st with inputSlots := max st.inputSlots next
                    tagDictionary := st.tagDictionary ++ [⟨tag.name, ty, .i, tag.slot⟩] }
  | "Q" => do
      let next ← checkU32 (tag.slot.getD st.outputSlots + 1)
      .ok { st with outputSlots := max st.outputSlots next
                    tagDictionary := st.tagDictionary ++ [⟨tag.name, ty, .q, tag.slot⟩] }
  | "M" => .ok { st with tagDictionary := st.tagDictionary ++ [⟨tag.name, ty, .m, tag.slot⟩] }
  | "R" => .ok { st with tagDictionary := st.tagDictionary ++ [⟨tag.name, ty, .r, tag.slot⟩] }
  | other => reject .eProject ("unknown tag kind " ++ other)

/-- Bind the tags of the project and the variables of all programs. Source: `bind.rs`, the loops
over `project.file.tag` and `programs.values()`. -/
def bindProject (file : ProjectFile) (fbs : FbLayouts) (programs : List (String × Program)) :
    Except CompileFault BindState := do
  let st ← file.tag.foldlM addTag {}
  programs.foldlM (fun st (_, p) => bindVarSections fbs file.maxInstances p.vars st) st

/-! ## Emission -/

/-- Source: `bind.rs`, `Codegen::begin_entry`. -/
def beginEntry (name : String) (isUserFb : Bool) : EmitM Unit := fun g =>
  .ok () { g with entries := g.entries ++ [⟨name, g.code.length % 2 ^ 32, isUserFb⟩] }

/-- Emit a body and its last instruction in a scope of its own. Source: `bind.rs`,
`Codegen::with_locals` with the closures of `compile_loaded`. -/
def emitBody (order : HashOrder) (locals : Symbols) (body : List Stmt) (last : Opcode) :
    EmitM Unit := do
  modify fun g => { g with locals := locals }
  emitStmts order body
  emitSimple last 0
  modify fun g => { g with locals := [] }

/-- The fields of a function block as symbols; a later field of a name hides an earlier one. Source:
`bind.rs`, `for f in &layout.fields`. -/
def fieldSymbols (fields : List FieldLayout) : Symbols :=
  (fields.map fun f =>
    (lower f.name,
      if f.retain then Storage.retain (f.retainOffset.getD 0) (f.ty.irElem.getD .bool)
      else .data f.offset f.ty)).reverse

/-- The nested instances of a function block as symbols, on top of its fields. Source: `bind.rs`,
`for (iname, ity) in &layout.instances`. -/
def instanceSymbols (fbs : FbLayouts) (maxInstances : ℕ) :
    List (String × TypeDef) → BindState → Symbols → Except CompileFault (Symbols × BindState)
  | [], st, locals => .ok (locals, st)
  | (iname, ity) :: rest, st, locals =>
      match ity with
      | .prim id => do
          let (storage, st) ← st.newPrim id maxInstances
          instanceSymbols fbs maxInstances rest st ((lower iname, storage) :: locals)
      | .userFb uname => do
          let layout ← orReject (fbs.lookup (lower uname)) .eUndefined ("FB " ++ uname)
          let (base, alloc) ← st.alloc.allocData layout.totalDataSize 4
          instanceSymbols fbs maxInstances rest { st with alloc := alloc }
            ((lower iname, .userInst uname base) :: locals)
      | _ => instanceSymbols fbs maxInstances rest st locals

/-- The entry name of the function block with an id. Source: `bind.rs`, `format!("fb.{id}")`. -/
def fbEntryName (id : ℕ) : String := "fb." ++ toString id

/-- Give a block its entry name. Source: `bind.rs`, `codegen.fb_layouts.get_mut(key)`. -/
def setEntryName (key name : String) : FbLayouts → FbLayouts
  | [] => []
  | (k, l) :: rest =>
      if k = key then (k, { l with entryName := name }) :: rest
      else (k, l) :: setEntryName key name rest

/-- Emit one function block. Source: `bind.rs`, the body of `for (key, layout) in &fb_layouts`. -/
def emitFb (order : HashOrder) (maxInstances id : ℕ) (key : String) (layout : UserFbLayout)
    (st : BindState) : EmitM BindState := do
  modify fun g => { g with fbLayouts := setEntryName key (fbEntryName id) g.fbLayouts }
  beginEntry (fbEntryName id) true
  let g ← get
  let (locals, st) ← liftResult
    (instanceSymbols g.fbLayouts maxInstances layout.instances st (fieldSymbols layout.fields))
  emitBody order locals layout.body .ret
  pure st

/-- Emit the function blocks, numbered in the order given. Source: `bind.rs`, the loop
`for (key, layout) in &fb_layouts`. -/
def emitFbs (order : HashOrder) (maxInstances : ℕ) :
    ℕ → FbLayouts → BindState → EmitM BindState
  | _, [], st => pure st
  | id, (key, layout) :: rest, st => do
      let st ← emitFb order maxInstances id key layout st
      emitFbs order maxInstances (id + 1) rest st

/-- Emit one task. Source: `bind.rs`, the body of `for t in &project.file.task`. -/
def emitTask (order : HashOrder) (t : TaskMap) (p : Program) : EmitM Unit := do
  beginEntry ("task." ++ t.name) false
  emitBody order [] p.body .halt

/-- Emit the tasks. Source: `bind.rs`, the second loop over `project.file.task`. -/
def emitTasks (order : HashOrder) (programs : List (String × Program)) : List TaskMap → EmitM Unit
  | [] => pure ()
  | t :: rest =>
      match programs.lookup (lower t.program) with
      | none => unwrapFail
      | some p => do
          emitTask order t p
          emitTasks order programs rest

/-- Every task names a program. Source: `bind.rs`, the first loop over `project.file.task`. -/
def checkTask (programs : List (String × Program)) (t : TaskMap) : Except CompileFault Unit :=
  if (programs.lookup (lower t.program)).isSome then .ok ()
  else reject .eProject ("task " ++ t.name ++ " PROGRAM " ++ t.program ++ " not found")

/-- Source: `bind.rs`, `Codegen::finish`. -/
def Codegen.finish (g : Codegen) (dataSize retainSize inputSlots outputSlots : ℕ) :
    Except CompileFault IrModule := do
  let code ← patchAll g.labels g.code g.fixups
  .ok { irMajor := irMajor
        irMinor := irMinor
        constSize := 0
        dataSize := max (max dataSize g.extraData) 16
        retainSize := max retainSize g.extraRetain
        inputSlots := inputSlots
        outputSlots := outputSlots
        entries := g.entries
        constData := []
        code := code }

/-! ## The driver -/

/-- Restart policy. Source: `plc-package/src/manifest.rs`, `RestartPolicy`. -/
inductive RestartPolicy where
  | safeReset
  | bumpless
  deriving DecidableEq, Repr

/-- Source: `bind.rs`, the `match` on `restart_policy`. -/
def parseRestart : String → Except CompileFault RestartPolicy
  | "safe_reset" => .ok .safeReset
  | "bumpless" => .ok .bumpless
  | other => reject .eProject ("unknown restart_policy " ++ other)

/-- Everything that `compile_loaded` has computed when it returns. -/
structure Compiled where
  /-- Function blocks and programs. -/
  decls : Decls
  /-- Layouts of the function blocks. -/
  fbLayouts : FbLayouts
  /-- Symbols, slots and allocation after binding. -/
  bound : BindState
  /-- Allocation after the nested instances. -/
  final : BindState
  /-- The emitter at the end. -/
  codegen : Codegen
  /-- The module. -/
  module : IrModule
  /-- The restart policy of the manifest. -/
  restart : RestartPolicy

/-- The emission part of the driver. Source: `bind.rs`, the emission loops of `compile_loaded`. -/
def emitProject (order : HashOrder) (file : ProjectFile) (programs : List (String × Program))
    (fbs : FbLayouts) (bound : BindState) : EmitM BindState := do
  let final ← emitFbs order file.maxInstances 0 (order.fbs fbs) bound
  emitTasks order programs file.task
  pure final

/-- The rejection of a module by the verifier. Source: `error.rs`,
`impl From<plc_ir::VerifyError> for CompileError`. -/
def verified (m : IrModule) : Except CompileFault Unit :=
  match verifyModule m with
  | .ok () => .ok ()
  | .error e => reject .eCodegen ("IR verify failed: " ++ verifyText e)

/-- The stages of `compile_loaded`, with what each of them computes. Source: `bind.rs`,
`compile_loaded`. -/
def compileStages (order : HashOrder) (p : LoadedProject) : Except CompileFault Compiled := do
  let decls ← collectDecls p
  let fbs ← layoutFbs 10000 decls.fbs []
  checkFbRecursion decls.fbs
  let bound ← bindProject p.file fbs decls.programs
  p.file.task.forM (checkTask decls.programs)
  match emitProject order p.file decls.programs fbs bound
      { fbLayouts := fbs, globals := bound.globals } with
  | .error e _ => .error e
  | .ok final g => do
      let module ← g.finish (max final.alloc.data g.extraData)
        (max final.alloc.retain g.extraRetain) final.inputSlots final.outputSlots
      verified module
      let restart ← parseRestart p.file.restartPolicy
      .ok ⟨decls, fbs, bound, final, g, module, restart⟩

/-- Program metadata of a compiled module, without the compatibility hash that `plc-package`
computes from the other fields. Source: `plc-package/src/manifest.rs`, `Manifest`. -/
structure Manifest where
  id : String
  version : String
  buildId : String
  irMajor : ℕ
  irMinor : ℕ
  taskEntries : List (String × String)
  retainSymbols : List ManifestRetainSymbol
  tagDictionary : List TagEntry
  restartPolicy : RestartPolicy
  inputSlots : ℕ
  outputSlots : ℕ
  dataSize : ℕ
  retainSize : ℕ
  constSize : ℕ

/-- Compile a project. Source: `bind.rs`, `compile_loaded`. -/
def compileLoaded (order : HashOrder) (p : LoadedProject) (buildId : String) :
    Except CompileFault (IrModule × Manifest) := do
  let c ← compileStages order p
  .ok (c.module,
    { id := p.file.id
      version := p.file.version
      buildId := buildId
      irMajor := irMajor
      irMinor := irMinor
      taskEntries := p.file.task.foldl
        (fun m t => insertSorted t.name ("task." ++ t.name) (m.filter fun e => e.1 != t.name)) []
      retainSymbols := c.final.retainSymbols
      tagDictionary := c.final.tagDictionary
      restartPolicy := c.restart
      inputSlots := c.final.inputSlots
      outputSlots := c.final.outputSlots
      dataSize := c.module.dataSize
      retainSize := c.module.retainSize
      constSize := c.module.constSize })

end SoftPlc.Compiler

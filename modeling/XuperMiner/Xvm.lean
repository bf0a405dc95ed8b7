import XuperMiner.Basic

/-!
# XuperMiner.Xvm

The check `xvmCreator.MakeExecCode` makes of an AOT-compiled contract
library (`bcs/contract/xvm`): `isLegacyAOT` asks `resolveSymbols` (the
Darwin resolver, `export_resolver_darwin.go`) for the library's export
symbols, and calls the library legacy unless it exports the contract
method `initialize`.

A library is what `ioutil.ReadFile` and `macho.NewFile` make of its path:
an error, or a Mach-O file whose symbol table may be absent.
`resolveSymbols` reads `file.Symtab.Syms` without a nil check.
`exec.NewAOTCode` is an argument.

The creator itself: `newXVMCreator` checks the VM config's opt level, and
`CompileCode` hands it to the native compiler (`compileCode_newXVMCreator`).
-/

namespace XuperMiner

/-- `exportSymbolPrefix`. -/
def exportSymbolPrefix : String := "_export_"

/-- `currentContractMethodInitialize`. -/
def currentContractMethodInitialize : String := "initialize"

/-- The symbol a library exports for a contract method. -/
def exportName (method : String) : String := exportSymbolPrefix ++ method

/-- `strings.HasPrefix(s, prefix)`. -/
def hasPrefix (s pre : String) : Bool := pre.toList.isPrefixOf s.toList

/-- A Mach-O file as `debug/macho` reads it: the names in its symbol table,
when it has one (`file.Symtab`). -/
structure MachoFile where
  symtab : Option (List String)
  deriving DecidableEq, Repr

/-- `resolveSymbols(filepath)`: the keys of the map it returns, the symbol
names that start with the export prefix, kept whole. -/
def resolveSymbols (file : Except Err MachoFile) : Except Err (List String) :=
  match file with
  | .error e => .error e
  | .ok f =>
    match f.symtab with
    | none => .error .nilDereference
    | some symbols => .ok (symbols.filter (hasPrefix · exportSymbolPrefix))

/-- `isLegacyAOT(filepath)`: the map is looked up at the bare method name. -/
def isLegacyAOT (file : Except Err MachoFile) : Except Err Bool :=
  match resolveSymbols file with
  | .error e => .error e
  | .ok syms => if currentContractMethodInitialize ∈ syms then .ok false else .ok true

/-- `xvmCreator.MakeExecCode(libpath)`: the code `exec.NewAOTCode` built,
and whether the library is legacy. -/
def makeExecCode {Code : Type} (newAOTCode : Except Err Code) (file : Except Err MachoFile) :
    Except Err (Code × Bool) :=
  match newAOTCode with
  | .error e => .error e
  | .ok code =>
    match isLegacyAOT file with
    | .error e => .error e
    | .ok legacy => .ok (code, legacy)

/-- Every key `resolveSymbols` returns carries the export prefix. -/
theorem hasPrefix_of_mem_resolveSymbols {file : Except Err MachoFile} {syms : List String}
    (h : resolveSymbols file = .ok syms) {s : String} (hs : s ∈ syms) :
    hasPrefix s exportSymbolPrefix = true := by
  unfold resolveSymbols at h
  split at h
  · cases h
  split at h
  · cases h
  cases h
  exact (List.mem_filter.1 hs).2

/-- The bare method name is never a key: it does not carry the prefix. -/
theorem initialize_not_mem_resolveSymbols {file : Except Err MachoFile} {syms : List String}
    (h : resolveSymbols file = .ok syms) : currentContractMethodInitialize ∉ syms := fun hs =>
  absurd (hasPrefix_of_mem_resolveSymbols h hs) (by decide)

/-- So every library whose symbols resolve is legacy, whatever it exports. -/
theorem isLegacyAOT_eq_ok_true {file : Except Err MachoFile} {syms : List String}
    (h : resolveSymbols file = .ok syms) : isLegacyAOT file = .ok true := by
  simp only [isLegacyAOT, h, if_neg (initialize_not_mem_resolveSymbols h)]

/-- A library that exports `initialize` (its symbol table holds
`_export_initialize`) is still called legacy. -/
theorem isLegacyAOT_exports_initialize :
    exportName currentContractMethodInitialize ∈
        (resolveSymbols (.ok ⟨some ["_export_initialize"]⟩)).toOption.getD [] ∧
      isLegacyAOT (.ok ⟨some ["_export_initialize"]⟩) = .ok true :=
  ⟨by decide, isLegacyAOT_eq_ok_true rfl⟩


/-- `isLegacyAOT` answers exactly when the library reads and has a symbol
table, and its answer is then always "legacy". -/
theorem isLegacyAOT_eq_ok {file : Except Err MachoFile} {legacy : Bool} :
    isLegacyAOT file = .ok legacy ↔ legacy = true ∧ ∃ f syms, file = .ok f ∧ f.symtab = some syms := by
  rcases file with e | ⟨_ | syms⟩
  · simp [isLegacyAOT, resolveSymbols]
  · simp [isLegacyAOT, resolveSymbols]
  · rw [@isLegacyAOT_eq_ok_true (.ok ⟨some syms⟩) _ rfl]
    simp [eq_comm]

/-- `MakeExecCode` succeeds exactly when `exec.NewAOTCode` does and the
library has a symbol table, and then it reports the library legacy: no input
makes it return a current-style code. -/
theorem makeExecCode_eq_ok {Code : Type} {newAOTCode : Except Err Code}
    {file : Except Err MachoFile} {code : Code} {legacy : Bool} :
    makeExecCode newAOTCode file = .ok (code, legacy) ↔
      newAOTCode = .ok code ∧ legacy = true ∧ ∃ f syms, file = .ok f ∧ f.symtab = some syms := by
  rw [← isLegacyAOT_eq_ok]
  rcases newAOTCode with e | c <;> rcases hl : isLegacyAOT file with e' | l <;>
    simp [makeExecCode, hl, and_comm]

/-! ## The creator

`newXVMCreator` checks the opt level of the creator config's VM config, when
there is one, and keeps the config; `CompileCode` reads the opt level back
through `x.vmconfig.XVM.OptLevel` with no nil check. `lookupWasm2c`,
`newCodeManager`, the temporary directory, the file writes and
`compile.CompileNativeLibrary` are arguments. -/

/-- `contract.WasmConfig`, as far as the creator reads it: `XVM.OptLevel`. -/
structure WasmConfig where
  optLevel : Int
  deriving DecidableEq, Repr

/-- An `xvmCreator`: the path `lookupWasm2c` found, and the VM config
(`vmconfig` stays nil when the creator config had none). -/
structure XvmCreator where
  wasm2cPath : String
  vmconfig : Option WasmConfig
  deriving DecidableEq, Repr

/-- The opt-level check of `newXVMCreator`. -/
def checkVMConfig : Option WasmConfig → Except Err Unit
  | none => .ok ()
  | some cfg =>
    if cfg.optLevel < 0 ∨ cfg.optLevel > 3 then
      .error (.msg ("bad xvm optlevel:" ++ toString cfg.optLevel))
    else .ok ()

/-- `newXVMCreator(creatorConfig)`: its errors in the order the code returns
them. -/
def newXVMCreator (lookupWasm2c : Except Err String) (vmConfig : Option WasmConfig)
    (newCodeManager : Except Err Unit) : Except Err XvmCreator :=
  match lookupWasm2c, checkVMConfig vmConfig, newCodeManager with
  | .error e, _, _ => .error e
  | .ok _, .error e, _ => .error e
  | .ok _, .ok (), .error e => .error e
  | .ok wasm2cPath, .ok (), .ok () => .ok ⟨wasm2cPath, vmConfig⟩

/-- What the calls of `CompileCode` return: `ioutil.TempDir`, the write of
the wasm file, `compile.CompileNativeLibrary` (given the wasm2c path and the
opt level of its config), and `cpfile`'s read and write. -/
structure CompileEnv where
  tempDir : Except Err Unit
  writeWasm : Except Err Unit
  compileNativeLibrary : String → Int → Except Err Unit
  readLib : Except Err Unit
  writeOutput : Except Err Unit

/-- `cpfile(dest, src)`. -/
def cpfile (readFile writeFile : Except Err Unit) : Except Err Unit :=
  match readFile with
  | .error e => .error e
  | .ok () => writeFile

/-- `xvmCreator.CompileCode(buf, outputPath)`. -/
def compileCode (env : CompileEnv) (x : XvmCreator) : Except Err Unit :=
  match env.tempDir, env.writeWasm, x.vmconfig with
  | .error e, _, _ => .error e
  | .ok (), .error e, _ => .error e
  | .ok (), .ok (), none => .error .nilDereference
  | .ok (), .ok (), some cfg =>
    match env.compileNativeLibrary x.wasm2cPath cfg.optLevel with
    | .error e => .error e
    | .ok () => cpfile env.readLib env.writeOutput

/-- The check passes exactly the absent configs and the levels 0..3; a
rejection names the level. -/
theorem checkVMConfig_cases (c : Option WasmConfig) :
    (checkVMConfig c = .ok () ∧ ∀ cfg, c = some cfg → 0 ≤ cfg.optLevel ∧ cfg.optLevel ≤ 3) ∨
      ∃ cfg, c = some cfg ∧ (cfg.optLevel < 0 ∨ 3 < cfg.optLevel) ∧
        checkVMConfig c = .error (.msg ("bad xvm optlevel:" ++ toString cfg.optLevel)) := by
  rcases c with _ | cfg
  · simp [checkVMConfig]
  · by_cases h : cfg.optLevel < 0 ∨ cfg.optLevel > 3
    · exact .inr ⟨cfg, rfl, h, if_pos h⟩
    · exact .inl ⟨if_neg h, fun _ hc => by cases hc; omega⟩

/-- What a created creator holds. -/
theorem newXVMCreator_eq_ok {lookup : Except Err String} {vmConfig : Option WasmConfig}
    {cm : Except Err Unit} {x : XvmCreator} :
    newXVMCreator lookup vmConfig cm = .ok x ↔
      (∃ path, lookup = .ok path ∧ x = ⟨path, vmConfig⟩) ∧ checkVMConfig vmConfig = .ok () ∧
        cm = .ok () := by
  rcases lookup with e | path <;> rcases hc : checkVMConfig vmConfig with e' | _ <;>
    rcases cm with e'' | _ <;> simp [newXVMCreator, hc, eq_comm]

/-- A compile succeeds exactly when every call succeeds, the creator
holding a VM config. -/
theorem compileCode_eq_ok {env : CompileEnv} {x : XvmCreator} :
    compileCode env x = .ok () ↔ env.tempDir = .ok () ∧ env.writeWasm = .ok () ∧
      ∃ cfg, x.vmconfig = some cfg ∧ env.compileNativeLibrary x.wasm2cPath cfg.optLevel = .ok () ∧
        cpfile env.readLib env.writeOutput = .ok () := by
  rcases env with ⟨_ | ⟨⟩, _ | ⟨⟩, c, r, o⟩ <;> rcases x with ⟨p, _ | cfg⟩ <;> simp [compileCode]
  rcases c p cfg.optLevel with _ | ⟨⟩ <;> simp

/-- **What a created creator's compile does.**  A `CompileCode` of a creator
`newXVMCreator` returned succeeds only after `CompileNativeLibrary` accepted
the wasm2c path `lookupWasm2c` found and an opt level in 0..3; a creator made
without a VM config dereferences nil in every `CompileCode` whose temporary
directory and wasm file were made. -/
theorem compileCode_newXVMCreator {lookup : Except Err String} {vmConfig : Option WasmConfig}
    {cm : Except Err Unit} {x : XvmCreator} (h : newXVMCreator lookup vmConfig cm = .ok x)
    (env : CompileEnv) :
    (compileCode env x = .ok () → ∃ path cfg, lookup = .ok path ∧ vmConfig = some cfg ∧
        0 ≤ cfg.optLevel ∧ cfg.optLevel ≤ 3 ∧ env.compileNativeLibrary path cfg.optLevel = .ok ()) ∧
      (vmConfig = none → env.tempDir = .ok () → env.writeWasm = .ok () →
        compileCode env x = .error .nilDereference) := by
  obtain ⟨⟨path, rfl, rfl⟩, hc, -⟩ := newXVMCreator_eq_ok.1 h
  refine ⟨fun hok => ?_, fun hn ht hw => by simp [compileCode, hn, ht, hw]⟩
  obtain ⟨-, -, cfg, hv, hcl, -⟩ := compileCode_eq_ok.1 hok
  obtain ⟨h0, h3⟩ := (checkVMConfig_cases vmConfig).elim (·.2 cfg hv) fun ⟨_, _, _, he⟩ => by
    simp [hc] at he
  exact ⟨path, cfg, rfl, hv, h0, h3, hcl⟩

/-- The two kinds of creator: one with opt level 2 compiles, through
`CompileNativeLibrary` at level 2; one without a VM config panics in its
first compile. -/
theorem compileCode_newXVMCreator_configs :
    let env : CompileEnv := ⟨.ok (), .ok (), fun _ _ => .ok (), .ok (), .ok ()⟩
    (newXVMCreator (.ok "wasm2c") (some ⟨2⟩) (.ok ()) = .ok ⟨"wasm2c", some ⟨2⟩⟩ ∧
      compileCode env ⟨"wasm2c", some ⟨2⟩⟩ = .ok () ∧
      ∃ (path : String) (cfg : WasmConfig), Except.ok "wasm2c" = (.ok path : Except Err String) ∧
        some ⟨2⟩ = some cfg ∧ 0 ≤ cfg.optLevel ∧ cfg.optLevel ≤ 3 ∧
        env.compileNativeLibrary path cfg.optLevel = .ok ()) ∧
    (newXVMCreator (.ok "wasm2c") none (.ok ()) = .ok ⟨"wasm2c", none⟩ ∧
      compileCode env ⟨"wasm2c", none⟩ = .error .nilDereference) :=
  ⟨⟨rfl, rfl, (@compileCode_newXVMCreator (.ok "wasm2c") (some ⟨2⟩) (.ok ()) _ rfl _).1 rfl⟩,
    ⟨rfl, (@compileCode_newXVMCreator (.ok "wasm2c") none (.ok ()) _ rfl _).2 rfl rfl rfl⟩⟩

end XuperMiner

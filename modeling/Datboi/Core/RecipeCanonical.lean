import Datboi.Core.RecipeCodec

/-!
# One object for each recipe

Each half of the codec is written by hand. For every record the loop of the decoder adds
exactly the entry it reads to what its partial record stands for, so the decoder accepts what
the encoder writes and nothing else, from the references up to the recipe.
-/

namespace Datboi

open Cbor (Value)
open Decoding

namespace RecipeCodec

open Fields (optEntry Inverts)

/-! ## Inputs and outputs -/

def InputFields.written (fields : InputFields) : List (UInt64 × Value) :=
  optEntry refkeyHash (fields.hash.map fun hash => .bytes hash.toBytes) ++
    optEntry inkeyRole (fields.role.map .text)

theorem inputField_written : Appends inputField InputFields.written := by
  intro fields key v next _ habove hstep
  simp only [InputFields.written, List.forall_mem_append, optEntry_below, Option.map_eq_none_iff]
    at habove ⊢
  unfold inputField at hstep
  -- Each branch sets the field of its key, and the fields after it are still unset.
  repeat' split at hstep
  case isFalse => cases hstep
  all_goals
    obtain ⟨_, hv, hnext⟩ := bind_eq_ok.mp hstep
    cases hnext
    simp_all [refkeyHash, inkeyRole]

/-- Input references have one spelling. -/
theorem inputFromValue_inverts :
    Inverts inputFromValue inputToValue IsCanonical fun _ => True where
  sound := by
    intro v input hcanonical hdecode
    simp only [inputFromValue, bind_eq_ok, asMap_eq_ok, required_eq_ok] at hdecode
    obtain ⟨entries, rfl, fields, hrun, hash, hhash, hinput⟩ := hdecode
    cases hinput
    have hwritten := written_eq rfl inputField_written hcanonical hrun
    rw [← hwritten, InputFields.written, hhash]
    exact ⟨trivial, rfl⟩
  complete := by
    rintro ⟨hash, role⟩ -
    cases role <;>
      simp [inputFromValue, inputToValue, inputField, asMap, asText, required, refkeyHash, inkeyRole]

def OutputFields.written (fields : OutputFields) : List (UInt64 × Value) :=
  optEntry refkeyHash (fields.hash.map fun hash => .bytes hash.toBytes) ++
    optEntry outkeySize (fields.size.map .uint) ++
    optEntry outkeyName (fields.name.map .text)

theorem outputField_written : Appends outputField OutputFields.written := by
  intro fields key v next _ habove hstep
  simp only [OutputFields.written, List.forall_mem_append, optEntry_below, Option.map_eq_none_iff]
    at habove ⊢
  unfold outputField at hstep
  repeat' split at hstep
  case isFalse => cases hstep
  all_goals
    obtain ⟨_, hv, hnext⟩ := bind_eq_ok.mp hstep
    cases hnext
    simp_all [refkeyHash, outkeySize, outkeyName]

/-- Output references have one spelling. -/
theorem outputFromValue_inverts :
    Inverts outputFromValue outputToValue IsCanonical fun output => output.size < 2 ^ 64 where
  sound := by
    intro v output hcanonical hdecode
    simp only [outputFromValue, bind_eq_ok, asMap_eq_ok, required_eq_ok] at hdecode
    obtain ⟨entries, rfl, fields, hrun, hash, hhash, size, hsize, houtput⟩ := hdecode
    cases houtput
    have hwritten := written_eq rfl outputField_written hcanonical hrun
    refine ⟨size.toNat_lt, ?_⟩
    rw [← hwritten, OutputFields.written, hhash, hsize]
    simp [outputToValue]
  complete := by
    rintro ⟨hash, size, name⟩ hsize
    have hsize : size < 2 ^ 64 := hsize
    cases name <;>
      simp [outputFromValue, outputToValue, outputField, asMap, asText, asUint, required,
        refkeyHash, outkeySize, outkeyName] <;>
      omega

theorem refsFromValue_inverts {α : Type} {parse : Value → Except RecipeError α}
    {encode : α → Value} {valid : α → Prop} (hinverts : Inverts parse encode IsCanonical valid) :
    Inverts (refsFromValue parse) (fun refs => .array (refs.map encode)) IsCanonical
      fun refs => ∀ ref ∈ refs, valid ref where
  sound := by
    intro v refs hcanonical hdecode
    cases v with
    | array items =>
      obtain ⟨hvalid, hitems⟩ := hinverts.mapM.sound hcanonical.of_array hdecode
      exact ⟨hvalid, congrArg Value.array hitems⟩
    | uint n => cases hdecode
    | bytes b => cases hdecode
    | text t => cases hdecode
    | map entries => cases hdecode
  complete := fun hvalid => hinverts.mapM.complete hvalid

/-! ## Operations -/

/-- The kind comes first: a smaller key is unknown to both loops. -/
theorem kind_first {σ : Type} {step : σ → UInt64 × Value → Except RecipeError σ} {s s' : σ}
    {entries : List (UInt64 × Value)} {kind : UInt64 × Value}
    (hzero : ∀ s v s', step s (0, v) ≠ .ok s')
    (hcanonical : IsCanonical (.map entries))
    (hkind : entries.find? (fun entry => entry.1 = opkeyKind) = some kind)
    (hrun : entries.foldlM step s = .ok s') :
    ∃ rest, entries = (opkeyKind, kind.2) :: rest ∧ IsCanonical (.map rest) := by
  cases entries with
  | nil => cases hkind
  | cons first rest =>
    by_cases hfirst : first.1 = opkeyKind
    · rw [List.find?_cons_of_pos (by simpa using hfirst)] at hkind
      cases hkind
      refine ⟨rest, by rw [← hfirst], ?_⟩
      obtain ⟨levels, hlength, hascending, hinner⟩ := hcanonical.exists_map
      exact ⟨levels + 1, Nat.lt_of_succ_lt hlength, hascending.tail,
        fun entry hentry => hinner entry (List.mem_cons_of_mem _ hentry)⟩
    · exfalso
      rw [List.find?_cons_of_neg (by simpa using hfirst)] at hkind
      have hlt := hcanonical.of_map.1.lt_of_mem (List.mem_of_find?_eq_some hkind)
      have hkey : kind.1 = opkeyKind := by simpa using List.find?_some hkind
      simp only [hkey, opkeyKind, UInt64.toNat_one, Nat.lt_one_iff] at hlt
      obtain ⟨next, hstep, _⟩ := Fields.foldlM_cons_eq_ok.mp hrun
      have hnull : first.1 = 0 := UInt64.toNat_inj.mp hlt
      exact hzero s first.2 next (by rw [← hnull]; exact hstep)

def BuiltinFields.written (fields : BuiltinFields) : List (UInt64 × Value) :=
  optEntry opkeyNameOrComponent (fields.name.map .text) ++
    optEntry opkeyMajorOrWorld (fields.major.map fun major => .uint major.toUInt64)

theorem builtinField_written (fields : BuiltinFields) (key : UInt64) (v : Value)
    (next : BuiltinFields) (hkind : key ≠ opkeyKind)
    (habove : ∀ b ∈ fields.written, b.1.toNat < key.toNat)
    (hstep : builtinField fields (key, v) = .ok next) :
    next.written = fields.written ++ [(key, v)] := by
  simp only [BuiltinFields.written, List.forall_mem_append, optEntry_below, Option.map_eq_none_iff]
    at habove ⊢
  unfold builtinField at hstep
  rw [if_neg hkind] at hstep
  split at hstep
  · rename_i hkey
    have hkey : key = opkeyNameOrComponent := hkey
    obtain ⟨name, hv, hnext⟩ := bind_eq_ok.mp hstep
    cases hnext
    simp_all [opkeyNameOrComponent, opkeyMajorOrWorld]
  split at hstep
  · rename_i hkey
    have hkey : key = opkeyMajorOrWorld := hkey
    obtain ⟨raw, hv, hnext⟩ := bind_eq_ok.mp hstep
    split at hnext
    · rename_i hfits
      cases hnext
      have hraw : raw.toUInt32.toUInt64 = raw := by
        rw [← UInt64.toNat_inj, UInt32.toNat_toUInt64, UInt64.toNat_toUInt32,
          Nat.mod_eq_of_lt hfits]
      simp_all [opkeyNameOrComponent, opkeyMajorOrWorld]
    · cases hnext
  · cases hstep

def WasmFields.written (fields : WasmFields) : List (UInt64 × Value) :=
  optEntry opkeyNameOrComponent (fields.component.map fun hash => .bytes hash.toBytes) ++
    optEntry opkeyMajorOrWorld (fields.world.map fun world => .text world.asStr) ++
    optEntry opkeyExport (fields.exportName.map .text)

theorem wasmField_written (fields : WasmFields) (key : UInt64) (v : Value) (next : WasmFields)
    (hkind : key ≠ opkeyKind) (habove : ∀ b ∈ fields.written, b.1.toNat < key.toNat)
    (hstep : wasmField fields (key, v) = .ok next) :
    next.written = fields.written ++ [(key, v)] := by
  simp only [WasmFields.written, List.forall_mem_append, optEntry_below, Option.map_eq_none_iff]
    at habove ⊢
  unfold wasmField at hstep
  rw [if_neg hkind] at hstep
  split at hstep
  · rename_i hkey
    have hkey : key = opkeyNameOrComponent := hkey
    obtain ⟨component, hv, hnext⟩ := bind_eq_ok.mp hstep
    cases hnext
    simp_all [opkeyNameOrComponent, opkeyMajorOrWorld, opkeyExport]
  split at hstep
  · rename_i hkey
    have hkey : key = opkeyMajorOrWorld := hkey
    obtain ⟨world, hv, hnext⟩ := bind_eq_ok.mp hstep
    cases hnext
    simp_all [opkeyNameOrComponent, opkeyMajorOrWorld, opkeyExport, World.asStr_parse]
  split at hstep
  · rename_i hkey
    have hkey : key = opkeyExport := hkey
    obtain ⟨exportName, hv, hnext⟩ := bind_eq_ok.mp hstep
    cases hnext
    simp_all [opkeyNameOrComponent, opkeyMajorOrWorld, opkeyExport]
  · cases hstep

theorem wasmField_parsed (fields : WasmFields) (entry : UInt64 × Value) (next : WasmFields)
    (_ : IsCanonical entry.2) (hparsed : ∀ world ∈ fields.world, world.Parsed) (hstep : wasmField fields entry = .ok next) :
    ∀ world ∈ next.world, world.Parsed := by
  unfold wasmField at hstep
  split at hstep
  · cases hstep
    exact hparsed
  split at hstep
  · obtain ⟨component, _, hnext⟩ := bind_eq_ok.mp hstep
    cases hnext
    exact hparsed
  split at hstep
  · obtain ⟨world, _, hnext⟩ := bind_eq_ok.mp hstep
    cases hnext
    rintro _ ⟨⟩
    exact ⟨world, rfl⟩
  split at hstep
  · obtain ⟨exportName, _, hnext⟩ := bind_eq_ok.mp hstep
    cases hnext
    exact hparsed
  · cases hstep

/-- The loop over an op's entries skips the kind and writes the others. -/
theorem op_written {σ : Type} {step : σ → UInt64 × Value → Except RecipeError σ}
    (written : σ → List (UInt64 × Value)) {empty final : σ} {entries : List (UInt64 × Value)}
    {kind : UInt64 × Value} (hempty : written empty = [])
    (hzero : ∀ s v s', step s (0, v) ≠ .ok s') (hskip : ∀ s v, step s (opkeyKind, v) = .ok s)
    (hstep : ∀ s key v s', key ≠ opkeyKind → (∀ b ∈ written s, b.1.toNat < key.toNat) →
      step s (key, v) = .ok s' → written s' = written s ++ [(key, v)])
    (hcanonical : IsCanonical (.map entries))
    (hkind : entries.find? (fun entry => entry.1 = opkeyKind) = some kind)
    (hrun : entries.foldlM step empty = .ok final) :
    entries = (opkeyKind, kind.2) :: written final := by
  obtain ⟨rest, rfl, hrest⟩ := kind_first hzero hcanonical hkind hrun
  obtain ⟨next, hfirst, hrun⟩ := Fields.foldlM_cons_eq_ok.mp hrun
  rw [hskip] at hfirst
  cases hfirst
  have hothers : ∀ entry ∈ rest, entry.1 ≠ opkeyKind := by
    intro entry hentry heq
    have hlt := hcanonical.of_map.1.lt_of_mem hentry
    simp [heq] at hlt
  have hall := Fields.foldlM_written (fun entry : UInt64 × Value => entry.1.toNat)
    (fun s entry s' => hstep s entry.1 entry.2 s') hothers hrest.of_map.1 (by simp [hempty]) hrun
  rw [hall, hempty, List.nil_append]

/-- An op as it can come off the wire: its version fits 32 bits, its world was parsed. -/
def OpValid : Op → Prop
  | .builtin _ major => major < 2 ^ 32
  | .wasm _ world _ => world.Parsed

/-- Operations have one spelling. -/
theorem opFromValue_inverts : Inverts opFromValue opToValue IsCanonical OpValid where
  sound := by
    intro v op hcanonical hdecode
    simp only [opFromValue, bind_eq_ok, asMap_eq_ok, required_eq_ok, asText_eq_ok] at hdecode
    obtain ⟨entries, rfl, kind, hkind, name, hname, hop⟩ := hdecode
    split at hop
    · rename_i hbuiltin
      simp only [bind_eq_ok, required_eq_ok] at hop
      obtain ⟨fields, hrun, name, hfieldName, major, hfieldMajor, hop⟩ := hop
      cases hop
      have hentries := op_written BuiltinFields.written rfl
        (fun _ _ _ hzero => by cases hzero) (fun _ _ => rfl)
        builtinField_written hcanonical hkind hrun
      refine ⟨major.toNat_lt, ?_⟩
      rw [hentries, hname, hbuiltin, BuiltinFields.written, hfieldName, hfieldMajor]
      simp [opToValue]
    split at hop
    · rename_i hwasm
      simp only [bind_eq_ok, required_eq_ok] at hop
      obtain ⟨fields, hrun, component, hcomponent, world, hworld, exportName, hexport, hop⟩ := hop
      cases hop
      have hentries := op_written WasmFields.written rfl
        (fun _ _ _ hzero => by cases hzero) (fun _ _ => rfl)
        wasmField_written hcanonical hkind hrun
      refine ⟨?_, ?_⟩
      · exact Fields.foldlM_preserves wasmField_parsed hcanonical.of_map.2 (by simp) hrun world
          hworld
      · rw [hentries, hname, hwasm, WasmFields.written, hcomponent, hworld, hexport]
        rfl
    · cases hop
  complete := by
    rintro (⟨name, major⟩ | ⟨component, world, exportName⟩) hvalid
    · have hmajor : major < 2 ^ 32 := hvalid
      simp [opFromValue, opToValue, builtinField, asMap, asText, asUint, required,
        opkeyKind, opkeyNameOrComponent, opkeyMajorOrWorld]
      rw [if_pos (by omega), ok_bind]
      simpa using hmajor
    · have hworld : world.Parsed := hvalid
      simp [opFromValue, opToValue, wasmField, asMap, asText, required, hworld.parse_asStr,
        opkeyKind, opkeyNameOrComponent, opkeyMajorOrWorld, opkeyExport]

/-! ## Recipes -/

def RecipeFields.written (fields : RecipeFields) : List (UInt64 × Value) :=
  optEntry keyOp (fields.op.map opToValue) ++
    optEntry keyInputs (fields.inputs.map fun inputs => .array (inputs.map inputToValue)) ++
    optEntry keyOutputs (fields.outputs.map fun outputs => .array (outputs.map outputToValue)) ++
    optEntry keyParams (paramsField fields.params)

theorem paramsField_eq_none {params : Bytes} : paramsField params = none ↔ params = [] := by
  unfold paramsField
  split <;> simp_all

theorem recipeField_written : Appends recipeField RecipeFields.written := by
  intro fields key v next hcanonical habove hstep
  simp only [RecipeFields.written, List.forall_mem_append, optEntry_below, Option.map_eq_none_iff,
    paramsField_eq_none] at habove ⊢
  unfold recipeField at hstep
  split at hstep
  · rename_i hkey
    have hkey : key = keyOp := hkey
    obtain ⟨op, hv, hnext⟩ := bind_eq_ok.mp hstep
    cases hnext
    have hv := (opFromValue_inverts.sound hcanonical hv).2
    simp_all [keyOp, keyInputs, keyOutputs, keyParams, paramsField]
  split at hstep
  · rename_i hkey
    have hkey : key = keyInputs := hkey
    obtain ⟨inputs, hv, hnext⟩ := bind_eq_ok.mp hstep
    cases hnext
    have hv := ((refsFromValue_inverts inputFromValue_inverts).sound hcanonical hv).2
    simp_all [keyOp, keyInputs, keyOutputs, keyParams, paramsField]
  split at hstep
  · rename_i hkey
    have hkey : key = keyOutputs := hkey
    obtain ⟨outputs, hv, hnext⟩ := bind_eq_ok.mp hstep
    cases hnext
    have hv := ((refsFromValue_inverts outputFromValue_inverts).sound hcanonical hv).2
    simp_all [keyOp, keyInputs, keyOutputs, keyParams, paramsField]
  split at hstep
  · rename_i hkey
    have hkey : key = keyParams := hkey
    obtain ⟨params, hv, hnext⟩ := bind_eq_ok.mp hstep
    split at hnext
    · cases hnext
    · cases hnext
      simp_all [keyOp, keyInputs, keyOutputs, keyParams, paramsField]
  · cases hstep

/-- What has been read so far is as it can come off the wire. -/
def RecipeFields.Valid (fields : RecipeFields) : Prop :=
  (∀ op ∈ fields.op, OpValid op) ∧
    ∀ outputs ∈ fields.outputs, ∀ output ∈ outputs, output.size < 2 ^ 64

theorem recipeField_valid (fields : RecipeFields) (entry : UInt64 × Value) (next : RecipeFields)
    (hcanonical : IsCanonical entry.2) (hvalid : fields.Valid)
    (hstep : recipeField fields entry = .ok next) : next.Valid := by
  unfold recipeField at hstep
  split at hstep
  · obtain ⟨op, hv, hnext⟩ := bind_eq_ok.mp hstep
    cases hnext
    refine ⟨?_, hvalid.2⟩
    rintro _ ⟨⟩
    exact (opFromValue_inverts.sound hcanonical hv).1
  split at hstep
  · obtain ⟨inputs, _, hnext⟩ := bind_eq_ok.mp hstep
    cases hnext
    exact hvalid
  split at hstep
  · obtain ⟨outputs, hv, hnext⟩ := bind_eq_ok.mp hstep
    cases hnext
    refine ⟨hvalid.1, ?_⟩
    rintro _ ⟨⟩
    exact ((refsFromValue_inverts outputFromValue_inverts).sound hcanonical hv).1
  split at hstep
  · obtain ⟨params, _, hnext⟩ := bind_eq_ok.mp hstep
    split at hnext
    · cases hnext
    · cases hnext
      exact hvalid
  · cases hstep

/-- A recipe that an object can hold. -/
def RecipeValid (recipe : Recipe) : Prop :=
  OpValid recipe.op ∧ (∀ output ∈ recipe.outputs, output.size < 2 ^ 64) ∧
    recipe.validate = .ok ()

/-- Recipes have one spelling. -/
theorem fromValue_inverts : Inverts fromValue toValue IsCanonical RecipeValid where
  sound := by
    intro v recipe hcanonical hdecode
    simp only [fromValue, bind_eq_ok, asMap_eq_ok, required_eq_ok] at hdecode
    obtain ⟨entries, rfl, fields, hrun, op, hop, inputs, hinputs, outputs, houtputs, ⟨⟩, hvalidate,
      hrecipe⟩ := hdecode
    cases hrecipe
    have hwritten := written_eq rfl recipeField_written hcanonical hrun
    have hvalid : fields.Valid := Fields.foldlM_preserves recipeField_valid hcanonical.of_map.2
      ⟨by simp, by simp⟩ hrun
    refine ⟨⟨hvalid.1 op hop, hvalid.2 outputs houtputs, hvalidate⟩, ?_⟩
    rw [← hwritten, RecipeFields.written, hop, hinputs, houtputs]
    rfl
  complete := by
    rintro ⟨op, inputs, outputs, params⟩ ⟨hop, houtputs, hvalidate⟩
    have hop := opFromValue_inverts.complete hop
    have hinputs := (refsFromValue_inverts inputFromValue_inverts).complete
      (b := inputs) fun _ _ => trivial
    have houtputs := (refsFromValue_inverts outputFromValue_inverts).complete houtputs
    by_cases hparams : params = []
    · subst hparams
      simp [fromValue, toValue, recipeField, asMap, required, keyOp, keyInputs, keyOutputs,
        paramsField, hop, hinputs, houtputs, hvalidate]
    · simp [fromValue, toValue, recipeField, asMap, asBytes, required, keyOp, keyInputs, keyOutputs,
        keyParams, paramsField, hop, hinputs, houtputs, hparams, hvalidate]

end RecipeCodec

open RecipeCodec

theorem recipeHeader_eq : recipeHeader = Object.header .recipe recipeVersion := by decide

/-- The objects that decode are the encodings of valid recipes. -/
theorem Recipe.decode_eq_ok {bytes : Bytes} {recipe : Recipe} :
    Recipe.decode bytes = .ok recipe ↔
      RecipeValid recipe ∧ Value.Canonical (Cbor.maxDepth + 1) (toValue recipe) ∧
        bytes = recipeHeader ++ (toValue recipe).encoded := by
  simp only [Recipe.decode, bind_eq_ok, expectObject_eq_ok (show recipeVersion < 10 by decide),
    decodeBody_eq_ok, ← recipeHeader_eq]
  constructor
  · rintro ⟨body, rfl, v, ⟨hcanonical, rfl⟩, hdecode⟩
    obtain ⟨hvalid, rfl⟩ := fromValue_inverts.sound ⟨_, hcanonical⟩ hdecode
    exact ⟨hvalid, hcanonical, rfl⟩
  · rintro ⟨hvalid, hcanonical, rfl⟩
    exact ⟨_, rfl, _, ⟨hcanonical, rfl⟩, fromValue_inverts.complete hvalid⟩

theorem Recipe.encode_eq_ok {recipe : Recipe} {levels : Nat} (hvalidate : recipe.validate = .ok ())
    (hshaped : Value.Shaped levels (toValue recipe)) :
    recipe.encode = .ok (recipeHeader ++ (toValue recipe).encoded) := by
  rw [Recipe.encode, hvalidate, encodeBody_eq_ok hshaped]
  rfl

/-! ## Values that fit the machine -/

namespace RecipeCodec

/-- The op's fields are within the ranges of their machine types. -/
def OpFits : Op → Prop
  | .builtin name major => TextFits name ∧ major < 2 ^ 32
  | .wasm _ world exportName => TextFits world.asStr ∧ TextFits exportName

end RecipeCodec

/-- The recipe's fields are within the ranges of their machine types. -/
structure Recipe.Fits (recipe : Recipe) : Prop where
  op : OpFits recipe.op
  inputs : recipe.inputs.length < 2 ^ 64
  roles : ∀ input ∈ recipe.inputs, ∀ role ∈ input.role, TextFits role
  outputs : recipe.outputs.length < 2 ^ 64
  sizes : ∀ output ∈ recipe.outputs, output.size < 2 ^ 64
  names : ∀ output ∈ recipe.outputs, ∀ name ∈ output.name, TextFits name
  params : recipe.params.length < 2 ^ 64

namespace RecipeCodec

theorem opToValue_canonical {op : Op} (hfits : OpFits op) (levels : Nat) :
    Value.Canonical (levels + 2) (opToValue op) := by
  cases op with
  | builtin name major =>
    obtain ⟨hname, _⟩ := hfits
    have hkind : TextFits "b" := by unfold TextFits; decide
    simp [opToValue, Rows.Ascending, opkeyKind, opkeyNameOrComponent, opkeyMajorOrWorld, hname,
      hkind]
  | wasm component world exportName =>
    obtain ⟨hworld, hexport⟩ := hfits
    have hkind : TextFits "w" := by unfold TextFits; decide
    simp [opToValue, Rows.Ascending, opkeyKind, opkeyNameOrComponent, opkeyMajorOrWorld,
      opkeyExport, hworld, hexport, hkind]

theorem inputToValue_canonical {input : InputRef} (hfits : ∀ role ∈ input.role, TextFits role)
    (levels : Nat) : Value.Canonical (levels + 2) (inputToValue input) := by
  obtain ⟨hash, role⟩ := input
  cases role with
  | none => simp [inputToValue, Rows.Ascending]
  | some role =>
    have hrole := hfits role rfl
    simp [inputToValue, Rows.Ascending, refkeyHash, inkeyRole, hrole]

theorem outputToValue_canonical {output : OutputRef} (hfits : ∀ name ∈ output.name, TextFits name)
    (levels : Nat) : Value.Canonical (levels + 2) (outputToValue output) := by
  obtain ⟨hash, size, name⟩ := output
  cases name with
  | none => simp [outputToValue, Rows.Ascending, refkeyHash, outkeySize]
  | some name =>
    have hname := hfits name rfl
    simp [outputToValue, Rows.Ascending, refkeyHash, outkeySize, outkeyName, hname]

theorem toValue_canonical {recipe : Recipe} (hfits : recipe.Fits) (levels : Nat) :
    Value.Canonical (levels + 4) (toValue recipe) := by
  have hop := opToValue_canonical hfits.op (levels + 1)
  have hinputs : ∀ input ∈ recipe.inputs, Value.Canonical (levels + 2) (inputToValue input) :=
    fun input hinput => inputToValue_canonical (hfits.roles input hinput) levels
  have houtputs : ∀ output ∈ recipe.outputs, Value.Canonical (levels + 2) (outputToValue output) :=
    fun output houtput => outputToValue_canonical (hfits.names output houtput) levels
  have hlengths := And.intro hfits.inputs hfits.outputs
  have hparams := hfits.params
  by_cases hempty : recipe.params = []
  · simp_all [toValue, Rows.Ascending, keyOp, keyInputs, keyOutputs, paramsField]
  · simp_all [toValue, Rows.Ascending, keyOp, keyInputs, keyOutputs, keyParams, paramsField]

end RecipeCodec

/-- The recipe codec is canonical. Accepted bytes are the encoding of the recipe they decode
to; and a recipe that passes validation, with a world that some spelling yields, decodes from
its encoding. Fields are within the ranges of their machine types. -/
theorem Recipe.codec_canonical :
    (∀ bytes recipe, Recipe.decode bytes = .ok recipe → recipe.encode = .ok bytes) ∧
      ∀ recipe : Recipe, recipe.Fits → recipe.validate = .ok () →
        (∀ component world exportName, recipe.op = .wasm component world exportName →
          ∃ s, World.parse s = world) →
        ∃ bytes, recipe.encode = .ok bytes ∧ Recipe.decode bytes = .ok recipe := by
  refine ⟨?_, ?_⟩
  · intro bytes recipe hdecode
    obtain ⟨hvalid, hcanonical, rfl⟩ := Recipe.decode_eq_ok.mp hdecode
    exact Recipe.encode_eq_ok hvalid.2.2 hcanonical.shaped
  · intro recipe hfits hvalidate hworld
    have hcanonical := toValue_canonical hfits (Cbor.maxDepth - 3)
    have hop : OpValid recipe.op := by
      cases hop : recipe.op with
      | builtin name major =>
        have hfields := hfits.op
        rw [hop] at hfields
        exact hfields.2
      | wasm component world exportName => exact hworld _ _ _ hop
    exact ⟨_, Recipe.encode_eq_ok hvalidate hcanonical.shaped,
      Recipe.decode_eq_ok.mpr ⟨⟨hop, hfits.sizes, hvalidate⟩, hcanonical, rfl⟩⟩

/-- A wasm recipe over a world from the future. -/
def futureRecipe : Recipe :=
  ⟨.wasm 7 (.other "datboi:transform@9") "run", [⟨1, some "in"⟩], [⟨2, 500, none⟩], [1, 2]⟩

/-- The world survives encoding verbatim. -/
theorem Recipe.codec_future :
    ∃ bytes, futureRecipe.encode = .ok bytes ∧ Recipe.decode bytes = .ok futureRecipe ∧
      futureRecipe.encode = .ok bytes := by
  have hfits : futureRecipe.Fits := by
    constructor <;> simp [futureRecipe, OpFits, TextFits] <;> decide
  obtain ⟨bytes, hencode, hdecode⟩ := Recipe.codec_canonical.2 futureRecipe hfits (by decide) (by
    intro component world exportName hop
    cases hop
    exact ⟨"datboi:transform@9", by decide⟩)
  exact ⟨bytes, hencode, hdecode, Recipe.codec_canonical.1 bytes futureRecipe hdecode⟩

end Datboi

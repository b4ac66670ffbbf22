import WasmMachine.Instance.HostFunctions
import WasmMachine.Instance.Session
import WasmMachine.Proofs.IndexSpaces
import WasmMachine.Proofs.TypeSoundness

/-! The indices of a module, as its sections declare them and as its instances have them. The phases of instantiation add
up to the imports in their order and then the declarations in theirs, so what a lookup over the sections says of an index
is what stands there in the store, then and after any calls. -/

namespace WasmMachine.Proofs.IndexAgreement
open Sequencing InstructionEffects CodeFootprint Instantiation IndexSpaces
open TypeSoundness (halt?)

section Phases

variable {offers : Imports} {module : Module} {types : List FunctionType} {m after : Machine}

theorem flatMap_only {α : Type} (kindOf : α → EntityKind) (entry : α → Entry) (items : List α) (kind : EntityKind) :
    items.flatMap (fun a => only (kindOf a) (entry a) kind) =
      (items.filter fun a => kindOf a = kind).map entry := by
  induction items with
  | nil => rfl
  | cons a others ih =>
    rw [List.flatMap_cons, ih, only, List.filter_cons]
    by_cases same : kindOf a = kind
    · simp [same]
    · simp [same]

/-- The entries for what is declared of one kind. -/
def own (module : Module) (kind other : EntityKind) : List Entry :=
  if kind = other then (declared module kind).map .made else []

/-- Steps that each make one of the declared objects. -/
theorem forM_makes {α : Type} {kind : EntityKind} {object : α → Option Object} {step : α → Run Unit} {items : List α}
    (one : ∀ a m after, m.store.types = types → step a m = .ok () after → Adds (only kind (.made (object a))) m after)
    (all : declared module kind = items.map object) (typed : m.store.types = types)
    (done : items.forM step m = .ok () after) : Adds (own module kind) m after := by
  have adds := forM_adds one items typed done
  have entries (other : EntityKind) : items.flatMap (fun a => only kind (.made (object a)) other) =
      own module kind other := by
    rw [flatMap_only (fun _ => kind), own, all, List.map_map]
    by_cases same : kind = other
    · rw [List.filter_eq_self.mpr (by simp [same]), if_pos same]
      rfl
    · simp [same]
  simpa only [entries] using adds

theorem bindImports_adds (typed : m.store.types = types) (bound : bindImports offers module m = .ok () after) :
    Adds (fun kind => (importsOf module kind).map (importEntry offers types)) m after := by
  obtain ⟨_, between, head, tail⟩ := bind_eq_ok bound
  have adds := forM_adds bindImport_adds _ typed head
  simp only [flatMap_only (fun i : Import => i.desc.kind)] at adds
  cases tail
  exact adds.keeps (sameSpaces_of_untouched (Untouched.running rfl))

theorem defineFunctions_adds (typed : m.store.types = module.types?.getD [])
    (done : defineFunctions module m = .ok () after) :
    (module.functions?.getD []).length = (module.bodies?.getD []).length ∧ Adds (own module .function) m after := by
  unfold defineFunctions at done
  dsimp only at done
  split at done
  next => cases done
  next same =>
    obtain ⟨_, between, head, tail⟩ := bind_eq_ok done
    have adds : Adds (own module .function) m between := forM_makes (fun d => defineFunction_adds d) rfl typed head
    exact ⟨Decidable.not_not.mp same, adds.keeps (keeps_of_quiet (Quiet.note _) _ _ _ tail)⟩

theorem defineTables_adds (done : (module.tables?.getD []).forM defineTable m = .ok () after) :
    Adds (own module .table) m after :=
  forM_makes (fun t m after _ => defineTable_adds t m after) rfl rfl done

theorem defineMemories_adds (done : (module.memories?.getD []).forM defineMemory m = .ok () after) :
    Adds (own module .memory) m after :=
  forM_makes (fun l m after _ => defineMemory_adds l m after) rfl rfl done

theorem defineGlobals_adds {fuel : Nat} (done : defineGlobals fuel module m = .ok () after) :
    Adds (own module .global) m after := by
  have all : declared module .global = (module.globals?.getD []).map fun d => some (.global d.type) := rfl
  unfold defineGlobals at done
  cases present : module.globals? with
  | none =>
    rw [present] at done all
    cases done
    have nothing : own module .global = fun _ => [] := by
      funext other
      simp [own, all]
    rw [nothing]
    exact Adds.none rfl (fun _ => rfl)
  | some decls =>
    rw [present] at done all
    obtain ⟨_, between, head, tail⟩ := bind_eq_ok done
    have adds : Adds (own module .global) m between :=
      forM_makes (fun d m after _ => defineGlobal_adds fuel d m after) all rfl head
    exact adds.keeps (keeps_of_quiet (Quiet.note _) _ _ _ tail)

theorem own_all (module : Module) (kind : EntityKind) :
    own module .function kind ++ own module .table kind ++ own module .memory kind ++ own module .global kind =
      (declared module kind).map .made := by
  cases kind <;> simp [own]

/-- All that instantiation adds. -/
def entries (offers : Imports) (module : Module) (kind : EntityKind) : List Entry :=
  (importsOf module kind).map (importEntry offers (module.types?.getD [])) ++ (declared module kind).map .made

/-- What comes after the declarations runs code and fills tables and memories, and names nothing. -/
theorem instantiate_adds {fuel : Nat} {exports : Exports}
    (done : module.instantiate fuel offers m = .ok exports after) :
    (module.functions?.getD []).length = (module.bodies?.getD []).length ∧
    Adds (entries offers module) { m with store := { m.store with types := module.types?.getD [] } } after := by
  obtain ⟨_, _, started, rest⟩ := bind_eq_ok done
  cases started
  obtain ⟨_, _, bound, rest⟩ := bind_eq_ok rest
  have imports := bindImports_adds rfl bound
  obtain ⟨_, _, defined, rest⟩ := bind_eq_ok rest
  obtain ⟨paired, functions⟩ := defineFunctions_adds imports.types defined
  obtain ⟨_, _, tabled, rest⟩ := bind_eq_ok rest
  obtain ⟨_, _, remembered, rest⟩ := bind_eq_ok rest
  obtain ⟨_, _, globalized, rest⟩ := bind_eq_ok rest
  have declarations := ((functions.trans (defineTables_adds tabled)).trans (defineMemories_adds remembered)).trans
    (defineGlobals_adds globalized)
  have code : Keeps (do
      let exports ← collectExports (module.exports?.getD []) {}
      runStart fuel module
      applyElements fuel 0 (module.elements?.getD [])
      applyData fuel 0 (module.data?.getD [])
      return exports) := by
    apply Keeps.bind (keeps_collectExports _ _)
    intro exports
    apply Keeps.bind (keeps_runStart fuel module)
    intro _
    apply Keeps.bind (keeps_applyElements fuel 0 _)
    intro _
    exact Keeps.bind (keeps_applyData fuel 0 _) (fun _ => keeps_of_quiet (Quiet.pure _))
  have adds := (imports.trans declarations).keeps (code _ _ _ rest)
  simp only [own_all] at adds
  exact ⟨paired, adds⟩

end Phases

section Agreement

/-- An index space that holds what it should: the index of a function means one with the type that the module declares
for it; the functions are those made for the imports and then those that the module defines; the other spaces name the
offered objects and then new ones, which are as declared. -/
structure Agrees (offers : Imports) (module : Module) (before : Heap) (m : Machine) : Prop where
  signature : ∀ index, (m.function index).toOption.map Function.type = module.functionType? index
  imported : (m.store.functions.toList.take module.importedFunctions.length).map m.heap.function? =
    (importsOf module .function).map (host? offers (module.types?.getD []))
  defined : (m.store.functions.toList.drop module.importedFunctions.length).map m.heap.function? =
    (definitions module).map (defined? (module.types?.getD []))
  paired : (module.functions?.getD []).length = (module.bodies?.getD []).length
  present : ∀ id ∈ m.store.functions, (m.heap.function? id).isSome
  named : ∀ kind, kind ≠ .function → (names m.store kind).toList.map some = (importsOf module kind).map (place? offers) ++
    (List.range' (objects before kind).size (declared module kind).length).map some
  held : ∀ kind, kind ≠ .function → (objects m.heap kind).toList.drop (objects before kind).size = declared module kind

variable {offers : Imports} {module : Module} {types : List FunctionType}

theorem functionType?_eq (module : Module) (index : UInt32) : module.functionType? index =
    (module.importedFunctions ++ module.functions?.getD [])[index.toNat]?.bind
      fun type => (module.types?.getD [])[type.toNat]? := by
  unfold Module.functionType?
  rw [List.getElem?_append]
  cases module.types? with
  | none => simp
  | some types =>
    by_cases imported : index.toNat < module.importedFunctions.length
    · simp [imported]
    · cases module.functions? with
      | none => simp [imported]
      | some indices => simp [imported]

/-- An import of a function becomes one of the type at its index, if it becomes one at all. -/
theorem host_type {i : Import} {index : UInt32} (desc : i.desc = .function index)
    (possible : host? offers types i ≠ none) : (host? offers types i).map Function.type = types[index.toNat]? := by
  rw [host?, desc] at possible ⊢
  cases offered : offers.get? i.source i.name with
  | none =>
    rw [offered] at possible
    exact absurd rfl possible
  | some offer =>
    rw [offered] at possible
    cases offer with
    | function f => simp [Function.comp_def, Function.type]
    | table | memory | global => exact absurd rfl possible

theorem host_types (imports : List Import)
    (possible : ∀ i ∈ imports, i.desc.kind = .function → host? offers types i ≠ none) :
    (imports.filter fun i => i.desc.kind = .function).map (fun i => (host? offers types i).map Function.type) =
      (imports.filterMap fun i => match i.desc with | .function type => some type | _ => none).map
        fun type => types[type.toNat]? := by
  induction imports with
  | nil => rfl
  | cons i others ih =>
    have rest := ih fun j member => possible j (List.mem_cons_of_mem _ member)
    cases desc : i.desc with
    | function index =>
      have kind : i.desc.kind = .function := by rw [desc]; rfl
      have here := host_type desc (possible i List.mem_cons_self kind)
      rw [List.filter_cons_of_pos (by simpa using kind), List.map_cons, here, rest]
      simp [desc]
    | table | memory | global =>
      have kind : i.desc.kind ≠ .function := by simp [desc, ImportDesc.kind]
      rw [List.filter_cons_of_neg (by simpa using kind), rest]
      simp [desc]

theorem defined_types (paired : (module.functions?.getD []).length = (module.bodies?.getD []).length) :
    (definitions module).map (fun d => (defined? types d).map Function.type) =
      (module.functions?.getD []).map fun type => types[type.toNat]? := by
  have indices : (definitions module).map Prod.fst = module.functions?.getD [] :=
    List.map_fst_zip (Nat.le_of_eq paired)
  rw [← indices, List.map_map]
  apply List.map_congr_left
  intro d _
  simp [defined?, Function.comp_def, Function.type]

/-- The functions in the order of their indices. -/
def functions (offers : Imports) (module : Module) : List (Option Function) :=
  (importsOf module .function).map (host? offers (module.types?.getD [])) ++
    (definitions module).map (defined? (module.types?.getD []))

theorem entries_function (offers : Imports) (module : Module) : entries offers module .function =
    ((functions offers module).map (Option.map .function)).map .made := by
  have imported : (importsOf module .function).map (importEntry offers (module.types?.getD [])) =
      (importsOf module .function).map fun i => .made ((host? offers (module.types?.getD []) i).map .function) := by
    apply List.map_congr_left
    intro i member
    have kind : i.desc.kind = .function := by simpa using (List.mem_filter.mp member).2
    rw [importEntry, if_pos kind]
  rw [entries, imported, functions, declared]
  simp [Function.comp_def]

theorem entries_other (offers : Imports) (module : Module) {kind : EntityKind} (other : kind ≠ .function) :
    entries offers module kind =
      ((importsOf module kind).map (place? offers)).map .shared ++ (declared module kind).map .made := by
  rw [entries, List.map_map]
  congr 1
  apply List.map_congr_left
  intro i member
  have same : i.desc.kind = kind := by simpa using (List.mem_filter.mp member).2
  rw [importEntry, if_neg (same ▸ other), Function.comp]

theorem places_of_new {α : Type} (old new : List (Option α)) :
    (List.range' old.length new.length).map (fun id => (old ++ new)[id]?.join) = new := by
  apply List.ext_getElem
  · simp
  · intro i _ inside
    rw [List.getElem_map, List.getElem_range', Nat.one_mul, List.getElem?_append_right (Nat.le_add_right _ _),
      Nat.add_sub_cancel_left, List.getElem?_eq_getElem inside]
    rfl

/-- The entries are all that the index spaces of this machine hold, and no function is missing. -/
structure Filled (offers : Imports) (module : Module) (before : Heap) (m : Machine) : Prop where
  paired : (module.functions?.getD []).length = (module.bodies?.getD []).length
  possible : none ∉ functions offers module
  spaces : ∀ kind, space m kind = (entries offers module kind).foldl Space.add ⟨[], (objects before kind).toList⟩

namespace Filled

variable {before : Heap} {m : Machine}

theorem functions_eq (filled : Filled offers module before m) :
    m.store.functions.toList.map m.heap.function? = functions offers module := by
  have all := filled.spaces .function
  rw [entries_function, Space.add_made] at all
  have named : m.store.functions.toList = List.range' before.functions.toList.length (functions offers module).length := by
    simpa [space, names, objects, List.map_inj_right] using congrArg Space.named all
  have held : m.heap.functions.toList = before.functions.toList ++ functions offers module := by
    have same : m.heap.functions.toList.map (Option.map Object.function) =
        (before.functions.toList ++ functions offers module).map (Option.map Object.function) := by
      simpa [space, objects] using congrArg Space.held all
    exact (List.map_inj_right fun _ _ => (Option.map_inj_right fun _ _ => Object.function.inj).mp).mp same
  have found (id : Nat) : m.heap.function? id = (before.functions.toList ++ functions offers module)[id]?.join := by
    rw [Heap.function?, ← held, Array.getElem?_toList]
  rw [named, List.map_congr_left (fun id _ => found id), places_of_new]

theorem host_ne_none (filled : Filled offers module before m) (i : Import) (member : i ∈ module.imports?.getD [])
    (kind : i.desc.kind = .function) : host? offers (module.types?.getD []) i ≠ none := by
  intro absent
  apply filled.possible
  apply List.mem_append_left
  exact List.mem_map.mpr ⟨i, List.mem_filter.mpr ⟨member, by simpa using kind⟩, absent⟩

theorem function_types (filled : Filled offers module before m) :
    (functions offers module).map (Option.map Function.type) =
      (module.importedFunctions ++ module.functions?.getD []).map fun type => (module.types?.getD [])[type.toNat]? := by
  rw [functions, List.map_append, List.map_map, List.map_map, List.map_append]
  exact congr_arg₂ _ (host_types _ filled.host_ne_none) (defined_types filled.paired)

theorem imports_length (filled : Filled offers module before m) :
    (importsOf module .function).length = module.importedFunctions.length := by
  have same := congrArg List.length (host_types _ filled.host_ne_none)
  rw [List.length_map, List.length_map] at same
  exact same

theorem signature (filled : Filled offers module before m) (index : UInt32) :
    (m.function index).toOption.map Function.type = module.functionType? index := by
  have found : (m.function index).toOption = (functions offers module)[index.toNat]?.join := by
    rw [← filled.functions_eq, List.getElem?_map, Array.getElem?_toList]
    unfold Machine.function
    cases m.store.functions[index.toNat]? with
    | none => rfl
    | some id =>
      cases held : m.heap.function? id with
      | none => simp [held, Machine.found, Except.toOption]
      | some f => simp [held, Machine.found, Except.toOption]
  have typed := congrArg (fun types => types[index.toNat]?.join) filled.function_types
  simp only [List.getElem?_map] at typed
  rw [functionType?_eq, found]
  calc (functions offers module)[index.toNat]?.join.map Function.type
    _ = ((functions offers module)[index.toNat]?.map (Option.map Function.type)).join := by
      cases (functions offers module)[index.toNat]? <;> rfl
    _ = _ := typed
    _ = _ := by cases (module.importedFunctions ++ module.functions?.getD [])[index.toNat]? <;> rfl

theorem agrees (filled : Filled offers module before m) : Agrees offers module before m where
  signature := filled.signature
  imported := by
    rw [List.map_take, filled.functions_eq, ← filled.imports_length]
    simp [functions]
  defined := by
    rw [List.map_drop, filled.functions_eq, ← filled.imports_length]
    simp [functions]
  paired := filled.paired
  present id member := by
    have listed : m.heap.function? id ∈ functions offers module := by
      rw [← filled.functions_eq]
      exact List.mem_map_of_mem (Array.mem_toList_iff.mpr member)
    exact Option.isSome_iff_ne_none.mpr fun absent => filled.possible (absent ▸ listed)
  named kind other := by
    have all := congrArg Space.named (filled.spaces kind)
    rw [entries_other _ _ other, List.foldl_append, Space.add_shared, Space.add_made] at all
    simpa [space] using all
  held kind other := by
    have all := congrArg Space.held (filled.spaces kind)
    rw [entries_other _ _ other, List.foldl_append, Space.add_shared, Space.add_made] at all
    have all : (objects m.heap kind).toList = (objects before kind).toList ++ declared module kind := all
    rw [all, ← Array.length_toList, List.drop_left]

end Filled

end Agreement

section Later

/-- A call that the host makes, of an exported function or by an index. -/
inductive Invocation : Run (Option Value) → Prop where
  | named (fuel : Nat) (exports : Exports) (name : String) (args : List Value) :
    Invocation (exports.invoke fuel name args)
  | indexed (fuel : Nat) (index : UInt32) (type : Option FunctionType) (args : List Value) :
    Invocation (Run.call fuel index type args)

theorem invocation_untouched {r : Run (Option Value)} (call : Invocation r) : Within Untouched r := by
  cases call with
  | named fuel exports name args =>
    unfold Exports.invoke
    split
    · exact untouched_law.quiet (Quiet.trap _)
    · apply untouched_law.bind (untouched_law.quiet (Quiet.look _))
      intro f
      exact untouched_law.bind (untouched_law.quiet (Quiet.note _)) (fun _ => invoke_untouched fuel f f.type args)
  | indexed fuel index type args =>
    exact untouched_law.bind (untouched_law.quiet (Quiet.look _)) (fun f => invoke_untouched fuel f (type.getD f.type) args)

/-- The states of an instance after calls of it and of others that share the heap, however the calls end. -/
inductive Later (m : Machine) : Machine → Prop where
  | now : Later m m
  | called {n : Machine} {r : Run (Option Value)} (later : Later m n) (call : Invocation r) (journal : Journal)
    (usage : Usage) : Later m (final (r { n with journal, usage }))
  | elsewhere {n : Machine} {r : Run (Option Value)} (later : Later m n) (call : Invocation r) (other : Machine)
    (shared : other.heap = n.heap) : Later m { n with heap := (final (r other)).heap }

theorem later_sameSpaces {m n : Machine} (later : Later m n) : SameSpaces m n := by
  induction later with
  | now => exact ⟨rfl, fun _ => rfl⟩
  | @called n r _ call journal usage ih =>
    have kept := invocation_untouched call { n with journal, usage }
    exact ih.trans ⟨kept.store.types, (sameSpaces_of_untouched kept).spaces⟩
  | elsewhere _ call other shared ih =>
    have kept := (invocation_untouched call other).heap
    refine ih.trans (sameSpaces_of_objects fun kind => ?_)
    rw [← shared]
    exact objects_of_same kept kind

variable {fuel : Nat} {offers : Imports} {module : Module} {heap : Heap} {config : Config} {journal : Journal}
  {usage : Usage} {exports : Exports} {made later : Machine}

theorem filled_of_instantiate
    (done : module.instantiate fuel offers ⟨heap, Store.create config, journal, usage⟩ = .ok exports made)
    (same : SameSpaces made later) : Filled offers module heap later := by
  obtain ⟨paired, adds⟩ := instantiate_adds done
  refine ⟨paired, ?_, ?_⟩
  · intro absent
    have missing : Entry.made none ∈ entries offers module .function := by
      rw [entries_function]
      exact List.mem_map_of_mem (List.mem_map_of_mem absent)
    exact adds.possible .function missing
  · intro kind
    rw [same.spaces, adds.spaces]
    cases kind <;> rfl

/-- Whatever was called since: the sections of a module say what the indices of its instance mean. -/
theorem index_spaces_agree
    (done : module.instantiate fuel offers ⟨heap, Store.create config, journal, usage⟩ = .ok exports made)
    (after : Later made later) : Agrees offers module heap later :=
  (filled_of_instantiate done (later_sameSpaces after)).agrees

/-- Functions are imported on both sides of a table and a global; a second table is declared, and the only defined
function is bound to a slot of the offered one. -/
def mixed : Module where
  sections := [
    .types [⟨[], [.i32]⟩, ⟨[.i32], [.i32]⟩],
    .imports [⟨"env", "guess", .function 0⟩, ⟨"env", "slots", .table ⟨.funcref, ⟨1, none⟩⟩⟩,
      ⟨"env", "base", .global ⟨.i32, true⟩⟩, ⟨"env", "echo", .function 1⟩],
    .functions [1],
    .tables [⟨.funcref, ⟨2, none⟩⟩],
    .exports [⟨"ask", .function, 2⟩],
    .elements [⟨0, .funcref, .active 0 (.op (.const 0) .nil), .functions [2]⟩],
    .bodies [⟨[], .op (.localGet 0) (.op (.globalSet 0) (.op (.call 0) (.op (.call 1) .nil)))⟩]]

def mixedHeap : Heap where
  tables := #[⟨.funcref, ⟨1, none⟩, #[none], by decide⟩]
  globals := #[⟨⟨.i32, true⟩, .i32 0, true⟩]

def mixedOffers : Imports where
  entries := [(("env", "guess"), .function (.constant "env.guess" (some (.i32 5)))), (("env", "slots"), .table 0),
    (("env", "base"), .global 0), (("env", "echo"), .function (.argument "env.echo" 0))]

def mixedStart : Machine := { heap := mixedHeap, store := Store.create {} }

/-- After a call that has set the offered global. -/
theorem mixed_indices_agree : ∃ exports made later,
    mixed.instantiate 9 mixedOffers mixedStart = .ok exports made ∧ Later made later ∧
    later.heap.globals[0]?.map Global.value = some (.i32 3) ∧ Agrees mixedOffers mixed mixedHeap later := by
  have ends : halt? (mixed.instantiate 9 mixedOffers mixedStart) = none := by decide +kernel
  have set : (final ((mixed.instantiate 9 mixedOffers >>= fun exports => exports.invoke 9 "ask" [.i32 3])
      mixedStart)).heap.globals[0]?.map Global.value = some (.i32 3) := by decide +kernel
  cases done : mixed.instantiate 9 mixedOffers mixedStart with
  | error halt after =>
    rw [done] at ends
    cases ends
  | ok exports made =>
    have called : (mixed.instantiate 9 mixedOffers >>= fun exports => exports.invoke 9 "ask" [.i32 3]) mixedStart =
        exports.invoke 9 "ask" [.i32 3] made := bind_of_ok done
    rw [called] at set
    have later : Later made (final (exports.invoke 9 "ask" [.i32 3] made)) :=
      .called .now (.named 9 exports "ask" [.i32 3]) made.journal made.usage
    exact ⟨exports, made, _, rfl, later, set, index_spaces_agree done later⟩

end Later

end WasmMachine.Proofs.IndexAgreement

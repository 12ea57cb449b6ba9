import BinaryCodec.Proofs.Schema.Size

namespace BinaryCodec

def Shape.structural : Shape → Shape
  | .message steps => .record (steps.map Step.toField)
  | shape => shape

def Registry.structural (registry : Registry) : Registry :=
  registry.map fun declared => (declared.1, ⟨declared.2.title, declared.2.shape.structural⟩)

namespace Registry

variable {registry : Registry} {name : String}

theorem lookup_structural (registry : Registry) (name : String) :
    registry.structural.lookup name = (registry.lookup name).map fun declaration =>
      ⟨declaration.title, declaration.shape.structural⟩ := by
  induction registry with
  | nil => rfl
  | cons declared rest ih =>
    unfold structural at ih ⊢
    rw [List.map_cons, List.lookup_cons, List.lookup_cons, ih]
    cases name == declared.1 <;> rfl

theorem shape?_structural (registry : Registry) (name : String) :
    registry.structural.shape? name = (registry.shape? name).map Shape.structural := by
  unfold shape?
  rw [lookup_structural, Option.map_map, Option.map_map]
  rfl

theorem shape?_structural_of_shape? {shape : Shape} (declared : registry.shape? name = some shape) :
    registry.structural.shape? name = some shape.structural := by
  rw [shape?_structural, declared]
  rfl

theorem length_structural (registry : Registry) : registry.structural.length = registry.length :=
  List.length_map ..

theorem coherent_structural (registry : Registry) : registry.structural.Coherent := by
  apply coherent_of_derived
  intro declaration member steps shape
  obtain ⟨declared, -, rfl⟩ := List.mem_map.mp member
  cases same : declared.2.shape <;> rw [same] at shape <;> cases shape

end Registry

theorem Shape.fields?_structural (shape : Shape) : shape.structural.fields? = shape.fields? := by
  cases shape <;> rfl

namespace Schema

variable {registry : Registry} {schema : Schema} {v : Value}

theorem typeName_structural (schema : Schema) :
    schema.typeName registry.structural = schema.typeName registry := by
  have titles (name : String) : (registry.structural.lookup name).map Declaration.title =
      (registry.lookup name).map Declaration.title := by
    rw [Registry.lookup_structural, Option.map_map]
    rfl
  apply typeName.induct (fun s => s.typeName registry.structural = s.typeName registry)
    fun items => typeNames registry.structural items = typeNames registry items
  case case27 => rfl
  case case28 =>
    intro item rest ih more
    change _ :: _ = _ :: _
    rw [ih, more]
  all_goals
    intros
    rw [typeName.eq_def, typeName.eq_def registry] <;> simp only [*]

theorem Conforms.structural {demand : Demand} (conforms : Conforms registry demand schema v) :
    Conforms registry.structural demand schema v := by
  induction conforms with
  | leaf leaf holds => exact .leaf leaf holds
  | sequence bounded each ih => exact .sequence bounded ih
  | array counted each ih => exact .array counted ih
  | set bounded listed each ih => exact .set bounded listed ih
  | map bounded listed keys values keyIh valueIh => exact .map bounded listed keyIh valueIh
  | pointer pointed ih => exact .pointer ih
  | absent allowed => exact .absent allowed
  | present inner ih => exact .present ih
  | tuple paired each ih => exact .tuple paired ih
  | record declared found paired skipped each ih =>
    rw [← Shape.fields?_structural] at found
    exact .record (Registry.shape?_structural_of_shape? declared) found paired skipped ih
  | variant declared found bounded paired skipped each ih =>
    exact .variant (Registry.shape?_structural_of_shape? declared) found bounded paired skipped ih
  | choice declared found bounded =>
    exact .choice (Registry.shape?_structural_of_shape? declared) found bounded

theorem Layout.structural {front : List UInt8} {parts : List (Schema × Value)}
    (layout : Layout registry schema v front parts) :
    Layout registry.structural schema v front parts := by
  cases layout with
  | sequence => exact .sequence
  | array => exact .array
  | set => exact .set
  | map => exact .map
  | tuple => exact .tuple
  | record declared found =>
    rw [← Shape.fields?_structural] at found
    exact .record (Registry.shape?_structural_of_shape? declared) found
  | variant declared found => exact .variant (Registry.shape?_structural_of_shape? declared) found
  | choice declared => exact .choice (Registry.shape?_structural_of_shape? declared)

theorem leafOutput_structural (leaf : schema.isLeaf = true) (v : Value) :
    leafOutput registry.structural schema v = leafOutput registry schema v := by
  cases schema with
  | sequence | array | set | map | pointer | option | tuple | named => cases leaf
  | unsupported target => simp only [leafOutput, typeName_structural]
  | _ => cases v <;> rfl

theorem same_encodeParts {other : Registry} {parts : List (Schema × Value)}
    (each : ∀ p ∈ parts, (encode registry p.1 p.2).Same (encode other p.1 p.2)) :
    (encodeParts registry parts).Same (encodeParts other parts) := by
  induction parts with
  | nil => exact .refl _
  | cons part rest ih =>
    have first := each part (List.mem_cons_self ..)
    exact first.append (ih fun p member => each p (List.mem_cons_of_mem _ member))

theorem same_encode_structural (coherent : registry.Coherent) (typed : HasType registry schema v) :
    (encode registry schema v).Same (encode registry.structural schema v) := by
  induction typed using HasType.inductionOn with
  | leaf schema v typed leaf =>
    rw [encode_leaf leaf, encode_leaf leaf, leafOutput_structural leaf]
    exact .refl _
  | pointer kind target v pointed ih => rwa [encode_pointer, encode_pointer]
  | absent item =>
    have names : (Schema.option item).typeName registry.structural =
        (Schema.option item).typeName registry := typeName_structural _
    change (Output.fail (.nullReference _)).Same (.fail (.nullReference _))
    rw [names]
    exact .refl _
  | present item v inner ih => exact ih
  | composed schema v front parts typed layout each =>
    have all : (encodeParts registry parts).Same (encodeParts registry.structural parts) :=
      same_encodeParts fun p member => (each p member).2
    have written := layout.encode_same coherent typed
    have restated := layout.structural.encode_same (Registry.coherent_structural registry)
      (Conforms.structural typed)
    exact (written.trans ((Output.Same.refl _).append all)).trans restated.symm

theorem minSizeNamed_structural (fuel : Nat) :
    minSizeNamed registry.structural fuel = minSizeNamed registry fuel := by
  induction fuel with
  | zero => rfl
  | succ fuel ih =>
    funext name
    unfold minSizeNamed
    rw [Registry.shape?_structural, ih]
    cases registry.shape? name with
    | none => rfl
    | some shape => cases shape <;> rfl

theorem minSize_structural (schema : Schema) :
    schema.minSize registry.structural = schema.minSize registry := by
  unfold minSize
  rw [Registry.length_structural, minSizeNamed_structural]

end Schema

end BinaryCodec

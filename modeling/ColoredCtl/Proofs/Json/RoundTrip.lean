import ColoredCtl.Check.Config
import ColoredCtl.Formula.Format
import ColoredCtl.Proofs.Json.Omission
import Mathlib.Data.Option.Basic

/-!
What is written is read back.

Formulas, directions, atoms, strategies and configurations are read as they were written, also when fields that have
their defaults are left out. The one exception are thresholds that are not finite numbers: they have no JSON form, and
what is written for a formula with one of them is rejected.
-/

namespace ColoredCtl

open Json

/-! ### Constants -/

theorem PathQuantifier.ofJson?_toJson (nested : Bool) (q : PathQuantifier) : ofJson? nested q.toJson = .some q := by
  cases q <;> rfl

theorem Facet.ofJson?_toJson (nested : Bool) (f : Facet) : ofJson? nested f.toJson = some f := by
  cases f <;> rfl

theorem Facet.optionalOfJson?_toJson (nested : Bool) (f : Option Facet) :
    optionalOfJson? nested ((f.map toJson).getD .null) = some f := by
  cases f with
  | none => rfl
  | some f => cases f <;> rfl

theorem Flow.ofJson?_toJson (nested : Bool) (f : Flow) : ofJson? nested f.toJson = some f := by
  cases f <;> rfl

theorem Comparison.ofJson?_toJson (nested : Bool) (c : Comparison) : ofJson? nested c.toJson = some c := by
  cases c <;> rfl

theorem Transport.ofJson?_toJson (t : Transport) : ofJson? t.toJson = some t := by
  cases t <;> rfl

/-- The fields of a formula that may be missing. -/
def Formula.defaults : List (String × Json) := [("time_flow", .bool true), ("weak", .bool false), ("facet", .null)]

/-- What is read further with a value that may have been rejected. -/
theorem bind_of_finite {α β : Type} (finite : Bool) (a : α) (next : α → Option β) :
    (if finite then some a else none).bind next = if finite then next a else none := by
  split <;> rfl

/-! ### Atoms -/

namespace Atom

/-- Whether the threshold, if there is one, is a finite number. -/
def finite : Atom → Bool
  | .float _ _ threshold => threshold.isFinite
  | .transition _ _ _ => true

theorem real?_ofReal (x : Binary64) : (Json.ofReal x).real? = if x.isFinite then some x else none := by
  unfold Json.ofReal
  split <;> rfl

theorem isScalar_ofReal (x : Binary64) : (Json.ofReal x).isScalar = true := by
  unfold Json.ofReal
  split <;> rfl

theorem ofJson?_of_omits (a : Atom) (nested : Bool) {k : Json} (hk : Omits Formula.defaults a.toJson k) :
    ofJson? nested k = if a.finite then some a else none := by
  cases a with
  | float name comparison threshold =>
    obtain ⟨gs, rfl, h⟩ := hk.exists_trims (by simp)
    have hkind := h.variant? "kind" ["float", "transition"] rfl rfl (by simp) nested
    simp only [ofJson?, hkind, floatOfJson?, Option.bind_eq_bind, Option.bind_some, if_true,
      h.fieldOf_scalar "variable" rfl (ne_default rfl) rfl, h.fieldOf_scalar "cmp" rfl (ne_default rfl) rfl,
      h.fieldOf_scalar "threshold" rfl (ne_default rfl) (isScalar_ofReal threshold), Comparison.ofJson?_toJson,
      real?_ofReal, string?, bind_of_finite]
    rfl
  | transition name flow facet =>
    obtain ⟨gs, rfl, h⟩ := hk.exists_trims (by simp)
    have hkind := h.variant? "kind" ["float", "transition"] rfl rfl (by simp) nested
    have hfacet : Formula.defaults.lookup "facet" ≠ some facet.toJson := by
      intro hnull
      cases hnull
    simp only [ofJson?, hkind, transitionOfJson?, Option.bind_eq_bind, Option.bind_some,
      h.fieldOf_scalar "name" rfl (ne_default rfl) rfl, h.fieldOf_scalar "flow" rfl (ne_default rfl) rfl,
      h.fieldOf_scalar "facet" rfl hfacet rfl, Flow.ofJson?_toJson, Facet.ofJson?_toJson, string?]
    rfl

end Atom

/-! ### Directions and formulas -/

/-- The fields of an operation, and what a reader with enough fuel finds first. -/
theorem Json.Omits.exists_operation {op : String} {fields : List (String × Json)} {k : Json} {fuel : Nat}
    (hk : Omits Formula.defaults (operation op fields) k) (hfuel : k.depth ≤ fuel) {ops : List String}
    {fieldNames : String → List String} (hnodup : ∀ op ∈ ops, ("op" :: fieldNames op).Nodup) (hop : op ∈ ops)
    (hfields : fields.map (·.1) = fieldNames op) :
    ∃ gs rest, k = .object gs ∧ fuel = rest + 1 ∧ depthFields gs ≤ rest ∧
      Trims Formula.defaults (("op", .string op) :: fields) gs ∧
      ∀ nested, variant? nested "op" ops (.object gs) = some (op, .object gs) := by
  have hnames := hnodup op hop
  rw [← hfields] at hnames
  obtain ⟨gs, rfl, h⟩ := Omits.exists_trims hk hnames
  rw [depth] at hfuel
  obtain ⟨rest, rfl⟩ : ∃ rest, fuel = rest + 1 := ⟨fuel - 1, by omega⟩
  exact ⟨gs, rest, rfl, rfl, by omega, h, h.variant? "op" ops List.lookup_cons_self rfl hop⟩

namespace Direction

theorem nodup_fieldNames : ∀ op ∈ ops, ("op" :: fieldNames op).Nodup := by decide

/-- By induction on the direction: its parts are read with the fuel that is left. -/
theorem read_of_omits (d : Direction) {fuel : Nat} (nested : Bool) {k : Json}
    (hk : Omits Formula.defaults d.toJson k) (hfuel : k.depth ≤ fuel) : read fuel nested k = some d := by
  induction d generalizing fuel nested k with
  | top | bottom | loop =>
    obtain ⟨gs, fuel, rfl, rfl, -, -, hop⟩ := hk.exists_operation hfuel nodup_fieldNames (by decide) rfl
    rw [read, hop]
    rfl
  | along name facet =>
    obtain ⟨gs, fuel, rfl, rfl, -, h, hop⟩ := hk.exists_operation hfuel nodup_fieldNames (by decide) rfl
    have hscalar : ((facet.map Facet.toJson).getD .null).isScalar = true := by cases facet <;> rfl
    have hfacet : fieldOr (fieldNames "atom") "facet" none (Facet.optionalOfJson? true) (.object gs) = some facet :=
      h.fieldOr "facet" rfl rfl (rigid_of_isScalar hscalar) (Facet.optionalOfJson?_toJson true facet)
    rw [read, hop]
    dsimp only [Option.bind_eq_bind, Option.bind_some]
    simp only [Option.bind_some, string?, hfacet,
      h.fieldOf_scalar "name" rfl (ne_default rfl) rfl]
    rfl
  | not inner ih =>
    obtain ⟨gs, fuel, rfl, rfl, hdepth, h, hop⟩ := hk.exists_operation hfuel nodup_fieldNames (by decide) rfl
    rw [read, hop]
    dsimp only [Option.bind_eq_bind, Option.bind_some]
    simp only [Option.bind_some,
      h.fieldOf "inner" rfl (ne_default rfl) hdepth fun _ => ih true]
    rfl
  | and left right ihl ihr | or left right ihl ihr =>
    obtain ⟨gs, fuel, rfl, rfl, hdepth, h, hop⟩ := hk.exists_operation hfuel nodup_fieldNames (by decide) rfl
    rw [read, hop]
    dsimp only [Option.bind_eq_bind, Option.bind_some]
    simp only [Option.bind_some,
      h.fieldOf "left" rfl (ne_default rfl) hdepth fun _ => ihl true,
      h.fieldOf "right" rfl (ne_default rfl) hdepth fun _ => ihr true]
    rfl

theorem ofJson?_of_omits (d : Direction) (nested : Bool) {k : Json} (hk : Omits Formula.defaults d.toJson k) :
    ofJson? nested k = some d :=
  d.read_of_omits nested hk (Nat.le_refl _)

end Direction

theorem Course.ofFields?_of_trims (c : Course) {names : List String} {fs gs : List (String × Json)}
    (h : Trims Formula.defaults fs gs) (hdirection : fs.lookup "direction" = some c.direction.toJson)
    (hforward : fs.lookup "time_flow" = some (.bool c.forward)) : ofFields? names (.object gs) = some c := by
  have htime : fieldOr names "time_flow" true bool? (.object gs) = some c.forward :=
    h.fieldOr "time_flow" rfl hforward (rigid_of_isScalar rfl) rfl
  have hread : fieldOf names "direction" (Direction.ofJson? true) (.object gs) = some c.direction :=
    h.fieldOf "direction" hdirection (ne_default rfl) (Nat.le_refl _) fun _ hk _ => c.direction.ofJson?_of_omits true hk
  simp only [ofFields?, htime, hread]
  rfl

namespace Formula

/-- Whether all thresholds in the formula are finite numbers. -/
def finite : Formula → Bool
  | .top | .bottom | .reference _ => true
  | .atom a => a.finite
  | .not inner | .next _ _ inner | .bind _ inner | .jump _ inner => inner.finite
  | .and left right | .or left right | .implies left right | .equal left right => left.finite && right.finite
  | .hold _ _ _ path reach => path.finite && reach.finite
  | .forAll _ bound inner | .forSome _ bound inner => bound.finite && inner.finite

theorem nodup_fieldNames : ∀ op ∈ ops, ("op" :: fieldNames op).Nodup := by decide

/-- By induction on the formula: its parts are read with the fuel that is left, and one that is rejected makes the
whole rejected. -/
theorem read_of_omits (f : Formula) {fuel : Nat} (nested : Bool) {k : Json} (hk : Omits defaults f.toJson k)
    (hfuel : k.depth ≤ fuel) : read fuel nested k = if f.finite then some f else none := by
  induction f generalizing fuel nested k with
  | top | bottom =>
    obtain ⟨gs, fuel, rfl, rfl, -, -, hop⟩ := hk.exists_operation hfuel nodup_fieldNames (by decide) rfl
    rw [read, hop]
    rfl
  | atom a =>
    obtain ⟨gs, fuel, rfl, rfl, hdepth, h, hop⟩ := hk.exists_operation hfuel nodup_fieldNames (by decide) rfl
    rw [read, hop]
    dsimp only [Option.bind_eq_bind, Option.bind_some]
    simp only [bind_of_finite,
      h.fieldOf "atom" rfl (ne_default rfl) hdepth fun _ hk _ => a.ofJson?_of_omits true hk]
    rfl
  | reference name =>
    obtain ⟨gs, fuel, rfl, rfl, -, h, hop⟩ := hk.exists_operation hfuel nodup_fieldNames (by decide) rfl
    rw [read, hop]
    dsimp only [Option.bind_eq_bind, Option.bind_some]
    simp only [Option.bind_some, string?,
      h.fieldOf_scalar "name" rfl (ne_default rfl) rfl]
    rfl
  | not inner ih =>
    obtain ⟨gs, fuel, rfl, rfl, hdepth, h, hop⟩ := hk.exists_operation hfuel nodup_fieldNames (by decide) rfl
    rw [read, hop]
    dsimp only [Option.bind_eq_bind, Option.bind_some]
    simp only [bind_of_finite, h.fieldOf "inner" rfl (ne_default rfl) hdepth fun _ => ih true]
    rfl
  | and left right ihl ihr | or left right ihl ihr | implies left right ihl ihr | equal left right ihl ihr =>
    obtain ⟨gs, fuel, rfl, rfl, hdepth, h, hop⟩ := hk.exists_operation hfuel nodup_fieldNames (by decide) rfl
    rw [read, hop]
    dsimp only [Option.bind_eq_bind, Option.bind_some]
    simp only [bind_of_finite, finite, Bool.and_eq_true, ite_and,
      h.fieldOf "left" rfl (ne_default rfl) hdepth fun _ => ihl true,
      h.fieldOf "right" rfl (ne_default rfl) hdepth fun _ => ihr true]
    rfl
  | next quantifier course inner ih =>
    obtain ⟨gs, fuel, rfl, rfl, hdepth, h, hop⟩ := hk.exists_operation hfuel nodup_fieldNames (by decide) rfl
    rw [read, hop]
    dsimp only [Option.bind_eq_bind, Option.bind_some]
    simp only [Option.bind_some, bind_of_finite,
      h.fieldOf_scalar "quantifier" rfl (ne_default rfl) rfl, PathQuantifier.ofJson?_toJson,
      course.ofFields?_of_trims h rfl rfl, h.fieldOf "inner" rfl (ne_default rfl) hdepth fun _ => ih true]
    rfl
  | hold quantifier weak course path reach ihp ihr =>
    obtain ⟨gs, fuel, rfl, rfl, hdepth, h, hop⟩ := hk.exists_operation hfuel nodup_fieldNames (by decide) rfl
    have hweak : fieldOr (fieldNames "until") "weak" false bool? (.object gs) = some weak :=
      h.fieldOr "weak" rfl rfl (rigid_of_isScalar rfl) rfl
    rw [read, hop]
    dsimp only [Option.bind_eq_bind, Option.bind_some]
    simp only [Option.bind_some, bind_of_finite, finite, Bool.and_eq_true, ite_and,
      h.fieldOf_scalar "quantifier" rfl (ne_default rfl) rfl, PathQuantifier.ofJson?_toJson, hweak,
      course.ofFields?_of_trims h rfl rfl, h.fieldOf "path" rfl (ne_default rfl) hdepth fun _ => ihp true,
      h.fieldOf "reach" rfl (ne_default rfl) hdepth fun _ => ihr true]
    rfl
  | bind name inner ih | jump name inner ih =>
    obtain ⟨gs, fuel, rfl, rfl, hdepth, h, hop⟩ := hk.exists_operation hfuel nodup_fieldNames (by decide) rfl
    rw [read, hop]
    dsimp only [Option.bind_eq_bind, Option.bind_some]
    simp only [Option.bind_some, bind_of_finite,
      h.fieldOf_scalar "name" rfl (ne_default rfl) rfl, string?,
      h.fieldOf "inner" rfl (ne_default rfl) hdepth fun _ => ih true]
    rfl
  | forAll name bound inner ihb ihi | forSome name bound inner ihb ihi =>
    obtain ⟨gs, fuel, rfl, rfl, hdepth, h, hop⟩ := hk.exists_operation hfuel nodup_fieldNames (by decide) rfl
    rw [read, hop]
    dsimp only [Option.bind_eq_bind, Option.bind_some]
    simp only [Option.bind_some, bind_of_finite, finite, Bool.and_eq_true, ite_and,
      h.fieldOf_scalar "name" rfl (ne_default rfl) rfl, string?,
      h.fieldOf "bound" rfl (ne_default rfl) hdepth fun _ => ihb true,
      h.fieldOf "inner" rfl (ne_default rfl) hdepth fun _ => ihi true]
    rfl

theorem ofJson?_of_omits (f : Formula) {k : Json} (hk : Omits defaults f.toJson k) :
    ofJson? k = if f.finite then some f else none :=
  f.read_of_omits false hk (Nat.le_refl _)

end Formula

/-! ### Configurations -/

theorem Span.ofJson?_toJson (r : Span) : ofJson? r.toJson = some r := rfl

theorem Strategy.ofJson?_toJson (s : Strategy) : ofJson? s.toJson = some s := by
  cases s with
  | hash | block size | uniform => rfl
  | interval ranges =>
    have hranges : (ranges.map Span.toJson).mapM Span.ofJson? = some ranges := by
      induction ranges with
      | nil => rfl
      | cons r ranges ih => simp [List.mapM_cons, Span.ofJson?_toJson, ih]
    change ((ranges.map Span.toJson).mapM Span.ofJson?).bind (some ∘ interval) = some (interval ranges)
    rw [hranges]
    rfl

namespace Config

/-- The fields of the default configuration. -/
def defaults : List (String × Json) :=
  match toJson {} with
  | .object fields => fields
  | _ => []

theorem rigid_span (r : Span) : Rigid defaults r.toJson :=
  rigid_object_cons rfl (rigid_of_isScalar rfl) (rigid_object_cons rfl (rigid_of_isScalar rfl) rigid_object_nil)

/-- A strategy has no field with the name of one of a configuration. -/
theorem rigid_strategy (s : Strategy) : Rigid defaults s.toJson := by
  cases s with
  | hash | uniform => exact rigid_object_cons rfl (rigid_of_isScalar rfl) rigid_object_nil
  | block size =>
    exact rigid_object_cons rfl (rigid_of_isScalar rfl) (rigid_object_cons rfl (rigid_of_isScalar rfl) rigid_object_nil)
  | interval ranges =>
    have hranges : Rigid defaults (.array (ranges.map Span.toJson)) := by
      apply rigid_array
      intro j hj
      obtain ⟨r, _, rfl⟩ := List.mem_map.1 hj
      exact rigid_span r
    exact rigid_object_cons rfl (rigid_of_isScalar rfl) (rigid_object_cons rfl hranges rigid_object_nil)

theorem ofJson?_of_omits (c : Config) {k : Json} (hk : Omits defaults c.toJson k) : ofJson? k = some c := by
  obtain ⟨gs, rfl, h⟩ := hk.exists_trims (by decide : (defaults.map (·.1)).Nodup)
  have hpartitions names : fieldOr names "partitions" 1 nat? (.object gs) = some c.partitions :=
    h.fieldOr "partitions" rfl rfl (rigid_of_isScalar rfl) rfl
  have hstrategy names : fieldOr names "strategy" .uniform Strategy.ofJson? (.object gs) = some c.strategy :=
    h.fieldOr "strategy" rfl rfl (rigid_strategy c.strategy) (Strategy.ofJson?_toJson c.strategy)
  have htransport names : fieldOr names "transport" .shared Transport.ofJson? (.object gs) = some c.transport :=
    h.fieldOr "transport" rfl rfl (rigid_of_isScalar rfl) (Transport.ofJson?_toJson c.transport)
  have hparallel names : fieldOr names "parallel" false bool? (.object gs) = some c.parallel :=
    h.fieldOr "parallel" rfl rfl (rigid_of_isScalar rfl) rfl
  have hthreads names : fieldOr names "num_threads" 0 nat? (.object gs) = some c.threads :=
    h.fieldOr "num_threads" rfl rfl (rigid_of_isScalar rfl) rfl
  have hthreshold names : fieldOr names "parallel_threshold" 4096 nat? (.object gs) = some c.threshold :=
    h.fieldOr "parallel_threshold" rfl rfl (rigid_of_isScalar rfl) rfl
  simp only [ofJson?, hpartitions, hstrategy, htransport, hparallel, hthreads, hthreshold]
  rfl

end Config

/-! ### The formats together -/

/-- Every format is read as it was written, except that a formula or an atom with a threshold that is not finite is
rejected. Leaving out fields that have their defaults, at any places, does not change what is read. -/
theorem written_read_back :
    (∀ f : Formula, (Formula.ofJson? f.toJson = if f.finite then some f else none) ∧
      ∀ k, Omits Formula.defaults f.toJson k → Formula.ofJson? k = Formula.ofJson? f.toJson) ∧
    (∀ (d : Direction) (nested : Bool), Direction.ofJson? nested d.toJson = some d ∧
      ∀ k, Omits Formula.defaults d.toJson k → Direction.ofJson? nested k = Direction.ofJson? nested d.toJson) ∧
    (∀ (a : Atom) (nested : Bool), (Atom.ofJson? nested a.toJson = if a.finite then some a else none) ∧
      ∀ k, Omits Formula.defaults a.toJson k → Atom.ofJson? nested k = Atom.ofJson? nested a.toJson) ∧
    (∀ s : Strategy, Strategy.ofJson? s.toJson = some s) ∧
    (∀ c : Config, Config.ofJson? c.toJson = some c ∧
      ∀ k, Omits Config.defaults c.toJson k → Config.ofJson? k = Config.ofJson? c.toJson) := by
  refine ⟨fun f => ?_, fun d nested => ?_, fun a nested => ?_, Strategy.ofJson?_toJson, fun c => ?_⟩
  · have hwritten := f.ofJson?_of_omits (.same _)
    exact ⟨hwritten, fun k hk => (f.ofJson?_of_omits hk).trans hwritten.symm⟩
  · have hwritten := d.ofJson?_of_omits nested (.same _)
    exact ⟨hwritten, fun k hk => (d.ofJson?_of_omits nested hk).trans hwritten.symm⟩
  · have hwritten := a.ofJson?_of_omits nested (.same _)
    exact ⟨hwritten, fun k hk => (a.ofJson?_of_omits nested hk).trans hwritten.symm⟩
  · have hwritten := c.ofJson?_of_omits (.same _)
    exact ⟨hwritten, fun k hk => (c.ofJson?_of_omits hk).trans hwritten.symm⟩

/-- A strong until forward along `x`, with a threshold on the path. -/
def Formula.keepsAbove (threshold : Binary64) : Formula :=
  .hold .some false ⟨.along "x" none, true⟩ (.atom (.float "x" .ge threshold)) .top

/-- The JSON form of the until without the fields that have their defaults. -/
def Formula.keepsAboveBrief (threshold : Binary64) : Json :=
  operation "until" [("quantifier", .string "exists"), ("direction", operation "atom" [("name", .string "x")]),
    ("path", toJson (.atom (.float "x" .ge threshold))), ("reach", toJson .top)]

/-- The threshold `-0.0` keeps its sign, and a NaN is rejected. -/
theorem written_read_back_keepsAbove :
    Formula.ofJson? (Formula.keepsAboveBrief (.zero true)) = some (Formula.keepsAbove (.zero true)) ∧
      Formula.ofJson? (Formula.keepsAboveBrief .nan) = none ∧
      Config.ofJson? (.object [("partitions", .natural 3)]) = some { partitions := 3 } := by
  have hbrief (threshold : Binary64) :
      Omits Formula.defaults (Formula.keepsAbove threshold).toJson (Formula.keepsAboveBrief threshold) :=
    .object (.keep (.same _) (.keep (.same _) (.drop rfl
      (.keep (.object (.keep (.same _) (.keep (.same _) (.drop rfl .nil))))
        (.drop rfl (.keep (.same _) (.keep (.same _) .nil)))))))
  have hthree : Omits Config.defaults (Config.toJson { partitions := 3 }) (.object [("partitions", .natural 3)]) :=
    .object (.keep (.same _) (.drop rfl (.drop rfl (.drop rfl (.drop rfl (.drop rfl .nil))))))
  obtain ⟨hformula, -, -, -, hconfig⟩ := written_read_back
  refine ⟨?_, ?_, ?_⟩
  · rw [(hformula _).2 _ (hbrief _), (hformula _).1]
    decide
  · rw [(hformula _).2 _ (hbrief _), (hformula _).1]
    decide
  · rw [(hconfig _).2 _ hthree, (hconfig _).1]

end ColoredCtl

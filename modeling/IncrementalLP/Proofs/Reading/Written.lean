import IncrementalLP.Proofs.Instance.Tables
import IncrementalLP.Problem.Parts
/-!
# Written records

What is written of numbers, rows, columns and layouts is read back as it was, if a float that is
listed among the numbers is one and the width of a range row is proper.
-/
namespace IncrementalLP

/-- Only floats that are numbers are listed as such. -/
def Extended.Sorted (v : Extended Float) : Prop := ∀ x, v = .finite x → Scalar.isFinite x = true

instance : DecidablePred Extended.Sorted
  | .finite x => decidable_of_iff (Scalar.isFinite x = true)
    ⟨fun h _ heq => Extended.finite.inj heq ▸ h, fun h => h x rfl⟩
  | .negInf | .posInf | .nan => .isTrue nofun

theorem Extended.sorted_ofScalar (x : Float) : (Extended.ofScalar x).Sorted := by
  unfold Extended.ofScalar
  split
  · next h =>
    rintro _ ⟨⟩
    exact h
  · split
    · nofun
    · split <;> nofun

private theorem Extended.ofScalar_toScalar {v : Extended Float} (h : v.Sorted) :
    Extended.ofScalar v.toScalar = v := by
  cases v with
  | finite x => rw [toScalar, ofScalar, if_pos (h x rfl)]
  | negInf => decide +kernel
  | posInf => decide +kernel
  | nan => decide +kernel

namespace Reading

private theorem number_toValue {v : Extended Float} (h : v.Sorted) : number v.toValue = .ok v :=
  congrArg Validated.ok (Extended.ofScalar_toScalar h)

private theorem optional_number_toValue {v : Option (Extended Float)} (h : ∀ w ∈ v, w.Sorted) :
    optional number ((v.map (·.toValue)).getD .null) = .ok v := by
  cases v with
  | none => rfl
  | some w => exact congrArg (Validated.map some) (number_toValue (h w rfl))

private theorem optional_text_ofName (name : Option String) :
    optional text (.ofName name) = .ok name := by
  cases name <;> rfl

theorem list_map {β : Type} {read : Value → Validated β} {write : β → Value} {l : List β}
    (h : ∀ b ∈ l, read (write b) = .ok b) : list read (.list (l.map write)) = .ok l := by
  have hall (k : ℕ) : Validated.all (((l.map write).zipIdx k).map fun e =>
      (read e.1).within (toString e.2)) = .ok l := by
    induction l generalizing k with
    | nil => rfl
    | cons b l ih =>
        obtain ⟨hb, hl⟩ := List.forall_mem_cons.mp h
        rw [List.map_cons, List.zipIdx_cons, List.map_cons, Validated.all, ih hl (k + 1)]
        simp only [hb]
        rfl
  exact hall 0

private theorem sense_symbol (s : RowSense Float) :
    choice senseSymbols senseOfSymbol? (.text s.symbol) =
      .ok (match s with
        | .range _ => .range (.finite 0)
        | s => s) := by
  cases s <;> rfl

section

variable {β : Type} {v x : Value} {name : String} {read : Value → Validated β} {b default : β}

theorem required_eq (hfield : v.field? name = some x) (hread : read x = .ok b) :
    required v name read = .ok b := by
  rw [required, hfield]
  simp only [hread]
  rfl

private theorem field_eq (hfield : v.field? name = some x) (hread : read x = .ok b) :
    field v name read default = .ok b := by
  rw [field, hfield]
  simp only [hread]
  rfl

end

theorem row_toValue {r : Row Float} (hproper : r.Proper) (hrhs : r.rhs.Sorted)
    (hwidth : ∀ w ∈ r.sense.width?, w.Sorted) : row r.toValue = .ok r := by
  have hsense : required r.toValue "sense" (choice senseSymbols senseOfSymbol?) = .ok _ :=
    required_eq rfl (sense_symbol r.sense)
  have hrhs : required r.toValue "rhs" number = .ok r.rhs :=
    required_eq rfl (number_toValue hrhs)
  have hrange : field r.toValue "range_value" (optional number) none = .ok r.sense.width? :=
    field_eq rfl (optional_number_toValue hwidth)
  have hname : field r.toValue "name" (optional text) none = .ok r.name :=
    field_eq rfl (optional_text_ofName r.name)
  have hrow : row r.toValue = Validated.andThen
      ((fun s b w n => (s, b, w, n))
        <$> required r.toValue "sense" (choice senseSymbols senseOfSymbol?)
        <*> required r.toValue "rhs" number
        <*> field r.toValue "range_value" (optional number) none
        <*> field r.toValue "name" (optional text) none)
      fun e => rowOf e.1 e.2.1 e.2.2.1 e.2.2.2 := rfl
  rw [hrow, hsense, hrhs, hrange, hname]
  obtain ⟨sense, rhs, name⟩ := r
  cases sense with
  | range w =>
      obtain ⟨hnumber, hnonneg⟩ := hproper w rfl
      show rowOf (.range (.finite 0)) rhs (some w) name = _
      rw [rowOf, hnumber, hnonneg]
      rfl
  | _ => rfl

theorem column_toValue {c : Column Float} (hobjective : c.objective.Sorted)
    (hlower : c.lower.Sorted) (hupper : c.upper.Sorted) : column c.toValue = .ok c := by
  have hobjective : field c.toValue "objective" number (.finite 0) = .ok c.objective :=
    field_eq rfl (number_toValue hobjective)
  have hlower : field c.toValue "lb" number (.finite 0) = .ok c.lower :=
    field_eq rfl (number_toValue hlower)
  have hupper : field c.toValue "ub" number .posInf = .ok c.upper :=
    field_eq rfl (number_toValue hupper)
  have hname : field c.toValue "name" (optional text) none = .ok c.name :=
    field_eq rfl (optional_text_ofName c.name)
  have hcolumn : column c.toValue = Column.mk <$> field c.toValue "objective" number (.finite 0)
      <*> field c.toValue "lb" number (.finite 0)
      <*> field c.toValue "ub" number .posInf
      <*> field c.toValue "name" (optional text) none := rfl
  rw [hcolumn, hobjective, hlower, hupper, hname]
  rfl

theorem layout_toValue {d : ColumnLayout} (h : ∀ v ∈ d.values, v.Sorted) :
    layout d.toValue = .ok d := by
  have hstarts : required d.toValue "column_start" (list integer) = .ok d.starts :=
    required_eq rfl (list_map fun _ _ => rfl)
  have hrows : field d.toValue "row_index" (list integer) [] = .ok d.rows :=
    field_eq rfl (list_map fun _ _ => rfl)
  have hvalues : field d.toValue "coefficient" (list number) [] = .ok d.values :=
    field_eq rfl (list_map fun v hv => number_toValue (h v hv))
  have hcount : field d.toValue "num_rows" (optional integer) none = .ok d.numRows := by
    refine field_eq rfl ?_
    cases d.numRows <;> rfl
  have hlayout : layout d.toValue = ColumnLayout.mk <$>
      required d.toValue "column_start" (list integer)
      <*> field d.toValue "row_index" (list integer) []
      <*> field d.toValue "coefficient" (list number) []
      <*> field d.toValue "num_rows" (optional integer) none := rfl
  rw [hlayout, hstarts, hrows, hvalues, hcount]
  rfl

end Reading

end IncrementalLP

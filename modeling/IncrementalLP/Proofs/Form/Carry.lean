import IncrementalLP.Proofs.Form.Layout
import IncrementalLP.Proofs.Simplex.Extension
import IncrementalLP.Simplex.Solve
/-!
# Bases carried to larger forms

A form may hold an earlier one by its labels. A stored basis of the earlier form then has its
place in the larger one, where it is regular, and dominant if it was dominant before.
-/
namespace IncrementalLP.StandardForm

open Program

/-- The second form holds the rows and columns of the first one, up to the signs of columns, and
its other rows and columns stand apart from them. -/
structure Extends (f g : StandardForm ℚ) (ε : Fin f.columns.length → ℚ) : Prop where
  labels : f.labels.Nodup
  rowLabels : f.rowLabels.Nodup
  newLabels : g.labels.Nodup
  newRowLabels : g.rowLabels.Nodup
  row : ∀ r ∈ f.rows, ∃ r' ∈ g.rows, r'.label = r.label
  column : ∀ j, ∃ c ∈ g.columns, c.label = (f.columns.get j).label ∧
    c.cost = (f.columns.get j).cost ∧
    ∀ r ∈ f.rows, c.entry r.label = ε j * (f.columns.get j).entry r.label
  fresh : ∀ c ∈ g.columns, c.label ∉ f.labels → c.cost = 0 ∧ ∀ r ∈ f.rows, c.entry r.label = 0
  natural : ∀ r ∈ g.rows, r.label ∉ f.rowLabels → r.natural.label ∉ f.labels ∧
    r.natural.entry r.label ≠ 0 ∧ ∀ l, l ≠ r.label → r.natural.entry l = 0

namespace Extends

variable {f g : StandardForm ℚ} {ε : Fin f.columns.length → ℚ}

private theorem label_mem (j : Fin f.columns.length) : (f.columns.get j).label ∈ f.labels :=
  List.mem_map_of_mem (List.get_mem f.columns j)

private theorem rowLabel_mem (k : Fin f.rows.length) : (f.rows.get k).label ∈ f.rowLabels :=
  List.mem_map_of_mem (List.get_mem f.rows k)

/-- Where the rows and columns of the first form are in the second one. -/
theorem exists_places (h : Extends f g ε) :
    ∃ (row : Fin f.rows.length → Fin g.rows.length)
      (column : Fin f.columns.length → Fin g.columns.length),
      (∀ k, (g.rows.get (row k)).label = (f.rows.get k).label) ∧
      (∀ j, (g.columns.get (column j)).label = (f.columns.get j).label) ∧
      ∀ {q : Program ℚ f.rows.length f.columns.length}, SignChange f.program q ε →
        q.Extension g.program row column := by
  have hrow : ∀ k, ∃ k', (g.rows.get k').label = (f.rows.get k).label := by
    intro k
    obtain ⟨r, hr, hlabel⟩ := h.row _ (List.get_mem f.rows k)
    obtain ⟨k', rfl⟩ := List.mem_iff_get.mp hr
    exact ⟨k', hlabel⟩
  have hcolumn : ∀ j, ∃ j', (g.columns.get j').label = (f.columns.get j).label ∧
      (g.columns.get j').cost = (f.columns.get j).cost ∧
      ∀ r ∈ f.rows, (g.columns.get j').entry r.label =
        ε j * (f.columns.get j).entry r.label := by
    intro j
    obtain ⟨c, hc, hspec⟩ := h.column j
    obtain ⟨j', rfl⟩ := List.mem_iff_get.mp hc
    exact ⟨j', hspec⟩
  choose row hrow using hrow
  choose column hlabel hcost hentry using hcolumn
  have hnew : ∀ j, (∀ j', column j' ≠ j) → (g.columns.get j).label ∉ f.labels := by
    intro j hj hmem
    obtain ⟨c, hc, heq⟩ := List.mem_map.mp hmem
    obtain ⟨j', rfl⟩ := List.mem_iff_get.mp hc
    exact hj j' (place_ext h.newLabels ((hlabel j').trans heq))
  refine ⟨row, column, hrow, hlabel, fun {q} hε => ?_⟩
  refine ⟨?_, ?_, ?_, ?_, ?_, ?_, ?_⟩
  · intro k l hkl
    apply row_ext h.rowLabels
    rw [← hrow, ← hrow, hkl]
  · intro j l hjl
    apply place_ext h.labels
    rw [← hlabel, ← hlabel, hjl]
  · intro k j
    rw [matrix_apply, hrow, hentry _ _ (List.get_mem f.rows k), hε.column, matrix_apply]
  · intro j
    rw [get_cost, hcost, hε.cost, get_cost]
  · intro j
    rw [get_barred, hlabel, hε.barred, get_barred]
  · intro j hj k
    rw [matrix_apply, hrow]
    exact (h.fresh _ (List.get_mem g.columns j) (hnew j hj)).2 _ (List.get_mem f.rows k)
  · intro j hj
    rw [get_cost]
    exact (h.fresh _ (List.get_mem g.columns j) (hnew j hj)).1

/-- The rows of the second form that the first one does not have. -/
private def added (f g : StandardForm ℚ) : List (Fin g.rows.length) :=
  (List.finRange g.rows.length).filter fun k => !f.rowLabels.contains (g.rows.get k).label

private theorem mem_added {k : Fin g.rows.length} :
    k ∈ added f g ↔ (g.rows.get k).label ∉ f.rowLabels := by
  simp [added]

private theorem length_added (h : Extends f g ε)
    {row : Fin f.rows.length → Fin g.rows.length}
    (hrow : ∀ k, (g.rows.get (row k)).label = (f.rows.get k).label) :
    f.rows.length + (added f g).length = g.rows.length := by
  have hinjective : Function.Injective row := by
    intro k l hkl
    apply row_ext h.rowLabels
    rw [← hrow, ← hrow, hkl]
  have hperm : ((List.finRange g.rows.length).filter fun k =>
      f.rowLabels.contains (g.rows.get k).label).Perm ((List.finRange f.rows.length).map row) := by
    rw [List.perm_ext_iff_of_nodup ((List.nodup_finRange _).filter _)
      ((List.nodup_finRange _).map hinjective)]
    intro k
    simp only [List.mem_filter, List.mem_finRange, true_and, List.contains_iff_mem, List.mem_map]
    constructor
    · intro hmem
      obtain ⟨r, hr, heq⟩ := List.mem_map.mp hmem
      obtain ⟨l, rfl⟩ := List.mem_iff_get.mp hr
      exact ⟨l, row_ext h.newRowLabels ((hrow l).trans heq)⟩
    · rintro ⟨l, rfl⟩
      rw [hrow]
      exact rowLabel_mem l
  have hlength := hperm.length_eq
  rw [List.length_map, List.length_finRange] at hlength
  have hsplit := List.length_eq_length_filter_add (l := List.finRange g.rows.length)
    fun k => f.rowLabels.contains (g.rows.get k).label
  rw [List.length_finRange, hlength] at hsplit
  exact hsplit.symm

theorem mapM_place? {column : Fin f.columns.length → Fin g.columns.length}
    (hg : g.labels.Nodup)
    (hcolumn : ∀ j, (g.columns.get (column j)).label = (f.columns.get j).label)
    (l : List (Fin f.columns.length)) :
    (l.map fun j => (f.columns.get j).label).mapM g.place? = some (l.map column) := by
  induction l with
  | nil => rfl
  | cons j l ih =>
      rw [List.map_cons, List.mapM_cons, ih, ← hcolumn j, place?_label hg]
      rfl

private theorem natural_spec (h : Extends f g ε)
    {row : Fin f.rows.length → Fin g.rows.length}
    {column : Fin f.columns.length → Fin g.columns.length}
    (hrow : ∀ k, (g.rows.get (row k)).label = (f.rows.get k).label)
    (hcolumn : ∀ j, (g.columns.get (column j)).label = (f.columns.get j).label) :
    (∀ k, (∀ k', row k' ≠ k) ↔ k ∈ added f g) ∧
      g.program.Natural row column g.naturalPlace := by
  have hnew : ∀ k, (∀ k', row k' ≠ k) ↔ (g.rows.get k).label ∉ f.rowLabels := by
    intro k
    constructor
    · intro hk hmem
      obtain ⟨r, hr, heq⟩ := List.mem_map.mp hmem
      obtain ⟨l, rfl⟩ := List.mem_iff_get.mp hr
      exact hk l (row_ext h.newRowLabels ((hrow l).trans heq))
    · rintro hnot k' rfl
      rw [hrow] at hnot
      exact hnot (rowLabel_mem k')
  refine ⟨fun k => (hnew k).trans mem_added.symm, ?_, ?_, ?_⟩
  · intro k hk j hj
    have hfresh := (h.natural _ (List.get_mem g.rows k) ((hnew k).mp hk)).1
    rw [← get_naturalPlace h.newLabels, ← hj, hcolumn] at hfresh
    exact hfresh (label_mem j)
  · intro k hk
    rw [matrix_apply, get_naturalPlace h.newLabels]
    exact (h.natural _ (List.get_mem g.rows k) ((hnew k).mp hk)).2.1
  · intro k hk l hlk
    rw [matrix_apply, get_naturalPlace h.newLabels]
    apply (h.natural _ (List.get_mem g.rows k) ((hnew k).mp hk)).2.2
    intro hlabel
    exact hlk (row_ext h.newRowLabels hlabel)

private theorem nodup_toList {m n : ℕ} {β : Basis m n} (hβ : Function.Injective β.get) :
    β.toList.Nodup := by
  have hlist : β.toList = List.ofFn β.get := by
    apply List.ext_getElem
    · simp
    · intro k hk hk'
      rw [List.getElem_ofFn, Vector.getElem_toList]
      rfl
  rw [hlist]
  exact List.nodup_ofFn.mpr hβ

/-- The places of a stored basis: those of its columns, and those of the natural columns of the
new rows. -/
private def places (f g : StandardForm ℚ) (column : Fin f.columns.length → Fin g.columns.length)
    (β : Basis f.rows.length f.columns.length) : List (Fin g.columns.length) :=
  β.toList.map column ++ (added f g).map g.naturalPlace

section

variable {row : Fin f.rows.length → Fin g.rows.length}
  {column : Fin f.columns.length → Fin g.columns.length}
  {β : Basis f.rows.length f.columns.length} {q : Program ℚ f.rows.length f.columns.length}

private theorem mem_places (hadded : ∀ k, (∀ k', row k' ≠ k) ↔ k ∈ added f g)
    (j : Fin g.columns.length) : j ∈ places f g column β ↔ (∃ k, column (β.get k) = j) ∨
      ∃ k, (∀ k', row k' ≠ k) ∧ g.naturalPlace k = j := by
  simp only [places, List.mem_append, List.mem_map, hadded, Vector.mem_toList_iff]
  constructor
  · rintro (⟨c, hc, rfl⟩ | hnew)
    · obtain ⟨k, rfl⟩ := Basis.mem_iff.mp hc
      exact Or.inl ⟨k, rfl⟩
    · exact Or.inr hnew
  · rintro (⟨k, rfl⟩ | hnew)
    · exact Or.inl ⟨_, β.get_mem k, rfl⟩
    · exact Or.inr hnew

private theorem nodup_places (hextension : q.Extension g.program row column)
    (hadded : ∀ k, (∀ k', row k' ≠ k) ↔ k ∈ added f g)
    (hnatural : g.program.Natural row column g.naturalPlace) (hβ : Function.Injective β.get) :
    (places f g column β).Nodup := by
  rw [places, List.nodup_append]
  refine ⟨(nodup_toList hβ).map hextension.column_injective, ?_, ?_⟩
  · apply List.Nodup.map_on _ ((List.nodup_finRange _).filter _)
    intro k hk l hl hkl
    by_contra hne
    have hentry := hnatural.entry k ((hadded k).mpr hk)
    rw [hkl] at hentry
    exact hentry (hnatural.single l ((hadded l).mpr hl) k hne)
  · intro c hc d hd hcd
    obtain ⟨j, -, rfl⟩ := List.mem_map.mp hc
    obtain ⟨k, hk, rfl⟩ := List.mem_map.mp hd
    exact hnatural.fresh k ((hadded k).mpr hk) j hcd

end

/-- A stored basis has its place in the larger form. It is regular there, and dominant if it was
dominant before. -/
theorem exists_warmStart (h : Extends f g ε) {q : Program ℚ f.rows.length f.columns.length}
    (hε : SignChange f.program q ε) {β : Basis f.rows.length f.columns.length}
    (hβ : q.Regular β) (signs : Vector ℚ f.columns.length) :
    ∃ γ, g.warmStart? (f.payload β signs) = some γ ∧ g.program.Regular γ ∧
      (q.Dominant β → g.program.Costless → g.program.Dominant γ) := by
  obtain ⟨row, column, hrow, hcolumn, hextension⟩ := h.exists_places
  obtain ⟨hadded, hnatural⟩ := h.natural_spec hrow hcolumn
  have hextension := hextension hε
  have hplaces : g.warmPlaces? (f.payload β signs) = some (places f g column β) := by
    unfold warmPlaces?
    rw [payload, mapM_place? h.newLabels hcolumn]
    rfl
  have hlength : (places f g column β).length = g.rows.length := by
    simp only [places, List.length_append, List.length_map, Vector.length_toList]
    exact h.length_added hrow
  have hnodup := nodup_places hextension hadded hnatural hβ.injective
  let γ : Basis g.rows.length g.columns.length := ⟨(places f g column β).toArray, hlength⟩
  have hγmem : ∀ j, j ∈ γ ↔ j ∈ places f g column β := by
    intro j
    rw [← Vector.mem_toList_iff]
    rfl
  have hcarried : Carried β row column g.naturalPlace γ :=
    fun j => (hγmem j).trans (mem_places hadded j)
  have hγ : Function.Injective γ.get := by
    intro k l hkl
    have hk : (k : ℕ) < (places f g column β).length := lt_of_lt_of_eq k.isLt hlength.symm
    have hl : (l : ℕ) < (places f g column β).length := lt_of_lt_of_eq l.isLt hlength.symm
    have hget : (places f g column β).get ⟨k, hk⟩ = (places f g column β).get ⟨l, hl⟩ := hkl
    exact Fin.ext (Fin.mk.inj_iff.mp (List.nodup_iff_injective_get.mp hnodup hget))
  refine ⟨γ, ?_, hextension.regular hnatural hcarried hγ hβ,
    fun hdominant hcost => hextension.dominant hnatural hcarried hγ hcost hdominant⟩
  unfold warmStart?
  rw [hplaces]
  exact dif_pos hlength

end Extends

end IncrementalLP.StandardForm

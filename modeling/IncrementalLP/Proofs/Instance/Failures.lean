import IncrementalLP.Proofs.Instance.Calls
import IncrementalLP.Proofs.Instance.History
/-!
# Failed calls

A call that is refused leaves the instance as it was. A change of costs is the exception, since its
last check comes while it sets them.
-/
namespace IncrementalLP.Instance

open IncrementalLP.Action

variable {α : Type} [Scalar α]

/-- Loading, naming, appending and changes of bounds and direction are done as a whole or not at
all, whatever is handed in and wherever a batch of it fails. -/
theorem state_eq_of_failure (i : Instance α) (f : Fault α) :
    (∀ d, (load d i).answer = .error f → (load d i).state = i) ∧
      (∀ kind names first last, (assignNames kind names first last i).answer = .error f →
        (assignNames kind names first last i).state = i) ∧
      (∀ row entries, (addRow row entries i).answer = .error f →
        (addRow row entries i).state = i) ∧
      (∀ rows entries, (addRows rows entries i).answer = .error f →
        (addRows rows entries i).state = i) ∧
      (∀ columns count starts rows values,
        (addColumns columns count starts rows values i).answer = .error f →
          (addColumns columns count starts rows values i).state = i) ∧
      (∀ changes, (changeBounds changes i).answer = .error f →
        (changeBounds changes i).state = i) ∧
      ∀ sense, (changeSense sense i).answer = .error f → (changeSense sense i).state = i :=
  ⟨fun d => load_atomic d i f,
    fun kind names first last => assignNames_atomic kind names first last i f,
    fun row entries => addRow_atomic row entries i f,
    fun rows entries => addRows_atomic rows entries i f,
    fun columns count starts rows values => addColumns_atomic columns count starts rows values i f,
    fun changes => changeBounds_atomic changes i f,
    fun sense => changeSense_atomic sense i f⟩

/-- The sample problem refuses a batch of rows for its second row, and changes of bounds for the
second of them. -/
theorem state_eq_of_failure_sample :
    let i := Sample.ofParts .max Sample.parts
    let batch := addRows [Sample.cut.row, { Sample.cut.row with name := none }]
      (.ok [.ok ⟨.ok (.integers [0, 1]), .ok [.finite 6, .finite 1]⟩,
        .ok ⟨.ok (.integers [2]), .ok [.finite 1]⟩]) i
    let bounds := changeBounds
      (.ok [.ok ⟨.ok (.whole 0), .ok (.finite 1), .ok .posInf⟩,
        .ok ⟨.ok (.whole 1), .ok .posInf, .ok .posInf⟩]) i
    batch.answer = .error (.columnOutside 5 2 2) ∧ batch.state = i ∧
      bounds.answer = .error (.unattainableBounds ⟨.column, .whole 1, none⟩ .posInf .posInf) ∧
      bounds.state = i := by
  intro i batch bounds
  have hbatch : batch.answer = .error (.columnOutside 5 2 2) := by rfl
  have hbounds : bounds.answer =
      .error (.unattainableBounds ⟨.column, .whole 1, none⟩ .posInf .posInf) := by rfl
  obtain ⟨-, -, -, hrows, -, -, -⟩ := state_eq_of_failure i (.columnOutside 5 2 2)
  obtain ⟨-, -, -, -, -, hchanges, -⟩ := state_eq_of_failure i
    (.unattainableBounds ⟨.column, .whole 1, none⟩ .posInf .posInf)
  exact ⟨hbatch, hrows _ _ hbatch, hbounds, hchanges _ hbounds⟩

omit [Scalar α] in
private theorem setCost_fails {s : Ordinal α × Extended α} {i j : Instance α} {f : Fault α} :
    Fails (setCost s) i j f ↔ s.1.whole? = none ∧ f = .misread .notAPosition ∧ j = i := by
  simp only [setCost, fails_lift_bind, not_fails_modify, and_false, exists_false, or_false]
  unfold columnPosition
  cases s.1.whole? <;> simp [eq_comm, and_comm]

private theorem changeObjective_fails {changes : Offer (List (Offer (CostChange α)))}
    {i j : Instance α} {f : Fault α} (h : Fails (changeObjective changes) i j f) :
    j = i ∨
      ∃ offers done bad rest ks, changes = .ok offers ∧
        offers.mapM (checkedCost i.numColumns) = .ok (done ++ bad :: rest) ∧
        done.mapM (fun s => columnPosition (α := α) s.1) = .ok ks ∧ bad.1.whole? = none ∧
        f = .misread .notAPosition ∧
        j = { i with
          columns := (ks.zip done).foldl
            (fun cs s => cs.modify s.1 fun c => { c with objective := s.2.2 }) i.columns } := by
  simp only [changeObjective, fails_get_bind, fails_lift_bind, accept_eq_ok] at h
  -- the three checks come before anything is set
  obtain ⟨rfl, -⟩ | ⟨_, -, ⟨rfl, -⟩ | ⟨offers, hoffers, ⟨rfl, -⟩ | ⟨staged, hstaged, h⟩⟩⟩ := h
  · exact Or.inl rfl
  · exact Or.inl rfl
  · exact Or.inl rfl
  · obtain hset | ⟨t, _, -, hlose⟩ := fails_bind.mp h
    · obtain ⟨done, bad, rest, t, rfl, hdone, hbad⟩ := fails_forEach.mp hset
      obtain ⟨ks, hks, rfl⟩ := forEach_setCost_returns.mp hdone
      obtain ⟨hwhole, rfl, rfl⟩ := setCost_fails.mp hbad
      exact Or.inr ⟨offers, done, bad, rest, ks, hoffers, hstaged, hks, hwhole, rfl, rfl⟩
    · exact absurd hlose (((sure_loseBasis _).ite (sure_pure _)).not_fails t j f)

private theorem column_of_checkedCost {count : ℕ} {offer : Offer (CostChange α)}
    {s : Ordinal α × Extended α} (h : checkedCost count offer = .ok s) :
    ∃ change, offer = .ok change ∧ change.column = .ok s.1 := by
  simp only [checkedCost, bind_eq_ok, accept_eq_ok] at h
  obtain ⟨change, rfl, ordinal, hordinal, cost, -, hcost⟩ := h
  simp only [checkedColumn, bind_eq_ok, accept_eq_ok] at hordinal
  obtain ⟨o, ho, hbelow⟩ := hordinal
  split at hbelow
  · rw [pure_eq_ok] at hbelow
    split at hcost
    · rw [pure_eq_ok] at hcost
      rw [← hcost, ← hbelow]
      exact ⟨change, rfl, ho⟩
    · exact absurd hcost throw_ne_ok
  · exact absurd hbelow throw_ne_ok

/-- A change of costs that fails leaves everything but the costs as it was. It leaves the costs as
they were as well, unless all of the batch passes its checks and has a real number for an ordinal:
then exactly the costs before the first such ordinal are set. -/
theorem changeObjective_failure (changes : Offer (List (Offer (CostChange α)))) (i : Instance α)
    (f : Fault α) (h : (changeObjective changes i).answer = .error f) :
    (changeObjective changes i).state =
        { i with columns := (changeObjective changes i).state.columns } ∧
      ((∀ offers change ordinal, changes = .ok offers → .ok change ∈ offers →
          change.column = .ok ordinal → ordinal.whole? ≠ none) →
        (changeObjective changes i).state = i) ∧
      ((changeObjective changes i).state = i ∨
        ∃ offers done bad rest ks, changes = .ok offers ∧
          offers.mapM (checkedCost i.numColumns) = .ok (done ++ bad :: rest) ∧
          done.mapM (fun s => columnPosition (α := α) s.1) = .ok ks ∧ bad.1.whole? = none ∧
          f = .misread .notAPosition ∧
          (changeObjective changes i).state.columns = (ks.zip done).foldl
            (fun cs s => cs.modify s.1 fun c => { c with objective := s.2.2 }) i.columns) := by
  obtain heq | ⟨offers, done, bad, rest, ks, hoffers, hstaged, hks, hbad, hf, hstate⟩ :=
    changeObjective_fails ⟨rfl, h⟩
  · exact ⟨by rw [heq], fun _ => heq, Or.inl heq⟩
  · refine ⟨by rw [hstate], fun hwhole => ?_, Or.inr ?_⟩
    · obtain ⟨offer, hoffer, hchecked⟩ :=
        forall_of_mapM hstaged bad (List.mem_append_right done List.mem_cons_self)
      obtain ⟨change, rfl, hcolumn⟩ := column_of_checkedCost hchecked
      exact absurd hbad (hwhole offers change bad.1 hoffers hoffer hcolumn)
    · exact ⟨offers, done, bad, rest, ks, hoffers, hstaged, hks, hbad, hf, by rw [hstate]⟩

/-- The sample problem refuses new costs for its first column and for a third one. -/
theorem changeObjective_failure_sample :
    let i := Sample.ofParts .max Sample.parts
    let costs := changeObjective
      (.ok [.ok ⟨.ok (.whole 0), .ok (.finite 7)⟩, .ok ⟨.ok (.whole 2), .ok (.finite 7)⟩]) i
    costs.answer = .error (.noSuchColumn (.whole 2) 2) ∧ costs.state = i := by
  intro i costs
  have hcosts : costs.answer = .error (.noSuchColumn (.whole 2) 2) := by rfl
  obtain ⟨-, hsame, -⟩ := changeObjective_failure _ i _ hcosts
  refine ⟨hcosts, hsame ?_⟩
  rintro offers change ordinal hoffers hchange hcolumn
  obtain rfl := Except.ok.inj hoffers
  simp only [List.mem_cons, List.not_mem_nil, or_false, Except.ok.injEq] at hchange
  obtain rfl | rfl := hchange
  · obtain rfl := Except.ok.inj hcolumn
    exact Option.some_ne_none _
  · obtain rfl := Except.ok.inj hcolumn
    exact Option.some_ne_none _

/-- A real number that comes second and names the second column is found out when the first cost is
set. -/
theorem changeObjective_half_done :
    let i := Sample.ofParts .max Sample.parts
    let costs := changeObjective
      (.ok [.ok ⟨.ok (.whole 0), .ok (.finite 7)⟩,
        .ok ⟨.ok (.real (.finite 1)), .ok (.finite 7)⟩]) i
    costs.answer = .error (.misread .notAPosition) ∧
      i.columns.map (·.objective) = [.finite 2, .finite 1] ∧
      costs.state.columns.map (·.objective) = [.finite 7, .finite 1] := by
  refine ⟨rfl, ?_, ?_⟩ <;> decide +kernel

end IncrementalLP.Instance

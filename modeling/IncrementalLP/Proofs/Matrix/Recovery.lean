import IncrementalLP.Matrix.Runs
import Mathlib
/-!
# Recovery of columns

The checks of a layout look at flat lists and have to say which column is to blame. A step between
starts stands at the place of its column. An entry belongs to the column whose number is repeated
beside it. Once entries are sorted by columns and rows, those that are listed twice stand side by
side. In each case the column that is found is the least one.
-/
namespace IncrementalLP

section

variable {ε : Type} {l : List ε}

theorem isChain_iff_getElem? {R : ε → ε → Prop} :
    l.IsChain R ↔ ∀ c a b, l[c]? = some a → l[c + 1]? = some b → R a b := by
  rw [List.isChain_iff_getElem]
  constructor
  · intro h c a b ha hb
    obtain ⟨hc, rfl⟩ := List.getElem?_eq_some_iff.mp hb
    obtain ⟨-, rfl⟩ := List.getElem?_eq_some_iff.mp ha
    exact h c hc
  · intro h c hc
    exact h c _ _ (List.getElem?_eq_getElem _) (List.getElem?_eq_getElem hc)

theorem isLeast_of_findIdx? {p : ε → Bool} {k : ℕ} (h : l.findIdx? p = some k) :
    IsLeast {c | ∃ x, l[c]? = some x ∧ p x = true} k := by
  obtain ⟨hk, hp, hbefore⟩ := List.findIdx?_eq_some_iff_getElem.mp h
  refine ⟨⟨_, List.getElem?_eq_getElem hk, hp⟩, ?_⟩
  rintro c ⟨x, hx, hpx⟩
  by_contra hlt
  obtain ⟨hc, rfl⟩ := List.getElem?_eq_some_iff.mp hx
  exact hbefore c (not_le.mp hlt) hpx

private theorem duplicate_iff_count [BEq ε] [LawfulBEq ε] {x : ε} :
    l.Duplicate x ↔ 2 ≤ l.count x := by
  rw [List.duplicate_iff_sublist, ← List.replicate_sublist_iff]
  rfl

end

namespace Runs

@[simp] theorem leastRepeated?_eq_none {xs : List ℤ} : leastRepeated? xs = none ↔ xs.Nodup := by
  rw [leastRepeated?, List.min?_eq_none_iff, List.filter_eq_nil_iff, List.nodup_iff_count_le_one]
  constructor
  · intro h x
    by_cases hx : x ∈ xs
    · simpa using h x hx
    · rw [List.count_eq_zero_of_not_mem hx]
      exact Nat.zero_le 1
  · intro h x _
    simpa using h x

theorem getElem?_steps {starts : List Int64} {c : ℕ} {d : Int64} :
    (steps starts)[c]? = some d ↔
      ∃ a b, starts[c]? = some a ∧ starts[c + 1]? = some b ∧ b - a = d := by
  induction starts generalizing c with
  | nil => simp [steps]
  | cons a starts ih =>
      cases starts with
      | nil => simp [steps]
      | cons b starts =>
          cases c with
          | zero => simp [steps]
          | succ c => rw [steps, List.getElem?_cons_succ, ih]; rfl

theorem forall_mem_steps {starts : List Int64} {p : Int64 → Prop} :
    (∀ d ∈ steps starts, p d) ↔ starts.IsChain fun a b => p (b - a) := by
  rw [isChain_iff_getElem?]
  simp only [List.mem_iff_getElem?, getElem?_steps]
  constructor
  · intro h c a b ha hb
    exact h _ ⟨c, a, b, ha, hb, rfl⟩
  · rintro h _ ⟨c, a, b, ha, hb, rfl⟩
    exact h c a b ha hb

variable {ε : Type} {lengths : List ℕ}

theorem map_length_cut {xs : List ε} (h : lengths.sum ≤ xs.length) :
    (cut lengths xs).map List.length = lengths := by
  induction lengths generalizing xs with
  | nil => rfl
  | cons n lengths ih =>
      rw [List.sum_cons] at h
      rw [cut, List.map_cons, List.length_take, ih (by rw [List.length_drop]; omega)]
      congr 1
      omega

theorem flatten_cut (lengths : List ℕ) (xs : List ε) :
    (cut lengths xs).flatten = xs.take lengths.sum := by
  induction lengths generalizing xs with
  | nil => simp [cut]
  | cons n lengths ih => rw [cut, List.flatten_cons, ih, List.sum_cons, List.take_add]

/-- The entries of runs, each with the number of its run, where runs are counted from `k`. -/
def tagged (k : ℕ) : List (List ε) → List (ℕ × ε)
  | [] => []
  | run :: runs => run.map (k, ·) ++ tagged (k + 1) runs

private theorem zip_owners {xs : List ε} (h : lengths.sum = xs.length) (k : ℕ) :
    (owners k lengths).zip xs = tagged k (cut lengths xs) := by
  induction lengths generalizing k xs with
  | nil =>
      rw [List.sum_nil, eq_comm, List.length_eq_zero_iff] at h
      rw [h]
      rfl
  | cons n lengths ih =>
      rw [List.sum_cons] at h
      have hfirst : (xs.take n).length = n := by
        rw [List.length_take]
        omega
      have hrest : lengths.sum = (xs.drop n).length := by
        rw [List.length_drop]
        omega
      conv_lhs => rw [← List.take_append_drop n xs]
      rw [owners, List.zip_append (by rw [List.length_replicate, hfirst]), ih hrest, cut, tagged,
        List.map_prod_right_eq_zip, List.map_const', hfirst]

private theorem length_owners (k : ℕ) (lengths : List ℕ) :
    (owners k lengths).length = lengths.sum := by
  induction lengths generalizing k with
  | nil => rfl
  | cons n lengths ih => rw [owners, List.length_append, List.length_replicate, ih, List.sum_cons]

private theorem le_of_mem_owners {k c : ℕ} {lengths : List ℕ} (h : c ∈ owners k lengths) :
    k ≤ c := by
  induction lengths generalizing k with
  | nil => cases h
  | cons n lengths ih =>
      rcases List.mem_append.mp h with h | h
      · exact (List.eq_of_mem_replicate h).ge
      · exact Nat.le_of_succ_le (ih h)

private theorem pairwise_owners (k : ℕ) (lengths : List ℕ) :
    (owners k lengths).Pairwise (· ≤ ·) := by
  induction lengths generalizing k with
  | nil => exact .nil
  | cons n lengths ih =>
      refine List.pairwise_append.mpr ⟨List.pairwise_replicate.mpr (Or.inr le_rfl), ih _, ?_⟩
      intro c hc d hd
      rw [List.eq_of_mem_replicate hc]
      exact Nat.le_of_succ_le (le_of_mem_owners hd)

private theorem mem_tagged {k c : ℕ} {x : ε} {runs : List (List ε)} :
    (c, x) ∈ tagged k runs ↔ ∃ i run, runs[i]? = some run ∧ c = k + i ∧ x ∈ run := by
  induction runs generalizing k with
  | nil => simp [tagged]
  | cons run runs ih =>
      rw [tagged, List.mem_append, ih]
      constructor
      · rintro (h | ⟨i, later, hi, rfl, hx⟩)
        · obtain ⟨y, hy, heq⟩ := List.mem_map.mp h
          cases heq
          exact ⟨0, run, rfl, rfl, hy⟩
        · exact ⟨i + 1, later, hi, by omega, hx⟩
      · rintro ⟨i, later, hi, rfl, hx⟩
        cases i with
        | zero =>
            cases hi
            exact Or.inl (List.mem_map_of_mem hx)
        | succ i => exact Or.inr ⟨i, later, hi, by omega, hx⟩

private theorem count_tagged [DecidableEq ε] (k i : ℕ) (x : ε) (runs : List (List ε)) :
    (tagged k runs).count (k + i, x) = (runs.getD i []).count x := by
  induction runs generalizing k i with
  | nil => rfl
  | cons run runs ih =>
      rw [tagged, List.count_append]
      cases i with
      | zero =>
          have hlater : (k, x) ∉ tagged (k + 1) runs := by
            intro h
            obtain ⟨j, -, -, hj, -⟩ := mem_tagged.mp h
            omega
          rw [Nat.add_zero, List.count_eq_zero_of_not_mem hlater, Nat.add_zero]
          exact List.count_map_of_injective run (k, ·) (Prod.mk_right_injective k) x
      | succ i =>
          have hfirst : (k + (i + 1), x) ∉ run.map (k, ·) := by simp
          rw [List.count_eq_zero_of_not_mem hfirst, Nat.zero_add, Nat.add_comm i 1,
            ← Nat.add_assoc, ih, Nat.add_comm 1 i]
          rfl

/-- The owner of the first entry of some kind is the least run that has such an entry. -/
theorem isLeast_owner {p : ε → Bool} {xs : List ε} {k : ℕ} (hsum : lengths.sum = xs.length)
    (h : xs.findIdx? p = some k) :
    IsLeast {c | ∃ run, (cut lengths xs)[c]? = some run ∧ ∃ x ∈ run, p x = true}
      ((owners 0 lengths).getD k 0) := by
  obtain ⟨⟨x, hx, hpx⟩, hfirst⟩ := isLeast_of_findIdx? h
  have hlength : (owners 0 lengths).length = xs.length := (length_owners 0 lengths).trans hsum
  have hmem {c : ℕ} {y : ε} : (∃ run, (cut lengths xs)[c]? = some run ∧ y ∈ run) ↔
      (c, y) ∈ (owners 0 lengths).zip xs := by
    rw [zip_owners hsum, mem_tagged]
    constructor
    · rintro ⟨run, hrun, hy⟩
      exact ⟨c, run, hrun, (Nat.zero_add c).symm, hy⟩
    · rintro ⟨i, run, hrun, rfl, hy⟩
      exact ⟨run, (Nat.zero_add i).symm ▸ hrun, hy⟩
  constructor
  · obtain ⟨hk, rfl⟩ := List.getElem?_eq_some_iff.mp hx
    rw [List.getD_eq_getElem _ _ (hlength ▸ hk)]
    obtain ⟨run, hrun, hx⟩ := hmem.mpr (List.mem_iff_getElem.mpr
      ⟨k, by rw [List.length_zip]; omega, List.getElem_zip⟩)
    exact ⟨run, hrun, _, hx, hpx⟩
  · rintro c ⟨run, hrun, y, hy, hpy⟩
    obtain ⟨j, hj, heq⟩ := List.mem_iff_getElem.mp (hmem.mp ⟨run, hrun, hy⟩)
    rw [List.getElem_zip, Prod.mk.injEq] at heq
    rw [List.length_zip, lt_min_iff] at hj
    -- owners ascend, and the entry of the other run stands no earlier than the first one
    have hle : k ≤ j := hfirst ⟨y, by rw [List.getElem?_eq_getElem hj.2, heq.2], hpy⟩
    rw [List.getD_eq_getElem _ _ (hle.trans_lt hj.1), ← heq.1]
    exact (pairwise_owners 0 _).rel_get_of_le (a := ⟨k, hle.trans_lt hj.1⟩) (b := ⟨j, hj.1⟩) hle

private theorem insert_eq (e : ℕ × ℤ) (l : List (ℕ × ℤ)) :
    insert e l = l.orderedInsert Before e := by
  induction l with
  | nil => rfl
  | cons a l ih => rw [insert, List.orderedInsert_cons, ih]

theorem sort_eq (l : List (ℕ × ℤ)) : sort l = l.insertionSort Before := by
  induction l with
  | nil => rfl
  | cons e l ih => rw [sort, List.insertionSort_cons, ih, insert_eq]

private theorem Before.antisymm {a b : ℕ × ℤ} (h : Before a b) (h' : Before b a) : a = b := by
  unfold Before at h h'
  ext <;> omega

instance : Std.Total Before where
  total a b := by
    unfold Before
    omega

instance : IsTrans (ℕ × ℤ) Before where
  trans a b c h h' := by
    unfold Before at *
    omega

theorem perm_sort (l : List (ℕ × ℤ)) : (sort l).Perm l := by
  rw [sort_eq]
  exact l.perm_insertionSort Before

theorem pairwise_sort (l : List (ℕ × ℤ)) : (sort l).Pairwise Before := by
  rw [sort_eq]
  exact l.pairwise_insertionSort Before

/-- In sorted entries neighbours tell whether an entry is listed twice. -/
theorem twin?_spec {l : List (ℕ × ℤ)} (h : l.Pairwise Before) :
    (twin? l = none → l.Nodup) ∧
      ∀ e, twin? l = some e → l.Duplicate e ∧ ∀ d, l.Duplicate d → Before e d := by
  induction l with
  | nil => exact ⟨fun _ => .nil, nofun⟩
  | cons a l ih =>
      obtain ⟨ha, hl⟩ := List.pairwise_cons.mp h
      cases l with
      | nil => exact ⟨fun _ => List.nodup_singleton a, nofun⟩
      | cons b l =>
          obtain ⟨hnone, hsome⟩ := ih hl
          rw [twin?]
          split
          · next hab =>
            obtain rfl := eq_of_beq hab
            refine ⟨nofun, ?_⟩
            rintro e ⟨⟩
            refine ⟨List.Mem.duplicate_cons_self List.mem_cons_self, fun d hd => ?_⟩
            rcases List.mem_cons.mp hd.mem with rfl | hd
            · exact Or.inr ⟨rfl, le_rfl⟩
            · exact ha d hd
          · next hab =>
            have hfresh : a ∉ b :: l := by
              intro hmem
              refine hab (beq_iff_eq.mpr ?_)
              rcases List.mem_cons.mp hmem with rfl | hlater
              · rfl
              · exact (ha b List.mem_cons_self).antisymm ((List.pairwise_cons.mp hl).1 a hlater)
            have hdup {d : ℕ × ℤ} :
                (a :: b :: l).Duplicate d ↔ (b :: l).Duplicate d := by
              rw [List.duplicate_cons_iff]
              exact or_iff_right fun hd => hfresh (hd.1 ▸ hd.2)
            simp only [List.nodup_cons (a := a), hfresh, not_false_eq_true, true_and, hdup]
            exact ⟨hnone, hsome⟩

private theorem twin?_sort_eq_none {l : List (ℕ × ℤ)} : twin? (sort l) = none ↔ l.Nodup := by
  obtain ⟨hnone, hsome⟩ := twin?_spec (pairwise_sort l)
  rw [← (perm_sort l).nodup_iff]
  refine ⟨hnone, fun h => ?_⟩
  cases htwin : twin? (sort l) with
  | none => rfl
  | some e => exact absurd h (hsome e htwin).1.not_nodup

private theorem duplicate_tagged {runs : List (List ℤ)} {c : ℕ} :
    (∃ r, (tagged 0 runs).Duplicate (c, r)) ↔ ∃ run, runs[c]? = some run ∧ ¬ run.Nodup := by
  simp only [duplicate_iff_count, List.nodup_iff_count_le_one, not_forall, not_le,
    ← Nat.succ_le_iff]
  have hcount (r : ℤ) := count_tagged 0 c r runs
  rw [Nat.zero_add] at hcount
  simp only [hcount]
  constructor
  · rintro ⟨r, hr⟩
    cases hrun : runs[c]? with
    | none => simp [List.getD, hrun] at hr
    | some run => exact ⟨run, rfl, r, by simpa [List.getD, hrun] using hr⟩
  · rintro ⟨run, hrun, r, hr⟩
    exact ⟨r, by simpa [List.getD, hrun] using hr⟩

private theorem nodup_tagged {runs : List (List ℤ)} :
    (tagged 0 runs).Nodup ↔ ∀ run ∈ runs, run.Nodup := by
  rw [List.nodup_iff_forall_not_duplicate]
  constructor
  · intro h run hrun
    by_contra hrepeats
    obtain ⟨c, hc⟩ := List.mem_iff_getElem?.mp hrun
    obtain ⟨r, hr⟩ := duplicate_tagged.mpr ⟨run, hc, hrepeats⟩
    exact h _ hr
  · rintro h ⟨c, r⟩ hr
    obtain ⟨run, hc, hrepeats⟩ := duplicate_tagged.mp ⟨r, hr⟩
    exact hrepeats (h run (List.mem_of_getElem? hc))

/-- The first neighbours that are equal tell the least run that repeats an entry. -/
theorem isLeast_of_twin? {xs : List ℤ} {c : ℕ} {r : ℤ} (hsum : lengths.sum = xs.length)
    (h : twin? (sort ((owners 0 lengths).zip xs)) = some (c, r)) :
    IsLeast {c | ∃ run, (cut lengths xs)[c]? = some run ∧ ¬ run.Nodup} c := by
  have hperm {d : ℕ × ℤ} : (sort ((owners 0 lengths).zip xs)).Duplicate d ↔
      (tagged 0 (cut lengths xs)).Duplicate d := by
    rw [duplicate_iff_count, duplicate_iff_count, (perm_sort _).count_eq, zip_owners hsum]
  obtain ⟨htwice, hfirst⟩ := (twin?_spec (pairwise_sort _)).2 _ h
  refine ⟨duplicate_tagged.mp ⟨r, hperm.mp htwice⟩, fun c' hc' => ?_⟩
  obtain ⟨r', hr'⟩ := duplicate_tagged.mpr hc'
  have hbefore := hfirst _ (hperm.mpr hr')
  unfold Before at hbefore
  omega

theorem twin?_eq_none {xs : List ℤ} (hsum : lengths.sum = xs.length) :
    twin? (sort ((owners 0 lengths).zip xs)) = none ↔ ∀ run ∈ cut lengths xs, run.Nodup := by
  rw [twin?_sort_eq_none, zip_owners hsum, nodup_tagged]

end Runs

end IncrementalLP

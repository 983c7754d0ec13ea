import Mathlib
import IncrementalLP.Keyed
/-!
# Values under names

What is found under a name after another value was put there or something was dropped, and which
names there are.
-/
namespace IncrementalLP.Keyed

variable {β : Type} (entries : Keyed β) (name : String) (b : β) {other : String}

theorem get?_cons (e : String × β) :
    get? (e :: entries) name = if e.1 = name then some e.2 else entries.get? name := by
  by_cases h : e.1 = name
  · rw [get?, List.find?_cons_of_pos (by simpa using h), if_pos h, Option.map_some]
  · rw [get?, List.find?_cons_of_neg (by simpa using h), if_neg h, get?]

@[simp] theorem get?_put_self : (entries.put name b).get? name = some b := by
  induction entries with
  | nil => rw [put, get?_cons, if_pos rfl]
  | cons e entries ih =>
      rw [put]
      split
      · rw [get?_cons, if_pos rfl]
      · next he => rw [get?_cons, if_neg (by simpa using he), ih]

theorem get?_put_of_ne (h : other ≠ name) :
    (entries.put name b).get? other = entries.get? other := by
  induction entries with
  | nil => rw [put, get?_cons, if_neg h.symm]
  | cons e entries ih =>
      rw [put]
      split
      · next he =>
        have hne : e.1 ≠ other := fun heq => h (heq.symm.trans (by simpa using he))
        rw [get?_cons, get?_cons, if_neg h.symm, if_neg hne]
      · rw [get?_cons, get?_cons, ih]

@[simp] theorem get?_drop_self : (entries.drop name).get? name = none := by
  simp [get?, drop]

theorem get?_drop_of_ne (h : other ≠ name) :
    (entries.drop name).get? other = entries.get? other := by
  induction entries with
  | nil => rfl
  | cons e entries ih =>
      rw [drop] at ih ⊢
      by_cases he : e.1 = name
      · rw [List.filter_cons_of_neg (by simpa using he), ih, get?_cons,
          if_neg fun heq => h (heq.symm.trans he)]
      · rw [List.filter_cons_of_pos (by simpa using he), get?_cons, get?_cons, ih]

theorem put_of_get? {entries : Keyed β} {name : String} {b : β} (h : entries.get? name = some b) :
    entries.put name b = entries := by
  induction entries with
  | nil => cases h
  | cons e entries ih =>
      rw [get?_cons] at h
      rw [put]
      by_cases he : e.1 = name
      · rw [if_pos he] at h
        rw [if_pos (by simpa using he), ← he, ← Option.some.inj h]
      · rw [if_neg he] at h
        rw [if_neg (by simpa using he), ih h]

theorem put_put (entries : Keyed β) (name : String) (b c : β) :
    (entries.put name b).put name c = entries.put name c := by
  induction entries with
  | nil => simp [put]
  | cons e entries ih =>
      rw [put, put]
      split
      · rw [put, if_pos (beq_self_eq_true _)]
      · next he => rw [put, if_neg he, ih]

theorem mem_names {entries : Keyed β} {name : String} :
    name ∈ entries.names ↔ (entries.get? name).isSome := by
  simp [names, get?]

theorem mem_names_put {name other : String} {entries : Keyed β} {b : β} :
    other ∈ (entries.put name b).names ↔ other = name ∨ other ∈ entries.names := by
  by_cases h : other = name
  · simp [mem_names, h]
  · simp [mem_names, get?_put_of_ne entries name b h, h]

theorem mem_names_drop {name other : String} {entries : Keyed β} :
    other ∈ (entries.drop name).names ↔ other ≠ name ∧ other ∈ entries.names := by
  by_cases h : other = name
  · simp [mem_names, h]
  · simp [mem_names, get?_drop_of_ne entries name h, h]

theorem nodup_names_put {entries : Keyed β} (h : entries.names.Nodup) (name : String) (b : β) :
    (entries.put name b).names.Nodup := by
  induction entries with
  | nil => simp [put, names]
  | cons e entries ih =>
      have hcons : ∀ (d : String × β) (rest : Keyed β), names (d :: rest) = d.1 :: rest.names :=
        fun _ _ => rfl
      rw [hcons, List.nodup_cons] at h
      rw [put]
      split
      · next he =>
        rw [hcons, List.nodup_cons]
        exact ⟨(by simpa using he : e.1 = name) ▸ h.1, h.2⟩
      · next he =>
        rw [hcons, List.nodup_cons, mem_names_put]
        exact ⟨not_or.mpr ⟨by simpa using he, h.1⟩, ih h.2⟩

theorem nodup_names_drop {entries : Keyed β} (h : entries.names.Nodup) (name : String) :
    (entries.drop name).names.Nodup := h.sublist (List.filter_sublist.map _)

end IncrementalLP.Keyed

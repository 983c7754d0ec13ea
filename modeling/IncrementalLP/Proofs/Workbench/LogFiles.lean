import IncrementalLP.Proofs.Attempt
import IncrementalLP.Proofs.Keyed
import IncrementalLP.Workbench.Basic
/-!
# Log files of sessions

What entering a session, leaving it and solving in it do to the log that all sessions share, and
who holds the files that are attached to it.
-/
namespace IncrementalLP

variable {α : Type}

/-- The level after a file was attached. -/
def Log.lowered (l : Log) : Level :=
  if Level.info.rank < l.effective.rank then .info else l.level

theorem Log.lowered_of_le {l : Log} (h : l.effective.rank ≤ Level.info.rank) :
    l.lowered = l.level := if_neg (not_lt.mpr h)

theorem Log.effective_of_lowered {l l' : Log} (houter : l'.outer = l.outer)
    (hlevel : l'.level = l.lowered) : l'.effective.rank ≤ Level.info.rank := by
  by_cases h : Level.info.rank < l.effective.rank
  · have hinfo : l'.level = .info := hlevel.trans (if_pos h)
    rw [effective, hinfo]
    exact le_rfl
  · have hsame : l'.level = l.level := hlevel.trans (if_neg h)
    rw [effective, hsame, houter]
    exact not_lt.mp h

namespace Workbench

/-- The log file of the session under a name. -/
def held (w : Workbench α) (name : String) : Option Attachment :=
  (w.sessions.get? name).bind (·.attachment)

private theorem held_put (w : Workbench α) (name : String) (s : OpenSession α) :
    held { w with sessions := w.sessions.put name s } =
      Function.update w.held name s.attachment := by
  funext other
  by_cases h : other = name
  · subst h
    simp [held]
  · simp [held, Keyed.get?_put_of_ne, h]

/-- A session is entered under a name, or left, whether by an exception or not; or it solves an
instance. -/
inductive Passage (α : Type) where
  | enter (around : Surroundings) (name : String) (o : SolveOptions α) (engine : Option (Engine α))
      (highspy : Option (Highspy α))
  | leave (name : String)
  | work (session name : String) (solve : Action (Solving α) α (SolveResult α))

/-- The name of the session that is concerned. -/
def Passage.name : Passage α → String
  | .enter _ name _ _ _ | .leave name | .work name _ _ => name

/-- No session that still holds a file loses its name to another one. -/
def Passage.Clear (w : Workbench α) : Passage α → Prop
  | .enter _ name _ _ _ => w.held name = none
  | _ => True

/-- The engine of the session under a name refuses to be closed. -/
def refuses (w : Workbench α) (name : String) : Bool :=
  (w.sessions.get? name).any fun s => !(Session.close s.session).answer.isOk

/-- The file that is left attached for good: that of a session whose engine refuses to be closed. -/
def Passage.leak (w : Workbench α) : Passage α → List Attachment
  | .leave name => if w.refuses name then (w.held name).toList else []
  | .enter .. | .work .. => []

/-- What can become of the log, and of the files that are held, by a step of the session under a
name that leaves some files attached for good. -/
inductive Turn (name : String) (w v : Workbench α) : List Attachment → Prop
  | aside (outer : v.log.outer = w.log.outer) (next : w.log.next ≤ v.log.next)
      (level : v.log.level = w.log.level) (files : v.log.attached = w.log.attached)
      (held : v.held = w.held) : Turn name w v []
  | attach {a : Attachment} (outer : v.log.outer = w.log.outer)
      (next : v.log.next = w.log.next + 1) (id : a.id = w.log.next)
      (previous : a.previous = w.log.level) (level : v.log.level = w.log.lowered)
      (files : v.log.attached = w.log.attached ++ [a]) (clear : w.held name = none)
      (held : v.held = Function.update w.held name (some a)) : Turn name w v []
  | detach {a : Attachment} (outer : v.log.outer = w.log.outer)
      (next : v.log.next = w.log.next) (holds : w.held name = some a)
      (level : v.log.level = a.previous)
      (files : v.log.attached = w.log.attached.filter (·.id != a.id))
      (held : v.held = Function.update w.held name none) : Turn name w v []
  | leak {a : Attachment} (outer : v.log.outer = w.log.outer) (next : v.log.next = w.log.next)
      (holds : w.held name = some a) (level : v.log.level = w.log.level)
      (files : v.log.attached = w.log.attached)
      (held : v.held = Function.update w.held name none) : Turn name w v [a]

variable {w v : Workbench α} {name : String}

private theorem Turn.refl (w : Workbench α) : Turn name w w [] := .aside rfl le_rfl rfl rfl rfl

/-- Recording touches neither the level nor the files. -/
theorem Turn.perform [Scalar α] {β : Type} {task : Action (Workbench α) α β}
    {lost : List Attachment} (h : Turn name w (task w).state lost) :
    Turn name w (w.perform task).1 lost := by
  cases h with
  | aside outer next level files held => exact .aside outer next level files held
  | attach outer next id previous level files clear held =>
      exact .attach outer next id previous level files clear held
  | detach outer next holds level files held => exact .detach outer next holds level files held
  | leak outer next holds level files held => exact .leak outer next holds level files held

theorem turn_openSession (hids : ∀ a ∈ w.log.attached, a.id < w.log.next) (around : Surroundings)
    (hclear : w.held name = none) (o : SolveOptions α) (engine : Option (Engine α))
    (highspy : Option (Highspy α)) :
    Turn name w (openSession around name false o engine highspy w).state [] := by
  unfold openSession
  simp only [Bool.false_eq_true, if_false]
  cases o.logFile with
  | none =>
      simp only [Log.attach?, Log.detach?]
      split
      · refine .aside rfl le_rfl rfl rfl ((held_put w name _).trans ?_)
        exact Function.update_eq_self_iff.mpr hclear.symm
      · exact .refl w
  | some path =>
      simp only [Log.attach?]
      cases around path with
      | some trouble => exact .refl w
      | none =>
          simp only
          split
          · exact .attach rfl rfl rfl rfl rfl rfl hclear (held_put w name _)
          · refine .aside rfl (Nat.le_succ _) rfl ?_ rfl
            show (w.log.attached ++ [_]).filter _ = w.log.attached
            rw [List.filter_append, List.filter_eq_self.mpr fun a ha => ?_]
            · simp [Log.attach]
            · simpa [Log.attach] using (hids a ha).ne

private theorem find_eq_ok {β : Type} {entries : Keyed β} {name : String} {b : β} :
    find (α := α) entries name = .ok b ↔ entries.get? name = some b := by
  unfold find
  cases entries.get? name <;> simp

private theorem held_of_get? {s : OpenSession α} (h : w.sessions.get? name = some s) :
    w.held name = s.attachment := by rw [held, h, Option.bind_some]

theorem held_eq_none {files : List (Option Attachment)}
    (h : w.sessions.map (·.2.attachment) = files) (hnone : ∀ a ∈ files, a = none) :
    w.held name = none := by
  cases hget : w.sessions.get? name with
  | none => rw [held, hget, Option.bind_none]
  | some s =>
      obtain ⟨e, hfind, rfl⟩ := Option.map_eq_some_iff.mp hget
      rw [held_of_get? hget]
      exact hnone _ (h ▸ List.mem_map_of_mem (List.mem_of_find?_eq_some hfind))

theorem closeSession_state (w : Workbench α) (name : String) :
    (closeSession name w).state.log =
        (if w.refuses name then w.log else w.log.detach? (w.held name)) ∧
      (closeSession name w).state.held = Function.update w.held name none := by
  unfold closeSession
  rw [Action.bind_of_ok (t := w) (b := w) rfl]
  cases hget : w.sessions.get? name with
  | none =>
      have hheld : w.held name = none := by rw [held, hget, Option.bind_none]
      have hfind : find (α := α) w.sessions name = .error .unknownName := by rw [find, hget]
      rw [hfind, Action.bind_of_error (t := w) (e := .unknownName) rfl, refuses, hget, hheld]
      exact ⟨rfl, (Function.update_eq_self_iff.mpr hheld.symm).symm⟩
  | some s =>
      rw [find_eq_ok.mpr hget, Action.bind_of_ok (t := w) (b := s) rfl, held_of_get? hget, refuses,
        hget, Option.any_some]
      simp only [bind, Action.within]
      cases (Session.close s.session).answer with
      | error f => exact ⟨rfl, held_put w name _⟩
      | ok u => exact ⟨rfl, held_put w name _⟩

theorem turn_closeSession (w : Workbench α) (name : String) :
    Turn name w (closeSession name w).state ((Passage.leave name).leak w) := by
  obtain ⟨hlog, hheld⟩ := closeSession_state w name
  show Turn name w _ (if w.refuses name then (w.held name).toList else [])
  cases hholds : w.held name with
  | none =>
      have hsame : (closeSession name w).state.log = w.log := by
        rw [hlog, hholds]
        exact ite_self _
      rw [Option.toList_none, ite_self]
      refine .aside (by rw [hsame]) (by rw [hsame]) (by rw [hsame]) (by rw [hsame]) ?_
      exact hheld.trans (Function.update_eq_self_iff.mpr hholds.symm)
  | some a =>
      rw [hholds] at hlog
      split
      · next hrefuses =>
        rw [if_pos hrefuses] at hlog
        exact .leak (by rw [hlog]) (by rw [hlog]) hholds (by rw [hlog]) (by rw [hlog]) hheld
      · next hrefuses =>
        rw [if_neg hrefuses] at hlog
        exact .detach (by rw [hlog]; rfl) (by rw [hlog]; rfl) hholds (by rw [hlog]; rfl)
          (by rw [hlog]; rfl) hheld

theorem solveIn_state (w : Workbench α) (session name : String)
    (solve : Action (Solving α) α (SolveResult α)) :
    (solveIn session name solve w).state.log = w.log ∧
      (solveIn session name solve w).state.held = w.held := by
  refine (?_ : Action.Preserves (fun v => v.log = w.log ∧ v.held = w.held) _) w ⟨rfl, rfl⟩
  apply Action.preserves_get_bind
  intro v hv
  refine (?_ : Action.Preserves (fun u => u.log = w.log ∧ u.held = w.held) _) v hv
  apply Action.preserves_lift_bind
  intro s hs
  apply Action.preserves_lift_bind
  rintro i - u ⟨hlog, hheld⟩
  refine ⟨hlog, (held_put _ session _).trans ?_⟩
  have hsession : s.attachment = u.held session := by
    rw [hheld, ← hv.2, held_of_get? (find_eq_ok.mp hs)]
  exact (Function.update_eq_self_iff.mpr hsession).trans hheld

theorem turn_solveIn (w : Workbench α) (session name : String)
    (solve : Action (Solving α) α (SolveResult α)) :
    Turn session w (solveIn session name solve w).state [] := by
  obtain ⟨hlog, hheld⟩ := solveIn_state w session name solve
  exact .aside (by rw [hlog]) (by rw [hlog]) (by rw [hlog]) (by rw [hlog]) hheld

theorem update_some_eq_some {f : String → Option Attachment} {m n : String} {a b : Attachment} :
    Function.update f m (some a) n = some b ↔ n = m ∧ b = a ∨ n ≠ m ∧ f n = some b := by
  by_cases h : n = m
  · subst h
    simp [eq_comm]
  · simp [h]

theorem update_none_eq_some {f : String → Option Attachment} {m n : String} {b : Attachment} :
    Function.update f m none n = some b ↔ n ≠ m ∧ f n = some b := by
  by_cases h : n = m
  · subst h
    simp
  · simp [h]

/-- No session holds a file, and the next file gets an identity of its own. -/
structure Idle (w : Workbench α) : Prop where
  held : ∀ name, w.held name = none
  ids : ∀ a ∈ w.log.attached, a.id < w.log.next

theorem idle_empty (level : Option Level) : (empty level : Workbench α).Idle where
  held _ := rfl
  ids _ h := absurd h List.not_mem_nil

/-- The log of `v` has the files of `w`, and behind them those that came later, in the order in
which they came. Each of these is held by one session, or it is among the files that were left for
good. -/
structure Tracks (w v : Workbench α) (later lost : List Attachment) : Prop where
  outer : v.log.outer = w.log.outer
  next : w.log.next ≤ v.log.next
  files : v.log.attached = w.log.attached ++ later
  ids : ∀ a ∈ later, w.log.next ≤ a.id ∧ a.id < v.log.next
  nodup : (later.map (·.id)).Nodup
  holder : ∀ a ∈ later, a ∉ lost → ∃ name, v.held name = some a
  held : ∀ {name a}, v.held name = some a → a ∈ later ∧ a ∉ lost
  distinct : ∀ {m n a}, v.held m = some a → v.held n = some a → m = n
  lost : lost.Nodup ∧ lost ⊆ later

theorem Idle.tracks (h : w.Idle) : Tracks w w [] [] where
  outer := rfl
  next := le_rfl
  files := (List.append_nil _).symm
  ids := nofun
  nodup := List.nodup_nil
  holder := nofun
  held hheld := by simp [h.held] at hheld
  distinct hheld := by simp [h.held] at hheld
  lost := ⟨List.nodup_nil, List.Subset.refl _⟩

namespace Tracks

variable {u : Workbench α} {a b : Attachment} {later lost : List Attachment}

theorem ids_attached (h : Tracks w v later lost) (hw : w.Idle) :
    ∀ a ∈ v.log.attached, a.id < v.log.next := by
  intro a ha
  rw [h.files, List.mem_append] at ha
  rcases ha with ha | ha
  · exact (hw.ids a ha).trans_le h.next
  · exact (h.ids a ha).2

private theorem attach (h : Tracks w v later lost) (outer : u.log.outer = v.log.outer)
    (next : u.log.next = v.log.next + 1) (id : a.id = v.log.next)
    (files : u.log.attached = v.log.attached ++ [a]) (clear : v.held name = none)
    (held : u.held = Function.update v.held name (some a)) : Tracks w u (later ++ [a]) lost := by
  have hnext := h.next
  have hnew : a ∉ later := by
    intro ha
    have := (h.ids a ha).2
    omega
  have hmem : ∀ {b}, b ∈ later ++ [a] ↔ b ∈ later ∨ b = a := by
    intro b
    rw [List.mem_append, List.mem_singleton]
  have hheld : ∀ {n b}, u.held n = some b ↔
      n = name ∧ b = a ∨ n ≠ name ∧ v.held n = some b := by
    intro n b
    rw [held, update_some_eq_some]
  refine ⟨outer.trans h.outer, by omega, ?_, fun b hb => ?_, ?_, fun b hb hkept => ?_,
    fun hb => ?_, fun hb hc => ?_, h.lost.1, fun b hb => hmem.mpr (Or.inl (h.lost.2 hb))⟩
  · rw [files, h.files, List.append_assoc]
  · rcases hmem.mp hb with hb | rfl
    · have := h.ids b hb
      omega
    · omega
  · rw [List.map_append, List.nodup_append]
    refine ⟨h.nodup, List.nodup_singleton _, ?_⟩
    intro i hi j hj
    obtain ⟨b, hb, rfl⟩ := List.mem_map.mp hi
    obtain rfl := List.mem_singleton.mp hj
    have hlt : b.id < a.id := id ▸ (h.ids b hb).2
    exact hlt.ne
  · rcases hmem.mp hb with hb | rfl
    · obtain ⟨n, hn⟩ := h.holder b hb hkept
      refine ⟨n, hheld.mpr (Or.inr ⟨?_, hn⟩)⟩
      rintro rfl
      rw [clear] at hn
      cases hn
    · exact ⟨name, hheld.mpr (Or.inl ⟨rfl, rfl⟩)⟩
  · rcases hheld.mp hb with ⟨-, rfl⟩ | ⟨-, hb⟩
    · exact ⟨hmem.mpr (Or.inr rfl), fun hlost => hnew (h.lost.2 hlost)⟩
    · exact ⟨hmem.mpr (Or.inl (h.held hb).1), (h.held hb).2⟩
  · -- the file that is new is none of the earlier ones
    rcases hheld.mp hb with ⟨hm, rfl⟩ | ⟨-, hb⟩ <;> rcases hheld.mp hc with ⟨hn, heq⟩ | ⟨-, hc⟩
    · exact hm.trans hn.symm
    · exact absurd (h.held hc).1 hnew
    · exact absurd (h.held hb).1 (heq ▸ hnew)
    · exact h.distinct hb hc

private theorem detach (h : Tracks w v later lost) (hw : w.Idle)
    (outer : u.log.outer = v.log.outer) (next : u.log.next = v.log.next)
    (holds : v.held name = some a) (files : u.log.attached = v.log.attached.filter (·.id != a.id))
    (held : u.held = Function.update v.held name none) :
    Tracks w u (later.filter (·.id != a.id)) lost := by
  obtain ⟨ha, hkept⟩ := h.held holds
  have hmem : ∀ {b}, b ∈ later.filter (·.id != a.id) ↔ b ∈ later ∧ b.id ≠ a.id := by
    intro b
    rw [List.mem_filter, bne_iff_ne]
  have hother : ∀ {b}, b ∈ later → b ≠ a → b.id ≠ a.id := fun hb hne heq =>
    hne (List.inj_on_of_nodup_map h.nodup hb ha heq)
  have hheld : ∀ {n b}, u.held n = some b ↔ n ≠ name ∧ v.held n = some b := by
    intro n b
    rw [held, update_none_eq_some]
  refine ⟨outer.trans h.outer, next ▸ h.next, ?_, fun b hb => next ▸ h.ids b (hmem.mp hb).1,
    h.nodup.sublist (List.filter_sublist.map _), fun b hb hnot => ?_, fun hb => ?_,
    fun hb hc => h.distinct (hheld.mp hb).2 (hheld.mp hc).2, h.lost.1, fun b hb => ?_⟩
  · have hearlier : w.log.attached.filter (·.id != a.id) = w.log.attached := by
      refine List.filter_eq_self.mpr fun b hb => ?_
      have := hw.ids b hb
      have := (h.ids a ha).1
      rw [bne_iff_ne]
      omega
    rw [files, h.files, List.filter_append, hearlier]
  · obtain ⟨hb, hne⟩ := hmem.mp hb
    obtain ⟨n, hn⟩ := h.holder b hb hnot
    refine ⟨n, hheld.mpr ⟨?_, hn⟩⟩
    rintro rfl
    obtain rfl := Option.some.inj (holds.symm.trans hn)
    exact hne rfl
  · obtain ⟨hn, hb⟩ := hheld.mp hb
    refine ⟨hmem.mpr ⟨(h.held hb).1, hother (h.held hb).1 ?_⟩, (h.held hb).2⟩
    rintro rfl
    exact hn (h.distinct hb holds)
  · refine hmem.mpr ⟨h.lost.2 hb, hother (h.lost.2 hb) ?_⟩
    rintro rfl
    exact hkept hb

private theorem leak (h : Tracks w v later lost) (outer : u.log.outer = v.log.outer)
    (next : u.log.next = v.log.next) (holds : v.held name = some a)
    (files : u.log.attached = v.log.attached)
    (held : u.held = Function.update v.held name none) : Tracks w u later (lost ++ [a]) := by
  obtain ⟨ha, hkept⟩ := h.held holds
  have hmem : ∀ {b}, b ∈ lost ++ [a] ↔ b ∈ lost ∨ b = a := by
    intro b
    rw [List.mem_append, List.mem_singleton]
  have hheld : ∀ {n b}, u.held n = some b ↔ n ≠ name ∧ v.held n = some b := by
    intro n b
    rw [held, update_none_eq_some]
  refine ⟨outer.trans h.outer, next ▸ h.next, files.trans h.files, next ▸ h.ids, h.nodup,
    fun b hb hnot => ?_, fun hb => ?_, fun hb hc => h.distinct (hheld.mp hb).2 (hheld.mp hc).2,
    ?_, fun b hb => ?_⟩
  · obtain ⟨n, hn⟩ := h.holder b hb fun hlost => hnot (hmem.mpr (Or.inl hlost))
    refine ⟨n, hheld.mpr ⟨?_, hn⟩⟩
    rintro rfl
    exact hnot (hmem.mpr (Or.inr (Option.some.inj (hn.symm.trans holds))))
  · obtain ⟨hn, hb⟩ := hheld.mp hb
    refine ⟨(h.held hb).1, fun hlost => ?_⟩
    rcases hmem.mp hlost with hlost | rfl
    · exact (h.held hb).2 hlost
    · exact hn (h.distinct hb holds)
  · rw [List.nodup_append]
    refine ⟨h.lost.1, List.nodup_singleton _, ?_⟩
    rintro b hb c hc rfl
    exact hkept (List.mem_singleton.mp hc ▸ hb)
  · rcases hmem.mp hb with hb | rfl
    · exact h.lost.2 hb
    · exact ha

theorem turn (h : Tracks w v later lost) (hw : w.Idle) {more : List Attachment}
    (hturn : Turn name v u more) : ∃ later, Tracks w u later (lost ++ more) := by
  cases hturn with
  | aside outer next level files held =>
      rw [List.append_nil]
      refine ⟨later, outer.trans h.outer, h.next.trans next, files.trans h.files,
        fun a ha => ⟨(h.ids a ha).1, (h.ids a ha).2.trans_le next⟩, h.nodup, ?_, ?_, ?_, h.lost⟩
      · rw [held]
        exact h.holder
      · rw [held]
        exact h.held
      · rw [held]
        exact h.distinct
  | attach outer next id previous level files clear held =>
      rw [List.append_nil]
      exact ⟨_, h.attach outer next id files clear held⟩
  | detach outer next holds level files held =>
      rw [List.append_nil]
      exact ⟨_, h.detach hw outer next holds files held⟩
  | leak outer next holds level files held => exact ⟨_, h.leak outer next holds files held⟩

/-- Where no session holds a file the log has the files that it had, and those that were left. -/
theorem later_perm (h : Tracks w v later lost) (hleft : ∀ name, v.held name = none) :
    later.Perm lost := by
  refine (List.perm_ext_iff_of_nodup h.nodup.of_map h.lost.1).mpr fun a => ⟨fun ha => ?_, fun ha =>
    h.lost.2 ha⟩
  by_contra hnot
  obtain ⟨name, hname⟩ := h.holder a ha hnot
  rw [hleft] at hname
  cases hname

theorem level_of_detached (h : Tracks w v later lost) (hw : w.Idle) {more : List Attachment}
    (hturn : Turn name v u more) (ha : a ∈ v.log.attached) (hgone : a ∉ u.log.attached) :
    u.log.level = a.previous := by
  cases hturn with
  | aside outer next level files held => exact absurd (files ▸ ha) hgone
  | attach outer next id previous level files clear held =>
      exact absurd (files ▸ List.mem_append_left _ ha) hgone
  | leak outer next holds level files held => exact absurd (files ▸ ha) hgone
  | @detach b outer next holds level files held =>
      rw [files, List.mem_filter, bne_iff_ne, not_and_not_right] at hgone
      have hb := (h.held holds).1
      have hlate : a ∈ later := by
        rw [h.files, List.mem_append] at ha
        refine ha.resolve_left fun ha => ?_
        have := hw.ids a ha
        have := (h.ids b hb).1
        have := hgone (h.files ▸ List.mem_append_left _ ‹a ∈ w.log.attached›)
        omega
      rw [level, List.inj_on_of_nodup_map h.nodup hlate hb (hgone ha)]

theorem level_of_files (h : Tracks w v later lost) {more : List Attachment}
    (hturn : Turn name v u more) (hfiles : u.log.attached = v.log.attached) :
    u.log.level = v.log.level := by
  cases hturn with
  | aside outer next level files held => exact level
  | leak outer next holds level files held => exact level
  | attach outer next id previous level files clear held => simp [files] at hfiles
  | @detach a outer next holds level files held =>
      have hmem : a ∈ u.log.attached := by
        rw [hfiles, h.files]
        exact List.mem_append_right _ (h.held holds).1
      simp [files] at hmem

end Tracks

theorem Turn.previous {a : Attachment} {lost : List Attachment} (h : Turn name w v lost)
    (hnew : a ∉ w.log.attached) (ha : a ∈ v.log.attached) : a.previous = w.log.level := by
  cases h with
  | aside outer next level files held => exact absurd (files ▸ ha) hnew
  | leak outer next holds level files held => exact absurd (files ▸ ha) hnew
  | @attach b outer next id previous level files clear held =>
      rw [files, List.mem_append, List.mem_singleton] at ha
      rcases ha with ha | rfl
      · exact absurd ha hnew
      · exact previous
  | detach outer next holds level files held =>
      exact absurd (List.mem_filter.mp (files ▸ ha)).1 hnew

end Workbench

end IncrementalLP

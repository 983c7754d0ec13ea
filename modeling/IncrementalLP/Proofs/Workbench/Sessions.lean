import IncrementalLP.Proofs.Workbench.LogFiles
/-!
# Sessions in any order

Sessions that are entered and left in any order share one log. The files that they attach are all
detached in the end, but for those of sessions whose engines refuse to be closed. The level, which
every session with a file puts back as it found it, need not be the original one if the sessions
overlap.
-/
namespace IncrementalLP

variable {α : Type}

namespace Workbench

variable [Scalar α] {w v : Workbench α}

/-- The workbench after a passage, returned or failed. -/
def pass (w : Workbench α) : Passage α → Workbench α
  | .enter around name o engine highspy =>
    (w.perform (openSession around name false o engine highspy)).1
  | .leave name => (w.perform (closeSession name)).1
  | .work session name solve => (w.perform (solveIn session name solve)).1

private theorem turn_pass (hids : ∀ a ∈ w.log.attached, a.id < w.log.next) {p : Passage α}
    (hp : p.Clear w) : Turn p.name w (w.pass p) (p.leak w) := by
  cases p with
  | enter around name o engine highspy =>
      exact (turn_openSession hids around hp o engine highspy).perform
  | leave name => exact (turn_closeSession w name).perform
  | work session name solve => exact (turn_solveIn w session name solve).perform

private theorem pass_leave (w : Workbench α) (name : String)
    (hleak : (Passage.leave name).leak w = []) :
    (w.pass (.leave name)).log.level = (w.log.detach? (w.held name)).level ∧
      (w.pass (.leave name)).held = Function.update w.held name none := by
  obtain ⟨hlog, hheld⟩ := closeSession_state w name
  have hlevel : (w.pass (.leave name)).log.level = (closeSession name w).state.log.level := rfl
  refine ⟨hlevel.trans ?_, hheld⟩
  rw [hlog]
  split
  · next hrefuses =>
    have hnone : (w.held name).toList = [] := (if_pos hrefuses).symm.trans hleak
    rw [Option.toList_eq_nil_iff.mp hnone]
    rfl
  · rfl

def passes (w : Workbench α) (ps : List (Passage α)) : Workbench α := ps.foldl pass w

private theorem passes_append (w : Workbench α) (ps qs : List (Passage α)) :
    w.passes (ps ++ qs) = (w.passes ps).passes qs := List.foldl_append

private theorem passes_concat (w : Workbench α) (ps : List (Passage α)) (p : Passage α) :
    w.passes (ps ++ [p]) = (w.passes ps).pass p := by
  rw [passes, List.foldl_append]
  rfl

/-- The files that passages leave attached for good. -/
def leaks : Workbench α → List (Passage α) → List Attachment
  | _, [] => []
  | w, p :: ps => p.leak w ++ leaks (w.pass p) ps

/-- Sessions are entered under names that are clear. -/
def Orderly : Workbench α → List (Passage α) → Prop
  | _, [] => True
  | w, p :: ps => p.Clear w ∧ Orderly (w.pass p) ps

variable {ps qs : List (Passage α)} {p : Passage α}

private theorem orderly_append :
    w.Orderly (ps ++ qs) ↔ w.Orderly ps ∧ (w.passes ps).Orderly qs := by
  induction ps generalizing w with
  | nil => exact (and_iff_right trivial).symm
  | cons p ps ih =>
      rw [List.cons_append, Orderly, Orderly, ih, and_assoc]
      rfl

private theorem leaks_append :
    w.leaks (ps ++ qs) = w.leaks ps ++ (w.passes ps).leaks qs := by
  induction ps generalizing w with
  | nil => rfl
  | cons p ps ih =>
      rw [List.cons_append, leaks, leaks, ih, List.append_assoc]
      rfl

private theorem leaks_concat : w.leaks (ps ++ [p]) = w.leaks ps ++ p.leak (w.passes ps) := by
  rw [leaks_append, leaks, leaks, List.append_nil]

private theorem Orderly.of_concat (h : w.Orderly (ps ++ [p])) :
    w.Orderly ps ∧ p.Clear (w.passes ps) :=
  ⟨(orderly_append.mp h).1, (orderly_append.mp h).2.1⟩

private theorem Idle.tracks_passes (hw : w.Idle) (hps : w.Orderly ps) :
    ∃ later, Tracks w (w.passes ps) later (w.leaks ps) := by
  induction ps using List.reverseRecOn with
  | nil => exact ⟨[], hw.tracks⟩
  | append_singleton ps p ih =>
      obtain ⟨hps, hp⟩ := hps.of_concat
      obtain ⟨later, htracks⟩ := ih hps
      rw [passes_concat, leaks_concat]
      exact htracks.turn hw (turn_pass (htracks.ids_attached hw) hp)

private theorem Idle.turn_passes (hw : w.Idle) (hps : w.Orderly (ps ++ [p])) :
    Turn p.name (w.passes ps) (w.passes (ps ++ [p])) (p.leak (w.passes ps)) := by
  obtain ⟨hps, hp⟩ := hps.of_concat
  obtain ⟨later, htracks⟩ := hw.tracks_passes hps
  rw [passes_concat]
  exact turn_pass (htracks.ids_attached hw) hp

private theorem Idle.level_of_le (hw : w.Idle) (hps : w.Orderly ps)
    (hlow : w.log.effective.rank ≤ Level.info.rank) :
    (w.passes ps).log.level = w.log.level ∧
      ∀ name a, (w.passes ps).held name = some a → a.previous = w.log.level := by
  induction ps using List.reverseRecOn with
  | nil => exact ⟨rfl, fun name a ha => by simp [passes, hw.held] at ha⟩
  | append_singleton ps p ih =>
      obtain ⟨hlevel, hheld⟩ := ih hps.of_concat.1
      obtain ⟨later, htracks⟩ := hw.tracks_passes hps.of_concat.1
      generalize hlost : p.leak (w.passes ps) = lost
      cases hlost ▸ hw.turn_passes hps with
      | aside outer next level files held =>
          rw [level, held]
          exact ⟨hlevel, hheld⟩
      | leak outer next holds level files held =>
          rw [level, held]
          exact ⟨hlevel, fun n b hb => hheld n b (update_none_eq_some.mp hb).2⟩
      | @attach a outer next id previous level files clear held =>
          have hle : (w.passes ps).log.effective.rank ≤ Level.info.rank := by
            rwa [Log.effective, hlevel, htracks.outer]
          rw [level, Log.lowered_of_le hle, held]
          refine ⟨hlevel, fun n b hb => ?_⟩
          rcases update_some_eq_some.mp hb with ⟨-, rfl⟩ | ⟨-, hb⟩
          · rw [previous, hlevel]
          · exact hheld n b hb
      | @detach a outer next holds level files held =>
          rw [level, held]
          exact ⟨hheld p.name a holds, fun n b hb => hheld n b (update_none_eq_some.mp hb).2⟩

/-- The passages fall into blocks, apart from those that touch no file: each block begins where a
file is attached, and ends where the same file is detached. -/
inductive AtRest (w : Workbench α) : List (Passage α) → Prop
  | start : AtRest w []
  | aside {ps : List (Passage α)} {p : Passage α} : AtRest w ps →
      (w.passes (ps ++ [p])).log.attached = (w.passes ps).log.attached → AtRest w (ps ++ [p])
  | block {ps inner : List (Passage α)} {q p : Passage α} {a : Attachment} : AtRest w ps →
      a ∉ (w.passes ps).log.attached → a ∈ (w.passes (ps ++ [q])).log.attached →
      a ∈ (w.passes (ps ++ [q] ++ inner)).log.attached →
      a ∉ (w.passes (ps ++ [q] ++ inner ++ [p])).log.attached →
      AtRest w (ps ++ [q] ++ inner ++ [p])

/-- After a block the level is the one before it. -/
theorem AtRest.level (h : AtRest w ps) (hw : w.Idle) (hps : w.Orderly ps) :
    (w.passes ps).log.level = w.log.level := by
  induction h with
  | start => rfl
  | @aside ps p _ hfiles ih =>
      have hprefix := hps.of_concat.1
      obtain ⟨later, htracks⟩ := hw.tracks_passes hprefix
      rw [htracks.level_of_files (hw.turn_passes hps) hfiles, ih hprefix]
  | @block ps inner q p a _ hnew hattached hstill hgone ih =>
      have hinner := hps.of_concat.1
      have hblock := (orderly_append.mp hinner).1
      obtain ⟨later, htracks⟩ := hw.tracks_passes hinner
      rw [htracks.level_of_detached hw (hw.turn_passes hps) hstill hgone,
        (hw.turn_passes hblock).previous hnew hattached, ih hblock.of_concat.1]

private theorem Idle.atRest_of_level (hw : w.Idle) (hps : w.Orderly ps)
    (hhigh : Level.info.rank < w.log.effective.rank) :
    ((w.passes ps).log.level = w.log.level → AtRest w ps) ∧
      ∀ name a, (w.passes ps).held name = some a → ∃ earlier q inner,
        ps = earlier ++ [q] ++ inner ∧ a ∉ (w.passes earlier).log.attached ∧
          a ∈ (w.passes (earlier ++ [q])).log.attached ∧
          (a.previous = w.log.level → AtRest w earlier) := by
  induction ps using List.reverseRecOn with
  | nil => exact ⟨fun _ => .start, fun name a ha => by simp [passes, hw.held] at ha⟩
  | append_singleton ps p ih =>
      obtain ⟨hlevel, hheld⟩ := ih hps.of_concat.1
      obtain ⟨later, htracks⟩ := hw.tracks_passes hps.of_concat.1
      have hearlier : ∀ name a, (w.passes ps).held name = some a → ∃ earlier q inner,
          ps ++ [p] = earlier ++ [q] ++ inner ∧ a ∉ (w.passes earlier).log.attached ∧
            a ∈ (w.passes (earlier ++ [q])).log.attached ∧
            (a.previous = w.log.level → AtRest w earlier) := by
        intro name a ha
        obtain ⟨earlier, q, inner, rfl, h⟩ := hheld name a ha
        exact ⟨earlier, q, inner ++ [p], by rw [List.append_assoc], h⟩
      generalize hlost : p.leak (w.passes ps) = lost
      cases hlost ▸ hw.turn_passes hps with
      | aside outer next level files held =>
          rw [level, held]
          exact ⟨fun h => .aside (hlevel h) files, hearlier⟩
      | leak outer next holds level files held =>
          rw [level, held]
          exact ⟨fun h => .aside (hlevel h) files,
            fun n b hb => hearlier n b (update_none_eq_some.mp hb).2⟩
      | @attach a outer next id previous level files clear held =>
          refine ⟨fun h => ?_, fun n b hb => ?_⟩
          · -- the level is low now, and it was not before
            have hlow := Log.effective_of_lowered outer level
            rw [Log.effective, h, outer, htracks.outer] at hlow
            exact absurd hlow (not_le.mpr hhigh)
          · rw [held] at hb
            rcases update_some_eq_some.mp hb with ⟨-, rfl⟩ | ⟨-, hb⟩
            · refine ⟨ps, p, [], (List.append_nil _).symm, fun ha => ?_, ?_, fun h => ?_⟩
              · have := htracks.ids_attached hw b ha
                omega
              · rw [files]
                exact List.mem_append_right _ List.mem_cons_self
              · exact hlevel (previous.symm.trans h)
            · exact hearlier n b hb
      | @detach a outer next holds level files held =>
          refine ⟨fun h => ?_, fun n b hb => ?_⟩
          · obtain ⟨earlier, q, inner, rfl, hnew, hattached, hrest⟩ := hheld p.name a holds
            have hstill := htracks.files ▸ List.mem_append_right _ (htracks.held holds).1
            refine .block (hrest (level.symm.trans h)) hnew hattached hstill ?_
            rw [files]
            simp
          · rw [held] at hb
            exact hearlier n b (update_none_eq_some.mp hb).2

/-- Every session is left after those that were entered behind it. -/
inductive Nested : List (Passage α) → Prop
  | nil : Nested []
  | work {ps : List (Passage α)} (session name : String)
      (solve : Action (Solving α) α (SolveResult α)) :
      Nested ps → Nested (ps ++ [.work session name solve])
  | session {ps inner : List (Passage α)} (around : Surroundings) (name : String)
      (o : SolveOptions α) (engine : Option (Engine α)) (highspy : Option (Highspy α)) :
      Nested ps → Nested inner →
        Nested (ps ++ [.enter around name o engine highspy] ++ inner ++ [.leave name])

private theorem Nested.passes (h : Nested qs) (hw : w.Idle) (hps : w.Orderly (ps ++ qs))
    (hleaks : (w.passes ps).leaks qs = []) :
    (w.passes (ps ++ qs)).log.level = (w.passes ps).log.level ∧
      (w.passes (ps ++ qs)).held = (w.passes ps).held := by
  induction h generalizing ps with
  | nil =>
      rw [List.append_nil]
      exact ⟨rfl, rfl⟩
  | @work qs session name solve _ ih =>
      rw [leaks_concat, List.append_eq_nil_iff] at hleaks
      rw [← List.append_assoc] at hps ⊢
      obtain ⟨hlevel, hheld⟩ := ih hps.of_concat.1 hleaks.1
      obtain ⟨hlog, hsame⟩ := solveIn_state (w.passes (ps ++ qs)) session name solve
      rw [passes_concat]
      exact ⟨(congrArg Log.level hlog).trans hlevel, hsame.trans hheld⟩
  | @session qs inner around name o engine highspy _ _ ih ihInner =>
      have hsplit : ∀ enter leave : Passage α, ps ++ (qs ++ [enter] ++ inner ++ [leave]) =
          ps ++ qs ++ [enter] ++ inner ++ [leave] := by
        simp only [List.append_assoc, implies_true]
      rw [leaks_concat, leaks_append, leaks_concat, List.append_eq_nil_iff,
        List.append_eq_nil_iff, List.append_eq_nil_iff] at hleaks
      simp only [← passes_append, ← List.append_assoc] at hleaks
      obtain ⟨⟨⟨hqs, -⟩, hinnerLeaks⟩, hleave⟩ := hleaks
      rw [hsplit] at hps ⊢
      have hinner := hps.of_concat.1
      have henter := (orderly_append.mp hinner).1
      obtain ⟨hlevel, hheld⟩ := ih henter.of_concat.1 hqs
      obtain ⟨hinnerLevel, hinnerHeld⟩ := ihInner hinner hinnerLeaks
      have hclear : (w.passes (ps ++ qs)).held name = none := henter.of_concat.2
      obtain ⟨hlog, hleft⟩ := pass_leave _ name hleave
      rw [passes_concat, hlog, hleft, ← hlevel, ← hheld, hinnerHeld]
      cases hw.turn_passes henter with
      | aside outer next level files held =>
          rw [held, hclear]
          exact ⟨hinnerLevel.trans level, Function.update_eq_self_iff.mpr hclear.symm⟩
      | attach outer next id previous level files clear held =>
          rw [held, Passage.name, Function.update_self, Function.update_idem]
          exact ⟨previous, Function.update_eq_self_iff.mpr hclear.symm⟩
      | detach outer next holds level files held =>
          rw [Passage.name, hclear] at holds
          cases holds

/-- Sessions that nest leave the log as they found it, if their engines can be closed. -/
theorem Nested.log_eq (h : Nested ps) (hw : w.Idle) (hps : w.Orderly ps)
    (hleaks : w.leaks ps = []) :
    (w.passes ps).log.level = w.log.level ∧ (w.passes ps).log.attached = w.log.attached := by
  obtain ⟨hlevel, hheld⟩ : (w.passes ps).log.level = w.log.level ∧ (w.passes ps).held = w.held :=
    @Nested.passes _ _ w [] ps h hw hps hleaks
  obtain ⟨later, htracks⟩ := hw.tracks_passes hps
  have hlater : later = [] := by
    have hperm := htracks.later_perm fun name => (congrFun hheld name).trans (hw.held name)
    rwa [hleaks, List.perm_nil] at hperm
  exact ⟨hlevel, by rw [htracks.files, hlater, List.append_nil]⟩

/-- Once every session has been left, in whatever order, the log has the files that it had before
the first was entered, and behind them those of the sessions whose engines refused to be closed. It
has the level that it had exactly if that level let informative events through, or if the passages
fall into blocks. -/
theorem log_of_passes (hw : w.Idle) (hps : w.Orderly ps)
    (hleft : ∀ name, (w.passes ps).held name = none) :
    (∃ later, (w.passes ps).log.attached = w.log.attached ++ later ∧ later.Perm (w.leaks ps)) ∧
      ((w.passes ps).log.level = w.log.level ↔
        w.log.effective.rank ≤ Level.info.rank ∨ AtRest w ps) := by
  obtain ⟨later, htracks⟩ := hw.tracks_passes hps
  refine ⟨⟨later, htracks.files, htracks.later_perm hleft⟩, fun h => ?_, ?_⟩
  · rcases lt_or_ge Level.info.rank w.log.effective.rank with hhigh | hlow
    · exact Or.inr ((hw.atRest_of_level hps hhigh).1 h)
    · exact Or.inl hlow
  · rintro (hlow | h)
    · exact (hw.level_of_le hps hlow).1
    · exact h.level hw hps

end Workbench

/-- The entry of a session with a log file under its name. -/
def Sample.entering (name : String) (engine : Option (Engine ℚ) := none) : Workbench.Passage ℚ :=
  .enter (fun _ => none) name { SolveOptions.standard with logFile := some name } engine none

namespace Workbench

/-- One session inside another, and a third after them. -/
theorem log_of_passes_sample :
    let w : Workbench ℚ := empty (some .warning)
    let ps := [Sample.entering "a", Sample.entering "b", .leave "b", .leave "a",
      Sample.entering "a", .leave "a"]
    w.Orderly ps ∧ (w.passes ps).log.attached = [] ∧ AtRest w ps := by
  intro w ps
  have hps : w.Orderly ps := ⟨rfl, rfl, trivial, trivial, rfl, trivial, trivial⟩
  have hsessions : (w.passes ps).sessions.map (·.2.attachment) = [none, none] := by rfl
  have hleaks : w.leaks ps = [] := by rfl
  obtain ⟨⟨later, hfiles, hlater⟩, hlevel⟩ :=
    log_of_passes (idle_empty (some .warning)) hps fun _ => held_eq_none hsessions (by simp)
  rw [hleaks, List.perm_nil] at hlater
  rw [hlater, List.append_nil] at hfiles
  exact ⟨hps, hfiles, (hlevel.mp rfl).resolve_left (by decide)⟩

/-- Of two sessions that overlap, the second puts back the level that it found, which is the one
that the first had set. -/
theorem level_of_overlapping :
    let w : Workbench ℚ := empty (some .warning)
    let ps := [Sample.entering "a", Sample.entering "b", .leave "a", .leave "b"]
    w.Idle ∧ w.Orderly ps ∧ (∀ name, (w.passes ps).held name = none) ∧
      w.log.level = .warning ∧ (w.passes ps).log.level = .info := by
  intro w ps
  have hsessions : (w.passes ps).sessions.map (·.2.attachment) = [none, none] := by rfl
  exact ⟨idle_empty _, ⟨rfl, rfl, trivial, trivial, trivial⟩,
    fun _ => held_eq_none hsessions (by simp), rfl, rfl⟩

-- the file of a session stays attached if its engine refuses to be closed
example :
    let busy : Engine ℚ := .replay { name := "scripted", script := [], refusal := some "busy" }
    let w := (empty (some .warning)).passes [Sample.entering "a" (some busy), .leave "a"]
    w.log.attached.map (·.path) = ["a"] := by rfl

end Workbench

end IncrementalLP

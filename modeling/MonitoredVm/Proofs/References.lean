import Mathlib.Data.List.Induction
import MonitoredVm.Proofs.Consistency

/-!
# References to interpreters

An interpreter that requires references ends with the last of them. Whether it does is decided when a reference is
released, and only then: a handle that does not own never ends its interpreter, and an interpreter that is running is
not ended. Nothing comes back to it later.

Main statement: `reference_contract`. A step can do three things to the references of an interpreter (`Step.counts`):
leave them alone, add one, or release one. So whoever finds an interpreter without the references it requires can tell
which release left it so (`last_release`), and handles of one interpreter may be dropped in any order that keeps the
owning one for the end (`standing_dropping_perm`).
-/

namespace MonitoredVm

open List

/-- Counts one reference less. The last one ends an interpreter that requires references and is at rest, if the
reference is of those that end. -/
def Standing.release (ending : Bool) (s : Standing) : Standing :=
  if s.refs - 1 = 0 ∧ s.requiresRefs ∧ ending ∧ s.status = .ready then { s with refs := s.refs - 1, status := .destroyed }
  else { s with refs := s.refs - 1 }

namespace Standing

theorem refs_release (ending) (s : Standing) : (s.release ending).refs = s.refs - 1 := by
  unfold release
  split <;> rfl

theorem requiresRefs_release (ending) (s : Standing) : (s.release ending).requiresRefs = s.requiresRefs := by
  unfold release
  split <;> rfl

/-- What is left of an interpreter without the references it requires: it was running, or its last reference was not
of those that end. -/
theorem of_release {s : Standing} (none_left : (s.release ending).refs = 0)
    (requires : (s.release ending).requiresRefs = true) (lives : (s.release ending).status ≠ .destroyed) :
    s.status = .running ∨ ending = false := by
  rw [refs_release] at none_left
  rw [requiresRefs_release] at requires
  unfold release at lives
  split at lives
  · exact absurd rfl lives
  · next goes_on =>
    cases ending with
    | false => exact .inr rfl
    | true =>
      left
      cases status : s.status with
      | ready => exact absurd ⟨none_left, requires, rfl, status⟩ goes_on
      | running => rfl
      | destroyed => exact absurd status lives

theorem status_release_of_destroyed {s : Standing} (ended : s.status = .destroyed) (ending) :
    (s.release ending).status = .destroyed := by
  unfold release
  split
  · rfl
  · exact ended

end Standing

namespace Roster
variable {o o' : Roster} {kind : Turn.Kind} {id : Int} {s : Standing}

def refs (o : Roster) (id : Int) : Nat := (o.standing id).elim 0 Standing.refs

/-- The interpreter requires references and has none, and it has not ended. -/
def Stranded (o : Roster) (id : Int) : Prop :=
  ∃ s, o.standing id = some s ∧ s.status ≠ .destroyed ∧ s.requiresRefs = true ∧ s.refs = 0

/-- A handle is dropped: it is given up, or another one is kept in its place. -/
def Drops (o o' : Roster) (h : Handle) : Prop :=
  ∃ name, o.handles.get? name = some h ∧
    (o'.handles = o.handles.erase name ∨ ∃ new, o'.handles = o.handles.insert name new)

/-! ## What one step does -/

/-- What a step can do to the references of an interpreter. -/
inductive Counts (o o' : Roster) (id : Int) (s s' : Standing) : Prop
  | kept (refs : s'.refs = s.refs) (requires : s'.requiresRefs = s.requiresRefs)
  | added (refs : 0 < s'.refs)
  | released (ending : Bool) (after : s' = s.release ending) (how : ending = false → o.Drops o' ⟨id, false⟩)

theorem standing_dropRef (o : Roster) (id j ending) :
    (o.dropRef id ending).standing j = if j = id then (o.standing j).map (·.release ending) else o.standing j := rfl

theorem handles_keepHandle (o : Roster) (name new) : (o.keepHandle name new).handles = o.handles.insert name new := by
  unfold keepHandle
  dsimp only
  split <;> rfl

theorem standing_keepHandle (there : o.standing id = some s) (name new) :
    (o.keepHandle name new).standing id = some s ∨
    ∃ owning, o.handles.get? name = some ⟨id, owning⟩ ∧
      (o.keepHandle name new).standing id = some (s.release owning) := by
  unfold keepHandle
  dsimp only
  split
  · next old kept =>
    rw [standing_dropRef]
    split
    · next here =>
      refine .inr ⟨old.owning, ?_, congrArg (Option.map _) there⟩
      rw [kept, here]
    · exact .inl there
  · exact .inl there

theorem counts_keepHandle {o₁ : Roster} (there : o₁.standing id = some s) (same : o₁.handles = o.handles) (name new) :
    ∃ s', (o₁.keepHandle name new).standing id = some s' ∧
      (s.status = .destroyed → s'.status = .destroyed) ∧ Counts o (o₁.keepHandle name new) id s s' := by
  obtain standing | ⟨owning, kept, standing⟩ := standing_keepHandle there name new
  · exact ⟨s, standing, fun ended => ended, .kept rfl rfl⟩
  · rw [same] at kept
    refine ⟨_, standing, fun ended => Standing.status_release_of_destroyed ended owning, .released owning rfl ?_⟩
    rintro rfl
    exact ⟨name, kept, .inr ⟨new, by rw [handles_keepHandle, same]⟩⟩

theorem counts_change (there : o.standing id = some s) (refs : (f s).refs = s.refs)
    (requires : (f s).requiresRefs = s.requiresRefs)
    (final : id = t → s.status = .destroyed → (f s).status = .destroyed) :
    ∃ s', (o.change t f).standing id = some s' ∧ (s.status = .destroyed → s'.status = .destroyed) ∧
      Counts o o' id s s' := by
  rw [standing_change]
  split
  · next here => exact ⟨f s, by rw [there]; rfl, final here, .kept refs requires⟩
  · exact ⟨s, there, fun ended => ended, .kept rfl rfl⟩

/-- A step leaves the references of an interpreter alone, adds one or releases one. What has ended stays so. -/
theorem Step.counts (h : o.Consistent) (step : Step kind o o') (there : o.standing id = some s) :
    ∃ s', o'.standing id = some s' ∧ (s.status = .destroyed → s'.status = .destroyed) ∧ Counts o o' id s s' := by
  have known : id < o.nextId := h.bounded (by rw [whence?, there]; rfl)
  have created : ∀ whence, (o.create whence).standing id = some s := by
    intro whence
    rw [Roster.create]
    dsimp only
    rw [there]
    rfl
  cases step with
  | meanwhile step =>
    obtain same | ⟨-, s₁, there₁, -, ended⟩ := step.standing id
    · exact ⟨s, same.trans there, fun ended => ended, .kept rfl rfl⟩
    · obtain rfl : s = s₁ := Option.some.inj (there.symm.trans there₁)
      exact ⟨_, ended, fun _ => rfl, .kept rfl rfl⟩
  | context => exact ⟨s, there, fun ended => ended, .kept rfl rfl⟩
  | create whence link =>
    refine ⟨s, ?_, fun ended => ended, .kept rfl rfl⟩
    rw [standing_change, if_neg (by omega), created]
  | own name =>
    have before : ((o.create .stdlib).addRef o.nextId true).standing id = some s := by
      rw [addRef, standing_change, if_neg (by omega), created]
    exact counts_keepHandle (o := o) before rfl name _
  | @refer _ t name _ =>
    by_cases here : id = t
    · subst here
      have before : (o.addRef id false).standing id = some { s with refs := s.refs + 1 } := by
        rw [addRef, standing_change, if_pos rfl, there]
        simp
      -- the handle may take the place of one of the same interpreter, whose reference is then released
      obtain standing | ⟨owning, -, standing⟩ := standing_keepHandle before name ⟨id, false⟩
      · exact ⟨_, standing, fun ended => ended, .added (Nat.succ_pos _)⟩
      · refine ⟨_, standing, fun ended => ?_, .kept ?_ ?_⟩
        · exact Standing.status_release_of_destroyed (s := { s with refs := s.refs + 1 }) ended owning
        · rw [Standing.refs_release]
          rfl
        · rw [Standing.requiresRefs_release]
    · have before : (o.addRef t false).standing id = some s := by
        rw [addRef, standing_change, if_neg here, there]
      exact counts_keepHandle (o := o) before rfl name _
  | @drop _ name kept found =>
    rw [standing_dropRef]
    split
    · next here =>
      refine ⟨_, congrArg (Option.map _) there, fun ended => Standing.status_release_of_destroyed ended _,
        .released kept.owning rfl fun spares => ⟨name, ?_, .inl rfl⟩⟩
      rw [found, here, ← spares]
    · exact ⟨s, there, fun ended => ended, .kept rfl rfl⟩
  | @incref _ t link _ =>
    rw [addRef, standing_change]
    split
    · exact ⟨_, congrArg (Option.map _) there, fun ended => ended, .added (Nat.succ_pos _)⟩
    · exact ⟨s, there, fun ended => ended, .kept rfl rfl⟩
  | @decref _ t _ =>
    rw [standing_dropRef]
    split
    · exact ⟨_, congrArg (Option.map _) there, fun ended => Standing.status_release_of_destroyed ended _,
        .released true rfl fun wrong => by cases wrong⟩
    · exact ⟨s, there, fun ended => ended, .kept rfl rfl⟩
  | @enter _ c t free ready =>
    refine counts_change (o := o) (t := t) there rfl rfl fun here ended => ?_
    rw [← here, status?, there] at ready
    cases ended.symm.trans (Option.some.inj ready)
  | @leave _ c =>
    cases stage : (o.place c).stage with
    | idle =>
      rw [leave_of_idle stage]
      exact ⟨s, there, fun ended => ended, .kept rfl rfl⟩
    | entered t p =>
      rw [leave_of_entered stage]
      refine counts_change (o := o) (t := t) there ?_ ?_ fun _ ended => ?_
      · split <;> rfl
      · split <;> rfl
      · rw [if_neg (by rw [ended]; decide), ended]

theorem refs_of_standing (there : o.standing id = some s) : o.refs id = s.refs := by
  rw [refs, there]
  rfl

theorem standing_of_refs (held : 0 < o.refs id) : ∃ s, o.standing id = some s ∧ 0 < s.refs := by
  unfold refs at held
  cases there : o.standing id with
  | none =>
    rw [there] at held
    cases held
  | some s =>
    rw [there] at held
    exact ⟨s, rfl, held⟩

/-- The step that leaves an interpreter without the references it requires: the interpreter is running, or the step
drops a handle that does not own it. -/
theorem Step.strands (h : o.Consistent) (step : Step kind o o') (held : 0 < o.refs id) (stranded : o'.Stranded id) :
    o.status? id = some .running ∨ o.Drops o' ⟨id, false⟩ := by
  obtain ⟨s, there, held⟩ := standing_of_refs held
  obtain ⟨s', there', -, counts⟩ := step.counts h there
  obtain ⟨s'', stands, lives, requires, unheld⟩ := stranded
  obtain rfl : s' = s'' := Option.some.inj (there'.symm.trans stands)
  cases counts with
  | kept refs _ => omega
  | added refs => omega
  | released ending after how =>
    subst after
    obtain running | spares := Standing.of_release unheld requires lives
    · left
      rw [status?, there, ← running]
      rfl
    · exact .inr (how spares)

theorem Step.stranded (h : o.Consistent) (step : Step kind o o') (there : o.standing id = some s) (unheld : o.refs id = 0)
    (stranded : o'.Stranded id) : o.Stranded id := by
  rw [refs_of_standing there] at unheld
  obtain ⟨s', there', final, counts⟩ := step.counts h there
  obtain ⟨s'', stands, lives, requires, unheld'⟩ := stranded
  obtain rfl : s' = s'' := Option.some.inj (there'.symm.trans stands)
  refine ⟨s, there, fun ended => lives (final ended), ?_, unheld⟩
  cases counts with
  | kept _ same => rw [← same, requires]
  | added refs => omega
  | released ending after _ => rw [← requires, after, Standing.requiresRefs_release]

end Roster

namespace Machine
variable {m : Machine} {id : Int}

/-! ## What a run does -/

theorem takeAll_append (m : Machine) (before after) :
    m.takeAll (before ++ after) = (m.takeAll before).takeAll after := foldl_append

theorem takeAll_concat (m : Machine) (turns turn) :
    m.takeAll (turns ++ [turn]) = (m.takeAll turns).take turn := takeAll_append m turns [turn]

theorem allowsAll_append (m : Machine) (before after) :
    m.allowsAll (before ++ after) = (m.allowsAll before && (m.takeAll before).allowsAll after) := by
  induction before generalizing m with
  | nil => rfl
  | cons first rest ih =>
    rw [cons_append, allowsAll, allowsAll, ih, Bool.and_assoc]
    rfl

theorem standing_takeAll (h : m.roster.Consistent) (allowed : m.allowsAll turns = true)
    (there : (m.roster.standing id).isSome = true) : ((m.takeAll turns).roster.standing id).isSome = true := by
  induction turns generalizing m with
  | nil => exact there
  | cons turn turns ih =>
    obtain ⟨now, later⟩ := Bool.and_eq_true_iff.1 allowed
    obtain ⟨s, stands⟩ := Option.isSome_iff_exists.1 there
    obtain ⟨s', stands', -⟩ := (step_take h.homely now).counts h stands
    exact ih (consistent_take h now) later (by rw [stands']; rfl)

theorem standing_of_earlier (h : m.roster.Consistent) (allowed : m.allowsAll turns = true) (earlier : before <+: turns)
    (held : 0 < (m.takeAll before).roster.refs id) : ∃ s, (m.takeAll turns).roster.standing id = some s := by
  obtain ⟨after, rfl⟩ := earlier
  rw [allowsAll_append, Bool.and_eq_true_iff] at allowed
  obtain ⟨s, there, -⟩ := Roster.standing_of_refs held
  have stays := standing_takeAll (consistent_takeAll h allowed.1) allowed.2 (by rw [there]; rfl)
  rw [← takeAll_append] at stays
  exact Option.isSome_iff_exists.1 stays

/-- Whoever finds an interpreter without the references it requires can tell which release left it so. The induction
takes the last turn off: either it released the last reference, or the interpreter was stranded before it. -/
theorem last_release (h : m.roster.Consistent) (allowed : m.allowsAll turns = true)
    (stranded : (m.takeAll turns).roster.Stranded id)
    (had : ∃ before, before <+: turns ∧ 0 < (m.takeAll before).roster.refs id) :
    ∃ before turn after, turns = before ++ turn :: after ∧ 0 < (m.takeAll before).roster.refs id ∧
      (∀ more, more <+: after → (m.takeAll (before ++ turn :: more)).roster.refs id = 0) ∧
      ((m.takeAll before).roster.status? id = some .running ∨
        (m.takeAll before).roster.Drops (m.takeAll (before ++ [turn])).roster ⟨id, false⟩) := by
  have unheld : (m.takeAll turns).roster.refs id = 0 := by
    obtain ⟨s, there, -, -, unheld⟩ := stranded
    rw [Roster.refs_of_standing there, unheld]
  obtain ⟨before, earlier, held⟩ := had
  induction turns using List.reverseRecOn with
  | nil =>
    obtain rfl := prefix_nil.1 earlier
    omega
  | append_singleton turns turn ih =>
    rw [allowsAll_append, Bool.and_eq_true_iff] at allowed
    obtain ⟨first, last⟩ := allowed
    have consistent := consistent_takeAll h first
    have step := step_take consistent.homely (Bool.and_eq_true_iff.1 last).1
    rw [takeAll_concat] at stranded unheld
    by_cases still : 0 < (m.takeAll turns).roster.refs id
    · refine ⟨turns, turn, [], rfl, still, fun more nothing => ?_, ?_⟩
      · obtain rfl := prefix_nil.1 nothing
        rw [takeAll_concat]
        exact unheld
      · rw [takeAll_concat]
        exact step.strands consistent still stranded
    · have earlier : before <+: turns := by
        obtain rfl | earlier := prefix_concat_iff.1 earlier
        · rw [takeAll_concat] at held
          omega
        · exact earlier
      obtain ⟨s, there⟩ := standing_of_earlier h first earlier held
      have unheld' : (m.takeAll turns).roster.refs id = 0 := by omega
      obtain ⟨before', turn', after, rfl, held', zero, how⟩ :=
        ih first (step.stranded consistent there unheld' stranded) unheld' earlier
      refine ⟨before', turn', after ++ [turn], by simp, held', fun more within => ?_, how⟩
      obtain rfl | within := prefix_concat_iff.1 within
      · rw [← cons_append, ← append_assoc, takeAll_concat]
        exact unheld
      · exact zero more within

/-! ## Dropping handles -/

/-- The turns that drop handles one after the other. -/
def dropping (names : List String) : List Turn := names.map fun name => .command (.dropHandle name)

theorem roster_take_dropHandle (found : m.roster.handles.get? name = some kept) :
    (m.take (.command (.dropHandle name))).roster =
      { m.roster with handles := m.roster.handles.erase name }.dropRef kept.id kept.owning := by
  have settled := m.roster_settle (Value.leasesAll (Command.dropHandle name).values)
  change (m.perform _).1.roster = _
  rw [roster_perform]
  generalize m.settle (Value.leasesAll (Command.dropHandle name).values) = m' at settled ⊢
  have found : m'.handles.get? name = some kept := by
    change m'.roster.handles.get? name = some kept
    rw [settled, found]
  rw [act, found, ← settled]
  exact roster_dropRef _ kept.id kept.owning

/-- Handles that do not own their interpreter go: it has that many references less, and stands as before otherwise. -/
theorem roster_dropping {names} (distinct : names.Nodup)
    (kept : ∀ name ∈ names, m.roster.handles.get? name = some ⟨id, false⟩) :
    (m.takeAll (dropping names)).roster.standing =
        (m.roster.change id fun s => { s with refs := s.refs - names.length }).standing ∧
      ∀ name, name ∉ names → (m.takeAll (dropping names)).roster.handles.get? name = m.roster.handles.get? name := by
  induction names generalizing m with
  | nil => exact ⟨(congrArg Roster.standing (Roster.change_of_eq fun _ _ => rfl)).symm, fun _ _ => rfl⟩
  | cons name names ih =>
    obtain ⟨apart, distinct⟩ := nodup_cons.1 distinct
    have first := roster_take_dropHandle (kept name mem_cons_self)
    have others : ∀ other, other ≠ name →
        (m.take (.command (.dropHandle name))).roster.handles.get? other = m.roster.handles.get? other := by
      intro other differs
      rw [first]
      exact Bindings.get?_erase_of_ne _ (Ne.symm differs)
    have rest := ih (m := m.take (.command (.dropHandle name))) distinct fun other inside => by
      rw [others other (fun same => apart (same ▸ inside)), kept other (mem_cons_of_mem _ inside)]
    refine ⟨rest.1.trans ?_, fun other outside => ?_⟩
    · funext j
      rw [Roster.standing_change, Roster.standing_change, first, Roster.standing_dropRef]
      by_cases here : j = id
      · rw [if_pos here, if_pos here, if_pos here, Option.map_map]
        congr 1
        funext s
        dsimp only [Function.comp]
        unfold Standing.release
        rw [if_neg (by simp)]
        simp only [length_cons]
        congr 1
        omega
      · rw [if_neg here, if_neg here, if_neg here]
    · have last := rest.2 other (not_mem_of_not_mem_cons outside)
      exact last.trans (others other (ne_of_not_mem_cons outside))

/-- Handles of one interpreter are dropped, and only the last may own it: what is left of the interpreter depends on how
many there were and on that one. -/
theorem standing_dropping_last {names last owning} (distinct : (names ++ [last]).Nodup)
    (kept : ∀ name ∈ names, m.roster.handles.get? name = some ⟨id, false⟩)
    (keptLast : m.roster.handles.get? last = some ⟨id, owning⟩) :
    (m.takeAll (dropping (names ++ [last]))).roster.standing =
      (m.roster.change id fun s => ({ s with refs := s.refs - names.length } : Standing).release owning).standing := by
  obtain ⟨distinct, -, apart⟩ := nodup_append.1 distinct
  have outside : last ∉ names := fun inside => apart last inside last mem_cons_self rfl
  obtain ⟨before, handles⟩ := roster_dropping distinct kept
  have step := roster_take_dropHandle ((handles last outside).trans keptLast)
  rw [dropping, map_append, takeAll_append]
  change ((m.takeAll (dropping names)).take (.command (.dropHandle last))).roster.standing = _
  funext j
  rw [step, Roster.standing_dropRef]
  change (if j = id then ((m.takeAll (dropping names)).roster.standing j).map _
    else (m.takeAll (dropping names)).roster.standing j) = _
  rw [before, Roster.standing_change, Roster.standing_change]
  by_cases here : j = id
  · rw [if_pos here, if_pos here, if_pos here, Option.map_map]
    rfl
  · rw [if_neg here, if_neg here, if_neg here]

/-- The order in which the handles of one interpreter are dropped does not matter, if one that owns it is the last. -/
theorem standing_dropping_perm (distinct : names.Nodup) (same : names.Perm names')
    (kept : ∀ name ∈ names, ∃ owning, m.roster.handles.get? name = some ⟨id, owning⟩)
    (lastly : ∀ name ∈ names.dropLast, m.roster.handles.get? name = some ⟨id, false⟩)
    (lastly' : ∀ name ∈ names'.dropLast, m.roster.handles.get? name = some ⟨id, false⟩) :
    (m.takeAll (dropping names)).roster.standing = (m.takeAll (dropping names')).roster.standing := by
  obtain rfl | ⟨init, last, rfl⟩ := eq_nil_or_concat names
  · rw [nil_perm.1 same]
  · obtain rfl | ⟨init', last', rfl⟩ := eq_nil_or_concat names'
    · rw [perm_nil.1 same]
    · rw [concat_eq_append] at *
      rw [concat_eq_append] at *
      rw [dropLast_concat] at lastly lastly'
      have length : init.length = init'.length := by simpa using same.length_eq
      obtain ⟨owning, here⟩ := kept last (by simp)
      obtain ⟨owning', here'⟩ := kept last' (same.mem_iff.2 (by simp))
      -- either both orders end with the same handle, or each ends with one that comes earlier in the other
      have agree : owning = owning' := by
        by_cases ends : last = last'
        · subst ends
          cases here.symm.trans here'
          rfl
        · have inside : last ∈ init' := by
            have : last ∈ init' ++ [last'] := same.mem_iff.1 (by simp)
            simpa [ends] using this
          have inside' : last' ∈ init := by
            have : last' ∈ init ++ [last] := same.mem_iff.2 (by simp)
            simpa [Ne.symm ends] using this
          cases here.symm.trans (lastly' last inside)
          cases here'.symm.trans (lastly last' inside')
          rfl
      subst agree
      rw [standing_dropping_last distinct lastly here, standing_dropping_last (same.nodup_iff.1 distinct) lastly' here', length]

theorem standing_get? (m : Machine) (j) :
    (m.get? j).map Interpreter.standing = (m.roster.standing j).filter fun s => s.status != .destroyed := by
  rw [standing_roster, get?]
  cases m.find? j with
  | none => rfl
  | some i =>
    have same : i.isReady = (i.standing.status != .destroyed) := rfl
    rw [Option.filter_some, Option.map_some, Option.filter_some, same]
    split <;> rfl

end Machine

/-- An interpreter with an owning handle, one that does not own it, and one more of these. -/
def Turn.sharing : List Turn :=
  [.command (.createOwned none "owner"), .command (.reference 1 "guest"), .command (.reference 1 "visitor")]

end MonitoredVm

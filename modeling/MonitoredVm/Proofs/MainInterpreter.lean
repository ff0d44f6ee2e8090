import MonitoredVm.Proofs.Consistency

/-!
# How long the main interpreter lives

Interpreter 0 is made with the machine, and every context that is in no session runs in it. Ending it by its id is
refused, a session keeps it from ending, and no handle owns it. Dropping a reference by its id asks for none of this:
once the main interpreter has been linked to its references, the last of them ends it like any other.

Main statement: `main_interpreter_lives_iff`, which says exactly when it has ended and what the contexts then run in.
One lemma says what steps leave alone about the main interpreter (`Step.main_view`); its two uses are that only a
dropped reference ends it and that only an added one can link it.
-/

namespace MonitoredVm

namespace Roster
variable {o o' : Roster} {kind : Turn.Kind}

/-- What a view of the main interpreter must not show, so that turns of some kind leave it as it is. -/
structure Blind {α : Type} (view : Standing → α) (kind : Turn.Kind) : Prop where
  refs : ∀ s refs, view { s with refs } = view s
  runs : ∀ s, s.status = .ready → view { s with status := .running } = view s
  rests : ∀ s, s.status = .running → view { s with status := .ready } = view s
  links : ∀ {link}, kind = .increfs 0 link → ∀ s, view { s with requiresRefs := s.requiresRefs || link } = view s
  ends : kind = .decrefs 0 → ∀ s, s.status = .ready → view { s with status := .destroyed } = view s

section View
variable {α : Type} {view : Standing → α}

theorem main_change {id f} (same : id = 0 → ∀ s ∈ o.standing 0, view (f s) = view s) :
    ((o.change id f).standing 0).map view = (o.standing 0).map view := by
  rw [standing_change]
  split
  · next main =>
    rw [Option.map_map]
    exact Option.map_congr fun s there => same main.symm s there
  · rfl

theorem main_addRef (refs : ∀ s refs, view { s with refs } = view s) {id link}
    (links : id = 0 → ∀ s, view { s with requiresRefs := s.requiresRefs || link } = view s) :
    ((o.addRef id link).standing 0).map view = (o.standing 0).map view :=
  main_change fun main s _ => (refs { s with requiresRefs := s.requiresRefs || link } _).trans (links main s)

theorem main_dropRef (refs : ∀ s refs, view { s with refs } = view s) {id ending}
    (ends : id = 0 → ending = true → ∀ s, s.status = .ready → view { s with status := .destroyed } = view s) :
    ((o.dropRef id ending).standing 0).map view = (o.standing 0).map view := by
  refine main_change fun main s _ => ?_
  split
  · next last => exact (refs { s with status := .destroyed } _).trans (ends main last.2.2.1 s last.2.2.2)
  · exact refs s _

theorem main_create (h : o.Consistent) (whence) :
    ((o.create whence).standing 0).map view = (o.standing 0).map view := by
  obtain ⟨s, there, -⟩ := Option.map_eq_some_iff.1 h.main
  rw [create]
  dsimp only
  rw [there]
  rfl

theorem Consistent.owning_of_get? (h : o.Consistent) (found : o.handles.get? name = some kept)
    (owning : kept.owning = true) : kept.id ≠ 0 := by
  obtain ⟨e, inside, rfl⟩ := Bindings.mem_of_lookup found
  exact h.owning e inside owning

theorem main_keepHandle (h : o.Consistent) (refs : ∀ s refs, view { s with refs } = view s) (name new) :
    ((o.keepHandle name new).standing 0).map view = (o.standing 0).map view := by
  unfold keepHandle
  dsimp only
  split
  · next old kept =>
    exact main_dropRef refs fun main owning => absurd main (h.owning_of_get? kept owning)
  · rfl

theorem Step.main_view (h : o.Consistent) (step : Step kind o o') (blind : Blind view kind) :
    (o'.standing 0).map view = (o.standing 0).map view := by
  have positive := h.positive
  cases step with
  | meanwhile step =>
    obtain same | ⟨other, -⟩ := step.standing 0
    · rw [same]
    · exact absurd rfl other
  | context => rfl
  | create whence link =>
    refine (main_change fun main => ?_).trans (main_create h whence)
    omega
  | own name =>
    have owned := (h.create .stdlib).addRef o.nextId true
    refine (main_keepHandle owned blind.refs name _).trans ((main_addRef blind.refs fun main => ?_).trans (main_create h .stdlib))
    omega
  | @refer _ id name _ =>
    refine (main_keepHandle (h.addRef id false) blind.refs name _).trans (main_addRef blind.refs fun _ s => ?_)
    rw [Bool.or_false]
  | drop kept => exact main_dropRef blind.refs fun main owning => absurd main (h.owning_of_get? kept owning)
  | incref _ => exact main_addRef blind.refs fun main => blind.links (main ▸ rfl)
  | decref _ => exact main_dropRef blind.refs fun main _ => blind.ends (main ▸ rfl)
  | @enter _ c t free ready =>
    refine main_change fun main s there => blind.runs s ?_
    rw [main, status?, there] at ready
    exact Option.some.inj ready
  | @leave _ c =>
    cases stage : (o.place c).stage with
    | idle => rw [leave_of_idle stage]
    | entered t p =>
      rw [leave_of_entered stage]
      refine main_change fun _ s _ => ?_
      split
      · next running => exact blind.rests s running
      · rfl

end View

/-! ## What ends the main interpreter -/

/-- The main interpreter is at rest, has been linked to its references, and has but one of them or none. -/
def Expendable (o : Roster) : Prop :=
  ∃ s, o.standing 0 = some s ∧ s.status = .ready ∧ s.refs ≤ 1 ∧ s.requiresRefs = true

theorem registered_iff (o : Roster) (id) :
    o.Registered id ↔ (o.standing id).map (fun s => decide (s.status = .destroyed)) = some false := by
  rw [Option.map_eq_some_iff]
  simp only [decide_eq_false_iff_not]
  rfl

theorem Step.registered_main (h : o.Consistent) (step : Step kind o o') (other : kind ≠ .decrefs 0) :
    o'.Registered 0 ↔ o.Registered 0 := by
  have blind : Blind (fun s => decide (s.status = .destroyed)) kind := by
    refine ⟨fun _ _ => rfl, fun s ready => ?_, fun s running => ?_, fun _ _ => rfl, fun here => absurd here other⟩
    · simp [ready]
    · simp [running]
  rw [registered_iff, registered_iff, step.main_view h blind]

theorem registered_dropRef (o : Roster) : (o.dropRef 0 true).Registered 0 ↔ o.Registered 0 ∧ ¬ o.Expendable := by
  unfold Registered Expendable dropRef
  rw [standing_change, if_pos rfl]
  cases o.standing 0 with
  | none => simp
  | some s =>
    by_cases ready : s.status = .ready
    · by_cases last : s.refs ≤ 1 ∧ s.requiresRefs = true
      · simp [ready, last]
      · have fewer : s.refs - 1 = 0 ↔ s.refs ≤ 1 := by omega
        simp [ready, fewer, last]
    · simp [ready]

/-- The main interpreter has been linked to its references. -/
def Linked (o : Roster) : Prop := (o.standing 0).map (·.requiresRefs) = some true

theorem Step.linked (h : o.Consistent) (step : Step kind o o') (other : kind ≠ .increfs 0 true) :
    o'.Linked ↔ o.Linked := by
  have blind : Blind (·.requiresRefs) kind := by
    refine ⟨fun _ _ => rfl, fun _ _ => rfl, fun _ _ => rfl, fun {link} here s => ?_, fun _ _ _ => rfl⟩
    cases link with
    | true => exact absurd here other
    | false => exact Bool.or_false _
  rw [Linked, Linked, step.main_view h blind]

theorem Expendable.linked (h : o.Expendable) : o.Linked := by
  obtain ⟨s, there, -, -, linked⟩ := h
  rw [Linked, there, ← linked]
  rfl

end Roster

namespace Machine
variable {m : Machine}

/-- The turn drops the last reference of the main interpreter, where that ends it. -/
def endsMain (m : Machine) : Turn → Bool
  | .command (.decref _ 0 false) =>
    (m.find? 0).any fun i => i.status = .ready && i.refs ≤ 1 && i.requiresRefs
  | _ => false

/-- No turn ends the main interpreter when it comes. -/
def sparesMain : Machine → List Turn → Bool
  | _, [] => true
  | m, turn :: turns => !m.endsMain turn && (m.take turn).sparesMain turns

theorem endsMain_decref (m : Machine) (c) : m.endsMain (.command (.decref c 0 false)) = true ↔ m.roster.Expendable := by
  rw [endsMain, Roster.Expendable, standing_roster]
  cases m.find? 0 with
  | none => simp
  | some i => simp [Interpreter.standing, and_assoc]

theorem endsMain_cases (ends : m.endsMain turn = true) : turn.kind = .decrefs 0 ∧ m.roster.Expendable := by
  unfold endsMain at ends
  split at ends
  · next c => exact ⟨rfl, (m.endsMain_decref c).1 ends⟩
  · cases ends

/-- The main interpreter is not this library's to change, but only a restricted call asks for that. -/
theorem registered_decref (h : m.roster.Consistent) (c restrict) :
    (Work.decref c 0 restrict m).2.roster.Registered 0 ↔
      m.roster.Registered 0 ∧ ¬ (restrict = false ∧ m.roster.Expendable) := by
  obtain ⟨same, refused⟩ | ⟨registered, whence, dropped⟩ := decref_cases c 0 restrict m
  · rw [same]
    constructor
    · intro registered
      exact ⟨registered, fun both => refused both.1 registered⟩
    · exact fun both => both.1
  · cases restrict with
    | true => cases (whence rfl).symm.trans h.main
    | false => rw [dropped, Roster.registered_dropRef, eq_self, true_and]

/-- One turn: the main interpreter lives on exactly if it lived and the turn does not end it. -/
theorem registered_take (h : m.roster.Consistent) (allowed : m.allows turn = true) :
    (m.take turn).roster.Registered 0 ↔ m.roster.Registered 0 ∧ m.endsMain turn = false := by
  by_cases kind : turn.kind = .decrefs 0
  · obtain ⟨c, restrict, rfl⟩ := Turn.of_decrefs kind
    have settled := m.roster_settle (Value.leasesAll (Command.decref c 0 restrict).values)
    have spared : m.endsMain (.command (.decref c 0 restrict)) = false ↔ ¬ (restrict = false ∧ m.roster.Expendable) := by
      cases restrict with
      | true => simp [endsMain]
      | false => rw [← m.endsMain_decref c, eq_self, true_and, Bool.not_eq_true]
    change (m.perform _).1.roster.Registered 0 ↔ _
    rw [roster_perform, act, operate_fst, registered_decref (settled.symm ▸ h), settled, spared]
  · have spared : m.endsMain turn = false := Bool.eq_false_iff.2 fun ends => kind (endsMain_cases ends).1
    rw [(step_take h.homely allowed).registered_main h kind, spared, eq_self, and_true]

theorem registered_takeAll (h : m.roster.Consistent) (allowed : m.allowsAll turns = true) :
    (m.takeAll turns).roster.Registered 0 ↔ m.roster.Registered 0 ∧ m.sparesMain turns = true := by
  induction turns generalizing m with
  | nil => simp [takeAll, sparesMain]
  | cons turn turns ih =>
    obtain ⟨now, follow⟩ := Bool.and_eq_true_iff.1 allowed
    change ((m.take turn).takeAll turns).roster.Registered 0 ↔ _
    rw [ih (consistent_take h now) follow, registered_take h now, sparesMain, Bool.and_eq_true_iff, Bool.not_eq_true',
      and_assoc]

theorem sparesMain_of_unlinked (h : m.roster.Consistent) (allowed : m.allowsAll turns = true)
    (unlinked : ¬ m.roster.Linked) (never : ∀ turn ∈ turns, turn.kind ≠ .increfs 0 true) :
    m.sparesMain turns = true := by
  induction turns generalizing m with
  | nil => rfl
  | cons turn turns ih =>
    obtain ⟨now, follow⟩ := Bool.and_eq_true_iff.1 allowed
    have spared : m.endsMain turn = false :=
      Bool.eq_false_iff.2 fun ends => unlinked (endsMain_cases ends).2.linked
    have still : ¬ (m.take turn).roster.Linked := by
      rwa [(step_take h.homely now).linked h (never turn List.mem_cons_self)]
    rw [sparesMain, spared]
    exact ih (consistent_take h now) follow still fun turn inside => never turn (List.mem_cons_of_mem _ inside)

theorem registered_start (log : Log MachineNote) : (start log).roster.Registered 0 :=
  ⟨{ whence := .runtime }, rfl, Status.noConfusion⟩

theorem unlinked_start (log : Log MachineNote) : ¬ (start log).roster.Linked :=
  fun linked => Bool.noConfusion (Option.some.inj linked)

end Machine

/-- How long the main interpreter lives. In every machine that is reached it is there, ready or running and registered,
exactly when no turn has dropped its last reference once it was linked to them, and nothing but an explicit incref
links it. A context runs in an interpreter that is registered exactly when the main one is or the context has entered
one. -/
theorem main_interpreter_lives_iff (log : Log MachineNote) (turns : List Turn)
    (allowed : (Machine.start log).allowsAll turns = true) :
    let m := (Machine.start log).takeAll turns
    (∃ i, m.find? 0 = some i ∧
      ((i.status = .ready ∨ i.status = .running) ↔ (Machine.start log).sparesMain turns = true)) ∧
    ((m.get? 0).isSome = true ↔ (Machine.start log).sparesMain turns = true) ∧
    ((∀ turn ∈ turns, turn.kind ≠ .increfs 0 true) → (m.get? 0).isSome = true) ∧
    (∀ c, (m.get? (m.context c).current).isSome = true ↔
      (m.get? 0).isSome = true ∨ ∃ t p, (m.session c).stage = .entered t p) := by
  intro m
  have start := Machine.consistent_start log
  have h : m.roster.Consistent := Machine.consistent_takeAll start allowed
  have lives : (m.get? 0).isSome = true ↔ (Machine.start log).sparesMain turns = true := by
    rw [m.isSome_get?_iff, Machine.registered_takeAll start allowed]
    exact and_iff_right (Machine.registered_start log)
  refine ⟨?_, lives, fun never => ?_, fun c => ?_⟩
  · obtain ⟨s, there, -⟩ := Option.map_eq_some_iff.1 h.main
    obtain ⟨i, found, -⟩ := Option.map_eq_some_iff.1 there
    refine ⟨i, found, ?_⟩
    rw [← lives, Machine.get?, found]
    cases status : i.status <;> simp [Option.filter, Interpreter.isReady, status]
  · exact lives.2 (Machine.sparesMain_of_unlinked start allowed (Machine.unlinked_start log) never)
  · rw [← m.current_roster, ← m.stage_roster]
    cases stage : (m.roster.place c).stage with
    | idle => simp [h.homely c stage]
    | entered t p =>
      obtain ⟨current, -, runs⟩ := h.entered stage
      have registered : m.roster.Registered t := by
        obtain ⟨s, there, running⟩ := Option.map_eq_some_iff.1 runs
        exact ⟨s, there, by rw [running]; decide⟩
      rw [current, m.isSome_get?_iff]
      exact ⟨fun _ => .inr ⟨t, p, rfl⟩, fun _ => registered⟩

/-- The main interpreter is linked to its references, and its only one is dropped. -/
def Turn.unlinking : List Turn := [.command (.incref 0 0 true false), .command (.decref 0 0 false)]

/-- Two turns end the main interpreter, and the only context then runs in an interpreter that is not registered. -/
theorem main_interpreter_lives_iff_unlinking :
    let m := (Machine.start {}).takeAll Turn.unlinking
    (Machine.start {}).allowsAll Turn.unlinking = true ∧ (m.get? 0).isSome = false ∧
      (m.get? (m.context 0).current).isSome = false := by
  intro m
  have allowed : (Machine.start {}).allowsAll Turn.unlinking = true := by decide +kernel
  obtain ⟨-, lives, -, current⟩ := main_interpreter_lives_iff {} Turn.unlinking allowed
  have ended : ¬ (m.get? 0).isSome = true := by
    rw [lives]
    decide +kernel
  have idle : (m.session 0).stage = .idle := rfl
  refine ⟨allowed, Bool.eq_false_iff.2 ended, Bool.eq_false_iff.2 fun registered => ?_⟩
  obtain lives | ⟨t, p, entered⟩ := (current 0).1 registered
  · exact ended lives
  · cases idle.symm.trans entered

end MonitoredVm

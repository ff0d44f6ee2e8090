import MonitoredVm.Proofs.Formed

/-!
# Histories

What holds of every code object after any history of operations. A property that holds of a fresh code object and
that every move keeps holds of all of them; for a property of the cells and what happened so far it is enough that
alignments and answers keep it.
-/

namespace MonitoredVm

namespace World

def after (specs : List CodeSpec) (callbacks : List Callback) (threshold : Level) (ops : List Operation) : World :=
  ((World.start specs callbacks threshold).performAll ops).1

/-- The world comes from a history in which of all events only some are fired by hand. -/
def Reached (loose : Event → Bool) (w : World) : Prop :=
  ∃ specs callbacks threshold ops, Operation.allFireOnly loose ops = true ∧ after specs callbacks threshold ops = w

theorem performAll_append (ops rest) (w : World) :
    (w.performAll (ops ++ rest)).1 = ((w.performAll ops).1.performAll rest).1 := by
  induction ops generalizing w with
  | nil => rfl
  | cons op ops ih => exact ih (w.perform op).1

theorem Reached.performAll {loose : Event → Bool} {w : World} (h : w.Reached loose)
    (ok : Operation.allFireOnly loose ops = true) : (w.performAll ops).1.Reached loose := by
  have both : ∀ ops rest : List Operation, Operation.allFireOnly loose ops = true →
      Operation.allFireOnly loose rest = true → Operation.allFireOnly loose (ops ++ rest) = true := by
    intro ops rest first others
    induction ops with
    | nil => exact others
    | cons op ops ih =>
      obtain ⟨this, later⟩ := Bool.and_eq_true_iff.1 first
      exact Bool.and_eq_true_iff.2 ⟨this, ih later⟩
  obtain ⟨specs, callbacks, threshold, before, loose_before, rfl⟩ := h
  exact ⟨specs, callbacks, threshold, before ++ ops, both before ops loose_before ok, performAll_append before ops _⟩

/-- The code object `c`, which is monitored and at the engine's version. -/
structure Current (w : World) (c : Nat) (code : Code) (s : CodeState) : Prop where
  there : c < w.codes.size
  code_eq : (w.entry c).code = code
  state_eq : (w.entry c).state = s
  monitored : code.noMonitoring = false
  version : s.version = w.engine.version

def All (w : World) (inv : Engine → Code → CodeState → Prop) : Prop :=
  ∀ i, i < w.codes.size → inv w.engine (w.entry i).code (w.entry i).state

theorem effects_start (specs) (callbacks : List Callback) (threshold) :
    Effects p rule { callbacks := callbacks.toArray, log := { threshold } } (start specs callbacks threshold) := by
  have started : ∀ (specs : List CodeSpec) (w : World),
      Effects p rule w (specs.foldl (fun w spec => (w.addCode spec).1) w) := by
    intro specs
    induction specs with
    | nil => exact fun w => .refl
    | cons spec rest ih => exact fun w => (Relation.ReflTransGen.single (.addCode spec)).trans (ih _)
  exact started specs _

theorem moves_start (specs) (callbacks : List Callback) (threshold) :
    Moves rule { callbacks := callbacks.toArray, log := { threshold } } (start specs callbacks threshold) :=
  (effects_start (p := .any) specs callbacks threshold).moves

theorem moves_after {rule : Discipline} (specs) (callbacks : List Callback) (threshold)
    (loose : Operation.allFireOnly rule.loose ops = true) :
    Moves rule { callbacks := callbacks.toArray, log := { threshold } } (after specs callbacks threshold ops) :=
  (moves_start specs callbacks threshold).trans (moves_performAll _ ops loose)

end World

/-- A property of code objects that holds at first and that every move keeps. -/
structure Invariant (rule : Rule) (inv : Engine → Code → CodeState → Prop) : Prop where
  fresh : ∀ {e : Engine} (spec : CodeSpec), e.Begun → inv e spec.assemble.1 (CodeState.ofCode spec.assemble.1)
  alike : ∀ {e e' : Engine} {code : Code} {s s' : CodeState}, e.Alike e' → s.Alike s' → inv e code s → inv e' code s'
  govern : ∀ {e e' : Engine} {code : Code} {s : CodeState}, e.Move e' → inv e code s → inv e' code s
  move : ∀ {e : Engine} {code : Code} {s s' : CodeState}, s.Move rule e code s' → inv e code s → inv e code s'

namespace Invariant
variable {rule : Rule} {inv : Engine → Code → CodeState → Prop}

theorem all_of_sameCodes (h : Invariant rule inv) {w w' : World} (engine : w.engine.Alike w'.engine)
    (codes : w.SameCodes w') (all : w.All inv) : w'.All inv := by
  intro i lt
  have entry := codes.entry i
  rw [entry.code]
  exact h.alike engine entry.state (all i (codes.size ▸ lt))

theorem step (h : Invariant rule inv) {w w' : World} (m : World.Move rule w w') (begun : w.engine.Begun)
    (all : w.All inv) : w'.engine.Begun ∧ w'.All inv := by
  cases m with
  | quiet engine codes =>
    refine ⟨fun zero ev => ?_, h.all_of_sameCodes engine codes all⟩
    rw [engine.globals]
    exact begun (engine.version ▸ zero) ev
  | govern moved codes =>
    refine ⟨fun zero => ?_, fun i lt => ?_⟩
    · have raised := moved.version_lt
      omega
    · have entry := codes.entry i
      rw [entry.code]
      exact h.alike (.refl _) entry.state (h.govern moved (all i (codes.size ▸ lt)))
  | @change _ i s lt moved engine codes =>
    have alike : (w.modifyState i fun _ => s).engine.Alike w'.engine := by
      rw [engine]
      exact .refl _
    refine ⟨engine ▸ begun, h.all_of_sameCodes alike codes fun j j_lt => ?_⟩
    rw [World.entry_modifyState]
    split
    next here => exact h.move moved (all i lt)
    next => exact all j (by simpa using j_lt)
  | addCode spec =>
    refine ⟨begun, fun i lt => ?_⟩
    rw [World.entry_addCode]
    split
    next => exact h.fresh spec begun
    next =>
      rw [World.size_addCode] at lt
      exact all i (by omega)

theorem moves (h : Invariant rule inv) (moved : World.Moves rule w w') (begun : w.engine.Begun) (all : w.All inv) :
    w'.engine.Begun ∧ w'.All inv := by
  induction moved with
  | refl => exact ⟨begun, all⟩
  | tail _ m ih => exact h.step m ih.1 ih.2

theorem reached {rule : Discipline} (h : Invariant rule inv) {w : World} (reached : w.Reached rule.loose) :
    w.engine.Begun ∧ w.All inv := by
  obtain ⟨specs, callbacks, threshold, ops, loose, rfl⟩ := reached
  have empty : World.All { callbacks := callbacks.toArray, log := { threshold } } inv := fun i lt => by
    simp at lt
  have begun : Engine.Begun {} := fun _ ev => Monitors.mask_none _
  exact h.moves (World.moves_after specs callbacks threshold loose) begun empty

end Invariant

/-- What holds of every code object after any history. -/
structure Sound (e : Engine) (code : Code) (s : CodeState) : Prop where
  grid : code.OnGrid
  formed : s.Formed code
  step : s.InStep e code

theorem invariant_sound (rule) : Invariant rule Sound where
  fresh spec begun := ⟨spec.onGrid_assemble, CodeState.formed_ofCode _, CodeState.inStep_ofCode begun _⟩
  alike := by
    rintro e e' code s _ engine ⟨changes, rfl⟩ ⟨grid, formed, step⟩
    refine ⟨grid, formed.noted s.history changes, ?_⟩
    have enabled : ∀ ev, s.enabled e' ev = s.enabled e ev := fun ev => by
      simp only [CodeState.enabled, engine.globals]
    refine ⟨engine.version ▸ step.behind, fun monitored current linable ev isLocal => ?_⟩
    refine (step.active monitored (current.trans engine.version) ?_ ev isLocal).trans (enabled ev).symm
    exact fun on => linable fun off => on ((enabled .line).symm.trans off)
  govern moved h := by
    have raised := moved.version_lt
    have behind := h.step.behind
    exact ⟨h.grid, h.formed, by omega, fun _ current => by omega⟩
  move m h := ⟨h.grid, h.formed.move h.grid m, h.step.move h.formed h.grid m⟩

/-- The code object at the engine's version. -/
def CodeState.upToDate (s : CodeState) (e : Engine) (code : Code) : CodeState :=
  if s.version = e.version then s else (e.force code s).1

theorem CodeState.Formed.force_realigned (h : s.Formed code) (grid : code.OnGrid)
    (monitored : code.noMonitoring = false) (lines : (LineTable.build code).isSome = true) (e : Engine) :
    (∃ r, (e.force code s).2 = .ok r) ∧ s.Realigned e code (e.force code s).1 := by
  rcases force_cases e monitored grid h.sized h.lined with realigned | ⟨-, f⟩
  · exact realigned
  · rw [f.unbuilt] at lines
    cases lines

theorem Sound.upToDate (h : Sound e code s) (monitored : code.noMonitoring = false)
    (lines : (LineTable.build code).isSome = true) : s.version = e.version ∧ s.upToDate e code = s ∨
      s.version ≠ e.version ∧ (∃ r, (e.force code s).2 = .ok r) ∧ s.upToDate e code = (e.force code s).1 ∧
        s.Realigned e code (e.force code s).1 := by
  by_cases current : s.version = e.version
  · exact .inl ⟨current, if_pos current⟩
  · obtain ⟨ok, r⟩ := h.formed.force_realigned h.grid monitored lines e
    exact .inr ⟨current, ok, if_neg current, r⟩

theorem Sound.version_upToDate (h : Sound e code s) (monitored : code.noMonitoring = false)
    (lines : (LineTable.build code).isSome = true) : (s.upToDate e code).version = e.version := by
  obtain ⟨current, same⟩ | ⟨-, -, same, r⟩ := h.upToDate monitored lines
  · rw [same, current]
  · rw [same, r.version]

theorem Act.exec_instrument (lt : i < w.codes.size) (sound : Sound w.engine (w.entry i).code (w.entry i).state)
    (monitored : (w.entry i).code.noMonitoring = false) (lines : (LineTable.build (w.entry i).code).isSome = true) :
    ∃ w', exec (instrument i) w = (.ok (), w') ∧ w'.engine = w.engine ∧ w'.threads = w.threads ∧
      w'.callbacks = w.callbacks ∧ ((w.entry i).state.upToDate w.engine (w.entry i).code).Alike (w'.entry i).state := by
  unfold instrument
  rw [exec_bind, exec_get]
  dsimp only
  obtain ⟨current, same⟩ | ⟨behind, ⟨r, ok⟩, same, -⟩ := sound.upToDate monitored lines
  · rw [if_neg (Decidable.not_not.2 current)]
    refine ⟨w, rfl, rfl, rfl, rfl, ?_⟩
    rw [same]
    exact .refl _
  · have entry : (w.modifyEntry i fun e => { e with tracked := true }).entry i = { w.entry i with tracked := true } := by
      rw [World.entry_modifyEntry, if_pos ⟨rfl, lt⟩]
    obtain ⟨changes, log, ran⟩ := exec_force i (w.modifyEntry i fun e => { e with tracked := true })
    rw [entry] at ran
    rw [if_pos behind]
    refine ⟨_, (exec_bind _ _ w).trans (ran.trans (Prod.ext (congrArg (·.map fun _ => ()) ok) rfl)), rfl, rfl, rfl, ?_⟩
    have after := (w.modifyEntry i fun e => { e with tracked := true }).entry_modifyState i i
      fun _ => { (w.engine.force (w.entry i).code (w.entry i).state).1 with changes }
    rw [if_pos ⟨rfl, by rwa [World.size_modifyEntry]⟩] at after
    rw [same]
    exact ⟨changes, congrArg CodeEntry.state after⟩

end MonitoredVm

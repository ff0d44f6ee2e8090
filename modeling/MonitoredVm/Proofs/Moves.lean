import MonitoredVm.Proofs.Effects

/-!
# Moves

Whatever is done to a world, its engine and its code objects change in a few ways only: the enabled events change, a
code object is brought in line, events are enabled for it alone, or it takes note of an answer. Every operation is a
sequence of such moves. What holds of all code objects after any history is proved move by move.

Answers may be confined to the events that a `Discipline` lets a slot report.
-/

namespace MonitoredVm

namespace Event

theorem id_lt (e : Event) : e.id < 19 := by cases e <;> decide

theorem ofId?_id (e : Event) : ofId? e.id = some e := by cases e <;> rfl

theorem eq_of_id {e e' : Event} (same : e.id = e'.id) : e = e' :=
  Option.some.inj ((ofId?_id e).symm.trans (same ▸ ofId?_id e'))

end Event

theorem Tool.callback_setCallback (tool : Tool) (event ev k) :
    (tool.setCallback event k).callback ev = if ev = event then k else tool.callback ev := by
  simp only [callback, setCallback, Vector.getElem?_setIfInBounds]
  by_cases same : ev = event
  · simp [same, event.id_lt]
  · rw [if_neg fun ids => same (Event.eq_of_id ids).symm, if_neg same]

theorem Tool.callback_blank (name stamp ev) : Tool.callback { name, stamp } ev = none := by
  rw [callback, Vector.getElem?_replicate]
  split <;> rfl

def Event.direction (right : Bool) : Event := if right then .branchRight else .branchLeft

/-- Each direction of a callback for `BRANCH` is registered for its own event. -/
def Tool.Sided (tool : Tool) : Prop :=
  ∀ ev k right, tool.callback ev = some (.branch k right) → ev = Event.direction right

theorem Tool.Sided.setCallback {tool : Tool} (h : tool.Sided)
    (own : ∀ k right, c = some (.branch k right) → event = Event.direction right) :
    (tool.setCallback event c).Sided := by
  intro ev k right there
  rw [callback_setCallback] at there
  split at there
  next same => exact same.trans (own k right there)
  next => exact h ev k right there

namespace Engine

theorem tool_start (t) : ({} : Engine).tool t = {} := by
  unfold tool
  rw [Vector.getElem?_replicate]
  split <;> rfl

theorem tool_congr (e e' : Engine) (same : e.tools = e'.tools) (t) : e.tool t = e'.tool t := by
  rw [tool, same]
  rfl

theorem tool_modifyTool (e : Engine) (t u) (f : Tool → Tool) :
    (e.modifyTool t f).tool u = if u = t ∧ t < 8 then f (e.tool t) else e.tool u := by
  simp only [tool, modifyTool, Vector.getElem?_setIfInBounds]
  grind

/-- Of every tool, each direction of a callback for `BRANCH` is registered for its own event. -/
def Sided (e : Engine) : Prop := ∀ t, (e.tool t).Sided

/-- The same events, stamps and versions; names and callbacks may differ. -/
structure Alike (e e' : Engine) : Prop where
  globals : e'.globals = e.globals
  stamps : e'.stamps = e.stamps
  version : e'.version = e.version
  lastRestart : e'.lastRestart = e.lastRestart
  sided : e.Sided → e'.Sided

theorem Alike.refl (e : Engine) : e.Alike e := ⟨rfl, rfl, rfl, rfl, id⟩

theorem lt_of_succVersion (h : succVersion v = .ok v') : v < v' := by
  unfold succVersion increment at h
  split at h
  · cases h
    omega
  · cases h

theorem setEvents_ok {e : Engine} (h : e.setEvents t asked = .ok (given, some e')) :
    ∃ v, succVersion e.version = .ok v ∧ e' = { e with globals := e.globals.setEvents t given, version := v } := by
  unfold setEvents at h
  obtain ⟨_, -, h⟩ := bind_ok h
  split at h
  next =>
    obtain ⟨_, refused, -⟩ := bind_ok h
    cases refused
  next =>
    obtain ⟨events, -, h⟩ := bind_ok h
    obtain ⟨_, -, h⟩ := bind_ok h
    split at h
    next => cases h
    next =>
      obtain ⟨v, next_version, h⟩ := bind_ok h
      obtain ⟨rfl, made⟩ := Prod.mk.inj (Except.ok.inj h)
      exact ⟨v, next_version, (Option.some.inj made).symm⟩

theorem clearTool_ok {e : Engine} (h : e.clearTool t = .ok e') :
    ∃ v₀ v, (v₀ = e.version ∨ succVersion e.version = .ok v₀) ∧ succVersion v₀ = .ok v ∧
      e' = { e.modifyTool t fun tool => { name := tool.name, stamp := v } with
        globals := e.globals.setEvents t 0, version := v } := by
  unfold clearTool at h
  split at h
  next =>
    rw [pure_bind] at h
    obtain ⟨v, next_version, h⟩ := bind_ok h
    exact ⟨_, v, .inl rfl, next_version, (Except.ok.inj h).symm⟩
  next =>
    obtain ⟨v₀, raised, h⟩ := bind_ok h
    obtain ⟨v, next_version, h⟩ := bind_ok h
    exact ⟨v₀, v, .inr raised, next_version, (Except.ok.inj h).symm⟩

/-- A tool that is cleared keeps its name only, and is stamped with the version this leads to. -/
theorem tool_clearTool {e e' : Engine} (h : e.clearTool t = .ok e') (u) :
    e'.tool u = if u = t ∧ t < 8 then { name := (e.tool t).name, stamp := e'.version } else e.tool u := by
  obtain ⟨v₀, v, -, -, rfl⟩ := clearTool_ok h
  have tools := tool_congr { e.modifyTool t fun tool => { name := tool.name, stamp := v } with
    globals := e.globals.setEvents t 0, version := v } (e.modifyTool t fun tool => { name := tool.name, stamp := v }) rfl u
  rw [tools, tool_modifyTool]

theorem restart_ok {e e' : Engine} (h : e.restart = .ok e') :
    ∃ v₀ v, succVersion e.version = .ok v₀ ∧ succVersion v₀ = .ok v ∧
      e' = { e with lastRestart := v₀, version := v } := by
  unfold restart at h
  obtain ⟨v₀, first, h⟩ := bind_ok h
  obtain ⟨v, second, h⟩ := bind_ok h
  exact ⟨v₀, v, first, second, (Except.ok.inj h).symm⟩

theorem Move.version_lt {e e' : Engine} (h : e.Move e') : e.version < e'.version := by
  cases h with
  | events ok =>
    obtain ⟨v, raised, rfl⟩ := setEvents_ok ok
    exact lt_of_succVersion raised
  | cleared ok =>
    obtain ⟨v₀, v, rfl | first, second, rfl⟩ := clearTool_ok ok
    · exact lt_of_succVersion second
    · exact Nat.lt_trans (lt_of_succVersion first) (lt_of_succVersion second)
  | restarted ok =>
    obtain ⟨v₀, v, first, second, rfl⟩ := restart_ok ok
    exact Nat.lt_trans (lt_of_succVersion first) (lt_of_succVersion second)

theorem Sided.modifyTool {e : Engine} (h : e.Sided) (t) {f : Tool → Tool}
    (sided : ∀ tool : Tool, tool.Sided → (f tool).Sided) : (e.modifyTool t f).Sided := by
  intro i
  rw [tool_modifyTool]
  split
  · exact sided _ (h t)
  · exact h i

theorem Sided.of_tools {e e' : Engine} (h : e.Sided) (same : e'.tools = e.tools) : e'.Sided := by
  intro t
  rw [tool_congr e' e same]
  exact h t

theorem alike_modifyTool (e : Engine) (t) (f : Tool → Tool) (kept : ∀ tool, (f tool).stamp = tool.stamp)
    (sided : ∀ tool : Tool, tool.Sided → (f tool).Sided) : e.Alike (e.modifyTool t f) := by
  refine ⟨rfl, ?_, rfl, rfl, fun h => h.modifyTool t sided⟩
  ext i lt
  simp only [stamps, modifyTool, Vector.getElem_map, Vector.getElem_setIfInBounds]
  split
  next same =>
    subst same
    simp [kept, tool, lt]
  next => rfl

theorem alike_named (e : Engine) (t name) : e.Alike (e.modifyTool t fun tool => { tool with name }) :=
  e.alike_modifyTool t (fun tool => { tool with name }) (fun _ => rfl) fun _ h => h

theorem alike_unregister (e : Engine) (t event) : e.Alike (e.unregister t event) :=
  e.alike_modifyTool t (·.setCallback event none) (fun _ => rfl) fun _ h => h.setCallback fun _ _ none => by cases none

theorem alike_register {e : Engine} {e' t events k previous} (ok : e.register t events k = .ok (e', previous)) :
    e.Alike e' := by
  unfold register at ok
  obtain ⟨_, -, ok⟩ := bind_ok ok
  obtain ⟨event, -, ok⟩ := bind_ok ok
  split at ok
  next =>
    cases ok
    refine e.alike_modifyTool t _ (fun _ => rfl) fun _ h => ?_
    refine (h.setCallback fun k right there => ?_).setCallback fun k right there => ?_
    all_goals
      obtain ⟨_, -, same⟩ := Option.map_eq_some_iff.1 there
      cases same
      rfl
  next =>
    cases ok
    refine e.alike_modifyTool t _ (fun _ => rfl) fun _ h => h.setCallback fun k right there => ?_
    obtain ⟨_, -, same⟩ := Option.map_eq_some_iff.1 there
    cases same

end Engine

/-- Which events may be reported from which slots, and which of them may be fired by hand. -/
structure Discipline where
  allows : Code → Layer → Nat → Event → Prop
  loose : Event → Bool
  opcode : ∀ {code : Code} {i : Nat} {prev : Option Nat} {taken : Bool} {e : Event} {reported : Nat} {payload : Payload},
    Act.opcodeEvent? code i prev taken = some (e, reported, payload) → allows code .opcode i e
  line : ∀ (code : Code) (i : Nat), allows code .line i .line
  instruction : ∀ (code : Code) (i : Nat), allows code .instruction i .instruction
  fired : ∀ {e : Event}, loose e = true → ∀ (code : Code) (i : Nat), allows code .opcode i e

/-- Answers are about events that may be reported from their slots. -/
def Discipline.rule (d : Discipline) : Rule := ⟨fun code _ c => d.allows code c.layer c.slot c.args.event⟩

instance : Coe Discipline Rule := ⟨Discipline.rule⟩

/-- Every event may be fired from everywhere. -/
def Discipline.any : Discipline where
  allows _ _ _ _ := True
  loose _ := true
  opcode _ := trivial
  line _ _ := trivial
  instruction _ _ := trivial
  fired _ _ _ := trivial

/-- Code objects take note of every answer. -/
abbrev Rule.any : Rule := Discipline.any.rule

namespace CodeState

/-- The same but for the changes to be reported. -/
def Alike (s s' : CodeState) : Prop := ∃ changes, s' = { s with changes }

theorem Alike.refl (s : CodeState) : s.Alike s := ⟨s.changes, rfl⟩

/-- These stamps are among those the code object has and those of the engine's tools. -/
def Stamps (s : CodeState) (e : Engine) (stamps : Vector Nat 8) : Prop :=
  ∀ v ∈ stamps, v ∈ (s.data.getD {}).stamps ∨ ∃ t, v = (e.tool t).stamp

theorem stamps_setIfInBounds (s : CodeState) (e : Engine) (t) :
    s.Stamps e ((s.data.getD {}).stamps.setIfInBounds t (e.tool t).stamp) := by
  intro v there
  obtain ⟨j, lt, rfl⟩ := Vector.getElem_of_mem there
  rw [Vector.getElem_setIfInBounds]
  split
  next => exact .inr ⟨t, rfl⟩
  next => exact .inl (Vector.getElem_mem lt)

/-- The ways a code object changes under an engine. -/
inductive Move (rule : Rule) (e : Engine) (code : Code) (s : CodeState) : CodeState → Prop where
  | forced : Move rule e code s (e.force code s).1
  | stamped (stamps : Vector Nat 8) : s.Stamps e stamps →
    Move rule e code s { s with data := some { s.data.getD {} with stamps } }
  /-- Events are enabled for this code object alone, which is then brought in line. -/
  | localSet (own : LocalMonitors) (stamps : Vector Nat 8) : s.Stamps e stamps →
    Move rule e code s (e.force code { s with data := some { s.data.getD {} with own, stamps } }).1
  | answered {c} : rule.allows code s c → Move rule e code s (s.heed code c)

end CodeState

/-- The same code in the same state, held and tracked or not. -/
structure CodeEntry.Alike (x y : CodeEntry) : Prop where
  code : y.code = x.code
  state : x.state.Alike y.state

namespace World

/-- The same code objects in the same states. -/
structure SameCodes (w w' : World) : Prop where
  size : w'.codes.size = w.codes.size
  entry : ∀ i, (w.entry i).Alike (w'.entry i)

theorem SameCodes.of_eq {w w' : World} (h : w'.codes = w.codes) : w.SameCodes w' := by
  have entry : ∀ i, w'.entry i = w.entry i := fun i => by simp only [World.entry, h]
  exact ⟨by rw [h], fun i => by rw [entry]; exact ⟨rfl, .refl _⟩⟩

/-- The ways a world changes. -/
inductive Move (rule : Rule) (w : World) : World → Prop where
  | quiet {w'} : w.engine.Alike w'.engine → w.SameCodes w' → Move rule w w'
  | govern {w'} : w.engine.Move w'.engine → w.SameCodes w' → Move rule w w'
  | change {w' i s} : i < w.codes.size →
    CodeState.Move rule w.engine (w.entry i).code (w.entry i).state s → w'.engine = w.engine →
    (w.modifyState i fun _ => s).SameCodes w' → Move rule w w'
  | addCode (spec : CodeSpec) : Move rule w (w.addCode spec).1

abbrev Moves (rule : Rule) : World → World → Prop := Relation.ReflTransGen (Move rule)

theorem sameCodes_modifyEntry (w : World) (i) (f : CodeEntry → CodeEntry) (same : ∀ x : CodeEntry, x.Alike (f x)) :
    w.SameCodes (w.modifyEntry i f) := by
  refine ⟨size_modifyEntry .., fun j => ?_⟩
  rw [entry_modifyEntry]
  split
  next here => exact here.1 ▸ same _
  next => exact ⟨rfl, .refl _⟩

theorem Moves.quiet (engine : w.engine.Alike w'.engine) (codes : w.SameCodes w') : Moves rule w w' :=
  .single (.quiet engine codes)

theorem Moves.idle {w w' : World} (engine : w'.engine = w.engine) (codes : w'.codes = w.codes) : Moves rule w w' :=
  .quiet (engine ▸ .refl _) (.of_eq codes)

theorem Moves.state (lt : i < w.codes.size) (m : CodeState.Move rule w.engine (w.entry i).code (w.entry i).state s)
    (alike : s.Alike s') : Moves rule w (w.modifyState i fun _ => s') := by
  refine .single (.change lt m rfl ⟨by simp, fun j => ?_⟩)
  rw [entry_modifyState, entry_modifyState]
  split
  next => exact ⟨rfl, alike⟩
  next => exact ⟨rfl, .refl _⟩

theorem Effect.moves {w : World} (h : w.Effect p rule w') : Moves rule w w' := by
  cases h with
  | aside engine codes => exact .idle engine codes
  | heard | addCallback => exact .idle rfl rfl
  | named t name => exact .quiet (w.engine.alike_named t name) (.of_eq rfl)
  | registered _ ok => exact .quiet (Engine.alike_register ok) (.of_eq rfl)
  | unregistered t event => exact .quiet (w.engine.alike_unregister t event) (.of_eq rfl)
  | governed m => exact .single (.govern m (.of_eq rfl))
  | addCode spec => exact .single (.addCode spec)
  | tracked i => exact .quiet (.refl _) (sameCodes_modifyEntry w i _ fun _ => ⟨rfl, .refl _⟩)
  | dropped i => exact .quiet (.refl _) (sameCodes_modifyEntry w i _ fun _ => ⟨rfl, .refl _⟩)
  | forced changes lt => exact .state lt .forced ⟨changes, rfl⟩
  | restamped lt => exact .state lt (.stamped _ (CodeState.stamps_setIfInBounds _ _ _)) (.refl _)
  | assigned changes lt => exact .state lt (.localSet _ _ (CodeState.stamps_setIfInBounds _ _ _)) ⟨changes, rfl⟩
  | noted lt allowed => exact .state lt (.answered allowed) ⟨[], rfl⟩

theorem Effects.moves (h : Effects p rule w w') : Moves rule w w' := by
  induction h with
  | refl => exact .refl
  | tail _ one ih => exact ih.trans one.moves

theorem Moves.code_eq (h : Moves rule w w') (lt : i < w.codes.size) :
    i < w'.codes.size ∧ (w'.entry i).code = (w.entry i).code := by
  induction h with
  | refl => exact ⟨lt, rfl⟩
  | @tail w₁ _ _ m ih =>
    obtain ⟨lt, same⟩ := ih
    cases m with
    | quiet _ codes => exact ⟨codes.size ▸ lt, (codes.entry i).code.trans same⟩
    | govern _ codes => exact ⟨codes.size ▸ lt, (codes.entry i).code.trans same⟩
    | change _ _ _ codes =>
      refine ⟨by rwa [codes.size, size_modifyState], (codes.entry i).code.trans ?_⟩
      rw [entry_modifyState]
      split
      next here => exact here.1 ▸ same
      next => exact same
    | addCode spec =>
      refine ⟨by rw [size_addCode]; omega, ?_⟩
      rw [entry_addCode, if_neg (Nat.ne_of_lt lt)]
      exact same

end World

namespace Act
variable {α β : Type}

/-- Running the operation amounts to moves, also when it aborts. -/
def Within (rule : Rule) (w : World) (x : Act α) : Prop := World.Moves rule w (x.exec w).2

section Within
variable {p : Policy} {rule : Rule} {w : World}

theorem Does.within (h : Does p rule w x) : Within rule w x := World.Effects.moves h

theorem within_pure (a : α) : Within rule w (pure a) := .refl

theorem within_modify (h : World.Moves rule w (f w)) : Within rule w (modify f) := h

theorem Within.bind (first : Within rule w x) (rest : ∀ a w', x.exec w = (.ok a, w') → Within rule w' (f a)) :
    Within rule w (x >>= f) := by
  unfold Within at first ⊢
  rw [exec_bind]
  rcases ran : x.exec w with ⟨_ | a, w'⟩
  · rwa [ran] at first
  · rw [ran] at first
    exact first.trans (rest a w' ran)

theorem Within.get (h : Within rule w (f w)) : Within rule w (get >>= f) := h

theorem Within.moves (h : Within rule w x) (ran : exec x w = (.ok a, w')) : World.Moves rule w w' := by
  rwa [Within, ran] at h

theorem Does.moves (h : Does p rule w x) (ran : exec x w = (.ok a, w')) : World.Moves rule w w' :=
  h.within.moves ran

theorem within_instrument (i) : Within rule w (instrument i) := (does_instrument (p := .any) i).within

theorem within_restart : Within rule w restart := (does_restart (p := .any)).within

theorem within_slotAt (i offset) : Within rule w (slotAt i offset) := (does_slotAt (p := .any) i offset).within

theorem within_invoke (t layer slot c a) : Within rule w (invoke t layer slot c a) :=
  (does_invoke (World.follows_any w) t layer slot c a).within

theorem within_settle
    (ok : c.args.code < w.codes.size → rule.allows (w.entry c.args.code).code (w.entry c.args.code).state c) :
    Within rule w (settle c) :=
  (does_settle (p := .any) ok).within

/-- Delivery brings answers to the event from the slot that fired, wherever the code object comes to be. -/
theorem does_deliver_rule
    (ok : ∀ w', World.Moves rule w w' → a.code < w'.codes.size → ∀ c : Call, c.layer = layer → c.slot = slot →
      c.args.event = a.event → rule.allows (w'.entry a.code).code (w'.entry a.code).state c) :
    Does .any rule w (deliver t layer slot a tools) := by
  refine does_deliver (World.follows_any w) fun w₀ w₁ before moved lt c of_layer of_slot args _ => ?_
  exact ok w₁ (World.Effects.moves (before.trans moved)) lt c of_layer of_slot (by rw [args])

end Within

end Act

namespace World
variable {rule : Rule} {w : World}

theorem moves_answer (h : act.Within rule w) (reply : α → Reply) : Moves rule w (w.answer act reply).1 := by
  rw [answer_eq]
  exact h

theorem moves_dispatch (h : act.Within rule { w with dispatching := some code }) (reply : α → ThreadReply) :
    Moves rule w (w.dispatch code act reply).1 := by
  have began : Moves rule w { w with dispatching := some code } := .idle rfl rfl
  exact (began.trans h).trans (Moves.idle rfl rfl)

end World

namespace Act
variable {rule : Discipline} {w : World}

/-- From `w` on, wherever the code object comes to be, it may report the event from this slot. -/
def Permits (rule : Discipline) (w : World) (i : Nat) (layer : Layer) (slot : Nat) (e : Event) : Prop :=
  ∀ w', World.Moves rule w w' → i < w'.codes.size → rule.allows (w'.entry i).code layer slot e

theorem does_deliver_permitted (ok : Permits rule w a.code layer slot a.event) :
    Does .any rule w (deliver t layer slot a tools) := by
  refine does_deliver_rule fun w' moved lt c of_layer of_slot event => ?_
  change rule.allows (w'.entry a.code).code c.layer c.slot c.args.event
  rw [of_layer, of_slot, event]
  exact ok w' moved lt

theorem does_fireFrom (ok : Permits rule w i .opcode offset e) :
    Does .any rule w (fireFrom t e i offset reported payload) := by
  refine .get ?_
  split
  · exact does_pure _
  · exact does_deliver_permitted ok

end Act

theorem Discipline.conduct (rule : Discipline) : Conduct .any rule rule.loose fun _ => True where
  follows _ := World.follows_any _
  kept _ _ := trivial
  opcode _ lt _ is_event := Act.does_fireFrom fun w' moved _ => by
    -- what is reported goes by the code, and that stays
    rw [(moved.code_eq lt).2]
    exact rule.opcode is_event
  line _ is_line := Act.does_deliver_permitted fun _ _ _ => is_line ▸ rule.line _ _
  instruction _ is_instruction := Act.does_deliver_permitted fun _ _ _ => is_instruction ▸ rule.instruction _ _
  fired _ ok := Act.does_deliver_permitted fun _ _ _ => rule.fired ok _ _

namespace Act
variable {rule : Discipline} {w : World}

theorem within_deliver (ok : Permits rule w a.code layer slot a.event) : Within rule w (deliver t layer slot a tools) :=
  (does_deliver_permitted ok).within

theorem within_fireLine (t i offset prev) : Within rule w (fireLine t i offset prev) :=
  (rule.conduct.fireLine trivial t i offset prev).within

theorem within_fireInstruction (t i offset) : Within rule w (fireInstruction t i offset) :=
  (rule.conduct.fireInstruction trivial t i offset).within

theorem within_fireOpcode (t i offset prev taken) : Within rule w (fireOpcode t i offset prev taken) :=
  (rule.conduct.fireOpcode trivial t i offset prev taken).within

theorem within_step (t i offset prev taken) : Within rule w (step t i offset prev taken) :=
  (rule.conduct.step trivial t i offset prev taken).within

end Act

namespace World
variable {rule : Discipline}

theorem moves_runPath (t code path) (w : World) (prev) : Moves rule w (w.runPath t code prev path).1 :=
  (rule.conduct.runPath t code path trivial prev).moves

theorem moves_perform (w : World) (op : Operation) (ok : op.firesOnly rule.loose = true) :
    Moves rule w (w.perform op).1 :=
  (rule.conduct.perform op ok (fun _ _ => trivial) trivial).moves

theorem moves_performAll (w : World) (ops) (ok : Operation.allFireOnly rule.loose ops = true) :
    Moves rule w (w.performAll ops).1 :=
  (rule.conduct.performAll ops ok (fun _ _ => trivial) trivial).moves

end World
end MonitoredVm

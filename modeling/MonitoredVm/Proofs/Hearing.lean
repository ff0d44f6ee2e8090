import MonitoredVm.Proofs.OpcodeEvents

/-!
# What callbacks hear

Every call is told to the code object together with its answer, so the history says what callbacks heard. No tool is
called for an event of an instruction that it has disabled there, and one direction of a callback for `BRANCH` is missed
only where the deciding instruction reports nothing. Both hold of every answer in every history.

Main statement: `World.Reached.told`. Control operations realign code objects and no more (`Rule.silent`), so nothing a
callback does on the way takes a tool out that is still to be called.
-/

namespace MonitoredVm

open List CodeState

/-! ## Another account of what happened -/

namespace CodeState

/-- The code object with another account of what happened. -/
def retold (s : CodeState) (history : List Happening) : CodeState := { s with history }

section Retold
variable (s : CodeState) (h : List Happening)

theorem retold_resetCounter (i op) : (s.retold h).resetCounter i op = (s.resetCounter i op).retold h := by
  unfold resetCounter
  split <;> rfl

theorem retold_instrument (i) : (s.retold h).instrument i = (s.instrument i).retold h := by
  have slot : (s.retold h).slot i = s.slot i := rfl
  have reset := (s.setSlot i { s.slot i with instrumented := true }).retold_resetCounter h i (s.slot i).base
  unfold instrument
  rw [slot]
  dsimp only
  split
  · rfl
  · exact congrArg (fun s' : CodeState => ({ s' with changes := s'.changes ++ [.instrumented (s.slot i).base i] } : CodeState)) reset

theorem retold_restore (i) : (s.retold h).restore i = (s.restore i).retold h := by
  have slot : (s.retold h).slot i = s.slot i := rfl
  have reset := (s.setSlot i { s.slot i with instrumented := false }).retold_resetCounter h i (s.slot i).base
  unfold restore
  rw [slot]
  dsimp only
  split
  · exact congrArg (fun s' : CodeState => ({ s' with changes := s'.changes ++ [.restored (s.slot i).base i] } : CodeState)) reset
  · rfl

theorem retold_remove (l i e tools) : (s.retold h).remove l i e tools = (s.remove l i e tools).retold h := by
  have data : (s.retold h).data = s.data := rfl
  have table := (s.modifyData (l.mapTable (removeIn · i tools))).retold_restore h i
  unfold remove
  rw [data]
  split
  · rfl
  · dsimp only
    split
    · cases l with
      | opcode => exact table
      | line => rfl
      | instruction => rfl
    · rfl

theorem retold_add (l i tools) : (s.retold h).add l i tools = (s.add l i tools).retold h := by
  cases l with
  | opcode => exact (s.modifyData (Layer.mapTable (addIn · i tools) .opcode)).retold_instrument h i
  | line => rfl
  | instruction => rfl

theorem retold_foldl (step : ∀ s i, f (s.retold h) i = (f s i).retold h) (offsets : List Nat) :
    offsets.foldl f (s.retold h) = (offsets.foldl f s).retold h :=
  foldl_hom (retold · h) (H := fun s i => step s i)

theorem retold_updateOpcodes (code change offsets) :
    (s.retold h).updateOpcodes code change offsets = (s.updateOpcodes code change offsets).retold h := by
  refine s.retold_foldl h (fun s i => ?_) offsets
  split
  · rfl
  · next e _ =>
    dsimp only
    have first : (if LocalMonitors.get change.removed e != 0 then
        (s.retold h).remove .opcode i e (LocalMonitors.get change.removed e) else s.retold h) =
        (if LocalMonitors.get change.removed e != 0 then
          s.remove .opcode i e (LocalMonitors.get change.removed e) else s).retold h := by
      split
      · exact s.retold_remove h ..
      · rfl
    rw [first]
    split
    · exact retold_add ..
    · rfl

theorem retold_removeAll (l e tools offsets) :
    (s.retold h).removeAll l e tools offsets = (s.removeAll l e tools offsets).retold h := by
  unfold removeAll
  split
  · rfl
  · exact s.retold_foldl h (fun s i => s.retold_remove h l i e tools) offsets

theorem retold_addAll (l tools offsets) :
    (s.retold h).addAll l tools offsets = (s.addAll l tools offsets).retold h := by
  unfold addAll
  split
  · rfl
  · exact s.retold_foldl h (fun s i => s.retold_add h l i tools) offsets

theorem retold_update (code change) : (s.retold h).update code change = (s.update code change).retold h := by
  have starts : (s.retold h).startsLine = s.startsLine := rfl
  unfold update
  simp only [starts, retold_updateOpcodes, retold_removeAll, retold_addAll]

/-- Bringing a code object in line does not look at what happened, and at most adds that it was done. -/
theorem force_retold (e : Engine) (code) :
    ∃ more, (∀ h, e.force code (s.retold h) = ((e.force code s).1.retold (more ++ h), (e.force code s).2)) ∧
      (more = [] ∨ ∃ a, more = [.aligned a]) := by
  cases monitored : code.noMonitoring with
  | true =>
    refine ⟨[], fun h => ?_, .inl rfl⟩
    rw [Engine.force, Engine.force, if_pos monitored, if_pos monitored]
    rfl
  | false =>
    by_cases stuck : LocalMonitors.get (s.alignment e).after .line ≠ 0 ∧ (s.madeLines? e code).isNone
    · refine ⟨[], fun h => ?_, .inl rfl⟩
      have stuck' : LocalMonitors.get ((s.retold h).alignment e).after .line ≠ 0 ∧ ((s.retold h).madeLines? e code).isNone :=
        stuck
      rw [force_eq e monitored, force_eq e monitored, if_pos stuck, if_pos stuck']
      rfl
    · refine ⟨[.aligned (s.alignment e)], fun h => ?_, .inr ⟨_, rfl⟩⟩
      have stuck' : ¬ (LocalMonitors.get ((s.retold h).alignment e).after .line ≠ 0 ∧
        ((s.retold h).madeLines? e code).isNone) := stuck
      have same : (s.retold h).alignment e = s.alignment e := rfl
      rw [force_eq e monitored, force_eq e monitored, if_neg stuck, if_neg stuck', same]
      split
      · rfl
      · have updated := (s.prepared e code).retold_update (.aligned (s.alignment e) :: h) code (s.alignment e)
        exact congrArg (fun s : CodeState => ({ s with version := e.version }, Except.ok _)) updated

end Retold
end CodeState

/-! ## Histories grow -/

namespace CodeState

theorem history_force (e : Engine) (code) (s : CodeState) :
    (e.force code s).1.history = s.history ∨ ∃ a, (e.force code s).1.history = .aligned a :: s.history := by
  obtain ⟨more, forced, which⟩ := s.force_retold e code
  have same : (e.force code s).1.history = more ++ s.history := congrArg (·.1.history) (forced s.history)
  obtain rfl | ⟨a, rfl⟩ := which
  · exact .inl same
  · exact .inr ⟨a, same⟩

end CodeState

/-- What happened to a code object by moves: it was realigned, and took note of answers that the rule allows. -/
def Rule.Permits (rule : Rule) (code : Code) (happened : List Happening) : Prop :=
  ∀ c, .answered c ∈ happened → ∃ s, rule.allows code s c

theorem Rule.permits_nil (rule : Rule) (code) : rule.Permits code [] := fun _ none => absurd none not_mem_nil

theorem Rule.Permits.append {rule : Rule} (h : rule.Permits code later) (h' : rule.Permits code earlier) :
    rule.Permits code (later ++ earlier) :=
  fun c inside => (mem_append.1 inside).elim (h c) (h' c)

theorem CodeState.Move.history {rule : Rule} {s s' : CodeState} (m : s.Move rule e code s') :
    ∃ more, s'.history = more ++ s.history ∧ rule.Permits code more := by
  have forced : ∀ s : CodeState, ∃ more, (e.force code s).1.history = more ++ s.history ∧ rule.Permits code more := by
    intro s
    obtain same | ⟨a, same⟩ := history_force e code s
    · exact ⟨[], same, rule.permits_nil code⟩
    · exact ⟨[.aligned a], same, fun c inside => by cases mem_singleton.1 inside⟩
  cases m with
  | forced => exact forced s
  | stamped => exact ⟨[], rfl, rule.permits_nil code⟩
  | localSet own stamps => exact forced { s with data := some { s.data.getD {} with own, stamps } }
  | @answered c allowed =>
    refine ⟨[.answered c], history_heed s code c, fun c' inside => ?_⟩
    cases mem_singleton.1 inside
    exact ⟨s, allowed⟩

theorem World.entry_of_ge {w : World} (beyond : w.codes.size ≤ i) : w.entry i = default := by
  simp [World.entry, beyond]

theorem World.Moves.history_since {rule : Rule} {w w' : World} (moved : Moves rule w w') (i) :
    ∃ more, (w'.entry i).state.history = more ++ (w.entry i).state.history ∧ rule.Permits (w'.entry i).code more := by
  induction moved with
  | refl => exact ⟨[], rfl, rule.permits_nil _⟩
  | @tail w₁ w₂ before m ih =>
    obtain ⟨more, grown, permitted⟩ := ih
    cases m with
    | quiet engine codes =>
      obtain ⟨code, changes, same⟩ := codes.entry i
      exact ⟨more, by rw [same]; exact grown, code ▸ permitted⟩
    | govern moved codes =>
      obtain ⟨code, changes, same⟩ := codes.entry i
      exact ⟨more, by rw [same]; exact grown, code ▸ permitted⟩
    | @change _ j s lt' moved engine codes =>
      obtain ⟨code, changes, same⟩ := codes.entry i
      rw [entry_modifyState] at code same
      rw [same, code]
      split
      next here =>
        obtain ⟨latest, told, allowed⟩ := moved.history
        rw [← here.1] at allowed ⊢
        rw [← here.1, grown, ← append_assoc] at told
        exact ⟨latest ++ more, told, allowed.append permitted⟩
      next => exact ⟨more, grown, permitted⟩
    | addCode spec =>
      rw [entry_addCode]
      split
      next new =>
        -- so far there was nothing at this index
        rw [entry_of_ge (Nat.le_of_eq new.symm)] at grown
        obtain ⟨-, none_before⟩ := append_eq_nil_iff.1 grown.symm
        exact ⟨[], none_before.symm, rule.permits_nil _⟩
      next => exact ⟨more, grown, permitted⟩

theorem World.Moves.history (moved : Moves rule w w') (lt : i < w.codes.size) :
    ∃ more, (w'.entry i).state.history = more ++ (w.entry i).state.history ∧ rule.Permits (w.entry i).code more := by
  rw [← (moved.code_eq lt).2]
  exact moved.history_since i

/-! ## Answers in their place -/

/-- Every answer in the history has a property, with what came before it. -/
def EachAnswer (p : Call → List Happening → Prop) : List Happening → Prop
  | [] => True
  | .aligned _ :: earlier => EachAnswer p earlier
  | .answered c :: earlier => p c earlier ∧ EachAnswer p earlier

instance decidableEachAnswer {p : Call → List Happening → Prop} [∀ c earlier, Decidable (p c earlier)] :
    (history : List Happening) → Decidable (EachAnswer p history)
  | [] => isTrue trivial
  | .aligned _ :: earlier => decidableEachAnswer earlier
  | .answered c :: earlier =>
    have := decidableEachAnswer (p := p) earlier
    inferInstanceAs (Decidable (p c earlier ∧ EachAnswer p earlier))

namespace EachAnswer
variable {p q : Call → List Happening → Prop}

theorem imp (weaker : ∀ c earlier, p c earlier → q c earlier) {history} (h : EachAnswer p history) :
    EachAnswer q history := by
  induction history with
  | nil => exact h
  | cons x earlier ih =>
    cases x with
    | aligned a => exact ih h
    | answered c => exact ⟨weaker c earlier h.1, ih h.2⟩

theorem earlier {later earlier} (h : EachAnswer p (later ++ earlier)) : EachAnswer p earlier := by
  induction later with
  | nil => exact h
  | cons x later ih =>
    cases x with
    | aligned a => exact ih h
    | answered c => exact ih h.2

theorem of_append {later earlier c} (h : EachAnswer p (later ++ .answered c :: earlier)) : p c earlier := h.earlier.1

end EachAnswer

/-- The tools active for `e`, told from the history: those of the latest alignment. -/
def activeAfter (e : Event) : List Happening → ToolMask
  | [] => 0
  | .aligned a :: _ => LocalMonitors.get a.after e
  | .answered _ :: before => activeAfter e before

/-- The history tells which tools are active. -/
def CodeState.Recalls (_ : Code) (s : CodeState) : Prop := ∀ e, s.active e = activeAfter e s.history

theorem CodeState.kept_recalls : Kept Recalls where
  fresh code e := by simp [active, ofCode, activeAfter]
  preset own stamps h e := (active_preset ..).trans (h e)
  reported _ h := h
  realigned _ r _ e := by rw [r.active, r.history, activeAfter]
  faulted _ f h e := by rw [f.active, f.history, h]
  heeded _ _ h e := by rw [active_heed, history_heed, activeAfter, h]

section Disabled
variable {code : Code} {l : Layer} {i t : Nat} {e : Event} {more earlier : List Happening}

theorem disabledAt_realigned (silent : Rule.silent.Permits code more)
    (out : (disabledAt code l i e (more ++ earlier)).has t = true) : (disabledAt code l i e earlier).has t = true := by
  induction more with
  | nil => exact out
  | cons x more ih =>
    have silent' : Rule.silent.Permits code more := fun c inside => silent c (mem_cons_of_mem _ inside)
    cases x with
    | aligned a =>
      rw [cons_append, disabledAt, ToolMask.has_without, Bool.and_eq_true] at out
      exact ih silent' out.1
    | answered c =>
      obtain ⟨s, never⟩ := silent c mem_cons_self
      exact never.elim

theorem disabledAt_answered_of_ne (other : c.args.tool ≠ t) :
    (disabledAt code l i e (.answered c :: earlier)).has t = (disabledAt code l i e earlier).has t := by
  rw [disabledAt]
  split
  · simp [other]
  · rfl

end Disabled

/-! ## Answers that are heard -/

/-- What is registered is one direction of a callback for `BRANCH`. -/
def Callable.isBranch : Callable → Bool
  | .direct _ => false
  | .branch _ _ => true

/-- An answer that the code object can come to hear: a tool gives it, the event belongs to the slot, the tool has not
disabled it there, a direction of a `BRANCH` callback is called for its event, and no other call is missed, this one only
if nothing is layered on the deciding instruction. -/
structure Heard (code : Code) (s : CodeState) (c : Call) : Prop where
  tool : c.args.tool < 8
  slot : Discipline.slots.allows code c.layer c.slot c.args.event
  enabled : c.layer = .opcode → c.args.event.isLocal = true →
    (disabledAt code .opcode c.slot c.args.event s.history).has c.args.tool = false
  direction : ∀ k right, c.callable = .branch k right → c.args.event = Event.direction right
  checked : c.reached = false → c.callable.isBranch = true
  missed : c.reached = false → ¬ (c.args.offset < code.size ∧ (s.slot c.args.offset).isLayered = true)

def Rule.hearing : Rule := ⟨Heard⟩

theorem Invariant.mono (h : Invariant rule inv) (stricter : ∀ code s c, rule'.allows code s c → rule.allows code s c) :
    Invariant rule' inv where
  fresh := h.fresh
  alike := h.alike
  govern := h.govern
  move m holds := by
    cases m with
    | forced => exact h.move .forced holds
    | stamped stamps set => exact h.move (.stamped stamps set) holds
    | localSet own stamps set => exact h.move (.localSet own stamps set) holds
    | answered allowed => exact h.move (.answered (stricter _ _ _ allowed)) holds

theorem Kept.and (h : Kept inv) (h' : Kept inv') : Kept fun code s => inv code s ∧ inv' code s where
  fresh code := ⟨h.fresh code, h'.fresh code⟩
  preset own stamps both := ⟨h.preset own stamps both.1, h'.preset own stamps both.2⟩
  reported changes both := ⟨h.reported changes both.1, h'.reported changes both.2⟩
  realigned formed r both := ⟨h.realigned formed r both.1, h'.realigned formed r both.2⟩
  faulted formed f both := ⟨h.faulted formed f both.1, h'.faulted formed f both.2⟩
  heeded formed allowed both := ⟨h.heeded formed allowed both.1, h'.heeded formed allowed both.2⟩

theorem Kept.hearing (h : Kept inv) : Invariant Rule.hearing fun e code s => Sound e code s ∧ inv code s :=
  h.invariant.mono fun _ _ _ heard => heard.slot

theorem Engine.Move.sided {e e' : Engine} (m : e.Move e') (h : e.Sided) : e'.Sided := by
  cases m with
  | events ok =>
    obtain ⟨v, -, rfl⟩ := setEvents_ok ok
    exact h.of_tools rfl
  | @cleared t _ ok =>
    obtain ⟨v₀, v, -, -, rfl⟩ := clearTool_ok ok
    have nothing : ∀ name, Tool.Sided { name, stamp := v } := by
      intro name ev k right there
      rw [Tool.callback_blank] at there
      cases there
    have cleared : (e.modifyTool t fun tool => { name := tool.name, stamp := v }).Sided :=
      h.modifyTool t fun tool _ => nothing tool.name
    exact cleared.of_tools rfl
  | restarted ok =>
    obtain ⟨v₀, v, -, -, rfl⟩ := restart_ok ok
    exact h.of_tools rfl

theorem World.Moves.sided {w w' : World} (moved : Moves rule w w') (h : w.engine.Sided) : w'.engine.Sided := by
  induction moved with
  | refl => exact h
  | tail _ m ih =>
    cases m with
    | quiet engine _ => exact engine.sided ih
    | govern moved _ => exact moved.sided ih
    | change _ _ engine _ => exact engine ▸ ih
    | addCode spec => exact ih

theorem Engine.lt_of_callable {e : Engine} (h : e.callable t ev = some c) : t < 8 := by
  refine Nat.lt_of_not_le fun beyond => ?_
  have blank : e.tool t = {} := by simp [tool, beyond]
  rw [callable, blank, Tool.callback_blank] at h
  cases h

/-- The world is such that every callback hears what it should. -/
structure World.Audible (w : World) : Prop where
  sided : w.engine.Sided
  begun : w.engine.Begun
  all : w.All fun e code s => Sound e code s ∧ CodeState.OpcodesExact code s

theorem World.Audible.moves (h : w.Audible) (moved : Moves Rule.hearing w w') : w'.Audible := by
  obtain ⟨begun, all⟩ := kept_opcodesExact.hearing.moves moved h.begun h.all
  exact ⟨moved.sided h.sided, begun, all⟩

namespace Act
variable {w w' : World} {t slot : Nat} {layer : Layer} {a : EventArgs} {tools : List Nat}

theorem invoke_ok (h : exec (invoke t layer slot c a) w = (.ok call, w')) :
    call.callable = c ∧ call.reached = w.reaches c a ∧ (call.reached = false → w'.codes = w.codes) := by
  have answered := Except.ok.inj (congrArg Prod.fst h)
  have reached : call.reached = w.reaches c a := by rw [← answered]
  refine ⟨by rw [← answered], reached, fun missed => ?_⟩
  rw [reached] at missed
  have ran : (exec (invoke t layer slot c a) w).2.codes = w'.codes := by rw [h]
  simp only [invoke, exec_bind, exec_get, missed] at ran
  exact ran.symm

theorem reaches_of_missed (missed : w.reaches c a = false) : c.isBranch = true ∧
    ¬ (a.offset < (w.entry a.code).code.size ∧ ((w.entry a.code).state.slot a.offset).isLayered = true) := by
  unfold World.reaches at missed
  split at missed
  · cases missed
  · exact ⟨rfl, by simpa using missed⟩

theorem history_settle (lt : c.args.code < w.codes.size) :
    ((exec (settle c) w).2.entry c.args.code).state.history = .answered c :: (w.entry c.args.code).state.history := by
  have noted : (((w.modifyState c.args.code (·.heed (w.entry c.args.code).code c)).reportChanges c.args.code).entry
      c.args.code).state.history = .answered c :: (w.entry c.args.code).state.history := by
    obtain ⟨log, reported⟩ := w.reportChanges_modifyState c.args.code (·.heed (w.entry c.args.code).code c) w.log
    have there := w.entry_modifyState c.args.code c.args.code
      fun s => { s.heed (w.entry c.args.code).code c with changes := [] }
    rw [if_pos ⟨rfl, lt⟩] at there
    have whole := congrArg (fun w : World => (w.entry c.args.code).state.history) reported
    exact whole.trans ((congrArg (·.state.history) there).trans (history_heed ..))
  simp only [settle, exec_bind, exec_get, changeState, exec_modify]
  split
  · exact noted
  · exact noted
  · split
    · split <;> exact noted
    · exact noted

theorem does_deliver_heard (here : w.Audible)
    (allowed : ∀ w', World.Moves Rule.hearing w w' → a.code < w'.codes.size →
      Discipline.slots.allows (w'.entry a.code).code layer slot a.event)
    (clear : layer = .opcode → a.event.isLocal = true → a.code < w.codes.size ∧ tools.Nodup ∧ ∀ tool ∈ tools,
      (disabledAt (w.entry a.code).code .opcode slot a.event (w.entry a.code).state.history).has tool = false) :
    Does .any Rule.hearing w (deliver t layer slot a tools) := by
  induction tools generalizing w with
  | nil => exact does_pure _
  | cons tool rest ih =>
    refine .get ?_
    split
    next =>
      refine ih here allowed fun opcode isLocal => ?_
      obtain ⟨lt, distinct, out⟩ := clear opcode isLocal
      exact ⟨lt, distinct.of_cons, fun u inside => out u (mem_cons_of_mem _ inside)⟩
    next c registered =>
      have invokes : ∀ {rule : Rule}, Does .any rule w (invoke t layer slot c { a with tool }) :=
        does_invoke (World.follows_any w) ..
      refine invokes.bind fun call w₁ invoked => ?_
      obtain ⟨rfl, rfl, args⟩ := exec_invoke invoked
      obtain ⟨rfl, reached, missed⟩ := invoke_ok invoked
      have quiet : World.Moves Rule.silent w w₁ := invokes.moves invoked
      have moved : World.Moves Rule.hearing w w₁ := invokes.moves invoked
      -- nothing on the way to the answer takes a tool out
      have still : ∀ u, call.layer = .opcode → a.event.isLocal = true → u ∈ tool :: rest →
          (disabledAt (w₁.entry a.code).code .opcode call.slot a.event (w₁.entry a.code).state.history).has u = false := by
        intro u opcode isLocal inside
        obtain ⟨lt, -, out⟩ := clear opcode isLocal
        obtain ⟨more, grown, silent⟩ := quiet.history lt
        rw [(quiet.code_eq lt).2, grown]
        exact Bool.eq_false_iff.2 fun out_there =>
          Bool.eq_false_iff.1 (out u inside) (disabledAt_realigned silent out_there)
      have hear : call.args.code < w₁.codes.size →
          Heard (w₁.entry call.args.code).code (w₁.entry call.args.code).state call := by
        rw [args]
        intro lt
        refine ⟨?_, ?_, ?_, ?_, fun unreached => (reaches_of_missed (reached.symm.trans unreached)).1, ?_⟩
        · rw [args]
          exact Engine.lt_of_callable registered
        · rw [args]
          exact allowed w₁ moved lt
        · rw [args]
          exact fun opcode isLocal => still tool opcode isLocal mem_cons_self
        · rw [args]
          exact fun k right branch => here.sided tool a.event k right (branch ▸ registered)
        · intro unreached
          rw [reached] at unreached
          have same : w₁.entry a.code = w.entry a.code := by
            rw [World.entry, World.entry, missed (reached.trans unreached)]
          have silent := (reaches_of_missed unreached).2
          rw [args, same]
          exact silent
      have settles : Does .any Rule.hearing w₁ (settle call) := does_settle hear
      refine settles.bind fun _ w₂ settled => ih ((here.moves moved).moves (settles.moves settled)) ?_ ?_
      · exact fun w' moved' => allowed w' ((moved.trans (settles.moves settled)).trans moved')
      · intro opcode isLocal
        obtain ⟨lt, distinct, out⟩ := clear opcode isLocal
        obtain ⟨lt₁, code₁⟩ := moved.code_eq lt
        obtain ⟨lt₂, code₂⟩ := (settles.moves settled).code_eq lt₁
        refine ⟨lt₂, distinct.of_cons, fun u inside => ?_⟩
        have noted := history_settle (w := w₁) (c := call) (by rw [args]; exact lt₁)
        rw [settled, args] at noted
        have other : call.args.tool ≠ u := by
          rw [args]
          intro (same : tool = u)
          exact (nodup_cons.1 distinct).1 (same ▸ inside)
        rw [code₂, noted, disabledAt_answered_of_ne other]
        exact still u opcode isLocal (mem_cons_of_mem _ inside)

end Act

theorem ToolMask.nodup_tools (m : ToolMask) : m.tools.Nodup := List.Pairwise.filter _ (by decide)

theorem CodeState.OpcodesExact.clear (exact_there : OpcodesExact code s) (formed : s.Formed code)
    (instrumented : (s.slot i).instrumented = true) (is_event : (code.opcodeAt i).event? (code.oparg i) = some e)
    (isLocal : e.isLocal = true) (globals) (called : tool ∈ (s.toolsAt globals i e).tools) :
    (disabledAt code .opcode i e s.history).has tool = false := by
  have event : code.eventAt .opcode i = some e := by
    cases there : code.eventAt .opcode i with
    | none => cases (formed.idle there).symm.trans instrumented
    | some ev => rw [← is_event, Code.eventAt_opcode there]
  have at_i := exact_there i e event
  have calls := (s.stepTools_opcode globals i isLocal).trans at_i.calls_eq
  have armed : Layer.opcode.armed (s.slot i) = true := instrumented
  rw [stepTools, if_pos armed] at calls
  rw [ToolMask.mem_tools] at called
  have has := congrArg (ToolMask.has · tool) calls
  simp only [called, ToolMask.has_without] at has
  simpa using (Bool.and_eq_true_iff.1 has.symm).2

theorem conduct_hearing : Conduct .any Rule.hearing (fun e => !e.isLocal) World.Audible where
  follows _ := World.follows_any _
  kept effects h := h.moves (World.Effects.moves effects)
  opcode {w t i offset prev taken e reported payload} here lt instrumented is_event := by
    have event := Act.event_of_opcodeEvent is_event
    refine .get ?_
    split
    · exact Act.does_pure _
    · refine Act.does_deliver_heard here (fun w' moved _ _ => ?_) fun _ isLocal => ?_
      · rw [(moved.code_eq lt).2]
        exact event
      · obtain ⟨sound, exact_there⟩ := here.all i lt
        refine ⟨lt, ToolMask.nodup_tools _, fun tool called => ?_⟩
        exact exact_there.clear sound.formed instrumented event isLocal w.engine.globals called
  line here is_line :=
    Act.does_deliver_heard here (fun _ _ _ _ => is_line) fun opcode => by cases opcode
  instruction here is_instruction :=
    Act.does_deliver_heard here (fun _ _ _ _ => is_instruction) fun opcode => by cases opcode
  fired here loose := by
    refine Act.does_deliver_heard here (fun _ _ _ isLocal => ?_) fun _ isLocal => ?_
    all_goals
      rw [isLocal] at loose
      cases loose

/-- What is so of every answer, told from what came before it: the event belongs to the slot, the tool had not disabled it
there, a direction of a `BRANCH` callback was called for its event, and no other call was missed, this one only if every
tool active for the event of the deciding instruction had disabled that. -/
structure Told (code : Code) (c : Call) (earlier : List Happening) : Prop where
  tool : c.args.tool < 8
  slot : Discipline.slots.allows code c.layer c.slot c.args.event
  enabled : c.layer = .opcode → c.args.event.isLocal = true →
    (disabledAt code .opcode c.slot c.args.event earlier).has c.args.tool = false
  direction : ∀ k right, c.callable = .branch k right → c.args.event = Event.direction right
  checked : c.reached = false → c.callable.isBranch = true
  missed : c.reached = false → ∀ e, code.eventAt .opcode c.args.offset = some e →
    (activeAfter e earlier).without (disabledAt code .opcode c.args.offset e earlier) = 0

theorem Heard.told (heard : Heard code s c) (exact_there : CodeState.OpcodesExact code s) (recalls : s.Recalls code) :
    Told code c s.history where
  tool := heard.tool
  slot := heard.slot
  enabled := heard.enabled
  direction := heard.direction
  checked := heard.checked
  missed unreached e event := by
    rw [← recalls e]
    refine Decidable.byContradiction fun reports => ?_
    have armed : (s.slot c.args.offset).instrumented = true := (exact_there c.args.offset e event).armed.2 reports
    refine heard.missed unreached ⟨Code.lt_of_mem_offsetsFrom (Code.mem_of_eventAt event), ?_⟩
    simp [Slot.isLayered, armed]

/-- A property of the state of a code object, together with one of each answer that follows from it. -/
theorem invariant_told : Invariant Rule.hearing fun e code s =>
    (Sound e code s ∧ CodeState.OpcodesExact code s ∧ s.Recalls code) ∧ EachAnswer (Told code) s.history := by
  have states : Kept fun code s => CodeState.OpcodesExact code s ∧ s.Recalls code :=
    kept_opcodesExact.and kept_recalls
  have forced : ∀ {e : Engine} {code : Code} {s : CodeState}, EachAnswer (Told code) s.history →
      EachAnswer (Told code) (e.force code s).1.history := by
    intro e code s told
    obtain same | ⟨a, same⟩ := history_force e code s
    · rwa [same]
    · rw [same]
      exact told
  constructor
  · exact fun spec begun => ⟨states.hearing.fresh spec begun, trivial⟩
  · rintro e e' code s _ engine ⟨changes, rfl⟩ ⟨holds, told⟩
    exact ⟨states.hearing.alike engine ⟨changes, rfl⟩ holds, told⟩
  · exact fun moved holds => ⟨states.hearing.govern moved holds.1, holds.2⟩
  · rintro e code s s' m ⟨holds, told⟩
    refine ⟨states.hearing.move m holds, ?_⟩
    cases m with
    | forced => exact forced told
    | stamped => exact told
    | localSet own stamps => exact forced told
    | answered heard =>
      rw [history_heed]
      exact ⟨Heard.told heard holds.2.1 holds.2.2, told⟩

theorem Engine.sided_start : Sided {} := by
  intro t ev k right there
  rw [tool_start, Tool.callback_blank] at there
  cases there

theorem World.Reached.moves (reached : w.Reached fun e => !e.isLocal) :
    ∃ callbacks threshold, Moves Rule.hearing { callbacks, log := { threshold } } w := by
  obtain ⟨specs, callbacks, threshold, ops, loose, rfl⟩ := reached
  have first : Audible { callbacks := callbacks.toArray, log := { threshold } } :=
    ⟨Engine.sided_start, fun _ ev => Monitors.mask_none _, fun i lt => absurd lt (Nat.not_lt_zero i)⟩
  have started : Moves Rule.hearing _ (start specs callbacks threshold) := moves_start specs callbacks threshold
  have performed := conduct_hearing.performAll ops loose (fun _ _ => trivial) (first.moves started)
  exact ⟨_, _, started.trans (Effects.moves performed)⟩

theorem World.Reached.told {w : World} (reached : w.Reached fun e => !e.isLocal) (lt : i < w.codes.size) :
    EachAnswer (Told (w.entry i).code) (w.entry i).state.history := by
  obtain ⟨callbacks, threshold, moved⟩ := reached.moves
  have begun : Engine.Begun {} := fun _ ev => Monitors.mask_none _
  exact ((invariant_told.moves moved begun fun i lt => absurd lt (Nat.not_lt_zero i)).2 i lt).2

end MonitoredVm

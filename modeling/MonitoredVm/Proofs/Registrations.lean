import MonitoredVm.Proofs.Hearing

/-!
# Registrations

A tool is called with what is registered for it at the time, so whatever is called for it was registered before, by an
operation or by a callback. Main statement: from a world in which a tool has nothing registered, only callbacks that are
registered for it from there on are called for it (`World.Unheard.performAll`, `World.Unheard.deliver`).
-/

namespace MonitoredVm

mutual

/-- The callbacks that an operation registers, each with its tool, itself or through a callback that it adds. -/
def Control.registrations : Control → List (Nat × Nat)
  | .register tool _ (some k) => [(tool, k)]
  | .install tool _ _ k => [(tool, k)]
  | .addCallback c => c.registrations
  | _ => []

/-- The callbacks that a callback has yet to register. -/
def Callback.registrations : Callback → List (Nat × Nat)
  | .scripted _ actions calls => ((Control.registrationsEach actions).drop calls).flatten
  | _ => []

def Control.registrationsEach : List (List Control) → List (List (Nat × Nat))
  | [] => []
  | ops :: rest => Control.registrationsAll ops :: Control.registrationsEach rest

def Control.registrationsAll : List Control → List (Nat × Nat)
  | [] => []
  | c :: rest => c.registrations ++ Control.registrationsAll rest

end

theorem Control.registrationsEach_eq (actions : List (List Control)) :
    Control.registrationsEach actions = actions.map Control.registrationsAll := by
  induction actions with
  | nil => rfl
  | cons ops rest ih => rw [registrationsEach, ih, List.map_cons]

theorem Control.mem_registrationsAll : x ∈ Control.registrationsAll ops ↔ ∃ c ∈ ops, x ∈ c.registrations := by
  induction ops with
  | nil => simp [registrationsAll]
  | cons c rest ih => simp [registrationsAll, ih]

theorem Callback.mem_registrations {k : Callback} {c : Control} (due : ops ∈ k.actions) (mem : c ∈ ops)
    (there : x ∈ c.registrations) : x ∈ k.registrations := by
  cases k with
  | scripted verdicts actions calls =>
    rw [registrations, Control.registrationsEach_eq, ← List.map_drop]
    exact List.mem_flatten.2 ⟨_, List.mem_map_of_mem due, Control.mem_registrationsAll.2 ⟨c, mem, there⟩⟩
  | recorder | coverage | profile | eventLog => cases due

/-- What the callbacks of a world have yet to register. -/
def World.registrations (w : World) : List (Nat × Nat) := w.callbacks.toList.flatMap Callback.registrations

/-- What operations register themselves or through callbacks that they add. -/
def Operation.registrations (ops : List Operation) : List (Nat × Nat) :=
  (Operation.allControls ops).flatMap Control.registrations

/-- For the tool `t` only some callbacks are registered. -/
def Policy.registers (t : Nat) (ok : Nat → Prop) : Policy where
  permits c := ∀ k, (t, k) ∈ c.registrations → ok k
  install {_ _ _ k} permitted ev := by
    intro k' there
    exact permitted k' (by simpa only [Control.registrations] using there)
  script {k} permitted ops due c mem k' there := by
    refine permitted k' ?_
    rw [Control.registrations]
    exact Callback.mem_registrations due mem there

/-- For the tool `t` only some callbacks are called. -/
def Rule.calls (t : Nat) (ok : Nat → Prop) : Rule := ⟨fun _ _ c => c.args.tool = t → ok c.callable.callback⟩

namespace Engine

theorem callable_modifyTool {e : Engine} {f : Tool → Tool} (called : (e.modifyTool t f).callable u ev = some c) :
    e.callable u ev = some c ∨ u = t ∧ (f (e.tool t)).callback ev = some c := by
  rw [callable, tool_modifyTool] at called
  split at called
  next here => exact .inr ⟨here.1, called⟩
  next => exact .inl called

theorem callable_register {e e' : Engine} {t u events k previous ev} {c : Callable}
    (ok : e.register t events k = .ok (e', previous)) (called : e'.callable u ev = some c) :
    e.callable u ev = some c ∨ u = t ∧ k = some c.callback := by
  unfold register at ok
  obtain ⟨_, -, ok⟩ := bind_ok ok
  obtain ⟨event, -, ok⟩ := bind_ok ok
  have new : ∀ {f : Nat → Callable}, (∀ n, (f n).callback = n) → k.map f = some c → k = some c.callback := by
    intro f inverse there
    obtain ⟨n, rfl, rfl⟩ := Option.map_eq_some_iff.1 there
    rw [inverse]
  split at ok
  next =>
    obtain ⟨rfl, -⟩ := Prod.mk.inj (Except.ok.inj ok)
    rcases callable_modifyTool called with old | ⟨rfl, there⟩
    · exact .inl old
    · rw [Tool.callback_setCallback, Tool.callback_setCallback] at there
      split at there
      · exact .inr ⟨rfl, new (fun _ => rfl) there⟩
      · split at there
        · exact .inr ⟨rfl, new (fun _ => rfl) there⟩
        · exact .inl there
  next =>
    obtain ⟨rfl, -⟩ := Prod.mk.inj (Except.ok.inj ok)
    rcases callable_modifyTool called with old | ⟨rfl, there⟩
    · exact .inl old
    · rw [Tool.callback_setCallback] at there
      split at there
      · exact .inr ⟨rfl, new (fun _ => rfl) there⟩
      · exact .inl there

theorem Move.callable {e e' : Engine} (m : e.Move e') (called : e'.callable t ev = some c) :
    e.callable t ev = some c := by
  have kept : ∀ e₁ : Engine, e₁.tools = e.tools → e₁.callable t ev = some c → e.callable t ev = some c := by
    intro e₁ same there
    rwa [Engine.callable, tool_congr e₁ e same] at there
  cases m with
  | events ok =>
    obtain ⟨v, -, rfl⟩ := setEvents_ok ok
    exact kept _ (by rfl) called
  | cleared ok =>
    rw [Engine.callable, tool_clearTool ok] at called
    split at called
    · rw [Tool.callback_blank] at called
      cases called
    · exact called
  | restarted ok =>
    obtain ⟨v₀, v, -, -, rfl⟩ := restart_ok ok
    exact kept _ (by rfl) called

end Engine

namespace World
variable {t : Nat} {ok : Nat → Prop} {rule : Rule} {w w' : World}

/-- For the tool `t` only some callbacks are registered, now and by callbacks from now on. -/
structure Confined (t : Nat) (ok : Nat → Prop) (w : World) : Prop where
  registered : ∀ {ev : Event} {c : Callable}, w.engine.callable t ev = some c → ok c.callback
  follows : w.Follows (.registers t ok)

theorem Confined.effect (h : w.Confined t ok) (one : w.Effect (.registers t ok) rule w') : w'.Confined t ok := by
  refine ⟨fun {ev c} called => ?_, h.follows.effects (.single one)⟩
  cases one with
  | aside engine => exact h.registered (engine ▸ called)
  | named u name =>
    rcases Engine.callable_modifyTool called with old | ⟨rfl, there⟩
    · exact h.registered old
    · exact h.registered there
  | registered permitted went =>
    rcases Engine.callable_register went called with old | ⟨rfl, rfl⟩
    · exact h.registered old
    · exact permitted c.callback (List.mem_singleton.2 rfl)
  | unregistered u event =>
    rcases Engine.callable_modifyTool called with old | ⟨rfl, there⟩
    · exact h.registered old
    · rw [Tool.callback_setCallback] at there
      split at there
      · cases there
      · exact h.registered there
  | governed m => exact h.registered (m.callable called)
  | _ => exact h.registered called

theorem Confined.effects (h : w.Confined t ok) (effects : Effects (.registers t ok) rule w w') : w'.Confined t ok := by
  induction effects with
  | refl => exact h
  | tail _ one ih => exact ih.effect one

end World

theorem Act.does_deliver_confined (h : w.Confined t ok) :
    Does (.registers t ok) (.calls t ok) w (deliver th layer slot a tools) := by
  refine does_deliver h.follows fun w₀ w₁ before _ _ c _ _ _ called => ?_
  rintro rfl
  exact (h.effects before).registered called

theorem conduct_confined (t) (ok : Nat → Prop) :
    Conduct (.registers t ok) (.calls t ok) (fun _ => true) (World.Confined t ok) where
  follows h := h.follows
  kept effects h := h.effects effects
  opcode h _ _ _ := by
    refine .get ?_
    split
    · exact Act.does_pure _
    · exact Act.does_deliver_confined h
  line h _ := Act.does_deliver_confined h
  instruction h _ := Act.does_deliver_confined h
  fired h _ := Act.does_deliver_confined h

namespace World

/-- Every call noted between two worlds has a property. -/
def CallsSince (w w' : World) (ok : Call → Prop) : Prop :=
  ∀ i, ∃ more, (w'.entry i).state.history = more ++ (w.entry i).state.history ∧ ∀ c, .answered c ∈ more → ok c

theorem Effects.callsSince (effects : Effects p ⟨fun _ _ c => ok c⟩ w w') : w.CallsSince w' ok := by
  intro i
  obtain ⟨more, grown, permitted⟩ := (Effects.moves effects).history_since i
  refine ⟨more, grown, fun c mem => ?_⟩
  obtain ⟨_, allowed⟩ := permitted c mem
  exact allowed

section Confined
variable {t : Nat} {ok : Nat → Prop} {w w' : World}

theorem Confined.performAll (h : w.Confined t ok)
    (permitted : ∀ c ∈ Operation.allControls ops, (Policy.registers t ok).permits c) :
    w.CallsSince (w.performAll ops).1 fun c => c.args.tool = t → ok c.callable.callback :=
  Effects.callsSince ((conduct_confined t ok).performAll ops (Operation.allFireOnly_any ops) permitted h)

theorem Confined.deliver (h : w.Confined t ok) (permitted : ∀ c ∈ cs, (Policy.registers t ok).permits c)
    (th layer slot a tools) : w.CallsSince ((Act.deliver th layer slot a tools).exec (w.controls cs).1).2 fun c =>
      c.args.tool = t → ok c.callable.callback := by
  have performed : Effects (.registers t ok) (.calls t ok) w (w.controls cs).1 := effects_controls w permitted
  exact Effects.callsSince (performed.trans (Act.does_deliver_confined (h.effects performed)))

end Confined

/-- The tool has no callback registered. -/
def Unheard (w : World) (t : Nat) : Prop := ∀ ev, w.engine.callable t ev = none

namespace Unheard
variable {t : Nat} {w : World}

theorem confined (h : w.Unheard t) (others) : w.Confined t fun k => (t, k) ∈ w.registrations ++ others where
  registered {ev c} called := by
    rw [h ev] at called
    cases called
  follows k mem ops due c among k' registers := by
    refine List.mem_append_left _ (List.mem_flatMap.2 ⟨k, Array.mem_toList_iff.2 mem, ?_⟩)
    exact Callback.mem_registrations due among registers

theorem performAll (h : w.Unheard t) (ops) : w.CallsSince (w.performAll ops).1 fun c =>
    c.args.tool = t → (t, c.callable.callback) ∈ w.registrations ++ Operation.registrations ops :=
  (h.confined (Operation.registrations ops)).performAll fun c mem _ registers =>
    List.mem_append_right _ (List.mem_flatMap.2 ⟨c, mem, registers⟩)

/-- A delivery that goes on after operations calls for the tool what these or callbacks register for it. -/
theorem deliver (h : w.Unheard t) (cs : List Control) (th layer slot a tools) :
    w.CallsSince ((Act.deliver th layer slot a tools).exec (w.controls cs).1).2 fun c =>
      c.args.tool = t → (t, c.callable.callback) ∈ w.registrations ++ cs.flatMap Control.registrations :=
  (h.confined (cs.flatMap Control.registrations)).deliver
    (fun c mem _ registers => List.mem_append_right _ (List.mem_flatMap.2 ⟨c, mem, registers⟩)) th layer slot a tools

end Unheard
end World
end MonitoredVm
